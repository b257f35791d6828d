/-
What the TCP client hands on.

A frame reaches the connection only as a segment of it. `Conn` is what the
connection keeps, and `Conn.receive` what one segment does to it: every
other path of `net_rx` leaves the connection alone and hands nothing on.
What is left is arithmetic on sequence numbers.
-/
import Ncmips.Net.Proofs.Netstack
import Ncmips.Net.Client

namespace Ncmips.Net

open Words Prog

-- ============================================================ the connection

/-- The variables of the connection. -/
structure Conn where
  state : Tcp
  rip : Nat
  rport : Nat
  lport : Nat
  una : Nat
  nxt : Nat
  rcvNxt : Nat
  dataFn : Bool

def Stack.conn (n : Stack) : Conn where
  state := n.tcpState
  rip := n.tcpRip
  rport := n.tcpRport
  lport := n.tcpLport
  una := n.sndUna
  nxt := n.sndNxt
  rcvNxt := n.rcvNxt
  dataFn := n.dataFn

structure Segment where
  seq : Nat
  ack : Nat
  flags : Nat
  data : List UInt8
  deriving DecidableEq

/-- The flag `b` of a segment. -/
def Segment.Has (s : Segment) (b : Nat) : Prop := s.flags &&& b ≠ 0

instance (s : Segment) (b : Nat) : Decidable (s.Has b) := inferInstanceAs (Decidable (_ ≠ _))

def Conn.acked (s : Segment) (c : Conn) : Conn :=
  if s.Has tfAck ∧ seqDiff s.ack c.una > 0 ∧ seqDiff s.ack c.nxt ≤ 0 then { c with una := s.ack } else c

/-- The segment's data is the next. -/
def Conn.Next (s : Segment) (c : Conn) : Prop := s.data ≠ [] ∧ s.seq = c.rcvNxt

instance (s : Segment) (c : Conn) : Decidable (c.Next s) := inferInstanceAs (Decidable (_ ∧ _))

def Conn.taken (s : Segment) (c : Conn) : Conn :=
  if c.Next s then { c with rcvNxt := u32 (c.rcvNxt + s.data.length) } else c

def Conn.closed (s : Segment) (c : Conn) : Conn :=
  if s.Has tfFin ∧ u32 (s.seq + s.data.length) = c.rcvNxt then
    { c with
      rcvNxt := u32 (c.rcvNxt + 1)
      nxt := if c.state = .established then u32 (c.nxt + 1) else c.nxt
      state := .done }
  else c

/-- What a segment does to the connection, and what is handed on. -/
def Conn.receive (s : Segment) (c : Conn) : Conn × List UInt8 :=
  if s.Has tfRst then ({ c with state := .done }, [])
  else if c.state = .synSent then
    if s.flags &&& (tfSyn ||| tfAck) = tfSyn ||| tfAck ∧ s.ack = c.nxt then
      ({ c with rcvNxt := u32 (s.seq + 1), una := s.ack, state := .established }, [])
    else (c, [])
  else
    (((c.acked s).taken s).closed s, if c.Next s ∧ c.dataFn then s.data else [])

-- ============================================================ everything else

variable {f : Frame} {α β : Type} {wlanSend : List Sent → Bool}

/-- It hands nothing on, and its result is a `Q`. -/
abbrev Quiet (f : Frame) (p : Rx α) (Q : α → Prop) : Prop :=
  Goes f.answer (fun e => f.give e = []) p (fun _ => True) Q

theorem byte_quiet (i : Nat) : Quiet f (byte i) fun b => b = (f.answer (.read i)).toNat := by
  refine (goes_lift (meets_ask rfl rfl : (ask (.read i) : Prog Act UInt8 UInt8).Meets f.answer
    (fun e => f.give e = []) fun b => b = f.answer (.read i))).bind fun b hb => goes_pure ?_
  rw [hb]

theorem be16_quiet (i : Nat) : Quiet f (be16 i) fun w => w = word16 f.answer i := by
  refine (byte_quiet i).bind fun a ha => (byte_quiet (i + 1)).bind fun b hb => goes_pure ?_
  rw [ha, hb]
  rfl

theorem be32_quiet (i : Nat) : Quiet f (getBe32 i) fun w => w = word32 f.answer i := by
  refine (be16_quiet i).bind fun a ha => (be16_quiet (i + 2)).bind fun b hb => goes_pure ?_
  rw [ha, hb]
  rfl

theorem macAt_quiet (i : Nat) : Quiet f (macAt i) fun _ => True :=
  (byte_quiet _).bind fun _ _ => (byte_quiet _).bind fun _ _ => (byte_quiet _).bind fun _ _ =>
    (byte_quiet _).bind fun _ _ => (byte_quiet _).bind fun _ _ => (byte_quiet _).bind fun _ _ =>
      goes_pure trivial

theorem bytesAt_quiet (i n : Nat) : Quiet f (bytesAt i n) fun _ => True := by
  induction n generalizing i with
  | zero => exact goes_pure trivial
  | succ n ih => exact (byte_quiet i).bind fun _ _ => (ih (i + 1)).bind fun _ _ => goes_pure trivial

theorem build_quiet (cap n : Nat) : Quiet f (build cap n) fun _ => True :=
  (goes_lift (meets_ask rfl trivial : (ask (.build cap n) : Prog Act UInt8 UInt8).Meets f.answer
    (fun e => f.give e = []) fun _ => True)).bind fun _ _ => goes_pure trivial

theorem arpSend_quiet (op : Nat) (tmac : Mac) (tip : Nat) (n : Stack) :
    Quiet f (arpSend wlanSend op tmac tip n) fun n' => n'.conn = n.conn :=
  (build_quiet _ _).bind fun _ _ => goes_pure rfl

theorem ipSend_quiet (dst proto : Nat) (payload : List UInt8) (n : Stack) :
    Quiet f (ipSend wlanSend dst proto payload n) fun r => r.2.conn = n.conn := by
  unfold ipSend
  split
  · exact goes_pure rfl
  · split
    · exact (arpSend_quiet _ _ _ n).bind fun _ h => goes_pure h
    · exact (build_quiet _ _).bind fun _ _ => goes_pure rfl

theorem udpSend_quiet (dst sport dport : Nat) (d : List UInt8) (n : Stack) :
    Quiet f (udpSend wlanSend dst sport dport d n) fun r => r.2.conn = n.conn := by
  unfold udpSend
  split
  · exact goes_pure rfl
  · exact (build_quiet _ _).bind fun _ _ => ipSend_quiet _ _ _ n

theorem dhcpSend_quiet (type : Nat) (n : Stack) :
    Quiet f (dhcpSend wlanSend type n) fun n' => n'.conn = n.conn :=
  (build_quiet _ _).bind fun _ _ => (udpSend_quiet _ _ _ _ n).bind fun _ h => goes_pure h

theorem tcpSeg_quiet {wlanSend : List Sent → Bool} (seq flags : Nat) (d : List UInt8) (n : Stack) :
    Quiet f (tcpSeg wlanSend seq flags d n) fun r => r.2.conn = n.conn := by
  unfold tcpSeg
  extract_lets hl front mss ph sum s
  split
  · exact goes_pure rfl
  · exact (build_quiet _ _).bind fun _ _ => ipSend_quiet _ _ _ n

theorem arpLearn_conn (ip : Nat) (m : Mac) (n : Stack) : (arpLearn ip m n).conn = n.conn := by
  unfold arpLearn
  split
  · rfl
  · rfl

theorem arpRx_quiet (p len : Nat) (n : Stack) :
    Quiet f (arpRx wlanSend p len n) fun n' => n'.conn = n.conn := by
  unfold arpRx
  split
  · exact goes_pure rfl
  · refine (be16_quiet _).bind fun hw _ => (be16_quiet _).bind fun proto _ => ?_
    split
    · exact goes_pure rfl
    · refine (be16_quiet _).bind fun op _ => (be32_quiet _).bind fun sip _ =>
        (be32_quiet _).bind fun tip _ => (macAt_quiet _).bind fun m _ => ?_
      extract_lets learnt
      have hlearn : learnt.conn = n.conn := by
        unfold learnt
        split
        · exact arpLearn_conn _ _ _
        · rfl
      split
      · exact (arpSend_quiet _ _ _ _).bind fun n' h => goes_pure (Eq.trans (b := n'.conn) rfl (h.trans hlearn))
      · exact goes_pure hlearn

-- ================================================================ UDP, ICMP

theorem dhcpOption_quiet (code l i : Nat) (a : Options) :
    Quiet f (dhcpOption code l i a) fun _ => True := by
  unfold dhcpOption
  split
  · exact (byte_quiet _).bind fun _ _ => goes_pure trivial
  · split
    · exact (be32_quiet _).bind fun _ _ => goes_pure trivial
    · exact goes_pure trivial

theorem dhcpOptions_quiet (p len turns o : Nat) (a : Options) :
    Quiet f (dhcpOptions p len turns o a) fun _ => True := by
  induction turns generalizing o a with
  | zero => exact goes_throw trivial
  | succ turns ih =>
      unfold dhcpOptions
      split
      · refine (byte_quiet _).bind fun code _ => ?_
        split
        · exact goes_pure trivial
        · split
          · exact ih _ _
          · refine (byte_quiet _).bind fun l _ => ?_
            split
            · exact goes_pure trivial
            · exact (dhcpOption_quiet _ _ _ _).bind fun a _ => ih _ a
      · exact goes_pure trivial

theorem dhcpRx_quiet (turns p len : Nat) (n : Stack) :
    Quiet f (dhcpRx wlanSend turns p len n) fun n' => n'.conn = n.conn := by
  unfold dhcpRx
  split
  · exact goes_pure rfl
  · refine (byte_quiet _).bind fun op _ => (be32_quiet _).bind fun xid _ =>
      (be32_quiet _).bind fun magic _ => (macAt_quiet _).bind fun m _ => ?_
    split
    · exact goes_pure rfl
    · refine (dhcpOptions_quiet _ _ _ _ _).bind fun a _ => (be32_quiet _).bind fun yours _ => ?_
      split
      · exact (dhcpSend_quiet _ _).mono (fun _ h => h) fun _ h => h
      · split
        · exact goes_pure rfl
        · split
          · exact (dhcpSend_quiet _ _).mono (fun _ h => h) fun _ h => h
          · exact goes_pure rfl

theorem icmpRx_quiet (src p len : Nat) (n : Stack) :
    Quiet f (icmpRx wlanSend src p len n) fun n' => n'.conn = n.conn := by
  unfold icmpRx
  split
  · exact goes_pure rfl
  · refine (byte_quiet _).bind fun type _ => ?_
    split
    · exact goes_pure rfl
    · refine (bytesAt_quiet _ _).bind fun r _ => ?_
      refine (build_quiet _ _).bind fun _ _ => (ipSend_quiet _ _ _ n).bind fun sent h => ?_
      refine goes_pure ?_
      split
      · exact h
      · exact h

theorem dnsName_quiet (d len turns p : Nat) : Quiet f (dnsName d len turns p) fun _ => True := by
  induction turns generalizing p with
  | zero => exact goes_throw trivial
  | succ turns ih =>
      unfold dnsName
      split
      · refine (byte_quiet _).bind fun b _ => ?_
        split
        · exact goes_pure trivial
        · split
          · exact goes_pure trivial
          · exact ih _
      · exact goes_pure trivial

theorem dnsQuestions_quiet (d len turns q p : Nat) :
    Quiet f (dnsQuestions d len turns q p) fun _ => True := by
  induction q generalizing p with
  | zero => exact goes_pure trivial
  | succ q ih => exact (dnsName_quiet _ _ _ _).bind fun p _ => ih _

theorem dnsAnswers_quiet (d len turns an p : Nat) :
    Quiet f (dnsAnswers d len turns an p) fun _ => True := by
  induction an generalizing p with
  | zero => exact goes_pure trivial
  | succ an ih =>
      unfold dnsAnswers
      split
      · refine (dnsName_quiet _ _ _ _).bind fun p _ => ?_
        split
        · exact goes_pure trivial
        · refine (be16_quiet _).bind fun type _ => (be16_quiet _).bind fun rdlen _ => ?_
          dsimp only
          split
          · exact (be32_quiet _).bind fun _ _ => goes_pure trivial
          · exact ih _
      · exact goes_pure trivial

theorem dnsRx_quiet (turns d len : Nat) (n : Stack) :
    Quiet f (dnsRx turns d len n) fun n' => n'.conn = n.conn := by
  unfold dnsRx
  split
  · exact goes_pure rfl
  · refine (be16_quiet _).bind fun id _ => (byte_quiet _).bind fun flags _ => ?_
    split
    · exact goes_pure rfl
    · refine (byte_quiet _).bind fun rcode _ => ?_
      split
      · exact goes_pure rfl
      · refine (be16_quiet _).bind fun q _ => (be16_quiet _).bind fun an _ =>
          (dnsQuestions_quiet _ _ _ _ _).bind fun p _ =>
            (dnsAnswers_quiet _ _ _ _ _).bind fun a _ => goes_pure ?_
        cases a with
        | none => rfl
        | some a => rfl

theorem udpRx_quiet (turns p len : Nat) (n : Stack) :
    Quiet f (udpRx wlanSend turns p len n) fun n' => n'.conn = n.conn := by
  unfold udpRx
  split
  · exact goes_pure rfl
  · refine (be16_quiet _).bind fun sport _ => (be16_quiet _).bind fun dport _ =>
      (be16_quiet _).bind fun ulen _ => ?_
    split
    · exact goes_pure rfl
    · split
      · exact dhcpRx_quiet _ _ _ n
      · split
        · unfold netUdpRx
          split
          · exact dnsRx_quiet _ _ _ n
          · exact goes_pure rfl
        · exact goes_pure rfl

-- =================================================================== segments

/-- What a function of the receive path does to the connection, and hands on. -/
abbrev Gives (f : Frame) (p : Rx Stack) (c : Conn × List UInt8) : Prop :=
  Hands f.answer f.give p fun n l => (n.conn, l) = c

theorem gives_pure {n : Stack} {c : Conn} (h : n.conn = c) :
    Gives f (pure n : Rx Stack) (c, []) := hands_pure (congrArg (·, []) h)

theorem Goes.gives {p : Rx Stack} {c : Conn} (h : Quiet f p fun n => n.conn = c) :
    Gives f p (c, []) := by
  refine h.hands.mono ?_
  rintro n l ⟨hn, rfl⟩
  exact congrArg (·, []) hn

theorem giveData_hands (off n : Nat) :
    Hands f.answer f.give (giveData off n) fun _ l => l = (f.data.drop off).take n := by
  refine (hands_ask (e := Act.data off n) (Q := fun _ l => l = (f.data.drop off).take n)
    rfl).bind fun r l hl => hands_pure ?_
  rw [List.append_nil, hl]

/-- A segment whose data is at `i`. -/
def Frame.segmentAt (f : Frame) (seq ack flags i dlen : Nat) : Segment :=
  { seq, ack, flags, data := (f.data.drop i).take dlen }

theorem Frame.segmentAt_length {i dlen : Nat} (h : i + dlen ≤ f.data.length)
    (seq ack flags : Nat) : (f.segmentAt seq ack flags i dlen).data.length = dlen := by
  unfold Frame.segmentAt
  rw [List.length_take, List.length_drop]
  omega

theorem tcpAcked_conn (f : Frame) (seq ack flags i dlen : Nat) (n : Stack) :
    (tcpAcked flags ack n).conn = n.conn.acked (f.segmentAt seq ack flags i dlen) := by
  unfold tcpAcked Conn.acked
  split
  · next h => exact (if_pos h).symm
  · next h => exact (if_neg h).symm

theorem tcpData_hands {seq i dlen : Nat} (h : i + dlen ≤ f.data.length) (ack flags : Nat) (n : Stack) :
    Gives f (tcpData seq i dlen n) (n.conn.taken (f.segmentAt seq ack flags i dlen),
      if n.conn.Next (f.segmentAt seq ack flags i dlen) ∧ n.conn.dataFn
        then (f.segmentAt seq ack flags i dlen).data else []) := by
  have hlen := f.segmentAt_length h seq ack flags
  generalize hs : f.segmentAt seq ack flags i dlen = s at *
  have hseq : s.seq = seq := by rw [← hs]; rfl
  have hdata : s.data = (f.data.drop i).take dlen := by rw [← hs]; rfl
  have hempty : s.data = [] ↔ dlen = 0 := by rw [← hlen, List.length_eq_zero_iff]
  unfold tcpData Conn.taken
  split
  · next hzero =>
    have hnext : ¬n.conn.Next s := fun hn => hn.1 (hempty.2 hzero)
    rw [if_neg hnext, if_neg fun hn => hnext hn.1]
    exact gives_pure rfl
  · next hsome =>
    split
    · next heq =>
      have hnext : n.conn.Next s := ⟨fun he => hsome (hempty.1 he), hseq.trans heq⟩
      rw [if_pos hnext, hlen]
      split
      · next hfn =>
        rw [if_pos ⟨hnext, hfn⟩]
        refine (giveData_hands i dlen).bind ?_
        rintro _ l rfl
        refine hands_pure ?_
        rw [List.append_nil, hdata]
        rfl
      · next hfn =>
        rw [if_neg fun hn => hfn hn.2]
        exact gives_pure rfl
    · next hne =>
      have hnext : ¬n.conn.Next s := fun hn => hne (hseq.symm.trans hn.2)
      rw [if_neg hnext, if_neg fun hn => hnext hn.1]
      exact gives_pure rfl

theorem tcpFin_quiet {seq flags i dlen : Nat} (h : i + dlen ≤ f.data.length) (ack : Nat) (n : Stack) :
    Quiet f (tcpFin wlanSend seq flags dlen n) fun n' =>
      n'.conn = n.conn.closed (f.segmentAt seq ack flags i dlen) := by
  have hlen := f.segmentAt_length h seq ack flags
  generalize hs : f.segmentAt seq ack flags i dlen = s at *
  have hseq : s.seq = seq := by rw [← hs]; rfl
  have hflags : s.flags = flags := by rw [← hs]; rfl
  unfold tcpFin Conn.closed
  split
  · next hfin =>
    rw [if_pos (show s.Has tfFin ∧ u32 (s.seq + s.data.length) = n.conn.rcvNxt by
      rw [hlen, hseq]; exact ⟨by rw [Segment.Has, hflags]; exact hfin.1, hfin.2⟩)]
    dsimp only
    split
    · next hstate =>
      rw [if_pos (show n.conn.state = .established from hstate)]
      refine (tcpSeg_quiet _ _ _ _).bind fun r hr => goes_pure ?_
      have hnxt : r.2.sndNxt = n.sndNxt := congrArg Conn.nxt hr
      have hback : r.2.conn = { n.conn with rcvNxt := u32 (n.rcvNxt + 1) } := hr
      change { r.2.conn with nxt := u32 (r.2.sndNxt + 1), state := .done } = _
      rw [hback, hnxt]
      rfl
    · next hstate =>
      rw [if_neg (show ¬n.conn.state = .established from hstate)]
      exact goes_pure rfl
  · next hfin =>
    rw [if_neg (show ¬(s.Has tfFin ∧ u32 (s.seq + s.data.length) = n.conn.rcvNxt) by
      rw [hlen, hseq, Segment.Has, hflags]; exact hfin)]
    exact goes_pure rfl

theorem tcpAck_quiet (flags dlen : Nat) (n : Stack) :
    Quiet f (tcpAck wlanSend flags dlen n) fun n' => n'.conn = n.conn := by
  unfold tcpAck
  split
  · exact (tcpSeg_quiet _ _ _ _).bind fun _ h => goes_pure h
  · exact goes_pure rfl

theorem tcpSegment_hands {seq ack flags i dlen : Nat} (h : i + dlen ≤ f.data.length) (n : Stack) :
    Gives f (tcpSegment wlanSend seq ack flags i dlen n)
      (n.conn.receive (f.segmentAt seq ack flags i dlen)) := by
  unfold tcpSegment Conn.receive
  split
  · next hrst =>
    rw [if_pos (show (f.segmentAt seq ack flags i dlen).Has tfRst from hrst)]
    exact gives_pure rfl
  · next hrst =>
    rw [if_neg (show ¬(f.segmentAt seq ack flags i dlen).Has tfRst from hrst)]
    split
    · next hsyn =>
      rw [if_pos (show n.conn.state = .synSent from hsyn)]
      split
      · next hack =>
        rw [if_pos (show (f.segmentAt seq ack flags i dlen).flags &&& _ = _ ∧
          (f.segmentAt seq ack flags i dlen).ack = n.conn.nxt from hack)]
        exact Goes.gives ((tcpSeg_quiet _ _ _ _).bind fun _ h => goes_pure h)
      · next hack =>
        rw [if_neg (show ¬((f.segmentAt seq ack flags i dlen).flags &&& _ = _ ∧
          (f.segmentAt seq ack flags i dlen).ack = n.conn.nxt) from hack)]
        exact gives_pure rfl
    · next hsyn =>
      rw [if_neg (show ¬n.conn.state = .synSent from hsyn)]
      have hacked := tcpAcked_conn f seq ack flags i dlen n
      have hrcv : (n.conn.acked (f.segmentAt seq ack flags i dlen)).Next
          (f.segmentAt seq ack flags i dlen) ↔ n.conn.Next (f.segmentAt seq ack flags i dlen) := by
        unfold Conn.acked
        split
        · exact Iff.rfl
        · exact Iff.rfl
      have hfn : (n.conn.acked (f.segmentAt seq ack flags i dlen)).dataFn = n.conn.dataFn := by
        unfold Conn.acked
        split
        · rfl
        · rfl
      refine (tcpData_hands h ack flags (tcpAcked flags ack n)).bind ?_
      intro n₁ l₁ h₁
      rw [hacked, hfn, if_congr (and_congr hrcv Iff.rfl) rfl rfl] at h₁
      refine Goes.hands_bind (tcpFin_quiet h ack n₁) fun n₂ h₂ => ?_
      refine (tcpAck_quiet flags dlen n₂).hands.mono ?_
      rintro n₃ l₃ ⟨h₃, rfl⟩
      rw [List.append_nil, h₃, h₂, (Prod.mk.inj h₁).1, (Prod.mk.inj h₁).2]

/-- The segment of the connection that a frame carries, if it does. -/
def Frame.segment (f : Frame) (c : Conn) : Option Segment :=
  let p := (f.answer (.read 0)).toNat % 2 ^ 4 * 4
  let len := word16 f.answer 2 - p
  let hl := (f.answer (.read (p + 12))).toNat / 2 ^ 4 * 4
  if f.type = 0x0800 ∧ (f.answer (.read 9)).toNat = 6 ∧ word32 f.answer 12 = c.rip ∧ 20 ≤ len ∧
      word16 f.answer p = c.rport ∧ word16 f.answer (p + 2) = c.lport ∧ 20 ≤ hl ∧ hl ≤ len then
    some (f.segmentAt (word32 f.answer (p + 4)) (word32 f.answer (p + 8))
      (f.answer (.read (p + 13))).toNat (p + hl) (len - hl))
  else none

/-- Nothing, or the segment that the frame carries. -/
def Frame.Effect (f : Frame) (c : Conn) (r : Conn × List UInt8) : Prop :=
  r = (c, []) ∨ ∃ s, f.segment c = some s ∧ c.state ≠ .closed ∧ r = c.receive s

theorem Goes.effect {p : Rx Stack} {c : Conn} (h : Quiet f p fun n => n.conn = c) :
    Hands f.answer f.give p fun n l => f.Effect c (n.conn, l) :=
  (Goes.gives h).mono fun _ _ hn => .inl hn

theorem effect_pure {n : Stack} :
    Hands f.answer f.give (pure n : Rx Stack) fun n' l => f.Effect n.conn (n'.conn, l) :=
  hands_pure (.inl rfl)

theorem tcpRx_hands {p len : Nat} (h : p + len ≤ f.data.length) (n : Stack) (src : Nat)
    (hsegment : 20 ≤ len → src = n.tcpRip → word16 f.answer p = n.tcpRport →
      word16 f.answer (p + 2) = n.tcpLport →
      20 ≤ (f.answer (.read (p + 12))).toNat / 2 ^ 4 * 4 →
      (f.answer (.read (p + 12))).toNat / 2 ^ 4 * 4 ≤ len →
      f.segment n.conn = some (f.segmentAt (word32 f.answer (p + 4)) (word32 f.answer (p + 8))
        (f.answer (.read (p + 13))).toNat (p + (f.answer (.read (p + 12))).toNat / 2 ^ 4 * 4)
        (len - (f.answer (.read (p + 12))).toNat / 2 ^ 4 * 4))) :
    Hands f.answer f.give (tcpRx wlanSend src p len n) fun n' l => f.Effect n.conn (n'.conn, l) := by
  unfold tcpRx
  split
  · exact effect_pure
  · next hlen =>
    refine Goes.hands_bind (be16_quiet p) fun sport hsport => ?_
    refine Goes.hands_bind (be16_quiet (p + 2)) fun dport hdport => ?_
    split
    · exact effect_pure
    · next hours =>
      refine Goes.hands_bind (byte_quiet (p + 12)) fun hi hhi => ?_
      dsimp only
      split
      · exact effect_pure
      · next hhl =>
        refine Goes.hands_bind (be32_quiet (p + 4)) fun seq hseq => ?_
        refine Goes.hands_bind (be32_quiet (p + 8)) fun ack hack => ?_
        refine Goes.hands_bind (byte_quiet (p + 13)) fun flags hflags => ?_
        simp only [not_or, not_not] at hours
        obtain ⟨hrip, hrport, hlport, hstate⟩ := hours
        subst hsport hdport hhi hseq hack hflags
        refine (tcpSegment_hands (by omega) n).mono fun n' l hn => .inr ⟨_, ?_, hstate, hn⟩
        exact hsegment (by omega) hrip hrport hlport (by omega) (by omega)

theorem netRx_hands (f : Frame) (wlanSend : List Sent → Bool) (n : Stack) :
    Hands f.answer f.give (netRx wlanSend (2 ^ 16) f.src f.type f.data.length n) fun n' l =>
      f.Effect n.conn (n'.conn, l) := by
  unfold netRx
  split
  · exact Goes.effect (arpRx_quiet _ _ n)
  · split
    · exact effect_pure
    · next htype =>
      refine Goes.hands_bind (byte_quiet 0) fun vhl hvhl => ?_
      split
      · exact effect_pure
      · extract_lets ihl
        refine Goes.hands_bind (be16_quiet 2) fun tot htot => ?_
        split
        · exact effect_pure
        · next hfit =>
          refine Goes.hands_bind (bytesAt_quiet 0 _) fun head _ => ?_
          split
          · exact effect_pure
          · refine Goes.hands_bind (be16_quiet 6) fun frag _ => ?_
            split
            · exact effect_pure
            · refine Goes.hands_bind (byte_quiet 9) fun proto hproto => ?_
              refine Goes.hands_bind (be32_quiet 12) fun sip hsip => ?_
              refine Goes.hands_bind (be32_quiet 16) fun dip _ => ?_
              split
              · exact effect_pure
              · extract_lets learnt
                have hlearn : learnt.conn = n.conn := by
                  unfold learnt
                  split
                  · exact arpLearn_conn _ _ _
                  · rfl
                rw [← hlearn]
                unfold ipRx
                split
                · exact Goes.effect (icmpRx_quiet _ _ _ _)
                · split
                  · next htcp =>
                    subst hvhl htot hproto hsip
                    refine tcpRx_hands (by omega) learnt _ ?_
                    intro hlen hrip hrport hlport hhl hhl'
                    unfold Frame.segment
                    simp only [not_or, not_not] at htype
                    exact if_pos ⟨htype.1, htcp, hrip, hlen, hrport, hlport, hhl, hhl'⟩
                  · split
                    · exact Goes.effect (udpRx_quiet _ _ _ _)
                    · exact effect_pure

/-- What one frame does to a client. -/
theorem receive_effect (wlanSend : List Sent → Bool) (c : Client) (f : Frame) :
    ∃ l, (c.receive wlanSend f).data = c.data ++ l ∧
      (c.receive wlanSend f).coming = c.coming ∧
      f.Effect c.net.conn ((c.receive wlanSend f).net.conn, l) := by
  have hends := (netRx_inside f.answer wlanSend f.src f.type f.data.length c.net).outcome
  have hhands := netRx_hands f wlanSend c.net
  unfold Client.receive
  dsimp only
  cases hrun : outcome f.answer (netRx wlanSend (2 ^ 16) f.src f.type f.data.length c.net) with
  | error s =>
      rw [hrun] at hends
      exact hends.elim
  | ok n => exact ⟨_, rfl, rfl, hhands n hrun⟩

end Ncmips.Net
