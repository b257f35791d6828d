/-
A TCP connection over its whole life: what is handed on is the peer's
stream, and what is reported as written was acknowledged.

Both are invariants of what the connection keeps and of what was handed
on. `Keeps` is what a segment has to do for one, and the rest of the
client adds little to it: it moves `snd_nxt`, and in the end it takes the
callback away. Sequence numbers are places in a stream that is shorter
than their range, so two of them are equal only where the places are.
-/
import Ncmips.Net.Proofs.Client

namespace Ncmips.Net

open Words Prog

variable {wlanSend : List Sent → Bool}

-- =============================================================== invariants

/-- The same two ends. -/
def Conn.Ends (c c' : Conn) : Prop := c.rip = c'.rip ∧ c.rport = c'.rport ∧ c.lport = c'.lport

theorem segment_congr (f : Frame) {c c' : Conn} (h : c.Ends c') : f.segment c = f.segment c' := by
  unfold Frame.segment
  rw [h.1, h.2.1, h.2.2]

theorem receive_ends (s : Segment) (c : Conn) : (c.receive s).1.Ends c := by
  have hacked : (c.acked s).Ends c := by
    unfold Conn.acked
    split
    · exact ⟨rfl, rfl, rfl⟩
    · exact ⟨rfl, rfl, rfl⟩
  have htaken : ((c.acked s).taken s).Ends c := by
    unfold Conn.taken
    split
    · exact hacked
    · exact hacked
  unfold Conn.receive
  split
  · exact ⟨rfl, rfl, rfl⟩
  · split
    · split
      · exact ⟨rfl, rfl, rfl⟩
      · exact ⟨rfl, rfl, rfl⟩
    · unfold Conn.closed
      split
      · exact htaken
      · exact htaken

/-- Segments that are `P` keep `I`. -/
def Keeps (P : Segment → Prop) (I : Conn → List UInt8 → Prop) : Prop :=
  ∀ c data s, P s → I c data → I (c.receive s).1 (data ++ (c.receive s).2)

/-- All segments to come are `P`, and `I` holds. -/
structure Meantime (ends : Conn) (P : Segment → Prop) (I : Conn → List UInt8 → Prop) (w : Client) :
    Prop where
  same : w.net.conn.Ends ends
  coming : ∀ fs ∈ w.coming, ∀ f ∈ fs, ∀ s, f.segment ends = some s → P s
  inv : I w.net.conn w.data

variable {ends : Conn} {P : Segment → Prop} {I : Conn → List UInt8 → Prop} {w : Client}

/-- The stack changed elsewhere only. -/
theorem Meantime.elsewhere (h : Meantime ends P I w) {w' : Client} (hconn : w'.net.conn = w.net.conn)
    (hdata : w'.data = w.data) (hcoming : w'.coming = w.coming) : Meantime ends P I w' where
  same := by rw [hconn]; exact h.same
  coming := by rw [hcoming]; exact h.coming
  inv := by rw [hconn, hdata]; exact h.inv

theorem Meantime.receive (hI : Keeps P I) (h : Meantime ends P I w) {f : Frame}
    (hf : ∀ s, f.segment ends = some s → P s) : Meantime ends P I (w.receive wlanSend f) := by
  obtain ⟨l, hdata, hcoming, heffect⟩ := receive_effect wlanSend w f
  rcases heffect with hnone | ⟨s, hs, -, hsome⟩
  · obtain ⟨hconn, hl⟩ := Prod.mk.inj hnone
    rw [hl, List.append_nil] at hdata
    exact h.elsewhere hconn hdata hcoming
  · rw [segment_congr f h.same] at hs
    have hconn : (w.receive wlanSend f).net.conn = (w.net.conn.receive s).1 := congrArg Prod.fst hsome
    have hl : l = (w.net.conn.receive s).2 := congrArg Prod.snd hsome
    have hends := receive_ends s w.net.conn
    exact {
      same := by
        rw [hconn]
        exact ⟨hends.1.trans h.same.1, hends.2.1.trans h.same.2.1, hends.2.2.trans h.same.2.2⟩
      coming := by rw [hcoming]; exact h.coming
      inv := by
        rw [hconn, hdata, hl]
        exact hI _ _ s (hf s hs) h.inv }

theorem Meantime.frames (wlanSend : List Sent → Bool) (hI : Keeps P I) (h : Meantime ends P I w) {fs : List Frame}
    (hfs : ∀ f ∈ fs, ∀ s, f.segment ends = some s → P s) :
    Meantime ends P I (fs.foldl (Client.receive wlanSend) w) := by
  induction fs generalizing w with
  | nil => exact h
  | cons f fs ih =>
      exact ih (h.receive hI (hfs f List.mem_cons_self)) fun g hg => hfs g (List.mem_cons_of_mem f hg)

theorem Meantime.poll (hI : Keeps P I) (h : Meantime ends P I w) : Meantime ends P I (wlanPoll wlanSend w) := by
  unfold wlanPoll
  cases hcoming : w.coming with
  | nil => exact h
  | cons fs rest =>
      have hall := h.coming
      rw [hcoming] at hall
      have hkept := h.frames wlanSend hI (hall fs List.mem_cons_self)
      exact {
        same := hkept.same
        coming := fun fs' hfs' => hall fs' (List.mem_cons_of_mem fs hfs')
        inv := hkept.inv }

theorem send_same (wlanSend : List Sent → Bool) (seq flags : Nat) (d : List UInt8) (w : Client) :
    (w.send wlanSend seq flags d).2.net.conn = w.net.conn ∧
      (w.send wlanSend seq flags d).2.data = w.data ∧
      (w.send wlanSend seq flags d).2.coming = w.coming := by
  let f : Frame := { src := bcast, type := 0, data := [] }
  have hanswer : f.answer = fun _ => 0 := by
    funext e
    cases e with
    | read i => rfl
    | build cap n => rfl
    | data off n => rfl
  have hquiet := (@tcpSeg_quiet f wlanSend seq flags d w.net).outcome
  rw [hanswer] at hquiet
  unfold Client.send
  cases hrun : outcome (fun _ => 0) (tcpSeg wlanSend seq flags d w.net) with
  | error s => exact ⟨rfl, rfl, rfl⟩
  | ok r =>
      rw [hrun] at hquiet
      exact ⟨hquiet, rfl, rfl⟩

theorem Meantime.send (wlanSend : List Sent → Bool) (h : Meantime ends P I w) (seq flags : Nat) (d : List UInt8) :
    Meantime ends P I (w.send wlanSend seq flags d).2 := by
  obtain ⟨hconn, hdata, hcoming⟩ := send_same wlanSend seq flags d w
  exact h.elsewhere hconn hdata hcoming

theorem Meantime.flush (h : Meantime ends P I w) : Meantime ends P I (tcpAckFlush wlanSend w) := by
  unfold tcpAckFlush
  split
  · have hsent := h.send wlanSend w.net.sndNxt tfAck []
    generalize (w.send wlanSend w.net.sndNxt tfAck []).2 = c at hsent ⊢
    exact hsent.elsewhere rfl rfl rfl
  · exact h

theorem Meantime.ackWait (hI : Keeps P I) (h : Meantime ends P I w) (after turns : Nat) :
    Meantime ends P I (ackWait wlanSend after turns w) := by
  induction turns generalizing w with
  | zero => exact h
  | succ turns ih =>
      unfold Net.ackWait
      split
      · exact h
      · exact ih (h.poll hI)

theorem Meantime.pieceTries (hI : Keeps P I) (h : Meantime ends P I w) (seq : Nat) (d : List UInt8)
    (turns : Nat) : Meantime ends P I (pieceTries wlanSend seq d turns w) := by
  induction turns generalizing w with
  | zero => exact h
  | succ turns ih =>
      unfold Net.pieceTries
      split
      · exact h
      · extract_lets again
        have hagain : Meantime ends P I again := by
          unfold again
          split
          · exact h.send wlanSend _ _ _
          · exact h
        exact ih (hagain.ackWait hI _ _)

theorem Meantime.synWait (hI : Keeps P I) (h : Meantime ends P I w) (turns : Nat) :
    Meantime ends P I (synWait wlanSend turns w) := by
  induction turns generalizing w with
  | zero => exact h
  | succ turns ih =>
      unfold Net.synWait
      split
      · exact ih (h.poll hI)
      · exact h

theorem Meantime.synTries (hI : Keeps P I) (h : Meantime ends P I w) (isn turns : Nat) :
    Meantime ends P I (synTries wlanSend isn turns w) := by
  induction turns generalizing w with
  | zero => exact h
  | succ turns ih =>
      unfold Net.synTries
      split
      · dsimp only
        split
        · exact ih ((h.send wlanSend _ _ _).synWait hI _)
        · exact ih ((h.send wlanSend _ _ _).poll hI)
      · exact h

theorem Meantime.readLoop (wlanSend : List Sent → Bool) (hI : Keeps P I)
    (h : Meantime ends P I w) (idleMs turns last idle : Nat) :
    Meantime ends P I (readLoop wlanSend idleMs turns last idle w) := by
  induction turns generalizing last idle w with
  | zero => exact h
  | succ turns ih =>
      unfold Net.readLoop
      split
      · dsimp only
        split
        · exact ih (h.poll hI).flush _ _
        · exact ih (h.poll hI).flush _ _
      · exact h

-- ================================================================= receiving

/-- The peer: its initial sequence number, and all that it sends. -/
structure Peer where
  isn : Nat
  bytes : List UInt8

/-- A segment of the peer's: its SYN, or one with a stretch of its stream,
with the FIN at the stream's end. -/
structure Peer.Sends (v : Peer) (s : Segment) : Prop where
  syn : s.Has tfSyn → s.seq = u32 v.isn ∧ s.data = [] ∧ ¬s.Has tfFin
  stretch : ¬s.Has tfSyn → s.data ≠ [] ∨ s.Has tfFin → ∃ pos ≤ v.bytes.length,
    s.seq = u32 (v.isn + 1 + pos) ∧ s.data <+: v.bytes.drop pos ∧
      (s.Has tfFin → pos + s.data.length = v.bytes.length)

/-- `taken` bytes of the stream were taken, and then perhaps the FIN; what
was handed on is all of them while there was a callback. -/
structure Peer.Tied (v : Peer) (taken : Nat) (fin : Bool) (c : Conn) (data : List UInt8) : Prop where
  open_or_done : c.state = .established ∨ c.state = .done
  bound : taken ≤ v.bytes.length
  next : c.rcvNxt = u32 (v.isn + 1 + taken + fin.toNat)
  ended : fin = true → taken = v.bytes.length ∧ c.state = .done
  handed : data <+: v.bytes.take taken
  whole : c.dataFn = true → data = v.bytes.take taken

/-- Places in a stream have different numbers. -/
theorem place_unique (base : Nat) {a b : Nat} (h : u32 (base + a) = u32 (base + b)) (ha : a < 2 ^ 32)
    (hb : b < 2 ^ 32) : a = b := by
  unfold u32 at h
  omega

variable {v : Peer} {taken : Nat} {fin : Bool} {c : Conn} {data : List UInt8} {s : Segment}

theorem acked_tied (h : v.Tied taken fin c data) : v.Tied taken fin (c.acked s) data := by
  unfold Conn.acked
  split
  · exact ⟨h.open_or_done, h.bound, h.next, h.ended, h.handed, h.whole⟩
  · exact h

theorem next_acked : (c.acked s).Next s ↔ c.Next s := by
  unfold Conn.acked
  split
  · exact Iff.rfl
  · exact Iff.rfl

theorem acked_dataFn : (c.acked s).dataFn = c.dataFn := by
  unfold Conn.acked
  split
  · rfl
  · rfl

/-- The next data is the stretch after what was taken. -/
theorem next_stretch (hlen : v.bytes.length + 2 < 2 ^ 32) (h : v.Tied taken fin c data)
    (hs : v.Sends s) (hnext : c.Next s) :
    fin = false ∧ s.data <+: v.bytes.drop taken ∧
      (s.Has tfFin → taken + s.data.length = v.bytes.length) := by
  obtain ⟨pos, hpos, hseq, hdata, hend⟩ :=
    hs.stretch (fun hsyn => hnext.1 (hs.syn hsyn).2.1) (.inl hnext.1)
  have hdata_pos := List.length_pos_iff.2 hnext.1
  have hdata_le := hdata.length_le
  rw [List.length_drop] at hdata_le
  have hplace : pos = taken + fin.toNat := by
    have hfin := Bool.toNat_le fin
    have hbound := h.bound
    refine place_unique (v.isn + 1) ?_ (by omega) (by omega)
    rw [← hseq, hnext.2, h.next, Nat.add_assoc (v.isn + 1)]
  cases fin with
  | true =>
      have hwhole := (h.ended rfl).1
      rw [Bool.toNat_true] at hplace
      omega
  | false =>
      rw [Bool.toNat_false, Nat.add_zero] at hplace
      subst hplace
      exact ⟨rfl, hdata, hend⟩

theorem taken_tied (hlen : v.bytes.length + 2 < 2 ^ 32) (h : v.Tied taken fin c data)
    (hs : v.Sends s) : ∃ taken', v.Tied taken' fin (c.taken s)
      (data ++ if c.Next s ∧ c.dataFn then s.data else []) ∧ (c.Next s → taken' = taken + s.data.length)
      ∧ (¬c.Next s → taken' = taken) := by
  unfold Conn.taken
  by_cases hnext : c.Next s
  · rw [if_pos hnext]
    obtain ⟨rfl, hdata, -⟩ := next_stretch hlen h hs hnext
    have hle := hdata.length_le
    rw [List.length_drop] at hle
    have hbound := h.bound
    have htake : v.bytes.take (taken + s.data.length) = v.bytes.take taken ++ s.data := by
      rw [List.take_add, ← List.prefix_iff_eq_take.1 hdata]
    refine ⟨taken + s.data.length, ⟨h.open_or_done, by omega, ?_, fun hfin => absurd hfin Bool.false_ne_true, ?_, ?_⟩,
      fun _ => rfl, fun hn => absurd hnext hn⟩
    · change u32 (c.rcvNxt + s.data.length) = _
      rw [h.next]
      unfold u32
      rw [Bool.toNat_false]
      omega
    · split
      · next hfn =>
        have hall : data ++ s.data = v.bytes.take (taken + s.data.length) := by
          rw [h.whole hfn.2, htake]
        exact hall ▸ List.prefix_rfl
      · rw [List.append_nil, htake]
        exact h.handed.trans (List.prefix_append _ _)
    · intro hfn
      rw [if_pos ⟨hnext, hfn⟩, h.whole hfn, htake]
  · rw [if_neg hnext, if_neg fun hn => hnext hn.1, List.append_nil]
    exact ⟨taken, h, fun hn => absurd hn hnext, fun _ => rfl⟩

/-- The FIN is taken where all of the stream was. -/
theorem closed_tied (hlen : v.bytes.length + 2 < 2 ^ 32) (h : v.Tied taken fin c data)
    (hs : v.Sends s) : ∃ fin', v.Tied taken fin' (c.closed s) data := by
  unfold Conn.closed
  split
  · next hclose =>
    have hsyn : ¬s.Has tfSyn := fun hsyn => (hs.syn hsyn).2.2 hclose.1
    obtain ⟨pos, hpos, hseq, hdata, hend⟩ := hs.stretch hsyn (.inr hclose.1)
    have hplace : v.bytes.length = taken + fin.toNat := by
      have hfin := Bool.toNat_le fin
      have hbound := h.bound
      refine place_unique (v.isn + 1) ?_ (by omega) (by omega)
      rw [← hend hclose.1, ← Nat.add_assoc (v.isn + 1) taken, ← h.next, ← hclose.2, hseq]
      unfold u32
      omega
    cases fin with
    | true =>
        have hwhole := (h.ended rfl).1
        rw [Bool.toNat_true] at hplace
        omega
    | false =>
        rw [Bool.toNat_false, Nat.add_zero] at hplace
        refine ⟨true, .inr rfl, h.bound, ?_, fun _ => ⟨hplace.symm, rfl⟩, h.handed, h.whole⟩
        change u32 (c.rcvNxt + 1) = _
        rw [h.next]
        unfold u32
        rw [Bool.toNat_false, Bool.toNat_true]
        omega
  · exact ⟨fin, h⟩

theorem receive_tied (hlen : v.bytes.length + 2 < 2 ^ 32) (hs : v.Sends s)
    (h : v.Tied taken fin c data) :
    ∃ taken' fin', v.Tied taken' fin' (c.receive s).1 (data ++ (c.receive s).2) := by
  unfold Conn.receive
  split
  · rw [List.append_nil]
    exact ⟨taken, fin, .inr rfl, h.bound, h.next, fun hfin => ⟨(h.ended hfin).1, rfl⟩, h.handed,
      h.whole⟩
  · split
    · next hsyn =>
      rcases h.open_or_done with hopen | hdone
      · rw [hopen] at hsyn
        cases hsyn
      · rw [hdone] at hsyn
        cases hsyn
    · obtain ⟨taken', htaken, -⟩ := taken_tied hlen (acked_tied (s := s) h) hs
      obtain ⟨fin', hclosed⟩ := closed_tied hlen htaken hs
      rw [acked_dataFn, if_congr (and_congr next_acked Iff.rfl) rfl rfl] at hclosed
      exact ⟨taken', fin', hclosed⟩

/-- Before the connection is open, while it is, and after. -/
def Peer.Follows (v : Peer) (c : Conn) (data : List UInt8) : Prop :=
  (c.state = .synSent ∧ data = []) ∨ (∃ taken fin, v.Tied taken fin c data) ∨ c.state = .done

theorem receive_done (s : Segment) {c : Conn} (h : c.state = .done) : (c.receive s).1.state = .done := by
  have hacked : (c.acked s).state = .done := by
    unfold Conn.acked
    split
    · exact h
    · exact h
  have htaken : ((c.acked s).taken s).state = .done := by
    unfold Conn.taken
    split
    · exact hacked
    · exact hacked
  unfold Conn.receive
  split
  · rfl
  · split
    · next hsyn =>
      rw [h] at hsyn
      cases hsyn
    · unfold Conn.closed
      split
      · rfl
      · exact htaken

/-- The flags of the second segment of a handshake hold a SYN. -/
theorem has_syn (h : s.flags &&& (tfSyn ||| tfAck) = tfSyn ||| tfAck) : s.Has tfSyn := by
  have hsyn : s.flags &&& tfSyn = tfSyn := by
    have hboth := congrArg (· &&& tfSyn) h
    rw [Nat.and_assoc] at hboth
    exact hboth
  unfold Segment.Has
  rw [hsyn]
  decide

theorem follows_keeps (hlen : v.bytes.length + 2 < 2 ^ 32) : Keeps v.Sends v.Follows := by
  intro c data s hs h
  rcases h with ⟨hsyn, rfl⟩ | ⟨taken, fin, htied⟩ | hdone
  · unfold Conn.receive
    split
    · exact .inr (.inr rfl)
    · split
      · next hack =>
        obtain ⟨hseq, -, -⟩ := hs.syn (has_syn hack.1)
        refine .inr (.inl ⟨0, false, .inl rfl, Nat.zero_le _, ?_, fun hfin => absurd hfin Bool.false_ne_true,
          List.nil_prefix, fun _ => rfl⟩)
        change u32 (s.seq + 1) = _
        rw [hseq]
        unfold u32
        rw [Bool.toNat_false]
        omega
      · exact .inl ⟨hsyn, rfl⟩
  · exact .inr (.inl (receive_tied hlen hs htied))
  · exact .inr (.inr (receive_done s hdone))

-- ================================================================ the client

/-- The connection as it is opened. -/
def connecting (ip port rand isn : Nat) : Conn where
  state := .synSent
  rip := ip
  rport := port
  lport := 49152 + (rand &&& 0x3fff)
  una := isn
  nxt := u32 (isn + 1)
  rcvNxt := 0
  dataFn := true

/-- What holds of the connection as it is opened holds when `tcp_connect`
returns. -/
theorem connect_meantime (wlanSend : List Sent → Bool) (ip port rand : Nat) {isn : Nat} (hI : Keeps P I)
    (hcoming : ∀ fs ∈ w.coming, ∀ f ∈ fs, ∀ s,
      f.segment (connecting ip port rand isn) = some s → P s)
    (hstart : I (connecting ip port rand isn) []) :
    Meantime (connecting ip port rand isn) P I (tcpConnect wlanSend ip port rand isn w).2 := by
  unfold tcpConnect
  dsimp only
  refine Meantime.synTries hI ?_ isn 5
  exact ⟨⟨rfl, rfl, rfl⟩, hcoming, hstart⟩

theorem connect_established {ip port rand isn : Nat}
    (h : (tcpConnect wlanSend ip port rand isn w).1 = 0) :
    (tcpConnect wlanSend ip port rand isn w).2.net.conn.state = .established := by
  unfold tcpConnect at h ⊢
  dsimp only at h ⊢
  split at h
  · next hstate => exact hstate
  · cases h

/-- `I` says nothing of `snd_nxt`. -/
def Unsent (I : Conn → List UInt8 → Prop) : Prop := ∀ c data nxt, I c data → I { c with nxt } data

theorem Meantime.sendPiece (wlanSend : List Sent → Bool) (hI : Keeps P I) (hnxt : Unsent I) (h : Meantime ends P I w)
    (d : List UInt8) : Meantime ends P I (sendPiece wlanSend d w) := by
  unfold Net.sendPiece
  refine Meantime.pieceTries hI ?_ _ _ _
  exact ⟨h.same, h.coming, hnxt _ _ _ h.inv⟩

theorem Meantime.write (hI : Keeps P I) (hnxt : Unsent I) (h : Meantime ends P I w)
    (d : List UInt8) : Meantime ends P I (tcpWrite wlanSend d w).2 := by
  induction hn : d.length using Nat.strongRecOn generalizing d w with
  | ind n ih =>
      rw [tcpWrite]
      split
      · exact h
      · next hd =>
        have hpos := List.length_pos_iff.2 hd
        split
        · exact h
        · dsimp only
          have hpiece := h.sendPiece wlanSend hI hnxt (d.take tcpMss)
          split
          · exact hpiece
          · refine ih _ ?_ hpiece _ rfl
            rw [← hn, List.length_drop]
            unfold tcpMss
            omega

/-- A use that takes the callback away. -/
def Use.IsRead : Use → Prop
  | read _ _ => True
  | _ => False

theorem Meantime.use (hI : Keeps P I) (hnxt : Unsent I) (h : Meantime ends P I w) (u : Use)
    (hread : u.IsRead → ∀ c data, I c data → I { c with dataFn := false } data) :
    Meantime ends P I (u.run wlanSend w) := by
  cases u with
  | poll => exact h.poll hI
  | write d => exact h.write hI hnxt d
  | flush => exact h.flush
  | read idleMs turns =>
      have hloop := h.readLoop wlanSend hI idleMs turns w.net.rxBytes 0
      exact ⟨hloop.same, hloop.coming, hread trivial _ _ hloop.inv⟩

theorem Meantime.uses (wlanSend : List Sent → Bool) (hI : Keeps P I) (hnxt : Unsent I) (h : Meantime ends P I w) (us : List Use)
    (hread : ∀ u ∈ us, u.IsRead → ∀ c data, I c data → I { c with dataFn := false } data) :
    Meantime ends P I (us.foldl (Use.run wlanSend) w) := by
  induction us generalizing w with
  | nil => exact h
  | cons u us ih =>
      exact ih (h.use hI hnxt u (hread u List.mem_cons_self)) fun u' hu' =>
        hread u' (List.mem_cons_of_mem u hu')

-- ================================================================= delivery

theorem tied_unsent (v : Peer) : Unsent fun c data => ∃ taken fin, v.Tied taken fin c data := by
  rintro c data nxt ⟨taken, fin, h⟩
  exact ⟨taken, fin, h.open_or_done, h.bound, h.next, h.ended, h.handed, h.whole⟩

theorem receive_dataFn (s : Segment) (c : Conn) : (c.receive s).1.dataFn = c.dataFn := by
  have htaken : ((c.acked s).taken s).dataFn = c.dataFn := by
    rw [← @acked_dataFn c s]
    unfold Conn.taken
    split
    · rfl
    · rfl
  unfold Conn.receive
  split
  · rfl
  · split
    · split
      · rfl
      · rfl
    · unfold Conn.closed
      split
      · exact htaken
      · exact htaken

/-- A connection that was opened, after any use of it: what was handed on
is a prefix of what the peer sends, and while all of it is handed on,
`rcv_nxt` is the place behind it, or behind the FIN at its end. -/
theorem session_delivers (wlanSend : List Sent → Bool) {v : Peer} (hlen : v.bytes.length < 2 ^ 31)
    {ip port rand isn : Nat} {w : Client}
    (hpeer : ∀ fs ∈ w.coming, ∀ f ∈ fs, ∀ s,
      f.segment (connecting ip port rand isn) = some s → v.Sends s)
    (hopen : (tcpConnect wlanSend ip port rand isn w).1 = 0) (us : List Use) :
    (session wlanSend ip port rand isn us w).data <+: v.bytes ∧
      ((∀ u ∈ us, ¬u.IsRead) → ∃ fin : Bool,
        (session wlanSend ip port rand isn us w).net.rcvNxt =
          u32 (v.isn + 1 + (session wlanSend ip port rand isn us w).data.length + fin.toNat) ∧
        (fin = true → (session wlanSend ip port rand isn us w).data = v.bytes)) := by
  have hlen' : v.bytes.length + 2 < 2 ^ 32 := by omega
  have hconnect := connect_meantime wlanSend ip port rand (follows_keeps hlen') hpeer (.inl ⟨rfl, rfl⟩)
  have hstate := connect_established hopen
  have hdataFn : Meantime (connecting ip port rand isn) v.Sends (fun c _ => c.dataFn = true)
      (tcpConnect wlanSend ip port rand isn w).2 :=
    connect_meantime wlanSend ip port rand (fun c _ s _ h => (receive_dataFn s c).trans h) hpeer rfl
  obtain ⟨taken, fin, htied⟩ : ∃ taken fin, v.Tied taken fin
      (tcpConnect wlanSend ip port rand isn w).2.net.conn
      (tcpConnect wlanSend ip port rand isn w).2.data := by
    rcases hconnect.inv with ⟨hsyn, -⟩ | htied | hdone
    · rw [hstate] at hsyn
      cases hsyn
    · exact htied
    · rw [hstate] at hdone
      cases hdone
  have hall : Meantime (connecting ip port rand isn) v.Sends
      (fun c data => ∃ taken fin, v.Tied taken fin c data) (session wlanSend ip port rand isn us w) := by
    refine Meantime.uses wlanSend (fun c data s hs ⟨taken, fin, h⟩ => receive_tied hlen' hs h) (tied_unsent v)
      ⟨hconnect.same, hconnect.coming, taken, fin, htied⟩ us ?_
    rintro u - - c data ⟨taken, fin, h⟩
    exact ⟨taken, fin, h.open_or_done, h.bound, h.next, h.ended, h.handed,
      fun hfn => absurd hfn Bool.false_ne_true⟩
  obtain ⟨taken, fin, hend⟩ := hall.inv
  refine ⟨hend.handed.trans (List.take_prefix _ _), fun hread => ⟨fin, ?_, ?_⟩⟩
  all_goals
    have hkept := Meantime.uses wlanSend
      (fun c _ s _ h => (receive_dataFn s c).trans h) (fun _ _ _ h => h) hdataFn us
      fun u hu hr => absurd hr (hread u hu)
    have hdata := hend.whole hkept.inv
    have hbound := hend.bound
  · rw [hdata, List.length_take, Nat.min_eq_left hbound]
    exact hend.next
  · intro hfin
    rw [hdata, (hend.ended hfin).1, List.take_length]

/-- A host that knows a server's address. -/
def knownHost : Stack where
  mac := #v[2, 0, 0, 0, 0, 2]
  ip := 0x0a000002
  arpCache := [(0x0a000001, #v[2, 0, 0, 0, 0, 1])]

/-- A segment from that server, in a packet of `n` bytes. -/
def fromServer (n csum seq ack flags : Nat) (d : List UInt8) : Frame where
  src := #v[2, 0, 0, 0, 0, 1]
  type := 0x0800
  data := [0x45, 0] ++ be16Bytes n ++ [0, 0, 0, 0, 64, 6] ++ be16Bytes csum
    ++ be32Bytes 0x0a000001 ++ be32Bytes 0x0a000002
    ++ be16Bytes 80 ++ be16Bytes 49152 ++ be32Bytes seq ++ be32Bytes ack ++ [0x50, .ofNat flags]
    ++ be16Bytes 65535 ++ [0, 0, 0, 0] ++ d

/-- The server's SYN, and then the two bytes that it sends. -/
def greeted : Client where
  net := knownHost
  coming := [[fromServer 40 26318 1000 1 0x12 []], [fromServer 42 26316 1001 1 0x10 [104, 105]]]

theorem session_delivers_greeting :
    (session (fun _ => true) 0x0a000001 80 0 0 [.poll] greeted).data <+: [104, 105] ∧
      ((∀ u ∈ [Use.poll], ¬u.IsRead) → ∃ fin : Bool,
        (session (fun _ => true) 0x0a000001 80 0 0 [.poll] greeted).net.rcvNxt =
          u32 (1000 + 1 +
            (session (fun _ => true) 0x0a000001 80 0 0 [.poll] greeted).data.length + fin.toNat) ∧
        (fin = true → (session (fun _ => true) 0x0a000001 80 0 0 [.poll] greeted).data = [104, 105])) := by
  refine session_delivers (fun _ => true) (v := { isn := 1000, bytes := [104, 105] }) (by decide) ?_
    (by decide +kernel) [.poll]
  have hsyn : (fromServer 40 26318 1000 1 0x12 []).segment (connecting 0x0a000001 80 0 0) =
      some { seq := 1000, ack := 1, flags := 0x12, data := [] } := by decide +kernel
  have hdata : (fromServer 42 26316 1001 1 0x10 [104, 105]).segment (connecting 0x0a000001 80 0 0) =
      some { seq := 1001, ack := 1, flags := 0x10, data := [104, 105] } := by decide +kernel
  intro fs hfs f hf s hs
  rcases List.mem_cons.1 hfs with rfl | hfs
  · obtain rfl := List.mem_singleton.1 hf
    rw [hsyn] at hs
    obtain rfl := Option.some.inj hs
    exact ⟨fun _ => ⟨rfl, rfl, by decide⟩, fun hno => absurd (by decide) hno⟩
  · obtain rfl := List.mem_singleton.1 hfs
    obtain rfl := List.mem_singleton.1 hf
    rw [hdata] at hs
    obtain rfl := Option.some.inj hs
    exact ⟨fun hsyn => absurd hsyn (by decide), fun _ _ =>
      ⟨0, by decide, rfl, List.prefix_rfl, fun hfin => absurd hfin (by decide)⟩⟩

end Ncmips.Net
