/-
`tcp_write` reports success for what the peer acknowledged.

Sequence numbers of what is sent are counted from the first byte: `a` of
them are acknowledged, `b` were begun, and a FIN of ours may follow. An
acknowledgement is taken where it is of more than before and of no more
than was begun; while fewer than 2^31 bytes are written, the signed
differences that decide this are those of the counts.
-/
import Ncmips.Net.Proofs.Delivery

namespace Ncmips.Net

open Words Prog

variable {wlanSend : List Sent → Bool} {w : Client} {ends c : Conn} {data : List UInt8} {s : Segment}

-- ================================================================= differences

/-- Numbers counted from the same base. -/
theorem sub32_counted (base : Nat) {k m : Nat} (hk : k < 2 ^ 32) (hm : m ≤ k) :
    sub32 (u32 (base + k)) (u32 (base + m)) = k - m := by
  unfold sub32 u32
  omega

theorem sub32_behind (base : Nat) {k m : Nat} (hm : m < 2 ^ 32) (hk : k < m) :
    sub32 (u32 (base + k)) (u32 (base + m)) = 2 ^ 32 - (m - k) := by
  unfold sub32 u32
  omega

/-- A difference is positive where the first is ahead by less than half of
the range, or behind by more. -/
theorem seqDiff_pos_iff (base : Nat) {k m : Nat} (hk : k < 2 ^ 32) (hm : m < 2 ^ 31) :
    seqDiff (u32 (base + k)) (u32 (base + m)) > 0 ↔ m < k ∧ k < m + 2 ^ 31 := by
  unfold seqDiff
  by_cases hle : m ≤ k
  · rw [sub32_counted base hk hle]
    by_cases hnear : k - m < 2 ^ 31
    · rw [s32_of_range (by omega) (by omega)]
      omega
    · rw [s32_of_high (by omega) (by omega)]
      omega
  · rw [sub32_behind base (by omega) (by omega), s32_of_high (by omega) (by omega)]
    omega

theorem counted (base : Nat) {x : Nat} (hx : x < 2 ^ 32) : ∃ k < 2 ^ 32, x = u32 (base + k) := by
  refine ⟨sub32 x (u32 base), u32_lt _, ?_⟩
  unfold sub32 u32
  omega

-- ================================================================== one segment

/-- `a` of `b` bytes are acknowledged, by a segment whose number is an `A`
once there is one. -/
structure Acked (A : Nat → Prop) (base a b : Nat) (fin : Bool) (c : Conn) : Prop where
  open_or_done : c.state = .established ∨ c.state = .done
  closed : fin = true → c.state = .done
  una : c.una = u32 (base + a)
  nxt : c.nxt = u32 (base + (b + fin.toNat))
  le : a ≤ b + fin.toNat
  seen : 0 < a → A c.una

variable {A : Nat → Prop} {base a b : Nat} {fin : Bool}

theorem acked_step (hb : b + 1 < 2 ^ 31) (hack : s.ack < 2 ^ 32) (hA : s.Has tfAck → A s.ack)
    (h : Acked A base a b fin c) : ∃ a', Acked A base a' b fin (c.acked s) := by
  have hfin := Bool.toNat_le fin
  have hle := h.le
  unfold Conn.acked
  split
  · next hmore =>
    obtain ⟨k, hk, hnum⟩ := counted base hack
    rw [h.una, h.nxt, hnum] at hmore
    obtain ⟨hflag, hahead, hwithin⟩ := hmore
    rw [seqDiff_pos_iff base hk (by omega)] at hahead
    have hnot : ¬(b + fin.toNat < k ∧ k < b + fin.toNat + 2 ^ 31) := fun hpos =>
      absurd ((seqDiff_pos_iff base hk (by omega)).2 hpos) (by omega)
    exact ⟨k, h.open_or_done, h.closed, hnum, h.nxt, by omega, fun _ => hA hflag⟩
  · exact ⟨a, h⟩

theorem receive_acked (hb : b + 1 < 2 ^ 31) (hack : s.ack < 2 ^ 32) (hA : s.Has tfAck → A s.ack)
    (h : Acked A base a b fin c) : ∃ a' fin', Acked A base a' b fin' (c.receive s).1 := by
  unfold Conn.receive
  split
  · exact ⟨a, fin, .inr rfl, fun _ => rfl, h.una, h.nxt, h.le, h.seen⟩
  · split
    · next hsyn =>
      rcases h.open_or_done with hopen | hdone
      · rw [hopen] at hsyn
        cases hsyn
      · rw [hdone] at hsyn
        cases hsyn
    · obtain ⟨a', h'⟩ := acked_step hb hack hA h
      have htaken : Acked A base a' b fin ((c.acked s).taken s) := by
        unfold Conn.taken
        split
        · exact ⟨h'.open_or_done, h'.closed, h'.una, h'.nxt, h'.le, h'.seen⟩
        · exact h'
      generalize (c.acked s).taken s = d at htaken
      change ∃ a' fin', Acked A base a' b fin' (d.closed s)
      unfold Conn.closed
      split
      · cases hopen : fin with
        | true =>
            have hdone := htaken.closed hopen
            subst hopen
            refine ⟨a', true, .inr rfl, fun _ => rfl, htaken.una, ?_, htaken.le, htaken.seen⟩
            dsimp only
            rw [hdone, if_neg Tcp.noConfusion]
            exact htaken.nxt
        | false =>
            subst hopen
            have hnxt := htaken.nxt
            have hle := htaken.le
            rw [Bool.toNat_false] at hnxt hle
            by_cases hstate : d.state = .established
            · refine ⟨a', true, .inr rfl, fun _ => rfl, htaken.una, ?_, ?_, htaken.seen⟩
              · dsimp only
                rw [if_pos hstate, hnxt, Bool.toNat_true]
                unfold u32
                omega
              · rw [Bool.toNat_true]
                omega
            · refine ⟨a', false, .inr rfl, fun _ => rfl, htaken.una, ?_, htaken.le, htaken.seen⟩
              dsimp only
              rw [if_neg hstate]
              exact htaken.nxt
      · exact ⟨a', fin, htaken⟩

-- =================================================================== writing

/-- A segment whose acknowledgement, if it has one, is an `A`. -/
def Answers (A : Nat → Prop) (s : Segment) : Prop := s.ack < 2 ^ 32 ∧ (s.Has tfAck → A s.ack)

/-- `b` bytes were begun. -/
def Begun (A : Nat → Prop) (base b : Nat) (c : Conn) (_ : List UInt8) : Prop :=
  ∃ a fin, Acked A base a b fin c

theorem begun_keeps (A : Nat → Prop) (base : Nat) {b : Nat} (hb : b + 1 < 2 ^ 31) : Keeps (Answers A) (Begun A base b) := by
  rintro c data s ⟨hack, hA⟩ ⟨a, fin, h⟩
  exact receive_acked hb hack hA h

/-- A piece is begun where nothing of ours was closed. -/
theorem Meantime.piece (wlanSend : List Sent → Bool) {n : Nat} (hb : b + n + 1 < 2 ^ 31)
    (h : Meantime ends (Answers A) (Begun A base b) w)
    (hopen : w.net.tcpState = .established) {d : List UInt8} (hd : d.length = n) :
    Meantime ends (Answers A) (Begun A base (b + n)) (Net.sendPiece wlanSend d w) ∧
      u32 (w.net.sndNxt + d.length) = u32 (base + (b + n)) := by
  obtain ⟨a, fin, hacked⟩ := h.inv
  have hfin : fin = false := by
    cases fin with
    | false => rfl
    | true =>
        have hdone : w.net.tcpState = .done := hacked.closed rfl
        rw [hopen] at hdone
        cases hdone
  subst hfin
  have hnxt : w.net.sndNxt = u32 (base + b) := hacked.nxt
  have hle := hacked.le
  rw [Bool.toNat_false] at hle
  have hafter : u32 (w.net.sndNxt + d.length) = u32 (base + (b + n)) := by
    rw [hnxt, hd]
    unfold u32
    omega
  refine ⟨?_, hafter⟩
  unfold Net.sendPiece
  refine Meantime.pieceTries (begun_keeps A base hb) ?_ _ _ _
  refine ⟨h.same, h.coming, a, false, hacked.open_or_done, hacked.closed, hacked.una, hafter, ?_,
    hacked.seen⟩
  rw [Bool.toNat_false]
  omega

/-- What the check after a piece says of the counts. -/
theorem acked_all (hb : b + 1 < 2 ^ 31) (h : Acked A base a b fin c)
    (hcheck : ¬(c.una ≠ u32 (base + b) ∧ seqDiff c.una (u32 (base + b)) < 0)) : b ≤ a := by
  have hle := h.le
  have hfin := Bool.toNat_le fin
  by_contra hshort
  refine hcheck ⟨?_, ?_⟩
  · intro heq
    rw [h.una] at heq
    exact hshort (by unfold u32 at heq; omega)
  · rw [h.una]
    unfold seqDiff
    rw [sub32_behind base (by omega) (by omega), s32_of_high (by omega) (by omega)]
    omega

/-- What is begun in the end is no more than was given, and all of it where
`tcp_write` returns 0; then all of it is acknowledged. -/
theorem Meantime.written (wlanSend : List Sent → Bool) (d : List UInt8)
    (hb : b + d.length + 1 < 2 ^ 31) (h : Meantime ends (Answers A) (Begun A base b) w) :
    (∃ b' ≤ b + d.length,
      Meantime ends (Answers A) (Begun A base b') (tcpWrite wlanSend d w).2) ∧
    (d ≠ [] → (tcpWrite wlanSend d w).1 = 0 → ∃ a fin,
      Acked A base a (b + d.length) fin (tcpWrite wlanSend d w).2.net.conn ∧ b + d.length ≤ a ∧
        u32 (w.net.sndNxt + d.length) = u32 (base + (b + d.length))) := by
  induction hn : d.length using Nat.strongRecOn generalizing d w b with
  | ind n ih =>
      subst hn
      rw [tcpWrite]
      split
      · next hd => exact ⟨⟨b, by omega, h⟩, fun hne => absurd hd hne⟩
      · next hd =>
        have hpos := List.length_pos_iff.2 hd
        split
        · exact ⟨⟨b, by omega, h⟩, fun _ hret => by cases hret⟩
        · next hstate =>
          rw [not_not] at hstate
          have htake : (d.take tcpMss).length = min tcpMss d.length := List.length_take
          have hdrop : (d.drop tcpMss).length = d.length - tcpMss := List.length_drop
          have hmss : 0 < tcpMss := by decide
          obtain ⟨hpiece, hafter⟩ := h.piece wlanSend (by omega) hstate htake
          dsimp only
          rw [hafter]
          split
          · exact ⟨⟨_, by omega, hpiece⟩, fun _ hret => by cases hret⟩
          · next hcheck =>
            generalize Net.sendPiece wlanSend (d.take tcpMss) w = w' at hpiece hcheck ⊢
            obtain ⟨hall, hret⟩ := ih (d.drop tcpMss).length (by omega) (d.drop tcpMss)
              (by omega) hpiece rfl
            have hsum : b + min tcpMss d.length + (d.drop tcpMss).length = b + d.length := by omega
            rw [hsum] at hall hret
            have hnum : u32 (w.net.sndNxt + d.length) = u32 (base + (b + d.length)) := by
              rw [htake] at hafter
              unfold u32 at hafter ⊢
              omega
            refine ⟨hall, fun _ hzero => ?_⟩
            by_cases hrest : d.drop tcpMss = []
            · rw [hrest, List.length_nil, Nat.add_zero] at hsum
              rw [hrest] at hzero ⊢
              rw [tcpWrite, if_pos rfl]
              obtain ⟨a, fin, hacked⟩ := hpiece.inv
              rw [hsum] at hacked hcheck
              exact ⟨a, fin, hacked, acked_all (by omega) hacked hcheck, hnum⟩
            · obtain ⟨a, fin, hacked, hle, -⟩ := hret hrest hzero
              exact ⟨a, fin, hacked, hle, hnum⟩

-- ================================================================ a connection

/-- How much a use writes at most. -/
def Use.written : Use → Nat
  | write d => d.length
  | _ => 0

def writtenBy : List Use → Nat
  | [] => 0
  | u :: us => u.written + writtenBy us

theorem Meantime.begunUses (wlanSend : List Sent → Bool) (us : List Use)
    (hb : b + writtenBy us + 1 < 2 ^ 31) (h : Meantime ends (Answers A) (Begun A base b) w) :
    ∃ b' ≤ b + writtenBy us,
      Meantime ends (Answers A) (Begun A base b') (us.foldl (Use.run wlanSend) w) := by
  induction us generalizing b w with
  | nil => exact ⟨b, Nat.le_refl _, h⟩
  | cons u us ih =>
      unfold writtenBy at hb ⊢
      have hkeep := begun_keeps A base (b := b) (by omega)
      obtain ⟨b₁, hle, hone⟩ : ∃ b₁ ≤ b + u.written,
          Meantime ends (Answers A) (Begun A base b₁) (u.run wlanSend w) := by
        cases u with
        | poll => exact ⟨b, Nat.le_refl _, h.poll hkeep⟩
        | write d =>
            have hwritten : (Use.write d).written = d.length := rfl
            exact (h.written wlanSend d (by omega)).1
        | flush => exact ⟨b, Nat.le_refl _, h.flush⟩
        | read idleMs turns =>
            have hloop := h.readLoop wlanSend hkeep idleMs turns w.net.rxBytes 0
            obtain ⟨a, fin, hacked⟩ := hloop.inv
            exact ⟨b, Nat.le_refl _, hloop.same, hloop.coming, a, fin, hacked.open_or_done,
              hacked.closed, hacked.una, hacked.nxt, hacked.le, hacked.seen⟩
      obtain ⟨b₂, hle', hrest⟩ := ih (by omega) hone
      exact ⟨b₂, by omega, hrest⟩

/-- Before anything is written. -/
def Unwritten (A : Nat → Prop) (isn : Nat) (c : Conn) (_ : List UInt8) : Prop :=
  (c.state = .synSent ∧ c.nxt = u32 (isn + 1)) ∨ (∃ a fin, Acked A (isn + 1) a 0 fin c) ∨
    c.state = .done

theorem unwritten_keeps (A : Nat → Prop) (isn : Nat) : Keeps (Answers A) (Unwritten A isn) := by
  rintro c data s ⟨hack, hA⟩ h
  rcases h with ⟨hsyn, hnxt⟩ | ⟨a, fin, hacked⟩ | hdone
  · unfold Conn.receive
    split
    · exact .inr (.inr rfl)
    · split
      · next hopen =>
        refine .inr (.inl ⟨0, false, .inl rfl, fun hfin => absurd hfin Bool.false_ne_true, ?_, hnxt,
          Nat.zero_le _, fun hpos => absurd hpos (Nat.lt_irrefl 0)⟩)
        exact hopen.2.trans hnxt
      · exact .inl ⟨hsyn, hnxt⟩
  · exact .inr (.inl (receive_acked (by decide) hack hA hacked))
  · exact .inr (.inr (receive_done s hdone))

theorem segment_ack_lt {f : Frame} (h : f.segment c = some s) : s.ack < 2 ^ 32 := by
  unfold Frame.segment at h
  dsimp only at h
  split at h
  · obtain rfl := Option.some.inj h
    have hhi := word16_lt f.answer ((f.answer (.read 0)).toNat % 2 ^ 4 * 4 + 8)
    have hlo := word16_lt f.answer ((f.answer (.read 0)).toNat % 2 ^ 4 * 4 + 8 + 2)
    change word32 f.answer _ < 2 ^ 32
    unfold word32
    omega
  · cases h

/-- In a connection in which less than 2^31 bytes are written: where
`tcp_write` returns 0, a segment of the peer's acknowledged the last byte
it was given (and perhaps our FIN behind it). -/
theorem write_acknowledged (wlanSend : List Sent → Bool) {ip port rand isn : Nat} {w : Client}
    (hopen : (tcpConnect wlanSend ip port rand isn w).1 = 0) (us : List Use) {d : List UInt8}
    (hroom : writtenBy us + d.length + 1 < 2 ^ 31) (hd : d ≠ [])
    (hret : (tcpWrite wlanSend d (session wlanSend ip port rand isn us w)).1 = 0) :
    ∃ fs ∈ w.coming, ∃ f ∈ fs, ∃ s, f.segment (connecting ip port rand isn) = some s ∧
      s.Has tfAck ∧
      (s.ack = u32 ((session wlanSend ip port rand isn us w).net.sndNxt + d.length) ∨
        s.ack = u32 ((session wlanSend ip port rand isn us w).net.sndNxt + d.length + 1)) := by
  let A : Nat → Prop := fun x => ∃ fs ∈ w.coming, ∃ f ∈ fs, ∃ s,
    f.segment (connecting ip port rand isn) = some s ∧ s.Has tfAck ∧ s.ack = x
  have hconnect := connect_meantime wlanSend (w := w) ip port rand (unwritten_keeps A isn)
    (fun fs hfs f hf s hs => ⟨segment_ack_lt hs, fun hflag => ⟨fs, hfs, f, hf, s, hs, hflag, rfl⟩⟩)
    (.inl ⟨rfl, rfl⟩)
  have hstate := connect_established hopen
  have hbegun : Meantime (connecting ip port rand isn) (Answers A) (Begun A (isn + 1) 0)
      (tcpConnect wlanSend ip port rand isn w).2 := by
    refine ⟨hconnect.same, hconnect.coming, ?_⟩
    rcases hconnect.inv with ⟨hsyn, -⟩ | hacked | hdone
    · rw [hstate] at hsyn
      cases hsyn
    · exact hacked
    · rw [hstate] at hdone
      cases hdone
  obtain ⟨b, hb, huses⟩ := hbegun.begunUses wlanSend us (by omega)
  change Meantime _ _ _ (session wlanSend ip port rand isn us w) at huses
  obtain ⟨a, fin, hacked, hle, hnum⟩ := (huses.written wlanSend d (by omega)).2 hd hret
  have hpos := List.length_pos_iff.2 hd
  obtain ⟨fs, hfs, f, hf, s, hs, hflag, hack⟩ := hacked.seen (by omega)
  refine ⟨fs, hfs, f, hf, s, hs, hflag, ?_⟩
  have hmost := hacked.le
  have hfin := Bool.toNat_le fin
  rw [hack, hacked.una, hnum]
  rcases Nat.eq_or_lt_of_le hle with heq | hlt
  · exact .inl (by rw [heq])
  · refine .inr ?_
    have heq : a = b + d.length + 1 := by omega
    unfold u32 at hnum ⊢
    omega

/-- The server's SYN, and then its acknowledgement of one byte. -/
def answered : Client where
  net := knownHost
  coming := [[fromServer 40 26318 1000 1 0x12 []], [fromServer 40 26318 1001 2 0x10 []]]

theorem write_acknowledged_byte :
    ∃ fs ∈ answered.coming, ∃ f ∈ fs, ∃ s,
      f.segment (connecting 0x0a000001 80 0 0) = some s ∧ s.Has tfAck ∧
      (s.ack = u32 ((session (fun _ => true) 0x0a000001 80 0 0 [] answered).net.sndNxt +
          [(7 : UInt8)].length) ∨
        s.ack = u32 ((session (fun _ => true) 0x0a000001 80 0 0 [] answered).net.sndNxt +
          [(7 : UInt8)].length + 1)) :=
  write_acknowledged (fun _ => true) (by decide +kernel) [] (by decide) (List.cons_ne_nil _ _)
    (by decide +kernel)

end Ncmips.Net
