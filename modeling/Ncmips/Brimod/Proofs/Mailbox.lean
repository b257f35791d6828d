/-
A command through the mailbox: it reaches `cmd_run` as it was sent, and
the box gets the reply, cut to its buffer.

Between the transfers of a command nothing else uses the link, so the
FIFO is empty before each read and empty after it.
-/
import Ncmips.Brimod.Mailbox
import Ncmips.Brimod.Proofs.Events

namespace Ncmips.Brimod

open Machine Bridge

-- ================================================================ transfers

variable {b : Bridge} {n : Nat}

theorem exec_read {reg : UInt8} (hn : 1 ≤ n) (hn' : n ≤ readMax) :
    exec answer (brimodRead true reg n) b
      = ({ buf := (b.prepareRead reg (UInt8.ofNat n)).tx.take n },
          { b.prepareRead reg (UInt8.ofNat n) with
            tx := (b.prepareRead reg (UInt8.ofNat n)).tx.drop n }) := by
  have hraw : brimodRead true reg n = rawRead reg n := rfl
  rw [hraw, rawRead, if_neg (by omega)]
  rfl

theorem ofNat_small (hn' : n ≤ readMax) :
    (if UInt8.ofNat n > 32 then 32 else (UInt8.ofNat n).toNat) = n := by
  have hnat : (UInt8.ofNat n).toNat = n := by
    rw [UInt8.toNat_ofNat']
    unfold readMax at hn'
    omega
  rw [if_neg, hnat]
  rw [gt_iff_lt, UInt8.lt_iff_toNat_lt, hnat]
  exact Nat.not_lt.2 hn'

/-- A read of registers leaves the bridge as it is. -/
theorem exec_readRegs (htx : b.tx = []) {reg : UInt8} (hreg : reg ≠ 0xC8) (hn : 1 ≤ n)
    (hn' : n ≤ readMax) :
    exec answer (brimodRead true reg n) b
      = ({ buf := (List.range n).map fun i => b.regs (reg + UInt8.ofNat i) }, b) := by
  rw [exec_read hn hn']
  unfold prepareRead
  rw [ofNat_small hn', if_neg hreg]
  have hlen : ((List.range n).map fun i => b.regs (reg + UInt8.ofNat i)).length = n := by
    rw [List.length_map, List.length_range]
  simp only [htx, List.nil_append]
  rw [List.take_of_length_le hlen.le, List.drop_of_length_le hlen.le, ← htx]

/-- A read of the reply moves the offset on. -/
theorem exec_readReply (htx : b.tx = []) (hn : 1 ≤ n) (hn' : n ≤ readMax) :
    exec answer (brimodRead true regReply n) b
      = ({ buf := (List.range n).map fun i => b.reply.getD (b.replyOff.toNat + i) 0 },
          { b with replyOff := b.replyOff + UInt16.ofNat n }) := by
  rw [exec_read hn hn']
  unfold prepareRead
  rw [ofNat_small hn', if_pos (show regReply = 0xC8 from rfl)]
  have hlen : ((List.range n).map fun i => b.reply.getD (b.replyOff.toNat + i) 0).length = n := by
    rw [List.length_map, List.length_range]
  simp only [htx, List.nil_append]
  rw [List.take_of_length_le hlen.le, List.drop_of_length_le hlen.le, ← htx]

theorem exec_write {reg : UInt8} (hreg : reg ≠ 0xFF) {d : List UInt8} (hd : d.length ≤ writeMax) :
    exec answer (brimodWrite true reg d) b = (0, b.handleWrite reg d) := by
  have hraw : brimodWrite true reg d
      = if d.length > writeMax then pure eproto
        else Prog.ask (.write (reg :: d)) >>= fun q => pure q.r := rfl
  have htake : (reg :: d).take (cmdMax + 8) = reg :: d := by
    apply List.take_of_length_le
    rw [List.length_cons]
    unfold writeMax at hd
    unfold cmdMax
    omega
  rw [hraw, if_neg (by omega)]
  show ((0 : Int), b.onBoxReceive (reg :: d)) = _
  rw [onBoxReceive, htake]
  dsimp only
  rw [if_neg hreg]

-- ================================================================ a command

/-- A command has been written. -/
def Bridge.taken (b : Bridge) (cmd : List UInt8) : Bridge :=
  { b.put8 0xC0 1 with cmdBuf := cmd, cmdPending := true }

/-- No command is under way, and the link is clean. -/
structure Ready (s : Station) : Prop where
  idle : s.bridge.regs 0xC0 ≠ 1
  clean : s.bridge.tx = []

theorem exec_cmdStart (hidle : b.regs 0xC0 ≠ 1) (htx : b.tx = []) {cmd : List UInt8}
    (hcmd : cmd ≠ []) (hlen : cmd.length ≤ boxCmdMax) (hnul : 0 ∉ cmd) :
    exec answer (brimodCmdStart true cmd) b = (0, b.taken cmd) := by
  have hpos := List.length_pos_iff.2 hcmd
  have hstart : brimodCmdStart true cmd
      = if cmd.length < 1 ∨ boxCmdMax < cmd.length then pure eproto
        else brimodRead true regMail 1 >>= fun q =>
          if q.r < 0 then pure q.r
          else if q.buf.getD 0 0 = mailBusy then pure ebusy
          else brimodWrite true regMail cmd := rfl
  rw [hstart, if_neg (by omega), exec_bind, exec_readRegs htx (by decide) le_rfl (by decide)]
  dsimp only
  have hst : ((List.range 1).map fun i => b.regs (regMail + UInt8.ofNat i)).getD 0 0
      = b.regs 0xC0 := rfl
  rw [if_neg (show ¬ (0 : Int) < 0 by decide), hst,
    if_neg (show ¬ b.regs 0xC0 = mailBusy from hidle),
    exec_write (by decide) (hlen.trans (by decide))]
  have hbuf : (cmd.take cmdMax).takeWhile (· != 0) = cmd := by
    rw [List.take_of_length_le (hlen.trans (by decide)), List.takeWhile_eq_self_iff]
    intro c hc
    rw [bne_iff_ne]
    rintro rfl
    exact hnul hc
  unfold handleWrite
  rw [if_neg (by decide), if_pos (by rfl), if_pos ⟨hidle, hpos⟩, hbuf]
  rfl

theorem exec_cmdStatus (htx : b.tx = []) :
    exec answer (brimodCmdStatus true) b
      = ((((b.regs 0xC0).toNat : Int), (le16 (b.regs 0xC1) (b.regs 0xC2)).toNat), b) := by
  have hstatus : brimodCmdStatus true
      = brimodRead true regMail 3 >>= fun q =>
        if q.r < 0 then pure (q.r, 0)
        else pure ((q.buf.getD 0 0).toNat, (le16 (q.buf.getD 1 0) (q.buf.getD 2 0)).toNat) := rfl
  rw [hstatus, exec_bind, exec_readRegs htx (by decide) (by decide) (by decide)]
  dsimp only
  rw [if_neg (show ¬ (0 : Int) < 0 by decide)]
  rfl

-- ================================================================ the reply

/-- The chunks of a reply are its bytes in order. -/
theorem exec_replyLoop {len max : Nat} (turns : Nat) (b : Bridge) (htx : b.tx = [])
    (hreply : b.reply.length = len) (hlen : len < 2 ^ 16) {k : Nat}
    (hoff : b.replyOff.toNat = k) (hk : k ≤ len) (hk' : k ≤ max - 1) (hturns : len ≤ turns + k) :
    (exec answer (replyLoop true len max turns 0 (b.reply.take k)) b).1
      = (0, b.reply.take (max - 1)) := by
  induction turns generalizing b k with
  | zero =>
      have hall : len ≤ max - 1 := by omega
      simp only [replyLoop]
      rw [Prog.pure_eq, exec_ret, List.take_of_length_le (by omega),
        List.take_of_length_le (by omega)]
  | succ turns ih =>
      have htake : (b.reply.take k).length = k := by
        rw [List.length_take]
        omega
      unfold replyLoop
      rw [htake]
      by_cases hmore : k < len ∧ k < max - 1
      · rw [if_pos ⟨rfl, hmore⟩]
        set n := min (min (len - k) readMax) (max - 1 - k) with hn
        have hpos : 1 ≤ n := by
          unfold readMax at hn
          omega
        have hmax : n ≤ readMax := by omega
        rw [exec_bind, exec_readReply htx hpos hmax]
        dsimp only
        rw [if_pos rfl, hoff]
        have hchunk : b.reply.take k ++ (List.range n).map (fun i => b.reply.getD (k + i) 0)
            = b.reply.take (k + n) := by
          rw [List.take_add]
          congr 1
          apply List.ext_getElem
          · simp only [List.length_map, List.length_range, List.length_take, List.length_drop]
            omega
          · intro i hi _
            rw [List.length_map, List.length_range] at hi
            rw [List.getElem_map, List.getElem_range, List.getElem_take, List.getElem_drop,
              List.getD_eq_getElem _ _ (by omega)]
        rw [hchunk]
        have hoff' : (b.replyOff + UInt16.ofNat n).toNat = k + n := by
          rw [UInt16.toNat_add, UInt16.toNat_ofNat', hoff]
          omega
        exact ih { b with replyOff := b.replyOff + UInt16.ofNat n } htx hreply hoff' (by omega)
          (by omega) (by omega)
      · rw [if_neg (fun h => hmore h.2), Prog.pure_eq, exec_ret]
        rcases Nat.lt_or_ge k len with hlt | hge
        · rw [show k = max - 1 by omega]
        · rw [List.take_of_length_le (by omega), List.take_of_length_le (by omega)]

theorem le16_lo_hi (v : UInt16) : le16 (lo v) (hi v) = v := by
  apply UInt16.toNat_inj.1
  apply Nat.eq_of_testBit_eq
  intro i
  rw [le16_testBit]
  split
  · next h => exact lo_testBit v i h
  · next h => exact hi_testBit v i (by omega)

theorem exec_cmdReply (htx : b.tx = []) {max : Nat} (hmax : 1 ≤ max)
    (hlen : b.reply.length < 2 ^ 16)
    (hsize : le16 (b.regs 0xC1) (b.regs 0xC2) = UInt16.ofNat b.reply.length) :
    (exec answer (brimodCmdReply true max) b).1
      = ((b.reply.length : Int), b.reply.take (max - 1)) := by
  have hstatus : (le16 (b.regs 0xC1) (b.regs 0xC2)).toNat = b.reply.length := by
    rw [hsize, UInt16.toNat_ofNat']
    exact Nat.mod_eq_of_lt hlen
  have hreply : brimodCmdReply true max
      = brimodCmdStatus true >>= fun q =>
        if q.1 < 0 then pure (q.1, [])
        else if max < 1 then pure ((q.2 : Int), [])
        else brimodWrite true regReply [0, 0] >>= fun r =>
          replyLoop true q.2 max q.2 r [] >>= fun p =>
            pure (if p.1 < 0 then p.1 else (q.2 : Int), p.2) := rfl
  have hoff : b.handleWrite regReply [0, 0] = { b with replyOff := 0 } := rfl
  rw [hreply, exec_bind, exec_cmdStatus htx]
  dsimp only
  rw [if_neg (by omega), if_neg (by omega), hstatus, exec_bind, exec_write (by decide) (by decide),
    hoff, exec_bind]
  dsimp only
  have hloop := @exec_replyLoop b.reply.length max b.reply.length { b with replyOff := 0 } htx rfl
    hlen 0 rfl (Nat.zero_le _) (Nat.zero_le _) le_rfl
  rw [List.take_zero] at hloop
  rw [hloop]
  rfl

-- ================================================================ the poll

variable {others : List UInt8 → Station → Bool × Station} {s : Station}

/-- What `cmd_run` starts from. -/
def Station.served (s : Station) : Station :=
  { s with bridge := { s.bridge with cmdPending := false, reply := [], replyOff := 0 } }

/-- What the box sees of a command that ran: the status, the length of the
reply, and the reply itself. -/
structure Done (r : Bool × Station) (t : Station) : Prop where
  status : t.bridge.regs 0xC0 = if r.1 then 2 else 3
  size : le16 (t.bridge.regs 0xC1) (t.bridge.regs 0xC2) = UInt16.ofNat r.2.bridge.reply.length
  reply : t.bridge.reply = r.2.bridge.reply
  tx : t.bridge.tx = r.2.bridge.tx
  calls : t.calls = r.2.calls

theorem mailboxPoll_done (hpending : s.bridge.cmdPending = true) :
    Done (cmdRun others s.bridge.cmdBuf s.served) (mailboxPoll others s) := by
  unfold mailboxPoll
  rw [if_pos hpending]
  exact {
    status := rfl
    size := le16_lo_hi _
    reply := rfl
    tx := rfl
    calls := rfl }

theorem onLink_status (htx : s.bridge.tx = []) :
    onLink (brimodCmdStatus true) s
      = ((((s.bridge.regs 0xC0).toNat : Int),
          (le16 (s.bridge.regs 0xC1) (s.bridge.regs 0xC2)).toNat), s) := by
  unfold onLink
  rw [exec_cmdStatus htx]

theorem cmdWait_busy (hbusy : s.bridge.regs 0xC0 = 1) (htx : s.bridge.tx = []) (turns : Nat) :
    cmdWait others true (turns + 1) s = cmdWait others true turns (sdkIdle others s) := by
  rw [cmdWait, onLink_status htx, hbusy]
  rfl

theorem cmdWait_done {r : Bool × Station} (hdone : Done r s) (hclean : r.2.bridge.tx = [])
    (turns : Nat) : cmdWait others true (turns + 1) s = (if r.1 then 2 else 3, s) := by
  rw [cmdWait, onLink_status (hdone.tx.trans hclean), hdone.status]
  cases r.1 <;> rfl

theorem sdkIdle_zero (h : s.pauses = 0) : sdkIdle others s = mailboxPoll others s := by
  unfold sdkIdle
  rw [h]

theorem sdkIdle_succ {k : Nat} (h : s.pauses = k + 1) :
    sdkIdle others s = { s with pauses := k } := by
  unfold sdkIdle
  rw [h]

/-- The box reads the status until the command has run. -/
theorem cmdWait_spec {k : Nat} (hk : s.pauses = k) (hbusy : s.bridge.regs 0xC0 = 1)
    (htx : s.bridge.tx = []) {r : Bool × Station} {t : Station} (hdone : Done r t)
    (hclean : r.2.bridge.tx = []) (hpoll : mailboxPoll others { s with pauses := 0 } = t)
    {turns : Nat} (hturns : k + 2 ≤ turns) :
    cmdWait others true turns s = (if r.1 then 2 else 3, t) := by
  induction k generalizing s turns with
  | zero =>
      obtain ⟨turns, rfl⟩ : ∃ m, turns = m + 1 + 1 := ⟨turns - 2, by omega⟩
      have hsame : { s with pauses := 0 } = s := by
        rw [← hk]
      rw [hsame] at hpoll
      rw [cmdWait_busy hbusy htx, sdkIdle_zero hk, hpoll, cmdWait_done hdone hclean]
  | succ k ih =>
      obtain ⟨turns, rfl⟩ : ∃ m, turns = m + 1 := ⟨turns - 1, by omega⟩
      rw [cmdWait_busy hbusy htx, sdkIdle_succ hk]
      exact @ih { s with pauses := k } rfl hbusy htx hpoll turns (by omega)

/-- A command runs as it was sent; then the box fetches the reply. -/
theorem brimodCmd_eq (hs : Ready s) {cmd : List UInt8} (hcmd : cmd ≠ [])
    (hlen : cmd.length ≤ boxCmdMax) (hnul : 0 ∉ cmd) {turns : Nat} (hturns : s.pauses + 2 ≤ turns)
    (max : Nat) {r : Bool × Station}
    (hr : cmdRun others cmd
      (Station.served { s with bridge := s.bridge.taken cmd, pauses := 0 }) = r)
    (hclean : r.2.bridge.tx = []) :
    ∃ t, Done r t ∧ brimodCmd others true turns cmd max s
      = let q := onLink (brimodCmdReply true max) t
        if q.1.1 < 0 then q else ((if r.1 then q.1.1 else efail, q.1.2), q.2) := by
  have hstart : onLink (brimodCmdStart true cmd) s
      = (0, { s with bridge := s.bridge.taken cmd }) := by
    unfold onLink
    rw [exec_cmdStart hs.idle hs.clean hcmd hlen hnul]
  set s₁ : Station := { s with bridge := s.bridge.taken cmd } with hs₁
  have hdone : Done r (mailboxPoll others { s₁ with pauses := 0 }) :=
    hr ▸ @mailboxPoll_done others { s₁ with pauses := 0 } rfl
  have hwait := @cmdWait_spec others s₁ s.pauses rfl rfl hs.clean r _ hdone hclean rfl turns hturns
  refine ⟨_, hdone, ?_⟩
  unfold brimodCmd
  rw [hstart]
  dsimp only
  rw [if_neg (by decide), hwait]
  dsimp only
  rw [if_neg (by split <;> decide)]
  generalize onLink (brimodCmdReply true max) _ = q
  cases r.1 <;> rfl

theorem brimodCmd_calls (hs : Ready s) {cmd : List UInt8} (hcmd : cmd ≠ [])
    (hlen : cmd.length ≤ boxCmdMax) (hnul : 0 ∉ cmd) {turns : Nat} (hturns : s.pauses + 2 ≤ turns)
    (max : Nat) {r : Bool × Station}
    (hr : cmdRun others cmd
      (Station.served { s with bridge := s.bridge.taken cmd, pauses := 0 }) = r)
    (hclean : r.2.bridge.tx = []) :
    (brimodCmd others true turns cmd max s).2.calls = r.2.calls := by
  obtain ⟨t, hdone, heq⟩ := brimodCmd_eq hs hcmd hlen hnul hturns max hr hclean
  rw [heq, ← hdone.calls]
  dsimp only
  split <;> rfl

/-- The reply comes back up to the box's buffer. -/
theorem brimodCmd_reply (hs : Ready s) {cmd : List UInt8} (hcmd : cmd ≠ [])
    (hlen : cmd.length ≤ boxCmdMax) (hnul : 0 ∉ cmd) {turns max : Nat}
    (hturns : s.pauses + 2 ≤ turns) (hmax : 1 ≤ max) {r : Bool × Station}
    (hr : cmdRun others cmd
      (Station.served { s with bridge := s.bridge.taken cmd, pauses := 0 }) = r)
    (hclean : r.2.bridge.tx = []) (hreply : r.2.bridge.reply.length < 2 ^ 16) :
    (brimodCmd others true turns cmd max s).1
      = (if r.1 then (r.2.bridge.reply.length : Int) else efail,
          r.2.bridge.reply.take (max - 1)) := by
  obtain ⟨t, hdone, heq⟩ := brimodCmd_eq hs hcmd hlen hnul hturns max hr hclean
  have hfetch := exec_cmdReply (hdone.tx.trans hclean) hmax (by rw [hdone.reply]; exact hreply)
    (by rw [hdone.size, hdone.reply])
  rw [hdone.reply] at hfetch
  have hlink : (onLink (brimodCmdReply true max) t).1
      = ((r.2.bridge.reply.length : Int), r.2.bridge.reply.take (max - 1)) := hfetch
  rw [heq]
  dsimp only
  rw [hlink, if_neg (by omega)]

end Ncmips.Brimod
