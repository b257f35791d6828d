/-
The mailbox between box and bridge, and the two WiFi commands in it: the
bridge's side in esp32c3/bridge/bridge.ino (`rep`, `arg`, `cmd_run`,
`mailbox_poll`), the box's in sdk/brimod.c (`brimod_cmd`, `word`,
`copy_line`, `brimod_wifi_scan`, `brimod_wifi_connect`).

C strings are byte lists without a 0. What the radio sees and how a
connection ends comes from the WiFi library and is part of the state; the
bridge's main loop runs while the box idles between two status reads.
-/
import Ncmips.Lib.Interference
import Ncmips.Lib.Lines
import Ncmips.Lib.Words
import Ncmips.Libc.Printf
import Ncmips.Brimod.Driver

namespace Ncmips.Brimod

open Libc (ch text lf)
open Lines Words

def sp : UInt8 := 32
def tab : UInt8 := 9

-- =============================================================== the bridge

/-- A network as the WiFi library lists it. -/
structure Net where
  ssid : List UInt8
  rssi : Int
  channel : Int
  secure : Bool

/-- What `WiFi.status` says once the connection was tried. -/
inductive WlStatus where
  | connected (ip : List UInt8)
  | noSsidAvail
  | connectFailed
  | disconnected
  | other

structure Station where
  bridge : Bridge
  nets : List Net
  joins : List UInt8 → List UInt8 → WlStatus
  doneCount : UInt8 := 0
  /-- The calls of `wifi_connect`. -/
  calls : List (List UInt8 × List UInt8) := []
  /-- So often the box idles before the main loop comes to the mailbox. -/
  pauses : Nat := 0

/-- `reply + reply_len` gets the text, as far as there is room. -/
def Station.rep (s : Station) (t : List UInt8) : Station :=
  if replyMax - 1 ≤ s.bridge.reply.length then s
  else { s with bridge := { s.bridge with reply := (s.bridge.reply ++ t).take (replyMax - 1) } }

def decimalNat (n : Nat) : List UInt8 :=
  if n < 10 then [ch '0' + UInt8.ofNat n]
  else decimalNat (n / 10) ++ [ch '0' + UInt8.ofNat (n % 10)]
termination_by n
decreasing_by omega

/-- `%d` -/
def decimal (n : Int) : List UInt8 :=
  if n < 0 then ch '-' :: decimalNat n.natAbs else decimalNat n.natAbs

/-- The command from word `i` on. -/
def argFrom : Nat → List UInt8 → List UInt8
  | 0, line => line
  | i + 1, line => (((argFrom i line).dropWhile (· ≠ sp)).dropWhile (· = sp))

/-- Word `i` of the command (0 = command name); `rest`: everything from
word `i` on. -/
def arg (line : List UInt8) (i : Nat) (rest : Bool) : List UInt8 :=
  if rest then argFrom i line else (argFrom i line).takeWhile (· ≠ sp)

def toUpper (c : UInt8) : UInt8 := if ch 'a' ≤ c ∧ c ≤ ch 'z' then c - 32 else c

def wifiConnect (ssid pass : List UInt8) (s : Station) : Station :=
  { s with calls := s.calls ++ [(ssid, pass)] }

/-- The two fields of a `WIFI` command, after tabs or as words. -/
def wifiArgs (line : List UInt8) : List UInt8 × List UInt8 :=
  match keyValue tab line with
  | some (_, fields) =>
      match keyValue tab fields with
      | some (ssid, pass) => (ssid, pass)
      | none => (fields, [])
  | none => (arg line 1 false, arg line 2 true)

def cmdWifi (line : List UInt8) (s : Station) : Bool × Station :=
  let (ssid, pass) := wifiArgs line
  if ssid = [] then (false, s.rep (text "usage: WIFI ssid password"))
  else
    let s := wifiConnect ssid pass s
    match s.joins ssid pass with
    | .connected ip => (true, s.rep (text "OK " ++ ip))
    | .noSsidAvail => (false, s.rep (text "not connected: network not found"))
    | .connectFailed | .disconnected => (false, s.rep (text "not connected: wrong password?"))
    | .other => (false, s.rep (text "not connected: no answer"))

/-- What comes before the name: `"%d %d %d "`. -/
def Net.head (n : Net) : List UInt8 :=
  decimal n.rssi ++ sp :: (decimal n.channel ++ sp :: (decimal n.secure.toInt ++ [sp]))

def Net.line (n : Net) : List UInt8 := n.head ++ (n.ssid ++ [lf])

def cmdScan (s : Station) : Bool × Station :=
  (true, s.nets.foldl (fun s n => s.rep n.line) s)

variable (others : List UInt8 → Station → Bool × Station)

/-- `others` are the commands that have nothing to do with WiFi names. -/
def cmdRun (line : List UInt8) (s : Station) : Bool × Station :=
  let c := ((arg line 0 false).takeWhile (· ≠ tab)).map toUpper
  if c = text "WIFI" then cmdWifi line s
  else if c = text "SCAN" then cmdScan s
  else others line s

def evMail : UInt16 := 32

def mailboxPoll (s : Station) : Station :=
  if s.bridge.cmdPending then
    let cmd := s.bridge.cmdBuf
    let b := { s.bridge with cmdPending := false, reply := [], replyOff := 0 }
    let (ok, s) := cmdRun others cmd { s with bridge := b }
    let done := s.doneCount + 1
    let b := s.bridge.put16 0xC1 (UInt16.ofNat s.bridge.reply.length)
    let b := b.put8 0xC3 done
    let b := b.put8 0xC0 (if ok then 2 else 3)
    { s with bridge := b.raiseEvent evMail, doneCount := done }
  else s

-- ================================================================== the box

def regMail : UInt8 := 0xC0
def regReply : UInt8 := 0xC8
def mailBusy : UInt8 := 1
def mailDone : UInt8 := 2
def mailError : UInt8 := 3
def boxCmdMax : Nat := 120

def ebusy : Int := -11
def etimeout : Int := -12
def efail : Int := -13

variable (sdkBrimod : Bool)

def brimodCmdStart (cmd : List UInt8) : Driver Int :=
  if !sdkBrimod then pure enodev
  else if cmd.length < 1 ∨ boxCmdMax < cmd.length then pure eproto
  else do
    let q ← brimodRead sdkBrimod regMail 1
    if q.r < 0 then pure q.r
    else if q.buf.getD 0 0 = mailBusy then pure ebusy
    else brimodWrite sdkBrimod regMail cmd

/-- The status, and the length of the reply. -/
def brimodCmdStatus : Driver (Int × Nat) := do
  let q ← brimodRead sdkBrimod regMail 3
  if q.r < 0 then pure (q.r, 0)
  else pure ((q.buf.getD 0 0).toNat, (Bridge.le16 (q.buf.getD 1 0) (q.buf.getD 2 0)).toNat)

/-- Each read moves the bridge's reply offset on. -/
def replyLoop (len max : Nat) : (turns : Nat) → Int → List UInt8 → Driver (Int × List UInt8)
  | 0, r, got => pure (r, got)
  | turns + 1, r, got =>
      if r = 0 ∧ got.length < len ∧ got.length < max - 1 then do
        let n := min (min (len - got.length) readMax) (max - 1 - got.length)
        let q ← brimodRead sdkBrimod regReply n
        replyLoop len max turns q.r (if q.r = 0 then got ++ q.buf else got)
      else pure (r, got)

def brimodCmdReply (max : Nat) : Driver (Int × List UInt8) := do
  let (r, len) ← brimodCmdStatus sdkBrimod
  if r < 0 then pure (r, [])
  else if max < 1 then pure (len, [])
  else
    let r ← brimodWrite sdkBrimod regReply [0, 0]
    let (r, got) ← replyLoop sdkBrimod len max len r []
    pure (if r < 0 then r else len, got)

/-- The bridge's main loop has time. -/
def sdkIdle (s : Station) : Station :=
  match s.pauses with
  | 0 => mailboxPoll others s
  | n + 1 => { s with pauses := n }

/-- Transfers, while the bridge's main loop stands still. -/
def onLink {α : Type} (p : Driver α) (s : Station) : α × Station :=
  let (a, b) := Machine.exec answer p s.bridge
  (a, { s with bridge := b })

/-- The loop over status reads; after `turns` of them the time is up. -/
def cmdWait : (turns : Nat) → Station → Int × Station
  | 0, s => (etimeout, s)
  | turns + 1, s =>
      let ((st, _), s) := onLink (brimodCmdStatus sdkBrimod) s
      if st < 0 ∨ st = mailDone.toNat ∨ st = mailError.toNat then (st, s)
      else cmdWait turns (sdkIdle others s)

def brimodCmd (turns : Nat) (cmd : List UInt8) (max : Nat) (s : Station) :
    (Int × List UInt8) × Station :=
  let (r, s) := onLink (brimodCmdStart sdkBrimod cmd) s
  if r < 0 then ((r, []), s)
  else
    let (st, s) := cmdWait others sdkBrimod turns s
    if st < 0 then ((st, []), s)
    else
      let ((r, reply), s) := onLink (brimodCmdReply sdkBrimod max) s
      if r < 0 then ((r, reply), s)
      else ((if st = mailError.toNat then efail else r, reply), s)

-- ==================================================================== texts

/-- Copies one space-separated word; returns the rest after it. -/
def word (s : List UInt8) (max : Nat) : List UInt8 × List UInt8 :=
  let s := s.dropWhile (· = sp)
  ((s.takeWhile fun c => c ≠ sp ∧ c ≠ lf).take (max - 1), s.dropWhile fun c => c ≠ sp ∧ c ≠ lf)

def copyLine (s : List UInt8) (max : Nat) : List UInt8 :=
  ((s.dropWhile (· = sp)).takeWhile (· ≠ lf)).take (max - 1)

def isSpace (c : UInt8) : Bool := c = sp || (9 ≤ c && c ≤ 13)

/-- `strtoul` to base 10. -/
def digitsFrom (v : Nat) : List UInt8 → Nat
  | [] => v
  | c :: s => if Libc.isDigit c then digitsFrom (u32 (v * 10 + (c - ch '0').toNat)) s else v

def atoi (s : List UInt8) : Int :=
  match s.dropWhile isSpace with
  | [] => 0
  | c :: s =>
      if c = ch '-' then s32 (-(digitsFrom 0 s : Int))
      else if c = ch '+' then s32 (digitsFrom 0 s)
      else s32 (digitsFrom 0 (c :: s))

/-- `struct brimod_net` -/
structure Entry where
  ssid : List UInt8
  rssi : Int
  channel : Int
  secure : Int
deriving DecidableEq

/-- "The name keeps its own spaces": one is the separator. -/
def skipSpace : List UInt8 → List UInt8
  | [] => []
  | c :: p => if c = sp then p else c :: p

/-- One line of the reply, and where its name begins. -/
def scanLine (p : List UInt8) : Entry × List UInt8 :=
  let (rssi, p) := word p 8
  let (channel, p) := word p 8
  let (secure, p) := word p 8
  let p := skipSpace p
  ({ ssid := copyLine p 33, rssi := atoi rssi, channel := atoi channel, secure := atoi secure }, p)

theorem word_length (s : List UInt8) (max : Nat) : (word s max).2.length ≤ s.length :=
  (List.dropWhile_sublist _).length_le.trans (List.dropWhile_sublist _).length_le

theorem skipSpace_length (p : List UInt8) : (skipSpace p).length ≤ p.length := by
  cases p with
  | nil => exact le_rfl
  | cons c p =>
      rw [skipSpace]
      split
      · exact Nat.le_succ _
      · exact le_rfl

theorem scanLine_length (p : List UInt8) : (scanLine p).2.length ≤ p.length := by
  have h1 := word_length p 8
  have h2 := word_length (word p 8).2 8
  have h3 := word_length (word (word p 8).2 8).2 8
  exact (skipSpace_length _).trans (h3.trans (h2.trans h1))

/-- A name that is new takes the next place. -/
def addEntry (nets : List Entry) (e : Entry) : List Entry :=
  if e.ssid ≠ [] ∧ e.ssid ∉ nets.map Entry.ssid then nets ++ [e] else nets

/-- `"rssi ch secure ssid"` lines, until the reply ends or `max` names are
there. -/
def scanLoop (max : Nat) (p : List UInt8) (nets : List Entry) : List Entry :=
  if p = [] ∨ max ≤ nets.length then nets
  else
    match _hnext : (scanLine p).2.dropWhile (· ≠ lf) with
    | [] => addEntry nets (scanLine p).1
    | _ :: rest => scanLoop max rest (addEntry nets (scanLine p).1)
termination_by p.length
decreasing_by
  have hline := scanLine_length p
  have hdrop := (List.dropWhile_sublist (· ≠ lf) (l := (scanLine p).2)).length_le
  rw [_hnext, List.length_cons] at hdrop
  omega

/-- The entries are `nets[0 .. r)`. -/
def brimodWifiScan (turns max : Nat) (s : Station) : (Int × List Entry) × Station :=
  let ((r, reply), s) := brimodCmd others sdkBrimod turns (text "SCAN") 3072 s
  if r < 0 then ((r, []), s)
  else
    let nets := scanLoop max reply []
    ((nets.length, nets), s)

def brimodWifiConnect (turns : Nat) (ssid pass : List UInt8) (max : Nat) (s : Station) :
    Int × Station :=
  let len := ssid.length + pass.length + 6
  if ssid = [] ∨ 32 < ssid.length ∨ 63 < pass.length ∨ boxCmdMax < len then (eproto, s)
  else
    let cmd := (text "WIFI" ++ tab :: (ssid ++ tab :: pass)).take boxCmdMax
    let ((r, _), s) := brimodCmd others sdkBrimod turns cmd max s
    (if r < 0 then r else 0, s)

end Ncmips.Brimod
