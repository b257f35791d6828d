/-
Files of an app under the system, `sdk/runtime.c`.

A call is a program over what the app asks the system: its generation
number, whether there is a stick, and sector transfers. `Log` is not the
code's: it keeps for each transfer that succeeded the insertion that
answered, so that one can say where bytes come from.
-/
import Ncmips.Sdk.Storage

namespace Ncmips.Sdk

open Usbfat (Io Req Fs Ufile Udirent ufsSector)

/-- What an app asks. -/
inductive Ask
  | storageGen
  | storagePresent
  | transfer (r : Req)

inductive Ans
  | num (n : Nat)
  | flag (b : Bool)
  | sectors (d : Option (Nat × List UInt8))

abbrev Call := Prog Ask Ans

def Ans.toNum : Ans → Nat
  | .num n => n
  | _ => 0

def Ans.toFlag : Ans → Bool
  | .flag b => b
  | _ => false

def Ans.toSectors : Ans → Option (Nat × List UInt8)
  | .sectors d => d
  | _ => none

def storageGen : Call Nat := Ans.toNum <$> (Prog.ask .storageGen : Call Ans)

def appPresent : Call Bool := Ans.toFlag <$> (Prog.ask .storagePresent : Call Ans)

/-- The transfers that succeeded, and who answered. -/
abbrev Log := List (Req × Nat)

/-- The reader's transfers, through `raw_read` and `raw_write`. -/
def onSystem {α : Type} : Io α → Log → Call (α × Log)
  | .ret a, log => .ret (a, log)
  | .call r k, log => .call (.transfer r) fun ans =>
      match ans.toSectors with
      | none => onSystem (k none) log
      | some (i, bytes) => onSystem (k (some bytes)) (log ++ [(r, i)])

-- =================================================================== state

def maxStreams : Nat := 3

/-- An open file; `log` is all that was transferred for it. -/
structure Stream where
  used : Bool := false
  file : Ufile := { size := 0, first := 0, clus := 0 }
  /-- The generation it was opened on. -/
  gen : Nat := 0
  log : Log := []

structure App where
  mounted : Bool := false
  mountedGen : Nat := 0
  fs : Fs := {}
  streams : List Stream := .replicate maxStreams {}
  /-- All transfers since the mount: what is cached is from these. -/
  log : Log := []

def App.lostCheck (a : App) : App := if a.fs.lost then { a with mounted := false } else a

/-- The first test of `mount`: another stick (or the same, put back). -/
def checkGen (a : App) : Call App :=
  if a.mounted then do
    let g ← storageGen
    pure (if a.mountedGen ≠ g then { a with mounted := false } else a)
  else pure a

/-- The rest of `mount`, without one: `ufs_mount`. -/
def mountAnew (a : App) : Call (Bool × App) := do
  let ((ok, fs), log) ←
    onSystem (Usbfat.ufsMount { a.fs with lost := false, fatCached := 0xffffffff }) []
  let a := { a with fs, log }
  if !ok then pure (false, a.lostCheck)
  else do
    let g ← storageGen
    pure (true, { a with mounted := true, mountedGen := g })

/-- `mount`, under the system; `false` is -1. -/
def mount (a : App) : Call (Bool × App) := do
  let a ← checkGen a
  if a.mounted then pure (true, a)
  else do
    let present ← appPresent
    if !present then pure (false, a) else mountAnew a

-- =================================================================== calls

/-- What a call comes to. `none` is -1, or 0 bytes. -/
inductive Out
  | opened (h : Option Nat)
  | read (data : Option (List UInt8))
  | file (data : Option (List UInt8))
  | overwritten (ok : Bool)
  /-- The loops over the stick had too few turns. -/
  | cut

/-- `sdk_open`; `e` is a buffer on the stack. -/
def sdkOpen (turns : Nat) (path : List UInt8) (e : Udirent) (a : App) : Call (Out × App) := do
  let (ok, a) ← mount a
  if !ok then pure (.opened none, a)
  else
    match a.streams.findIdx? (fun s => !s.used) with
    | none => pure (.opened none, a)
    | some h => do
        let (r, log) ← onSystem (Usbfat.ufsOpen turns path e a.fs) a.log
        match r with
        | none => pure (.cut, { a with log })
        | some (none, fs) => pure (.opened none, { a with fs, log }.lostCheck)
        | some (some file, fs) =>
            pure (.opened (some h),
              { a with
                fs, log
                streams := a.streams.set h { used := true, file, gen := a.mountedGen, log } })

/-- `sdk_read` -/
def sdkRead (turns h len : Nat) (a : App) : Call (Out × App) :=
  match a.streams[h]? with
  | none => pure (.read none, a)
  | some s =>
      if !s.used ∨ len = 0 then pure (.read none, a)
      else do
        let (ok, a) ← mount a
        -- the stick it was on is gone
        if !ok ∨ s.gen ≠ a.mountedGen then pure (.read none, a)
        else do
          let (r, log) ← onSystem (Usbfat.ufsRead turns s.file len a.fs) a.log
          match r with
          | none => pure (.cut, { a with log })
          | some (data, file, fs) =>
              pure (.read (some data),
                { a with
                  fs, log
                  streams := a.streams.set h { s with file, log := s.log ++ log } }.lostCheck)

def readPiece : Nat := 256 * 1024

/-- The loop of `sdk_read_file`: the bytes, or `none` for -1. -/
def readFileLoop (turns total : Nat) : (pieces : Nat) → List UInt8 → Ufile → Fs →
    Io (Option (Option (List UInt8) × Fs))
  | 0, _, _, _ => pure none
  | pieces + 1, done, f, fs =>
      if done.length < total then do
        match ← Usbfat.ufsRead turns f (min (total - done.length) readPiece) fs with
        | none => pure none
        | some (data, f, fs) =>
            if data.length = 0 then pure (some (none, fs))
            else readFileLoop turns total pieces (done ++ data) f fs
      else pure (some (some done, fs))

/-- `sdk_read_file`, with room for `max` bytes. -/
def sdkReadFile (turns : Nat) (path : List UInt8) (e : Udirent) (max : Nat) (a : App) :
    Call (Out × App) := do
  let (ok, a) ← mount a
  if !ok then pure (.file none, a)
  else do
    let (r, log) ← onSystem (Usbfat.ufsOpen turns path e a.fs) a.log
    match r with
    | none => pure (.cut, { a with log })
    | some (none, fs) => pure (.file none, { a with fs, log })
    | some (some f, fs) => do
        let (r, log) ← onSystem (readFileLoop turns (min f.size max) turns [] f fs) log
        match r with
        | none => pure (.cut, { a with log })
        | some (none, fs) => pure (.file none, { a with fs, log }.lostCheck)
        | some (some data, fs) => pure (.file (some data), { a with fs, log })

/-- The bytes of `a` begin with `b`. -/
def startsWith (a b : List UInt8) : Bool := a.take b.length = b

/-- `ufs_overwrite` -/
def ufsOverwrite (turns : Nat) (path data magic : List UInt8) (e : Udirent) (fs : Fs) :
    Io (Option (Bool × Fs)) := do
  match ← Usbfat.ufsLookup turns path e fs with
  | none => pure none
  | some r =>
      if !r.ok ∨ r.e.isDir then pure (some (false, r.s))
      else if r.e.size ≠ ufsSector ∨ Usbfat.ufsEoc r.e.first then pure (some (false, r.s))
      else if !startsWith data magic then pure (some (false, r.s))
      else do
        let sec := Usbfat.ufsClusSector r.s.geo r.e.first
        match ← Usbfat.ufsSectors r.s sec 1 with
        | (none, fs) => pure (some (false, fs))
        | (some old, fs) =>
            -- the sector on the stick must hold the expected data
            if !startsWith old magic then pure (some (false, fs))
            else do
              let wrote ← Usbfat.ufsWriteSector sec data
              if !wrote then pure (some (false, fs))
              else do
                match ← Usbfat.ufsSectors fs sec 1 with
                | (none, fs) => pure (some (false, fs))
                | (some now, fs) => pure (some (startsWith now data, fs))

/-- `sdk_overwrite_sector_file` -/
def sdkOverwrite (turns : Nat) (path data magic : List UInt8) (e : Udirent) (a : App) :
    Call (Out × App) := do
  let (ok, a) ← mount a
  if !ok then pure (.overwritten false, a)
  else do
    let (r, log) ← onSystem (ufsOverwrite turns path data magic e a.fs) a.log
    match r with
    | none => pure (.cut, { a with log })
    | some (ok, fs) => pure (.overwritten ok, { a with fs, log }.lostCheck)

/-- An app's calls. -/
inductive Made
  | open (turns : Nat) (path : List UInt8) (e : Udirent)
  | read (turns h len : Nat)
  | readFile (turns : Nat) (path : List UInt8) (e : Udirent) (max : Nat)
  | overwrite (turns : Nat) (path data magic : List UInt8) (e : Udirent)

def Made.call : Made → App → Call (Out × App)
  | .open turns path e => sdkOpen turns path e
  | .read turns h len => sdkRead turns h len
  | .readFile turns path e max => sdkReadFile turns path e max
  | .overwrite turns path data magic e => sdkOverwrite turns path data magic e

-- ===================================================================== runs

/-- The whole: the host and the bus, the app, the call under way with what
is left of it, and what the last call came to. -/
structure System where
  world : World
  app : App := {}
  busy : Option (Made × Call (Out × App)) := none
  returned : Option (Made × Out) := none

/-- A call that has come to its end returns at once. -/
def System.go (w : World) (a : App) (c : Made) : Call (Out × App) → System
  | .ret (out, a') => { world := w, app := a', returned := some (c, out) }
  | .call e k => { world := w, app := a, busy := some (c, .call e k) }

/-- What the host answers: a transfer may go in any way. -/
inductive Answers : World → Ask → Ans → World → Prop
  | storageGen (w : World) : Answers w .storageGen (.num w.host.storageGen) w
  | storagePresent (w : World) : Answers w .storagePresent (.flag (storagePresent w.host)) w
  | transfer (w : World) (r : Req) (m : Mounting) (t : Transfer) :
      Answers w (.transfer r) (.sectors (rawTransfer m t r w).1) (rawTransfer m t r w).2

/-- What a step is. -/
inductive Move
  | removed
  /-- A stick is put in: another, or the same again. -/
  | inserted (sectors : Nat → List UInt8)
  /-- A poll; `r` is how a restart goes, if it comes to one. -/
  | poll (now : Bool) (timer : Nat) (r : Restart)
  /-- A transfer of the host's own. -/
  | own (m : Mounting) (t : Transfer) (r : Req)
  /-- Another app begins. -/
  | launched
  | made (c : Made)
  | answered

/-- What happens to the stick, and the host's polls. -/
def happens (w : World) : Move → World
  | .removed => { w with bus := { w.bus with present := none } }
  | .inserted sectors =>
      { w with
        bus := { w.bus with
          present := some w.bus.count, count := w.bus.count + 1
          content := Function.update w.bus.content w.bus.count sectors } }
  | .poll now timer r => storagePoll now timer r w
  | .own m t r => (rawTransfer m t r w).2
  | _ => w

inductive Step : System → Move → System → Prop
  | happens {s : System} (m : Move) : Step s m { s with world := happens s.world m }
  | launched {s : System} : Step s .launched { world := s.world }
  | made {s : System} (c : Made) (h : s.busy = none) :
      Step s (.made c) (.go s.world s.app c (c.call s.app))
  | answered {s : System} {w : World} {c : Made} {e : Ask} {k : Ans → Call (Out × App)} {r : Ans}
      (hbusy : s.busy = some (c, .call e k)) (h : Answers s.world e r w) :
      Step s .answered (.go w s.app c (k r))

/-- Steps that meet a condition on the system and the move. -/
inductive Run (ok : System → Move → Prop) : System → System → Prop
  | nil (s : System) : Run ok s s
  | step {s s' s'' : System} {m : Move} (h : Run ok s s') (hok : ok s' m) (hstep : Step s' m s'') :
      Run ok s s''

/-- Power on, with a stick that U-Boot started. -/
def System.Boot (s : System) : Prop :=
  s.world.host = {} ∧ s.world.bus.up = s.world.started 1 ∧ s.app = {} ∧ s.busy = none
    ∧ s.returned = none

/-- All of it is from one insertion. -/
def Log.From (log : Log) (i : Option Nat) : Prop := ∀ x ∈ log, i = some x.2

/-- A handle's transfers, from its lookup on, are from the insertion whose
generation it records. -/
def App.HandleFrom (started : Nat → Option Nat) (a : App) (h : Nat) : Prop :=
  ∃ st, a.streams[h]? = some st ∧ st.log.From (started st.gen)

/-- Where what a call came to is from. -/
def Faithful (started : Nat → Option Nat) (a : App) : Made → Out → Prop
  | .open .., .opened (some h) => a.HandleFrom started h
  | .read _ h _, .read (some _) => a.HandleFrom started h
  | .readFile .., .file (some _) => ∃ i, a.log.From i
  | .overwrite .., .overwritten _ => ∃ i, a.log.From i
  | _, _ => True

def System.Faithful (s : System) : Prop :=
  ∀ c out, s.returned = some (c, out) → Sdk.Faithful s.world.started s.app c out

end Ncmips.Sdk
