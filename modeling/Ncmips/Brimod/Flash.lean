/-
The bridge's FM settings in flash: `fm_save_poll` of
esp32c3/bridge/bridge.ino on the main loop, with the writes of the box and
the FMDEFAULTS command around it.

The box's writes come from another task, at any point of the poll outside
its critical section, so each access of the poll to what they share is a
step of its own.
-/
import Ncmips.Brimod.Bridge

namespace Ncmips.Brimod

/-- The `def` column of `si_table`. -/
def siDefaults : List UInt16 :=
  [6625, 675, 200, 0x327C, 0, 1, 19000, 0x0002, 0xFFD8, 0, 4, 15, 102, 3, 0x1808, 0xE0E0]

/-- `SI_N` -/
def siN : Nat := siTable.length

/-- The FM registers, the RDS registers and the properties. -/
structure Settings where
  fm : List UInt8
  rds : List UInt8
  siprop : List UInt16
  deriving DecidableEq

namespace Bridge

/-- The current registers 0x40-0x8F and `si_val`. -/
def settings (b : Bridge) : Settings where
  fm := (List.range 6).map fun i => b.regs (UInt8.ofNat (0x40 + i))
  rds := (List.range (0x90 - 0x46)).map fun i => b.regs (UInt8.ofNat (0x46 + i))
  siprop := (List.range siN).map b.siVal

/-- The command FMDEFAULTS. -/
def fmDefaults (b : Bridge) : Bridge :=
  let b := { b with siVal := fun i => siDefaults.getD i 0 }
  let b := ((b.put8 0x43 (b.regs 0x43 &&& ~~~4)).put8 0x44 0).put8 0x45 0
  { b with sipropDirty := true, fmDirty := true, fmSaveMs := b.millis ||| 1 }

end Bridge

/-- How far `fm_save_poll` is. -/
inductive SavePoll where
  | idle
  /-- `fm_save_ms` was read. -/
  | read (t : UInt32)
  /-- It is not 0, and old enough. -/
  | due (t : UInt32)
  /-- The copies are taken, and go to flash one by one. -/
  | putFm (v : Settings)
  | putRds (v : Settings)
  | putProps (v : Settings)

structure Flash where
  bridge : Bridge
  poll : SavePoll := .idle
  /-- The time in milliseconds, of which `millis` is the low word. -/
  now : Nat := 0
  nvs : Settings := ⟨[], [], []⟩
  /-- There was a save since the start. -/
  saved : Bool := false
  /-- When a setting was written last. -/
  lastSet : Option Nat := none
  /-- The times of the stores, each with the last setting's time. -/
  stores : List (Nat × Nat) := []

/-- The box writes FM registers, RDS registers or a property. -/
def setsFm (reg : UInt8) (d : List UInt8) : Bool :=
  if reg = 0x90 then 4 ≤ d.length ∧ (siIndex (Bridge.le16 (d.getD 0 0) (d.getD 1 0))).isSome
  else if reg = 0xC0 ∨ reg = 0xC8 ∨ reg = 0xF0 ∨ reg = 0x06 ∨ (reg = 0x10 ∧ 4 ≤ d.length) then false
  else reg.toNat ≤ 0x8F ∧ 0x40 < reg.toNat + d.length ∧ 0 < d.length

inductive FlashAct where
  | tick
  | write (reg : UInt8) (d : List UInt8)
  | defaults
  | poll

namespace Flash

def store (s : Flash) : Flash :=
  { s with stores := match s.lastSet with
      | some w => (s.now, w) :: s.stores
      | none => s.stores }

/-- The poll's next access. -/
def pollStep (s : Flash) : Flash :=
  match s.poll with
  | .idle => { s with poll := .read s.bridge.fmSaveMs }
  | .read t =>
      if t = 0 ∨ s.bridge.millis - t < 3000 then { s with poll := .idle }
      else { s with poll := .due t }
  | .due t =>
      { s with
        poll := .putFm s.bridge.settings
        bridge := if s.bridge.fmSaveMs = t then { s.bridge with fmSaveMs := 0 } else s.bridge }
  | .putFm v => { s.store with nvs := { s.nvs with fm := v.fm }, poll := .putRds v }
  | .putRds v => { s.store with nvs := { s.nvs with rds := v.rds }, poll := .putProps v }
  | .putProps v =>
      { s.store with nvs := { s.nvs with siprop := v.siprop }, poll := .idle, saved := true }

/-- FMDEFAULTS is run on the main loop, so between polls. -/
def step (s : Flash) : FlashAct → Option Flash
  | .tick =>
      some { s with
        now := s.now + 1
        bridge := { s.bridge with millis := UInt32.ofNat (s.now + 1) } }
  | .write reg d =>
      some { s with
        bridge := s.bridge.handleWrite reg d
        lastSet := if setsFm reg d then some s.now else s.lastSet }
  | .defaults =>
      match s.poll with
      | .idle => some { s with bridge := s.bridge.fmDefaults, lastSet := some s.now }
      | _ => none
  | .poll => some s.pollStep

/-- At the start nothing is to be saved. -/
structure Started (s : Flash) : Prop where
  poll : s.poll = .idle
  stamp : s.bridge.fmSaveMs = 0
  clock : s.bridge.millis = UInt32.ofNat s.now
  saved : s.saved = false
  lastSet : s.lastSet = none
  stores : s.stores = []

/-- The poll does not look at the clock in the even millisecond in which a
setting was written, and none is written while it is under way. -/
def Undisturbed (s : Flash) : FlashAct → Prop
  | .write reg d => setsFm reg d = true → s.poll = .idle
  | .poll => ∀ t, s.poll = .read t → s.lastSet = some s.now → s.now % 2 = 1
  | _ => True

/-- Every store came 2999 ms after the last setting, at least. -/
def Debounced (s : Flash) : Prop := ∀ p ∈ s.stores, p.2 + 2999 ≤ p.1

end Flash

end Ncmips.Brimod
