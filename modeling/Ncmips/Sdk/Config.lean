/-
An app's settings, `CONFIG.TXT`: the table of `sdk/runtime.c` and its text
of one sector.

Strings are without their NUL. Reading and overwriting a file are
parameters, over whatever the stick holds.
-/
import Ncmips.Lib.Lines
import Ncmips.Libc.Printf

namespace Ncmips.Sdk

open Words Libc Lines

def cfgMax : Nat := 16
def cfgSize : Nat := 512
def keySize : Nat := 16
def valSize : Nat := 32
def pathMax : Nat := 128

structure Entry where
  key : List UInt8
  val : List UInt8

-- =================================================================== table

/-- A value must stay on its line. -/
def configValue (value : List UInt8) : List UInt8 :=
  (value.take (valSize - 1)).takeWhile fun c => c ≠ cr ∧ c ≠ lf

/-- The value of the entry with this key, or a new entry. -/
def configSet (cfg : List Entry) (key value : List UInt8) : List Entry :=
  match cfg.findIdx? (fun e => e.key = key) with
  | some i => cfg.modify i fun e => { e with val := configValue value }
  | none =>
      if cfg.length = cfgMax then cfg
      else cfg ++ [{ key := key.take (keySize - 1), val := configValue value }]

def configGet (cfg : List Entry) (key : List UInt8) : Option (List UInt8) :=
  (cfg.find? fun e => e.key = key).map (·.val)

-- =================================================================== files

variable {σ : Type} (readFile : List UInt8 → Nat → σ → List UInt8)
  (overwrite : List UInt8 → List UInt8 → List UInt8 → σ → Bool × σ)

def configMagic : List UInt8 := text "# NCAPPS app config"

/-- `cfg_path`, for `sdk_data_dir`. -/
def cfgPath (dir : List UInt8) : Option (List UInt8) :=
  if dir = [] then none else some (snprintf pathMax (text "/%s/CONFIG.TXT") [.ptr 1 dir]).2

/-- A line of the file. -/
def configParse (cfg : List Entry) (line : List UInt8) : List Entry :=
  match keyValue (ch '=') line with
  | none => cfg
  | some (k, v) => if line.head? ≠ some (ch '#') ∧ k ≠ [] then configSet cfg k v else cfg

/-- `sdk_config_load`: 0 or -1, and the table. -/
def configLoad (dir : List UInt8) (s : σ) : Bool × List Entry :=
  match cfgPath dir with
  | none => (false, [])
  | some path =>
      let buf := readFile path cfgSize s
      if buf = [] then (false, [])
      else (true, (pieces lf (buf.takeWhile (· ≠ 0))).foldl configParse [])

def configHead : List UInt8 :=
  configMagic ++ text "\n# Written by the app. Keep it exactly 512 bytes (overwritten in place).\n"

/-- The entries' lines behind a text, as long as there is room. -/
def entriesText : List Entry → List UInt8 → Option (List UInt8)
  | [], t => some t
  | e :: es, t =>
      let (n, line) := snprintf (cfgSize - t.length) (text "%s=%s\n") [.ptr 1 e.key, .ptr 1 e.val]
      if t.length + n ≥ cfgSize - 1 then none else entriesText es (t ++ line)

/-- The sector's text, if there is room for it. -/
def sectorText (cfg : List Entry) : Option (List UInt8) :=
  (entriesText cfg (snprintf cfgSize configHead []).2).map fun t =>
    t ++ List.replicate (cfgSize - 1 - t.length) (ch '#') ++ [lf]

/-- The text to its file, if there are both. -/
def saveText (path t : Option (List UInt8)) (s : σ) : Bool × σ :=
  match path, t with
  | some path, some t => overwrite path t configMagic s
  | _, _ => (false, s)

/-- `sdk_config_save`; `false` is -1. -/
def configSave (dir : List UInt8) (cfg : List Entry) (s : σ) : Bool × σ :=
  saveText overwrite (cfgPath dir) (sectorText cfg) s

end Ncmips.Sdk
