/-
The WiFi settings of `net/netsvc.c`: `WIFI.TXT`, a text of lines padded to
one sector.

Reading and overwriting a file on the stick are parameters, over whatever
the stick holds.
-/
import Ncmips.Lib.Lines
import Ncmips.Libc.Printf

namespace Ncmips.Net

open Words Libc Lines

/-- `cfg_ssid`, `cfg_psk` and `cfg_on`. -/
structure Cfg where
  ssid : List UInt8 := []
  psk : List UInt8 := []
  on : Int := 1

/-- `sizeof(cfg_ssid)` and `sizeof(cfg_psk)`. -/
def ssidSize : Nat := 33
def pskSize : Nat := 64

def wifiTxt : List UInt8 := text "/NCAPPS/WIFI.TXT"
def wifiTxtRoot : List UInt8 := text "/WIFI.TXT"
def wifiMagic : List UInt8 := text "# NCAPPS wifi"

-- ================================================================== loading

/-- A line without the CR at its end. -/
def trimCr (l : List UInt8) : List UInt8 := if l.getLast? = some cr then l.dropLast else l

def configLine (cfg : Cfg) (line : List UInt8) : Cfg :=
  if line.head? = some (ch '#') then cfg
  else
    match keyValue (ch '=') (trimCr line) with
    | none => cfg
    | some (k, v) =>
        if k = text "ssid" ∧ v.length < ssidSize then { cfg with ssid := v }
        else if k = text "psk" ∧ v.length < pskSize then { cfg with psk := v }
        else if k = text "on" then { cfg with on := if v.head? ≠ some (ch '0') then 1 else 0 }
        else cfg

variable {σ : Type} (readFile : List UInt8 → Nat → σ → List UInt8)

/-- `config_load`; an empty read is none. -/
def configLoad (s : σ) : Cfg :=
  let t := readFile wifiTxt 512 s
  let t := if t = [] then readFile wifiTxtRoot 512 s else t
  (pieces lf (t.takeWhile (· ≠ 0))).foldl configLine {}

-- =================================================================== saving

def wifiFmt : List UInt8 :=
  wifiMagic ++ text ("\n# Written by the launcher (SETTINGS > WiFi). on=0: WiFi off.\n"
    ++ "# The passphrase is stored as typed: keep this stick private.\n"
    ++ "on=%d\nssid=%s\npsk=%s\n")

/-- The sector's text, if there is room for it. -/
def configText (cfg : Cfg) : Option (List UInt8) :=
  let (n, t) := snprintf 512 wifiFmt [.word (ofInt32 cfg.on), .ptr 1 cfg.ssid, .ptr 1 cfg.psk]
  if n ≥ 512 - 1 then none else some (t ++ List.replicate (511 - n).toNat (ch '#') ++ [lf])

variable (overwrite : List UInt8 → List UInt8 → List UInt8 → σ → Bool × σ)

/-- The sector's text to its file, if there is one. -/
def writeText (t : Option (List UInt8)) (s : σ) : Bool × σ :=
  match t with
  | none => (false, s)
  | some t => overwrite wifiTxt t wifiMagic s

/-- `config_save`; `false` is -1. -/
def configSave (cfg : Cfg) (s : σ) : Bool × σ := writeText overwrite (configText cfg) s

/-- `net_configure`; what is NULL stays as it is. -/
def netConfigure (ssid psk : Option (List UInt8)) (on : Int) (cfg : Cfg) (s : σ) :
    Bool × Cfg × σ :=
  let keep (size : Nat) (new : Option (List UInt8)) (old : List UInt8) : List UInt8 :=
    match new with
    | none => old
    | some t => (snprintf size (text "%s") [.ptr 1 t]).2
  let cfg := { ssid := keep ssidSize ssid cfg.ssid, psk := keep pskSize psk cfg.psk, on }
  let r := configSave overwrite cfg s
  (r.1, cfg, r.2)

end Ncmips.Net
