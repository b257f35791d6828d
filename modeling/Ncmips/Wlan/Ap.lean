/-
The other side of the 4-way handshake: what an access point sends, and what
it makes of the station's answer.

The access point is not in the repository; this is what the standard has
it do. Its frames are described by what is in them, not by who builds
them: everything else in a frame is free.
-/
import Ncmips.Wlan.Station

namespace Ncmips.Wlan

open Words Wpa

-- ================================================================ key frames

/-- A key frame at `e` with this key information and data. -/
structure KeyFrame (m : Mem) (e info : Nat) (data : List UInt8) : Prop where
  type : m (e + 1) = 3
  descriptor : m (e + 4) = 2
  length : be16 m (e + 2) = ekData - 4 + data.length
  info : be16 m (e + ekInfo) = info
  dlen : be16 m (e + ekDlen) = data.length
  data : bytes m (e + ekData) data.length = data

/-- Bytes that were sent, to be read by their offset. -/
def sent (e : List UInt8) : Mem := fun i => e.getD i 0

/-- The access point takes a key frame of the station: the MIC is right. -/
def apAccepts (ptk e : List UInt8) : Prop := micOk ptk (sent e) 0 e.length

end Ncmips.Wlan
