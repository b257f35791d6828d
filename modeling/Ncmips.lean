import Ncmips.Lib.Bits
import Ncmips.Lib.Indices
import Ncmips.Lib.Canonical
import Ncmips.Lib.Source
import Ncmips.Tjc.Format
import Ncmips.Tjc.Dct
import Ncmips.Tjc.Huff
import Ncmips.Tjc.Qoa
import Ncmips.Tjc.Decoder
import Ncmips.Tjc.Encoder
import Ncmips.Tjc.Proofs.Bitstream
import Ncmips.Tjc.Proofs.Huff
import Ncmips.Tjc.Proofs.Entropy
import Ncmips.Tjc.Proofs.Tile
import Ncmips.Tjc.Proofs.Audio
import Ncmips.Tjc.Proofs.Format
import Ncmips.Tjc.Proofs.Drift
import Ncmips.Tjcplay.Tjcdec
import Ncmips.Tjcplay.Proofs.Port
import Ncmips.Lib.Patch
import Ncmips.Tjc.Proofs.Geometry
import Ncmips.Tjc.Proofs.Paint
import Ncmips.Lib.Workers
import Ncmips.Tjc.Proofs.Shadow
import Ncmips.Tjc.Proofs.Threads
import Ncmips.Tjc.Proofs.Stale
import Ncmips.Tjcplay.Proofs.Equiv
import Ncmips.Lib.Program
import Ncmips.Brimod.Bridge
import Ncmips.Brimod.Driver
import Ncmips.Brimod.Proofs.Events
import Ncmips.Tjcplay.Sound
import Ncmips.Tjcplay.Player
import Ncmips.Lib.Circular
import Ncmips.Lib.Steps
import Ncmips.Tjcplay.Proofs.Sound
import Ncmips.Tjcplay.Proofs.Reader
import Ncmips.Tjcplay.Proofs.Fifo
import Ncmips.Tjc.Proofs.Blocks
import Ncmips.Lib.Iterate
import Ncmips.Launcher.Tlb
import Ncmips.Launcher.Proofs.Tlb
import Ncmips.Opl.Chip
import Ncmips.Opl.RefOpl
import Ncmips.Opl.Proofs.Render
import Ncmips.Usbfat.Fat
import Ncmips.Usbfat.Dir
import Ncmips.Usbfat.File
import Ncmips.Usbfat.Volume
import Ncmips.Usbfat.Proofs.Fat
import Ncmips.Usbfat.Proofs.Scan
import Ncmips.Usbfat.Proofs.Walk
import Ncmips.Usbfat.Proofs.Names
import Ncmips.Usbfat.Proofs.Cache
import Ncmips.Usbfat.Proofs.Load
import Ncmips.Usbfat.Proofs.Ends
import Ncmips.Usbfat.Proofs.Read
import Ncmips.Lib.Words
import Ncmips.Lib.Meets
import Ncmips.Midi.Smf
import Ncmips.Midi.Proofs.Smf
import Ncmips.Midi.Proofs.Play
import Ncmips.Lib.Faces
import Ncmips.Lib.Memory
import Ncmips.Lib.FirstFit
import Ncmips.Sdk.Storage
import Ncmips.Sdk.Files
import Ncmips.Libc.Heap
import Ncmips.Libc.Proofs.Heap
import Ncmips.Libc.Proofs.Allocations
import Ncmips.Lib.ShellSort
import Ncmips.Libc.Qsort
import Ncmips.Libc.Proofs.Qsort
import Ncmips.Libc.Printf
import Ncmips.Libc.Proofs.Printf
import Ncmips.Sdk.Proofs.Swap
import Ncmips.Tjc.Proofs.Rolling
import Ncmips.Lib.Fits
import Ncmips.Tjc.Exact
import Ncmips.Tjc.Proofs.Idct
import Ncmips.Tjc.Proofs.Fdct
import Ncmips.Tjc.Proofs.Payload
import Ncmips.Tjcplay.Proofs.Resample
import Ncmips.Lib.Lerp
import Ncmips.Music.Pump
import Ncmips.Midi.Voice
import Ncmips.Music.Proofs.Interpolation
import Ncmips.Wpa.Aes
import Ncmips.Lib.Undo
import Ncmips.Wpa.Proofs.Aes
import Ncmips.Wpa.KeyWrap
import Ncmips.Wpa.Proofs.Unwrap
import Ncmips.Lib.Absorb
import Ncmips.Wpa.Sha1
import Ncmips.Wpa.Fips
import Ncmips.Wpa.Proofs.Sha1
import Ncmips.Wpa.Proofs.Hmac
import Ncmips.Usbfat.Listing
import Ncmips.Usbfat.Proofs.Listing
import Ncmips.Usbfat.Overwrite
import Ncmips.Usbfat.Proofs.Overwrite
import Ncmips.Usbfat.Faulty
import Ncmips.Usbfat.Proofs.Faulty
import Ncmips.Doom.Music
import Ncmips.Doom.Proofs.Clock
import Ncmips.Doom.Proofs.Score
import Ncmips.Music.Tags
import Ncmips.Music.Proofs.Tags
import Ncmips.Music.Wav
import Ncmips.Music.Proofs.Wav
import Ncmips.Libc.Proofs.Text
import Ncmips.Lib.Lines
import Ncmips.Net.Wifi
import Ncmips.Net.Proofs.Wifi
import Ncmips.Sdk.Config
import Ncmips.Sdk.Proofs.Config
import Ncmips.Net.Netstack
import Ncmips.Net.Proofs.Dns
import Ncmips.Net.Proofs.Netstack
import Ncmips.Lib.Calendar
import Ncmips.Brimod.Clock
import Ncmips.Brimod.Proofs.Clock
import Ncmips.Brimod.Flash
import Ncmips.Brimod.Proofs.Flash
import Ncmips.Net.Scan
import Ncmips.Net.Proofs.Scan
import Ncmips.Badapple.Video
import Ncmips.Badapple.Proofs.Video
import Ncmips.Lib.Interference
import Ncmips.Wlan.Ehci
import Ncmips.Wlan.Proofs.Ehci
import Ncmips.Rtos.Proofs.Port
import Ncmips.Tjc.Proofs.Shortcut
import Ncmips.Wpa.Fips197
import Ncmips.Wpa.Proofs.Cipher
import Ncmips.Tjc.Proofs.Lookup
import Ncmips.Brimod.Mailbox
import Ncmips.Brimod.Proofs.Mailbox
import Ncmips.Brimod.Proofs.Names
import Ncmips.Brimod.Transmitter
import Ncmips.Brimod.Proofs.Transmitter
import Ncmips.Lib.Hands
import Ncmips.Net.Client
import Ncmips.Net.Proofs.Client
import Ncmips.Net.Proofs.Delivery
import Ncmips.Net.Proofs.Written
import Ncmips.Wpa.Pmk
import Ncmips.Wpa.Proofs.Pmk
import Ncmips.Wlan.Station
import Ncmips.Wlan.Proofs.Station
import Ncmips.Wlan.Proofs.Listen
import Ncmips.Wlan.Proofs.Connect
import Ncmips.Wlan.Proofs.Link
import Ncmips.Wlan.Proofs.Numbers
import Ncmips.Wlan.Proofs.Payload
import Ncmips.Wlan.Ap
import Ncmips.Wlan.Proofs.Handshake
