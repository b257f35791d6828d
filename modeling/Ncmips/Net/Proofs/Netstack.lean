/-
A received frame is read within its bounds.

Each layer checks its own lengths against what the layer below handed it,
so a function's reads are within its part of the frame, and every part is
within the one around it. What is sent back is built in buffers of its own,
from parts of known lengths.
-/
import Ncmips.Net.Proofs.Dns

namespace Ncmips.Net

open Words Prog

/-- Reads are of the frame's `len` bytes, what is built fits its buffer, and
data is from the first `total` bytes. -/
def InFrame (len total : Nat) : Act → Prop
  | .read i => i < len
  | .build cap n => n ≤ cap
  | .data off n => off + n ≤ total

/-- It does only that, and comes to an end. -/
abbrev Inside {α : Type} (answer : Act → UInt8) (len total : Nat) (p : Rx α) : Prop :=
  Goes answer (InFrame len total) p (fun _ => False) fun _ => True

variable {answer : Act → UInt8} {len total : Nat} {α : Type} {wlanSend : List Sent → Bool}

-- ================================================================== reading

theorem inside_bind {β : Type} {p : Rx α} {f : α → Rx β} (h : Inside answer len total p)
    (hf : ∀ a, Inside answer len total (f a)) : Inside answer len total (p >>= f) :=
  h.bind fun a _ => hf a

theorem inside_pure (a : α) : Inside answer len total (pure a : Rx α) := goes_pure trivial

theorem byte_inside {i : Nat} (hi : i < len) : Inside answer len total (byte i) :=
  inside_bind (goes_lift (meets_ask hi trivial)) fun _ => inside_pure _

theorem be16_inside {i : Nat} (hi : i + 2 ≤ len) : Inside answer len total (be16 i) :=
  inside_bind (byte_inside (by omega)) fun _ =>
    inside_bind (byte_inside (by omega)) fun _ => inside_pure _

theorem be32_inside {i : Nat} (hi : i + 4 ≤ len) : Inside answer len total (getBe32 i) :=
  inside_bind (be16_inside (by omega)) fun _ =>
    inside_bind (be16_inside (by omega)) fun _ => inside_pure _

theorem macAt_inside {i : Nat} (hi : i + 6 ≤ len) : Inside answer len total (macAt i) :=
  inside_bind (byte_inside (by omega)) fun _ => inside_bind (byte_inside (by omega)) fun _ =>
    inside_bind (byte_inside (by omega)) fun _ => inside_bind (byte_inside (by omega)) fun _ =>
      inside_bind (byte_inside (by omega)) fun _ => inside_bind (byte_inside (by omega)) fun _ =>
        inside_pure _

theorem bytesAt_inside {i n : Nat} (hi : i + n ≤ len) :
    Goes answer (InFrame len total) (bytesAt i n) (fun _ => False) fun bs => bs.length = n := by
  induction n generalizing i with
  | zero => exact goes_pure rfl
  | succ n ih =>
      refine goes_byte (show i < len by omega) ?_
      refine (ih (by omega)).bind fun bs hbs => goes_pure ?_
      rw [List.length_cons, hbs]

theorem build_inside {cap n : Nat} (h : n ≤ cap) : Inside answer len total (build cap n) :=
  inside_bind (goes_lift (meets_ask h trivial)) fun _ => inside_pure _

theorem giveData_inside {off n : Nat} (h : off + n ≤ total) :
    Inside answer len total (giveData off n) :=
  inside_bind (goes_lift (meets_ask h trivial)) fun _ => inside_pure _

-- ================================================================== sending

theorem csumField_length (sum : Nat) : (csumField sum).length = 2 := rfl

theorem arpSend_inside (op : Nat) (tmac : Mac) (tip : Nat) (n : Stack) :
    Inside answer len total (arpSend wlanSend op tmac tip n) := by
  unfold arpSend
  refine inside_bind (build_inside ?_) fun _ => inside_pure _
  have htarget : (if op = 1 then List.replicate 6 0 else tmac.toList).length = 6 := by
    split
    · exact List.length_replicate
    · exact Vector.length_toList
  simp only [List.length_append, be16Bytes_length, be32Bytes_length, List.length_cons,
    List.length_nil, Vector.length_toList, htarget]
  omega

theorem ipSend_inside (dst proto : Nat) (payload : List UInt8) (n : Stack) :
    Inside answer len total (ipSend wlanSend dst proto payload n) := by
  unfold ipSend
  split
  · exact inside_pure _
  · next hfits =>
    split
    · exact inside_bind (arpSend_inside _ _ _ n) fun _ => inside_pure _
    · refine inside_bind (build_inside ?_) fun _ => inside_pure _
      simp only [List.length_append, be16Bytes_length, be32Bytes_length, csumField_length,
        List.length_cons, List.length_nil]
      omega

theorem udpSend_inside (dst sport dport : Nat) (d : List UInt8) (n : Stack) :
    Inside answer len total (udpSend wlanSend dst sport dport d n) := by
  unfold udpSend
  split
  · exact inside_pure _
  · next hfits =>
    refine inside_bind (build_inside ?_) fun _ => ipSend_inside _ _ _ n
    simp only [List.length_append, be16Bytes_length]
    omega

theorem dhcpSend_inside (type : Nat) (n : Stack) :
    Inside answer len total (dhcpSend wlanSend type n) := by
  unfold dhcpSend
  refine inside_bind (build_inside ?_) fun _ =>
    inside_bind (udpSend_inside _ _ _ _ n) fun _ => inside_pure _
  have hasked : (if type = 3 then [50, 4] ++ be32Bytes n.dhcpOfferIp ++ [54, 4]
      ++ be32Bytes n.dhcpServer else []).length ≤ 12 := by
    split
    · exact Nat.le_refl 12
    · exact Nat.zero_le 12
  simp only [List.length_append, be16Bytes_length, be32Bytes_length, List.length_cons,
    List.length_nil, List.length_replicate, Vector.length_toList, hostname, dhcpParams] at hasked ⊢
  omega

theorem tcpSeg_inside (seq flags : Nat) (d : List UInt8) (n : Stack) :
    Inside answer len total (tcpSeg wlanSend seq flags d n) := by
  unfold tcpSeg
  dsimp only
  split
  · split
    · exact inside_pure _
    · refine inside_bind (build_inside ?_) fun _ => ipSend_inside _ _ _ n
      simp only [List.length_append, be16Bytes_length, be32Bytes_length, csumField_length,
        List.length_cons, List.length_nil]
      omega
  · split
    · exact inside_pure _
    · refine inside_bind (build_inside ?_) fun _ => ipSend_inside _ _ _ n
      simp only [List.length_append, be16Bytes_length, be32Bytes_length, csumField_length,
        List.length_cons, List.length_nil]
      omega

-- ================================================================ receiving

theorem arpRx_inside (n : Stack) : Inside answer len total (arpRx wlanSend 0 len n) := by
  unfold arpRx
  split
  · exact inside_pure _
  · refine inside_bind (be16_inside (by omega)) fun _ => inside_bind (be16_inside (by omega))
      fun _ => ?_
    split
    · exact inside_pure _
    · refine inside_bind (be16_inside (by omega)) fun _ => inside_bind (be32_inside (by omega))
        fun _ => inside_bind (be32_inside (by omega)) fun _ => inside_bind (macAt_inside (by omega))
          fun _ => ?_
      extract_lets learnt
      split
      · exact inside_bind (arpSend_inside _ _ _ _) fun _ => inside_pure _
      · exact inside_pure _

theorem dhcpOption_inside {code l i : Nat} (hi : i + l ≤ len) (a : Options) :
    Inside answer len total (dhcpOption code l i a) := by
  unfold dhcpOption
  split
  · exact inside_bind (byte_inside (by omega)) fun _ => inside_pure _
  · split
    · exact inside_bind (be32_inside (by omega)) fun _ => inside_pure _
    · exact inside_pure _

/-- Each option is wholly before the end, and takes a byte at least. -/
theorem dhcpOptions_inside {turns p n o : Nat} (hp : p + n ≤ len) (hturns : n - o < turns)
    (ho : o ≤ n) (a : Options) : Inside answer len total (dhcpOptions p n turns o a) := by
  induction turns generalizing o a with
  | zero => omega
  | succ turns ih =>
      unfold dhcpOptions
      split
      · refine inside_bind (byte_inside (by omega)) fun code => ?_
        split
        · exact inside_pure _
        · split
          · exact ih (by omega) (by omega) a
          · refine inside_bind (byte_inside (by omega)) fun l => ?_
            split
            · exact inside_pure _
            · exact inside_bind (dhcpOption_inside (by omega) a) fun a =>
                ih (by omega) (by omega) a
      · exact inside_pure _

theorem dhcpRx_inside {turns p n : Nat} (hp : p + n ≤ len) (hturns : n < turns) (s : Stack) :
    Inside answer len total (dhcpRx wlanSend turns p n s) := by
  unfold dhcpRx
  split
  · exact inside_pure _
  · refine inside_bind (byte_inside (by omega)) fun _ => inside_bind (be32_inside (by omega))
      fun _ => inside_bind (be32_inside (by omega)) fun _ => inside_bind (macAt_inside (by omega))
        fun _ => ?_
    split
    · exact inside_pure _
    · refine inside_bind (dhcpOptions_inside hp (by omega) (by omega) _) fun a =>
        inside_bind (be32_inside (by omega)) fun _ => ?_
      split
      · exact dhcpSend_inside _ _
      · split
        · exact inside_pure _
        · split
          · exact dhcpSend_inside _ _
          · exact inside_pure _

theorem icmpRx_inside {src p n : Nat} (hp : p + n ≤ len) (s : Stack) :
    Inside answer len total (icmpRx wlanSend src p n s) := by
  unfold icmpRx
  split
  · exact inside_pure _
  · refine inside_bind (byte_inside (by omega)) fun _ => ?_
    split
    · exact inside_pure _
    · next hsmall =>
      refine (bytesAt_inside hp).bind fun r hr => ?_
      refine inside_bind (build_inside ?_) fun _ =>
        inside_bind (ipSend_inside _ _ _ s) fun _ => inside_pure _
      simp only [List.length_append, csumField_length, List.length_cons, List.length_nil,
        List.length_drop]
      omega

theorem dnsRx_inFrame {turns p n : Nat} (hp : p + n ≤ len) (hn : n < 2 ^ 16) (hturns : n < turns)
    (s : Stack) : Inside answer len total (dnsRx turns p n s) := by
  refine (dnsRx_inside hn hturns s).allow fun e he => ?_
  cases e with
  | read i =>
      have hend : i < p + n := he.2
      exact Nat.lt_of_lt_of_le hend hp
  | build cap m => exact he.elim
  | data off m => exact he.elim

/-- A segment's data is behind its header. -/
theorem tcpSegment_inside {i dlen : Nat} (hi : i + dlen ≤ total) (seq ack flags : Nat) (n : Stack) :
    Inside answer len total (tcpSegment wlanSend seq ack flags i dlen n) := by
  unfold tcpSegment
  split
  · exact inside_pure _
  · split
    · split
      · exact inside_bind (tcpSeg_inside _ _ _ _) fun _ => inside_pure _
      · exact inside_pure _
    · have hdata : Inside answer len total (tcpData seq i dlen (tcpAcked flags ack n)) := by
        unfold tcpData
        split
        · exact inside_pure _
        · split
          · split
            · exact inside_bind (giveData_inside hi) fun _ => inside_pure _
            · exact inside_pure _
          · exact inside_pure _
      refine inside_bind hdata fun n => inside_bind ?_ fun n => ?_
      · unfold tcpFin
        split
        · dsimp only
          split
          · exact inside_bind (tcpSeg_inside _ _ _ _) fun _ => inside_pure _
          · exact inside_pure _
        · exact inside_pure _
      · unfold tcpAck
        split
        · exact inside_bind (tcpSeg_inside _ _ _ _) fun _ => inside_pure _
        · exact inside_pure _

theorem tcpRx_inside {src p n : Nat} (hp : p + n ≤ len) (htotal : p + n ≤ total) (s : Stack) :
    Inside answer len total (tcpRx wlanSend src p n s) := by
  unfold tcpRx
  split
  · exact inside_pure _
  · refine inside_bind (be16_inside (by omega)) fun _ => inside_bind (be16_inside (by omega))
      fun _ => ?_
    split
    · exact inside_pure _
    · refine inside_bind (byte_inside (by omega)) fun hi => ?_
      dsimp only
      split
      · exact inside_pure _
      · refine inside_bind (be32_inside (by omega)) fun _ => inside_bind (be32_inside (by omega))
          fun _ => inside_bind (byte_inside (by omega)) fun _ => ?_
        exact tcpSegment_inside (by omega) _ _ _ s

theorem udpRx_inside {turns p n : Nat} (hp : p + n ≤ len) (hturns : 2 ^ 16 ≤ turns) (s : Stack) :
    Inside answer len total (udpRx wlanSend turns p n s) := by
  unfold udpRx
  split
  · exact inside_pure _
  · refine inside_bind (be16_inside (by omega)) fun sport => inside_bind (be16_inside (by omega))
      fun dport => goes_be16 (fun j hj hj' => show j < len by omega) ?_
    have hulen := word16_lt answer (p + 4)
    split
    · exact inside_pure _
    · split
      · exact dhcpRx_inside (by omega) (by omega) s
      · split
        · unfold netUdpRx
          split
          · exact dnsRx_inFrame (by omega) (by omega) (by omega) s
          · exact inside_pure _
        · exact inside_pure _

theorem ipRx_inside {turns proto sip p n : Nat} (hp : p + n ≤ len) (htotal : p + n ≤ total)
    (hturns : 2 ^ 16 ≤ turns) (s : Stack) :
    Inside answer len total (ipRx wlanSend turns proto sip p n s) := by
  unfold ipRx
  split
  · exact icmpRx_inside hp s
  · split
    · exact tcpRx_inside hp htotal s
    · split
      · exact udpRx_inside hp hturns s
      · exact inside_pure _

/-- Where the IP packet in a frame ends: what is behind it is padding. -/
def packetEnd (answer : Act → UInt8) (len : Nat) : Nat := min len (word16 answer 2)

/-- In any state a frame is read within its bounds, data handed on is the
packet's, and what is built fits. -/
theorem netRx_inside (answer : Act → UInt8) (wlanSend : List Sent → Bool) (src : Mac)
    (type len : Nat) (n : Stack) :
    Goes answer (InFrame len (packetEnd answer len)) (netRx wlanSend (2 ^ 16) src type len n)
      (fun _ => False) fun _ => True := by
  unfold netRx
  split
  · exact arpRx_inside n
  · split
    · exact inside_pure _
    · refine inside_bind (byte_inside (by omega)) fun vhl => ?_
      split
      · exact inside_pure _
      · dsimp only
        refine goes_be16 (fun j hj hj' => show j < len by omega) ?_
        split
        · exact inside_pure _
        · refine (bytesAt_inside (by omega)).bind fun head _ => ?_
          split
          · exact inside_pure _
          · refine inside_bind (be16_inside (by omega)) fun frag => ?_
            split
            · exact inside_pure _
            · refine inside_bind (byte_inside (by omega)) fun proto =>
                inside_bind (be32_inside (by omega)) fun sip =>
                  inside_bind (be32_inside (by omega)) fun dip => ?_
              split
              · exact inside_pure _
              · refine ipRx_inside (by omega) ?_ (Nat.le_refl _) _
                unfold packetEnd
                omega

end Ncmips.Net
