/-
The player's buffered reader: whatever comes how, `rd` gives the next
bytes of the file, all that are asked for or all that are left.
-/
import Ncmips.Tjcplay.Player

namespace Ncmips.Tjcplay

open Bits (byteAt)

variable {σ : Type} (fn : Source σ)

/-- What the reader has still to give. -/
def Reader.left (r : Reader σ) : List UInt8 :=
  r.rbuf ++ if r.reof then [] else fn.left r.file

theorem Reader.fill_left (r : Reader σ) : (r.fill fn).left fn = r.left fn := by
  unfold Reader.fill
  split
  · next hempty =>
    obtain ⟨hbuf, heof⟩ := hempty
    have hleft := fn.read_left r.file rbufSize
    split
    · next file hread =>
      -- nothing came, so nothing was left
      have hnil : fn.left r.file = [] := by
        by_contra hne
        exact fn.read_pos r.file rbufSize (by decide) hne (by rw [hread])
      simp [Reader.left, hbuf, heof, hnil]
    · next b bs file hread =>
      rw [hread] at hleft
      simp [Reader.left, hbuf, heof, hleft]
  · rfl

/-- A buffer that stays empty has nothing behind it. -/
theorem Reader.fill_empty {r : Reader σ} (h : (r.fill fn).rbuf = []) : r.left fn = [] := by
  rw [← Reader.fill_left]
  unfold Reader.fill at h ⊢
  split at h
  · next hempty =>
    rw [if_pos hempty]
    split at h
    · next hread => simp [Reader.left, hempty.1]
    · next hread => simp at h
  · next hempty =>
    rw [if_neg hempty]
    have heof : r.reof = true := by
      by_contra hne
      exact hempty ⟨h, by simpa using hne⟩
    simp [Reader.left, h, heof]

theorem rd_spec (r : Reader σ) (n : Nat) :
    (rd fn r n).1 = (r.left fn).take n ∧ (rd fn r n).2.left fn = (r.left fn).drop n := by
  induction n using Nat.strong_induction_on generalizing r with
  | _ n ih =>
      unfold rd
      split
      · next h0 => subst h0; simp
      · next hn =>
        dsimp only
        rw [← Reader.fill_left fn r]
        split
        · next hbuf =>
          have hnil := Reader.fill_empty fn hbuf
          rw [Reader.fill_left, hnil]
          simp
        · next b bs hbuf =>
          obtain ⟨htake, hdrop⟩ := ih (n - ((b :: bs).take n).length)
            (by simp only [List.length_take, List.length_cons]; omega)
            { r.fill fn with rbuf := (b :: bs).drop n }
          rw [htake, hdrop]
          have hleft : (r.fill fn).left fn
              = (b :: bs) ++ if (r.fill fn).reof then [] else fn.left (r.fill fn).file := by
            rw [Reader.left, hbuf]
          have hrest : Reader.left fn { r.fill fn with rbuf := (b :: bs).drop n }
              = (b :: bs).drop n ++ if (r.fill fn).reof then [] else fn.left (r.fill fn).file := rfl
          rw [hleft, hrest]
          generalize (if (r.fill fn).reof then [] else fn.left (r.fill fn).file) = more
          show ((b :: bs).take n ++ ((b :: bs).drop n ++ more).take (n - ((b :: bs).take n).length)
              = ((b :: bs) ++ more).take n)
            ∧ ((b :: bs).drop n ++ more).drop (n - ((b :: bs).take n).length)
              = ((b :: bs) ++ more).drop n
          generalize b :: bs = buf
          rcases Nat.le_total n buf.length with hle | hle
          · simp [hle, List.take_append, List.drop_append, Nat.sub_eq_zero_of_le hle]
          · simp [hle, List.take_append, List.drop_append]
            omega

/-- A read off the front of what is left. -/
theorem rd_append {r : Reader σ} {a rest : List UInt8} (h : r.left fn = a ++ rest) :
    ∃ r', rd fn r a.length = (a, r') ∧ r'.left fn = rest := by
  obtain ⟨htake, hdrop⟩ := rd_spec fn r a.length
  rw [h, List.take_left'] at htake
  · rw [h, List.drop_left'] at hdrop
    · exact ⟨(rd fn r a.length).2, Prod.ext htake rfl, hdrop⟩
    · rfl
  · rfl

/-- At the end there is nothing to read. -/
theorem rd_end {r : Reader σ} (h : r.left fn = []) (n : Nat) :
    ∃ r', rd fn r n = ([], r') ∧ r'.left fn = [] := by
  obtain ⟨htake, hdrop⟩ := rd_spec fn r n
  rw [h, List.take_nil] at htake
  rw [h, List.drop_nil] at hdrop
  exact ⟨(rd fn r n).2, Prod.ext htake rfl, hdrop⟩

-- ==================================================== headers and records

variable {fn}

theorem openFile_of_reads {file : σ} {hb more : List UInt8} {need : Nat} {h : Header}
    {r₁ r₂ : Reader σ} (hhb : hb.length = hdrSizeV1) (hmore : more.length = hdrSize - hdrSizeV1)
    (hp₁ : tjcParseHeader hb hdrSizeV1 = .more)
    (hp₂ : tjcParseHeader (hb ++ more) hdrSize = .ok need h)
    (h₁ : rd fn { file } hdrSizeV1 = (hb, r₁)) (h₂ : rd fn r₁ (hdrSize - hdrSizeV1) = (more, r₂)) :
    openFile fn file = some (.start r₂ h) := by
  simp only [openFile, h₁, hhb, hp₁, h₂, hmore, hp₂, ne_eq, not_true_eq_false, if_false]

/-- A file that starts with a header of 34 bytes opens. -/
theorem openFile_v2 {file : σ} {hb more rest : List UInt8} {need : Nat} {h : Header}
    (hleft : fn.left file = hb ++ (more ++ rest)) (hhb : hb.length = hdrSizeV1)
    (hmore : more.length = hdrSize - hdrSizeV1) (hp₁ : tjcParseHeader hb hdrSizeV1 = .more)
    (hp₂ : tjcParseHeader (hb ++ more) hdrSize = .ok need h) :
    ∃ r, openFile fn file = some (.start r h) ∧ r.left fn = rest := by
  have hstart : Reader.left fn { file } = hb ++ (more ++ rest) := hleft
  obtain ⟨r₁, h₁, hleft₁⟩ := rd_append fn hstart
  obtain ⟨r₂, h₂, hleft₂⟩ := rd_append fn hleft₁
  rw [hhb] at h₁
  rw [hmore] at h₂
  exact ⟨r₂, openFile_of_reads hhb hmore hp₁ hp₂ h₁ h₂, hleft₂⟩

theorem readBitmap_of_read {d : Dec} {bm : List UInt8} {r r' : Reader σ}
    (hbm : bm.length = bitmapLen d) (h : rd fn r (bitmapLen d) = (bm, r')) :
    readBitmap fn d false r = (.ok (bm, (bm.map popcount).sum), r') := by
  simp only [readBitmap, h, hbm, lt_irrefl, if_false, Bool.false_eq_true]

theorem readAlen_of_read {abuf : List UInt8} {r r' : Reader σ}
    (hmax : abuf.length ≤ 4 * 1024 * 1024) (h : rd fn r abuf.length = (abuf, r')) :
    readAlen fn r abuf.length = (.ok abuf, r') := by
  unfold readAlen
  rw [if_neg (by omega), h]
  dsimp only
  rw [if_neg (lt_irrefl _)]

theorem readAbuf_of_reads {h : Header} {lb abuf : List UInt8} {r r₁ r₂ : Reader σ}
    (hcodec : h.audioCodec ≠ 0) (hlb : lb.length = 4) (hlen : tjcU32 lb 0 = abuf.length)
    (hmax : abuf.length ≤ 4 * 1024 * 1024) (h₁ : rd fn r 4 = (lb, r₁))
    (h₂ : rd fn r₁ abuf.length = (abuf, r₂)) : readAbuf fn h r = (.ok abuf, r₂) := by
  rw [← readAlen_of_read hmax h₂, ← hlen]
  unfold readAbuf
  rw [if_neg hcodec, h₁]
  dsimp only
  rw [if_neg (by omega)]

theorem readRecord_of_reads {d : Dec} {fhdr bm buf abuf : List UInt8} {force : Bool} {dirty : Nat}
    {r r₁ r₂ r₃ r₄ : Reader σ} (hfhdr : fhdr.length = frameHdr)
    (hforce : byteAt fhdr 4 = if force then 1 else 0) (h₁ : rd fn r frameHdr = (fhdr, r₁))
    (h₂ : readBitmap fn d force r₁ = (.ok (bm, dirty), r₂))
    (h₃ : readTiles fn dirty r₂ bm = (.ok buf, r₃)) (h₄ : readAbuf fn d.h r₃ = (.ok abuf, r₄)) :
    readRecord fn d r = (.ok (some (buf, force, abuf)), r₄) := by
  have hok : ¬ (frameHdr < frameHdr ∨ 1 < (byteAt fhdr 4).toNat) := by
    rw [hforce]
    cases force <;> decide
  have hflag : decide (byteAt fhdr 4 ≠ 0) = force := by
    rw [hforce]
    cases force <;> decide
  have hsome : ¬ frameHdr = 0 := by decide
  simp only [readRecord, h₁, hfhdr, hok, hflag, hsome, h₂, h₃, h₄, if_false]

/-- A record without tiles: its header, a clear bitmap, its audio. -/
theorem readRecord_audio {d : Dec} {r : Reader σ} {fhdr bm lb abuf rest : List UInt8}
    (hleft : r.left fn = fhdr ++ (bm ++ (lb ++ (abuf ++ rest)))) (hfhdr : fhdr.length = frameHdr)
    (hforce : byteAt fhdr 4 = 0) (hbm : bm.length = bitmapLen d)
    (hclear : (bm.map popcount).sum = 0) (hcodec : d.h.audioCodec ≠ 0) (hlb : lb.length = 4)
    (hlen : tjcU32 lb 0 = abuf.length) (hmax : abuf.length ≤ 4 * 1024 * 1024) :
    ∃ r', readRecord fn d r = (.ok (some (bm, false, abuf)), r') ∧ r'.left fn = rest := by
  obtain ⟨r₁, h₁, hleft₁⟩ := rd_append fn hleft
  obtain ⟨r₂, h₂, hleft₂⟩ := rd_append fn hleft₁
  obtain ⟨r₃, h₃, hleft₃⟩ := rd_append fn hleft₂
  obtain ⟨r₄, h₄, hleft₄⟩ := rd_append fn hleft₃
  rw [hfhdr] at h₁
  rw [hbm] at h₂
  rw [hlb] at h₃
  have hbitmap := readBitmap_of_read hbm h₂
  rw [hclear] at hbitmap
  exact ⟨r₄, readRecord_of_reads hfhdr hforce h₁ hbitmap rfl
    (readAbuf_of_reads hcodec hlb hlen hmax h₃ h₄), hleft₄⟩

end Ncmips.Tjcplay
