import PeerConnect.Transfers.Receiver
import PeerConnect.Library.Slices

/-! The chunk size over exact numbers: it grows with the file between its two bounds. -/
namespace PeerConnect.Transfers
open Library Wire Receiver

/-- `buffer_size` with a rounding of the quotient and of the sum. -/
def bufferSizeWith (round : ℚ → ℚ) (fileSize : ℤ) : ℚ :=
  round (minSize + round ((((maxSize:ℤ)-minSize)*(fileSize-minFileSize) : ℤ) /
    (maxFileSize-minFileSize : ℤ)))

/-- `int(buffer_size - (buffer_size % 1024))` -/
def wholeKiB (bufferSize : ℚ) : ℕ := ⌊bufferSize - modKiB bufferSize⌋.toNat

def chunkSizeWith (round : ℚ → ℚ) (fileSize : ℤ) : ℕ :=
  if fileSize ≤ minFileSize then minSize
  else if maxFileSize ≤ fileSize then maxSize
  else wholeKiB (bufferSizeWith round fileSize)

/-- The program rounds to doubles. -/
theorem calculateChunkSize_eq (fileSize : ℤ) :
    calculateChunkSize fileSize = chunkSizeWith toDouble fileSize := rfl

/-- `calculate_chunk_size` without rounding. -/
def exactChunkSize (fileSize : ℤ) : ℕ := chunkSizeWith id fileSize

theorem wholeKiB_eq (q : ℚ) : wholeKiB q = (1024*⌊q/1024⌋).toNat := by
  have hval : q-modKiB q = ((1024*⌊q/1024⌋ : ℤ) : ℚ) := by
    unfold modKiB
    push_cast
    ring
  rw [wholeKiB, hval, Int.floor_intCast]

theorem wholeKiB_mono : Monotone wholeKiB := by
  intro p q h
  have hdiv : p/1024 ≤ q/1024 := div_le_div_of_nonneg_right h (by norm_num)
  have hfloor := Int.floor_le_floor hdiv
  rw [wholeKiB_eq, wholeKiB_eq]
  omega

theorem wholeKiB_dvd (q : ℚ) : 1024 ∣ wholeKiB q := by
  rw [wholeKiB_eq]
  omega

/-- Whole numbers of KiB are left as they are. -/
theorem wholeKiB_mul (k : ℕ) : wholeKiB (1024*k) = 1024*k := by
  have hdiv : (1024*k/1024 : ℚ) = ((k:ℤ) : ℚ) := by
    rw [mul_div_cancel_left₀ _ (by norm_num)]
    norm_cast
  rw [wholeKiB_eq, hdiv, Int.floor_intCast]
  omega

theorem bufferSizeWith_id_mono {m n : ℤ} (h : m ≤ n) : bufferSizeWith id m ≤ bufferSizeWith id n := by
  have hdiff : (0:ℤ) ≤ maxSize-minSize := by decide
  have hnum : ((maxSize:ℤ)-minSize)*(m-minFileSize) ≤ (maxSize-minSize)*(n-minFileSize) :=
    Int.mul_le_mul_of_nonneg_left (by omega) hdiff
  have hden : (0:ℚ) ≤ (maxFileSize-minFileSize : ℤ) := by exact_mod_cast (by decide : (0:ℤ) ≤ _)
  unfold bufferSizeWith
  simp only [id_eq]
  refine add_le_add_right (div_le_div_of_nonneg_right ?_ hden) _
  exact_mod_cast hnum

theorem wholeKiB_bufferSize_min : wholeKiB (bufferSizeWith id minFileSize) = minSize := by
  have hmin : bufferSizeWith id minFileSize = 1024*(64:ℕ) := by
    norm_num [bufferSizeWith, minSize]
  rw [hmin, wholeKiB_mul]
  rfl

theorem wholeKiB_bufferSize_max : wholeKiB (bufferSizeWith id maxFileSize) = maxSize := by
  have hmax : bufferSizeWith id maxFileSize = 1024*(2048:ℕ) := by
    norm_num [bufferSizeWith, minSize, maxSize, minFileSize, maxFileSize]
  rw [hmax, wholeKiB_mul]
  rfl

/-- The three branches are one: the file size is brought between its bounds first. -/
theorem exactChunkSize_eq (n : ℤ) :
    exactChunkSize n = wholeKiB (bufferSizeWith id (max minFileSize (min n maxFileSize))) := by
  have hle : minFileSize ≤ maxFileSize := by decide
  unfold exactChunkSize chunkSizeWith
  split
  next hmin => rw [min_eq_left (hmin.trans hle), max_eq_left hmin, wholeKiB_bufferSize_min]
  next hmin =>
    rw [not_le] at hmin
    split
    next hmax => rw [min_eq_right hmax, max_eq_right hle, wholeKiB_bufferSize_max]
    next hmax => rw [min_eq_left (not_le.mp hmax).le, max_eq_right hmin.le]

theorem exactChunkSize_mono {m n : ℤ} (h : m ≤ n) : exactChunkSize m ≤ exactChunkSize n := by
  rw [exactChunkSize_eq, exactChunkSize_eq]
  apply wholeKiB_mono
  apply bufferSizeWith_id_mono
  exact max_le_max le_rfl (min_le_min h le_rfl)

theorem minSize_le_exactChunkSize (n : ℤ) : minSize ≤ exactChunkSize n := by
  rw [exactChunkSize_eq, ← wholeKiB_bufferSize_min]
  exact wholeKiB_mono (bufferSizeWith_id_mono (le_max_left _ _))

theorem exactChunkSize_le_maxSize (n : ℤ) : exactChunkSize n ≤ maxSize := by
  rw [exactChunkSize_eq, ← wholeKiB_bufferSize_max]
  exact wholeKiB_mono (bufferSizeWith_id_mono (max_le (by decide) (min_le_right _ _)))

theorem exactChunkSize_dvd (n : ℤ) : 1024 ∣ exactChunkSize n := by
  rw [exactChunkSize_eq]
  exact wholeKiB_dvd _

/-- Both loops come on in every round: the sender goes from an offset to a greater one, and a
receiver that is not at the end of the stream gets some of what is left and no more. -/
structure LoopsAdvance (chunkSize : ℕ) : Prop where
  sending : ∀ start stop, start < stop → start < start+chunkSize ∧
    steps start stop chunkSize = start :: steps (start+chunkSize) stop chunkSize
  receiving : ∀ (remainingBytes : ℤ) (data : Bytes) (w w' : World), 0 < remainingBytes →
    recvFunc (min chunkSize remainingBytes.toNat) w = .done data w' → w.source.pending ≠ [] →
    0 < data.length ∧ data.length ≤ remainingBytes

theorem recvFunc_length_pos {n : ℕ} {data : Bytes} {w w' : World} (h : recvFunc n w = .done data w')
    (hn : 0 < n) (hp : w.source.pending ≠ []) : 0 < data.length := by
  obtain ⟨s,hr,rfl⟩ := Coro.zoom_done h
  rw [sockRecv_of_ne_nil _ _ hp] at hr
  cases hr
  rw [List.length_take]
  exact lt_min (Source.grant_pos _ hn hp) (List.length_pos_iff.mpr hp)

theorem loopsAdvance_of_pos {chunkSize : ℕ} (hpos : 0 < chunkSize) : LoopsAdvance chunkSize where
  sending start stop h := ⟨by omega,steps_of_lt hpos h⟩
  receiving remainingBytes data w w' hr h hp := by
    have hasked : 0 < min chunkSize remainingBytes.toNat := lt_min hpos (by omega)
    have hle := (recvFunc_done h).2.2
    exact ⟨recvFunc_length_pos h hasked hp,by omega⟩

/-- The chunk size of every file is a whole number of KiB between 64 KiB and 2 MiB, a larger file has
no smaller one, and the loops that use it advance. -/
theorem exact_chunk_sizes :
    (∀ s : ℤ, 64*1024 ≤ exactChunkSize s ∧ exactChunkSize s ≤ 2*1024*1024 ∧
      1024 ∣ exactChunkSize s ∧ LoopsAdvance (exactChunkSize s)) ∧
    ∀ s t : ℤ, s ≤ t → exactChunkSize s ≤ exactChunkSize t := by
  refine ⟨fun s => ⟨minSize_le_exactChunkSize s,exactChunkSize_le_maxSize s,exactChunkSize_dvd s,?_⟩,
    fun _ _ => exactChunkSize_mono⟩
  apply loopsAdvance_of_pos
  exact lt_of_lt_of_le (by decide) (minSize_le_exactChunkSize s)

end PeerConnect.Transfers
