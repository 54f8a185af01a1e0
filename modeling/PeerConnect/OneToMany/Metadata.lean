import PeerConnect.OneToMany.Files

/-! The cumulative sizes that a receiver keeps of the files it has been told of. -/
namespace PeerConnect.OneToMany
open Library Wire Transfers

namespace FilesReceiver

/-- The list `sums`, whose integers have no bound. -/
def sums (metadata : List (Name × ℕ × ℕ)) : List ℕ := runningSums 0 (metadata.map fun m => m.2.1)

/-- `_load_files_metadata` to its last line, with `total_byte_count` beside the receiver. -/
def loadWithTotal (session : OTMSession) (metadata : List (Name × ℕ × ℕ)) :
    Except Exn (FilesReceiver × ℕ) := do
  let r ← loadFilesMetadata session metadata
  match (sums metadata).getLast? with
  | some totalByteCount => pure (r,totalByteCount)
  | none => .error .indexError

/-- The sums of a receiver are those of the sizes before each file and its own, in order, and the
last of them is its total. -/
structure Cumulative (sizes : List ℕ) (r : FilesReceiver) (totalByteCount : ℕ) : Prop where
  sums : r.fileSizesSummed = (List.range sizes.length).map fun k => (sizes.take (k+1)).sum
  sorted : r.fileSizesSummed.Pairwise (· ≤ ·)
  last : r.fileSizesSummed.getLast? = some totalByteCount
  total : totalByteCount = sizes.sum
  fits : ∀ s ∈ r.fileSizesSummed, s < 2^32

variable {session : OTMSession} {metadata : List (Name × ℕ × ℕ)}

theorem map_size_ne_nil (hne : metadata ≠ []) : (metadata.map fun m => m.2.1) ≠ [] := by
  simpa using hne

/-- The metadata are loaded if the array has room for the sizes of all files together. -/
theorem loadWithTotal_ok (hne : metadata ≠ []) (hsum : (metadata.map fun m => m.2.1).sum < 2^32) :
    loadWithTotal session metadata =
      .ok (⟨session,metadata.map fun m => ⟨m.1,m.2.1,m.2.2,none⟩,0,sums metadata,0⟩,
        (metadata.map fun m => m.2.1).sum) := by
  have hfits := (forall_runningSums_lt (map_size_ne_nil hne)).mpr hsum
  have hlast := runningSums_getLast? 0 (map_size_ne_nil hne)
  unfold loadWithTotal loadFilesMetadata
  rw [if_neg hne, if_pos hfits, sums, hlast, Nat.zero_add]
  rfl

/-- Otherwise the array refuses one of the sums, whatever the sizes of the single files. -/
theorem loadWithTotal_overflow (hne : metadata ≠ [])
    (hsum : 2^32 ≤ (metadata.map fun m => m.2.1).sum) :
    loadWithTotal session metadata = .error .overflowError := by
  have hfits := (forall_runningSums_lt (map_size_ne_nil hne)).not.mpr (not_lt.mpr hsum)
  unfold loadWithTotal loadFilesMetadata
  rw [if_neg hne, if_neg hfits]
  rfl

theorem cumulative_sums (hne : metadata ≠ []) (hsum : (metadata.map fun m => m.2.1).sum < 2^32)
    (items : List OTMItem) :
    Cumulative (metadata.map fun m => m.2.1) ⟨session,items,0,sums metadata,0⟩
      (metadata.map fun m => m.2.1).sum where
  sums := by
    refine List.ext_getElem (by simp [sums]) fun k hk _ => ?_
    simp only [sums, runningSums_getElem, Nat.zero_add, List.getElem_map, List.getElem_range]
  sorted := by
    refine List.pairwise_iff_getElem.mpr fun i j _ hj hij => ?_
    exact runningSums_mono 0 _ hij.le hj
  last := by
    simpa [sums] using runningSums_getLast? 0 (map_size_ne_nil hne)
  total := rfl
  fits := (forall_runningSums_lt (map_size_ne_nil hne)).mpr hsum

/-- The sums are as they should be exactly if all sizes together are less than `2^32`. -/
theorem loads_cumulative_iff (session : OTMSession) (metadata : List (Name × ℕ × ℕ))
    (hne : metadata ≠ []) :
    (∃ r total, loadWithTotal session metadata = .ok (r,total) ∧
      Cumulative (metadata.map fun m => m.2.1) r total) ↔
    (metadata.map fun m => m.2.1).sum < 2^32 := by
  constructor
  · rintro ⟨r,total,hload,-⟩
    by_contra hsum
    rw [loadWithTotal_overflow hne (not_lt.mp hsum)] at hload
    cases hload
  · intro hsum
    exact ⟨_,_,loadWithTotal_ok hne hsum,cumulative_sums hne hsum _⟩

def fourGigabytes : List (Name × ℕ × ℕ) := [(['f'],2^31,0),(['g'],2^31,0)]

theorem loads_two_gigabytes :
    (∃ r total, loadWithTotal ⟨"o","s","k",5,3,[],1,2⟩ [(['f'],2^31,0)] = .ok (r,total) ∧
      Cumulative ([((['f'],2^31,0) : Name × ℕ × ℕ)].map fun m => m.2.1) r total) ↔
    ([((['f'],2^31,0) : Name × ℕ × ℕ)].map fun m => m.2.1).sum < 2^32 :=
  loads_cumulative_iff _ _ (by simp)

/-- Two files of two gigabytes each. -/
theorem four_gigabytes_overflow :
    ¬ ∃ r total, loadWithTotal ⟨"o","s","k",5,3,[],2,2⟩ fourGigabytes = .ok (r,total) ∧
      Cumulative (fourGigabytes.map fun m => m.2.1) r total := by
  rintro ⟨r,total,hload,-⟩
  rw [loadWithTotal_overflow (by simp [fourGigabytes]) (by decide)] at hload
  cases hload

end FilesReceiver
end PeerConnect.OneToMany
