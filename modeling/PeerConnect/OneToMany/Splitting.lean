import PeerConnect.OneToMany.EndToEnd

/-! The combined stream of all files, cut into chunks without regard to where a file ends, and split into
the files again, as far as the recursion limit allows for it. -/
namespace PeerConnect.OneToMany
open Library Wire Transfers

/-- A file to be sent, by its name and its contents, and whether the receiver has a descriptor for it. -/
structure StreamFile where
  name : Name
  contents : Bytes
  isOpen : Bool

namespace StreamFile

def size (f : StreamFile) : ℕ := f.contents.length

end StreamFile

/-- All files as one stream of bytes. -/
def combined (files : List StreamFile) : Bytes := files.flatMap StreamFile.contents

@[simp] theorem combined_cons (f : StreamFile) (fs : List StreamFile) :
    combined (f::fs) = f.contents ++ combined fs := rfl

theorem combined_append (xs ys : List StreamFile) : combined (xs ++ ys) = combined xs ++ combined ys := by
  rw [combined, List.flatMap_append, ← combined, ← combined]

/-- The file items once the first `n` bytes of the stream have been written. -/
def filled : ℕ → List StreamFile → List OTMItem
  | _,[] => []
  | n,f::fs =>
    ⟨f.name,f.size,min n f.size,if f.isOpen then some (f.contents.take n) else none⟩::filled (n-f.size) fs

theorem filled_append (n : ℕ) (xs ys : List StreamFile) :
    filled n (xs ++ ys) = filled n xs ++ filled (n-(combined xs).length) ys := by
  induction xs generalizing n with
  | nil => rfl
  | cons x xs ih =>
    rw [List.cons_append, filled, filled, ih, List.cons_append, combined_cons, List.length_append,
      Nat.sub_sub]
    rfl

@[simp] theorem length_filled (n : ℕ) (files : List StreamFile) :
    (filled n files).length = files.length := by
  induction files generalizing n with
  | nil => rfl
  | cons f fs ih => rw [filled, List.length_cons, List.length_cons, ih]

/-- All files are whole once all of the stream has been written. -/
theorem filled_of_le {n : ℕ} {files : List StreamFile} (h : (combined files).length ≤ n) :
    filled n files =
      files.map fun f => ⟨f.name,f.size,f.size,if f.isOpen then some f.contents else none⟩ := by
  induction files generalizing n with
  | nil => rfl
  | cons f fs ih =>
    rw [combined_cons, List.length_append] at h
    have hle : f.size ≤ n := le_trans (Nat.le_add_right _ _) h
    have hrest : (combined fs).length ≤ n-f.size := by
      show _ ≤ n-f.contents.length
      omega
    rw [filled, ih hrest, List.map_cons, min_eq_right hle, List.take_of_length_le hle]

/-- How many of the files end before an offset of the stream. -/
def endsBefore : ℕ → List StreamFile → ℕ
  | _,[] => 0
  | n,f::fs => if n ≤ f.size then 0 else endsBefore (n-f.size) fs+1

@[simp] theorem endsBefore_zero (files : List StreamFile) : endsBefore 0 files = 0 := by
  cases files with
  | nil => rfl
  | cons f fs => exact if_pos (Nat.zero_le _)

/-- The sizes of the files. -/
def fileSizes (files : List StreamFile) : List ℕ := files.map StreamFile.size

theorem length_combined (files : List StreamFile) : (combined files).length = (fileSizes files).sum := by
  rw [combined, List.length_flatMap, fileSizes]
  rfl

/-- The bisection over the cumulative sizes. -/
theorem bisectLeft_eq (files : List StreamFile) (acc x : ℕ) :
    bisectLeft (runningSums acc (fileSizes files)) x = endsBefore (x-acc) files := by
  induction files generalizing acc with
  | nil => rfl
  | cons f fs ih =>
    have ih := ih (acc+f.size)
    rw [bisectLeft] at ih
    rw [fileSizes, List.map_cons, runningSums, bisectLeft, List.findIdx_cons, endsBefore]
    by_cases hx : x ≤ acc+f.size
    · rw [if_pos (by omega), decide_eq_true hx]
      rfl
    · rw [if_neg (by omega), decide_eq_false hx, Nat.sub_sub, ← ih]
      rfl

/-- The files in front of the one that an offset is in end before it, and the count goes on behind them. -/
theorem endsBefore_split (files : List StreamFile) {a b : ℕ} (hab : a ≤ b) :
    (combined (files.take (endsBefore a files))).length ≤ a ∧
      endsBefore b files = endsBefore a files+
        endsBefore (b-(combined (files.take (endsBefore a files))).length)
          (files.drop (endsBefore a files)) := by
  induction files generalizing a b with
  | nil => exact ⟨Nat.zero_le _,rfl⟩
  | cons f fs ih =>
    by_cases ha : a ≤ f.size
    · have hzero : endsBefore a (f::fs) = 0 := if_pos ha
      rw [hzero]
      simp [combined]
    · obtain ⟨hle,heq⟩ := ih (a := a-f.size) (b := b-f.size) (by omega)
      have hsucc : endsBefore a (f::fs) = endsBefore (a-f.size) fs+1 := if_neg ha
      have hsucc' : endsBefore b (f::fs) = endsBefore (b-f.size) fs+1 := if_neg (by omega)
      have hsize : f.contents.length = f.size := rfl
      rw [hsucc, hsucc', heq, List.take_succ_cons, List.drop_succ_cons, combined_cons, List.length_append,
        hsize]
      refine ⟨by omega,?_⟩
      rw [← Nat.sub_sub]
      omega

/-- All files that are not empty begin before the end of the stream. -/
theorem mem_take_endsBefore {files : List StreamFile} {f : StreamFile} (hf : f ∈ files)
    (hne : f.contents ≠ []) : f ∈ files.take (endsBefore (combined files).length files+1) := by
  induction files with
  | nil => cases hf
  | cons g fs ih =>
    rw [combined_cons, List.length_append, endsBefore]
    have hsize : g.contents.length = g.size := rfl
    rcases List.mem_cons.mp hf with rfl | hf
    · exact List.mem_cons_self
    · have hpos : 0 < (combined fs).length := by
        refine List.length_pos_iff.mpr fun hnil => hne ?_
        exact List.flatMap_eq_nil_iff.mp hnil f hf
      rw [if_neg (by omega), List.take_succ_cons, hsize, Nat.add_sub_cancel_left]
      exact List.mem_cons_of_mem _ (ih hf)

/-- The part of the stream between two offsets is taken in so many calls, of files that are open. -/
def Takes (frames : ℕ) (files : List StreamFile) (a b : ℕ) : Prop :=
  endsBefore b files-endsBefore a files < frames ∧
    ∀ f ∈ (files.drop (endsBefore a files)).take (endsBefore b files-endsBefore a files+1),
      f.isOpen = true

instance (frames : ℕ) (files : List StreamFile) (a b : ℕ) : Decidable (Takes frames files a b) :=
  inferInstanceAs (Decidable (_ ∧ _))

namespace FilesReceiver

variable {frames : ℕ} {r : FilesReceiver}

/-- A part of a list that reaches behind the first of two lists. -/
theorem prefix_beyond {chunk first second : Bytes} (h : chunk <+: first ++ second)
    (hlt : first.length < chunk.length) :
    chunk.take first.length = first ∧ chunk.drop first.length <+: second := by
  obtain ⟨t,ht⟩ := h
  have hle : first.length ≤ chunk.length := Nat.le_of_lt hlt
  constructor
  · rw [← List.take_append_of_le_length hle, ht, List.take_left]
  · refine ⟨t,?_⟩
    rw [← List.drop_append_of_le_length hle, ht, List.drop_left]

theorem prefix_within {chunk first second : Bytes} (h : chunk <+: first ++ second)
    (hle : chunk.length ≤ first.length) : chunk <+: first := by
  rcases List.prefix_or_prefix_of_prefix h (List.prefix_append first second) with h | h
  · exact h
  · rw [h.eq_of_length_le hle]

/-- The receiver in front of some of the files, with what of them has been written. -/
structure Before (earlier : List OTMItem) (files : List StreamFile) (n : ℕ) (chunk : Bytes)
    (r : FilesReceiver) : Prop where
  items : r.fileItems = earlier ++ filled n files
  index : r.currentFileIndex = earlier.length
  chunk_ne : chunk ≠ []
  part : chunk <+: (combined files).drop n

variable {earlier : List OTMItem} {f : StreamFile} {fs : List StreamFile} {n : ℕ} {chunk : Bytes}

theorem Before.get (h : Before earlier (f::fs) n chunk r) : r.fileItems[r.currentFileIndex]? =
    some ⟨f.name,f.size,min n f.size,if f.isOpen then some (f.contents.take n) else none⟩ := by
  rw [h.items, h.index, filled]
  simp

theorem Before.part_cons (h : Before earlier (f::fs) n chunk r) :
    chunk <+: f.contents.drop n ++ (combined fs).drop (n-f.size) := by
  have hpart := h.part
  rwa [combined_cons, List.drop_append] at hpart

/-- The file is not open. -/
theorem Before.closed (h : Before earlier (f::fs) n chunk r) (hopen : f.isOpen = false) :
    ∃ e r', writeChunk frames chunk r = .raised e r' := by
  obtain ⟨e,hrun⟩ := writeChunk_closed (r := r) frames chunk fun item hget => by
    rw [h.get] at hget
    cases hget
    simp [hopen]
  exact ⟨e,r,hrun⟩

/-- The chunk ends in this file. -/
theorem Before.within (h : Before earlier (f::fs) n chunk r) (hopen : f.isOpen = true)
    (hle : n+chunk.length ≤ f.size) : writeChunk (frames+1) chunk r = .done () { r with
      fileItems := earlier ++ filled (n+chunk.length) (f::fs) } := by
  have hlength : (f.contents.drop n).length = f.size-n := List.length_drop
  have hwithin := prefix_within h.part_cons (by omega)
  have hcontents : f.contents.take n ++ chunk = f.contents.take (n+chunk.length) := by
    rw [List.take_add, ← List.prefix_iff_eq_take.mp hwithin]
  have hseeked : min n f.size+chunk.length = min (n+chunk.length) f.size := by omega
  have hbehind : n+chunk.length-f.size = n-f.size := by omega
  have hroom : ¬ f.size-min n f.size < chunk.length := by omega
  have hitem := h.get
  simp only [hopen, if_true] at hitem
  rw [writeChunk_open _ _ hitem (by simp), if_neg hroom, write, h.items, h.index, filled, modify_append_cons,
    filled, hbehind]
  simp only [hopen, if_true, Option.map_some, hcontents, hseeked]

/-- The file is filled up, and the rest of the chunk belongs to the files behind it. -/
theorem Before.beyond (frames : ℕ) (h : Before earlier (f::fs) n chunk r) (hopen : f.isOpen = true)
    (hlt : f.size < n+chunk.length) :
    ∃ r', writeChunk (frames+1) chunk r = writeChunk frames (chunk.drop (f.size-n)) r' ∧
      r' = { r with
        fileItems := (earlier ++ [⟨f.name,f.size,f.size,some f.contents⟩]) ++ filled (n-f.size) fs
        currentFileIndex := r.currentFileIndex+1 } ∧
      Before (earlier ++ [⟨f.name,f.size,f.size,some f.contents⟩]) fs (n-f.size)
        (chunk.drop (f.size-n)) r' ∧
      n-f.size+(chunk.drop (f.size-n)).length = n+chunk.length-f.size ∧ fs ≠ [] := by
  have hpos := List.length_pos_iff.mpr h.chunk_ne
  have hlength : (f.contents.drop n).length = f.size-n := List.length_drop
  obtain ⟨htake,hrest⟩ := prefix_beyond h.part_cons (by omega)
  rw [hlength] at htake hrest
  have hne : chunk.drop (f.size-n) ≠ [] := by
    rw [Ne, List.drop_eq_nil_iff]
    omega
  have hfs : fs ≠ [] := by
    rintro rfl
    exact hne (List.prefix_nil.mp (by simpa [combined] using hrest))
  have hitem := h.get
  simp only [hopen, if_true] at hitem
  have hroom : f.size-min n f.size = f.size-n := by omega
  set r' := (r.write (chunk.take (f.size-n))).nextFile with hr'
  have hitems : r'.fileItems =
      (earlier ++ [⟨f.name,f.size,f.size,some f.contents⟩]) ++ filled (n-f.size) fs := by
    have hseeked : min n f.size+(f.size-n) = f.size := by omega
    rw [hr', htake, nextFile, write, h.items, h.index, filled, modify_append_cons]
    simp only [hopen, if_true, Option.map_some, List.take_append_drop, hlength, hseeked, List.append_assoc,
      List.singleton_append]
  have hindex : r'.currentFileIndex = r.currentFileIndex+1 := rfl
  have hnot : r'.currentFileIndex ≠ r.fileItems.length := by
    have := List.length_pos_iff.mpr hfs
    rw [hindex, h.index, h.items, List.length_append, length_filled, List.length_cons]
    omega
  refine ⟨r',?_,?_,⟨hitems,?_,hne,hrest⟩,?_,hfs⟩
  · rw [writeChunk_open _ _ hitem (by simp), hroom, if_pos (by omega), if_neg hnot]
  · rw [← hitems]
    rfl
  · rw [hindex, h.index]
    simp
  · rw [List.length_drop]
    omega

theorem endsBefore_beyond (hlt : f.size < n+chunk.length) :
    endsBefore (n+chunk.length) (f::fs) = endsBefore (n+chunk.length-f.size) fs+1 :=
  if_neg (not_le.mpr hlt)

/-- A chunk of the stream fills the files from the current one on, over as many ends of files as it
contains. -/
theorem Before.write {files : List StreamFile} (h : Before earlier files n chunk r) (hne : files ≠ [])
    (hframes : endsBefore (n+chunk.length) files < frames)
    (hopen : ∀ f ∈ files.take (endsBefore (n+chunk.length) files+1), f.isOpen = true) :
    ∃ i, writeChunk frames chunk r = .done () { r with
      fileItems := earlier ++ filled (n+chunk.length) files, currentFileIndex := i } := by
  induction files generalizing earlier n chunk r frames with
  | nil => exact absurd rfl hne
  | cons f fs ih =>
    cases frames with
    | zero => exact absurd hframes (Nat.not_lt_zero _)
    | succ frames =>
      have hf : f.isOpen = true := hopen f List.mem_cons_self
      by_cases hover : f.size < n+chunk.length
      · obtain ⟨r',hrun,hr',hbefore,hsum,hfs⟩ := h.beyond frames hf hover
        rw [endsBefore_beyond hover] at hframes hopen
        rw [← hsum] at hframes hopen
        obtain ⟨i,hdone⟩ := ih hbefore hfs (Nat.lt_of_succ_lt_succ hframes) fun g hg =>
          hopen g (by rw [List.take_succ_cons]; exact List.mem_cons_of_mem _ hg)
        refine ⟨i,?_⟩
        have hmin : min (n+chunk.length) f.size = f.size := by omega
        have htake : f.contents.take (n+chunk.length) = f.contents :=
          List.take_of_length_le (Nat.le_of_lt hover)
        rw [hrun, hdone, hr', hsum, filled, hmin, htake, hf]
        simp
      · exact ⟨_,h.within hf (Nat.le_of_not_lt hover)⟩

/-- A file that is not open, or too many of them, keep it from being written. -/
theorem Before.stuck (frames : ℕ) {files : List StreamFile} (h : Before earlier files n chunk r)
    (hne : files ≠ [])
    (hstuck : endsBefore (n+chunk.length) files < frames →
      ∃ f ∈ files.take (endsBefore (n+chunk.length) files+1), f.isOpen = false) :
    ∃ e r', writeChunk frames chunk r = .raised e r' := by
  induction files generalizing earlier n chunk r frames with
  | nil => exact absurd rfl hne
  | cons f fs ih =>
    cases frames with
    | zero => exact ⟨_,_,rfl⟩
    | succ frames =>
      cases hf : f.isOpen with
      | false => exact h.closed hf
      | true =>
        by_cases hover : f.size < n+chunk.length
        · obtain ⟨r',hrun,-,hbefore,hsum,hfs⟩ := h.beyond frames hf hover
          rw [hrun]
          refine ih frames hbefore hfs fun hlt => ?_
          rw [hsum] at hlt ⊢
          rw [endsBefore_beyond hover] at hstuck
          obtain ⟨g,hg,hclosed⟩ := hstuck (Nat.succ_lt_succ hlt)
          rw [List.take_succ_cons] at hg
          obtain rfl | hg := List.mem_cons.mp hg
          · rw [hf] at hclosed
            cases hclosed
          · exact ⟨g,hg,hclosed⟩
        · have hzero : endsBefore (n+chunk.length) (f::fs) = 0 := if_pos (Nat.le_of_not_lt hover)
          rw [hzero] at hstuck
          obtain ⟨g,hg,hclosed⟩ := hstuck (Nat.succ_pos _)
          obtain rfl := List.mem_singleton.mp hg
          rw [hf] at hclosed
          cases hclosed

/-- The receiver once it has got a number of chunks, and the files that it has come to are open. -/
structure Holding (session : OTMSession) (files : List StreamFile) (k : ℕ) (r : FilesReceiver) : Prop where
  session_eq : r.session = session
  sums : r.fileSizesSummed = runningSums 0 (fileSizes files)
  counter : r.chunkCounter = k
  items : r.fileItems = filled (min (k*session.chunkSize) (combined files).length) files
  opened : k = 0 ∨
    ∀ f ∈ files.take (endsBefore (min (k*session.chunkSize) (combined files).length) files+1),
      f.isOpen = true

/-- The end of a piece. -/
def pieceEnd (chunkSize : ℕ) (files : List StreamFile) (k : ℕ) : ℕ :=
  min ((k+1)*chunkSize) (combined files).length

variable {session : OTMSession} {files : List StreamFile} {k : ℕ}

/-- What the next chunk is aligned with: the files in front of the one it begins in are whole. -/
theorem Holding.before (h : Holding session files k r) (hc : 0 < session.chunkSize)
    (hk : k*session.chunkSize < (combined files).length) :
    let first := endsBefore (k*session.chunkSize) files
    let start := (combined (files.take first)).length
    start ≤ k*session.chunkSize ∧ files.drop first ≠ [] ∧
    k*session.chunkSize-start+(slice (combined files) (k*session.chunkSize)
      (k*session.chunkSize+session.chunkSize)).length = pieceEnd session.chunkSize files k-start ∧
    Before (filled (k*session.chunkSize) (files.take first)) (files.drop first) (k*session.chunkSize-start)
      (slice (combined files) (k*session.chunkSize) (k*session.chunkSize+session.chunkSize))
      r.alignCorrespondingChunk := by
  intro first start
  set a := k*session.chunkSize with ha
  have hle : start ≤ a := (endsBefore_split files (Nat.le_refl a)).1
  have hsplit := combined_append (files.take first) (files.drop first)
  rw [List.take_append_drop] at hsplit
  have hlength : (slice (combined files) a (a+session.chunkSize)).length =
      min session.chunkSize ((combined files).length-a) := by
    rw [slice_length, Nat.add_sub_cancel_left]
  have hne : files.drop first ≠ [] := by
    intro hnil
    rw [hnil] at hsplit
    have hall : (combined files).length = start := by
      rw [hsplit]
      simp [combined, start]
    omega
  refine ⟨hle,hne,?_,?_,?_,?_,?_⟩
  · rw [hlength, pieceEnd, Nat.succ_mul, ← ha]
    omega
  · show r.fileItems = _
    rw [h.items, min_eq_left (Nat.le_of_lt hk), ← filled_append, List.take_append_drop]
  · show bisectLeft r.fileSizesSummed (r.chunkCounter*r.session.chunkSize) = _
    have hfirst : first < files.length := not_le.mp fun hge => hne (List.drop_eq_nil_of_le hge)
    rw [h.sums, h.counter, h.session_eq, bisectLeft_eq, Nat.sub_zero, length_filled, List.length_take,
      min_eq_left (Nat.le_of_lt hfirst)]
  · refine List.length_pos_iff.mp ?_
    omega
  · have hdrop : (combined files).drop a = (combined (files.drop first)).drop (a-start) := by
      rw [hsplit, List.drop_append, List.drop_of_length_le hle, List.nil_append]
    rw [slice, ← hdrop]
    exact List.take_prefix _ _

/-- The count of the files that a piece is taken in. -/
theorem endsBefore_piece (files : List StreamFile) (chunkSize : ℕ)
    (hk : k*chunkSize < (combined files).length) :
    let first := endsBefore (k*chunkSize) files
    endsBefore (pieceEnd chunkSize files k-(combined (files.take first)).length) (files.drop first) =
      endsBefore (pieceEnd chunkSize files k) files-first := by
  intro first
  have hab : k*chunkSize ≤ pieceEnd chunkSize files k := by
    rw [pieceEnd, Nat.succ_mul]
    omega
  rw [(endsBefore_split files hab).2]
  exact (Nat.add_sub_cancel_left ..).symm

/-- One chunk: it is aligned and written, over as many files as it takes. -/
theorem Holding.next (h : Holding session files k r) (hc : 0 < session.chunkSize)
    (hk : k*session.chunkSize < (combined files).length)
    (htakes : Takes frames files (k*session.chunkSize) (pieceEnd session.chunkSize files k)) :
    ∃ r', r.alignCorrespondingChunk.writeChunk frames
        (slice (combined files) (k*session.chunkSize) (k*session.chunkSize+session.chunkSize)) =
        .done () r' ∧
      Holding session files (k+1) { r' with chunkCounter := r'.chunkCounter+1 } := by
  obtain ⟨hle,hne,hsum,hbefore⟩ := h.before hc hk
  have hcount := endsBefore_piece files session.chunkSize hk
  obtain ⟨hframes,hopen⟩ := htakes
  set a := k*session.chunkSize with ha
  set first := endsBefore a files with hfirst
  set start := (combined (files.take first)).length with hstart
  obtain ⟨i,hrun⟩ := hbefore.write hne (by rw [hsum, hcount]; exact hframes)
    (by rw [hsum, hcount]; exact hopen)
  have hab : a ≤ pieceEnd session.chunkSize files k := by
    rw [pieceEnd, Nat.succ_mul, ← ha]
    omega
  have hsplit := endsBefore_split files hab
  refine ⟨_,hrun,h.session_eq,h.sums,congrArg (·+1) h.counter,?_,.inr ?_⟩
  · have hwhole : filled a (files.take first) =
        filled (pieceEnd session.chunkSize files k) (files.take first) := by
      rw [filled_of_le hle, filled_of_le (hle.trans hab)]
    rw [hsum, hwhole, ← filled_append, List.take_append_drop]
    rfl
  · show ∀ f ∈ files.take (endsBefore (pieceEnd session.chunkSize files k) files+1), f.isOpen = true
    have hparts : files.take (endsBefore (pieceEnd session.chunkSize files k) files+1) = files.take first ++
        (files.drop first).take (endsBefore (pieceEnd session.chunkSize files k) files-first+1) := by
      rw [← List.take_add]
      congr 1
      omega
    rw [hparts]
    refine List.forall_mem_append.mpr ⟨?_,hopen⟩
    rcases h.opened with rfl | hold
    · have hzero : first = 0 := by rw [hfirst, ha, Nat.zero_mul, endsBefore_zero]
      rw [hzero]
      exact List.forall_mem_nil _
    · rw [min_eq_left (Nat.le_of_lt hk), List.take_add] at hold
      exact (List.forall_mem_append.mp hold).1

/-- All chunks from one on. -/
theorem Holding.run {k : ℕ} {r : FilesReceiver} (h : Holding session files k r) (hc : 0 < session.chunkSize)
    (htakes : ∀ j ≥ k, j*session.chunkSize < (combined files).length →
      Takes frames files (j*session.chunkSize) (pieceEnd session.chunkSize files j)) :
    ∃ r' j, receiveChunks frames ((steps (k*session.chunkSize) (combined files).length session.chunkSize).map
        fun first => slice (combined files) first (first+session.chunkSize)) r = .done () r' ∧
      Holding session files j r' ∧ (combined files).length ≤ j*session.chunkSize := by
  by_cases hk : k*session.chunkSize < (combined files).length
  · obtain ⟨r₁,hrun,hnext⟩ := h.next hc hk (htakes k (Nat.le_refl k) hk)
    obtain ⟨r',j,hrest,hlast⟩ := hnext.run hc fun j hj => htakes j (Nat.le_of_succ_le hj)
    rw [Nat.succ_mul] at hrest
    refine ⟨r',j,?_,hlast⟩
    rw [steps_of_lt hc hk, List.map_cons, receiveChunks, hrun, Run.bind_done, hrest]
  · rw [steps_of_le (Nat.le_of_not_lt hk)]
    exact ⟨r,k,rfl,h,Nat.le_of_not_lt hk⟩
termination_by (combined files).length-k*session.chunkSize
decreasing_by
  rw [Nat.succ_mul]
  omega

/-- The first chunk that cannot be taken ends it. -/
theorem Holding.stuck {k j : ℕ} {r : FilesReceiver} (h : Holding session files k r)
    (hc : 0 < session.chunkSize) (hkj : k ≤ j)
    (hj : j*session.chunkSize < (combined files).length)
    (hnot : ¬ Takes frames files (j*session.chunkSize) (pieceEnd session.chunkSize files j)) :
    ∃ e r', receiveChunks frames ((steps (k*session.chunkSize) (combined files).length session.chunkSize).map
        fun first => slice (combined files) first (first+session.chunkSize)) r = .raised e r' := by
  have hk : k*session.chunkSize < (combined files).length :=
    lt_of_le_of_lt (Nat.mul_le_mul_right _ hkj) hj
  by_cases htakes : Takes frames files (k*session.chunkSize) (pieceEnd session.chunkSize files k)
  · have hne : k ≠ j := by
      rintro rfl
      exact hnot htakes
    obtain ⟨r₁,hrun,hnext⟩ := h.next hc hk htakes
    obtain ⟨e,r',hraised⟩ := hnext.stuck hc (by omega) hj hnot
    rw [Nat.succ_mul] at hraised
    refine ⟨e,r',?_⟩
    rw [steps_of_lt hc hk, List.map_cons, receiveChunks, hrun, Run.bind_done, hraised]
  · obtain ⟨-,hne,hsum,hbefore⟩ := h.before hc hk
    have hcount := endsBefore_piece files session.chunkSize hk
    obtain ⟨e,r',hraised⟩ := hbefore.stuck frames hne fun hframes => by
      rw [hsum, hcount] at hframes ⊢
      by_contra hall
      refine htakes ⟨hframes,fun f hf => ?_⟩
      by_contra hclosed
      exact hall ⟨f,hf,Bool.eq_false_iff.mpr hclosed⟩
    exact ⟨e,r',by rw [steps_of_lt hc hk, List.map_cons, receiveChunks, hraised, Run.bind_raised]⟩
termination_by (combined files).length-k*session.chunkSize
decreasing_by
  rw [Nat.succ_mul]
  omega

/-- The receiver as it is made from the metadata, with some of its files open. -/
theorem loadFilesMetadata_holding (hne : files ≠ []) (htotal : (combined files).length < 2^32)
    (session : OTMSession) :
    ∃ r, loadFilesMetadata session (files.map fun f => (f.name,f.size,0)) = .ok r ∧
      Holding session files 0 (r.withDescriptors (files.map StreamFile.isOpen)) := by
  have hsmall : ∀ s ∈ runningSums 0 (fileSizes files), s < 2^32 := by
    rw [length_combined] at htotal
    exact (forall_runningSums_lt (by simpa [fileSizes] using hne)).mpr htotal
  have hsizes : ((files.map fun f => (f.name,f.size,0)).map fun m : Name × ℕ × ℕ => m.2.1) =
      fileSizes files := by
    rw [List.map_map]
    rfl
  have hfresh : ∀ files : List StreamFile, (files.map fun f =>
      (⟨f.name,f.size,0,if f.isOpen then some [] else none⟩ : OTMItem)) = filled 0 files := by
    intro files
    induction files with
    | nil => rfl
    | cons f fs ih => rw [List.map_cons, ih, filled, Nat.zero_min, Nat.zero_sub, List.take_zero]
  refine ⟨⟨session,(files.map fun f => (f.name,f.size,0)).map fun m => ⟨m.1,m.2.1,m.2.2,none⟩,0,
    runningSums 0 (fileSizes files),0⟩,?_,rfl,rfl,rfl,?_,.inl rfl⟩
  · rw [loadFilesMetadata, if_neg (by simpa using hne), hsizes, if_pos hsmall]
  · rw [Nat.zero_mul, Nat.zero_min, ← hfresh, withDescriptors, List.map_map, List.zipWith_map,
      List.zipWith_self]
    rfl

/-- The combined stream is split into its files: every call returns, and in the end each file has received
its own bytes in order and its offset is behind the last of them. -/
def Splits (frames : ℕ) (session : OTMSession) (files : List StreamFile) : Prop :=
  ∃ r₀ r, loadFilesMetadata session (files.map fun f => (f.name,f.size,0)) = .ok r₀ ∧
    receiveChunks frames (pieces session.chunkSize (combined files))
      (r₀.withDescriptors (files.map StreamFile.isOpen)) = .done () r ∧
    r.fileItems.map (fun item => (item.seeked,item.received)) = files.map fun f => (f.size,f.contents)

/-- Each piece of a stream that is split has been taken. -/
theorem takes_of_splits {frames : ℕ} {session : OTMSession} {files : List StreamFile} (hne : files ≠ [])
    (htotal : (combined files).length < 2^32) (hc : 0 < session.chunkSize)
    (h : Splits frames session files) {k : ℕ} (hk : k*session.chunkSize < (combined files).length) :
    Takes frames files (k*session.chunkSize) (pieceEnd session.chunkSize files k) := by
  obtain ⟨r₀,hload,hholding⟩ := loadFilesMetadata_holding hne htotal session
  obtain ⟨r₀',r,hload',hrun,-⟩ := h
  rw [hload] at hload'
  cases hload'
  by_contra hnot
  obtain ⟨e,r',hraised⟩ := hholding.stuck hc (Nat.zero_le k) hk hnot
  rw [Nat.zero_mul] at hraised
  rw [pieces, hraised] at hrun
  cases hrun

/-- It is split just if every piece is taken in no more calls than there is room for on the stack, of files
that are open. -/
theorem splits_iff (frames : ℕ) (session : OTMSession) (files : List StreamFile) (hne : files ≠ [])
    (htotal : (combined files).length < 2^32) (hc : 0 < session.chunkSize) :
    Splits frames session files ↔ ∀ k, k*session.chunkSize < (combined files).length →
      Takes frames files (k*session.chunkSize) (pieceEnd session.chunkSize files k) := by
  constructor
  · exact fun h k => takes_of_splits hne htotal hc h
  · intro htakes
    obtain ⟨r₀,hload,hholding⟩ := loadFilesMetadata_holding hne htotal session
    obtain ⟨r,j,hrun,hlast,hj⟩ := hholding.run hc fun j _ => htakes j
    rw [Nat.zero_mul] at hrun
    refine ⟨r₀,r,hload,hrun,?_⟩
    rw [hlast.items, min_eq_right hj, filled_of_le (Nat.le_refl _), List.map_map]
    refine List.map_congr_left fun f hf => ?_
    cases hopen : f.isOpen with
    | true => simp [OTMItem.received, hopen]
    | false =>
      have hnil : f.contents = [] := by
        by_contra hne
        have hmem := mem_take_endsBefore hf hne
        rcases hlast.opened with rfl | hall
        · rw [Nat.zero_mul] at hj
          exact hne (List.flatMap_eq_nil_iff.mp (List.length_eq_zero_iff.mp (Nat.le_zero.mp hj)) f hf)
        · rw [min_eq_right hj] at hall
          rw [hall f hmem] at hopen
          cases hopen
      simp [OTMItem.received, hopen, hnil]

/-- Chunks of two bytes, of which the second ends where an empty file begins. -/
def twoByteSession : OTMSession := ⟨"o","s","k",5,3,[],3,2⟩

theorem splits_three :
    Splits recursionLimit twoByteSession [⟨['a'],[1,2,3],true⟩,⟨['b'],[],true⟩,⟨['c'],[4,5],true⟩] := by
  have htakes : ∀ k < 3, Takes recursionLimit
      [⟨['a'],[1,2,3],true⟩,⟨['b'],[],true⟩,⟨['c'],[4,5],true⟩] (k*2)
      (pieceEnd 2 [⟨['a'],[1,2,3],true⟩,⟨['b'],[],true⟩,⟨['c'],[4,5],true⟩] k) := by decide
  refine (splits_iff recursionLimit twoByteSession
    [⟨['a'],[1,2,3],true⟩,⟨['b'],[],true⟩,⟨['c'],[4,5],true⟩] (by decide) (by decide) (by decide)).mpr fun k hk => htakes k ?_
  have hk : k*2 < 5 := hk
  omega

/-- So many files of one byte each. -/
def ones (count : ℕ) : List StreamFile := List.replicate count ⟨['a'],[1],true⟩

theorem length_ones (count : ℕ) : (combined (ones count)).length = count := by
  induction count with
  | zero => rfl
  | succ count ih =>
    rw [ones, List.replicate_succ, combined_cons, List.length_append, ← ones, ih, Nat.add_comm]
    rfl

theorem endsBefore_ones (count : ℕ) : endsBefore (count+1) (ones (count+1)) = count := by
  induction count with
  | zero => rfl
  | succ count ih =>
    rw [ones, List.replicate_succ, endsBefore, if_neg (by simp [StreamFile.size])]
    exact congrArg (·+1) ih

/-- A thousand and one small files in one chunk. -/
theorem not_splits_thousand : ¬ ∀ (session : OTMSession) (files : List StreamFile), files ≠ [] →
    (∀ f ∈ files, f.isOpen = true) → (combined files).length < 2^32 → 0 < session.chunkSize →
      Splits recursionLimit session files := by
  intro h
  have hlength := length_ones (recursionLimit+1)
  have hne : ones (recursionLimit+1) ≠ [] := List.cons_ne_nil _ _
  have htotal : (combined (ones (recursionLimit+1))).length < 2^32 := by rw [hlength]; decide
  have hsplits := h ⟨"o","s","k",5,3,[],1,2000⟩ (ones (recursionLimit+1)) hne
    (fun f hf => by rw [List.eq_of_mem_replicate hf]) htotal (by decide)
  have hfirst : 0*2000 < (combined (ones (recursionLimit+1))).length := by rw [hlength]; decide
  have htakes := takes_of_splits hne htotal (by decide) hsplits hfirst
  have hend : pieceEnd 2000 (ones (recursionLimit+1)) 0 = recursionLimit+1 := by
    rw [pieceEnd, hlength]
    rfl
  have hlt := htakes.1
  simp only [hend, endsBefore_ones, Nat.zero_mul, endsBefore_zero, Nat.sub_zero, lt_irrefl] at hlt

end FilesReceiver
end PeerConnect.OneToMany
