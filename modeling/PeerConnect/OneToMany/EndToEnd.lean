import PeerConnect.OneToMany.Files

/-! One transfer to many peers, as one of them sees it. No file is ever opened. If they were, one would
arrive only if it fits into a single chunk, the announced chunk size does not lead behind it, and there are
not too many files in between. -/
namespace PeerConnect.OneToMany
open Library Wire Transfers

namespace FilesSender

variable {f : LocalFile} {c : ℕ}

theorem sendFile_of_le (hf : f.seeked = 0) (hne : f.contents ≠ []) (h : f.size ≤ c) :
    sendFile c f = [f.contents] := by
  have hpos : 0 < f.size := List.length_pos_iff.mpr hne
  have htake : f.contents.take c = f.contents := List.take_of_length_le h
  rw [sendFile, hf, steps_of_lt (by omega) hpos, steps_of_le (by omega)]
  simp [slice, htake]

/-- No more of a file than one chunk is passed on, and no more than there is. -/
theorem sendFile_sum_le (c : ℕ) (f : LocalFile) :
    ((sendFile c f).map List.length).sum ≤ min c f.size := by
  have h : ∀ (offsets : List ℕ) (chunk : Option Bytes),
      (∀ bs, chunk = some bs → bs.length ≤ min c f.size) → ∀ bs,
      offsets.foldl (fun _ offset => some (slice f.contents offset (offset+c))) chunk = some bs →
        bs.length ≤ min c f.size := by
    intro offsets
    induction offsets with
    | nil => exact fun chunk h => h
    | cons offset offsets ih =>
      intro chunk _
      refine ih _ fun bs hbs => ?_
      cases hbs
      rw [slice_length]
      show _ ≤ min c f.contents.length
      omega
  unfold sendFile
  cases hc : (steps f.seeked f.size c).foldl
      (fun _ offset => some (slice f.contents offset (offset+c))) none with
  | none => simp
  | some bs =>
    simp only [Option.toList_some, List.map_cons, List.map_nil, List.sum_singleton]
    exact h _ none (by simp) bs hc

end FilesSender

namespace FilesReceiver

variable {frames : ℕ} {chunk : Bytes} {r : FilesReceiver} {item : OTMItem}

/-- The part of a chunk that fits into the current file, and the rest for the files behind it. -/
theorem writeChunk_open (frames : ℕ) (chunk : Bytes) (h : r.fileItems[r.currentFileIndex]? = some item)
    (hopen : item.written ≠ none) : writeChunk (frames+1) chunk r =
      if item.size-item.seeked < chunk.length then
        let r' := (r.write (chunk.take (item.size-item.seeked))).nextFile
        if r'.currentFileIndex = r.fileItems.length then .done () r'
        else writeChunk frames (chunk.drop (item.size-item.seeked)) r'
      else .done () (r.write chunk) := by
  have hl : ∀ bs, (r.write bs).fileItems.length = r.fileItems.length := fun bs => List.length_modify _ _ _
  rw [writeChunk, h]
  simp only [if_neg hopen]
  by_cases hfit : item.size-item.seeked < chunk.length
  · have hmin : min (item.size-item.seeked) chunk.length = item.size-item.seeked := by omega
    have hs : slice chunk 0 (item.size-item.seeked) = chunk.take (item.size-item.seeked) := by
      simp [slice]
    have hlen : (chunk.take (item.size-item.seeked)).length = item.size-item.seeked := by
      simp only [List.length_take]
      omega
    have hd : slice chunk (item.size-item.seeked) chunk.length = chunk.drop (item.size-item.seeked) := by
      rw [slice, List.take_of_length_le (by simp)]
    simp only [hmin, hs, hlen, hd, hl, if_pos hfit]
    rw [if_pos (by omega)]
  · have hs : slice chunk 0 (min (item.size-item.seeked) chunk.length) = chunk := by
      rw [slice, List.drop_zero, List.take_of_length_le (by omega)]
    simp only [hs, if_neg hfit]
    rw [if_neg (by omega)]

/-- Without a descriptor for the current file nothing is written. -/
theorem writeChunk_closed (frames : ℕ) (chunk : Bytes)
    (h : ∀ item, r.fileItems[r.currentFileIndex]? = some item → item.written = none) :
    ∃ e, writeChunk frames chunk r = .raised e r := by
  cases frames with
  | zero => exact ⟨_,rfl⟩
  | succ frames =>
    rw [writeChunk]
    cases hget : r.fileItems[r.currentFileIndex]? with
    | none => exact ⟨_,rfl⟩
    | some item => exact ⟨_,if_pos (h item hget)⟩

/-- Nor by a receiver that has no file open at all. -/
theorem receiveChunks_closed (frames : ℕ) (chunks : List Bytes)
    (h : ∀ item ∈ r.fileItems, item.written = none) :
    (receiveChunks frames chunks r).state.fileItems = r.fileItems := by
  cases chunks with
  | nil => rfl
  | cons chunk chunks =>
    have hclosed : ∀ item,
        r.alignCorrespondingChunk.fileItems[r.alignCorrespondingChunk.currentFileIndex]? = some item →
          item.written = none := fun item hget => h item (List.mem_of_getElem? hget)
    obtain ⟨e,hrun⟩ := writeChunk_closed frames chunk hclosed
    rw [receiveChunks, hrun]
    rfl

/-- The bytes written to all files. -/
def written (r : FilesReceiver) : ℕ := (r.fileItems.map (·.received.length)).sum

/-- What writing a chunk leaves as it is: everything but the files from the current one on, and there
are no more bytes in these than have come. -/
structure Writes (n : ℕ) (r r' : FilesReceiver) : Prop where
  session : r'.session = r.session
  sums : r'.fileSizesSummed = r.fileSizesSummed
  counter : r'.chunkCounter = r.chunkCounter
  below : ∀ j < r.currentFileIndex, r'.fileItems[j]? = r.fileItems[j]?
  written : r'.written ≤ r.written+n

theorem sum_modify_le {g : OTMItem → OTMItem} {n : ℕ}
    (hg : ∀ item, (g item).received.length ≤ item.received.length+n) (items : List OTMItem) (i : ℕ) :
    ((items.modify i g).map (·.received.length)).sum ≤ (items.map (·.received.length)).sum+n := by
  induction items generalizing i with
  | nil => simp
  | cons item items ih =>
    cases i with
    | zero =>
      have := hg item
      simp only [List.modify_zero_cons, List.map_cons, List.sum_cons]
      omega
    | succ i =>
      have := ih i
      simp only [List.modify_succ_cons, List.map_cons, List.sum_cons]
      omega

theorem writes_write (chunk : Bytes) (r : FilesReceiver) : Writes chunk.length r (r.write chunk) where
  session := rfl
  sums := rfl
  counter := rfl
  below := fun j hj => List.getElem?_modify_ne _ _ (by omega)
  written := by
    refine sum_modify_le (fun item => ?_) _ _
    cases hitem : item.written <;> simp [OTMItem.received, hitem]

/-- Writing on with the next file. -/
theorem Writes.next {m : ℕ} {chunk : Bytes} {r r' : FilesReceiver}
    (h : Writes m (r.write chunk).nextFile r') : Writes (chunk.length+m) r r' where
  session := h.session
  sums := h.sums
  counter := h.counter
  below := fun j hj =>
    (h.below j (Nat.lt_succ_of_lt hj)).trans ((writes_write chunk r).below j hj)
  written := by
    have h₁ : r'.written ≤ (r.write chunk).written+m := h.written
    have h₂ := (writes_write chunk r).written
    omega

theorem Writes.refl (n : ℕ) (r : FilesReceiver) : Writes n r r :=
  ⟨rfl,rfl,rfl,fun _ _ => rfl,Nat.le_add_right _ _⟩

theorem writes_writeChunk (frames : ℕ) (chunk : Bytes) (r : FilesReceiver) :
    Writes chunk.length r (writeChunk frames chunk r).state := by
  induction frames generalizing chunk r with
  | zero => exact .refl _ r
  | succ frames ih =>
    cases h : r.fileItems[r.currentFileIndex]? with
    | none =>
      obtain ⟨e,hrun⟩ := writeChunk_closed (r := r) (frames+1) chunk fun item hget => by
        rw [h] at hget
        cases hget
      rw [hrun]
      exact .refl _ r
    | some item =>
      by_cases hopen : item.written = none
      · obtain ⟨e,hrun⟩ := writeChunk_closed (r := r) (frames+1) chunk fun item' hget => by
          rw [h] at hget
          cases hget
          exact hopen
        rw [hrun]
        exact .refl _ r
      · set n := item.size-item.seeked with hn
        have hsplit : chunk.length = (chunk.take n).length + (chunk.drop n).length := by
          rw [← List.length_append, List.take_append_drop]
        rw [writeChunk_open frames chunk h hopen]
        simp only [← hn]
        split
        · rw [hsplit]
          split
          · exact (Writes.refl _ _).next
          · exact (ih _ _).next
        · exact writes_write chunk r

/-- A file item as it is announced, with its file open, and once all of the file has been written. -/
def fresh (f : LocalFile) : OTMItem := ⟨f.name.chars,f.size,0,some []⟩
def complete (f : LocalFile) : OTMItem := ⟨f.name.chars,f.size,f.size,some f.contents⟩

theorem write_nil (r : FilesReceiver) : r.write [] = r := by
  have hid : (fun item : OTMItem => { item with
      written := item.written.map (· ++ []), seeked := item.seeked+([] : Bytes).length }) = id := by
    funext item
    simp
  rw [write, hid, List.modify_id]

/-- A file that is whole and open. -/
def OTMItem.Whole (item : OTMItem) : Prop := item.seeked = item.size ∧ item.written ≠ none

/-- A whole file is passed with nothing written to it. -/
theorem writeChunk_pass {earlier : List OTMItem} {f : OTMItem} {rest : List OTMItem}
    (hearlier : ∀ item ∈ earlier, OTMItem.Whole item) (hne : chunk ≠ [])
    (hitems : r.fileItems = earlier ++ f::rest) (hidx : r.currentFileIndex < earlier.length) :
    writeChunk (frames+1) chunk r = writeChunk frames chunk r.nextFile := by
  have hget : r.fileItems[r.currentFileIndex]? = some earlier[r.currentFileIndex] := by
    rw [hitems, List.getElem?_append_left hidx, List.getElem?_eq_getElem hidx]
  obtain ⟨hfull,hopen⟩ := hearlier _ (List.getElem_mem hidx)
  have hroom : earlier[r.currentFileIndex].size-earlier[r.currentFileIndex].seeked = 0 := by
    rw [hfull, Nat.sub_self]
  have hlast : r.nextFile.currentFileIndex ≠ r.fileItems.length := by
    have hl : r.fileItems.length = earlier.length+(rest.length+1) := by rw [hitems]; simp
    show r.currentFileIndex+1 ≠ _
    omega
  rw [writeChunk_open frames chunk hget hopen, hroom, if_pos (List.length_pos_iff.mpr hne)]
  simp only [List.take_zero, List.drop_zero, write_nil, if_neg hlast]

/-- A chunk that is a whole file passes the files that are complete and is written to the first that
is not, if that is its own and there are enough calls left. -/
theorem writeChunk_whole (frames : ℕ) {r : FilesReceiver} {earlier rest : List OTMItem} {f : LocalFile}
    (hearlier : ∀ item ∈ earlier, OTMItem.Whole item) (hne : f.contents ≠ [])
    (hitems : r.fileItems = earlier ++ fresh f::rest) (hidx : r.currentFileIndex ≤ earlier.length)
    (hframes : earlier.length-r.currentFileIndex < frames) :
    writeChunk frames f.contents r = .done () { r with
      fileItems := earlier ++ complete f::rest, currentFileIndex := earlier.length } := by
  induction frames generalizing r with
  | zero => omega
  | succ frames ih =>
    rcases Nat.eq_or_lt_of_le hidx with heq | hlt
    · have hget : r.fileItems[r.currentFileIndex]? = some (fresh f) := by
        rw [hitems, heq]
        simp
      have hfit : ¬ (fresh f).size-(fresh f).seeked < f.contents.length := by
        simp [fresh, LocalFile.size]
      rw [writeChunk_open _ _ hget nofun, if_neg hfit, write, heq, hitems, modify_append_cons]
      simp [fresh, complete, LocalFile.size]
    · rw [writeChunk_pass hearlier hne hitems hlt]
      refine ih (r := r.nextFile) hitems hlt ?_
      show earlier.length-(r.currentFileIndex+1) < frames
      omega

/-- With too few of them it is not written at all. -/
theorem writeChunk_deep (frames : ℕ) {r : FilesReceiver} {earlier : List OTMItem} {f : OTMItem}
    {rest : List OTMItem} (hearlier : ∀ item ∈ earlier, OTMItem.Whole item) (hne : chunk ≠ [])
    (hitems : r.fileItems = earlier ++ f::rest) (hframes : frames ≤ earlier.length-r.currentFileIndex) :
    ∃ r', writeChunk frames chunk r = .raised .recursionError r' ∧ r'.fileItems = r.fileItems := by
  induction frames generalizing r with
  | zero => exact ⟨r,rfl,rfl⟩
  | succ frames ih =>
    rw [writeChunk_pass hearlier hne hitems (by omega)]
    refine ih (r := r.nextFile) hitems ?_
    show frames ≤ earlier.length-(r.currentFileIndex+1)
    omega

/-- The receiver once some of the files are complete and none of the others has been begun. -/
structure Reached (sizes : List ℕ) (session : OTMSession) (earlier rest : List LocalFile)
    (r : FilesReceiver) : Prop where
  session : r.session = session
  items : r.fileItems = earlier.map complete ++ rest.map fresh
  sums : r.fileSizesSummed = runningSums 0 sizes
  counter : r.chunkCounter = earlier.length

variable {sizes : List ℕ} {session : OTMSession} {earlier rest : List LocalFile}

/-- Where the chunk of a file is aligned to, by the chunk size of the session. -/
def alignedTo (sizes : List ℕ) (chunkSize k : ℕ) : ℕ := bisectLeft (runningSums 0 sizes) (k*chunkSize)

theorem Reached.aligned (h : Reached sizes session earlier rest r) :
    r.alignCorrespondingChunk.currentFileIndex = alignedTo sizes session.chunkSize earlier.length := by
  show bisectLeft r.fileSizesSummed _ = _
  rw [h.sums, h.session, h.counter]
  rfl

theorem whole_complete (earlier : List LocalFile) : ∀ item ∈ earlier.map complete, OTMItem.Whole item := by
  intro item hitem
  obtain ⟨f,_,rfl⟩ := List.mem_map.mp hitem
  exact ⟨rfl,nofun⟩

/-- The next whole file is written if its offset is not behind it, and not too far in front of it. -/
theorem Reached.next {f : LocalFile} (h : Reached sizes session earlier (f::rest) r)
    (hne : f.contents ≠ []) (hlen : earlier.length < sizes.length)
    (hfit : earlier.length*session.chunkSize ≤ (sizes.take (earlier.length+1)).sum)
    (hframes : earlier.length-alignedTo sizes session.chunkSize earlier.length < frames)
    (chunks : List Bytes) :
    ∃ r', Reached sizes session (earlier ++ [f]) rest r' ∧
      receiveChunks frames (f.contents::chunks) r = receiveChunks frames chunks r' := by
  have hidx : alignedTo sizes session.chunkSize earlier.length ≤ (earlier.map complete).length := by
    rw [List.length_map]
    refine bisectLeft_le (by simpa using hlen) ?_
    rw [runningSums_getElem, Nat.zero_add]
    exact hfit
  have hindex : r.alignCorrespondingChunk.currentFileIndex ≤ (earlier.map complete).length := by
    rw [h.aligned]
    exact hidx
  have hitems : r.alignCorrespondingChunk.fileItems = earlier.map complete ++ fresh f::rest.map fresh :=
    h.items
  have hrun := writeChunk_whole frames (whole_complete earlier) hne hitems hindex
    (by rw [h.aligned, List.length_map]; exact hframes)
  refine ⟨_,⟨?_,?_,?_,?_⟩,by rw [receiveChunks, hrun, Run.bind_done]⟩
  · exact h.session
  · simp
  · exact h.sums
  · simp [alignCorrespondingChunk, h.counter]

/-- The chunk of a file arrives if it is aligned with its file or one not too far in front of it. -/
def Arrives (frames : ℕ) (sizes : List ℕ) (chunkSize k : ℕ) : Prop :=
  k*chunkSize ≤ (sizes.take (k+1)).sum ∧ k-alignedTo sizes chunkSize k < frames

instance (frames : ℕ) (sizes : List ℕ) (chunkSize k : ℕ) : Decidable (Arrives frames sizes chunkSize k) :=
  inferInstanceAs (Decidable (_ ∧ _))

/-- All of the next files, whole. -/
theorem Reached.whole (frames : ℕ) {files : List LocalFile} (h : Reached sizes session earlier (files ++ rest) r)
    (hne : ∀ f ∈ files, f.contents ≠ []) (hlen : earlier.length+files.length ≤ sizes.length)
    (hfit : ∀ k < earlier.length+files.length, Arrives frames sizes session.chunkSize k)
    (chunks : List Bytes) :
    ∃ r', Reached sizes session (earlier ++ files) rest r' ∧
      receiveChunks frames (files.map LocalFile.contents ++ chunks) r =
        receiveChunks frames chunks r' := by
  induction files generalizing earlier r with
  | nil => exact ⟨r,by simpa using h,rfl⟩
  | cons f fs ih =>
    rw [List.length_cons] at hlen hfit
    have hf := hfit earlier.length (by omega)
    obtain ⟨r₁,h₁,hrun⟩ := h.next (hne f List.mem_cons_self) (by omega) hf.1 hf.2
      (fs.map LocalFile.contents ++ chunks)
    have hl : (earlier ++ [f]).length = earlier.length+1 := by simp
    obtain ⟨r₂,h₂,hrun'⟩ := ih h₁ (fun g hg => hne g (List.mem_cons_of_mem _ hg)) (by omega)
      (fun k hk => hfit k (by omega))
    exact ⟨r₂,by simpa using h₂,hrun.trans hrun'⟩

/-- A file that the numbers of all chunks to come lead behind is not written any more. -/
theorem receiveChunks_below (frames : ℕ) (chunks : List Bytes) (r : FilesReceiver) {k : ℕ}
    (hsums : r.fileSizesSummed = runningSums 0 sizes) (hk : k < sizes.length)
    (hlt : (sizes.take (k+1)).sum < r.chunkCounter*r.session.chunkSize) :
    (receiveChunks frames chunks r).state.fileItems[k]? = r.fileItems[k]? := by
  induction chunks generalizing r with
  | nil => rfl
  | cons chunk chunks ih =>
    have hidx : k < r.alignCorrespondingChunk.currentFileIndex := by
      show k < bisectLeft r.fileSizesSummed _
      rw [hsums]
      refine lt_bisectLeft (by simpa using hk) fun j hj hjk => ?_
      refine lt_of_le_of_lt (runningSums_mono 0 sizes hjk (by simpa using hk)) ?_
      rw [runningSums_getElem, Nat.zero_add]
      exact hlt
    have hw := writes_writeChunk frames chunk r.alignCorrespondingChunk
    have hbelow := hw.below k hidx
    rw [receiveChunks]
    cases hrun : r.alignCorrespondingChunk.writeChunk frames chunk with
    | raised e r' => rw [hrun] at hbelow; exact hbelow
    | blocked r' => rw [hrun] at hbelow; exact hbelow
    | done _ r' =>
      rw [hrun] at hbelow hw
      have hrec := ih { r' with chunkCounter := r'.chunkCounter+1 } (hw.sums.trans hsums) (by
        show _ < (r'.chunkCounter+1)*r'.session.chunkSize
        rw [show r'.chunkCounter = r.chunkCounter from hw.counter,
          show r'.session = r.session from hw.session]
        exact hlt.trans_le (Nat.mul_le_mul_right _ (Nat.le_succ _)))
      exact hrec.trans hbelow

/-- No more is written than comes. -/
theorem receiveChunks_written (frames : ℕ) (chunks : List Bytes) (r : FilesReceiver) :
    (receiveChunks frames chunks r).state.written ≤ r.written+(chunks.map List.length).sum := by
  induction chunks generalizing r with
  | nil => exact Nat.le_add_right _ _
  | cons chunk chunks ih =>
    have hw : _ ≤ r.written+_ := (writes_writeChunk frames chunk r.alignCorrespondingChunk).written
    rw [receiveChunks, List.map_cons, List.sum_cons]
    cases hrun : r.alignCorrespondingChunk.writeChunk frames chunk with
    | raised e r' => rw [hrun] at hw; exact hw.trans (by omega)
    | blocked r' => rw [hrun] at hw; exact hw.trans (by omega)
    | done _ r' =>
      rw [hrun] at hw
      have hrec : _ ≤ r'.written+_ := ih { r' with chunkCounter := r'.chunkCounter+1 }
      have hw' : r'.written ≤ r.written+chunk.length := hw
      exact hrec.trans (by omega)

end FilesReceiver
open FilesReceiver

/-- Every file has received the contents of the sender's once the chunks of the sender have come. -/
def Received (frames : ℕ) (s : FilesSender) (r : FilesReceiver) : Prop :=
  (receiveChunks frames s.chunks r).state.fileItems.map (·.written) =
    s.files.map fun f => some f.contents

/-- A sender is made for the files, and a receiver with the session and the file items that it announces
has received them all in the end. -/
def Delivers (frames : ℕ) (s : FilesSender) : Prop :=
  ∃ s' r, s.init = .ok s' ∧
    loadFilesMetadata (newOtmRequestArrived s'.createInformPacket) s'.fileMetadata = .ok r ∧
    Received frames s' r.openFiles.state

/-- The same for a sender and open files that are there from the first, each item with a file of its own. -/
def DeliversOpened (frames : ℕ) (s : FilesSender) : Prop :=
  ∃ r, loadFilesMetadata (newOtmRequestArrived s.createInformPacket) s.fileMetadata = .ok r ∧
    Received frames s (r.withDescriptors (s.files.map fun _ => true))

/-- The sizes of the files. -/
def sizes (s : FilesSender) : List ℕ := s.files.map LocalFile.size

/-- Every file is a single chunk, and each chunk is aligned, by the announced chunk size, with its file or
one not too far in front of it. -/
def Fits (frames : ℕ) (s : FilesSender) : Prop :=
  (∀ f ∈ s.files, f.size ≤ calculateChunkSize (sizes s).sum) ∧
    ∀ k < s.files.length, Arrives frames (sizes s) maxDatagramRecvSize k

theorem totalSize_eq (s : FilesSender) : s.totalSize = (sizes s).sum := by
  simp only [FilesSender.totalSize, FilesSender.fileItems, sizes, List.map_map]
  rfl

theorem chunks_eq_flatMap (s : FilesSender) : s.chunks = s.files.flatMap fun f =>
    FilesSender.sendFile (calculateChunkSize (sizes s).sum) (f.setSeeked 0) := by
  rw [FilesSender.chunks, FilesSender.makeSession, totalSize_eq, FilesSender.fileItems,
    List.flatMap_map]

/-- The receiver as it is made from what the sender announces. -/
theorem loadFilesMetadata_reached {s : FilesSender} (hne : s.files ≠ []) (htotal : (sizes s).sum < 2^32) :
    ∃ r, loadFilesMetadata (newOtmRequestArrived s.createInformPacket) s.fileMetadata = .ok r ∧
      Reached (sizes s) (newOtmRequestArrived s.createInformPacket) [] s.files
        (r.withDescriptors (s.files.map fun _ => true)) := by
  have hmeta : s.fileMetadata = s.files.map fun f => (f.name.chars,f.size,0) := by
    simp only [FilesSender.fileMetadata, FilesSender.fileItems, List.map_map]
    rfl
  have hsizes : (s.fileMetadata.map fun m => m.2.1) = sizes s := by
    rw [hmeta, List.map_map]
    rfl
  have hsmall : ∀ x ∈ runningSums 0 (sizes s), x < 2^32 :=
    (forall_runningSums_lt (by simpa [sizes] using hne)).mpr htotal
  refine ⟨⟨newOtmRequestArrived s.createInformPacket,s.fileMetadata.map fun m => ⟨m.1,m.2.1,m.2.2,none⟩,0,
    runningSums 0 (sizes s),0⟩,?_,?_⟩
  · rw [loadFilesMetadata, if_neg (by rw [hmeta]; simpa using hne), hsizes]
    exact if_pos hsmall
  · refine ⟨rfl,?_,rfl,rfl⟩
    rw [withDescriptors, hmeta, List.map_map, List.zipWith_map, List.zipWith_self]
    rfl

variable {frames : ℕ} {s : FilesSender}

theorem delivers_of_fits (hne : s.files ≠ []) (hpos : ∀ f ∈ s.files, f.contents ≠ [])
    (htotal : (sizes s).sum < 2^32) (hfits : Fits frames s) : DeliversOpened frames s := by
  obtain ⟨r,hload,hr⟩ := loadFilesMetadata_reached hne htotal
  have hchunks : s.chunks = s.files.map LocalFile.contents ++ [] := by
    rw [chunks_eq_flatMap, List.append_nil, List.map_eq_flatMap]
    refine List.flatMap_congr fun f hf => ?_
    exact FilesSender.sendFile_of_le rfl (hpos f hf) (hfits.1 f hf)
  have hr₀ : Reached (sizes s) (newOtmRequestArrived s.createInformPacket) [] (s.files ++ [])
      (r.withDescriptors (s.files.map fun _ => true)) := by
    rwa [List.append_nil]
  obtain ⟨r',hr',hrun⟩ := hr₀.whole frames hpos (by simp [sizes])
    (fun k hk => hfits.2 k (by simpa using hk)) []
  refine ⟨r,hload,?_⟩
  rw [Received, hchunks, hrun]
  show r'.fileItems.map _ = _
  rw [hr'.items]
  simp [complete, Function.comp_def]

/-- A file of more than one chunk loses bytes, and nobody makes up for them. -/
theorem size_le_of_delivers (hne : s.files ≠ []) (htotal : (sizes s).sum < 2^32)
    (h : DeliversOpened frames s) : ∀ f ∈ s.files, f.size ≤ calculateChunkSize (sizes s).sum := by
  obtain ⟨r,hload,hdel⟩ := h
  obtain ⟨r',hload',hr⟩ := loadFilesMetadata_reached hne htotal
  rw [hload] at hload'
  cases hload'
  have hzero : (r.withDescriptors (s.files.map fun _ => true)).written = 0 := by
    rw [written, hr.items]
    simp [fresh, OTMItem.received, Function.comp_def]
  have hall : (receiveChunks frames s.chunks
      (r.withDescriptors (s.files.map fun _ => true))).state.written = (sizes s).sum := by
    have := congrArg (fun l => (l.map fun w : Option Bytes => (w.getD []).length).sum) hdel
    simp only [List.map_map] at this
    exact this
  have hle := receiveChunks_written frames s.chunks (r.withDescriptors (s.files.map fun _ => true))
  rw [hzero, hall, Nat.zero_add, chunks_eq_flatMap] at hle
  set c := calculateChunkSize (sizes s).sum with hc
  have hsum : ((s.files.flatMap fun f => FilesSender.sendFile c (f.setSeeked 0)).map List.length).sum =
      (s.files.map fun f => ((FilesSender.sendFile c (f.setSeeked 0)).map List.length).sum).sum := by
    rw [List.map_flatMap, List.flatMap_def, List.sum_flatten, List.map_map]
    rfl
  rw [hsum] at hle
  intro f hf
  by_contra hlt
  refine absurd hle (not_le.mpr (List.sum_lt_sum _ _ (fun g _ => ?_) ⟨f,hf,?_⟩))
  · exact (FilesSender.sendFile_sum_le c (g.setSeeked 0)).trans (min_le_right _ _)
  · exact ((FilesSender.sendFile_sum_le c (f.setSeeked 0)).trans (min_le_left _ _)).trans_lt
      (not_le.mp hlt)

/-- The first file whose chunk does not arrive stays empty. -/
theorem arrives_of_delivers (hne : s.files ≠ []) (hpos : ∀ f ∈ s.files, f.contents ≠ [])
    (htotal : (sizes s).sum < 2^32) (h : DeliversOpened frames s) :
    ∀ k < s.files.length, Arrives frames (sizes s) maxDatagramRecvSize k := by
  have hsize := size_le_of_delivers hne htotal h
  obtain ⟨r,hload,hdel⟩ := h
  obtain ⟨r',hload',hr⟩ := loadFilesMetadata_reached hne htotal
  rw [hload] at hload'
  cases hload'
  have hchunks : s.chunks = s.files.map LocalFile.contents := by
    rw [chunks_eq_flatMap, List.map_eq_flatMap]
    refine List.flatMap_congr fun f hf => ?_
    exact FilesSender.sendFile_of_le rfl (hpos f hf) (hsize f hf)
  rw [Received, hchunks] at hdel
  intro k hk
  induction k using Nat.strong_induction_on with
  | h k ih =>
    by_contra hnot
    -- up to this file all is well
    have hfiles : s.files = s.files.take k ++ s.files[k]::s.files.drop (k+1) := by
      rw [← List.drop_eq_getElem_cons hk, List.take_append_drop]
    have hl : (s.files.take k).length = k := by
      rw [List.length_take]
      omega
    have hk' : k < (sizes s).length := by simpa [sizes] using hk
    obtain ⟨r₁,hr₁,hrun⟩ := Reached.whole frames
      (show Reached (sizes s) (newOtmRequestArrived s.createInformPacket) []
        (s.files.take k ++ s.files[k]::s.files.drop (k+1))
        (r.withDescriptors (s.files.map fun _ => true)) by rwa [← hfiles])
      (fun f hf => hpos f (List.mem_of_mem_take hf)) (by rw [hl]; simp; omega)
      (fun j hj => by
        have hjk : j < k := by simpa [hl] using hj
        exact ih j hjk (hjk.trans hk)) ((s.files[k]::s.files.drop (k+1)).map LocalFile.contents)
    rw [← List.map_append, ← hfiles] at hrun
    rw [List.nil_append] at hr₁
    have hfile : r₁.fileItems[k]? = some (fresh s.files[k]) := by
      rw [hr₁.items, List.getElem?_append_right (by simp), List.length_map, hl, Nat.sub_self]
      rfl
    -- and from here on nothing is written to it
    have hstays : (receiveChunks frames ((s.files[k]::s.files.drop (k+1)).map LocalFile.contents)
        r₁).state.fileItems[k]? = r₁.fileItems[k]? := by
      by_cases hfit : k*maxDatagramRecvSize ≤ ((sizes s).take (k+1)).sum
      · have hdeep : frames ≤ k-alignedTo (sizes s) maxDatagramRecvSize k := by
          by_contra hlt
          exact hnot ⟨hfit,not_le.mp hlt⟩
        have haligned := hr₁.aligned
        rw [hl] at haligned
        have hbehind : r₁.alignCorrespondingChunk.fileItems =
            (s.files.take k).map complete ++ fresh s.files[k]::(s.files.drop (k+1)).map fresh := hr₁.items
        obtain ⟨r₂,hraised,hitems⟩ := writeChunk_deep frames (whole_complete (s.files.take k))
          (hpos _ (List.getElem_mem hk)) hbehind (by
            rw [haligned, List.length_map, hl]
            exact hdeep)
        rw [List.map_cons, receiveChunks, hraised]
        exact congrArg (·[k]?) hitems
      · refine receiveChunks_below frames _ r₁ hr₁.sums hk' ?_
        rw [hr₁.counter, hr₁.session, hl]
        exact not_le.mp hfit
    have hcont := congrArg (·[k]?) hdel
    simp only [List.getElem?_map, hrun, hstays, hfile, List.getElem?_eq_getElem hk, Option.map_some,
      Option.some.injEq] at hcont
    exact hpos _ (List.getElem_mem hk) (Option.some.inj hcont).symm

/-- No transfer to many peers delivers its files: its sender cannot be made, and its receiver opens no
file. With a sender and with open files it would deliver them exactly if they fit. -/
theorem never_delivers (frames : ℕ) (s : FilesSender) (hne : s.files ≠ [])
    (hpos : ∀ f ∈ s.files, f.contents ≠ []) (htotal : (sizes s).sum < 2^32) :
    ¬ Delivers frames s ∧ s.init = .error .typeError ∧
    (∀ r, loadFilesMetadata (newOtmRequestArrived s.createInformPacket) s.fileMetadata = .ok r →
      ¬ Received frames s r.openFiles.state) ∧
    (DeliversOpened frames s ↔ Fits frames s) := by
  have hinit : s.init = .error .typeError := rfl
  refine ⟨?_,hinit,fun r hload hreceived => ?_,fun h =>
    ⟨size_le_of_delivers hne htotal h,arrives_of_delivers hne hpos htotal h⟩,
    delivers_of_fits hne hpos htotal⟩
  · rintro ⟨s',r,hs,_⟩
    rw [hinit] at hs
    cases hs
  · have hclosed : ∀ item ∈ r.fileItems, item.written = none := by
      unfold loadFilesMetadata at hload
      split at hload
      · cases hload
      · dsimp only at hload
        split at hload
        · cases hload
          intro item hitem
          obtain ⟨m,_,rfl⟩ := List.mem_map.mp hitem
          rfl
        · cases hload
    have hnone : (receiveChunks frames s.chunks r.openFiles.state).state.fileItems = r.fileItems :=
      receiveChunks_closed frames s.chunks hclosed
    rw [Received, hnone] at hreceived
    obtain ⟨f,hf⟩ := List.exists_mem_of_ne_nil _ hne
    have hmem : some f.contents ∈ r.fileItems.map (·.written) := by
      rw [hreceived]
      exact List.mem_map.mpr ⟨f,hf,rfl⟩
    obtain ⟨item,hitem,hwritten⟩ := List.mem_map.mp hmem
    rw [hclosed item hitem] at hwritten
    cases hwritten

/-- A sender of files of one byte each. -/
def sendOnes (count : ℕ) : FilesSender :=
  ⟨"peer","session","key",3,List.replicate count ⟨nameA,[1],0,by decide⟩⟩

theorem never_delivers_one :
    ¬ Delivers recursionLimit (sendOnes 1) ∧ DeliversOpened recursionLimit (sendOnes 1) := by
  have h := never_delivers recursionLimit (sendOnes 1) (by decide) (by decide) (by decide)
  refine ⟨h.1,h.2.2.2.mpr ⟨fun f hf => ?_,by decide⟩⟩
  rw [List.mem_singleton.mp hf]
  exact le_trans (by decide) (minSize_le_calculateChunkSize _)

/-- Not even one file of one byte arrives. -/
theorem one_small_file_not_delivered :
    ¬ ∀ s : FilesSender, s.files ≠ [] → (∀ f ∈ s.files, f.contents ≠ []) → (sizes s).sum < 2^32 →
      Delivers recursionLimit s := by
  intro h
  obtain ⟨s',r,hs,_⟩ := h (sendOnes 1) (by decide) (by decide) (by decide)
  cases hs

end PeerConnect.OneToMany
