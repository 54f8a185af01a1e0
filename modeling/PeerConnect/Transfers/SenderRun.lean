import PeerConnect.Transfers.Sender

/-! What a sender writes, with its connection holding: the chunks of a file up to the one after which
it is stopped, then the records of the files up to the first it cannot send. -/
namespace PeerConnect.Transfers
open Library Wire

/-- The part of some bytes that is sent in chunks before a stop that comes after `n` further
checks. -/
def cutOff (stop : Option ℕ) (chunkSize : ℕ) (xs : Bytes) : Bytes :=
  match stop with
  | none => xs
  | some n => xs.take ((n+1)*chunkSize)

namespace Sender

theorem sendFunc_apply (data : Bytes) (s : Sender) (h : s.sends = none) :
    sendFunc data s = .done () { s with out := s.out ++ data } := by
  unfold sendFunc
  rw [h]

@[simp] theorem modify_setSeeked (files : List LocalFile) (index m n : ℕ) :
    (files.modify index (LocalFile.setSeeked m)).modify index (LocalFile.setSeeked n) =
      files.modify index (LocalFile.setSeeked n) := by
  rw [List.modify_modify_eq]
  rfl

theorem slice_eq_take (xs : Bytes) (start c : ℕ) :
    slice xs start (start+c) = (xs.drop start).take c := by
  rw [slice, Nat.add_sub_cancel_left]

/-- The state a sender of chunks leaves behind. -/
def afterChunks (index start : ℕ) (sent : Bytes) (checks : ℕ) (s : Sender) : Sender :=
  { (s.setSeeked index (start+sent.length)) with
    out := s.out ++ sent, stopAfter := s.stopAfter.map (· - checks) }

/-- One chunk, and then the others unless the sender is stopped. -/
theorem chunkLoop_cons (index : ℕ) (contents : Bytes) (c offset : ℕ) (offsets : List ℕ) (s : Sender)
    (h : s.sends = none) :
    chunkLoop index contents c (offset::offsets) s =
      if s.stopAfter = some 0 then
        .done () (s.afterChunks index offset (slice contents offset (offset+c)) 1)
      else chunkLoop index contents c offsets
        (s.afterChunks index offset (slice contents offset (offset+c)) 1) := by
  simp only [chunkLoop, Coro.bind_apply, sendFunc_apply _ s h, Run.bind_done, Coro.modify_apply]
  rcases hst : s.stopAfter with _ | _ | n <;>
    simp [toStop, setSeeked, hst, afterChunks]

theorem afterChunks_afterChunks (index start m n : ℕ) (xs ys : Bytes) (s : Sender) :
    (s.afterChunks index start xs m).afterChunks index (start+xs.length) ys n =
      s.afterChunks index start (xs ++ ys) (m+n) := by
  cases hst : s.stopAfter with
  | none => simp [afterChunks, setSeeked, hst, Nat.add_assoc]
  | some k => simp [afterChunks, setSeeked, hst, Nat.add_assoc, Nat.sub_sub]

/-- All the chunks of a file, or those up to the stop. -/
theorem chunkLoop_steps (index : ℕ) (contents : Bytes) {c : ℕ} (hc : 0 < c) (start : ℕ) (s : Sender)
    (h : s.sends = none) (hstart : start < contents.length) :
    chunkLoop index contents c (steps start contents.length c) s =
      .done () (s.afterChunks index start (cutOff s.stopAfter c (contents.drop start))
        (steps start contents.length c).length) := by
  rw [steps_of_lt hc hstart, chunkLoop_cons _ _ _ _ _ _ h, slice_eq_take]
  set chunk := (contents.drop start).take c with hchunk
  have hmore : ∀ n, cutOff (some (n+1)) c (contents.drop start) =
      chunk ++ cutOff (some n) c (contents.drop (start+c)) := by
    intro n
    simp only [cutOff]
    rw [show (n+1+1)*c = c+(n+1)*c by ring, List.take_add, List.drop_drop]
  have hrest : cutOff none c (contents.drop start) = chunk ++ cutOff none c (contents.drop (start+c)) := by
    simp only [cutOff]
    rw [hchunk, ← List.drop_drop, List.take_append_drop]
  by_cases hstop : s.stopAfter = some 0
  · have hone : cutOff (some 0) c (contents.drop start) = chunk := by simp [cutOff, hchunk]
    rw [if_pos hstop]
    simp [afterChunks, hstop, hone]
  · rw [if_neg hstop]
    by_cases hlast : start+c < contents.length
    · have hlen : chunk.length = c := by simp [hchunk]; omega
      have ih := chunkLoop_steps index contents hc (start+c) (s.afterChunks index start chunk 1) h hlast
      rw [ih]
      have hadd := afterChunks_afterChunks index start 1 (steps (start+c) contents.length c).length
        chunk (cutOff (s.afterChunks index start chunk 1).stopAfter c (contents.drop (start+c))) s
      rw [hlen] at hadd
      rw [hadd, List.length_cons, Nat.add_comm 1]
      rcases hst : s.stopAfter with _ | _ | n
      · rw [hrest]; simp [afterChunks, hst]
      · exact absurd hst hstop
      · rw [hmore]; simp [afterChunks, hst]
    · have hnil : steps (start+c) contents.length c = [] := steps_of_le (by omega)
      have hdrop : contents.drop (start+c) = [] := List.drop_of_length_le (by omega)
      rw [hnil]
      rcases hst : s.stopAfter with _ | _ | n
      · rw [hrest, hdrop]; simp [chunkLoop, cutOff]
      · exact absurd hst hstop
      · rw [hmore, hdrop]; simp [chunkLoop, cutOff]
termination_by contents.length-start

/-- The number of chunks of a whole file. -/
def chunkCount (f : LocalFile) : ℕ := (steps 0 f.size (calculateChunkSize f.size)).length

/-- What a sender has written before its end tag, how far it got in each file, and what it failed
on. -/
structure Transmission where
  written : Bytes
  files : List LocalFile
  error : Option Exn

/-- The records of the files: tag, header and contents. A stop ends them behind a chunk or a file, a
header that cannot be packed or an empty file with an error. -/
def transmit (u : Umsgpack) : Option ℕ → List LocalFile → Transmission
  | _,[] => ⟨[],[],none⟩
  | stop,f::fs =>
    if stop = some 0 then ⟨[],f::fs,none⟩
    else match filePacket u f with
      | .error e => ⟨[1],f::fs,some e⟩
      | .ok packet =>
        if f.contents = [] then ⟨1::packet,f::fs,some .valueError⟩
        else
          let sent := cutOff (stop.map (· - 1)) (calculateChunkSize f.size) f.contents
          let rest := transmit u (stop.map (· - (1+chunkCount f))) fs
          ⟨1::packet ++ sent ++ rest.written,f.setSeeked sent.length::rest.files,rest.error⟩

section Transmission

variable {u : Umsgpack} {stop : Option ℕ} {f : LocalFile} {packet : Bytes}

@[simp] theorem transmit_nil (u : Umsgpack) (stop : Option ℕ) : transmit u stop [] = ⟨[],[],none⟩ := by
  simp only [transmit]

@[simp] theorem transmit_stopped (u : Umsgpack) (files : List LocalFile) :
    transmit u (some 0) files = ⟨[],files,none⟩ := by
  cases files <;> simp [transmit]

theorem transmit_unpacked {e : Exn} (hs : stop ≠ some 0) (hp : filePacket u f = .error e)
    (fs : List LocalFile) : transmit u stop (f::fs) = ⟨[1],f::fs,some e⟩ := by
  simp only [transmit, if_neg hs, hp]

theorem transmit_empty (hs : stop ≠ some 0) (hp : filePacket u f = .ok packet)
    (hc : f.contents = []) (fs : List LocalFile) :
    transmit u stop (f::fs) = ⟨1::packet,f::fs,some .valueError⟩ := by
  simp only [transmit, if_neg hs, hp, if_pos hc]

/-- A file with contents is sent as far as the stop lets it, and then the others. -/
theorem transmit_contents {sent : Bytes} (hs : stop ≠ some 0) (hp : filePacket u f = .ok packet)
    (hc : f.contents ≠ []) (fs : List LocalFile)
    (hsent : cutOff (stop.map (· - 1)) (calculateChunkSize f.size) f.contents = sent) :
    transmit u stop (f::fs) =
      ⟨1::packet ++ sent ++ (transmit u (stop.map (· - (1+chunkCount f))) fs).written,
        f.setSeeked sent.length::(transmit u (stop.map (· - (1+chunkCount f))) fs).files,
        (transmit u (stop.map (· - (1+chunkCount f))) fs).error⟩ := by
  simp only [transmit, if_neg hs, hp, if_neg hc, hsent]

end Transmission

/-- The end of a run that may have failed. -/
def ended (e : Option Exn) (s : Sender) : Run Exn Sender Unit :=
  match e with
  | none => .done () s
  | some e => .raised e s

theorem filePacket_error {u : Umsgpack} {f : LocalFile} {e : Exn} (h : filePacket u f = .error e) :
    e = .packException ∨ e = .structError := by
  unfold filePacket at h
  split at h
  · cases h; exact .inl rfl
  · split at h
    · cases h; exact .inr rfl
    · cases h

theorem handleException_other (e : Exn) (s : Sender)
    (h : e = .packException ∨ e = .structError ∨ e = .valueError) :
    (handleException e : Coro Exn Sender Unit) s = .raised e s := by
  rcases h with rfl | rfl | rfl <;>
    simp [handleException, Transfers.handleException, Exn.isOSError]

theorem sendFileItem_ok {u : Umsgpack} {f : LocalFile} {packet : Bytes} (s : Sender)
    (h : s.sends = none) (hp : filePacket u f = .ok packet) :
    sendFileItem u f s = .done () { s with out := s.out ++ 1::packet } := by
  simp [sendFileItem, sendFunc_apply, h, hp]

theorem sendFileItem_error {u : Umsgpack} {f : LocalFile} {e : Exn} (s : Sender)
    (h : s.sends = none) (hp : filePacket u f = .error e) :
    sendFileItem u f s = .raised e { s with out := s.out ++ [1] } := by
  simp only [sendFileItem, Coro.tryCatch_apply, Coro.bind_apply, sendFunc_apply _ s h, Run.bind_done,
    hp, Coro.ofExcept_error, Run.bind_raised, Run.handle_raised]
  exact handleException_other e _ ((filePacket_error hp).imp_right .inl)

theorem sendOneFile_empty (f : LocalFile) (index : ℕ) (s : Sender) (hc : f.contents = []) :
    sendOneFile index f s = .raised .valueError s := by
  have he := handleException_other .valueError s (.inr (.inr rfl))
  simp [sendOneFile, statusSetup_int f.size_fits, sendActualFile, hc, he]

theorem sendOneFile_contents (f : LocalFile) (index : ℕ) (s : Sender) (h : s.sends = none)
    (hf : f.seeked = 0) (hc : f.contents ≠ []) :
    sendOneFile index f s = .done () (s.afterChunks index 0
      (cutOff s.stopAfter (calculateChunkSize f.size) f.contents) (chunkCount f)) := by
  have hpos : 0 < f.contents.length := List.length_pos_iff.mpr hc
  have hloop : chunkLoop index f.contents (calculateChunkSize f.size)
      (steps 0 f.size (calculateChunkSize f.size)) s =
      .done () (s.afterChunks index 0
        (cutOff s.stopAfter (calculateChunkSize f.size) f.contents) (chunkCount f)) :=
    chunkLoop_steps index f.contents (calculateChunkSize_pos f.size) 0 s h hpos
  simp only [sendOneFile, Coro.tryCatch_apply, Coro.bind_apply, statusSetup_int f.size_fits, Coro.ofExcept_ok,
    Run.bind_done, sendActualFile, if_neg hc, hf, hloop, Run.handle_done]

/-- A round of the loop that is not stopped: the header of a file and its contents. -/
theorem sendLoop_cons (u : Umsgpack) (f : LocalFile) (index : ℕ) (range : List (LocalFile × ℕ))
    {s : Sender} (hstop : s.stopAfter ≠ some 0) :
    sendLoop u ((f,index)::range) s =
      (sendFileItem u f { s with
        stopAfter := s.stopAfter.map (· - 1), currentFileIndex := index }).bind fun _ s' =>
          (sendOneFile index f s').bind fun _ s' => sendLoop u range s' := by
  rcases hst : s.stopAfter with _ | _ | n
  · simp [sendLoop, toStop, hst]
  · exact absurd hst hstop
  · simp [sendLoop, toStop, hst]

/-- The loop of `send_files` writes the transmission of its files. -/
theorem sendLoop_transmit (u : Umsgpack) (files earlier : List LocalFile) (s : Sender)
    (h : s.sends = none) (hseeked : ∀ f ∈ files, f.seeked = 0) (hl : s.fileList = earlier ++ files) :
    ∃ s', sendLoop u (files.zipIdx earlier.length) s = ended (transmit u s.stopAfter files).error s' ∧
      s'.out = s.out ++ (transmit u s.stopAfter files).written ∧
      s'.fileList = earlier ++ (transmit u s.stopAfter files).files ∧
      s'.sends = none ∧ s'.state = s.state := by
  induction files generalizing earlier s with
  | nil => exact ⟨s,rfl,by simp,by simp [hl],h,rfl⟩
  | cons f fs ih =>
    rw [List.zipIdx_cons]
    by_cases hstop : s.stopAfter = some 0
    · rw [hstop, transmit_stopped]
      refine ⟨s,?_,by simp,hl,h,rfl⟩
      simp [sendLoop, toStop, hstop, ended]
    · rw [sendLoop_cons u f earlier.length _ hstop]
      -- the state after the check of `to_stop` and the choice of the file
      set t : Sender := { s with
        stopAfter := s.stopAfter.map (· - 1), currentFileIndex := earlier.length } with ht
      cases hp : filePacket u f with
      | error e =>
        rw [sendFileItem_error t h hp, transmit_unpacked hstop hp]
        exact ⟨{ t with out := t.out ++ [1] },rfl,rfl,hl,h,rfl⟩
      | ok packet =>
        rw [sendFileItem_ok t h hp, Run.bind_done]
        by_cases hc : f.contents = []
        · rw [sendOneFile_empty f _ _ hc, transmit_empty hstop hp hc]
          exact ⟨{ t with out := t.out ++ 1::packet },rfl,rfl,hl,h,rfl⟩
        · rw [sendOneFile_contents f earlier.length { t with out := t.out ++ 1::packet } h
            (hseeked f List.mem_cons_self) hc, Run.bind_done]
          set sent := cutOff (s.stopAfter.map (· - 1)) (calculateChunkSize f.size) f.contents with hs
          rw [transmit_contents hstop hp hc fs hs.symm]
          set s₁ : Sender := afterChunks earlier.length 0 sent (chunkCount f)
            { t with out := t.out ++ 1::packet } with hs₁
          have hfiles : s₁.fileList = (earlier ++ [f.setSeeked sent.length]) ++ fs := by
            simp [hs₁, afterChunks, setSeeked, ht, hl, modify_append_cons]
          have hstop' : s₁.stopAfter = s.stopAfter.map (· - (1+chunkCount f)) := by
            cases hst : s.stopAfter <;> simp [hs₁, afterChunks, ht, hst, Nat.sub_sub]
          have hout₁ : s₁.out = s.out ++ 1::packet ++ sent := rfl
          obtain ⟨s',hrun,hout,hl',hsends,hstate⟩ := ih (earlier ++ [f.setSeeked sent.length]) s₁ h
            (fun f' hf' => hseeked f' (List.mem_cons_of_mem _ hf')) hfiles
          rw [List.length_append, List.length_singleton] at hrun
          rw [hstop'] at hrun hout hl'
          refine ⟨s',hrun,?_,?_,hsends,hstate⟩
          · rw [hout, hout₁]
            simp
          · rw [hl', List.append_assoc]
            rfl

/-- A new sender of some files, which starts each of them at its beginning. -/
def init (files : List LocalFile) (stopAfter : Option ℕ) : Sender :=
  { fileList := files.map (LocalFile.setSeeked 0), stopAfter := stopAfter }

/-- A run of `send_files` from the start: its transmission, and the end tag if nothing failed. -/
theorem sendFiles_transmit (u : Umsgpack) (files : List LocalFile) (stop : Option ℕ) :
    let t := transmit u stop (files.map (LocalFile.setSeeked 0))
    ∃ s, sendFiles u (init files stop) = ended t.error s ∧ s.fileList = t.files ∧
      s.out = t.written ++ (if t.error = none then [0] else []) ∧
      s.state = if t.error = none then .completed else .sending := by
  intro t
  obtain ⟨s,hrun,hout,hfiles,hsends,hstate⟩ := sendLoop_transmit u
    (files.map (LocalFile.setSeeked 0)) [] ((init files stop).setState .sending) rfl
    (fun f hf => by
      obtain ⟨g,_,rfl⟩ := List.mem_map.mp hf
      rfl) rfl
  rw [List.length_nil] at hrun
  have hwritten : s.out = t.written := by rw [hout]; rfl
  have hsend : sendFiles u (init files stop) =
      (ended t.error s).bind fun _ s =>
        ((sendFunc [0] s).handle fun e s => handleException e s).bind fun _ s =>
          .done () (s.setState .completed) := by
    rw [show ended t.error s = _ from hrun.symm]
    rfl
  rw [hsend]
  cases he : t.error with
  | some e => exact ⟨s,rfl,hfiles,by simpa using hwritten,hstate⟩
  | none =>
    refine ⟨{ s with out := s.out ++ [0], state := .completed },?_,hfiles,?_,rfl⟩
    · simp only [ended, Run.bind_done, sendFunc_apply [0] s hsends, Run.handle_done]
      rfl
    · rw [if_pos rfl]
      exact congrArg (· ++ [0]) hwritten

end Sender
end PeerConnect.Transfers
