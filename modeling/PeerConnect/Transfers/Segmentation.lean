import PeerConnect.Transfers.Receiver

/-! Receiving the same bytes under different cuts of the transport. -/
namespace PeerConnect.Transfers
open Library Wire Receiver

/-- A receiver whose connection is made, about to read a stream that then ends. -/
def World.start (root : Path) (fs : FileSystem) (stream : Bytes) (ending : Ending) (cut : Cut) :
    World :=
  { rx := { downloadPath := root }, fs := fs, source := ⟨stream,ending,cut,0⟩ }

/-- How a run ended: it returned, it raised, or it waits forever. -/
def outcome {α : Type} : Run Exn World α → Option (Except Exn α)
  | .done a _ => some (.ok a)
  | .raised e _ => some (.error e)
  | .blocked _ => none

/-- Two runs with the same outcome, the same file items and the same files. -/
def SameResult (r r' : Run Exn World Unit) : Prop :=
  outcome r = outcome r' ∧ r.state.rx.fileItems = r'.state.rx.fileItems ∧
    r.state.fs.lookup = r'.state.fs.lookup

namespace Receiver

/-- `recv_files` from the start is its loop, and then the handle is completed. -/
theorem recvFiles_eq (u : Umsgpack) (w : World) (hc : w.rx.connectionMade = true) :
    recvFiles u w = (recvLoop u (w.setState .receiving)).bind fun _ w' =>
      .done () (w'.setState .completed) := by
  have h : awaitConnection (w.setState .connecting) = .done () (w.setState .connecting) :=
    if_pos hc
  simp only [recvFiles, Coro.bind_apply, Coro.modify_apply, Run.bind_done, h]
  rfl

/-- The tag byte is read whole under every cut. -/
theorem shouldProceed_tag (w : World) (tag : UInt8) (rest : Bytes) (hs : w.rx.toStop = false)
    (hp : w.source.pending = tag::rest) :
    shouldProceed w = .done (if tag = 0 then [] else [tag])
      { w with source := w.source.advance 1 } := by
  have hr : recvFunc 1 w = .done [tag] { w with source := w.source.advance 1 } := by
    simp [recvFunc, sockRecv, Source.recv_one w.source tag rest hp]
  by_cases ht : tag = 0 <;> simp [shouldProceed, hs, hr, ht]

theorem shouldProceed_closed (w : World) (hs : w.rx.toStop = false) (hp : w.source.pending = [])
    (he : w.source.ending = .closed) :
    shouldProceed w = .done [] { w with source := w.source.advance 0 } := by
  have hr : recvFunc 1 w = .done [] { w with source := w.source.advance 0 } := by
    simp [recvFunc, sockRecv, Source.recv_closed w.source 1 hp he]
  simp [shouldProceed, hs, hr]

/-- Before the end of a closed stream every read returns. -/
theorem recvFunc_closed (w : World) (n : ℕ) (he : w.source.ending = .closed) :
    ∃ data, recvFunc n w = .done data { w with source := w.source.advance data.length } := by
  rcases Source.recv_cases w.source n with ⟨xs,hr,_⟩ | ⟨_,⟨_,hr⟩ | ⟨h,_⟩ | ⟨h,_⟩⟩
  · exact ⟨xs,by simp [recvFunc, sockRecv, hr]⟩
  · exact ⟨[],by simp [recvFunc, sockRecv, hr]⟩
  · rw [he] at h; cases h
  · rw [he] at h; cases h

/-- A length that is not read whole ends the transfer, with no item received. -/
theorem recvFileOnce_short (u : Umsgpack) (w : World) (he : w.source.ending = .closed)
    (hl : ∀ data w', recvFunc 4 w = .done data w' → data.length ≠ 4) :
    ∃ k, recvFileOnce u w =
      .raised .transferIncomplete (World.setState .paused { w with source := w.source.advance k }) := by
  obtain ⟨data,hr⟩ := recvFunc_closed w 4 he
  have hu := unpackUInt_eq_none.mpr (hl _ _ hr)
  exact ⟨data.length,by
    simp [recvFileOnce, recvFileItem, recvInt, hr, hu, handleException, Transfers.handleException]⟩

theorem receiveItem_items (item : FileItem) (w : World) :
    (receiveItem item w).state.rx.fileItems ≠ [] := by
  have hm : Progress (w.append item) (receiveItem item w).state := by
    simp only [receiveItem, Coro.bind_apply, Coro.modify_apply, Run.bind_done]
    cases item.size.atMostZero with
    | none => exact .refl _
    | some b =>
      cases b with
      | true => exact progress_onDisk _ _
      | false => exact progress_receiveSingleFile _
  have h := hm.items
  rw [append_items, List.length_append] at h
  intro hnil
  have hlen : (receiveItem item w).state.rx.fileItems.length = 0 := by rw [hnil]; rfl
  exact absurd (h.trans_eq hlen) (by simp)

/-- The streams that say nothing about a file: nothing at all, the end tag, or a tag without a whole
length behind it. -/
def NoHeader (stream : Bytes) : Prop := stream = [] ∨ stream.head? = some 0 ∨ stream.length < 5

/-- Without a header, the cut makes no difference. -/
theorem recvFiles_noHeader (u : Umsgpack) (root : Path) (fs : FileSystem) (stream : Bytes)
    (h : NoHeader stream) :
    ∃ o, ∀ cut, outcome (recvFiles u (World.start root fs stream .closed cut)) = some o ∧
      (recvFiles u (World.start root fs stream .closed cut)).state.rx.fileItems = [] ∧
      (recvFiles u (World.start root fs stream .closed cut)).state.fs = fs := by
  cases stream with
  | nil =>
    refine ⟨.ok (),fun cut => ?_⟩
    rw [recvFiles_eq _ _ rfl, recvLoop_eq, shouldProceed_closed _ rfl rfl rfl]
    exact ⟨rfl,rfl,rfl⟩
  | cons tag rest =>
    by_cases ht : tag = 0
    · refine ⟨.ok (),fun cut => ?_⟩
      rw [recvFiles_eq _ _ rfl, recvLoop_eq, shouldProceed_tag _ tag rest rfl rfl,
        if_pos ht]
      exact ⟨rfl,rfl,rfl⟩
    · have hl : rest.length < 4 := by
        rcases h with h | h | h
        · cases h
        · exact absurd (Option.some.inj h) ht
        · rw [List.length_cons] at h
          omega
      refine ⟨.error .transferIncomplete,fun cut => ?_⟩
      rw [recvFiles_eq _ _ rfl, recvLoop_eq, shouldProceed_tag _ tag rest rfl rfl,
        if_neg ht, Run.bind_done, if_neg (by simp)]
      set w : World := { (World.start root fs (tag::rest) .closed cut).setState .receiving with
        source := (World.start root fs (tag::rest) .closed cut).source.advance 1 }
      have hp : w.source.pending = rest := rfl
      obtain ⟨k,hk⟩ := recvFileOnce_short u w rfl fun data w' hr => by
        have hlen := congrArg List.length (recvFunc_done hr).2.1
        rw [hp, List.length_append] at hlen
        omega
      rw [show recvFileOnce u { (World.start root fs (tag::rest) .closed cut).setState .receiving with
        source := ((World.start root fs (tag::rest) .closed cut).setState
          .receiving).source.advance 1 } = _ from hk]
      exact ⟨rfl,rfl,rfl⟩

/-- The cut that hands out one byte at a time. -/
def Cut.single : Cut := fun _ _ => 1

/-- Cut into single bytes, a stream with a whole length fails on it. -/
theorem recvFiles_single (u : Umsgpack) (root : Path) (fs : FileSystem) (tag : UInt8)
    (rest : Bytes) (ht : tag ≠ 0) (hl : 4 ≤ rest.length) :
    outcome (recvFiles u (World.start root fs (tag::rest) .closed Cut.single)) =
        some (.error .transferIncomplete) ∧
      (recvFiles u (World.start root fs (tag::rest) .closed Cut.single)).state.rx.fileItems = [] := by
  rw [recvFiles_eq _ _ rfl, recvLoop_eq, shouldProceed_tag _ tag rest rfl rfl,
    if_neg ht, Run.bind_done, if_neg (by simp)]
  set w : World := { (World.start root fs (tag::rest) .closed Cut.single).setState .receiving with
    source := ((World.start root fs (tag::rest) .closed Cut.single).setState
      .receiving).source.advance 1 } with hw
  have hne : w.source.pending ≠ [] := by
    show rest ≠ []
    rintro rfl
    simp at hl
  have hg : w.source.grant 4 = 1 := by
    have : w.source.pending.length = rest.length := rfl
    simp only [Source.grant, this]
    show min (max 1 1) (min 4 rest.length) = 1
    omega
  obtain ⟨k,hk⟩ := recvFileOnce_short u w rfl fun data w' hr => by
    have hr' : recvFunc 4 w = .done (w.source.pending.take 1)
        { w with source := w.source.advance 1 } := by
      simp [recvFunc, sockRecv, Source.recv_of_ne_nil w.source 4 hne, hg]
    rw [hr', Run.done.injEq] at hr
    rw [← hr.1, List.length_take]
    omega
  rw [hk]
  exact ⟨rfl,rfl⟩

/-- Not cut at all, it fails on the header, if it fails, or there is a file item. -/
theorem recvFiles_whole (u : Umsgpack) (root : Path) (fs : FileSystem) (tag : UInt8) (rest : Bytes)
    (ht : tag ≠ 0) (hl : 4 ≤ rest.length) :
    ¬ (outcome (recvFiles u (World.start root fs (tag::rest) .closed Cut.whole)) =
        some (.error .transferIncomplete) ∧
      (recvFiles u (World.start root fs (tag::rest) .closed Cut.whole)).state.rx.fileItems = []) := by
  rw [recvFiles_eq _ _ rfl, recvLoop_eq, shouldProceed_tag _ tag rest rfl rfl,
    if_neg ht, Run.bind_done, if_neg (by simp)]
  set w : World := { (World.start root fs (tag::rest) .closed Cut.whole).setState .receiving with
    source := ((World.start root fs (tag::rest) .closed Cut.whole).setState
      .receiving).source.advance 1 } with hw
  have hr : recvFunc 4 w = .done (rest.take 4) { w with source := w.source.advance 4 } := by
    have hlen : (rest.take 4).length = 4 := by simp [hl]
    have h := Source.recv_whole w.source (rest.take 4) (rest.drop 4) rfl
      (List.take_append_drop 4 rest).symm (by rw [← List.length_pos_iff, hlen]; decide)
    rw [hlen] at h
    simp [recvFunc, sockRecv, h]
  have hu : unpackUInt 4 (rest.take 4) = some (ofNetworkOrder (rest.take 4)) := by
    simp [unpackUInt, hl]
  obtain ⟨raw,hraw⟩ := recvFunc_closed { w with source := w.source.advance 4 }
    (ofNetworkOrder (rest.take 4)) rfl
  set t : World := { w with source := (w.source.advance 4).advance raw.length } with htw
  have hitem : recvFileItem u w = Coro.ofExcept (FileItem.loadFrom u raw root) t := by
    simp only [recvFileItem, recvInt, Coro.bind_apply, Coro.tryCatch_apply, hr, Run.handle_done,
      Run.bind_done, hu, Coro.pure_apply, hraw, Coro.get_apply]
    rfl
  cases hf : FileItem.loadFrom u raw root with
  | error e =>
    have he : ¬ (e = .transferIncomplete ∨ e.isOSError = true) := by
      rcases FileItem.loadFrom_error hf with rfl | rfl | rfl <;> simp [Exn.isOSError]
    have honce : recvFileOnce u w = .raised e t := by
      simp [recvFileOnce, hitem, hf, handleException, Transfers.handleException, he]
    rw [honce]
    rintro ⟨ho,_⟩
    simp only [outcome, Run.bind_raised, Option.some.injEq, Except.error.injEq] at ho
    exact he (.inl ho)
  | ok item =>
    -- from here on there is an item, and no step takes one away
    have honce : recvFileOnce u w = receiveItem item t := by
      simp [recvFileOnce, hitem, hf]
    have hitems : (receiveItem item t).state.rx.fileItems ≠ [] := receiveItem_items item t
    rw [honce]
    rintro ⟨_,hnil⟩
    cases hi : receiveItem item t with
    | raised e t' => rw [hi] at hitems hnil; exact hitems hnil
    | blocked t' => rw [hi] at hitems hnil; exact hitems hnil
    | done _ t' =>
      rw [hi] at hitems hnil
      have hlen := (progress_recvLoop u t').items
      have hpos := List.length_pos_iff.mpr hitems
      have hempty : (recvLoop u t').state.rx.fileItems = [] := by
        rw [Run.bind_done] at hnil
        cases hloop : recvLoop u t' with
        | done _ _ => rw [hloop] at hnil; exact hnil
        | raised e _ => rw [hloop] at hnil; exact hnil
        | blocked _ => rw [hloop] at hnil; exact hnil
      rw [hempty] at hlen
      simp only [Run.state_done, List.length_nil] at hlen hpos
      omega

end Receiver

/-- How a stream is received is the same under every cut exactly if there is no header in it: no
read but that of the tag byte and those of the contents is repeated until it is complete. -/
theorem segmentation_independent_iff_noHeader (u : Umsgpack) (root : Path) (fs : FileSystem)
    (stream : Bytes) :
    (∀ cut cut' : Cut, SameResult (recvFiles u (World.start root fs stream .closed cut))
      (recvFiles u (World.start root fs stream .closed cut'))) ↔ NoHeader stream := by
  constructor
  · intro h
    by_contra hn
    simp only [NoHeader, not_or] at hn
    obtain ⟨hne,hhead,hlen⟩ := hn
    obtain ⟨tag,rest,rfl⟩ := List.exists_cons_of_ne_nil hne
    have ht : tag ≠ 0 := fun h0 => hhead (by rw [h0]; rfl)
    have hl : 4 ≤ rest.length := by
      rw [List.length_cons] at hlen
      omega
    obtain ⟨ho,hi⟩ := recvFiles_single u root fs _ _ ht hl
    obtain ⟨ho',hi',_⟩ := h Cut.single Cut.whole
    exact recvFiles_whole u root fs _ _ ht hl ⟨ho'.symm.trans ho,hi'.symm.trans hi⟩
  · intro h cut cut'
    obtain ⟨o,ho⟩ := recvFiles_noHeader u root fs stream h
    obtain ⟨h1,h2,h3⟩ := ho cut
    obtain ⟨h1',h2',h3'⟩ := ho cut'
    exact ⟨h1.trans h1'.symm,h2.trans h2'.symm,by rw [h3, h3']⟩

/-- The header of a file `a` of one byte. -/
def headerA : Value := FileItem.header "a".toList (.int 1) (.int 0)

def codecA : Umsgpack :=
  .single headerA [0x93,0xa1,0x61,1,0]
    (fun | .array [.str ['a'],.int 1,.int 0] => true | _ => false)
    (by intro w h; split at h <;> simp_all [headerA, FileItem.header])

/-- The transfer of that file, cut into single bytes and not cut at all. -/
theorem segmentation_matters_for_one_file :
    ¬ ∀ cut cut' : Cut,
      SameResult
        (recvFiles codecA
          (World.start [] .bare [1,0,0,0,5,0x93,0xa1,0x61,1,0,7,0] .closed cut))
        (recvFiles codecA
          (World.start [] .bare [1,0,0,0,5,0x93,0xa1,0x61,1,0,7,0] .closed cut')) := by
  intro h
  obtain ⟨ho,hi⟩ := recvFiles_single codecA [] .bare 1 [0,0,0,5,0x93,0xa1,0x61,1,0,7,0] (by decide) (by decide)
  obtain ⟨ho',hi',_⟩ := h Cut.single Cut.whole
  exact recvFiles_whole codecA [] .bare _ _ (by decide) (by decide)
    ⟨ho'.symm.trans ho,hi'.symm.trans hi⟩

end PeerConnect.Transfers
