import PeerConnect.Transfers.EndToEnd
import PeerConnect.Transfers.Touched

/-! Which incoming streams a receiver ends completed on: those with the end tag behind their
records, and those that merely stop. -/
namespace PeerConnect.Transfers
open Library Wire FileSystem Receiver

/-- A tag byte other than the end tag, and the length of a header. -/
def Opens (n : ℕ) (front : Bytes) : Prop :=
  ∃ tag length, tag ≠ 0 ∧ unpackUInt 4 length = some n ∧ front = tag::length

/-- A stream that starts with complete records, and what is behind them. -/
inductive Complete (u : Umsgpack) : Bytes → Bytes → Prop
  | nil (s : Bytes) : Complete u s s
  | record {front header contents rest tail : Bytes} {name : Name} :
      Opens header.length front →
      u.loads header = some (FileItem.header name (.int contents.length) (.int 0)) →
      Complete u rest tail → Complete u (front ++ (header ++ (contents ++ rest))) tail

/-- Complete records and the end tag. -/
def Terminated (u : Umsgpack) (s : Bytes) : Prop := ∃ rest, Complete u s (0::rest)

/-- Complete records, and then the end of the stream. -/
def Exact (u : Umsgpack) (s : Bytes) : Prop := Complete u s []

/-- The stream ends inside a header, of which the part that is there decodes to that of an empty
file. -/
def CutHeader (u : Umsgpack) (root : Path) (tail : Bytes) : Prop :=
  ∃ front n part item, Opens n front ∧ part.length < n ∧ tail = front ++ part ∧
    FileItem.loadFrom u part root = .ok item ∧ item.size.atMostZero = some true

/-- Complete records, and then a header that is cut like that. -/
def CutEmpty (u : Umsgpack) (root : Path) (s : Bytes) : Prop :=
  ∃ tail, Complete u s tail ∧ CutHeader u root tail

/-- What the headers of a stream may be. One that can be read in full is that of a plain file, which
is not larger than a file can be if all of it is there; a cut one names a plain file if it decodes
at all. -/
structure Receivable (u : Umsgpack) (root : Path) (s : Bytes) : Prop where
  full : ∀ {front header rest}, Complete u s (front ++ (header ++ rest)) →
    Opens header.length front → ∃ name : Name, ∃ n : ℕ, Entry name ∧
      u.loads header = some (FileItem.header name (.int n) (.int 0)) ∧
      (n ≤ rest.length → (n:ℤ) ≤ maxOffset)
  cut : ∀ {front part n item}, Complete u s (front ++ part) → Opens n front → part.length < n →
    FileItem.loadFrom u part root = .ok item → Entry item.name

theorem Opens.length {n : ℕ} {front : Bytes} (h : Opens n front) : front.length = 5 := by
  obtain ⟨tag,length,_,hl,rfl⟩ := h
  have : length.length = 4 := by
    by_contra hne
    rw [unpackUInt_eq_none.mpr hne] at hl
    cases hl
  simp [this]

theorem Opens.unique {n n' : ℕ} {front : Bytes} (h : Opens n front) (h' : Opens n' front) :
    n = n' := by
  obtain ⟨_,length,_,hl,rfl⟩ := h
  obtain ⟨_,_,_,hl',he⟩ := h'
  obtain ⟨_,rfl⟩ := List.cons.inj he
  exact Option.some.inj (hl.symm.trans hl')

theorem Opens.append_inj {n n' : ℕ} {front front' s s' : Bytes} (h : Opens n front)
    (h' : Opens n' front') (he : front ++ s = front' ++ s') : front = front' ∧ n = n' ∧ s = s' := by
  obtain ⟨rfl,rfl⟩ := List.append_inj he (h.length.trans h'.length.symm)
  exact ⟨rfl,h.unique h',rfl⟩

theorem Opens.ne_nil {n : ℕ} {front s : Bytes} (h : Opens n front) : front ++ s ≠ [] := by
  obtain ⟨_,_,_,_,rfl⟩ := h
  simp

theorem Opens.ne_zero {n : ℕ} {front s rest : Bytes} (h : Opens n front) :
    front ++ s ≠ 0::rest := by
  obtain ⟨tag,_,ht,_,rfl⟩ := h
  intro he
  exact ht (List.cons.inj he).1

namespace Complete

variable {u : Umsgpack} {s t tail : Bytes}

theorem trans (h : Complete u s t) (h' : Complete u t tail) : Complete u s tail := by
  induction h with
  | nil => exact h'
  | record hf hl _ ih => exact .record hf hl (ih h')

theorem eq_of_nil (h : Complete u [] tail) : tail = [] := by
  generalize hs : ([] : Bytes) = s at h
  cases h with
  | nil => rfl
  | record hf => exact absurd hs.symm hf.ne_nil

theorem eq_of_zero {rest : Bytes} (h : Complete u (0::rest) tail) : tail = 0::rest := by
  generalize hs : (0::rest : Bytes) = s at h
  cases h with
  | nil => rfl
  | record hf => exact absurd hs.symm hf.ne_zero

/-- Behind a stream that starts with the front of a record there is either nothing read of it, or
the whole record. -/
theorem cases_opens {n : ℕ} {front body : Bytes} (hf : Opens n front)
    (h : Complete u (front ++ body) tail) : tail = front ++ body ∨
      ∃ header contents rest : Bytes, ∃ name, header.length = n ∧
        body = header ++ (contents ++ rest) ∧
        u.loads header = some (FileItem.header name (.int contents.length) (.int 0)) ∧
        Complete u rest tail := by
  generalize hs : front ++ body = s at h
  cases h with
  | nil => exact .inl rfl
  | record hf' hl h' =>
    obtain ⟨rfl,rfl,rfl⟩ := hf.append_inj hf' hs
    exact .inr ⟨_,_,_,_,rfl,rfl,hl,h'⟩

/-- The same for a stream that starts with a record whose contents are as long as it says. -/
theorem cases_record {front header contents rest : Bytes} {name : Name}
    (hf : Opens header.length front)
    (hl : u.loads header = some (FileItem.header name (.int contents.length) (.int 0)))
    (h : Complete u (front ++ (header ++ (contents ++ rest))) tail) :
    tail = front ++ (header ++ (contents ++ rest)) ∨ Complete u rest tail := by
  rcases cases_opens hf h with h | ⟨header',contents',rest',name',hlen,hbody,hl',h'⟩
  · exact .inl h
  · obtain ⟨rfl,hrest⟩ := List.append_inj hbody hlen.symm
    rw [hl] at hl'
    have hc : contents.length = contents'.length := by
      simp only [FileItem.header, Option.some.injEq, Value.array.injEq, List.cons.injEq,
        Value.int.injEq] at hl'
      exact_mod_cast hl'.2.1
    obtain ⟨rfl,rfl⟩ := List.append_inj hrest hc
    exact .inr h'

end Complete

/-- Nothing, the end tag or a cut header: where receiving ends. -/
def Finishes (u : Umsgpack) (root : Path) (tail : Bytes) : Prop :=
  tail = [] ∨ (∃ rest, tail = 0::rest) ∨ CutHeader u root tail

/-- No complete record starts where receiving ends. -/
theorem Finishes.halts {u : Umsgpack} {root : Path} {s tail : Bytes} (h : Finishes u root s)
    (hc : Complete u s tail) : tail = s := by
  rcases h with rfl | ⟨rest,rfl⟩ | ⟨front,n,part,item,hf,hlt,rfl,_⟩
  · exact hc.eq_of_nil
  · exact hc.eq_of_zero
  · rcases hc.cases_opens hf with h | ⟨header,contents,rest,_,hlen,rfl,_⟩
    · exact h
    · rw [List.length_append] at hlt
      omega

/-- There is one place where receiving ends. -/
theorem Complete.unique {u : Umsgpack} (root : Path) {s t t' : Bytes} (h : Complete u s t)
    (h' : Complete u s t') (ht : Finishes u root t) (ht' : Finishes u root t') : t = t' := by
  induction h with
  | nil => exact (ht.halts h').symm
  | record hf hl _ ih =>
    rcases h'.cases_record hf hl with rfl | h'
    · exact ht'.halts (.record hf hl ‹_›)
    · exact ih h' ht

/-- The stream leads, over complete records, to where receiving ends. -/
def Arrives (u : Umsgpack) (root : Path) (s : Bytes) : Prop :=
  ∃ tail, Complete u s tail ∧ Finishes u root tail

section Arrives

variable {u : Umsgpack} {root : Path} {front header body rest : Bytes} {n : ℕ}

theorem arrives_nil : Arrives u root [] := ⟨[],.nil _,.inl rfl⟩

theorem arrives_zero : Arrives u root (0::rest) := ⟨0::rest,.nil _,.inr (.inl ⟨rest,rfl⟩)⟩

theorem not_arrives_short {tag : UInt8} (ht : tag ≠ 0) (hl : rest.length < 4) :
    ¬ Arrives u root (tag::rest) := by
  have hshort : ∀ {m front} {body : Bytes}, Opens m front → tag::rest ≠ front ++ body := by
    intro m front body hf he
    have := congrArg List.length he
    rw [List.length_append, hf.length, List.length_cons] at this
    omega
  rintro ⟨tail,hc,hfin⟩
  have htail : tail = tag::rest := by
    generalize hs : tag::rest = s at hc
    cases hc with
    | nil => rfl
    | record hf => exact absurd hs (hshort hf)
  subst htail
  rcases hfin with h | ⟨_,h⟩ | ⟨_,_,_,_,hf,_,h,_⟩
  · cases h
  · exact ht (List.cons.inj h).1
  · exact hshort hf h

/-- Receiving does not end in front of a header that is there in full. -/
theorem not_finishes_full (hf : Opens n front) (hn : n ≤ body.length) :
    ¬ Finishes u root (front ++ body) := by
  rintro (h | ⟨_,h⟩ | ⟨front',m,part,item,hf',hlt,h,_⟩)
  · exact hf.ne_nil h
  · exact hf.ne_zero h
  · obtain ⟨_,rfl,rfl⟩ := hf.append_inj hf' h
    omega

theorem arrives_record {contents : Bytes} {name : Name} (hf : Opens header.length front)
    (hl : u.loads header = some (FileItem.header name (.int contents.length) (.int 0))) :
    Arrives u root (front ++ (header ++ (contents ++ rest))) ↔ Arrives u root rest := by
  constructor
  · rintro ⟨tail,hc,hfin⟩
    rcases hc.cases_record hf hl with rfl | hc
    · exact absurd hfin (not_finishes_full hf (by simp))
    · exact ⟨tail,hc,hfin⟩
  · rintro ⟨tail,hc,hfin⟩
    exact ⟨tail,.record hf hl hc,hfin⟩

theorem not_arrives_incomplete {size : ℕ} {name : Name} (hf : Opens header.length front)
    (hl : u.loads header = some (FileItem.header name (.int size) (.int 0)))
    (hlt : rest.length < size) : ¬ Arrives u root (front ++ (header ++ rest)) := by
  rintro ⟨tail,hc,hfin⟩
  rcases hc.cases_opens hf with rfl | ⟨header',contents,rest',_,hlen,hbody,hl',_⟩
  · exact not_finishes_full hf (by simp) hfin
  · obtain ⟨rfl,rfl⟩ := List.append_inj hbody hlen.symm
    rw [hl] at hl'
    simp only [FileItem.header, Option.some.injEq, Value.array.injEq, List.cons.injEq,
      Value.int.injEq, Nat.cast_inj] at hl'
    rw [List.length_append] at hlt
    omega

theorem arrives_cut (hf : Opens n front) (hlt : body.length < n) :
    Arrives u root (front ++ body) ↔
      ∃ item, FileItem.loadFrom u body root = .ok item ∧ item.size.atMostZero = some true := by
  constructor
  · rintro ⟨tail,hc,hfin⟩
    have htail : tail = front ++ body := by
      rcases hc.cases_opens hf with h | ⟨header,_,_,_,rfl,rfl,_⟩
      · exact h
      · rw [List.length_append] at hlt
        omega
    subst htail
    rcases hfin with h | ⟨_,h⟩ | ⟨_,_,_,item,hf',_,h,hi,hsize⟩
    · exact absurd h hf.ne_nil
    · exact absurd h hf.ne_zero
    · obtain ⟨_,_,rfl⟩ := hf.append_inj hf' h
      exact ⟨item,hi,hsize⟩
  · rintro ⟨item,hi,hsize⟩
    exact ⟨_,.nil _,.inr (.inr ⟨front,n,body,item,hf,hlt,rfl,hi,hsize⟩)⟩

end Arrives

theorem Receivable.of_complete {u : Umsgpack} {root : Path} {s t : Bytes} (h : Receivable u root s)
    (hc : Complete u s t) : Receivable u root t where
  full := fun h' => h.full (hc.trans h')
  cut := fun h' => h.cut (hc.trans h')

/-- A receiver between two records, with its directory there and nothing to stop it, and with what is
left of a stream that is not cut and then ends. -/
structure World.Ready (w : World) (root : Path) (dir : Loc) (left : Bytes) : Prop where
  downloadPath : w.rx.downloadPath = root
  isDirectory : w.fs.IsDirectory root dir
  toStop : w.rx.toStop = false
  pending : w.source.pending = left
  ending : w.source.ending = .closed
  cut : w.source.cut = Cut.whole

theorem World.Ready.behind {w : World} {root : Path} {dir : Loc} {left : Bytes}
    (h : w.Ready root dir left) {s : Source UInt8} {n : ℕ} (hs : Behind w.source s n) :
    World.Ready { w with source := s } root dir (left.drop n) :=
  ⟨h.downloadPath,h.isDirectory,h.toStop,by rw [hs.pending, h.pending],hs.ending.trans h.ending,
    hs.cut.trans h.cut⟩

theorem receivable_nil (u : Umsgpack) (root : Path) : Receivable u root [] where
  full := fun h hf => absurd h.eq_of_nil hf.ne_nil
  cut := fun h hf => absurd h.eq_of_nil hf.ne_nil

theorem receivable_zero (u : Umsgpack) (root : Path) (rest : Bytes) :
    Receivable u root (0::rest) where
  full := fun h hf => absurd h.eq_of_zero hf.ne_zero
  cut := fun h hf => absurd h.eq_of_zero hf.ne_zero

theorem Receivable.record {u : Umsgpack} {root : Path} {front header contents rest : Bytes}
    {name : Name} (h : Receivable u root rest) (hname : Entry name)
    (hf : Opens header.length front)
    (hl : u.loads header = some (FileItem.header name (.int contents.length) (.int 0)))
    (hmax : (contents.length:ℤ) ≤ maxOffset) :
    Receivable u root (front ++ (header ++ (contents ++ rest))) where
  full := by
    intro front' header' rest' hc hf'
    rcases hc.cases_record hf hl with he | hc
    · obtain ⟨_,hlen,he⟩ := hf'.append_inj hf he
      obtain ⟨rfl,_⟩ := List.append_inj he hlen
      exact ⟨name,contents.length,hname,hl,fun _ => hmax⟩
    · exact h.full hc hf'
  cut := by
    intro front' part n item hc hf' hlt hi
    rcases hc.cases_record hf hl with he | hc
    · obtain ⟨_,rfl,rfl⟩ := hf'.append_inj hf he
      simp at hlt
    · exact h.cut hc hf' hlt hi

namespace Receiver

variable {u : Umsgpack} {w : World} {root : Path} {dir : Loc}

/-- Every read of a stream that is not cut gets what is left of it, up to what it asks for. -/
theorem recvFunc_take {left : Bytes} (h : w.Ready root dir left) (n : ℕ) :
    ∃ s, Behind w.source s n ∧ recvFunc n w = .done (left.take n) { w with source := s } := by
  by_cases hp : left = []
  · subst hp
    refine ⟨w.source.advance 0,⟨?_,rfl,rfl⟩,?_⟩
    · simp [h.pending]
    · simp [recvFunc, sockRecv, Source.recv_closed w.source n h.pending h.ending]
  · have hg := w.source.grant_whole h.cut n
    rw [h.pending] at hg
    refine ⟨w.source.advance (w.source.grant n),⟨?_,rfl,rfl⟩,?_⟩
    · rw [Source.advance_pending, h.pending, hg]
      rcases le_total n left.length with hn | hn
      · rw [min_eq_left hn]
      · rw [min_eq_right hn, List.drop_length, List.drop_of_length_le hn]
    · have hr := Source.recv_of_ne_nil w.source n (by rwa [h.pending])
      rw [h.pending, hg, ← List.take_eq_take_min] at hr
      rw [hg]
      simp [recvFunc, sockRecv, hr]

/-- The header, as far as it is there, is what decides about the item. -/
theorem recvFileItem_parsed {length body : Bytes} {n : ℕ} (hl : unpackUInt 4 length = some n)
    (h : w.Ready root dir (length ++ body)) :
    ∃ s, World.Ready { w with source := s } root dir (body.drop n) ∧
      recvFileItem u w =
        (Coro.ofExcept (FileItem.loadFrom u (body.take n) root) : Coro Exn World FileItem)
          { w with source := s } := by
  have hlen : length.length = 4 := by
    by_contra hne
    rw [unpackUInt_eq_none.mpr hne] at hl
    cases hl
  obtain ⟨s,hs,hr⟩ := recvFunc_take h 4
  have hready := h.behind hs
  rw [← hlen, List.take_left, hlen] at hr
  rw [← hlen, List.drop_left] at hready
  obtain ⟨s',hs',hr'⟩ := recvFunc_take hready n
  refine ⟨s',hready.behind hs',?_⟩
  simp only [recvFileItem, recvInt, Coro.bind_apply, Coro.tryCatch_apply, hr, Run.handle_done,
    Run.bind_done, hl, Coro.pure_apply, hr', Coro.get_apply, h.downloadPath]

/-- Without a whole length behind the tag the transfer fails. -/
theorem recvLoop_short {tag : UInt8} {tail : Bytes} (ht : tag ≠ 0) (hl : tail.length < 4)
    (h : w.Ready root dir (tag::tail)) : ∃ e w', recvLoop u w = .raised e w' := by
  obtain ⟨k,hk⟩ := recvFileOnce_short u { w with source := w.source.advance 1 } h.ending
    fun data w' hr => by
      have hlen := congrArg List.length (recvFunc_done hr).2.1
      rw [Source.advance_pending, h.pending, List.length_append] at hlen
      simp only [List.drop_one, List.tail_cons] at hlen
      omega
  rw [recvLoop_tagged h.toStop ht h.pending, hk]
  exact ⟨_,_,rfl⟩

theorem ready_tag {tag : UInt8} {tail : Bytes} (h : w.Ready root dir (tag::tail)) :
    World.Ready { w with source := w.source.advance 1 } root dir tail :=
  h.behind (n := 1) ⟨rfl,rfl,rfl⟩

/-- A header, whole or cut, that does not decode. -/
theorem recvLoop_undecoded {front body : Bytes} {n : ℕ} (hf : Opens n front)
    (h : w.Ready root dir (front ++ body)) {e : Exn}
    (he : FileItem.loadFrom u (body.take n) root = .error e) :
    ∃ e w', recvLoop u w = .raised e w' := by
  obtain ⟨tag,length,ht,hl,rfl⟩ := hf
  obtain ⟨s,_,hitem⟩ := recvFileItem_parsed (u := u) hl (ready_tag h)
  rw [he, Coro.ofExcept_error] at hitem
  obtain ⟨e,w',hr,_⟩ := recvLoop_fruitless h.toStop ht h.pending ⟨e,s,hitem⟩
  exact ⟨e,w',hr⟩

/-- A header, whole or cut, that decodes to an item. -/
theorem recvLoop_decoded {front body : Bytes} {n : ℕ} (hf : Opens n front)
    (h : w.Ready root dir (front ++ body)) {item : FileItem}
    (hi : FileItem.loadFrom u (body.take n) root = .ok item) :
    ∃ w', w'.Ready root dir (body.drop n) ∧
      recvLoop u w = (receiveItem item w').bind fun _ w'' => recvLoop u w'' := by
  obtain ⟨tag,length,ht,hl,rfl⟩ := hf
  obtain ⟨s,hs,hitem⟩ := recvFileItem_parsed (u := u) hl (ready_tag h)
  rw [hi, Coro.ofExcept_ok] at hitem
  refine ⟨_,hs,?_⟩
  have honce : recvFileOnce u { w with source := w.source.advance 1 } =
      receiveItem item { w with source := s } := by
    simp only [recvFileOnce, Coro.bind_apply, Coro.tryCatch_apply, hitem, Run.handle_done,
      Run.bind_done]
  rw [recvLoop_tagged h.toStop ht h.pending, honce]

/-- An empty item is touched, and the receiver is as ready as before. -/
theorem receiveItem_empty {left : Bytes} (h : w.Ready root dir left) {item : FileItem} {name : Name}
    (hp : item.path = root ++ [name]) (hname : Entry name)
    (hsize : item.size.atMostZero = some true) :
    ∃ w', w'.Ready root dir left ∧ receiveItem item w = .done () w' := by
  obtain ⟨fs',hhere,helse,hrun⟩ := receiveItem_touch h.isDirectory _ hp hname hsize
  refine ⟨{ w.append item with fs := fs' },
    ⟨h.downloadPath,?_,h.toStop,h.pending,h.ending,h.cut⟩,hrun⟩
  refine h.isDirectory.mono fun l hl => ?_
  by_cases he : l = name::dir
  · subst he
    rw [hhere, hl]
    rfl
  · rwa [helse l he]

/-- A limit that the progress bar takes is an integer. -/
theorem statusSetup_size {initialLimit finalLimit : Value}
    (h : statusSetup initialLimit finalLimit = .ok ())
    (hsize : finalLimit.atMostZero = some false) : 0 < finalLimit.int?.getD 0 := by
  cases finalLimit with
  | int n => simpa [Value.int?, Value.atMostZero] using hsize
  | bool b => simp_all [Value.int?, Value.atMostZero]
  | _ => simp [statusSetup, Value.int?] at h

/-- A position sought from an offset that equals zero. -/
theorem seek_isZero {seeked : Value} {position : ℕ} (h : seek seeked = .ok position)
    (hz : seeked.isZero = true) : position = 0 ∧ seeked.int?.getD 0 = 0 := by
  cases seeked with
  | int n =>
    obtain rfl : n = 0 := by simpa [Value.isZero] using hz
    simp_all [seek, Value.int?, maxOffset]
  | bool b =>
    obtain rfl : b = false := by simpa [Value.isZero] using hz
    simp_all [seek, Value.int?, maxOffset]
  | _ => simp [seek, Value.int?] at h

/-- With nothing left of the stream, the contents of a new file are not received. -/
theorem recvFileContents_missing (h : w.Ready root dir []) {item : FileItem} {new : Name}
    (hcur : w.rx.currentFile = some item) (hp : item.path = root ++ [new]) (hnew : Entry new)
    (hfree : w.fs.lookup (new::dir) = none)
    (hstatus : statusSetup item.seeked item.size = .ok ())
    (hsize : item.size.atMostZero = some false) :
    ∃ e w', finish (recvFileContents w) = .raised e w' := by
  have hnone := statusSetup_isPositive hstatus
  have hlong := statusSetup_size hstatus hsize
  have hlocate := locate_entry h.isDirectory hnew.ne_dotdot hnew.no_nul
  have hfound : w.fs.pathExists (root ++ [new]) = false := by
    rw [pathExists_entry h.isDirectory hnew.ne_dotdot hnew.no_nul, hfree]
    rfl
  by_cases hpos : item.seeked.isPositive = some true
  · have hrun : recvFileContents w = .raised .fileNotFound w := by
      simp [recvFileContents, current, hcur, hp, hfound, hpos]
    rw [hrun]
    exact finish_raised _ _
  · have hopen : recvFileContents w = (onDisk (if item.seeked.isZero then
        create item.path (.file []) else openExisting item.path) w).bind fun l w' =>
        ((Coro.ofExcept (seek item.seeked) : Coro Exn World ℕ) w').bind fun position w'' =>
          contentLoop l (calculateChunkSize (item.size.int?.getD 0)) position
            (item.size.int?.getD 0-position) w'' := by
      simp [recvFileContents, current, hcur, hpos, hnone]
      rfl
    rw [hopen]
    cases hz : item.seeked.isZero with
    | false =>
      have hfail : openExisting item.path w.fs = .raised .notFound w.fs := by
        simp [openExisting, hp, hlocate, hfree]
      simp only [Bool.false_eq_true, if_false, onDisk, Coro.zoom_apply, hfail, Run.within_raised,
        Run.bind_raised]
      exact finish_raised _ _
    | true =>
      obtain ⟨fs',hcreate,hput,_⟩ :=
        create_entry h.isDirectory hnew.ne_dotdot hnew.no_nul (.file []) hfree
      rw [← hp] at hcreate
      simp only [if_true, onDisk, Coro.zoom_apply, hcreate, Run.within_done, Run.bind_done]
      cases hseek : seek item.seeked with
      | error e => exact finish_raised _ _
      | ok position =>
        obtain ⟨rfl,hzero⟩ := seek_isZero hseek hz
        rw [Coro.ofExcept_ok, Run.bind_done]
        -- the first read of the contents already finds the end
        obtain ⟨s,_,hr⟩ := recvFunc_take (w := { w with fs := fs' })
          ⟨h.downloadPath,h.isDirectory.mono (hput.dirs (by simp [hfree])),h.toStop,h.pending,
            h.ending,h.cut⟩
          (min (calculateChunkSize (item.size.int?.getD 0)) (item.size.int?.getD 0-(0:ℕ)).toNat)
        rw [contentLoop_eq, if_pos (by simpa using hlong), hr]
        refine ⟨.transferIncomplete,{ w with fs := fs', source := s },?_⟩
        have hst : w.rx.toStop = false := h.toStop
        simp [finish, current, hcur, hzero, hlong, hst]

/-- With nothing left of the stream, an item that is not empty is not received. -/
theorem receiveItem_missing (h : w.Ready root dir []) {item : FileItem} {name : Name}
    (hp : item.path = root ++ [name]) (hname : Entry name)
    (hsize : item.size.atMostZero ≠ some true) :
    ∃ e w', receiveItem item w = .raised e w' := by
  cases hs : item.size.atMostZero with
  | none => exact ⟨.typeError,w.append item,by simp [receiveItem, hs]⟩
  | some b =>
    obtain rfl : b = false := by cases b <;> simp_all
    have hne : item.path ≠ [] := by simp [hp]
    rw [receiveItem_single hne hs]
    set new := validName w.fs w.rx.downloadPath item.path.name with hnew
    cases hstatus : statusSetup item.seeked item.size with
    | error e => exact ⟨e,_,rfl⟩
    | ok _ =>
      rw [Coro.ofExcept_ok, Run.bind_done]
      obtain ⟨hentry,hfree⟩ : Entry new ∧ w.fs.lookup (new::dir) = none := by
        simp only [hnew, hp, h.downloadPath, Path.name, List.getLast?_concat, Option.getD_some]
        exact validName_free h.isDirectory ⟨hname.no_slash,hname.no_nul⟩ hname.ne_dot
      refine recvFileContents_missing (w := opened w w.fs (item.renamed new))
        ⟨h.downloadPath,h.isDirectory,h.toStop,h.pending,h.ending,h.cut⟩ rfl ?_ hentry hfree hstatus
        hs
      simp [FileItem.renamed, hp, Path.parent]

/-- The loop comes to its end. -/
def Returns (u : Umsgpack) (w : World) : Prop := ∃ w', recvLoop u w = .done () w'

theorem returns_nil (h : w.Ready root dir []) : Returns u w :=
  ⟨{ w with source := w.source.advance 0 },by
    rw [recvLoop_eq, shouldProceed_closed w h.toStop h.pending h.ending]; rfl⟩

theorem returns_zero {rest : Bytes} (h : w.Ready root dir (0::rest)) : Returns u w :=
  ⟨{ w with source := w.source.advance 1 },by
    rw [recvLoop_eq, shouldProceed_tag w 0 rest h.toStop h.pending]; rfl⟩

theorem not_returns (h : ∃ e w', recvLoop u w = .raised e w') : ¬ Returns u w := by
  obtain ⟨e,w',h⟩ := h
  rintro ⟨w'',h'⟩
  rw [h] at h'
  cases h'

/-- The end of the stream inside a header. -/
theorem returns_cut {front body : Bytes} {n : ℕ} (hf : Opens n front) (hlt : body.length < n)
    (h : w.Ready root dir (front ++ body)) (hr : Receivable u root (front ++ body)) :
    Returns u w ↔
      ∃ item, FileItem.loadFrom u body root = .ok item ∧ item.size.atMostZero = some true := by
  have htake : body.take n = body := List.take_of_length_le hlt.le
  cases hi : FileItem.loadFrom u body root with
  | error e =>
    refine iff_of_false (not_returns (recvLoop_undecoded hf h (by rwa [htake]))) ?_
    rintro ⟨_,h,_⟩
    cases h
  | ok item =>
    have hentry := hr.cut (.nil _) hf hlt hi
    have hpath : item.path = root ++ [item.name] := by rw [FileItem.loadFrom_path hi, hentry.join_eq]
    obtain ⟨w₁,h₁,hrun⟩ := recvLoop_decoded (u := u) hf h (by rwa [htake])
    rw [List.drop_of_length_le hlt.le] at h₁
    by_cases hsize : item.size.atMostZero = some true
    · refine iff_of_true ?_ ⟨item,rfl,hsize⟩
      obtain ⟨w₂,h₂,hitem⟩ := receiveItem_empty h₁ hpath hentry hsize
      obtain ⟨w',hw'⟩ := returns_nil (u := u) h₂
      exact ⟨w',by rw [hrun, hitem, Run.bind_done, hw']⟩
    · refine iff_of_false ?_ ?_
      · obtain ⟨e,w₂,hitem⟩ := receiveItem_missing h₁ hpath hentry hsize
        exact not_returns ⟨e,w₂,by rw [hrun, hitem, Run.bind_raised]⟩
      · rintro ⟨_,h,hs⟩
        cases h
        exact hsize hs

/-- A plain file whose contents are all there. -/
theorem receiveItem_ready {name : Name} {contents rest : Bytes} (hname : Entry name)
    (hmax : (contents.length:ℤ) ≤ maxOffset) (h : w.Ready root dir (contents ++ rest)) :
    ∃ w', w'.Ready root dir rest ∧
      receiveItem (newItem root name contents.length 0) w = .done () w' := by
  rcases Nat.eq_zero_or_pos contents.length with h0 | hpos
  · obtain rfl := List.length_eq_zero_iff.mp h0
    exact receiveItem_empty h rfl hname rfl
  · have hdir : w.fs.IsDirectory w.rx.downloadPath dir := by rw [h.downloadPath]; exact h.isDirectory
    obtain ⟨new,w',ht,hb,hrun⟩ := receiveItem_complete hdir hname hpos hmax h.toStop
      (by rw [h.pending]; simp)
    rw [h.downloadPath] at hrun
    refine ⟨w',⟨ht.downloadPath.trans h.downloadPath,?_,ht.toStop.trans h.toStop,?_,
      hb.ending.trans h.ending,hb.cut.trans h.cut⟩,hrun⟩
    · have := ht.isDirectory hdir
      rwa [ht.downloadPath, h.downloadPath] at this
    · rw [hb.pending, h.pending, List.drop_left]

/-- A plain file whose contents are not all there. -/
theorem receiveItem_short {name : Name} {size : ℕ} {rest : Bytes} (hname : Entry name)
    (h : w.Ready root dir rest) (hlt : rest.length < size) :
    ∃ e w', receiveItem (newItem root name size 0) w = .raised e w' := by
  by_cases hmax : (size:ℤ) ≤ maxOffset
  · obtain ⟨_,w',_,hrun⟩ := receiveItem_closed (w := w) (n := size)
      (by rw [h.downloadPath]; exact h.isDirectory) hname hmax h.toStop (by rwa [h.pending]) h.ending
    rw [h.downloadPath] at hrun
    exact ⟨_,w',hrun⟩
  · -- no progress bar is that long
    have hsize : (newItem root name size 0).size.atMostZero = some false := by
      simp only [newItem, Value.atMostZero, Option.some.injEq, decide_eq_false_iff_not]
      omega
    have hstatus : statusSetup (newItem root name size 0).seeked (newItem root name size 0).size =
        .error .overflowError := by
      simp [statusSetup, newItem, Value.int?, not_le.mp hmax]
    rw [receiveItem_single (by simp [newItem]) hsize, hstatus]
    exact ⟨_,_,rfl⟩

/-- A header that is there in full. -/
theorem returns_full {front header rest : Bytes} (hf : Opens header.length front)
    (h : w.Ready root dir (front ++ (header ++ rest)))
    (hr : Receivable u root (front ++ (header ++ rest)))
    (ih : ∀ rest' w', rest'.length ≤ rest.length → w'.Ready root dir rest' →
      Receivable u root rest' → (Returns u w' ↔ Arrives u root rest')) :
    Returns u w ↔ Arrives u root (front ++ (header ++ rest)) := by
  obtain ⟨name,size,hentry,hloads,hmax⟩ := hr.full (.nil _) hf
  have hitem : FileItem.loadFrom u ((header ++ rest).take header.length) root =
      .ok (newItem root name size 0) := by
    rw [List.take_left, FileItem.loadFrom_header u hloads, hentry.join_eq]
    rfl
  obtain ⟨w₁,h₁,hrun⟩ := recvLoop_decoded hf h hitem
  rw [List.drop_left] at h₁
  by_cases hlen : size ≤ rest.length
  · obtain ⟨contents,rest',rfl,rfl⟩ : ∃ contents rest', rest = contents ++ rest' ∧
        contents.length = size :=
      ⟨rest.take size,rest.drop size,(List.take_append_drop _ _).symm,by simp [hlen]⟩
    obtain ⟨w₂,h₂,hdone⟩ := receiveItem_ready hentry (hmax hlen) h₁
    have hnext : recvLoop u w = recvLoop u w₂ := by rw [hrun, hdone, Run.bind_done]
    rw [arrives_record hf hloads, ← ih rest' w₂ (by simp) h₂
      (hr.of_complete (.record hf hloads (.nil _)))]
    simp only [Returns, hnext]
  · refine iff_of_false ?_ (not_arrives_incomplete hf hloads (by omega))
    obtain ⟨e,w₂,hraise⟩ := receiveItem_short hentry h₁ (not_le.mp hlen)
    exact not_returns ⟨e,w₂,by rw [hrun, hraise, Run.bind_raised]⟩

/-- From between two records the loop comes to its end exactly if the stream leads to one. -/
theorem returns_iff_arrives (s : Bytes) (w : World) (h : w.Ready root dir s)
    (hr : Receivable u root s) : Returns u w ↔ Arrives u root s := by
  match s with
  | [] => exact iff_of_true (returns_nil h) arrives_nil
  | tag::t =>
    by_cases ht : tag = 0
    · subst ht
      exact iff_of_true (returns_zero h) arrives_zero
    by_cases hl : t.length < 4
    · exact iff_of_false (not_returns (recvLoop_short ht hl h)) (not_arrives_short ht hl)
    have hf : Opens (ofNetworkOrder (t.take 4)) (tag::t.take 4) :=
      ⟨tag,t.take 4,ht,by simp [unpackUInt]; omega,rfl⟩
    have hs : tag::t = (tag::t.take 4) ++ t.drop 4 := by simp
    rw [hs] at h hr ⊢
    by_cases hlt : (t.drop 4).length < ofNetworkOrder (t.take 4)
    · rw [returns_cut hf hlt h hr, arrives_cut hf hlt]
    · obtain ⟨header,rest,hbody,hlen⟩ : ∃ header rest, t.drop 4 = header ++ rest ∧
          header.length = ofNetworkOrder (t.take 4) :=
        ⟨_,_,(List.take_append_drop (ofNetworkOrder (t.take 4)) _).symm,by
          rw [List.length_take]; omega⟩
      rw [← hlen] at hf
      rw [hbody] at h hr ⊢
      have hshorter : rest.length < (tag::t).length := by
        rw [hs, hbody, List.length_append, List.length_append, hf.length]
        omega
      exact returns_full hf h hr fun rest' w' hle h' hr' => returns_iff_arrives rest' w' h' hr'
termination_by s.length
decreasing_by exact lt_of_le_of_lt hle hshorter

end Receiver

/-- `recv_files` ends with the state COMPLETED. -/
def Completed (u : Umsgpack) (d : DownloadDirectory) (s : Bytes) : Prop :=
  (recvFiles u (World.start d.path d.fs s .closed Cut.whole)).state.rx.state = .completed

theorem completed_iff_returns (u : Umsgpack) (d : DownloadDirectory) (s : Bytes) :
    Completed u d s ↔
      Returns u ((World.start d.path d.fs s .closed Cut.whole).setState .receiving) := by
  set w := (World.start d.path d.fs s .closed Cut.whole).setState .receiving with hw
  have hne : (recvLoop u w).state.rx.state ≠ .completed := by
    have hstart : w.rx.state = .receiving := rfl
    rcases (progress_recvLoop u w).state with h | h <;> simp [h, hstart]
  unfold Completed Returns
  rw [recvFiles_eq _ _ rfl, ← hw]
  cases hrun : recvLoop u w with
  | done _ w' => exact iff_of_true rfl ⟨w',rfl⟩
  | raised e w' =>
    rw [hrun] at hne
    exact iff_of_false hne (by simp)
  | blocked w' =>
    rw [hrun] at hne
    exact iff_of_false hne (by simp)

/-- Receiving completes on terminated streams alone, exactly as long as the stream does not end
between two records, or inside a header that already reads as that of an empty file: the end of the
stream and the end tag look the same. -/
theorem completed_iff_terminated_iff (u : Umsgpack) (d : DownloadDirectory) (s : Bytes)
    (hr : Receivable u d.path s) :
    (Completed u d s ↔ Terminated u s) ↔ ¬ (Exact u s ∨ CutEmpty u d.path s) := by
  have hready : World.Ready ((World.start d.path d.fs s .closed Cut.whole).setState .receiving)
      d.path d.loc s := ⟨rfl,d.isDirectory,rfl,rfl,rfl,rfl⟩
  rw [completed_iff_returns, returns_iff_arrives s _ hready hr]
  constructor
  · rintro h (he | ⟨tail,hc,hcut⟩)
    · obtain ⟨rest,hz⟩ := h.mp ⟨[],he,.inl rfl⟩
      cases he.unique d.path hz (.inl rfl) (.inr (.inl ⟨rest,rfl⟩))
    · obtain ⟨rest,hz⟩ := h.mp ⟨tail,hc,.inr (.inr hcut)⟩
      obtain rfl := hc.unique d.path hz (.inr (.inr hcut)) (.inr (.inl ⟨rest,rfl⟩))
      obtain ⟨_,_,_,_,hf,_,he,_⟩ := hcut
      exact hf.ne_zero he.symm
  · intro h
    constructor
    · rintro ⟨tail,hc,rfl | ⟨rest,rfl⟩ | hcut⟩
      · exact absurd (.inl hc) h
      · exact ⟨rest,hc⟩
      · exact absurd (.inr ⟨tail,hc,hcut⟩) h
    · rintro ⟨rest,hc⟩
      exact ⟨_,hc,.inr (.inl ⟨rest,rfl⟩)⟩

/-- The record of a file `a` of one byte, and what follows it. -/
def recordA (rest : Bytes) : Bytes := [1,0,0,0,5] ++ ([0x93,0xa1,0x61,1,0] ++ ([7] ++ rest))

theorem opensA : Opens 5 [1,0,0,0,5] := ⟨1,[0,0,0,5],by decide,by decide,rfl⟩

theorem loadsA : codecA.loads [0x93,0xa1,0x61,1,0] =
    some (FileItem.header ['a'] (.int ([7] : Bytes).length) (.int 0)) := rfl

theorem receivable_recordA {root : Path} {rest : Bytes} (h : Receivable codecA root rest) :
    Receivable codecA root (recordA rest) :=
  h.record (by constructor <;> decide) opensA loadsA (by decide)

/-- With its end tag the record completes the transfer. -/
theorem completed_recordA_iff :
    (Completed codecA bareDirectory (recordA [0]) ↔ Terminated codecA (recordA [0])) ↔
      ¬ (Exact codecA (recordA [0]) ∨ CutEmpty codecA [] (recordA [0])) :=
  completed_iff_terminated_iff codecA bareDirectory (recordA [0])
    (receivable_recordA (receivable_zero codecA _ []))

/-- The connection is closed after the record, without the end tag: the transfer completes all the
same. -/
theorem completed_unterminated :
    ¬ ∀ (u : Umsgpack) (d : DownloadDirectory) (s : Bytes), Receivable u d.path s →
      (Completed u d s ↔ Terminated u s) := by
  intro h
  have hr : Receivable codecA [] (recordA []) := receivable_recordA (receivable_nil codecA _)
  have hexact : Complete codecA (recordA []) [] := .record opensA loadsA (.nil [])
  have hready : World.Ready ((World.start [] .bare (recordA []) .closed Cut.whole).setState
      .receiving) [] [] (recordA []) := ⟨rfl,bareDirectory.isDirectory,rfl,rfl,rfl,rfl⟩
  have hcompleted : Completed codecA bareDirectory (recordA []) :=
    (completed_iff_returns _ _ _).mpr
      ((returns_iff_arrives _ _ hready hr).mpr ⟨[],hexact,.inl rfl⟩)
  obtain ⟨rest,hz⟩ := (h codecA bareDirectory (recordA []) hr).mp hcompleted
  cases hexact.unique [] hz (.inl rfl) (.inr (.inl ⟨rest,rfl⟩))

end PeerConnect.Transfers
