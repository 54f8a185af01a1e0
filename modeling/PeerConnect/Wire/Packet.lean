import PeerConnect.Wire.Value
import PeerConnect.Library.Source

/-! Packets on the wire: `WireData`, its length-prefixed framing on a stream and its datagram
form. -/
namespace PeerConnect.Wire
open Library

/-- `sock_recv`, as both `connect.Receiver` and `Socket.arecv` call it. -/
def sockRecv (n : ℕ) : Coro Exn (Source UInt8) Bytes :=
  Coro.zoom id (fun s _ => s) (fun _ => .connectionReset) (Source.recv n)

/-- What one call gets is the next stretch of the stream. -/
theorem sockRecv_done {n : ℕ} {data : Bytes} {s t : Source UInt8} (h : sockRecv n s = .done data t) :
    t = s.advance data.length ∧ s.pending = data ++ s.pending.drop data.length ∧ data.length ≤ n := by
  obtain ⟨t',hr,rfl⟩ := Coro.zoom_done h
  rcases s.recv_cases n with ⟨xs,hx,_,hp,hl,_⟩ | ⟨_,⟨_,hx⟩ | ⟨_,_,hx⟩ | ⟨_,_,hx⟩⟩
  · cases hx.symm.trans hr
    exact ⟨rfl,hp,hl⟩
  · cases hx.symm.trans hr
    exact ⟨rfl,by simp,Nat.zero_le _⟩
  · cases hx.symm.trans hr
  · cases hx.symm.trans hr

/-- One call that asks for nothing. -/
theorem sockRecv_zero (s : Source UInt8) : sockRecv 0 s = .done [] (s.advance 0) := by
  simp [sockRecv, s.recv_zero]

/-- One call on a stream that is not used up. -/
theorem sockRecv_of_ne_nil (s : Source UInt8) (n : ℕ) (hp : s.pending ≠ []) :
    sockRecv n s = .done (s.pending.take (s.grant n)) (s.advance (s.grant n)) := by
  simp [sockRecv, s.recv_of_ne_nil n hp]

structure WireData where
  header : Value
  id : Value
  version : Value
  body : List (List Char × Value)
  peerId : Value

namespace WireData

/-- The positional parameters of the constructor, which no keyword may repeat. -/
def parameters : List (List Char) :=
  ["self".toList,"header".toList,"msg_id".toList,"peer_id".toList,"version".toList]

/-- A value as the keyword arguments of the constructor; anything else is a `TypeError`. -/
def keywords : Value → Option (List (List Char × Value))
  | .map kvs => kvs.mapM fun
    | (.str k,v) => if k ∈ parameters then none else some (k,v)
    | _ => none
  | _ => none

def loadFrom (u : Umsgpack) (data : Bytes) : Except Exn WireData :=
  match u.loads data with
  | none => .error .invalidPacket
  | some listOfAttributes =>
    match listOfAttributes.unpack 5 with
    | .ok ⟨[header,id,version,body,peerId],_⟩ =>
      match keywords body with
      | some kwargs => .ok ⟨header,id,version,kwargs,peerId⟩
      | none => .error .typeError
    | .error .valueError => .error .invalidPacket
    | .error e => .error e

def toBytes (u : Umsgpack) (w : WireData) : Option Bytes :=
  u.dumps (.array [w.header,w.id,w.version,.map (w.body.map fun kv => (.str kv.1,kv.2)),w.peerId])

/-- The keys of a body are what the constructor takes. -/
def Admissible (w : WireData) : Prop := ∀ kv ∈ w.body, kv.1 ∉ parameters

theorem keywords_map {body : List (List Char × Value)} (h : ∀ kv ∈ body, kv.1 ∉ parameters) :
    keywords (.map (body.map fun kv => (.str kv.1,kv.2))) = some body := by
  induction body with
  | nil => rfl
  | cons kv body ih =>
    have ht := ih fun kv' hm => h kv' (List.mem_cons_of_mem _ hm)
    simp only [keywords] at ht
    simp only [keywords, List.map_cons, List.mapM_cons, if_neg (h kv List.mem_cons_self), ht]
    rfl

/-- A body that is taken for keyword arguments repeats no parameter. -/
theorem keywords_map_eq_some {body kwargs : List (List Char × Value)}
    (h : keywords (.map (body.map fun kv => (.str kv.1,kv.2))) = some kwargs) :
    ∀ kv ∈ body, kv.1 ∉ parameters := by
  induction body generalizing kwargs with
  | nil => exact fun kv hkv => nomatch hkv
  | cons kv body ih =>
    simp only [keywords, List.map_cons, List.mapM_cons] at h
    obtain ⟨first,hf,h⟩ := Option.bind_eq_some_iff.mp h
    obtain ⟨others,ho,h⟩ := Option.bind_eq_some_iff.mp h
    intro kv' hkv
    rcases List.mem_cons.mp hkv with rfl | hkv
    · split at hf
      · cases hf
      · assumption
    · exact ih ho kv' hkv

/-- A packet that was packed is read back as it was. -/
theorem loadFrom_toBytes (u : Umsgpack) {w : WireData} {bs : Bytes} (hw : w.Admissible)
    (h : w.toBytes u = some bs) : loadFrom u bs = .ok w := by
  simp [loadFrom, u.loads_dumps h, Value.unpack, Value.elements, keywords_map hw]

/-- A packet that was packed is read back as it was exactly if the constructor takes its body. -/
theorem loadFrom_toBytes_iff (u : Umsgpack) {w : WireData} {bs : Bytes}
    (h : w.toBytes u = some bs) : loadFrom u bs = .ok w ↔ w.Admissible := by
  refine ⟨fun hl => ?_,fun hw => loadFrom_toBytes u hw h⟩
  simp only [loadFrom, u.loads_dumps h, Value.unpack, Value.elements] at hl
  cases hk : keywords (.map (w.body.map fun kv => (.str kv.1,kv.2))) with
  | none => simp [hk] at hl
  | some kwargs => exact keywords_map_eq_some hk

theorem eq_of_loadFrom_toBytes {u : Umsgpack} {w w' : WireData} {bs : Bytes}
    (h : w.toBytes u = some bs) (hl : loadFrom u bs = .ok w') : w' = w := by
  cases hk : keywords (.map (w.body.map fun kv => (.str kv.1,kv.2))) with
  | none => simp [loadFrom, u.loads_dumps h, Value.unpack, Value.elements, hk] at hl
  | some kwargs =>
    rw [loadFrom_toBytes u (keywords_map_eq_some hk) h] at hl
    exact (Except.ok.inj hl).symm

/-- The exceptions `load_from` can end with. -/
theorem loadFrom_error {u : Umsgpack} {data : Bytes} {e : Exn} (h : loadFrom u data = .error e) :
    e = .invalidPacket ∨ e = .typeError := by
  unfold loadFrom at h
  split at h
  · cases h; exact .inl rfl
  · split at h
    · split at h
      · cases h
      · cases h; exact .inr rfl
    · cases h; exact .inl rfl
    next e' hne he =>
      cases h
      exact .inr ((Value.unpack_error he).resolve_right hne)

end WireData

/-- Peeking at the socket: there is something to read, or nothing yet. -/
def isSocketConnected (s : Source UInt8) : Bool := s.pending ≠ [] ∨ s.ending = .silent

namespace Frame

def receiveAsync : Coro Exn (Source UInt8) Bytes := do
  let size ← sockRecv 4
  match unpackUInt 4 size with
  | some dataSize => sockRecv dataSize
  | none =>
    let connected ← Coro.get isSocketConnected
    if connected then Coro.raise .structError else Coro.raise .osError

def loadDatagram (payload : Bytes) : Except Exn Bytes :=
  match unpackUInt 4 (payload.take 4) with
  | some dataSize => .ok ((payload.drop 4).take dataSize)
  | none => .error .structError

end Frame

/-- Once all of the length has been read, one more read gets the data. -/
theorem Frame.receiveAsync_whole {s : Source UInt8} (hp : s.pending ≠ []) (hg : s.grant 4 = 4) :
    Frame.receiveAsync s = sockRecv (ofNetworkOrder (s.pending.take 4)) (s.advance 4) := by
  have hl := s.grant_le_length 4
  rw [hg] at hl
  have hu : unpackUInt 4 (s.pending.take 4) = some (ofNetworkOrder (s.pending.take 4)) := by
    simp [unpackUInt, hl]
  simp only [Frame.receiveAsync, Coro.bind_apply, sockRecv_of_ne_nil s 4 hp, hg, Run.bind_done, hu]

/-- A part of the length is no length. -/
theorem Frame.receiveAsync_cut {s : Source UInt8} (hp : s.pending ≠ []) (hg : s.grant 4 ≠ 4) :
    Frame.receiveAsync s =
      .raised (if isSocketConnected (s.advance (s.grant 4)) then .structError else .osError)
        (s.advance (s.grant 4)) := by
  have hu : unpackUInt 4 (s.pending.take (s.grant 4)) = none := by
    rw [unpackUInt_eq_none, List.length_take, min_eq_left (s.grant_le_length 4)]
    exact hg
  simp only [Frame.receiveAsync, Coro.bind_apply, sockRecv_of_ne_nil s 4 hp, Run.bind_done, hu,
    Coro.get_apply, Coro.ite_apply, Coro.raise_apply]
  split <;> rfl

/-- Whatever is wrong with a datagram, the caller sees an `InvalidPacket`. -/
def unpackDatagram (u : Umsgpack) (payload : Bytes) : Except Exn WireData :=
  match Frame.loadDatagram payload with
  | .error .structError => .error .invalidPacket
  | .error e => .error e
  | .ok data =>
    match WireData.loadFrom u data with
    | .ok w => .ok w
    | .error .unpackException => .error .invalidPacket
    | .error .typeError => .error .invalidPacket
    | .error .structError => .error .invalidPacket
    | .error e => .error e

/-- A length and as many bytes are a datagram with these bytes. -/
theorem Frame.loadDatagram_append {size data : Bytes} (h : packUInt 4 data.length = some size) :
    Frame.loadDatagram (size ++ data) = .ok data := by
  have hlen := packUInt_length h
  simp only [Frame.loadDatagram, List.take_left' hlen, List.drop_left' hlen, unpackUInt_pack h,
    List.take_length]

theorem unpackDatagram_ok_iff {u : Umsgpack} {payload : Bytes} {w : WireData} :
    unpackDatagram u payload = .ok w ↔
      ∃ data, Frame.loadDatagram payload = .ok data ∧ WireData.loadFrom u data = .ok w := by
  unfold unpackDatagram
  cases hl : Frame.loadDatagram payload with
  | error e => cases e <;> simp
  | ok data =>
    cases hw : WireData.loadFrom u data with
    | error e => cases e <;> simp [hw]
    | ok w' => simp [hw]

theorem unpackDatagram_error {u : Umsgpack} {payload : Bytes} {e : Exn}
    (h : unpackDatagram u payload = .error e) : e = .invalidPacket := by
  unfold unpackDatagram at h
  split at h
  · cases h; rfl
  next e' _ he =>
    unfold Frame.loadDatagram at he
    split at he
    · cases he
    · cases he; simp_all
  next data _ =>
    split at h
    · cases h
    · cases h; rfl
    · cases h; rfl
    · cases h; rfl
    next e' _ _ _ he =>
      cases h
      rcases WireData.loadFrom_error he with rfl | rfl
      · rfl
      · simp_all

end PeerConnect.Wire
