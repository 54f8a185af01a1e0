import PeerConnect.Library.Dict
import PeerConnect.Wire.Packet

/-! Which bytes are taken for a packet, and which packets are read back as they are. -/
namespace PeerConnect.Wire
open Library

/-- The keys of a dictionary have a hash, so that no dictionary is the key of another. -/
def Umsgpack.HashableKeys (u : Umsgpack) : Prop :=
  ∀ bs kvs, u.loads bs = some (.map kvs) → ∀ kv ∈ kvs, ∀ entries, kv.1 ≠ .map entries

namespace WireData

/-- Every key is a string, and none is a parameter of the constructor. -/
def AreKeywords (kvs : List (Value × Value)) : Prop := ∀ kv ∈ kvs, ∃ k, kv.1 = .str k ∧ k ∉ parameters

theorem areKeywords_of_keywords {kvs : List (Value × Value)} {kwargs : List (List Char × Value)}
    (h : keywords (.map kvs) = some kwargs) : AreKeywords kvs := by
  induction kvs generalizing kwargs with
  | nil => exact List.forall_mem_nil _
  | cons kv kvs ih =>
    simp only [keywords, List.mapM_cons] at h
    obtain ⟨first,hf,h⟩ := Option.bind_eq_some_iff.mp h
    obtain ⟨others,ho,_⟩ := Option.bind_eq_some_iff.mp h
    refine List.forall_mem_cons.mpr ⟨?_,ih ho⟩
    split at hf
    next k v =>
      split at hf
      · cases hf
      next hk => exact ⟨k,rfl,hk⟩
    · cases hf

theorem keywords_of_areKeywords {kvs : List (Value × Value)} (h : AreKeywords kvs) :
    ∃ kwargs, keywords (.map kvs) = some kwargs := by
  have hbody : ∃ body : List (List Char × Value), kvs = body.map (fun kv => (.str kv.1,kv.2)) ∧
      ∀ kv ∈ body, kv.1 ∉ parameters := by
    induction kvs with
    | nil => exact ⟨[],rfl,List.forall_mem_nil _⟩
    | cons kv kvs ih =>
      obtain ⟨⟨k,hk,hp⟩,hrest⟩ := List.forall_mem_cons.mp h
      obtain ⟨body,rfl,hbody⟩ := ih hrest
      refine ⟨(k,kv.2)::body,?_,List.forall_mem_cons.mpr ⟨hp,hbody⟩⟩
      rw [List.map_cons, ← hk]
  obtain ⟨body,rfl,hbody⟩ := hbody
  exact ⟨body,keywords_map hbody⟩

/-- Of all that can be unpacked into five, only a list has a dictionary in its fourth place. -/
theorem eq_array_of_unpack {u : Umsgpack} (hkeys : u.HashableKeys) {data : Bytes} {v : Value}
    (hv : u.loads data = some v) {header id version peerId : Value} {kvs : List (Value × Value)}
    (h : v.elements = some [header,id,version,.map kvs,peerId]) :
    v = .array [header,id,version,.map kvs,peerId] := by
  cases v with
  | array xs => rw [Option.some.inj h]
  | str s =>
    have hmem : Value.map kvs ∈ s.map fun c => Value.str [c] := by rw [Option.some.inj h]; simp
    obtain ⟨c,_,hc⟩ := List.mem_map.mp hmem
    cases hc
  | bin b =>
    have hmem : Value.map kvs ∈ b.map fun x => Value.int x.toNat := by rw [Option.some.inj h]; simp
    obtain ⟨x,_,hx⟩ := List.mem_map.mp hmem
    cases hx
  | map entries =>
    have hmem : Value.map kvs ∈ entries.map Prod.fst := by rw [Option.some.inj h]; simp
    obtain ⟨kv,hkv,hk⟩ := List.mem_map.mp hmem
    exact absurd hk (hkeys data entries hv kv hkv kvs)
  | _ => cases h

/-- What is read as a packet is a list of five with keyword arguments in its fourth place. -/
theorem loadFrom_ok_iff {u : Umsgpack} (hkeys : u.HashableKeys) {data : Bytes} :
    (∃ w, loadFrom u data = .ok w) ↔ ∃ header id version kvs peerId,
      u.loads data = some (.array [header,id,version,.map kvs,peerId]) ∧ AreKeywords kvs := by
  constructor
  · rintro ⟨w,h⟩
    unfold loadFrom at h
    split at h
    · cases h
    next v hv =>
      split at h
      next header id version body peerId _ hxs =>
        split at h
        next kwargs hk =>
          cases body with
          | map kvs =>
            have harray := eq_array_of_unpack hkeys hv (Value.unpack_ok hxs)
            exact ⟨header,id,version,kvs,peerId,by rw [hv, harray],areKeywords_of_keywords hk⟩
          | _ => cases hk
        · cases h
      · cases h
      · cases h
  · rintro ⟨header,id,version,kvs,peerId,hv,hk⟩
    obtain ⟨kwargs,hk⟩ := keywords_of_areKeywords hk
    exact ⟨⟨header,id,version,kwargs,peerId⟩,by simp [loadFrom, hv, Value.unpack, Value.elements, hk]⟩

end WireData

theorem Frame.loadDatagram_ok_iff {payload data : Bytes} : Frame.loadDatagram payload = .ok data ↔
    4 ≤ payload.length ∧ data = (payload.drop 4).take (ofNetworkOrder (payload.take 4)) := by
  have hlen : (payload.take 4).length = 4 ↔ 4 ≤ payload.length := by rw [List.length_take]; omega
  rw [Frame.loadDatagram, unpackUInt]
  split
  next n hn =>
    split at hn
    next h4 =>
      cases hn
      rw [Except.ok.injEq, eq_comm, and_iff_right (hlen.mp h4)]
    · cases hn
  next hn =>
    split at hn
    · cases hn
    next h4 => exact iff_of_false (fun h => by cases h) fun h => h4 (hlen.mpr h.1)

/-- Unpacking a datagram ends with a packet or with an `InvalidPacket`, and with a packet exactly for a
whole length in front of a list of five with keyword arguments in its fourth place. -/
theorem unpackDatagram_total (u : Umsgpack) (hkeys : u.HashableKeys) (payload : Bytes) :
    ((∃ w, unpackDatagram u payload = .ok w) ∨ unpackDatagram u payload = .error .invalidPacket) ∧
    ((∃ w, unpackDatagram u payload = .ok w) ↔
      4 ≤ payload.length ∧ ∃ header id version kvs peerId,
        u.loads ((payload.drop 4).take (ofNetworkOrder (payload.take 4))) =
          some (.array [header,id,version,.map kvs,peerId]) ∧
        ∀ kv ∈ kvs, ∃ k, kv.1 = .str k ∧ k ∉ WireData.parameters) := by
  constructor
  · cases h : unpackDatagram u payload with
    | ok w => exact .inl ⟨w,rfl⟩
    | error e => exact .inr (congrArg _ (unpackDatagram_error h))
  · simp only [unpackDatagram_ok_iff, Frame.loadDatagram_ok_iff]
    constructor
    · rintro ⟨w,_,⟨h4,rfl⟩,hw⟩
      exact ⟨h4,(WireData.loadFrom_ok_iff hkeys).mp ⟨w,hw⟩⟩
    · rintro ⟨h4,hload⟩
      obtain ⟨w,hw⟩ := (WireData.loadFrom_ok_iff hkeys).mpr hload
      exact ⟨w,_,⟨h4,rfl⟩,hw⟩

namespace WireData

/-- `WireData(header, msg_id, peer_id, version, **kwargs)` -/
def construct (header msgId peerId version : Value) (kwargs : Dict (List Char) Value) :
    Except Exn WireData :=
  match keywords (.map (kwargs.map fun kv => (.str kv.1,kv.2))) with
  | some kwargs => .ok ⟨header,msgId,version,kwargs,peerId⟩
  | none => .error .typeError

/-- `w[key] = value` -/
def setitem (w : WireData) (item : List Char × Value) : WireData :=
  { w with body := Dict.set item.1 item.2 w.body }

def setItems (w : WireData) (items : List (List Char × Value)) : WireData := items.foldl setitem w

theorem setItems_eq (w : WireData) (items : List (List Char × Value)) :
    w.setItems items = { w with body := Dict.update w.body items } := by
  induction items generalizing w with
  | nil => rfl
  | cons item items ih => exact ih (w.setitem item)

theorem admissible_of_construct {header msgId peerId version : Value} {kwargs : Dict (List Char) Value}
    {w : WireData} (h : construct header msgId peerId version kwargs = .ok w) : w.Admissible := by
  unfold construct at h
  split at h
  next kwargs' hk =>
    have hadm := keywords_map_eq_some hk
    rw [keywords_map hadm] at hk
    cases hk
    cases h
    exact hadm
  · cases h

theorem admissible_iff {w : WireData} : w.Admissible ↔ ∀ k ∈ Dict.keys w.body, k ∉ parameters := by
  rw [Admissible, Dict.keys, List.forall_mem_map]

/-- A packet that has been constructed and then changed is read back as it is exactly if no key that has
been set is a parameter of the constructor. -/
theorem changed_round_trip_iff (u : Umsgpack) {header msgId peerId version : Value}
    {kwargs : Dict (List Char) Value} {w : WireData} {bs : Bytes}
    (hw : construct header msgId peerId version kwargs = .ok w) (items : List (List Char × Value))
    (hb : (w.setItems items).toBytes u = some bs) :
    loadFrom u bs = .ok (w.setItems items) ↔ ∀ item ∈ items, item.1 ∉ parameters := by
  have hadm := admissible_iff.mp (admissible_of_construct hw)
  have hitems : (∀ k ∈ Dict.keys items, k ∉ parameters) ↔ ∀ item ∈ items, item.1 ∉ parameters :=
    List.forall_mem_map
  rw [loadFrom_toBytes_iff u hb, admissible_iff, setItems_eq, ← hitems]
  simp only [Dict.mem_keys_update]
  exact ⟨fun h k hk => h k (.inr hk),fun h k hk => hk.elim (hadm k) (h k)⟩

/-- `_version` -/
def wireVersion : Value := .float (.finite 1)

/-- `WireData()` with one item in its body. -/
def withItem (k : List Char) : WireData := ⟨.nil,.nil,wireVersion,[(k,.nil)],.nil⟩

def isWithItem (k : List Char) : Value → Bool
  | .array [.nil,.nil,.float (.finite v),.map [(.str k',.nil)],.nil] => v = 1 ∧ k' = k
  | _ => false

theorem eq_of_isWithItem {k : List Char} {v : Value} (h : isWithItem k v = true) :
    v = .array [.nil,.nil,wireVersion,.map [(.str k,.nil)],.nil] := by
  unfold isWithItem at h
  split at h
  · obtain ⟨rfl,rfl⟩ := of_decide_eq_true h
    rfl
  · cases h

/-- The packed form, for a short key of ASCII letters. -/
def itemBytes (k : List Char) : Bytes :=
  [0x95,0xc0,0xc0,0xcb,0x3f,0xf0,0,0,0,0,0,0,0x81,0xa0+UInt8.ofNat k.length] ++
    k.map (fun c => UInt8.ofNat c.toNat) ++ [0xc0,0xc0]

/-- A package that knows this packet alone. -/
def oneItem (k : List Char) : Umsgpack := Umsgpack.single
  (.array [.nil,.nil,wireVersion,.map [(.str k,.nil)],.nil]) (itemBytes k) (isWithItem k) fun _ => eq_of_isWithItem

theorem unpackDatagram_total_one : (oneItem ['k']).HashableKeys ∧ ∃ w, unpackDatagram (oneItem ['k'])
    [0,0,0,17,0x95,0xc0,0xc0,0xcb,0x3f,0xf0,0,0,0,0,0,0,0x81,0xa1,0x6b,0xc0,0xc0] = .ok w := by
  have hkeys : (oneItem ['k']).HashableKeys := by
    intro bs kvs h
    change (if bs = itemBytes ['k'] then some _ else none) = some _ at h
    split at h <;> cases h
  refine ⟨hkeys,(unpackDatagram_total _ hkeys _).2.mpr
    ⟨by decide,.nil,.nil,wireVersion,[(.str ['k'],.nil)],.nil,rfl,?_⟩⟩
  intro kv hkv
  obtain rfl := List.mem_singleton.mp hkv
  exact ⟨['k'],rfl,by decide⟩

theorem changed_round_trip_set :
    construct .nil .nil .nil wireVersion [] = .ok ⟨.nil,.nil,wireVersion,[],.nil⟩ ∧
    loadFrom (oneItem ['k']) (itemBytes ['k']) = .ok (withItem ['k']) := by
  have hc : construct .nil .nil .nil wireVersion [] = .ok ⟨.nil,.nil,wireVersion,[],.nil⟩ := rfl
  exact ⟨hc,(changed_round_trip_iff (oneItem ['k']) hc [(['k'],.nil)] rfl).mpr (by decide)⟩

/-- A packet with an item for its header is packed and not read back. -/
theorem changed_not_read_back :
    construct .nil .nil .nil wireVersion [] = .ok ⟨.nil,.nil,wireVersion,[],.nil⟩ ∧
    (WireData.setItems ⟨.nil,.nil,wireVersion,[],.nil⟩ [("header".toList,.nil)]).toBytes
      (oneItem "header".toList) = some (itemBytes "header".toList) ∧
    loadFrom (oneItem "header".toList) (itemBytes "header".toList) = .error .typeError :=
  ⟨rfl,rfl,rfl⟩

end WireData
end PeerConnect.Wire
