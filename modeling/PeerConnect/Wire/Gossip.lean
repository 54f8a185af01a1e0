import PeerConnect.Wire.Packet

/-! Gossip messages: packets with some fields of their own in the body. -/
namespace PeerConnect.Wire
open Library

/-- A dictionary with one of its items set. -/
def setItem (d : List (List Char × Value)) (key : List Char) (value : Value) :
    List (List Char × Value) :=
  if (d.map Prod.fst).contains key then d.map fun kv => if kv.1 = key then (key,value) else kv
  else d ++ [(key,value)]

theorem mem_keys_setItem {d : List (List Char × Value)} {key k : List Char} {value : Value} :
    k ∈ (setItem d key value).map Prod.fst ↔ k = key ∨ k ∈ d.map Prod.fst := by
  unfold setItem
  split
  next h =>
    have hkeys : (d.map fun kv => if kv.1 = key then (key,value) else kv).map Prod.fst =
        d.map Prod.fst := by
      rw [List.map_map]
      refine List.map_congr_left fun kv _ => ?_
      simp only [Function.comp_apply]
      split
      next hk => exact hk.symm
      · rfl
    rw [hkeys]
    constructor
    · exact .inr
    · rintro (rfl | hk)
      · exact List.contains_iff_mem.mp h
      · exact hk
  · simp [or_comm]

namespace WireData

/-- The names under which the fields are exposed, each before what the body says of it. -/
def dict (w : WireData) : List (List Char × Value) :=
  w.body.foldl (fun d kv => setItem d kv.1 kv.2)
    [("header".toList,w.header),("msg_id".toList,w.id),("version".toList,w.version),
      ("peer_id".toList,w.peerId)]

theorem mem_keys_dict {w : WireData} {k : List Char} :
    k ∈ w.dict.map Prod.fst ↔
      k ∈ ["header".toList,"msg_id".toList,"version".toList,"peer_id".toList] ∨
        k ∈ w.body.map Prod.fst := by
  have hfold : ∀ (body d : List (List Char × Value)),
      k ∈ (body.foldl (fun d kv => setItem d kv.1 kv.2) d).map Prod.fst ↔
        k ∈ d.map Prod.fst ∨ k ∈ body.map Prod.fst := by
    intro body
    induction body with
    | nil => simp
    | cons kv body ih =>
      intro d
      rw [List.foldl_cons, ih, mem_keys_setItem, List.map_cons, List.mem_cons, or_assoc, or_left_comm]
  exact hfold w.body _

end WireData

structure GossipMessage where
  actualData : WireData

namespace GossipMessage

def get (m : GossipMessage) (field : List Char) : Value := (m.actualData.body.lookup field).getD .nil
def set (m : GossipMessage) (field : List Char) (value : Value) : GossipMessage :=
  ⟨{ m.actualData with body := setItem m.actualData.body field value }⟩

def message (m : GossipMessage) : Value := m.get "message".toList
def ttl (m : GossipMessage) : Value := m.get "ttl".toList
def created (m : GossipMessage) : Value := m.get "created".toList
def header (m : GossipMessage) : Value := m.actualData.header
def id (m : GossipMessage) : Value := m.actualData.id

def setMessage (m : GossipMessage) (data : Value) : GossipMessage := m.set "message".toList data
def setTtl (m : GossipMessage) (ttl : Value) : GossipMessage := m.set "ttl".toList ttl
def setCreated (m : GossipMessage) (value : Value) : GossipMessage := m.set "created".toList value
def setHeader (m : GossipMessage) (value : Value) : GossipMessage :=
  ⟨{ m.actualData with header := value }⟩
def setId (m : GossipMessage) (value : Value) : GossipMessage :=
  ⟨{ m.actualData with id := value }⟩

def HasField (m : GossipMessage) (field : List Char) : Prop :=
  field ∈ m.actualData.body.map Prod.fst

instance (m : GossipMessage) (field : List Char) : Decidable (m.HasField field) :=
  inferInstanceAs (Decidable (_ ∈ _))

/-- The names that `fields_check` looks for. -/
def checkedFields : List (List Char) :=
  ["id".toList,"header".toList,"created".toList,"ttl".toList]

def fieldsCheck (m : GossipMessage) : Bool :=
  checkedFields.all fun field => (m.actualData.dict.map Prod.fst).contains field

def toBytes (u : Umsgpack) (m : GossipMessage) : Option Bytes := m.actualData.toBytes u

/-- `self.message[:11]`, where `__repr__` ends with an exception if it does. -/
def repr (m : GossipMessage) : Except Exn Unit :=
  match m.message with
  | .str _ | .bin _ | .array _ => .ok ()
  | .map _ => .error .keyError
  | _ => .error .typeError

/-- The message id has its own name in the dictionary that is checked, which is not the one that is
looked for. -/
theorem fieldsCheck_iff {m : GossipMessage} :
    m.fieldsCheck = true ↔
      m.HasField "id".toList ∧ m.HasField "created".toList ∧ m.HasField "ttl".toList := by
  have hmem : ∀ k ∈ ["id".toList,"created".toList,"ttl".toList],
      (k ∈ m.actualData.dict.map Prod.fst ↔ m.HasField k) := by
    intro k hk
    rw [WireData.mem_keys_dict, or_iff_right]
    · rfl
    · revert k; decide
  have hheader : "header".toList ∈ m.actualData.dict.map Prod.fst :=
    WireData.mem_keys_dict.mpr (.inl (by decide))
  simp only [fieldsCheck, checkedFields, List.all_cons, List.all_nil, Bool.and_true, Bool.and_eq_true,
    List.contains_iff_mem, hheader, true_and, hmem "id".toList (by decide),
    hmem "created".toList (by decide), hmem "ttl".toList (by decide)]

/-- A use of a setter, or of the body for any further field. -/
inductive Assignment
  | message (data : Value)
  | ttl (ttl : Value)
  | created (value : Value)
  | header (value : Value)
  | id (value : Value)
  | field (name : List Char) (value : Value)

def assign (m : GossipMessage) : Assignment → GossipMessage
  | .message data => m.setMessage data
  | .ttl ttl => m.setTtl ttl
  | .created value => m.setCreated value
  | .header value => m.setHeader value
  | .id value => m.setId value
  | .field name value => m.set name value

/-- Among whatever else has been set, the header, the id, the time of creation and the time to live
have been. -/
inductive Prepared : GossipMessage → Prop
  | assigned (start : GossipMessage) (assignments : List Assignment)
      (header : ∃ v, .header v ∈ assignments) (id : ∃ v, .id v ∈ assignments)
      (created : ∃ v, .created v ∈ assignments) (ttl : ∃ v, .ttl v ∈ assignments) :
      Prepared (assignments.foldl assign start)

@[simp] theorem hasField_set {m : GossipMessage} {field name : List Char} {value : Value} :
    (m.set name value).HasField field ↔ field = name ∨ m.HasField field := mem_keys_setItem

/-- No assignment takes a field away. -/
theorem HasField.assign {m : GossipMessage} {field : List Char} (h : m.HasField field)
    (a : Assignment) : (m.assign a).HasField field := by
  cases a with
  | header value => exact h
  | id value => exact h
  | message data => exact hasField_set.mpr (.inr h)
  | ttl ttl => exact hasField_set.mpr (.inr h)
  | created value => exact hasField_set.mpr (.inr h)
  | field name value => exact hasField_set.mpr (.inr h)

theorem HasField.assignments {m : GossipMessage} {field : List Char} (h : m.HasField field)
    (as : List Assignment) : (as.foldl GossipMessage.assign m).HasField field := by
  induction as generalizing m with
  | nil => exact h
  | cons a as ih => exact ih (h.assign a)

/-- A field that one of the assignments is to has been set after all of them. -/
theorem hasField_of_mem {m : GossipMessage} {field : List Char} {as : List Assignment}
    {a : Assignment} (ha : a ∈ as) (h : ∀ m : GossipMessage, (m.assign a).HasField field) :
    (as.foldl assign m).HasField field := by
  obtain ⟨before,after,rfl⟩ := List.append_of_mem ha
  rw [List.foldl_append, List.foldl_cons]
  exact (h _).assignments after

/-- The check of a message whose fields have been set comes down to a field `id` of its body, which no
setter sets. -/
theorem Prepared.fieldsCheck_iff {m : GossipMessage} (h : m.Prepared) :
    m.fieldsCheck = true ↔ m.HasField "id".toList := by
  obtain ⟨start,as,-,-,⟨c,hc⟩,⟨t,ht⟩⟩ := h
  rw [GossipMessage.fieldsCheck_iff, and_iff_left]
  exact ⟨hasField_of_mem hc fun m => hasField_set.mpr (.inl rfl),
    hasField_of_mem ht fun m => hasField_set.mpr (.inl rfl)⟩

end GossipMessage
end PeerConnect.Wire
