import PeerConnect.Library.Dict

/-! Maps of a limited capacity that forget the least recently used entry. -/
namespace PeerConnect.Library

/-- The entries, with the least recently used one first. -/
structure Lru (κ ν : Type) (capacity : ℕ) where
  entries : Dict κ ν
  nodup_keys : (Dict.keys entries).Nodup
  length_le : entries.length ≤ capacity

namespace Lru
variable {κ ν : Type} {capacity : ℕ}

theorem length_empty : ([] : Dict κ ν).length ≤ capacity := Nat.zero_le _

def empty : Lru κ ν capacity := ⟨[],List.nodup_nil,length_empty⟩

variable [DecidableEq κ]

/-- The key becomes the most recent one, and what then is too much is forgotten. -/
def add (k : κ) (v : ν) (m : Lru κ ν capacity) : Lru κ ν capacity where
  entries := (Dict.remove k m.entries ++ [(k,v)]).drop ((Dict.remove k m.entries).length+1-capacity)
  nodup_keys :=
    (Dict.nodup_keys_concat (Dict.nodup_keys_remove m.nodup_keys) (Dict.notMem_keys_remove k _) v).sublist
      ((List.drop_sublist ..).map _)
  length_le := by rw [List.length_drop, List.length_append, List.length_singleton]; omega

/-- A key that is found becomes the most recent one. -/
def touch (k : κ) (m : Lru κ ν capacity) : Lru κ ν capacity :=
  match Dict.get? k m.entries with
  | none => m
  | some v => m.add k v

def remove (k : κ) (m : Lru κ ν capacity) : Lru κ ν capacity where
  entries := Dict.remove k m.entries
  nodup_keys := Dict.nodup_keys_remove m.nodup_keys
  length_le := Nat.le_trans (List.length_filter_le ..) m.length_le

variable {m : Lru κ ν capacity} {k : κ}

theorem add_entries (k : κ) (v : ν) (m : Lru κ ν capacity) : (m.add k v).entries =
    (Dict.remove k m.entries ++ [(k,v)]).drop ((Dict.remove k m.entries).length+1-capacity) := rfl

/-- Nothing is forgotten for a key that is there. -/
theorem add_entries_of_mem (h : k ∈ Dict.keys m.entries) (v : ν) :
    (m.add k v).entries = Dict.remove k m.entries ++ [(k,v)] := by
  have hl := Dict.length_remove m.nodup_keys h
  have hc := m.length_le
  have hd : (Dict.remove k m.entries).length+1-capacity = 0 := by omega
  rw [add_entries, hd, List.drop_zero]

theorem add_entries_of_room (h : k ∉ Dict.keys m.entries) (hroom : m.entries.length < capacity) (v : ν) :
    (m.add k v).entries = m.entries ++ [(k,v)] := by
  have hd : m.entries.length+1-capacity = 0 := by omega
  rw [add_entries, Dict.remove_of_notMem h, hd, List.drop_zero]

/-- A full map forgets its first entry for a new key. -/
theorem add_entries_of_full (h : k ∉ Dict.keys m.entries) (hfull : capacity ≤ m.entries.length)
    (hpos : 0 < capacity) (v : ν) : (m.add k v).entries = m.entries.tail ++ [(k,v)] := by
  have hc := m.length_le
  have hd : m.entries.length+1-capacity = 1 := by omega
  rw [add_entries, Dict.remove_of_notMem h, hd, List.drop_one]
  exact List.tail_append_of_ne_nil (List.ne_nil_of_length_pos (by omega))

theorem touch_entries_of_get? {v : ν} (h : Dict.get? k m.entries = some v) :
    (m.touch k).entries = Dict.remove k m.entries ++ [(k,v)] := by
  rw [touch, h]
  exact add_entries_of_mem (Dict.mem_keys_of_get? h) v

section InPlace
variable {d : Dict κ ν} (hnodup : (Dict.keys d).Nodup) (h : k ∈ Dict.keys d) (v : ν)
include hnodup h

/-- A value that is replaced in its place is where a recent one belongs only at the end. -/
theorem set_eq_concat_iff :
    Dict.set k v d = Dict.remove k d ++ [(k,v)] ↔ (Dict.keys d).getLast? = some k := by
  constructor
  · intro he
    have hkeys := congrArg Dict.keys he
    rw [Dict.keys_set, if_pos h, Dict.keys_append] at hkeys
    rw [hkeys]
    exact List.getLast?_concat
  · intro hlast
    obtain ⟨ks,hks⟩ := List.getLast?_eq_some_iff.mp hlast
    obtain ⟨t,l,rfl,rfl,hl⟩ := List.map_eq_append_iff.mp hks
    obtain ⟨⟨k',w⟩,rfl,rfl⟩ := List.map_eq_singleton_iff.mp hl
    have hk : k' ∉ Dict.keys t := fun hmem => by
      rw [Dict.keys_append] at hnodup
      exact (List.nodup_append.mp hnodup).2.2 k' hmem k' List.mem_cons_self rfl
    rw [Dict.remove_concat_self hk, Dict.set, if_pos h, Dict.modify_append_of_notMem hk, Dict.modify,
      if_pos rfl]

/-- Without the first entry there is too little, but for an entry that was the first one itself. -/
theorem set_tail_eq_concat_iff :
    Dict.set k v d.tail = Dict.remove k d ++ [(k,v)] ↔ (Dict.keys d).head? = some k := by
  cases d with
  | nil => cases h
  | cons p d =>
    obtain ⟨hp,hd⟩ := List.nodup_cons.mp hnodup
    rw [List.tail_cons, Dict.keys_cons, List.head?_cons, Option.some.injEq]
    constructor
    · intro he
      by_contra hk
      have hmem : k ∈ Dict.keys d := (List.mem_cons.mp h).resolve_left (Ne.symm hk)
      have hkeys := congrArg List.length (congrArg Dict.keys he)
      have hl := Dict.length_remove hnodup h
      rw [Dict.keys_set, if_pos hmem, Dict.keys_append] at hkeys
      simp only [Dict.keys, List.length_map, List.length_append, List.length_cons, List.length_nil]
        at hkeys hl
      omega
    · rintro rfl
      rw [← Prod.eta p, Dict.remove_cons_self hp]
      exact if_neg hp

end InPlace

end Lru
end PeerConnect.Library
