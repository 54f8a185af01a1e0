import Mathlib.Data.Finset.Basic
import Mathlib.Data.Finset.Sort

/-! Sets in the order in which they are run through, and dictionaries of sets that get an empty set for
every key that is looked up. -/
namespace PeerConnect.Library

/-- The order in which Python runs over a set. -/
structure SetOrder (α : Type) where
  toList : Finset α → List α
  nodup : ∀ s, (toList s).Nodup
  mem_toList : ∀ s a, a ∈ toList s ↔ a ∈ s

/-- Some order, of which no more is known. -/
noncomputable def SetOrder.arbitrary {α : Type} : SetOrder α :=
  ⟨Finset.toList,Finset.nodup_toList,fun _ _ => Finset.mem_toList⟩

/-- Numbers, in order. -/
def SetOrder.byNumber : SetOrder ℕ where
  toList := fun s => s.sort (· ≤ ·)
  nodup := fun s => s.sort_nodup (· ≤ ·)
  mem_toList := fun _ _ => Finset.mem_sort (· ≤ ·)

namespace SetOrder
variable {α : Type} (order : SetOrder α) {s : Finset α} {p : α → Bool} {a : α}

/-- `next(a for a in s if p(a))` -/
def find? (p : α → Bool) (s : Finset α) : Option α := (order.toList s).find? p

theorem find?_eq_none : order.find? p s = none ↔ ∀ a ∈ s, p a = false := by
  simp [find?, order.mem_toList]

theorem mem_of_find? (h : order.find? p s = some a) : a ∈ s ∧ p a = true :=
  ⟨(order.mem_toList s a).mp (List.mem_of_find?_eq_some h),List.find?_some h⟩

/-- The only one there is will be found. -/
theorem find?_of_unique (ha : a ∈ s) (hp : p a = true) (hunique : ∀ b ∈ s, p b = true → b = a) :
    order.find? p s = some a := by
  cases hf : order.find? p s with
  | none =>
    rw [order.find?_eq_none.mp hf a ha] at hp
    cases hp
  | some b =>
    obtain ⟨hb,hpb⟩ := order.mem_of_find? hf
    rw [hunique b hb hpb]

end SetOrder

/-- `defaultdict(set)` -/
structure DefaultDict (κ α : Type) where
  keys : Finset κ
  item : κ → Finset α
  item_of_notMem : ∀ k, k ∉ keys → item k = ∅

namespace DefaultDict
variable {κ α : Type} {d : DefaultDict κ α} {k k' : κ} {a : α}

def empty : DefaultDict κ α := ⟨∅,fun _ => ∅,fun _ _ => rfl⟩

@[simp] theorem item_empty (k : κ) : (empty : DefaultDict κ α).item k = ∅ := rfl

variable [DecidableEq κ]

/-- A key that is looked up is there from then on. -/
def touch (k : κ) (d : DefaultDict κ α) : DefaultDict κ α where
  keys := insert k d.keys
  item := d.item
  item_of_notMem := fun k' h => d.item_of_notMem k' fun hk => h (Finset.mem_insert_of_mem hk)

/-- The set of a key, looked up and changed. -/
def adjust (k : κ) (f : Finset α → Finset α) (d : DefaultDict κ α) : DefaultDict κ α where
  keys := insert k d.keys
  item := Function.update d.item k (f (d.item k))
  item_of_notMem := by
    intro k' h
    obtain ⟨hne,hk⟩ := not_or.mp (Finset.mem_insert.not.mp h)
    rw [Function.update_of_ne hne]
    exact d.item_of_notMem k' hk

/-- `d.update(d')` -/
def update (d d' : DefaultDict κ α) : DefaultDict κ α where
  keys := d.keys ∪ d'.keys
  item := fun k => if k ∈ d'.keys then d'.item k else d.item k
  item_of_notMem := by
    intro k h
    obtain ⟨hd,hd'⟩ := not_or.mp (Finset.mem_union.not.mp h)
    rw [if_neg hd']
    exact d.item_of_notMem k hd

@[simp] theorem item_touch (k k' : κ) (d : DefaultDict κ α) : (d.touch k).item k' = d.item k' := rfl
@[simp] theorem keys_touch (k : κ) (d : DefaultDict κ α) : (d.touch k).keys = insert k d.keys := rfl
@[simp] theorem keys_adjust (k : κ) (f : Finset α → Finset α) (d : DefaultDict κ α) :
    (d.adjust k f).keys = insert k d.keys := rfl

theorem item_adjust (k k' : κ) (f : Finset α → Finset α) (d : DefaultDict κ α) :
    (d.adjust k f).item k' = if k' = k then f (d.item k) else d.item k' := by
  by_cases h : k' = k
  · subst h
    simp [adjust]
  · simp [adjust, h]

theorem item_update (d d' : DefaultDict κ α) (k : κ) :
    (d.update d').item k = if k ∈ d'.keys then d'.item k else d.item k := rfl

theorem mem_keys_of_mem_item (h : a ∈ d.item k) : k ∈ d.keys := by
  by_contra hk
  rw [d.item_of_notMem k hk] at h
  exact absurd h (Finset.notMem_empty a)

end DefaultDict
end PeerConnect.Library
