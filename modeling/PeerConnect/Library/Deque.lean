import Mathlib.Data.List.Basic

/-! A double-ended queue with a largest length: what is put in at one end of a full queue makes the other
end fall out. -/
namespace PeerConnect.Library

structure Deque (α : Type*) (maxlen : ℕ) where
  items : List α := []
  length_le : items.length ≤ maxlen := by simp

namespace Deque
variable {α : Type*} {maxlen : ℕ}

def popLeft (d : Deque α maxlen) : Option (α × Deque α maxlen) :=
  match d with
  | ⟨[],_⟩ => none
  | ⟨a::as,h⟩ => some (a,⟨as,by grind⟩)

def append (d : Deque α maxlen) (a : α) : Deque α maxlen :=
  ⟨(d.items ++ [a]).drop (d.items.length+1-maxlen),by
    rw [List.length_drop, List.length_append, List.length_singleton]; omega⟩

/-- What falls out on the left when an item is put in on the right. -/
def overflow (d : Deque α maxlen) (a : α) : List α :=
  (d.items ++ [a]).take (d.items.length+1-maxlen)

def appendLeft (d : Deque α maxlen) (a : α) : Deque α maxlen :=
  ⟨(a::d.items).take maxlen,List.length_take_le ..⟩

/-- What falls out on the right when an item is put in on the left. -/
def overflowRight (d : Deque α maxlen) (a : α) : List α :=
  (a::d.items).drop maxlen

section Room
variable {d : Deque α maxlen} (h : d.items.length < maxlen) (a : α)
include h

end Room

end Deque
end PeerConnect.Library
