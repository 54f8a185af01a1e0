import PeerConnect.FrontEnd.WebSocket
import Mathlib.Data.List.Sort

/-! The order in which messages come to the page when each call of `submit` is awaited before the next. -/
namespace PeerConnect.FrontEnd.FrontEndWebSocketDispatcher
open Library
variable {n : ℕ} {s : FrontEndWebSocketDispatcher n} {k : ℕ} {m : Message}

/-- The message was taken out of a full buffer that held nothing older. -/
def Discarded (s : FrontEndWebSocketDispatcher n) (m : Message) : Prop :=
  ∃ buffer, (m,buffer) ∈ s.discarded ∧ buffer.length = n ∧ ∀ m' ∈ buffer, m.number ≤ m'.number

/-- The page has the messages in the order of their submission, but for those that are still in the
buffer or with a task, and those that a full buffer had no room for. -/
structure InOrder (s : FrontEndWebSocketDispatcher n) : Prop where
  sublist : s.delivered.Sublist s.submitted
  missing : ∀ m ∈ s.submitted,
    m ∈ s.delivered ∨ m ∈ s.buffer.items ∨ m ∈ s.held ∨ s.Discarded m

/-- The transport delivers no message that comes from the buffer, and raises nothing while the buffer is
one that never holds anything. -/
def Regular (s : FrontEndWebSocketDispatcher n) : Delivery → Prop
  | .deliver k => ∀ m, s.tasks[k]? ≠ some (.sending m true)
  | .fail k => ∀ m buffered, s.tasks[k]? = some (.sending m buffered) → 0 < n
  | _ => True

/-- A later message was delivered already. -/
def Overtaken (s : FrontEndWebSocketDispatcher n) (m : Message) : Prop :=
  ∃ d ∈ s.delivered, m.number < d.number

/-- What is known while the only task is at this place. -/
def Phase (s : FrontEndWebSocketDispatcher n) : Task → Prop
  | .sending m false => m.number+1 = s.submitted.length ∧ (∀ b ∈ s.buffer.items, b.number < m.number) ∧
      ∀ d ∈ s.delivered, d.number < m.number
  | .sending m true => s.Overtaken m ∧ s.buffer.items.length < n ∧
      ∀ b ∈ s.buffer.items, m.number < b.number ∧ s.Overtaken b
  | .sent => ∀ b ∈ s.buffer.items, s.Overtaken b
  | .ended => True

def task (s : FrontEndWebSocketDispatcher n) (k : ℕ) : Task := s.tasks[k]?.getD .ended

theorem Discarded.append {l : List (Message × List Message)} (h : s.Discarded m) :
    Discarded { s with discarded := s.discarded ++ l } m := by
  obtain ⟨buffer,hmem,hfull⟩ := h
  exact ⟨buffer,List.mem_append_left _ hmem,hfull⟩

theorem Overtaken.append {l : List Message} (h : s.Overtaken m) :
    Overtaken { s with delivered := s.delivered ++ l } m := by
  obtain ⟨d,hd,hlt⟩ := h
  exact ⟨d,List.mem_append_left _ hd,hlt⟩

/-- The page has the messages in the order of their numbers. -/
def Increasing (s : FrontEndWebSocketDispatcher n) : Prop :=
  s.delivered.Pairwise (·.number < ·.number)

/-- What is and stays wrong after an irregular event. -/
def Sound (s : FrontEndWebSocketDispatcher n) : Prop := s.Increasing ∧ s.lost = []

end PeerConnect.FrontEnd.FrontEndWebSocketDispatcher
