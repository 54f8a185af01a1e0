import Mathlib.Data.List.Induction

/-! Runs of a machine that takes one event after the other. -/
namespace PeerConnect.Library
variable {σ ε : Type*} (step : σ → ε → σ)

/-- The state after some events. -/
def after (s : σ) (es : List ε) : σ := es.foldl step s

@[simp] theorem after_nil (s : σ) : after step s [] = s := rfl

@[simp] theorem after_cons (s : σ) (e : ε) (es : List ε) :
    after step s (e::es) = after step (step s e) es := rfl

theorem after_append (s : σ) (es es' : List ε) :
    after step s (es ++ es') = after step (after step s es) es' := List.foldl_append

/-- Every event of the run meets the condition in the state that it finds. -/
def Along (P : σ → ε → Prop) : σ → List ε → Prop
  | _,[] => True
  | s,e::es => P s e ∧ Along P (step s e) es

variable {step} {P Q : σ → ε → Prop} {s : σ} {es : List ε}

instance Along.decidable [∀ s e, Decidable (P s e)] : ∀ s es, Decidable (Along step P s es)
  | _,[] => .isTrue trivial
  | s,e::es => @instDecidableAnd _ _ _ (Along.decidable (step s e) es)

theorem along_of_forall (h : ∀ s e, P s e) (s : σ) (es : List ε) : Along step P s es := by
  induction es generalizing s with
  | nil => trivial
  | cons e es ih => exact ⟨h s e,ih _⟩

/-- A condition along a run is one along both of its parts. -/
theorem along_append {es' : List ε} :
    Along step P s (es ++ es') ↔ Along step P s es ∧ Along step P (after step s es) es' := by
  induction es generalizing s with
  | nil => exact (and_iff_right trivial).symm
  | cons e es ih => rw [List.cons_append, Along, Along, ih, after_cons, and_assoc]

theorem Along.invariant {I : σ → Prop} (hstep : ∀ s e, P s e → I s → I (step s e))
    (h : Along step P s es) (hs : I s) : I (after step s es) := by
  induction es generalizing s with
  | nil => exact hs
  | cons e es ih => exact ih h.2 (hstep s e h.1 hs)

/-- What each step of a run shows while it keeps the invariant. -/
theorem Along.imp {I : σ → Prop} (hstep : ∀ s e, P s e → I s → Q s e ∧ I (step s e))
    (h : Along step P s es) (hs : I s) : Along step Q s es := by
  induction es generalizing s with
  | nil => trivial
  | cons e es ih =>
    have hshown := hstep s e h.1 hs
    exact ⟨hshown.1,ih h.2 hshown.2⟩

/-- Two conditions that agree wherever the invariant holds. -/
theorem along_congr {I : σ → Prop} (hI : ∀ s e, I s → I (step s e))
    (h : ∀ s e, I s → (P s e ↔ Q s e)) (hs : I s) : Along step P s es ↔ Along step Q s es := by
  induction es generalizing s with
  | nil => exact Iff.rfl
  | cons e es ih => exact and_congr (h s e hs) (ih (hI s e hs))

/-- What every event keeps, whatever its state. -/
theorem after_invariant {I : σ → Prop} (hstep : ∀ s e, I s → I (step s e)) (hs : I s)
    (es : List ε) : I (after step s es) := by
  induction es generalizing s with
  | nil => exact hs
  | cons e es ih => exact ih (hstep s e hs)

/-- What is never regained holds in the end exactly if every event keeps it. -/
theorem after_iff_along {I J : σ → Prop} (hI : ∀ s e, P s e → I s → I (step s e))
    (hJ : ∀ s e, ¬ J s → ¬ J (step s e)) (hiff : ∀ s e, I s → J s → (J (step s e) ↔ Q s e))
    (h : Along step P s es) (hs : I s) (hs' : J s) : J (after step s es) ↔ Along step Q s es := by
  induction es generalizing s with
  | nil => exact iff_of_true hs' trivial
  | cons e es ih =>
    rw [after_cons, Along, ← hiff s e hs hs']
    by_cases he : J (step s e)
    · rw [and_iff_right he]
      exact ih h.2 (hI s e h.1 hs) he
    · exact iff_of_false (after_invariant (I := fun s => ¬ J s) hJ he es) fun hand => he hand.1

/-- What holds of no events holds of every initial part of a run exactly if no event ends it. -/
theorem forall_prefix_iff_along {H : List ε → Prop} (hnil : H [])
    (hstep : ∀ es e, H es → (H (es ++ [e]) ↔ Q (after step s es) e)) (es : List ε) :
    (∀ es', es' <+: es → H es') ↔ Along step Q s es := by
  induction es using List.reverseRecOn with
  | nil =>
    refine iff_of_true (fun es' h => ?_) trivial
    rwa [List.prefix_nil.mp h]
  | append_singleton es e ih =>
    rw [along_append, ← ih, Along, Along, and_true]
    constructor
    · intro h
      have hes : ∀ es', es' <+: es → H es' := fun es' h' => h es' (h'.trans (List.prefix_append es [e]))
      exact ⟨hes,(hstep es e (hes es List.prefix_rfl)).mp (h _ List.prefix_rfl)⟩
    · rintro ⟨hes,he⟩ es' h'
      rw [List.prefix_concat_iff] at h'
      rcases h' with rfl | h'
      · exact (hstep es e (hes es List.prefix_rfl)).mpr he
      · exact hes es' h'

end PeerConnect.Library
