import Mathlib.Data.List.DropRight

/-! Text as a list of characters: its white space and its lines. -/
namespace PeerConnect.Library

/-- Nothing is dropped in front of an element that stays. -/
theorem rdropWhile_append_cons {α : Type*} {p : α → Bool} {a : α} (ha : p a = false) (l l' : List α) :
    (l ++ a::l').rdropWhile p = l ++ a::l'.rdropWhile p := by
  induction l' using List.reverseRecOn with
  | nil => exact List.rdropWhile_concat_neg p l a (by simp [ha])
  | append_singleton l' b ih =>
    have happend : l ++ a::(l' ++ [b]) = (l ++ a::l') ++ [b] := by simp
    rw [happend]
    cases hb : p b with
    | true => rw [List.rdropWhile_concat_pos p _ _ hb, List.rdropWhile_concat_pos p _ _ hb, ih]
    | false =>
      have hb' : ¬ p b = true := by simp [hb]
      rw [List.rdropWhile_concat_neg p _ _ hb', List.rdropWhile_concat_neg p _ _ hb', happend]

abbrev Text : Type := List Char

namespace Text

/-- The characters that `str.isspace` holds of. -/
def isSpace (c : Char) : Bool :=
  let n := c.toNat
  (9 ≤ n && n ≤ 13) || (28 ≤ n && n ≤ 32) || n == 0x85 || n == 0xa0 || n == 0x1680 ||
    (0x2000 ≤ n && n ≤ 0x200a) || n == 0x2028 || n == 0x2029 || n == 0x202f || n == 0x205f || n == 0x3000

def isBreak (c : Char) : Bool := c == '\n' || c == '\r'

def lstrip (t : Text) : Text := t.dropWhile isSpace

def rstrip (t : Text) : Text := t.rdropWhile isSpace

def strip (t : Text) : Text := rstrip (lstrip t)

/-- The lines of a text, each of which ends at a line break of any kind or with the text. -/
def lines : Text → List Text
  | [] => []
  | '\r' :: '\n' :: t => []::lines t
  | c::t =>
    if isBreak c then []::lines t
    else match lines t with
      | [] => [[c]]
      | l::ls => (c::l)::ls

/-- The text of some lines, each with its line break. -/
def unlines (ls : List Text) : Text := ls.flatMap (· ++ ['\n'])

/-- It neither begins nor ends with white space. -/
structure Trimmed (t : Text) : Prop where
  head : ∀ c ∈ t.head?, isSpace c = false
  last : ∀ c ∈ t.getLast?, isSpace c = false

variable {t t' : Text} {c : Char}

theorem isSpace_of_isBreak (h : isBreak c = true) : isSpace c = true := by
  rcases Bool.or_eq_true_iff.mp h with h | h <;> obtain rfl := beq_iff_eq.mp h <;> rfl

section Strip

@[simp] theorem rstrip_nil : rstrip [] = [] := rfl
@[simp] theorem lstrip_nil : lstrip [] = [] := rfl
@[simp] theorem strip_nil : strip [] = [] := rfl

theorem rstrip_last : ∀ c ∈ (rstrip t).getLast?, isSpace c = false := by
  intro c hc
  have hne : rstrip t ≠ [] := by
    rintro h
    rw [h] at hc
    cases hc
  rw [List.getLast?_eq_getLast_of_ne_nil hne] at hc
  obtain rfl := Option.some.inj hc
  exact Bool.not_eq_true _ ▸ List.rdropWhile_last_not isSpace t hne

theorem rstrip_eq_self (h : ∀ c ∈ t.getLast?, isSpace c = false) : rstrip t = t := by
  refine List.rdropWhile_eq_self_iff.mpr fun hne => ?_
  rw [h _ (List.getLast?_eq_getLast_of_ne_nil hne)]
  exact Bool.false_ne_true

theorem lstrip_head : ∀ c ∈ (lstrip t).head?, isSpace c = false := by
  intro c hc
  have h := List.head?_dropWhile_not isSpace t
  rw [lstrip] at hc
  rw [hc] at h
  simpa using h

theorem lstrip_eq_self (h : ∀ c ∈ t.head?, isSpace c = false) : lstrip t = t := by
  cases t with
  | nil => rfl
  | cons c t => exact List.dropWhile_cons_of_neg (by simp [h c rfl])

theorem rstrip_begins (t : Text) : rstrip t <+: t := List.rdropWhile_prefix isSpace t

theorem lstrip_suffix (t : Text) : lstrip t <:+ t := List.dropWhile_suffix isSpace

theorem mem_strip (h : c ∈ strip t) : c ∈ t :=
  (lstrip_suffix t).subset ((rstrip_begins _).subset h)

theorem rstrip_append (t t' : Text) :
    rstrip (t ++ t') = if rstrip t' = [] then rstrip t else t ++ rstrip t' := by
  simp only [rstrip, List.rdropWhile, List.reverse_append, List.dropWhile_append, List.isEmpty_iff,
    List.reverse_eq_nil_iff]
  split <;> simp

theorem rstrip_append_of_last (hc : isSpace c = false) (t t' : Text) :
    rstrip (t ++ c::t') = t ++ c::rstrip t' := rdropWhile_append_cons hc t t'

theorem rstrip_head (h : ∀ c ∈ t.head?, isSpace c = false) :
    ∀ c ∈ (rstrip t).head?, isSpace c = false := by
  intro c hc
  obtain ⟨t',ht'⟩ := rstrip_begins t
  refine h c ?_
  rw [← ht']
  exact List.mem_head?_append_of_mem_head? hc

theorem strip_trimmed (t : Text) : Trimmed (strip t) :=
  ⟨rstrip_head lstrip_head,rstrip_last⟩

theorem strip_eq_self (h : Trimmed t) : strip t = t := by
  rw [strip, lstrip_eq_self h.head, rstrip_eq_self h.last]

theorem strip_eq_rstrip (h : ∀ c ∈ t.head?, isSpace c = false) : strip t = rstrip t := by
  rw [strip, lstrip_eq_self h]

theorem strip_cons_of_isSpace (hc : isSpace c = true) (t : Text) : strip (c::t) = strip t := by
  rw [strip, lstrip, List.dropWhile_cons_of_pos hc]
  rfl

/-- White space at the end does not matter to `strip`. -/
theorem strip_rstrip (t : Text) : strip (rstrip t) = strip t := by
  induction t with
  | nil => rfl
  | cons c t ih =>
    cases hc : isSpace c with
    | true =>
      have h := rstrip_append [c] t
      have hnil : rstrip [c] = [] := by simp [rstrip, hc]
      rw [List.singleton_append, hnil] at h
      rw [strip_cons_of_isSpace hc, h]
      split
      next hrstrip => rw [← ih, hrstrip]
      next => rw [List.singleton_append, strip_cons_of_isSpace hc, ih]
    | false =>
      have hhead : ∀ d ∈ (c::t).head?, isSpace d = false := fun d hd => by cases hd; exact hc
      rw [strip_eq_rstrip (rstrip_head hhead), strip_eq_rstrip hhead]
      exact List.rdropWhile_idempotent isSpace _

end Strip

/-- There is no line break in it. -/
def Unbroken (t : Text) : Prop := ∀ c ∈ t, isBreak c = false

instance Unbroken.decidable (t : Text) : Decidable (Unbroken t) := List.decidableBAll _ t

section Lines

theorem unbroken_nil : Unbroken [] := nofun

theorem Unbroken.subset (h : Unbroken t') (hsub : t ⊆ t') : Unbroken t := fun c hc => h c (hsub hc)

theorem Unbroken.cons (hc : isBreak c = false) (h : Unbroken t) : Unbroken (c::t) :=
  List.forall_mem_cons.mpr ⟨hc,h⟩

theorem Unbroken.append (h : Unbroken t) (h' : Unbroken t') : Unbroken (t ++ t') :=
  List.forall_mem_append.mpr ⟨h,h'⟩

theorem lines_cons (hc : isBreak c = false) (t : Text) :
    lines (c::t) = match lines t with
      | [] => [[c]]
      | l::ls => (c::l)::ls := by
  rw [lines.eq_def]
  split
  next h => cases h
  next h => cases h; cases hc
  next h => cases h; rw [if_neg (by simp [hc])]

theorem lines_append_newline (h : Unbroken t) (t' : Text) :
    lines (t ++ '\n'::t') = t::lines t' := by
  induction t with
  | nil => rfl
  | cons c t ih =>
    rw [List.cons_append, lines_cons (h c List.mem_cons_self),
      ih fun d hd => h d (List.mem_cons_of_mem c hd)]

/-- What is written line by line is read line by line. -/
theorem lines_unlines {ls : List Text} (h : ∀ l ∈ ls, Unbroken l) : lines (unlines ls) = ls := by
  induction ls with
  | nil => rfl
  | cons l ls ih =>
    have hls : unlines (l::ls) = l ++ '\n'::unlines ls := by simp [unlines]
    rw [hls, lines_append_newline (h l List.mem_cons_self),
      ih fun l' hl' => h l' (List.mem_cons_of_mem l hl')]

theorem unbroken_of_mem_lines {t l : Text} (h : l ∈ lines t) : Unbroken l := by
  induction t using lines.induct generalizing l with
  | case1 => cases h
  | case2 t ih =>
    rcases List.mem_cons.mp h with rfl | h
    · exact unbroken_nil
    · exact ih h
  | case3 c t hne hc ih =>
    rw [lines.eq_3 c t hne, if_pos hc] at h
    rcases List.mem_cons.mp h with rfl | h
    · exact unbroken_nil
    · exact ih h
  | case4 c t hne hc hnil ih =>
    rw [lines_cons (Bool.not_eq_true _ ▸ hc), hnil] at h
    obtain rfl := List.mem_singleton.mp h
    exact unbroken_nil.cons (Bool.not_eq_true _ ▸ hc)
  | case5 c t hne hc l' ls hls ih =>
    rw [lines_cons (Bool.not_eq_true _ ▸ hc), hls] at h
    rw [hls] at ih
    rcases List.mem_cons.mp h with rfl | h
    · exact (ih List.mem_cons_self).cons (Bool.not_eq_true _ ▸ hc)
    · exact ih (List.mem_cons_of_mem l' h)

/-- The parts between line feeds have none. -/
theorem newline_notMem_of_mem_splitOn {l : Text} (h : l ∈ t.splitOn '\n') : '\n' ∉ l ∧ l ⊆ t := by
  induction t generalizing l with
  | nil =>
    obtain rfl := List.mem_singleton.mp h
    exact ⟨nofun,nofun⟩
  | cons c t ih =>
    rw [List.splitOn_cons_eq_if_modifyHead] at h
    split at h
    next =>
      rcases List.mem_cons.mp h with rfl | h
      · exact ⟨nofun,nofun⟩
      · exact ⟨(ih h).1,fun d hd => List.mem_cons_of_mem c ((ih h).2 hd)⟩
    next hc =>
      cases hs : t.splitOn '\n' with
      | nil => exact absurd hs (List.splitOn_ne_nil _ _)
      | cons l' ls =>
        rw [hs, List.modifyHead_cons] at h
        rw [hs] at ih
        rcases List.mem_cons.mp h with rfl | h
        · obtain ⟨hl,hsub⟩ := ih List.mem_cons_self
          refine ⟨fun hmem => ?_,List.cons_subset_cons c hsub⟩
          rcases List.mem_cons.mp hmem with rfl | hmem
          · exact hc (beq_self_eq_true _)
          · exact hl hmem
        · obtain ⟨hl,hsub⟩ := ih (List.mem_cons_of_mem l' h)
          exact ⟨hl,fun d hd => List.mem_cons_of_mem c (hsub hd)⟩

/-- There is no white space in it. -/
def Solid (t : Text) : Prop := ∀ c ∈ t, isSpace c = false

instance Solid.decidable (t : Text) : Decidable (Solid t) := List.decidableBAll _ t

theorem Solid.unbroken (h : Solid t) : Unbroken t := by
  refine fun c hc => Bool.eq_false_iff.mpr fun hb => ?_
  have := isSpace_of_isBreak hb
  rw [h c hc] at this
  cases this

theorem Solid.strip_eq (h : Solid t) : strip t = t :=
  strip_eq_self ⟨fun c hc => h c (List.mem_of_mem_head? hc),fun c hc => h c (List.mem_of_getLast? hc)⟩

/-- A number, with its sign. -/
def Numeral (t : Text) : Prop := ∀ c ∈ t, c = '-' ∨ c.isDigit = true

theorem isDigit_of_mem_toString {n : ℕ} {c : Char} (hc : c ∈ (toString n).toList) : c.isDigit = true := by
  rw [Nat.toString_eq_repr, Nat.toList_repr] at hc
  exact Nat.isDigit_of_mem_toDigits (by decide) (by decide) hc

theorem numeral_nat (n : ℕ) : Numeral (toString n).toList := fun _ hc => .inr (isDigit_of_mem_toString hc)

theorem toString_nat_inj {m n : ℕ} (h : (toString m).toList = (toString n).toList) : m = n := by
  rw [Nat.toString_eq_repr, Nat.toString_eq_repr, Nat.toList_repr, Nat.toList_repr] at h
  have hread := Nat.ofDigitChars_toDigits (b := 10) (n := m) (by decide) (by decide)
  rw [h, Nat.ofDigitChars_toDigits (by decide) (by decide)] at hread
  exact hread.symm

theorem toList_toString_int (i : ℤ) : (toString i).toList =
    if 0 ≤ i then (toString i.toNat).toList else '-'::(toString (-i).toNat).toList := by
  rw [Int.toString_eq_repr, Int.repr_eq_if]
  split
  · rfl
  · rw [String.toList_append]
    rfl

theorem toString_int_inj {i j : ℤ} (h : (toString i).toList = (toString j).toList) : i = j := by
  have hsign : ∀ n m : ℕ, '-'::(toString m).toList ≠ (toString n).toList := by
    intro n m hs
    have hmem : '-' ∈ (toString n).toList := hs ▸ List.mem_cons_self
    cases isDigit_of_mem_toString hmem
  rw [toList_toString_int, toList_toString_int] at h
  split at h <;> split at h
  · have := toString_nat_inj h
    omega
  · exact absurd h.symm (hsign _ _)
  · exact absurd h (hsign _ _)
  · have := toString_nat_inj (List.cons.inj h).2
    omega

theorem numeral_int (i : ℤ) : Numeral (toString i).toList := by
  intro c hc
  rw [toList_toString_int] at hc
  split at hc
  · exact numeral_nat _ c hc
  · exact (List.mem_cons.mp hc).imp_right isDigit_of_mem_toString

theorem Numeral.solid (h : Numeral t) : Solid t := by
  intro c hc
  rcases h c hc with rfl | hd
  · rfl
  · have hd : 48 ≤ c.toNat ∧ c.toNat ≤ 57 := Char.isDigit_iff_toNat.mp hd
    simp only [isSpace, Bool.or_eq_false_iff, Bool.and_eq_false_iff, decide_eq_false_iff_not,
      beq_eq_false_iff_ne]
    omega

theorem Numeral.percent_notMem (h : Numeral t) : '%' ∉ t := fun hc => by
  rcases h _ hc with h | h <;> cases h

theorem splitOn_of_unbroken (h : Unbroken t) : t.splitOn '\n' = [t] :=
  List.splitOn_eq_singleton fun hmem => by cases h _ hmem

end Lines
end Text
end PeerConnect.Library
