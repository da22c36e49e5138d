import FlipLoop.Program.Shorthand
import Mathlib.Data.List.SplitBy
import Mathlib.Tactic.Common

/-!
# Expanding the shorthand

The expansion of a text can be cut wherever no two digits meet. A number is therefore expanded by
itself, and of several numbers that are too large the first one is reported.
-/

namespace FlipLoop.Shorthand

/-- Where `a` meets `b` there are no two digits. -/
def Apart (a b : List Char) : Prop :=
  ∀ c ∈ a.getLast?, ∀ d ∈ b.head?, joined c d = false

lemma Apart.of_left {a b : List Char} (h : ∀ c ∈ a, c.isDigit = false) : Apart a b := by
  intro c hc d _
  rw [joined, h c (List.mem_of_getLast? hc), Bool.false_and]

lemma Apart.of_right {a b : List Char} {c : Char} (h : c.isDigit = false) : Apart a (c :: b) := by
  intro d _ e he
  obtain rfl : c = e := by simpa using he
  rw [joined, h, Bool.and_false]

/-- The expansions of two texts that are apart are put together. The fault of the first counts. -/
theorem expandChars_append {a b : List Char} (h : Apart a b) :
    expandChars (a ++ b) = (expandChars a).bind fun x => (expandChars b).map (x ++ ·) := by
  have hpieces : pieces (a ++ b) = pieces a ++ pieces b := List.splitBy_append h
  unfold expandChars
  rw [hpieces, List.mapM_append]
  cases (pieces a).mapM expandPiece with
  | error fault => rfl
  | ok x =>
    cases (pieces b).mapM expandPiece with
    | error fault => rfl
    | ok y => exact congrArg Except.ok List.flatten_append

lemma expandChars_of_not_isDigit {a : List Char} (h : ∀ c ∈ a, c.isDigit = false) :
    expandChars a = .ok a := by
  induction a with
  | nil => rfl
  | cons c a ih =>
    obtain ⟨hc, ha⟩ := List.forall_mem_cons.mp h
    have hone : expandChars [c] = .ok [c] := by
      have hpieces : pieces [c] = [[c]] := rfl
      have hpiece : expandPiece [c] = .ok [c] := by simp [expandPiece, hc]
      rw [expandChars, hpieces, List.mapM_cons, List.mapM_nil, hpiece]
      rfl
    have happart : Apart [c] a := .of_left (by simpa using hc)
    rw [← List.singleton_append, expandChars_append happart, hone, ih ha]
    rfl

lemma expandChars_append_of_not_isDigit {a : List Char} (h : ∀ c ∈ a, c.isDigit = false)
    (b : List Char) : expandChars (a ++ b) = (expandChars b).map (a ++ ·) := by
  rw [expandChars_append (.of_left h), expandChars_of_not_isDigit h]
  rfl

/-- A number is expanded as a whole. -/
theorem expandChars_digits {digits : List Char} (hne : digits ≠ [])
    (hd : ∀ d ∈ digits, d.isDigit = true) : expandChars digits = expandPiece digits := by
  have hjoined : digits.IsChain fun c d => joined c d = true := by
    rw [List.isChain_iff_getElem]
    intro i hi
    simp [joined, hd]
  have hpieces : pieces digits = [digits] := List.splitBy_of_isChain hne hjoined
  rw [expandChars, hpieces, List.mapM_cons, List.mapM_nil]
  cases expandPiece digits with
  | error fault => rfl
  | ok x => exact congrArg Except.ok (by simp)

/-- A decimal number is expanded to the bars of its variable, or reported if it is too large. -/
theorem expandChars_repr (v : Nat) :
    expandChars v.repr.toList =
      if v ≤ maxVariable then .ok (List.replicate (v + 1) Glyph.bar.char)
      else .error (.variableTooLarge v.repr) := by
  have hall : v.repr.toList.all Char.isDigit = true :=
    List.all_eq_true.mpr fun d => Text.isDigit_of_mem_repr
  rw [expandChars_digits (Text.toList_repr_ne_nil v) (fun d => Text.isDigit_of_mem_repr), expandPiece,
    if_pos hall, Text.boundedNumber?_repr]
  by_cases hv : v ≤ maxVariable
  · rw [if_pos hv, if_pos hv]
  · rw [if_neg hv, if_neg hv, String.ofList_toList]

end FlipLoop.Shorthand
