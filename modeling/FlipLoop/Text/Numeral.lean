/-!
# Decimal numerals with an upper bound

A numeral is read digit by digit, and the reading stops at the first excess over the bound, so that
a numeral of any length costs no more than its leading zeros and the digits of the bound.
-/

namespace FlipLoop.Text

/-- The number that `digits` write in base ten, if it is at most `most`. -/
def boundedNumber? (most : Nat) (digits : List Char) : Option Nat :=
  digits.foldlM (fun n d =>
    let n := 10 * n + (d.toNat - '0'.toNat)
    if n ≤ most then some n else none) 0

theorem le_ofDigitChars (digits : List Char) (n : Nat) : n ≤ Nat.ofDigitChars 10 digits n := by
  induction digits generalizing n with
  | nil => simp
  | cons d digits ih =>
    rw [Nat.ofDigitChars_cons]
    exact Nat.le_trans (by omega) (ih _)

theorem boundedNumber?_from (most : Nat) (digits : List Char) (n : Nat) (hn : n ≤ most) :
    digits.foldlM (fun n d =>
      let n := 10 * n + (d.toNat - '0'.toNat)
      if n ≤ most then some n else none) n =
    if Nat.ofDigitChars 10 digits n ≤ most then some (Nat.ofDigitChars 10 digits n) else none := by
  induction digits generalizing n with
  | nil => simp [hn]
  | cons d digits ih =>
    rw [Nat.ofDigitChars_cons, List.foldlM_cons]
    by_cases h : 10 * n + (d.toNat - '0'.toNat) ≤ most
    · simp only [h, if_true]
      exact ih _ h
    · have := le_ofDigitChars digits (10 * n + (d.toNat - '0'.toNat))
      simp only [h, if_false]
      rw [if_neg (by omega)]
      rfl

theorem boundedNumber?_eq (most : Nat) (digits : List Char) :
    boundedNumber? most digits =
      if Nat.ofDigitChars 10 digits 0 ≤ most then some (Nat.ofDigitChars 10 digits 0) else none :=
  boundedNumber?_from most digits 0 (Nat.zero_le most)

theorem toList_repr_ne_nil (n : Nat) : n.repr.toList ≠ [] := by
  rw [Nat.toList_repr]
  exact Nat.toDigits_ne_nil

theorem isDigit_of_mem_repr {n : Nat} {d : Char} (h : d ∈ n.repr.toList) : d.isDigit = true := by
  rw [Nat.toList_repr] at h
  exact Nat.isDigit_of_mem_toDigits (by decide) (by decide) h

/-- No numeral has a sign. -/
theorem toList_repr_ne_cons {c : Char} (hc : c.isDigit = false) (n : Nat) (rest : List Char) :
    n.repr.toList ≠ c :: rest := by
  intro h
  have hdigit := isDigit_of_mem_repr (n := n) (d := c) (by simp [h])
  rw [hc] at hdigit
  cases hdigit

theorem boundedNumber?_repr (most n : Nat) :
    boundedNumber? most n.repr.toList = if n ≤ most then some n else none := by
  have hvalue : Nat.ofDigitChars 10 n.repr.toList 0 = n := by
    rw [Nat.toList_repr]
    exact Nat.ofDigitChars_toDigits (by decide) (by decide)
  rw [boundedNumber?_eq, hvalue]

end FlipLoop.Text
