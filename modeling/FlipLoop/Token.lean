import FlipLoop.Glyph
import FlipLoop.Text.Blank

/-!
# Tokens

The tokens of a text are what remains of it when every comment character is deleted and the rest is
split at the blanks. A comment character inside a token therefore joins what stands on both sides.
-/

namespace FlipLoop

/-- A run of glyphs between two blanks, never empty in a text. -/
abbrev Token := List Glyph

namespace Token

/-- The token that names variable `v`. -/
def bars (v : Nat) : Token := List.replicate (v + 1) .bar

/-- A token that shows the memory, however many bangs it has. -/
def bangs (count : Nat) : Token := List.replicate (count + 1) .bang

def text (t : Token) : String := String.ofList (t.map Glyph.char)

end Token

/-- What a character that is no comment contributes to a program. -/
inductive Mark where
  | gap
  | glyph (g : Glyph)
  deriving DecidableEq

namespace Mark

def ofChar? (c : Char) : Option Mark :=
  match Glyph.ofChar? c with
  | some g => some (.glyph g)
  | none => if Text.isBlank c then some .gap else none

def isGap : Mark → Bool
  | gap => true
  | glyph _ => false

def glyph? : Mark → Option Glyph
  | gap => none
  | glyph g => some g

@[simp]
theorem ofChar?_char (g : Glyph) : ofChar? g.char = some (.glyph g) := by
  simp [ofChar?]

theorem ofChar?_of_isBlank {c : Char} (h : Text.isBlank c = true) : ofChar? c = some .gap := by
  have hg : Glyph.ofChar? c = none := by
    rw [Option.eq_none_iff_forall_ne_some]
    intro g hg
    rw [Glyph.ofChar?_eq_some_iff] at hg
    subst hg
    revert h
    cases g <;> decide
  simp [ofChar?, hg, h]

end Mark

namespace Token

def ofChars (text : List Char) : List Token :=
  (((text.filterMap Mark.ofChar?).splitOnP Mark.isGap).map (·.filterMap Mark.glyph?)).filter
    (!·.isEmpty)

def ofText (text : String) : List Token := ofChars text.toList

@[simp]
theorem ofChars_nil : ofChars [] = [] := by
  simp [ofChars]

/-- A blank ends a token and belongs to none. -/
theorem ofChars_append_cons (a b : List Char) {c : Char} (h : Text.isBlank c = true) :
    ofChars (a ++ c :: b) = ofChars a ++ ofChars b := by
  simp only [ofChars, List.filterMap_append, List.filterMap_cons, Mark.ofChar?_of_isBlank h]
  rw [List.splitOnP_append_cons _ _ (by rfl)]
  simp

/-- Glyphs alone are one token. -/
theorem ofChars_map_char {t : Token} (h : t ≠ []) : ofChars (t.map Glyph.char) = [t] := by
  have hm : (t.map Glyph.char).filterMap Mark.ofChar? = t.map Mark.glyph := by
    induction t with
    | nil => rfl
    | cons g t ih => by_cases ht : t = [] <;> simp_all
  have hg : (t.map Mark.glyph).filterMap Mark.glyph? = t := by
    induction t with
    | nil => rfl
    | cons g t ih => by_cases ht : t = [] <;> simp_all [Mark.glyph?]
  rw [ofChars, hm, List.splitOnP_eq_singleton (by simp [Mark.isGap])]
  simp [hg, h]

end Token

end FlipLoop
