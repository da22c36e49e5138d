/-!
# Glyphs

A program is written with four characters; every other character is a blank or a comment.
-/

namespace FlipLoop

/-- A character that a program is written with. A run of `n + 1` bars names variable `n`, a slash
opens a loop, a backslash closes one, and a bang shows the memory. -/
inductive Glyph where
  | bar
  | slash
  | backslash
  | bang
  deriving DecidableEq

namespace Glyph

def all : List Glyph := [bar, slash, backslash, bang]

def char : Glyph → Char
  | bar => '|'
  | slash => '/'
  | backslash => '\\'
  | bang => '!'

def ofChar? (c : Char) : Option Glyph :=
  all.find? (·.char == c)

@[simp]
theorem ofChar?_char (g : Glyph) : ofChar? g.char = some g := by
  cases g <;> rfl

theorem ofChar?_eq_some_iff {c : Char} {g : Glyph} : ofChar? c = some g ↔ c = g.char := by
  refine ⟨fun h => ?_, fun h => h ▸ ofChar?_char g⟩
  have := List.find?_some h
  simpa using (beq_iff_eq.1 this).symm

end Glyph

end FlipLoop
