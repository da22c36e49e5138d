import FlipLoop.Program.Basic

/-!
# Reading a program

The tokens of a text are read from left to right. A slash takes the token behind it as its operand,
and the first token that cannot go on ends the reading.
-/

namespace FlipLoop

/-- Why a text is no program. Positions count tokens from 0. -/
inductive SourceError where
  /-- A slash has no bars behind it, where `position` is. -/
  | loopWithoutVariable (position : Nat)
  | unknownCommand (token : Token) (position : Nat)
  /-- A loop is closed while none is open. -/
  | endWithoutLoop (position : Nat)
  /-- Loops are still open at the end of the text. -/
  | unclosedLoops (count : Nat)
  /-- A number of the shorthand is too large, whatever stands around it. -/
  | variableTooLarge (literal : String)
  deriving DecidableEq

def SourceError.message : SourceError → String
  | loopWithoutVariable position => "syntax error: missing loop variable at " ++ position.repr
  | unknownCommand token position =>
    "syntax error: invalid command \"" ++ token.text ++ "\" at " ++ position.repr
  | endWithoutLoop position => "syntax error: missing loop start at " ++ position.repr
  | unclosedLoops count => "syntax error: missing loop end(s), " ++ count.repr ++ " unclosed"
  | variableTooLarge literal => "syntax error: variable " ++ literal ++ " out of range"

/-- What a token says by itself. -/
inductive Word where
  | bars (v : Nat)
  | slash
  | backslash
  | bangs
  | unknown
  deriving DecidableEq

namespace Token

def word : Token → Word
  | .bar :: more => if more.all (· == .bar) then .bars more.length else .unknown
  | [.slash] => .slash
  | [.backslash] => .backslash
  | .bang :: more => if more.all (· == .bang) then .bangs else .unknown
  | _ => .unknown

theorem all_beq_iff_eq_replicate (g : Glyph) (t : Token) :
    t.all (· == g) = true ↔ t = List.replicate t.length g := by
  simp [List.eq_replicate_iff]

@[simp]
theorem word_bars (v : Nat) : (Token.bars v).word = .bars v := by
  simp [Token.bars, List.replicate_succ, word]

@[simp]
theorem word_bangs (count : Nat) : (Token.bangs count).word = .bangs := by
  simp [Token.bangs, List.replicate_succ, word]

theorem word_eq_bars_iff {t : Token} {v : Nat} : t.word = .bars v ↔ t = .bars v := by
  refine ⟨fun h => ?_, fun h => h ▸ word_bars v⟩
  unfold word at h
  split at h
  · split at h
    · next more hm =>
      rw [all_beq_iff_eq_replicate] at hm
      rw [hm, ← Word.bars.inj h, Token.bars, List.replicate_succ]
    · cases h
  · cases h
  · cases h
  · split at h <;> cases h
  · cases h

end Token

namespace Program

/-- Reads `tokens`, the first of which is at `position`, while `depth` loops are open. What was read
before is `done`, latest first. -/
def readOnto (done : List Instr) (position depth : Nat) : List Token → Except SourceError Program
  | [] => if depth = 0 then .ok done.reverse else .error (.unclosedLoops depth)
  | token :: rest =>
    match token.word with
    | .bars v => readOnto (.flip v :: done) (position + 1) depth rest
    | .slash =>
      match rest with
      | [] => .error (.loopWithoutVariable (position + 1))
      | operand :: rest =>
        match operand.word with
        | .bars v => readOnto (.enter v :: done) (position + 2) (depth + 1) rest
        | _ => .error (.loopWithoutVariable (position + 1))
    | .backslash =>
      match depth with
      | 0 => .error (.endWithoutLoop position)
      | depth + 1 => readOnto (.back :: done) (position + 1) depth rest
    | .bangs => readOnto (.emit :: done) (position + 1) depth rest
    | .unknown => .error (.unknownCommand token position)

def ofTokens (tokens : List Token) : Except SourceError Program :=
  readOnto [] 0 0 tokens

def ofSource (source : String) : Except SourceError Program :=
  ofTokens (Token.ofText source)

end Program

end FlipLoop
