import FlipLoop.Program.Block
import FlipLoop.Proofs.Grammar

/-!
# Balanced programs are blocks

A balanced program is read back from its own tokens, so it has a derivation, and the derivation
without the lengths of its bangs is a block. Every balanced program is the flattening of exactly one
block.
-/

namespace FlipLoop

namespace Program

/-- The tokens of a program that closes `depth` loops more than it opens are read as that program. -/
theorem readOnto_tokens {p : Program} {depth : Nat} (h : loopsAfter? depth p = some 0)
    (done : List Instr) (position : Nat) :
    readOnto done position depth p.tokens = .ok (done.reverse ++ p) := by
  induction p generalizing depth done position with
  | nil =>
    obtain rfl : depth = 0 := Option.some_inj.mp h
    simp [tokens, readOnto]
  | cons i p ih =>
    rw [tokens_cons]
    cases i with
    | flip v => simp [Instr.tokens, ih h]
    | enter v =>
      have hbody : loopsAfter? (depth + 1) p = some 0 := h
      simp [Instr.tokens, ih hbody]
    | back =>
      cases depth with
      | zero => cases h
      | succ depth =>
        have hbehind : loopsAfter? depth p = some 0 := h
        simp [Instr.tokens, ih hbehind]
    | emit =>
      have hbang : [Glyph.bang] = Token.bangs 0 := rfl
      simp [Instr.tokens, hbang, ih h]

theorem ofTokens_tokens_of_balanced {p : Program} (h : p.Balanced) : ofTokens p.tokens = .ok p :=
  readOnto_tokens ((balanced_iff_loopsAfter? p).mp h) [] 0

end Program

def Derivation.block : Derivation → Block
  | done => .done
  | flip v rest => .flip v rest.block
  | emit _ rest => .emit rest.block
  | loop v body rest => .loop v body.block rest.block

lemma Derivation.flatten_block (d : Derivation) : d.block.flatten = d.program := by
  induction d with
  | done => rfl
  | flip v rest ih => simp [block, Block.flatten, program, ih]
  | emit count rest ih => simp [block, Block.flatten, program, ih]
  | loop v body rest ihbody ih => simp [block, Block.flatten, program, ihbody, ih]

namespace Block

/-- The derivation of a block that shows each snapshot with a single bang. -/
def derivation : Block → Derivation
  | done => .done
  | flip v rest => .flip v rest.derivation
  | emit rest => .emit 0 rest.derivation
  | loop v body rest => .loop v body.derivation rest.derivation

lemma block_derivation (b : Block) : b.derivation.block = b := by
  induction b with
  | done => rfl
  | flip v rest ih => simp [derivation, Derivation.block, ih]
  | emit rest ih => simp [derivation, Derivation.block, ih]
  | loop v body rest ihbody ih => simp [derivation, Derivation.block, ihbody, ih]

lemma tokens_derivation (b : Block) : b.derivation.tokens = b.flatten.tokens := by
  induction b with
  | done => rfl
  | flip v rest ih => simp [derivation, Derivation.tokens, flatten, Instr.tokens, ih]
  | emit rest ih => simp [derivation, Derivation.tokens, flatten, Instr.tokens, Token.bangs, ih]
  | loop v body rest ihbody ih =>
    simp [derivation, Derivation.tokens, flatten, Instr.tokens, ihbody, ih]

theorem flatten_injective : Function.Injective flatten := by
  intro b b' h
  have htokens : b.derivation.tokens = b'.derivation.tokens := by
    rw [tokens_derivation, tokens_derivation, h]
  have hderivation := Derivation.tokens_injective htokens
  rw [← block_derivation b, ← block_derivation b', hderivation]

def append : Block → Block → Block
  | done, c => c
  | flip v rest, c => .flip v (rest.append c)
  | emit rest, c => .emit (rest.append c)
  | loop v body rest, c => .loop v body (rest.append c)

lemma flatten_append (b c : Block) : (b.append c).flatten = b.flatten ++ c.flatten := by
  induction b with
  | done => rfl
  | flip v rest ih => simp [append, flatten, ih]
  | emit rest ih => simp [append, flatten, ih]
  | loop v body rest ihbody ih => simp [append, flatten, ih]

end Block

namespace Program

theorem Balanced.exists_block {p : Program} (h : p.Balanced) : ∃ b : Block, b.flatten = p := by
  obtain ⟨d, -, rfl⟩ := exists_derivation_of_ofTokens (ofTokens_tokens_of_balanced h)
  exact ⟨d.block, d.flatten_block⟩

theorem Balanced.existsUnique_block {p : Program} (h : p.Balanced) :
    ∃! b : Block, b.flatten = p := by
  obtain ⟨b, rfl⟩ := h.exists_block
  exact ⟨b, rfl, fun b' hb' => Block.flatten_injective hb'⟩

theorem balanced_of_ofTokens {tokens : List Token} {p : Program} (h : ofTokens tokens = .ok p) :
    p.Balanced := by
  obtain ⟨d, -, rfl⟩ := exists_derivation_of_ofTokens h
  rw [← d.flatten_block]
  exact d.block.balanced_flatten

end Program

end FlipLoop
