import FlipLoop.Program.Basic

/-!
# Derivations

The grammar of token lists. A program is a sequence of commands; a command is a token of bars, a
token of bangs, or a slash with its token of bars, a program and a backslash. A derivation is the tree
of such a reading: `tokens` is what it derives and `program` what it means.
-/

namespace FlipLoop

inductive Derivation where
  | done
  | flip (v : Nat) (rest : Derivation)
  /-- A token of `count + 1` bangs. -/
  | emit (count : Nat) (rest : Derivation)
  | loop (v : Nat) (body rest : Derivation)
  deriving DecidableEq

namespace Derivation

def tokens : Derivation → List Token
  | done => []
  | flip v rest => .bars v :: rest.tokens
  | emit count rest => .bangs count :: rest.tokens
  | loop v body rest => [.slash] :: .bars v :: (body.tokens ++ [.backslash] :: rest.tokens)

def program : Derivation → Program
  | done => []
  | flip v rest => .flip v :: rest.program
  | emit _ rest => .emit :: rest.program
  | loop v body rest => .enter v :: (body.program ++ .back :: rest.program)

end Derivation

end FlipLoop
