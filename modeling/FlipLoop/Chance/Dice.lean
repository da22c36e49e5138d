import FlipLoop.Chance.Xoshiro

/-!
# Dice

The draws that a random program is made of, whatever they come from. Nothing is assumed of them but
that a number drawn below a bound is below it.
-/

namespace FlipLoop.Chance

structure Dice (γ : Type) where
  unit : γ → Float × γ
  coin : γ → Bool × γ
  below : Nat → γ → Nat × γ
  below_lt : ∀ {n : Nat}, 0 < n → ∀ g, (below n g).1 < n

def Dice.xoshiro : Dice Xoshiro where
  unit := Xoshiro.unit
  coin := Xoshiro.coin
  below := Xoshiro.below
  below_lt := Xoshiro.below_lt

end FlipLoop.Chance
