import DocQuery.Eval.Context
import DocQuery.Value.Json
/-!
# DocQuery.Eval.Ambient

What generators draw, made from one number that is drawn for the whole evaluation.
-/

namespace DocQuery

/-- A number of 128 bits in which all of the given ones are mixed: each is joined with
what has been mixed so far, and the result multiplied by a fixed odd number. -/
def mixed (numbers : List Nat) : Nat :=
  numbers.foldl (fun state n => (state ^^^ n) * 0x0000000001000000000000000000013b % Nat.pow 2 128)
    0x6c62272e07bb014262b821756295c58d

/-- The numbers that an element contributes: its text. -/
def elementNumbers : Option Value → List Nat
  | none => []
  | some value => value.text.toList.map Char.toNat

/-- An ambient with this time, whose numbers depend on a seed, the place of the call
and the element at hand. -/
def Ambient.ofSeed (now : DateTime) (seed : Nat) : Ambient where
  now
  draw site element := mixed (seed :: elementNumbers element ++ [site])

end DocQuery
