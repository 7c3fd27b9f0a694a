import SwitchSynth.Error

/-!
# Widths of holes

A hole that chooses among `k` values has as many bits as the logarithm of `k` to base two, rounded up. The
logarithm is a double: `k` is first rounded to 53 significant bits, and a number so close above a power of
two that its logarithm is rounded down to a whole number counts as that power.
-/

namespace SwitchSynth.Sketch

/-- A positive number as `2 ^ exponent * (1 + excess / 2 ^ 52)`, rounded to 53 bits, a half to the even
neighbour. -/
structure Rounded where
  exponent : Nat
  excess : Nat
  deriving DecidableEq, Repr

def Rounded.ofNat (k : Nat) : Rounded :=
  let e := Nat.log2 k
  if e ≤ 52 then ⟨e, (k - Nat.pow 2 e) * Nat.pow 2 (52 - e)⟩
  else
    let unit := Nat.pow 2 (e - 52)
    let q := k / unit
    let r := k % unit
    let q := if unit < 2 * r ∨ (unit = 2 * r ∧ q % 2 = 1) then q + 1 else q
    if q = Nat.pow 2 53 then ⟨e + 1, 0⟩ else ⟨e, q - Nat.pow 2 52⟩

/-- The natural logarithm of two, in units of `1 / logTwoUnit`. -/
def logTwo : Nat := 693147180559945309417232121458

def logTwoUnit : Nat := Nat.pow 10 30

/-- The greatest excess with which a number still has the logarithm of its power of two. The gap between
doubles at `e` is `2 ^ (log2 e - 52)`, and a logarithm within half of it is rounded down. Beyond the range
of doubles the fraction is rounded by itself first. -/
def negligibleExcess (e : Nat) : Nat :=
  let j := Nat.log2 e
  if e < 1024 then logTwo * Nat.pow 2 j / (2 * logTwoUnit)
  else logTwo * (Nat.pow 2 (j + 1) + 1) / (4 * logTwoUnit)

/-- The number of bits that tell `k` values apart. -/
def bitWidth (k : Int) : Except Error Nat :=
  match k with
  | .ofNat 0 | .negSucc _ => .error .noLogarithm
  | .ofNat k =>
    let r := Rounded.ofNat k
    .ok (if r.excess ≤ negligibleExcess r.exponent then r.exponent else r.exponent + 1)

end SwitchSynth.Sketch
