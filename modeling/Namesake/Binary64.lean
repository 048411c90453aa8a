/-!
Binary floating-point numbers with 53 significant bits, as exact values: reading a decimal rounds it to
the nearest one, and writing gives the fewest digits that read back. Everything is integer arithmetic,
so the rules are open to proof.

Writing: for one digit, two digits and so on, the two neighbours of the number on that decimal grid are
tried; the first grid on which one of them lies in the interval of reals that round to the number wins,
and of two hits the nearer.
-/

namespace Namesake

/-- A number of the format. -/
inductive Binary64 where
  /-- The value `significand · 2 ^ exponent`, with a sign that zero has too. -/
  | finite (negative : Bool) (significand : Nat) (exponent : Int)
  | infinite (negative : Bool)
  | nan
  deriving DecidableEq, Repr, Inhabited

namespace Binary64

def minExponent : Int := -1074

def maxExponent : Int := 971

/-- The least significand of a number whose exponent is not the least: 53 bits, the first of them set. -/
def leastSignificand : Nat := 0x10000000000000

/-- `base ^ e` when `e` is positive, else one. -/
def power (base : Nat) (e : Int) : Nat :=
  Nat.pow base e.toNat

/-- The quotient rounded to the nearest integer, a half to the even neighbour. -/
def roundDiv (num den : Nat) : Nat :=
  let q := num / den
  let r := num % den
  if 2 * r < den then q
  else if den < 2 * r then q + 1
  else if q % 2 = 0 then q else q + 1

/-- The number nearest to `num / den`. -/
def ofRatio (negative : Bool) (num den : Nat) : Binary64 :=
  if num = 0 then .finite negative 0 minExponent
  else
    -- the logarithms leave out what comes after the first bit, so the guess may be one too great
    let guess : Int := (Nat.log2 num : Int) - Nat.log2 den - 52
    let below := num * power 2 (-guess) < leastSignificand * den * power 2 guess
    let e := max minExponent (if below then guess - 1 else guess)
    let m := roundDiv (num * power 2 (-e)) (den * power 2 e)
    let (m, e) := if m = 2 * leastSignificand then (leastSignificand, e + 1) else (m, e)
    if maxExponent < e then .infinite negative else .finite negative m e

/-- The number nearest to `digits · 10 ^ exponent`. Exponents far outside the range are settled by the
count of digits. -/
def ofDecimal (negative : Bool) (digits : Nat) (exponent : Int) : Binary64 :=
  let places : Int := exponent + (Nat.toDigits 10 digits).length
  if digits = 0 ∨ places < -400 then .finite negative 0 minExponent
  else if 400 < places then .infinite negative
  else ofRatio negative (digits * power 10 exponent) (power 10 (-exponent))

/-- Has the number no part after the point? -/
def isIntegral : Binary64 → Bool
  | .finite _ m e => e ≥ 0 || m % power 2 (-e) == 0
  | _ => false

/-- The integer part, zero where there is none. -/
def toInt : Binary64 → Int
  | .finite n m e =>
    let a : Nat := if e ≥ 0 then m * power 2 e else m / power 2 (-e)
    if n then -a else a
  | _ => 0

def isZero : Binary64 → Bool
  | .finite _ m _ => m == 0
  | _ => false

/-- Digits and the place of the point: the value is `0.d₁d₂… · 10 ^ point`. -/
structure Digits where
  /-- The digits as one integer, the last one not zero. -/
  digits : Nat
  /-- The power of ten after the digits. -/
  exponent : Int
  deriving DecidableEq, Repr, Inhabited

/-- The least `p` with `m · 2 ^ e < 10 ^ p`. -/
def magnitude (m : Nat) (e : Int) : Int :=
  let fits (p : Int) : Bool := m * power 2 e * power 10 (-p) < power 10 p * power 2 (-e)
  match (List.range 640).find? fun (i : Nat) => fits ((i : Int) - 330) with
  | some i => (i : Int) - 330
  | none => 310

/-- The better of the two neighbours on the grid of step `10 ^ k`, if one of them rounds to
`m · 2 ^ e`. The interval is measured in quarters of the last bit. -/
def onGrid? (m : Nat) (e k : Int) (lower : Nat) (inclusive : Bool) : Option Nat :=
  let a := power 10 k * power 2 (2 - e)
  let b := power 2 (e - 2) * power 10 (-k)
  let value := 4 * m * b
  let low := lower * b
  let high := (4 * m + 2) * b
  let inside (c : Nat) : Bool :=
    let x := c * a
    (low < x && x < high) || (inclusive && (x == low || x == high))
  let down := value / a
  let up := down + 1
  match inside down, inside up with
  | true, true =>
    let below := value - down * a
    let above := up * a - value
    if below < above then some down
    else if above < below then some up
    else if down % 2 = 0 then some down else some up
  | true, false => some down
  | false, true => some up
  | false, false => none

/-- Drops zeros at the end. The first argument bounds the number of steps. -/
def stripZeros : Nat → Nat → Int → Digits
  | 0, d, k => ⟨d, k⟩
  | n + 1, d, k => if d % 10 = 0 ∧ d ≠ 0 then stripZeros n (d / 10) (k + 1) else ⟨d, k⟩

/-- The fewest digits that read back as `m · 2 ^ e`, which is not zero. -/
def shortest (m : Nat) (e : Int) : Digits :=
  let p := magnitude m e
  -- at a power of two the number below is half as far away as the one above
  let lower := if m = leastSignificand ∧ minExponent < e then 4 * m - 1 else 4 * m - 2
  let attempt (n : Nat) : Option Digits :=
    let k := p - n
    (onGrid? m e k lower (m % 2 == 0)).map fun d => stripZeros 20 d k
  match (List.range 17).findSome? fun n => attempt (n + 1) with
  | some d => d
  | none => ⟨m, 0⟩

/-- The number written out: positional with at least one place after the point when the point lies
within sixteen places after the first digit or three before it, else with an exponent of at least two
digits. -/
def render : Binary64 → String
  | .nan => "nan"
  | .infinite n => if n then "-inf" else "inf"
  | .finite n m e =>
    let sign := if n then "-" else ""
    if m = 0 then sign ++ "0.0"
    else
      let d := shortest m e
      let ds := Nat.toDigits 10 d.digits
      let point : Int := d.exponent + ds.length
      let body :=
        if point ≤ -4 ∨ 16 < point then
          let x := point - 1
          let xs := Nat.toDigits 10 x.natAbs
          let fraction := if ds.length = 1 then [] else '.' :: ds.drop 1
          ds.take 1 ++ fraction ++ 'e' :: (if x < 0 then '-' else '+')
            :: (if xs.length < 2 then '0' :: xs else xs)
        else if point ≤ 0 then '0' :: '.' :: List.replicate (-point).toNat '0' ++ ds
        else if (ds.length : Int) ≤ point then
          ds ++ List.replicate (point.toNat - ds.length) '0' ++ ['.', '0']
        else ds.take point.toNat ++ '.' :: ds.drop point.toNat
      sign ++ String.ofList body

end Binary64

end Namesake
