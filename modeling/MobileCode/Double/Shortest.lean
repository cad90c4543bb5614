import MobileCode.Double

/-! # Shortest decimals

A finite double is written with the fewest decimal digits that read back to it. The doubles read
back to `x` from an interval around it, closed when the significand is even; the coarsest decimal
grid that meets the interval gives the digits, and of two neighbours on it the nearer one is
taken, the upper one at a tie. The text is positional and never has an exponent.
-/
namespace MobileCode.Double

/-- The reals that round to a double: bounds and value over one denominator. -/
structure Neighbourhood where
  low : Nat
  value : Nat
  high : Nat
  denominator : Nat
  closed : Bool

def neighbourhood (x : Double) : Neighbourhood :=
  let m := x.significand
  let e := x.exponent - 2
  let below := if m = 1 <<< 52 ∧ -1074 < x.exponent then 1 else 2
  let scale := if 0 ≤ e then 1 <<< e.toNat else 1
  ⟨(4 * m - below) * scale, 4 * m * scale, (4 * m + 2) * scale,
    if 0 ≤ e then 1 else 1 <<< (-e).toNat, m % 2 = 0⟩

namespace Neighbourhood

/-- The multiple of `10 ^ p` in the neighbourhood that is nearest to its value, over `10 ^ p`. -/
def onGrid? (n : Neighbourhood) (p : Int) : Option Nat :=
  let mul := Nat.pow 10 (-p).toNat
  let den := n.denominator * Nat.pow 10 p.toNat
  let c := n.value * mul / den
  let within (a b : Nat) : Bool := a < b || (n.closed && a = b)
  let down := within (n.low * mul) (c * den)
  let up := within ((c + 1) * den) (n.high * mul)
  if down && up then
    some (if den ≤ 2 * (n.value * mul - c * den) then c + 1 else c)
  else if down then some c
  else if up then some (c + 1)
  else none

/-- The first grid with a hit, from `10 ^ p` down. -/
def search (n : Neighbourhood) : Nat → Int → Nat × Int
  | 0, p => (n.value / n.denominator, p)
  | fuel + 1, p =>
    match n.onGrid? p with
    | some c => (c, p)
    | none => search n fuel (p - 1)

/-- A power of ten that no point of the neighbourhood reaches. -/
def ceiling (n : Neighbourhood) : Int :=
  if n.denominator ≤ n.value then (toString (n.value / n.denominator)).length + 1
  else 2 - (toString (n.denominator / n.value)).length

end Neighbourhood

/-- The shortest decimal of a positive finite double: digits and power of ten. -/
def shortest (x : Double) : Nat × Int :=
  let n := x.neighbourhood
  n.search 25 n.ceiling

/-- A decimal in positional notation. -/
def positional (digits : Nat) (power : Int) : String :=
  let ds := (toString digits).toList
  let zeros (n : Nat) : List Char := List.replicate n '0'
  if 0 ≤ power then String.ofList (ds ++ zeros power.toNat)
  else
    let places := (-power).toNat
    let padded := zeros (places + 1 - ds.length) ++ ds
    let whole := padded.length - places
    String.ofList (padded.take whole ++ '.' :: padded.drop whole)

def toText (x : Double) : String :=
  let sign := if x.isNegative then "-" else ""
  if x.isNaN then "NaN"
  else if x.isInfinite then sign ++ "inf"
  else if x.significand = 0 then sign ++ "0"
  else
    let (digits, power) := x.shortest
    sign ++ positional digits power

end MobileCode.Double
