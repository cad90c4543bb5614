/-! # Durations

A duration is a number of nanoseconds. Its text uses the largest unit that leaves something in
front of the point, and no trailing zeros behind it.
-/
namespace MobileCode

structure Duration where
  nanos : Nat
  deriving DecidableEq, Inhabited, Repr

namespace Duration

def ofMillis (n : Nat) : Duration := ⟨n * 1000000⟩
def millis (d : Duration) : Nat := d.nanos / 1000000

/-- `n / 10 ^ places`, exactly. -/
def decimal (n places : Nat) : String :=
  let unit := Nat.pow 10 places
  let digits := (toString (n % unit)).toList
  let fraction := List.replicate (places - digits.length) '0' ++ digits
  let kept := (fraction.reverse.dropWhile (· = '0')).reverse
  toString (n / unit) ++
    (if kept.isEmpty || places = 0 then "" else String.ofList ('.' :: kept))

def toText (d : Duration) : String :=
  if 1000000000 ≤ d.nanos then decimal d.nanos 9 ++ "s"
  else if 1000000 ≤ d.nanos then decimal d.nanos 6 ++ "ms"
  else if 1000 ≤ d.nanos then decimal d.nanos 3 ++ "µs"
  else decimal d.nanos 0 ++ "ns"

end Duration
end MobileCode
