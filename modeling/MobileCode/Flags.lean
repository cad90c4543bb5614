import MobileCode.Text.Blank
import MobileCode.Bytes

/-! # Flags

A set of flags is a word of 32 bits, some of which have names. The text of a set lists the names
of its bits in the order of their declaration, and then what is left as one number; bits without
a name are kept everywhere.
-/
namespace MobileCode

abbrev FlagNames := List (String × UInt32)

structure Flags (names : FlagNames) where
  bits : UInt32
  deriving DecidableEq, Inhabited

namespace Flags
variable {names : FlagNames}

def none : Flags names := ⟨0⟩

/-- Are all flags of `g` set? -/
def has (f g : Flags names) : Bool := f.bits &&& g.bits = g.bits

/-- Is one flag of `g` set? -/
def meets (f g : Flags names) : Bool := f.bits &&& g.bits ≠ 0

def union (f g : Flags names) : Flags names := ⟨f.bits ||| g.bits⟩
def without (f g : Flags names) : Flags names := ⟨f.bits &&& ~~~g.bits⟩

instance : OrOp (Flags names) := ⟨union⟩

def setNames (f : Flags names) : List String :=
  names.filterMap fun (name, bit) => if f.bits &&& bit = bit then some name else Option.none

def unnamedBits (f : Flags names) : UInt32 :=
  names.foldl (fun rest (_, bit) => rest &&& ~~~bit) f.bits

def hexNumber (n : Nat) : String := String.ofList (Nat.toDigits 16 n)

def display (f : Flags names) : String :=
  let rest := f.unnamedBits
  String.intercalate " | "
    (f.setNames ++ if rest = 0 then [] else ["0x" ++ hexNumber rest.toNat])

def hexNat? (digits : List Char) : Option Nat :=
  if digits.isEmpty then Option.none
  else digits.foldlM (fun n c => (Bytes.hexValue? c).map (16 * n + ·)) 0

/-- One part of a text: a name, or `0x` and a number that fits. -/
def part? (names : FlagNames) (text : List Char) : Option UInt32 :=
  match text with
  | '0' :: 'x' :: digits => do
    let digits := match digits with
      | '+' :: rest => rest
      | rest => rest
    let n ← hexNat? digits
    if n < UInt32.size then some (UInt32.ofNat n) else Option.none
  | text => names.lookup (String.ofList text)

/-- Names in any order and numbers, joined by bars, with blanks around them ignored. -/
def ofText? (text : String) : Option (Flags names) :=
  let chars := text.toList
  if (Text.trimChars chars).isEmpty then some none
  else do
    let parts ← (Text.splitChars '|' chars).mapM fun piece => part? names (Text.trimChars piece)
    return ⟨parts.foldl (· ||| ·) 0⟩

end Flags
end MobileCode
