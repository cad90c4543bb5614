import MobileCode.Bytes

/-! # Correlation ids

An id is a number of 128 bits. It is written in five groups of hexadecimal digits. A reader also
takes the digits without hyphens, the groups in braces, and the groups with a name space in front.
-/
namespace MobileCode

structure Uuid where
  bytes : Bytes
  size : bytes.length = 16
  deriving DecidableEq

namespace Uuid

def ofBytes? (bytes : Bytes) : Option Uuid := if h : bytes.length = 16 then some ⟨bytes, h⟩ else none

/-- `width` base-256 digits of a number, most significant first. -/
def bigEndian : Nat → Nat → Bytes
  | 0, _ => []
  | width + 1, n => bigEndian width (n / 256) ++ [UInt8.ofNat n]

theorem length_bigEndian (width n : Nat) : (bigEndian width n).length = width := by
  induction width generalizing n with
  | zero => rfl
  | succ width ih => simp [bigEndian, ih]

def ofNat (n : Nat) : Uuid := ⟨bigEndian 16 n, length_bigEndian 16 n⟩

instance : Inhabited Uuid := ⟨ofNat 0⟩

/-- The sizes of the groups, in bytes. -/
def groups : List Nat := [4, 2, 2, 2, 6]

def cut : List Nat → Bytes → List Bytes
  | [], _ => []
  | n :: sizes, bytes => bytes.take n :: cut sizes (bytes.drop n)

def toText (id : Uuid) : String := String.intercalate "-" ((cut groups id.bytes).map Bytes.toHex)

/-- Takes hexadecimal digits for each group, with hyphens between the groups. -/
def takeGroups : List Nat → List Char → Option (List Char)
  | [], _ => none
  | [n], chars => if chars.length = 2 * n then some chars else none
  | n :: sizes, chars =>
    match chars.drop (2 * n) with
    | '-' :: rest => (takeGroups sizes rest).map (chars.take (2 * n) ++ ·)
    | _ => none

def ofGroups? (chars : List Char) : Option Uuid := do
  ofBytes? (← Bytes.ofHexDigits? (← takeGroups groups chars))

def nameSpace : String := "urn:uuid:"

def ofText? (text : String) : Option Uuid :=
  let chars := text.toList
  if chars.length = 32 then (Bytes.ofHexDigits? chars).bind ofBytes?
  else if chars.length = 36 then ofGroups? chars
  else if chars.length = 38 ∧ chars.head? = some '\x7b' ∧ chars.getLast? = some '\x7d' then
    ofGroups? (chars.drop 1).dropLast
  else if (chars.take nameSpace.length).map Char.toLower = nameSpace.toList then
    ofGroups? (chars.drop nameSpace.length)
  else none

end Uuid
end MobileCode
