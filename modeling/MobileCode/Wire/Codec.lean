import MobileCode.Dict
import MobileCode.KeySet
import MobileCode.Double
import MobileCode.Bytes

/-! # The wire format

A codec pairs the writer of a type with its reader. Numbers are little-endian and of fixed width,
a sequence is preceded by its length in eight bytes, and a value of a type with several forms by
the position of its form in four. A reader takes its value off the front of the bytes and leaves
the rest, so codecs compose.
-/
namespace MobileCode.Wire

structure Codec (α : Type) where
  encode : α → Bytes
  decode : Bytes → Option (α × Bytes)

/-- On the values that satisfy `fits`, reading undoes writing, whatever follows. -/
def Codec.Inverts {α : Type} (c : Codec α) (fits : α → Prop) : Prop :=
  ∀ x, fits x → ∀ rest, c.decode (c.encode x ++ rest) = some (x, rest)

namespace Codec
variable {α β : Type}

/-- Reads from the front; bytes after the value are allowed. -/
def read? (c : Codec α) (bytes : Bytes) : Option α := (c.decode bytes).map (·.1)

def map (c : Codec α) (make : α → β) (parts : β → α) : Codec β where
  encode x := c.encode (parts x)
  decode bytes := (c.decode bytes).map fun (x, rest) => (make x, rest)

/-- Reads only what `make` accepts. -/
def check (c : Codec α) (make : α → Option β) (parts : β → α) : Codec β where
  encode x := c.encode (parts x)
  decode bytes := do
    let (x, rest) ← c.decode bytes
    return (← make x, rest)

def pair (c : Codec α) (d : Codec β) : Codec (α × β) where
  encode x := c.encode x.1 ++ d.encode x.2
  decode bytes := do
    let (x, rest) ← c.decode bytes
    let (y, rest) ← d.decode rest
    return ((x, y), rest)

def unit : Codec Unit := ⟨fun _ => [], fun bytes => some ((), bytes)⟩

end Codec

/-- `width` base-256 digits, least significant first. -/
def digits : Nat → Nat → Bytes
  | 0, _ => []
  | width + 1, n => UInt8.ofNat n :: digits width (n / 256)

def ofDigits : Bytes → Nat
  | [] => 0
  | b :: rest => b.toNat + 256 * ofDigits rest

def nat (width : Nat) : Codec Nat where
  encode := digits width
  decode bytes := (Bytes.splitExactly width bytes).map fun (front, rest) => (ofDigits front, rest)

def byte : Codec UInt8 where
  encode b := [b]
  decode
    | [] => none
    | b :: rest => some (b, rest)

def uint16 : Codec UInt16 := (nat 2).map UInt16.ofNat UInt16.toNat
def uint32 : Codec UInt32 := (nat 4).map UInt32.ofNat UInt32.toNat
def uint64 : Codec UInt64 := (nat 8).map UInt64.ofNat UInt64.toNat
def int32 : Codec Int32 := uint32.map UInt32.toInt32 Int32.toUInt32
def int64 : Codec Int64 := uint64.map UInt64.toInt64 Int64.toUInt64
def double : Codec Double := uint64.map Double.mk Double.bits

def bool : Codec Bool :=
  byte.check (fun b => if b = 0 then some false else if b = 1 then some true else none)
    fun x => if x then 1 else 0

def option {α : Type} (c : Codec α) : Codec (Option α) where
  encode
    | none => [0]
    | some x => 1 :: c.encode x
  decode
    | 0 :: rest => some (none, rest)
    | 1 :: rest => (c.decode rest).map fun (x, rest) => (some x, rest)
    | _ => none

/-- Reads `count` values one after the other. -/
def decodeMany {α : Type} (c : Codec α) : Nat → Bytes → Option (List α × Bytes)
  | 0, bytes => some ([], bytes)
  | count + 1, bytes => do
    let (x, rest) ← c.decode bytes
    let (xs, rest) ← decodeMany c count rest
    return (x :: xs, rest)

def list {α : Type} (c : Codec α) : Codec (List α) where
  encode xs := (nat 8).encode xs.length ++ xs.flatMap c.encode
  decode bytes := do
    let (count, rest) ← (nat 8).decode bytes
    decodeMany c count rest

/-- A byte string is a sequence of bytes. -/
def bytes : Codec Bytes where
  encode data := (nat 8).encode data.length ++ data
  decode input := do
    let (count, rest) ← (nat 8).decode input
    Bytes.splitExactly count rest

def text : Codec String := bytes.check Bytes.toText? Bytes.ofText

/-- Entries may come in any order and more than once; the last one of a name counts. -/
def dict {α : Type} (c : Codec α) : Codec (Dict α) := (list (text.pair c)).map Dict.ofList id

def keySet {α : Type} [Keyed α] (c : Codec α) : Codec (KeySet α) :=
  (list c).map KeySet.ofList id

/-- One form of a type: what it holds, how to make it and how to recognise it. -/
structure Form (α : Type) where
  Part : Type
  codec : Codec Part
  make : Part → α
  part? : α → Option Part

namespace Form
variable {α β : Type}

def of (c : Codec β) (make : β → α) (part? : α → Option β) : Form α := ⟨β, c, make, part?⟩

/-- A form that holds nothing. -/
def bare (x : α) (isForm : α → Bool) : Form α :=
  ⟨Unit, Codec.unit, fun _ => x, fun y => if isForm y then some () else none⟩

def encodeFrom (x : α) : Nat → List (Form α) → Bytes
  | _, [] => []
  | i, form :: rest =>
    match form.part? x with
    | some part => (nat 4).encode i ++ form.codec.encode part
    | none => encodeFrom x (i + 1) rest

def decode (form : Form α) (input : Bytes) : Option (α × Bytes) :=
  (form.codec.decode input).map fun (part, rest) => (form.make part, rest)

end Form

/-- A type with several forms, told apart by their positions in the list. -/
def forms {α : Type} (fs : List (Form α)) : Codec α where
  encode x := Form.encodeFrom x 0 fs
  decode input :=
    match (nat 4).decode input with
    | some (i, rest) =>
      match fs[i]? with
      | some form => form.decode rest
      | none => none
    | none => none

/-- A type whose forms hold nothing. -/
def enumeration {α : Type} [DecidableEq α] (values : List α) : Codec α :=
  forms (values.map fun x => Form.bare x (· = x))

end MobileCode.Wire
