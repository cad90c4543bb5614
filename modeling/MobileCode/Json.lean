import MobileCode.Bytes
import MobileCode.Double

/-! # JSON

Whole numbers that fit a word of 64 bits are kept apart from all other numbers. Reading refuses
what the format does not have: lone surrogates, raw controls in texts, leading zeros, anything
after the value, and nesting of more than 127 levels.
-/
namespace MobileCode

inductive Json
  | null
  | bool (b : Bool)
  | int (n : Int)
  | decimal (negative : Bool) (mantissa : Nat) (exponent : Int)
  | text (s : String)
  | array (items : List Json)
  | object (members : List (String × Json))
  deriving Inhabited

namespace Json

/-! ## Reading -/

def skipBlanks : List Char → List Char
  | c :: rest => if c = ' ' || c = '\n' || c = '\t' || c = '\r' then skipBlanks rest else c :: rest
  | [] => []

def takeDigits : List Char → Nat → Nat → Nat × Nat × List Char
  | c :: rest, n, count =>
    if c.isDigit then takeDigits rest (10 * n + (c.toNat - 48)) (count + 1) else (n, count, c :: rest)
  | [], n, count => (n, count, [])

def hex4? : List Char → Option (Nat × List Char)
  | a :: b :: c :: d :: rest => do
    let n ← [a, b, c, d].foldlM (fun n c => (Bytes.hexValue? c).map (16 * n + ·)) 0
    return (n, rest)
  | _ => none

/-- The character of a `\u` escape, whose second half may follow in an escape of its own. -/
def unicodeEscape? (chars : List Char) : Option (Char × List Char) := do
  let (n, rest) ← hex4? chars
  if 0xd800 ≤ n ∧ n < 0xdc00 then
    match rest with
    | '\\' :: 'u' :: rest => do
      let (m, rest) ← hex4? rest
      if 0xdc00 ≤ m ∧ m < 0xe000 then
        return (Char.ofNat (0x10000 + (n - 0xd800) * 1024 + (m - 0xdc00)), rest)
      else none
    | _ => none
  else if 0xdc00 ≤ n ∧ n < 0xe000 then none
  else return (Char.ofNat n, rest)

def escape? : List Char → Option (Char × List Char)
  | '"' :: rest => some ('"', rest)
  | '\\' :: rest => some ('\\', rest)
  | '/' :: rest => some ('/', rest)
  | 'b' :: rest => some ('\x08', rest)
  | 'f' :: rest => some ('\x0c', rest)
  | 'n' :: rest => some ('\n', rest)
  | 'r' :: rest => some ('\r', rest)
  | 't' :: rest => some ('\t', rest)
  | 'u' :: rest => unicodeEscape? rest
  | _ => none

/-- The rest of a text, after its opening quote; the characters so far are reversed. -/
def textTail? : Nat → List Char → List Char → Option (String × List Char)
  | 0, _, _ => none
  | _ + 1, [], _ => none
  | fuel + 1, c :: rest, done =>
    if c = '"' then some (String.ofList done.reverse, rest)
    else if c = '\\' then
      match escape? rest with
      | some (e, rest) => textTail? fuel rest (e :: done)
      | none => none
    else if c.toNat < 32 then none
    else textTail? fuel rest (c :: done)

def fraction? : List Char → Nat → Option (Nat × Nat × List Char)
  | '.' :: rest, n =>
    let (n, count, rest) := takeDigits rest n 0
    if count = 0 then none else some (n, count, rest)
  | rest, n => some (n, 0, rest)

def exponent? : List Char → Option (Option Int × List Char)
  | c :: rest =>
    if c = 'e' || c = 'E' then
      let (negative, rest) := match rest with
        | '-' :: rest => (true, rest)
        | '+' :: rest => (false, rest)
        | rest => (false, rest)
      let (n, count, rest) := takeDigits rest 0 0
      if count = 0 then none else some (some (if negative then -(n : Int) else n), rest)
    else some (none, c :: rest)
  | [] => some (none, [])

def number? (negative : Bool) (chars : List Char) : Option (Json × List Char) := do
  let (n, count, rest) := takeDigits chars 0 0
  if count = 0 || (count ≠ 1 && chars.head? = some '0') then none
  else
    let (m, places, rest) ← fraction? rest n
    let (exponent, rest) ← exponent? rest
    let whole := places = 0 && exponent.isNone &&
      (if negative then n ≠ 0 && n ≤ 1 <<< 63 else n < UInt64.size)
    if whole then return (.int (if negative then -(n : Int) else n), rest)
    else return (.decimal negative m (exponent.getD 0 - places), rest)

def word? (word : String) (value : Json) (chars : List Char) : Option (Json × List Char) :=
  if word.toList.isPrefixOf chars then some (value, chars.drop word.length) else none

mutual

def value? : Nat → Nat → List Char → Option (Json × List Char)
  | 0, _, _ => none
  | fuel + 1, depth, chars =>
    match skipBlanks chars with
    | 'n' :: rest => word? "ull" .null rest
    | 't' :: rest => word? "rue" (.bool true) rest
    | 'f' :: rest => word? "alse" (.bool false) rest
    | '"' :: rest => (textTail? (rest.length + 1) rest []).map fun (s, rest) => (.text s, rest)
    | '-' :: rest => number? true rest
    | '[' :: rest =>
      if depth ≤ 1 then none
      else
        match skipBlanks rest with
        | ']' :: rest => some (.array [], rest)
        | rest => (items? fuel (depth - 1) rest []).map fun (xs, rest) => (.array xs, rest)
    | '\x7b' :: rest =>
      if depth ≤ 1 then none
      else
        match skipBlanks rest with
        | '\x7d' :: rest => some (.object [], rest)
        | rest => (members? fuel (depth - 1) rest []).map fun (ms, rest) => (.object ms, rest)
    | rest => number? false rest

def items? : Nat → Nat → List Char → List Json → Option (List Json × List Char)
  | 0, _, _, _ => none
  | fuel + 1, depth, chars, done =>
    match value? fuel depth chars with
    | none => none
    | some (x, rest) =>
      match skipBlanks rest with
      | ',' :: rest => items? fuel depth rest (x :: done)
      | ']' :: rest => some ((x :: done).reverse, rest)
      | _ => none

def members? : Nat → Nat → List Char → List (String × Json) →
    Option (List (String × Json) × List Char)
  | 0, _, _, _ => none
  | fuel + 1, depth, chars, done =>
    match skipBlanks chars with
    | '"' :: rest =>
      match textTail? (rest.length + 1) rest [] with
      | none => none
      | some (name, rest) =>
        match skipBlanks rest with
        | ':' :: rest =>
          match value? fuel depth rest with
          | none => none
          | some (x, rest) =>
            match skipBlanks rest with
            | ',' :: rest => members? fuel depth rest ((name, x) :: done)
            | '\x7d' :: rest => some (((name, x) :: done).reverse, rest)
            | _ => none
        | _ => none
    | _ => none

end

def parse? (text : String) : Option Json :=
  let chars := text.toList
  match value? (2 * chars.length + 2) 128 chars with
  | some (x, rest) => if (skipBlanks rest).isEmpty then some x else none
  | none => none

/-! ## Writing -/

def hexPadded (width n : Nat) : List Char :=
  let digits := Nat.toDigits 16 n
  List.replicate (width - digits.length) '0' ++ digits

def escapeChar (c : Char) : List Char :=
  match c with
  | '"' => ['\\', '"']
  | '\\' => ['\\', '\\']
  | '\n' => ['\\', 'n']
  | '\r' => ['\\', 'r']
  | '\t' => ['\\', 't']
  | '\x08' => ['\\', 'b']
  | '\x0c' => ['\\', 'f']
  | c => if c.toNat < 32 then '\\' :: 'u' :: hexPadded 4 c.toNat else [c]

def quote (s : String) : String := String.ofList ('"' :: s.toList.flatMap escapeChar ++ ['"'])

def scalarText : Json → String
  | null => "null"
  | bool b => if b then "true" else "false"
  | int n => toString n
  | decimal negative m e => (if negative then "-" else "") ++ toString m ++ "e" ++ toString e
  | text s => quote s
  | array _ => "[]"
  | object _ => "\x7b\x7d"

mutual

def compact : Json → String
  | array xs => "[" ++ compactItems xs ++ "]"
  | object ms => "\x7b" ++ compactMembers ms ++ "\x7d"
  | x => scalarText x

def compactItems : List Json → String
  | [] => ""
  | [x] => compact x
  | x :: rest => compact x ++ "," ++ compactItems rest

def compactMembers : List (String × Json) → String
  | [] => ""
  | [(n, x)] => quote n ++ ":" ++ compact x
  | (n, x) :: rest => quote n ++ ":" ++ compact x ++ "," ++ compactMembers rest

end

def newLine (indent : Nat) : String := String.ofList ('\n' :: List.replicate (2 * indent) ' ')

mutual

/-- One item a line, two blanks of indentation a level. -/
def pretty (indent : Nat) : Json → String
  | array (x :: xs) => "[" ++ prettyItems (indent + 1) (x :: xs) ++ newLine indent ++ "]"
  | object (m :: ms) => "\x7b" ++ prettyMembers (indent + 1) (m :: ms) ++ newLine indent ++ "\x7d"
  | x => scalarText x

def prettyItems (indent : Nat) : List Json → String
  | [] => ""
  | [x] => newLine indent ++ pretty indent x
  | x :: rest => newLine indent ++ pretty indent x ++ "," ++ prettyItems indent rest

def prettyMembers (indent : Nat) : List (String × Json) → String
  | [] => ""
  | [(n, x)] => newLine indent ++ quote n ++ ": " ++ pretty indent x
  | (n, x) :: rest =>
    newLine indent ++ quote n ++ ": " ++ pretty indent x ++ "," ++ prettyMembers indent rest

end

/-! ## Taking apart -/

mutual

/-- Levels of nesting. -/
def depth : Json → Nat
  | array xs => depthItems xs + 1
  | object ms => depthMembers ms + 1
  | _ => 1

def depthItems : List Json → Nat
  | [] => 0
  | x :: rest => max (depth x) (depthItems rest)

def depthMembers : List (String × Json) → Nat
  | [] => 0
  | (_, x) :: rest => max (depth x) (depthMembers rest)

end

def asText? : Json → Option String
  | text s => some s
  | _ => none

def asBool? : Json → Option Bool
  | bool b => some b
  | _ => none

def asInt? : Json → Option Int
  | int n => some n
  | _ => none

/-- A whole number from `low` to `high`. -/
def asIntIn? (low high : Int) (j : Json) : Option Int :=
  j.asInt?.bind fun n => if low ≤ n ∧ n ≤ high then some n else none

def asNatBelow? (bound : Nat) (j : Json) : Option Nat :=
  j.asInt?.bind fun n => if 0 ≤ n ∧ n < bound then some n.toNat else none

def asUInt64? (j : Json) : Option UInt64 := (j.asNatBelow? UInt64.size).map UInt64.ofNat
def asUInt16? (j : Json) : Option UInt16 := (j.asNatBelow? UInt16.size).map UInt16.ofNat

/-- The first digits of a number, as many as fit a word, and how many are left out. -/
def leading (m : Nat) : Nat → Nat × Nat
  | 0 => (m, 0)
  | k + 1 => if m < UInt64.size then (m, 0) else let (n, dropped) := leading (m / 10) k; (n, dropped + 1)

/-- `x * 10 ^ exponent` by one multiplication or division where the power is a double. Nothing
stands for a number that is too large. -/
def scale? : Nat → Float → Int → Option Float
  | 0, x, _ => some x
  | fuel + 1, x, exponent =>
    let power := Float.ofScientific 1 false exponent.natAbs
    if exponent.natAbs ≤ 308 then
      if exponent < 0 then some (x / power)
      else if (x * power).isInf then none
      else some (x * power)
    else if x == 0.0 then some x
    else if 0 < exponent then none
    else scale? fuel (x / Float.ofScientific 1 false 308) (exponent + 308)

/-- A number as a double. Digits beyond a word are left out, and the power of ten is applied in
double arithmetic, so the last bit may differ from the nearest double. -/
def asNumber? : Json → Option Double
  | int n => some (Double.ofFloat (Float.ofInt n))
  | decimal negative m e => do
    let (n, dropped) := leading m (Nat.log2 m + 1)
    let x ← scale? 4 (Float.ofNat n) (e + dropped)
    return Double.ofFloat (if negative then -x else x)
  | _ => none

def asArray? : Json → Option (List Json)
  | array xs => some xs
  | _ => none

def asObject? : Json → Option (List (String × Json))
  | object ms => some ms
  | _ => none

def listOf? {α : Type} (f : Json → Option α) (j : Json) : Option (List α) :=
  j.asArray?.bind (·.mapM f)

def dictOf? {α : Type} (f : Json → Option α) (j : Json) : Option (List (String × α)) :=
  j.asObject?.bind (·.mapM fun (n, x) => (f x).map (n, ·))

/-- The member of a name; null counts as absent. -/
def get? (j : Json) (name : String) : Option Json :=
  match j with
  | object ms =>
    match ms.lookup name with
    | some null => none
    | x => x
  | _ => none

def nullable? {α : Type} (f : Json → Option α) : Option Json → Option (Option α)
  | none | some null => some none
  | some x => (f x).map some

/-- The parts of a record, by name or, in an array, by position. A name may occur only once. -/
def record? (names : List String) : Json → Option (String → Option Json)
  | object ms =>
    if names.all fun n => (ms.filter (·.1 = n)).length ≤ 1 then some fun n => ms.lookup n
    else none
  | array xs => if xs.length = names.length then some fun n => (names.zip xs).lookup n else none
  | _ => none

/-- The name of a form and what it holds, which a bare form leaves out. -/
def form? : Json → Option (String × Option Json)
  | text s => some (s, none)
  | object [(name, x)] => some (name, some x)
  | _ => none

/-! ## Putting together -/

def optional {α : Type} (f : α → Json) : Option α → Json
  | none => null
  | some x => f x

def ofList {α : Type} (f : α → Json) (xs : List α) : Json := array (xs.map f)
def texts (xs : List String) : Json := ofList text xs
def nat (n : Nat) : Json := int n
def form (name : String) (x : Json) : Json := object [(name, x)]

end Json
end MobileCode
