/-! # Blanks

Trimming removes the characters with the Unicode property White_Space from both ends.
-/
namespace MobileCode.Text

def isBlank (c : Char) : Bool :=
  let n := c.toNat
  (9 ≤ n && n ≤ 13) || n = 0x20 || n = 0x85 || n = 0xa0 || n = 0x1680 ||
    (0x2000 ≤ n && n ≤ 0x200a) || n = 0x2028 || n = 0x2029 || n = 0x202f || n = 0x205f ||
    n = 0x3000

def trimLeft (text : List Char) : List Char := text.dropWhile isBlank
def trimRight (text : List Char) : List Char := (text.reverse.dropWhile isBlank).reverse
def trimChars (text : List Char) : List Char := trimRight (trimLeft text)
def trim (text : String) : String := String.ofList (trimChars text.toList)

/-- The pieces of a text between the occurrences of a separator; there is always one. -/
def splitChars (sep : Char) : List Char → List (List Char)
  | [] => [[]]
  | c :: rest =>
    if c = sep then [] :: splitChars sep rest
    else
      match splitChars sep rest with
      | [] => [[c]]
      | piece :: pieces => (c :: piece) :: pieces

def split (sep : Char) (text : String) : List String :=
  (splitChars sep text.toList).map String.ofList

end MobileCode.Text
