import MobileCode.Base64
import MobileCode.Error
import MobileCode.Text.Blank
import MobileCode.Wire.Codec

/-! # The wire format as text

Where only text can travel, the wire form is written in base 64. A reader passes over blanks
around it.
-/
namespace MobileCode.Wire.Codec
variable {α : Type}

/-- Reads from the front, or tells that the bytes are no form of the type. -/
def parse (c : Codec α) (bytes : Bytes) : Except Error α :=
  match c.read? bytes with
  | some x => .ok x
  | none => .error (.codec "not a form of the type")

def print (c : Codec α) (x : α) : String := Base64.encode (c.encode x)

def scan (c : Codec α) (text : String) : Except Error α :=
  match Base64.decode? (Text.trim text) with
  | some bytes => c.parse bytes
  | none => .error (.codec "not in base 64")

end MobileCode.Wire.Codec
