import MobileCode.Module
import MobileCode.Error

/-! # Assembling bodies

Bodies are written with labels in place of positions. A label names the next instruction to be
emitted; defining it again moves it. When the body is finished every label has to stand in front
of an instruction, used or not, and every branch has to name a label.
-/
namespace MobileCode

/-- A label may be given before or after the branches that name it. -/
inductive Line (α : Type)
  | emit (i : Instruction α)
  | jump (label : String)
  | jumpIfTrue (label : String)
  | jumpIfFalse (label : String)
  deriving Inhabited

structure Assembler (α : Type) where
  /-- The emitted lines, the last one first. -/
  lines : List (Line α) := []
  labels : Dict Nat := []

namespace Assembler
variable {α : Type}

def push (a : Assembler α) (line : Line α) : Assembler α := { a with lines := line :: a.lines }
def emit (a : Assembler α) (i : Instruction α) : Assembler α := a.push (.emit i)
def size (a : Assembler α) : Nat := a.lines.length

def label (a : Assembler α) (name : String) : Assembler α :=
  { a with labels := a.labels.insert name a.size }

def resolve (a : Assembler α) (name : String) : Except Error UInt64 :=
  match a.labels.find? name with
  | some position => .ok (UInt64.ofNat position)
  | none => .error (.malformed (.undefinedLabel name))

def resolveLine (a : Assembler α) : Line α → Except Error (Instruction α)
  | .emit i => .ok i
  | .jump name => (a.resolve name).map .jump
  | .jumpIfTrue name => (a.resolve name).map .jumpIfTrue
  | .jumpIfFalse name => (a.resolve name).map .jumpIfFalse

def finish (a : Assembler α) : Except Error (List (Instruction α)) :=
  match List.find? (fun l => a.size ≤ l.2) a.labels with
  | some (name, _) => .error (.malformed (.labelPastBody name))
  | none => a.lines.reverse.mapM a.resolveLine

end Assembler

/-- A method without an implementation returns at once. -/
def bodyOf {α : Type} : Option (Assembler α) → Except Error (List (Instruction α))
  | none => .ok [.ret]
  | some a => a.finish

end MobileCode
