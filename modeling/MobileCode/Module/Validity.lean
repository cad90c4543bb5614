import MobileCode.Module
import MobileCode.Error

/-! # Valid modules

A module is valid when it and its types have names, no two of its types have the same full name,
and every branch stays inside its body. The check names the first defect in file order.
-/
namespace MobileCode
variable {α : Type}

/-- Every branch of a body leads to one of its positions. -/
def BranchesInside (body : List (Instruction α)) : Prop :=
  ∀ i ∈ body, ∀ t, i.target? = some t → t.toNat < body.length

structure Module.Valid (m : Module α) : Prop where
  named : m.name ≠ ""
  typesNamed : ∀ t ∈ m.types, t.name ≠ ""
  distinct : (m.types.map (·.fullName)).Nodup
  branches : ∀ t ∈ m.types, ∀ d ∈ t.methods, BranchesInside d.body

namespace MethodDecl

def branchDefect? (type : String) (d : MethodDecl α) : Option Defect :=
  d.body.zipIdx.findSome? fun (i, index) =>
    match i.target? with
    | some t =>
      if t.toNat < d.body.length then none
      else some (.branchOutside index type d.name t.toNat d.body.length)
    | none => none

end MethodDecl

namespace Module

def typeDefect? (module : String) (seen : List String) (t : TypeDecl α) : Option Defect :=
  if t.name.isEmpty then some (.unnamedType module)
  else if t.fullName ∈ seen then some (.duplicateType t.fullName module)
  else t.methods.findSome? (·.branchDefect? t.fullName)

def typesDefect? (module : String) : List String → List (TypeDecl α) → Option Defect
  | _, [] => none
  | seen, t :: rest =>
    (typeDefect? module seen t).or (typesDefect? module (t.fullName :: seen) rest)

def defect? (m : Module α) : Option Defect :=
  if m.name.isEmpty then some .unnamedModule else typesDefect? m.name [] m.types

def validate (m : Module α) : Except Error Unit :=
  match m.defect? with
  | some defect => .error (.malformed defect)
  | none => .ok ()

end Module
end MobileCode
