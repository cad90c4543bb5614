import MobileCode.Module
import MobileCode.Text.Lowercase

/-! # Listings

The text of a module for readers: types with their members, and bodies with positions.
-/
namespace MobileCode.CommandLine

/-- Flags in square brackets. -/
def bracketed {names : FlagNames} (f : Flags names) : String :=
  "[" ++ String.intercalate " " f.setNames ++ "]"

def methodLines (d : MethodDecl Datum) : List String :=
  let params := d.params.map fun p => p.type ++ " " ++ p.name
  let thread := fun (a : Mobility) => if a.onMainThread then ", main thread" else ""
  ["", "  .method " ++ bracketed d.flags ++ " " ++ d.returns.getD "void" ++ " " ++ d.name ++ "(" ++
      String.intercalate ", " params ++ ")"] ++
    (d.mobility.map fun a => "  // nomadic " ++ a.mode.name ++ thread a).toList ++
    (d.relayBody.map ("  // body relayed to " ++ ·)).toList ++ ["  \x7b"] ++
    (if d.locals = 0 then [] else ["    .locals " ++ toString d.locals.toNat]) ++
    (d.body.zipIdx.map fun (i, k) => "    " ++ Instruction.position k ++ ": " ++ i.display) ++
    ["  \x7d"]

def typeHeading (t : TypeDecl Datum) : List String :=
  let flags := if t.flags.setNames.isEmpty then "" else bracketed t.flags ++ " "
  [".class " ++ flags ++ t.fullName ++ " \x7b"] ++
    (t.fields.map fun f =>
      "  .field " ++ (if f.isStatic then "static " else "") ++ f.type ++ " " ++ f.name) ++
    t.properties.map fun p => "  .property " ++ p.type ++ " " ++ p.name ++ " (get: " ++
      p.getter.getD "-" ++ ", set: " ++ p.setter.getD "-" ++ ")"

def matchesFilter (filter : Option String) (name : String) : Bool :=
  filter.all (Text.containsIgnoringCase name)

/-- The types whose names contain the one text, and of their methods those of the other name; a
type without such a method is left out. -/
def moduleLines (m : Module Datum) (type method : Option String) : List String :=
  ["// module " ++ m.name] ++
    (if m.references.isEmpty then [] else ["// references " ++ String.intercalate ", " m.references]) ++
    (m.pairedHash.map ("// paired with client " ++ ·)).toList ++
    (m.types.filter fun t => matchesFilter type t.fullName).flatMap fun t =>
      let methods := t.methods.filter fun d => method.all (d.name = ·)
      if methods.isEmpty && method.isSome then []
      else [""] ++ typeHeading t ++ methods.flatMap methodLines ++ ["\x7d"]

end MobileCode.CommandLine
