import MobileCode.Json.Datum
import MobileCode.Module

/-! # Modules in JSON

The textual form of a module, for authors and tools: one record for each declaration, flags as
text, sets as sorted lists. Readers and writers of literals are given.
-/
namespace MobileCode
variable {α : Type}

namespace Mode

def ofJson? (j : Json) : Option Mode :=
  match j.form? with
  | some (name, none) | some (name, some .null) => ofName? name
  | _ => none

def toJson (m : Mode) : Json := .text m.name

end Mode

namespace Mobility

def ofJson? (j : Json) : Option Mobility := do
  let get ← j.record? ["mode", "run_on_main_thread"]
  return ⟨← Mode.ofJson? (← get "mode"), ← (← get "run_on_main_thread").asBool?⟩

def toJson (m : Mobility) : Json :=
  .object [("mode", m.mode.toJson), ("run_on_main_thread", .bool m.onMainThread)]

end Mobility

namespace TypeRef

def ofJson? (j : Json) : Option TypeRef := do
  let get ← j.record? ["scope", "full_name"]
  return ⟨← Json.nullable? Json.asText? (get "scope"), ← (← get "full_name").asText?⟩

def toJson (t : TypeRef) : Json :=
  .object [("scope", Json.optional .text t.scope), ("full_name", .text t.fullName)]

end TypeRef

namespace FieldRef

def ofJson? (j : Json) : Option FieldRef := do
  let get ← j.record? ["owner", "name"]
  return ⟨← TypeRef.ofJson? (← get "owner"), ← (← get "name").asText?⟩

def toJson (f : FieldRef) : Json := .object [("owner", f.owner.toJson), ("name", .text f.name)]

end FieldRef

namespace MethodRef

def ofJson? (j : Json) : Option MethodRef := do
  let get ← j.record? ["owner", "name", "param_types"]
  return ⟨← TypeRef.ofJson? (← get "owner"), ← (← get "name").asText?,
    ← (← get "param_types").listOf? Json.asText?⟩

def toJson (m : MethodRef) : Json :=
  .object [("owner", m.owner.toJson), ("name", .text m.name), ("param_types", .texts m.paramTypes)]

end MethodRef

namespace MethodKey

def ofJson? (j : Json) : Option MethodKey := do
  let get ← j.record? ["type_name", "name", "param_types"]
  return ⟨← (← get "type_name").asText?, ← (← get "name").asText?,
    ← (← get "param_types").listOf? Json.asText?⟩

def toJson (k : MethodKey) : Json :=
  .object [("type_name", .text k.type), ("name", .text k.name), ("param_types", .texts k.paramTypes)]

end MethodKey

namespace MemberId

def ofJson? (j : Json) : Option MemberId := do
  let get ← j.record? ["type_name", "name"]
  return ⟨← (← get "type_name").asText?, ← (← get "name").asText?⟩

def toJson (m : MemberId) : Json := .object [("type_name", .text m.type), ("name", .text m.name)]

end MemberId

namespace Closure

def setOfJson? [Keyed α] (f : Json → Option α) (j : Json) : Option (KeySet α) :=
  (j.listOf? f).map KeySet.ofList

def ofJson? (j : Json) : Option Closure := do
  let get ← j.record? ["fields", "properties", "methods", "modules"]
  return ⟨← setOfJson? MemberId.ofJson? (← get "fields"),
    ← setOfJson? MemberId.ofJson? (← get "properties"),
    ← setOfJson? MethodKey.ofJson? (← get "methods"),
    ← setOfJson? Json.asText? (← get "modules")⟩

def toJson (c : Closure) : Json :=
  .object [("fields", Json.ofList MemberId.toJson c.fields),
    ("properties", Json.ofList MemberId.toJson c.properties),
    ("methods", Json.ofList MethodKey.toJson c.methods), ("modules", .texts c.modules)]

end Closure

def operatorOfJson? {op : Type} (all : List op) (name : op → String) (j : Json) : Option op :=
  match j.form? with
  | some (text, none) | some (text, some .null) => all.find? fun o => (name o).capitalize = text
  | _ => none

namespace DispatchSite

def ofJson? (j : Json) : Option DispatchSite := do
  let get ← j.record? ["client", "mode", "run_on_main_thread", "method", "param_count"]
  return ⟨← TypeRef.ofJson? (← get "client"), ← Mode.ofJson? (← get "mode"),
    ← (← get "run_on_main_thread").asBool?, ← MethodRef.ofJson? (← get "method"),
    ← (← get "param_count").asUInt16?⟩

def toJson (s : DispatchSite) : Json :=
  .object [("client", s.client.toJson), ("mode", s.mode.toJson),
    ("run_on_main_thread", .bool s.onMainThread), ("method", s.method.toJson),
    ("param_count", .nat s.paramCount.toNat)]

end DispatchSite

namespace Instruction

def ofJson? (literal : Json → Option α) (j : Json) : Option (Instruction α) := do
  match ← j.form? with
  | (name, none) | (name, some .null) =>
    match name with
    | "Nop" => some nop
    | "LdThis" => some loadThis
    | "Not" => some .not
    | "Dup" => some dup
    | "Pop" => some pop
    | "Ret" => some ret
    | "Throw" => some throw
    | _ => none
  | ("Const", some x) => (literal x).map const
  | ("LdArg", some x) => x.asUInt16?.map loadArg
  | ("StArg", some x) => x.asUInt16?.map storeArg
  | ("LdLoc", some x) => x.asUInt16?.map loadLocal
  | ("StLoc", some x) => x.asUInt16?.map storeLocal
  | ("LdFld", some x) => (FieldRef.ofJson? x).map loadField
  | ("StFld", some x) => (FieldRef.ofJson? x).map storeField
  | ("LdSFld", some x) => (FieldRef.ofJson? x).map loadStatic
  | ("StSFld", some x) => (FieldRef.ofJson? x).map storeStatic
  | ("Call", some x) => (MethodRef.ofJson? x).map call
  | ("NewObj", some x) => (TypeRef.ofJson? x).map construct
  | ("Binary", some x) => (operatorOfJson? BinaryOp.all BinaryOp.name x).map binary
  | ("Compare", some x) => (operatorOfJson? CompareOp.all CompareOp.name x).map compare
  | ("Br", some x) => x.asUInt64?.map jump
  | ("BrTrue", some x) => x.asUInt64?.map jumpIfTrue
  | ("BrFalse", some x) => x.asUInt64?.map jumpIfFalse
  | ("Dispatch", some x) => (DispatchSite.ofJson? x).map dispatch
  | _ => none

def toJson (literal : α → Json) : Instruction α → Json
  | nop => .text "Nop"
  | const x => .form "Const" (literal x)
  | loadArg n => .form "LdArg" (.nat n.toNat)
  | storeArg n => .form "StArg" (.nat n.toNat)
  | loadLocal n => .form "LdLoc" (.nat n.toNat)
  | storeLocal n => .form "StLoc" (.nat n.toNat)
  | loadThis => .text "LdThis"
  | loadField f => .form "LdFld" f.toJson
  | storeField f => .form "StFld" f.toJson
  | loadStatic f => .form "LdSFld" f.toJson
  | storeStatic f => .form "StSFld" f.toJson
  | call m => .form "Call" m.toJson
  | construct t => .form "NewObj" t.toJson
  | binary op => .form "Binary" (.text op.name.capitalize)
  | compare op => .form "Compare" (.text op.name.capitalize)
  | .not => .text "Not"
  | jump t => .form "Br" (.nat t.toNat)
  | jumpIfTrue t => .form "BrTrue" (.nat t.toNat)
  | jumpIfFalse t => .form "BrFalse" (.nat t.toNat)
  | dup => .text "Dup"
  | pop => .text "Pop"
  | ret => .text "Ret"
  | throw => .text "Throw"
  | dispatch s => .form "Dispatch" s.toJson

end Instruction

def Flags.ofJson? {names : FlagNames} (j : Json) : Option (Flags names) := j.asText?.bind ofText?
def Flags.toJson {names : FlagNames} (f : Flags names) : Json := .text f.display

namespace ParamDecl

def ofJson? (literal : Json → Option α) (j : Json) : Option (ParamDecl α) := do
  let get ← j.record? ["name", "type_name", "default"]
  return ⟨← (← get "name").asText?, ← (← get "type_name").asText?,
    ← Json.nullable? literal (get "default")⟩

def toJson (literal : α → Json) (p : ParamDecl α) : Json :=
  .object [("name", .text p.name), ("type_name", .text p.type),
    ("default", Json.optional literal p.default)]

end ParamDecl

namespace FieldDecl

def ofJson? (literal : Json → Option α) (j : Json) : Option (FieldDecl α) := do
  let get ← j.record? ["name", "type_name", "flags", "initial"]
  return ⟨← (← get "name").asText?, ← (← get "type_name").asText?, ← Flags.ofJson? (← get "flags"),
    ← Json.nullable? literal (get "initial")⟩

def toJson (literal : α → Json) (f : FieldDecl α) : Json :=
  .object [("name", .text f.name), ("type_name", .text f.type), ("flags", f.flags.toJson),
    ("initial", Json.optional literal f.initial)]

end FieldDecl

namespace PropertyDecl

def ofJson? (j : Json) : Option PropertyDecl := do
  let get ← j.record? ["name", "type_name", "flags", "getter", "setter"]
  return ⟨← (← get "name").asText?, ← (← get "type_name").asText?, ← Flags.ofJson? (← get "flags"),
    ← Json.nullable? Json.asText? (get "getter"), ← Json.nullable? Json.asText? (get "setter")⟩

def toJson (p : PropertyDecl) : Json :=
  .object [("name", .text p.name), ("type_name", .text p.type), ("flags", p.flags.toJson),
    ("getter", Json.optional .text p.getter), ("setter", Json.optional .text p.setter)]

end PropertyDecl

namespace MethodDecl

def ofJson? (literal : Json → Option α) (j : Json) : Option (MethodDecl α) := do
  let get ← j.record? ["name", "flags", "params", "return_type", "locals", "body", "nomad",
    "relay_body", "reachable"]
  return {
    name := ← (← get "name").asText?
    flags := ← Flags.ofJson? (← get "flags")
    params := ← (← get "params").listOf? (ParamDecl.ofJson? literal)
    returns := ← Json.nullable? Json.asText? (get "return_type")
    locals := ← (← get "locals").asUInt16?
    body := ← (← get "body").listOf? (Instruction.ofJson? literal)
    mobility := ← Json.nullable? Mobility.ofJson? (get "nomad")
    relayBody := ← Json.nullable? Json.asText? (get "relay_body")
    closure := ← Json.nullable? Closure.ofJson? (get "reachable") }

def toJson (literal : α → Json) (d : MethodDecl α) : Json :=
  .object [("name", .text d.name), ("flags", d.flags.toJson),
    ("params", Json.ofList (ParamDecl.toJson literal) d.params),
    ("return_type", Json.optional .text d.returns), ("locals", .nat d.locals.toNat),
    ("body", Json.ofList (Instruction.toJson literal) d.body),
    ("nomad", Json.optional Mobility.toJson d.mobility),
    ("relay_body", Json.optional .text d.relayBody),
    ("reachable", Json.optional Closure.toJson d.closure)]

end MethodDecl

namespace TypeDecl

def ofJson? (literal : Json → Option α) (j : Json) : Option (TypeDecl α) := do
  let get ← j.record? ["namespace", "name", "flags", "fields", "properties", "methods"]
  return {
    space := ← (← get "namespace").asText?
    name := ← (← get "name").asText?
    flags := ← Flags.ofJson? (← get "flags")
    fields := ← (← get "fields").listOf? (FieldDecl.ofJson? literal)
    properties := ← (← get "properties").listOf? PropertyDecl.ofJson?
    methods := ← (← get "methods").listOf? (MethodDecl.ofJson? literal) }

def toJson (literal : α → Json) (t : TypeDecl α) : Json :=
  .object [("namespace", .text t.space), ("name", .text t.name), ("flags", t.flags.toJson),
    ("fields", Json.ofList (FieldDecl.toJson literal) t.fields),
    ("properties", Json.ofList PropertyDecl.toJson t.properties),
    ("methods", Json.ofList (MethodDecl.toJson literal) t.methods)]

end TypeDecl

namespace Module

def byteOfJson? (j : Json) : Option UInt8 := (j.asNatBelow? 256).map UInt8.ofNat

def ofJson? (literal : Json → Option α) (j : Json) : Option (Module α) := do
  let get ← j.record? ["name", "flags", "references", "types", "resources", "paired_hash"]
  return {
    name := ← (← get "name").asText?
    flags := ← Flags.ofJson? (← get "flags")
    references := ← (← get "references").listOf? Json.asText?
    types := ← (← get "types").listOf? (TypeDecl.ofJson? literal)
    resources := Dict.ofList (← (← get "resources").dictOf? (Json.listOf? byteOfJson?))
    pairedHash := ← Json.nullable? Json.asText? (get "paired_hash") }

def toJson (literal : α → Json) (m : Module α) : Json :=
  .object [("name", .text m.name), ("flags", m.flags.toJson), ("references", .texts m.references),
    ("types", Json.ofList (TypeDecl.toJson literal) m.types),
    ("resources", .object (m.resources.map fun (n, data) =>
      (n, Json.ofList (fun b : UInt8 => .nat b.toNat) data))),
    ("paired_hash", Json.optional .text m.pairedHash)]

end Module
end MobileCode
