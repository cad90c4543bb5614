import MobileCode.Json.Module
import MobileCode.Digest
import MobileCode.Service.Mail
import MobileCode.Service.Recovery

/-! # Requests, answers and errors in JSON

The textual form of what clients and servers exchange. Literals are read and written as given;
messages of errors and faults are written through a function, so that a document can leave parts
of them out.
-/
namespace MobileCode
variable {α : Type}

namespace Json

/-- A list that may be left out. -/
def listAt? {β : Type} (j : Json) (name : String) (f : Json → Option β) : Option (List β) :=
  ((j.get? name).map (·.listOf? f)).getD (some [])

def textAt? (j : Json) (name : String) : Option String := (j.get? name).bind (·.asText?)

/-- A flag that may be left out. -/
def flagAt? (j : Json) (name : String) : Option Bool :=
  ((j.get? name).map (·.asBool?)).getD (some false)

def hexBytes? (j : Json) : Option Bytes := j.asText?.bind Bytes.ofHex?
def hexBytes (data : Bytes) : Json := text data.toHex

end Json

namespace VariableKind

def name : VariableKind → String
  | field => "Field"
  | property => "Property"
  | parameter => "Parameter"

def ofName? (text : String) : Option VariableKind := List.find? (·.name = text) all

end VariableKind

namespace Variable

def ofJson? (literal : Json → Option α) (j : Json) : Option (Variable α) := do
  match ← j.form? with
  | (kind, some x) =>
    return ⟨← VariableKind.ofName? kind, ← x.textAt? "name", ← x.textAt? "owner",
      ← x.textAt? "declared_type", ← (x.get? "value").bind literal, ← x.flagAt? "is_static"⟩
  | _ => none

def toJson (literal : α → Json) (v : Variable α) : Json :=
  .form v.kind.name (.object [("name", .text v.name), ("owner", .text v.owner),
    ("declared_type", .text v.type), ("value", literal v.value), ("is_static", .bool v.isStatic)])

end Variable

namespace Fault

def ofJson? (j : Json) : Option Fault := do
  let message ← j.textAt? "message"
  match ← j.textAt? "kind" with
  | "UserException" => return ⟨.thrown (← j.textAt? "type") (← j.textAt? "method"), message⟩
  | "StaleModule" => return ⟨.staleModule, message⟩
  | "MemberNotFound" => return ⟨.memberNotFound, message⟩
  | "InvalidRequest" => return ⟨.invalidRequest, message⟩
  | "Internal" => return ⟨.internal, message⟩
  | _ => none

def toJson (wording : String → String) (f : Fault) : Json :=
  let message := ("message", Json.text (wording f.message))
  let plain (kind : String) : Json := .object [("kind", .text kind), message]
  match f.kind with
  | .thrown type method =>
    .object [("kind", .text "UserException"), ("type", .text type), ("method", .text method), message]
  | .staleModule => plain "StaleModule"
  | .memberNotFound => plain "MemberNotFound"
  | .invalidRequest => plain "InvalidRequest"
  | .internal => plain "Internal"

end Fault

namespace ReferenceKind

def all : List ReferenceKind := [field, property, method, type]

def ofName? (text : String) : Option ReferenceKind := all.find? (·.name = text)

end ReferenceKind

namespace Error

/-- Reads errors of at most `n` levels. -/
def ofJsonUpTo? : Nat → Json → Option Error
  | 0, _ => none
  | n + 1, j => do
    let text := j.textAt?
    match ← text "kind" with
    | "Malformed" => return malformed (.stated (← text "message"))
    | "Codec" => return codec (← text "message")
    | "Error" => return general (← text "message")
    | "InvalidOperation" => return invalid (.stated (← text "message"))
    | "ReferenceNotFound" =>
      return unresolved (← ReferenceKind.ofName? (← text "reference")) (← text "name") (← text "owner")
        (← text "method")
    | "InvalidNomadMethod" => return unmovable (← text "method") (← text "module") (← text "reason")
    | "StaleModule" =>
      return stale (← text "module") (← text "type") (← text "loaded_hash") (← text "requested_hash")
    | "MemberNotFound" => return memberNotFound (← text "member") (← text "type") (← text "module")
    | "AccessorUnavailable" => return accessorUnavailable (← text "property") (← text "type")
    | "ServerTimeout" =>
      let nanos ← (j.get? "nanos").bind (·.asNatBelow? UInt64.size)
      return timeout (← text "method") (← text "type") (← text "module") ⟨nanos⟩
    | "RecoveryFailed" =>
      match j.get? "retry" with
      | some errors => (errors.listOf? (ofJsonUpTo? n)).map retriesFailed
      | none => do
        let errors ← (← j.get? "failover").dictOf? (ofJsonUpTo? n)
        return endpointsFailed (Dict.ofList errors)
    | "UserException" => return thrown (← text "type") (← text "method") (← text "message")
    | "Remote" => return remote (← Fault.ofJson? (← j.get? "fault"))
    | "Transport" => return transport (← text "endpoint") (← text "message")
    | "RecursionLimit" => return recursionLimit (← (j.get? "limit").bind (·.asNatBelow? UInt64.size))
    | "LockError" => return poisonedLock
    | _ => none

def ofJson? (j : Json) : Option Error := ofJsonUpTo? (j.depth + 1) j

/-- The name of the kind of an error. -/
def kindName : Error → String
  | malformed _ => "Malformed"
  | fileSystem _ => "FileError"
  | codec _ => "Codec"
  | general _ => "Error"
  | unresolved .. => "ReferenceNotFound"
  | unmovable .. => "InvalidNomadMethod"
  | stale .. => "StaleModule"
  | memberNotFound .. => "MemberNotFound"
  | accessorUnavailable .. => "AccessorUnavailable"
  | invalid _ => "InvalidOperation"
  | timeout .. => "ServerTimeout"
  | retriesFailed _ | endpointsFailed _ => "RecoveryFailed"
  | thrown .. => "UserException"
  | remote _ => "Remote"
  | transport .. => "Transport"
  | recursionLimit _ => "RecursionLimit"
  | poisonedLock => "LockError"

mutual

/-- The kind, the message, and what an error holds besides. Failures of codecs and files have no
message of their own. -/
def toJson (wording : String → String) : Error → Json
  | malformed d => .object [("error", .text "Malformed"), ("message", .text (wording d.message))]
  | fileSystem _ => .object [("error", .text "FileError")]
  | codec _ => .object [("error", .text "Codec")]
  | retriesFailed es => .object (head wording (retriesFailed es) ++
      [("attempts", .nat (retriesFailed es).attempts), ("errors", .array (toJsonItems wording es))])
  | endpointsFailed es => .object (head wording (endpointsFailed es) ++
      [("attempts", .nat (endpointsFailed es).attempts), ("errors", .object (toJsonMembers wording es))])
  | remote f => .object (head wording (remote f) ++ [("fault", f.toJson wording)])
  | e => .object (head wording e)
where
  head (wording : String → String) (e : Error) : List (String × Json) :=
    [("error", .text e.kindName), ("message", .text (wording e.message))]

def toJsonItems (wording : String → String) : List Error → List Json
  | [] => []
  | e :: rest => toJson wording e :: toJsonItems wording rest

def toJsonMembers (wording : String → String) : List (String × Error) → List (String × Json)
  | [] => []
  | (n, e) :: rest => (n, toJson wording e) :: toJsonMembers wording rest

end
end Error

namespace Answer

def ofJson? (literal : Json → Option α) (j : Json) : Option (Answer α) := do
  match ← j.form? with
  | ("ModuleUnknown", none) => return .moduleUnknown
  | ("Fault", some f) => return .fault (← Fault.ofJson? f)
  | ("Completed", some x) =>
    return .completed (← (x.get? "return_value").bind literal)
      (← x.listAt? "non_locals" (Variable.ofJson? literal))
  | _ => none

def toJson (wording : String → String) (literal : α → Json) : Answer α → Json
  | completed result nonLocals => .form "Completed" (.object [("return_value", literal result),
      ("non_locals", Json.ofList (Variable.toJson literal) nonLocals)])
  | moduleUnknown => .text "ModuleUnknown"
  | fault f => .form "Fault" (f.toJson wording)

end Answer

namespace Request

/-- The id of a request; the first one, if it is left out. -/
def idOfJson? (j : Json) : Option Uuid :=
  match j.get? "id" with
  | none => some (Uuid.ofNat 1)
  | some id => id.asText?.bind Uuid.ofText?

/-- A digest, or the algorithm and the name of the data it is of. -/
def hashOfJson? (data : String → Option Bytes) : Json → Option String
  | .text s => some s
  | .object [(algorithm, name)] => do
    return (← DigestAlgorithm.ofName? algorithm).digest (← data (← name.asText?))
  | _ => none

/-- Reads a request; the data that it names are given. -/
def ofJson? (literal : Json → Option α) (data : String → Option Bytes) (j : Json) :
    Option (Request α) := do
  let upload ← match j.get? "upload" with
    | some name => (name.asText?.bind data).map some
    | none => Json.nullable? Json.hexBytes? (j.get? "bytes")
  return {
    id := ← idOfJson? j
    mode := ← ((j.get? "mode").map Mode.ofJson?).getD (some .normal)
    onMainThread := ← j.flagAt? "main_thread"
    file := ← j.textAt? "file"
    hash := ← (j.get? "hash").bind (hashOfJson? data)
    type := ← j.textAt? "type"
    method := ← j.textAt? "method"
    params := ← j.listAt? "params" (Variable.ofJson? literal)
    nonLocals := ← j.listAt? "non_locals" (Variable.ofJson? literal)
    upload }

/-- Of the module that a request carries, the size is written. -/
def toJson (literal : α → Json) (r : Request α) : Json :=
  .object [("mode", r.mode.toJson), ("main_thread", .bool r.onMainThread), ("file", .text r.file),
    ("hash", .text r.hash), ("type", .text r.type), ("method", .text r.method),
    ("params", Json.ofList (Variable.toJson literal) r.params),
    ("non_locals", Json.ofList (Variable.toJson literal) r.nonLocals),
    ("upload", Json.optional (fun data : Bytes => .nat data.length) r.upload)]

end Request

/-- Attempts, endpoints, or neither for a single attempt. -/
def Recovery.ofJson? (j : Json) : Option Recovery := do
  match j.get? "retry", j.get? "failover" with
  | some n, _ =>
    let pause ← Json.nullable? (Json.asNatBelow? UInt64.size) (j.get? "pause_ms")
    return .retry (← n.asNatBelow? UInt64.size) (pause.map Duration.ofMillis)
  | none, some endpoints => return .failover (← endpoints.listOf? Json.asText?)
  | none, none => return .direct

/-- The result of a call that was not executed is null. -/
def CallResult.toJson [Literal α] (literal : α → Json) (r : CallResult α) : Json :=
  .object [("executed", .bool r.isExecuted), ("assembly_missing", .bool r.isModuleMissing),
    ("result", literal (r.result?.getD Literal.null)),
    ("non_locals", Json.ofList (Variable.toJson literal) r.nonLocals)]

namespace Mail

def ofJson? (j : Json) : Option Mail := do
  let attachments ← ((j.get? "attachments").map (·.dictOf? Json.hexBytes?)).getD (some [])
  return { sender := ← j.textAt? "from", recipient := ← j.textAt? "to",
           subject := ← j.textAt? "subject", body := ← j.textAt? "body",
           attachments := Dict.ofList attachments }

def toJson (m : Mail) : Json :=
  .object [("id", .nat m.id), ("from", .text m.sender), ("to", .text m.recipient),
    ("subject", .text m.subject), ("body", .text m.body),
    ("attachments", .object (m.attachments.map fun (n, data) => (n, Json.hexBytes data)))]

end Mail
end MobileCode
