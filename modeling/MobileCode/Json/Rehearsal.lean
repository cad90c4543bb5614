import MobileCode.Deployment
import MobileCode.Json.Service
import MobileCode.Json.Settings
import MobileCode.Json.Value
import MobileCode.Service.Rehearsal

/-! # Rehearsals in JSON

What a rehearsal needs, read from JSON, and its events. Data such as module files have names, and
other parts refer to them by these.
-/
namespace MobileCode

namespace Event

def outcome (wording : String → String) : Option Error → Json
  | none => .text "ok"
  | some e => e.toJson wording

/-- The name of the event with what it concerns, and its circumstances. -/
def toJson (wording : String → String) (double : Double → Json) : Event → Json
  | connect endpoint e => .object [("connect", .text endpoint), ("answer", outcome wording e)]
  | start endpoint e => .object [("open", .text endpoint), ("answer", outcome wording e)]
  | close endpoint e => .object [("close", .text endpoint), ("answer", outcome wording e)]
  | abort endpoint => .object [("abort", .text endpoint)]
  | exchange endpoint heap r sameId limit answer =>
    .object [("exchange", .text endpoint), ("request", r.toJson (Value.toJson double heap)),
      ("same_id", .bool sameId), ("timeout", Json.optional (fun d : Duration => .text d.toText) limit),
      ("answer", match answer with
        | .ok a => a.toJson wording (Datum.toJsonNumbered double)
        | .error e => e.toJson wording)]
  | dispatch site receiver heap args =>
    .object [("dispatch", .text site.method.display), ("mode", site.mode.toJson),
      ("main_thread", .bool site.onMainThread), ("receiver", Json.optional .text receiver),
      ("args", Value.listToJson double heap args)]
  | native type method heap args =>
    .object [("native", .text (type ++ "::" ++ method)), ("args", Value.listToJson double heap args)]
  | resolve module => .object [("resolve", .text module)]

end Event

namespace Script

def failureOfJson? : Json → Option (Option Error)
  | .null => some none
  | j => (Error.ofJson? j).map some

/-- An answer or an error. -/
def outcomeOfJson? (literal : Json → Option Datum) (j : Json) : Option (Except Error (Answer Datum)) :=
  ((Answer.ofJson? literal j).map .ok) <|> ((Error.ofJson? j).map .error)

def ofJson? (literal : Json → Option Datum) (j : Json) : Option Script := do
  return { connects := ← j.listAt? "connect" failureOfJson?
           starts := ← j.listAt? "open" failureOfJson?
           exchanges := ← j.listAt? "exchange" (outcomeOfJson? literal)
           closes := ← j.listAt? "close" failureOfJson? }

end Script

/-- The digest of a record, or the usual one. -/
def DigestAlgorithm.at? (j : Json) : Option DigestAlgorithm :=
  match j.get? "digest" with
  | none => some .sha1
  | some d => d.asText?.bind ofName?

/-- Named data. -/
abbrev Blobs := List (String × Bytes)

namespace Blobs

/-- One side of the deployment of a module. -/
def sideOfJson? (literal : Json → Option Datum) (side : Deployment → Module Datum) (j : Json) :
    Option (Except Error Bytes) := do
  let m ← (j.get? "module").bind (Module.ofJson? literal)
  let dependencies ← j.listAt? "dependencies" (Module.ofJson? literal)
  match Deployment.make? {} (← DigestAlgorithm.at? j) m dependencies with
  | .ok (some d) => return .ok (side d).toFile
  | .ok none => none
  | .error e => return .error e

def oneOfJson? (literal : Json → Option Datum) (j : Json) : Option (Except Error Bytes) := do
  match ← j.form? with
  | ("hex", some x) => (Json.hexBytes? x).map .ok
  | ("module", some m) => (Module.ofJson? literal m).map fun m => .ok m.toFile
  | ("client", some p) => sideOfJson? literal (·.client) p
  | ("server", some p) => sideOfJson? literal (·.server) p
  | _ => none

def ofJson? (literal : Json → Option Datum) (j : Option Json) : Option (Except Error Blobs) := do
  let blobs ← (j.map (·.dictOf? (oneOfJson? literal))).getD (some [])
  return blobs.mapM fun (name, data) => data.map (name, ·)

end Blobs

namespace Domain

/-- An empty domain. -/
def ofJson? (j : Json) : Option Domain := do
  let hostName ← match j.get? "host" with
    | none => some "host"
    | some h => h.asText?
  let maxDepth ← Json.orDefault? 256 (Json.asNatBelow? UInt64.size) (j.get? "depth")
  return { hostName, digest := ← DigestAlgorithm.at? j, maxDepth }

end Domain

namespace Server

/-- Puts files into the probe directories, which are numbered. -/
def diskOf? (directories : List (List (String × Bytes))) : Option FileTree :=
  directories.zipIdx.foldlM (fun t (files, i) => do
    let t ← FileTree.createDirectories? t s!"probe{i}"
    files.foldlM (fun t (name, data) => FileTree.write? t s!"probe{i}/{name}" data) t) {}

/-- A server with an empty sandbox. One with a domain of its own takes only the depth limit over. -/
def ofJson? (data : String → Option Bytes) (j : Json) : Option Server := do
  let given ← Domain.ofJson? j
  let own ← j.flagAt? "own_domain"
  let domain : Domain := if own then { hostName := "localhost", maxDepth := given.maxDepth } else given
  let probe ← j.listAt? "probe" (·.listOf? fun f => do
    return (← f.textAt? "name", ← (f.textAt? "blob").bind data))
  let disk ← diskOf? probe
  return ⟨domain, { probePaths := (List.range probe.length).map fun i => s!"probe{i}",
                    sandbox := "sandbox", disk }⟩

end Server

namespace Network

/-- The servers of a record, each bound to its name. -/
def ofJson? (data : String → Option Bytes) (j : Json) : Option Network := do
  let servers ← ((j.get? "servers").map (·.dictOf? (Server.ofJson? data))).getD (some [])
  let servers := Dict.ofList servers
  return { servers, bindings := servers.map fun (name, _) => (name, name) }

end Network

namespace Stage

/-- A transport on a stage. Others act before a client looks for mail, unless they are told not to. -/
def transportOfJson? (budget : Nat) (j : Json) : Option (Transport Stage) :=
  let others : Bool → Run Network Unit
    | true => Network.pollAll budget (some "main")
    | false => pure ()
  match Json.orDefault? true Json.asBool? (j.get? "pump"), j.get? "transport" with
  | some _, none | some _, some (.text "loopback") => some (ofNetwork (Network.direct budget))
  | some pump, some (.text "mailbox") => some (ofNetwork (Network.byMail "client" (others pump)))
  | some _, some (.text "script") => some scripted
  | _, _ => none

def settingsOfJson? (j : Json) : Option ClientSettings := do
  let d : ClientSettings := {}
  return { d with
    enabled := ← Json.orDefault? true Json.asBool? (j.get? "enabled")
    defaultEndpoint := ← Json.nullable? Json.asText? (j.get? "default_endpoint")
    timeout := ← Json.orDefault? d.timeout Duration.ofJson? (j.get? "timeout_ms")
    digest := ← DigestAlgorithm.at? j
    addressType := ← Json.nullable? Json.asText? (j.get? "address_type") }

/-- The script of the channels of a client, which may have none. -/
def scriptOfJson? (literal : Json → Option Datum) (j : Json) : Option Script :=
  Json.orDefault? {} (Script.ofJson? literal) (j.get? "script")

/-- A watched client. -/
def clientOfJson? (budget : Nat) (j : Json) : Option (Client Stage) :=
  let details := do
    return (← settingsOfJson? j, ← Json.orDefault? .direct Recovery.ofJson? (j.get? "recoverer"),
      ← Json.orDefault? defaultClientType Json.asText? (j.get? "client_type"))
  match details, transportOfJson? budget j with
  | some (settings, recovery, clientType), some transport =>
    some { settings, recovery, clientType, transport := watched transport }
  | _, _ => none

end Stage
end MobileCode
