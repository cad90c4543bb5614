import MobileCode.Deployment
import MobileCode.Digest
import MobileCode.Execution.Domain
import MobileCode.Json.Settings
import MobileCode.Json.Module
import MobileCode.Json.Value

/-! # Reports in JSON

Summaries of modules, closures and files for readers: members as texts, files by size and digest.
-/
namespace MobileCode

namespace Closure

def report (c : Closure) : Json :=
  .object [("fields", Json.ofList (fun m : MemberId => .text m.display) c.fields),
    ("properties", Json.ofList (fun m : MemberId => .text m.display) c.properties),
    ("methods", Json.ofList (fun m : MethodKey => .text m.display) c.methods),
    ("modules", .texts c.modules), ("stateless", .bool c.isStateless)]

end Closure

namespace MethodDecl

/-- What can be told of a method of a type without its body. -/
def facts (type : String) (d : MethodDecl Datum) : List (String × Json) :=
  [("key", .text (d.key type).display), ("static", .bool d.isStatic), ("void", .bool d.isVoid),
    ("default_constructor", .bool d.isDefaultConstructor), ("accessor", .bool d.isAccessor)]

def listing (double : Double → Json) (d : MethodDecl Datum) : Json :=
  .object [("name", .text d.name), ("flags", .text d.flags.display),
    ("returns", Json.optional .text d.returns), ("locals", .nat d.locals.toNat),
    ("params", Json.ofList (fun p : ParamDecl Datum => .array [.text p.name, .text p.type,
      Json.optional (Datum.toJsonNumbered double) p.default]) d.params),
    ("nomad", Json.optional (fun a : Mobility => .array [.text a.mode.name, .bool a.onMainThread])
      d.mobility),
    ("relay_body", Json.optional .text d.relayBody),
    ("reachable", Json.optional Closure.report d.closure),
    ("body", .texts (d.body.map (·.display)))]

end MethodDecl

namespace Mobilized

def report (m : Mobilized) : Json :=
  .object [("type", .text m.type), ("method", .text m.method), ("mode", .text m.mode.name),
    ("relay_body", Json.optional .text m.relayBody)]

end Mobilized

namespace Deployment

/-- Both modules, except for the bodies and resources that they share. -/
def report (double : Double → Json) (d : Deployment) : Json :=
  let file := d.client.toFile
  .object [("client", .object [("name", .text d.client.name), ("flags", .text d.client.flags.display),
      ("references", .texts d.client.references), ("paired_hash", Json.optional .text d.client.pairedHash),
      ("resources", Json.ofList (fun (name, data) => .array [.text name, .nat data.length,
        .text (DigestAlgorithm.sha1.digest data)]) d.client.resources),
      ("types", Json.ofList (fun t => .object [("name", .text t.fullName),
        ("methods", Json.ofList (MethodDecl.listing double) t.methods)]) d.client.types),
      ("size", .nat file.length), ("sha1", .text (DigestAlgorithm.sha1.digest file))]),
    ("server_paired", Json.optional .text d.server.pairedHash),
    ("server_sha1", .text (DigestAlgorithm.sha1.digest d.server.toFile)),
    ("server_flags", Json.ofList (fun t => Json.texts (t.methods.map (·.flags.display))) d.server.types),
    ("methods", Json.ofList Mobilized.report d.methods), ("bundle", .texts d.bundle)]

end Deployment

def LoadedModule.report (m : LoadedModule) : Json :=
  .object [("name", .text m.name), ("hash", .text m.hash), ("size", .nat m.bytes.length),
    ("types", .texts (m.code.types.map (·.fullName))), ("from_file", .bool m.path.isSome)]

def MethodHandle.report (m : MethodHandle) : Json := .text m.key.display

/-- The overloads of one method of a table. -/
def DispatchTable.report (d : DispatchTable) (type method : String) : Json :=
  .object [("module", .text d.module), ("len", .nat d.entries.length),
    ("empty", .bool d.entries.isEmpty),
    ("overloads", Json.ofList (fun o : Overload => .object [("key", .text o.key.display),
      ("static", .bool o.isStatic), ("params", .nat o.params.length)]) (d.overloads type method))]

/-- The settings in force, with the sandbox of one hash. -/
def Settings.report (s : Settings) (hash : String) : Json :=
  let c := s.client
  .object [("enabled", .bool c.enabled), ("default_endpoint", Json.optional .text c.defaultEndpoint),
    ("timeout", .text c.timeout.toText),
    ("deadline", Json.optional (fun d : Duration => .text d.toText) c.deadline),
    ("poll_interval", .text c.pollInterval.toText), ("digest", .text c.digest.name),
    ("address_type", Json.optional .text c.addressType), ("probe_paths", .texts s.server.probePaths),
    ("max_call_depth", .nat s.server.maxDepth),
    ("sandbox_for", Json.optional .text (s.server.sandboxFor? hash)), ("client", c.toJson)]

namespace FileTree

def report (files : List (String × Bytes)) : Json :=
  Json.ofList (fun (name, data) => .object [("file", .text name), ("size", .nat data.length),
    ("sha1", .text (DigestAlgorithm.sha1.digest data))]) files

end FileTree
end MobileCode
