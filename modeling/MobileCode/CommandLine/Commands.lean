import MobileCode.CommandLine.Arguments
import MobileCode.CommandLine.Listing
import MobileCode.CommandLine.Table
import MobileCode.Deployment
import MobileCode.Json.Module
import MobileCode.Json.Settings

/-! # Commands

Deploying a module, listing it, showing the closures of its mobile methods, and digests of files.
A command yields the lines it prints, or the text of its failure. Modules are read from module
files and, by the ending of the name, from JSON.
-/
namespace MobileCode.CommandLine
variable {m : Type → Type} [Monad m]

abbrev Command (m : Type → Type) := ExceptT String m (List String)

/-- The last component of a path. -/
def fileName (path : String) : String :=
  ((Text.split '/' path).filter (fun s => s ≠ "" && s ≠ ".")).getLast?.getD path

/-- Does the file name end in `.json`, in any case, with something in front? -/
def isJson (path : String) : Bool :=
  let name := (fileName path).toList.map Char.toLower
  let stem := name.take (name.length - 5)
  name.drop stem.length = ".json".toList && !stem.isEmpty

def orFail {α : Type} (text : String) : Option α → ExceptT String m α
  | some x => pure x
  | none => throw text

def readFile (files : FileAccess m) (path : String) : ExceptT String m Bytes := do
  orFail ("failed to read " ++ path) (← files.read path)

def datumOfJson? : Json → Option Datum := Datum.ofJson? Json.asNumber?

def loadModule (files : FileAccess m) (path : String) : ExceptT String m (Module Datum) := do
  let bytes ← readFile files path
  if isJson path then
    let read := (bytes.toText?.bind Json.parse?).bind (Module.ofJson? datumOfJson?)
    let module ← orFail ("invalid module JSON: " ++ path) read
    orFail ("invalid module: " ++ path) (module.validate.toOption.map fun _ => module)
  else orFail ("failed to load module: " ++ path) (Module.ofFile bytes).toOption

def loadSettings (files : FileAccess m) (path : Option String) : ExceptT String m Settings :=
  match path with
  | none => pure {}
  | some path => do
    let bytes ← readFile files path
    orFail ("invalid config: " ++ path) ((bytes.toText?.bind Json.parse?).bind Settings.ofJson?)

/-- Prints a document or, where none was asked for, lines of text. -/
def print (asJson : Bool) (document : Json) (lines : List String) : List String :=
  if asJson then [document.pretty 0] else lines

/-! ## Deploying -/

structure DeployOptions where
  module : String
  dependencies : List String
  clientDirectory : String
  serverDirectory : String
  settings : Option String

def mobilizedEntry (d : Mobilized) : Json :=
  .object ([("declaring_type", .text d.type), ("method", .text d.method), ("mode", .text d.mode.name)] ++
    (d.relayBody.map fun name => ("relay_body", Json.text name)).toList)

def deploymentDocument (module : String) (clientPath serverPath : String) (d : Deployment) : Json :=
  .object ([("module", .text module), ("has_nomadic_elements", .bool true),
      ("client_path", .text clientPath), ("server_path", .text serverPath)] ++
    (if d.methods.isEmpty then [] else [("methods", Json.ofList mobilizedEntry d.methods)]) ++
    if d.bundle.isEmpty then [] else [("bundle", .texts d.bundle)])

def deploymentLines (module : String) (clientPath serverPath : String) (d : Deployment) : List String :=
  ["Module:  " ++ module, "Client:  " ++ clientPath, "Server:  " ++ serverPath] ++
    (if d.bundle.isEmpty then [] else ["Bundle:  " ++ String.intercalate ", " d.bundle]) ++ [""] ++
    Table.lines ⟨[("Type", .left), ("Method", .left), ("Mode", .left), ("Relay body", .left)],
      d.methods.map fun e => [e.type, e.method, e.mode.name, e.relayBody.getD "-"]⟩

def deploy (files : FileAccess m) (asJson : Bool) (o : DeployOptions) : Command m := do
  let module ← loadModule files o.module
  let dependencies ← o.dependencies.mapM (loadModule files)
  let settings ← loadSettings files o.settings
  match Deployment.make? {} settings.client.digest module dependencies with
  | .error _ => throw ("failed to process " ++ module.name)
  | .ok none =>
    return print asJson
      (.object [("module", .text module.name), ("has_nomadic_elements", .bool false)])
      [module.name ++ ": no nomadic methods, nothing written"]
  | .ok (some d) =>
    let stored ← (d.store files o.clientDirectory o.serverDirectory : m Bool)
    if !stored then throw "failed to write processed modules"
    let clientPath := joinPath o.clientDirectory module.name
    let serverPath := joinPath o.serverDirectory module.name
    return print asJson (deploymentDocument module.name clientPath serverPath d)
      (deploymentLines module.name clientPath serverPath d)

/-! ## Closures -/

/-- A mobile method and its closure. -/
structure ClosureEntry where
  type : String
  method : String
  mode : Mode
  closure : Closure

namespace ClosureEntry

/-- The kinds of members of a closure and their texts; fields and properties without their type. -/
def members (e : ClosureEntry) : List (String × List String) :=
  [("fields", e.closure.fields.map (·.name)), ("properties", e.closure.properties.map (·.name)),
    ("methods", e.closure.methods.map (·.display)), ("modules", e.closure.modules)]

def document (e : ClosureEntry) : Json :=
  .object ([("declaring_type", .text e.type), ("method", .text e.method), ("mode", .text e.mode.name)] ++
    e.members.map fun (kind, names) => (kind, Json.texts names))

def lines (e : ClosureEntry) : List String :=
  ["", e.type ++ "::" ++ e.method ++ " (" ++ e.mode.name ++ ")"] ++
    (Table.lines ⟨[("Kind", .left), ("Members", .left)], e.members.map fun (kind, names) =>
      [kind, if names.isEmpty then "-" else String.intercalate ", " names]⟩).map ("  " ++ ·)

end ClosureEntry

/-- The closures of the mobile methods of a type. -/
def closuresOf (modules : ModuleSet Datum) (t : TypeDecl Datum) : ExceptT String m (List ClosureEntry) :=
  (t.methods.filter (modules.root.isMobile t)).mapM fun d => do
    let closure ← orFail ("discovery failed for " ++ t.fullName ++ "::" ++ d.name)
      (modules.discover {} t.fullName d).toOption
    return ⟨t.fullName, d.name, (d.mobility.getD {}).mode, closure⟩

def discover (files : FileAccess m) (asJson : Bool) (path : String) (dependencies : List String)
    (type : Option String) : Command m := do
  let module ← loadModule files path
  let dependencies ← dependencies.mapM (loadModule files)
  let types := module.types.filter fun t => matchesFilter type t.fullName
  let entries := (← types.mapM (closuresOf (ModuleSet.ofList module dependencies))).flatten
  return print asJson
    (.object [("module", .text module.name), ("closures", Json.ofList ClosureEntry.document entries)])
    (if entries.isEmpty then [module.name ++ ": no nomadic methods"]
      else entries.flatMap ClosureEntry.lines)

/-! ## Listings and digests -/

def list (files : FileAccess m) (path : String) (type method : Option String) : Command m := do
  return moduleLines (← loadModule files path) type method

def digests (files : FileAccess m) (asJson : Bool) (paths : List String) (algorithm : String) :
    Command m := do
  let a ← orFail s!"unknown digest algorithm '{algorithm}' (sha1, md5)" (DigestAlgorithm.ofName? algorithm)
  let entries ← paths.mapM fun path => do
    let bytes ← readFile files path
    return (fileName path, bytes.length, a.digest bytes)
  return print asJson
    (.object [("algorithm", .text a.name), ("files", Json.ofList (fun (name, size, digest) =>
      .object [("file", .text name), ("size", .nat size), ("digest", .text digest)]) entries)])
    (Table.lines ⟨[("File", .left), ("Size", .right), ("Digest", .left)],
      entries.map fun (name, size, digest) => [name, toString size, digest]⟩)

end MobileCode.CommandLine
