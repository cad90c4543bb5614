import MobileCode.CommandLine.Commands

/-! # The command line

The arguments of the program choose a command. The program succeeds with the lines that the command
prints, fails with one line of text, or refuses arguments it cannot read.
-/
namespace MobileCode.CommandLine
variable {m : Type → Type} [Monad m]

structure Outcome where
  exit : Nat := 0
  output : String := ""
  failure : Option String := none
  deriving Inhabited

def linesText (lines : List String) : String := String.join (lines.map (· ++ "\n"))

def versionLine : String := "nomad 0.3.2"

def helpLines : List String := [
  "Usage: nomad [OPTIONS] <COMMAND>", "",
  "Commands:",
  "  process   Deploy a module as a client and a server module",
  "  disasm    List a module",
  "  discover  Show the closures of the mobile methods of a module",
  "  hash      Print digests of files", "",
  "Options:",
  "      --json     Print JSON",
  "  -v, --verbose  Print more messages",
  "  -h, --help     Print help",
  "  -V, --version  Print version"]

def Halt.outcome : Halt → Outcome
  | .usage => { exit := 2 }
  | .help => { output := linesText helpLines }
  | .version => { output := linesText [versionLine] }

def jsonFlag : OptionSpec := { long := "json", taking := .nothing }
def verboseFlag : OptionSpec := { long := "verbose", short := some 'v', taking := .nothing }
def versionFlag : OptionSpec := { long := "version", short := some 'V', taking := .nothing }
def dependencies : OptionSpec := { long := "dependency", short := some 'd', taking := .paths }
def typeFilter : OptionSpec := { long := "type", taking := .text }

def processOptions : List OptionSpec := [jsonFlag, verboseFlag, dependencies,
  { long := "client-dir", taking := .path }, { long := "server-dir", taking := .path },
  { long := "config", short := some 'c', taking := .path }]

def listOptions : List OptionSpec := [jsonFlag, verboseFlag, typeFilter,
  { long := "method", taking := .text }]

def discoverOptions : List OptionSpec := [jsonFlag, verboseFlag, dependencies, typeFilter]

def hashOptions : List OptionSpec := [jsonFlag, verboseFlag,
  { long := "algorithm", short := some 'a', taking := .text }]

/-- Operands are paths, and no path is empty. -/
def operands (a : Arguments) : Except Halt (List String) :=
  if a.operands.any (·.isEmpty) then .error .usage else .ok a.operands

def onlyOperand (a : Arguments) : Except Halt String := do
  match ← operands a with
  | [path] => return path
  | _ => throw .usage

/-- The command that a name and its arguments mean. -/
def commandOf (files : FileAccess m) (asJson : Bool) (name : String) (args : List String) :
    Except Halt (Command m) := do
  match name with
  | "process" =>
    let a ← Arguments.read processOptions args
    let path ← onlyOperand a
    return deploy files (asJson || a.has "json") ⟨path, a.values "dependency",
      (a.value? "client-dir").getD "client", (a.value? "server-dir").getD "server",
      a.value? "config"⟩
  | "disasm" =>
    let a ← Arguments.read listOptions args
    let path ← onlyOperand a
    return list files path (a.value? "type") (a.value? "method")
  | "discover" =>
    let a ← Arguments.read discoverOptions args
    let path ← onlyOperand a
    return discover files (asJson || a.has "json") path (a.values "dependency") (a.value? "type")
  | "hash" =>
    let a ← Arguments.read hashOptions args
    match ← operands a with
    | [] => throw .usage
    | paths => return digests files (asJson || a.has "json") paths ((a.value? "algorithm").getD "sha1")
  | _ => throw .usage

/-- The options in front of the command, then the command. -/
def split (args : List String) (a : Arguments) : Except Halt (Arguments × String × List String) :=
  match args with
  | [] => .error .usage
  | arg :: rest =>
    if arg = "--" then .error .usage
    else if isOption arg then do
      let (b, _) ← oneOption [jsonFlag, verboseFlag, versionFlag] arg a []
      if b.has "version" then throw .version
      else split rest b
    else if arg = "help" then
      if rest.all (["process", "disasm", "discover", "hash", "help"].contains ·) then .error .help
      else .error .usage
    else .ok (a, arg, rest)

def run (files : FileAccess m) (args : List String) : m Outcome := do
  let command : Except Halt (Command m) := do
    let (a, name, rest) ← split args {}
    commandOf files (a.has "json") name rest
  match command with
  | .error h => return h.outcome
  | .ok c =>
    match ← c.run with
    | .ok lines => return { output := linesText lines }
    | .error text => return { exit := 1, failure := some text }

end MobileCode.CommandLine
