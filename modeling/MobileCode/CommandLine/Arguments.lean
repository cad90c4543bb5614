/-! # Arguments

Options may stand anywhere among the other arguments, and after `--` there are none. A long option
has its value behind `=` or in the next argument, a short one also directly behind its letter.
Short options without values may be written together.
-/
namespace MobileCode.CommandLine

/-- What an option takes. -/
inductive Taking
  | nothing
  | text
  | path
  | paths
  deriving DecidableEq, Inhabited, Repr

structure OptionSpec where
  long : String
  short : Option Char := none
  taking : Taking
  deriving Inhabited

/-- Why no command is run. -/
inductive Halt
  | usage
  | help
  | version
  deriving DecidableEq, Inhabited, Repr

structure Arguments where
  /-- Options with their values, in order. -/
  options : List (String × String) := []
  operands : List String := []
  deriving Inhabited

namespace Arguments

def has (a : Arguments) (name : String) : Bool := (a.options.lookup name).isSome
def value? (a : Arguments) (name : String) : Option String := a.options.lookup name

def values (a : Arguments) (name : String) : List String :=
  (a.options.filter (·.1 = name)).map (·.2)

def addOperand (a : Arguments) (x : String) : Arguments := { a with operands := a.operands ++ [x] }

/-- Only an option that takes several paths may be repeated, and no path is empty. -/
def addOption (a : Arguments) (o : OptionSpec) (value : String) : Except Halt Arguments :=
  if a.has o.long && o.taking ≠ .paths then .error .usage
  else if value.isEmpty && (o.taking = .path || o.taking = .paths) then .error .usage
  else .ok { a with options := a.options ++ [(o.long, value)] }

end Arguments

def isOption (arg : String) : Bool := arg.startsWith "-" && arg.length > 1

/-- The value of an option that stands in the next argument. -/
def nextValue : List String → Except Halt (String × List String)
  | v :: rest => if isOption v then .error .usage else .ok (v, rest)
  | [] => .error .usage

/-- A name and what follows its first `=`. -/
def cutAtEquals : List Char → List Char × Option (List Char)
  | [] => ([], none)
  | '=' :: rest => ([], some rest)
  | c :: rest =>
    let (name, value) := cutAtEquals rest
    (c :: name, value)

variable (specs : List OptionSpec)

def longOption (name : String) (value : Option String) (a : Arguments) (rest : List String) :
    Except Halt (Arguments × List String) :=
  if name = "help" && value.isNone then .error .help
  else
    match specs.find? (·.long = name), value with
    | none, _ => .error .usage
    | some o, some v =>
      if o.taking = .nothing then .error .usage else (a.addOption o v).map (·, rest)
    | some o, none =>
      if o.taking = .nothing then (a.addOption o "").map (·, rest)
      else do
        let (v, rest) ← nextValue rest
        return (← a.addOption o v, rest)

/-- The letters of one argument. -/
def shortOptions : List Char → Arguments → List String → Except Halt (Arguments × List String)
  | [], a, rest => .ok (a, rest)
  | c :: letters, a, rest =>
    if c = 'h' then .error .help
    else
      match specs.find? (·.short = some c) with
      | none => .error .usage
      | some o =>
        if o.taking = .nothing then do
          let a ← a.addOption o ""
          shortOptions letters a rest
        else
          match letters with
          | [] => do
            let (v, rest) ← nextValue rest
            return (← a.addOption o v, rest)
          | '=' :: value => (a.addOption o (String.ofList value)).map (·, rest)
          | value => (a.addOption o (String.ofList value)).map (·, rest)

/-- Reads the argument that `arg` starts, which is an option. -/
def oneOption (arg : String) (a : Arguments) (rest : List String) :
    Except Halt (Arguments × List String) :=
  match arg.toList with
  | '-' :: '-' :: chars =>
    let (name, value) := cutAtEquals chars
    longOption specs (String.ofList name) (value.map String.ofList) a rest
  | _ :: letters => shortOptions specs letters a rest
  | [] => .error .usage

/-- Reads arguments to the end; each round takes at least one of them. -/
def readUpTo : Nat → List String → Arguments → Except Halt Arguments
  | 0, _, a => .ok a
  | _, [], a => .ok a
  | fuel + 1, arg :: rest, a =>
    if arg = "--" then .ok { a with operands := a.operands ++ rest }
    else if isOption arg then do
      let (a, rest) ← oneOption specs arg a rest
      readUpTo fuel rest a
    else readUpTo fuel rest (a.addOperand arg)

def Arguments.read (args : List String) : Except Halt Arguments :=
  readUpTo specs args.length args {}

end MobileCode.CommandLine
