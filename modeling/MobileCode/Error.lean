import MobileCode.Duration
import MobileCode.Instruction

/-! # Errors

An error is its cause. The text of each cause is written in one place. A fault is what a server
tells its client about an error: the kind, and a message that has been written out already.
-/
namespace MobileCode

/-- Code or data that no program could have meant. -/
inductive Defect
  | stated (message : String)
  | notACondition (type : String)
  | labelPastBody (label : String)
  | undefinedLabel (label : String)
  | emptyModuleFile
  | unnamedModule
  | unnamedType (module : String)
  | duplicateType (type module : String)
  | branchOutside (index : Nat) (type method : String) (target length : Nat)
  | ranPastEnd (method : MethodKey) (position : Nat)
  | stackEmpty
  | stackTooShort (needed held : Nat)
  | noArgument (index : Nat)
  | noLocal (index : Nat)
  | thisInStatic (method : MethodKey)
  | dispatchArity (method : MethodKey) (forwarded held : Nat)
  | unnamedVariable
  | untypedVariable (name : String)
  | ownerlessVariable (name : String)
  | requestFields (found expected : Nat)
  | unknownMode (text : String)
  | foreignSubject (subject expected : String)
  | badCorrelationId (text : String)
  deriving DecidableEq, Inhabited

/-- A request that cannot be met in the state it was made in. -/
inductive Refusal
  | stated (message : String)
  | versionLoaded (module loaded requested : String)
  | typeDefined (type module owner : String)
  | tooManyArguments (method : MethodKey) (limit given : Nat)
  | missingArgument (param : String) (method : MethodKey)
  | noReceiver (method : MethodKey)
  | notAnObject (method : MethodKey) (type : String)
  | operandTypes (op left right : String)
  | nativeArity (type method : String) (expected given : Nat)
  | notAList (method type : String)
  | listIndex (index : String) (length : Nat)
  | noTarget (owner name : String)
  | foreignTarget (owner name type : String)
  | parameterFromObject (name : String)
  | parameterOntoObject (name : String)
  | unassignable (valueType owner name declared : String)
  | noEndpoint (method : MethodRef)
  | notADigest (text : String)
  | notAFileName (text : String)
  | uploadMismatch (file actual requested : String)
  | unmailable (field : String)
  deriving DecidableEq, Inhabited

inductive ReferenceKind
  | field
  | property
  | method
  | type
  deriving DecidableEq, Inhabited, Repr

inductive FaultKind
  | thrown (type method : String)
  | staleModule
  | memberNotFound
  | invalidRequest
  | internal
  deriving DecidableEq, Inhabited, Repr

structure Fault where
  kind : FaultKind
  message : String
  deriving DecidableEq, Inhabited, Repr

inductive Error
  | malformed (defect : Defect)
  | fileSystem (message : String)
  | codec (message : String)
  | general (message : String)
  | unresolved (kind : ReferenceKind) (name owner method : String)
  | unmovable (method module reason : String)
  | stale (module type loaded requested : String)
  | memberNotFound (member type module : String)
  | accessorUnavailable (property type : String)
  | invalid (refusal : Refusal)
  | timeout (method type module : String) (limit : Duration)
  | retriesFailed (errors : List Error)
  | endpointsFailed (errors : List (String × Error))
  | thrown (type method message : String)
  | remote (fault : Fault)
  | transport (endpoint message : String)
  | recursionLimit (limit : Nat)
  | poisonedLock
  deriving Inhabited

def Defect.message : Defect → String
  | stated message => message
  | notACondition type => s!"Value of type {type} cannot be used as a condition"
  | labelPastBody label => s!"Label '{label}' points past the body"
  | undefinedLabel label => s!"Undefined label '{label}'"
  | emptyModuleFile => "Empty module file"
  | unnamedModule => "Module without a name"
  | unnamedType module => s!"Unnamed type in module '{module}'"
  | duplicateType type module => s!"Duplicate type '{type}' in module '{module}'"
  | branchOutside index type method target length =>
    "Branch at " ++ Instruction.position index ++ s!" of '{type}::{method}' targets " ++
      Instruction.position target ++ s!" outside a body of {length} instructions"
  | ranPastEnd method position =>
    "Execution ran past the end of " ++ method.display ++ " at " ++ Instruction.position position
  | stackEmpty => "Evaluation stack underflow"
  | stackTooShort needed held => s!"Evaluation stack underflow: need {needed} values, have {held}"
  | noArgument index => s!"Argument index {index} out of range"
  | noLocal index => s!"Local index {index} out of range"
  | thisInStatic method => "ldthis in static method " ++ method.display
  | dispatchArity method forwarded held =>
    "Dispatch in " ++ method.display ++ s!" forwards {forwarded} arguments, method has {held}"
  | unnamedVariable => "Variable without a name"
  | untypedVariable name => s!"Variable '{name}' without a declared type"
  | ownerlessVariable name => s!"Member variable '{name}' without a declaring type"
  | requestFields found expected => s!"Request body has {found} fields, expected {expected}"
  | unknownMode text => s!"Unknown execution mode '{text}'"
  | foreignSubject subject expected => s!"Subject '{subject}' does not start with '{expected}'"
  | badCorrelationId text => s!"Invalid correlation id '{text}'"

def Refusal.message : Refusal → String
  | stated message => message
  | versionLoaded module loaded requested =>
    s!"Module '{module}' is already loaded with hash {loaded}, cannot load hash {requested}"
  | typeDefined type module owner =>
    s!"Type '{type}' of module '{module}' is already defined by module '{owner}'"
  | tooManyArguments method limit given =>
    method.display ++ s!" takes {limit} arguments, got {given}"
  | missingArgument param method => s!"Missing argument '{param}' for " ++ method.display
  | noReceiver method => "Instance method " ++ method.display ++ " invoked without a receiver"
  | notAnObject method type => "Expected an object in " ++ method.display ++ s!", found {type}"
  | operandTypes op left right => s!"Cannot apply '{op}' to {left} and {right}"
  | nativeArity type method expected given =>
    s!"{type}::{method} takes {expected} arguments, got {given}"
  | notAList method type => TypeName.list ++ s!"::{method} expects a list, got {type}"
  | listIndex index length =>
    s!"Index {index} out of range for a list of {length} (" ++ TypeName.int32 ++ " expected)"
  | noTarget owner name => s!"Instance member '{owner}::{name}' needs a target object"
  | foreignTarget owner name type =>
    s!"Member '{owner}::{name}' cannot be copied against an instance of {type}"
  | parameterFromObject name => s!"Parameter '{name}' cannot be copied from an object"
  | parameterOntoObject name => s!"Parameter '{name}' cannot be copied onto an object"
  | unassignable valueType owner name declared =>
    s!"Value of type {valueType} cannot be assigned to '{owner}::{name}' of type {declared}"
  | noEndpoint method =>
    "No endpoint for " ++ method.display ++ ": none given, no addressed parameter and no default"
  | notADigest text => s!"'{text}' is not a module digest"
  | notAFileName text => s!"'{text}' is not a plain module file name"
  | uploadMismatch file actual requested =>
    s!"Uploaded {file} hashes to {actual}, request names {requested}"
  | unmailable field => s!"'{field}' cannot travel in a mailbox request"

def ReferenceKind.name : ReferenceKind → String
  | field => "field"
  | property => "property"
  | method => "method"
  | type => "type"

def FaultKind.display : FaultKind → String
  | thrown type method => s!"exception in {type}::{method}"
  | staleModule => "stale module"
  | memberNotFound => "member not found"
  | invalidRequest => "invalid request"
  | internal => "internal error"

def Fault.display (f : Fault) : String := f.kind.display ++ ": " ++ f.message

namespace Error

mutual

def message : Error → String
  | malformed defect => "Malformed - " ++ defect.message
  | fileSystem message => message
  | codec message => "Codec failure - " ++ message
  | general message => message
  | unresolved kind name owner method =>
    "Unresolved " ++ kind.name ++ s!" reference '{name}' on '{owner}' in method '{method}'"
  | unmovable method module reason =>
    s!"Invalid nomadic method '{method}' in module '{module}' - {reason}"
  | stale module type loaded requested =>
    s!"Module '{module}' is loaded with hash {loaded} but type '{type}' was requested with hash " ++
      s!"{requested}; restart the host"
  | memberNotFound member type module =>
    s!"Member '{member}' not found on '{type}' in module '{module}'"
  | accessorUnavailable property type => s!"Property '{property}' on '{type}' has no setter"
  | invalid refusal => "Invalid operation - " ++ refusal.message
  | timeout method type module limit =>
    "Server did not answer within " ++ limit.toText ++ s!" for '{type}::{method}' in module '{module}'"
  | retriesFailed errors =>
    "Fault recovery failed - " ++ toString errors.length ++ " attempts failed" ++
      lastMessage errors
  | endpointsFailed errors =>
    "Fault recovery failed - " ++ toString errors.length ++ " endpoints failed" ++
      endpointMessages errors
  | thrown type method message => s!"Exception in '{type}::{method}': {message}"
  | remote fault => "Remote execution failed - " ++ fault.display
  | transport endpoint message => s!"Transport failure towards '{endpoint}' - {message}"
  | recursionLimit limit => s!"Reach the maximum recursion level allowed - {limit}"
  | poisonedLock => "Failed to lock target"

def lastMessage : List Error → String
  | [] => ""
  | [e] => ", last error: " ++ message e
  | _ :: rest => lastMessage rest

def endpointMessages : List (String × Error) → String
  | [] => ""
  | (endpoint, e) :: rest => "; " ++ endpoint ++ ": " ++ message e ++ endpointMessages rest

end

/-- What a server tells about an error; only a thrown message is passed on as it is. -/
def toFault : Error → Fault
  | thrown type method message => ⟨.thrown type method, message⟩
  | e => ⟨match e with
      | stale .. => .staleModule
      | memberNotFound .. => .memberNotFound
      | invalid _ | malformed _ | codec _ => .invalidRequest
      | _ => .internal, e.message⟩

/-- The error that a fault is at the client: an exception stays one. -/
def ofFault (fault : Fault) : Error :=
  match fault.kind with
  | .thrown type method => thrown type method fault.message
  | _ => remote fault

/-- No further attempt can mend it: the server has run the call or refused it. -/
def isFinal : Error → Bool
  | thrown .. | remote _ => true
  | _ => false

/-- The number of failed attempts that the error of a recovery carries. -/
def attempts : Error → Nat
  | retriesFailed errors => errors.length
  | endpointsFailed errors => errors.length
  | _ => 0

end Error
end MobileCode
