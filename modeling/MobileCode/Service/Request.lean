import MobileCode.Uuid
import MobileCode.Variable

/-! # Requests and answers

A client asks a server to run a method. The request names the module by its file name and its
hash, and may carry the module itself. The server answers with the result, with a fault, or that
it does not have the module.
-/
namespace MobileCode

structure Request (α : Type) where
  id : Uuid
  mode : Mode := .normal
  onMainThread : Bool := false
  file : String
  hash : String
  type : String
  method : String
  params : List (Variable α) := []
  /-- The state that the method is to find. -/
  nonLocals : List (Variable α) := []
  /-- The file of the module. -/
  upload : Option Bytes := none
  deriving Inhabited, BEq

inductive Answer (α : Type)
  | completed (result : α) (nonLocals : List (Variable α))
  | moduleUnknown
  | fault (fault : Fault)
  deriving Inhabited, BEq

/-- What became of a call that was to be run elsewhere. -/
inductive CallResult (α : Type)
  | disabled
  | moduleMissing
  | executed (result : α) (nonLocals : List (Variable α))
  deriving Inhabited, BEq

variable {α β : Type}

namespace Request

def arguments (r : Request α) : List α := r.params.map (·.value)

def timeoutError (r : Request α) (limit : Duration) : Error := .timeout r.method r.type r.file limit

/-- Changes every value by a computation, in their order. -/
def traverse {m : Type → Type} [Monad m] (f : α → m β) (r : Request α) : m (Request β) :=
  return { id := r.id, mode := r.mode, onMainThread := r.onMainThread, file := r.file,
           hash := r.hash, type := r.type, method := r.method,
           params := ← r.params.mapM (·.traverse f),
           nonLocals := ← r.nonLocals.mapM (·.traverse f), upload := r.upload }

end Request

namespace Answer

def toCallResult : Answer α → Except Error (CallResult α)
  | completed result nonLocals => .ok (.executed result nonLocals)
  | moduleUnknown => .ok .moduleMissing
  | fault f => .error (Error.ofFault f)

def traverse {m : Type → Type} [Monad m] (f : α → m β) : Answer α → m (Answer β)
  | completed result nonLocals => return .completed (← f result) (← nonLocals.mapM (·.traverse f))
  | moduleUnknown => return .moduleUnknown
  | fault g => return .fault g

end Answer

namespace CallResult

def isExecuted : CallResult α → Bool
  | executed .. => true
  | _ => false

def isModuleMissing : CallResult α → Bool
  | moduleMissing => true
  | _ => false

def result? : CallResult α → Option α
  | executed result _ => some result
  | _ => none

def nonLocals : CallResult α → List (Variable α)
  | executed _ vs => vs
  | _ => []

def traverse {m : Type → Type} [Monad m] (f : α → m β) : CallResult α → m (CallResult β)
  | disabled => return .disabled
  | moduleMissing => return .moduleMissing
  | executed result nonLocals => return .executed (← f result) (← nonLocals.mapM (·.traverse f))

end CallResult
end MobileCode
