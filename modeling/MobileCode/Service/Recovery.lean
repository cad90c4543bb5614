import MobileCode.Dict
import MobileCode.Duration
import MobileCode.Execution.Run

/-! # Recovery from failed attempts

An attempt that ends in an exception or in an answer from the server is never repeated. Any other
failure may be followed by a further attempt, at the same endpoint or at the next one of a list.
-/
namespace MobileCode

inductive Recovery
  | direct
  | retry (attempts : Nat) (pause : Option Duration)
  | failover (endpoints : List String)
  deriving DecidableEq, Inhabited, Repr

namespace Recovery
variable {σ α : Type}

/-- At most `n` attempts with a pause between them, after those that failed so far. -/
def retryUpTo (attempt : Run σ α) (pause : Run σ Unit) : Nat → List Error → Run σ α
  | 0, failed => throw (.retriesFailed failed.reverse)
  | n + 1, failed => do
    match ← Run.attempt attempt with
    | .ok x => return x
    | .error e =>
      if e.isFinal then throw e
      else
        if n ≠ 0 then pause
        retryUpTo attempt pause n (e :: failed)

/-- One attempt at each endpoint; the last failure of each is kept. -/
def tryEach (attempt : String → Run σ α) : List String → Dict Error → Run σ α
  | [], failed => throw (.endpointsFailed failed)
  | endpoint :: rest, failed => do
    match ← Run.attempt (attempt endpoint) with
    | .ok x => return x
    | .error e =>
      if e.isFinal then throw e
      else tryEach attempt rest (failed.insert endpoint e)

def recover (r : Recovery) (wait : Duration → Run σ Unit) (endpoint : String)
    (attempt : String → Run σ α) : Run σ α :=
  match r with
  | direct => attempt endpoint
  | retry n pause => retryUpTo (attempt endpoint) (pause.elim (pure ()) wait) (max n 1) []
  | failover endpoints => tryEach attempt endpoints []

end Recovery
end MobileCode
