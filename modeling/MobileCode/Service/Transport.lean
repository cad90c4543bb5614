import MobileCode.Execution.Run
import MobileCode.Heap
import MobileCode.Service.Request

/-! # Transports

A transport gives channels to endpoints. A channel is opened, carries requests one after the other
and is closed, or aborted after a failure. It is handed a request with its values and the heap
they live in; what travels is their state.
-/
namespace MobileCode

structure Transport (ω : Type) where
  Channel : Type
  connect : String → Run ω Channel
  endpoint : Channel → String
  start : Channel → Run ω Channel
  exchange : Channel → Heap → Request Value → Option Duration → Run ω (Answer Datum)
  close : Channel → Run ω Channel
  abort : Channel → ω → Channel × ω
  /-- Lets time pass between two attempts. -/
  wait : Duration → Run ω Unit := fun _ => pure ()

/-- The request that travels; a value on a cycle of references cannot. -/
def Request.outward {ω : Type} (heap : Heap) (r : Request Value) : Run ω (Request Datum) :=
  r.traverse fun v => Run.ofOption (heap.snapshot v)

/-- The answer that travels. -/
def Answer.outward {ω : Type} (heap : Heap) (a : Answer Value) : Run ω (Answer Datum) :=
  a.traverse fun v => Run.ofOption (heap.snapshot v)

/-- The same transport, in a larger world. -/
def Transport.lift {ω τ : Type} (t : Transport ω) (part : τ → ω) (put : ω → τ → τ) : Transport τ where
  Channel := t.Channel
  connect endpoint := Run.zoom part put (t.connect endpoint)
  endpoint := t.endpoint
  start c := Run.zoom part put (t.start c)
  exchange c heap r limit := Run.zoom part put (t.exchange c heap r limit)
  close c := Run.zoom part put (t.close c)
  abort c s :=
    let (c, w) := t.abort c (part s)
    (c, put w s)
  wait d := Run.zoom part put (t.wait d)

end MobileCode
