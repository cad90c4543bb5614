import MobileCode.Service.Request
import MobileCode.Wire.Module

/-! # Requests and answers on the wire -/
namespace MobileCode.Wire
variable {α : Type}

def variableKind : Codec VariableKind := enumeration VariableKind.all

def oneVariable (literal : Codec α) : Codec (Variable α) :=
  (variableKind.pair (text.pair (text.pair (text.pair (literal.pair bool))))).map
    (fun (k, n, o, t, v, s) => ⟨k, n, o, t, v, s⟩)
    fun v => (v.kind, v.name, v.owner, v.type, v.value, v.isStatic)

def «variables» (literal : Codec α) : Codec (List (Variable α)) := list (oneVariable literal)

def uuid : Codec Uuid := bytes.check Uuid.ofBytes? (·.bytes)

def request (literal : Codec α) : Codec (Request α) :=
  (uuid.pair (mode.pair (bool.pair (text.pair (text.pair (text.pair (text.pair
    ((«variables» literal).pair ((«variables» literal).pair (option bytes)))))))))).map
    (fun (i, m, t, f, h, ty, me, ps, ns, u) => ⟨i, m, t, f, h, ty, me, ps, ns, u⟩)
    fun r => (r.id, r.mode, r.onMainThread, r.file, r.hash, r.type, r.method, r.params, r.nonLocals,
      r.upload)

def faultKind : Codec FaultKind := forms [
  Form.of (text.pair text) (fun (t, m) => .thrown t m) fun | .thrown t m => some (t, m) | _ => none,
  Form.bare .staleModule (· = .staleModule),
  Form.bare .memberNotFound (· = .memberNotFound),
  Form.bare .invalidRequest (· = .invalidRequest),
  Form.bare .internal (· = .internal)]

def fault : Codec Fault := (faultKind.pair text).map (fun (k, m) => ⟨k, m⟩) fun f => (f.kind, f.message)

def answer (literal : Codec α) : Codec (Answer α) := forms [
  Form.of (literal.pair («variables» literal)) (fun (r, vs) => .completed r vs)
    fun | .completed r vs => some (r, vs) | _ => none,
  Form.bare .moduleUnknown fun | .moduleUnknown => true | _ => false,
  Form.of fault .fault fun | .fault f => some f | _ => none]

end MobileCode.Wire
