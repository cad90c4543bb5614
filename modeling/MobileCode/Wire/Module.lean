import MobileCode.Wire.Datum
import MobileCode.Module.Validity

/-! # Modules on the wire

The file of a module is its wire form. A file is read only if the module in it is valid.
-/
namespace MobileCode.Wire
variable {α : Type}

def typeRef : Codec TypeRef :=
  ((option text).pair text).map (fun (s, n) => ⟨s, n⟩) fun t => (t.scope, t.fullName)

def fieldRef : Codec FieldRef := (typeRef.pair text).map (fun (o, n) => ⟨o, n⟩) fun f => (f.owner, f.name)

def methodRef : Codec MethodRef :=
  (typeRef.pair (text.pair (list text))).map (fun (o, n, ps) => ⟨o, n, ps⟩)
    fun m => (m.owner, m.name, m.paramTypes)

def methodKey : Codec MethodKey :=
  (text.pair (text.pair (list text))).map (fun (t, n, ps) => ⟨t, n, ps⟩)
    fun k => (k.type, k.name, k.paramTypes)

def binaryOp : Codec BinaryOp := enumeration BinaryOp.all
def compareOp : Codec CompareOp := enumeration CompareOp.all
def mode : Codec Mode := enumeration Mode.all

def dispatchSite : Codec DispatchSite :=
  (typeRef.pair (mode.pair (bool.pair (methodRef.pair uint16)))).map
    (fun (c, m, t, r, n) => ⟨c, m, t, r, n⟩)
    fun s => (s.client, s.mode, s.onMainThread, s.method, s.paramCount)

/-- Instructions with literals of a given codec. -/
def instruction (literal : Codec α) : Codec (Instruction α) := forms [
  Form.bare .nop fun | .nop => true | _ => false,
  Form.of literal .const fun | .const x => some x | _ => none,
  Form.of uint16 .loadArg fun | .loadArg n => some n | _ => none,
  Form.of uint16 .storeArg fun | .storeArg n => some n | _ => none,
  Form.of uint16 .loadLocal fun | .loadLocal n => some n | _ => none,
  Form.of uint16 .storeLocal fun | .storeLocal n => some n | _ => none,
  Form.bare .loadThis fun | .loadThis => true | _ => false,
  Form.of fieldRef .loadField fun | .loadField f => some f | _ => none,
  Form.of fieldRef .storeField fun | .storeField f => some f | _ => none,
  Form.of fieldRef .loadStatic fun | .loadStatic f => some f | _ => none,
  Form.of fieldRef .storeStatic fun | .storeStatic f => some f | _ => none,
  Form.of methodRef .call fun | .call m => some m | _ => none,
  Form.of typeRef .construct fun | .construct t => some t | _ => none,
  Form.of binaryOp .binary fun | .binary op => some op | _ => none,
  Form.of compareOp .compare fun | .compare op => some op | _ => none,
  Form.bare .not fun | .not => true | _ => false,
  Form.of uint64 .jump fun | .jump t => some t | _ => none,
  Form.of uint64 .jumpIfTrue fun | .jumpIfTrue t => some t | _ => none,
  Form.of uint64 .jumpIfFalse fun | .jumpIfFalse t => some t | _ => none,
  Form.bare .dup fun | .dup => true | _ => false,
  Form.bare .pop fun | .pop => true | _ => false,
  Form.bare .ret fun | .ret => true | _ => false,
  Form.bare .throw fun | .throw => true | _ => false,
  Form.of dispatchSite .dispatch fun | .dispatch s => some s | _ => none]

def flags {names : FlagNames} : Codec (Flags names) := uint32.map Flags.mk Flags.bits

def memberId : Codec MemberId := (text.pair text).map (fun (t, n) => ⟨t, n⟩) fun m => (m.type, m.name)

def closure : Codec Closure :=
  ((keySet memberId).pair ((keySet memberId).pair ((keySet methodKey).pair (keySet text)))).map
    (fun (fs, ps, ms, us) => ⟨fs, ps, ms, us⟩)
    fun c => (c.fields, c.properties, c.methods, c.modules)

def mobility : Codec Mobility := (mode.pair bool).map (fun (m, t) => ⟨m, t⟩) fun a => (a.mode, a.onMainThread)

def param (literal : Codec α) : Codec (ParamDecl α) :=
  (text.pair (text.pair (option literal))).map (fun (n, t, d) => ⟨n, t, d⟩)
    fun p => (p.name, p.type, p.default)

def field (literal : Codec α) : Codec (FieldDecl α) :=
  (text.pair (text.pair (flags.pair (option literal)))).map (fun (n, t, f, i) => ⟨n, t, f, i⟩)
    fun d => (d.name, d.type, d.flags, d.initial)

def property : Codec PropertyDecl :=
  (text.pair (text.pair (flags.pair ((option text).pair (option text))))).map
    (fun (n, t, f, g, s) => ⟨n, t, f, g, s⟩)
    fun p => (p.name, p.type, p.flags, p.getter, p.setter)

def method (literal : Codec α) : Codec (MethodDecl α) :=
  (text.pair (flags.pair ((list (param literal)).pair ((option text).pair (uint16.pair
    ((list (instruction literal)).pair ((option mobility).pair ((option text).pair
      (option closure))))))))).map
    (fun (n, f, ps, r, l, b, m, s, c) => ⟨n, f, ps, r, l, b, m, s, c⟩)
    fun d => (d.name, d.flags, d.params, d.returns, d.locals, d.body, d.mobility, d.relayBody,
      d.closure)

def type (literal : Codec α) : Codec (TypeDecl α) :=
  (text.pair (text.pair (flags.pair ((list (field literal)).pair ((list property).pair
    (list (method literal))))))).map
    (fun (s, n, f, fs, ps, ms) => ⟨s, n, f, fs, ps, ms⟩)
    fun t => (t.space, t.name, t.flags, t.fields, t.properties, t.methods)

def module (literal : Codec α) : Codec (Module α) :=
  (text.pair (flags.pair ((list text).pair ((list (type literal)).pair ((dict bytes).pair
    (option text)))))).map
    (fun (n, f, rs, ts, res, h) => ⟨n, f, rs, ts, res, h⟩)
    fun m => (m.name, m.flags, m.references, m.types, m.resources, m.pairedHash)

end MobileCode.Wire

namespace MobileCode.Module

def toFile (m : Module Datum) : Bytes := (Wire.module Wire.datum).encode m

def ofFile (file : Bytes) : Except Error (Module Datum) :=
  if file.isEmpty then .error (.malformed .emptyModuleFile)
  else
    match (Wire.module Wire.datum).read? file with
    | none => .error (.codec "unreadable module file")
    | some m => m.validate.map fun _ => m

end MobileCode.Module
