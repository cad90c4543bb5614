import MobileCode.Proofs.Conduct

/-! # What is done with a domain

Modules are loaded into a domain, objects are constructed, methods invoked, static fields set and variables carried. In
all of this, whatever it comes to, the domain changes in few ways: in its objects, in static fields that are there, and
by modules that are registered. Resolvers, native methods and clients have no others.
-/
namespace MobileCode
variable {ω : Type}

/-- A valid module and its file: either the module was read from the file, or the file was written for it. -/
structure Module.FiledAs (m : Module Datum) (bytes : Bytes) : Prop where
  valid : m.Valid
  file : ofFile bytes = .ok m ∨ bytes = m.toFile

theorem Module.filedAs_of_ofFile {m : Module Datum} {bytes : Bytes} (h : ofFile bytes = .ok m) : m.FiledAs bytes :=
  ⟨valid_of_ofFile h, .inl h⟩

/-! ## Ways in which a domain changes -/

/-- The relation holds when objects change, when a static field is set, when a module is registered, and whatever happens
outside the domain. -/
structure State.Lenient (K : State ω → State ω → Prop) : Prop where
  objects : ∀ s heap, K s { s with domain := { s.domain with heap } }
  statics : ∀ s type fields name v, s.domain.statics.find? type = some fields →
    K s { s with domain := { s.domain with statics := s.domain.statics.insert type (fields.insert name v) } }
  register : ∀ s m bytes path l d, m.FiledAs bytes → s.domain.register m bytes path = .ok (l, d) →
    K s { s with domain := d }
  outside : ∀ s o, K s { s with outside := o }

/-- The native method changes the domain in these ways only. -/
def Native.Plain (n : Native ω) : Prop :=
  ∀ K [IsPreorder (State ω) K], State.Lenient K → ∀ args, (n.call args).Respects True K

def Host.Plain (host : Host ω) : Prop := ∀ type method native, host.native? type method = some native → native.Plain

/-- So does the client, if the code that it runs does. -/
def Dispatcher.Plain (d : Dispatcher ω) : Prop :=
  ∀ host : Host ω, host.Plain → ∀ K [IsPreorder (State ω) K], State.Lenient K → ∀ run : Runner ω,
    (∀ f, (run f).Respects True K) → ∀ site receiver args, (d.dispatch host run site receiver args).Respects True K

structure Environment.Plain (env : Environment ω) : Prop where
  host : env.host.Plain
  clients : ∀ client d, env.dispatcher? client = some d → d.Plain

theorem Host.plain_of_standard {host : Host ω} {thread : Option String} (h : host.natives = Native.standard thread) :
    host.Plain := by
  intro type method native hnative K _ _ args s r t hr _
  obtain rfl : s = t := host.unchanged_of_standard h type method native hnative args s r t hr (.inl trivial)
  exact refl_of K s

/-- A host with the standard native methods, without clients. -/
def Environment.bare : Environment Unit := { host := { thread := none, natives := Native.standard none } }

theorem Environment.bare_plain : bare.Plain where
  host := Host.plain_of_standard rfl
  clients client d hd := by cases hd

section
variable {K : State ω → State ω → Prop} [IsPreorder (State ω) K] (hK : State.Lenient K)
include hK

theorem Host.Plain.guards {host : Host ω} (h : host.Plain) : host.Guards True K where
  objects := hK.objects
  statics := hK.statics
  loads s bytes path l d hd := by
    obtain ⟨m, hm, hregister⟩ := Domain.loadFile_eq_ok hd
    exact hK.register s m bytes path l d (Module.filedAs_of_ofFile hm) hregister
  resolver resolve _ name := State.onOutside_respects hK.outside _
  natives type method native hnative := h type method native hnative K hK

theorem Machine.runner_lenient {env : Environment ω} (henv : env.Plain) (budget : Nat) (f : Frame) :
    (runner env budget f).Respects True K :=
  runner_respects (henv.host.guards hK)
    (fun client d hd run hrun => henv.clients client d hd env.host henv.host K hK run hrun) budget f

end

/-! ## Clients -/

namespace Client
variable {ν : Type} {c : Client ν} {K : State (Reach ν) → State (Reach ν) → Prop} [IsPreorder (State (Reach ν)) K]
  {host : Host (Reach ν)} (hK : host.Guards True K) (houtside : ∀ s o, K s { s with outside := o })
  {run : Runner (Reach ν)} (hrun : ∀ f, (run f).Respects True K)
include hK houtside hrun

theorem request_respects (call : ServiceCall) (target : MethodHandle) :
    (c.request host run call target).Respects True K := by
  have hcaptured : (captured host run call target).Respects True K := by
    unfold captured
    split
    · exact Transfer.capture_respects hK hrun _ _ _
    · exact .pure _
  rw [request_eq_captured]
  refine (moduleHash_respects houtside _).bind fun hash => hcaptured.bind fun nonLocals => ?_
  exact (Run.Respects.ofExcept _).bind fun endpoint => (freshId_respects houtside).bind fun id => .pure _

theorem call_respects (call : ServiceCall) : (c.call host run call).Respects True K := by
  unfold Client.call
  split
  · exact .pure _
  refine (hK.resolveMethod _).bind fun target => (request_respects hK houtside hrun call target).bind fun p => ?_
  refine (recover_respects houtside p.2 _ p.1).bind fun result => ?_
  refine (result.traverse_respects hK.instantiate).bind fun result => ?_
  dsimp only
  split
  · exact (Transfer.apply_respects hK hrun _ _).bind fun _ => .pure _
  · exact .pure _

omit hK houtside hrun [IsPreorder (State (Reach ν)) K] in
/-- Every client is plain, whatever its settings, its recovery and its transport. -/
theorem dispatcher_plain (c : Client ν) : c.dispatcher.Plain := by
  intro host hhost K _ hK run hrun site receiver args
  unfold dispatcher
  dsimp only
  split
  · exact .pure _
  refine (call_respects (hhost.guards hK) hK.outside hrun _).bind fun result => ?_
  split
  · exact .pure _
  · exact .throw _

end Client

/-! ## Calls that load -/

/-- A call that loads a module: one that is in memory, or one whose file is at hand or at a path. -/
inductive LoadCall (ω : Type)
  | memory (m : Module Datum)
  | file (contents : Run ω Bytes) (path : Option String)

namespace LoadCall

/-- The bytes of a file are at hand. -/
def bytes (b : Bytes) : LoadCall ω := file (pure b) none

/-- The file at a path is read first. -/
def disk (path : String) (contents : Run ω Bytes) : LoadCall ω := file contents (some path)

def perform : LoadCall ω → Run (State ω) LoadedModule
  | memory m => do
    let (l, d) ← Run.ofExcept ((← get).domain.load m)
    State.modifyDomain fun _ => d
    return l
  | file contents path => do State.loadFile (← State.onOutside contents) path

/-- The module that is to be loaded, if it is valid, and its file. -/
def read : LoadCall ω → Run ω (Module Datum × Bytes)
  | memory m => Run.ofExcept (m.validate.map fun _ => (m, m.toFile))
  | file contents _ => do
    let b ← contents
    Run.ofExcept ((Module.ofFile b).map fun m => (m, b))

def path? : LoadCall ω → Option String
  | memory _ => none
  | file _ path => path

/-- What comes of registering a module. -/
def registered (s : State ω) : Except Error (LoadedModule × Domain) → Except Error LoadedModule × State ω
  | .error e => (.error e, s)
  | .ok (l, d) => (.ok l, { s with domain := d })

theorem loadFile_apply (b : Bytes) (path : Option String) (s : State ω) :
    State.loadFile b path s = some (registered s (s.domain.loadFile b path)) := by
  unfold State.loadFile
  rw [Run.get_bind]
  rcases s.domain.loadFile b path with e | ⟨l, d⟩ <;> rfl

/-- Whatever is loaded is read outside the domain and then registered. -/
theorem perform_apply (x : LoadCall ω) (s : State ω) : x.perform s = (x.read s.outside).map fun
    | (.error e, o) => (.error e, { s with outside := o })
    | (.ok (m, b), o) => registered { s with outside := o } (s.domain.register m b x.path?) := by
  cases x with
  | memory m =>
    have hload : s.domain.load m = m.validate.bind fun _ => s.domain.register m m.toFile none := rfl
    simp only [perform, read, Run.get_bind, hload]
    cases m.validate with
    | error e => rfl
    | ok _ =>
      show (Run.ofExcept (s.domain.register m m.toFile none) >>= _ : Run (State ω) LoadedModule) s =
        some (registered s (s.domain.register m m.toFile none))
      rcases s.domain.register m m.toFile none with e | ⟨l, d⟩ <;> rfl
  | file contents path =>
    have hload (d : Domain) (b : Bytes) : d.loadFile b path = (Module.ofFile b).bind fun m => d.register m b path := rfl
    simp only [perform, read]
    rw [Run.bind_apply, Run.bind_apply]
    unfold State.onOutside Run.zoom
    rcases contents s.outside with _ | ⟨e | b, o⟩
    · rfl
    · rfl
    · dsimp only
      rw [loadFile_apply, hload]
      cases Module.ofFile b <;> rfl

theorem read_filed {x : LoadCall ω} {o o' : ω} {m : Module Datum} {b : Bytes} (h : x.read o = some (.ok (m, b), o')) :
    m.FiledAs b := by
  cases x with
  | memory n =>
    simp only [read] at h
    cases hn : n.validate with
    | error e =>
      rw [hn] at h
      cases h
    | ok _ =>
      rw [hn] at h
      cases h
      exact ⟨Module.validate_eq_ok.mp hn, .inr rfl⟩
  | file contents path =>
    simp only [read] at h
    obtain ⟨b', _, _, h⟩ := Run.bind_eq_ok.mp h
    cases hm : Module.ofFile b' with
    | error e =>
      rw [hm] at h
      cases h
    | ok _ =>
      rw [hm] at h
      cases h
      exact Module.filedAs_of_ofFile hm

theorem perform_lenient {K : State ω → State ω → Prop} [IsPreorder (State ω) K] (hK : State.Lenient K) (x : LoadCall ω) :
    x.perform.Respects True K := by
  intro s r t h _
  rw [perform_apply] at h
  rcases hread : x.read s.outside with _ | ⟨e | ⟨m, b⟩, o⟩ <;> rw [hread] at h
  · cases h
  · cases h
    exact hK.outside s o
  replace h := Option.some.inj h
  dsimp only at h
  rcases hregister : s.domain.register m b x.path? with e | ⟨l, d⟩ <;> rw [hregister] at h <;> cases h
  · exact hK.outside s o
  · exact trans_of K (hK.register s m b _ l d (read_filed hread) hregister) (hK.outside { s with domain := d } o)

end LoadCall

/-! ## Operations -/

/-- What is done with a domain from outside. -/
inductive Operation (ω : Type)
  | load (x : LoadCall ω)
  | construct (type : String)
  | invoke (m : MethodRef) (receiver : Option Ref) (args : List Value)
  | invokeByValues (type method : String) (receiver : Option Ref) (args : List Value)
  | instantiate (x : Datum)
  | setField (r : Ref) (name : String) (v : Value)
  | setStatic (type field : String) (v : Value)
  | capture (type : String) (closure : Closure) (receiver : Option Ref)
  | refresh (receiver : Option Ref) (vs : List (Variable Value))
  | apply (receiver : Option Ref) (vs : List (Variable Value))

namespace Operation

/-- The result of an operation is left out. -/
def perform (env : Environment ω) (budget : Nat) : Operation ω → Run (State ω) Unit
  | load x => do
    let _ ← x.perform
  | construct type => do
    let _ ← env.host.construct (Machine.runner env budget) type
  | invoke m receiver args => do
    let _ ← env.host.invoke (Machine.runner env budget) m receiver args
  | invokeByValues type method receiver args => do
    let _ ← env.host.invokeByValues (Machine.runner env budget) type method receiver args
  | instantiate x => do
    let _ ← State.instantiate x
  | setField r name v => State.setField r name v
  | setStatic type field v => env.host.setStatic type field v
  | capture type closure receiver => do
    let _ ← Transfer.capture env.host (Machine.runner env budget) type closure receiver
  | refresh receiver vs => do
    let _ ← Transfer.refresh env.host (Machine.runner env budget) receiver vs
  | apply receiver vs => Transfer.apply env.host (Machine.runner env budget) receiver vs

theorem perform_lenient {K : State ω → State ω → Prop} [IsPreorder (State ω) K] (hK : State.Lenient K)
    {env : Environment ω} (henv : env.Plain) (budget : Nat) (op : Operation ω) :
    (op.perform env budget).Respects True K := by
  have hhost : env.host.Guards True K := henv.host.guards hK
  have hrun (f : Frame) : (Machine.runner env budget f).Respects True K := Machine.runner_lenient hK henv budget f
  cases op with
  | load x => exact (x.perform_lenient hK).bind fun _ => .pure _
  | construct type => exact (Host.construct_respects hhost hrun type).bind fun _ => .pure _
  | invoke m receiver args => exact (Host.invoke_respects hhost hrun m receiver args).bind fun _ => .pure _
  | invokeByValues type method receiver args =>
    refine Run.Respects.bind ?_ fun _ => .pure _
    exact (Host.resolveOverload_respects hhost _ _ _).bind fun m => Host.invokeHandle_respects hrun m receiver args
  | instantiate x => exact (hhost.instantiate x).bind fun _ => .pure _
  | setField r name v => exact hhost.setField r name v
  | setStatic type field v => exact hhost.setStatic type field v
  | capture type closure receiver => exact (Transfer.capture_respects hhost hrun _ _ _).bind fun _ => .pure _
  | refresh receiver vs => exact (Transfer.refresh_respects hhost hrun _ _).bind fun _ => .pure _
  | apply receiver vs => exact Transfer.apply_respects hhost hrun _ _

end Operation

/-- Operations lead from one state to another, each in a plain environment and whatever it came to. -/
inductive State.Reaches : State ω → State ω → Prop
  | refl (s : State ω) : Reaches s s
  | step {s t u : State ω} {env : Environment ω} {budget : Nat} {op : Operation ω} {r : Except Error Unit} :
    Reaches s t → env.Plain → op.perform env budget t = some (r, u) → Reaches s u

/-- Whatever holds through each way in which a domain changes holds through any operations. -/
theorem State.Reaches.lenient {K : State ω → State ω → Prop} [IsPreorder (State ω) K] (hK : Lenient K) {s t : State ω}
    (h : Reaches s t) : K s t := by
  induction h with
  | refl => exact refl_of K s
  | step _ henv hop ih => exact trans_of K ih (Operation.perform_lenient hK henv _ _ _ _ _ hop (.inl trivial))

end MobileCode
