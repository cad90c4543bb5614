import MobileCode.Proofs.Digests
import MobileCode.Proofs.ModuleFiles
import MobileCode.Proofs.Supplies

/-! # Modules that come along

A module brings the modules that its methods reach into. When its code refers to one of them, the server keeps the file
under the hash of the module that brings it, and loads it as it is. Kept so, the file is in the way of one that is sent
under that hash with that name.
-/
namespace MobileCode

namespace Host
variable {ω : Type} {host : Host ω} {s : State ω} {ref : TypeRef} {scope : String}

/-- A type is found in the module that the resolver finds for its scope. -/
theorem resolveType_loads {resolve : String → Run ω (Option Bytes)} {bytes : Bytes} {o : ω} {l : LoadedModule} {d : Domain}
    {handle : TypeHandle} (hscope : ref.scope = some scope) (hmissing : s.domain.type? ref.fullName = none)
    (hunloaded : s.domain.module? scope = none) (hresolver : host.resolver = some resolve)
    (hfound : resolve scope s.outside = some (.ok (some bytes), o)) (hload : s.domain.loadFile bytes none = .ok (l, d))
    (htype : d.type? ref.fullName = some handle) : host.resolveType ref s = some (.ok handle, ⟨d, o⟩) := by
  have hresolve : host.resolveModule scope s = some (.ok true, ⟨d, o⟩) := by
    unfold resolveModule
    rw [hresolver]
    dsimp only
    rw [Run.bind_apply, State.onOutside, Run.zoom, hfound]
    dsimp only
    simp only [Run.bind_apply, State.loadFile, Run.get_apply, hload]
    rfl
  unfold resolveType
  rw [Run.get_bind, hmissing]
  dsimp only
  rw [hscope]
  dsimp only
  rw [Run.get_bind, hunloaded]
  dsimp only [Option.isSome]
  rw [if_neg Bool.false_ne_true, Run.bind_apply, hresolve]
  dsimp only
  rw [if_pos rfl, Run.get_bind]
  dsimp only
  rw [htype]
  rfl

theorem resolveMethod_of_type {m : MethodRef} {handle : TypeHandle} {callee : MethodHandle} {t : State ω}
    (htype : host.resolveType m.owner s = some (.ok handle, t)) (hmethod : handle.method? m.name m.paramTypes = some callee) :
    host.resolveMethod m s = some (.ok callee, t) := by
  rw [resolveMethod, Run.bind_apply, htype]
  dsimp only
  rw [hmethod]
  rfl

end Host

/-- A call of a method that is found and loaded goes on as if it had been loaded before. -/
theorem Machine.resume_call {ω : Type} {env : Environment ω} {f : Frame} {m : MethodRef} {callee : MethodHandle}
    {s t : State ω} (hcall : f.method.decl.body[f.position]? = some (.call m))
    (hnative : env.host.native? m.owner.fullName m.name = none)
    (hload : env.host.resolveMethod m s = some (.ok callee, t)) (hloaded : env.host.resolveMethod m t = some (.ok callee, t))
    (budget : Nat) (below : List Frame) : resume env budget (.next f below) s = resume env budget (.next f below) t := by
  cases budget with
  | zero => rfl
  | succ budget =>
    have hstep (g : Runner ω) : step env g f below s = step env g f below t := by
      unfold step
      rw [hcall]
      simp only [execute, call, hnative, Run.bind_apply, hload, hloaded]
    rw [resume_succ, resume_succ, Run.bind_apply, Run.bind_apply, hstep]

namespace Server
variable {s : Server} {r : Request Datum} {bytes : Bytes}

/-- A module that comes along is kept. -/
theorem findReferenced_bundled {m : LoadedModule} {hash name : String} {o : Storage} (hname : isPlainFileName name = true)
    (hname' : FileTree.isUsable name = true) (hhash : isPlainFileName hash = true)
    (hhash' : FileTree.isUsable hash = true) (hprobe : o.probePaths = []) (hbundled : m.code.bundled? name = some bytes)
    (hroom : o.Roomy hash name) :
    findReferenced m hash name o = some (.ok (some bytes), o.keeping hash name bytes) := by
  unfold findReferenced
  rw [hname, Bool.not_true, if_neg Bool.false_ne_true, Run.get_bind, hprobe]
  have hnone : readFrom name [] = (pure none : Run Storage (Option Bytes)) := rfl
  rw [hnone, pure_bind]
  dsimp only
  rw [hbundled]
  dsimp only
  rw [Run.bind_apply, (hroom.keep_eq hhash hname hhash' hname' bytes).1]
  rfl

/-- With another file in its place, a module that is sent is not found. -/
theorem execute_displaced {file : Bytes} (hvalid : validate r = .ok ()) (hupload : r.upload = some bytes)
    (hdigest : s.domain.digest.digest bytes = r.hash) (hprobe : s.outside.probePaths = [])
    (hhash : s.outside.versions.hash? r.type r.file = none)
    (hread : s.outside.disk.read? (s.outside.pathFor r.hash r.file) = some file)
    (hother : answersTo s.domain.digest r.hash file = false) (budget : Nat) (thread : Option String) :
    ∃ paths, execute budget thread r s = some (.ok .moduleUnknown, s.touching paths) := by
  have hthere : s.outside.disk.isFile (s.outside.pathFor r.hash r.file) = true := FileTree.isFile_eq_true.mpr ⟨file, hread⟩
  let looked : Server := s.touching (s.outside.pathFor r.hash r.file :: s.outside.touched)
  have haccept : accept r s = some (.ok (), looked) := by
    have hkeep : Storage.keep r.hash r.file bytes s.outside = some (.ok (), looked.outside) := by
      have hlooked := Storage.isFile_apply (s.outside.pathFor r.hash r.file) s.outside
      rw [hthere] at hlooked
      unfold Storage.keep
      rw [Run.get_bind, Run.bind_apply, ← Storage.pathFor, hlooked]
      rfl
    unfold accept
    rw [hvalid, hupload, Run.ofExcept_ok, pure_bind]
    simp only [storeUpload, Run.get_bind, if_pos hdigest, onStorage, State.onOutside, Run.zoom, hkeep]
    rfl
  rcases execute_unrecorded haccept hhash budget thread with ⟨_, paths, hunknown⟩ | ⟨found, _, _, hspots, _⟩
  · exact ⟨paths, hunknown⟩
  · obtain ⟨⟨directory, hmem, hfound⟩, hanswers⟩ := hspots
    have hpaths : looked.outside.probePaths = [] := hprobe
    rw [hpaths, List.nil_append, List.mem_singleton] at hmem
    rw [hmem] at hfound
    cases hread.symm.trans hfound
    cases hother.symm.trans hanswers

end Server

/-! ## A module that brings another one -/

/-- A module with one method besides the constructor. -/
def Module.ofMethod (name : String) (fields : List (FieldDecl Datum)) (d : MethodDecl Datum) : Module Datum where
  name
  types := [{
    space := "Ops"
    name, fields
    methods := [{ name := constructorName, flags := MethodFlags.constructor, body := [.ret] }, d] }]

/-- The method as it is sent. -/
def MethodDecl.atClient (d : MethodDecl Datum) (type : String) (closure : Closure) : MethodDecl Datum := { d with
  flags := d.flags ||| MethodFlags.mobilized
  body := inFrontOf ((({} : Mobility).site defaultClientType type d).normalFront d.isVoid) d.body
  closure := some closure }

namespace lamp

/-- It can be lit once. -/
def light : MethodDecl Datum where
  name := "Light"
  flags := MethodFlags.static
  mobility := some { mode := .normal }
  returns := some TypeName.int32
  body := [.loadStatic ⟨⟨none, "Ops.Lamp"⟩, "lit"⟩, .jumpIfTrue 6, .const (.bool true),
    .storeStatic ⟨⟨none, "Ops.Lamp"⟩, "lit"⟩, .const (.int32 7), .ret, .const (.text "lit"), .throw]

def ofLight (light : MethodDecl Datum) : Module Datum :=
  .ofMethod "Lamp" [⟨"lit", TypeName.boolean, MemberFlags.static, none⟩] light

/-- The module as clients have it. -/
def client : Module Datum := ofLight (light.atClient "Ops.Lamp" { fields := [⟨"Ops.Lamp", "lit"⟩] })

def lighting : Request Datum where
  id := Uuid.ofNat 1
  file := "Lamp"
  hash := DigestAlgorithm.md5.digest client.toFile
  type := "Ops.Lamp"
  method := "Light"

/-- A server with nothing. -/
def room : Server := ⟨{ hostName := "server", digest := .md5 }, { sandbox := "" }⟩

end lamp

def lamp : Module Datum := lamp.ofLight lamp.light

namespace switch
open lamp Server

def lightRef : MethodRef := ⟨⟨some "Lamp", "Ops.Lamp"⟩, "Light", []⟩

/-- It lights the lamp. -/
def press : MethodDecl Datum where
  name := "Press"
  flags := MethodFlags.static
  mobility := some { mode := .normal }
  returns := some TypeName.int32
  body := [.call lightRef, .ret]

/-- The module as clients have it, with the lamp as it was before. -/
def client : Module Datum :=
  { Module.ofMethod "Switch" []
      (press.atClient "Ops.Switch" { methods := [⟨"Ops.Lamp", "Light", []⟩], modules := ["Lamp"] }) with
    references := ["Lamp"]
    resources := [(Module.bundleMark ++ "Lamp", lamp.toFile)] }

def pressing : Request Datum where
  id := Uuid.ofNat 1
  file := "Switch"
  hash := DigestAlgorithm.md5.digest client.toFile
  type := "Ops.Switch"
  method := "Press"

/-- The request with the module. -/
def bringing : Request Datum := pressing.withModule (Uuid.ofNat 2) client.toFile

/-- The module on the server. -/
def loaded : LoadedModule × Domain := (room.domain.register client client.toFile
  (some (room.outside.pathFor pressing.hash "Switch"))).toOption.getD default

/-- The lamp that it brings. -/
def brought : LoadedModule × Domain := (loaded.2.register lamp lamp.toFile none).toOption.getD default

/-- The server when the method is called, -/
def dark : Server := room.supplied pressing client.toFile loaded.1 loaded.2

/-- and when the lamp has been kept and loaded. -/
def lit : Server := ⟨brought.2, dark.outside.keeping pressing.hash "Lamp" lamp.toFile⟩

def env : Environment Storage := { host := hostFor bringing none loaded.1 }

end switch

def switch : Module Datum := { Module.ofMethod "Switch" [] switch.press with references := ["Lamp"] }

theorem lamp.digests_differ : DigestAlgorithm.md5.digest lamp.toFile ≠ lighting.hash ∧
    DigestAlgorithm.md5.digest lamp.toFile ≠ switch.pressing.hash ∧ switch.pressing.hash ≠ lighting.hash := by
  decide +kernel

namespace switch
open lamp Server Machine

theorem names_plain : isPlainFileName "Lamp" = true ∧ FileTree.isUsable "Lamp" = true ∧
    isPlainFileName "Switch" = true ∧ FileTree.isUsable "Switch" = true := by decide +kernel

theorem pressing_valid : validate pressing = .ok () := by
  have hhash : isHexDigest pressing.hash = true := DigestAlgorithm.digest_isHexDigest _ _
  have hfile : isPlainFileName pressing.file = true := names_plain.2.2.1
  rw [validate, hhash, hfile]
  rfl

theorem ofFile_lamp : Module.ofFile lamp.toFile = .ok lamp :=
  Module.ofFile_toFile (Module.validate_eq_ok.mp rfl) (by decide +kernel)

theorem ofFile_client : Module.ofFile client.toFile = .ok client :=
  Module.ofFile_toFile (Module.validate_eq_ok.mp rfl) (by decide +kernel)

set_option maxRecDepth 20000 in
theorem loadFile_client : room.domain.loadFile client.toFile (some (room.outside.pathFor pressing.hash pressing.file)) =
    .ok loaded := by
  unfold Domain.loadFile
  rw [ofFile_client]
  rfl

set_option maxRecDepth 20000 in
theorem loadFile_lamp : loaded.2.loadFile lamp.toFile none = .ok brought := by
  unfold Domain.loadFile
  rw [ofFile_lamp]
  rfl

theorem dark_roomy (hash : String) : dark.outside.Roomy hash "Lamp" := by
  have hother : ¬(hash = pressing.hash ∧ "Lamp" = "Switch") := by simp
  exact (((Storage.roomy_empty _ _).of_disk rfl rfl).keeping hother client.toFile).of_disk rfl rfl

theorem keeps_lamp : findReferenced loaded.1 pressing.hash "Lamp" dark.outside =
    some (.ok (some lamp.toFile), lit.outside) := by
  have hhex : isHexDigest pressing.hash = true := DigestAlgorithm.digest_isHexDigest _ _
  exact findReferenced_bundled names_plain.1 names_plain.2.1 (isPlainFileName_of_isHexDigest hhex)
    (isUsable_of_isHexDigest hhex) rfl rfl (dark_roomy _)

set_option maxRecDepth 20000 in
/-- The call finds the method of the lamp, which it loads. -/
theorem calls_light : ∃ callee, env.host.resolveMethod lightRef dark = some (.ok callee, lit) ∧
    env.host.resolveMethod lightRef lit = some (.ok callee, lit) := by
  obtain ⟨handle, callee, hhandle, hcallee⟩ : ∃ handle callee, lit.domain.type? "Ops.Lamp" = some handle ∧
      handle.method? "Light" [] = some callee := ⟨_, _, rfl, rfl⟩
  have hload : env.host.resolveType lightRef.owner dark = some (.ok handle, lit) :=
    Host.resolveType_loads rfl rfl rfl rfl keeps_lamp loadFile_lamp hhandle
  have hloaded : env.host.resolveType lightRef.owner lit = some (.ok handle, lit) := by
    unfold Host.resolveType
    rw [Run.get_bind]
    dsimp only [lightRef]
    rw [hhandle]
    rfl
  exact ⟨callee, Host.resolveMethod_of_type hload hcallee, Host.resolveMethod_of_type hloaded hcallee⟩

set_option maxRecDepth 20000 in
/-- The method runs until it calls that of the lamp, and with the lamp it runs to its end. -/
theorem answers : ∃ d, respond bringing 20 none loaded.1 dark =
    some (.ok (.completed (.int32 7) []), ⟨d, lit.outside⟩) ∧ d.digest = .md5 ∧ d.module? "Lamp" = some brought.1 := by
  obtain ⟨f, f₁, f₂, f₃, d, hinvoke, hfirst, hsecond, hthird, hcall, hrun, hdigest, hloaded⟩ : ∃ f f₁ f₂ f₃ d,
      (∀ run, invoke bringing (hostFor bringing none loaded.1) run dark =
        (run f >>= fun v => return .completed v [] : Serving (Answer Value)) dark) ∧
      (∀ g, step env g f [] dark = some (.ok (.next f₁ []), dark)) ∧
      (∀ g, step env g f₁ [] dark = some (.ok (.next f₂ []), dark)) ∧
      (∀ g, step env g f₂ [] dark = some (.ok (.next f₃ []), dark)) ∧
      f₃.method.decl.body[f₃.position]? = some (.call lightRef) ∧
      resume env 17 (.next f₃ []) lit = some (.ok (.int32 7), ⟨d, lit.outside⟩) ∧ d.digest = .md5 ∧
      d.module? "Lamp" = some brought.1 :=
    ⟨_, _, _, _, _, fun _ => rfl, fun _ => rfl, fun _ => rfl, fun _ => rfl, rfl, rfl, rfl, rfl⟩
  obtain ⟨callee, hload, hloads⟩ := calls_light
  have hall : resume env 20 (.next f []) dark = some (.ok (.int32 7), ⟨d, lit.outside⟩) := by
    rw [resume_succ, Run.bind_apply, hfirst]
    dsimp only
    rw [resume_succ, Run.bind_apply, hsecond]
    dsimp only
    rw [resume_succ, Run.bind_apply, hthird]
    dsimp only
    rw [resume_call hcall rfl hload hloads]
    exact hrun
  have hrunner : runner env 20 f dark = some (.ok (.int32 7), ⟨d, lit.outside⟩) := hall
  have hinvoked : invoke bringing (hostFor bringing none loaded.1) (runner env 20) dark =
      some (.ok (.completed (.int32 7) []), ⟨d, lit.outside⟩) := by
    rw [hinvoke, Run.bind_apply, hrunner]
    rfl
  refine ⟨d, ?_, hdigest, hloaded⟩
  rw [respond, Run.bind_apply, Run.attempt]
  have hthread : (if bringing.onMainThread then some Native.mainThread else none) = none := rfl
  rw [hthread, ← env, hinvoked]
  rfl

/-- The request is answered once the module is sent. Then the lamp is loaded and kept as it was before it was made
mobile. -/
theorem pressed : ∃ d, supply 20 none (Uuid.ofNat 2) client.toFile pressing room =
    some (.ok (.completed (.int32 7) []), ⟨d, lit.outside⟩) ∧ d.digest = .md5 ∧ d.module? "Lamp" = some brought.1 := by
  obtain ⟨d, hanswers, hdigest, hloaded⟩ := answers
  refine ⟨d, ?_, hdigest, hloaded⟩
  rw [supply_loads pressing_valid rfl names_plain.2.2.2 rfl rfl (Storage.roomy_empty _ _) rfl loadFile_client]
  exact hanswers

/-- A request for the lamp that has the hash of the other module and brings that. -/
def mistaken : Request Datum := { lighting with hash := pressing.hash, upload := some client.toFile }

end switch

end MobileCode
