import MobileCode.Proofs.Departures
import MobileCode.Proofs.Homecomings

/-! # There and back

A method in normal mode is called through a client whose server is fresh. The call comes to what the method comes to at home,
and leaves behind what the method leaves behind there.
-/
namespace MobileCode

namespace Commission
variable (x : Commission)

/-- A fresh server at the endpoint of the call. It digests as the client does, and with the module alone it can make an object
for the receiver. -/
structure Meets (settings : ClientSettings) (receiver : Option Ref) (args : List Value) (s : State Unit) (l : LoadedModule)
    (t : State (Reach Network)) (server : Server) : Prop where
  reached : ∃ endpoint name, (∀ budget, (Client.straight settings x.boundary.clientType budget).endpoint
      (x.serviceCall receiver args) = .ok endpoint) ∧
    t.outside.network.bindings.find? endpoint = some name ∧ t.outside.network.servers.find? name = some server
  fresh : server.Fresh x.deployment (settings.digest.digest l.bytes) x.dependencies
  digest : server.domain.digest = settings.digest
  depth : s.domain.maxDepth ≤ server.domain.maxDepth
  constructs : receiver ≠ none →
    x.Constructs server (if x.target.mobility.onMainThread then some Native.mainThread else none)
  plain : isPlainFileName x.module.name = true
  usable : FileTree.isUsable x.module.name = true

variable {x} {settings : ClientSettings} {thread : Option String} {receiver : Option Ref} {args args' : List Value}
  {xs : List Datum} {s s' : State Unit} {m : MethodHandle} {v : Value} {d : Datum} {l : LoadedModule}
  {t : State (Reach Network)} {server : Server}

/-- A request that names the module of the client by its digest is one for the deployment. -/
theorem seeks (hdeparts : x.Departs settings l t) (hmeets : x.Meets settings receiver args s l t server) {r : Request Datum}
    (hhash : r.hash = settings.digest.digest l.bytes) (hfile : r.file = l.name) (hupload : r.upload = none) :
    r.Seeks x.deployment (settings.digest.digest l.bytes) x.dependencies := by
  have hname : x.deployment.client.name = x.module.name := owned_name (.inl rfl)
  have hfile' : r.file = x.module.name := hfile.trans (hdeparts.has.name.trans hname)
  refine ⟨hhash, hfile'.trans hname.symm, hupload, ?_, ?_, fun m hm hsame => ?_⟩
  · rw [Server.validate, hhash, DigestAlgorithm.digest_isHexDigest, hfile', hmeets.plain]
    rfl
  · rw [hfile']
    exact hmeets.usable
  · refine (List.nodup_cons.mp x.names).1 ?_
    show x.module.name ∈ _
    rw [← hname, ← hsame]
    exact List.mem_map_of_mem hm

/-- A client that resembles what there is at home gets from the server what the method comes to at home. -/
theorem returns (hstarts : x.Starts thread receiver s m) (hcompletes : (x.outing thread receiver).Completes m args s s' v d)
    (hargs : List.Forall₂ (fun v d => s.domain.heap.snapshot v = some d) args xs) (hapart : x.Apart thread receiver s args)
    (hdeparts : x.Departs settings l t) (hresembles : x.Resembles thread receiver s t.domain)
    (htakes : x.Takes t.domain.heap args' xs) (hmeets : x.Meets settings receiver args' s l t server) : ∃ N v' ws t',
      (∀ k host run, (Client.straight settings x.boundary.clientType (N + k)).call host run (x.serviceCall receiver args') t =
        some (.ok (.executed v' ws), t')) ∧
      t'.domain.heap.snapshot v' = some d ∧ (x.outing thread receiver).Agrees s' t.domain t'.domain := by
  obtain ⟨endpoint, name, hendpoint, hbound, hserver⟩ := hmeets.reached
  obtain ⟨sent, u, hdomain, hnetwork, hout, hasks, hhash, hfile, hupload, hmain⟩ :=
    requests hdeparts hstarts.named hresembles htakes hargs hapart hendpoint
  rw [← hnetwork] at hbound hserver
  have hconstructs : receiver ≠ none → x.Constructs server (workerOf sent none) := by
    rw [workerOf, hmain]
    exact hmeets.constructs
  obtain ⟨N, ds, after, hbrings, hanswers⟩ := answered hmeets.fresh (seeks hdeparts hmeets hhash hfile hupload)
    (by rw [hmeets.digest]) hdeparts.file hconstructs hstarts hmeets.depth hasks hcompletes (Uuid.ofNat u.outside.nextId)
  obtain ⟨y, hattempt⟩ : ∃ y : Reach Network, ∀ k (r : Request Value), r.snapshot? u.domain.heap = some sent →
      (Client.straight settings x.boundary.clientType (N + k)).attempt r l endpoint u =
        some (.ok (.executed d ds), { u with outside := y }) := Client.attempt_answered hbound hserver l hanswers
  have hhosts : (x.outing thread receiver).Hosts u.domain := hdomain ▸ hosts hdeparts.has hresembles
  have hmode : (x.serviceCall receiver args').mode = .normal := x.mode
  obtain ⟨v', ws, t', hconclude, hresult, hagrees, _⟩ := Outing.conclude_eq (t := { u with outside := y }) hstarts.named hhosts
    hcompletes.filled hbrings hmode rfl
  refine ⟨N, v', ws, t', fun k host run => ?_, hresult, hdomain ▸ hagrees⟩
  obtain ⟨o, hend, hstate, hsent, hmodule⟩ := hout (N + k) host run
  have htravels := o.travels
  rw [hstate, hsent] at htravels
  rw [o.call_eq hdeparts.enabled rfl, hstate, Run.bind_apply, hend, hmodule, hattempt k o.request htravels]
  exact hconclude host run

end Commission

/-! ## A scale

A weight is laid on the left pan of a scale, and the right pan is looked at. With two pans the call is as it is at home. A pan
that lies on both sides travels as two, since each variable is copied on its own.
-/

namespace scale

def load : FieldRef := ⟨⟨none, "Ops.Pan"⟩, "load"⟩
def pan (name : String) : FieldRef := ⟨⟨none, "Ops.Scale"⟩, name⟩

/-- Lays a weight on the left pan, and reads the right one. -/
def weigh : MethodDecl Datum where
  name := "Weigh"
  flags := MethodFlags.mobile
  returns := some TypeName.int32
  body := [.loadThis, .loadField (pan "left"), .const (.int32 1), .storeField load, .loadThis, .loadField (pan "right"),
    .loadField load, .ret]

def type : TypeDecl Datum where
  space := "Ops"
  name := "Scale"
  fields := [⟨"left", "Ops.Pan", .none, none⟩, ⟨"right", "Ops.Pan", .none, none⟩]
  methods := [{ name := constructorName, flags := MethodFlags.constructor, body := [.ret] }, weigh]

def code : Module Datum where
  name := "Scale"
  types := [{ space := "Ops", name := "Pan", fields := [⟨"load", TypeName.int32, .none, none⟩] }, type]

def commission : Commission where
  boundary := {}
  digest := .sha1
  module := code
  dependencies := []
  deployment := Record.deployment code
  target := ⟨1, 1, type, weigh⟩
  closure := { fields := [⟨"Ops.Scale", "left"⟩, ⟨"Ops.Scale", "right"⟩] }
  make := rfl
  mem := Module.mem_targets.mpr ⟨⟨rfl, rfl⟩, by decide⟩
  mode := rfl
  discover := rfl
  properties := rfl
  inside := by decide
  undirected := by
    intro _ h
    exact absurd h (by decide)
  valid := Module.validate_eq_ok.mp rfl
  addressable := by simp [Module.Addressable, code, type, weigh]
  unambiguous := by decide
  names := by decide
  constructors := by decide
  plain := by simp [Module.Plain, TypeDecl.forall_mentions, code, type, weigh, Datum.Plain]
  files := by simp
  placed := by simp

/-- What can travel with the scale: its pans. -/
theorem places_eq : (commission.outing none (some ⟨0⟩)).places =
    [(.field ⟨0⟩ "left", ⟨"left", "Ops.Pan", .none, none⟩), (.field ⟨0⟩ "right", ⟨"right", "Ops.Pan", .none, none⟩)] := rfl

theorem forall_places {P : Slot × FieldDecl Datum → Prop} : (∀ q ∈ (commission.outing none (some ⟨0⟩)).places, P q) ↔
    P (.field ⟨0⟩ "left", ⟨"left", "Ops.Pan", .none, none⟩) ∧ P (.field ⟨0⟩ "right", ⟨"right", "Ops.Pan", .none, none⟩) := by
  rw [places_eq]
  simp only [List.forall_mem_cons, List.not_mem_nil, false_implies, implies_true, and_true]

/-- A scale and two pans. -/
def pans (right : Ref) (load : Int32) : Heap := ⟨#[⟨"Ops.Scale", [("left", .object ⟨1⟩), ("right", .object right)]⟩,
  ⟨"Ops.Pan", [("load", .int32 load)]⟩, ⟨"Ops.Pan", [("load", .int32 0)]⟩]⟩

/-- The module as it was written. -/
def written : LoadedModule := ⟨code.code, [], "", none⟩

def home (right : Ref) (load : Int32) : State Unit :=
  ⟨{ ({ hostName := "home" } : Domain).enter written with heap := pans right load }, ()⟩

theorem resides (right : Ref) (load : Int32) : commission.Resides (home right load).domain where
  toCoherent := by
    have hvacant : ({ hostName := "home" } : Domain).Vacant := ⟨rfl, rfl, rfl, rfl⟩
    exact (hvacant.coherent.enter (l := written) (by decide) rfl rfl).congr rfl rfl rfl fun _ => rfl
  drawn name l hl := by
    have hmodule : (({ hostName := "home" } : Domain).enter written).module? name = some l := hl
    rcases Domain.module?_enter_cases hmodule with ⟨rfl, rfl⟩ | h
    · exact ⟨code, List.mem_cons_self, rfl, rfl⟩
    · cases h
  complete m hm := by
    obtain rfl : m = code := by simpa [commission, ModuleSet.members, ModuleSet.ofList, Dict.ofList] using hm
    intro h
    cases h

/-- The method at home. -/
def method : MethodHandle := ⟨written, (written.code.types[1]?).getD default,
  ((written.code.types[1]?).bind (·.methods[1]?)).getD default⟩

theorem found (right : Ref) (load : Int32) : commission.Found (home right load).domain method := ⟨_, rfl, rfl⟩

theorem named (thread : Option String) (receiver : Option Ref) : (commission.outing thread receiver).Named where
  type := by
    show type.fullName ≠ ""
    decide
  fields := by
    show ∀ f ∈ type.fields, f.name ≠ "" ∧ f.type ≠ ""
    decide

/-- No pan leads to the scale. -/
theorem clear (right : Ref) (load : Int32) {r : Ref} (hr : r = ⟨1⟩ ∨ r = ⟨2⟩) :
    (pans right load).Clear (commission.outing none (some ⟨0⟩)).veil (.object r) := by
  rintro b hb name ⟨⟨⟩, _⟩
  rcases Relation.ReflTransGen.cases_tail hb with hsame | ⟨v, hv, hpart⟩
  · rcases hr with rfl | rfl <;> cases hsame
  · cases hpart with
    | @field _ o e ho he =>
      have hload : ∃ n, e.2 = .int32 n := by
        rcases hr with rfl | rfl <;> cases ho <;> exact ⟨_, congrArg Prod.snd (List.mem_singleton.mp he)⟩
      obtain ⟨n, hn⟩ := hload
      rw [hn] at hv
      rcases Relation.ReflTransGen.cases_tail hv with hsame | ⟨_, _, hpart⟩ <;> contradiction

theorem filled {right : Ref} (hright : right = ⟨1⟩ ∨ right = ⟨2⟩) (load : Int32) :
    (commission.outing none (some ⟨0⟩)).Filled (home right load) := by
  refine forall_places.mpr ⟨⟨.object ⟨1⟩, _, rfl, rfl, clear right load (.inl rfl), rfl⟩, ?_⟩
  rcases hright with rfl | rfl
  · exact ⟨.object ⟨1⟩, _, rfl, rfl, clear _ load (.inl rfl), rfl⟩
  · exact ⟨.object ⟨2⟩, _, rfl, rfl, clear _ load (.inr rfl), rfl⟩

/-- The method at one of its instructions. -/
def weighing (position : Nat) (stack : List Value) : Frame :=
  { method, receiver := some ⟨0⟩, args := [], locals := [], stack, position }

/-- The two pans are taken from the scale. -/
theorem takes_pan {name : String} (hname : name = "left" ∨ name = "right") (right : Ref) (load : Int32) (f : Frame) :
    (commission.outing none (some ⟨0⟩)).Portable f (home right load) (.loadField (pan name)) := by
  rintro r rest _ ⟨⟩
  refine ⟨rfl, fun d hd => ?_⟩
  rcases hname with rfl | rfl <;> cases hd <;> exact ⟨rfl, rfl⟩

theorem behaves {right : Ref} {n : Int32} (h : right = ⟨1⟩ ∧ n = 1 ∨ right = ⟨2⟩ ∧ n = 0) :
    Machine.Behaves (commission.outing none (some ⟨0⟩)).env (commission.outing none (some ⟨0⟩)).Admits 9
      (.next (weighing 0 []) []) (home right 0) := by
  refine .step (u := .next (weighing 1 [.object ⟨0⟩]) []) (Outing.admits rfl trivial) rfl ?_
  refine .step (u := .next (weighing 2 [.object ⟨1⟩]) []) (Outing.admits rfl (takes_pan (.inl rfl) right 0 _)) rfl ?_
  refine .step (u := .next (weighing 3 [.int32 1, .object ⟨1⟩]) []) (Outing.admits rfl trivial) rfl ?_
  refine .step (u := .next (weighing 4 []) []) (t := home right 1) (Outing.admits rfl trivial) rfl ?_
  refine .step (u := .next (weighing 5 [.object ⟨0⟩]) []) (Outing.admits rfl trivial) rfl ?_
  refine .step (u := .next (weighing 6 [.object right]) []) (Outing.admits rfl (takes_pan (.inr rfl) right 1 _)) rfl ?_
  -- what the pan bears depends on which one it is
  have hload : Machine.step (commission.outing none (some ⟨0⟩)).env (Machine.runner (commission.outing none (some ⟨0⟩)).env 2)
      (weighing 6 [.object right]) [] (home right 1) = some (.ok (.next (weighing 7 [.int32 n]) []), home right 1) := by
    rcases h with ⟨rfl, rfl⟩ | ⟨rfl, rfl⟩ <;> rfl
  refine .step (Outing.admits rfl ?_) hload ?_
  · rintro r rest ⟨⟩ ⟨⟩
    rcases h with ⟨⟨⟩, _⟩ | ⟨⟨⟩, _⟩
  exact .step (u := .done (.int32 n)) (Outing.admits rfl trivial) rfl trivial

/-- At home the right pan bears the weight if it is the left one as well. -/
theorem completes {right : Ref} {n : Int32} (h : right = ⟨1⟩ ∧ n = 1 ∨ right = ⟨2⟩ ∧ n = 0) :
    (commission.outing none (some ⟨0⟩)).Completes method [] (home right 0) (home right 1) (.int32 n) (.int32 n) where
  run := by
    refine ⟨9, ?_, fun f hf => ?_⟩
    · rcases h with ⟨rfl, rfl⟩ | ⟨rfl, rfl⟩ <;> rfl
    · have hfirst : Frame.enter (home right 0).domain.maxDepth 0 method (some ⟨0⟩) [] = .ok (weighing 0 []) := rfl
      cases hfirst.symm.trans hf
      exact behaves h
  receiver := by
    rintro r ⟨⟩
    exact ⟨_, rfl, rfl⟩
  filled := filled (h.imp And.left And.left) 1
  result := rfl
  clear r hr := by
    rcases Relation.ReflTransGen.cases_tail hr with hsame | ⟨_, _, hpart⟩ <;> contradiction

def settings : ClientSettings := { defaultEndpoint := some "desk" }

/-- A server with nothing. -/
def desk : Server := ⟨{ hostName := "desk" }, { sandbox := "" }⟩

/-- The module of the client, from its file. -/
def loaded : LoadedModule := (Record.loaded (Record.deployment code).client).1

def client (right : Ref) : State (Reach Network) where
  domain := { (Record.loaded (Record.deployment code).client).2 with heap := pans right 0 }
  outside := { network := { servers := [("desk", desk)], bindings := [("desk", "desk")] } }

theorem departs (right : Ref) : commission.Departs settings loaded (client right) where
  enabled := rfl
  unused := rfl
  has := (Record.has_loaded (by decide)).withHeap _
  file := Module.ofFile_toFile (Module.validate_eq_ok.mp rfl) (by decide +kernel)

theorem constructs : commission.Constructs desk none := by
  intro n bytes path l d hn hread hload
  have hvacant : desk.domain.Vacant := ⟨rfl, rfl, rfl, rfl⟩
  cases hload.symm.trans (hvacant.loadFile (Commission.owned_plain hn) hread path)
  rcases hn with rfl | rfl
  · exact ⟨1, _, _, Host.construct_returning (o := ⟨_, (commission.deployment.client.code.types[1]?).getD default⟩)
      (d := (((commission.deployment.client.code.types[1]?).getD default).methods[0]?).getD default)
      rfl rfl (by decide +kernel) rfl rfl (Nat.succ_pos _)⟩
  · exact ⟨1, _, _, Host.construct_returning (o := ⟨_, (commission.deployment.server.code.types[1]?).getD default⟩)
      (d := (((commission.deployment.server.code.types[1]?).getD default).methods[0]?).getD default)
      rfl rfl (by decide +kernel) rfl rfl (Nat.succ_pos _)⟩

theorem meets (right right' : Ref) :
    commission.Meets settings (some ⟨0⟩) [] (home right' 0) loaded (client right) desk where
  reached := ⟨"desk", "desk", fun _ => rfl, rfl, rfl⟩
  fresh := {
    vacant := ⟨rfl, rfl, rfl, rfl⟩
    heap := rfl
    versions := rfl
    shelves := ⟨rfl, rfl, rfl, fun _ h => absurd h List.not_mem_nil, fun _ h => absurd h List.not_mem_nil⟩
    room := Storage.roomy_empty _ _
    genuine := by
      intro p bytes h
      cases h }
  digest := rfl
  depth := le_rfl
  constructs _ := constructs
  plain := by decide +kernel
  usable := by decide +kernel

theorem starts {right : Ref} (hright : right = ⟨1⟩ ∨ right = ⟨2⟩) :
    commission.Starts none (some ⟨0⟩) (home right 0) method where
  resides := resides right 0
  found := found right 0
  static := rfl
  named := named none _
  filled := filled hright 0

theorem takes (right : Ref) (load : Int32) : commission.Takes (pans right load) [] [] where
  states := .nil
  length := rfl
  selects := rfl

theorem apart : commission.Apart none (some ⟨0⟩) (home ⟨2⟩ 0) [] where
  once := by decide +kernel
  receiver := by
    rintro r ⟨⟩
    decide +kernel

theorem shares (right : Ref) :
    ∀ q ∈ (commission.outing none (some ⟨0⟩)).places, (client right).domain.at? q.1 = (home right 0).domain.at? q.1 :=
  forall_places.mpr ⟨rfl, rfl⟩

/-- A scale with one pan looks like a scale with two that are alike. -/
theorem resembles : commission.Resembles none (some ⟨0⟩) (home ⟨2⟩ 0) (client ⟨1⟩).domain where
  type := by
    rintro r ⟨⟩
    rfl
  places := forall_places.mpr ⟨⟨_, _, _, rfl, rfl, rfl, rfl⟩, ⟨_, _, _, rfl, rfl, rfl, rfl⟩⟩

end scale
end MobileCode
