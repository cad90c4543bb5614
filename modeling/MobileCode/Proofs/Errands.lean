import MobileCode.Proofs.Coverage
import MobileCode.Proofs.Enclaves
import MobileCode.Proofs.Stocks

/-! # Methods that are run away from home

At home the modules are loaded as they were written. Elsewhere a domain has the deployed module, and loads the others when
they are needed. What the closure names has gone along: fields of the receiver and static fields. All else about the receiver
is hidden. A run at home that asks for nothing else comes to the same elsewhere.
-/
namespace MobileCode
open Discovery

/-- A constructor is never made mobile. -/
theorem mobileMode?_constructor {m : ModuleFlags} {t : TypeFlags} {d : MethodFlags} {mark : Option Mobility}
    (h : d.has MethodFlags.constructor = true) : mobileMode? m t d mark = none := by
  have hbits : d.bits &&& 4 = 4 := of_decide_eq_true h
  have hmeets : d.meets MethodFlags.unmovable = true := by
    refine decide_eq_true fun hzero => ?_
    have hzero : d.bits &&& 60 = 0 := hzero
    have hand : (d.bits &&& 60) &&& 4 = d.bits &&& 4 := by rw [UInt32.and_assoc]; rfl
    rw [hzero, hbits] at hand
    exact absurd hand (by decide)
  rw [mobileMode?, hmeets]
  rfl

theorem TypeDecl.field?_eq {α β : Type} [Sketched α] [Sketched β] {t : TypeDecl α} {u : TypeDecl β} (h : t.shape = u.shape)
    {name : String} {f : FieldDecl α} (hf : t.field? name = some f) : ∃ g, u.field? name = some g ∧ f.shape = g.shape := by
  have hshape {γ : Type} [Sketched γ] (t : TypeDecl γ) : t.shape.field? name = (t.field? name).map FieldDecl.shape := by
    simp only [field?, shape, List.find?_map, Function.comp_def]
    rfl
  have hfound := hshape u
  rw [← h, hshape, hf] at hfound
  obtain ⟨g, hg, hsame⟩ := Option.map_eq_some_iff.mp hfound.symm
  exact ⟨g, hg, hsame.symm⟩

/-- The names of types stay the same. -/
theorem ModuleSet.Renders.fullNames {s : ModuleSet Datum} {client : String}
    {mode? : Module Datum → TypeFlags → MethodFlags → Option Mobility → Option Mode} {code : Module Datum → Module Value}
    (h : s.Renders client mode? code) {m : Module Datum} (hm : m ∈ s.members) {u : TypeDecl Value} (hu : u ∈ (code m).types) :
    u.fullName ∈ m.types.map (·.fullName) := by
  obtain ⟨i, hi⟩ := List.mem_iff_getElem?.mp hu
  have hform := Forall₂.getElem? (h.forms m hm fun _ _ => False) i
  rw [hi] at hform
  generalize ht : m.code.types[i]? = y at hform
  cases hform with
  | some hf =>
    rw [hf.fullName, ← m.code_fullNames]
    exact List.mem_map_of_mem (List.mem_of_getElem? ht)

/-- The second side comes to hold a module. -/
abbrev Shared.holding (w : Shared) (name : String) : Shared := { w with modules := fun n => w.modules n ∨ n = name }

theorem Shared.le_holding (w : Shared) (name : String) : w ≤ w.holding name := ⟨le_rfl, fun _ => .inl⟩

/-- A method of a set of modules, as it is run at home. -/
structure Outing where
  modules : ModuleSet Datum
  boundary : Boundary
  /-- The method, where it stands. -/
  start : Item Datum
  closure : Closure
  /-- The object at home that the method runs on. -/
  receiver : Option Ref
  /-- The thread at home. -/
  thread : Option String

/-- The method, and a domain away from home. -/
structure Errand (ω : Type) extends Outing where
  /-- The code of the modules away from home. -/
  served : Module Datum → Module Value
  /-- The thread away from home. -/
  worker : Option String
  resolve : String → Run ω (Option Bytes)
  /-- What stays as long as modules are only looked for. -/
  Keeps : ω → Prop
  limit : Nat

namespace Outing
variable (e : Outing)

/-- The name of the type that the method belongs to. -/
abbrev type : String := e.start.type.fullName

/-- The instance field goes along with the receiver. -/
def Ships (name : String) : Prop :=
  ⟨e.type, name⟩ ∈ e.closure.fields ∧ ∃ f, e.start.type.field? name = some f ∧ f.isStatic = false

/-- The static field goes along. -/
def Shares (name : String) : Prop :=
  ⟨e.type, name⟩ ∈ e.closure.fields ∧ ∃ f, e.start.type.field? name = some f ∧ f.isStatic = true

def veil : Veil := fun r name => e.receiver = some r ∧ ¬e.Ships name

def env : Environment Unit := { host := .standard e.thread }

/-- What an instruction may do at home so that the same can be done elsewhere. -/
def Portable (f : Frame) (s : State Unit) : Instruction Value → Prop
  | .loadField r => ∀ ref rest, f.stack = .object ref :: rest → e.receiver = some ref →
      r.owner.fullName = s.domain.heap.typeOf ref ∧ ∀ d, e.start.type.field? r.name = some d →
        d.isStatic = false ∧ d.flags.has MemberFlags.ignoreTransfer = false
  | .compare _ => ∀ x y rest, f.stack = y :: x :: rest → Heap.Distinct e.veil s.domain.heap x y
  | .loadStatic r => ⟨r.owner.fullName, r.name⟩ ∈ e.closure.fields
  | .storeStatic r => e.boundary.excludes r.owner.fullName = false
  | .construct r => e.boundary.excludes r.fullName = false
  | .call r => ((r.owner.fullName, r.name) ≠ Native.machineNameKey ∧ (r.owner.fullName, r.name) ≠ Native.threadNameKey) ∧
      ((Native.standard e.thread : List ((String × String) × Native Unit)).lookup (r.owner.fullName, r.name) = none →
        ¬e.boundary.stopsCall r.owner.fullName ∧ ∀ o m, s.domain.type? r.owner.fullName = some o →
          o.method? r.name r.paramTypes = some m → ¬m.owner.keepsHome m.decl ∧
            StaysInPlace (mobileMode? m.module.code.flags m.owner.flags m.decl.flags m.decl.mobility))
  | _ => True

/-- The frame stands at an instruction that can be done elsewhere as well. -/
def Admits (f : Frame) (s : State Unit) : Prop := ∀ i, f.method.decl.body[f.position]? = some i → e.Portable f s i

variable {e} in
theorem admits {f : Frame} {s : State Unit} {i : Instruction Value} (hi : f.method.decl.body[f.position]? = some i)
    (h : e.Portable f s i) : e.Admits f s := by
  intro j hj
  cases hi.symm.trans hj
  exact h

end Outing

namespace Errand
variable {ω : Type} (e : Errand ω)

/-- Only the module of the method has been deployed. -/
def mode? (m : Module Datum) (t : TypeFlags) (d : MethodFlags) (mark : Option Mobility) : Option Mode :=
  if m.name = e.modules.root.name then mobileMode? m.flags t d mark else none

structure Prepared : Prop where
  unambiguous : e.modules.Unambiguous
  constructors : e.modules.ConstructorsNamed
  keyed : ∀ name m, e.modules.dependencies.find? name = some m → m.name = name
  plain : ∀ m ∈ e.modules.members, m.Plain
  stands : e.start.StandsIn e.modules
  module : e.start.module = e.modules.root
  sound : Sound e.modules e.boundary e.start
  least : IsLeast e.modules e.boundary e.start e.closure
  inside : ¬e.boundary.stopsCall e.type
  renders : e.modules.Renders e.boundary.clientType e.mode? e.served
  others : ∀ m ∈ e.modules.members, m ≠ e.modules.root → e.served m = m.code
  /-- Modules that the method reaches into are found. -/
  fetches : ∀ {o y i m}, e.Keeps o → Reaches e.modules e.boundary e.start y → i ∈ y.method.body →
    y.Enters e.modules e.boundary i m → m ≠ e.modules.root →
    ∃ bytes o', e.resolve m.name o = some (.ok (some bytes), o') ∧ Module.ofFile bytes = .ok m ∧ e.Keeps o'

/-- The code of the two domains. -/
structure Settled (w : Shared) (s : State Unit) (t : State ω) : Prop where
  home : s.domain.Stocks e.modules Module.code
  complete : ∀ m ∈ e.modules.members, s.domain.module? m.name ≠ none
  away : t.domain.Stocks e.modules e.served
  held : ∀ m ∈ e.modules.members, w.modules m.name → t.domain.module? m.name ≠ none
  root : w.modules e.modules.root.name
  depth : s.domain.maxDepth ≤ e.limit
  depth' : t.domain.maxDepth = e.limit
  keeps : e.Keeps t.outside

/-- The two domains while the method runs. -/
structure Abroad (w : Shared) (s : State Unit) (t : State ω) : Prop extends e.Settled w s t where
  statics : Domain.SharesStatics (fun type name => type = e.type ∧ e.Shares name) w.links s.domain t.domain
  receiver : ∀ r, e.receiver = some r → ∃ r' o, w.links r r' ∧ t.domain.heap.get? r' = some o ∧ o.type = e.type

/-- The two machines. -/
def standIn : StandIn Unit ω where
  env := e.env
  env' := { host := .standard e.worker (some e.resolve) }
  client := e.boundary.clientType
  limit := e.limit
  veil := e.veil
  spared := {}
  Rest := e.Abroad
  Paired w m m' := ∃ y, Reaches e.modules e.boundary e.start y ∧ m.Loads y ∧ w.modules y.module.name ∧
    MethodHandle.Alike (.bare e.boundary.clientType e.limit) w.links m m'
  Admits := e.Admits

variable {e} {w : Shared} {s : State Unit} {t : State ω}

/-- What the second machine finds of a type that reached code refers to. -/
structure Finds (e : Errand ω) (w w' : Shared) (s : State Unit) (t t' : State ω) (r : TypeRef) (m : Module Datum)
    (u : TypeDecl Datum) (o o' : TypeHandle) : Prop where
  located : e.standIn.Locates (e.mode? m o.decl.flags) w w' s t t' r o o'
  held : w'.modules m.name
  code : o.module.code = m.code
  module : o'.module.name = o.module.name
  shape : u.shape = o.decl.shape

/-- A pair of methods that reached code refers to. -/
theorem Finds.paired {w' : Shared} {t' : State ω} {r : TypeRef} {m : Module Datum} {u : TypeDecl Datum} {o o' : TypeHandle}
    (hfinds : e.Finds w w' s t t' r m u o o') {d : MethodDecl Datum} (hd : Reaches e.modules e.boundary e.start ⟨m, u, d⟩)
    {x y : MethodDecl Value} (hx : (⟨o.module, o.decl, x⟩ : MethodHandle).Loads ⟨m, u, d⟩)
    (hxy : MethodDecl.Form False (Value.Linked w'.links) e.standIn.client o'.decl (e.mode? m o.decl.flags x.flags x.mobility) x y)
    (hstays : StaysInPlace (mobileMode? m.flags o.decl.flags x.flags x.mobility)) :
    e.standIn.Paired w' ⟨o.module, o.decl, x⟩ ⟨o'.module, o'.decl, y⟩ := by
  have hstays' : StaysInPlace (e.mode? m o.decl.flags x.flags x.mobility) := by
    unfold mode?
    split
    · exact hstays
    · exact fun _ h => (nomatch h)
  exact ⟨⟨m, u, d⟩, hd, hx, hfinds.held, hfinds.module, hfinds.located.form.fullName, hxy.inPlace hstays', fun h => absurd trivial h⟩

/-- Linked values are given to a static field in both domains. -/
theorem Abroad.put (hs : e.Abroad w s t) {type name : String} (hhere : s.domain.Offers (.static type name))
    (hthere : t.domain.Offers (.static type name)) {v v' : Value} (hv : Value.Linked w.links v v') :
    e.Abroad w { s with domain := s.domain.put v (.static type name) } { t with domain := t.domain.put v' (.static type name) } :=
  { hs with
    home := hs.home.congr rfl rfl rfl (Domain.conforms_put hhere v).statics
    away := hs.away.congr rfl rfl rfl (Domain.conforms_put hthere v').statics
    statics := hs.statics.put hhere hthere hv }

namespace Prepared
variable (he : e.Prepared)
include he

/-- The type of the method is that of its own module. -/
theorem type_unique {m : Module Datum} (hm : m ∈ e.modules.members) {u : TypeDecl Datum} (hu : u ∈ m.types)
    (h : u.fullName = e.type) : m = e.modules.root ∧ u = e.start.type := by
  rw [← he.module]
  exact eq_of_fullName he.unambiguous hm he.stands.module hu he.stands.type h

/-- A module that is not there yet is loaded with the type. -/
theorem loads {r : TypeRef} {m : Module Datum} {u : TypeDecl Datum} {name : String} (hs : e.standIn.Holds w s t)
    (hm : m ∈ e.modules.members) (hu : u ∈ m.types) (hname : u.fullName = r.fullName) (hscope : r.scope = some name)
    (hkey : m.name = name) (hnew : t.domain.module? m.name = none) {bytes : Bytes} {o' : ω}
    (hfetch : e.resolve m.name t.outside = some (.ok (some bytes), o')) (hread : Module.ofFile bytes = .ok m)
    (hkeeps : e.Keeps o') : ∃ l d, e.standIn.Holds (w.holding m.name) s ⟨d, o'⟩ ∧
      d.module? m.name = some l ∧ ∀ handle, d.type? r.fullName = some handle →
        e.standIn.env'.host.resolveType r t = some (.ok handle, ⟨d, o'⟩) := by
  have hrest : e.Abroad w s t := hs.rest
  have hroot : m ≠ e.modules.root := by
    rintro rfl
    exact hrest.held _ hm hrest.root hnew
  have htypes (n : Module Datum) (hn : n ∈ e.modules.members) (u : TypeDecl Value) (hu : u ∈ (e.served n).types) :
      u.fullName ∈ n.types.map (·.fullName) := he.renders.fullNames hn hu
  obtain ⟨l, hload, hcode, hstocks, hfound⟩ := hrest.away.loadFile he.unambiguous hm (he.plain m hm) htypes
    (he.others m hm hroot) hnew hread none
  have hmissing : t.domain.type? r.fullName = none := hname ▸ hrest.away.type?_eq_none he.unambiguous hm htypes hnew hu
  -- the static fields of the method's type are not among those that the module brings
  have hstatics : (t.domain.enter l).statics.find? e.type = t.domain.statics.find? e.type := by
    rw [Domain.enter_eq]
    refine Dict.find?_foldl_insert _ _ _ _ fun v hv hsame => hroot ?_
    have hmem : v.fullName ∈ m.types.map (·.fullName) :=
      m.code_fullNames ▸ List.mem_map_of_mem (f := TypeDecl.fullName) (hcode ▸ hv)
    obtain ⟨v', hv', hv'name⟩ := List.mem_map.mp hmem
    exact (he.type_unique hm hv' (hv'name.trans hsame)).1
  have hsame : (t.domain.enter l).heap = t.domain.heap ∧ (t.domain.enter l).maxDepth = t.domain.maxDepth := by
    rw [Domain.enter_eq]
    exact ⟨rfl, rfl⟩
  refine ⟨l, t.domain.enter l, ⟨?_, ?_⟩, hfound, fun handle hhandle => ?_⟩
  · show Heap.Mirrors e.veil {} w.links s.domain.heap (t.domain.enter l).heap
    rw [hsame.1]
    exact hs.heap
  · exact {
      home := hrest.home
      complete := hrest.complete
      away := hstocks
      held := fun n hn hheld => by
        rcases hheld with hheld | hheld
        · rw [Domain.module?_enter]
          split
          · exact fun h => (nomatch h)
          · exact hrest.held n hn hheld
        · show (t.domain.enter l).module? n.name ≠ none
          rw [hheld, hfound]
          exact fun h => (nomatch h)
      root := .inl hrest.root
      statics := fun type field v (hshares : type = e.type ∧ e.Shares field) hv => by
        obtain rfl := hshares.1
        obtain ⟨v', hv', hlinked⟩ := hrest.statics _ _ v hshares hv
        refine ⟨v', ?_, hlinked⟩
        rw [← hv', Domain.at?, Domain.at?]
        dsimp only
        rw [hstatics]
      depth := hrest.depth
      depth' := hsame.2.trans hrest.depth'
      keeps := hkeeps
      receiver := fun r hr => by
        obtain ⟨r', o, hlinked, ho, htype⟩ := hrest.receiver r hr
        exact ⟨r', o, hlinked, hsame.1.symm ▸ ho, htype⟩ }
  · refine Host.resolveType_loads (hscope.trans (congrArg some hkey.symm)) hmissing hnew rfl hfetch hload hhandle

/-- The second machine finds each type that reached code refers to. -/
theorem finds (hs : e.standIn.Holds w s t) {y : Item Datum} (hy : Reaches e.modules e.boundary e.start y)
    (hheld : w.modules y.module.name) {i : Instruction Datum} (hi : i ∈ y.method.body) {r : TypeRef} {m : Module Datum}
    {u : TypeDecl Datum} (hlookup : e.modules.lookup? y.module r = some (m, u))
    (henters : y.Enters e.modules e.boundary i m) : ∃ w' t' o o', e.Finds w w' s t t' r m u o o' := by
  have hrest : e.Abroad w s t := hs.rest
  have hstands := hy.standsIn he.stands
  obtain ⟨hm, hu, hname⟩ := hstands.lookup hlookup
  obtain ⟨l, hl⟩ := Option.ne_none_iff_exists'.mp (hrest.complete m hm)
  obtain ⟨v, hv, hshape, hfound⟩ := hrest.home.type? he.unambiguous hm hl hu
  have hfound' : s.domain.type? r.fullName = some ⟨l, v⟩ := hname ▸ hfound
  have hfull : v.fullName = r.fullName := (hrest.home.owners _ _ hfound').2.2
  -- once the module is there, the type is found in it
  have hthere {w' : Shared} {t' : State ω} (hle : w ≤ w') (hs' : e.standIn.Holds w' s t') {l' : LoadedModule}
      (hl' : t'.domain.module? m.name = some l') (hheld' : w'.modules m.name)
      (hresolves : ∀ handle, t'.domain.type? r.fullName = some handle →
        e.standIn.env'.host.resolveType r t = some (.ok handle, t')) :
      ∃ w' t' o o', e.Finds w w' s t t' r m u o o' := by
    have hrest' : e.Abroad w' s t' := hs'.rest
    obtain ⟨hcode, v', hv', hform⟩ := hrest'.home.renders hrest'.away he.renders he.unambiguous hm
      (hrest'.complete m hm) hl' hu hfound
    rw [hname] at hv'
    exact ⟨w', t', ⟨l, v⟩, ⟨l', v'⟩, ⟨hle, hs', hfound', hfull, hresolves _ hv', hv', hform.form _⟩, hheld', hcode,
      hform.module, hshape⟩
  cases hl' : t.domain.module? m.name with
  | some l' =>
    have hs' : e.standIn.Holds (w.holding m.name) s t := ⟨hs.heap, { hrest with
      held := fun n hn hheld' => hheld'.elim (hrest.held n hn) fun h => by
        show t.domain.module? n.name ≠ none
        rw [h, hl']
        exact fun h => (nomatch h)
      root := .inl hrest.root }⟩
    exact hthere (w.le_holding _) hs' hl' (.inr rfl) fun _ => Host.resolveType_found
  | none =>
    obtain ⟨hscope, _⟩ := ModuleSet.lookup?_eq_some.mp hlookup
    have hcurrent : m ≠ y.module := by
      rintro rfl
      exact hrest.held _ hm hheld hl'
    have hroot : m ≠ e.modules.root := by
      rintro rfl
      exact hrest.held _ hm hrest.root hl'
    obtain ⟨name, hname', hkey⟩ : ∃ name, r.scope = some name ∧ m.name = name := by
      cases hr : r.scope with
      | none =>
        rw [hr] at hscope
        cases hscope
        exact absurd rfl hcurrent
      | some name =>
        rw [hr] at hscope
        simp only [ModuleSet.scope?] at hscope
        split at hscope
        · cases hscope
          exact absurd rfl hcurrent
        split at hscope
        · cases hscope
          exact absurd rfl hroot
        · exact ⟨name, rfl, he.keyed name m hscope⟩
    obtain ⟨bytes, o', hfetch, hread, hkeeps⟩ := he.fetches hrest.keeps hy hi henters hroot
    obtain ⟨l', d, hs', hfound', hresolves⟩ := he.loads hs hm hu hname hname' hkey hl' hfetch hread hkeeps
    exact hthere (w.le_holding _) hs' hfound' (.inr rfl) hresolves

/-- What a field instruction of reached code means. -/
theorem field_means {y : Item Datum} (hy : Reaches e.modules e.boundary e.start y) {i : Instruction Datum}
    (hi : i ∈ y.method.body) {r : FieldRef} (hr : i.field? = some r) (hexcludes : e.boundary.excludes r.owner.fullName = false) :
    ∃ m u d, y.MeansField e.modules e.boundary r m u d := by
  have hresolves := he.sound y hy i hi
  cases i with
  | loadField r' | storeField r' | loadStatic r' | storeStatic r' =>
    cases hr
    exact hresolves hexcludes
  | _ => cases hr

theorem included : e.boundary.excludes e.type = false := by
  rw [← Bool.not_eq_true]
  exact fun h => he.inside (.inr h)

/-- A field of the method's type that reached code reads goes along. -/
theorem ships {y : Item Datum} (hy : Reaches e.modules e.boundary e.start y) {i : Instruction Datum}
    (hi : i ∈ y.method.body) {r : FieldRef} (hr : i.field? = some r) (howner : r.owner.fullName = e.type)
    (hportable : ∀ d, e.start.type.field? r.name = some d →
      d.isStatic = false ∧ d.flags.has MemberFlags.ignoreTransfer = false) : e.Ships r.name := by
  obtain ⟨m, u, d, _, hlookup, hd⟩ := he.field_means hy hi hr (howner ▸ he.included)
  obtain ⟨hm, hu, hname⟩ := (hy.standsIn he.stands).lookup hlookup
  obtain ⟨rfl, rfl⟩ := he.type_unique hm hu (hname.trans howner)
  obtain ⟨hstatic, htravels⟩ := hportable d hd
  have hdname : d.name = r.name :=
    of_decide_eq_true (List.find?_some (p := fun f : FieldDecl Datum => decide (f.name = r.name)) hd)
  refine ⟨(he.least.fields _).mpr ⟨d, List.mem_of_find?_eq_some hd, by rw [hdname], htravels, y, hy, i, hi, r, hr, howner,
    hdname.symm⟩, d, hd, hstatic⟩

/-! ## Instructions

What an instruction of reached code needs elsewhere is there if the instruction is portable.
-/

section Instructions
variable {f : Frame} {y : Item Datum} (hs : e.standIn.Holds w s t) (hy : Reaches e.modules e.boundary e.start y)
  (hheld : w.modules y.module.name) (hloads : f.method.Loads y)
include hs hy hloads

theorem meets_loadField {r : FieldRef} (hi : f.method.decl.body[f.position]? = some (.loadField r))
    (hportable : e.Portable f s (.loadField r)) : e.standIn.Meets w f s t (.loadField r) := by
  have hrest : e.Abroad w s t := hs.rest
  rintro ref rest hstack ⟨hreceiver, hhidden⟩
  obtain ⟨howner, hfield⟩ := hportable ref rest hstack hreceiver
  obtain ⟨r', o, hlinked, ho, htype⟩ := hrest.receiver ref hreceiver
  rw [hs.heap.typeOf hlinked, Heap.typeOf, ho, Option.map_some, Option.getD_some, htype] at howner
  obtain ⟨j, hj, hjfield⟩ := hloads.field_mem hi rfl
  exact hhidden (he.ships hy hj hjfield howner hfield)

include hheld

theorem meets_loadStatic {r : FieldRef} (hi : f.method.decl.body[f.position]? = some (.loadStatic r))
    (hportable : e.Portable f s (.loadStatic r)) : e.standIn.Meets w f s t (.loadStatic r) := by
  have hclosure : ⟨r.owner.fullName, r.name⟩ ∈ e.closure.fields := hportable
  obtain ⟨f, _, hid, _⟩ := (he.least.fields _).mp hclosure
  obtain ⟨j, hj, hjfield⟩ := hloads.field_mem hi rfl
  have howner : r.owner.fullName = e.type := congrArg MemberId.type hid
  obtain ⟨m, u, d, hmeans⟩ := he.field_means hy hj hjfield (howner ▸ he.included)
  obtain ⟨w', t', o, o', hfinds⟩ := he.finds hs hy hheld hj hmeans.2.1 (.field hjfield hmeans)
  obtain ⟨hm, hu, hname⟩ := (hy.standsIn he.stands).lookup hmeans.2.1
  obtain ⟨_, rfl⟩ := he.type_unique hm hu (hname.trans howner)
  have hrest' : e.Abroad w' s t' := hfinds.located.holds.rest
  refine hfinds.located.readStatic fun hdeclares v hv => hrest'.statics _ _ v ⟨howner, howner ▸ hclosure, ?_⟩ hv
  obtain ⟨f, hf, hstatic⟩ := (Option.any_eq_true _ _).mp hdeclares
  obtain ⟨f', hf', hshape⟩ := TypeDecl.field?_eq hfinds.shape.symm hf
  have hflags : f.flags = f'.flags := congrArg FieldDecl.flags hshape
  exact ⟨f', hf', by rw [FieldDecl.isStatic, ← hflags]; exact hstatic⟩

theorem meets_storeStatic {r : FieldRef} (hi : f.method.decl.body[f.position]? = some (.storeStatic r))
    (hportable : e.Portable f s (.storeStatic r)) : e.standIn.Meets w f s t (.storeStatic r) := by
  obtain ⟨j, hj, hjfield⟩ := hloads.field_mem hi rfl
  obtain ⟨m, u, d, hmeans⟩ := he.field_means hy hj hjfield hportable
  obtain ⟨w', t', o, o', hfinds⟩ := he.finds hs hy hheld hj hmeans.2.1 (.field hjfield hmeans)
  have hrest' : e.Abroad w' s t' := hfinds.located.holds.rest
  intro v v' hv
  have hthere : t'.domain.Offers (.static r.owner.fullName r.name) := by
    have hstores := hrest'.away.stores r.owner.fullName
    rw [hfinds.located.there] at hstores
    exact hstores
  exact hfinds.located.writeStatic (fun _ => hthere) fun hhere =>
    hrest'.put hhere hthere (hv.mono hfinds.located.le.1)

theorem meets_construct {r : TypeRef} (hi : f.method.decl.body[f.position]? = some (.construct r))
    (hportable : e.Portable f s (.construct r)) : e.standIn.Meets w f s t (.construct r) := by
  have hj := hloads.construct_mem hi
  obtain ⟨m, u, hmeans⟩ := he.sound y hy _ hj hportable
  obtain ⟨w', t', o, o', hfinds⟩ := he.finds hs hy hheld hj hmeans.2 (.construct hmeans)
  obtain ⟨hm, hu, _⟩ := (hy.standsIn he.stands).lookup hmeans.2
  refine hfinds.located.builtType fun x x' hx hdefault hxx' _ => ?_
  obtain ⟨d, hd, hshape⟩ := TypeDecl.method?_eq hfinds.shape.symm hx
  rw [MethodDecl.isDefaultConstructor_eq hshape] at hdefault
  have hctor := he.constructors.defaultConstructor?_eq he.unambiguous hm hu hd hdefault
  have hflag : x.flags.has MethodFlags.constructor = true := by
    rw [← MethodDecl.isDefaultConstructor_eq hshape] at hdefault
    simp only [MethodDecl.isDefaultConstructor, Bool.and_eq_true] at hdefault
    exact hdefault.1.1
  refine hfinds.paired (hy.tail (.construct hj hmeans hctor)) ⟨hfinds.shape, hshape.symm⟩ hxx' ?_
  rw [mobileMode?_constructor hflag]
  intro mode h
  cases h

theorem meets_call {r : MethodRef} (hi : f.method.decl.body[f.position]? = some (.call r))
    (hportable : e.Portable f s (.call r)) : e.standIn.Meets w f s t (.call r) := by
  have hrest : e.Abroad w s t := hs.rest
  obtain ⟨hnative, hmethod⟩ := hportable
  refine ⟨Native.standard_echoes StandIn.Holds.typed (fun h => absurd h hnative.1) fun h => absurd h hnative.2,
    fun hnone => ?_⟩
  obtain ⟨hstops, hcallee⟩ := hmethod hnone
  have hj := hloads.call_mem hi
  obtain ⟨m, u, d, hmeans⟩ := he.sound y hy _ hj hstops
  obtain ⟨hm, hu, hname⟩ := (hy.standsIn he.stands).lookup hmeans.2.1
  obtain ⟨l, hl⟩ := Option.ne_none_iff_exists'.mp (hrest.complete m hm)
  obtain ⟨v, hv, hshape, hfound⟩ := hrest.home.type? he.unambiguous hm hl hu
  rw [hname] at hfound
  have hdeclared : u.shape = (⟨l, v⟩ : TypeHandle).decl.shape := hshape
  obtain ⟨callee, hfindsCallee, hcalleeLoads⟩ := TypeHandle.method?_loads (m := m) hdeclared hmeans.2.2
  obtain ⟨hhome, hstays⟩ := hcallee _ _ hfound hfindsCallee
  obtain ⟨x, hx, rfl⟩ := Option.map_eq_some_iff.mp hfindsCallee
  obtain ⟨w', t', o, o', hfinds⟩ := he.finds hs hy hheld hj hmeans.2.1 (.call hmeans (hcalleeLoads.keepsHome.not.mp hhome))
  cases hfound.symm.trans hfinds.located.here
  refine hfinds.located.resolveMethod fun x' y' hx' hxy _ => ?_
  cases hx.symm.trans hx'
  have hleads : Leads e.modules e.boundary y ⟨m, u, d⟩ := .call hj hmeans (hcalleeLoads.keepsHome.not.mp hhome)
  have hmodule : l.code.flags = m.flags := by rw [hfinds.code, m.code_flags]
  exact hfinds.paired (hy.tail hleads) hcalleeLoads hxy (hmodule ▸ hstays)

end Instructions

theorem lawful : e.standIn.Lawful where
  idle _ := rfl
  idle' _ := rfl
  limits hs := ⟨hs.depth, hs.depth'⟩
  heap {w s t links h k} (hs : e.Abroad w s t) hle hk := {
    home := hs.home.congr rfl rfl rfl fun _ => rfl
    complete := hs.complete
    away := hs.away.congr rfl rfl rfl fun _ => rfl
    held := hs.held
    root := hs.root
    statics := hs.statics.mono hle
    depth := hs.depth
    depth' := hs.depth'
    keeps := hs.keeps
    receiver := fun r hr => by
      obtain ⟨r', o, hlinked, ho, htype⟩ := hs.receiver r hr
      obtain ⟨p, hp, hptype⟩ := Option.map_eq_some_iff.mp (hk r' o ho)
      exact ⟨r', p, hle _ _ hlinked, hp, hptype.trans htype⟩ }
  mono := by
    rintro w w' m m' hle ⟨y, hy, hloads, hheld, halike⟩
    exact ⟨y, hy, hloads, hle.2 _ hheld, halike.mono hle.1⟩
  alike := by
    rintro w m m' ⟨_, _, _, _, halike⟩
    exact halike
  meets {w f m' s t i} := by
    rintro ⟨y, hy, hloads, hheld, _⟩ hs hadmits hi
    have hportable := hadmits i hi
    cases i with
    | loadField r => exact he.meets_loadField hs hy hloads hi hportable
    | compare op => exact hportable
    | loadStatic r => exact he.meets_loadStatic hs hy hheld hloads hi hportable
    | storeStatic r => exact he.meets_storeStatic hs hy hheld hloads hi hportable
    | construct r => exact he.meets_construct hs hy hheld hloads hi hportable
    | call r => exact he.meets_call hs hy hheld hloads hi hportable
    | _ => trivial

/-- A call at home that is portable throughout comes to the same elsewhere. -/
theorem invoke_echoes (hs : e.standIn.Holds w s t) {m m' : MethodHandle} (hm : e.standIn.Paired w m m') {r r' : Option Ref}
    (hr : Option.Rel w.links r r') {args args' : List Value} (hargs : List.Forall₂ (Value.Linked w.links) args args')
    {budget : Nat} (hportable : ∀ f, Frame.enter s.domain.maxDepth 0 m r args = .ok f →
      Machine.Behaves e.standIn.env e.standIn.Admits budget (.next f []) s) {v : Value} {s' : State Unit}
    (hv : Host.invokeHandle (Machine.runner e.standIn.env budget) m r args s = some (.ok v, s')) :
    ∃ n v' t' w', (∀ k, Host.invokeHandle (Machine.runner e.standIn.env' (n + k)) m' r' args' t = some (.ok v', t')) ∧
      w ≤ w' ∧ e.standIn.Holds w' s' t' ∧ Value.Linked w'.links v v' := by
  have hrest : e.Abroad w s t := hs.rest
  unfold Host.invokeHandle at hv
  rw [Run.get_bind] at hv
  cases henter : Frame.enter s.domain.maxDepth 0 m r args with
  | error err =>
    rw [henter] at hv
    cases hv
  | ok f =>
    rw [henter, Run.ofExcept_ok, pure_bind] at hv
    obtain ⟨g, hg, hreaches⟩ := StandIn.enter_echoes he.lawful hm hrest.depth hr hargs .none .nil henter
    obtain ⟨n, v', t', w', hv', hle, hs', hlinked⟩ := StandIn.resume_echoes he.lawful hreaches hs (hportable f henter) hv
    refine ⟨n, v', t', w', fun k => ?_, hle, hs', hlinked⟩
    have hdepth : t.domain.maxDepth = e.standIn.limit := hrest.depth'
    unfold Host.invokeHandle
    rw [Run.get_bind, hdepth, hg, Run.ofExcept_ok, pure_bind]
    have hidle : ∀ client, e.standIn.env'.IdleFor client := by
      intro client d h
      cases h
    exact Machine.resume_add hidle hv' k

end Prepared
end Errand
end MobileCode
