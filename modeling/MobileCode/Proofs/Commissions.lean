import MobileCode.Proofs.Bundles
import MobileCode.Proofs.Cargoes
import MobileCode.Proofs.Fronts
import MobileCode.Proofs.Handshakes
import MobileCode.Proofs.Resolutions
import MobileCode.Proofs.Shelves

/-! # Methods of deployed modules

A method of a module that has been deployed is run by a server that has a module of the deployment. At home there are the
modules as they were written. What the method reaches on the server is in its own module or in one that this one brings
along, so that the server finds it all.
-/
namespace MobileCode
open Discovery

/-- A method in normal mode of a module that has been deployed. Nothing but fields is in its closure. -/
structure Commission where
  boundary : Boundary
  digest : DigestAlgorithm
  module : Module Datum
  dependencies : List (Module Datum)
  deployment : Deployment
  target : Target Datum
  closure : Closure
  make : Deployment.make? boundary digest module dependencies = .ok (some deployment)
  mem : target ∈ module.targets
  mode : target.mobility.mode = .normal
  discover : (ModuleSet.ofList module dependencies).discover boundary target.type.fullName target.method = .ok closure
  properties : closure.properties = []
  inside : ¬boundary.stopsCall target.type.fullName
  undirected : target.Undirected
  valid : module.Valid
  addressable : module.Addressable
  unambiguous : (ModuleSet.ofList module dependencies).Unambiguous
  names : ((module :: dependencies).map (·.name)).Nodup
  constructors : (ModuleSet.ofList module dependencies).ConstructorsNamed
  plain : ∀ m ∈ module :: dependencies, m.Plain
  files : ∀ d ∈ dependencies, Module.ofFile d.toFile = .ok d
  placed : ∀ d ∈ dependencies, isPlainFileName d.name = true ∧ FileTree.isUsable d.name = true

namespace Domain.Vacant
variable {d : Domain} (h : d.Vacant)
include h

theorem module? (name : String) : d.module? name = none := by
  rw [Domain.module?, h.modules]
  rfl

theorem clash? (m : Module Value) : d.clash? m = none := by
  refine List.findSome?_eq_none_iff.mpr fun u _ => ?_
  rw [Domain.type?, h.types]
  rfl

/-- A module whose literals hold no objects is loaded into a domain that has none yet. -/
theorem loadFile {n : Module Datum} (hplain : n.Plain) {bytes : Bytes}
    (hread : Module.ofFile bytes = .ok n) (path : Option String) :
    d.loadFile bytes path = .ok (⟨n.code, bytes, d.digest.digest bytes, path⟩,
      d.enter ⟨n.code, bytes, d.digest.digest bytes, path⟩) := by
  unfold Domain.loadFile
  rw [hread]
  show d.register n bytes path = _
  simp only [register, h.module?, hplain.instantiate_eq, h.clash?]

end Domain.Vacant

namespace Commission
variable (x : Commission)

/-- The modules as they were written. -/
abbrev modules : ModuleSet Datum := .ofList x.module x.dependencies

abbrev type : String := x.target.type.fullName

/-- The method as it is run at home. -/
def outing (thread : Option String) (receiver : Option Ref) : Outing where
  modules := x.modules
  boundary := x.boundary
  start := ⟨x.module, x.target.type, x.target.method⟩
  closure := x.closure
  receiver
  thread

/-- The method, and a server that has loaded the module `n` of the deployment as `l`. -/
def errand (thread : Option String) (receiver : Option Ref) (n : Module Datum) (l : LoadedModule) (hash : String) (limit : Nat)
    (worker : Option String) : Errand Storage where
  toOuting := x.outing thread receiver
  served m := if m.name = x.module.name then n.code else m.code
  worker
  resolve := Server.findReferenced l hash
  Keeps o := o.Shelves hash x.dependencies
  limit

theorem placedAt : x.target.StandsIn x.module := (Module.mem_targets.mp x.mem).1

theorem stands : Item.StandsIn x.modules ⟨x.module, x.target.type, x.target.method⟩ := Module.targets_standIn x.mem

theorem plain_member {m : Module Datum} (hm : m ∈ x.modules.members) : m.Plain := by
  rcases ModuleSet.mem_members hm with rfl | hm
  · exact x.plain _ List.mem_cons_self
  · exact x.plain _ (List.mem_cons_of_mem _ hm)

theorem walked : Sound x.modules x.boundary ⟨x.module, x.target.type, x.target.method⟩ ∧
    IsLeast x.modules x.boundary ⟨x.module, x.target.type, x.target.method⟩ x.closure :=
  ⟨(ModuleSet.discover_eq_ok x.unambiguous x.boundary x.stands.type x.stands.method x.discover).1,
    (ModuleSet.discover_least x.unambiguous x.boundary x.stands.type x.inside x.stands.method).2 _ x.discover⟩

theorem unique {m : Module Datum} (hm : m ∈ x.modules.members) (hname : m.name = x.module.name) : m = x.module :=
  x.unambiguous.eq_of_name hm List.mem_cons_self hname

/-- In each module of the deployment the method stands where it stood, and it is found there by its name and its types. -/
theorem stands_there {n : Module Datum} (hn : x.deployment.Owns n) {l : LoadedModule} (hl : l.code.shape = n.shape)
    {u : TypeDecl Value} (hu : l.code.types[x.target.typeIndex]? = some u) : ∃ y,
      u.methods[x.target.methodIndex]? = some y ∧ u.method? x.target.method.name x.target.method.paramTypes = some y ∧
      y.relayBody = x.target.method.relayBody := by
  obtain ⟨_, hdeclared, horigin⟩ := Deployment.loaded_methods x.make hn hl x.placedAt.1 hu
  have hdistinct := (x.unambiguous.within _ x.stands.module _ x.stands.type).methods
  obtain ⟨e, he, hloaded⟩ := hdeclared _ _ x.placedAt.2
  obtain ⟨y, hy⟩ : ∃ y, u.method? x.target.method.name x.target.method.paramTypes = some y := by
    have hkey := hloaded.key x.type
    refine Option.isSome_iff_exists.mp (List.find?_isSome.mpr ⟨e, List.mem_of_getElem? he, ?_⟩)
    simp only [MethodDecl.hasSignature, Bool.and_eq_true, decide_eq_true_eq]
    exact ⟨congrArg MethodKey.name hkey, congrArg MethodKey.paramTypes hkey⟩
  obtain ⟨hmem, hname, htypes⟩ := TypeDecl.method?_eq_some hy
  obtain ⟨k, hk⟩ := List.mem_iff_getElem?.mp hmem
  obtain ⟨d, hd, hloaded', hrelay⟩ := horigin k y hk ⟨_, x.stands.method, hname⟩
  have hkey : d.key x.type = x.target.method.key x.type := by
    rw [← hloaded'.key, MethodDecl.key, MethodDecl.key, hname, htypes]
  obtain rfl : k = x.target.methodIndex := by
    refine (List.getElem?_inj ?_ hdistinct).mp ?_
    · rw [List.length_map]
      exact (List.getElem?_eq_some_iff.mp hd).1
    · rw [List.getElem?_map, List.getElem?_map, hd, x.placedAt.2, Option.map_some, Option.map_some]
      exact congrArg some (Prod.ext (congrArg MethodKey.name hkey) (congrArg MethodKey.paramTypes hkey))
  cases x.placedAt.2.symm.trans hd
  exact ⟨y, hk, hy, hrelay fun h => h.2 x.mode⟩

section Served
variable {x} {n : Module Datum} (hn : x.deployment.Owns n)
include hn

theorem owned_plain : n.Plain := (Deployment.grown x.make hn).plain (x.plain _ List.mem_cons_self)

theorem owned_name : n.name = x.module.name := Deployment.owned_name x.make hn

theorem owned_distinct : (n.code.types.map (·.fullName)).Nodup := by
  rw [n.code_fullNames, Deployment.owned_fullNames x.make hn]
  exact x.valid.distinct

theorem renders : x.modules.Renders x.boundary.clientType
    (fun m t d mark => if m.name = x.module.name then mobileMode? m.flags t d mark else none)
    (fun m => if m.name = x.module.name then n.code else m.code) where
  name m _ := by
    split
    · rename_i hname
      exact n.code_name.trans ((owned_name hn).trans hname.symm)
    · exact m.code_name
  forms m hm w := by
    split
    · rename_i hname
      obtain rfl := x.unique hm hname
      exact (Deployment.grown x.make hn).code_forms (x.plain _ List.mem_cons_self) x.valid.branches x.addressable w
    · exact ((x.plain_member hm).code_forms _ w).imp fun _ _ h => h False

variable {l : LoadedModule} (hl : l.code = n.code) {hash : String} (hhash : isPlainFileName hash = true)
  (hhash' : FileTree.isUsable hash = true) (thread : Option String) (receiver : Option Ref) (limit : Nat)
  (worker : Option String)
include hl hhash hhash'

theorem prepared : (x.errand thread receiver n l hash limit worker).Prepared where
  unambiguous := x.unambiguous
  constructors := x.constructors
  keyed name m h := by
    have hfound : x.modules.dependencies.find? name = some m := h
    rw [ModuleSet.find?_ofList] at hfound
    simpa using List.find?_some hfound
  plain _ hm := x.plain_member hm
  stands := x.stands
  module := rfl
  sound := x.walked.1
  least := x.walked.2
  inside := x.inside
  renders := renders hn
  others m hm hne := if_neg fun hname => hne (x.unique hm hname)
  fetches {o y i m} hkeeps hy hi henters hne := by
    have hm : m ∈ x.modules.members := henters.mem_members (hy.standsIn x.stands)
    have hname : m.name ≠ x.module.name := fun h => hne (x.unique hm h)
    obtain ⟨hnames, hdistinct⟩ := List.nodup_cons.mp x.names
    obtain ⟨hsupplied, _, hcarries⟩ := (Deployment.bundles_reached x.unambiguous hdistinct x.make).2 m hname
      ⟨x.target, x.mem, y, hy, i, hi, henters⟩
    have hbundled : l.code.bundled? m.name = some m.toFile := by
      rw [Module.bundled?, hl, n.code_resources]
      exact (hcarries n hn).1.file
    obtain ⟨hplain, husable⟩ := x.placed m hsupplied
    have hshelves : o.Shelves hash x.dependencies := hkeeps
    exact hshelves.findReferenced hsupplied hplain husable hhash hhash'
      (fun d hd hsame => List.inj_on_of_nodup_map hdistinct hd hsupplied hsame) hbundled (x.files m hsupplied)

end Served

/-- The domain at home holds all modules as they were written. -/
structure Resides (d : Domain) : Prop extends d.Stocks x.modules Module.code where
  complete : ∀ m ∈ x.modules.members, d.module? m.name ≠ none

/-- The method in a domain. -/
def Found (d : Domain) (m : MethodHandle) : Prop :=
  ∃ o, d.type? x.type = some o ∧ o.method? x.target.method.name x.target.method.paramTypes = some m

/-- The first method of the name that takes the data is the one that is meant. -/
def Selects (xs : List Datum) : Prop :=
  x.target.type.methods.find? (fun d => d.name = x.target.method.name && d.takes xs) = some x.target.method

/-- A method that is marked as this one stays where it is. -/
theorem staysInPlace {mark : Option Mobility} (hmark : x.target.method.mobility = mark) (module : ModuleFlags)
    (type : TypeFlags) (method : MethodFlags) : StaysInPlace (mobileMode? module type method mark) := by
  intro mode hmode
  unfold mobileMode? at hmode
  split at hmode
  · cases hmode
    rw [← hmark]
    exact x.mode
  · cases hmode

/-- The method that takes the values at home is meant by them in a domain that has a module of the deployment. -/
theorem meant_there {n : Module Datum} {l : LoadedModule} {d : Domain} (hn : x.deployment.Owns n) (hd : d.Has n l)
    {u : TypeDecl Value} (hu : l.code.types[x.target.typeIndex]? = some u) {y : MethodDecl Value}
    (hy : u.method? x.target.method.name x.target.method.paramTypes = some y) {xs : List Datum} (hselects : x.Selects xs)
    {heap : Heap} {args : List Value}
    (hargs : List.Forall₂ (fun v x => ∀ declared, heap.matchesType v declared = x.belongsTo declared) args xs) :
    { d with heap := heap }.meant? ⟨l, u⟩ x.type x.target.method.name args = some ⟨l, u, y⟩ := by
  -- the first method of the name that takes the values has been loaded as the first one that does
  obtain ⟨hyes, j, hj, hfirst, hbefore⟩ := List.find?_eq_some_iff_getElem.mp hselects
  simp only [Bool.and_eq_true, decide_eq_true_eq] at hyes
  have hsame : x.target.method.name = x.target.method.name := rfl
  obtain ⟨e, heloaded, he⟩ := Deployment.find?_taking x.make hn hd.shape x.placedAt.1 hu
    (List.getElem?_eq_some_iff.mpr ⟨hj, hfirst⟩) hsame hyes.2 fun k hk e he hname => by
      obtain ⟨_, rfl⟩ := List.getElem?_eq_some_iff.mp he
      simpa [hname] using hbefore k hk
  have hekey := heloaded.key x.type
  have hename : e.name = x.target.method.name := congrArg MethodKey.name hekey
  have hetypes : e.paramTypes = x.target.method.paramTypes := congrArg MethodKey.paramTypes hekey
  obtain ⟨hname, _⟩ := Deployment.loaded_methods x.make hn hd.shape x.placedAt.1 hu
  have hmeant := (hd.withHeap heap).meant?_eq (List.mem_of_getElem? hu) x.target.method.name hargs
  rw [hname, he, Option.bind_some, hename, hetypes, hy] at hmeant
  exact hmeant

/-- With the module of the method alone, `server` can make an object of its type. -/
def Constructs (server : Server) (thread : Option String) : Prop :=
  ∀ n bytes path l d, x.deployment.Owns n → Module.ofFile bytes = .ok n → server.domain.loadFile bytes path = .ok (l, d) →
    ∃ budget r u, (Host.standard thread).construct (Machine.runner { host := .standard thread } budget) x.type ⟨d, ()⟩ =
      some (.ok r, u)

section Obtained
variable {x} {fresh t : Server} {hash : String} {n : Module Datum} {l : LoadedModule}
  (hfresh : fresh.Fresh x.deployment hash x.dependencies)
  (hobtains : fresh.Obtains x.deployment hash x.dependencies n l t)
include hfresh hobtains

theorem obtained : l.code = n.code ∧ t.domain = fresh.domain.enter l ∧ t.domain.Has n l := by
  obtain ⟨bytes, path, hread, hload⟩ := hobtains.loaded
  have hload' := hfresh.vacant.loadFile (owned_plain hobtains.owns) hread path
  obtain ⟨n', hn', hregister⟩ := Domain.loadFile_eq_ok hload
  cases hread.symm.trans hn'
  have hdistinct : (n.types.map (·.fullName)).Nodup := by
    rw [Deployment.owned_fullNames x.make hobtains.owns]
    exact x.valid.distinct
  have hhas := Domain.Has.of_register (hfresh.vacant.module? _) hdistinct hregister
  obtain ⟨hl, hdomain⟩ := Prod.mk.inj (Except.ok.inj (hload.symm.trans hload'))
  exact ⟨by rw [hl], by rw [hdomain, hl], hhas⟩

theorem obtained_coherent : t.domain.Coherent := by
  obtain ⟨_, hdomain, hhas⟩ := obtained hfresh hobtains
  rw [hdomain]
  exact hfresh.vacant.coherent.enter hhas.distinct (hfresh.vacant.module? _) (hfresh.vacant.clash? _)

/-- The server has the module of the method, and no other one yet. -/
theorem settled {s : State Unit} (hhome : x.Resides s.domain) (hdepth : s.domain.maxDepth ≤ fresh.domain.maxDepth)
    (thread : Option String) (receiver : Option Ref) (worker : Option String) :
    (x.errand thread receiver n l hash fresh.domain.maxDepth worker).Settled
      ⟨fun _ _ => False, fun name => name = x.module.name⟩ s t := by
  obtain ⟨hcode, hdomain, hhas⟩ := obtained hfresh hobtains
  have hlname : l.name = x.module.name := hhas.name.trans (owned_name hobtains.owns)
  refine ⟨hhome.toStocks, hhome.complete, ⟨obtained_coherent hfresh hobtains, fun name k hk => ?_⟩, fun m hm hheld => ?_, rfl,
    hdepth, ?_, hobtains.shelves⟩
  · rw [hdomain] at hk
    rcases Domain.module?_enter_cases hk with ⟨rfl, rfl⟩ | hk
    · exact ⟨x.module, List.mem_cons_self, hlname.symm, hcode.trans (if_pos rfl).symm⟩
    · cases (hfresh.vacant.module? _).symm.trans hk
  · have hheld : m.name = x.module.name := hheld
    rw [hheld, ← owned_name hobtains.owns, hhas.module]
    exact fun h => nomatch h
  · rw [hdomain, Domain.enter_eq]
    rfl

/-- The server can make a new object for the receiver. -/
theorem makes {worker : Option String} (hconstructs : x.Constructs fresh worker) (thread : Option String)
    (receiver : Option Ref) (limit : Nat) : (x.errand thread receiver n l hash limit worker).Makes t := by
  obtain ⟨hcode, hdomain, hhas⟩ := obtained hfresh hobtains
  have hcoherent := obtained_coherent hfresh hobtains
  have hself (w : Links) {u : TypeDecl Value} (hu : u ∈ l.code.types) :
      TypeDecl.Form False (Value.Linked w) x.boundary.clientType (fun _ _ => none) u u :=
    List.forall₂_same.mp (((owned_plain hobtains.owns).code_forms x.boundary.clientType w).imp fun _ _ h => h False) u
      (hcode ▸ hu)
  have hmine {name : String} {o : TypeHandle} (ho : t.domain.type? name = some o) : o.decl ∈ l.code.types := by
    obtain ⟨hmodule, hdecl, _⟩ := hcoherent.owners _ _ ho
    rw [hdomain] at hmodule
    rcases Domain.module?_enter_cases hmodule with ⟨_, hsame⟩ | hold
    · exact hsame ▸ hdecl
    · cases (hfresh.vacant.module? _).symm.trans hold
  refine ⟨⟨hcoherent, fun name o ho w => hself w (hmine ho)⟩, fun type name v _ hv => ?_, ?_⟩
  · obtain ⟨o, ho⟩ : ∃ o, t.domain.type? type = some o := by
      refine Option.isSome_iff_exists.mp ((hcoherent.stores type).symm.trans ?_)
      cases hstatics : t.domain.statics.find? type with
      | some _ => rfl
      | none =>
        rw [Domain.at?, hstatics] at hv
        cases hv
    -- static fields that have just been loaded hold no objects
    have hstatics : t.domain.statics.find? type = some (Domain.staticsOf o.decl) := by
      rw [hdomain, ← (hcoherent.owners _ _ ho).2.2]
      exact Domain.statics_enter hhas.distinct (hmine ho)
    have hrelated := ((hself (fun _ _ => False) (hmine ho)).initialValues Value.Linked.defaultFor id).find? name
    rw [Domain.at?, hstatics] at hv ⊢
    change Dict.find? (Domain.staticsOf o.decl) name = some v at hv
    change Option.Rel _ (Dict.find? (Domain.staticsOf o.decl) name) (Dict.find? (Domain.staticsOf o.decl) name) at hrelated
    rw [hv] at hrelated
    cases hrelated with
    | some hlinked => exact ⟨v, hv, hlinked⟩
  · obtain ⟨bytes, path, hread, hload⟩ := hobtains.loaded
    obtain ⟨budget, r, u, hconstruct⟩ := hconstructs n bytes path l t.domain hobtains.owns hread hload
    have hheap : t.domain.heap = {} := by
      rw [hdomain, Domain.enter_eq]
      exact hfresh.heap
    refine ⟨budget, r, u, ?_⟩
    rw [show ({ t.domain with heap := {} } : Domain) = t.domain by rw [← hheap]]
    exact hconstruct

/-- The server runs the method when it is asked for it by its name. -/
theorem answers {s : State Unit} {thread : Option String} {receiver : Option Ref} {limit : Nat} {worker : Option String}
    (hs : (x.errand thread receiver n l hash limit worker).Settled ⟨fun _ _ => False, fun name => name = x.module.name⟩ s t)
    (hhash : isPlainFileName hash = true) (hhash' : FileTree.isUsable hash = true) {m : MethodHandle}
    (hm : x.Found s.domain m) (hstatic : x.target.method.isStatic = receiver.isNone) {r : Request Datum}
    (hmethod : r.method = x.target.method.name) (hselects : x.Selects r.arguments) :
    ∃ asked, (x.errand thread receiver n l hash limit worker).Answers ⟨fun _ _ => False, fun name => name = x.module.name⟩ t r m
      asked := by
  obtain ⟨hcode, _, hhas⟩ := obtained hfresh hobtains
  have he := prepared hobtains.owns hcode hhash hhash' thread receiver limit worker
  obtain ⟨o, o', ho, ho', hshape, hroot, hrenders⟩ := hs.types he
  obtain ⟨o₁, ho₁, hm⟩ := hm
  cases ho.symm.trans ho₁
  -- the type on the server
  obtain ⟨u, hu⟩ := Deployment.loaded_type x.make hobtains.owns hhas.shape x.placedAt.1
  obtain ⟨hname, _⟩ := Deployment.loaded_methods x.make hobtains.owns hhas.shape x.placedAt.1 hu
  have hmem := List.mem_of_getElem? hu
  have hfound : t.domain.type? x.type = some ⟨l, u⟩ := by
    rw [← hhas.types u hmem, hname]
  cases hfound.symm.trans ho'
  -- the method at home, and its form on the server
  have hdistinct := (x.unambiguous.within _ x.stands.module _ x.stands.type).methods
  obtain ⟨callee, hcallee, hloads⟩ := TypeHandle.method?_loads (m := x.module) hshape
    (TypeDecl.method?_of_mem hdistinct x.stands.method)
  cases hm.symm.trans hcallee
  obtain ⟨d, hd, rfl⟩ := Option.map_eq_some_iff.mp hm
  obtain ⟨y, hk, hy, hrelay⟩ := x.stands_there hobtains.owns hhas.shape hu
  have hform : MethodDecl.Form False (Value.Linked fun _ _ => False) x.boundary.clientType u
      (mobileMode? x.module.flags o.decl.flags d.flags d.mobility) d y := by
    have hfinds := (hrenders.form fun _ _ => False).method? x.target.method.name x.target.method.paramTypes
    rw [hd, hy] at hfinds
    cases hfinds with
    | some h =>
      rw [Errand.mode?, if_pos rfl] at h
      exact h
  have hmark : x.target.method.mobility = d.mobility := congrArg MethodDecl.mobility hloads.method
  have hstays : StaysInPlace (mobileMode? x.module.flags o.decl.flags d.flags d.mobility) := x.staysInPlace hmark _ _ _
  obtain ⟨_, hstatic', _, _⟩ := Deployment.main_alike x.make hobtains.owns hhas.shape x.mem hu hk
  refine ⟨⟨l, u, y⟩, ⟨⟨_, .refl, hloads, rfl, hrenders.module, (hrenders.form fun _ _ => False).fullName, hform.inPlace hstays,
    fun h => absurd trivial h⟩, ⟨_, hfound, fun heap args hargs => ?_⟩, fun hentry => ?_, hstatic'.trans hstatic⟩⟩
  · rw [hmethod]
    exact x.meant_there hobtains.owns hhas hu hy hselects hargs
  · have hentry' : x.target.method.flags.has MethodFlags.relayEntry = true := by
      rw [← Deployment.main_relayEntry x.make hobtains.owns hhas.shape x.mem hu hk x.mode]
      exact hentry
    exact hrelay.trans (x.undirected x.mode hentry')

end Obtained

/-! ## Answers -/

/-- The thread that a server runs the method of a request on. -/
abbrev workerOf (r : Request Datum) (thread : Option String) : Option String :=
  if r.onMainThread then some Native.mainThread else thread

variable {x} {fresh : Server} {hash : String} {r : Request Datum} {bytes : Bytes} {s s' : State Unit} {m : MethodHandle}
  {thread worker : Option String} {receiver : Option Ref} {args : List Value} {v : Value} {d : Datum}

/-- A request for the method, of what is at home. -/
structure Asks (x : Commission) (thread : Option String) (receiver : Option Ref) (s : State Unit) (args : List Value)
    (r : Request Datum) : Prop extends
    (x.outing thread receiver).Requests s args ((x.outing thread receiver).pack s.domain) r where
  method : r.method = x.target.method.name
  selects : x.Selects r.arguments

/-- The method at home, where all modules are as they were written, and where its fields have values. -/
structure Starts (x : Commission) (thread : Option String) (receiver : Option Ref) (s : State Unit) (m : MethodHandle) : Prop where
  resides : x.Resides s.domain
  found : x.Found s.domain m
  static : x.target.method.isStatic = receiver.isNone
  named : (x.outing thread receiver).Named
  filled : (x.outing thread receiver).Filled s

/-- A server with the module answers what the method comes to at home. -/
theorem responds {n : Module Datum} {l : LoadedModule} {t : Server} (hfresh : fresh.Fresh x.deployment hash x.dependencies)
    (hobtains : fresh.Obtains x.deployment hash x.dependencies n l t) (hseeks : r.Seeks x.deployment hash x.dependencies)
    (hconstructs : receiver ≠ none → x.Constructs fresh (workerOf r worker)) (hstarts : x.Starts thread receiver s m)
    (hdepth : s.domain.maxDepth ≤ fresh.domain.maxDepth) (hasks : x.Asks thread receiver s args r)
    (hcompletes : (x.outing thread receiver).Completes m args s s' v d) :
    ∃ N v' ws t', (∀ k, Server.respond r (N + k) worker l t = some (.ok (.completed v' ws), t')) ∧
      t'.domain.heap.snapshot v' = some d ∧
      List.Forall₂ ((x.outing thread receiver).Returns s' t'.domain.heap) ((x.outing thread receiver).pack s.domain) ws := by
  obtain ⟨hplain, _⟩ := Server.validate_eq_ok hseeks.valid
  have husable := Server.validate_usable hseeks.valid
  rw [hseeks.hash] at hplain husable
  have hcode := (obtained hfresh hobtains).1
  have he := prepared hobtains.owns hcode hplain husable thread receiver fresh.domain.maxDepth (workerOf r worker)
  have hs := settled hfresh hobtains hstarts.resides hdepth thread receiver (workerOf r worker)
  obtain ⟨asked, hanswers⟩ := answers hfresh hobtains hs hplain husable hstarts.found hstarts.static hasks.method hasks.selects
  have hpacks := hstarts.filled.packs hstarts.named
  obtain ⟨N, v', ws, t', hinvoke, hresult, hreturns⟩ := he.answers hs (fun _ _ h => h) hpacks hasks.toRequests hanswers
    (fun h => makes hfresh hobtains (hconstructs h) thread receiver _) hcompletes.toRuns (fun u hu p hp => by
      obtain ⟨q, hq, rfl⟩ := List.mem_map.mp hu
      cases (Outing.slot?_packed hq _).symm.trans hp
      obtain ⟨x', d', hx', hd', hclear, _⟩ := hcompletes.filled q hq
      exact ⟨x', d', hx', hd', hclear⟩) hcompletes.result hcompletes.clear
  refine ⟨N, v', ws, t', fun k => ?_, hresult, hreturns⟩
  have hrun : Server.invoke r (Server.hostFor r (workerOf r worker) l)
      (Machine.runner { host := Server.hostFor r (workerOf r worker) l } (N + k)) t = _ := hseeks.hash ▸ hinvoke k
  unfold Server.respond
  rw [Run.bind_apply, Run.attempt, hrun]
  rfl

/-- A fresh server answers what the method comes to at home, at once or when the module has been sent to it. -/
theorem answered (hfresh : fresh.Fresh x.deployment hash x.dependencies) (hseeks : r.Seeks x.deployment hash x.dependencies)
    (hdigest : fresh.domain.digest.digest bytes = hash) (hread : Module.ofFile bytes = .ok x.deployment.client)
    (hconstructs : receiver ≠ none → x.Constructs fresh (workerOf r worker)) (hstarts : x.Starts thread receiver s m)
    (hdepth : s.domain.maxDepth ≤ fresh.domain.maxDepth) (hasks : x.Asks thread receiver s args r)
    (hcompletes : (x.outing thread receiver).Completes m args s s' v d) (id : Uuid) :
    ∃ N ds t, List.Forall₂ ((x.outing thread receiver).Brings s') ((x.outing thread receiver).pack s.domain) ds ∧
      ((∀ k, Server.answer r (N + k) worker fresh = some (.ok (.completed d ds), t)) ∨
        ∃ u, (∀ budget, Server.answer r budget worker fresh = some (.ok .moduleUnknown, u)) ∧
          ∀ k, Server.answer (r.withModule id bytes) (N + k) worker u = some (.ok (.completed d ds), t)) := by
  obtain ⟨n, l, t, hobtains, hfind⟩ := hfresh.find hseeks hdigest hread
    (fun n bytes path hn hread => ⟨_, _, hfresh.vacant.loadFile (owned_plain hn) hread path⟩) id
  obtain ⟨N, v', ws, t', hresponds, hresult, hreturns⟩ :=
    responds hfresh hobtains hseeks hconstructs hstarts hdepth hasks hcompletes
  obtain ⟨ds, hds, hbrings⟩ := Outing.Returns.travel hreturns
  have houtward : ((Answer.completed v' ws).outward t'.domain.heap : Serving (Answer Datum)) t' =
      some (.ok (.completed d ds), t') := by
    have hsnapshot : (Answer.completed v' ws).snapshot? t'.domain.heap = some (.completed d ds) := by
      unfold Answer.snapshot? Answer.traverse
      dsimp only
      rw [hresult, hds]
      rfl
    rw [Answer.outward_eq_snapshot?, hsnapshot]
    rfl
  refine ⟨N, ds, t', hbrings, ?_⟩
  rcases hfind with hfind | ⟨u, hunknown, hfind⟩
  · exact .inl fun k => Server.answer_of_execute ((Server.execute_eq_respond hfind).trans (hresponds k)) houtward
  · refine .inr ⟨u, fun budget => ?_, fun k => ?_⟩
    · exact Server.answer_of_execute (Server.execute_not_found hunknown) rfl
    · exact Server.answer_of_execute ((Server.execute_eq_respond hfind).trans (hresponds k)) houtward

end Commission
end MobileCode
