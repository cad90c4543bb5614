import MobileCode.Proofs.Successors
import MobileCode.Proofs.Walks

/-! # Closures cover runs

Discovery follows references by their scopes, the machine by full names alone. Where names are not
ambiguous and the domain holds the modules, both find the same. So the frames of a run execute methods that
the walk has reached, except behind a boundary.
-/
namespace MobileCode
open Discovery

/-! ## Loaded methods -/

/-- The domain holds all modules of the set. -/
def Domain.HoldsAll (d : Domain) (s : ModuleSet Datum) : Prop := ∀ m ∈ s.members, ∃ l, d.Has m l

/-- The handle is that of the method in an item, in its loaded form. -/
structure MethodHandle.Loads (h : MethodHandle) (x : Item Datum) : Prop where
  type : x.type.shape = h.owner.shape
  method : x.method.shape = h.decl.shape

theorem Domain.HoldsAll.keep {d e : Domain} {s : ModuleSet Datum} (h : d.HoldsAll s) (hkeeps : d.Keeps e) :
    e.HoldsAll s := by
  intro m hm
  obtain ⟨l, hl⟩ := h m hm
  exact ⟨l, hkeeps m l hl⟩

/-- A type of the modules is found by its name. -/
theorem Domain.HoldsAll.type? {d : Domain} {s : ModuleSet Datum} (h : d.HoldsAll s) {m : Module Datum}
    (hm : m ∈ s.members) {t : TypeDecl Datum} (ht : t ∈ m.types) :
    ∃ owner, d.type? t.fullName = some owner ∧ t.shape = owner.decl.shape := by
  obtain ⟨l, hl⟩ := h m hm
  obtain ⟨i, hi⟩ := List.mem_iff_getElem?.mp ht
  obtain ⟨u, hu, hshape⟩ := Module.types_getElem? hl.shape.symm hi
  have hfound := hl.types u (List.mem_of_getElem? hu)
  rw [← TypeDecl.fullName_eq hshape] at hfound
  exact ⟨⟨l, u⟩, hfound, hshape⟩

/-- A method of a type is found by its signature. -/
theorem TypeHandle.method?_loads {owner : TypeHandle} {m : Module Datum} {t : TypeDecl Datum} {d : MethodDecl Datum}
    (ht : t.shape = owner.decl.shape) {name : String} {types : List String} (hd : t.method? name types = some d) :
    ∃ callee, owner.method? name types = some callee ∧ callee.Loads ⟨m, t, d⟩ := by
  obtain ⟨e, he, hshape⟩ := TypeDecl.method?_eq ht hd
  exact ⟨⟨owner.module, owner.decl, e⟩, by rw [TypeHandle.method?, he]; rfl, ht, hshape⟩

namespace MethodHandle.Loads
variable {h : MethodHandle} {x : Item Datum} (hx : h.Loads x)
include hx

theorem key : h.key = x.key := by
  rw [MethodHandle.key, Item.key, TypeDecl.fullName_eq hx.type, MethodDecl.key_eq hx.method]

/-- A method is known by its loaded form to be an accessor of a property that stays at home. -/
theorem keepsHome : h.owner.keepsHome h.decl ↔ x.type.keepsHome x.method := by
  have hproperties : x.type.properties = h.owner.properties := congrArg TypeDecl.properties hx.type
  have hflags : x.method.flags = h.decl.flags := congrArg MethodDecl.flags hx.method
  have hname : x.method.name = h.decl.name := congrArg MethodDecl.name hx.method
  rw [TypeDecl.keepsHome, TypeDecl.keepsHome, MethodDecl.isAccessor, MethodDecl.isAccessor, hproperties, hflags, hname]

/-- Each instruction comes from one of the same shape. -/
theorem instruction {p : Nat} {i : Instruction Value} (hi : h.decl.body[p]? = some i) :
    ∃ j ∈ x.method.body, j.shape = i.shape := by
  have hbody : x.method.body.map Instruction.shape = h.decl.body.map Instruction.shape :=
    congrArg MethodDecl.body hx.method
  have hp : (x.method.body.map Instruction.shape)[p]? = some i.shape := by
    rw [hbody, List.getElem?_map, hi]
    rfl
  rw [List.getElem?_map, Option.map_eq_some_iff] at hp
  obtain ⟨j, hj, hshape⟩ := hp
  exact ⟨j, List.mem_of_getElem? hj, hshape⟩

theorem call_mem {p : Nat} {r : MethodRef} (hi : h.decl.body[p]? = some (.call r)) : .call r ∈ x.method.body := by
  obtain ⟨j, hj, hshape⟩ := hx.instruction hi
  cases j with
  | call r' =>
    cases hshape
    exact hj
  | _ => cases hshape

theorem construct_mem {p : Nat} {r : TypeRef} (hi : h.decl.body[p]? = some (.construct r)) :
    .construct r ∈ x.method.body := by
  obtain ⟨j, hj, hshape⟩ := hx.instruction hi
  cases j with
  | construct r' =>
    cases hshape
    exact hj
  | _ => cases hshape

theorem field_mem {p : Nat} {i : Instruction Value} (hi : h.decl.body[p]? = some i) {r : FieldRef}
    (hr : i.field? = some r) : ∃ j ∈ x.method.body, j.field? = some r := by
  obtain ⟨j, hj, hshape⟩ := hx.instruction hi
  refine ⟨j, hj, ?_⟩
  cases i with
  | loadField r' | storeField r' | loadStatic r' | storeStatic r' =>
    cases j <;> cases hshape
    exact hr
  | _ => cases hr

end MethodHandle.Loads

/-! ## What calls and constructions enter -/

/-- Constructors have the name that constructors are entered by. -/
def ModuleSet.ConstructorsNamed (s : ModuleSet Datum) : Prop :=
  ∀ m ∈ s.members, ∀ t ∈ m.types, ∀ d ∈ t.methods, d.flags.has MethodFlags.constructor = true → d.name = constructorName

instance (s : ModuleSet Datum) : Decidable s.ConstructorsNamed :=
  inferInstanceAs (Decidable (∀ m ∈ _, ∀ t ∈ _, ∀ d ∈ _, _ → _))

/-- The default constructor is found by its name. -/
theorem ModuleSet.ConstructorsNamed.defaultConstructor?_eq {s : ModuleSet Datum} (h : s.ConstructorsNamed)
    (hs : s.Unambiguous) {m : Module Datum} (hm : m ∈ s.members) {t : TypeDecl Datum} (ht : t ∈ m.types)
    {d : MethodDecl Datum} (hd : t.method? constructorName [] = some d) (hdefault : d.isDefaultConstructor = true) :
    t.defaultConstructor? = some d := by
  obtain ⟨hmem, hname, htypes⟩ := TypeDecl.method?_eq_some hd
  refine find?_eq_some_of_unique hmem hdefault fun e he hdefault' => ?_
  simp only [MethodDecl.isDefaultConstructor, Bool.and_eq_true, List.isEmpty_iff] at hdefault'
  have hname' : e.name = constructorName := h m hm t ht e he hdefault'.1.1
  have htypes' : e.paramTypes = [] := by rw [MethodDecl.paramTypes, hdefault'.2, List.map_nil]
  refine List.inj_on_of_nodup_map (hs.within m hm t ht).methods he hmem (Prod.ext ?_ ?_)
  · exact hname'.trans hname.symm
  · exact htypes'.trans htypes.symm

section Entered
variable {ω : Type} {host : Host ω} {st t : State ω} {s : ModuleSet Datum} {b : Boundary} {x : Item Datum}
  {h : MethodHandle} (hx : x.StandsIn s) (hresolved : ∀ i ∈ x.method.body, x.Resolves s b i)
  (hall : st.domain.HoldsAll s) (hloads : h.Loads x) {p : Nat}
include hx hresolved hall hloads

/-- A call that does not cross a boundary enters a method that the walk follows it to. -/
theorem leads_of_call {r : MethodRef} (hi : h.decl.body[p]? = some (.call r)) {callee : MethodHandle}
    (hcallee : host.resolveMethod r st = some (.ok callee, t)) (hstops : ¬b.stopsCall r.owner.fullName)
    (hhome : ¬callee.owner.keepsHome callee.decl) : ∃ y, Leads s b x y ∧ callee.Loads y := by
  have hcall := hloads.call_mem hi
  obtain ⟨m, u, d, hmeans⟩ := hresolved _ hcall hstops
  obtain ⟨hm, hu, hname⟩ := hx.lookup hmeans.2.1
  obtain ⟨owner, howner, hshape⟩ := hall.type? hm hu
  obtain ⟨found, hfound, hfinds⟩ := TypeHandle.method?_loads (m := m) hshape hmeans.2.2
  rw [hname] at howner
  rw [Host.resolveMethod, Run.bind_apply, Host.resolveType_found howner] at hcallee
  simp only [hfound] at hcallee
  cases hcallee
  exact ⟨⟨m, u, d⟩, .call hcall hmeans (hfinds.keepsHome.not.mp hhome), hfinds⟩

/-- A construction outside excluded namespaces enters the constructor that the walk follows it to. -/
theorem leads_of_construct (hs : s.Unambiguous) (hnamed : s.ConstructorsNamed) {r : TypeRef}
    (hi : h.decl.body[p]? = some (.construct r)) {owner owner' : TypeHandle} {u : State ω}
    (howner : host.resolveType r st = some (.ok owner, t))
    (howner' : host.resolveLocal owner.decl.fullName t = some (.ok owner', u)) {ctor : MethodHandle}
    (hctor : owner'.method? constructorName [] = some ctor) (hdefault : ctor.decl.isDefaultConstructor = true)
    (hexcludes : b.excludes r.fullName = false) : ∃ y, Leads s b x y ∧ ctor.Loads y := by
  have hconstruct := hloads.construct_mem hi
  obtain ⟨m, v, hmeans⟩ := hresolved _ hconstruct hexcludes
  obtain ⟨hm, hv, hname⟩ := hx.lookup hmeans.2
  obtain ⟨found, hfound, hshape⟩ := hall.type? hm hv
  have hlocal : host.resolveLocal found.decl.fullName st = some (.ok found, st) := by
    refine Host.resolveLocal_found ?_
    rw [← TypeDecl.fullName_eq hshape]
    exact hfound
  rw [hname] at hfound
  rw [Host.resolveType_found hfound] at howner
  cases howner
  rw [hlocal] at howner'
  cases howner'
  obtain ⟨e, he, rfl⟩ := Option.map_eq_some_iff.mp hctor
  obtain ⟨d, hd, hsame⟩ := TypeDecl.method?_eq hshape.symm he
  rw [MethodDecl.isDefaultConstructor_eq hsame] at hdefault
  have hdefault := hnamed.defaultConstructor?_eq hs hm hv hd hdefault
  exact ⟨⟨m, v, d⟩, .construct hconstruct hmeans hdefault, hshape, hsame.symm⟩

end Entered

/-! ## Runs and boundaries -/

/-- Does the frame `f` cross a boundary by the call or construction that enters `g`? -/
def Boundary.crosses (b : Boundary) (f g : Frame) : Bool :=
  match f.method.decl.body[f.position]? with
  | some (.call r) => b.stopsCall r.owner.fullName || g.method.owner.keepsHome g.method.decl
  | some (.construct r) => b.excludes r.fullName
  | _ => false

namespace Machine
variable {ω : Type}

/-- A moment of a run. The lowest frames of the stack, `inside` in number, do not stand behind a boundary. -/
structure Moment (ω : Type) where
  top : Frame
  below : List Frame
  inside : Nat
  state : State ω

namespace Moment

/-- The frames that do not stand behind a boundary, the lowest one first. -/
def framesInside (x : Moment ω) : List Frame := (x.top :: x.below).reverse.take x.inside

/-- The number of these frames when `g` on top of `rest` follows. -/
def insideAfter (b : Boundary) (x : Moment ω) (g : Frame) (rest : List Frame) : Nat :=
  if x.inside = x.below.length + 1 ∧ rest.length = x.below.length + 1 ∧ b.crosses x.top g = false then x.inside + 1
  else min x.inside (rest.length + 1)

/-- A step that does not end the run. -/
inductive Next (b : Boundary) (env : Environment ω) (run : Runner ω) (x : Moment ω) : Moment ω → Prop
  | step {g : Frame} {rest : List Frame} {s : State ω} :
    Machine.step env run x.top x.below x.state = some (.ok (.next g rest), s) →
    Next b env run x ⟨g, rest, x.insideAfter b g rest, s⟩

/-- The modules are there, and all frames inside run methods that are reached. -/
structure Covered (s : ModuleSet Datum) (b : Boundary) (start : Item Datum) (x : Moment ω) : Prop where
  holds : x.state.domain.HoldsAll s
  inside : x.inside ≤ x.below.length + 1
  reached : ∀ f ∈ x.framesInside, ∃ y, Reaches s b start y ∧ f.method.Loads y

theorem mem_lowest_cons {f g : Frame} {xs : List Frame} {n : Nat} :
    g ∈ (f :: xs).reverse.take n ↔ g ∈ xs.reverse.take n ∨ xs.length < n ∧ g = f := by
  rw [List.reverse_cons, List.take_append, List.length_reverse, List.mem_append]
  by_cases hn : xs.length < n
  · obtain ⟨k, hk⟩ := Nat.exists_eq_add_of_lt hn
    have hone : n - xs.length = k + 1 := by omega
    simp [hone, hn]
  · have hzero : n - xs.length = 0 := by omega
    simp [hzero, hn]

theorem mem_lowest_mono {f : Frame} {xs : List Frame} {n m : Nat} (h : f ∈ xs.reverse.take n)
    (hle : n ≤ m ∨ xs.length ≤ m) : f ∈ xs.reverse.take m := by
  rcases hle with hle | hle
  · exact List.take_subset_take_left _ hle h
  · rw [List.take_of_length_le (by rwa [List.length_reverse])]
    exact List.mem_of_mem_take h

section Steps
variable {env : Environment ω} {run : Runner ω} {s : ModuleSet Datum} {b : Boundary} {start : Item Datum}
  {x y : Moment ω}

theorem insideAfter_cases (b : Boundary) (x : Moment ω) (g : Frame) (rest : List Frame) :
    x.insideAfter b g rest = min x.inside (rest.length + 1) ∨ x.inside = x.below.length + 1 ∧
      rest.length = x.below.length + 1 ∧ b.crosses x.top g = false ∧ x.insideAfter b g rest = x.inside + 1 := by
  unfold insideAfter
  split
  · rename_i h
    exact .inr ⟨h.1, h.2.1, h.2.2, rfl⟩
  · exact .inl rfl

theorem Covered.next (hs : s.Unambiguous) (hnamed : s.ConstructorsNamed) (hstart : start.StandsIn s)
    (hsound : Sound s b start) (hfree : ∀ client, env.dispatcher? client = none) (hnatives : env.host.KeepsModules)
    (hx : x.Covered s b start) (h : Next b env run x y) : y.Covered s b start := by
  obtain @⟨g, rest, t, hstep⟩ := h
  have hfollows := step_follows x.top x.below x.state _ _ hstep
  have hkeeps := step_respects hnatives.respects.guards (fun ⟨_, _, hclient⟩ => hclient (hfree _)) x.below x.state _ _ hstep
    (.inr ⟨_, rfl⟩)
  have hinside := hx.inside
  have hafter := insideAfter_cases b x g rest
  generalize x.insideAfter b g rest = n at hafter
  have htop (hlt : x.below.length < x.inside) : ∃ y, Reaches s b start y ∧ x.top.method.Loads y :=
    hx.reached x.top (mem_lowest_cons.mpr (.inr ⟨hlt, rfl⟩))
  have hbelow {f : Frame} (hf : f ∈ x.below.reverse.take n) : ∃ y, Reaches s b start y ∧ f.method.Loads y := by
    have hle : n ≤ x.inside ∨ x.below.length ≤ x.inside := by omega
    exact hx.reached f (mem_lowest_cons.mpr (.inl (mem_lowest_mono hf hle)))
  have hcovered (hn : n ≤ rest.length + 1) (hreached : ∀ f, f ∈ rest.reverse.take n ∨ rest.length < n ∧ f = g →
      ∃ y, Reaches s b start y ∧ f.method.Loads y) : Covered s b start ⟨g, rest, n, t⟩ :=
    ⟨hx.holds.keep hkeeps, hn, fun f hf => hreached f (mem_lowest_cons.mp hf)⟩
  -- a frame that is entered without crossing runs a method that the walk comes to by one more step
  have hpushed {f : Frame} (hf : x.top.ahead.SamePlace f) (hrest : rest = f :: x.below)
      (hentered : b.crosses x.top g = false → ∀ y, Reaches s b start y → x.top.method.Loads y →
        ∃ z, Leads s b y z ∧ g.method.Loads z) : Covered s b start ⟨g, rest, n, t⟩ := by
    subst hrest
    rw [List.length_cons] at hafter
    refine hcovered (by rw [List.length_cons]; omega) fun f' hf' => ?_
    obtain hf' | ⟨hlt, rfl⟩ := hf'
    · obtain hf' | ⟨hlt, rfl⟩ := mem_lowest_cons.mp hf'
      · exact hbelow hf'
      · rw [hf.method]
        exact htop (by omega)
    · rw [List.length_cons] at hlt
      obtain ⟨y, hy, hloads⟩ := htop (by omega)
      have hcrosses : b.crosses x.top f' = false := by
        rcases hafter with hmin | ⟨_, _, hcrosses, _⟩
        · omega
        · exact hcrosses
      obtain ⟨z, hz, hloads'⟩ := hentered hcrosses y hy hloads
      exact ⟨z, hy.tail hz, hloads'⟩
  cases hfollows with
  | stays hg =>
    refine hcovered (by omega) fun f hf => ?_
    obtain hf | ⟨hlt, rfl⟩ := hf
    · exact hbelow hf
    · rw [hg.method]
      exact htop (by omega)
  | @returns caller _ _ hcaller hg =>
    have hlength : x.below.length = rest.length + 1 := by rw [hcaller, List.length_cons]
    rw [hcaller] at hbelow
    refine hcovered (by omega) fun f hf => ?_
    obtain hf | ⟨hlt, rfl⟩ := hf
    · exact hbelow (mem_lowest_cons.mpr (.inl hf))
    · rw [hg.method]
      exact hbelow (mem_lowest_cons.mpr (.inr ⟨hlt, rfl⟩))
  | @calls r _ f t hi hf hcallee =>
    refine hpushed hf rfl fun hcrosses y hy hloads => ?_
    simp only [Boundary.crosses, hi, Bool.or_eq_false_iff, decide_eq_false_iff_not] at hcrosses
    exact leads_of_call (hy.standsIn hstart) (hsound y hy) hx.holds hloads hi hcallee hcrosses.1 hcrosses.2
  | constructs hi hf howner howner' hctor hdefault =>
    refine hpushed hf rfl fun hcrosses y hy hloads => ?_
    simp only [Boundary.crosses, hi] at hcrosses
    exact leads_of_construct (hy.standsIn hstart) (hsound y hy) hx.holds hloads hs hnamed hi howner howner' hctor
      hdefault hcrosses

theorem Covered.comes (hs : s.Unambiguous) (hnamed : s.ConstructorsNamed) (hstart : start.StandsIn s)
    (hsound : Sound s b start) (hfree : ∀ client, env.dispatcher? client = none) (hnatives : env.host.KeepsModules)
    (hx : x.Covered s b start) (h : Relation.ReflTransGen (Next b env run) x y) : y.Covered s b start := by
  induction h with
  | refl => exact hx
  | tail _ hstep ih => exact ih.next hs hnamed hstart hsound hfree hnatives hstep

end Steps
end Moment
end Machine

open Machine

/-- A closure covers all runs of the method in a domain that holds the modules. Each method that is entered is
the method itself or one of the closure, and the fields of its type that are named in their bodies belong to
the closure. This holds inside the boundary, that is except for calls to the client type, calls and
constructions into excluded namespaces, calls to accessors that stay at home, and what these lead to. -/
theorem ModuleSet.discover_covers {s : ModuleSet Datum} (hs : s.Unambiguous) (hnamed : s.ConstructorsNamed)
    {b : Boundary} {t : TypeDecl Datum} (ht : t ∈ s.root.types) (hstops : ¬b.stopsCall t.fullName)
    {d : MethodDecl Datum} (hd : d ∈ t.methods) {c : Closure} (hc : s.discover b t.fullName d = .ok c)
    -- a run of the method
    {ω : Type} {env : Environment ω} (hfree : ∀ client, env.dispatcher? client = none)
    (hnatives : env.host.KeepsModules) {start : State ω} (hall : start.domain.HoldsAll s) {owner : TypeHandle}
    (howner : start.domain.type? t.fullName = some owner) {f : Frame}
    (hmethod : owner.method? d.name d.paramTypes = some f.method) {run : Runner ω} {x : Moment ω}
    (hx : Relation.ReflTransGen (Moment.Next b env run) ⟨f, [], 1, start⟩ x) :
    (∀ g ∈ x.framesInside, g.method.key = d.key t.fullName ∨ g.method.key ∈ c.methods) ∧
      (x.inside = x.below.length + 1 → ∀ i r, x.top.method.decl.body[x.top.position]? = some i → i.field? = some r →
        r.owner.fullName = t.fullName → ∀ field ∈ t.fields, field.name = r.name →
        field.flags.has MemberFlags.ignoreTransfer = false → ⟨t.fullName, field.name⟩ ∈ c.fields) := by
  have hstart : Item.StandsIn s ⟨s.root, t, d⟩ := ⟨List.mem_cons_self, ht, hd⟩
  obtain ⟨hsound, w, done, rfl, hholds, hpending⟩ := ModuleSet.discover_eq_ok hs b ht hd hc
  have hc : IsLeast s b ⟨s.root, t, d⟩ w.closure := hholds.isLeast hs hstart hstops hpending
  -- the first frame runs the method itself
  have hfirst : f.method.Loads ⟨s.root, t, d⟩ := by
    obtain ⟨owner', howner', hshape⟩ := hall.type? hstart.module ht
    cases howner.symm.trans howner'
    have hfound : t.method? d.name d.paramTypes = some d := by
      refine find?_eq_some_of_unique hd (by simp [MethodDecl.hasSignature]) fun e he hsame => ?_
      simp only [MethodDecl.hasSignature, Bool.and_eq_true, decide_eq_true_eq] at hsame
      exact List.inj_on_of_nodup_map (hs.within _ hstart.module t ht).methods he hd (Prod.ext hsame.1 hsame.2)
    obtain ⟨callee, hcallee, hloads⟩ := TypeHandle.method?_loads (m := s.root) hshape hfound
    cases hmethod.symm.trans hcallee
    exact hloads
  have hcovered : Moment.Covered s b ⟨s.root, t, d⟩ x := by
    refine Moment.Covered.comes hs hnamed hstart hsound hfree hnatives ⟨hall, Nat.le_refl 1, fun g hg => ?_⟩ hx
    obtain rfl := List.mem_singleton.mp hg
    exact ⟨_, .refl, hfirst⟩
  constructor
  · intro g hg
    obtain ⟨y, hy, hloads⟩ := hcovered.reached g hg
    rw [hloads.key]
    rcases Relation.reflTransGen_iff_eq_or_transGen.mp hy with rfl | htrans
    · exact .inl rfl
    · by_cases hkey : y.key = d.key t.fullName
      · exact .inl hkey
      · exact .inr ((hc.methods _).mpr ⟨hkey, y, htrans, rfl⟩)
  · intro htop i r hi hr htype field hfield hname hkept
    have hinside : x.top ∈ x.framesInside := Moment.mem_lowest_cons.mpr (.inr ⟨by omega, rfl⟩)
    obtain ⟨y, hy, hloads⟩ := hcovered.reached x.top hinside
    obtain ⟨j, hj, hr'⟩ := hloads.field_mem hi hr
    exact (hc.fields _).mpr ⟨field, hfield, rfl, hkept, y, hy, j, hj, r, hr', htype, hname.symm⟩

/-- A type whose method counts through another one. -/
def counter : ModuleSet Datum where
  root := {
    name := "Counter"
    types := [{
      space := "Ops"
      name := "Counter"
      fields := [⟨"count", TypeName.int32, .none, none⟩]
      methods := [
        { name := constructorName, flags := MethodFlags.constructor, body := [.ret] },
        { name := "Bump", body := [.loadThis, .call ⟨⟨none, "Ops.Counter"⟩, "Step", []⟩, .ret] },
        { name := "Step", body := [.loadThis, .loadThis, .loadField ⟨⟨none, "Ops.Counter"⟩, "count"⟩,
            .const (.int32 1), .binary .add, .storeField ⟨⟨none, "Ops.Counter"⟩, "count"⟩, .ret] }] }] }

def plain : Environment Unit where
  host := { thread := none, natives := Native.standard none }

/-- Four steps lead from the start of that method into the other one, to the field that it reads. -/
theorem counter_covered : ∃ t ∈ counter.root.types, ∃ d ∈ t.methods, ∃ c, counter.discover {} t.fullName d = .ok c ∧
    ∃ l domain f x, Domain.register { hostName := "server" } counter.root [] none = .ok (l, domain) ∧
      Relation.ReflTransGen (Moment.Next {} plain (Machine.runner plain 0)) ⟨f, [], 1, ⟨domain, ()⟩⟩ x ∧
      f.method.key = ⟨"Ops.Counter", "Bump", []⟩ ∧ x.top.method.key = ⟨"Ops.Counter", "Step", []⟩ ∧
      x.top.method.key ∈ c.methods ∧ ⟨"Ops.Counter", "count"⟩ ∈ c.fields := by
  obtain ⟨c, l, domain, owner, f, x, hc, hl, howner, hmethod, hx, hbump, hstep, hinside, htop, hread⟩ :
      ∃ c l domain owner f x, counter.discover {} "Ops.Counter" (counter.root.types[0]!.methods[1]!) = .ok c ∧
        Domain.register { hostName := "server" } counter.root [] none = .ok (l, domain) ∧
        domain.type? "Ops.Counter" = some owner ∧ owner.method? "Bump" [] = some f.method ∧
        Relation.ReflTransGen (Moment.Next {} plain (Machine.runner plain 0)) ⟨f, [], 1, ⟨domain, ()⟩⟩ x ∧
        f.method.key = ⟨"Ops.Counter", "Bump", []⟩ ∧ x.top.method.key = ⟨"Ops.Counter", "Step", []⟩ ∧
        x.inside = x.below.length + 1 ∧ x.top ∈ x.framesInside ∧
        x.top.method.decl.body[x.top.position]? = some (.loadField ⟨⟨none, "Ops.Counter"⟩, "count"⟩) :=
    ⟨_, _, _, _, ⟨_, some ⟨0⟩, [], [], [], 0, 0, none⟩, _, rfl, rfl, rfl, rfl,
      .tail (.tail (.tail (.tail .refl (.step rfl)) (.step rfl)) (.step rfl)) (.step rfl), rfl, rfl, rfl,
      List.mem_cons_of_mem _ List.mem_cons_self, rfl⟩
  have hall : domain.HoldsAll counter := by
    intro m hm
    obtain rfl := List.mem_singleton.mp hm
    exact ⟨l, .of_register rfl (by decide) hl⟩
  have hcovers := ModuleSet.discover_covers (s := counter) (by decide) (by decide) List.mem_cons_self (by decide)
    (List.mem_cons_of_mem _ List.mem_cons_self) hc (fun _ => rfl) (Host.keepsModules_of_standard rfl) hall howner
    hmethod hx
  refine ⟨_, List.mem_cons_self, _, List.mem_cons_of_mem _ List.mem_cons_self, c, hc, l, domain, f, x, hl, hx, hbump,
    hstep, (hcovers.1 x.top htop).resolve_left ?_, hcovers.2 hinside _ _ hread rfl rfl _ List.mem_cons_self rfl rfl⟩
  rw [hstep]
  decide

end MobileCode
