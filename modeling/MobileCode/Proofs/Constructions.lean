import MobileCode.Proofs.Bindings
import MobileCode.Proofs.Depths

/-! # Default constructors

For the default constructor of a type a build takes the first method that is one by its flags. A domain takes the first
method of the name without parameters, if it is one by its flags. Where this is the same method, an object is constructed by
this method, with the initial values of its fields.
-/
namespace MobileCode

/-! ## The constructor of a loaded type -/

/-- Two tests that find one image at first find one element. -/
theorem find?_eq_of_map {α β : Type} {f : α → β} {p q : β → Bool} {xs : List α} {b : β} (hp : (xs.map f).find? p = some b)
    (hq : (xs.map f).find? q = some b) : xs.find? (p ∘ f) = xs.find? (q ∘ f) := by
  induction xs with
  | nil => rfl
  | cons x xs ih =>
    rw [List.map_cons, List.find?_cons] at hp hq
    rw [List.find?_cons, List.find?_cons, Function.comp_apply, Function.comp_apply]
    cases hpx : p (f x) <;> cases hqx : q (f x) <;> rw [hpx] at hp <;> rw [hqx] at hq
    · exact ih hp hq
    · cases hq
      exact nomatch hpx.symm.trans (List.find?_some hp)
    · cases hp
      exact nomatch hqx.symm.trans (List.find?_some hq)

section
variable {α β : Type} [Sketched α] [Sketched β] {t : TypeDecl α} {u : TypeDecl β} {d : MethodDecl α}

theorem MethodDecl.isDefaultConstructor_shape (d : MethodDecl α) :
    d.shape.isDefaultConstructor = d.isDefaultConstructor := by
  simp [isDefaultConstructor, shape, isStatic]

theorem TypeDecl.defaultConstructor?_shape (t : TypeDecl α) :
    t.shape.defaultConstructor? = t.defaultConstructor?.map MethodDecl.shape := by
  simp only [defaultConstructor?, shape, List.find?_map, Function.comp_def, MethodDecl.isDefaultConstructor_shape]

/-- Where the name of constructors finds the default constructor, it does so in each type of the same shape. -/
theorem TypeDecl.constructor_found (h : t.shape = u.shape) (hd : t.defaultConstructor? = some d)
    (hfound : t.method? constructorName [] = some d) :
    ∃ e, u.defaultConstructor? = some e ∧ u.method? constructorName [] = some e ∧ e.shape = d.shape := by
  have hflags : u.shape.defaultConstructor? = some d.shape := by
    rw [← h, defaultConstructor?_shape, hd]
    rfl
  have hname : u.shape.method? constructorName [] = some d.shape := by
    rw [← h, method?_shape, hfound]
    rfl
  have hsame : u.method? constructorName [] = u.defaultConstructor? := by
    have hshape (e : MethodDecl β) : e.shape.name = e.name := rfl
    have hfirst := find?_eq_of_map hname hflags
    simp only [Function.comp_def, hshape, MethodDecl.hasSignature, MethodDecl.paramTypes_shape,
      MethodDecl.isDefaultConstructor_shape] at hfirst
    exact hfirst
  rw [defaultConstructor?_shape] at hflags
  obtain ⟨e, he, hshape⟩ := Option.map_eq_some_iff.mp hflags
  exact ⟨e, he, hsame.trans he, hshape⟩

end

/-! ## New objects -/

/-- Instance fields hold their initial values. Of several fields of a name the last one counts. -/
structure Object.NewOf (o : Object) (u : TypeDecl Value) : Prop where
  type : o.type = u.fullName
  fields : ∀ name, o.fields.find? name = (u.fields.reverse.find? fun f => !f.isStatic && f.name = name).map (·.initialValue)

/-- The second state has one more object and is the same otherwise. -/
structure State.Makes {ω : Type} (s : State ω) (r : Ref) (o : Object) (t : State ω) : Prop where
  free : s.domain.heap.get? r = none
  made : t.domain.heap.get? r = some o
  others : ∀ x, x ≠ r → t.domain.heap.get? x = s.domain.heap.get? x
  rest : t = { s with domain := { s.domain with heap := t.domain.heap } }

theorem TypeDecl.newOf (u : TypeDecl Value) :
    Object.NewOf ⟨u.fullName, Dict.ofList ((u.fields.filter (!·.isStatic)).map fun f => (f.name, f.initialValue))⟩ u where
  type := rfl
  fields name := by
    rw [Dict.find?_ofList_map, ← List.filter_reverse, List.find?_filter]
    simp only [Bool.decide_and, Bool.decide_eq_true]

theorem State.makes {ω : Type} (s : State ω) (o : Object) : s.Makes (s.domain.heap.alloc o).1 o
    { s with domain := { s.domain with heap := (s.domain.heap.alloc o).2 } } where
  free := Heap.get?_eq_none_iff.mpr (Nat.le_refl _)
  made := by rw [Heap.get?_alloc, if_pos rfl]
  others x hx := by rw [Heap.get?_alloc, if_neg hx]
  rest := rfl

namespace Machine
variable {ω : Type} (host : Host ω) {s : State ω} {l : LoadedModule} {u : TypeDecl Value}

theorem startConstruction_eq (htype : s.domain.type? u.fullName = some ⟨l, u⟩) {e : MethodDecl Value}
    (he : u.method? constructorName [] = some e) (hdefault : e.isDefaultConstructor = true) : ∃ r o t,
    s.Makes r o t ∧ o.NewOf u ∧ startConstruction host u.fullName s =
      some (Frame.enter s.domain.maxDepth 0 ⟨l, u, e⟩ (some r) [] (some r), t) := by
  refine ⟨_, _, _, s.makes _, u.newOf, ?_⟩
  have hctor : ((⟨l, u⟩ : TypeHandle).method? constructorName []).filter (·.decl.isDefaultConstructor) = some ⟨l, u, e⟩ := by
    rw [TypeHandle.method?, he, Option.map_some, Option.filter_some, if_pos hdefault]
  unfold startConstruction
  rw [Run.bind_apply, Host.resolveLocal_found htype]
  dsimp only
  rw [hctor]
  rfl

theorem startConstruction_missing (htype : s.domain.type? u.fullName = some ⟨l, u⟩)
    (h : ∀ e, u.method? constructorName [] = some e → e.isDefaultConstructor = false) :
    startConstruction host u.fullName s = some (.error (.memberNotFound constructorName u.fullName l.name), s) := by
  have hctor : ((⟨l, u⟩ : TypeHandle).method? constructorName []).filter (·.decl.isDefaultConstructor) = none := by
    rw [Option.filter_eq_none_iff]
    intro m hm
    obtain ⟨e, he, rfl⟩ := Option.map_eq_some_iff.mp hm
    simp [h e he]
  unfold startConstruction
  rw [Run.bind_apply, Host.resolveLocal_found htype]
  dsimp only
  rw [hctor]
  rfl

end Machine

/-! ## What a construction comes to -/

/-- The object that the lowest frame of a stack constructs. -/
def Frame.built (fs : List Frame) : Option Ref := fs.getLast?.bind (·.constructs)

theorem Frame.SameCall.built {f g : Frame} (h : f.SameCall g) (below : List Frame) :
    built (g :: below) = built (f :: below) := by
  cases below with
  | nil => exact h.constructs
  | cons => rfl

namespace Machine
variable {ω : Type} {env : Environment ω}

theorem Nests.built {limit : Nat} {f g : Frame} {below rest : List Frame} (h : Nests limit f below (.next g rest)) :
    Frame.built (g :: rest) = Frame.built (f :: below) := by
  cases h with
  | stays hg => exact hg.built below
  | returns hbelow hg =>
    subst hbelow
    exact hg.built rest
  | calls hf | constructs hf => exact hf.built below

/-- A run whose lowest frame constructs an object ends with this object. -/
theorem run_built {budget : Nat} {f : Frame} {below : List Frame} {s t : State ω} {r : Ref} {v : Value}
    (hbuilt : Frame.built (f :: below) = some r) (h : Machine.run env budget f below s = some (.ok v, t)) :
    v = .object r := by
  induction budget generalizing f below s with
  | zero => cases h
  | succ budget ih =>
    rw [Machine.run] at h
    dsimp only at h
    split at h
    · rename_i g rest u hnext
      exact ih ((step_nests f below s _ _ hnext).built.trans hbuilt) h
    · rename_i w u hdone
      cases h
      have hends : Nests t.domain.maxDepth f below (.done v) := step_nests f below s _ _ hdone
      cases hends with
      | ends w hbelow =>
        subst hbelow
        rw [show f.constructs = some r from hbuilt]
        rfl
    · cases h
    · cases h

end Machine

theorem Host.construct_eq {ω : Type} {env : Environment ω} {type : String} {s t : State ω} {f : Frame} {r : Ref}
    (hstart : Machine.startConstruction env.host type s = some (.ok f, t)) (hf : f.constructs = some r) (budget : Nat) :
    env.host.construct (Machine.runner env budget) type s =
      (Machine.runner env budget f t).map fun x => (x.1.map fun _ => r, x.2) := by
  rw [construct, Run.bind_apply, hstart]
  dsimp only
  rw [Run.bind_apply]
  cases hrun : Machine.runner env budget f t with
  | none => rfl
  | some x =>
    obtain ⟨_ | v, u⟩ := x
    · rfl
    · have hbuilt : Frame.built [f] = some r := hf
      rw [Machine.run_built hbuilt hrun]
      rfl

/-- Where modules were loaded, a construction runs exactly the default constructor of the definition, on a new object with
the initial values of its fields, if the name of constructors finds this method. If it finds none that is a default
constructor, nothing is constructed. -/
theorem State.Reaches.constructs_default {ω : Type} {s t : State ω} (hnew : s.domain.Vacant) (h : s.Reaches t)
    {name : String} {l : LoadedModule} (hl : t.domain.module? name = some l) {m : Module Datum} {before : Heap}
    (hfrom : l.LoadedFrom m before) {i : Nat} {td : TypeDecl Datum} (htd : m.types[i]? = some td) {d : MethodDecl Datum}
    (hd : td.defaultConstructor? = some d) (env : Environment ω) (budget : Nat) :
    (td.method? constructorName [] = some d → ∃ u e r o v, l.code.types[i]? = some u ∧ u.shape = td.shape ∧
      u.defaultConstructor? = some e ∧ e.shape = d.shape ∧ t.Makes r o v ∧ o.NewOf u ∧
      (t.domain.maxDepth = 0 → env.host.construct (Machine.runner env budget) td.fullName t =
        some (.error (.recursionLimit 0), v)) ∧
      (0 < t.domain.maxDepth → env.host.construct (Machine.runner env budget) td.fullName t =
        (Machine.runner env budget (.first ⟨l, u, e⟩ (some r) [] 0 (some r)) v).map fun x => (x.1.map fun _ => r, x.2))) ∧
    ((∀ e, td.method? constructorName [] = some e → e.isDefaultConstructor = false) →
      env.host.construct (Machine.runner env budget) td.fullName t =
        some (.error (.memberNotFound constructorName td.fullName l.name), t)) := by
  have hhas : t.domain.Has m l := hfrom.has (h.accrues.coherent hnew.coherent) hl
  obtain ⟨u, hu, hshape⟩ := Module.types_getElem? hhas.shape.symm htd
  have htype : t.domain.type? u.fullName = some ⟨l, u⟩ := hhas.types u (List.mem_of_getElem? hu)
  rw [TypeDecl.fullName_eq hshape]
  constructor
  · intro hfound
    obtain ⟨e, he, hname, hsame⟩ := TypeDecl.constructor_found hshape hd hfound
    have hdefault : e.isDefaultConstructor = true := List.find?_some he
    obtain ⟨r, o, v, hmakes, hfields, hstart⟩ := Machine.startConstruction_eq env.host htype hname hdefault
    refine ⟨u, e, r, o, v, hu, hshape.symm, he, hsame, hmakes, hfields, fun hzero => ?_, fun hlimit => ?_⟩
    · rw [Frame.enter_eq, hzero, if_pos (Nat.le_refl 0)] at hstart
      rw [Host.construct, Run.bind_apply, hstart]
    · have hnone : e.params = [] := by
        simp only [MethodDecl.isDefaultConstructor, Bool.and_eq_true, List.isEmpty_iff] at hdefault
        exact hdefault.2
      have hbound : Frame.bindArguments ⟨l, u, e⟩ [] = .ok [] := by
        rw [Frame.bindArguments_eq, hnone]
        rfl
      rw [Frame.enter_eq_first hlimit (.inr rfl) hbound] at hstart
      exact Host.construct_eq hstart rfl budget
  · intro hmissing
    have hstart := Machine.startConstruction_missing env.host htype fun e he => by
      obtain ⟨e', he', hsame⟩ := TypeDecl.method?_eq hshape.symm he
      rw [MethodDecl.isDefaultConstructor_eq hsame]
      exact hmissing e' he'
    rw [Host.construct, Run.bind_apply, hstart]

namespace workshop

def level : FieldRef := ⟨⟨none, "Ops.Lamp"⟩, "level"⟩

/-- A lamp is turned up when it is made. A kit cannot be made, as its constructor has another name. -/
def catalog : Module Datum where
  name := "Workshop"
  types := [
    { space := "Ops", name := "Lamp"
      fields := [{ name := "level", type := TypeName.int32, initial := some (.int32 3) }]
      methods := [{
        name := constructorName, flags := MethodFlags.constructor
        body := [.loadThis, .loadThis, .loadField level, .const (.int32 4), .binary .add, .storeField level, .ret] }] },
    { space := "Ops", name := "Kit"
      methods := [{ name := "Init", flags := MethodFlags.constructor, body := [.ret] }] }]

def empty : State Unit := ⟨{ hostName := "bench" }, ()⟩

end workshop

open workshop in
/-- A new lamp starts at level three, and its constructor turns it up to seven. -/
theorem workshop_makes : ∃ t l r o v w, empty.domain.Vacant ∧ empty.Reaches t ∧ t.domain.module? "Workshop" = some l ∧
    t.Makes r o v ∧ o.fields.find? "level" = some (.int32 3) ∧
    Environment.bare.host.construct (Machine.runner .bare 10) "Ops.Lamp" t = some (.ok r, w) ∧
    w.domain.heap.field? r "level" = some (.int32 7) ∧
    Environment.bare.host.construct (Machine.runner .bare 10) "Ops.Kit" t =
      some (.error (.memberNotFound ".ctor" "Ops.Kit" l.name), t) := by
  obtain ⟨t, l, u, x, w, hload, hl, hfrom, hlimit, hu, hinitial, hmade, hlevel⟩ : ∃ t l u x w,
      (Operation.load (.memory catalog)).perform .bare 1 empty = some (.ok (), t) ∧
      t.domain.module? "Workshop" = some l ∧ l.LoadedFrom catalog {} ∧ 0 < t.domain.maxDepth ∧
      l.code.types[0]? = some u ∧
      (u.fields.reverse.find? fun f => !f.isStatic && f.name = "level").map (·.initialValue) = some (.int32 3) ∧
      Environment.bare.host.construct (Machine.runner .bare 10) "Ops.Lamp" t = some (.ok x, w) ∧
      w.domain.heap.field? x "level" = some (.int32 7) :=
    ⟨_, _, _, _, _, rfl, rfl, ⟨⟨Module.validate_eq_ok.mp rfl, .inr rfl⟩, rfl⟩, by decide, rfl, rfl, rfl, rfl⟩
  have hnew : empty.domain.Vacant := ⟨rfl, rfl, rfl, rfl⟩
  have hreaches : empty.Reaches t := (State.Reaches.refl empty).step Environment.bare_plain hload
  obtain ⟨hlamp, -⟩ := State.Reaches.constructs_default hnew hreaches hl hfrom (i := 0) rfl rfl .bare 10
  obtain ⟨u', e, r, o, v, hu', -, -, -, hmakes, hnewOf, -, hruns⟩ := hlamp rfl
  obtain ⟨-, hkit⟩ := State.Reaches.constructs_default hnew hreaches hl hfrom (i := 1) rfl rfl .bare 10
  cases hu.symm.trans hu'
  -- the run ends with the new object
  obtain ⟨⟨outcome, _⟩, -, houtcome⟩ := Option.map_eq_some_iff.mp ((hruns hlimit).symm.trans hmade)
  obtain rfl : r = x := by
    cases outcome with
    | error e => cases houtcome
    | ok v =>
      cases houtcome
      rfl
  exact ⟨t, l, r, o, v, w, hnew, hreaches, hl, hmakes, (hnewOf.fields "level").trans hinitial, hmade, hlevel,
    hkit fun e he => nomatch he⟩

end MobileCode
