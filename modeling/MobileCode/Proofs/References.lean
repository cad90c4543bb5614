import MobileCode.Discovery
import Mathlib.Data.List.Nodup
import Mathlib.Data.List.Pairwise
import Mathlib.Logic.Relation
import Mathlib.Tactic.MkIffOfInductiveProp

/-! # References between methods

The modules of a set may have ambiguous names; where they have not, a key names one method. A method
leads to another one by a call or a construction in its body, unless this crosses a boundary.
-/
namespace MobileCode
variable {α : Type}

/-! ## Names without ambiguity -/

/-- The modules of a set. -/
def ModuleSet.members (s : ModuleSet α) : List (Module α) := s.root :: s.dependencies.map (·.2)

/-- No two members of one kind have the same name, and no two methods the same signature. -/
@[mk_iff]
structure TypeDecl.Unambiguous (t : TypeDecl α) : Prop where
  fields : (t.fields.map (·.name)).Nodup
  properties : (t.properties.map (·.name)).Nodup
  accessors : (t.properties.flatMap fun p => p.getter.toList ++ p.setter.toList).Nodup
  methods : (t.methods.map fun d => (d.name, d.paramTypes)).Nodup

@[mk_iff]
structure ModuleSet.Unambiguous (s : ModuleSet α) : Prop where
  modules : (s.members.map (·.name)).Nodup
  types : (s.members.flatMap fun m => m.types.map (·.fullName)).Nodup
  within : ∀ m ∈ s.members, ∀ t ∈ m.types, t.Unambiguous

instance (t : TypeDecl α) : Decidable t.Unambiguous :=
  decidable_of_iff' _ t.unambiguous_iff

instance (s : ModuleSet α) : Decidable s.Unambiguous :=
  decidable_of_iff' _ s.unambiguous_iff

/-- An element belongs to one of the parts of a list without repetition only. -/
theorem eq_of_nodup_flatMap {β γ : Type} {f : β → List γ} {xs : List β} (h : (xs.flatMap f).Nodup) {x y : β}
    (hx : x ∈ xs) (hy : y ∈ xs) {c : γ} (hcx : c ∈ f x) (hcy : c ∈ f y) : x = y := by
  by_contra hne
  have hsymm : Std.Symm (Function.onFun List.Disjoint f) := ⟨fun _ _ h _ ha hb => h hb ha⟩
  exact (List.nodup_flatMap.mp h).2.forall hx hy hne hcx hcy

/-- The only element with a property is the first one. -/
theorem find?_eq_some_of_unique {β : Type} {p : β → Bool} {xs : List β} {x : β} (hx : x ∈ xs) (hp : p x = true)
    (hunique : ∀ y ∈ xs, p y = true → y = x) : xs.find? p = some x := by
  cases hfound : xs.find? p with
  | none => exact absurd hp (List.find?_eq_none.mp hfound x hx)
  | some y => rw [hunique y (List.mem_of_find?_eq_some hfound) (List.find?_some hfound)]

namespace TypeDecl.Unambiguous
variable {t : TypeDecl α} (h : t.Unambiguous)
include h

theorem field?_eq {f : FieldDecl α} (hf : f ∈ t.fields) : t.field? f.name = some f :=
  find?_eq_some_of_unique hf (decide_eq_true rfl) fun _ hg hname =>
    List.inj_on_of_nodup_map h.fields hg hf (of_decide_eq_true hname)

theorem propertyOfAccessor?_eq {p : PropertyDecl} (hp : p ∈ t.properties) {method : String}
    (ha : p.hasAccessor method = true) : t.propertyOfAccessor? method = some p := by
  have hmem (q : PropertyDecl) (hq : q.hasAccessor method = true) :
      method ∈ q.getter.toList ++ q.setter.toList := by
    simpa [PropertyDecl.hasAccessor, Option.mem_toList] using hq
  exact find?_eq_some_of_unique hp ha fun q hq hname =>
    eq_of_nodup_flatMap h.accessors hq hp (hmem q hname) (hmem p ha)

end TypeDecl.Unambiguous

/-! ## What references mean -/

/-- The type that a reference in the code of a module means. -/
def ModuleSet.lookup? (s : ModuleSet α) (current : Module α) (r : TypeRef) : Option (Module α × TypeDecl α) := do
  let m ← s.scope? current r.scope
  return (m, ← m.type? r.fullName)

/-- Calls to these types are not followed. -/
def Boundary.stopsCall (b : Boundary) (type : String) : Prop := type = b.clientType ∨ b.excludes type = true

instance (b : Boundary) (type : String) : Decidable (b.stopsCall type) :=
  inferInstanceAs (Decidable (_ ∨ _))

/-- The method is an accessor of a property that stays at home. -/
def TypeDecl.keepsHome (t : TypeDecl α) (d : MethodDecl α) : Prop :=
  d.isAccessor = true ∧ ∃ p ∈ t.properties, p.hasAccessor d.name = true ∧ p.flags.has MemberFlags.ignoreTransfer = true

instance (t : TypeDecl α) (d : MethodDecl α) : Decidable (t.keepsHome d) :=
  inferInstanceAs (Decidable (_ ∧ _))

namespace Instruction

/-- The field that an instruction reads or writes. -/
def field? : Instruction α → Option FieldRef
  | loadField f | storeField f | loadStatic f | storeStatic f => some f
  | _ => none

end Instruction

theorem ModuleSet.lookup?_eq_some {s : ModuleSet α} {current m : Module α} {r : TypeRef} {t : TypeDecl α} :
    s.lookup? current r = some (m, t) ↔ s.scope? current r.scope = some m ∧ m.type? r.fullName = some t := by
  simp [lookup?, Option.bind_eq_some_iff]

theorem Module.type?_eq_some {m : Module α} {name : String} {t : TypeDecl α} (h : m.type? name = some t) :
    t ∈ m.types ∧ t.fullName = name := by
  have hname := List.find?_some (p := fun t : TypeDecl α => t.fullName = name) h
  exact ⟨List.mem_of_find?_eq_some h, of_decide_eq_true hname⟩

theorem TypeDecl.method?_eq_some {t : TypeDecl α} {name : String} {types : List String} {d : MethodDecl α}
    (h : t.method? name types = some d) : d ∈ t.methods ∧ d.name = name ∧ d.paramTypes = types := by
  have hfound := List.find?_some (p := fun d : MethodDecl α => d.name = name && d.hasSignature types) h
  simp only [MethodDecl.hasSignature, Bool.and_eq_true, decide_eq_true_eq] at hfound
  exact ⟨List.mem_of_find?_eq_some h, hfound⟩

theorem Dict.mem_of_find? {β : Type} {d : Dict β} {name : String} {x : β} (h : d.find? name = some x) :
    x ∈ d.map (·.2) := by
  rw [Dict.find?, List.lookup_eq_some_iff] at h
  obtain ⟨front, rest, rfl, _⟩ := h
  simp

theorem ModuleSet.scope?_mem {s : ModuleSet α} {current m : Module α} {scope : Option String}
    (hcurrent : current ∈ s.members) (h : s.scope? current scope = some m) : m ∈ s.members := by
  unfold scope? at h
  split at h
  · cases h
    exact hcurrent
  split at h
  · cases h
    exact hcurrent
  split at h
  · cases h
    exact List.mem_cons_self
  · refine List.mem_cons_of_mem _ ?_
    exact Dict.mem_of_find? h

/-- The keys of all methods of the modules. -/
def ModuleSet.keys (s : ModuleSet α) : List MethodKey :=
  s.members.flatMap fun m => m.types.flatMap fun t => t.methods.map (·.key t.fullName)

namespace Discovery

/-- The key of the method in an item. -/
def Item.key (x : Item α) : MethodKey := x.method.key x.type.fullName

/-- The item stands in one of the modules. -/
structure Item.StandsIn (s : ModuleSet α) (x : Item α) : Prop where
  module : x.module ∈ s.members
  type : x.type ∈ x.module.types
  method : x.method ∈ x.type.methods

/-- The field that a reference in the code of the item means, outside excluded namespaces. -/
def Item.MeansField (s : ModuleSet α) (b : Boundary) (x : Item α) (r : FieldRef) (m : Module α) (t : TypeDecl α)
    (f : FieldDecl α) : Prop :=
  b.excludes r.owner.fullName = false ∧ s.lookup? x.module r.owner = some (m, t) ∧ t.field? r.name = some f

/-- The method that a call in the code of the item means, if the call is followed. -/
def Item.MeansMethod (s : ModuleSet α) (b : Boundary) (x : Item α) (r : MethodRef) (m : Module α) (t : TypeDecl α)
    (d : MethodDecl α) : Prop :=
  ¬b.stopsCall r.owner.fullName ∧ s.lookup? x.module r.owner = some (m, t) ∧ t.method? r.name r.paramTypes = some d

/-- The type that a construction in the code of the item means, outside excluded namespaces. -/
def Item.MeansType (s : ModuleSet α) (b : Boundary) (x : Item α) (r : TypeRef) (m : Module α) (t : TypeDecl α) :
    Prop :=
  b.excludes r.fullName = false ∧ s.lookup? x.module r = some (m, t)

/-- What an instruction of the item refers to is there, unless it lies behind a boundary. -/
def Item.Resolves (s : ModuleSet α) (b : Boundary) (x : Item α) : Instruction α → Prop
  | .loadField r | .storeField r | .loadStatic r | .storeStatic r => b.excludes r.owner.fullName = false →
    ∃ m t f, x.MeansField s b r m t f
  | .call r => ¬b.stopsCall r.owner.fullName → ∃ m t d, x.MeansMethod s b r m t d
  | .construct r => b.excludes r.fullName = false → ∃ m t, x.MeansType s b r m t
  | _ => True

/-- A call or a construction in the body of one method that leads to the other without crossing a
boundary. -/
inductive Leads (s : ModuleSet α) (b : Boundary) : Item α → Item α → Prop
  | call {x : Item α} {m : Module α} {t : TypeDecl α} {d : MethodDecl α} {r : MethodRef} :
    .call r ∈ x.method.body → x.MeansMethod s b r m t d → ¬t.keepsHome d → Leads s b x ⟨m, t, d⟩
  | construct {x : Item α} {m : Module α} {t : TypeDecl α} {d : MethodDecl α} {r : TypeRef} :
    .construct r ∈ x.method.body → x.MeansType s b r m t → t.defaultConstructor? = some d → Leads s b x ⟨m, t, d⟩

/-- The modules that an instruction of the item reaches into. -/
inductive Item.Enters (s : ModuleSet α) (b : Boundary) (x : Item α) : Instruction α → Module α → Prop
  | field {i : Instruction α} {r : FieldRef} {m : Module α} {t : TypeDecl α} {f : FieldDecl α} :
    i.field? = some r → x.MeansField s b r m t f → Enters s b x i m
  | call {r : MethodRef} {m : Module α} {t : TypeDecl α} {d : MethodDecl α} :
    x.MeansMethod s b r m t d → ¬t.keepsHome d → Enters s b x (.call r) m
  | construct {r : TypeRef} {m : Module α} {t : TypeDecl α} : x.MeansType s b r m t → Enters s b x (.construct r) m

/-- The item itself and all that calls and constructions lead to. -/
abbrev Reaches (s : ModuleSet α) (b : Boundary) : Item α → Item α → Prop := Relation.ReflTransGen (Leads s b)

variable {s : ModuleSet α} {b : Boundary} {x y : Item α}

theorem Item.StandsIn.lookup (hx : x.StandsIn s) {r : TypeRef} {m : Module α} {t : TypeDecl α}
    (h : s.lookup? x.module r = some (m, t)) : m ∈ s.members ∧ t ∈ m.types ∧ t.fullName = r.fullName := by
  obtain ⟨hscope, htype⟩ := ModuleSet.lookup?_eq_some.mp h
  exact ⟨ModuleSet.scope?_mem hx.module hscope, Module.type?_eq_some htype⟩

theorem Leads.standsIn (h : Leads s b x y) (hx : x.StandsIn s) : y.StandsIn s := by
  cases h with
  | call _ hmeans _ =>
    obtain ⟨hm, ht, _⟩ := hx.lookup hmeans.2.1
    exact ⟨hm, ht, (TypeDecl.method?_eq_some hmeans.2.2).1⟩
  | construct _ hmeans hctor =>
    obtain ⟨hm, ht, _⟩ := hx.lookup hmeans.2
    exact ⟨hm, ht, List.mem_of_find?_eq_some hctor⟩

theorem Reaches.standsIn (h : Reaches s b x y) (hx : x.StandsIn s) : y.StandsIn s := by
  induction h with
  | refl => exact hx
  | tail _ hstep ih => exact hstep.standsIn ih

/-- The type of a full name is known. -/
theorem eq_of_fullName (hs : s.Unambiguous) {m n : Module α} {t u : TypeDecl α} (hm : m ∈ s.members)
    (hn : n ∈ s.members) (ht : t ∈ m.types) (hu : u ∈ n.types) (h : t.fullName = u.fullName) : m = n ∧ t = u := by
  have hmodule : m = n := eq_of_nodup_flatMap hs.types hm hn (List.mem_map_of_mem ht)
    (h ▸ List.mem_map_of_mem (f := TypeDecl.fullName) hu)
  subst hmodule
  exact ⟨rfl, List.inj_on_of_nodup_map ((List.nodup_flatMap.mp hs.types).1 m hm) ht hu h⟩

/-- A key names one method. -/
theorem Item.StandsIn.eq_of_key (hs : s.Unambiguous) (hx : x.StandsIn s) (hy : y.StandsIn s)
    (h : x.key = y.key) : x = y := by
  obtain ⟨m, t, d⟩ := x
  obtain ⟨n, u, e⟩ := y
  simp only [Item.key, MethodDecl.key, MethodKey.mk.injEq] at h
  obtain ⟨htype, hname, htypes⟩ := h
  obtain ⟨rfl, rfl⟩ := eq_of_fullName hs hx.module hy.module hx.type hy.type htype
  have hmethods := (hs.within m hx.module t hx.type).methods
  obtain rfl : d = e := List.inj_on_of_nodup_map hmethods hx.method hy.method (Prod.ext hname htypes)
  rfl

end Discovery
end MobileCode
