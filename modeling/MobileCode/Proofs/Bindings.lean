import MobileCode.Proofs.Definitions
import MobileCode.Proofs.Overloads
import Mathlib.Data.List.TakeWhile

/-! # What parameters are bound to

A method is found by argument values among the overloads that accept them, and then once more by its signature. When it is
entered, its parameters are bound to these values and to defaults. An overload counts the parameters in front of the first
default only, so the two agree where optional parameters stand last and methods of one signature have the same ones.
-/
namespace MobileCode

/-! ## Bindings -/

/-- A parameter is bound to the value that is given for it, of its declared type, or to its default. -/
inductive ParamDecl.Takes (heap : Heap) (p : ParamDecl Value) : Option Value → Value → Prop
  | given {v : Value} : heap.matchesType v p.type = true → Takes heap p (some v) v
  | default {v : Value} : p.default = some v → Takes heap p none v

/-- The parameters of the method, each bound to a value, for arguments that leave out the last ones. -/
structure MethodDecl.Binds (heap : Heap) (d : MethodDecl Value) (args bound : List Value) : Prop where
  count : args.length ≤ d.params.length
  length : bound.length = d.params.length
  each : ∀ (i : Nat) (p : ParamDecl Value) v, d.params[i]? = some p → bound[i]? = some v → p.Takes heap args[i]? v

/-- Behind a parameter with a default all have one. -/
def MethodDecl.OptionalLast {α : Type} (d : MethodDecl α) : Prop :=
  d.params.Pairwise fun p q => p.default.isSome = true → q.default.isSome = true

/-- All methods of the name and the signature of this one have defaults for the same parameters. -/
def TypeDecl.DefaultsAgree {α : Type} (t : TypeDecl α) (d : MethodDecl α) : Prop :=
  ∀ e ∈ t.methods, e.name = d.name → e.paramTypes = d.paramTypes →
    e.params.map (·.default.isSome) = d.params.map (·.default.isSome)

instance {α : Type} (d : MethodDecl α) : Decidable d.OptionalLast :=
  inferInstanceAs (Decidable (List.Pairwise _ _))

instance {α : Type} (t : TypeDecl α) (d : MethodDecl α) : Decidable (t.DefaultsAgree d) :=
  inferInstanceAs (Decidable (∀ e ∈ t.methods, _))

/-! ## Required parameters -/

section
variable {α : Type} {ps : List (ParamDecl α)}

theorem default_of_required {i : Nat} (hi : i < (ps.takeWhile (·.default.isNone)).length) {p : ParamDecl α}
    (hp : ps[i]? = some p) : p.default = none := by
  have hprefix := List.takeWhile_prefix (l := ps) fun p : ParamDecl α => p.default.isNone
  have hsame : (ps.takeWhile (·.default.isNone))[i]? = some p := by
    rw [← hp]
    exact List.prefix_iff_getElem?.mp hprefix i hi ▸ List.getElem?_eq_getElem hi
  have hnone := List.mem_takeWhile_imp (p := fun p : ParamDecl α => p.default.isNone) (List.mem_of_getElem? hsame)
  exact Option.isNone_iff_eq_none.mp hnone

/-- Where optional parameters stand last, those behind the required ones all have defaults. -/
theorem isSome_behind_required (h : ps.Pairwise fun p q => p.default.isSome = true → q.default.isSome = true) {n : Nat}
    (hn : (ps.takeWhile (·.default.isNone)).length ≤ n) : ∀ p ∈ ps.drop n, p.default.isSome = true := by
  induction ps generalizing n with
  | nil => simp
  | cons q ps ih =>
    obtain ⟨hq, hps⟩ := List.pairwise_cons.mp h
    intro p hp
    cases hdefault : q.default with
    | some v =>
      rcases List.mem_cons.mp (List.mem_of_mem_drop hp) with rfl | hp
      · rw [hdefault]
        rfl
      · exact hq p hp (by rw [hdefault]; rfl)
    | none =>
      rw [List.takeWhile_cons_of_pos (by rw [hdefault]; rfl), List.length_cons] at hn
      obtain ⟨k, rfl⟩ : ∃ k, n = k + 1 := ⟨n - 1, by omega⟩
      exact ih hps (Nat.le_of_succ_le_succ hn) p hp

end

/-! ## Acceptance and binding -/

section
variable {heap : Heap} {d e : MethodDecl Value} {args bound : List Value} {type : String}

theorem Overload.accepts_iff : (ofMethod type d).accepts heap args = true ↔
    (d.params.takeWhile (·.default.isNone)).length ≤ args.length ∧ args.length ≤ d.params.length ∧
      ∀ (i : Nat) v (p : ParamDecl Value), args[i]? = some v → d.params[i]? = some p → heap.matchesType v p.type = true := by
  have hall : ((args.zip d.params).all fun q => heap.matchesType q.1 q.2.type) = true ↔
      ∀ (i : Nat) v (p : ParamDecl Value), args[i]? = some v → d.params[i]? = some p → heap.matchesType v p.type = true := by
    rw [List.all_eq_true]
    constructor
    · intro h i v p hv hp
      exact h (v, p) (List.mem_of_getElem? (List.getElem?_zip_eq_some.mpr ⟨hv, hp⟩))
    · rintro h ⟨v, p⟩ hmem
      obtain ⟨i, hi⟩ := List.mem_iff_getElem?.mp hmem
      obtain ⟨hv, hp⟩ := List.getElem?_zip_eq_some.mp hi
      exact h i v p hv hp
  unfold accepts required ofMethod
  rw [Bool.and_eq_true, Bool.and_eq_true, decide_eq_true_iff, decide_eq_true_iff, and_assoc]
  exact and_congr_right fun _ => and_congr_right fun _ => hall

/-- An overload accepts whatever can be bound to the parameters of its method. -/
theorem MethodDecl.Binds.accepts (h : d.Binds heap args bound) : (Overload.ofMethod type d).accepts heap args = true := by
  have htake {i : Nat} (hi : i < d.params.length) : ∃ p v, d.params[i]? = some p ∧ p.Takes heap args[i]? v := by
    have hbound : i < bound.length := h.length.symm ▸ hi
    exact ⟨_, _, List.getElem?_eq_getElem hi,
      h.each i _ _ (List.getElem?_eq_getElem hi) (List.getElem?_eq_getElem hbound)⟩
  refine Overload.accepts_iff.mpr ⟨?_, h.count, fun i v p hv hp => ?_⟩
  · by_contra hless
    have hlength := (List.takeWhile_prefix (l := d.params) fun p => p.default.isNone).length_le
    obtain ⟨p, v, hp, htakes⟩ := htake (i := args.length) (by omega)
    rw [List.getElem?_eq_none (Nat.le_refl _)] at htakes
    cases htakes with
    | default hdefault => exact nomatch (default_of_required (Nat.lt_of_not_le hless) hp).symm.trans hdefault
  · obtain ⟨q, w, hq, htakes⟩ := htake (List.getElem?_eq_some_iff.mp hp).1
    cases hp.symm.trans hq
    rw [hv] at htakes
    cases htakes with
    | given hmatches => exact hmatches

theorem Frame.defaults_eq_ok (key : MethodKey) {ps : List (ParamDecl Value)}
    (h : ∀ p ∈ ps, p.default.isSome = true) : ∃ vs, ps.mapM (defaultOf key) = .ok vs ∧
      List.Forall₂ (fun p v => p.default = some v) ps vs := by
  induction ps with
  | nil => exact ⟨[], rfl, .nil⟩
  | cons p ps ih =>
    obtain ⟨hp, hps⟩ := List.forall_mem_cons.mp h
    obtain ⟨v, hv⟩ := Option.isSome_iff_exists.mp hp
    obtain ⟨vs, hvs, hrest⟩ := ih hps
    refine ⟨v :: vs, ?_, .cons hv hrest⟩
    rw [List.mapM_cons, hvs, defaultOf, hv]
    rfl

/-- Arguments of the declared types are bound if what they leave out has defaults. -/
theorem Frame.bindArguments_binds {m : MethodHandle} (hcount : args.length ≤ m.decl.params.length)
    (htyped : ∀ (i : Nat) v (p : ParamDecl Value), args[i]? = some v → m.decl.params[i]? = some p →
      heap.matchesType v p.type = true)
    (hdefaults : ∀ p ∈ m.decl.params.drop args.length, p.default.isSome = true) :
    ∃ bound, bindArguments m args = .ok bound ∧ m.decl.Binds heap args bound := by
  obtain ⟨vs, hvs, heach⟩ := defaults_eq_ok m.key hdefaults
  have hlength : (args ++ vs).length = m.decl.params.length := by
    rw [List.length_append, ← heach.length_eq, List.length_drop]
    omega
  refine ⟨args ++ vs, by rw [bindArguments_eq, if_neg (by omega), hvs]; rfl, hcount, hlength, fun i p v hp hv => ?_⟩
  rcases Nat.lt_or_ge i args.length with hi | hi
  · rw [List.getElem?_append_left hi] at hv
    rw [hv]
    exact .given (htyped i v p hv hp)
  · rw [List.getElem?_append_right hi] at hv
    rw [List.getElem?_eq_none hi]
    have hrel := Forall₂.getElem? heach (i - args.length)
    rw [List.getElem?_drop, Nat.add_sub_of_le hi, hp, hv] at hrel
    cases hrel with
    | some hdefault => exact .default hdefault

/-- A method with the signature of an overload that accepts the arguments has room for them and declares their types. -/
theorem Overload.typed_of_accepts (haccepts : (ofMethod type d).accepts heap args = true)
    (htypes : e.paramTypes = d.paramTypes) : args.length ≤ e.params.length ∧
      ∀ (i : Nat) v (p : ParamDecl Value), args[i]? = some v → e.params[i]? = some p → heap.matchesType v p.type = true := by
  obtain ⟨_, hcount, htyped⟩ := accepts_iff.mp haccepts
  have hparam (i : Nat) : e.params[i]?.map (·.type) = d.params[i]?.map (·.type) := by
    rw [← List.getElem?_map, ← List.getElem?_map]
    exact congrArg (·[i]?) htypes
  have hlength : e.params.length = d.params.length := by
    simpa [MethodDecl.paramTypes] using congrArg List.length htypes
  refine ⟨hlength ▸ hcount, fun i v p hv hp => ?_⟩
  have hsame := hparam i
  rw [hp] at hsame
  obtain ⟨q, hq, htype⟩ := Option.map_eq_some_iff.mp hsame.symm
  rw [← show q.type = p.type from htype]
  exact htyped i v q hv hq

/-- If besides they have defaults for the same parameters, and optional ones stand last, what is left out has defaults. -/
theorem Overload.defaults_of_accepts (haccepts : (ofMethod type d).accepts heap args = true)
    (hsame : d.params.map (·.default.isSome) = e.params.map (·.default.isSome)) (hlast : e.OptionalLast) :
    ∀ p ∈ e.params.drop args.length, p.default.isSome = true := by
  have hrequired (ps : List (ParamDecl Value)) : (ps.takeWhile (·.default.isNone)).length =
      ((ps.map (·.default.isSome)).takeWhile (!·)).length := by
    rw [List.takeWhile_map, List.length_map]
    simp [Function.comp_def]
  refine isSome_behind_required hlast ?_
  rw [hrequired, ← hsame, ← hrequired]
  exact (accepts_iff.mp haccepts).1

end

theorem Frame.enter_eq_first {limit depth : Nat} {m : MethodHandle} {receiver : Option Ref} {args bound : List Value}
    (hdepth : depth < limit) (hreceiver : m.decl.isStatic = true ∨ receiver.isSome = true)
    (hbound : bindArguments m args = .ok bound) (constructs : Option Ref) :
    enter limit depth m receiver args constructs = .ok (first m receiver bound depth constructs) := by
  rw [enter_eq, if_neg (Nat.not_le.mpr hdepth), hbound]
  refine if_neg ?_
  rintro ⟨hinstance, rfl⟩
  rcases hreceiver with hstatic | hsome
  · cases hinstance.symm.trans hstatic
  · cases hsome

/-! ## Calls by argument values -/

/-- Without a type of the name there is nothing to call. -/
theorem Host.resolveOverload_missing {ω : Type} {host : Host ω} {type method : String} {args : List Value} {s : State ω}
    (h : s.domain.type? type = none) :
    host.resolveOverload type method args s = some (.error (typeMissing ⟨none, type⟩), s) := by
  have hmissing : host.resolveLocal type s = some (.error (typeMissing ⟨none, type⟩), s) := by
    unfold resolveLocal resolveType
    rw [Run.get_bind, h]
    rfl
  rw [resolveOverload, Run.bind_apply, hmissing]

/-- Where modules were loaded, a call by argument values finds a method if one can be given these. -/
theorem State.Reaches.overload_binds {ω : Type} {s t : State ω} (hnew : s.domain.Vacant) (h : s.Reaches t) (host : Host ω)
    (type method : String) (args : List Value) :
    (∀ m u, host.resolveOverload type method args t = some (.ok m, u) → u = t ∧
      t.domain.type? type = some ⟨m.module, m.owner⟩ ∧ m.decl ∈ m.owner.methods ∧ m.decl.name = method ∧
      args.length ≤ m.decl.params.length ∧
      (∀ (i : Nat) v (p : ParamDecl Value), args[i]? = some v → m.decl.params[i]? = some p →
        t.domain.heap.matchesType v p.type = true) ∧
      (m.decl.OptionalLast → m.owner.DefaultsAgree m.decl → ∀ limit depth receiver, depth < limit →
        m.decl.isStatic = true ∨ receiver.isSome = true → ∃ f, Frame.enter limit depth m receiver args = .ok f ∧
          m.decl.Binds t.domain.heap args f.args)) ∧
    ∀ e u, host.resolveOverload type method args t = some (.error e, u) → u = t ∧
      (∃ member owner module, e = .memberNotFound member owner module) ∧
      ∀ v, t.domain.type? type = some v → ∀ d ∈ v.decl.methods, d.name = method →
        ∀ bound, ¬d.Binds t.domain.heap args bound := by
  have hcoherent : t.domain.Coherent := h.accrues.coherent hnew.coherent
  cases howner : t.domain.type? type with
  | none =>
    rw [Host.resolveOverload_missing howner]
    refine ⟨fun m u hm => ?_, fun e u he => ?_⟩
    · cases hm
    · cases he
      refine ⟨rfl, ⟨_, _, _, rfl⟩, fun v hv => ?_⟩
      cases hv
  | some owner =>
    obtain ⟨hmodule, hmem, rfl⟩ := hcoherent.owners type owner howner
    obtain ⟨_, _, _, hhas⟩ := h.has hnew hmodule
    obtain ⟨l, v⟩ := owner
    rw [Host.resolveOverload_found howner, hhas.meant?_accepting hmem]
    cases hfound : v.methods.find? fun d =>
      d.name = method && (Overload.ofMethod v.fullName d).accepts t.domain.heap args with
    | none =>
      refine ⟨fun m u hm => ?_, fun e u he => ?_⟩
      · cases hm
      · cases he
        refine ⟨rfl, ⟨_, _, _, rfl⟩, ?_⟩
        rintro _ hv d hd rfl bound hbinds
        cases hv
        have hrefused := List.find?_eq_none.mp hfound d hd
        rw [hbinds.accepts] at hrefused
        simp at hrefused
    | some d =>
      obtain ⟨hname, haccepts⟩ : d.name = method ∧ (Overload.ofMethod v.fullName d).accepts t.domain.heap args = true := by
        simpa using List.find?_some hfound
      -- the lookup by signature finds a method, if not always the overload itself
      obtain ⟨e, he⟩ : ∃ e, v.method? d.name d.paramTypes = some e := by
        refine Option.isSome_iff_exists.mp (List.find?_isSome.mpr ⟨d, List.mem_of_find?_eq_some hfound, ?_⟩)
        simp [MethodDecl.hasSignature]
      obtain ⟨hin, hsame, htypes⟩ := TypeDecl.method?_eq_some he
      rw [Option.bind_some, he, Option.map_some]
      refine ⟨fun m u hm => ?_, by rintro e u ⟨⟩⟩
      cases hm
      obtain ⟨hcount, htyped⟩ := Overload.typed_of_accepts haccepts htypes
      refine ⟨rfl, rfl, hin, hsame.trans hname, hcount, htyped, fun hlast hagree limit depth receiver hdepth hreceiver => ?_⟩
      have hdefaults := hagree d (List.mem_of_find?_eq_some hfound) hsame.symm htypes.symm
      obtain ⟨bound, hbound, hbinds⟩ := Frame.bindArguments_binds (m := ⟨l, v, e⟩) hcount htyped
        (Overload.defaults_of_accepts haccepts hdefaults hlast)
      exact ⟨_, Frame.enter_eq_first hdepth hreceiver hbound none, hbinds⟩

namespace ferry

/-- Bags go for free unless they are told. -/
def timetable : Module Datum where
  name := "Ferry"
  types := [{
    space := "Ops", name := "Ferry"
    methods := [
      { name := "Fare", flags := MethodFlags.static, params := [⟨"pass", TypeName.text, none⟩], body := [.ret] },
      { name := "Fare", flags := MethodFlags.static, returns := some TypeName.int32
        params := [⟨"zone", TypeName.int32, none⟩, ⟨"bags", TypeName.int32, some (.int32 0)⟩]
        body := [.loadArg 0, .loadArg 1, .binary .add, .ret] }] }]

def empty : State Unit := ⟨{ hostName := "pier" }, ()⟩

end ferry

open ferry in
/-- A zone selects the second overload, and the bags are bound to their default. No overload takes a truth value. -/
theorem ferry_fares : ∃ t m f e, empty.domain.Vacant ∧ empty.Reaches t ∧
    Environment.bare.host.resolveOverload "Ops.Ferry" "Fare" [.int32 2] t = some (.ok m, t) ∧
    Frame.enter t.domain.maxDepth 0 m none [.int32 2] = .ok f ∧ f.args = [.int32 2, .int32 0] ∧
    m.decl.Binds t.domain.heap [.int32 2] f.args ∧
    Environment.bare.host.resolveOverload "Ops.Ferry" "Fare" [.bool true] t = some (.error e, t) ∧
    ∃ member owner module, e = .memberNotFound member owner module := by
  obtain ⟨t, m, e, hload, hasked, hrefused, hlast, hagree, hstatic, hlimit, hbound⟩ : ∃ t m e,
      (Operation.load (.memory timetable)).perform .bare 1 empty = some (.ok (), t) ∧
      Environment.bare.host.resolveOverload "Ops.Ferry" "Fare" [.int32 2] t = some (.ok m, t) ∧
      Environment.bare.host.resolveOverload "Ops.Ferry" "Fare" [.bool true] t = some (.error e, t) ∧
      m.decl.OptionalLast ∧ m.owner.DefaultsAgree m.decl ∧ m.decl.isStatic = true ∧ 0 < t.domain.maxDepth ∧
      (Frame.enter t.domain.maxDepth 0 m none [.int32 2]).toOption.map (·.args) = some [.int32 2, .int32 0] :=
    ⟨_, _, _, rfl, rfl, rfl, by decide, by decide, rfl, by decide, rfl⟩
  have hnew : empty.domain.Vacant := ⟨rfl, rfl, rfl, rfl⟩
  have hreaches : empty.Reaches t := (State.Reaches.refl empty).step Environment.bare_plain hload
  obtain ⟨hfound, -⟩ := State.Reaches.overload_binds hnew hreaches Environment.bare.host "Ops.Ferry" "Fare" [.int32 2]
  obtain ⟨-, -, -, -, -, -, henters⟩ := hfound m t hasked
  obtain ⟨f, hf, hbinds⟩ := henters hlast hagree _ 0 none hlimit (.inl hstatic)
  rw [hf] at hbound
  obtain ⟨-, hmissing⟩ := State.Reaches.overload_binds hnew hreaches Environment.bare.host "Ops.Ferry" "Fare" [.bool true]
  obtain ⟨-, he, -⟩ := hmissing e t hrefused
  exact ⟨t, m, f, e, hnew, hreaches, hasked, hf, Option.some.inj hbound, hbinds, hrefused, he⟩

end MobileCode
