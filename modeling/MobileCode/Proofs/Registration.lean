import MobileCode.Proofs.Domains
import MobileCode.Proofs.Relocation
import Mathlib.Data.List.Nodup

/-! # Domains with a deployed module

A module and its deployed form are loaded into the same domain. The two domains that come of it are
alike: objects that were there are linked to themselves, and those of the module to their copies.
-/
namespace MobileCode

/-! ## Closed domains -/

/-- Each object of a heap with itself. -/
def Heap.itself (h : Heap) : Links := fun r s => r = s ∧ r.index < h.objects.size

/-- All objects that a value refers to are in the heap. -/
def Heap.Holds (h : Heap) (x : Value) : Prop := Value.Linked h.itself x x

/-- No reference dangles, and every type belongs to a module. -/
structure Domain.Closed (d : Domain) : Prop where
  objects : ∀ {r o}, d.heap.get? r = some o → ∀ f ∈ o.fields, d.heap.Holds f.2
  literals : ∀ t ∈ d.types, ∀ x, t.2.decl.Mentions x → d.heap.Holds x
  defaults : ∀ t ∈ d.tables, ∀ type method, ∀ o ∈ t.2.overloads type method, ∀ p ∈ o.params, ∀ x ∈ p.default,
    d.heap.Holds x
  statics : ∀ s ∈ d.statics, ∀ v ∈ s.2, d.heap.Holds v.2
  owned : ∀ t ∈ d.types, d.module? t.2.module.name ≠ none

/-- A domain into which nothing has been loaded. -/
theorem Domain.closed_of_empty {d : Domain} (hheap : d.heap = {}) (htypes : d.types = []) (htables : d.tables = [])
    (hstatics : d.statics = []) : d.Closed where
  objects {r o} ho := by
    have hnone : d.heap.get? r = none := by
      rw [hheap]
      exact Heap.get?_eq_none_iff.mpr (Nat.zero_le _)
    cases hnone.symm.trans ho
  literals t ht := by
    rw [htypes] at ht
    cases ht
  defaults t ht := by
    rw [htables] at ht
    cases ht
  statics s hs := by
    rw [hstatics] at hs
    cases hs
  owned t ht := by
    rw [htypes] at ht
    cases ht

/-- At first each object that was there is linked to itself. -/
theorem Domain.Closed.joined {d : Domain} (hd : d.Closed) {h : Heap} (hh : d.heap.Extends h) :
    Heap.Joined d.heap.itself h d.heap where
  object {r s} hrs := by
    obtain ⟨rfl, hlt⟩ := hrs
    have ho : d.heap.get? r = some d.heap.objects[r.index] := Array.getElem?_eq_getElem hlt
    rw [ho, hh r _ ho]
    exact .some ⟨rfl, Dict.Related.refl fun f hf => hd.objects ho f hf⟩
  functional hs hs' := hs.1.symm.trans hs'.1
  injective hr hr' := hr.1.trans hr'.1.symm
  beyond hrs hge := absurd (Nat.lt_of_lt_of_le hrs.2 hh.size_le) (Nat.not_lt.mpr hge)
  left hrs := Nat.lt_of_lt_of_le hrs.2 hh.size_le
  right hrs := hrs.1 ▸ hrs.2

/-! ## The comparison -/

/-- The modules of a deployment, one of which is loaded into the second domain. -/
def Comparison.deployment (start second : Domain) (module client : String) : Comparison where
  module
  client
  mode? l t d mark := if l.name = module then mobileMode? l.code.flags t d mark else none
  foreign _ _ _ _ h := if_neg h
  deployed name := (second.type? name).filter fun t => t.module.name = module
  limit := start.maxDepth
  base := start.heap.itself
  exact := False

section Comparing
variable {start second : Domain} {module client : String} {w : Links}

/-- What was loaded before the module. -/
theorem Domain.Closed.similar (hstart : start.Closed) (hnew : start.module? module = none) {h k : Heap}
    (hle : start.heap.itself ≤ w) (hhk : Heap.Linked w h k) :
    Domain.Similar (.deployment start second module client) w { start with heap := h } { start with heap := k } where
  host := rfl
  digest := rfl
  limit := rfl
  sameLimit := rfl
  base := hle
  heap := hhk
  modules name := by
    show Option.Rel _ (start.module? name) (start.module? name)
    cases start.module? name with
    | none => exact .none
    | some l => exact .some ⟨rfl, fun _ => rfl⟩
  types := Dict.Related.refl fun t ht => by
    have hne : t.2.module.name ≠ module := fun he => hstart.owned t ht (he ▸ hnew)
    refine ⟨rfl, ?_, fun _ he => absurd he hne⟩
    have hmode : (Comparison.deployment start second module client).mode? t.2.module t.2.decl.flags =
        fun _ _ => none := funext fun _ => funext fun _ => if_neg hne
    rw [hmode]
    exact .refl fun x hx => (hstart.literals t ht x hx).mono hle
  tables := Dict.Related.refl fun t ht type method _ => List.forall₂_same.mpr fun o ho =>
    ⟨rfl, List.forall₂_same.mpr fun p hp => .refl fun x hx => (hstart.defaults t ht type method o ho p hp x hx).mono hle⟩
  statics := Dict.Related.refl fun s hs => Dict.Related.refl fun v hv => (hstart.statics s hs v hv).mono hle

end Comparing

/-! ## Overloads -/

section Overloads
variable {c : Comparison} {w : Links}

theorem forall₂_mem {α β : Type} {R : α → β → Prop} {xs : List α} {ys : List β} (h : List.Forall₂ R xs ys) :
    List.Forall₂ (fun a b => R a b ∧ a ∈ xs ∧ b ∈ ys) xs ys := by
  refine forall₂_of_getElem? fun i => ?_
  have hi := Forall₂.getElem? h i
  generalize hx : xs[i]? = x at hi
  generalize hy : ys[i]? = y at hi
  cases hi with
  | none => exact .none
  | some hab => exact .some ⟨hab, List.mem_of_getElem? hx, List.mem_of_getElem? hy⟩

/-- Siblings have names of their own, so they are no overloads of methods. -/
theorem overloads_alike {exact : Prop} {client : String} {mode? : MethodFlags → Option Mobility → Option Mode}
    {t u : TypeDecl Value} (h : TypeDecl.Form exact (Value.Linked w) client mode? t u) (type : String)
    {d : MethodDecl Value} (hd : d ∈ t.methods) :
    List.Forall₂ (Overload.Alike w)
      ((t.methods.map (Overload.ofMethod t.fullName)).filter fun o => (o.key.type, o.key.name) = (type, d.name))
      ((u.methods.map (Overload.ofMethod u.fullName)).filter fun o => (o.key.type, o.key.name) = (type, d.name)) := by
  obtain ⟨main, siblings, heq, hmain, hnew, _⟩ := h.methods
  have hsiblings : (siblings.map (Overload.ofMethod u.fullName)).filter
      (fun o => (o.key.type, o.key.name) = (type, d.name)) = [] := by
    refine List.filter_eq_nil_iff.mpr fun o ho hname => ?_
    obtain ⟨s, hs, rfl⟩ := List.mem_map.mp ho
    exact hnew s hs d hd (congrArg Prod.snd (of_decide_eq_true hname))
  rw [heq, List.map_append, List.filter_append, hsiblings, List.append_nil, h.fullName]
  exact DispatchTable.filter_alike (List.rel_map (fun _ _ hde => DispatchTable.overload_alike t.fullName hde) hmain)
    fun k => (k.type, k.name) = (type, d.name)

/-- The tables of a module and its deployed form agree on the methods of the module. -/
theorem DispatchTable.alike_deployed {exact : Prop} {client : String} {m n : Module Value} (hexact : ¬c.exact)
    (hdistinct : (m.types.map (·.fullName)).Nodup)
    (h : List.Forall₂ (fun t u => ∃ mode?, TypeDecl.Form exact (Value.Linked w) client mode? t u) m.types n.types) :
    DispatchTable.Alike c w (ofModule m) (ofModule n) := by
  intro type method hfound
  replace hfound := hfound.resolve_left hexact
  rw [overloads_ofModule] at hfound
  rw [overloads_ofModule, overloads_ofModule, List.filter_flatMap, List.filter_flatMap]
  obtain ⟨o, ho⟩ := List.exists_mem_of_ne_nil _ hfound
  obtain ⟨ho, hkey⟩ := List.mem_filter.mp ho
  obtain ⟨t₀, ht₀, ho⟩ := List.mem_flatMap.mp ho
  obtain ⟨d, hd, rfl⟩ := List.mem_map.mp ho
  have hkey := of_decide_eq_true hkey
  obtain rfl : t₀.fullName = type := congrArg Prod.fst hkey
  obtain rfl : d.name = method := congrArg Prod.snd hkey
  refine List.rel_flatMap (forall₂_mem h) fun t u ⟨htu, ht, _⟩ => ?_
  obtain ⟨mode?, htu⟩ := htu
  by_cases hname : t.fullName = t₀.fullName
  · obtain rfl := List.inj_on_of_nodup_map hdistinct ht ht₀ hname
    exact overloads_alike htu _ hd
  · have hnone (v : TypeDecl Value) (hv : v.fullName = t.fullName) : (v.methods.map (Overload.ofMethod v.fullName)).filter
        (fun o => (o.key.type, o.key.name) = (t₀.fullName, d.name)) = [] := by
      refine List.filter_eq_nil_iff.mpr fun o ho hkey => ?_
      obtain ⟨e, _, rfl⟩ := List.mem_map.mp ho
      exact hname (hv.symm.trans (congrArg Prod.fst (of_decide_eq_true hkey)))
    rw [hnone t rfl, hnone u htu.fullName]
    exact .nil

end Overloads

/-! ## Registering -/

theorem Dict.find?_foldl_insert_mem {β γ : Type} (key : β → String) (value : β → γ) {xs : List β}
    (hdistinct : (xs.map key).Nodup) {x : β} (hx : x ∈ xs) (d : Dict γ) :
    (xs.foldl (fun d y => d.insert (key y) (value y)) d).find? (key x) = some (value x) := by
  induction xs generalizing d with
  | nil => cases hx
  | cons y ys ih =>
    rw [List.map_cons, List.nodup_cons] at hdistinct
    rw [List.foldl_cons]
    obtain rfl | hx := List.mem_cons.mp hx
    · have hother : ∀ z ∈ ys, key z ≠ key x := fun z hz he => hdistinct.1 (he ▸ List.mem_map_of_mem hz)
      rw [Dict.find?_foldl_insert key value ys _ hother, Dict.find?_insert, if_pos rfl]
    · exact ih hdistinct.2 hx _

namespace Domain
variable {d d' : Domain} {m : Module Datum} {bytes : Bytes} {path : Option String} {l : LoadedModule}

/-- The module as it is loaded into a domain. -/
def loading (d : Domain) (m : Module Datum) (bytes : Bytes) (path : Option String) : LoadedModule :=
  ⟨((instantiate m).run d.heap).1, bytes, d.digest.digest bytes, path⟩

theorem register_eq_ok (hnew : d.module? m.name = none) (h : d.register m bytes path = .ok (l, d')) :
    l = d.loading m bytes path ∧ d' = ({ d with heap := ((instantiate m).run d.heap).2 } : Domain).enter l := by
  simp only [register, hnew] at h
  generalize hcode : (instantiate m).run d.heap = a at h
  obtain ⟨code, heap⟩ := a
  simp only at h
  split at h
  · cases h
  · cases h
    rw [loading, hcode]
    exact ⟨rfl, rfl⟩

/-- A loaded type is found by its name. -/
theorem type?_enter (hdistinct : (l.code.types.map (·.fullName)).Nodup) {t : TypeDecl Value} (ht : t ∈ l.code.types) :
    (d.enter l).type? t.fullName = some ⟨l, t⟩ := by
  rw [enter_eq]
  exact Dict.find?_foldl_insert_mem (fun t : TypeDecl Value => t.fullName) _ hdistinct ht d.types

end Domain

theorem Module.instantiate_fullNames (m : Module Datum) (h : Heap) :
    ((Domain.instantiate m).run h).1.types.map (·.fullName) = m.types.map (·.fullName) := by
  show ((m.types.mapM TypeDecl.load).run h).1.map (·.fullName) = _
  induction m.types generalizing h with
  | nil => rfl
  | cons t ts ih =>
    rw [Heap.mapM_run_cons, List.map_cons, List.map_cons, ih]
    rfl

theorem Module.instantiate_grows (m : Module Datum) : Grows (Domain.instantiate m) :=
  (Grows.mapM TypeDecl.load_grows m.types).bind fun _ => .pure _

/-- A module and its deployed form, loaded into the same domain. -/
theorem Domain.register_alike {start d e : Domain} {client : String} {m n : Module Datum} {l l' : LoadedModule}
    {bytes bytes' : Bytes} {path path' : Option String} (hstart : start.Closed) (hvalid : m.Valid)
    (hwords : m.Addressable) (hg : m.Grown client (fun i k => (i, k) ∈ m.targets.map Target.position) n)
    (hnew : start.module? m.name = none) (hd : start.register m bytes path = .ok (l, d))
    (he : start.register n bytes' path' = .ok (l', e)) :
    ∃ w, Domain.Alike (.deployment start e m.name client) w d e := by
  obtain ⟨rfl, rfl⟩ := register_eq_ok hnew hd
  obtain ⟨rfl, rfl⟩ := register_eq_ok (hg.name.symm ▸ hnew) he
  clear hd he
  have hext := m.instantiate_grows start.heap
  have hcopies := hg.instantiate_copies hvalid.branches hwords (mobileMode? m.flags)
    (fun i t k d ht hd hk _ => by
      rw [mobileMode?_eq, if_pos ((Module.mem_positions ht hd).mp hk)])
    (fun i t k d ht hd hk => by
      rw [mobileMode?_eq]
      split
      · rename_i htarget
        rintro mode ⟨⟩
        by_contra hmode
        exact hk ⟨(Module.mem_positions ht hd).mpr htarget, hmode⟩
      · exact fun _ h => nomatch h)
    (w := start.heap.itself) (h := start.heap)
  obtain ⟨w, hle, hjoined, _, hname, hforms⟩ := hcopies start.heap (hstart.joined hext)
    fun r s hr hrs => Nat.not_lt.mpr hr.1 hrs.2
  have hsame : (start.loading n bytes' path').name = (start.loading m bytes path).name := hname
  have hform : List.Forall₂ (fun t u => ∃ mode?, TypeDecl.Form False (Value.Linked w) client mode? t u)
      (start.loading m bytes path).code.types (start.loading n bytes' path').code.types :=
    hforms.imp fun _ _ htu => ⟨_, htu⟩
  have hdistinct : ((start.loading m bytes path).code.types.map (·.fullName)).Nodup :=
    m.instantiate_fullNames start.heap ▸ hvalid.distinct
  have hdistinct' : ((start.loading n bytes' path').code.types.map (·.fullName)).Nodup :=
    fullNames_eq hform ▸ hdistinct
  refine ⟨w, ?_, ?_, fun {name t} ht => ?_⟩
  · refine (hstart.similar hnew hle hjoined.toLinked).enter hsame (fun hne => absurd rfl hne) ?_
      (DispatchTable.alike_deployed id hdistinct hform)
    refine (forall₂_mem hforms).imp fun t u ⟨htu, _, hu⟩ => ⟨hsame, ?_, fun _ _ => ?_⟩
    · have hmode : (Comparison.deployment start (({ start with
          heap := ((Domain.instantiate n).run start.heap).2 } : Domain).enter (start.loading n bytes' path'))
          m.name client).mode? (start.loading m bytes path) t.flags = mobileMode? m.flags t.flags :=
        funext fun _ => funext fun _ => if_pos rfl
      rw [hmode]
      exact htu
    · show Option.filter _ _ = _
      rw [type?_enter hdistinct' hu, Option.filter_some, if_pos]
      exact decide_eq_true hname
  · rw [module?_enter]
    show (if m.name = m.name then _ else _) ≠ none
    rw [if_pos rfl]
    exact Option.some_ne_none _
  · exact (Option.filter_eq_some_iff.mp ht).1

end MobileCode
