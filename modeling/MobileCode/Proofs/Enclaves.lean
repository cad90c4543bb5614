import MobileCode.Proofs.Codes
import MobileCode.Proofs.Constructions
import MobileCode.Proofs.Entries
import MobileCode.Proofs.Findings

/-! # Constructions among other objects

A constructor that completes in a domain without objects completes among whatever objects there are. It cannot reach them,
as nothing leads there, so it leaves them alone; and what it needs is there, so it loads nothing.
-/
namespace MobileCode

namespace Domain
variable {d e f : Domain} {P : String → String → Prop} {w w' : Links}

/-- The second domain has the same code. Objects and the values of static fields may be others. -/
structure SameCode (d e : Domain) : Prop where
  same : e = { d with heap := e.heap, statics := e.statics }
  stores : ∀ type, (e.statics.find? type).isSome = (d.statics.find? type).isSome

namespace SameCode

theorem refl (d : Domain) : d.SameCode d := ⟨rfl, fun _ => rfl⟩

theorem withHeap (h : d.SameCode e) (k : Heap) : d.SameCode { e with heap := k } :=
  ⟨by rw [h.same], h.stores⟩

theorem put (h : d.SameCode e) {type name : String} (hoffers : e.Offers (.static type name)) (x : Value) :
    d.SameCode (e.put x (.static type name)) where
  same := by rw [h.same, Domain.put]
  stores other := (conforms_put hoffers x).statics other |>.trans (h.stores other)

theorem type? (h : d.SameCode e) (name : String) : e.type? name = d.type? name := by rw [h.same]; rfl

theorem module? (h : d.SameCode e) (name : String) : e.module? name = d.module? name := by rw [h.same]; rfl

theorem maxDepth (h : d.SameCode e) : e.maxDepth = d.maxDepth := by rw [h.same]

theorem hostName (h : d.SameCode e) : e.hostName = d.hostName := by rw [h.same]

theorem coherent (h : d.SameCode e) (hd : d.Coherent) : e.Coherent :=
  hd.congr (by rw [h.same]) (by rw [h.same]) (by rw [h.same]) h.stores

end SameCode

/-- The values of some static fields of the first domain have linked ones in the second domain. -/
def SharesStatics (P : String → String → Prop) (w : Links) (d e : Domain) : Prop :=
  ∀ type name v, P type name → d.at? (.static type name) = some v →
    ∃ v', e.at? (.static type name) = some v' ∧ Value.Linked w v v'

namespace SharesStatics

theorem mono (hw : w ≤ w') (h : SharesStatics P w d e) : SharesStatics P w' d e := by
  intro type name v hP hv
  obtain ⟨v', hv', hlinked⟩ := h type name v hP hv
  exact ⟨v', hv', hlinked.mono hw⟩

theorem put (h : SharesStatics P w d e) {type name : String} (hd : d.Offers (.static type name))
    (he : e.Offers (.static type name)) {v v' : Value} (hv : Value.Linked w v v') :
    SharesStatics P w (d.put v (.static type name)) (e.put v' (.static type name)) := by
  intro type' name' x hP hx
  rw [at?_put hd] at hx
  rw [at?_put he]
  split at hx
  · cases hx
    exact ⟨v', if_pos ‹_›, hv⟩
  · rw [if_neg ‹_›]
    exact h type' name' x hP hx

end SharesStatics
end Domain

namespace Host
variable {ω : Type} {host : Host ω} {s t : State ω}

/-- A host with the standard native methods. -/
def standard (thread : Option String) (resolver : Option (String → Run ω (Option Bytes)) := none) : Host ω where
  thread
  natives := Native.standard thread
  resolver

/-- Without a resolver nothing is looked for elsewhere. -/
theorem resolveType_absent (hresolver : host.resolver = none) {r : TypeRef} (h : s.domain.type? r.fullName = none) :
    host.resolveType r s = some (.error (typeMissing r), s) := by
  unfold resolveType
  rw [Run.get_bind, h]
  cases r.scope with
  | none => rfl
  | some scope =>
    dsimp only
    rw [Run.get_bind]
    split
    · rfl
    · rw [Run.bind_apply, resolveModule, hresolver]
      rfl

end Host

/-! ## Two machines -/

/-- Both domains have the code of the one at the start, and the objects of a heap are still there. -/
structure Enclosed {ω : Type} (start : State ω) (base : Heap) (w : Shared) (s : State Unit) (t : State ω) : Prop where
  here : start.domain.SameCode s.domain
  there : start.domain.SameCode t.domain
  outside : t.outside = start.outside
  statics : Domain.SharesStatics (fun _ _ => True) w.links s.domain t.domain
  retained : base.Retains t.domain.heap

/-- A machine in a domain of its own, and one with a resolver in a domain of the same code. -/
def StandIn.enclave {ω : Type} (start : State ω) (base : Heap) (client : String) (thread : Option String)
    (resolver : Option (String → Run ω (Option Bytes))) : StandIn Unit ω where
  env := { host := .standard thread }
  env' := { host := .standard thread resolver }
  client
  limit := start.domain.maxDepth
  veil := fun _ _ => False
  spared := start.domain.heap
  Rest := Enclosed start base
  Paired w m m' := m' = m ∧ MethodHandle.Alike (.bare client start.domain.maxDepth) w.links m m
  Admits _ _ := True

/-- The types of the domain, and literals in them that hold no objects. -/
structure Domain.Bare (client : String) (d : Domain) : Prop extends d.Coherent where
  forms : ∀ name o, d.type? name = some o → ∀ w : Links,
    TypeDecl.Form False (Value.Linked w) client (fun _ _ => none) o.decl o.decl

section
variable {ω : Type} {start : State ω} {base : Heap} {client : String} {thread : Option String}
  {resolver : Option (String → Run ω (Option Bytes))} {w : Shared} {s : State Unit} {t : State ω}

/-- A method is run for itself. -/
theorem StandIn.enclave_paired {l : LoadedModule} {u : TypeDecl Value} {d : MethodDecl Value}
    (h : MethodDecl.Form False (Value.Linked w.links) client u none d d) :
    (StandIn.enclave start base client thread resolver).Paired w ⟨l, u, d⟩ ⟨l, u, d⟩ :=
  ⟨rfl, rfl, rfl, h.inPlace fun _ h => (nomatch h), fun h => absurd trivial h⟩

/-- What one machine has, both find. -/
theorem Domain.Bare.locates (hbare : start.domain.Bare client)
    (hs : (StandIn.enclave start base client thread resolver).Holds w s t) {r : TypeRef} {o : TypeHandle}
    (ho : s.domain.type? r.fullName = some o) :
    (StandIn.enclave start base client thread resolver).Locates (fun _ _ => none) w w s t t r o o := by
  have hstart : start.domain.type? r.fullName = some o := (hs.rest.here.type? _).symm.trans ho
  have ho' : t.domain.type? r.fullName = some o := (hs.rest.there.type? _).trans hstart
  exact ⟨le_rfl, hs, ho, (hbare.owners _ _ hstart).2.2, Host.resolveType_found ho', ho', hbare.forms _ _ hstart _⟩

/-- What follows once a type is found, if it is. -/
theorem StandIn.enclave_located {α β : Type} {R : Shared → α → β → Prop} {r : TypeRef}
    {x : TypeHandle → Run (State Unit) α} {y : Run (State ω) β} (h : ∀ o, s.domain.type? r.fullName = some o →
      Run.Echoes (StandIn.enclave start base client thread resolver).Holds R w s t
        ((StandIn.enclave start base client thread resolver).env.host.resolveType r >>= x) y) :
    Run.Echoes (StandIn.enclave start base client thread resolver).Holds R w s t
      ((StandIn.enclave start base client thread resolver).env.host.resolveType r >>= x) y := by
  cases ho : s.domain.type? r.fullName with
  | some o => exact h o ho
  | none =>
    intro a u ha
    rw [Run.bind_apply, Host.resolveType_absent rfl ho] at ha
    cases ha

theorem Domain.Bare.lawful (hbare : start.domain.Bare client) :
    (StandIn.enclave start base client thread resolver).Lawful where
  idle _ := rfl
  idle' _ := rfl
  limits hs := ⟨Nat.le_of_eq hs.here.maxDepth, hs.there.maxDepth⟩
  heap {w s t links h k} hs hle hk :=
    ⟨hs.here.withHeap h, hs.there.withHeap k, hs.outside, hs.statics.mono hle, hs.retained.trans hk⟩
  mono hle h := ⟨h.1, h.2.mono hle.1⟩
  alike h := h.1 ▸ h.2
  meets {w f m' s t i} _ hs _ _ := by
    have hclear (v : Value) : s.domain.heap.Clear (fun _ _ => False) v := fun _ _ _ h => h
    have hoffers {type : String} {o : TypeHandle} (ho : s.domain.type? type = some o) (name : String) :
        t.domain.Offers (.static type name) := by
      have hstart : start.domain.type? type = some o := (hs.rest.here.type? _).symm.trans ho
      have hstores := hbare.stores type
      rw [hstart] at hstores
      exact (hs.rest.there.stores type).trans hstores
    cases i with
    | loadField r => exact fun _ _ _ => id
    | compare op => exact fun x y _ _ => .clear (hclear x) (hclear y)
    | loadStatic r =>
      refine StandIn.enclave_located fun o ho => ?_
      exact (hbare.locates hs ho).readStatic fun _ v hv => hs.rest.statics _ _ v trivial hv
    | storeStatic r =>
      intro v v' hv
      refine StandIn.enclave_located fun o ho => ?_
      refine (hbare.locates hs ho).writeStatic (fun _ => hoffers ho _) fun hthere => ?_
      exact ⟨hs.rest.here.put hthere v, hs.rest.there.put (hoffers ho _) v', hs.rest.outside,
        hs.rest.statics.put hthere (hoffers ho _) hv, hs.rest.retained⟩
    | construct r =>
      refine StandIn.enclave_located fun o ho => ?_
      refine (hbare.locates hs ho).builtType fun d e hd _ hde he => ?_
      cases hd.symm.trans he
      exact StandIn.enclave_paired hde
    | call r =>
      constructor
      · refine Native.standard_echoes StandIn.Holds.typed (fun _ _ _ _ hs => ?_) fun _ => rfl
        exact hs.rest.there.hostName.trans hs.rest.here.hostName.symm
      · intro _
        refine StandIn.enclave_located fun o ho => ?_
        refine (hbare.locates hs ho).resolveMethod fun d e hd hde he => ?_
        cases hd.symm.trans he
        exact StandIn.enclave_paired hde
    | _ => trivial

end

/-! ## Constructions -/

/-- Where a construction starts, it starts in the same way with other objects around. -/
theorem Machine.startConstruction_ok {ω : Type} {host : Host ω} {type : String} {s u : State ω} {f : Frame}
    (h : startConstruction host type s = some (.ok f, u)) : ∃ o m,
      s.domain.type? type = some o ∧ (o.method? constructorName []).filter (·.decl.isDefaultConstructor) = some m ∧
      u = s.withHeap (s.domain.heap.alloc ⟨type, o.decl.initialFields⟩).2 ∧
      Frame.enter s.domain.maxDepth 0 m (some (s.domain.heap.alloc ⟨type, o.decl.initialFields⟩).1) []
        (some (s.domain.heap.alloc ⟨type, o.decl.initialFields⟩).1) = .ok f := by
  unfold startConstruction at h
  rw [Run.bind_apply, Host.resolveLocal_apply] at h
  cases ho : s.domain.type? type with
  | none =>
    rw [ho] at h
    cases h
  | some o =>
    rw [ho] at h
    dsimp only at h
    cases hm : (o.method? constructorName []).filter (·.decl.isDefaultConstructor) with
    | none =>
      rw [hm] at h
      cases h
    | some m =>
      rw [hm] at h
      have hstart : some (Frame.enter s.domain.maxDepth 0 m (some (s.domain.heap.alloc ⟨type, o.decl.initialFields⟩).1) []
          (some (s.domain.heap.alloc ⟨type, o.decl.initialFields⟩).1),
          s.withHeap (s.domain.heap.alloc ⟨type, o.decl.initialFields⟩).2) = some (Except.ok f, u) := h
      have hpair := Prod.mk.inj (Option.some.inj hstart)
      exact ⟨o, m, rfl, hm, hpair.2.symm, hpair.1⟩

theorem Machine.startConstruction_found {ω : Type} {host : Host ω} {type : String} {s : State ω} {o : TypeHandle}
    {m : MethodHandle} (ho : s.domain.type? type = some o)
    (hm : (o.method? constructorName []).filter (·.decl.isDefaultConstructor) = some m) {f : Frame}
    (hf : Frame.enter s.domain.maxDepth 0 m (some (s.domain.heap.alloc ⟨type, o.decl.initialFields⟩).1) []
      (some (s.domain.heap.alloc ⟨type, o.decl.initialFields⟩).1) = .ok f) : startConstruction host type s =
      some (.ok f, s.withHeap (s.domain.heap.alloc ⟨type, o.decl.initialFields⟩).2) := by
  unfold startConstruction
  rw [Run.bind_apply, Host.resolveLocal_found ho]
  dsimp only
  rw [hm]
  show some (Frame.enter _ _ _ _ _ _, _) = _
  rw [← hf]
  rfl

/-- An object is made at once if its constructor only returns. -/
theorem Host.construct_returning {ω : Type} {env : Environment ω} {type : String} {s : State ω} {o : TypeHandle}
    {d : MethodDecl Value} (ho : s.domain.type? type = some o) (hd : o.decl.method? constructorName [] = some d)
    (hdefault : d.isDefaultConstructor = true) (hvoid : d.isVoid = true) (hbody : d.body[0]? = some .ret)
    (hdepth : 0 < s.domain.maxDepth) :
    env.host.construct (Machine.runner env 1) type s = some (.ok (s.domain.heap.alloc ⟨type, o.decl.initialFields⟩).1,
      s.withHeap (s.domain.heap.alloc ⟨type, o.decl.initialFields⟩).2) := by
  have hm : (o.method? constructorName []).filter (·.decl.isDefaultConstructor) = some ⟨o.module, o.decl, d⟩ := by
    refine Option.filter_eq_some_iff.mpr ⟨?_, hdefault⟩
    rw [TypeHandle.method?, hd]
    rfl
  simp only [MethodDecl.isDefaultConstructor, Bool.and_eq_true, List.isEmpty_iff] at hdefault
  have hbound : Frame.bindArguments ⟨o.module, o.decl, d⟩ [] = .ok [] :=
    Frame.bindArguments_full _ (congrArg List.length hdefault.2).symm
  have hstart : Machine.startConstruction env.host type s = _ :=
    Machine.startConstruction_found ho hm (Frame.enter_eq_first hdepth (.inr rfl) hbound _)
  rw [Host.construct_eq hstart rfl 1, Machine.runner, Machine.run]
  dsimp only
  rw [Machine.step_ret hbody hvoid]
  rfl

/-- A run of this machine is not held back. -/
theorem Machine.behaves_true {ω : Type} (env : Environment ω) (budget : Nat) (u : Transition) (s : State ω) :
    Behaves env (fun _ _ => True) budget u s := by
  induction budget generalizing u s with
  | zero => trivial
  | succ budget ih =>
    cases u with
    | done v => trivial
    | next f below => exact ⟨trivial, fun u' s' _ => ih u' s'⟩

section
variable {ω : Type} {start : State ω} {client : String} {thread : Option String}
  {resolver : Option (String → Run ω (Option Bytes))}

/-- What a construction among other objects leaves behind: a new object of the type, and all others as they were. -/
structure State.Adds (start : State ω) (type : String) (r : Ref) (t : State ω) : Prop where
  code : start.domain.SameCode t.domain
  outside : t.outside = start.outside
  others : start.domain.heap.Extends t.domain.heap
  new : start.domain.heap.get? r = none
  made : ∃ o, t.domain.heap.get? r = some o ∧ o.type = type

/-- A constructor stands for itself. -/
theorem Domain.Bare.constructor_paired (hbare : start.domain.Bare client) {type : String} {o : TypeHandle}
    (ho : start.domain.type? type = some o) {m : MethodHandle}
    (hm : (o.method? constructorName []).filter (·.decl.isDefaultConstructor) = some m) {base : Heap} (w : Shared) :
    (StandIn.enclave start base client thread resolver).Paired w m m := by
  obtain ⟨hm, _⟩ := Option.filter_eq_some_iff.mp hm
  obtain ⟨d, hd, rfl⟩ := Option.map_eq_some_iff.mp hm
  have hfinds := (hbare.forms type o ho w.links).method? constructorName []
  rw [hd] at hfinds
  cases hfinds with
  | some hdd => exact StandIn.enclave_paired hdd

/-- A new object is the first one in the one domain, and one among others in the other domain. -/
theorem Domain.Bare.alloc_enclosed (hbare : start.domain.Bare client)
    (hstill : start.domain.SharesStatics (fun _ _ => True) (fun _ _ => False) start.domain) {type : String} {o : TypeHandle}
    (ho : start.domain.type? type = some o) : ∃ w : Shared,
      w.links (({} : Heap).alloc ⟨type, o.decl.initialFields⟩).1 (start.domain.heap.alloc ⟨type, o.decl.initialFields⟩).1 ∧
      (StandIn.enclave start (start.domain.heap.alloc ⟨type, o.decl.initialFields⟩).2 client thread resolver).Holds w
        ((⟨{ start.domain with heap := {} }, ()⟩ : State Unit).withHeap (({} : Heap).alloc ⟨type, o.decl.initialFields⟩).2)
        (start.withHeap (start.domain.heap.alloc ⟨type, o.decl.initialFields⟩).2) := by
  have hempty : Heap.Mirrors (fun _ _ => False) start.domain.heap (fun _ _ => False) {} start.domain.heap :=
    ⟨fun h => h.elim, fun h => h.elim, fun h => h.elim, fun h => h.elim, .refl _⟩
  have hobject : Object.Linked (fun _ _ => False) ⟨type, o.decl.initialFields⟩ ⟨type, o.decl.initialFields⟩ :=
    ⟨rfl, (hbare.forms type o ho _).initialValues Value.Linked.defaultFor (!·)⟩
  obtain ⟨links, hle, hnew, hheap⟩ := hempty.alloc hobject
  exact ⟨⟨links, fun _ => False⟩, hnew, hheap, ⟨rfl, fun _ => rfl⟩, ⟨rfl, fun _ => rfl⟩, rfl, hstill.mono hle, .refl _⟩

/-- A constructor that completes without other objects completes among them. -/
theorem Host.construct_enclosed (hbare : start.domain.Bare client)
    (hstill : start.domain.SharesStatics (fun _ _ => True) (fun _ _ => False) start.domain) {type : String} {n : Nat}
    {r : Ref} {u : State Unit} (halone : (standard thread).construct (Machine.runner { host := standard thread } n) type
      ⟨{ start.domain with heap := {} }, ()⟩ = some (.ok r, u)) :
    ∃ N r' t, start.Adds type r' t ∧ ∀ k, (standard thread resolver).construct
      (Machine.runner { host := standard thread resolver } (N + k)) type start = some (.ok r', t) := by
  -- the construction starts alike in both domains
  rw [construct] at halone
  obtain ⟨f, s, hstart, hrun⟩ := Run.bind_eq_ok.mp halone
  obtain ⟨o, m, ho, hm, rfl, henter⟩ := Machine.startConstruction_ok hstart
  have hfound : start.domain.type? type = some o := ho
  let base := (start.domain.heap.alloc ⟨type, o.decl.initialFields⟩).2
  let p := StandIn.enclave start base client thread resolver
  have hlawful : p.Lawful := hbare.lawful
  obtain ⟨w, hnew, hholds⟩ : ∃ w : Shared, w.links _ _ ∧ p.Holds w _ _ := hbare.alloc_enclosed hstill hfound
  obtain ⟨g, hg, hreaches⟩ := StandIn.enter_echoes hlawful (hbare.constructor_paired hfound hm w) (Nat.le_refl _) (.some hnew)
    .nil (.some hnew) .nil henter
  -- and runs alike
  obtain ⟨v, u', hv, _⟩ := Run.bind_eq_ok.mp hrun
  obtain ⟨N, v', t, w', hv', _, hend, _⟩ :=
    StandIn.resume_echoes hlawful hreaches hholds (Machine.behaves_true p.env n (.next f []) _) hv
  have hrest : Enclosed start base w' u' t := hend.rest
  have hbuilt : g.constructs = some (start.domain.heap.alloc ⟨type, o.decl.initialFields⟩).1 := by
    obtain ⟨_, _, rfl⟩ := Frame.enter_eq_ok hg
    rfl
  have hmade : base.get? (start.domain.heap.alloc ⟨type, o.decl.initialFields⟩).1 = some ⟨type, o.decl.initialFields⟩ := by
    rw [Heap.get?_alloc, if_pos rfl]
  refine ⟨N, (start.domain.heap.alloc ⟨type, o.decl.initialFields⟩).1, t,
    ⟨hrest.there, hrest.outside, hend.heap.extends_spared, ?_, ?_⟩, fun k => ?_⟩
  · exact Heap.get?_eq_none_iff.mpr (Nat.le_refl _)
  · exact Option.map_eq_some_iff.mp (hrest.retained _ _ hmade)
  · have hidle : ∀ client, p.env'.IdleFor client := by
      intro client d h
      cases h
    have hstart' : Machine.startConstruction p.env'.host type start = _ := Machine.startConstruction_found hfound hm hg
    refine (Host.construct_eq hstart' hbuilt (N + k)).trans ?_
    have hrunner : Machine.runner p.env' (N + k) g (start.withHeap base) = some (.ok v', t) := Machine.resume_add hidle hv' k
    rw [hrunner]
    rfl

end
end MobileCode
