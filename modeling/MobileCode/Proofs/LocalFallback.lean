import MobileCode.Proofs.Entries
import MobileCode.Proofs.Mobilization
import MobileCode.Proofs.Natives

/-! # Local fallback

Where no client has a call executed elsewhere, the client module of a deployment in normal mode means
what the module itself means: every call comes to the same end in a domain with the one and in a domain
with the other, or comes to no end in both.
-/
namespace MobileCode

/-! ## Domains with one module in two versions -/

/-- The domains differ in the version of one module alone: the same modules have been loaded into both
before and after it, and they hold the same objects and static fields. -/
inductive Domain.DifferIn (m n : Module Datum) : Domain → Domain → Prop
  | register {base d e : Domain} {l l' : LoadedModule} {bytes bytes' : Bytes} {path path' : Option String} :
    base.module? m.name = none → base.register m bytes path = .ok (l, d) →
    base.register n bytes' path' = .ok (l', e) → DifferIn m n d e
  | another {d e d' e' : Domain} {l l' : LoadedModule} (other : Module Datum) (bytes : Bytes)
    (path : Option String) : other.name ≠ m.name → d.register other bytes path = .ok (l, d') →
    e.register other bytes path = .ok (l', e') → DifferIn m n d e → DifferIn m n d' e'
  | put {d e : Domain} (heap : Heap) (statics : Dict (Dict Value)) : DifferIn m n d e →
    DifferIn m n { d with heap, statics } { e with heap, statics }

/-- The modules of a deployment in normal mode, compared object by object. -/
def Comparison.fallback (module client : String) (limit : Nat) : Comparison where
  module
  client
  mode? _ _ _ _ := none
  foreign _ _ _ _ _ := rfl
  deployed _ := none
  limit
  base := Eq
  exact := True

section Fallback
variable {module client : String} {limit : Nat}

theorem Domain.Similar.refl (d : Domain) :
    Domain.Similar (.fallback module client d.maxDepth) Eq d d where
  host := rfl
  digest := rfl
  limit := rfl
  sameLimit := rfl
  base := le_rfl
  heap := .refl d.heap
  modules name := by
    cases d.module? name with
    | none => exact .none
    | some l => exact .some ⟨rfl, fun _ => rfl⟩
  types := Dict.Related.refl fun _ _ => ⟨rfl, .refl fun x _ => .refl x, fun hx => absurd trivial hx⟩
  tables := Dict.Related.refl fun _ _ _ _ _ => List.forall₂_same.mpr fun _ _ =>
    ⟨rfl, List.forall₂_same.mpr fun _ _ => .refl fun x _ => .refl x⟩
  statics := Dict.Related.refl fun _ _ => Dict.Related.refl fun v _ => .refl v.2

theorem Domain.Similar.same {w : Links} {d e : Domain} (h : Domain.Similar (.fallback module client limit) w d e) :
    w = Eq := h.heap.eq_of_le h.base

/-- Domains that differ in one module are alike if its versions have the same form. -/
theorem Domain.DifferIn.alike {m n : Module Datum} (hname : n.name = m.name)
    (hforms : List.Forall₂ (TypeDecl.Form True Eq client fun _ _ => none) m.types n.types) {d e : Domain}
    (h : Domain.DifferIn m n d e) : Domain.Alike (.fallback m.name client d.maxDepth) Eq d e := by
  induction h with
  | @register base d e l l' bytes bytes' path path' hnew hd he =>
    have hbase : Domain.Similar (.fallback m.name client base.maxDepth) Eq base base := .refl base
    have hbytes : m.name ≠ m.name → bytes' = bytes := fun hne => absurd rfl hne
    obtain ⟨err, herr, _⟩ | ⟨l₁, l₁', d₁, e₁, w, hle, hd₁, he₁, hsim, hmodule, _⟩ :=
      hbase.register (n := n) hname hnew hforms (fun _ _ _ => rfl) (fun hx => absurd trivial hx) hbytes path path'
    · cases herr.symm.trans hd
    · cases hd₁.symm.trans hd
      cases he₁.symm.trans he
      cases hsim.same
      have hlimit : d.maxDepth = base.maxDepth := hsim.limit
      rw [hlimit]
      have hfound : d.module? m.name = some l := (hmodule m.name).trans (if_pos rfl)
      exact ⟨hsim, fun hnone => Option.some_ne_none l (hfound.symm.trans hnone), fun hk => nomatch hk⟩
  | @another d e d' e' l l' other bytes path hne hd he _ ih =>
    obtain ⟨err, herr, _⟩ | ⟨l₁, l₁', d₁, e₁, w, hle, hd₁, he₁, halike⟩ := ih.register hne bytes path
    · cases herr.symm.trans hd
    · cases hd₁.symm.trans hd
      cases he₁.symm.trans he
      cases halike.same
      have hlimit : d'.maxDepth = d.maxDepth := halike.limit
      rw [hlimit]
      exact halike
  | put heap statics _ ih =>
    refine (ih.withHeap le_rfl (.refl heap)).withStatics ?_
    exact Dict.Related.refl fun _ _ => Dict.Related.refl fun v _ => .refl v.2

end Fallback

/-- The client module of a deployment in normal mode has the types of the module, each in its form. -/
theorem Deployment.client_forms {boundary : Boundary} {digest : DigestAlgorithm} {m : Module Datum}
    {dependencies : List (Module Datum)} {dep : Deployment} (hvalid : m.Valid) (hwords : m.Addressable)
    (hmake : Deployment.make? boundary digest m dependencies = .ok (some dep))
    (hnormal : ∀ t ∈ m.targets, t.mobility.mode = .normal) : dep.client.name = m.name ∧
      List.Forall₂ (TypeDecl.Form True Eq boundary.clientType fun _ _ => none) m.types dep.client.types := by
  obtain ⟨hgrown, _⟩ := make?_grown hmake
  refine ⟨hgrown.name, forall₂_of_getElem? fun i => ?_⟩
  have htypes := hgrown.types i
  generalize ht : m.types[i]? = x at htypes
  generalize dep.client.types[i]? = y at htypes
  cases htypes with
  | none => exact .none
  | @some t _ h =>
    obtain ⟨main, siblings, rfl, h⟩ := h
    have hmem := List.mem_of_getElem? ht
    refine .some (h.form (hvalid.branches t hmem) (hwords t hmem) (fun k d hd hk => ?_)
      fun _ _ _ hmode => nomatch hmode)
    obtain ⟨target, htarget, hposition⟩ := List.mem_map.mp hk
    have hstands := (Module.mem_targets.mp htarget).1
    cases hposition
    cases ht.symm.trans hstands.1
    cases hd.symm.trans hstands.2
    exact hnormal target htarget

/-! ## Outcomes -/

/-- The same result or the same error, and the same objects, static fields and state outside. -/
structure SameEnd {ω : Type} (a b : Except Error Value × State ω) : Prop where
  result : Except.Tracks True Eq a.1 b.1
  heap : b.2.domain.heap = a.2.domain.heap
  statics : b.2.domain.statics = a.2.domain.statics
  outside : b.2.outside = a.2.outside

/-- Two runs with ever more budget: neither comes to an end, or both come to the same end and stay there. -/
inductive SameOutcome {ω : Type} (x y : Nat → Option (Except Error Value × State ω)) : Prop
  | diverge : (∀ n, x n = none) → (∀ n, y n = none) → SameOutcome x y
  | ends {a b : Except Error Value × State ω} : (∃ n, ∀ k, x (n + k) = some a) → (∃ n, ∀ k, y (n + k) = some b) →
    SameEnd a b → SameOutcome x y

theorem Comparison.Ends.same {ω : Type} {module client : String} {limit : Nat}
    {a b : Except Error Value × State ω} (h : (Comparison.fallback module client limit).Ends Eq a b) :
    SameEnd a b := by
  have hstatics {d e : Dict (Dict Value)} (h : Dict.Related (Dict.Related (Value.Linked Eq)) d e) : e = d :=
    (Dict.Related.eq (fun _ _ h => Dict.Related.eq (fun _ _ => Value.Linked.eq) h) h).symm
  cases h with
  | ok hle hs hv =>
    cases hs.domain.same
    exact ⟨.ok hv.eq, hs.domain.heap.eq.symm, hstatics hs.domain.statics, hs.outside⟩
  | error hle hs he =>
    cases hs.domain.same
    exact ⟨.error fun _ => he, hs.domain.heap.eq.symm, hstatics hs.domain.statics, hs.outside⟩

/-- Where no client has calls executed elsewhere, every call comes to the same outcome whether the
module or its client module is loaded. -/
theorem Deployment.client_sameOutcome {ω : Type} {boundary : Boundary} {digest : DigestAlgorithm}
    {m : Module Datum} {dependencies : List (Module Datum)} {dep : Deployment} {d e : Domain}
    {env : Environment ω} (hvalid : m.Valid) (hwords : m.Addressable)
    (hmake : Deployment.make? boundary digest m dependencies = .ok (some dep))
    (hnormal : ∀ t ∈ m.targets, t.mobility.mode = .normal) (hde : Domain.DifferIn m dep.client d e)
    (hidle : ∀ client, env.IdleFor client)
    (hhost : env.host.Impartial (.fallback m.name boundary.clientType d.maxDepth)) (call : Entry) (outside : ω) :
    SameOutcome (fun n => call.perform env n ⟨d, outside⟩) (fun n => call.perform env n ⟨e, outside⟩) := by
  obtain ⟨hname, hforms⟩ := client_forms hvalid hwords hmake hnormal
  have hs : State.Alike (.fallback m.name boundary.clientType d.maxDepth) Eq (⟨d, outside⟩ : State ω) ⟨e, outside⟩ :=
    ⟨hde.alike hname hforms, rfl⟩
  have hexact : (Comparison.fallback m.name boundary.clientType d.maxDepth).exact := trivial
  have hspares (hx : ¬(Comparison.fallback m.name boundary.clientType d.maxDepth).exact) :
      env.host.SparesSiblings := absurd hexact hx
  have hforward {n : Nat} {a : Except Error Value × State ω} (ha : call.perform env n ⟨d, outside⟩ = some a) :=
    Entry.perform_forward hhost (hidle _) hspares (.refl call) hs
      (fun _ _ _ => Machine.Throughout.of_forall (fun t => ⟨by cases t with
        | done v => trivial
        | next f below => exact .inl hexact, fun _ _ _ _ _ => hidle _⟩) n _ _) ha (.inl hexact)
  by_cases hends : ∃ n a, call.perform env n ⟨d, outside⟩ = some a
  · obtain ⟨n, a, ha⟩ := hends
    obtain ⟨n', b, hb, hab⟩ := hforward ha
    exact .ends ⟨n, Entry.perform_add hidle ha⟩ ⟨n', Entry.perform_add hidle hb⟩ hab.same
  · refine .diverge (fun n => ?_) fun n => ?_
    · exact Option.eq_none_iff_forall_ne_some.mpr fun a ha => hends ⟨n, a, ha⟩
    · refine Option.eq_none_iff_forall_ne_some.mpr fun b hb => ?_
      obtain ⟨n', a, ha, _⟩ := Entry.perform_backward hhost (hidle _) hspares hexact hidle (.refl call) hs hb
      exact hends ⟨n', a, ha⟩

/-- A method with a loop back to its first instruction. -/
def countdown : Module Datum where
  name := "Countdown"
  types := [{ space := "Ops", name := "Countdown", methods := [
    { name := constructorName, flags := MethodFlags.constructor, body := [.ret] },
    { name := "Run", flags := MethodFlags.static ||| MethodFlags.mobile,
      params := [⟨"n", TypeName.int32, none⟩], returns := some TypeName.int32,
      body := [.loadArg 0, .jumpIfFalse 7, .loadArg 0, .const (.int32 1), .binary .sub, .storeArg 0, .jump 0,
        .loadArg 0, .ret] }] }]

theorem countdown_sameOutcome : ∃ dep d e,
    Deployment.make? {} .sha1 countdown [] = .ok (some dep) ∧ Domain.DifferIn countdown dep.client d e ∧
    SameOutcome
      (fun n => (Entry.invoke ⟨⟨none, "Ops.Countdown"⟩, "Run", [TypeName.int32]⟩ none [.int32 3]).perform
        ({ host := { thread := none, natives := Native.standard none } } : Environment Unit) n ⟨d, ()⟩)
      (fun n => (Entry.invoke ⟨⟨none, "Ops.Countdown"⟩, "Run", [TypeName.int32]⟩ none [.int32 3]).perform
        ({ host := { thread := none, natives := Native.standard none } } : Environment Unit) n ⟨e, ()⟩) := by
  have hmake : ∃ dep l d l' e, Deployment.make? {} .sha1 countdown [] = .ok (some dep) ∧
      Domain.register { hostName := "client" } countdown [] none = .ok (l, d) ∧
      Domain.register { hostName := "client" } dep.client [] none = .ok (l', e) :=
    ⟨_, _, _, _, _, rfl, rfl, rfl⟩
  obtain ⟨dep, l, d, l', e, hmake, hd, he⟩ := hmake
  have hde : Domain.DifferIn countdown dep.client d e := .register rfl hd he
  have hvalid : countdown.Valid :=
    { named := by decide
      typesNamed := by decide
      distinct := by decide
      branches := by simp [countdown, BranchesInside, Instruction.target?] }
  have hwords : countdown.Addressable := by simp [Module.Addressable, countdown]
  refine ⟨dep, d, e, hmake, hde, ?_⟩
  exact Deployment.client_sameOutcome hvalid hwords hmake (by decide +kernel) hde
    (fun _ _ h => (Option.some_ne_none _ h.symm).elim) (Host.impartial_of_standard rfl rfl) _ ()

end MobileCode
