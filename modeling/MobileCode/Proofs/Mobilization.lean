import MobileCode.Deployment
import MobileCode.Proofs.Forms
import Mathlib.Algebra.Group.Nat.Defs

/-! # The modules of a deployment

Methods are made mobile one after the other, each at its own position, and siblings are only ever added
behind all methods. So what has become of a type is known from the positions that were visited: there
stand mobile forms, all other methods are as they were, and the siblings have names of their own.
-/
namespace MobileCode
variable {α : Type}

namespace MethodDecl

/-- How a mobile method is to run. -/
def manner (d : MethodDecl α) : Mobility := d.mobility.getD {}

def callSite (client type : String) (d : MethodDecl α) : DispatchSite := d.manner.site client type d

/-- What a method becomes when it is made mobile. -/
def mobileForm [Literal α] (client type : String) (d : MethodDecl α) (closure : Closure) : MethodDecl α :=
  let mobile := (d.mobilize type (d.callSite client type)).1
  { mobile with
    flags := mobile.flags ||| MethodFlags.mobilized, mobility := some d.manner, closure := some closure }

def sibling? [Literal α] (client type : String) (d : MethodDecl α) : Option (MethodDecl α) :=
  (d.mobilize type (d.callSite client type)).2

/-- No obstacle in the method itself. -/
structure Movable (d : MethodDecl α) : Prop where
  params : d.params.length < 2 ^ 16
  static : d.manner.mode ≠ .normal → d.isStatic = true
  void : d.manner.mode ≠ .normal → d.isVoid = true

section Forms
variable [Literal α] {client type : String} {d s : MethodDecl α}

theorem mobilize_normal (h : d.manner.mode = .normal) : d.mobilize type (d.callSite client type) =
    ({ d with body := inFrontOf ((d.callSite client type).normalFront d.isVoid) d.body }, none) := by
  have hmode : (d.callSite client type).mode = .normal := h
  simp only [mobilize, hmode]

theorem mobilize_moved (h : d.manner.mode ≠ .normal) : d.mobilize type (d.callSite client type) =
    ({ d with
      body := d.stubBody type (d.relaySibling (d.callSite client type))
      locals := 0
      relayBody := some (relayBodyName d.name) }, some (d.relaySibling (d.callSite client type))) := by
  have hmode : (d.callSite client type).mode ≠ .normal := h
  simp only [mobilize]
  rfl

theorem sibling?_eq_some (h : d.sibling? client type = some s) :
    d.manner.mode ≠ .normal ∧ s = d.relaySibling (d.callSite client type) := by
  by_cases hn : d.manner.mode = .normal
  · rw [sibling?, mobilize_normal hn] at h
    cases h
  · rw [sibling?, mobilize_moved hn] at h
    exact ⟨hn, (Option.some.inj h).symm⟩

@[simp] theorem mobileForm_name (closure : Closure) : (d.mobileForm client type closure).name = d.name := by
  by_cases hn : d.manner.mode = .normal
  · rw [mobileForm, mobilize_normal hn]
  · rw [mobileForm, mobilize_moved hn]

end Forms

/-- The same method, with or without the mark that its calls go to a sibling; in normal mode it gets none. -/
def Marks (d e : MethodDecl α) : Prop :=
  e = d ∨ d.manner.mode ≠ .normal ∧ e = { d with flags := d.flags ||| MethodFlags.relayEntry }

end MethodDecl

namespace TypeDecl
variable [Literal α] {client : String} {P : Nat → Prop} {t u : TypeDecl α} {main siblings : List (MethodDecl α)}

/-- The methods of a type in their mobile forms where `P` holds, marked or not, and the siblings of these. -/
structure Grown (client : String) (P : Nat → Prop) (t : TypeDecl α) (main siblings : List (MethodDecl α)) :
    Prop where
  length : main.length = t.methods.length
  kept : ∀ {k d}, t.methods[k]? = some d → ¬P k → main[k]? = some d
  moved : ∀ {k d}, t.methods[k]? = some d → P k →
    d.Movable ∧ ∃ closure e, main[k]? = some e ∧ (d.mobileForm client t.fullName closure).Marks e
  sibling : ∀ {k d s}, t.methods[k]? = some d → P k → d.sibling? client t.fullName = some s → s ∈ siblings
  origin : ∀ s ∈ siblings, ∃ k d, t.methods[k]? = some d ∧ P k ∧ d.sibling? client t.fullName = some s
  single : ∀ {k d s k' d' s'}, t.methods[k]? = some d → P k → d.sibling? client t.fullName = some s →
    t.methods[k']? = some d' → P k' → d'.sibling? client t.fullName = some s' → s'.name = s.name → k' = k
  distinct : (siblings.map (·.name)).Nodup
  new : ∀ s ∈ siblings, ∀ d ∈ t.methods, s.name ≠ d.name

theorem Grown.start (t : TypeDecl α) : Grown client (fun _ => False) t t.methods [] where
  length := rfl
  kept hd _ := hd
  moved _ h := h.elim
  sibling _ h := h.elim
  origin _ h := absurd h List.not_mem_nil
  single _ h := h.elim
  distinct := List.nodup_nil
  new _ h := absurd h List.not_mem_nil

theorem Grown.congr (h : Grown client P t main siblings) {Q : Nat → Prop} (hPQ : ∀ k, P k ↔ Q k) :
    Grown client Q t main siblings := by
  have hQ : P = Q := funext fun k => propext (hPQ k)
  exact hQ ▸ h

/-- Methods keep their names. -/
theorem Grown.name (h : Grown client P t main siblings) {k : Nat} {d : MethodDecl α}
    (hd : t.methods[k]? = some d) : ∃ e, main[k]? = some e ∧ e.name = d.name := by
  by_cases hk : P k
  · obtain ⟨_, closure, e, he, rfl | ⟨_, rfl⟩⟩ := h.moved hd hk
    · exact ⟨_, he, MethodDecl.mobileForm_name closure⟩
    · exact ⟨_, he, MethodDecl.mobileForm_name closure⟩
  · exact ⟨d, h.kept hd hk, rfl⟩

omit [Literal α] in
theorem obstacle?_eq_none_iff {a : Mobility} {d : MethodDecl α} : a.obstacle? u d = none ↔
    d.flags.has MethodFlags.mobilized = false ∧ u.defaultConstructor?.isSome = true ∧ d.params.length < 2 ^ 16 ∧
      (a.mode ≠ .normal → d.isStatic = true ∧ d.isVoid = true ∧ ∀ e ∈ u.methods, e.name ≠ relayBodyName d.name) := by
  have hfree : (u.methodsNamed (relayBodyName d.name)).isEmpty = true ↔
      ∀ e ∈ u.methods, e.name ≠ relayBodyName d.name := by
    simp [TypeDecl.methodsNamed]
  have hparams : ¬UInt16.size ≤ d.params.length ↔ d.params.length < 2 ^ 16 := Nat.not_le
  have hdefault : ¬u.defaultConstructor?.isNone = true ↔ u.defaultConstructor?.isSome = true := by
    cases u.defaultConstructor? <;> simp
  rw [← hfree, ← hparams, ← hdefault]
  simp only [Mobility.obstacle?, ite_eq_iff, reduceCtorEq, and_false, false_or]
  by_cases hmode : a.mode = .normal <;> simp [hmode]

omit [Literal α] in
theorem movable_of_obstacle?_eq_none {d : MethodDecl α} (h : d.manner.obstacle? u d = none) :
    d.Movable ∧ (d.manner.mode ≠ .normal → ∀ e ∈ u.methods, e.name ≠ relayBodyName d.name) := by
  obtain ⟨_, _, hparams, hmoved⟩ := obstacle?_eq_none_iff.mp h
  exact ⟨⟨hparams, fun hm => (hmoved hm).1, fun hm => (hmoved hm).2.1⟩, fun hm => (hmoved hm).2.2⟩

/-- Making one more method mobile. -/
theorem Grown.mobilize (h : Grown client P t main siblings) {k : Nat} {d : MethodDecl α}
    (hd : t.methods[k]? = some d) (hk : ¬P k) {module : String} {closure : Closure} {done : Mobilized}
    (hu : TypeDecl.mobilize { t with methods := main ++ siblings } client module k d.manner closure =
      .ok (done, u)) : ∃ main' siblings', u = { t with methods := main' ++ siblings' } ∧
        Grown client (fun j => j = k ∨ P j) t main' siblings' := by
  have hlt : k < main.length := h.length ▸ (List.getElem?_eq_some_iff.mp hd).1
  unfold TypeDecl.mobilize at hu
  simp only [List.getElem?_append_left hlt, h.kept hd hk] at hu
  cases hobs : d.manner.obstacle? { t with methods := main ++ siblings } d with
  | some o => simp [Mobility.check, hobs, bind, Except.bind] at hu
  | none =>
  obtain ⟨hmovable, hfree⟩ := movable_of_obstacle?_eq_none hobs
  simp only [Mobility.check, hobs, bind, Except.bind, pure, Except.pure, Except.ok.injEq, Prod.mk.injEq,
    List.set_append_left _ _ hlt, List.append_assoc] at hu
  refine ⟨main.set k (d.mobileForm client t.fullName closure), siblings ++ (d.sibling? client t.fullName).toList,
    hu.2.symm, ?_⟩
  have hnew : ∀ s, d.sibling? client t.fullName = some s → ∀ e ∈ main ++ siblings, e.name ≠ s.name := by
    intro s hs e he
    obtain ⟨hmode, rfl⟩ := MethodDecl.sibling?_eq_some hs
    exact hfree hmode e he
  exact {
    length := by rw [List.length_set, h.length]
    kept := fun {j e} he hj => by
      rw [not_or] at hj
      rw [List.getElem?_set_ne (Ne.symm hj.1)]
      exact h.kept he hj.2
    moved := fun {j e} he hj => by
      by_cases hjk : j = k
      · subst hjk
        cases hd.symm.trans he
        exact ⟨hmovable, closure, _, List.getElem?_set_self hlt, .inl rfl⟩
      · rw [List.getElem?_set_ne (Ne.symm hjk)]
        exact h.moved he (hj.resolve_left hjk)
    sibling := fun {j e s} he hj hs => by
      by_cases hjk : j = k
      · subst hjk
        cases hd.symm.trans he
        exact List.mem_append_right _ (Option.mem_toList.mpr hs)
      · exact List.mem_append_left _ (h.sibling he (hj.resolve_left hjk) hs)
    origin := fun s hs => by
      obtain hs | hs := List.mem_append.mp hs
      · obtain ⟨j, e, he, hj, hse⟩ := h.origin s hs
        exact ⟨j, e, he, .inr hj, hse⟩
      · exact ⟨k, d, hd, .inl rfl, Option.mem_toList.mp hs⟩
    single := fun {j e s j' e' s'} he hj hs he' hj' hs' hname => by
      by_cases hjk : j = k
      · by_cases hjk' : j' = k
        · rw [hjk, hjk']
        · subst hjk
          cases hd.symm.trans he
          have hmem := h.sibling he' (hj'.resolve_left hjk') hs'
          exact absurd hname (hnew s hs s' (List.mem_append_right _ hmem))
      · by_cases hjk' : j' = k
        · subst hjk'
          cases hd.symm.trans he'
          have hmem := h.sibling he (hj.resolve_left hjk) hs
          exact absurd hname.symm (hnew s' hs' s (List.mem_append_right _ hmem))
        · exact h.single he (hj.resolve_left hjk) hs he' (hj'.resolve_left hjk') hs' hname
    distinct := by
      cases hs : d.sibling? client t.fullName with
      | none => simpa using h.distinct
      | some s =>
        rw [Option.toList_some, List.map_append, List.map_singleton, List.nodup_append]
        refine ⟨h.distinct, List.pairwise_singleton _ _, fun name hmem name' hname' he => ?_⟩
        obtain ⟨e, hemem, rfl⟩ := List.mem_map.mp hmem
        exact hnew s hs e (List.mem_append_right _ hemem) (he.trans (List.mem_singleton.mp hname'))
    new := fun s hs e he hname => by
      obtain hs | hs := List.mem_append.mp hs
      · exact h.new s hs e he hname
      · obtain ⟨j, hj⟩ := List.mem_iff_getElem?.mp he
        obtain ⟨e', he', hname'⟩ := h.name hj
        exact hnew s (Option.mem_toList.mp hs) e' (List.mem_append_left _ (List.mem_of_getElem? he'))
          (hname'.trans hname.symm) }

/-- Marking one of the mobile methods. -/
theorem Grown.mark (h : Grown client P t main siblings) {k : Nat} (hk : P k)
    (hmode : ∀ d, t.methods[k]? = some d → d.manner.mode ≠ .normal) :
    Grown client P t (main.modify k fun d => { d with flags := d.flags ||| MethodFlags.relayEntry }) siblings :=
  { h with
    length := by rw [List.length_modify, h.length]
    kept := fun {j d} hd hj => by
      have hne : k ≠ j := fun he => hj (he ▸ hk)
      rw [List.getElem?_modify_ne _ _ hne]
      exact h.kept hd hj
    moved := fun {j d} hd hj => by
      obtain ⟨hmovable, closure, e, he, hmark⟩ := h.moved hd hj
      refine ⟨hmovable, closure, ?_⟩
      by_cases hjk : k = j
      · subst hjk
        refine ⟨_, (List.getElem?_modify_eq _ _ _).trans (congrArg _ he), .inr ⟨hmode d hd, ?_⟩⟩
        obtain rfl | ⟨_, rfl⟩ := hmark
        · rfl
        · have hsame (f : MethodFlags) : f ||| MethodFlags.relayEntry ||| MethodFlags.relayEntry =
              f ||| MethodFlags.relayEntry := by
            show Flags.mk (f.bits ||| _ ||| _) = Flags.mk (f.bits ||| _)
            rw [UInt32.or_assoc, UInt32.or_self]
          simp only [hsame]
      · exact ⟨e, by rw [List.getElem?_modify_ne _ _ hjk, he], hmark⟩ }

end TypeDecl

/-! ## Targets -/

/-- Where a target stands. -/
def Target.position (t : Target α) : Nat × Nat := (t.typeIndex, t.methodIndex)

/-- A target is one of the methods of the module. -/
def Target.StandsIn (m : Module α) (t : Target α) : Prop :=
  m.types[t.typeIndex]? = some t.type ∧ t.type.methods[t.methodIndex]? = some t.method

/-- A method that is to be made mobile. -/
def Module.isTarget (m : Module α) (t : TypeDecl α) (d : MethodDecl α) : Bool :=
  m.isMobile t d && !d.flags.has MethodFlags.mobilized

/-- The mode in which a method with these flags and this mark is to be made mobile, in a type and a module
with those flags. -/
def mobileMode? (m : ModuleFlags) (t : TypeFlags) (d : MethodFlags) (mark : Option Mobility) : Option Mode :=
  if !d.meets MethodFlags.unmovable && (mark.isSome || d.has MethodFlags.mobile || t.has TypeFlags.mobile ||
      m.has ModuleFlags.mobile) && !d.has MethodFlags.mobilized then some (mark.getD {}).mode
  else none

theorem mobileMode?_eq (m : Module α) (t : TypeDecl α) (d : MethodDecl α) :
    mobileMode? m.flags t.flags d.flags d.mobility = if m.isTarget t d then some d.manner.mode else none := rfl

namespace Module
variable {m : Module α}

theorem mem_targets {t : Target α} :
    t ∈ m.targets ↔ t.StandsIn m ∧ m.isTarget t.type t.method = true := by
  simp only [targets, List.mem_flatMap, List.mem_filterMap, List.mem_zipIdx_iff_getElem?, Prod.exists,
    Target.StandsIn, Module.isTarget]
  constructor
  · rintro ⟨type, i, hi, d, k, hk, h⟩
    split at h
    · cases h
      exact ⟨⟨hi, hk⟩, ‹_›⟩
    · cases h
  · rintro ⟨⟨hi, hk⟩, h⟩
    exact ⟨t.type, t.typeIndex, hi, t.method, t.methodIndex, hk, if_pos h⟩

theorem mem_positions {i k : Nat} {t : TypeDecl α} {d : MethodDecl α} (ht : m.types[i]? = some t)
    (hd : t.methods[k]? = some d) : (i, k) ∈ m.targets.map Target.position ↔ m.isTarget t d = true := by
  constructor
  · intro hmem
    obtain ⟨target, htarget, hposition⟩ := List.mem_map.mp hmem
    obtain ⟨hstands, htrue⟩ := mem_targets.mp htarget
    cases hposition
    cases ht.symm.trans hstands.1
    cases hd.symm.trans hstands.2
    exact htrue
  · intro htrue
    exact List.mem_map.mpr ⟨⟨i, k, t, d⟩, mem_targets.mpr ⟨⟨ht, hd⟩, htrue⟩, rfl⟩

theorem pairwise_zipIdx {β : Type} (xs : List β) : xs.zipIdx.Pairwise fun a b => a.2 ≠ b.2 := by
  have h : (xs.zipIdx.map Prod.snd).Nodup := by
    rw [List.zipIdx_map_snd]
    exact List.nodup_range'
  exact List.pairwise_map.mp h

/-- No position is visited twice. -/
theorem nodup_targets (m : Module α) : (m.targets.map Target.position).Nodup := by
  refine List.pairwise_map.mpr ?_
  unfold targets
  refine List.pairwise_flatMap.mpr ⟨fun a _ => ?_, (pairwise_zipIdx m.types).imp fun {a b} hab => ?_⟩
  · refine List.pairwise_filterMap.mpr ((pairwise_zipIdx a.1.methods).imp fun {p q} hpq t ht u hu => ?_)
    simp only at ht hu
    split at ht <;> cases ht
    split at hu <;> cases hu
    exact fun h => hpq (Prod.mk.inj h).2
  · intro t ht u hu h
    simp only [List.mem_filterMap] at ht hu
    obtain ⟨_, _, ht⟩ := ht
    obtain ⟨_, _, hu⟩ := hu
    split at ht <;> cases ht
    split at hu <;> cases hu
    exact hab (Prod.mk.inj h).1

end Module

/-! ## Modules -/

/-- A module in which the methods at the positions of `D` have been made mobile. -/
structure Module.Grown [Literal α] (client : String) (D : Nat → Nat → Prop) (m n : Module α) : Prop where
  name : n.name = m.name
  types : ∀ i, Option.Rel (fun t u => ∃ main siblings, u = { t with methods := main ++ siblings } ∧
    TypeDecl.Grown client (D i) t main siblings) m.types[i]? n.types[i]?

theorem modify_append_left {β : Type} {f : β → β} (xs ys : List β) {k : Nat} (h : k < xs.length) :
    (xs ++ ys).modify k f = xs.modify k f ++ ys := by
  induction xs generalizing k with
  | nil => cases h
  | cons x xs ih =>
    cases k with
    | zero => rfl
    | succ k => exact congrArg (x :: ·) (ih (Nat.lt_of_succ_lt_succ h))

namespace Module.Grown
variable [Literal α] {client : String} {D : Nat → Nat → Prop} {m n : Module α}

theorem start (m : Module α) : Grown client (fun _ _ => False) m m where
  name := rfl
  types i := by
    cases m.types[i]? with
    | none => exact .none
    | some t => exact .some ⟨t.methods, [], by rw [List.append_nil], .start t⟩

theorem congr (h : Grown client D m n) {E : Nat → Nat → Prop} (hDE : ∀ i k, D i k ↔ E i k) :
    Grown client E m n := by
  have hE : D = E := funext fun i => funext fun k => propext (hDE i k)
  exact hE ▸ h

theorem mobilize (h : Grown client D m n) {t : Target α} (ht : t.StandsIn m)
    (hnew : ¬D t.typeIndex t.methodIndex) {closure : Closure} {done : Mobilized} {n' : Module α}
    (hn : t.mobilize client closure n = .ok (done, n')) :
    Grown client (fun i k => (i, k) = t.position ∨ D i k) m n' := by
  have htypes := h.types t.typeIndex
  rw [ht.1] at htypes
  unfold Target.mobilize at hn
  generalize hu : n.types[t.typeIndex]? = x at htypes hn
  cases htypes with
  | some hgrown =>
  obtain ⟨main, siblings, rfl, hgrown⟩ := hgrown
  have hlt := (List.getElem?_eq_some_iff.mp hu).1
  cases hr : TypeDecl.mobilize { t.type with methods := main ++ siblings } client n.name t.methodIndex
      t.mobility closure with
  | error e => simp [hr, bind, Except.bind] at hn
  | ok r =>
  obtain ⟨done', u⟩ := r
  simp only [hr, bind, Except.bind, pure, Except.pure, Except.ok.injEq, Prod.mk.injEq] at hn
  obtain ⟨main', siblings', rfl, hgrown'⟩ := hgrown.mobilize ht.2 hnew hr
  rw [← hn.2]
  refine ⟨h.name, fun i => ?_⟩
  by_cases hi : i = t.typeIndex
  · subst hi
    rw [ht.1, List.getElem?_set_self hlt]
    refine .some ⟨main', siblings', rfl, hgrown'.congr fun k => or_congr ?_ Iff.rfl⟩
    exact ⟨fun hk => by rw [hk]; rfl, fun hk => (Prod.mk.inj hk).2⟩
  · rw [List.getElem?_set_ne (Ne.symm hi)]
    have hother := h.types i
    generalize m.types[i]? = x at hother
    generalize n.types[i]? = y at hother
    cases hother with
    | none => exact .none
    | some hgrown =>
      obtain ⟨main, siblings, rfl, hgrown⟩ := hgrown
      refine .some ⟨main, siblings, rfl, hgrown.congr fun k => ?_⟩
      exact ⟨.inr, fun hk => hk.resolve_left fun he => hi (Prod.mk.inj he).1⟩

theorem mark (h : Grown client D m n) {t : Target α} (ht : t.StandsIn m) (hD : D t.typeIndex t.methodIndex)
    (hmode : t.mobility.mode ≠ .normal) : Grown client D m (n.markRelayEntry t) where
  name := h.name
  types i := by
    have htypes := h.types i
    unfold Module.markRelayEntry
    by_cases hi : t.typeIndex = i
    · subst hi
      rw [List.getElem?_modify_eq]
      rw [ht.1] at htypes ⊢
      generalize n.types[t.typeIndex]? = y at htypes ⊢
      cases htypes with
      | some hgrown =>
      obtain ⟨main, siblings, rfl, hgrown⟩ := hgrown
      have hlt : t.methodIndex < main.length := hgrown.length ▸ (List.getElem?_eq_some_iff.mp ht.2).1
      refine .some ⟨_, siblings, ?_, hgrown.mark hD fun d hd => Option.some.inj (ht.2.symm.trans hd) ▸ hmode⟩
      simp only [modify_append_left _ _ hlt]
    · rw [List.getElem?_modify_ne _ _ hi]
      exact htypes

theorem fullNames (h : Grown client D m n) : n.types.map (·.fullName) = m.types.map (·.fullName) := by
  refine List.ext_getElem? fun i => ?_
  have hrel := h.types i
  rw [List.getElem?_map, List.getElem?_map]
  generalize m.types[i]? = x at hrel
  generalize n.types[i]? = y at hrel
  cases hrel with
  | none => rfl
  | some hgrown =>
    obtain ⟨main, siblings, rfl, _⟩ := hgrown
    rfl

end Module.Grown

namespace Deployment
variable {client : String} {m n n' : Module Datum}

theorem mobilizeAll_grown {ts : List (Target Datum × Closure)} (hts : ∀ p ∈ ts, p.1.StandsIn m)
    {D : Nat → Nat → Prop} (hnew : ∀ p ∈ ts, ¬D p.1.typeIndex p.1.methodIndex)
    (hnodup : (ts.map (·.1.position)).Nodup) (h : m.Grown client D n) {done : List Mobilized}
    (hr : mobilizeAll client ts n = .ok (done, n')) :
    m.Grown client (fun i k => (i, k) ∈ ts.map (·.1.position) ∨ D i k) n' := by
  induction ts generalizing n D done n' with
  | nil =>
    cases hr
    exact h.congr fun i k => by simp
  | cons p ts ih =>
    obtain ⟨t, closure⟩ := p
    rw [List.map_cons, List.nodup_cons] at hnodup
    simp only [mobilizeAll] at hr
    cases ht : t.mobilize client closure n with
    | error e => simp [ht, bind, Except.bind] at hr
    | ok r =>
    obtain ⟨one, n₁⟩ := r
    simp only [ht, bind, Except.bind] at hr
    cases hrest : mobilizeAll client ts n₁ with
    | error e => simp [hrest] at hr
    | ok r =>
    obtain ⟨others, n₂⟩ := r
    simp only [hrest, pure, Except.pure, Except.ok.injEq, Prod.mk.injEq] at hr
    rw [← hr.2]
    have hgrown := h.mobilize (hts _ List.mem_cons_self) (hnew _ List.mem_cons_self) ht
    have hrest' := ih (fun p hp => hts p (List.mem_cons_of_mem _ hp)) (fun p hp hD => ?_) hnodup.2 hgrown hrest
    · refine hrest'.congr fun i k => ?_
      rw [List.map_cons, List.mem_cons, or_assoc, or_left_comm]
    · obtain he | hD := hD
      · exact hnodup.1 (he ▸ List.mem_map_of_mem hp)
      · exact hnew p (List.mem_cons_of_mem _ hp) hD

theorem carryAll_types {dependencies : List (Module Datum)} {names : List String}
    (h : carryAll dependencies names n = .ok n') : n'.name = n.name ∧ n'.types = n.types := by
  induction names generalizing n with
  | nil =>
    cases h
    exact ⟨rfl, rfl⟩
  | cons name names ih =>
    unfold carryAll at h
    split at h
    · cases h
    · have hrest := ih h
      exact hrest

theorem length_mapM {β γ : Type} {f : β → Except Error γ} {xs : List β} {ys : List γ}
    (h : xs.mapM f = .ok ys) : ys.length = xs.length := by
  induction xs generalizing ys with
  | nil =>
    cases h
    rfl
  | cons x xs ih =>
    rw [List.mapM_cons] at h
    simp only [bind, Except.bind, pure, Except.pure] at h
    split at h
    · cases h
    split at h
    · cases h
    rename_i hrest
    cases h
    rw [List.length_cons, List.length_cons, ih hrest]

/-- The steps by which a deployment is made. -/
theorem make?_eq_ok {boundary : Boundary} {digest : DigestAlgorithm} {dependencies : List (Module Datum)}
    {dep : Deployment} (h : make? boundary digest m dependencies = .ok (some dep)) : ∃ closures made,
      (m.targets.mapM fun t => (ModuleSet.ofList m dependencies).discover boundary t.type.fullName t.method) =
        .ok closures ∧
      mobilizeAll boundary.clientType (m.targets.zip closures) m = .ok (dep.methods, made) ∧
      dep.bundle = closures.foldl (fun names c => KeySet.union names c.modules) [] ∧
      carryAll dependencies dep.bundle made = .ok dep.client ∧
      dep.server = serverModule digest dep.client (m.targets.filter (·.mobility.mode ≠ .normal)) := by
  unfold make? at h
  simp only [bind, Except.bind, pure, Except.pure] at h
  split at h
  · cases h
  split at h
  · cases h
  split at h
  · cases h
  rename_i _ closures hclosures
  split at h
  · cases h
  rename_i _ made hmade
  split at h
  · cases h
  rename_i _ carried hcarried
  cases h
  exact ⟨closures, made.2, hclosures, hmade, rfl, hcarried, rfl⟩

theorem map_position_zip {closures : List Closure} (h : closures.length = m.targets.length) :
    (m.targets.zip closures).map (·.1.position) = m.targets.map Target.position := by
  have hzip : (m.targets.zip closures).map Prod.fst = m.targets := List.map_fst_zip (Nat.le_of_eq h.symm)
  rw [← hzip, List.map_map, hzip]
  rfl

/-- The client module of a deployment has all its targets in their mobile forms. -/
theorem make?_grown {boundary : Boundary} {digest : DigestAlgorithm} {dependencies : List (Module Datum)}
    {dep : Deployment} (h : make? boundary digest m dependencies = .ok (some dep)) :
    m.Grown boundary.clientType (fun i k => (i, k) ∈ m.targets.map Target.position) dep.client ∧
      dep.server = serverModule digest dep.client (m.targets.filter (·.mobility.mode ≠ .normal)) := by
  obtain ⟨closures, made, hclosures, hmade, _, hcarried, hserver⟩ := make?_eq_ok h
  refine ⟨?_, hserver⟩
  have hfst := map_position_zip (length_mapM hclosures)
  have hgrown := mobilizeAll_grown (m := m)
    (fun p hp => (Module.mem_targets.mp (List.of_mem_zip hp).1).1) (fun _ _ h => h)
    (hfst ▸ Module.nodup_targets m) (.start m) hmade
  obtain ⟨hname, htypes⟩ := carryAll_types hcarried
  refine ⟨hname.trans hgrown.name, fun i => ?_⟩
  have hi := hgrown.types i
  simp only [hfst, or_false] at hi
  rw [htypes]
  exact hi

/-- The methods of a server module are those of the client module, marked where calls go to a sibling. -/
theorem serverModule_grown {digest : DigestAlgorithm} {D : Nat → Nat → Prop} (h : m.Grown client D n)
    {relayed : List (Target Datum)} (hstands : ∀ t ∈ relayed, (t.StandsIn m ∧ D t.typeIndex t.methodIndex) ∧
      t.mobility.mode ≠ .normal) :
    m.Grown client D (serverModule digest n relayed) := by
  unfold serverModule
  have hstart : m.Grown client D { n with pairedHash := some (digest.digest n.toFile) } := ⟨h.name, h.types⟩
  generalize ({ n with pairedHash := some (digest.digest n.toFile) } : Module Datum) = n' at hstart ⊢
  clear h
  induction relayed generalizing n' with
  | nil => exact hstart
  | cons t ts ih =>
    obtain ⟨⟨ht, hD⟩, hmode⟩ := hstands t List.mem_cons_self
    exact ih (fun u hu => hstands u (List.mem_cons_of_mem t hu)) _ (hstart.mark ht hD hmode)

end Deployment

/-! ## Forms -/

/-- Every position in a body, and a few more, is a machine word. -/
def Module.Addressable (m : Module α) : Prop := ∀ t ∈ m.types, ∀ d ∈ t.methods, d.body.length < 2 ^ 63

theorem Instruction.moved_shift {i : Instruction α} {k : Nat}
    (h : ∀ t, i.target? = some t → t.toNat + k < 2 ^ 64) : i.Moved Eq k (i.shift (UInt64.ofNat k)) := by
  have hsum (t : UInt64) (ht : t.toNat + k < 2 ^ 64) : (t + UInt64.ofNat k).toNat = t.toNat + k := by
    have hk : k < 2 ^ 64 := Nat.lt_of_le_of_lt (Nat.le_add_left _ _) ht
    rw [UInt64.toNat_add, UInt64.toNat_ofNat', Nat.mod_eq_of_lt hk, Nat.mod_eq_of_lt ht]
  cases i with
  | const x => exact ⟨x, rfl, rfl⟩
  | jump t => exact ⟨_, rfl, hsum t (h t rfl)⟩
  | jumpIfTrue t => exact ⟨_, rfl, hsum t (h t rfl)⟩
  | jumpIfFalse t => exact ⟨_, rfl, hsum t (h t rfl)⟩
  | _ => exact rfl

/-- In front of a body whose branches stay inside. -/
theorem behind_inFrontOf {front body : List (Instruction α)} (hinside : BranchesInside body)
    (hlength : body.length + front.length ≤ 2 ^ 64) : Behind Eq front body (inFrontOf front body) := by
  refine ⟨_, rfl, List.forall₂_map_right_iff.mpr (List.forall₂_same.mpr fun i hi => ?_)⟩
  refine Instruction.moved_shift fun t ht => ?_
  have hlt := hinside i hi t ht
  omega

theorem Flags.union_and {names : FlagNames} {g k : Flags names} (h : g.bits &&& k.bits = 0) (f : Flags names) :
    (f ||| g).bits &&& k.bits = f.bits &&& k.bits := by
  show (f.bits ||| g.bits) &&& k.bits = _
  have hdistrib : (f.bits ||| g.bits) &&& k.bits = f.bits &&& k.bits ||| g.bits &&& k.bits :=
    UInt32.toBitVec_inj.mp BitVec.and_or_distrib_right
  rw [hdistrib, h, UInt32.or_zero]

theorem Flags.has_union {names : FlagNames} {g k : Flags names} (h : g.bits &&& k.bits = 0) (f : Flags names) :
    (f ||| g).has k = f.has k := by
  rw [Flags.has, Flags.has, union_and h]

theorem Flags.meets_union {names : FlagNames} {g k : Flags names} (h : g.bits &&& k.bits = 0) (f : Flags names) :
    (f ||| g).meets k = f.meets k := by
  rw [Flags.meets, Flags.meets, union_and h]

theorem Flags.has_union_self {names : FlagNames} (f g : Flags names) : (f ||| g).has g = true := by
  have hbits : (f.bits ||| g.bits) &&& g.bits = g.bits := by
    refine UInt32.toBitVec_inj.mp (BitVec.eq_of_getElem_eq fun i _ => ?_)
    simpa using Or.inr
  exact decide_eq_true hbits

theorem Flags.has_without {names : FlagNames} {g k : Flags names} (h : ~~~g.bits &&& k.bits = k.bits)
    (f : Flags names) : (f.without g).has k = f.has k := by
  have hbits : (f.without g).bits &&& k.bits = f.bits &&& k.bits := by
    show (f.bits &&& ~~~g.bits) &&& k.bits = _
    rw [UInt32.and_assoc, h]
  rw [Flags.has, Flags.has, hbits]

theorem DispatchSite.length_normalFront_le (site : DispatchSite) (isVoid : Bool) :
    (site.normalFront isVoid : List (Instruction α)).length ≤ 6 := by
  cases isVoid
  · exact Nat.le_add_right 4 2
  · exact Nat.le_succ 5

theorem DispatchSite.length_relayFront_le (site : DispatchSite) :
    (site.relayFront : List (Instruction α)).length ≤ 6 := by
  unfold relayFront
  split
  · exact Nat.le_succ 5
  · exact Nat.le_refl 6

theorem MethodDecl.callSite_count {client type : String} {d : MethodDecl α} (h : d.Movable) :
    (d.callSite client type).paramCount.toNat = d.params.length :=
  UInt16.toNat_ofNat_of_lt h.params

namespace MethodDecl
variable [Literal α] {client type : String} {d : MethodDecl α}

theorem mobileForm_normal (h : d.manner.mode = .normal) (closure : Closure) :
    d.mobileForm client type closure = { d with
      body := inFrontOf ((d.callSite client type).normalFront d.isVoid) d.body
      flags := d.flags ||| MethodFlags.mobilized, mobility := some d.manner, closure := some closure } := by
  rw [mobileForm, mobilize_normal h]

theorem mobileForm_moved (h : d.manner.mode ≠ .normal) (closure : Closure) :
    d.mobileForm client type closure = { d with
      body := d.stubBody type (d.relaySibling (d.callSite client type))
      locals := 0
      relayBody := some (relayBodyName d.name)
      flags := d.flags ||| MethodFlags.mobilized, mobility := some d.manner, closure := some closure } := by
  rw [mobileForm, mobilize_moved h]

/-- To its callers a method is the same in its mobile form. -/
theorem mobileForm_alike (client type : String) (d : MethodDecl α) (closure : Closure) :
    d.Alike Eq (d.mobileForm client type closure) := by
  have hstatic : (d.flags ||| MethodFlags.mobilized).has MethodFlags.static = d.isStatic :=
    Flags.has_union (by decide) d.flags
  have hconstructor : (d.flags ||| MethodFlags.mobilized).has MethodFlags.constructor =
      d.flags.has MethodFlags.constructor := Flags.has_union (by decide) d.flags
  have hparams : List.Forall₂ (ParamDecl.Alike Eq) d.params d.params :=
    List.forall₂_same.mpr fun _ _ => .refl fun _ _ => rfl
  by_cases hn : d.manner.mode = .normal
  · rw [mobileForm_normal hn]
    exact ⟨rfl, hparams, rfl, hstatic, hconstructor⟩
  · rw [mobileForm_moved hn]
    exact ⟨rfl, hparams, rfl, hstatic, hconstructor⟩

theorem relaySibling_isStatic (site : DispatchSite) : (d.relaySibling site).isStatic = d.isStatic := by
  show ((d.flags ||| MethodFlags.relayBody ||| MethodFlags.mobilized).without MethodFlags.mobile).has _ = _
  rw [Flags.has_without (by decide), Flags.has_union (by decide), Flags.has_union (by decide)]
  rfl

theorem mobileForm_mobilized (closure : Closure) :
    (d.mobileForm client type closure).flags.has MethodFlags.mobilized = true := by
  have hmobilized : (d.flags ||| MethodFlags.mobilized).has MethodFlags.mobilized = true := Flags.has_union_self _ _
  by_cases hmode : d.manner.mode = .normal
  · rw [mobileForm_normal hmode]
    exact hmobilized
  · rw [mobileForm_moved hmode]
    exact hmobilized

theorem relaySibling_mobilized (site : DispatchSite) :
    (d.relaySibling site).flags.has MethodFlags.mobilized = true := by
  show ((d.flags ||| MethodFlags.relayBody ||| MethodFlags.mobilized).without MethodFlags.mobile).has _ = _
  rw [Flags.has_without (by decide)]
  exact Flags.has_union_self _ _

theorem mobileForm_params (closure : Closure) : (d.mobileForm client type closure).params = d.params := by
  by_cases hmode : d.manner.mode = .normal
  · rw [mobileForm_normal hmode]
  · rw [mobileForm_moved hmode]

theorem mobileForm_returns (closure : Closure) : (d.mobileForm client type closure).returns = d.returns := by
  by_cases hmode : d.manner.mode = .normal
  · rw [mobileForm_normal hmode]
  · rw [mobileForm_moved hmode]

theorem mobileForm_paramTypes (closure : Closure) : (d.mobileForm client type closure).paramTypes = d.paramTypes := by
  rw [paramTypes, mobileForm_params, paramTypes]

theorem mobileForm_isDefaultConstructor (closure : Closure) :
    (d.mobileForm client type closure).isDefaultConstructor = d.isDefaultConstructor := by
  have halike := mobileForm_alike client type d closure
  rw [isDefaultConstructor, isDefaultConstructor, halike.constructor, halike.static, mobileForm_params]

theorem relaySibling_paramTypes (d : MethodDecl α) (site : DispatchSite) :
    (d.relaySibling site).paramTypes = d.paramTypes ++ [TypeName.boolean] := by
  simp [relaySibling, paramTypes, relayMarker]

end MethodDecl

theorem find?_of_nodup {β : Type} {f : β → String} {xs : List β} (h : (xs.map f).Nodup) {x : β} (hx : x ∈ xs)
    {p : β → Bool} (hp : p x = true) (hname : ∀ y, p y = true → f y = f x) : xs.find? p = some x := by
  induction xs with
  | nil => cases hx
  | cons y ys ih =>
    rw [List.map_cons, List.nodup_cons] at h
    rw [List.find?_cons]
    cases hy : p y with
    | true =>
      obtain rfl | hx := List.mem_cons.mp hx
      · rfl
      · exact absurd (hname y hy ▸ List.mem_map_of_mem hx) h.1
    | false =>
      obtain rfl | hx := List.mem_cons.mp hx
      · rw [hp] at hy
        cases hy
      · exact ih h.2 hx

/-- Behind all methods with other names, and with names of their own, siblings are found by their names. -/
theorem TypeDecl.method?_sibling {t : TypeDecl α} {main siblings : List (MethodDecl α)}
    (ht : t.methods = main ++ siblings) (hdistinct : (siblings.map (·.name)).Nodup) {s : MethodDecl α}
    (hs : s ∈ siblings) (hnew : ∀ e ∈ main, s.name ≠ e.name) : t.method? s.name s.paramTypes = some s := by
  have hmain : main.find? (fun e => e.name = s.name && e.hasSignature s.paramTypes) = none := by
    refine List.find?_eq_none.mpr fun e he hfound => ?_
    simp only [Bool.and_eq_true, decide_eq_true_eq] at hfound
    exact hnew e he hfound.1.symm
  rw [TypeDecl.method?, ht, List.find?_append, hmain, Option.none_or]
  refine find?_of_nodup hdistinct hs ?_ fun e he => ?_
  · simp [MethodDecl.hasSignature]
  · simp only [Bool.and_eq_true, decide_eq_true_eq] at he
    exact he.1

theorem MethodDecl.Alike.marks {L : α → α → Prop} {d e e' : MethodDecl α} (h : d.Alike L e) (hmark : e.Marks e') :
    d.Alike L e' := by
  obtain rfl | ⟨_, rfl⟩ := hmark
  · exact h
  · have hstatic : (e.flags ||| MethodFlags.relayEntry).has MethodFlags.static = e.isStatic :=
      Flags.has_union (by decide) e.flags
    have hconstructor : (e.flags ||| MethodFlags.relayEntry).has MethodFlags.constructor =
        e.flags.has MethodFlags.constructor := Flags.has_union (by decide) e.flags
    exact ⟨h.name, h.params, h.returns, hstatic.trans h.static, hconstructor.trans h.constructor⟩

namespace TypeDecl.Grown
variable [Literal α] {client : String} {P : Nat → Prop} {t : TypeDecl α} {main siblings : List (MethodDecl α)}

/-- The form of a method whose body stays in place. -/
theorem inPlace (h : Grown client P t main siblings) {mode? : Option Mode} {k : Nat} {d : MethodDecl α}
    (hd : t.methods[k]? = some d) (hinside : BranchesInside d.body) (hwords : d.body.length < 2 ^ 63)
    (hnormal : P k → d.manner.mode = .normal) (hstays : StaysInPlace mode?) : ∃ e, main[k]? = some e ∧
      ∀ exact u, MethodDecl.Form exact Eq client u mode? d e := by
  by_cases hk : P k
  · obtain ⟨hmovable, closure, e, he, hmark⟩ := h.moved hd hk
    have halike := (MethodDecl.mobileForm_alike client t.fullName d closure).marks hmark
    have hcount : (d.callSite client t.fullName).paramCount.toNat = d.params.length :=
      MethodDecl.callSite_count hmovable
    have hsix : ((d.callSite client t.fullName).normalFront d.isVoid : List (Instruction α)).length ≤ 6 :=
      DispatchSite.length_normalFront_le _ _
    have hbehind : Behind Eq ((d.callSite client t.fullName).normalFront d.isVoid) d.body e.body := by
      rw [MethodDecl.mobileForm_normal (hnormal hk)] at hmark
      obtain rfl | ⟨_, rfl⟩ := hmark <;> exact behind_inFrontOf hinside (by omega)
    have hlocals : e.locals = d.locals := by
      rw [MethodDecl.mobileForm_normal (hnormal hk)] at hmark
      obtain rfl | ⟨_, rfl⟩ := hmark <;> rfl
    exact ⟨e, he, fun _ _ => .fronted _ hstays halike hlocals rfl hcount hbehind⟩
  · exact ⟨d, h.kept hd hk, fun _ _ => .plain hstays (.refl fun _ _ _ _ => rfl) rfl (.refl fun _ _ => rfl)⟩

/-- A method whose body moves: it hands its calls on to its sibling. -/
theorem stub (h : Grown client P t main siblings) {k : Nat} {d : MethodDecl α} (hd : t.methods[k]? = some d)
    (hk : P k) (hmode : d.manner.mode ≠ .normal) : d.Movable ∧
      d.relaySibling (d.callSite client t.fullName) ∈ siblings ∧ ∃ e, main[k]? = some e ∧ d.Alike Eq e ∧
        e.body = d.stubBody t.fullName (d.relaySibling (d.callSite client t.fullName)) := by
  obtain ⟨hmovable, closure, e, he, hmark⟩ := h.moved hd hk
  have halike := (MethodDecl.mobileForm_alike client t.fullName d closure).marks hmark
  refine ⟨hmovable, h.sibling hd hk ?_, e, he, halike, ?_⟩
  · rw [MethodDecl.sibling?, MethodDecl.mobilize_moved hmode]
  · rw [MethodDecl.mobileForm_moved hmode] at hmark
    obtain rfl | ⟨_, rfl⟩ := hmark <;> rfl

/-- The form of a type all of whose bodies stay in place. -/
theorem form (h : Grown client P t main siblings) {mode? : MethodFlags → Option Mobility → Option Mode}
    (hinside : ∀ d ∈ t.methods, BranchesInside d.body) (hwords : ∀ d ∈ t.methods, d.body.length < 2 ^ 63)
    (hnormal : ∀ k d, t.methods[k]? = some d → P k → d.manner.mode = .normal)
    (hstays : ∀ d ∈ t.methods, StaysInPlace (mode? d.flags d.mobility)) :
    TypeDecl.Form True Eq client mode? t { t with methods := main ++ siblings } where
  space := rfl
  name := rfl
  fields := List.forall₂_same.mpr fun _ _ => .refl fun _ _ => rfl
  methods := by
    refine ⟨main, siblings, rfl, ?_, h.new, fun _ => ?_⟩
    · refine List.forall₂_iff_get.mpr ⟨h.length.symm, fun k hk hk' => ?_⟩
      have hd : t.methods[k]? = some (t.methods.get ⟨k, hk⟩) := List.getElem?_eq_getElem hk
      have hmem : t.methods.get ⟨k, hk⟩ ∈ t.methods := List.get_mem t.methods ⟨k, hk⟩
      obtain ⟨e, he, hform⟩ := h.inPlace hd (hinside _ hmem) (hwords _ hmem) (hnormal k _ hd) (hstays _ hmem)
      cases (List.getElem?_eq_getElem hk').symm.trans he
      exact hform _ _
    · cases siblings with
      | nil => rfl
      | cons s siblings =>
        obtain ⟨k, d, hd, hk, hs⟩ := h.origin s List.mem_cons_self
        exact absurd (hnormal k d hd hk) (MethodDecl.sibling?_eq_some hs).1

end TypeDecl.Grown
end MobileCode
