import MobileCode.Proofs.References
import Mathlib.Data.List.Perm.Subperm

/-! # Walks find least closures

Reading a body adds to a walk what its instructions refer to, and fails if one of them refers to nothing.
All bodies that a walk has read are reached from the root; what these lead to has been read or is pending.
So when nothing is pending, the bodies read are all that are reached, and the closure holds exactly what
these refer to. No body is read twice, so the walk comes to that end within its bound.
-/
namespace MobileCode
variable {α : Type}

namespace KeySet

theorem mem_insert {β : Type} [Keyed β] (hkey : Function.Injective (Keyed.key : β → List String)) {x y : β}
    {s : KeySet β} : x ∈ insert y s ↔ x = y ∨ x ∈ s := by
  induction s with
  | nil => simp [insert]
  | cons z s ih =>
    simp only [insert]
    split
    · simp
    split
    · rename_i h
      rw [hkey h]
      simp
    · simp only [List.mem_cons, ih]
      tauto

end KeySet

theorem KeySet.key_injective_string : Function.Injective (Keyed.key : String → List String) :=
  fun _ _ h => (List.cons.inj h).1

theorem MemberId.key_injective : Function.Injective (Keyed.key : MemberId → List String) := by
  rintro ⟨t, n⟩ ⟨u, m⟩ h
  simpa [Keyed.key] using h

theorem MethodKey.key_injective : Function.Injective (Keyed.key : MethodKey → List String) := by
  rintro ⟨t, n, ts⟩ ⟨u, m, us⟩ h
  simpa [Keyed.key] using h

namespace Discovery

/-! ## What code adds to a walk -/

/-- Members, modules and methods that code refers to. -/
structure Effect (α : Type) where
  fields : MemberId → Prop := fun _ => False
  properties : MemberId → Prop := fun _ => False
  modules : String → Prop := fun _ => False
  items : Item α → Prop := fun _ => False

/-- A walk that has met what some code refers to. -/
structure Walk.Gains (e : Effect α) (w w' : Walk α) : Prop where
  fields : ∀ x, x ∈ w'.closure.fields ↔ e.fields x ∨ x ∈ w.closure.fields
  properties : ∀ x, x ∈ w'.closure.properties ↔ e.properties x ∨ x ∈ w.closure.properties
  modules : ∀ x, x ∈ w'.closure.modules ↔ e.modules x ∨ x ∈ w.closure.modules
  met : ∀ x, e.items x → x.key ∈ w'.visited
  items : ∃ new : List (Item α), w'.pending = new ++ w.pending ∧ w'.visited = new.map Item.key ++ w.visited ∧
    (∀ k, k ∈ w'.closure.methods ↔ k ∈ new.map Item.key ∨ k ∈ w.closure.methods) ∧ (∀ x ∈ new, e.items x) ∧
    (w.visited.Nodup → w'.visited.Nodup)

namespace Walk.Gains
variable {e e' : Effect α} {w w' w'' : Walk α}

theorem refl (w : Walk α) : Gains {} w w where
  fields _ := (false_or _).symm.to_iff
  properties _ := (false_or _).symm.to_iff
  modules _ := (false_or _).symm.to_iff
  met _ h := h.elim
  items := ⟨[], rfl, rfl, by simp, by simp, id⟩

theorem trans (h : Gains e w w') (h' : Gains e' w' w'') :
    Gains ⟨fun x => e.fields x ∨ e'.fields x, fun x => e.properties x ∨ e'.properties x,
      fun x => e.modules x ∨ e'.modules x, fun x => e.items x ∨ e'.items x⟩ w w'' where
  fields x := by rw [h'.fields, h.fields]; tauto
  properties x := by rw [h'.properties, h.properties]; tauto
  modules x := by rw [h'.modules, h.modules]; tauto
  met x hx := by
    obtain ⟨new, _, hvisited, _⟩ := h'.items
    obtain hx | hx := hx
    · rw [hvisited]
      exact List.mem_append_right _ (h.met x hx)
    · exact h'.met x hx
  items := by
    obtain ⟨new, hpending, hvisited, hmethods, hnew, hnodup⟩ := h.items
    obtain ⟨new', hpending', hvisited', hmethods', hnew', hnodup'⟩ := h'.items
    refine ⟨new' ++ new, ?_, ?_, fun k => ?_, fun x hx => ?_, hnodup' ∘ hnodup⟩
    · rw [hpending', hpending, List.append_assoc]
    · rw [hvisited', hvisited, List.map_append, List.append_assoc]
    · rw [hmethods', hmethods, List.map_append, List.mem_append, or_assoc]
    · obtain hx | hx := List.mem_append.mp hx
      · exact .inr (hnew' x hx)
      · exact .inl (hnew x hx)

theorem congr (h : Gains e w w') (hfields : ∀ x, e.fields x ↔ e'.fields x)
    (hproperties : ∀ x, e.properties x ↔ e'.properties x) (hmodules : ∀ x, e.modules x ↔ e'.modules x)
    (hitems : ∀ x, e.items x ↔ e'.items x) : Gains e' w w' where
  fields x := by rw [h.fields, hfields]
  properties x := by rw [h.properties, hproperties]
  modules x := by rw [h.modules, hmodules]
  met x hx := h.met x ((hitems x).mpr hx)
  items := by
    obtain ⟨new, hpending, hvisited, hmethods, hnew, hnodup⟩ := h.items
    exact ⟨new, hpending, hvisited, hmethods, fun x hx => (hitems x).mp (hnew x hx), hnodup⟩

end Walk.Gains

section Steps
variable {g : Setting α} {w : Walk α}

theorem noteModule_gains (m : Module α) :
    Walk.Gains { modules := fun name => m.name ≠ g.modules.root.name ∧ name = m.name } w (noteModule g m w) := by
  unfold noteModule
  split
  · rename_i h
    exact (Walk.Gains.refl w).congr (by simp) (by simp) (by simp [h]) (by simp)
  · rename_i h
    exact { Walk.Gains.refl w with
      modules := fun _ => by simp only [KeySet.mem_insert KeySet.key_injective_string, ne_eq, h, not_false_eq_true, true_and] }

theorem noteField_gains (id : MemberId) : Walk.Gains { fields := fun x => x = id } w
    { w with closure := { w.closure with fields := KeySet.insert id w.closure.fields } } :=
  { Walk.Gains.refl w with fields := fun _ => KeySet.mem_insert MemberId.key_injective }

theorem noteProperty_gains (t : TypeDecl α) (p : PropertyDecl) :
    Walk.Gains { properties := fun x => t.fullName = g.rootType ∧ x = ⟨t.fullName, p.name⟩ } w
      (noteProperty g t p w) := by
  unfold noteProperty
  split
  · rename_i h
    exact { Walk.Gains.refl w with
      properties := fun _ => by simp only [KeySet.mem_insert MemberId.key_injective, h, true_and] }
  · rename_i h
    exact (Walk.Gains.refl w).congr (by simp) (by simp [h]) (by simp) (by simp)

theorem enqueue_gains (item : Item α) : Walk.Gains { items := fun x => x = item } w (enqueue item w) := by
  unfold enqueue
  dsimp only
  split
  · rename_i h
    exact { Walk.Gains.refl w with
      met := fun x hx => hx ▸ h
      items := ⟨[], rfl, rfl, by simp, by simp, id⟩ }
  · rename_i h
    exact { Walk.Gains.refl w with
      met := fun x hx => hx ▸ List.mem_cons_self
      items := ⟨[item], rfl, rfl, fun k => by simp [KeySet.mem_insert MethodKey.key_injective, Item.key], by simp,
        fun hw => List.nodup_cons.mpr ⟨h, hw⟩⟩ }

end Steps

/-! ## Reading a body -/

section Means
variable {s : ModuleSet α} {b : Boundary} {x : Item α} {m : Module α} {t : TypeDecl α}

theorem exists_meansField_iff {r : FieldRef} {f : FieldDecl α} (h : x.MeansField s b r m t f)
    {P : Module α → TypeDecl α → FieldDecl α → Prop} :
    (∃ m t f, x.MeansField s b r m t f ∧ P m t f) ↔ P m t f := by
  refine ⟨fun ⟨m', t', f', h', hP⟩ => ?_, fun hP => ⟨m, t, f, h, hP⟩⟩
  cases h.2.1.symm.trans h'.2.1
  cases h.2.2.symm.trans h'.2.2
  exact hP

theorem exists_meansMethod_iff {r : MethodRef} {d : MethodDecl α} (h : x.MeansMethod s b r m t d)
    {P : Module α → TypeDecl α → MethodDecl α → Prop} :
    (∃ m t d, x.MeansMethod s b r m t d ∧ P m t d) ↔ P m t d := by
  refine ⟨fun ⟨m', t', d', h', hP⟩ => ?_, fun hP => ⟨m, t, d, h, hP⟩⟩
  cases h.2.1.symm.trans h'.2.1
  cases h.2.2.symm.trans h'.2.2
  exact hP

theorem exists_meansType_iff {r : TypeRef} (h : x.MeansType s b r m t) {P : Module α → TypeDecl α → Prop} :
    (∃ m t, x.MeansType s b r m t ∧ P m t) ↔ P m t := by
  refine ⟨fun ⟨m', t', h', hP⟩ => ?_, fun hP => ⟨m, t, h, hP⟩⟩
  cases h.2.symm.trans h'.2
  exact hP

end Means

theorem keepsHome_iff {t : TypeDecl α} (ht : t.Unambiguous) {d : MethodDecl α} :
    t.keepsHome d ↔ ∃ p, accessed? t d = some p ∧ p.flags.has MemberFlags.ignoreTransfer = true := by
  unfold TypeDecl.keepsHome accessed?
  constructor
  · rintro ⟨haccessor, p, hp, hname, hhome⟩
    exact ⟨p, by rw [if_pos haccessor, ht.propertyOfAccessor?_eq hp hname], hhome⟩
  · rintro ⟨p, hp, hhome⟩
    split at hp
    · have hname := List.find?_some (p := fun p : PropertyDecl => p.hasAccessor d.name) hp
      exact ⟨‹_›, p, List.mem_of_find?_eq_some hp, hname, hhome⟩
    · cases hp

variable (g : Setting α) (x : Item α)

/-- What an instruction of an item adds to a walk. -/
def effect : Instruction α → Effect α
  | .loadField r | .storeField r | .loadStatic r | .storeStatic r => {
      fields := fun id => ∃ m t f, x.MeansField g.modules g.boundary r m t f ∧ t.fullName = g.rootType ∧
        f.flags.has MemberFlags.ignoreTransfer = false ∧ id = ⟨t.fullName, f.name⟩
      modules := fun name => ∃ m t f, x.MeansField g.modules g.boundary r m t f ∧
        m.name ≠ g.modules.root.name ∧ name = m.name }
  | .call r => {
      properties := fun id => ∃ m t d, x.MeansMethod g.modules g.boundary r m t d ∧ ¬t.keepsHome d ∧
        ∃ p, accessed? t d = some p ∧ t.fullName = g.rootType ∧ id = ⟨t.fullName, p.name⟩
      modules := fun name => ∃ m t d, x.MeansMethod g.modules g.boundary r m t d ∧ ¬t.keepsHome d ∧
        m.name ≠ g.modules.root.name ∧ name = m.name
      items := fun y => ∃ m t d, x.MeansMethod g.modules g.boundary r m t d ∧ ¬t.keepsHome d ∧ y = ⟨m, t, d⟩ }
  | .construct r => {
      modules := fun name => ∃ m t, x.MeansType g.modules g.boundary r m t ∧
        m.name ≠ g.modules.root.name ∧ name = m.name
      items := fun y => ∃ m t, x.MeansType g.modules g.boundary r m t ∧
        ∃ d, t.defaultConstructor? = some d ∧ y = ⟨m, t, d⟩ }
  | _ => {}

/-- A visit that succeeds if what was visited resolves, and then adds what it refers to. -/
def Walk.Visits (resolves : Prop) (e : Effect α) (w : Walk α) (result : Except Error (Walk α)) : Prop :=
  (resolves ∧ ∃ w', result = .ok w' ∧ w.Gains e w') ∨ (¬resolves ∧ ∃ err, result = .error err)

variable {g x} {w : Walk α} {site : MethodKey}

theorem resolveType_eq (r : TypeRef) (kind : ReferenceKind) (member : String) :
    resolveType g x r kind member site =
      match g.modules.lookup? x.module r with
      | some found => .ok found
      | none => .error (.unresolved kind member r.display site.display) := rfl

theorem visitField_visits (r : FieldRef) :
    w.Visits (x.Resolves g.modules g.boundary (.loadField r)) (effect g x (.loadField r)) (visitField g x site r w) := by
  unfold visitField
  by_cases hexcluded : g.boundary.excludes r.owner.fullName = true
  · refine .inl ⟨fun h => absurd (hexcluded.symm.trans h) (by decide), w, by simp only [hexcluded]; rfl, ?_⟩
    have hnone (m t f) : ¬x.MeansField g.modules g.boundary r m t f :=
      fun h => absurd (hexcluded.symm.trans h.1) (by decide)
    exact (Walk.Gains.refl w).congr (by simp [effect, hnone]) (by simp [effect]) (by simp [effect, hnone])
      (by simp [effect])
  rw [Bool.not_eq_true] at hexcluded
  simp only [hexcluded, resolveType_eq]
  cases hlookup : g.modules.lookup? x.module r.owner with
  | none =>
    refine .inr ⟨fun h => ?_, _, rfl⟩
    obtain ⟨m, t, f, hmeans⟩ := h hexcluded
    cases hlookup.symm.trans hmeans.2.1
  | some found =>
  obtain ⟨m, t⟩ := found
  cases hfield : t.field? r.name with
  | none =>
    refine .inr ⟨fun h => ?_, _, by simp only [bind, Except.bind, hfield]; rfl⟩
    obtain ⟨m', t', f, hmeans⟩ := h hexcluded
    cases hlookup.symm.trans hmeans.2.1
    cases hfield.symm.trans hmeans.2.2
  | some f =>
    have hmeans : x.MeansField g.modules g.boundary r m t f := ⟨hexcluded, hlookup, hfield⟩
    refine .inl ⟨fun _ => ⟨m, t, f, hmeans⟩, ?_⟩
    have hnoted := noteModule_gains (g := g) (w := w) m
    by_cases htravels : t.fullName = g.rootType ∧ (!f.flags.has MemberFlags.ignoreTransfer) = true
    · refine ⟨_, by simp only [bind, Except.bind, hfield, if_pos htravels]; rfl,
        (hnoted.trans (noteField_gains ⟨t.fullName, f.name⟩)).congr ?_ ?_ ?_ ?_⟩
      all_goals
        rw [Bool.not_eq_true'] at htravels
        simp only [effect, exists_meansField_iff hmeans]
        simp [htravels]
    · refine ⟨_, by simp only [bind, Except.bind, hfield, if_neg htravels]; rfl, hnoted.congr ?_ ?_ ?_ ?_⟩
      all_goals
        rw [Bool.not_eq_true', not_and] at htravels
        simp only [effect, exists_meansField_iff hmeans]
        simp +contextual [htravels]

theorem visitCall_visits (hg : g.modules.Unambiguous) (hx : x.StandsIn g.modules) (r : MethodRef) :
    w.Visits (x.Resolves g.modules g.boundary (.call r)) (effect g x (.call r)) (visitCall g x site r w) := by
  unfold visitCall
  by_cases hstops : g.boundary.stopsCall r.owner.fullName
  · have htrue : (decide (r.owner.fullName = g.boundary.clientType) || g.boundary.excludes r.owner.fullName) = true := by
      simpa [Boundary.stopsCall] using hstops
    refine .inl ⟨fun h => absurd hstops h, w, by simp only [htrue]; rfl, ?_⟩
    have hnone (m t d) : ¬x.MeansMethod g.modules g.boundary r m t d := fun h => h.1 hstops
    exact (Walk.Gains.refl w).congr (by simp [effect]) (by simp [effect, hnone]) (by simp [effect, hnone])
      (by simp [effect, hnone])
  have hfalse : (decide (r.owner.fullName = g.boundary.clientType) || g.boundary.excludes r.owner.fullName) = false := by
    simpa [Boundary.stopsCall] using hstops
  simp only [hfalse, resolveType_eq]
  cases hlookup : g.modules.lookup? x.module r.owner with
  | none =>
    refine .inr ⟨fun h => ?_, _, rfl⟩
    obtain ⟨m, t, d, hmeans⟩ := h hstops
    cases hlookup.symm.trans hmeans.2.1
  | some found =>
  obtain ⟨m, t⟩ := found
  cases hmethod : t.method? r.name r.paramTypes with
  | none =>
    refine .inr ⟨fun h => ?_, _, by simp only [bind, Except.bind, hmethod]; rfl⟩
    obtain ⟨m', t', d, hmeans⟩ := h hstops
    cases hlookup.symm.trans hmeans.2.1
    cases hmethod.symm.trans hmeans.2.2
  | some d =>
    have hmeans : x.MeansMethod g.modules g.boundary r m t d := ⟨hstops, hlookup, hmethod⟩
    have ht := hg.within m (hx.lookup hlookup).1 t (hx.lookup hlookup).2.1
    have hnoted (w : Walk α) := noteModule_gains (g := g) (w := w) m
    refine .inl ⟨fun _ => ⟨m, t, d, hmeans⟩, ?_⟩
    cases haccessed : accessed? t d with
    | none =>
      have hfollowed : ¬t.keepsHome d := by simp [keepsHome_iff ht, haccessed]
      refine ⟨_, by simp only [bind, Except.bind, hmethod, haccessed]; rfl,
        ((hnoted w).trans (enqueue_gains ⟨m, t, d⟩)).congr ?_ ?_ ?_ ?_⟩
      all_goals
        simp only [effect, exists_meansMethod_iff hmeans]
        simp [hfollowed, haccessed]
    | some p =>
      by_cases hhome : p.flags.has MemberFlags.ignoreTransfer = true
      · have hkept : t.keepsHome d := (keepsHome_iff ht).mpr ⟨p, haccessed, hhome⟩
        refine ⟨w, by simp only [bind, Except.bind, hmethod, haccessed, if_pos hhome]; rfl,
          (Walk.Gains.refl w).congr ?_ ?_ ?_ ?_⟩
        all_goals
          simp only [effect, exists_meansMethod_iff hmeans]
          simp [hkept]
      · have hfollowed : ¬t.keepsHome d := by simp [keepsHome_iff ht, haccessed, hhome]
        refine ⟨_, by simp only [bind, Except.bind, hmethod, haccessed, if_neg hhome]; rfl,
          (((noteProperty_gains t p).trans (hnoted _)).trans (enqueue_gains ⟨m, t, d⟩)).congr ?_ ?_ ?_ ?_⟩
        all_goals
          simp only [effect, exists_meansMethod_iff hmeans]
          simp [hfollowed, haccessed]

theorem visitConstruct_visits (r : TypeRef) :
    w.Visits (x.Resolves g.modules g.boundary (.construct r)) (effect g x (.construct r))
      (visitConstruct g x site r w) := by
  unfold visitConstruct
  by_cases hexcluded : g.boundary.excludes r.fullName = true
  · refine .inl ⟨fun h => absurd (hexcluded.symm.trans h) (by decide), w, by simp only [hexcluded]; rfl, ?_⟩
    have hnone (m t) : ¬x.MeansType g.modules g.boundary r m t :=
      fun h => absurd (hexcluded.symm.trans h.1) (by decide)
    exact (Walk.Gains.refl w).congr (by simp [effect]) (by simp [effect]) (by simp [effect, hnone])
      (by simp [effect, hnone])
  rw [Bool.not_eq_true] at hexcluded
  simp only [hexcluded, resolveType_eq]
  cases hlookup : g.modules.lookup? x.module r with
  | none =>
    refine .inr ⟨fun h => ?_, _, rfl⟩
    obtain ⟨m, t, hmeans⟩ := h hexcluded
    cases hlookup.symm.trans hmeans.2
  | some found =>
    obtain ⟨m, t⟩ := found
    have hmeans : x.MeansType g.modules g.boundary r m t := ⟨hexcluded, hlookup⟩
    have hnoted := noteModule_gains (g := g) (w := w) m
    refine .inl ⟨fun _ => ⟨m, t, hmeans⟩, ?_⟩
    cases hctor : t.defaultConstructor? with
    | none =>
      refine ⟨_, by simp only [bind, Except.bind, hctor]; rfl, hnoted.congr ?_ ?_ ?_ ?_⟩
      all_goals
        simp only [effect, exists_meansType_iff hmeans]
        simp [hctor]
    | some d =>
      refine ⟨_, by simp only [bind, Except.bind, hctor]; rfl,
        (hnoted.trans (enqueue_gains ⟨m, t, d⟩)).congr ?_ ?_ ?_ ?_⟩
      all_goals
        simp only [effect, exists_meansType_iff hmeans]
        simp [hctor]

theorem visit_visits (hg : g.modules.Unambiguous) (hx : x.StandsIn g.modules) (i : Instruction α) :
    w.Visits (x.Resolves g.modules g.boundary i) (effect g x i) (visit g x site w i) := by
  cases i with
  | loadField r | storeField r | loadStatic r | storeStatic r => exact visitField_visits r
  | call r => exact visitCall_visits hg hx r
  | construct r => exact visitConstruct_visits r
  | _ => exact .inl ⟨trivial, w, rfl, .refl w⟩

/-- What a body adds to a walk. -/
def Item.effect (g : Setting α) (x : Item α) (body : List (Instruction α)) : Effect α where
  fields id := ∃ i ∈ body, (Discovery.effect g x i).fields id
  properties id := ∃ i ∈ body, (Discovery.effect g x i).properties id
  modules name := ∃ i ∈ body, (Discovery.effect g x i).modules name
  items y := ∃ i ∈ body, (Discovery.effect g x i).items y

theorem foldlM_visits (hg : g.modules.Unambiguous) (hx : x.StandsIn g.modules) (body : List (Instruction α))
    (w : Walk α) : w.Visits (∀ i ∈ body, x.Resolves g.modules g.boundary i) (x.effect g body)
      (body.foldlM (visit g x site) w) := by
  induction body generalizing w with
  | nil => exact .inl ⟨by simp, w, rfl, (Walk.Gains.refl w).congr (by simp [Item.effect]) (by simp [Item.effect])
      (by simp [Item.effect]) (by simp [Item.effect])⟩
  | cons i body ih =>
    rw [List.foldlM_cons]
    have hvisit : w.Visits _ _ (visit g x site w i) := visit_visits hg hx i
    obtain ⟨hi, w', hw', hgains⟩ | ⟨hi, err, herr⟩ := hvisit
    · simp only [hw', bind, Except.bind]
      obtain ⟨hrest, w'', hw'', hgains'⟩ | ⟨hrest, err, herr⟩ := ih w'
      · refine .inl ⟨List.forall_mem_cons.mpr ⟨hi, hrest⟩, w'', hw'', (hgains.trans hgains').congr ?_ ?_ ?_ ?_⟩
        all_goals simp [Item.effect]
      · exact .inr ⟨fun h => hrest (List.forall_mem_cons.mp h).2, err, herr⟩
    · exact .inr ⟨fun h => hi (List.forall_mem_cons.mp h).1, err, by simp only [herr, bind, Except.bind]⟩

/-- Reading a body succeeds if all its instructions resolve, and adds what they refer to. -/
theorem scan_visits (hg : g.modules.Unambiguous) (hx : x.StandsIn g.modules) (w : Walk α) :
    w.Visits (∀ i ∈ x.method.body, x.Resolves g.modules g.boundary i) (x.effect g x.method.body) (scan g x w) :=
  foldlM_visits hg hx x.method.body w

/-! ## Walks -/

/-- A walk from `start` that has read the bodies of `done`. -/
structure Walk.Holds (g : Setting α) (start : Item α) (done : List (Item α)) (w : Walk α) : Prop where
  reached : ∀ x ∈ done ++ w.pending, Reaches g.modules g.boundary start x
  started : start ∈ done ++ w.pending
  visited : ∀ k, k ∈ w.visited ↔ ∃ x ∈ done ++ w.pending, x.key = k
  distinct : w.visited.Nodup
  resolved : ∀ x ∈ done, ∀ i ∈ x.method.body, x.Resolves g.modules g.boundary i
  met : ∀ x ∈ done, ∀ y, Leads g.modules g.boundary x y → y.key ∈ w.visited
  methods : ∀ k, k ∈ w.closure.methods ↔ k ∈ w.visited ∧ k ≠ start.key
  fields : ∀ id, id ∈ w.closure.fields ↔ ∃ x ∈ done, (x.effect g x.method.body).fields id
  properties : ∀ id, id ∈ w.closure.properties ↔ ∃ x ∈ done, (x.effect g x.method.body).properties id
  modules : ∀ name, name ∈ w.closure.modules ↔ ∃ x ∈ done, (x.effect g x.method.body).modules name

theorem leads_iff {x y : Item α} :
    Leads g.modules g.boundary x y ↔ (x.effect g x.method.body).items y := by
  constructor
  · rintro (⟨hi, hmeans, hkept⟩ | ⟨hi, hmeans, hctor⟩)
    · exact ⟨_, hi, _, _, _, hmeans, hkept, rfl⟩
    · exact ⟨_, hi, _, _, hmeans, _, hctor, rfl⟩
  · rintro ⟨i, hi, h⟩
    cases i with
    | call r =>
      obtain ⟨m, t, d, hmeans, hkept, rfl⟩ := h
      exact .call hi hmeans hkept
    | construct r =>
      obtain ⟨m, t, hmeans, d, hctor, rfl⟩ := h
      exact .construct hi hmeans hctor
    | _ => exact h.elim

theorem Walk.Holds.start (g : Setting α) (x : Item α) : Walk.Holds g x [] { visited := [x.key], pending := [x] } where
  reached y hy := by
    rw [List.mem_singleton.mp hy]
  started := List.mem_singleton_self x
  visited k := by simp [eq_comm]
  distinct := List.nodup_singleton _
  resolved _ hy := absurd hy List.not_mem_nil
  met _ hy := absurd hy List.not_mem_nil
  methods k := by simp
  fields id := by simp
  properties id := by simp
  modules name := by simp

/-- Reading the next body. -/
theorem Walk.Holds.read {start x : Item α} {done rest : List (Item α)} {w' : Walk α}
    (h : Walk.Holds g start done w) (hpending : w.pending = x :: rest)
    (hresolved : ∀ i ∈ x.method.body, x.Resolves g.modules g.boundary i)
    (hgains : Walk.Gains (x.effect g x.method.body) { w with pending := rest } w') :
    Walk.Holds g start (x :: done) w' := by
  obtain ⟨new, hnew, hvisited, hmethods, hitems, hnodup⟩ := hgains.items
  have hmem (y : Item α) : y ∈ (x :: done) ++ w'.pending ↔ y ∈ new ∨ y ∈ done ++ w.pending := by
    rw [hnew, hpending]
    simp only [List.mem_append, List.mem_cons]
    tauto
  have hold (k : MethodKey) (hk : k ∈ w.visited) : k ∈ w'.visited := hvisited ▸ List.mem_append_right _ hk
  have hx : Reaches g.modules g.boundary start x := h.reached x (by simp [hpending])
  exact {
    reached := fun y hy => by
      obtain hy | hy := (hmem y).mp hy
      · exact hx.tail (leads_iff.mpr (hitems y hy))
      · exact h.reached y hy
    started := (hmem start).mpr (.inr h.started)
    visited := fun k => by
      rw [hvisited, List.mem_append, List.mem_map]
      simp only [hmem, or_and_right, exists_or]
      exact or_congr Iff.rfl (h.visited k)
    distinct := hnodup h.distinct
    resolved := fun y hy => by
      obtain rfl | hy := List.mem_cons.mp hy
      · exact hresolved
      · exact h.resolved y hy
    met := fun y hy z hz => by
      obtain rfl | hy := List.mem_cons.mp hy
      · exact hgains.met z (leads_iff.mp hz)
      · exact hold _ (h.met y hy z hz)
    methods := fun k => by
      rw [hmethods, hvisited, List.mem_append, h.methods]
      refine ⟨?_, ?_⟩
      · rintro (hk | ⟨hk, hne⟩)
        · refine ⟨.inl hk, fun he => ?_⟩
          have hstart : start.key ∈ w.visited := (h.visited _).mpr ⟨start, h.started, rfl⟩
          have hdisjoint := hnodup h.distinct
          rw [hvisited, List.nodup_append] at hdisjoint
          exact hdisjoint.2.2 k hk start.key hstart he
        · exact ⟨.inr hk, hne⟩
      · rintro ⟨hk | hk, hne⟩
        · exact .inl hk
        · exact .inr ⟨hk, hne⟩
    fields := fun id => by rw [hgains.fields, h.fields]; simp
    properties := fun id => by rw [hgains.properties, h.properties]; simp
    modules := fun name => by rw [hgains.modules, h.modules]; simp }

/-- When nothing is pending, the bodies read are those of all methods that are reached. -/
theorem Walk.Holds.all_read {start : Item α} {done : List (Item α)} (hg : g.modules.Unambiguous)
    (hstart : start.StandsIn g.modules) (h : Walk.Holds g start done w) (hpending : w.pending = []) {x : Item α} :
    x ∈ done ↔ Reaches g.modules g.boundary start x := by
  have hdone (y : Item α) : y ∈ done ++ w.pending ↔ y ∈ done := by rw [hpending, List.append_nil]
  refine ⟨fun hx => h.reached x ((hdone x).mpr hx), fun hx => ?_⟩
  induction hx with
  | refl => exact (hdone start).mp h.started
  | @tail y z hy hyz ih =>
    obtain ⟨z', hz', hkey⟩ := (h.visited _).mp (h.met y ih z hyz)
    have hreached := h.reached z' hz'
    have hz : Reaches g.modules g.boundary start z := hy.tail hyz
    rw [← (hreached.standsIn hstart).eq_of_key hg (hz.standsIn hstart) hkey]
    exact (hdone z').mp hz'

/-! ## The end of a walk -/

theorem Item.StandsIn.key_mem {s : ModuleSet α} (hx : x.StandsIn s) : x.key ∈ s.keys :=
  List.mem_flatMap.mpr ⟨_, hx.module, List.mem_flatMap.mpr ⟨_, hx.type, List.mem_map_of_mem hx.method⟩⟩

theorem bound_eq (s : ModuleSet α) : s.bound = s.keys.length + 2 := by
  simp [ModuleSet.bound, ModuleSet.keys, ModuleSet.members, List.length_flatMap, Function.comp_def]

/-- No more methods are met than there are. -/
theorem Walk.Holds.visited_length_le {start : Item α} {done : List (Item α)} (hstart : start.StandsIn g.modules)
    (h : Walk.Holds g start done w) : w.visited.length ≤ g.modules.keys.length := by
  refine (List.subperm_of_subset h.distinct fun k hk => ?_).length_le
  obtain ⟨x, hx, rfl⟩ := (h.visited k).mp hk
  exact ((h.reached x hx).standsIn hstart).key_mem

/-- All code that is reached refers to what is there. -/
def Sound (s : ModuleSet α) (b : Boundary) (start : Item α) : Prop :=
  ∀ x, Reaches s b start x → ∀ i ∈ x.method.body, x.Resolves s b i

/-- A walk with room for all methods not met yet fails, or reads all that is reached. -/
theorem Walk.Holds.walk {start : Item α} (hg : g.modules.Unambiguous) (hstart : start.StandsIn g.modules) (fuel : Nat)
    {w : Walk α} {done : List (Item α)} (h : Walk.Holds g start done w)
    (hroom : w.pending.length + g.modules.keys.length ≤ fuel + w.visited.length) :
    (Sound g.modules g.boundary start ∧ ∃ w' done', walk g fuel w = .ok w' ∧ Walk.Holds g start done' w' ∧
      w'.pending = []) ∨
    (¬Sound g.modules g.boundary start ∧ ∃ err, walk g fuel w = .error err) := by
  have hend {w : Walk α} {done : List (Item α)} (h : Walk.Holds g start done w) (hpending : w.pending = []) :
      Sound g.modules g.boundary start :=
    fun x hx => h.resolved x ((h.all_read hg hstart hpending).mpr hx)
  induction fuel generalizing w done with
  | zero =>
    have hpending : w.pending = [] := by
      have := h.visited_length_le hstart
      exact List.eq_nil_of_length_eq_zero (by omega)
    exact .inl ⟨hend h hpending, w, done, rfl, h, hpending⟩
  | succ fuel ih =>
    unfold Discovery.walk
    cases hpending : w.pending with
    | nil => exact .inl ⟨hend h hpending, w, done, rfl, h, hpending⟩
    | cons x rest =>
      have hreached : Reaches g.modules g.boundary start x := h.reached x (by simp [hpending])
      obtain ⟨hresolved, w', hw', hgains⟩ | ⟨hunresolved, err, herr⟩ :=
        scan_visits hg (hreached.standsIn hstart) { w with pending := rest }
      · simp only [hw', Except.bind]
        refine ih (h.read hpending hresolved hgains) ?_
        obtain ⟨new, hnew, hvisited, _⟩ := hgains.items
        simp only [hnew, hvisited, hpending, List.length_append, List.length_map, List.length_cons] at hroom ⊢
        omega
      · exact .inr ⟨fun hsound => hunresolved (hsound x hreached), err, by simp only [herr, Except.bind]⟩

/-! ## The least closure -/

/-- The closure holds what the code reached from `start` refers to, and nothing else. -/
structure IsLeast (s : ModuleSet α) (b : Boundary) (start : Item α) (c : Closure) : Prop where
  methods : ∀ k, k ∈ c.methods ↔ k ≠ start.key ∧ ∃ x, Relation.TransGen (Leads s b) start x ∧ x.key = k
  fields : ∀ id, id ∈ c.fields ↔ ∃ f ∈ start.type.fields, id = ⟨start.type.fullName, f.name⟩ ∧
    f.flags.has MemberFlags.ignoreTransfer = false ∧ ∃ x, Reaches s b start x ∧ ∃ i ∈ x.method.body,
      ∃ r, i.field? = some r ∧ r.owner.fullName = start.type.fullName ∧ r.name = f.name
  properties : ∀ id, id ∈ c.properties ↔ ∃ p ∈ start.type.properties, id = ⟨start.type.fullName, p.name⟩ ∧
    p.flags.has MemberFlags.ignoreTransfer = false ∧ ∃ x, Reaches s b start x ∧ ∃ r, .call r ∈ x.method.body ∧
      r.owner.fullName = start.type.fullName ∧ ∃ d ∈ start.type.methods, d.name = r.name ∧
        d.paramTypes = r.paramTypes ∧ d.isAccessor = true ∧ p.hasAccessor d.name = true
  modules : ∀ name, name ∈ c.modules ↔ name ≠ s.root.name ∧ ∃ x, Reaches s b start x ∧
    ∃ i ∈ x.method.body, ∃ m, x.Enters s b i m ∧ m.name = name

section Least
variable {s : ModuleSet α} {b : Boundary} {start : Item α}

/-- A reference to the type of the root from code that is reached means this type. -/
theorem Item.StandsIn.lookup_eq (hs : s.Unambiguous) (hx : x.StandsIn s) (hstart : start.StandsIn s) {r : TypeRef}
    {m : Module α} {t : TypeDecl α} (h : s.lookup? x.module r = some (m, t))
    (hname : r.fullName = start.type.fullName) : t = start.type := by
  obtain ⟨hm, ht, hfull⟩ := hx.lookup h
  exact (eq_of_fullName hs hm hstart.module ht hstart.type (hfull.trans hname)).2

theorem effect_fields_iff (hs : s.Unambiguous) (hstart : start.StandsIn s)
    (hexcluded : b.excludes start.type.fullName = false) (hx : x.StandsIn s) {i : Instruction α}
    (hresolved : x.Resolves s b i) {id : MemberId} :
    (effect ⟨s, b, start.type.fullName⟩ x i).fields id ↔ ∃ f ∈ start.type.fields,
      id = ⟨start.type.fullName, f.name⟩ ∧ f.flags.has MemberFlags.ignoreTransfer = false ∧
      ∃ r, i.field? = some r ∧ r.owner.fullName = start.type.fullName ∧ r.name = f.name := by
  have hnamed (r : FieldRef) (h : b.excludes r.owner.fullName = false → ∃ m t f, x.MeansField s b r m t f) :
      (∃ m t f, x.MeansField s b r m t f ∧ t.fullName = start.type.fullName ∧
        f.flags.has MemberFlags.ignoreTransfer = false ∧ id = ⟨t.fullName, f.name⟩) ↔
      ∃ f ∈ start.type.fields, id = ⟨start.type.fullName, f.name⟩ ∧ f.flags.has MemberFlags.ignoreTransfer = false ∧
        r.owner.fullName = start.type.fullName ∧ r.name = f.name := by
    constructor
    · rintro ⟨m, t, f, ⟨_, hlookup, hfield⟩, hroot, htravels, rfl⟩
      have howner : r.owner.fullName = start.type.fullName := (hx.lookup hlookup).2.2.symm.trans hroot
      obtain rfl := hx.lookup_eq hs hstart hlookup howner
      have hname := List.find?_some (p := fun f : FieldDecl α => f.name = r.name) hfield
      exact ⟨f, List.mem_of_find?_eq_some hfield, rfl, htravels, howner, (of_decide_eq_true hname).symm⟩
    · rintro ⟨f, hf, rfl, htravels, howner, hname⟩
      obtain ⟨m, t, f', hmeans⟩ := h (howner ▸ hexcluded)
      obtain rfl := hx.lookup_eq hs hstart hmeans.2.1 howner
      have hfield := (hs.within _ hstart.module _ hstart.type).field?_eq hf
      cases hfield.symm.trans (hname ▸ hmeans.2.2)
      exact ⟨m, _, f, hmeans, rfl, htravels, rfl⟩
  cases i with
  | loadField r | storeField r | loadStatic r | storeStatic r =>
    simpa [effect, Instruction.field?] using hnamed r hresolved
  | _ => simp [effect, Instruction.field?]

theorem effect_properties_iff (hs : s.Unambiguous) (hstart : start.StandsIn s)
    (hstops : ¬b.stopsCall start.type.fullName) (hx : x.StandsIn s) {i : Instruction α}
    (hresolved : x.Resolves s b i) {id : MemberId} :
    (effect ⟨s, b, start.type.fullName⟩ x i).properties id ↔ ∃ p ∈ start.type.properties,
      id = ⟨start.type.fullName, p.name⟩ ∧ p.flags.has MemberFlags.ignoreTransfer = false ∧
      ∃ r, i = .call r ∧ r.owner.fullName = start.type.fullName ∧ ∃ d ∈ start.type.methods, d.name = r.name ∧
        d.paramTypes = r.paramTypes ∧ d.isAccessor = true ∧ p.hasAccessor d.name = true := by
  have ht := hs.within _ hstart.module _ hstart.type
  cases i with
  | call r =>
    constructor
    · rintro ⟨m, t, d, ⟨_, hlookup, hmethod⟩, hfollowed, p, hp, hroot, rfl⟩
      have howner : r.owner.fullName = start.type.fullName := (hx.lookup hlookup).2.2.symm.trans hroot
      obtain rfl := hx.lookup_eq hs hstart hlookup howner
      obtain ⟨hd, hname, htypes⟩ := TypeDecl.method?_eq_some hmethod
      rw [keepsHome_iff ht] at hfollowed
      unfold accessed? at hp
      split at hp
      · have haccessor := List.find?_some (p := fun p : PropertyDecl => p.hasAccessor d.name) hp
        refine ⟨p, List.mem_of_find?_eq_some hp, rfl, ?_, r, rfl, howner, d, hd, hname, htypes, ‹_›, haccessor⟩
        rw [← Bool.not_eq_true]
        exact fun hhome => hfollowed ⟨p, by rw [accessed?, if_pos ‹_›, hp], hhome⟩
      · cases hp
    · rintro ⟨p, hp, rfl, htravels, r', hr, howner, d, hd, hname, htypes, haccessor, hof⟩
      cases hr
      obtain ⟨m, t, d', hmeans⟩ := hresolved (howner ▸ hstops)
      obtain rfl := hx.lookup_eq hs hstart hmeans.2.1 howner
      obtain ⟨hd', hname', htypes'⟩ := TypeDecl.method?_eq_some hmeans.2.2
      obtain rfl : d = d' := List.inj_on_of_nodup_map ht.methods hd hd'
        (Prod.ext (hname.trans hname'.symm) (htypes.trans htypes'.symm))
      have haccessed : accessed? start.type d = some p := by
        rw [accessed?, if_pos haccessor, ht.propertyOfAccessor?_eq hp hof]
      refine ⟨m, _, d, hmeans, ?_, p, haccessed, rfl, rfl⟩
      rw [keepsHome_iff ht, haccessed]
      rintro ⟨q, hq, hhome⟩
      cases hq
      exact absurd (htravels.symm.trans hhome) (by decide)
  | _ => simp [effect]

theorem effect_modules_iff {i : Instruction α} {name : String} :
    (effect ⟨s, b, start.type.fullName⟩ x i).modules name ↔
      name ≠ s.root.name ∧ ∃ m, x.Enters s b i m ∧ m.name = name := by
  constructor
  · intro h
    cases i with
    | loadField r | storeField r | loadStatic r | storeStatic r =>
      obtain ⟨m, t, f, hmeans, hne, rfl⟩ := h
      exact ⟨hne, m, .field rfl hmeans, rfl⟩
    | call r =>
      obtain ⟨m, t, d, hmeans, hfollowed, hne, rfl⟩ := h
      exact ⟨hne, m, .call hmeans hfollowed, rfl⟩
    | construct r =>
      obtain ⟨m, t, hmeans, hne, rfl⟩ := h
      exact ⟨hne, m, .construct hmeans, rfl⟩
    | _ => exact h.elim
  · rintro ⟨hne, m, henters, rfl⟩
    cases henters with
    | field hfield hmeans =>
      cases i with
      | loadField r | storeField r | loadStatic r | storeStatic r =>
        cases hfield
        exact ⟨m, _, _, hmeans, hne, rfl⟩
      | _ => cases hfield
    | call hmeans hfollowed => exact ⟨m, _, _, hmeans, hfollowed, hne, rfl⟩
    | construct hmeans => exact ⟨m, _, hmeans, hne, rfl⟩

/-- A walk that has read all it reaches notes the modules that this code reaches into. -/
theorem Walk.Holds.modules_iff {done : List (Item α)} {w : Walk α} (hs : s.Unambiguous) (hstart : start.StandsIn s)
    (h : Walk.Holds ⟨s, b, start.type.fullName⟩ start done w) (hpending : w.pending = []) {name : String} :
    name ∈ w.closure.modules ↔ name ≠ s.root.name ∧ ∃ x, Reaches s b start x ∧
      ∃ i ∈ x.method.body, ∃ m, x.Enters s b i m ∧ m.name = name := by
  have hdone (x : Item α) : x ∈ done ↔ Reaches s b start x := h.all_read hs hstart hpending
  rw [h.modules]
  constructor
  · rintro ⟨x, hx, i, hi, hname⟩
    obtain ⟨hne, henters⟩ := effect_modules_iff.mp hname
    exact ⟨hne, x, (hdone x).mp hx, i, hi, henters⟩
  · rintro ⟨hne, x, hx, i, hi, henters⟩
    exact ⟨x, (hdone x).mpr hx, i, hi, effect_modules_iff.mpr ⟨hne, henters⟩⟩

/-- The closure of a walk that has read all it reaches. -/
theorem Walk.Holds.isLeast {done : List (Item α)} {w : Walk α} (hs : s.Unambiguous) (hstart : start.StandsIn s)
    (hstops : ¬b.stopsCall start.type.fullName) (h : Walk.Holds ⟨s, b, start.type.fullName⟩ start done w)
    (hpending : w.pending = []) : IsLeast s b start w.closure := by
  have hexcluded : b.excludes start.type.fullName = false := by
    rw [← Bool.not_eq_true]
    exact fun he => hstops (.inr he)
  have hdone (x : Item α) : x ∈ done ↔ Reaches s b start x := h.all_read hs hstart hpending
  have hstands {x : Item α} (hx : x ∈ done) : x.StandsIn s := Reaches.standsIn ((hdone x).mp hx) hstart
  exact {
    methods := fun k => by
      rw [h.methods, h.visited, hpending, List.append_nil, and_comm]
      refine and_congr_right fun hne => exists_congr fun x => ?_
      rw [hdone, and_congr_left_iff]
      rintro rfl
      refine Relation.reflTransGen_iff_eq_or_transGen.trans (or_iff_right ?_)
      rintro rfl
      exact hne rfl
    fields := fun id => by
      rw [h.fields]
      constructor
      · rintro ⟨x, hx, i, hi, hid⟩
        obtain ⟨f, hf, hname, htravels, href⟩ :=
          (effect_fields_iff hs hstart hexcluded (hstands hx) (h.resolved x hx i hi)).mp hid
        exact ⟨f, hf, hname, htravels, x, (hdone x).mp hx, i, hi, href⟩
      · rintro ⟨f, hf, hname, htravels, x, hx, i, hi, href⟩
        rw [← hdone] at hx
        exact ⟨x, hx, i, hi, (effect_fields_iff hs hstart hexcluded (hstands hx) (h.resolved x hx i hi)).mpr
          ⟨f, hf, hname, htravels, href⟩⟩
    properties := fun id => by
      rw [h.properties]
      constructor
      · rintro ⟨x, hx, i, hi, hid⟩
        obtain ⟨p, hp, hname, htravels, r, rfl, hcalled⟩ :=
          (effect_properties_iff hs hstart hstops (hstands hx) (h.resolved x hx i hi)).mp hid
        exact ⟨p, hp, hname, htravels, x, (hdone x).mp hx, r, hi, hcalled⟩
      · rintro ⟨p, hp, hname, htravels, x, hx, r, hr, hcalled⟩
        rw [← hdone] at hx
        exact ⟨x, hx, .call r, hr, (effect_properties_iff hs hstart hstops (hstands hx) (h.resolved x hx _ hr)).mpr
          ⟨p, hp, hname, htravels, r, rfl, hcalled⟩⟩
    modules := fun name => h.modules_iff hs hstart hpending }

end Least

end Discovery

open Discovery

section Discover
variable {s : ModuleSet α} (hs : s.Unambiguous) (b : Boundary) {t : TypeDecl α} (ht : t ∈ s.root.types)
  {d : MethodDecl α} (hd : d ∈ t.methods)
include hs ht hd

/-- Discovery walks through all code that the method reaches, and fails where this does not resolve. -/
theorem ModuleSet.discover_walks :
    (Sound s b ⟨s.root, t, d⟩ ∧ ∃ w done, s.discover b t.fullName d = .ok w.closure ∧
      Walk.Holds ⟨s, b, t.fullName⟩ ⟨s.root, t, d⟩ done w ∧ w.pending = []) ∨
    (¬Sound s b ⟨s.root, t, d⟩ ∧ ∃ err, s.discover b t.fullName d = .error err) := by
  have hstart : Item.StandsIn s ⟨s.root, t, d⟩ := ⟨List.mem_cons_self, ht, hd⟩
  have htype : s.root.type? t.fullName = some t :=
    find?_eq_some_of_unique ht (decide_eq_true rfl) fun u hu hname =>
      (eq_of_fullName hs hstart.module hstart.module hu ht (of_decide_eq_true hname)).2
  have hholds := Walk.Holds.start ⟨s, b, t.fullName⟩ ⟨s.root, t, d⟩
  simp only [ModuleSet.discover, htype]
  obtain ⟨hsound, w, done, hw, hw', hpending⟩ | ⟨hunsound, err, herr⟩ := hholds.walk hs hstart s.bound
    (by rw [bound_eq]; simp only [List.length_singleton]; omega)
  · simp only [Item.key] at hw
    exact .inl ⟨hsound, w, done, by rw [hw]; rfl, hw', hpending⟩
  · simp only [Item.key] at herr
    exact .inr ⟨hunsound, err, by rw [herr]; rfl⟩

theorem ModuleSet.discover_eq_ok {c : Closure} (h : s.discover b t.fullName d = .ok c) :
    Sound s b ⟨s.root, t, d⟩ ∧ ∃ w done, c = w.closure ∧
      Walk.Holds ⟨s, b, t.fullName⟩ ⟨s.root, t, d⟩ done w ∧ w.pending = [] := by
  obtain ⟨hsound, w, done, hw, hholds, hpending⟩ | ⟨_, err, herr⟩ := discover_walks hs b ht hd
  · cases hw.symm.trans h
    exact ⟨hsound, w, done, rfl, hholds, hpending⟩
  · cases herr.symm.trans h

end Discover

/-- Discovery succeeds if all code that the method reaches refers to what is there, and finds its least
closure. -/
theorem ModuleSet.discover_least {s : ModuleSet α} (hs : s.Unambiguous) (b : Boundary) {t : TypeDecl α}
    (ht : t ∈ s.root.types) (hstops : ¬b.stopsCall t.fullName) {d : MethodDecl α} (hd : d ∈ t.methods) :
    ((∃ c, s.discover b t.fullName d = .ok c) ↔ Sound s b ⟨s.root, t, d⟩) ∧
      ∀ c, s.discover b t.fullName d = .ok c → IsLeast s b ⟨s.root, t, d⟩ c := by
  constructor
  · obtain ⟨hsound, w, _, hw, _⟩ | ⟨hunsound, err, herr⟩ := discover_walks hs b ht hd
    · exact ⟨fun _ => hsound, fun _ => ⟨w.closure, hw⟩⟩
    · refine ⟨fun ⟨c, hc⟩ => ?_, fun h => absurd h hunsound⟩
      cases herr.symm.trans hc
  · intro c hc
    obtain ⟨_, w, done, rfl, hholds, hpending⟩ := discover_eq_ok hs b ht hd hc
    exact hholds.isLeast hs ⟨List.mem_cons_self, ht, hd⟩ hstops hpending

/-- Two methods of different modules call each other. One of them counts calls and keeps a record of them
at home. -/
def parity : ModuleSet Datum where
  root := {
    name := "Parity"
    types := [{
      space := "Ops"
      name := "Parity"
      fields := [⟨"calls", TypeName.int32, .none, none⟩, ⟨"record", "System.String", MemberFlags.ignoreTransfer, none⟩]
      methods := [{
        name := "IsEven"
        flags := MethodFlags.mobile
        params := [⟨"n", TypeName.int32, none⟩]
        returns := some TypeName.boolean
        body := [.loadArg 0, .jumpIfFalse 12, .loadThis, .loadThis, .loadField ⟨⟨none, "Ops.Parity"⟩, "calls"⟩,
          .const (.int32 1), .binary .add, .storeField ⟨⟨none, "Ops.Parity"⟩, "calls"⟩,
          .construct ⟨some "Opposite", "Ops.Opposite"⟩, .loadArg 0,
          .call ⟨⟨some "Opposite", "Ops.Opposite"⟩, "IsOdd", [TypeName.int32]⟩, .ret,
          .const (.bool true), .ret] }] }] }
  dependencies := [("Opposite", {
    name := "Opposite"
    types := [{
      space := "Ops"
      name := "Opposite"
      methods := [{
        name := "IsOdd"
        params := [⟨"n", TypeName.int32, none⟩]
        returns := some TypeName.boolean
        body := [.construct ⟨some "Parity", "Ops.Parity"⟩, .loadArg 0, .const (.int32 1), .binary .sub,
          .call ⟨⟨some "Parity", "Ops.Parity"⟩, "IsEven", [TypeName.int32]⟩, .not, .ret] }] }] })]

theorem parity_discover : ∃ t ∈ parity.root.types, ∃ d ∈ t.methods, ∃ c, parity.discover {} t.fullName d = .ok c ∧
    Sound parity {} ⟨parity.root, t, d⟩ ∧ IsLeast parity {} ⟨parity.root, t, d⟩ c ∧
    c.fields = [⟨"Ops.Parity", "calls"⟩] ∧ c.methods = [⟨"Ops.Opposite", "IsOdd", [TypeName.int32]⟩] ∧
    c.modules = ["Opposite"] := by
  have hleast := ModuleSet.discover_least (s := parity) (by decide) {} List.mem_cons_self (by decide) List.mem_cons_self
  exact ⟨_, List.mem_cons_self, _, List.mem_cons_self, _, rfl, hleast.1.mp ⟨_, rfl⟩, hleast.2 _ rfl, rfl, rfl, rfl⟩

end MobileCode
