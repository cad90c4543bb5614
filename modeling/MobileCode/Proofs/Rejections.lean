import MobileCode.Proofs.Changes
import MobileCode.Proofs.Slots

/-! # When a deployment is refused

A module is checked before anything is made mobile, but each method that becomes mobile may add a sibling to its type,
and the next one is checked against that. So the first check settles all but one thing: two targets of one type that
both need siblings must not have one name. What closures reach into was supplied, so carrying it along cannot fail.
-/
namespace MobileCode
variable {α : Type}

/-! ## Supplied modules -/

namespace Discovery
variable {g : Setting α} {x : Item α} {w w' : Walk α} {site : MethodKey} {m : Module α}

/-- The walk has met bodies of the given modules only, and notes no other names than theirs. -/
structure Walk.Known (g : Setting α) (w : Walk α) : Prop where
  noted : ∀ name ∈ w.closure.modules, name ≠ g.modules.root.name ∧ ∃ m ∈ g.modules.members, m.name = name
  pending : ∀ x ∈ w.pending, x.module ∈ g.modules.members

theorem Walk.Known.note (h : w.Known g) (hm : m ∈ g.modules.members) : (noteModule g m w).Known g := by
  unfold noteModule
  split
  · exact h
  · rename_i hroot
    refine ⟨fun name hname => ?_, h.pending⟩
    obtain rfl | hname := KeySet.mem_of_mem_insert hname
    · exact ⟨hroot, m, hm, rfl⟩
    · exact h.noted name hname

theorem Walk.Known.enqueue (h : w.Known g) (hx : x.module ∈ g.modules.members) : (enqueue x w).Known g := by
  unfold Discovery.enqueue
  dsimp only
  split
  · exact h
  · exact ⟨h.noted, List.forall_mem_cons.mpr ⟨hx, h.pending⟩⟩

theorem Walk.Known.property (h : w.Known g) (t : TypeDecl α) (p : PropertyDecl) : (noteProperty g t p w).Known g := by
  unfold noteProperty
  split
  · exact ⟨h.noted, h.pending⟩
  · exact h

theorem resolveType_mem (hx : x.module ∈ g.modules.members) {r : TypeRef} {kind : ReferenceKind} {member : String}
    {t : TypeDecl α} (h : resolveType g x r kind member site = .ok (m, t)) : m ∈ g.modules.members := by
  rw [resolveType_eq] at h
  split at h
  · rename_i found hfound
    cases h
    exact ModuleSet.scope?_mem hx (ModuleSet.lookup?_eq_some.mp hfound).1
  · cases h

/-- One case for each kind of instruction that refers to something. -/
theorem visit_known (h : w.Known g) (hx : x.module ∈ g.modules.members) {i : Instruction α}
    (hvisit : visit g x site w i = .ok w') : w'.Known g := by
  have hfield (r : FieldRef) (hvisit : visitField g x site r w = .ok w') : w'.Known g := by
    unfold visitField at hvisit
    split at hvisit
    · cases hvisit
      exact h
    obtain ⟨⟨m, t⟩, hresolve, hvisit⟩ := Except.bind_eq_ok.mp hvisit
    have hnoted := h.note (resolveType_mem hx hresolve)
    dsimp only at hvisit
    split at hvisit
    · cases hvisit
    split at hvisit <;> cases hvisit
    · exact ⟨hnoted.noted, hnoted.pending⟩
    · exact hnoted
  cases i with
  | loadField r => exact hfield r hvisit
  | storeField r => exact hfield r hvisit
  | loadStatic r => exact hfield r hvisit
  | storeStatic r => exact hfield r hvisit
  | call r =>
    replace hvisit : visitCall g x site r w = .ok w' := hvisit
    unfold visitCall at hvisit
    dsimp only at hvisit
    split at hvisit
    · cases hvisit
      exact h
    obtain ⟨⟨m, t⟩, hresolve, hvisit⟩ := Except.bind_eq_ok.mp hvisit
    have hm := resolveType_mem hx hresolve
    dsimp only at hvisit
    split at hvisit
    · cases hvisit
    split at hvisit
    · cases hvisit
      exact (h.note hm).enqueue hm
    split at hvisit <;> cases hvisit
    · exact h
    · exact ((h.property t _).note hm).enqueue hm
  | construct r =>
    replace hvisit : visitConstruct g x site r w = .ok w' := hvisit
    unfold visitConstruct at hvisit
    split at hvisit
    · cases hvisit
      exact h
    obtain ⟨⟨m, t⟩, hresolve, hvisit⟩ := Except.bind_eq_ok.mp hvisit
    have hm := resolveType_mem hx hresolve
    dsimp only at hvisit
    split at hvisit <;> cases hvisit
    · exact (h.note hm).enqueue hm
    · exact h.note hm
  | _ =>
    cases hvisit
    exact h

theorem scan_known (h : w.Known g) (hx : x.module ∈ g.modules.members) (hscan : scan g x w = .ok w') : w'.Known g := by
  unfold scan at hscan
  generalize x.method.body = body at hscan
  induction body generalizing w with
  | nil =>
    cases hscan
    exact h
  | cons i body ih =>
    obtain ⟨v, hvisit, hscan⟩ := Except.bind_eq_ok.mp hscan
    exact ih (visit_known h hx hvisit) hscan

theorem walk_known (fuel : Nat) (h : w.Known g) (hwalk : walk g fuel w = .ok w') : w'.Known g := by
  induction fuel generalizing w with
  | zero =>
    cases hwalk
    exact h
  | succ fuel ih =>
    rw [walk] at hwalk
    split at hwalk
    · cases hwalk
      exact h
    · rename_i x rest hpending
      obtain ⟨hx, hrest⟩ := List.forall_mem_cons.mp (hpending ▸ h.pending)
      have hknown : Walk.Known g { w with pending := rest } := ⟨h.noted, hrest⟩
      obtain ⟨v, hscan, hwalk⟩ := Except.bind_eq_ok.mp hwalk
      exact ih (scan_known hknown hx hscan) hwalk

end Discovery

/-- A closure reaches into no other modules than those that were given. -/
theorem ModuleSet.discover_known {s : ModuleSet α} {boundary : Boundary} {type : String} {d : MethodDecl α} {c : Closure}
    (h : s.discover boundary type d = .ok c) :
    ∀ name ∈ c.modules, name ≠ s.root.name ∧ ∃ m ∈ s.members, m.name = name := by
  unfold discover at h
  split at h
  · cases h
  rename_i t _
  dsimp only at h
  cases hwalk : Discovery.walk ⟨s, boundary, t.fullName⟩ s.bound
      { visited := [d.key type], pending := [⟨s.root, t, d⟩] } with
  | error e =>
    rw [hwalk] at h
    cases h
  | ok w =>
    rw [hwalk] at h
    cases h
    refine (Discovery.walk_known s.bound ⟨fun _ h => absurd h List.not_mem_nil, ?_⟩ hwalk).noted
    exact List.forall_mem_singleton.mpr List.mem_cons_self

/-! ## Siblings in the way -/

theorem relayBodyName_inj {a b : String} : relayBodyName a = relayBodyName b ↔ a = b := String.append_left_inj _

namespace TypeDecl
variable [Literal α] {client : String} {moved : List (Nat × Closure)} {t : TypeDecl α} {d : MethodDecl α}

theorem defaultConstructor?_withMobile (h : t.defaultConstructor?.isSome = true) :
    (t.withMobile client moved).defaultConstructor?.isSome = true := by
  obtain ⟨c, hc, hdefault⟩ := List.find?_isSome.mp h
  obtain ⟨k, hk⟩ := List.mem_iff_getElem?.mp hc
  refine List.find?_isSome.mpr ⟨_, List.mem_of_getElem? (getElem?_withMobile hk), ?_⟩
  cases moved.lookup k with
  | none => exact hdefault
  | some closure => exact (MethodDecl.mobileForm_isDefaultConstructor closure).trans hdefault

/-- Methods keep their names, and siblings come behind. -/
theorem names_withMobile : (t.withMobile client moved).methods.map (·.name) = t.methods.map (·.name) ++
    (moved.filterMap fun p => t.methods[p.1]?.bind (·.sibling? client t.fullName)).map (·.name) := by
  rw [withMobile, List.map_append]
  refine congrArg (· ++ _) (List.ext_getElem? fun k => ?_)
  rw [List.getElem?_map, List.getElem?_mapIdx, List.getElem?_map, Option.map_map]
  refine congrArg (Option.map · _) (funext fun d => ?_)
  cases moved.lookup k with
  | none => rfl
  | some closure => exact MethodDecl.mobileForm_name closure

/-- What was no obstacle at first is none later, but for siblings that have come. -/
theorem obstacle?_withMobile {a : Mobility} (h : a.obstacle? t d = none) :
    a.obstacle? (t.withMobile client moved) d = none ↔ (a.mode ≠ .normal → relayBodyName d.name ∉
      (moved.filterMap fun p => t.methods[p.1]?.bind (·.sibling? client t.fullName)).map (·.name)) := by
  have hnames (u : TypeDecl α) : (∀ e ∈ u.methods, e.name ≠ relayBodyName d.name) ↔
      relayBodyName d.name ∉ u.methods.map (·.name) := by
    simp
  obtain ⟨hmobilized, hdefault, hparams, hmoved⟩ := obstacle?_eq_none_iff.mp h
  simp only [hnames] at hmoved
  rw [obstacle?_eq_none_iff, hnames, names_withMobile, List.mem_append, not_or]
  constructor
  · rintro ⟨_, _, _, hlater⟩ hmode
    exact (hlater hmode).2.2.2
  · intro hlater
    refine ⟨hmobilized, defaultConstructor?_withMobile hdefault, hparams, fun hmode => ?_⟩
    obtain ⟨hstatic, hvoid, hfree⟩ := hmoved hmode
    exact ⟨hstatic, hvoid, hfree, hlater hmode⟩

end TypeDecl

namespace Target
variable {m : Module α} {t u : Target α} {done : List (Target α × Closure)}

/-- Two targets of one type whose siblings would have one name. -/
def Clashes (t u : Target α) : Prop :=
  t.typeIndex = u.typeIndex ∧ t.method.name = u.method.name ∧ t.mobility.mode ≠ .normal ∧ u.mobility.mode ≠ .normal

instance (t u : Target α) : Decidable (t.Clashes u) := inferInstanceAs (Decidable (_ ∧ _))

theorem check_eq_ok {a : Mobility} {module : String} {type : TypeDecl α} {d : MethodDecl α} :
    a.check module type d = .ok () ↔ a.obstacle? type d = none := by
  unfold Mobility.check
  split <;> simp_all

variable [Literal α] {client : String}

theorem mem_siblings (hdone : ∀ p ∈ done, p.1.StandsIn m) (ht : t.StandsIn m) :
    relayBodyName t.method.name ∈ ((movesIn t.typeIndex done).filterMap fun p =>
        t.type.methods[p.1]?.bind (·.sibling? client t.type.fullName)).map (·.name) ↔
      ∃ p ∈ done, p.1.typeIndex = t.typeIndex ∧ p.1.mobility.mode ≠ .normal ∧ p.1.method.name = t.method.name := by
  simp only [List.mem_map, List.mem_filterMap, movesIn, List.mem_filter, decide_eq_true_eq]
  have htype {p : Target α × Closure} (hp : p ∈ done) (hi : p.1.typeIndex = t.typeIndex) : p.1.type = t.type :=
    Option.some.inj ((hdone p hp).1.symm.trans (hi ▸ ht.1))
  constructor
  · rintro ⟨s, ⟨_, ⟨p, ⟨hp, hi⟩, rfl⟩, hs⟩, hname⟩
    rw [← htype hp hi, (hdone p hp).2, Option.bind_some] at hs
    obtain ⟨hmode, rfl⟩ := MethodDecl.sibling?_eq_some hs
    exact ⟨p, hp, hi, hmode, relayBodyName_inj.mp hname⟩
  · rintro ⟨p, hp, hi, hmode, hname⟩
    refine ⟨p.1.method.relaySibling (p.1.method.callSite client t.type.fullName), ⟨_, ⟨p, ⟨hp, hi⟩, rfl⟩, ?_⟩, ?_⟩
    · rw [← htype hp hi, (hdone p hp).2, Option.bind_some, MethodDecl.sibling?, MethodDecl.mobilize_moved hmode]
    · exact relayBodyName_inj.mpr hname

/-- The second check, behind other targets. -/
theorem check_withMobile (hdone : ∀ p ∈ done, p.1.StandsIn m) (ht : t.StandsIn m) {module : String}
    (hcheck : t.check module = .ok ()) :
    t.mobility.check module (t.type.withMobile client (movesIn t.typeIndex done)) t.method = .ok () ↔
      ∀ p ∈ done, ¬p.1.Clashes t := by
  rw [check_eq_ok, TypeDecl.obstacle?_withMobile (check_eq_ok.mp hcheck), mem_siblings hdone ht]
  constructor
  · rintro h p hp ⟨hi, hname, hmode, hmode'⟩
    exact h hmode' ⟨p, hp, hi, hmode, hname⟩
  · rintro h hmode' ⟨p, hp, hi, hmode, hname⟩
    exact h p hp ⟨hi, hname, hmode, hmode'⟩

end Target

namespace Deployment
variable {boundary : Boundary} {digest : DigestAlgorithm} {m n : Module Datum} {dependencies : List (Module Datum)}

/-- A whole run succeeds if no target clashes with one before it. -/
theorem mobilizeAll_succeeds_iff {client : String} {ts done : List (Target Datum × Closure)}
    (hdone : ∀ p ∈ done, p.1.StandsIn m) (hts : ∀ p ∈ ts, p.1.StandsIn m)
    (hchecks : ∀ p ∈ ts, p.1.check m.name = .ok ()) (hnodup : ((done ++ ts).map (·.1.position)).Nodup) :
    (∃ r, mobilizeAll client ts (m.withMobile client done) = .ok r) ↔
      (∀ p ∈ done, ∀ q ∈ ts, ¬p.1.Clashes q.1) ∧ ts.Pairwise fun p q => ¬p.1.Clashes q.1 := by
  induction ts generalizing done with
  | nil => simp [mobilizeAll]
  | cons q ts ih =>
    obtain ⟨t, closure⟩ := q
    obtain ⟨ht, hts⟩ := List.forall_mem_cons.mp hts
    obtain ⟨hcheck, hchecks⟩ := List.forall_mem_cons.mp hchecks
    have hnew := Target.position_not_mem_of_nodup hnodup
    have hnext : t.mobility.check m.name (t.type.withMobile client (Target.movesIn t.typeIndex done)) t.method = .ok () ↔
        ∀ p ∈ done, ¬p.1.Clashes t := Target.check_withMobile hdone ht hcheck
    have hdone' : ∀ p ∈ done ++ [(t, closure)], p.1.StandsIn m := by
      simpa [or_imp, forall_and] using ⟨fun a b hab => hdone (a, b) hab, ht⟩
    rw [List.append_cons] at hnodup
    have hrest := ih hdone' hts hchecks hnodup
    rw [mobilizeAll, Target.mobilize_withMobile ht hnew]
    cases hsecond : t.mobility.check m.name (t.type.withMobile client (Target.movesIn t.typeIndex done)) t.method with
    | error e =>
      rw [hsecond] at hnext
      constructor
      · rintro ⟨_, h⟩
        cases h
      · rintro ⟨h, _⟩
        cases hnext.mpr fun p hp => h p hp _ List.mem_cons_self
    | ok _ =>
      have hfirst := hnext.mp hsecond
      refine Iff.trans ?_ (hrest.trans ?_)
      · cases hothers : mobilizeAll client ts (m.withMobile client (done ++ [(t, closure)])) <;>
          simp [Except.map, bind, Except.bind, pure, Except.pure, hothers]
      constructor
      · rintro ⟨hclashes, hpairwise⟩
        have hhead := hclashes _ (List.mem_append_right _ (List.mem_singleton_self _))
        exact ⟨fun p hp => List.forall_mem_cons.mpr ⟨hfirst p hp, hclashes p (List.mem_append_left _ hp)⟩,
          List.pairwise_cons.mpr ⟨hhead, hpairwise⟩⟩
      · rintro ⟨hclashes, hpairwise⟩
        obtain ⟨hhead, hpairwise⟩ := List.pairwise_cons.mp hpairwise
        refine ⟨List.forall_mem_append.mpr ⟨fun p hp => ?_, List.forall_mem_singleton.mpr hhead⟩, hpairwise⟩
        exact (List.forall_mem_cons.mp (hclashes p hp)).2

/-- Carrying along what was supplied cannot fail. -/
theorem carryAll_succeeds {names : List String} (h : ∀ name ∈ names, ∃ d ∈ dependencies, d.name = name) :
    ∃ n', carryAll dependencies names n = .ok n' := by
  induction names generalizing n with
  | nil => exact ⟨n, rfl⟩
  | cons name names ih =>
    obtain ⟨⟨d, hd, hname⟩, h⟩ := List.forall_mem_cons.mp h
    unfold carryAll
    split
    · rename_i hnone
      exact absurd (decide_eq_true hname) (List.find?_eq_none.mp hnone d hd)
    · exact ih h

theorem mapM_succeeds {β γ : Type} {f : β → Except Error γ} {xs : List β} (h : ∀ x ∈ xs, ∃ y, f x = .ok y) :
    ∃ ys, xs.mapM f = .ok ys := by
  induction xs with
  | nil => exact ⟨[], rfl⟩
  | cons x xs ih =>
    obtain ⟨⟨y, hy⟩, h⟩ := List.forall_mem_cons.mp h
    obtain ⟨ys, hys⟩ := ih h
    refine ⟨y :: ys, ?_⟩
    rw [List.mapM_cons, hy]
    simp only [bind, Except.bind, hys]
    rfl

/-- What is bundled was supplied. -/
theorem bundle_supplied {closures : List Closure}
    (h : (m.targets.mapM fun t => (ModuleSet.ofList m dependencies).discover boundary t.type.fullName t.method) =
      .ok closures) :
    ∀ name ∈ closures.foldl (fun names c => KeySet.union names c.modules) [], ∃ d ∈ dependencies, d.name = name := by
  intro name hname
  obtain ⟨c, hc, hnoted⟩ := (mem_bundle.mp hname).resolve_left List.not_mem_nil
  obtain ⟨t, _, hdiscover⟩ := Forall₂.exists_of_mem (forall₂_mapM h).flip hc
  obtain ⟨hne, d, hd, rfl⟩ := ModuleSet.discover_known hdiscover name hnoted
  refine ⟨d, (ModuleSet.mem_members hd).resolve_left ?_, rfl⟩
  rintro rfl
  exact hne rfl

/-- If all targets pass the first check and all closures are discovered, then the module is refused only for two targets
of one type that need siblings of one name. -/
theorem make?_succeeds_iff (htargets : m.targets ≠ []) (hchecks : ∀ t ∈ m.targets, t.check m.name = .ok ())
    (hdiscover : ∀ t ∈ m.targets, ∃ c,
      (ModuleSet.ofList m dependencies).discover boundary t.type.fullName t.method = .ok c) :
    (∃ dep, make? boundary digest m dependencies = .ok (some dep)) ↔ m.targets.Pairwise fun t u => ¬t.Clashes u := by
  obtain ⟨closures, hclosures⟩ := mapM_succeeds hdiscover
  obtain ⟨checked, hchecked⟩ := mapM_succeeds fun t ht => ⟨(), hchecks t ht⟩
  have hzip : (m.targets.zip closures).map Prod.fst = m.targets :=
    List.map_fst_zip (Nat.le_of_eq (length_mapM hclosures).symm)
  have hmem : ∀ p ∈ m.targets.zip closures, p.1 ∈ m.targets := fun p hp => (List.of_mem_zip hp).1
  have hnodup : ((m.targets.zip closures).map (·.1.position)).Nodup := by
    rw [map_position_zip (length_mapM hclosures)]
    exact Module.nodup_targets m
  have hrun : (∃ r, mobilizeAll boundary.clientType (m.targets.zip closures) m = .ok r) ↔
      m.targets.Pairwise fun t u => ¬t.Clashes u := by
    have hall : (∃ r, mobilizeAll boundary.clientType (m.targets.zip closures) (m.withMobile boundary.clientType []) =
        .ok r) ↔ _ := mobilizeAll_succeeds_iff (by simp) (fun p hp => (Module.mem_targets.mp (hmem p hp)).1)
      (fun p hp => hchecks p.1 (hmem p hp)) hnodup
    rw [Module.withMobile_nil, and_iff_right (by simp)] at hall
    have hpairwise := List.pairwise_map (R := fun t u : Target Datum => ¬t.Clashes u) (f := Prod.fst)
      (l := m.targets.zip closures)
    rw [hall, ← hpairwise, hzip]
  rw [← hrun]
  constructor
  · rintro ⟨dep, hmake⟩
    obtain ⟨found, made, hfound, hmade, _⟩ := make?_eq_ok hmake
    cases hclosures.symm.trans hfound
    exact ⟨_, hmade⟩
  · rintro ⟨⟨methods, made⟩, hmade⟩
    obtain ⟨client, hcarried⟩ := carryAll_succeeds (n := made) (bundle_supplied hclosures)
    have hsome : m.targets.isEmpty = false := by simpa using htargets
    unfold make?
    simp only [hsome, hchecked, hclosures, hmade, hcarried, bind, Except.bind, pure, Except.pure]
    exact ⟨_, rfl⟩

/-- A type with two relayed methods, of which the second one has a parameter. -/
def siren (second : String) : Module Datum where
  name := "Siren"
  types := [{
    space := "Ops"
    name := "Siren"
    methods := [
      { name := constructorName, flags := MethodFlags.constructor, body := [.ret] },
      { name := "Sound", flags := MethodFlags.static, mobility := some { mode := .relay }, body := [.ret] },
      { name := second, flags := MethodFlags.static, mobility := some { mode := .relay },
        params := [⟨"times", TypeName.int32, none⟩], body := [.ret] }] }]

/-- Under another name the second method is no obstacle. -/
theorem siren_made : ∃ dep, make? {} .sha1 (siren "Flash") [] = .ok (some dep) := by
  have hchecks : ∀ t ∈ (siren "Flash").targets, t.check (siren "Flash").name = .ok () :=
    List.forall_mem_cons.mpr ⟨rfl, List.forall_mem_cons.mpr ⟨rfl, List.forall_mem_nil _⟩⟩
  have hdiscover : ∀ t ∈ (siren "Flash").targets, ∃ c,
      (ModuleSet.ofList (siren "Flash") []).discover {} t.type.fullName t.method = .ok c :=
    List.forall_mem_cons.mpr ⟨⟨_, rfl⟩, List.forall_mem_cons.mpr ⟨⟨_, rfl⟩, List.forall_mem_nil _⟩⟩
  exact (make?_succeeds_iff (by decide) hchecks hdiscover).mpr (by decide)

/-- Under the same name the module passes the first check and is refused by the second one. -/
theorem siren_refused : (siren "Sound").validate = .ok () ∧ (siren "Sound").targets ≠ [] ∧
    (∀ t ∈ (siren "Sound").targets, t.check (siren "Sound").name = .ok ()) ∧
    (∀ t ∈ (siren "Sound").targets, ∃ c,
      (ModuleSet.ofList (siren "Sound") []).discover {} t.type.fullName t.method = .ok c) ∧
    make? {} .sha1 (siren "Sound") [] =
      .error (.unmovable "Ops.Siren::Sound" "Siren" "a method named 'Sound$relay' already exists") := by
  refine ⟨rfl, by decide, ?_, ?_, rfl⟩
  · exact List.forall_mem_cons.mpr ⟨rfl, List.forall_mem_cons.mpr ⟨rfl, List.forall_mem_nil _⟩⟩
  · exact List.forall_mem_cons.mpr ⟨⟨_, rfl⟩, List.forall_mem_cons.mpr ⟨⟨_, rfl⟩, List.forall_mem_nil _⟩⟩

end Deployment
end MobileCode
