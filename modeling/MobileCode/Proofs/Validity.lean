import MobileCode.Proofs.Fronts

/-! # Validity of deployed modules

A front branches to its own positions or to the position behind it, where the body starts. The front of
normal mode never leaves itself, so any body may follow it. The front of a sibling leads to the first
instruction of the body: there has to be one.
-/
namespace MobileCode
variable {α : Type}

/-! ## The check -/

namespace MethodDecl

theorem branchDefect?_eq_none {type : String} {d : MethodDecl α} :
    d.branchDefect? type = none ↔ BranchesInside d.body := by
  unfold branchDefect?
  simp only [List.findSome?_eq_none_iff, List.mem_zipIdx_iff_getElem?, Prod.forall]
  constructor
  · intro h i hi t ht
    obtain ⟨index, hindex⟩ := List.mem_iff_getElem?.mp hi
    have hnone := h i index hindex
    simp only [ht] at hnone
    split at hnone
    · assumption
    · cases hnone
  · intro h i index hindex
    have hinside := h i (List.mem_of_getElem? hindex)
    split
    · rename_i t ht
      exact if_pos (hinside t ht)
    · rfl

end MethodDecl

namespace Module

theorem typeDefect?_eq_none {module : String} {seen : List String} {t : TypeDecl α} :
    typeDefect? module seen t = none ↔
      t.name ≠ "" ∧ t.fullName ∉ seen ∧ ∀ d ∈ t.methods, BranchesInside d.body := by
  unfold typeDefect?
  have hempty : t.name.isEmpty = true ↔ t.name = "" := String.isEmpty_iff
  have hbodies : t.methods.findSome? (·.branchDefect? t.fullName) = none ↔ ∀ d ∈ t.methods, BranchesInside d.body := by
    simp only [List.findSome?_eq_none_iff, MethodDecl.branchDefect?_eq_none]
  split
  · rename_i h
    simp [hempty.mp h]
  split
  · simp_all
  · rename_i hname hseen
    rw [hbodies]
    exact ⟨fun h => ⟨fun he => hname (hempty.mpr he), hseen, h⟩, fun h => h.2.2⟩

theorem typesDefect?_eq_none {module : String} {seen : List String} {ts : List (TypeDecl α)} :
    typesDefect? module seen ts = none ↔ (∀ t ∈ ts, t.name ≠ "") ∧ (ts.map (·.fullName)).Nodup ∧
      (∀ t ∈ ts, t.fullName ∉ seen) ∧ ∀ t ∈ ts, ∀ d ∈ t.methods, BranchesInside d.body := by
  induction ts generalizing seen with
  | nil => simp [typesDefect?]
  | cons t ts ih =>
    rw [typesDefect?, Option.or_eq_none_iff, typeDefect?_eq_none, ih]
    simp only [List.forall_mem_cons]
    simp only [List.map_cons, List.nodup_cons, List.mem_map, List.mem_cons, not_or]
    constructor
    · rintro ⟨⟨hname, hseen, hbodies⟩, hnames, hdistinct, hnew, hrest⟩
      refine ⟨⟨hname, hnames⟩, ⟨?_, hdistinct⟩, ⟨hseen, fun u hu => (hnew u hu).2⟩, hbodies, hrest⟩
      rintro ⟨u, hu, he⟩
      exact (hnew u hu).1 he
    · rintro ⟨⟨hname, hnames⟩, ⟨hhead, hdistinct⟩, ⟨hseen, hnew⟩, hbodies, hrest⟩
      exact ⟨⟨hname, hseen, hbodies⟩, hnames, hdistinct, fun u hu => ⟨fun he => hhead ⟨u, hu, he⟩, hnew u hu⟩, hrest⟩

/-- The check accepts the valid modules and no others. -/
theorem validate_eq_ok {m : Module α} : m.validate = .ok () ↔ m.Valid := by
  have hdefect : m.validate = .ok () ↔ m.defect? = none := by
    unfold validate
    split <;> simp_all
  have hempty : m.name.isEmpty = true ↔ m.name = "" := String.isEmpty_iff
  rw [hdefect, defect?]
  split
  · rename_i h
    exact ⟨nofun, fun hm => absurd (hempty.mp h) hm.named⟩
  · rename_i h
    rw [typesDefect?_eq_none]
    constructor
    · rintro ⟨hnames, hdistinct, _, hbodies⟩
      exact ⟨fun he => h (hempty.mpr he), hnames, hdistinct, hbodies⟩
    · intro hm
      exact ⟨hm.typesNamed, hm.distinct, fun _ _ => List.not_mem_nil, hm.branches⟩

end Module

/-! ## Bodies -/

/-- The branches of a body stay in it when it is moved. -/
theorem BranchesInside.of_mem_shift {front body : List (Instruction α)} (h : BranchesInside body) {i : Instruction α}
    (hi : i ∈ body.map (·.shift (UInt64.ofNat front.length))) {t : UInt64} (ht : i.target? = some t) :
    t.toNat < (inFrontOf front body).length := by
  obtain ⟨j, hj, rfl⟩ := List.mem_map.mp hi
  rw [Instruction.target?_shift] at ht
  obtain ⟨u, hu, rfl⟩ := Option.map_eq_some_iff.mp ht
  have hlt := h j hj u hu
  rw [inFrontOf, List.length_append, List.length_map, UInt64.toNat_add, UInt64.toNat_ofNat']
  omega

theorem branchesInside_inFrontOf {front body : List (Instruction α)} (h : BranchesInside body) :
    BranchesInside (inFrontOf front body) ↔
      ∀ i ∈ front, ∀ t, i.target? = some t → t.toNat < front.length + body.length := by
  have hlength : (inFrontOf front body).length = front.length + body.length := by
    rw [inFrontOf, List.length_append, List.length_map]
  constructor
  · intro hall i hi t ht
    rw [← hlength]
    exact hall i (List.mem_append_left _ hi) t ht
  · intro hfront i hi t ht
    obtain hi | hi := List.mem_append.mp hi
    · rw [hlength]
      exact hfront i hi t ht
    · exact h.of_mem_shift hi ht

namespace DispatchSite
variable (site : DispatchSite) {body : List (Instruction α)} (h : BranchesInside body)
include h

/-- Any body may stand behind a front of normal mode. -/
theorem normalFront_inside (isVoid : Bool) : BranchesInside (inFrontOf (site.normalFront isVoid) body) := by
  rw [branchesInside_inFrontOf h]
  cases isVoid <;>
  · simp only [normalFront, if_true, Bool.false_eq_true, if_false, List.forall_mem_cons, Instruction.target?]
    simp
    omega

/-- A body that was moved has to have an instruction for the front to branch to. -/
theorem relayFront_inside : BranchesInside (inFrontOf site.relayFront body) ↔ body ≠ [] := by
  rw [branchesInside_inFrontOf h, ← List.length_pos_iff]
  unfold relayFront
  split <;>
  · simp only [List.forall_mem_cons, Instruction.target?]
    simp

end DispatchSite

theorem MethodDecl.stubBody_inside [Literal α] (type : String) (d sibling : MethodDecl α) :
    BranchesInside (d.stubBody type sibling) := by
  intro i hi t ht
  rw [stubBody, List.mem_append, List.mem_map] at hi
  obtain ⟨k, _, rfl⟩ | hi := hi
  · cases ht
  · simp only [List.mem_cons, List.not_mem_nil, or_false] at hi
    obtain rfl | rfl | rfl := hi <;> cases ht

/-! ## Types and modules -/

namespace TypeDecl.Grown
variable [Literal α] {client : String} {P : Nat → Prop} {t : TypeDecl α} {main siblings : List (MethodDecl α)}
  (h : Grown client P t main siblings) (hinside : ∀ d ∈ t.methods, BranchesInside d.body)
include h hinside

/-- The methods of a type branch inside their bodies, whatever was made mobile. -/
theorem main_inside : ∀ e ∈ main, BranchesInside e.body := by
  intro e he
  obtain ⟨k, hk⟩ := List.mem_iff_getElem?.mp he
  have hlt : k < t.methods.length := h.length ▸ (List.getElem?_eq_some_iff.mp hk).1
  have hd : t.methods[k]? = some t.methods[k] := List.getElem?_eq_getElem hlt
  have hbody := hinside _ (List.getElem_mem hlt)
  by_cases hP : P k
  · obtain ⟨_, closure, e', he', hmarks⟩ := h.moved hd hP
    cases hk.symm.trans he'
    have hform : BranchesInside (t.methods[k].mobileForm client t.fullName closure).body := by
      by_cases hmode : t.methods[k].manner.mode = .normal
      · rw [MethodDecl.mobileForm_normal hmode]
        exact DispatchSite.normalFront_inside _ hbody _
      · rw [MethodDecl.mobileForm_moved hmode]
        exact MethodDecl.stubBody_inside _ _ _
    obtain rfl | ⟨_, rfl⟩ := hmarks <;> exact hform
  · cases hk.symm.trans (h.kept hd hP)
    exact hbody

theorem siblings_inside : (∀ s ∈ siblings, BranchesInside s.body) ↔
    ∀ k d, t.methods[k]? = some d → P k → d.manner.mode ≠ .normal → d.body ≠ [] := by
  constructor
  · intro hall k d hd hP hmode
    obtain ⟨_, hmem, _⟩ := h.stub hd hP hmode
    exact (DispatchSite.relayFront_inside _ (hinside d (List.mem_of_getElem? hd))).mp (hall _ hmem)
  · intro hfull s hs
    obtain ⟨k, d, hd, hP, hsibling⟩ := h.origin s hs
    obtain ⟨hmode, rfl⟩ := MethodDecl.sibling?_eq_some hsibling
    exact (DispatchSite.relayFront_inside _ (hinside d (List.mem_of_getElem? hd))).mpr (hfull k d hd hP hmode)

end TypeDecl.Grown

namespace Module.Grown
variable [Literal α] {client : String} {D : Nat → Nat → Prop} {m n : Module α} (h : Grown client D m n)
include h

theorem of_getElem? {i : Nat} {t : TypeDecl α} (ht : m.types[i]? = some t) :
    ∃ main siblings, n.types[i]? = some { t with methods := main ++ siblings } ∧
      TypeDecl.Grown client (D i) t main siblings := by
  have hrel := h.types i
  rw [ht] at hrel
  generalize n.types[i]? = y at hrel ⊢
  cases hrel with
  | some hgrown =>
    obtain ⟨main, siblings, rfl, hgrown⟩ := hgrown
    exact ⟨main, siblings, rfl, hgrown⟩

/-- Each type of the second module is a grown one of the first. -/
theorem of_mem {u : TypeDecl α} (hu : u ∈ n.types) : ∃ i t main siblings, m.types[i]? = some t ∧
    u = { t with methods := main ++ siblings } ∧ TypeDecl.Grown client (D i) t main siblings := by
  obtain ⟨i, hi⟩ := List.mem_iff_getElem?.mp hu
  have hrel := h.types i
  rw [hi] at hrel
  generalize ht : m.types[i]? = x at hrel
  cases hrel with
  | some hgrown =>
    obtain ⟨main, siblings, rfl, hgrown⟩ := hgrown
    exact ⟨i, _, main, siblings, ht, rfl, hgrown⟩

/-- A valid module stays valid if each body that moves has an instruction. -/
theorem valid_iff (hm : m.Valid) : n.Valid ↔ ∀ i k t d, m.types[i]? = some t → t.methods[k]? = some d → D i k →
    d.manner.mode ≠ .normal → d.body ≠ [] := by
  have hinside {i : Nat} {t : TypeDecl α} (ht : m.types[i]? = some t) := hm.branches t (List.mem_of_getElem? ht)
  constructor
  · intro hn i k t d ht hd hD hmode
    obtain ⟨main, siblings, hu, hgrown⟩ := h.of_getElem? ht
    have hall := hn.branches _ (List.mem_of_getElem? hu)
    have hsiblings : ∀ s ∈ siblings, BranchesInside s.body := fun s hs => hall s (List.mem_append_right _ hs)
    exact (hgrown.siblings_inside (hinside ht)).mp hsiblings k d hd hD hmode
  · intro hfull
    have hbodies : ∀ u ∈ n.types, ∀ e ∈ u.methods, BranchesInside e.body := by
      intro u hu e he
      obtain ⟨i, t, main, siblings, ht, rfl, hgrown⟩ := h.of_mem hu
      obtain he | he := List.mem_append.mp he
      · exact hgrown.main_inside (hinside ht) e he
      · exact (hgrown.siblings_inside (hinside ht)).mpr (fun k d hd hD hmode => hfull i k t d ht hd hD hmode) e he
    have hnamed : ∀ u ∈ n.types, u.name ≠ "" := by
      intro u hu
      obtain ⟨i, t, main, siblings, ht, rfl, _⟩ := h.of_mem hu
      exact hm.typesNamed t (List.mem_of_getElem? ht)
    exact ⟨h.name ▸ hm.named, hnamed, h.fullNames ▸ hm.distinct, hbodies⟩

end Module.Grown

/-! ## Deployments -/

/-- A module whose name is free is registered if no type of it is defined elsewhere. -/
theorem Domain.register_free {d : Domain} {m : Module Datum} (bytes : Bytes) (path : Option String)
    (hnew : d.module? m.name = none) (hclash : d.clash? ((instantiate m).run d.heap).1 = none) :
    ∃ d', d.register m bytes path = .ok (d.loading m bytes path, d') := by
  unfold register loading
  simp only [hnew]
  generalize (instantiate m).run d.heap = a at hclash ⊢
  obtain ⟨code, heap⟩ := a
  simp only at hclash ⊢
  rw [hclash]
  exact ⟨_, rfl⟩

/-- A valid module can be loaded wherever its name and those of its types are free. -/
theorem Domain.load_of_valid {m : Module Datum} (hm : m.Valid) {d : Domain} (hnew : d.module? m.name = none)
    (hfree : ∀ t ∈ m.types, d.type? t.fullName = none) : ∃ l d', d.load m = .ok (l, d') ∧ d'.Has m l := by
  have hclash : d.clash? ((instantiate m).run d.heap).1 = none := by
    unfold clash?
    rw [List.findSome?_eq_none_iff]
    intro u hu
    have hmem : u.fullName ∈ m.types.map (·.fullName) :=
      m.instantiate_fullNames d.heap ▸ List.mem_map_of_mem hu
    obtain ⟨t, ht, hname⟩ := List.mem_map.mp hmem
    rw [← hname, hfree t ht]
    rfl
  obtain ⟨d', hregister⟩ := register_free m.toFile none hnew hclash
  have hload : d.load m = d.register m m.toFile none := by
    unfold load
    rw [Module.validate_eq_ok.mpr hm]
    rfl
  exact ⟨_, d', hload.trans hregister, .of_register hnew hm.distinct hregister⟩

/-- The modules of a deployment are valid unless a body that was moved to a sibling is empty. Then they can
be loaded wherever the names are free. -/
theorem Deployment.valid_unless_emptied {boundary : Boundary} {digest : DigestAlgorithm} {m n : Module Datum}
    {dependencies : List (Module Datum)} {dep : Deployment} (hvalid : m.validate = .ok ())
    (hmake : make? boundary digest m dependencies = .ok (some dep)) (hn : n = dep.client ∨ n = dep.server) :
    (n.validate = .ok () ↔ ∀ t ∈ m.targets, t.mobility.mode ≠ .normal → t.method.body ≠ []) ∧
    (n.validate = .ok () → ∀ d : Domain, d.module? m.name = none → (∀ t ∈ m.types, d.type? t.fullName = none) →
      ∃ l d', d.load n = .ok (l, d') ∧ d'.Has n l) := by
  have hgrown := grown hmake hn
  have hm := Module.validate_eq_ok.mp hvalid
  constructor
  · rw [Module.validate_eq_ok, hgrown.valid_iff hm]
    constructor
    · intro hfull t ht hmode
      obtain ⟨⟨htype, hmethod⟩, _⟩ := Module.mem_targets.mp ht
      exact hfull _ _ _ _ htype hmethod (List.mem_map_of_mem ht) hmode
    · intro hfull i k t d ht hd hD hmode
      exact hfull ⟨i, k, t, d⟩ (Module.mem_targets.mpr ⟨⟨ht, hd⟩, (Module.mem_positions ht hd).mp hD⟩) hmode
  · intro hloads d hnew hfree
    have hnames : ∀ u ∈ n.types, d.type? u.fullName = none := by
      intro u hu
      obtain ⟨i, t, main, siblings, ht, rfl, _⟩ := hgrown.of_mem hu
      exact hfree t (List.mem_of_getElem? ht)
    exact Domain.load_of_valid (Module.validate_eq_ok.mp hloads) (hgrown.name.symm ▸ hnew) hnames

/-- Both modules of the gauge can be loaded. -/
theorem gauge_stays_valid : ∃ dep l d l' d', gauge.validate = .ok () ∧
    Deployment.make? {} .sha1 gauge [] = .ok (some dep) ∧
    Domain.load { hostName := "client" } dep.client = .ok (l, d) ∧
    Domain.load { hostName := "server" } dep.server = .ok (l', d') := by
  have hmade : ∃ dep, Deployment.make? {} .sha1 gauge [] = .ok (some dep) := ⟨_, rfl⟩
  obtain ⟨dep, hmake⟩ := hmade
  have hvalid : gauge.validate = .ok () := rfl
  have hbodies : ∀ t ∈ gauge.types, ∀ d ∈ t.methods, d.body ≠ [] := by simp [gauge]
  have hfull : ∀ t ∈ gauge.targets, t.mobility.mode ≠ .normal → t.method.body ≠ [] := by
    intro t ht _
    have hstands := (Module.mem_targets.mp ht).1
    exact hbodies _ (List.mem_of_getElem? hstands.1) _ (List.mem_of_getElem? hstands.2)
  have hclient := Deployment.valid_unless_emptied hvalid hmake (.inl rfl)
  have hserver := Deployment.valid_unless_emptied hvalid hmake (.inr rfl)
  obtain ⟨l, d, hl, _⟩ := hclient.2 (hclient.1.mpr hfull) { hostName := "client" } rfl fun _ _ => rfl
  obtain ⟨l', d', hl', _⟩ := hserver.2 (hserver.1.mpr hfull) { hostName := "server" } rfl fun _ _ => rfl
  exact ⟨dep, l, d, l', d', hvalid, hmake, hl, hl'⟩

end MobileCode
