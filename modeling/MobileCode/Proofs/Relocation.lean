import MobileCode.Proofs.Literals
import MobileCode.Proofs.Mobilization

/-! # Loading moved bodies

The literals of a module are loaded method by method. In its deployed form those of a moved body come
later, behind all methods, and its parameters are loaded once more there. So the second heap gets the
objects of a body as copies, after those of the methods that follow.
-/
namespace MobileCode

/-! ## Stages of loading -/

namespace MethodDecl

/-- The heap when the parameters have been loaded. -/
def paramsLoaded (d : MethodDecl Datum) (h : Heap) : Heap := ((d.params.mapM ParamDecl.load).run h).2

theorem extends_paramsLoaded (d : MethodDecl Datum) (h : Heap) : h.Extends (d.paramsLoaded h) :=
  Grows.mapM ParamDecl.load_grows d.params h

theorem paramsLoaded_extends (d : MethodDecl Datum) (h : Heap) : (d.paramsLoaded h).Extends (d.load.run h).2 :=
  Grows.mapM Instruction.load_grows d.body _

/-- The same declaration but for its literals. -/
structure Same (d : MethodDecl Datum) (e : MethodDecl Value) : Prop where
  name : e.name = d.name
  paramTypes : e.paramTypes = d.paramTypes
  flags : e.flags = d.flags
  returns : e.returns = d.returns
  locals : e.locals = d.locals
  mobility : e.mobility = d.mobility

theorem paramTypes_load (ps : List (ParamDecl Datum)) (h : Heap) :
    ((ps.mapM ParamDecl.load).run h).1.map (·.type) = ps.map (·.type) := by
  induction ps generalizing h with
  | nil => rfl
  | cons p ps ih =>
    rw [Heap.mapM_run_cons, List.map_cons, List.map_cons, ih]
    rfl

theorem load_same (d : MethodDecl Datum) (h : Heap) : d.Same (d.load.run h).1 :=
  ⟨rfl, paramTypes_load d.params h, rfl, rfl, rfl, rfl⟩

theorem Same.length_params {d : MethodDecl Datum} {e : MethodDecl Value} (h : d.Same e) :
    e.params.length = d.params.length := by
  have htypes : (e.params.map (·.type)).length = (d.params.map (·.type)).length := congrArg List.length h.paramTypes
  rwa [List.length_map, List.length_map] at htypes

theorem stubBody_load {d s : MethodDecl Datum} {e s' : MethodDecl Value} (type : String)
    (hlength : e.params.length = d.params.length) (hname : s'.name = s.name) (htypes : s'.paramTypes = s.paramTypes) :
    (d.stubBody type s).mapM Instruction.load = pure (e.stubBody type s') := by
  have hloads (is : List Nat) : (is.map fun i => Instruction.loadArg (UInt16.ofNat i)).mapM Instruction.load =
      pure (is.map fun i => Instruction.loadArg (UInt16.ofNat i)) := by
    induction is with
    | nil => rfl
    | cons i is ih =>
      rw [List.map_cons, List.mapM_cons, ih]
      rfl
  rw [stubBody, stubBody, List.mapM_append, hloads, hlength]
  simp only [reference, hname, htypes]
  rfl

end MethodDecl

/-! ## Methods -/

namespace MethodDecl
variable {H : Heap} {w : Links} {client : String}

/-- A method whose body stays in place. -/
theorem inPlace_copies {t : TypeDecl Datum} {mode? : Option Mode} {d e : MethodDecl Datum}
    (hform : MethodDecl.Form True Eq client t mode? d e) {h : Heap} (hH : (d.load.run h).2.Extends H) :
    Copies H (Heap.Added h (d.load.run h).2) w e.load fun w' e' =>
      ∀ exact u, MethodDecl.Form exact (Value.Linked w') client u mode? (d.load.run h).1 e' := by
  have hfollows := load_loads .later (w := w) hform
  exact (hfollows h H hH).mono (fun _ hr => hr) fun _ _ _ hrel => hrel.2.2

/-- A method that hands its calls on to a sibling. -/
theorem stub_copies {d e s : MethodDecl Datum} (type : String) (halike : d.Alike Eq e)
    (hbody : e.body = d.stubBody type s) {h : Heap} (hH : (d.load.run h).2.Extends H) :
    Copies H (Heap.Added h (d.paramsLoaded h)) w e.load fun w' e' => (d.load.run h).1.Alike (Value.Linked w') e' ∧
      ∀ s' : MethodDecl Value, s'.name = s.name → s'.paramTypes = s.paramTypes → e'.body = e'.stubBody type s' := by
  have hparams := params_load .later (w := w) halike.params
  have hlength : e.params.length = d.params.length := halike.params.length_eq.symm
  refine Copies.mono (Copies.bind (C := fun _ => False)
    (Q := fun w' e' => (d.load.run h).1.Alike (Value.Linked w') e' ∧ ∀ s' : MethodDecl Value,
      s'.name = s.name → s'.paramTypes = s.paramTypes → e'.body = e'.stubBody type s')
    (hparams h H ((d.paramsLoaded_extends h).trans hH)) (fun w' _ qs hqs => ?_) fun _ _ hr => hr)
    (fun r hr => hr.resolve_right id) fun _ _ _ hrel => hrel
  have hqs' : qs.length = d.params.length := hqs.2.length_eq.symm.trans hqs.1
  have hload (s' : MethodDecl Value) (hname : s'.name = s.name) (htypes : s'.paramTypes = s.paramTypes) :=
    stubBody_load (d := d) (e := { (default : MethodDecl Value) with params := qs }) type hqs' hname htypes
  have hsome := hload { (default : MethodDecl Value) with name := s.name, params := s.params.map fun p => ⟨p.name, p.type, none⟩ } rfl
    (by simp only [paramTypes, List.map_map]; rfl)
  rw [hbody, hsome]
  refine Copies.pure ⟨⟨halike.name, hqs.2, halike.returns, halike.static, halike.constructor⟩, ?_⟩
  intro s' hname htypes
  have hsame := hsome.symm.trans (hload s' hname htypes)
  exact congrArg (fun x : StateM Heap (List (Instruction Value)) => (x.run h).1) hsame

/-- The sibling that a body has moved to. -/
theorem sibling_copies {d : MethodDecl Datum} {site : DispatchSite} (hinside : BranchesInside d.body)
    (hwords : d.body.length < 2 ^ 63) {h : Heap} (hH : (d.load.run h).2.Extends H) :
    Copies H (Heap.Added (d.paramsLoaded h) (d.load.run h).2) w (d.relaySibling site).load fun w' s' =>
      (d.relaySibling site).Same s' ∧ Behind (Value.Linked w') site.relayFront (d.load.run h).1.body s'.body := by
  have hsix : (site.relayFront : List (Instruction Datum)).length ≤ 6 := site.length_relayFront_le
  have hbehind : Behind Eq site.relayFront d.body (inFrontOf site.relayFront d.body) :=
    behind_inFrontOf hinside (by omega)
  refine Copies.mono (Copies.bind (B := fun _ => False)
    (Q := fun w' s' => (d.relaySibling site).Same s' ∧
      Behind (Value.Linked w') site.relayFront (d.load.run h).1.body s'.body)
    (Copies.of_grows (P := fun ps : List (ParamDecl Value) => ps.map (·.type) = (d.relaySibling site).paramTypes)
      (.mapM ParamDecl.load_grows _) (paramTypes_load _))
    (fun w' _ ps hps => ?_) fun _ hr _ => hr) (fun r hr => hr.resolve_left id) fun _ _ _ hrel => hrel
  refine Copies.mono (Copies.bind (C := fun _ => False)
    (Q := fun w' s' => (d.relaySibling site).Same s' ∧
      Behind (Value.Linked w') site.relayFront (d.load.run h).1.body s'.body)
    (Behind.load_loads .later (w := w') site.relayFront_load site.length_relayFront hbehind (d.paramsLoaded h) H hH)
    (fun w'' _ b hb => ?_) fun _ _ hr => hr)
    (fun r hr => hr.resolve_right id) fun _ _ _ hrel => hrel
  exact Copies.pure ⟨⟨rfl, hps, rfl, rfl, rfl, rfl⟩, hb⟩

end MethodDecl

/-! ## Types -/

namespace TypeDecl.Grown
variable {client : String} {P : Nat → Prop} {t : TypeDecl Datum} {main siblings : List (MethodDecl Datum)}
  {h H : Heap} {w : Links}

/-- The heap before a method of the type is loaded. -/
abbrev before (t : TypeDecl Datum) (h : Heap) (k : Nat) : Heap := Heap.stage MethodDecl.load t.methods h k

/-- The method as it is loaded. -/
abbrev loaded (t : TypeDecl Datum) (h : Heap) (k : Nat) (d : MethodDecl Datum) : MethodDecl Value :=
  (d.load.run (before t h k)).1

/-- The objects of the parameters of a method, and those of its body if it stays in place. -/
def OwnObjects (P : Nat → Prop) (t : TypeDecl Datum) (h : Heap) (k : Nat) (r : Ref) : Prop :=
  ∃ d, t.methods[k]? = some d ∧ (Heap.Added (before t h k) (d.paramsLoaded (before t h k)) r ∨
    ¬(P k ∧ d.manner.mode ≠ .normal) ∧ Heap.Added (d.paramsLoaded (before t h k)) (before t h (k + 1)) r)

/-- The objects of the body that moved to a sibling. -/
def MovedObjects (client : String) (P : Nat → Prop) (t : TypeDecl Datum) (h : Heap)
    (siblings : List (MethodDecl Datum)) (j : Nat) (r : Ref) : Prop :=
  ∃ s k d, siblings[j]? = some s ∧ t.methods[k]? = some d ∧ P k ∧ d.sibling? client t.fullName = some s ∧
    Heap.Added (d.paramsLoaded (before t h k)) (before t h (k + 1)) r

/-- What a method in its mobile form is loaded as. -/
structure MainLoaded (client : String) (P : Nat → Prop) (t : TypeDecl Datum) (h : Heap)
    (mode? : MethodFlags → Option Mobility → Option Mode) (k : Nat) (w : Links) (d : MethodDecl Datum)
    (e : MethodDecl Value) : Prop where
  stands : t.methods[k]? = some d
  inPlace : ¬(P k ∧ d.manner.mode ≠ .normal) → ∀ u,
    MethodDecl.Form False (Value.Linked w) client u (mode? d.flags d.mobility) (loaded t h k d) e
  alike : (loaded t h k d).Alike (Value.Linked w) e
  stub : P k ∧ d.manner.mode ≠ .normal → ∀ s : MethodDecl Value,
    (d.relaySibling (d.callSite client t.fullName)).Same s → e.body = e.stubBody t.fullName s

theorem MainLoaded.mono {mode? : MethodFlags → Option Mobility → Option Mode} {k : Nat} {d : MethodDecl Datum}
    {e : MethodDecl Value} {w' : Links} (hle : w ≤ w') (he : MainLoaded client P t h mode? k w d e) :
    MainLoaded client P t h mode? k w' d e where
  stands := he.stands
  inPlace hn u := (he.inPlace hn u).mono fun _ _ hv => hv.mono hle
  alike := he.alike.mono fun _ _ hv => hv.mono hle
  stub := he.stub

/-- What a sibling is loaded as. -/
structure SiblingLoaded (client : String) (P : Nat → Prop) (t : TypeDecl Datum) (h : Heap) (k : Nat) (w : Links)
    (d s : MethodDecl Datum) (s' : MethodDecl Value) : Prop where
  stands : t.methods[k]? = some d
  visited : P k
  origin : d.sibling? client t.fullName = some s
  same : s.Same s'
  behind : Behind (Value.Linked w) (d.callSite client t.fullName).relayFront (loaded t h k d).body s'.body

theorem added_of_own {k : Nat} {r : Ref} (hr : OwnObjects P t h k r) :
    Heap.Added (before t h k) (before t h (k + 1)) r := by
  obtain ⟨d, hd, hr⟩ := hr
  have hnext := Heap.stage_succ (f := MethodDecl.load) hd h
  have hparams := (d.extends_paramsLoaded (before t h k)).size_le
  have hbody := (d.paramsLoaded_extends (before t h k)).size_le
  rw [← hnext] at hbody
  obtain ⟨hge, hlt⟩ | ⟨_, hge, hlt⟩ := hr
  · exact ⟨hge, Nat.lt_of_lt_of_le hlt hbody⟩
  · exact ⟨Nat.le_trans hparams hge, hlt⟩

theorem own_disjoint {i j : Nat} (hij : i ≠ j) (r : Ref) (hi : OwnObjects P t h i r) : ¬OwnObjects P t h j r :=
  fun hj => hij (Heap.added_stage_unique MethodDecl.load_grows (added_of_own hi) (added_of_own hj))

/-- The methods are loaded in their mobile forms, without the bodies that moved. -/
theorem main_copies (hg : Grown client P t main siblings) (hinside : ∀ d ∈ t.methods, BranchesInside d.body)
    (hwords : ∀ d ∈ t.methods, d.body.length < 2 ^ 63) {mode? : MethodFlags → Option Mobility → Option Mode}
    (hstays : ∀ k d, t.methods[k]? = some d → ¬(P k ∧ d.manner.mode ≠ .normal) →
      StaysInPlace (mode? d.flags d.mobility))
    (hH : ((t.methods.mapM MethodDecl.load).run h).2.Extends H) :
    Copies H (fun r => ∃ k, OwnObjects P t h k r) w (main.mapM MethodDecl.load) fun w' es =>
      es.length = main.length ∧ ∀ (k : Nat) (e : MethodDecl Value), es[k]? = some e →
        ∃ d, MainLoaded client P t h mode? k w' d e := by
  refine Copies.mapM (R := fun k w' e => ∃ d, MainLoaded client P t h mode? k w' d e) ?_
    (fun i j hij => own_disjoint hij) ?_
  · rintro k w' w'' hle e ⟨d, he⟩
    exact ⟨d, he.mono hle⟩
  · intro k e he w' _
    have hlt : k < t.methods.length := hg.length ▸ (List.getElem?_eq_some_iff.mp he).1
    obtain ⟨d, hd⟩ : ∃ d, t.methods[k]? = some d := ⟨_, List.getElem?_eq_getElem hlt⟩
    have hmem := List.mem_of_getElem? hd
    have hnext := Heap.stage_succ (f := MethodDecl.load) hd h
    have hext : (d.load.run (before t h k)).2.Extends H := by
      rw [← hnext]
      refine (Heap.stage_extends MethodDecl.load_grows t.methods h hlt).trans ?_
      rw [Heap.stage_length]
      exact hH
    by_cases hmoves : P k ∧ d.manner.mode ≠ .normal
    · obtain ⟨_, _, e', he', halike, hbody⟩ := hg.stub hd hmoves.1 hmoves.2
      cases he.symm.trans he'
      refine (MethodDecl.stub_copies t.fullName halike hbody hext).mono (fun r hr => ⟨d, hd, .inl hr⟩) ?_
      rintro w'' - f ⟨hf, hstub⟩
      exact ⟨d, hd, fun hn => absurd hmoves hn, hf, fun _ s hs => hstub s hs.name hs.paramTypes⟩
    · have hnormal (hk : P k) : d.manner.mode = .normal := by
        by_contra hn
        exact hmoves ⟨hk, hn⟩
      obtain ⟨e', he', hform⟩ := hg.inPlace hd (hinside d hmem) (hwords d hmem) hnormal (hstays k d hd hmoves)
      cases he.symm.trans he'
      refine (MethodDecl.inPlace_copies (hform True t) hext).mono (fun r hr => ⟨d, hd, ?_⟩) ?_
      · rw [← hnext] at hr
        by_cases hlt : r.index < (d.paramsLoaded (before t h k)).objects.size
        · exact .inl ⟨hr.1, hlt⟩
        · exact .inr ⟨hmoves, Nat.le_of_not_lt hlt, hr.2⟩
      · intro w'' _ f hf
        exact ⟨d, hd, fun _ u => hf False u, (hf False default).alike, fun hm => absurd hm hmoves⟩

theorem moved_disjoint (hg : Grown client P t main siblings) {i j : Nat} (hij : i ≠ j) (r : Ref)
    (hi : MovedObjects client P t h siblings i r) : ¬MovedObjects client P t h siblings j r := by
  have hadded {k : Nat} {d : MethodDecl Datum} (hd : t.methods[k]? = some d)
      (hr : Heap.Added (d.paramsLoaded (before t h k)) (before t h (k + 1)) r) :
      Heap.Added (before t h k) (before t h (k + 1)) r :=
    ⟨Nat.le_trans (d.extends_paramsLoaded _).size_le hr.1, hr.2⟩
  rintro ⟨s', k', d', hs', hd', _, horigin', hr'⟩
  obtain ⟨s, k, d, hs, hd, _, horigin, hr⟩ := hi
  obtain rfl : k = k' := Heap.added_stage_unique MethodDecl.load_grows (hadded hd hr) (hadded hd' hr')
  cases hd.symm.trans hd'
  cases horigin.symm.trans horigin'
  have hname : (siblings.map (·.name))[i]? = (siblings.map (·.name))[j]? := by
    rw [List.getElem?_map, List.getElem?_map, hs, hs']
  have hlt : i < (siblings.map (·.name)).length := by
    rw [List.length_map]
    exact (List.getElem?_eq_some_iff.mp hs).1
  exact hij ((List.getElem?_inj hlt hg.distinct).mp hname)

/-- The objects of moved bodies are not those of the methods. -/
theorem own_moved_disjoint {i j : Nat} (r : Ref) (hi : OwnObjects P t h i r) :
    ¬MovedObjects client P t h siblings j r := by
  rintro ⟨s, k, d, _, hd, hk, horigin, hr⟩
  obtain rfl : i = k := Heap.added_stage_unique MethodDecl.load_grows (added_of_own hi)
    ⟨Nat.le_trans (d.extends_paramsLoaded _).size_le hr.1, hr.2⟩
  obtain ⟨d', hd', hown⟩ := hi
  cases hd.symm.trans hd'
  obtain ⟨_, hlt⟩ | ⟨hstays, _⟩ := hown
  · exact Nat.not_lt.mpr hr.1 hlt
  · exact hstays ⟨hk, (MethodDecl.sibling?_eq_some horigin).1⟩

/-- The siblings are loaded with the bodies that moved to them. -/
theorem siblings_copies (hg : Grown client P t main siblings) (hinside : ∀ d ∈ t.methods, BranchesInside d.body)
    (hwords : ∀ d ∈ t.methods, d.body.length < 2 ^ 63)
    (hH : ((t.methods.mapM MethodDecl.load).run h).2.Extends H) :
    Copies H (fun r => ∃ j, MovedObjects client P t h siblings j r) w (siblings.mapM MethodDecl.load) fun w' ss =>
      ss.length = siblings.length ∧ ∀ (j : Nat) (s' : MethodDecl Value), ss[j]? = some s' →
        ∃ s k d, siblings[j]? = some s ∧ SiblingLoaded client P t h k w' d s s' := by
  refine Copies.mapM
    (R := fun j w' s' => ∃ s k d, siblings[j]? = some s ∧ SiblingLoaded client P t h k w' d s s') ?_
    (fun i j hij => moved_disjoint hg hij) ?_
  · rintro j w' w'' hle s' ⟨s, k, d, hs, hloaded⟩
    exact ⟨s, k, d, hs, { hloaded with behind := hloaded.behind.mono fun _ _ hv => hv.mono hle }⟩
  · intro j s hs w' _
    obtain ⟨k, d, hd, hk, horigin⟩ := hg.origin s (List.mem_of_getElem? hs)
    have hmem := List.mem_of_getElem? hd
    have hlt : k < t.methods.length := (List.getElem?_eq_some_iff.mp hd).1
    have hnext := Heap.stage_succ (f := MethodDecl.load) hd h
    have hext : (d.load.run (before t h k)).2.Extends H := by
      rw [← hnext]
      refine (Heap.stage_extends MethodDecl.load_grows t.methods h hlt).trans ?_
      rw [Heap.stage_length]
      exact hH
    obtain ⟨_, rfl⟩ := MethodDecl.sibling?_eq_some horigin
    refine (MethodDecl.sibling_copies (hinside d hmem) (hwords d hmem) hext).mono (fun r hr => ?_) ?_
    · rw [← hnext] at hr
      exact ⟨_, k, d, hs, hd, hk, horigin, hr⟩
    · rintro w'' - s' ⟨hsame, hbehind⟩
      exact ⟨_, k, d, hs, hd, hk, horigin, hsame, hbehind⟩

/-- The stubs of a loaded type find the siblings that hold their bodies. -/
theorem loaded_form (hg : Grown client P t main siblings) {mode? : MethodFlags → Option Mobility → Option Mode}
    (hmode : ∀ k d, t.methods[k]? = some d → P k → d.manner.mode ≠ .normal →
      mode? d.flags d.mobility = some d.manner.mode)
    {u : TypeDecl Value} {es ss : List (MethodDecl Value)} (hu : u.methods = es ++ ss) (hname : u.fullName = t.fullName)
    (hes : es.length = main.length) (hmain : ∀ (k : Nat) (e : MethodDecl Value), es[k]? = some e →
      ∃ d, MainLoaded client P t h mode? k w d e) (hss : ss.length = siblings.length)
    (hsiblings : ∀ (j : Nat) (s' : MethodDecl Value), ss[j]? = some s' →
      ∃ s k d, siblings[j]? = some s ∧ SiblingLoaded client P t h k w d s s') :
    List.Forall₂ (fun d e => MethodDecl.Form False (Value.Linked w) client u (mode? d.flags d.mobility) d e)
        ((t.methods.mapM MethodDecl.load).run h).1 es ∧
      ∀ s ∈ ss, ∀ d ∈ ((t.methods.mapM MethodDecl.load).run h).1, s.name ≠ d.name := by
  have hnames : ss.map (·.name) = siblings.map (·.name) := by
    refine List.ext_getElem? fun j => ?_
    rw [List.getElem?_map, List.getElem?_map]
    cases hs' : ss[j]? with
    | none =>
      rw [List.getElem?_eq_none_iff, hss, ← List.getElem?_eq_none_iff] at hs'
      rw [hs']
      rfl
    | some s' =>
      obtain ⟨s, _, _, hs, hloaded⟩ := hsiblings j s' hs'
      rw [hs, Option.map_some, Option.map_some, hloaded.same.name]
  have hlengths : ((t.methods.mapM MethodDecl.load).run h).1.length = es.length := by
    rw [Heap.length_mapM_run, hes, hg.length]
  have hnew : ∀ s' ∈ ss, ∀ d ∈ t.methods, s'.name ≠ d.name := by
    intro s' hs' d hd
    obtain ⟨j, hj⟩ := List.mem_iff_getElem?.mp hs'
    obtain ⟨s, _, _, hs, hloaded⟩ := hsiblings j s' hj
    rw [hloaded.same.name]
    exact hg.new s (List.mem_of_getElem? hs) d hd
  constructor
  · refine forall₂_of_getElem? fun k => ?_
    cases he : es[k]? with
    | none =>
      rw [List.getElem?_eq_none_iff, ← hlengths, ← List.getElem?_eq_none_iff] at he
      rw [he]
      exact .none
    | some e =>
      obtain ⟨d, hloaded⟩ := hmain k e he
      rw [Heap.mapM_getElem? hloaded.stands]
      refine .some ?_
      by_cases hmoves : P k ∧ d.manner.mode ≠ .normal
      · obtain ⟨hmovable, hmem, _⟩ := hg.stub hloaded.stands hmoves.1 hmoves.2
        obtain ⟨j, hj⟩ := List.mem_iff_getElem?.mp hmem
        obtain ⟨s', hs'⟩ : ∃ s', ss[j]? = some s' :=
          ⟨_, List.getElem?_eq_getElem (hss ▸ (List.getElem?_eq_some_iff.mp hj).1)⟩
        obtain ⟨s, k', d', hs, hsibling⟩ := hsiblings j s' hs'
        cases hj.symm.trans hs
        have horigin : d.sibling? client t.fullName = some (d.relaySibling (d.callSite client t.fullName)) := by
          rw [MethodDecl.sibling?, MethodDecl.mobilize_moved hmoves.2]
        obtain rfl := hg.single hloaded.stands hmoves.1 horigin hsibling.stands hsibling.visited hsibling.origin rfl
        cases hloaded.stands.symm.trans hsibling.stands
        have hsame := hsibling.same
        have hd : (loaded t h k' d).isStatic = true := hmovable.static hmoves.2
        have hmode' : mode? (loaded t h k' d).flags (loaded t h k' d).mobility = some d.manner.mode :=
          hmode k' d hloaded.stands hmoves.1 hmoves.2
        show MethodDecl.Form _ _ _ _ (mode? (loaded t h k' d).flags (loaded t h k' d).mobility) _ _
        rw [hmode']
        have hmem' := List.mem_of_getElem? hs'
        refine .stub s' id hmoves.2 {
          alike := hloaded.alike
          static := hd
          void := hmovable.void hmoves.2
          body := by rw [hname, hloaded.stub hmoves s' hsame]
          found := ?_
          name := hsame.name
          params := ?_
          siblingStatic := ?_
          siblingVoid := ?_
          locals := hsame.locals
          behind := ⟨d.callSite client t.fullName, rfl, rfl, ?_, hsibling.behind⟩ }
        · refine TypeDecl.method?_sibling hu ?_ hmem' fun e he => ?_
          · rw [hnames]
            exact hg.distinct
          · obtain ⟨i, hi⟩ := List.mem_iff_getElem?.mp he
            obtain ⟨d, hd⟩ := hmain i e hi
            rw [hd.alike.name]
            exact hnew s' hmem' d (List.mem_of_getElem? hd.stands)
        · have hcount := (d.load_same (before t h k')).length_params
          rw [hsame.length_params, hcount]
          exact List.length_append
        · rw [MethodDecl.isStatic, hsame.flags]
          exact MethodDecl.relaySibling_isStatic _ |>.trans (hmovable.static hmoves.2)
        · rw [MethodDecl.isVoid, hsame.returns]
          exact hmovable.void hmoves.2
        · exact (MethodDecl.callSite_count hmovable).trans (d.load_same (before t h k')).length_params.symm
      · exact hloaded.inPlace hmoves u
  · intro s' hs' d' hd'
    obtain ⟨k, hk⟩ := List.mem_iff_getElem?.mp hd'
    have hlt : k < t.methods.length := by
      rw [← Heap.length_mapM_run (f := MethodDecl.load) t.methods h]
      exact (List.getElem?_eq_some_iff.mp hk).1
    have hd := List.getElem?_eq_getElem hlt
    rw [Heap.mapM_getElem? hd] at hk
    cases hk
    exact hnew s' hs' _ (List.getElem_mem hlt)

/-- The form that a type is loaded in. -/
theorem load_copies (hg : Grown client P t main siblings) (hinside : ∀ d ∈ t.methods, BranchesInside d.body)
    (hwords : ∀ d ∈ t.methods, d.body.length < 2 ^ 63) (mode? : MethodFlags → Option Mobility → Option Mode)
    (hmode : ∀ k d, t.methods[k]? = some d → P k → d.manner.mode ≠ .normal →
      mode? d.flags d.mobility = some d.manner.mode)
    (hstays : ∀ k d, t.methods[k]? = some d → ¬(P k ∧ d.manner.mode ≠ .normal) →
      StaysInPlace (mode? d.flags d.mobility)) (hH : (t.load.run h).2.Extends H) :
    Copies H (Heap.Added h (t.load.run h).2) w (TypeDecl.load { t with methods := main ++ siblings }) fun w' u =>
      TypeDecl.Form False (Value.Linked w') client mode? (t.load.run h).1 u := by
  let k := ((t.fields.mapM FieldDecl.load).run h).2
  have hk : h.Extends k := Grows.mapM FieldDecl.load_grows t.fields h
  have hext : ((t.methods.mapM MethodDecl.load).run k).2.Extends H := hH
  have hmethods : k.Extends ((t.methods.mapM MethodDecl.load).run k).2 := Grows.mapM MethodDecl.load_grows t.methods k
  have hkept : List.Forall₂ (FieldDecl.Alike Eq) t.fields t.fields := List.forall₂_same.mpr fun _ _ => .refl fun _ _ => rfl
  have hfields := fields_load .later (w := w) hkept
  have hown : ∀ r, (∃ i, OwnObjects P t k i r) ∨ (∃ j, MovedObjects client P t k siblings j r) →
      Heap.Added k ((t.methods.mapM MethodDecl.load).run k).2 r := by
    rintro r (⟨i, hr⟩ | ⟨j, s, i, d, _, hd, _, _, hr⟩)
    · obtain ⟨d, hd, _⟩ := id hr
      exact Heap.added_of_stage MethodDecl.load_grows (List.getElem?_eq_some_iff.mp hd).1 (added_of_own hr)
    · exact Heap.added_of_stage MethodDecl.load_grows (List.getElem?_eq_some_iff.mp hd).1
        ⟨Nat.le_trans (d.extends_paramsLoaded _).size_le hr.1, hr.2⟩
  have hload : TypeDecl.load { t with methods := main ++ siblings } = (t.fields.mapM FieldDecl.load >>= fun fs =>
      main.mapM MethodDecl.load >>= fun es => siblings.mapM MethodDecl.load >>= fun ss =>
        pure { space := t.space, name := t.name, flags := t.flags, fields := fs, properties := t.properties,
               methods := es ++ ss }) := by
    simp only [TypeDecl.load, TypeDecl.traverse, List.mapM_append, bind_assoc, pure_bind]
  rw [hload]
  refine Copies.mono (Copies.bind (C := fun r => (∃ i, OwnObjects P t k i r) ∨
      ∃ j, MovedObjects client P t k siblings j r)
    (Q := fun w' u => TypeDecl.Form False (Value.Linked w') client mode? (t.load.run h).1 u)
    (hfields h H (hmethods.trans hext)) (fun w₁ _ gs hgs => ?_) ?_) ?_ fun _ _ _ hrel => hrel
  · refine Copies.bind (main_copies hg hinside hwords hstays hext) (fun w₂ hle₂ es hes => ?_) ?_
    · refine Copies.mono (Copies.bind (C := fun _ => False)
        (Q := fun w' u => TypeDecl.Form False (Value.Linked w') client mode? (t.load.run h).1 u)
        (siblings_copies hg hinside hwords hext) (fun w₃ hle₃ ss hss => ?_) fun _ _ hr => hr)
        (fun r hr => hr.resolve_right id) fun _ _ _ hrel => hrel
      have hmain : ∀ (i : Nat) (e : MethodDecl Value), es[i]? = some e →
          ∃ d, MainLoaded client P t k mode? i w₃ d e := by
        intro i e he
        obtain ⟨d, hd⟩ := hes.2 i e he
        exact ⟨d, hd.mono hle₃⟩
      obtain ⟨hforms, hnew⟩ := hg.loaded_form hmode
        (u := { space := t.space, name := t.name, flags := t.flags, fields := gs, properties := t.properties,
                methods := es ++ ss }) rfl rfl hes.1 hmain hss.1 hss.2
      exact Copies.pure {
        space := rfl
        name := rfl
        fields := hgs.2.imp fun _ _ hf => hf.mono fun _ _ hv => hv.mono (hle₂.trans hle₃)
        methods := ⟨es, ss, rfl, hforms, hnew, fun hx => hx.elim⟩ }
    · rintro r ⟨i, hi⟩ ⟨j, hj⟩
      exact own_moved_disjoint r hi hj
  · rintro r ⟨_, hlt⟩ hr
    exact Nat.not_lt.mpr (hown r hr).1 hlt
  · have hfirst := hk.size_le
    have hlast := hmethods.size_le
    rintro r (⟨hge, hlt⟩ | hr)
    · exact ⟨hge, Nat.lt_of_lt_of_le hlt hlast⟩
    · exact ⟨Nat.le_trans hfirst (hown r hr).1, (hown r hr).2⟩

end TypeDecl.Grown

/-! ## Modules -/

/-- The types of a deployed module are loaded in their forms. -/
theorem Module.Grown.instantiate_copies {client : String} {D : Nat → Nat → Prop} {m n : Module Datum}
    (hg : m.Grown client D n) (hinside : ∀ t ∈ m.types, ∀ d ∈ t.methods, BranchesInside d.body)
    (hwords : m.Addressable) (mode? : TypeFlags → MethodFlags → Option Mobility → Option Mode)
    (hmode : ∀ i t k d, m.types[i]? = some t → t.methods[k]? = some d → D i k → d.manner.mode ≠ .normal →
      mode? t.flags d.flags d.mobility = some d.manner.mode)
    (hstays : ∀ i t k d, m.types[i]? = some t → t.methods[k]? = some d → ¬(D i k ∧ d.manner.mode ≠ .normal) →
      StaysInPlace (mode? t.flags d.flags d.mobility)) {w : Links} {h : Heap} :
    Copies ((Domain.instantiate m).run h).2 (Heap.Added h ((Domain.instantiate m).run h).2) w (Domain.instantiate n)
      fun w' code => code.name = m.name ∧ List.Forall₂
        (fun t u => TypeDecl.Form False (Value.Linked w') client (mode? t.flags) t u)
        ((Domain.instantiate m).run h).1.types code.types := by
  let H := ((Domain.instantiate m).run h).2
  let before (i : Nat) : Heap := Heap.stage TypeDecl.load m.types h i
  have hlength : m.types.length = n.types.length := by
    refine Nat.le_antisymm ?_ ?_ <;> by_contra hlt
    · have htypes := hg.types n.types.length
      rw [List.getElem?_eq_none (Nat.le_refl _), List.getElem?_eq_getElem (Nat.lt_of_not_le hlt)] at htypes
      cases htypes
    · have htypes := hg.types m.types.length
      rw [List.getElem?_eq_none (Nat.le_refl _), List.getElem?_eq_getElem (Nat.lt_of_not_le hlt)] at htypes
      cases htypes
  have htypes : Copies H (fun r => ∃ i, i < m.types.length ∧ Heap.Added (before i) (before (i + 1)) r) w
      (n.types.mapM TypeDecl.load) fun w' us => us.length = n.types.length ∧ ∀ (i : Nat) (u : TypeDecl Value),
        us[i]? = some u → ∃ t, m.types[i]? = some t ∧ TypeDecl.Form False (Value.Linked w') client (mode? t.flags)
          (t.load.run (before i)).1 u := by
    refine Copies.mapM (F := fun i r => i < m.types.length ∧ Heap.Added (before i) (before (i + 1)) r)
      (R := fun i w' u => ∃ t, m.types[i]? = some t ∧ TypeDecl.Form False (Value.Linked w') client (mode? t.flags)
          (t.load.run (before i)).1 u) ?_ ?_ ?_
    · rintro i w' w'' hle u ⟨t, ht, hform⟩
      exact ⟨t, ht, hform.mono fun _ _ hv => hv.mono hle⟩
    · rintro i j hij r ⟨_, hi⟩ ⟨_, hj⟩
      exact hij (Heap.added_stage_unique TypeDecl.load_grows hi hj)
    · intro i u hu w' _
      have hrel := hg.types i
      have hlt : i < m.types.length := hlength ▸ (List.getElem?_eq_some_iff.mp hu).1
      have ht := List.getElem?_eq_getElem hlt
      rw [hu, ht] at hrel
      cases hrel with
      | some hgrown =>
      obtain ⟨main, siblings, rfl, hgrown⟩ := hgrown
      have hmem := List.mem_of_getElem? ht
      have hnext := Heap.stage_succ (f := TypeDecl.load) ht h
      have hext : (m.types[i].load.run (before i)).2.Extends H := by
        rw [← hnext]
        refine (Heap.stage_extends TypeDecl.load_grows m.types h hlt).trans ?_
        rw [Heap.stage_length]
        exact .refl H
      refine (hgrown.load_copies (hinside _ hmem) (hwords _ hmem) (mode? m.types[i].flags)
        (fun k d hd hk hn => hmode i _ k d ht hd hk hn) (fun k d hd hn => hstays i _ k d ht hd hn) hext).mono
        (fun r hr => ?_) fun _ _ _ hform => ⟨_, ht, hform⟩
      rw [← hnext] at hr
      exact ⟨hlt, hr⟩
  refine Copies.mono (Copies.bind (C := fun _ => False)
    (Q := fun w' code => code.name = m.name ∧ List.Forall₂
        (fun t u => TypeDecl.Form False (Value.Linked w') client (mode? t.flags) t u)
        ((Domain.instantiate m).run h).1.types code.types)
    htypes (fun w' _ us hus => ?_) fun _ _ hr => hr) ?_ fun _ _ _ hrel => hrel
  · refine Copies.pure ⟨hg.name, forall₂_of_getElem? fun i => ?_⟩
    show Option.Rel _ ((m.types.mapM TypeDecl.load).run h).1[i]? us[i]?
    cases hu : us[i]? with
    | none =>
      rw [List.getElem?_eq_none_iff, hus.1, ← hlength, ← Heap.length_mapM_run (f := TypeDecl.load) m.types h,
        ← List.getElem?_eq_none_iff] at hu
      rw [hu]
      exact .none
    | some u =>
      obtain ⟨t, ht, hform⟩ := hus.2 i u hu
      rw [Heap.mapM_getElem? ht]
      exact .some hform
  · rintro r (⟨i, hi, hr⟩ | hr)
    · exact Heap.added_of_stage TypeDecl.load_grows hi hr
    · exact hr.elim

end MobileCode
