import MobileCode.Proofs.Bundles
import MobileCode.Proofs.Orders

/-! # What a deployment changes

Targets are named by their positions, and making one of them mobile adds a method to its type. No position is moved by
this, so the modules of a deployment are known exactly: mobile forms stand where the targets stood, siblings stand behind
all methods in the order of the targets, and the rest is as it was but for what is carried along. Nothing is left to be
made mobile.
-/
namespace MobileCode
variable {α : Type}

/-! ## Types -/

namespace TypeDecl
variable [Literal α] {client module : String} {moved : List (Nat × Closure)} {t : TypeDecl α} {k : Nat}
  {d : MethodDecl α} {closure : Closure}

/-- The type with the methods at some positions in their mobile forms, and the siblings of these behind all methods. -/
def withMobile (client : String) (moved : List (Nat × Closure)) (t : TypeDecl α) : TypeDecl α :=
  { t with methods :=
      (t.methods.mapIdx fun k d => ((moved.lookup k).map (d.mobileForm client t.fullName)).getD d) ++
        moved.filterMap fun p => t.methods[p.1]?.bind (·.sibling? client t.fullName) }

theorem withMobile_nil (client : String) (t : TypeDecl α) : t.withMobile client [] = t := by
  have hmethods : t.methods.mapIdx (fun _ d => d) = t.methods := List.ext_getElem? (by simp)
  simp [withMobile, hmethods]

theorem getElem?_withMobile (hd : t.methods[k]? = some d) : (t.withMobile client moved).methods[k]? =
    some (((moved.lookup k).map (d.mobileForm client t.fullName)).getD d) := by
  obtain ⟨hlt, _⟩ := List.getElem?_eq_some_iff.mp hd
  rw [withMobile, List.getElem?_append_left (by rwa [List.length_mapIdx]), List.getElem?_mapIdx, hd]
  rfl

/-- One more method. -/
theorem withMobile_snoc (hd : t.methods[k]? = some d) (hk : moved.lookup k = none) :
    t.withMobile client (moved ++ [(k, closure)]) = { t with
      methods := (t.withMobile client moved).methods.set k (d.mobileForm client t.fullName closure) ++
        (d.sibling? client t.fullName).toList } := by
  obtain ⟨hlt, _⟩ := List.getElem?_eq_some_iff.mp hd
  have hmain : t.methods.mapIdx (fun j e =>
      (((moved ++ [(k, closure)]).lookup j).map (e.mobileForm client t.fullName)).getD e) =
      (t.methods.mapIdx fun j e => ((moved.lookup j).map (e.mobileForm client t.fullName)).getD e).set k
        (d.mobileForm client t.fullName closure) := by
    refine List.ext_getElem? fun j => ?_
    rw [List.getElem?_mapIdx, List.lookup_append, List.lookup_cons]
    by_cases hj : j = k
    · subst hj
      rw [List.getElem?_set_self (by rwa [List.length_mapIdx]), hd, hk, BEq.rfl]
      rfl
    · rw [List.getElem?_set_ne (Ne.symm hj), List.getElem?_mapIdx, beq_eq_false_iff_ne.mpr hj, List.lookup_nil,
        Option.or_none]
  have hsiblings : [(k, closure)].filterMap (fun p => t.methods[p.1]?.bind (·.sibling? client t.fullName)) =
      (d.sibling? client t.fullName).toList := by
    rw [List.filterMap_cons, hd, Option.bind_some]
    cases d.sibling? client t.fullName <;> rfl
  rw [withMobile, hmain, List.filterMap_append, hsiblings, withMobile,
    List.set_append_left _ _ (by rwa [List.length_mapIdx]), List.append_assoc]

/-- The step of making a method mobile, behind others. -/
theorem mobilize_withMobile (hd : t.methods[k]? = some d) (hk : moved.lookup k = none) :
    (t.withMobile client moved).mobilize client module k d.manner closure =
      (d.manner.check module (t.withMobile client moved) d).map fun _ =>
        (⟨t.fullName, d.name, d.manner.mode, (d.sibling? client t.fullName).map (·.name)⟩,
          t.withMobile client (moved ++ [(k, closure)])) := by
  rw [withMobile_snoc hd hk, TypeDecl.mobilize, getElem?_withMobile hd, hk]
  cases hcheck : d.manner.check module (t.withMobile client moved) d with
  | error e =>
    simp only [Option.map_none, Option.getD_none, hcheck]
    rfl
  | ok _ =>
    simp only [Option.map_none, Option.getD_none, hcheck]
    rfl

end TypeDecl

/-! ## Modules -/

namespace Target

/-- The methods of one type among targets and their closures, by position. -/
def movesIn (i : Nat) (done : List (Target α × Closure)) : List (Nat × Closure) :=
  (done.filter (·.1.typeIndex = i)).map fun p => (p.1.methodIndex, p.2)

theorem lookup_movesIn_eq_none {i k : Nat} {done : List (Target α × Closure)} :
    (movesIn i done).lookup k = none ↔ (i, k) ∉ done.map (·.1.position) := by
  simp only [List.lookup_eq_none_iff, movesIn, List.mem_map, List.mem_filter, decide_eq_true_eq, position]
  constructor
  · rintro h ⟨p, hp, hposition⟩
    obtain ⟨rfl, rfl⟩ := Prod.mk.inj hposition
    simpa using h _ ⟨p, ⟨hp, rfl⟩, rfl⟩
  · rintro h q ⟨p, ⟨hp, rfl⟩, rfl⟩
    simp only [bne_iff_ne]
    rintro rfl
    exact h ⟨p, hp, rfl⟩

theorem position_not_mem_of_nodup {t : Target α} {closure : Closure} {done ts : List (Target α × Closure)}
    (h : ((done ++ (t, closure) :: ts).map (·.1.position)).Nodup) : t.position ∉ done.map (·.1.position) := by
  rw [List.map_append, List.map_cons, List.nodup_append] at h
  exact fun hmem => h.2.2 _ hmem _ List.mem_cons_self rfl

/-- What is told of a method that was made mobile. -/
def made [Literal α] (client : String) (t : Target α) : Mobilized :=
  ⟨t.type.fullName, t.method.name, t.mobility.mode, (t.method.sibling? client t.type.fullName).map (·.name)⟩

end Target

namespace Module
variable [Literal α] {client : String} {done : List (Target α × Closure)} {m : Module α}

/-- The module with targets in their mobile forms, in the order in which they were made mobile. -/
def withMobile (client : String) (done : List (Target α × Closure)) (m : Module α) : Module α :=
  { m with types := m.types.mapIdx fun i t => t.withMobile client (Target.movesIn i done) }

theorem withMobile_nil (client : String) (m : Module α) : m.withMobile client [] = m := by
  have htypes : m.types.mapIdx (fun _ t => t) = m.types := List.ext_getElem? (by simp)
  simp [withMobile, Target.movesIn, TypeDecl.withMobile_nil, htypes]

theorem getElem?_withMobile {i : Nat} {t : TypeDecl α} (ht : m.types[i]? = some t) :
    (m.withMobile client done).types[i]? = some (t.withMobile client (Target.movesIn i done)) := by
  rw [withMobile, List.getElem?_mapIdx, ht]
  rfl

/-- One more target. -/
theorem withMobile_snoc {t : Target α} {closure : Closure} (ht : t.StandsIn m) :
    m.withMobile client (done ++ [(t, closure)]) = { m with
      types := (m.withMobile client done).types.set t.typeIndex
        (t.type.withMobile client (Target.movesIn t.typeIndex done ++ [(t.methodIndex, closure)])) } := by
  rw [withMobile, Module.mk.injEq]
  refine ⟨rfl, rfl, rfl, List.ext_getElem? fun i => ?_, rfl, rfl⟩
  rw [List.getElem?_mapIdx, Target.movesIn, List.filter_append, List.map_append]
  by_cases hi : t.typeIndex = i
  · subst hi
    have htype : (m.withMobile client done).types[t.typeIndex]? = some _ := getElem?_withMobile ht.1
    rw [List.getElem?_set_self (List.getElem?_eq_some_iff.mp htype).1, ht.1]
    simp [Target.movesIn]
  · rw [List.getElem?_set_ne hi, withMobile, List.getElem?_mapIdx]
    simp [Target.movesIn, hi]

end Module

/-- The step of making a target mobile, behind others. -/
theorem Target.mobilize_withMobile [Literal α] {client : String} {done : List (Target α × Closure)} {m : Module α}
    {t : Target α} {closure : Closure} (ht : t.StandsIn m) (hnew : t.position ∉ done.map (·.1.position)) :
    t.mobilize client closure (m.withMobile client done) =
      (t.mobility.check m.name (t.type.withMobile client (movesIn t.typeIndex done)) t.method).map fun _ =>
        (t.made client, m.withMobile client (done ++ [(t, closure)])) := by
  have hname : (m.withMobile client done).name = m.name := rfl
  have hmobility : t.mobility = t.method.manner := rfl
  rw [Module.withMobile_snoc ht, mobilize, Module.getElem?_withMobile ht.1]
  dsimp only
  rw [hname, hmobility, TypeDecl.mobilize_withMobile ht.2 (lookup_movesIn_eq_none.mpr hnew)]
  cases t.method.manner.check m.name (t.type.withMobile client (movesIn t.typeIndex done)) t.method <;> rfl

namespace Deployment
variable {client : String} {m n n' : Module Datum}

/-- A whole run of these steps. -/
theorem mobilizeAll_withMobile {ts done : List (Target Datum × Closure)} (hts : ∀ p ∈ ts, p.1.StandsIn m)
    (hnodup : ((done ++ ts).map (·.1.position)).Nodup) {made : List Mobilized}
    (h : mobilizeAll client ts (m.withMobile client done) = .ok (made, n)) :
    made = ts.map (·.1.made client) ∧ n = m.withMobile client (done ++ ts) := by
  induction ts generalizing done made n with
  | nil =>
    cases h
    exact ⟨rfl, by rw [List.append_nil]⟩
  | cons p ts ih =>
    obtain ⟨t, closure⟩ := p
    obtain ⟨ht, hts⟩ := List.forall_mem_cons.mp hts
    rw [mobilizeAll, Target.mobilize_withMobile ht (Target.position_not_mem_of_nodup hnodup)] at h
    cases hcheck : t.mobility.check m.name (t.type.withMobile client (Target.movesIn t.typeIndex done)) t.method with
    | error e =>
      rw [hcheck] at h
      cases h
    | ok _ =>
      rw [hcheck] at h
      rw [List.append_cons] at hnodup ⊢
      cases hrest : mobilizeAll client ts (m.withMobile client (done ++ [(t, closure)])) with
      | error e =>
        simp [Except.map, bind, Except.bind, hrest] at h
      | ok r =>
        obtain ⟨others, n₁⟩ := r
        obtain ⟨rfl, rfl⟩ := ih hts hnodup hrest
        simp only [Except.map, bind, Except.bind, hrest, pure, Except.pure, Except.ok.injEq, Prod.mk.injEq] at h
        exact ⟨h.1.symm, h.2.symm⟩

end Deployment

/-! ## What is carried along -/

/-- The resources but for the modules of some names that are carried along. -/
def Module.resourcesBut (names : List String) (m : Module α) : Dict Bytes :=
  m.resources.filter fun e => e.1 ∉ names.map (bundleMark ++ ·)

theorem Dict.filter_insert {β : Type} {p : String × β → Bool} {name : String} (h : ∀ v, p (name, v) = false)
    (value : β) (d : Dict β) : (insert name value d).filter p = d.filter p := by
  induction d with
  | nil => simp [insert, h]
  | cons x d ih =>
    obtain ⟨n, v⟩ := x
    unfold insert
    split
    · rw [List.filter_cons_of_neg (by simp [h])]
    split
    · rename_i hname
      subst hname
      rw [List.filter_cons_of_neg (by simp [h]), List.filter_cons_of_neg (by simp [h])]
    · rw [List.filter_cons, List.filter_cons, ih]

theorem KeySet.Sorted.union {β : Type} [Keyed β] {s : KeySet β} (hs : s.Sorted) (xs : List β) :
    (KeySet.union s xs).Sorted := by
  unfold KeySet.union
  induction xs generalizing s with
  | nil => exact hs
  | cons x xs ih => exact ih hs.insert

theorem KeySet.Sorted.nodup {β : Type} [Keyed β] {s : KeySet β} (hs : s.Sorted) : s.Nodup :=
  List.Pairwise.imp (fun {a b} h (he : a = b) => List.lt_irrefl _ (he ▸ h)) hs

namespace Deployment
variable {dependencies : List (Module Datum)} {names : List String} {n n' : Module Datum}

theorem nodup_bundle {closures : List Closure} {names : KeySet String} (h : names.Sorted) :
    (closures.foldl (fun names c => KeySet.union names c.modules) names).Nodup := by
  induction closures generalizing names with
  | nil => exact h.nodup
  | cons c cs ih => exact ih (h.union c.modules)

/-- Nothing but resources and references, and names that are missing come behind the references. -/
theorem carryAll_references (h : carryAll dependencies names n = .ok n') (hnodup : names.Nodup) :
    n' = { n with
      resources := n'.resources, references := n.references ++ names.filter (· ∉ n.references) } := by
  induction names generalizing n with
  | nil =>
    cases h
    simp
  | cons name names ih =>
    obtain ⟨hname, hnodup⟩ := List.nodup_cons.mp hnodup
    unfold carryAll at h
    split at h
    · cases h
    rename_i d _
    rw [ih h hnodup, List.filter_cons]
    have hreferences : (n.carry name d).references =
        if n.references.contains name then n.references else n.references ++ [name] := rfl
    split at hreferences
    · rename_i hthere
      have hmem : name ∈ n.references := List.contains_iff_mem.mp hthere
      rw [hreferences, if_neg (by simpa using hmem)]
      rfl
    · rename_i hmissing
      have hmem : name ∉ n.references := fun hmem => hmissing (List.contains_iff_mem.mpr hmem)
      have hothers : names.filter (· ∉ n.references ++ [name]) = names.filter (· ∉ n.references) := by
        refine List.filter_congr fun other hother => ?_
        have hne : other ≠ name := fun he => hname (he ▸ hother)
        simp [hne]
      rw [hreferences, hothers, if_pos (by simpa using hmem), List.append_assoc]
      rfl

theorem carryAll_resourcesBut (h : carryAll dependencies names n = .ok n') :
    n'.resourcesBut names = n.resourcesBut names := by
  -- entries that no name brings, in an induction where fewer and fewer names are left
  have hkept (p : String × Bytes → Bool) (hp : ∀ name ∈ names, ∀ v, p (Module.bundleMark ++ name, v) = false) :
      n'.resources.filter p = n.resources.filter p := by
    induction names generalizing n with
    | nil =>
      cases h
      rfl
    | cons name names ih =>
      obtain ⟨hname, hp⟩ := List.forall_mem_cons.mp hp
      unfold carryAll at h
      split at h
      · cases h
      · rw [ih h hp]
        exact Dict.filter_insert hname _ _
  refine hkept _ fun name hname v => ?_
  simpa using hname

theorem carryAll_supplied (h : carryAll dependencies names n = .ok n') :
    ∀ name ∈ names, ∃ d, dependencies.find? (·.name = name) = some d := by
  induction names generalizing n with
  | nil => simp
  | cons name names ih =>
    unfold carryAll at h
    split at h
    · cases h
    rename_i d hd
    exact List.forall_mem_cons.mpr ⟨⟨d, hd⟩, ih h⟩

end Deployment

/-! ## The server's counterpart -/

namespace Module
variable {m : Module α}

/-- The module with the methods at some positions marked as those whose calls go to their siblings. -/
def withEntries (positions : List (Nat × Nat)) (m : Module α) : Module α :=
  { m with types := m.types.mapIdx fun i t => { t with methods := t.methods.mapIdx fun k d =>
      if (i, k) ∈ positions then { d with flags := d.flags ||| MethodFlags.relayEntry } else d } }

theorem withEntries_nil (m : Module α) : m.withEntries [] = m := by
  have htypes : m.types.mapIdx (fun _ t => t) = m.types := List.ext_getElem? (by simp)
  have hmethods (t : TypeDecl α) : t.methods.mapIdx (fun _ d => d) = t.methods := List.ext_getElem? (by simp)
  simp [withEntries, htypes, hmethods]

/-- One more position, also if it is marked already. -/
theorem markRelayEntry_withEntries (positions : List (Nat × Nat)) (t : Target α) :
    (m.withEntries positions).markRelayEntry t = m.withEntries (positions ++ [t.position]) := by
  have hagain (f : MethodFlags) :
      f ||| MethodFlags.relayEntry ||| MethodFlags.relayEntry = f ||| MethodFlags.relayEntry := by
    show Flags.mk (f.bits ||| _ ||| _) = Flags.mk (f.bits ||| _)
    rw [UInt32.or_assoc, UInt32.or_self]
  unfold markRelayEntry withEntries
  rw [Module.mk.injEq]
  refine ⟨rfl, rfl, rfl, List.ext_getElem? fun i => ?_, rfl, rfl⟩
  by_cases hi : t.typeIndex = i
  · subst hi
    rw [List.getElem?_modify_eq, List.getElem?_mapIdx, List.getElem?_mapIdx]
    cases m.types[t.typeIndex]? with
    | none => rfl
    | some type =>
      refine congrArg some ?_
      dsimp only
      rw [TypeDecl.mk.injEq]
      refine ⟨rfl, rfl, rfl, rfl, rfl, List.ext_getElem? fun k => ?_⟩
      by_cases hk : t.methodIndex = k
      · subst hk
        rw [List.getElem?_modify_eq, List.getElem?_mapIdx, List.getElem?_mapIdx]
        cases type.methods[t.methodIndex]? with
        | none => rfl
        | some d =>
          by_cases hmem : (t.typeIndex, t.methodIndex) ∈ positions
          · simp [Target.position, hmem, hagain]
          · simp [Target.position, hmem]
      · rw [List.getElem?_modify_ne _ _ hk, List.getElem?_mapIdx, List.getElem?_mapIdx]
        simp [Target.position, Ne.symm hk]
  · rw [List.getElem?_modify_ne _ _ hi, List.getElem?_mapIdx, List.getElem?_mapIdx]
    simp [Target.position, Ne.symm hi]

theorem foldl_markRelayEntry (relayed : List (Target α)) (positions : List (Nat × Nat)) :
    relayed.foldl markRelayEntry (m.withEntries positions) =
      m.withEntries (positions ++ relayed.map Target.position) := by
  induction relayed generalizing positions with
  | nil => rw [List.foldl_nil, List.map_nil, List.append_nil]
  | cons t ts ih =>
    rw [List.foldl_cons, markRelayEntry_withEntries, ih, List.map_cons, List.append_assoc, List.singleton_append]

end Module

namespace Deployment
variable {boundary : Boundary} {digest : DigestAlgorithm} {m : Module Datum} {dependencies : List (Module Datum)}
  {dep : Deployment}

theorem serverModule_eq (digest : DigestAlgorithm) (n : Module Datum) (relayed : List (Target Datum)) :
    serverModule digest n relayed =
      ({ n with pairedHash := some (digest.digest n.toFile) } : Module Datum).withEntries
        (relayed.map Target.position) := by
  have hfold := Module.foldl_markRelayEntry (m := { n with pairedHash := some (digest.digest n.toFile) }) relayed []
  rwa [Module.withEntries_nil, List.nil_append] at hfold

/-- The client module: what was made mobile, and what is carried along. -/
theorem make?_client (h : make? boundary digest m dependencies = .ok (some dep)) : ∃ closures,
    (m.targets.mapM fun t => (ModuleSet.ofList m dependencies).discover boundary t.type.fullName t.method) =
      .ok closures ∧
    carryAll dependencies dep.bundle (m.withMobile boundary.clientType (m.targets.zip closures)) = .ok dep.client ∧
    dep.bundle.Nodup := by
  obtain ⟨closures, made, hclosures, hmade, hbundle, hcarried, _⟩ := make?_eq_ok h
  have hpositions := map_position_zip (length_mapM hclosures)
  have hrun : mobilizeAll boundary.clientType (m.targets.zip closures) (m.withMobile boundary.clientType []) =
      .ok (dep.methods, made) := by
    rw [Module.withMobile_nil]
    exact hmade
  obtain ⟨_, rfl⟩ := mobilizeAll_withMobile (fun p hp => (Module.mem_targets.mp (List.of_mem_zip hp).1).1)
    (hpositions ▸ Module.nodup_targets m) hrun
  exact ⟨closures, hclosures, hcarried, hbundle ▸ nodup_bundle .nil⟩

/-- All that tells the modules of a deployment from the module it is made for, where `boundary`, `digest` and
`dependencies` are given as well. -/
structure Changes (boundary : Boundary) (digest : DigestAlgorithm) (m : Module Datum) (dependencies : List (Module Datum))
    (dep : Deployment) : Prop where
  /-- Mobile forms with the closures that were discovered, siblings and references. Resources are told below. -/
  client : ∃ closures,
    (m.targets.mapM fun t => (ModuleSet.ofList m dependencies).discover boundary t.type.fullName t.method) =
      .ok closures ∧
    dep.client = { m.withMobile boundary.clientType (m.targets.zip closures) with
      resources := dep.client.resources
      references := m.references ++ dep.bundle.filter (· ∉ m.references) }
  /-- Targets that are relayed or replayed have siblings, and no others. -/
  siblings : ∀ t ∈ m.targets,
    (t.method.sibling? boundary.clientType t.type.fullName).isSome = true ↔ t.mobility.mode ≠ .normal
  signatures : ∀ t ∈ m.targets, ∀ closure, let e := t.method.mobileForm boundary.clientType t.type.fullName closure
    e.name = t.method.name ∧ e.params = t.method.params ∧ e.returns = t.method.returns
  bundled : ∀ name ∈ dep.bundle, ∃ d, dependencies.find? (·.name = name) = some d ∧
    dep.client.bundled? name = some d.toFile
  others : dep.client.resourcesBut dep.bundle = m.resourcesBut dep.bundle
  server : dep.server = ({ dep.client with pairedHash := some (digest.digest dep.client.toFile) } : Module Datum).withEntries
    ((m.targets.filter (·.mobility.mode ≠ .normal)).map Target.position)

/-- Targets become mobile, with siblings behind all methods, supplied modules are carried along, and nothing else is
changed. The server's module is another one only by its mark and by the marks of methods whose calls go to siblings. -/
theorem make?_changes (h : make? boundary digest m dependencies = .ok (some dep)) :
    dep.Changes boundary digest m dependencies := by
  obtain ⟨closures, hclosures, hcarried, hnodup⟩ := make?_client h
  obtain ⟨_, _, _, _, _, _, hserver⟩ := make?_eq_ok h
  have hothers := carryAll_resourcesBut hcarried
  exact {
    client := ⟨closures, hclosures, carryAll_references hcarried hnodup⟩
    siblings := fun t _ => by
      rw [MethodDecl.sibling?]
      by_cases hn : t.method.manner.mode = .normal
      · rw [MethodDecl.mobilize_normal hn]
        exact iff_of_false Bool.false_ne_true (not_not_intro hn)
      · rw [MethodDecl.mobilize_moved hn]
        exact iff_of_true rfl hn
    signatures := fun t _ closure => ⟨MethodDecl.mobileForm_name closure, MethodDecl.mobileForm_params closure,
      MethodDecl.mobileForm_returns closure⟩
    bundled := fun name hname => by
      obtain ⟨d, hd⟩ := carryAll_supplied hcarried name hname
      obtain rfl : d.name = name := of_decide_eq_true (List.find?_some (p := fun x : Module Datum => x.name = name) hd)
      exact ⟨d, hd, (carryAll_carries hcarried hd hname).file⟩
    others := hothers
    server := hserver.trans (serverModule_eq _ _ _) }

/-- A type with a replayed method and one with a method that reaches into another module. -/
def cabin : Module Datum where
  name := "Cabin"
  types := gauge.types ++ station.types

theorem cabin_changed : ∃ dep, make? {} .sha1 cabin station.supplied = .ok (some dep) ∧ dep.bundle = ["Gauges"] ∧
    dep.Changes {} .sha1 cabin station.supplied := by
  obtain ⟨dep, hmake, hbundle⟩ : ∃ dep, make? {} .sha1 cabin station.supplied = .ok (some dep) ∧
      dep.bundle = ["Gauges"] := ⟨_, rfl, rfl⟩
  exact ⟨dep, hmake, hbundle, make?_changes hmake⟩

end Deployment

/-! ## Nothing is left -/

namespace Module
variable {m n : Module α} {t : TypeDecl α}

theorem targets_eq_nil_iff : m.targets = [] ↔ ∀ t ∈ m.types, ∀ d ∈ t.methods, m.isTarget t d = false := by
  rw [List.eq_nil_iff_forall_not_mem]
  constructor
  · intro h t ht d hd
    obtain ⟨i, hi⟩ := List.mem_iff_getElem?.mp ht
    obtain ⟨k, hk⟩ := List.mem_iff_getElem?.mp hd
    exact Bool.eq_false_iff.mpr fun htarget => h ⟨i, k, t, d⟩ (mem_targets.mpr ⟨⟨hi, hk⟩, htarget⟩)
  · rintro h t ht
    obtain ⟨⟨hi, hk⟩, htarget⟩ := mem_targets.mp ht
    rw [h _ (List.mem_of_getElem? hi) _ (List.mem_of_getElem? hk)] at htarget
    cases htarget

theorem targets_congr (hmodule : n.flags = m.flags) (htypes : n.types = m.types) : n.targets = m.targets := by
  have hmobile (t : TypeDecl α) (d : MethodDecl α) : n.isMobile t d = m.isMobile t d := by
    rw [isMobile, isMobile, hmodule]
  rw [targets, targets, htypes]
  simp only [hmobile]

theorem isTarget_of_mobilized {d : MethodDecl α} (h : d.flags.has MethodFlags.mobilized = true) :
    m.isTarget t d = false := by
  rw [isTarget, h, Bool.not_true, Bool.and_false]

theorem isTarget_marked (d : MethodDecl α) :
    m.isTarget t { d with flags := d.flags ||| MethodFlags.relayEntry } = m.isTarget t d := by
  have hmobilized := Flags.has_union (g := MethodFlags.relayEntry) (k := MethodFlags.mobilized) (by decide) d.flags
  have hmobile := Flags.has_union (g := MethodFlags.relayEntry) (k := MethodFlags.mobile) (by decide) d.flags
  have hunmovable := Flags.meets_union (g := MethodFlags.relayEntry) (k := MethodFlags.unmovable) (by decide) d.flags
  simp only [isTarget, isMobile, hmobilized, hmobile, hunmovable]

theorem targets_withEntries (positions : List (Nat × Nat)) (h : m.targets = []) :
    (m.withEntries positions).targets = [] := by
  rw [targets_eq_nil_iff] at h ⊢
  intro u hu e he
  obtain ⟨i, hi, rfl⟩ := List.mem_mapIdx.mp hu
  obtain ⟨k, hk, rfl⟩ := List.mem_mapIdx.mp he
  have hnone : m.isTarget m.types[i] m.types[i].methods[k] = false :=
    h _ (List.getElem_mem hi) _ (List.getElem_mem hk)
  show m.isTarget m.types[i] _ = false
  split
  · rw [isTarget_marked, hnone]
  · exact hnone

end Module

/-- A method of the type is as it was at its position, or has been made mobile. -/
theorem TypeDecl.withMobile_methods [Literal α] {client : String} {moved : List (Nat × Closure)} {t : TypeDecl α}
    {e : MethodDecl α} (he : e ∈ (t.withMobile client moved).methods) :
    (∃ k, t.methods[k]? = some e ∧ moved.lookup k = none) ∨ e.flags.has MethodFlags.mobilized = true := by
  obtain he | he := List.mem_append.mp he
  · obtain ⟨k, hk, rfl⟩ := List.mem_mapIdx.mp he
    cases hmoved : moved.lookup k with
    | none => exact .inl ⟨k, List.getElem?_eq_getElem hk, hmoved⟩
    | some closure => exact .inr (MethodDecl.mobileForm_mobilized closure)
  · obtain ⟨p, _, hs⟩ := List.mem_filterMap.mp he
    obtain ⟨d, _, hs⟩ := Option.bind_eq_some_iff.mp hs
    obtain ⟨_, rfl⟩ := MethodDecl.sibling?_eq_some hs
    exact .inr (MethodDecl.relaySibling_mobilized _)

theorem Module.targets_withMobile [Literal α] {client : String} {done : List (Target α × Closure)} {m : Module α}
    (h : ∀ t ∈ m.targets, t.position ∈ done.map (·.1.position)) : (m.withMobile client done).targets = [] := by
  rw [targets_eq_nil_iff]
  intro u hu e he
  obtain ⟨i, hi, rfl⟩ := List.mem_mapIdx.mp hu
  obtain ⟨k, hk, hunmoved⟩ | hmobilized := TypeDecl.withMobile_methods he
  · show m.isTarget m.types[i] e = false
    rw [← Bool.not_eq_true]
    intro htarget
    have hmem := mem_targets (t := ⟨i, k, m.types[i], e⟩).mpr ⟨⟨List.getElem?_eq_getElem hi, hk⟩, htarget⟩
    exact Target.lookup_movesIn_eq_none.mp hunmoved (h _ hmem)
  · exact isTarget_of_mobilized hmobilized

namespace Deployment
variable {boundary : Boundary} {digest : DigestAlgorithm} {m : Module Datum} {dependencies : List (Module Datum)}
  {dep : Deployment}

theorem make?_of_targets_eq_nil (h : m.targets = []) : make? boundary digest m dependencies = .ok none := by
  unfold make?
  rw [h]
  rfl

theorem targets_client (h : make? boundary digest m dependencies = .ok (some dep)) : dep.client.targets = [] := by
  obtain ⟨closures, hclosures, hcarried, hnodup⟩ := make?_client h
  have hclient := carryAll_references hcarried hnodup
  have hmobile : (m.withMobile boundary.clientType (m.targets.zip closures)).targets = [] := by
    refine Module.targets_withMobile fun t ht => ?_
    rw [map_position_zip (length_mapM hclosures)]
    exact List.mem_map_of_mem ht
  exact (Module.targets_congr (congrArg Module.flags hclient) (congrArg Module.types hclient)).trans hmobile

/-- Both modules of a deployment need no deployment of their own, whatever is supplied. -/
theorem make?_again (h : make? boundary digest m dependencies = .ok (some dep)) (boundary' : Boundary)
    (digest' : DigestAlgorithm) (dependencies' : List (Module Datum)) :
    make? boundary' digest' dep.client dependencies' = .ok none ∧
      make? boundary' digest' dep.server dependencies' = .ok none := by
  have hclient := targets_client h
  obtain ⟨_, _, _, _, _, _, hserver⟩ := make?_eq_ok h
  refine ⟨make?_of_targets_eq_nil hclient, make?_of_targets_eq_nil ?_⟩
  rw [hserver, serverModule_eq]
  exact Module.targets_withEntries _ ((Module.targets_congr rfl rfl).trans hclient)

/-- All of the module is mobile, and one of its methods has a sibling. -/
theorem cabin_made_once : ∃ dep, make? {} .sha1 { cabin with flags := ModuleFlags.mobile } station.supplied =
    .ok (some dep) ∧ make? {} .md5 dep.client [cabin] = .ok none ∧ make? {} .md5 dep.server [cabin] = .ok none := by
  obtain ⟨dep, hmake⟩ : ∃ dep, make? {} .sha1 { cabin with flags := ModuleFlags.mobile } station.supplied =
      .ok (some dep) := ⟨_, rfl⟩
  exact ⟨dep, hmake, make?_again hmake {} .md5 [cabin]⟩

end Deployment
end MobileCode
