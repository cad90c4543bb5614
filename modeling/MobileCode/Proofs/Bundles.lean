import MobileCode.Proofs.Provision
import MobileCode.Proofs.Walks

/-! # What deployments carry along

Both modules of a deployment carry the modules that the bodies of its mobile methods reach into, and no others. A
server that runs one of them finds these modules. What else a server runs for a request, the default constructor of
the type and the accessors of properties, is not walked through for this.
-/
namespace MobileCode
open Discovery

/-! ## Carried modules -/

/-- The module refers to another one and carries it. -/
structure Module.Carries (n d : Module Datum) : Prop where
  reference : d.name ∈ n.references
  file : n.bundled? d.name = some d.toFile

namespace Module
variable {n d d' : Module Datum}

theorem Carries.carry (h : d'.name = d.name ∧ d' = d ∨ d'.name ≠ d.name ∧ n.Carries d) :
    (n.carry d'.name d').Carries d := by
  have hkept : d'.name = d.name ∨ d.name ∈ n.references → d.name ∈ (n.carry d'.name d').references := by
    intro hin
    show d.name ∈ if _ then _ else _
    split
    · rename_i hthere
      exact hin.elim (fun hname => hname ▸ List.contains_iff_mem.mp hthere) id
    · exact List.mem_append.mpr (hin.elim (fun hname => .inr (hname ▸ List.mem_singleton_self _)) .inl)
  have hfile : (n.carry d'.name d').bundled? d.name =
      if bundleMark ++ d.name = bundleMark ++ d'.name then some d'.toFile else n.bundled? d.name :=
    Dict.find?_insert _ _ _ _
  obtain ⟨hname, rfl⟩ | ⟨hname, hcarries⟩ := h
  · exact ⟨hkept (.inl rfl), by rw [hfile, if_pos rfl]⟩
  · refine ⟨hkept (.inr hcarries.reference), ?_⟩
    rw [hfile, if_neg fun hsame => hname ((String.append_right_inj _).mp hsame).symm]
    exact hcarries.file

end Module

namespace Deployment
variable {dependencies : List (Module Datum)} {d : Module Datum} {names : List String} {n n' : Module Datum}

theorem carryAll_keeps (hd : dependencies.find? (·.name = d.name) = some d) (hn : n.Carries d)
    (h : carryAll dependencies names n = .ok n') : n'.Carries d := by
  induction names generalizing n with
  | nil =>
    cases h
    exact hn
  | cons name names ih =>
    unfold carryAll at h
    split at h
    · cases h
    · rename_i d' hd'
      have hname : d'.name = name :=
        of_decide_eq_true (List.find?_some (p := fun x : Module Datum => x.name = name) hd')
      subst hname
      refine ih (.carry ?_) h
      by_cases hsame : d'.name = d.name
      · rw [hsame] at hd'
        exact .inl ⟨hsame, Option.some.inj (hd'.symm.trans hd)⟩
      · exact .inr ⟨hsame, hn⟩

/-- The first supplied module of each name is carried. -/
theorem carryAll_carries (h : carryAll dependencies names n = .ok n')
    (hd : dependencies.find? (·.name = d.name) = some d) (hname : d.name ∈ names) : n'.Carries d := by
  induction names generalizing n with
  | nil => cases hname
  | cons name names ih =>
    unfold carryAll at h
    split at h
    · cases h
    · rename_i d' hd'
      obtain rfl | hname := List.mem_cons.mp hname
      · cases hd.symm.trans hd'
        exact carryAll_keeps hd (.carry (.inl ⟨rfl, rfl⟩)) h
      · exact ih h hname

theorem serverModule_carries (digest : DigestAlgorithm) (relayed : List (Target Datum)) (h : n.Carries d) :
    (serverModule digest n relayed).Carries d := by
  have hmarked {n : Module Datum} (h : n.Carries d) : (relayed.foldl Module.markRelayEntry n).Carries d := by
    induction relayed generalizing n with
    | nil => exact h
    | cons t ts ih => exact ih ⟨h.reference, h.file⟩
  exact hmarked ⟨h.reference, h.file⟩

theorem mem_bundle {closures : List Closure} {names : KeySet String} {name : String} :
    name ∈ closures.foldl (fun names c => KeySet.union names c.modules) names ↔
      name ∈ names ∨ ∃ c ∈ closures, name ∈ c.modules := by
  have hunion (xs ys : KeySet String) : name ∈ KeySet.union xs ys ↔ name ∈ xs ∨ name ∈ ys := by
    unfold KeySet.union
    induction ys generalizing xs with
    | nil => simp
    | cons y ys ih =>
      rw [List.foldl_cons, ih, KeySet.mem_insert KeySet.key_injective_string, List.mem_cons]
      tauto
  induction closures generalizing names with
  | nil => simp
  | cons c cs ih =>
    refine ih.trans ?_
    simp only [hunion, or_assoc, List.mem_cons, exists_eq_or_imp]

theorem forall₂_mapM {β γ : Type} {f : β → Except Error γ} {xs : List β} {ys : List γ} (h : xs.mapM f = .ok ys) :
    List.Forall₂ (fun x y => f x = .ok y) xs ys := by
  induction xs generalizing ys with
  | nil =>
    cases h
    exact .nil
  | cons x xs ih =>
    rw [List.mapM_cons] at h
    cases hx : f x with
    | error e => simp [hx, bind, Except.bind] at h
    | ok y =>
      cases hxs : xs.mapM f with
      | error e => simp [hx, hxs, bind, Except.bind] at h
      | ok zs =>
        simp only [hx, hxs, bind, Except.bind, pure, Except.pure, Except.ok.injEq] at h
        subst h
        exact .cons hx (ih hxs)

end Deployment

/-! ## Supplied modules -/

namespace ModuleSet
variable {m d : Module Datum} {dependencies : List (Module Datum)}

theorem ofList_eq (m : Module Datum) (dependencies : List (Module Datum)) : (ofList m dependencies).dependencies =
    dependencies.foldl (fun x d => Dict.insert d.name d x) [] := by
  rw [ofList, Dict.ofList, List.foldl_map]

theorem mem_members (h : d ∈ (ofList m dependencies).members) : d = m ∨ d ∈ dependencies := by
  have hinsert {x : Dict (Module Datum)} {p : String × Module Datum} {e : Module Datum}
      (hp : p ∈ Dict.insert e.name e x) : p.2 = e ∨ p ∈ x := by
    induction x with
    | nil => exact .inl (congrArg Prod.snd (List.mem_singleton.mp hp))
    | cons q x ih =>
      obtain ⟨n, v⟩ := q
      unfold Dict.insert at hp
      split at hp
      · exact (List.mem_cons.mp hp).imp (congrArg Prod.snd) id
      split at hp
      · exact (List.mem_cons.mp hp).imp (congrArg Prod.snd) (List.mem_cons_of_mem _)
      · obtain rfl | hp := List.mem_cons.mp hp
        · exact .inr List.mem_cons_self
        · exact (ih hp).imp id (List.mem_cons_of_mem _)
  have hfold (xs : List (Module Datum)) (x : Dict (Module Datum)) {p : String × Module Datum}
      (hp : p ∈ xs.foldl (fun x d => Dict.insert d.name d x) x) : p.2 ∈ xs ∨ p ∈ x := by
    induction xs generalizing x with
    | nil => exact .inr hp
    | cons e xs ih =>
      obtain hp | hp := ih _ hp
      · exact .inl (List.mem_cons_of_mem _ hp)
      · exact (hinsert hp).imp (fun hsame => by rw [hsame]; exact List.mem_cons_self) id
  refine (List.mem_cons.mp h).imp id fun h => ?_
  rw [ofList_eq] at h
  obtain ⟨p, hp, rfl⟩ := List.mem_map.mp h
  exact (hfold dependencies [] hp).resolve_right List.not_mem_nil

end ModuleSet

/-- The code that the body of the method reaches refers to something in `d`. -/
def Target.ReachesInto (t : Target Datum) (s : ModuleSet Datum) (b : Boundary) (d : Module Datum) : Prop :=
  ∃ x, Reaches s b ⟨s.root, t.type, t.method⟩ x ∧ ∃ i ∈ x.method.body, x.Enters s b i d

theorem Discovery.Item.Enters.mem_members {s : ModuleSet Datum} {b : Boundary} {x : Item Datum} {i : Instruction Datum}
    {d : Module Datum} (h : x.Enters s b i d) (hx : x.StandsIn s) : d ∈ s.members := by
  cases h with
  | field _ hmeans => exact (hx.lookup hmeans.2.1).1
  | call hmeans _ => exact (hx.lookup hmeans.2.1).1
  | construct hmeans => exact (hx.lookup hmeans.2).1

/-! ## Found modules -/

/-- A server does not miss a module that is carried. -/
theorem Server.resolveModule_carried {l : LoadedModule} {name : String} {bytes : Bytes}
    (hplain : isPlainFileName name = true) (hcarried : l.code.bundled? name = some bytes) (r : Request Datum)
    (thread : Option String) {s s' : State Storage} {found : Bool}
    (h : (hostFor r thread l).resolveModule name s = some (.ok found, s')) : found = true := by
  have hnever : (findReferenced l r.hash name).Ensures s.outside fun found _ => found.isSome = true := by
    unfold findReferenced
    rw [hplain]
    refine .get_bind (.after fun probed t => ?_)
    cases probed with
    | some bytes => exact .pure rfl
    | none =>
      simp only [hcarried]
      exact .after fun _ _ => .pure rfl
  have hresolves : ((hostFor r thread l).resolveModule name).Ensures s fun found _ => found = true := by
    refine Run.Ensures.bind (State.onOutside_ensures hnever) fun asked t hasked => ?_
    obtain ⟨bytes, rfl⟩ := Option.isSome_iff_exists.mp hasked.2
    exact .after fun _ _ => .pure rfl
  exact hresolves found s' h

/-! ## Bundles -/

section
variable {boundary : Boundary} {digest : DigestAlgorithm} {m : Module Datum} {dependencies : List (Module Datum)}

/-- A mobile method stands in the module that is processed. -/
theorem Module.targets_standIn {t : Target Datum} (ht : t ∈ m.targets) :
    Item.StandsIn (.ofList m dependencies) ⟨m, t.type, t.method⟩ := by
  obtain ⟨⟨htype, hmethod⟩, _⟩ := Module.mem_targets.mp ht
  exact ⟨List.mem_cons_self, List.mem_of_getElem? htype, List.mem_of_getElem? hmethod⟩

/-- The closure of a mobile method notes the modules that its body reaches into, but for its own one. -/
theorem Target.mem_modules (hs : (ModuleSet.ofList m dependencies).Unambiguous) {t : Target Datum} (ht : t ∈ m.targets)
    {c : Closure} (hc : (ModuleSet.ofList m dependencies).discover boundary t.type.fullName t.method = .ok c)
    {name : String} :
    name ∈ c.modules ↔ name ≠ m.name ∧ ∃ d, t.ReachesInto (.ofList m dependencies) boundary d ∧ d.name = name := by
  have hstart : Item.StandsIn (.ofList m dependencies) ⟨m, t.type, t.method⟩ := Module.targets_standIn ht
  obtain ⟨_, w, done, rfl, hholds, hpending⟩ := ModuleSet.discover_eq_ok hs boundary hstart.type hstart.method hc
  rw [hholds.modules_iff hs hstart hpending]
  refine and_congr_right fun _ => ⟨?_, ?_⟩
  · rintro ⟨x, hx, i, hi, d, henters, hname⟩
    exact ⟨d, ⟨x, hx, i, hi, henters⟩, hname⟩
  · rintro ⟨d, ⟨x, hx, i, hi, henters⟩, hname⟩
    exact ⟨x, hx, i, hi, d, henters, hname⟩

/-- What a body reaches into was supplied. -/
theorem Target.ReachesInto.supplied {t : Target Datum} (ht : t ∈ m.targets) {d : Module Datum}
    (h : t.ReachesInto (.ofList m dependencies) boundary d) (hne : d.name ≠ m.name) : d ∈ dependencies := by
  obtain ⟨x, hx, i, _, henters⟩ := h
  refine (ModuleSet.mem_members (henters.mem_members (hx.standsIn (Module.targets_standIn ht)))).resolve_left ?_
  rintro rfl
  exact hne rfl

/-- A deployment bundles the names of the modules that the bodies of its mobile methods reach into. Both of its
modules refer to these modules and carry them, and a server that runs one of them does not miss them. -/
theorem Deployment.bundles_reached {dep : Deployment} (hs : (ModuleSet.ofList m dependencies).Unambiguous)
    (hnames : (dependencies.map (·.name)).Nodup)
    (hmake : Deployment.make? boundary digest m dependencies = .ok (some dep)) :
    (∀ name, name ∈ dep.bundle ↔ name ≠ m.name ∧ ∃ t ∈ m.targets, ∃ d,
      t.ReachesInto (.ofList m dependencies) boundary d ∧ d.name = name) ∧
    ∀ d, d.name ≠ m.name → (∃ t ∈ m.targets, t.ReachesInto (.ofList m dependencies) boundary d) →
      d ∈ dependencies ∧ d.name ∈ dep.bundle ∧ ∀ n, n = dep.client ∨ n = dep.server → n.Carries d ∧
        ∀ l : LoadedModule, l.code.shape = n.shape → isPlainFileName d.name = true → ∀ r thread s s' found,
          (Server.hostFor r thread l).resolveModule d.name s = some (.ok found, s') → found = true := by
  obtain ⟨closures, made, hclosures, _, hbundle, hcarried, hserver⟩ := make?_eq_ok hmake
  have hwalks := forall₂_mapM hclosures
  have hmem (name : String) : name ∈ dep.bundle ↔ name ≠ m.name ∧ ∃ t ∈ m.targets, ∃ d,
      t.ReachesInto (.ofList m dependencies) boundary d ∧ d.name = name := by
    rw [hbundle, mem_bundle, or_iff_right List.not_mem_nil]
    constructor
    · rintro ⟨c, hc, hname⟩
      obtain ⟨t, ht, hwalk⟩ := Forall₂.exists_of_mem hwalks.flip hc
      obtain ⟨hne, hd⟩ := (Target.mem_modules hs ht hwalk).mp hname
      exact ⟨hne, t, ht, hd⟩
    · rintro ⟨hne, t, ht, hd⟩
      obtain ⟨c, hc, hwalk⟩ := Forall₂.exists_of_mem hwalks ht
      exact ⟨c, hc, (Target.mem_modules hs ht hwalk).mpr ⟨hne, hd⟩⟩
  refine ⟨hmem, ?_⟩
  rintro d hne ⟨t, ht, hreached⟩
  have hname : d.name ∈ dep.bundle := (hmem _).mpr ⟨hne, t, ht, d, hreached, rfl⟩
  have hsupplied : d ∈ dependencies := hreached.supplied ht hne
  have hfound : dependencies.find? (·.name = d.name) = some d :=
    find?_eq_some_of_unique hsupplied (decide_eq_true rfl) fun y hy hsame =>
      List.inj_on_of_nodup_map hnames hy hsupplied (of_decide_eq_true hsame)
  have hclient : dep.client.Carries d := carryAll_carries hcarried hfound hname
  refine ⟨hsupplied, hname, fun n hn => ?_⟩
  have hcarries : n.Carries d := by
    obtain rfl | rfl := hn
    · exact hclient
    · rw [hserver]
      exact serverModule_carries digest _ hclient
  refine ⟨hcarries, fun l hl hplain r thread s s' found h => ?_⟩
  have hresources : l.code.resources = n.resources := congrArg Module.resources hl
  have hfile : l.code.bundled? d.name = some d.toFile := by
    rw [Module.bundled?, hresources]
    exact hcarries.file
  exact Server.resolveModule_carried hplain hfile r thread h

end

/-- A method and the constructor of its type, each of which makes an object of another module. -/
def station : Module Datum where
  name := "Station"
  types := [{ space := "Ops", name := "Station", methods := [
    { name := constructorName, flags := MethodFlags.constructor,
      body := [.construct ⟨some "Dials", "Lib.Dial"⟩, .pop, .ret] },
    { name := "Read", flags := MethodFlags.mobile,
      body := [.construct ⟨some "Gauges", "Lib.Gauge"⟩, .pop, .ret] }] }]

def station.supplied : List (Module Datum) :=
  [{ name := "Dials", types := [{ space := "Lib", name := "Dial" }] },
    { name := "Gauges", types := [{ space := "Lib", name := "Gauge" }] }]

theorem station_bundles_gauges : ∃ dep, Deployment.make? {} .sha1 station station.supplied = .ok (some dep) ∧
    dep.bundle = ["Gauges"] ∧
      ∃ d ∈ station.supplied, d.name = "Gauges" ∧ dep.client.Carries d ∧ dep.server.Carries d := by
  obtain ⟨dep, hmake, hbundle⟩ : ∃ dep, Deployment.make? {} .sha1 station station.supplied = .ok (some dep) ∧
      dep.bundle = ["Gauges"] := ⟨_, rfl, rfl⟩
  obtain ⟨hmem, hcarried⟩ := Deployment.bundles_reached (by decide) (by decide) hmake
  obtain ⟨_, t, ht, d, hreached, hname⟩ := (hmem "Gauges").mp (by rw [hbundle]; exact List.mem_singleton_self _)
  obtain ⟨hsupplied, _, hboth⟩ := hcarried d (by rw [hname]; decide) ⟨t, ht, hreached⟩
  exact ⟨dep, hmake, hbundle, d, hsupplied, hname, (hboth _ (.inl rfl)).1, (hboth _ (.inr rfl)).1⟩

end MobileCode
