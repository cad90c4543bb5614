import MobileCode.Proofs.Bundles
import MobileCode.Proofs.Slots

/-! # What discovery resolves against

Several modules of one name may be supplied. Discovery resolves all references into the last one of them, and a deployment
carries the first one. So the bundled module is the one that was analysed where the two are the same, and this is all that
it takes: names of types and members may be ambiguous as well.
-/
namespace MobileCode
variable {α : Type}

/-! ## Modules of a set -/

namespace ModuleSet

/-- Of several modules of a name the last one is in the set. -/
theorem find?_ofList (root : Module α) (dependencies : List (Module α)) (name : String) :
    (ofList root dependencies).dependencies.find? name = dependencies.reverse.find? (·.name = name) := by
  rw [ofList]
  exact (Dict.find?_ofList_map (fun m : Module α => m.name) id dependencies name).trans Option.map_id'

/-- The module is the root, or has another name and is what that name stands for. -/
def Homes (s : ModuleSet α) (m : Module α) : Prop :=
  m = s.root ∨ m.name ≠ s.root.name ∧ s.dependencies.find? m.name = some m

variable {s : ModuleSet α} {current m : Module α}

theorem Homes.find? (h : s.Homes m) (hne : m.name ≠ s.root.name) : s.dependencies.find? m.name = some m := by
  rcases h with rfl | ⟨_, hfound⟩
  · exact absurd rfl hne
  · exact hfound

theorem Homes.scope? (hkeys : ∀ name d, s.dependencies.find? name = some d → d.name = name) (h : s.Homes current)
    {scope : Option String} (hscope : s.scope? current scope = some m) : s.Homes m := by
  unfold ModuleSet.scope? at hscope
  split at hscope
  · cases hscope
    exact h
  · split at hscope
    · cases hscope
      exact h
    split at hscope
    · cases hscope
      exact .inl rfl
    · rename_i name _ hne
      obtain rfl : m.name = name := hkeys name m hscope
      exact .inr ⟨hne, hscope⟩

end ModuleSet

namespace Discovery

/-! ## Bodies and what they resolve -/

/-- The type that a body refers to by the instruction, unless discovery passes over it. -/
def followed? (b : Boundary) : Instruction α → Option TypeRef
  | .loadField r | .storeField r | .loadStatic r | .storeStatic r =>
    if b.excludes r.owner.fullName then none else some r.owner
  | .call r => if r.owner.fullName = b.clientType || b.excludes r.owner.fullName then none else some r.owner
  | .construct r => if b.excludes r.fullName then none else some r
  | _ => none

/-- A reference in the body is resolved by a type of the module. -/
def Item.ResolvesInto (s : ModuleSet α) (b : Boundary) (x : Item α) (m : Module α) : Prop :=
  ∃ i ∈ x.method.body, ∃ r t, followed? b i = some r ∧ s.lookup? x.module r = some (m, t)

/-- A walk that has read these bodies, the last one first. -/
inductive Walk.Reads (g : Setting α) (start : Walk α) : List (Item α) → Walk α → Prop
  | start : Reads g start [] start
  | body {read rest : List (Item α)} {x : Item α} {w w' : Walk α} : Reads g start read w → w.pending = x :: rest →
    scan g x { w with pending := rest } = .ok w' → Reads g start (x :: read) w'

theorem Walk.Reads.walk {g : Setting α} {start w w' : Walk α} {read : List (Item α)} {fuel : Nat}
    (h : Walk.Reads g start read w) (hw : Discovery.walk g fuel w = .ok w') : ∃ read', Walk.Reads g start read' w' := by
  induction fuel generalizing read w with
  | zero =>
    cases hw
    exact ⟨read, h⟩
  | succ fuel ih =>
    unfold Discovery.walk at hw
    split at hw
    · cases hw
      exact ⟨read, h⟩
    · rename_i x rest hpending
      obtain ⟨v, hscan, hw⟩ := Except.bind_eq_ok.mp hw
      exact ih (.body h hpending hscan) hw

/-! ### What walks note -/

section
variable {g : Setting α} {x : Item α} {site : MethodKey} {i : Instruction α} {w w' : Walk α}

/-- Whatever the visit of an instruction adds belongs to the module that its reference resolves into. -/
def Walk.Notes (g : Setting α) (x : Item α) (i : Instruction α) (w w' : Walk α) : Prop :=
  w' = w ∨ ∃ r m t e, followed? g.boundary i = some r ∧ g.modules.lookup? x.module r = some (m, t) ∧ w.Gains e w' ∧
    (∀ y, e.items y → y.module = m) ∧ ∀ name, e.modules name → m.name ≠ g.modules.root.name ∧ name = m.name

theorem resolveType_eq_ok {r : TypeRef} {kind : ReferenceKind} {member : String} {found : Module α × TypeDecl α}
    (h : resolveType g x r kind member site = .ok found) : g.modules.lookup? x.module r = some found := by
  rw [resolveType_eq] at h
  split at h
  · rename_i hlookup
    cases h
    exact hlookup
  · cases h

theorem visitField_notes {r : FieldRef}
    (hi : followed? g.boundary i = if g.boundary.excludes r.owner.fullName then none else some r.owner)
    (h : visitField g x site r w = .ok w') : w.Notes g x i w' := by
  unfold visitField at h
  by_cases hexcluded : g.boundary.excludes r.owner.fullName = true
  · rw [if_pos hexcluded] at h
    cases h
    exact .inl rfl
  rw [if_neg hexcluded] at h hi
  obtain ⟨⟨m, t⟩, hfound, h⟩ := Except.bind_eq_ok.mp h
  have hlookup := resolveType_eq_ok hfound
  dsimp only at h
  split at h
  · cases h
  have hnoted := noteModule_gains (g := g) (w := w) m
  split at h
  · cases h
    exact .inr ⟨_, m, t, _, hi, hlookup, hnoted.trans (noteField_gains _), by simp, by simp⟩
  · cases h
    exact .inr ⟨_, m, t, _, hi, hlookup, hnoted, by simp, by simp⟩

theorem visitCall_notes {r : MethodRef} (h : visitCall g x site r w = .ok w') : w.Notes g x (.call r) w' := by
  unfold visitCall at h
  dsimp only at h
  by_cases hstops : (decide (r.owner.fullName = g.boundary.clientType) || g.boundary.excludes r.owner.fullName) = true
  · rw [if_pos hstops] at h
    cases h
    exact .inl rfl
  have hi : followed? g.boundary (.call r : Instruction α) = some r.owner := if_neg hstops
  rw [if_neg hstops] at h
  obtain ⟨⟨m, t⟩, hfound, h⟩ := Except.bind_eq_ok.mp h
  have hlookup := resolveType_eq_ok hfound
  dsimp only at h
  split at h
  · cases h
  rename_i d _
  have hnoted (w : Walk α) := noteModule_gains (g := g) (w := w) m
  split at h
  · cases h
    exact .inr ⟨_, m, t, _, hi, hlookup, (hnoted w).trans (enqueue_gains ⟨m, t, d⟩), by simp, by simp⟩
  · rename_i p _
    split at h
    · cases h
      exact .inl rfl
    · cases h
      exact .inr ⟨_, m, t, _, hi, hlookup, ((noteProperty_gains t p).trans (hnoted _)).trans (enqueue_gains ⟨m, t, d⟩),
        by simp, by simp⟩

theorem visitConstruct_notes {r : TypeRef} (h : visitConstruct g x site r w = .ok w') : w.Notes g x (.construct r) w' := by
  unfold visitConstruct at h
  by_cases hexcluded : g.boundary.excludes r.fullName = true
  · rw [if_pos hexcluded] at h
    cases h
    exact .inl rfl
  have hi : followed? g.boundary (.construct r : Instruction α) = some r := if_neg hexcluded
  rw [if_neg hexcluded] at h
  obtain ⟨⟨m, t⟩, hfound, h⟩ := Except.bind_eq_ok.mp h
  have hlookup := resolveType_eq_ok hfound
  have hnoted := noteModule_gains (g := g) (w := w) m
  dsimp only at h
  split at h
  · rename_i d _
    cases h
    exact .inr ⟨_, m, t, _, hi, hlookup, hnoted.trans (enqueue_gains ⟨m, t, d⟩), by simp, by simp⟩
  · cases h
    exact .inr ⟨_, m, t, _, hi, hlookup, hnoted, by simp, by simp⟩

theorem visit_notes (h : visit g x site w i = .ok w') : w.Notes g x i w' := by
  cases i with
  | loadField r | storeField r | loadStatic r | storeStatic r => exact visitField_notes rfl h
  | call r => exact visitCall_notes h
  | construct r => exact visitConstruct_notes h
  | _ =>
    cases h
    exact .inl rfl

end

/-! ### What walks trace -/

/-- All bodies that a walk has read or is about to read stand in modules of the set. What it has noted are modules that
references in the bodies read resolve into. -/
structure Walk.Traces (g : Setting α) (read : List (Item α)) (w : Walk α) : Prop where
  bodies : ∀ x ∈ read, g.modules.Homes x.module
  pending : ∀ x ∈ w.pending, g.modules.Homes x.module
  modules : ∀ name ∈ w.closure.modules, name ≠ g.modules.root.name ∧
    ∃ x ∈ read, ∃ m, x.ResolvesInto g.modules g.boundary m ∧ m.name = name

section
variable {g : Setting α} {read : List (Item α)} {w w' : Walk α} {x : Item α} {m : Module α}
  (hkeys : ∀ name m, g.modules.dependencies.find? name = some m → m.name = name)
include hkeys

theorem Item.ResolvesInto.homes (h : x.ResolvesInto g.modules g.boundary m) (hx : g.modules.Homes x.module) :
    g.modules.Homes m := by
  obtain ⟨i, _, r, t, _, hlookup⟩ := h
  exact hx.scope? hkeys (ModuleSet.lookup?_eq_some.mp hlookup).1

theorem Walk.Traces.visit {site : MethodKey} {i : Instruction α} (h : w.Traces g read) (hx : x ∈ read)
    (hi : i ∈ x.method.body) (hw : Discovery.visit g x site w i = .ok w') : w'.Traces g read := by
  rcases visit_notes hw with rfl | ⟨r, m, t, e, hfollowed, hlookup, hgains, hitems, hmodules⟩
  · exact h
  have hinto : x.ResolvesInto g.modules g.boundary m := ⟨i, hi, r, t, hfollowed, hlookup⟩
  obtain ⟨new, hpending, _, _, hnew, _⟩ := hgains.items
  refine ⟨h.bodies, fun y hy => ?_, fun name hname => ?_⟩
  · rw [hpending] at hy
    rcases List.mem_append.mp hy with hy | hy
    · exact hitems y (hnew y hy) ▸ hinto.homes hkeys (h.bodies x hx)
    · exact h.pending y hy
  · rcases (hgains.modules name).mp hname with hadded | hname
    · obtain ⟨hne, rfl⟩ := hmodules name hadded
      exact ⟨hne, x, hx, m, hinto, rfl⟩
    · exact h.modules name hname

theorem Walk.Traces.visits {site : MethodKey} {body : List (Instruction α)} (h : w.Traces g read) (hx : x ∈ read)
    (hbody : ∀ i ∈ body, i ∈ x.method.body) (hw : body.foldlM (Discovery.visit g x site) w = .ok w') : w'.Traces g read := by
  induction body generalizing w with
  | nil =>
    cases hw
    exact h
  | cons i body ih =>
    rw [List.foldlM_cons] at hw
    obtain ⟨v, hv, hw⟩ := Except.bind_eq_ok.mp hw
    obtain ⟨hi, hbody⟩ := List.forall_mem_cons.mp hbody
    exact ih (h.visit hkeys hx hi hv) hbody hw

/-- What a walk has noted is what the bodies that it has read resolve into. -/
theorem Walk.Reads.traces {start : Walk α} (hstart : start.Traces g []) (h : Walk.Reads g start read w) :
    w.Traces g read := by
  induction h with
  | start => exact hstart
  | @body read rest x w w' _ hpending hscan ih =>
    have hx : g.modules.Homes x.module := ih.pending x (hpending ▸ List.mem_cons_self)
    have htaken : Walk.Traces g (x :: read) { w with pending := rest } := by
      refine ⟨List.forall_mem_cons.mpr ⟨hx, ih.bodies⟩, fun y hy => ih.pending y (hpending ▸ List.mem_cons_of_mem x hy), ?_⟩
      intro name hname
      obtain ⟨hne, y, hy, hinto⟩ := ih.modules name hname
      exact ⟨hne, y, List.mem_cons_of_mem x hy, hinto⟩
    exact htaken.visits hkeys List.mem_cons_self (fun _ hi => hi) hscan

end
end Discovery

/-! ## Bundled modules -/

open Discovery

/-- Discovery of the closure of a method resolves a reference into the module, in one of the bodies that it reads. -/
def ModuleSet.Resolves (s : ModuleSet α) (b : Boundary) (type : String) (method : MethodDecl α) (m : Module α) : Prop :=
  ∃ t w read, s.root.type? type = some t ∧
    let g : Setting α := ⟨s, b, t.fullName⟩
    let start : Walk α := { visited := [method.key type], pending := [⟨s.root, t, method⟩] }
    Discovery.walk g s.bound start = .ok w ∧ Walk.Reads g start read w ∧ ∃ x ∈ read, x.ResolvesInto s b m

section
variable {s : ModuleSet α} {b : Boundary} {type : String} {method : MethodDecl α} {m : Module α} {c : Closure}
  (hkeys : ∀ name m, s.dependencies.find? name = some m → m.name = name)
include hkeys

theorem Discovery.Walk.Reads.discovers {t : TypeDecl α} {w : Walk α} {read : List (Item α)}
    (h : Walk.Reads ⟨s, b, t.fullName⟩ { visited := [method.key type], pending := [⟨s.root, t, method⟩] } read w) :
    w.Traces ⟨s, b, t.fullName⟩ read := by
  refine h.traces hkeys ⟨fun x hx => (nomatch hx), fun x hx => ?_, fun name hname => absurd hname List.not_mem_nil⟩
  rw [List.mem_singleton.mp hx]
  exact .inl rfl

theorem ModuleSet.Resolves.homes (h : s.Resolves b type method m) : s.Homes m := by
  obtain ⟨t, w, read, _, _, hread, x, hx, hinto⟩ := h
  exact hinto.homes hkeys ((hread.discovers hkeys).bodies x hx)

/-- Each module of a closure is resolved into. -/
theorem ModuleSet.discover_resolves (h : s.discover b type method = .ok c) {name : String} (hname : name ∈ c.modules) :
    name ≠ s.root.name ∧ ∃ m, s.Resolves b type method m ∧ m.name = name := by
  unfold discover at h
  split at h
  · cases h
  rename_i t htype
  dsimp only at h
  cases hwalk : Discovery.walk ⟨s, b, t.fullName⟩ s.bound
      { visited := [method.key type], pending := [⟨s.root, t, method⟩] } with
  | error e =>
    rw [hwalk] at h
    cases h
  | ok w =>
    rw [hwalk] at h
    cases h
    obtain ⟨read, hread⟩ := Walk.Reads.start.walk hwalk
    obtain ⟨hne, x, hx, m, hinto, hm⟩ := (hread.discovers hkeys).modules name hname
    exact ⟨hne, m, ⟨t, w, read, htype, hwalk, hread, x, hx, hinto⟩, hm⟩

end

/-- A deployment bundles the modules of its closures. Into each of them references were resolved, and all of these into the
last supplied module of the name. If this is the first one as well, both modules of the deployment carry it. -/
theorem Deployment.bundles_resolved {boundary : Boundary} {digest : DigestAlgorithm} {m : Module Datum}
    {dependencies : List (Module Datum)} {dep : Deployment}
    (hmake : Deployment.make? boundary digest m dependencies = .ok (some dep)) : ∃ closures,
      (m.targets.mapM fun t => (ModuleSet.ofList m dependencies).discover boundary t.type.fullName t.method) = .ok closures ∧
      (∀ name, name ∈ dep.bundle ↔ ∃ c ∈ closures, name ∈ c.modules) ∧
      ∀ name ∈ dep.bundle, name ≠ m.name ∧ ∃ d, d.name = name ∧ dependencies.reverse.find? (·.name = name) = some d ∧
        (∃ t ∈ m.targets, (ModuleSet.ofList m dependencies).Resolves boundary t.type.fullName t.method d) ∧
        (∀ t ∈ m.targets, ∀ e, (ModuleSet.ofList m dependencies).Resolves boundary t.type.fullName t.method e →
          e.name = name → e = d) ∧
        (dependencies.find? (·.name = name) = some d → ∀ n, n = dep.client ∨ n = dep.server → n.Carries d) := by
  obtain ⟨closures, made, hclosures, _, hbundle, hcarried, hserver⟩ := make?_eq_ok hmake
  have hmem (name : String) : name ∈ dep.bundle ↔ ∃ c ∈ closures, name ∈ c.modules := by
    rw [hbundle, mem_bundle, or_iff_right List.not_mem_nil]
  have hkeys (name : String) (d : Module Datum) (h : (ModuleSet.ofList m dependencies).dependencies.find? name = some d) :
      d.name = name := by
    rw [ModuleSet.find?_ofList] at h
    simpa using List.find?_some h
  refine ⟨closures, hclosures, hmem, fun name hname => ?_⟩
  obtain ⟨c, hc, hin⟩ := (hmem name).mp hname
  obtain ⟨t, ht, hwalk⟩ := Forall₂.exists_of_mem (forall₂_mapM hclosures).flip hc
  obtain ⟨hne, d, hresolves, rfl⟩ := ModuleSet.discover_resolves hkeys hwalk hin
  have hlast (e : Module Datum) (he : (ModuleSet.ofList m dependencies).Homes e) (hsame : e.name = d.name) :
      dependencies.reverse.find? (·.name = d.name) = some e := by
    rw [← hsame, ← ModuleSet.find?_ofList m]
    exact he.find? (hsame ▸ hne)
  have hd := hlast d (hresolves.homes hkeys) rfl
  refine ⟨hne, d, rfl, hd, ⟨t, ht, hresolves⟩, fun t _ e he hsame => ?_, fun hfirst n hn => ?_⟩
  · exact Option.some.inj ((hlast e (he.homes hkeys) hsame).symm.trans hd)
  · have hclient : dep.client.Carries d := carryAll_carries hcarried hfirst hname
    rcases hn with rfl | rfl
    · exact hclient
    · rw [hserver]
      exact serverModule_carries digest _ hclient

namespace harbour

/-- A method that makes an object of another module. -/
def quay : Module Datum where
  name := "Quay"
  types := [{
    space := "Ops", name := "Quay"
    methods := [
      { name := constructorName, flags := MethodFlags.constructor, body := [.ret] },
      { name := "Moor", flags := MethodFlags.mobile, body := [.construct ⟨some "Ropes", "Lib.Rope"⟩, .pop, .ret] }] }]

def ropes : Module Datum := { name := "Ropes", types := [{ space := "Lib", name := "Rope" }] }

/-- The module with the type is supplied twice, and two others share a name. -/
def supplied : List (Module Datum) := [ropes, { name := "Buoys" }, ropes, { name := "Buoys", references := ["Ropes"] }]

end harbour

open harbour in
theorem harbour_bundles_ropes : ∃ dep, Deployment.make? {} .sha1 quay supplied = .ok (some dep) ∧ dep.bundle = ["Ropes"] ∧
    (∃ t ∈ quay.targets, (ModuleSet.ofList quay supplied).Resolves {} t.type.fullName t.method ropes) ∧
    dep.client.Carries ropes ∧ dep.server.Carries ropes := by
  obtain ⟨dep, hmake, hbundle⟩ : ∃ dep, Deployment.make? {} .sha1 quay supplied = .ok (some dep) ∧ dep.bundle = ["Ropes"] :=
    ⟨_, rfl, rfl⟩
  obtain ⟨_, _, _, hresolved⟩ := Deployment.bundles_resolved hmake
  obtain ⟨_, d, _, hlast, hresolves, _, hcarries⟩ := hresolved "Ropes" (by rw [hbundle]; exact List.mem_singleton_self _)
  obtain rfl : ropes = d := Option.some.inj hlast
  exact ⟨dep, hmake, hbundle, hresolves, hcarries rfl _ (.inl rfl), hcarries rfl _ (.inr rfl)⟩

end MobileCode
