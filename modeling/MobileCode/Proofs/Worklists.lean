import MobileCode.Proofs.Resolutions
import Mathlib.Data.List.Dedup

/-! # Discovery comes to its end

The stack of bodies to be read grows while it is consumed. A body is put on it under a key that has not been met before, and
all keys but that of the root are keys of methods of the set. So the keys of the bodies taken so far and of those still
pending are the keys met, without repetition, and there are no more of them than keys in the set and the root. This holds
whatever calls whatever, and where several methods share a key as well.
-/
namespace MobileCode
variable {α : Type}

namespace Discovery

/-! ## One body -/

/-- A walk that has met more bodies of the set, each under a key that was new. -/
def Walk.Meets (s : ModuleSet α) (w w' : Walk α) : Prop :=
  ∃ new : List (Item α), (∀ y ∈ new, y.StandsIn s) ∧ w'.pending = new ++ w.pending ∧
    w'.visited = new.map Item.key ++ w.visited ∧ (w.visited.Nodup → w'.visited.Nodup)

namespace Walk.Meets
variable {s : ModuleSet α} {w w' w'' : Walk α}

theorem refl (w : Walk α) : Walk.Meets s w w := ⟨[], by simp, rfl, rfl, id⟩

theorem trans (h : Walk.Meets s w w') (h' : Walk.Meets s w' w'') : Walk.Meets s w w'' := by
  obtain ⟨new, hnew, hpending, hvisited, hnodup⟩ := h
  obtain ⟨new', hnew', hpending', hvisited', hnodup'⟩ := h'
  refine ⟨new' ++ new, List.forall_mem_append.mpr ⟨hnew', hnew⟩, ?_, ?_, hnodup' ∘ hnodup⟩
  · rw [hpending', hpending, List.append_assoc]
  · rw [hvisited', hvisited, List.map_append, List.append_assoc]

end Walk.Meets

theorem Walk.Gains.meets {s : ModuleSet α} {e : Effect α} {w w' : Walk α} (h : w.Gains e w')
    (hitems : ∀ y, e.items y → y.StandsIn s) : w.Meets s w' := by
  obtain ⟨new, hpending, hvisited, _, hnew, hnodup⟩ := h.items
  exact ⟨new, fun y hy => hitems y (hnew y hy), hpending, hvisited, hnodup⟩

section
variable {g : Setting α} {x : Item α} {site : MethodKey} {w w' : Walk α}

theorem noteModule_meets (m : Module α) : w.Meets g.modules (noteModule g m w) :=
  (noteModule_gains m).meets fun _ h => h.elim

theorem enqueue_meets {y : Item α} (hy : y.StandsIn g.modules) : w.Meets g.modules (enqueue y w) :=
  (enqueue_gains y).meets fun _ h => h ▸ hy

theorem visitField_meets {r : FieldRef} (h : visitField g x site r w = .ok w') : w.Meets g.modules w' := by
  unfold visitField at h
  split at h
  · cases h
    exact .refl w
  obtain ⟨⟨m, t⟩, _, h⟩ := Except.bind_eq_ok.mp h
  dsimp only at h
  split at h
  · cases h
  split at h
  · cases h
    exact (noteModule_meets m).trans ((noteField_gains _).meets fun _ h => h.elim)
  · cases h
    exact noteModule_meets m

variable (hx : x.module ∈ g.modules.members)
include hx

theorem resolveType_standsIn {r : TypeRef} {kind : ReferenceKind} {member : String} {m : Module α} {t : TypeDecl α}
    (h : resolveType g x r kind member site = .ok (m, t)) {d : MethodDecl α} (hd : d ∈ t.methods) :
    Item.StandsIn g.modules ⟨m, t, d⟩ := by
  obtain ⟨hscope, htype⟩ := ModuleSet.lookup?_eq_some.mp (resolveType_eq_ok h)
  exact ⟨ModuleSet.scope?_mem hx hscope, (Module.type?_eq_some htype).1, hd⟩

theorem visitCall_meets {r : MethodRef} (h : visitCall g x site r w = .ok w') : w.Meets g.modules w' := by
  unfold visitCall at h
  dsimp only at h
  split at h
  · cases h
    exact .refl w
  obtain ⟨⟨m, t⟩, hfound, h⟩ := Except.bind_eq_ok.mp h
  dsimp only at h
  split at h
  · cases h
  rename_i d hmethod
  have hd := resolveType_standsIn hx hfound (TypeDecl.method?_eq_some hmethod).1
  split at h
  · cases h
    exact (noteModule_meets m).trans (enqueue_meets hd)
  rename_i p _
  split at h
  · cases h
    exact .refl w
  · cases h
    have hnoted := (noteProperty_gains (g := g) (w := w) t p).meets (s := g.modules) fun _ h => h.elim
    exact (hnoted.trans (noteModule_meets m)).trans (enqueue_meets hd)

theorem visitConstruct_meets {r : TypeRef} (h : visitConstruct g x site r w = .ok w') : w.Meets g.modules w' := by
  unfold visitConstruct at h
  split at h
  · cases h
    exact .refl w
  obtain ⟨⟨m, t⟩, hfound, h⟩ := Except.bind_eq_ok.mp h
  dsimp only at h
  split at h
  · rename_i d hctor
    cases h
    have hd := resolveType_standsIn hx hfound (List.mem_of_find?_eq_some hctor)
    exact (noteModule_meets m).trans (enqueue_meets hd)
  · cases h
    exact noteModule_meets m

theorem visit_meets {i : Instruction α} (h : visit g x site w i = .ok w') : w.Meets g.modules w' := by
  cases i with
  | loadField r | storeField r | loadStatic r | storeStatic r => exact visitField_meets h
  | call r => exact visitCall_meets hx h
  | construct r => exact visitConstruct_meets hx h
  | _ =>
    cases h
    exact .refl w

theorem visits_meets {body : List (Instruction α)} (h : body.foldlM (visit g x site) w = .ok w') :
    w.Meets g.modules w' := by
  induction body generalizing w with
  | nil =>
    cases h
    exact .refl _
  | cons i body ih =>
    rw [List.foldlM_cons] at h
    obtain ⟨v, hv, h⟩ := Except.bind_eq_ok.mp h
    exact (visit_meets hx hv).trans (ih h)

end

/-! ## The loop -/

/-- The loop without a limit, from a walk: the bodies that it takes from the stack, in this order, and its result. It ends
when none is left, or when the body just taken cannot be read. -/
inductive Walk.Runs (g : Setting α) : Walk α → List (Item α) → Except Error (Walk α) → Prop
  | done {w : Walk α} : w.pending = [] → Runs g w [] (.ok w)
  | fail {w : Walk α} {x : Item α} {rest : List (Item α)} {e : Error} : w.pending = x :: rest →
    scan g x { w with pending := rest } = .error e → Runs g w [x] (.error e)
  | next {w w' : Walk α} {x : Item α} {rest taken : List (Item α)} {result : Except Error (Walk α)} :
    w.pending = x :: rest → scan g x { w with pending := rest } = .ok w' → Runs g w' taken result →
    Runs g w (x :: taken) result

variable {g : Setting α} {w : Walk α}

/-- The loop takes the same bodies every time. -/
theorem Walk.Runs.unique {taken taken' : List (Item α)} {result result' : Except Error (Walk α)}
    (h : Walk.Runs g w taken result) (h' : Walk.Runs g w taken' result') : taken = taken' ∧ result = result' := by
  induction h generalizing taken' result' with
  | done hpending =>
    cases h' with
    | done _ => exact ⟨rfl, rfl⟩
    | fail hpending' _ | next hpending' _ _ => cases hpending.symm.trans hpending'
  | fail hpending hscan =>
    cases h' with
    | done hpending' => cases hpending.symm.trans hpending'
    | fail hpending' hscan' =>
      cases hpending.symm.trans hpending'
      cases hscan.symm.trans hscan'
      exact ⟨rfl, rfl⟩
    | next hpending' hscan' _ =>
      cases hpending.symm.trans hpending'
      cases hscan.symm.trans hscan'
  | next hpending hscan _ ih =>
    cases h' with
    | done hpending' => cases hpending.symm.trans hpending'
    | fail hpending' hscan' =>
      cases hpending.symm.trans hpending'
      cases hscan.symm.trans hscan'
    | next hpending' hscan' h' =>
      cases hpending.symm.trans hpending'
      cases hscan.symm.trans hscan'
      obtain ⟨rfl, rfl⟩ := ih h'
      exact ⟨rfl, rfl⟩

/-- What holds while the loop runs: the keys of the bodies taken and of those pending are all keys met, each once, and
none but `root` stands outside the set. -/
structure Walk.Tallies (s : ModuleSet α) (root : Item α) (taken : List (Item α)) (w : Walk α) : Prop where
  keys : ((taken ++ w.pending).map Item.key).Perm w.visited
  distinct : w.visited.Nodup
  stand : ∀ x ∈ taken ++ w.pending, x = root ∨ x.StandsIn s

namespace Walk.Tallies
variable {s : ModuleSet α} {root x : Item α} {taken rest : List (Item α)} {w w' : Walk α}

theorem start (s : ModuleSet α) (x : Item α) : Walk.Tallies s x [] { visited := [x.key], pending := [x] } where
  keys := .refl _
  distinct := List.nodup_singleton _
  stand _ hy := .inl (List.mem_singleton.mp hy)

theorem nodup (h : w.Tallies s root taken) : (taken.map Item.key).Nodup := by
  have hall : ((taken ++ w.pending).map Item.key).Nodup := h.keys.nodup_iff.mpr h.distinct
  rw [List.map_append] at hall
  exact hall.of_append_left

theorem keys_subset (h : w.Tallies s root taken) : w.visited ⊆ (root.key :: s.keys).dedup := by
  intro k hk
  obtain ⟨x, hx, rfl⟩ := List.mem_map.mp (h.keys.mem_iff.mpr hk)
  rw [List.mem_dedup]
  rcases h.stand x hx with rfl | hx
  · exact List.mem_cons_self
  · exact List.mem_cons_of_mem _ hx.key_mem

/-- There are no more bodies than keys. -/
theorem length_le (h : w.Tallies s root taken) :
    taken.length + w.pending.length ≤ (root.key :: s.keys).dedup.length := by
  have hlength := h.keys.length_eq
  rw [List.length_map, List.length_append] at hlength
  rw [hlength]
  exact (List.subperm_of_subset h.distinct h.keys_subset).length_le

theorem take (h : w.Tallies s root taken) (hpending : w.pending = x :: rest) :
    Walk.Tallies s root (taken ++ [x]) { w with pending := rest } := by
  have happend : taken ++ [x] ++ rest = taken ++ w.pending := by rw [hpending, List.append_assoc, List.singleton_append]
  exact ⟨happend ▸ h.keys, h.distinct, happend ▸ h.stand⟩

theorem meets (h : w.Tallies s root taken) (hmeets : w.Meets s w') : w'.Tallies s root taken := by
  obtain ⟨new, hnew, hpending, hvisited, hnodup⟩ := hmeets
  have hmiddle : (taken ++ w'.pending).Perm (new ++ (taken ++ w.pending)) := by
    rw [hpending, ← List.append_assoc, ← List.append_assoc]
    exact List.perm_append_comm.append_right _
  refine ⟨?_, hnodup h.distinct, fun y hy => ?_⟩
  · rw [hvisited]
    refine (hmiddle.map _).trans ?_
    rw [List.map_append]
    exact h.keys.append_left _
  · rcases List.mem_append.mp (hmiddle.mem_iff.mp hy) with hy | hy
    · exact .inr (hnew y hy)
    · exact h.stand y hy

theorem read {g : Setting α} (hroot : root.module ∈ g.modules.members) (h : w.Tallies g.modules root taken)
    (hpending : w.pending = x :: rest) (hw : Discovery.scan g x { w with pending := rest } = .ok w') :
    w'.Tallies g.modules root (taken ++ [x]) := by
  have hx : x.module ∈ g.modules.members := by
    rcases h.stand x (by rw [hpending]; simp) with rfl | hx
    · exact hroot
    · exact hx.module
  exact (h.take hpending).meets (visits_meets hx hw)

end Walk.Tallies

/-- With room for the keys not met yet, the limit is of no effect: the loop ends before. -/
theorem Walk.Tallies.runs {root : Item α} {taken : List (Item α)} {w : Walk α} {fuel : Nat}
    (hroot : root.module ∈ g.modules.members) (h : w.Tallies g.modules root taken)
    (hroom : (root.key :: g.modules.keys).dedup.length < taken.length + fuel) : ∃ more,
    Walk.Runs g w more (Discovery.walk g fuel w) ∧ ((taken ++ more).map Item.key).Nodup ∧
      (∀ x ∈ taken ++ more, x = root ∨ x.StandsIn g.modules) ∧
      (taken ++ more).length ≤ (root.key :: g.modules.keys).dedup.length := by
  induction fuel generalizing taken w with
  | zero =>
    have := h.length_le
    omega
  | succ fuel ih =>
    unfold Discovery.walk
    cases hpending : w.pending with
    | nil =>
      have hlength := h.length_le
      rw [hpending, List.length_nil, Nat.add_zero] at hlength
      refine ⟨[], .done hpending, ?_⟩
      rw [List.append_nil]
      exact ⟨h.nodup, fun x hx => h.stand x (List.mem_append_left _ hx), hlength⟩
    | cons x rest =>
      have htaken := h.take hpending
      dsimp only
      cases hscan : scan g x { w with pending := rest } with
      | error e =>
        have hlength := htaken.length_le
        exact ⟨[x], .fail hpending hscan, htaken.nodup, fun y hy => htaken.stand y (List.mem_append_left _ hy), by omega⟩
      | ok w' =>
        have hroom' : (root.key :: g.modules.keys).dedup.length < (taken ++ [x]).length + fuel := by
          rw [List.length_append, List.length_singleton]
          omega
        obtain ⟨more, hruns, hrest⟩ := ih (h.read hroot hpending hscan) hroom'
        rw [List.append_assoc, List.singleton_append] at hrest
        exact ⟨x :: more, .next hpending hscan hruns, hrest⟩

end Discovery

/-! ## Discovery -/

open Discovery

/-- Discovery of the closure of a method, without a limit: the bodies that it takes from its stack, and its result. It
takes none if the root module has no such type. -/
def ModuleSet.Discovers (s : ModuleSet α) (b : Boundary) (type : String) (method : MethodDecl α) (taken : List (Item α))
    (result : Except Error Closure) : Prop :=
  match s.root.type? type with
  | none => taken = [] ∧ result = .error (.unresolved .type type s.root.name method.name)
  | some t => ∃ r, Walk.Runs ⟨s, b, t.fullName⟩ { visited := [method.key type], pending := [⟨s.root, t, method⟩] } taken r ∧
    result = r.map (·.closure)

theorem ModuleSet.Discovers.unique {s : ModuleSet α} {b : Boundary} {type : String} {method : MethodDecl α}
    {taken taken' : List (Item α)} {result result' : Except Error Closure} (h : s.Discovers b type method taken result)
    (h' : s.Discovers b type method taken' result') : taken' = taken ∧ result' = result := by
  unfold Discovers at h h'
  cases htype : s.root.type? type with
  | none =>
    rw [htype] at h h'
    exact ⟨h'.1.trans h.1.symm, h'.2.trans h.2.symm⟩
  | some t =>
    rw [htype] at h h'
    obtain ⟨r, hruns, rfl⟩ := h
    obtain ⟨r', hruns', rfl⟩ := h'
    obtain ⟨rfl, rfl⟩ := hruns.unique hruns'
    exact ⟨rfl, rfl⟩

/-- Discovery comes to its end in every set of modules. It reads no key's body twice, and all bodies that it reads but the
first one are bodies of the set, so they are no more than the distinct keys of the set and the root. -/
theorem ModuleSet.discover_ends (s : ModuleSet α) (b : Boundary) (type : String) (method : MethodDecl α) : ∃ taken,
    s.Discovers b type method taken (s.discover b type method) ∧
      (∀ taken' result, s.Discovers b type method taken' result → taken' = taken ∧ result = s.discover b type method) ∧
      (taken.map Item.key).Nodup ∧ (∀ x ∈ taken, x.key = method.key type ∨ x.StandsIn s) ∧
      taken.length ≤ (method.key type :: s.keys).dedup.length := by
  suffices h : ∃ taken, s.Discovers b type method taken (s.discover b type method) ∧ (taken.map Item.key).Nodup ∧
      (∀ x ∈ taken, x.key = method.key type ∨ x.StandsIn s) ∧
      taken.length ≤ (method.key type :: s.keys).dedup.length by
    obtain ⟨taken, hruns, hrest⟩ := h
    exact ⟨taken, hruns, fun _ _ h' => hruns.unique h', hrest⟩
  unfold Discovers discover
  cases htype : s.root.type? type with
  | none => exact ⟨[], ⟨rfl, rfl⟩, List.nodup_nil, by simp, Nat.zero_le _⟩
  | some t =>
    have hname : t.fullName = type := (Module.type?_eq_some htype).2
    have hkey : Item.key ⟨s.root, t, method⟩ = method.key type := congrArg method.key hname
    -- The limit of the loop exceeds the number of keys, repeated or not.
    have hroom : (Item.key ⟨s.root, t, method⟩ :: s.keys).dedup.length < s.bound := by
      have := (List.dedup_sublist (Item.key ⟨s.root, t, method⟩ :: s.keys)).length_le
      rw [List.length_cons] at this
      rw [bound_eq]
      omega
    have hstart := Walk.Tallies.start s ⟨s.root, t, method⟩
    have hroom' : (Item.key ⟨s.root, t, method⟩ :: s.keys).dedup.length < ([] : List (Item α)).length + s.bound := by
      simpa using hroom
    obtain ⟨taken, hruns, hnodup, hstand, hlength⟩ := hstart.runs (g := ⟨s, b, t.fullName⟩) List.mem_cons_self hroom'
    rw [hkey] at hruns hlength
    refine ⟨taken, ⟨_, hruns, rfl⟩, hnodup, fun x hx => ?_, hlength⟩
    rcases hstand x hx with rfl | hx
    · exact .inl hkey
    · exact .inr hx

end MobileCode
