import MobileCode.Proofs.Links

/-! # Copies made later

The code of a module names its literals in one order and the code of its deployment in another, so the
second heap gets its copies of objects that the first one has had for a while. A computation that makes
copies has a footprint, the objects it copies; computations with disjoint footprints may follow each other.
-/
namespace MobileCode
namespace Heap

/-- All objects of `h` are in `k`, at the same places. -/
def Extends (h k : Heap) : Prop := ∀ r o, h.get? r = some o → k.get? r = some o

theorem Extends.refl (h : Heap) : h.Extends h := fun _ _ ho => ho

theorem Extends.trans {h k l : Heap} (hk : h.Extends k) (hl : k.Extends l) : h.Extends l :=
  fun r o ho => hl r o (hk r o ho)

theorem Extends.size_le {h k : Heap} (hk : h.Extends k) : h.objects.size ≤ k.objects.size := by
  by_contra hlt
  have hlt := Nat.lt_of_not_le hlt
  have hsome : h.get? ⟨k.objects.size⟩ = some h.objects[k.objects.size] := Array.getElem?_eq_getElem hlt
  have hfound := hk _ _ hsome
  have hnone : k.get? ⟨k.objects.size⟩ = none := get?_eq_none_iff.mpr (Nat.le_refl _)
  cases hnone.symm.trans hfound

theorem extends_alloc (h : Heap) (o : Object) : h.Extends (h.alloc o).2 := by
  intro r p hp
  have hlt : r.index < h.objects.size := (Array.getElem?_eq_some_iff.mp hp).1
  have hne : r ≠ (h.alloc o).1 := fun he => by
    rw [he] at hlt
    exact Nat.lt_irrefl _ hlt
  rw [get?_alloc, if_neg hne, hp]

/-- The objects of `h` from the place `n` on are in `k`, at the same places. -/
def ExtendsFrom (n : Nat) (h k : Heap) : Prop := ∀ r o, n ≤ r.index → h.get? r = some o → k.get? r = some o

theorem Extends.since {n : Nat} {h k : Heap} (hk : h.Extends k) : ExtendsFrom n h k := fun r o _ => hk r o

theorem ExtendsFrom.mono {n m : Nat} {h k : Heap} (hk : ExtendsFrom n h k) (hnm : n ≤ m) : ExtendsFrom m h k :=
  fun r o hr => hk r o (Nat.le_trans hnm hr)

theorem Extends.trans_since {n : Nat} {h k l : Heap} (hk : h.Extends k) (hl : ExtendsFrom n k l) : ExtendsFrom n h l :=
  fun r o hr ho => hl r o hr (hk r o ho)

/-- The objects that a computation added. -/
def Added (h k : Heap) (r : Ref) : Prop := h.objects.size ≤ r.index ∧ r.index < k.objects.size

/-- Linked heaps whose links lead to objects that are there. -/
structure Joined (w : Links) (h k : Heap) : Prop extends Heap.Linked w h k where
  left : ∀ {r s}, w r s → r.index < h.objects.size
  right : ∀ {r s}, w r s → s.index < k.objects.size

end Heap

/-! ## Computations that only add objects -/

def Grows {α : Type} (x : StateM Heap α) : Prop := ∀ h, Heap.Extends h (x.run h).2

namespace Grows
variable {α β : Type}

theorem pure (a : α) : Grows (Pure.pure a) := fun h => .refl h

theorem bind {x : StateM Heap α} {f : α → StateM Heap β} (hx : Grows x) (hf : ∀ a, Grows (f a)) :
    Grows (x >>= f) := fun h => (hx h).trans (hf _ _)

theorem mapM {f : α → StateM Heap β} (hf : ∀ a, Grows (f a)) (xs : List α) : Grows (xs.mapM f) := by
  induction xs with
  | nil =>
    rw [List.mapM_nil]
    exact .pure _
  | cons x xs ih =>
    rw [List.mapM_cons]
    exact (hf x).bind fun _ => ih.bind fun _ => .pure _

end Grows

mutual

theorem Heap.instantiate_grows : ∀ x : Datum, Grows (Heap.instantiate x)
  | .null | .bool _ | .int32 _ | .int64 _ | .double _ | .text _ => fun h => .refl h
  | .list xs => fun h => Heap.instantiateItems_grows xs h
  | .object _ xs => fun h => (Heap.instantiateFields_grows xs h).trans (Heap.extends_alloc _ _)

theorem Heap.instantiateItems_grows : ∀ xs : List Datum, Grows (Heap.instantiateItems xs)
  | [] => fun h => .refl h
  | x :: xs => fun h => (Heap.instantiate_grows x h).trans (Heap.instantiateItems_grows xs _)

theorem Heap.instantiateFields_grows : ∀ xs : List (String × Datum), Grows (Heap.instantiateFields xs)
  | [] => fun h => .refl h
  | (_, x) :: xs => fun h => (Heap.instantiate_grows x h).trans (Heap.instantiateFields_grows xs _)

end

/-! ## Computations that copy objects -/

/-- In the second heap the computation copies objects of `B` that have no copy yet, and no others. -/
def Copies {β : Type} (h : Heap) (B : Ref → Prop) (w : Links) (y : StateM Heap β) (R : Links → β → Prop) : Prop :=
  ∀ k, Heap.Joined w h k → (∀ r s, B r → ¬w r s) →
    ∃ w', w ≤ w' ∧ Heap.Joined w' h (y.run k).2 ∧ (∀ r s, w' r s → w r s ∨ B r) ∧ R w' (y.run k).1

namespace Copies
variable {β γ : Type} {h : Heap} {B C : Ref → Prop} {w : Links} {R : Links → β → Prop} {Q : Links → γ → Prop}

theorem pure {b : β} (hb : R w b) : Copies h B w (Pure.pure b) R :=
  fun _ hw _ => ⟨w, le_rfl, hw, fun _ _ => .inl, hb⟩

theorem mono {y : StateM Heap β} {S : Links → β → Prop} (hy : Copies h B w y R) (hBC : ∀ r, B r → C r)
    (hRS : ∀ w', w ≤ w' → ∀ b, R w' b → S w' b) : Copies h C w y S := by
  intro k hw hfree
  obtain ⟨w', hle, hw', hnew, hr⟩ := hy k hw fun r s hr => hfree r s (hBC r hr)
  exact ⟨w', hle, hw', fun r s hrs => (hnew r s hrs).imp_right (hBC r), hRS w' hle _ hr⟩

/-- One copying computation after the other, on disjoint footprints. -/
theorem bind {y : StateM Heap β} {g : β → StateM Heap γ} (hy : Copies h B w y R)
    (hg : ∀ w', w ≤ w' → ∀ b, R w' b → Copies h C w' (g b) Q) (hdisjoint : ∀ r, B r → ¬C r) :
    Copies h (fun r => B r ∨ C r) w (y >>= g) Q := by
  intro k hw hfree
  obtain ⟨w₁, hle₁, hw₁, hnew₁, hr⟩ := hy k hw fun r s hr => hfree r s (.inl hr)
  have hfree₁ : ∀ r s, C r → ¬w₁ r s := by
    intro r s hr hrs
    obtain hrs | hb := hnew₁ r s hrs
    · exact hfree r s (.inr hr) hrs
    · exact hdisjoint r hb hr
  obtain ⟨w₂, hle₂, hw₂, hnew₂, hq⟩ := hg w₁ hle₁ _ hr _ hw₁ hfree₁
  refine ⟨w₂, hle₁.trans hle₂, hw₂, fun r s hrs => ?_, hq⟩
  obtain hrs | hc := hnew₂ r s hrs
  · exact (hnew₁ r s hrs).imp_right .inl
  · exact .inr (.inr hc)

/-- Objects that are no copies. -/
theorem of_grows {y : StateM Heap β} (hy : Grows y) {P : β → Prop} (hP : ∀ k, P (y.run k).1) :
    Copies h B w y fun _ b => P b := by
  intro k hw _
  have hext := hy k
  refine ⟨w, le_rfl, ?_, fun _ _ => .inl, hP k⟩
  refine ⟨⟨fun {r s} hrs => ?_, hw.functional, hw.injective, fun hrs hge => ?_⟩, hw.left, fun hrs => ?_⟩
  · obtain ⟨_, hnone⟩ | ⟨o, p, ho, hp, hop⟩ := hw.object_cases hrs
    · have hlt := hw.right hrs
      have hge := Heap.get?_eq_none_iff.mp hnone
      omega
    · rw [ho, hext s p hp]
      exact .some hop
  · have hlt := hw.left hrs
    omega
  · have hlt := hw.right hrs
    have hsize := hext.size_le
    omega

/-- Copying computations one after the other, on disjoint footprints. -/
theorem mapM {f : β → StateM Heap γ} {xs : List β} {F : Nat → Ref → Prop} {R : Nat → Links → γ → Prop}
    (hlast : ∀ i {w w'}, w ≤ w' → ∀ c, R i w c → R i w' c)
    (hdisjoint : ∀ i j, i ≠ j → ∀ r, F i r → ¬F j r)
    (hf : ∀ i x, xs[i]? = some x → ∀ w', w ≤ w' → Copies h (F i) w' (f x) (R i)) :
    Copies h (fun r => ∃ i, F i r) w (xs.mapM f) fun w' ys =>
      ys.length = xs.length ∧ ∀ i y, ys[i]? = some y → R i w' y := by
  induction xs generalizing w F R with
  | nil =>
    rw [List.mapM_nil]
    exact Copies.pure ⟨rfl, fun i y hy => by cases hy⟩
  | cons x xs ih =>
    rw [List.mapM_cons]
    have hhead := hf 0 x rfl w le_rfl
    refine mono (bind (C := fun r => ∃ i, F (i + 1) r) (Q := fun w' ys =>
      ys.length = xs.length + 1 ∧ ∀ i y, ys[i]? = some y → R i w' y) hhead (fun w' hle y hy => ?_) ?_)
      ?_ fun _ _ _ hys => hys
    · have htail := ih (w := w') (F := fun i => F (i + 1)) (R := fun i => R (i + 1)) (fun i => hlast (i + 1))
        (fun i j hij => hdisjoint _ _ fun he => hij (Nat.succ.inj he))
        fun i x hx w'' hle' => hf (i + 1) x hx w'' (hle.trans hle')
      refine mono (bind (C := fun _ => False) htail (fun w'' hle' ys hys => ?_) fun _ _ h => h)
        (fun r hr => hr.resolve_right id) fun _ _ _ hys => hys
      refine Copies.pure ⟨congrArg (· + 1) hys.1, fun i z hz => ?_⟩
      cases i with
      | zero =>
        cases hz
        exact hlast 0 hle' y hy
      | succ i => exact hys.2 i z hz
    · rintro r h₀ ⟨i, hi⟩
      exact hdisjoint 0 (i + 1) (Nat.succ_ne_zero i).symm r h₀ hi
    · rintro r (h₀ | ⟨i, hi⟩)
      · exact ⟨0, h₀⟩
      · exact ⟨i + 1, hi⟩

end Copies

/-! ## Stages -/

/-- The heap before each of some computations one after the other. -/
def Heap.stage {α β : Type} (f : α → StateM Heap β) : List α → Heap → Nat → Heap
  | x :: xs, h, i + 1 => stage f xs ((f x).run h).2 i
  | _, h, _ => h

namespace Heap
variable {α β : Type} {f : α → StateM Heap β}

theorem stage_zero (xs : List α) (h : Heap) : stage f xs h 0 = h := by
  cases xs <;> rfl

theorem mapM_run_cons (x : α) (xs : List α) (h : Heap) : ((x :: xs).mapM f).run h =
    (((f x).run h).1 :: ((xs.mapM f).run ((f x).run h).2).1, ((xs.mapM f).run ((f x).run h).2).2) := by
  rw [List.mapM_cons]
  rfl

theorem stage_length (xs : List α) (h : Heap) : stage f xs h xs.length = ((xs.mapM f).run h).2 := by
  induction xs generalizing h with
  | nil => rfl
  | cons x xs ih => rw [List.length_cons, stage, ih, mapM_run_cons]

theorem stage_succ {xs : List α} {i : Nat} {x : α} (hx : xs[i]? = some x) (h : Heap) :
    stage f xs h (i + 1) = ((f x).run (stage f xs h i)).2 := by
  induction xs generalizing i h with
  | nil => cases hx
  | cons y ys ih =>
    cases i with
    | zero =>
      cases hx
      exact stage_zero ys _
    | succ i => exact ih hx _

theorem mapM_getElem? {xs : List α} {i : Nat} {x : α} (hx : xs[i]? = some x) (h : Heap) :
    ((xs.mapM f).run h).1[i]? = some ((f x).run (stage f xs h i)).1 := by
  induction xs generalizing i h with
  | nil => cases hx
  | cons y ys ih =>
    rw [mapM_run_cons]
    cases i with
    | zero =>
      cases hx
      rfl
    | succ i => exact ih hx _

theorem length_mapM_run (xs : List α) (h : Heap) : ((xs.mapM f).run h).1.length = xs.length := by
  induction xs generalizing h with
  | nil => rfl
  | cons x xs ih => rw [mapM_run_cons, List.length_cons, List.length_cons, ih]

theorem stage_extends (hf : ∀ x, Grows (f x)) (xs : List α) (h : Heap) {i j : Nat} (hij : i ≤ j) :
    (stage f xs h i).Extends (stage f xs h j) := by
  have hfrom (xs : List α) (h : Heap) (j : Nat) : h.Extends (stage f xs h j) := by
    induction xs generalizing h j with
    | nil => exact .refl h
    | cons x xs ih =>
      cases j with
      | zero => exact .refl h
      | succ j => exact (hf x h).trans (ih _ j)
  induction xs generalizing h i j with
  | nil => exact .refl h
  | cons x xs ih =>
    cases i with
    | zero => exact hfrom (x :: xs) h j
    | succ i =>
      cases j with
      | zero => omega
      | succ j => exact ih _ (Nat.le_of_succ_le_succ hij)

theorem added_of_stage (hf : ∀ x, Grows (f x)) {xs : List α} {h : Heap} {i : Nat} (hi : i < xs.length) {r : Ref}
    (hr : Added (stage f xs h i) (stage f xs h (i + 1)) r) : Added h ((xs.mapM f).run h).2 r := by
  have hfirst := (stage_extends hf xs h (Nat.zero_le i)).size_le
  have hlast := (stage_extends hf xs h (show i + 1 ≤ xs.length from hi)).size_le
  rw [stage_zero] at hfirst
  rw [stage_length] at hlast
  exact ⟨Nat.le_trans hfirst hr.1, Nat.lt_of_lt_of_le hr.2 hlast⟩

/-- An object is added at one stage only. -/
theorem added_stage_unique (hf : ∀ x, Grows (f x)) {xs : List α} {h : Heap} {i j : Nat} {r : Ref}
    (hi : Added (stage f xs h i) (stage f xs h (i + 1)) r) (hj : Added (stage f xs h j) (stage f xs h (j + 1)) r) :
    i = j := by
  obtain ⟨hi, hi'⟩ := hi
  obtain ⟨hj, hj'⟩ := hj
  rcases Nat.lt_trichotomy i j with hlt | heq | hlt
  · have hsize := (stage_extends hf xs h (show i + 1 ≤ j from hlt)).size_le
    omega
  · exact heq
  · have hsize := (stage_extends hf xs h (show j + 1 ≤ i from hlt)).size_le
    omega

end Heap

/-! ## One computation after the other -/

/-- After one computation is over, the other one copies the objects that it added. -/
def Follows {α β : Type} (R : Links → α → β → Prop) (w : Links) (x : StateM Heap α) (y : StateM Heap β) : Prop :=
  ∀ h l, Heap.Extends (x.run h).2 l →
    Copies l (Heap.Added h (x.run h).2) w y fun w' b => R w' (x.run h).1 b

namespace Follows
variable {α β γ δ : Type} {R : Links → α → β → Prop} {Q : Links → γ → δ → Prop} {w : Links}

theorem pure {a : α} {b : β} (hab : R w a b) : Follows R w (Pure.pure a) (Pure.pure b) :=
  fun _ _ _ => .pure hab

theorem bind {x : StateM Heap α} {y : StateM Heap β} {f : α → StateM Heap γ} {g : β → StateM Heap δ}
    (hx : Grows x) (hf : ∀ a, Grows (f a)) (hxy : Follows R w x y)
    (hfg : ∀ w', w ≤ w' → ∀ a b, R w' a b → Follows Q w' (f a) (g b)) : Follows Q w (x >>= f) (y >>= g) := by
  intro h l hl
  have hfirst := (hx h).size_le
  have hsecond := (hf (x.run h).1 (x.run h).2).size_le
  refine Copies.mono (Copies.bind (hxy h l ((hf _ _).trans hl))
    (fun w' hle b hab => hfg w' hle _ b hab (x.run h).2 l hl) ?_) ?_ fun _ _ _ hq => hq
  · rintro r ⟨_, hlt⟩ ⟨hge, _⟩
    omega
  · rintro r (⟨hge, hlt⟩ | ⟨hge, hlt⟩)
    · exact ⟨hge, Nat.lt_of_lt_of_le hlt hsecond⟩
    · exact ⟨Nat.le_trans hfirst hge, hlt⟩

end Follows

/-! ## Copies of literals -/

/-- A new object, linked to one that was added without a copy. -/
theorem Heap.alloc_follows {w : Links} {o p : Object} (hop : Object.Linked w o p) :
    Follows (fun w r s => w r s) w (fun h : Heap => h.alloc o) (fun k : Heap => k.alloc p) := by
  intro h l hl k hw hfree
  have hnew : Heap.Added h (h.alloc o).2 ⟨h.objects.size⟩ :=
    ⟨Nat.le_refl _, by rw [Heap.size_alloc]; exact Nat.lt_succ_self _⟩
  have hget : l.get? ⟨h.objects.size⟩ = some o := hl _ _ ((Heap.get?_alloc h o _).trans (if_pos rfl))
  have hlt : h.objects.size < l.objects.size := (Array.getElem?_eq_some_iff.mp hget).1
  let w' : Links := fun r s => w r s ∨ (r = ⟨h.objects.size⟩ ∧ s = ⟨k.objects.size⟩)
  have hle : w ≤ w' := fun _ _ => .inl
  have hfresh {s : Ref} (hs : w ⟨h.objects.size⟩ s) : False := hfree _ s hnew hs
  have hunused {r : Ref} (hr : w r ⟨k.objects.size⟩) : False := Nat.lt_irrefl _ (hw.right hr)
  refine ⟨w', hle, ⟨⟨?_, ?_, ?_, ?_⟩, ?_, ?_⟩, ?_, .inr ⟨rfl, rfl⟩⟩
  · rintro r s (hrs | ⟨rfl, rfl⟩)
    · have hne : s ≠ (k.alloc p).1 := fun he => hunused (he ▸ hrs)
      show Option.Rel _ _ ((k.alloc p).2.get? s)
      rw [Heap.get?_alloc, if_neg hne]
      obtain ⟨ho, hp⟩ | ⟨a, b, ho, hp, hab⟩ := hw.object_cases hrs
      · rw [ho, hp]
        exact .none
      · rw [ho, hp]
        exact .some (hab.mono hle)
    · have hp : (k.alloc p).2.get? ⟨k.objects.size⟩ = some p := by
        rw [Heap.get?_alloc]
        exact if_pos rfl
      show Option.Rel _ _ ((k.alloc p).2.get? ⟨k.objects.size⟩)
      rw [hget, hp]
      exact .some (hop.mono hle)
  · rintro r s s' (hrs | ⟨rfl, rfl⟩) (hrs' | ⟨hr, rfl⟩)
    · exact hw.functional hrs hrs'
    · exact (hfresh (hr ▸ hrs)).elim
    · exact (hfresh hrs').elim
    · rfl
  · rintro r r' s (hrs | ⟨rfl, rfl⟩) (hrs' | ⟨rfl, hs⟩)
    · exact hw.injective hrs hrs'
    · exact (hunused (hs ▸ hrs)).elim
    · exact (hunused hrs').elim
    · rfl
  · rintro r s (hrs | ⟨rfl, rfl⟩) hge
    · have hleft := hw.left hrs
      omega
    · exact absurd hge (Nat.not_le.mpr hlt)
  · rintro r s (hrs | ⟨rfl, rfl⟩)
    · exact hw.left hrs
    · exact hlt
  · rintro r s (hrs | ⟨rfl, rfl⟩)
    · have hright := hw.right hrs
      show s.index < (k.alloc p).2.objects.size
      rw [Heap.size_alloc]
      omega
    · show k.objects.size < (k.alloc p).2.objects.size
      rw [Heap.size_alloc]
      omega
  · rintro r s (hrs | ⟨rfl, _⟩)
    · exact .inl hrs
    · exact .inr hnew

theorem Heap.alloc_grows (o : Object) : Grows fun h : Heap => h.alloc o := fun h => h.extends_alloc o

mutual

/-- A literal is copied later. -/
theorem Heap.instantiate_follows : ∀ (x : Datum) {w : Links},
    Follows Value.Linked w (Heap.instantiate x) (Heap.instantiate x)
  | .null, _ => .pure .null
  | .bool b, _ => .pure (.bool b)
  | .int32 n, _ => .pure (.int32 n)
  | .int64 n, _ => .pure (.int64 n)
  | .double x, _ => .pure (.double x)
  | .text s, _ => .pure (.text s)
  | .list xs, _ => (Heap.instantiateItems_follows xs).bind (f := fun vs => Pure.pure (Value.list vs))
      (g := fun vs => Pure.pure (Value.list vs)) (Heap.instantiateItems_grows xs) (fun _ => .pure _)
      fun _ _ _ _ h => .pure (.list h)
  | .object type xs, _ => (Heap.instantiateFields_follows xs).bind
      (f := fun fields => (fun h : Heap => h.alloc ⟨type, fields⟩) >>= fun r => Pure.pure (Value.object r))
      (g := fun fields => (fun h : Heap => h.alloc ⟨type, fields⟩) >>= fun r => Pure.pure (Value.object r))
      (Heap.instantiateFields_grows xs)
      (fun _ => (Heap.alloc_grows _).bind fun _ => .pure _)
      fun w _ fields fields' h => by
        have halloc := Heap.alloc_follows (w := w) (o := ⟨type, fields⟩) (p := ⟨type, fields'⟩) ⟨rfl, h⟩
        exact halloc.bind (Heap.alloc_grows _) (fun _ => .pure _) fun _ _ _ _ hr => .pure (.object hr)

theorem Heap.instantiateItems_follows : ∀ (xs : List Datum) {w : Links},
    Follows (fun w => List.Forall₂ (Value.Linked w)) w (Heap.instantiateItems xs) (Heap.instantiateItems xs)
  | [], _ => .pure .nil
  | x :: xs, _ => (Heap.instantiate_follows x).bind
      (f := fun v => Heap.instantiateItems xs >>= fun vs => Pure.pure (v :: vs))
      (g := fun v => Heap.instantiateItems xs >>= fun vs => Pure.pure (v :: vs))
      (Heap.instantiate_grows x) (fun _ => (Heap.instantiateItems_grows xs).bind fun _ => .pure _)
      fun _ _ _ _ hv => (Heap.instantiateItems_follows xs).bind (Heap.instantiateItems_grows xs) (fun _ => .pure _)
        fun _ hle _ _ hvs => .pure (.cons (Value.Linked.mono hle hv) hvs)

theorem Heap.instantiateFields_follows : ∀ (xs : List (String × Datum)) {w : Links},
    Follows (fun w => Dict.Related (Value.Linked w)) w (Heap.instantiateFields xs) (Heap.instantiateFields xs)
  | [], _ => .pure .nil
  | (name, x) :: xs, _ => (Heap.instantiate_follows x).bind
      (f := fun v => Heap.instantiateFields xs >>= fun vs => Pure.pure ((name, v) :: vs))
      (g := fun v => Heap.instantiateFields xs >>= fun vs => Pure.pure ((name, v) :: vs))
      (Heap.instantiate_grows x) (fun _ => (Heap.instantiateFields_grows xs).bind fun _ => .pure _)
      fun _ _ _ _ hv => (Heap.instantiateFields_follows xs).bind (Heap.instantiateFields_grows xs) (fun _ => .pure _)
        fun _ hle _ _ hvs => .pure (.cons ⟨rfl, Value.Linked.mono hle hv⟩ hvs)

end

end MobileCode
