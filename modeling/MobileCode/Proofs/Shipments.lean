import MobileCode.Proofs.Veils
import MobileCode.Variable

/-! # Values that are sent

A value is sent as a datum, from which new objects are made. Where the value meets each of its objects once, these are images
of its objects, one for each. An object that is met twice is sent as two.
-/
namespace MobileCode
namespace Heap

/-- The objects on the way down from a value, each as often as it is met. -/
def trailUpTo (h : Heap) : Nat → Value → List Ref
  | 0, _ => []
  | n + 1, .list items => items.flatMap (trailUpTo h n)
  | n + 1, .object r => r :: (h.get? r).toList.flatMap fun o => o.fields.flatMap fun f => trailUpTo h n f.2
  | _ + 1, _ => []

def trail (h : Heap) (v : Value) : List Ref := h.trailUpTo (h.reach v + 1) v

/-- The computation makes images of objects that have none yet. -/
def Conveys {β : Type} (veil : Veil) (spared h : Heap) (rs : List Ref) (R : Links → β → Prop) (x : StateM Heap β) : Prop :=
  ∀ w k, Mirrors veil spared w h k → (∀ r ∈ rs, ∀ s, ¬w r s) → ∃ w', w ≤ w' ∧ Mirrors veil spared w' h (x.run k).2 ∧
    R w' (x.run k).1 ∧ ∀ a b, w' a b → w a b ∨ a ∈ rs

namespace Conveys
variable {α β γ : Type} {veil : Veil} {spared h : Heap} {rs : List Ref}

theorem congr {R : Links → β → Prop} {x y : StateM Heap β} (hx : Conveys veil spared h rs R x) (hxy : ∀ k, x.run k = y.run k) :
    Conveys veil spared h rs R y := fun w k => hxy k ▸ hx w k

theorem pure {R : Links → β → Prop} {b : β} (hb : ∀ w, R w b) : Conveys veil spared h [] R (Pure.pure b) :=
  fun _ _ hw _ => ⟨_, le_rfl, hw, hb _, fun _ _ => .inl⟩

theorem map {R : Links → β → Prop} {Q : Links → γ → Prop} {x : StateM Heap β} (hx : Conveys veil spared h rs R x) {f : β → γ}
    (hf : ∀ w b, R w b → Q w (f b)) : Conveys veil spared h rs Q (f <$> x) := by
  intro w k hw hnew
  obtain ⟨w', hle, hw', hr, hfrom⟩ := hx w k hw hnew
  exact ⟨w', hle, hw', hf _ _ hr, hfrom⟩

/-- What is sent in turn, if no object is met twice. -/
theorem mapM {Q : Links → α → γ → Prop} (hQ : ∀ {w w'}, w ≤ w' → ∀ a c, Q w a c → Q w' a c) {T : α → List Ref}
    {f : β → StateM Heap γ} {vs : List α} {xs : List β}
    (hf : List.Forall₂ (fun v x => (T v).Nodup → Conveys veil spared h (T v) (Q · v) (f x)) vs xs)
    (hnodup : (vs.flatMap T).Nodup) :
    Conveys veil spared h (vs.flatMap T) (fun w => List.Forall₂ (Q w) vs) (xs.mapM f) := by
  induction hf with
  | nil => exact Conveys.pure fun _ => .nil
  | @cons v x vs xs hfirst _ ih =>
    rw [List.flatMap_cons] at hnodup ⊢
    obtain ⟨hv, hrest, hdisjoint⟩ := List.nodup_append.mp hnodup
    intro w k hw hnew
    obtain ⟨w₁, hle₁, hw₁, hv, hfrom₁⟩ := hfirst hv w k hw fun r hr => hnew r (List.mem_append_left _ hr)
    obtain ⟨w₂, hle₂, hw₂, hvs, hfrom₂⟩ := ih hrest w₁ _ hw₁ fun r hr s hs => by
      rcases hfrom₁ r s hs with hs | hs
      · exact hnew r (List.mem_append_right _ hr) s hs
      · exact hdisjoint r hs r hr rfl
    rw [List.mapM_cons]
    refine ⟨w₂, hle₁.trans hle₂, hw₂, .cons (hQ hle₂ _ _ hv) hvs, fun a b hab => ?_⟩
    rcases hfrom₂ a b hab with hab | ha
    · exact (hfrom₁ a b hab).imp id fun ha => List.mem_append_left _ ha
    · exact .inr (List.mem_append_right _ ha)

end Conveys

theorem mapM_instantiate (xs : List Datum) (k : Heap) :
    (xs.mapM (m := StateM Heap) instantiate).run k = instantiateItems xs k := by
  induction xs generalizing k with
  | nil => rfl
  | cons x xs ih =>
    rw [List.mapM_cons, StateT.run_bind]
    show (StateT.run (xs.mapM _ >>= _) _) = _
    rw [StateT.run_bind, ih]
    rfl

theorem mapM_instantiate_fields (xs : List (String × Datum)) (k : Heap) :
    (xs.mapM (m := StateM Heap) fun f => (f.1, ·) <$> instantiate f.2).run k = instantiateFields xs k := by
  induction xs generalizing k with
  | nil => rfl
  | cons x xs ih =>
    obtain ⟨name, x⟩ := x
    rw [List.mapM_cons, StateT.run_bind]
    show (StateT.run (xs.mapM _ >>= _) _) = _
    rw [StateT.run_bind, ih]
    rfl

section
variable {veil : Veil} {spared h : Heap} {v : Value} {d : Datum}

/-- A value with a state whose objects are all met once. -/
theorem conveys_snapshotUpTo {n : Nat} (hd : h.snapshotUpTo n v = some d) (hnodup : (h.trailUpTo n v).Nodup) :
    Conveys veil spared h (h.trailUpTo n v) (Value.Linked · v) (instantiate d) := by
  induction n generalizing v d with
  | zero => cases hd
  | succ n ih =>
    cases v with
    | list items =>
      obtain ⟨ds, hds, rfl⟩ := snapshotUpTo_list.mp hd
      have hitems : Conveys veil spared h (items.flatMap (h.trailUpTo n)) (fun w => List.Forall₂ (Value.Linked w) items)
          (instantiateItems ds) :=
        (Conveys.mapM (fun hw _ _ hv => hv.mono hw) (hds.imp fun v x hx hv => ih hx hv) hnodup).congr (mapM_instantiate ds)
      exact hitems.map (f := Value.list) fun _ _ hvs => Value.Linked.list hvs
    | object r =>
      obtain ⟨o, fields, ho, hfields, rfl⟩ := snapshotUpTo_object.mp hd
      have htrail : h.trailUpTo (n + 1) (.object r) = r :: o.fields.flatMap fun f => h.trailUpTo n f.2 := by
        rw [trailUpTo, ho, Option.toList_some, List.flatMap_singleton]
      rw [htrail] at hnodup ⊢
      obtain ⟨hfresh, hnodup⟩ := List.nodup_cons.mp hnodup
      have hconveys : Conveys veil spared h (o.fields.flatMap fun f => h.trailUpTo n f.2)
          (fun w => Dict.Related (Value.Linked w) o.fields) (instantiateFields fields) := by
        refine (Conveys.mapM (fun hw _ _ hv => ⟨hv.1, hv.2.mono hw⟩) (hfields.imp fun e f hf hnodup => ?_) hnodup).congr
          (mapM_instantiate_fields fields)
        exact Conveys.map (ih hf.1 hnodup) fun _ _ hv => ⟨hf.2.symm, hv⟩
      intro w k hw hnew
      obtain ⟨w₁, hle₁, hw₁, hrelated, hfrom₁⟩ := hconveys w k hw fun r' hr' => hnew r' (List.mem_cons_of_mem _ hr')
      have hunlinked (s : Ref) : ¬w₁ r s := fun hs => by
        rcases hfrom₁ r s hs with hs | hs
        · exact hnew r List.mem_cons_self s hs
        · exact hfresh hs
      obtain ⟨w₂, hle₂, hr, hw₂, hfrom₂⟩ := hw₁.join (p := ⟨o.type, (instantiateFields fields k).1⟩) ho
        hunlinked ⟨rfl, hrelated⟩
      refine ⟨w₂, hle₁.trans hle₂, hw₂, .object hr, fun a b hab => ?_⟩
      rcases hfrom₂ a b hab with hab | rfl
      · exact (hfrom₁ a b hab).imp id fun ha => List.mem_cons_of_mem _ ha
      · exact .inr List.mem_cons_self
    | _ =>
      cases hd
      exact Conveys.pure fun _ => by constructor

/-- A value with a state makes images of its objects, if it meets each of these once. -/
theorem conveys_snapshot (hd : h.snapshot v = some d) (hnodup : (h.trail v).Nodup) :
    Conveys veil spared h (h.trail v) (Value.Linked · v) (instantiate d) := conveys_snapshotUpTo hd hnodup

/-- Values that are sent together. -/
theorem conveys_items {vs : List Value} {ds : List Datum} (hds : List.Forall₂ (fun v d => h.snapshot v = some d) vs ds)
    (hnodup : (vs.flatMap h.trail).Nodup) :
    Conveys veil spared h (vs.flatMap h.trail) (fun w => List.Forall₂ (Value.Linked w) vs) (instantiateItems ds) :=
  (Conveys.mapM (fun hw _ _ hv => hv.mono hw) (hds.imp fun _ _ hx hv => conveys_snapshot hx hv) hnodup).congr
    (mapM_instantiate ds)

end
end Heap

/-! ## Variables -/

/-- Variables of the same members with linked values. -/
structure Variable.Linked (w : Links) (v v' : Variable Value) : Prop where
  same : v' = v.withValue v'.value
  value : Value.Linked w v.value v'.value

/-- Variables that are sent together. -/
theorem Heap.conveys_variables {veil : Veil} {spared h : Heap} {vs : List (Variable Value)} {ds : List (Variable Datum)}
    (hds : List.Forall₂ (fun v d => h.snapshot v.value = some d.value ∧ d = v.withValue d.value) vs ds)
    (hnodup : (vs.flatMap fun v => h.trail v.value).Nodup) :
    Conveys veil spared h (vs.flatMap fun v => h.trail v.value) (fun w => List.Forall₂ (Variable.Linked w) vs)
      (ds.mapM (m := StateM Heap) (·.traverse Heap.instantiate)) := by
  refine Conveys.mapM (fun hw _ _ hv => ⟨hv.1, hv.2.mono hw⟩) (hds.imp fun v d hd hnodup => ?_) hnodup
  rw [hd.2]
  exact Conveys.map (conveys_snapshot hd.1 hnodup) (f := fun x => (v.withValue d.value).withValue x) fun _ _ hx => ⟨rfl, hx⟩

end MobileCode
