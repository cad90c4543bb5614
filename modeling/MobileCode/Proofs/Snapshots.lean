import MobileCode.Proofs.Readers
import MobileCode.Proofs.Copies
import MobileCode.Proofs.Forms
import Mathlib.Algebra.BigOperators.Fin
import Mathlib.Algebra.Order.BigOperators.Group.Finset
import Mathlib.Algebra.Order.BigOperators.Group.List
import Mathlib.Logic.Relation

/-! # The state of a value

A value has a state if its references lead to objects and never back to where they came from. The bound on the levels
of the state is large enough for every such value: the objects that are left below a value become fewer with every
reference that is followed.
-/
namespace MobileCode

theorem mapM_eq_some_iff {α β : Type} {f : α → Option β} {xs : List α} {ys : List β} :
    xs.mapM f = some ys ↔ List.Forall₂ (fun x y => f x = some y) xs ys := by
  induction xs generalizing ys with
  | nil =>
    rw [List.mapM_nil, List.forall₂_nil_left_iff]
    exact ⟨fun h => (Option.some.inj h).symm, fun h => congrArg some h.symm⟩
  | cons x xs ih =>
    rw [List.mapM_cons, List.forall₂_cons_left_iff]
    simp only [Option.bind_eq_bind, Option.bind_eq_some_iff, Option.pure_def, Option.some.injEq]
    constructor
    · rintro ⟨y, hy, zs, hzs, rfl⟩
      exact ⟨y, zs, hy, ih.mp hzs, rfl⟩
    · rintro ⟨y, zs, hy, hzs, rfl⟩
      exact ⟨y, hy, zs, ih.mpr hzs, rfl⟩

theorem forall₂_isSome {α β : Type} {R : α → β → Prop} {xs : List α} (h : ∀ x ∈ xs, ∃ y, R x y) :
    ∃ ys, List.Forall₂ R xs ys := by
  induction xs with
  | nil => exact ⟨[], .nil⟩
  | cons x xs ih =>
    obtain ⟨⟨y, hy⟩, hrest⟩ := List.forall_mem_cons.mp h
    obtain ⟨ys, hys⟩ := ih hrest
    exact ⟨y :: ys, .cons hy hys⟩

namespace Heap
variable {h : Heap} {v : Value} {x : Datum} {r : Ref} {n : Nat}

/-! ## Level by level -/

theorem snapshotUpTo_list {items : List Value} : h.snapshotUpTo (n + 1) (.list items) = some x ↔
    ∃ xs, List.Forall₂ (fun v y => h.snapshotUpTo n v = some y) items xs ∧ x = .list xs := by
  simp only [snapshotUpTo, Option.map_eq_some_iff, mapM_eq_some_iff, eq_comm (a := x)]

theorem snapshotUpTo_object : h.snapshotUpTo (n + 1) (.object r) = some x ↔ ∃ o fields, h.get? r = some o ∧
    List.Forall₂ (fun e f => h.snapshotUpTo n e.2 = some f.2 ∧ f.1 = e.1) o.fields fields ∧
      x = .object o.type fields := by
  have hfield (e f : String × _) : ((h.snapshotUpTo n e.2).bind fun y => some (e.1, y)) = some f ↔
      h.snapshotUpTo n e.2 = some f.2 ∧ f.1 = e.1 := by
    obtain ⟨name, y⟩ := f
    simp only [Option.bind_eq_some_iff, Option.some.injEq, Prod.mk.injEq]
    constructor
    · rintro ⟨_, hy, rfl, rfl⟩
      exact ⟨hy, rfl⟩
    · rintro ⟨hy, rfl⟩
      exact ⟨y, hy, rfl, rfl⟩
  simp only [snapshotUpTo, Option.bind_eq_bind, Option.bind_eq_some_iff, Option.pure_def, Option.some.injEq,
    mapM_eq_some_iff, hfield]
  constructor
  · rintro ⟨o, ho, fields, hfields, rfl⟩
    exact ⟨o, fields, ho, hfields, rfl⟩
  · rintro ⟨o, fields, ho, hfields, rfl⟩
    exact ⟨o, ho, fields, hfields, rfl⟩

theorem snapshotUpTo_succ (hx : h.snapshotUpTo n v = some x) : h.snapshotUpTo (n + 1) v = some x := by
  induction n generalizing v x with
  | zero => cases hx
  | succ n ih =>
    cases v with
    | list items =>
      obtain ⟨xs, hxs, rfl⟩ := snapshotUpTo_list.mp hx
      exact snapshotUpTo_list.mpr ⟨xs, hxs.imp fun _ _ => ih, rfl⟩
    | object r =>
      obtain ⟨o, fields, ho, hfields, rfl⟩ := snapshotUpTo_object.mp hx
      exact snapshotUpTo_object.mpr ⟨o, fields, ho, hfields.imp fun _ _ he => ⟨ih he.1, he.2⟩, rfl⟩
    | _ => exact hx

theorem snapshotUpTo_mono {k : Nat} (hnk : n ≤ k) (hx : h.snapshotUpTo n v = some x) : h.snapshotUpTo k v = some x := by
  induction hnk with
  | refl => exact hx
  | step _ ih => exact snapshotUpTo_succ ih

/-! ## Values on no cycle -/

/-- The first value is an element of the second one, a list, or stands in a field of the object that it refers to. -/
inductive Part (h : Heap) : Value → Value → Prop
  | item {items : List Value} {v : Value} : v ∈ items → Part h v (.list items)
  | field {r : Ref} {o : Object} {e : String × Value} : h.get? r = some o → e ∈ o.fields → Part h e.2 (.object r)

/-- The reference occurs in the value, or in an object that is reached from it. -/
def Below (h : Heap) (r : Ref) (v : Value) : Prop := Relation.ReflTransGen h.Part (.object r) v

/-- All references below the value lead to objects, and none of the objects has a reference to itself below it. -/
structure Acyclic (h : Heap) (v : Value) : Prop where
  present : ∀ r, h.Below r v → ∃ o, h.get? r = some o
  noReturn : ∀ r, h.Below r v → ¬Relation.TransGen h.Part (.object r) (.object r)

theorem Acyclic.part (hv : h.Acyclic v) {p : Value} (hp : h.Part p v) : h.Acyclic p where
  present r hr := hv.present r (hr.tail hp)
  noReturn r hr := hv.noReturn r (hr.tail hp)

theorem snapshotUpTo_part {p : Value} (hp : h.Part p v) (hx : h.snapshotUpTo (n + 1) v = some x) :
    ∃ y, h.snapshotUpTo n p = some y := by
  cases hp with
  | item hmem =>
    obtain ⟨xs, hxs, _⟩ := snapshotUpTo_list.mp hx
    obtain ⟨y, _, hy⟩ := Forall₂.exists_of_mem hxs hmem
    exact ⟨y, hy⟩
  | field ho he =>
    obtain ⟨o', fields, ho', hfields, _⟩ := snapshotUpTo_object.mp hx
    cases ho.symm.trans ho'
    obtain ⟨f, _, hf, _⟩ := Forall₂.exists_of_mem hfields he
    exact ⟨f.2, hf⟩

theorem snapshotUpTo_below {p : Value} (hp : Relation.TransGen h.Part p v) (hx : h.snapshotUpTo (n + 1) v = some x) :
    ∃ y, h.snapshotUpTo n p = some y := by
  induction hp generalizing n x with
  | single hpart => exact snapshotUpTo_part hpart hx
  | tail _ hpart ih =>
    obtain ⟨y, hy⟩ := snapshotUpTo_part hpart hx
    exact ih (snapshotUpTo_succ hy)

theorem acyclic_of_snapshotUpTo (hx : h.snapshotUpTo n v = some x) : h.Acyclic v := by
  have hbelow (r : Ref) (hr : h.Below r v) : ∃ y, h.snapshotUpTo n (.object r) = some y := by
    obtain heq | hpath := Relation.reflTransGen_iff_eq_or_transGen.mp hr
    · exact ⟨x, heq ▸ hx⟩
    · obtain ⟨y, hy⟩ := snapshotUpTo_below hpath (snapshotUpTo_succ hx)
      exact ⟨y, hy⟩
  refine ⟨fun r hr => ?_, fun r hr hcycle => ?_⟩
  · obtain ⟨y, hy⟩ := hbelow r hr
    cases n with
    | zero => cases hy
    | succ n =>
      obtain ⟨o, _, ho, _⟩ := snapshotUpTo_object.mp hy
      exact ⟨o, ho⟩
  · obtain ⟨y, hy⟩ := hbelow r hr
    -- round the cycle once, the same object has a state of a level less
    clear hbelow hr hx
    induction n generalizing y with
    | zero => cases hy
    | succ n ih =>
      obtain ⟨z, hz⟩ := snapshotUpTo_below hcycle hy
      exact ih z hz

/-! ## The bound -/

/-- The sizes of the values in the fields, and one for the object. -/
def weight (o : Object) : Nat := (o.fields.map (·.2.size)).sum + 1

theorem reach_eq (h : Heap) (v : Value) : h.reach v = v.size + ∑ i : Fin h.objects.size, weight h.objects[i] := by
  have hfields (fields : Dict Value) (k : Nat) : fields.foldl (fun n f => n + f.2.size) k = k + (fields.map (·.2.size)).sum := by
    induction fields generalizing k with
    | nil => rfl
    | cons e rest ih => rw [List.foldl_cons, ih, List.map_cons, List.sum_cons, Nat.add_assoc]
  have hobjects (objects : List Object) (k : Nat) :
      objects.foldl (fun n o => o.fields.foldl (fun n f => n + f.2.size) (n + 1)) k = k + (objects.map weight).sum := by
    induction objects generalizing k with
    | nil => rfl
    | cons o rest ih =>
      rw [List.foldl_cons, ih, hfields, List.map_cons, List.sum_cons, weight]
      omega
  have hsum := Fin.sum_univ_fun_getElem h.objects.toList weight
  unfold reach
  rw [← Array.foldl_toList, hobjects, ← hsum]
  rfl

open Classical in
/-- The places of the objects below a value. -/
noncomputable def placesBelow (h : Heap) (v : Value) : Finset (Fin h.objects.size) :=
  Finset.univ.filter fun i => h.Below ⟨i⟩ v

theorem mem_placesBelow {i : Fin h.objects.size} : i ∈ h.placesBelow v ↔ h.Below ⟨i⟩ v := by
  simp only [placesBelow, Finset.mem_filter, Finset.mem_univ, true_and]

/-- What the objects below a value weigh. -/
noncomputable def weightBelow (h : Heap) (v : Value) : Nat := ∑ i ∈ h.placesBelow v, weight h.objects[i]

theorem weightBelow_le (h : Heap) (v : Value) : v.size + h.weightBelow v ≤ h.reach v := by
  rw [reach_eq]
  exact Nat.add_le_add_left (Finset.sum_le_sum_of_subset (Finset.subset_univ _)) _

theorem weightBelow_part {p : Value} (hp : h.Part p v) : h.weightBelow p ≤ h.weightBelow v :=
  Finset.sum_le_sum_of_subset fun _ hi => mem_placesBelow.mpr ((mem_placesBelow.mp hi).tail hp)

/-- Below a field of an object on no cycle the object itself is not met again. -/
theorem weightBelow_field {o : Object} {e : String × Value} (hr : h.Acyclic (.object r)) (ho : h.get? r = some o)
    (he : e ∈ o.fields) : h.weightBelow e.2 + weight o ≤ h.weightBelow (.object r) := by
  obtain ⟨i⟩ := r
  obtain ⟨hi, rfl⟩ := Array.getElem?_eq_some_iff.mp ho
  have hpart : h.Part e.2 (.object ⟨i⟩) := .field ho he
  have hnew : ⟨i, hi⟩ ∉ h.placesBelow e.2 := fun hmem =>
    hr.noReturn ⟨i⟩ .refl (.tail' (mem_placesBelow.mp hmem) hpart)
  have hsubset : insert ⟨i, hi⟩ (h.placesBelow e.2) ⊆ h.placesBelow (.object ⟨i⟩) := by
    refine Finset.insert_subset (mem_placesBelow.mpr .refl) fun j hj => ?_
    exact mem_placesBelow.mpr ((mem_placesBelow.mp hj).tail hpart)
  have hsum := Finset.sum_le_sum_of_subset (f := fun j => weight h.objects[j]) hsubset
  rw [Finset.sum_insert hnew, Nat.add_comm] at hsum
  exact hsum

theorem size_le_weight {o : Object} {e : String × Value} (he : e ∈ o.fields) : e.2.size + 1 ≤ weight o :=
  Nat.succ_le_succ (List.single_le_sum (fun _ _ => Nat.zero_le _) _ (List.mem_map_of_mem he))

theorem size_le_sizeItems {items : List Value} (hv : v ∈ items) : v.size ≤ Value.sizeItems items := by
  induction items with
  | nil => cases hv
  | cons w rest ih =>
    rw [Value.sizeItems]
    obtain rfl | hv := List.mem_cons.mp hv
    · exact Nat.le_add_right _ _
    · exact Nat.le_trans (ih hv) (Nat.le_add_left _ _)

theorem exists_snapshotUpTo (hv : h.Acyclic v) (hn : v.size + h.weightBelow v ≤ n) : ∃ x, h.snapshotUpTo (n + 1) v = some x := by
  induction n generalizing v with
  | zero =>
    cases v <;> simp [Value.size] at hn
  | succ n ih =>
    cases v with
    | list items =>
      have hitems : ∀ w ∈ items, ∃ x, h.snapshotUpTo (n + 1) w = some x := by
        intro w hw
        have hpart : h.Part w (.list items) := .item hw
        refine ih (hv.part hpart) ?_
        have hsize := size_le_sizeItems hw
        have hbelow := weightBelow_part hpart
        rw [Value.size] at hn
        omega
      obtain ⟨xs, hxs⟩ := forall₂_isSome hitems
      exact ⟨_, snapshotUpTo_list.mpr ⟨xs, hxs, rfl⟩⟩
    | object r =>
      obtain ⟨o, ho⟩ := hv.present r .refl
      have hfields : ∀ e ∈ o.fields, ∃ f : String × Datum, h.snapshotUpTo (n + 1) e.2 = some f.2 ∧ f.1 = e.1 := by
        intro e he
        have hbelow := weightBelow_field hv ho he
        have hweight := size_le_weight he
        have hsize : (Value.object r).size = 1 := rfl
        obtain ⟨y, hy⟩ := ih (hv.part (.field ho he)) (by omega)
        exact ⟨(e.1, y), hy, rfl⟩
      obtain ⟨fields, hfields⟩ := forall₂_isSome hfields
      exact ⟨_, snapshotUpTo_object.mpr ⟨o, fields, ho, hfields, rfl⟩⟩
    | _ => exact ⟨_, rfl⟩

/-- The values with a state are those on no cycle of references. -/
theorem exists_snapshot_iff : (∃ x, h.snapshot v = some x) ↔ h.Acyclic v :=
  ⟨fun ⟨_, hx⟩ => acyclic_of_snapshotUpTo hx, fun hv => exists_snapshotUpTo hv (h.weightBelow_le v)⟩

/-- However many levels were allowed, the state is the same. -/
theorem snapshot_eq_of_upTo (hx : h.snapshotUpTo n v = some x) : h.snapshot v = some x := by
  obtain ⟨y, hy⟩ := exists_snapshot_iff.mpr (acyclic_of_snapshotUpTo hx)
  have hxy := (snapshotUpTo_mono (Nat.le_max_left n _) hx).symm.trans (snapshotUpTo_mono (Nat.le_max_right n _) hy)
  rwa [Option.some.inj hxy]

/-! ## States in order -/

/-- The fields of every object are in ascending order of their names. -/
def Ordered (h : Heap) : Prop := ∀ r o, h.get? r = some o → Dict.Sorted o.fields

theorem sorted_of_names {α β : Type} {d : Dict α} {e : Dict β} (hd : d.Sorted)
    (hnames : List.Forall₂ (fun a b : String × _ => b.1 = a.1) d e) : e.Sorted := by
  have heq : e.map (·.1) = d.map (·.1) := by
    induction hnames with
    | nil => rfl
    | cons hab _ ih => rw [List.map_cons, List.map_cons, hab, ih hd.tail]
  have hd' : (d.map (·.1)).Pairwise (· < ·) := List.pairwise_map.mpr hd
  exact List.pairwise_map.mp (heq ▸ hd')

theorem snapshotUpTo_ordered (hh : h.Ordered) (hx : h.snapshotUpTo n v = some x) : x.Ordered := by
  induction n generalizing v x with
  | zero => cases hx
  | succ n ih =>
    cases v with
    | list items =>
      obtain ⟨xs, hxs, rfl⟩ := snapshotUpTo_list.mp hx
      refine Datum.orderedItems_iff.mpr fun y hy => ?_
      obtain ⟨w, _, hw⟩ := Forall₂.exists_of_mem hxs.flip hy
      exact ih hw
    | object r =>
      obtain ⟨o, fields, ho, hfields, rfl⟩ := snapshotUpTo_object.mp hx
      refine ⟨sorted_of_names (hh r o ho) (hfields.imp fun _ _ he => he.2), Datum.orderedFields_iff.mpr fun f hf => ?_⟩
      obtain ⟨e, _, he⟩ := Forall₂.exists_of_mem hfields.flip hf
      exact ih he.1
    | _ =>
      cases hx
      trivial

theorem snapshot_ordered (hh : h.Ordered) (hx : h.snapshot v = some x) : x.Ordered := snapshotUpTo_ordered hh hx

/-! ## Values of a state -/

mutual

theorem snapshotUpTo_instantiate : ∀ (x : Datum) (h : Heap) {k : Heap}, ExtendsFrom h.objects.size (instantiate x h).2 k →
    k.snapshotUpTo x.depth (instantiate x h).1 = some x
  | .null, _, _, _ | .bool _, _, _, _ | .int32 _, _, _, _ | .int64 _, _, _, _ | .double _, _, _, _ | .text _, _, _, _ => rfl
  | .list items, h, _, hk =>
    snapshotUpTo_list.mpr ⟨items, snapshotUpTo_instantiateItems items h hk, rfl⟩
  | .object type fields, h, k, hk => by
    have hsize : h.objects.size ≤ (instantiateFields fields h).2.objects.size := (instantiateFields_grows fields h).size_le
    have ho := hk _ _ hsize
      ((get?_alloc (instantiateFields fields h).2 ⟨type, (instantiateFields fields h).1⟩ _).trans (if_pos rfl))
    exact snapshotUpTo_object.mpr
      ⟨_, fields, ho, snapshotUpTo_instantiateFields fields h ((extends_alloc _ _).trans_since hk), rfl⟩

theorem snapshotUpTo_instantiateItems : ∀ (xs : List Datum) (h : Heap) {k : Heap},
    ExtendsFrom h.objects.size (instantiateItems xs h).2 k →
    List.Forall₂ (fun v x => k.snapshotUpTo (Datum.depthItems xs) v = some x) (instantiateItems xs h).1 xs
  | [], _, _, _ => .nil
  | x :: xs, h, _, hk =>
    have hfirst := snapshotUpTo_instantiate x h ((instantiateItems_grows xs _).trans_since hk)
    have hrest := snapshotUpTo_instantiateItems xs _ (hk.mono (instantiate_grows x h).size_le)
    .cons (snapshotUpTo_mono (Nat.le_max_left _ _) hfirst) (hrest.imp fun _ _ => snapshotUpTo_mono (Nat.le_max_right _ _))

theorem snapshotUpTo_instantiateFields : ∀ (xs : List (String × Datum)) (h : Heap) {k : Heap},
    ExtendsFrom h.objects.size (instantiateFields xs h).2 k →
    List.Forall₂ (fun e f => k.snapshotUpTo (Datum.depthFields xs) e.2 = some f.2 ∧ f.1 = e.1) (instantiateFields xs h).1 xs
  | [], _, _, _ => .nil
  | (_, x) :: xs, h, _, hk =>
    have hfirst := snapshotUpTo_instantiate x h ((instantiateFields_grows xs _).trans_since hk)
    have hrest := snapshotUpTo_instantiateFields xs _ (hk.mono (instantiate_grows x h).size_le)
    .cons ⟨snapshotUpTo_mono (Nat.le_max_left _ _) hfirst, rfl⟩
      (hrest.imp fun _ _ he => ⟨snapshotUpTo_mono (Nat.le_max_right _ _) he.1, he.2⟩)

end

/-- A value that is made for a state has it as long as the objects that were made for it stay as they are. -/
theorem snapshot_instantiate (x : Datum) (h : Heap) {k : Heap} (hk : ExtendsFrom h.objects.size (instantiate x h).2 k) :
    k.snapshot (instantiate x h).1 = some x :=
  snapshot_eq_of_upTo (snapshotUpTo_instantiate x h hk)

end Heap
end MobileCode
