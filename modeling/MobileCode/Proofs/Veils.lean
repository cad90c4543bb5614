import MobileCode.Proofs.Domains
import MobileCode.Proofs.Snapshots

/-! # Objects behind a veil

An object is made again elsewhere from some of its fields, and the others are whatever its constructor made of them. A veil
names the fields that do not count. The object and its image agree in all others, so they are of one type, and a value that
leads to no veiled object has the same state and equals the same values on both sides.
-/
namespace MobileCode

/-- The fields of objects that do not count. -/
abbrev Veil := Ref → String → Prop

/-- An object and its image, which agree but for the veiled fields. -/
structure Object.Mirrors (veiled : String → Prop) (w : Links) (o p : Object) : Prop where
  type : o.type = p.type
  shown : ∀ name, ¬veiled name → Option.Rel (Value.Linked w) (o.fields.find? name) (p.fields.find? name)
  whole : (∀ name, ¬veiled name) → Dict.Related (Value.Linked w) o.fields p.fields

namespace Heap
variable {veil : Veil} {spared : Heap} {w w' : Links} {h k : Heap} {x x' y y' v v' : Value} {r s : Ref}

/-- Links from objects to their images, one to one. What the second heap had before the images came is spared. -/
structure Mirrors (veil : Veil) (spared : Heap) (w : Links) (h k : Heap) : Prop where
  object : ∀ {r s}, w r s → ∃ o p, h.get? r = some o ∧ k.get? s = some p ∧ Object.Mirrors (veil r) w o p
  functional : ∀ {r s s'}, w r s → w r s' → s = s'
  injective : ∀ {r r' s}, w r s → w r' s → r = r'
  apart : ∀ {r s}, w r s → spared.objects.size ≤ s.index
  extends_spared : spared.Extends k

/-- All objects stay and keep their types. -/
def Retains (h k : Heap) : Prop := ∀ r o, h.get? r = some o → (k.get? r).map (·.type) = some o.type

theorem Retains.refl (h : Heap) : h.Retains h := fun _ _ ho => by rw [ho, Option.map_some]

theorem Retains.trans {l : Heap} (hk : h.Retains k) (hl : k.Retains l) : h.Retains l := by
  intro r o ho
  obtain ⟨p, hp, htype⟩ := Option.map_eq_some_iff.mp (hk r o ho)
  rw [hl r p hp, htype]

theorem Retains.typeOf (hk : h.Retains k) {o : Object} (ho : h.get? r = some o) : k.typeOf r = o.type := by
  rw [Heap.typeOf, hk r o ho, Option.getD_some]

theorem Extends.retains (hk : h.Extends k) : h.Retains k := fun r o ho => by rw [hk r o ho, Option.map_some]

theorem retains_setField (h : Heap) (r : Ref) (name : String) (x : Value) : h.Retains (h.setField r name x) := by
  intro s o ho
  rw [get?_setField, ho]
  split <;> rfl

/-- No object below the value is veiled. -/
def Clear (veil : Veil) (h : Heap) (v : Value) : Prop := ∀ r, h.Below r v → ∀ name, ¬veil r name

theorem Clear.part (hv : h.Clear veil v) {p : Value} (hp : h.Part p v) : h.Clear veil p :=
  fun r hr => hv r (hr.tail hp)

/-- Two values that can be told equal or not without a look behind the veil. -/
inductive Distinct (veil : Veil) (h : Heap) : Value → Value → Prop
  | clear {x y : Value} : h.Clear veil x → h.Clear veil y → Distinct veil h x y
  | same (r : Ref) : Distinct veil h (.object r) (.object r)
  | null_left (y : Value) : Distinct veil h .null y
  | null_right (x : Value) : Distinct veil h x .null

end Heap

theorem Object.Mirrors.mono {veiled : String → Prop} {w w' : Links} (hw : w ≤ w') {o p : Object}
    (h : Object.Mirrors veiled w o p) : Object.Mirrors veiled w' o p where
  type := h.type
  shown name hn := by
    have hf := h.shown name hn
    generalize o.fields.find? name = a at hf
    generalize p.fields.find? name = b at hf
    cases hf with
    | none => exact .none
    | some hv => exact .some (hv.mono hw)
  whole hn := (h.whole hn).mono fun _ _ hv => hv.mono hw

theorem Object.Linked.mirrors {w : Links} {o p : Object} (h : Object.Linked w o p) (veiled : String → Prop) :
    Object.Mirrors veiled w o p :=
  ⟨h.type, fun name _ => h.fields.find? name, fun _ => h.fields⟩

namespace Heap.Mirrors
variable {veil : Veil} {spared : Heap} {w w' : Links} {h k : Heap} {x x' y y' v v' : Value} {r s : Ref}

theorem typeOf (hw : Mirrors veil spared w h k) (hr : w r s) : h.typeOf r = k.typeOf s := by
  obtain ⟨o, p, ho, hp, hop⟩ := hw.object hr
  rw [Heap.typeOf, Heap.typeOf, ho, hp, Option.map_some, Option.map_some, hop.type]

theorem typed (hw : Mirrors veil spared w h k) : Typed w h k := fun _ _ => hw.typeOf

theorem field? (hw : Mirrors veil spared w h k) (hr : w r s) {name : String} (hn : ¬veil r name) :
    Option.Rel (Value.Linked w) (h.field? r name) (k.field? s name) := by
  obtain ⟨o, p, ho, hp, hop⟩ := hw.object hr
  rw [Heap.field?, Heap.field?, ho, hp]
  exact hop.shown name hn

theorem setField (hw : Mirrors veil spared w h k) (hr : w r s) (name : String) (hx : Value.Linked w x y) :
    Mirrors veil spared w (h.setField r name x) (k.setField s name y) where
  object {a b} hab := by
    obtain ⟨o, p, ho, hp, hop⟩ := hw.object hab
    have heq : r = a ↔ s = b :=
      ⟨fun e => hw.functional hr (e ▸ hab), fun e => hw.injective hr (e ▸ hab)⟩
    rw [get?_setField, get?_setField, ho, hp]
    by_cases e : r = a
    · rw [if_pos e, if_pos (heq.mp e)]
      refine ⟨_, _, rfl, rfl, hop.type, fun other hn => ?_, fun hn => (hop.whole hn).insert name hx⟩
      rw [Dict.find?_insert, Dict.find?_insert]
      split
      · exact .some hx
      · exact hop.shown other hn
    · rw [if_neg e, if_neg (mt heq.mpr e)]
      exact ⟨o, p, rfl, rfl, hop⟩
  functional := hw.functional
  injective := hw.injective
  apart := hw.apart
  extends_spared a o ho := by
    have hne : s ≠ a := by
      rintro rfl
      have hlt := (Array.getElem?_eq_some_iff.mp ho).1
      exact absurd (hw.apart hr) (Nat.not_le.mpr hlt)
    rw [get?_setField, if_neg hne]
    exact hw.extends_spared a o ho

/-- An object gets its image. -/
theorem join (hw : Mirrors veil spared w h k) {o p : Object} (hr : h.get? r = some o) (hnew : ∀ s, ¬w r s)
    (hop : Object.Linked w o p) : ∃ w', w ≤ w' ∧ w' r (k.alloc p).1 ∧ Mirrors veil spared w' h (k.alloc p).2 ∧
      ∀ a b, w' a b → w a b ∨ a = r := by
  have hpresent {a b : Ref} (hab : w a b) : b ≠ (k.alloc p).1 := by
    obtain ⟨_, q, _, hq, _⟩ := hw.object hab
    rintro rfl
    exact absurd (Array.getElem?_eq_some_iff.mp hq).1 (Nat.lt_irrefl _)
  let w' : Links := fun a b => w a b ∨ (a = r ∧ b = (k.alloc p).1)
  have hle : w ≤ w' := fun _ _ => .inl
  refine ⟨w', hle, .inr ⟨rfl, rfl⟩, ⟨?_, ?_, ?_, ?_, ?_⟩, fun a b hab => hab.imp_right And.left⟩
  · rintro a b (hab | ⟨rfl, rfl⟩)
    · obtain ⟨q, q', hq, hq', hqq⟩ := hw.object hab
      refine ⟨q, q', hq, ?_, hqq.mono hle⟩
      rw [get?_alloc, if_neg (hpresent hab)]
      exact hq'
    · refine ⟨o, p, hr, ?_, (hop.mono hle).mirrors _⟩
      rw [get?_alloc, if_pos rfl]
  · rintro a b b' (hb | ⟨rfl, rfl⟩) (hb' | ⟨hr', rfl⟩)
    · exact hw.functional hb hb'
    · exact absurd (hr' ▸ hb) (hnew b)
    · exact absurd hb' (hnew b')
    · rfl
  · rintro a a' b (ha | ⟨rfl, rfl⟩) (ha' | ⟨rfl, hb⟩)
    · exact hw.injective ha ha'
    · exact absurd hb (hpresent ha)
    · exact absurd rfl (hpresent ha')
    · rfl
  · rintro a b (hab | ⟨rfl, rfl⟩)
    · exact hw.apart hab
    · exact hw.extends_spared.size_le
  · exact hw.extends_spared.trans (extends_alloc k p)

/-- An object is added that has no image yet. -/
theorem alloc_left (hw : Mirrors veil spared w h k) (o : Object) : Mirrors veil spared w (h.alloc o).2 k :=
  { hw with
    object := fun hab => by
      obtain ⟨q, p, hq, hp, hqp⟩ := hw.object hab
      exact ⟨q, p, extends_alloc h o _ _ hq, hp, hqp⟩ }

/-- New objects of linked states are images of each other. -/
theorem alloc (hw : Mirrors veil spared w h k) {o p : Object} (hop : Object.Linked w o p) :
    ∃ w', w ≤ w' ∧ w' (h.alloc o).1 (k.alloc p).1 ∧ Mirrors veil spared w' (h.alloc o).2 (k.alloc p).2 := by
  have hnew : ∀ s, ¬w (h.alloc o).1 s := fun s hs => by
    obtain ⟨q, _, hq, _⟩ := hw.object hs
    exact absurd (Array.getElem?_eq_some_iff.mp hq).1 (Nat.lt_irrefl _)
  have ho : (h.alloc o).2.get? (h.alloc o).1 = some o := by rw [get?_alloc, if_pos rfl]
  obtain ⟨w', hle, hr, hw', _⟩ := (hw.alloc_left o).join ho hnew hop
  exact ⟨w', hle, hr, hw'⟩

/-! ## Clear values -/

/-- The links of clear objects. -/
def clearLinks (veil : Veil) (w : Links) (h : Heap) : Links := fun r s => w r s ∧ h.Clear veil (.object r)

mutual

theorem linked_clear : ∀ {x y : Value}, Value.Linked w x y → h.Clear veil x → Value.Linked (clearLinks veil w h) x y
  | _, _, .null, _ => .null
  | _, _, .bool b, _ => .bool b
  | _, _, .int32 n, _ => .int32 n
  | _, _, .int64 n, _ => .int64 n
  | _, _, .double x, _ => .double x
  | _, _, .text s, _ => .text s
  | _, _, .list hs, hc => .list (linked_clearItems hs fun _ hv => hc.part (.item hv))
  | _, _, .object hr, hc => .object ⟨hr, hc⟩

theorem linked_clearItems : ∀ {xs ys : List Value}, List.Forall₂ (Value.Linked w) xs ys →
    (∀ v ∈ xs, h.Clear veil v) → List.Forall₂ (Value.Linked (clearLinks veil w h)) xs ys
  | _, _, .nil, _ => .nil
  | _, _, .cons hv hs, hc =>
    .cons (linked_clear hv (hc _ List.mem_cons_self)) (linked_clearItems hs fun u hu => hc u (List.mem_cons_of_mem _ hu))

end

theorem related_clear {d e : Dict Value} (hd : Dict.Related (Value.Linked w) d e) (hc : ∀ f ∈ d, h.Clear veil f.2) :
    Dict.Related (Value.Linked (clearLinks veil w h)) d e := by
  induction hd with
  | nil => exact .nil
  | cons hab _ ih =>
    exact .cons ⟨hab.1, linked_clear hab.2 (hc _ List.mem_cons_self)⟩ (ih fun f hf => hc f (List.mem_cons_of_mem _ hf))

/-- Without the veiled objects the heaps are linked. -/
theorem linked (hw : Mirrors veil spared w h k) : Heap.Linked (clearLinks veil w h) h k where
  object {r s} hrs := by
    obtain ⟨o, p, ho, hp, hop⟩ := hw.object hrs.1
    rw [ho, hp]
    exact .some ⟨hop.type, related_clear (hop.whole (hrs.2 r .refl)) fun _ hf => hrs.2.part (.field ho hf)⟩
  functional hs hs' := hw.functional hs.1 hs'.1
  injective hr hr' := hw.injective hr.1 hr'.1
  beyond hrs hle := by
    obtain ⟨_, _, ho, _⟩ := hw.object hrs.1
    exact absurd (Array.getElem?_eq_some_iff.mp ho).1 (Nat.not_lt.mpr hle)

theorem equal (hw : Mirrors veil spared w h k) (hx : Value.Linked w x x') (hy : Value.Linked w y y')
    (hxy : Distinct veil h x y) : h.equal x y = k.equal x' y' := by
  cases hxy with
  | clear hcx hcy => exact hw.linked.equal (linked_clear hx hcx) (linked_clear hy hcy)
  | same r =>
    cases hx with
    | object hr =>
    cases hy with
    | object hs =>
      cases hw.functional hr hs
      simp only [Heap.equal, Heap.agree, if_true]
  | null_left =>
    cases hx
    cases hy <;> simp only [Heap.equal, Heap.agree]
  | null_right =>
    cases hy
    cases hx <;> simp only [Heap.equal, Heap.agree]

/-- A clear value has its state on both sides. -/
theorem snapshotUpTo (hw : Mirrors veil spared w h k) {n : Nat} {d : Datum} (hx : Value.Linked w x y)
    (hc : h.Clear veil x) (hd : h.snapshotUpTo n x = some d) : k.snapshotUpTo n y = some d := by
  induction n generalizing x y d with
  | zero => cases hd
  | succ n ih =>
    cases hx with
    | list hs =>
      obtain ⟨ds, hds, rfl⟩ := snapshotUpTo_list.mp hd
      refine snapshotUpTo_list.mpr ⟨ds, ?_, rfl⟩
      have hparts := fun v hv => hc.part (Part.item (h := h) (v := v) hv)
      clear hd hc
      induction hs generalizing ds with
      | nil =>
        cases hds
        exact .nil
      | cons hv _ ihs =>
        cases hds with
        | cons hdv hds =>
        exact .cons (ih hv (hparts _ List.mem_cons_self) hdv) (ihs _ hds fun u hu => hparts u (List.mem_cons_of_mem _ hu))
    | object hr =>
      obtain ⟨o, fields, ho, hfields, rfl⟩ := snapshotUpTo_object.mp hd
      obtain ⟨o', p, ho', hp, hop⟩ := hw.object hr
      cases ho.symm.trans ho'
      have hshown := hop.whole (hc _ .refl)
      have hparts := fun e he => hc.part (Part.field (e := e) ho he)
      rw [hop.type]
      refine snapshotUpTo_object.mpr ⟨p, fields, hp, ?_, rfl⟩
      generalize o.fields = a at hfields hshown hparts
      generalize p.fields = b at hshown
      clear hd hc hp
      induction hshown generalizing fields with
      | nil =>
        cases hfields
        exact .nil
      | cons hab _ ihs =>
        cases hfields with
        | cons hdv hrest =>
        refine .cons ⟨ih hab.2 (hparts _ List.mem_cons_self) hdv.1, hdv.2.trans hab.1⟩ ?_
        exact ihs _ hrest fun u hu => hparts u (List.mem_cons_of_mem _ hu)
    | _ => exact hd

theorem snapshot (hw : Mirrors veil spared w h k) {d : Datum} (hx : Value.Linked w x y) (hc : h.Clear veil x)
    (hd : h.snapshot x = some d) : k.snapshot y = some d :=
  snapshot_eq_of_upTo (hw.snapshotUpTo hx hc hd)

end Heap.Mirrors
end MobileCode
