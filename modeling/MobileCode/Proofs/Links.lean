import MobileCode.Execution.Arithmetic
import Mathlib.Data.List.Forall2
import Mathlib.Order.Basic

/-! # Linked heaps

Two runs of a program whose code has two forms build the same objects, though perhaps not in the
same order. Links pair the objects of one heap with those of another. Linked values have the same
shape with linked objects in the same places, and no operation on values tells one from the other.
-/
namespace MobileCode

/-- Pairs of objects, one of each of two heaps. -/
abbrev Links := Ref → Ref → Prop

/-- Entry by entry the same name and related values. -/
abbrev Dict.Related {β γ : Type} (R : β → γ → Prop) : Dict β → Dict γ → Prop :=
  List.Forall₂ fun a b => a.1 = b.1 ∧ R a.2 b.2

inductive Value.Linked (w : Links) : Value → Value → Prop
  | null : Linked w .null .null
  | bool (b : Bool) : Linked w (.bool b) (.bool b)
  | int32 (n : Int32) : Linked w (.int32 n) (.int32 n)
  | int64 (n : Int64) : Linked w (.int64 n) (.int64 n)
  | double (x : Double) : Linked w (.double x) (.double x)
  | text (s : String) : Linked w (.text s) (.text s)
  | list {xs ys : List Value} : List.Forall₂ (Linked w) xs ys → Linked w (.list xs) (.list ys)
  | object {r s : Ref} : w r s → Linked w (.object r) (.object s)

structure Object.Linked (w : Links) (o p : Object) : Prop where
  type : o.type = p.type
  fields : Dict.Related (Value.Linked w) o.fields p.fields

/-- Links between two heaps pair their objects one to one. References past the end are paired as
if objects were added to both heaps at once. -/
structure Heap.Linked (w : Links) (h k : Heap) : Prop where
  object : ∀ {r s}, w r s → Option.Rel (Object.Linked w) (h.get? r) (k.get? s)
  functional : ∀ {r s s'}, w r s → w r s' → s = s'
  injective : ∀ {r r' s}, w r s → w r' s → r = r'
  beyond : ∀ {r s}, w r s → h.objects.size ≤ r.index → r.index + k.objects.size = s.index + h.objects.size

/-! ## Dictionaries -/

namespace Dict
variable {β γ : Type} {R S : β → γ → Prop} {d : Dict β} {e : Dict γ}

theorem Related.mono (hRS : ∀ x y, R x y → S x y) (h : Related R d e) : Related S d e :=
  h.imp fun _ _ hab => ⟨hab.1, hRS _ _ hab.2⟩

theorem Related.find? (h : Related R d e) (name : String) :
    Option.Rel R (d.find? name) (e.find? name) := by
  induction h with
  | nil => exact .none
  | @cons a b _ _ hab _ ih =>
    obtain ⟨n, x⟩ := a
    obtain ⟨_, y⟩ := b
    obtain ⟨rfl, hxy⟩ := hab
    simp only [Dict.find?, List.lookup_cons] at ih ⊢
    cases name == n with
    | true => exact .some hxy
    | false => exact ih

theorem Related.insert (h : Related R d e) (name : String) {x : β} {y : γ} (hxy : R x y) :
    Related R (d.insert name x) (e.insert name y) := by
  induction h with
  | nil => exact .cons ⟨rfl, hxy⟩ .nil
  | @cons a b _ _ hab hrest ih =>
    obtain ⟨n, u⟩ := a
    obtain ⟨_, v⟩ := b
    obtain ⟨rfl, huv⟩ := hab
    simp only [Dict.insert]
    split
    · exact .cons ⟨rfl, hxy⟩ (.cons ⟨rfl, huv⟩ hrest)
    · split
      · exact .cons ⟨rfl, hxy⟩ hrest
      · exact .cons ⟨rfl, huv⟩ ih

theorem Related.ofList {xs : List (String × β)} {ys : List (String × γ)}
    (h : List.Forall₂ (fun a b => a.1 = b.1 ∧ R a.2 b.2) xs ys) :
    Related R (Dict.ofList xs) (Dict.ofList ys) := by
  suffices ∀ {d e}, Related R d e → Related R (xs.foldl (fun d p => d.insert p.1 p.2) d)
      (ys.foldl (fun d p => d.insert p.1 p.2) e) from this .nil
  induction h with
  | nil => exact id
  | @cons a b _ _ hab _ ih =>
    intro d e hde
    obtain ⟨n, x⟩ := a
    obtain ⟨_, y⟩ := b
    obtain ⟨rfl, hxy⟩ := hab
    exact ih (hde.insert n hxy)

theorem Related.names (h : Related R d e) : d.names = e.names := by
  induction h with
  | nil => rfl
  | cons hab _ ih => simp only [Dict.names, List.map_cons] at ih ⊢; rw [hab.1, ih]

end Dict

/-! ## Values -/

namespace Value
variable {w w' : Links}

mutual

theorem Linked.mono (hw : w ≤ w') : ∀ {x y : Value}, Linked w x y → Linked w' x y
  | _, _, .null => .null
  | _, _, .bool b => .bool b
  | _, _, .int32 n => .int32 n
  | _, _, .int64 n => .int64 n
  | _, _, .double x => .double x
  | _, _, .text s => .text s
  | _, _, .list h => .list (Linked.monoItems hw h)
  | _, _, .object h => .object (hw _ _ h)

theorem Linked.monoItems (hw : w ≤ w') :
    ∀ {xs ys : List Value}, List.Forall₂ (Linked w) xs ys → List.Forall₂ (Linked w') xs ys
  | _, _, .nil => .nil
  | _, _, .cons h hs => .cons (Linked.mono hw h) (Linked.monoItems hw hs)

end

theorem Linked.truth? {x y : Value} (h : Linked w x y) : x.truth? = y.truth? := by
  cases h <;> rfl

theorem Linked.asText? {x y : Value} (h : Linked w x y) : x.asText? = y.asText? := by
  cases h <;> rfl

theorem Linked.asInt64? {x y : Value} (h : Linked w x y) : x.asInt64? = y.asInt64? := by
  cases h <;> rfl

theorem Linked.asDouble? {x y : Value} (h : Linked w x y) : x.asDouble? = y.asDouble? := by
  cases h <;> rfl

theorem Linked.compare? {x x' y y' : Value} (hx : Linked w x x') (hy : Linked w y y') :
    x.compare? y = x'.compare? y' := by
  have hi := hx.asInt64?
  have hd := hx.asDouble?
  have hi' := hy.asInt64?
  have hd' := hy.asDouble?
  cases hx <;> cases hy <;> simp only [Value.compare?, hi, hd, hi', hd']

theorem Linked.defaultFor (type : String) :
    Linked w (Literal.defaultFor type) (Literal.defaultFor type) := by
  simp only [Literal.defaultFor]
  split
  · exact .bool false
  split
  · exact .int32 0
  split
  · exact .int64 0
  split
  · exact .double _
  · exact .null

end Value

/-! ## Heaps -/

theorem Object.Linked.mono {w w' : Links} (hw : w ≤ w') {o p : Object} (h : Object.Linked w o p) :
    Object.Linked w' o p :=
  ⟨h.type, h.fields.mono fun _ _ hx => hx.mono hw⟩

namespace Heap
variable {w : Links} {h k : Heap}

theorem get?_setField (h : Heap) (r s : Ref) (name : String) (x : Value) :
    (h.setField r name x).get? s =
      if r = s then (h.get? s).map fun o => { o with fields := o.fields.insert name x } else h.get? s := by
  obtain ⟨i⟩ := r
  obtain ⟨j⟩ := s
  simp only [Heap.get?, Heap.setField, Array.getElem?_modify, Ref.mk.injEq]

theorem get?_alloc (h : Heap) (o : Object) (r : Ref) :
    (h.alloc o).2.get? r = if r = (h.alloc o).1 then some o else h.get? r := by
  obtain ⟨i⟩ := r
  simp only [Heap.get?, Heap.alloc, Array.getElem?_push, Ref.mk.injEq]

theorem get?_eq_none_iff {r : Ref} : h.get? r = none ↔ h.objects.size ≤ r.index := by
  simp only [Heap.get?, Array.getElem?_eq_none_iff]

theorem size_setField (h : Heap) (r : Ref) (name : String) (x : Value) :
    (h.setField r name x).objects.size = h.objects.size := by
  simp only [Heap.setField, Array.size_modify]

theorem size_alloc (h : Heap) (o : Object) : (h.alloc o).2.objects.size = h.objects.size + 1 := by
  simp only [Heap.alloc, Array.size_push]

theorem Linked.object_cases (hw : Heap.Linked w h k) {r s : Ref} (hr : w r s) :
    (h.get? r = none ∧ k.get? s = none) ∨
      ∃ o p, h.get? r = some o ∧ k.get? s = some p ∧ Object.Linked w o p := by
  have hrel := hw.object hr
  generalize h.get? r = x at hrel ⊢
  generalize k.get? s = y at hrel ⊢
  cases hrel with
  | none => exact .inl ⟨rfl, rfl⟩
  | some hop => exact .inr ⟨_, _, rfl, rfl, hop⟩

theorem Linked.field? (hw : Heap.Linked w h k) {r s : Ref} (hr : w r s) (name : String) :
    Option.Rel (Value.Linked w) (h.field? r name) (k.field? s name) := by
  simp only [Heap.field?]
  rcases hw.object_cases hr with ⟨ho, hp⟩ | ⟨o, p, ho, hp, hop⟩
  · rw [ho, hp]
    exact .none
  · rw [ho, hp]
    exact hop.fields.find? name

theorem Linked.typeOf (hw : Heap.Linked w h k) {r s : Ref} (hr : w r s) : h.typeOf r = k.typeOf s := by
  simp only [Heap.typeOf]
  rcases hw.object_cases hr with ⟨ho, hp⟩ | ⟨o, p, ho, hp, hop⟩
  · rw [ho, hp]
  · rw [ho, hp, Option.map_some, Option.map_some, hop.type]

theorem Linked.setField (hw : Heap.Linked w h k) {r s : Ref} (hr : w r s) (name : String)
    {x y : Value} (hx : Value.Linked w x y) :
    Heap.Linked w (h.setField r name x) (k.setField s name y) where
  object {a b} hab := by
    have heq : r = a ↔ s = b :=
      ⟨fun e => hw.functional hr (e ▸ hab), fun e => hw.injective hr (e ▸ hab)⟩
    rw [get?_setField, get?_setField]
    rcases hw.object_cases hab with ⟨ho, hp⟩ | ⟨o, p, ho, hp, hop⟩
    · simp only [ho, hp, heq, Option.map_none, ite_self]
      exact .none
    · simp only [ho, hp, heq, Option.map_some]
      split
      · exact .some ⟨hop.type, hop.fields.insert name hx⟩
      · exact .some hop
  functional := hw.functional
  injective := hw.injective
  beyond hab := by
    rw [size_setField, size_setField]
    exact hw.beyond hab

theorem Linked.index_eq (hw : Heap.Linked w h k) {r s : Ref} (hr : w r s) :
    r.index = h.objects.size ↔ s.index = k.objects.size := by
  have hsize : h.objects.size ≤ r.index ↔ k.objects.size ≤ s.index := by
    rw [← get?_eq_none_iff, ← get?_eq_none_iff]
    rcases hw.object_cases hr with ⟨ho, hp⟩ | ⟨o, p, ho, hp, _⟩ <;> simp only [ho, hp, reduceCtorEq]
  by_cases hle : h.objects.size ≤ r.index
  · have hb := hw.beyond hr hle
    omega
  · have hle' := mt hsize.mpr hle
    omega

/-- New objects of linked states are linked. -/
theorem Linked.alloc (hw : Heap.Linked w h k) {o p : Object} (ho : Object.Linked w o p) :
    ∃ w', w ≤ w' ∧ w' (h.alloc o).1 (k.alloc p).1 ∧ Heap.Linked w' (h.alloc o).2 (k.alloc p).2 := by
  have hnew {r s : Ref} (hr : w r s) : r = (h.alloc o).1 ↔ s = (k.alloc p).1 := by
    have hi := hw.index_eq hr
    obtain ⟨i⟩ := r
    obtain ⟨j⟩ := s
    simpa only [Heap.alloc, Ref.mk.injEq] using hi
  let w' : Links := fun r s => w r s ∨ (r = (h.alloc o).1 ∧ s = (k.alloc p).1)
  have hle : w ≤ w' := fun _ _ => .inl
  refine ⟨w', hle, .inr ⟨rfl, rfl⟩, ?_, ?_, ?_, ?_⟩
  · intro r s hr
    have heq : r = (h.alloc o).1 ↔ s = (k.alloc p).1 := by
      rcases hr with hr | ⟨hr, hs⟩
      · exact hnew hr
      · simp only [hr, hs]
    rw [get?_alloc, get?_alloc]
    by_cases e : r = (h.alloc o).1
    · rw [if_pos e, if_pos (heq.mp e)]
      exact .some (ho.mono hle)
    · rw [if_neg e, if_neg (mt heq.mpr e)]
      have hr := hr.resolve_right fun hr => e hr.1
      rcases hw.object_cases hr with ⟨ho, hp⟩ | ⟨a, b, ho, hp, hab⟩
      · rw [ho, hp]
        exact .none
      · rw [ho, hp]
        exact .some (hab.mono hle)
  · rintro r s s' (hr | ⟨hr, hs⟩) (hr' | ⟨hr', hs'⟩)
    · exact hw.functional hr hr'
    · exact ((hnew hr).mp hr').trans hs'.symm
    · exact hs.trans ((hnew hr').mp hr).symm
    · exact hs.trans hs'.symm
  · rintro r r' s (hr | ⟨hr, hs⟩) (hr' | ⟨hr', hs'⟩)
    · exact hw.injective hr hr'
    · exact ((hnew hr).mpr hs').trans hr'.symm
    · exact hr.trans ((hnew hr').mpr hs).symm
    · exact hr.trans hr'.symm
  · rintro r s (hr | ⟨rfl, rfl⟩) hle
    · rw [size_alloc] at hle
      have hb := hw.beyond hr (by omega)
      simp only [size_alloc]
      omega
    · rw [size_alloc] at hle
      simp only [Heap.alloc] at hle
      omega

/-- Linked objects have the same types. -/
def Typed (w : Links) (h k : Heap) : Prop := ∀ r s, w r s → h.typeOf r = k.typeOf s

theorem Linked.typed (hw : Heap.Linked w h k) : Typed w h k := fun _ _ hr => hw.typeOf hr

mutual

theorem Typed.outline (hw : Typed w h k) :
    ∀ {x y : Value}, Value.Linked w x y → h.outline x = k.outline y
  | _, _, .null => rfl
  | _, _, .bool _ => rfl
  | _, _, .int32 _ => rfl
  | _, _, .int64 _ => rfl
  | _, _, .double _ => rfl
  | _, _, .text _ => rfl
  | _, _, .list hs => by simp only [Heap.outline, Typed.outlineItems hw hs]
  | _, _, .object hr => by simp only [Heap.outline, hw _ _ hr]

theorem Typed.outlineItems (hw : Typed w h k) :
    ∀ {xs ys : List Value}, List.Forall₂ (Value.Linked w) xs ys → h.outlineItems xs = k.outlineItems ys
  | _, _, .nil => rfl
  | _, _, .cons hx hs => by simp only [Heap.outlineItems, Typed.outline hw hx, Typed.outlineItems hw hs]

end

namespace Typed
variable (hw : Typed w h k) {x y : Value} (hx : Value.Linked w x y)
include hw hx

theorem display : h.display x = k.display y := by
  simp only [Heap.display, hw.outline hx]

theorem textOf : h.textOf x = k.textOf y := by
  have hd := hw.display hx
  cases hx <;> simp only [Heap.textOf, hd]

theorem typeName : h.typeName x = k.typeName y := by
  cases hx with
  | object hr => exact hw _ _ hr
  | _ => rfl

theorem matchesType (declared : String) : h.matchesType x declared = k.matchesType y declared := by
  have ht := hw.typeName hx
  cases hx <;> simp only [Heap.matchesType, ht]

end Typed

theorem Linked.display (hw : Heap.Linked w h k) {x y : Value} (hx : Value.Linked w x y) :
    h.display x = k.display y := hw.typed.display hx

theorem Linked.textOf (hw : Heap.Linked w h k) {x y : Value} (hx : Value.Linked w x y) :
    h.textOf x = k.textOf y := hw.typed.textOf hx

theorem Linked.typeName (hw : Heap.Linked w h k) {x y : Value} (hx : Value.Linked w x y) :
    h.typeName x = k.typeName y := hw.typed.typeName hx

theorem Linked.matchesType (hw : Heap.Linked w h k) {x y : Value} (hx : Value.Linked w x y)
    (declared : String) : h.matchesType x declared = k.matchesType y declared := hw.typed.matchesType hx declared

/-- Objects have been met in linked pairs. -/
abbrev MetAlike (w : Links) : List (Ref × Ref) → List (Ref × Ref) → Prop :=
  List.Forall₂ fun p q => w p.1 q.1 ∧ w p.2 q.2

theorem Linked.mem_met_iff (hw : Heap.Linked w h k) {met met' : List (Ref × Ref)}
    (hm : MetAlike w met met') {a a' b b' : Ref} (ha : w a a') (hb : w b b') :
    (a, b) ∈ met ↔ (a', b') ∈ met' := by
  induction hm with
  | nil => simp
  | @cons p q _ _ hpq _ ih =>
    obtain ⟨p, p₂⟩ := p
    obtain ⟨q, q₂⟩ := q
    simp only [List.mem_cons, Prod.mk.injEq, ih]
    refine or_congr_left ⟨?_, ?_⟩
    · rintro ⟨rfl, rfl⟩
      exact ⟨hw.functional ha hpq.1, hw.functional hb hpq.2⟩
    · rintro ⟨rfl, rfl⟩
      exact ⟨hw.injective ha hpq.1, hw.injective hb hpq.2⟩

/-- Two objects whose pair has not been met are compared field by field. -/
theorem agree_unmet {met : List (Ref × Ref)} {a b : Ref} (he : a ≠ b) (hm : (a, b) ∉ met) :
    h.agree met (.object a) (.object b) =
      match h.get? a, h.get? b with
      | some x, some y =>
        if x.type = y.type ∧ x.fields.length = y.fields.length then
          h.agreeFields ((a, b) :: met) x.fields y.fields
        else some false
      | _, _ => none := by
  simp only [Heap.agree, he, hm, if_false, dite_false]
  split <;> simp_all

theorem agreeFields_cons {met : List (Ref × Ref)} (a b : String × Value) (xs ys : List (String × Value)) :
    h.agreeFields met (a :: xs) (b :: ys) = (do
      if ← (if a.1 = b.1 then h.agree met a.2 b.2 else some false) then h.agreeFields met xs ys
      else return false) := by
  rw [Heap.agreeFields]

mutual

theorem Linked.agree (hw : Heap.Linked w h k) {met met' : List (Ref × Ref)} (hm : MetAlike w met met')
    {x x' y y' : Value} (hx : Value.Linked w x x') (hy : Value.Linked w y y') :
    h.agree met x y = k.agree met' x' y' := by
  cases hx with
  | list hxs =>
    cases hy with
    | list hys =>
      have hlen := hxs.length_eq
      have hlen' := hys.length_eq
      have ih := Linked.agreeItems hw hm hxs hys
      simp only [Heap.agree, hlen, hlen', ih]
    | _ => simp only [Heap.agree]
  | object hr =>
    cases hy with
    | object hs =>
      rename_i a a' b b'
      have hab : a = b ↔ a' = b' :=
        ⟨fun e => hw.functional hr (e ▸ hs), fun e => hw.injective hr (e ▸ hs)⟩
      have hmem := hw.mem_met_iff hm hr hs
      have ho := hw.object hr
      have hp := hw.object hs
      by_cases e : a = b
      · simp only [Heap.agree, e, hab.mp e, if_true]
      by_cases e' : (a, b) ∈ met
      · simp only [Heap.agree, e, mt hab.mpr e, e', hmem.mp e', if_false, dite_true]
      rw [Heap.agree_unmet e e', Heap.agree_unmet (mt hab.mpr e) (mt hmem.mpr e')]
      rcases hw.object_cases hr with ⟨ho, ho'⟩ | ⟨o, o', ho, ho', hoo⟩
      · simp only [ho, ho']
      · rcases hw.object_cases hs with ⟨hp, hp'⟩ | ⟨p, p', hp, hp', hpp⟩
        · simp only [ho, ho', hp, hp']
        · have hmet : MetAlike w ((a, b) :: met) ((a', b') :: met') := .cons ⟨hr, hs⟩ hm
          have ih := Linked.agreeFields hw hmet hoo.fields hpp.fields
          simp only [ho, ho', hp, hp', hoo.type, hpp.type, hoo.fields.length_eq,
            hpp.fields.length_eq, ih]
    | _ => simp only [Heap.agree]
  | _ => cases hy <;> simp only [Heap.agree]
termination_by ((h.unmet met).length, sizeOf x)
decreasing_by
  · exact Prod.Lex.right _ (by simp)
  · exact Prod.Lex.left _ _ (length_unmet_lt ho hp e')

theorem Linked.agreeItems (hw : Heap.Linked w h k) {met met' : List (Ref × Ref)} (hm : MetAlike w met met')
    {xs xs' ys ys' : List Value} (hx : List.Forall₂ (Value.Linked w) xs xs')
    (hy : List.Forall₂ (Value.Linked w) ys ys') :
    h.agreeItems met xs ys = k.agreeItems met' xs' ys' := by
  cases hx with
  | nil => cases hy <;> simp only [Heap.agreeItems]
  | cons hx hxs =>
    cases hy with
    | nil => simp only [Heap.agreeItems]
    | cons hy hys =>
      simp only [Heap.agreeItems, Linked.agree hw hm hx hy, Linked.agreeItems hw hm hxs hys]
termination_by ((h.unmet met).length, sizeOf xs)

theorem Linked.agreeFields (hw : Heap.Linked w h k) {met met' : List (Ref × Ref)} (hm : MetAlike w met met')
    {xs xs' ys ys' : List (String × Value)} (hx : Dict.Related (Value.Linked w) xs xs')
    (hy : Dict.Related (Value.Linked w) ys ys') :
    h.agreeFields met xs ys = k.agreeFields met' xs' ys' := by
  cases hx with
  | nil => cases hy <;> simp only [Heap.agreeFields]
  | @cons a a' _ _ hx hxs =>
    cases hy with
    | nil => simp only [Heap.agreeFields]
    | @cons b b' _ _ hy hys =>
      have hf := Linked.agree hw hm hx.2 hy.2
      have hr := Linked.agreeFields hw hm hxs hys
      simp only [agreeFields_cons, hx.1, hy.1, hf, hr]
termination_by ((h.unmet met).length, sizeOf xs)
decreasing_by
  · exact Prod.Lex.right _ (by cases a; simp only [List.cons.sizeOf_spec, Prod.mk.sizeOf_spec]; omega)
  · exact Prod.Lex.right _ (by simp only [List.cons.sizeOf_spec]; omega)
end

theorem Linked.equal (hw : Heap.Linked w h k) {x x' y y' : Value} (hx : Value.Linked w x x')
    (hy : Value.Linked w y y') : h.equal x y = k.equal x' y' :=
  hw.agree .nil hx hy

mutual

/-- The objects of a datum are new in both heaps. -/
theorem Linked.instantiate : ∀ (x : Datum) {w : Links} {h k : Heap}, Heap.Linked w h k →
    ∃ w', w ≤ w' ∧ Value.Linked w' (Heap.instantiate x h).1 (Heap.instantiate x k).1 ∧
      Heap.Linked w' (Heap.instantiate x h).2 (Heap.instantiate x k).2
  | .null, w, _, _, hw => ⟨w, le_rfl, .null, hw⟩
  | .bool b, w, _, _, hw => ⟨w, le_rfl, .bool b, hw⟩
  | .int32 n, w, _, _, hw => ⟨w, le_rfl, .int32 n, hw⟩
  | .int64 n, w, _, _, hw => ⟨w, le_rfl, .int64 n, hw⟩
  | .double x, w, _, _, hw => ⟨w, le_rfl, .double x, hw⟩
  | .text s, w, _, _, hw => ⟨w, le_rfl, .text s, hw⟩
  | .list items, _, _, _, hw => by
    obtain ⟨w', hle, hv, hw'⟩ := Linked.instantiateItems items hw
    exact ⟨w', hle, .list hv, hw'⟩
  | .object type fields, _, h, k, hw => by
    obtain ⟨w', hle, hv, hw'⟩ := Linked.instantiateFields fields hw
    have ho : Object.Linked w' ⟨type, (Heap.instantiateFields fields h).1⟩
        ⟨type, (Heap.instantiateFields fields k).1⟩ := ⟨rfl, hv⟩
    obtain ⟨w'', hle', hr, hw''⟩ := hw'.alloc ho
    exact ⟨w'', hle.trans hle', .object hr, hw''⟩

theorem Linked.instantiateItems : ∀ (xs : List Datum) {w : Links} {h k : Heap}, Heap.Linked w h k →
    ∃ w', w ≤ w' ∧
      List.Forall₂ (Value.Linked w') (Heap.instantiateItems xs h).1 (Heap.instantiateItems xs k).1 ∧
      Heap.Linked w' (Heap.instantiateItems xs h).2 (Heap.instantiateItems xs k).2
  | [], w, _, _, hw => ⟨w, le_rfl, .nil, hw⟩
  | x :: xs, _, _, _, hw => by
    obtain ⟨w', hle, hv, hw'⟩ := Linked.instantiate x hw
    obtain ⟨w'', hle', hvs, hw''⟩ := Linked.instantiateItems xs hw'
    exact ⟨w'', hle.trans hle', .cons (hv.mono hle') hvs, hw''⟩

theorem Linked.instantiateFields : ∀ (xs : List (String × Datum)) {w : Links} {h k : Heap},
    Heap.Linked w h k → ∃ w', w ≤ w' ∧
      Dict.Related (Value.Linked w') (Heap.instantiateFields xs h).1 (Heap.instantiateFields xs k).1 ∧
      Heap.Linked w' (Heap.instantiateFields xs h).2 (Heap.instantiateFields xs k).2
  | [], w, _, _, hw => ⟨w, le_rfl, .nil, hw⟩
  | (name, x) :: xs, _, _, _, hw => by
    obtain ⟨w', hle, hv, hw'⟩ := Linked.instantiate x hw
    obtain ⟨w'', hle', hvs, hw''⟩ := Linked.instantiateFields xs hw'
    exact ⟨w'', hle.trans hle', .cons ⟨rfl, hv.mono hle'⟩ hvs, hw''⟩

end

end Heap

/-! ## The same objects -/

mutual

theorem Value.Linked.refl : ∀ x : Value, Value.Linked Eq x x
  | .null => .null
  | .bool b => .bool b
  | .int32 n => .int32 n
  | .int64 n => .int64 n
  | .double x => .double x
  | .text s => .text s
  | .list xs => .list (Value.Linked.reflItems xs)
  | .object _ => .object rfl

theorem Value.Linked.reflItems : ∀ xs : List Value, List.Forall₂ (Value.Linked Eq) xs xs
  | [] => .nil
  | x :: xs => .cons (Value.Linked.refl x) (Value.Linked.reflItems xs)

end

mutual

theorem Value.Linked.eq : ∀ {x y : Value}, Value.Linked Eq x y → x = y
  | _, _, .null | _, _, .bool _ | _, _, .int32 _ | _, _, .int64 _ | _, _, .double _ | _, _, .text _ => rfl
  | _, _, .list h => congrArg Value.list (Value.Linked.eqItems h)
  | _, _, .object h => congrArg Value.object h

theorem Value.Linked.eqItems : ∀ {xs ys : List Value}, List.Forall₂ (Value.Linked Eq) xs ys → xs = ys
  | _, _, .nil => rfl
  | _, _, .cons h hs => congrArg₂ List.cons (Value.Linked.eq h) (Value.Linked.eqItems hs)

end

theorem Dict.Related.refl {β : Type} {R : β → β → Prop} {d : Dict β} (hR : ∀ p ∈ d, R p.2 p.2) : Dict.Related R d d :=
  List.forall₂_same.mpr fun p hp => ⟨rfl, hR p hp⟩

theorem Dict.Related.eq {β : Type} {R : β → β → Prop} (hR : ∀ x y, R x y → x = y) {d e : Dict β}
    (h : Dict.Related R d e) : d = e := by
  induction h with
  | nil => rfl
  | cons hab _ ih => rw [Prod.ext hab.1 (hR _ _ hab.2), ih]

theorem Object.Linked.eq {o p : Object} (h : Object.Linked Eq o p) : o = p := by
  obtain ⟨t, fields⟩ := o
  obtain ⟨t', fields'⟩ := p
  have hfields := Dict.Related.eq (fun _ _ => Value.Linked.eq) h.fields
  exact congrArg₂ Object.mk h.type hfields

namespace Heap

theorem Linked.refl (h : Heap) : Heap.Linked Eq h h where
  object {r _} hrs := by
    subst hrs
    cases h.get? r with
    | none => exact .none
    | some o => exact .some ⟨rfl, Dict.Related.refl fun p _ => .refl p.2⟩
  functional hs hs' := hs.symm.trans hs'
  injective hr hr' := hr.trans hr'.symm
  beyond hrs _ := by rw [hrs]

/-- Links that pair each object with itself pair it with no other. -/
theorem Linked.eq_of_le {w : Links} (hw : Eq ≤ w) {h k : Heap} (hh : Heap.Linked w h k) : w = Eq := by
  funext r s
  refine propext ⟨fun hrs => hh.functional (hw r r rfl) hrs, fun hrs => hw r s hrs⟩

theorem Linked.eq {h k : Heap} (hh : Heap.Linked Eq h k) : h = k := by
  obtain ⟨xs⟩ := h
  obtain ⟨ys⟩ := k
  refine congrArg Heap.mk (Array.ext_getElem? fun i => ?_)
  have ho := hh.object (r := ⟨i⟩) rfl
  simp only [Heap.get?] at ho
  generalize xs[i]? = x at ho
  generalize ys[i]? = y at ho
  cases ho with
  | none => rfl
  | some hop => rw [hop.eq]

end Heap

/-! ## Arithmetic -/

/-- Both fail in the same way, or both succeed with related values. -/
inductive Except.Related {ε α β : Type} (R : α → β → Prop) : Except ε α → Except ε β → Prop
  | error (e : ε) : Related R (.error e) (.error e)
  | ok {a : α} {b : β} : R a b → Related R (.ok a) (.ok b)

namespace BinaryOp
variable {w : Links} {h k : Heap}

theorem onNumbers_congr (op : BinaryOp) {x x' y y' : Value} (hx : Value.Linked w x x')
    (hy : Value.Linked w y y') : op.onNumbers x y = op.onNumbers x' y' := by
  cases hx <;> cases hy <;> simp only [onNumbers, Value.asInt64?, Value.asDouble?]

/-- The result of a calculation is a number. -/
theorem onNumbers_self (op : BinaryOp) (x y : Value) :
    Except.Related (Value.Linked w) (op.onNumbers x y) (op.onNumbers x y) := by
  simp only [onNumbers]
  split
  · rename_i a b
    cases op.onInt32 a b with
    | error e => exact .error _
    | ok n => exact .ok (.int32 n)
  split
  · rename_i a b _ _
    cases op.onInt64 a b with
    | error e => exact .error _
    | ok n => exact .ok (.int64 n)
  split
  · rename_i a b _ _
    cases op.onDouble? a b with
    | none => exact .error _
    | some x => exact .ok (.double x)
  · exact .error _

theorem onNumbers_linked (op : BinaryOp) {x x' y y' : Value} (hx : Value.Linked w x x')
    (hy : Value.Linked w y y') :
    Except.Related (Value.Linked w) (op.onNumbers x y) (op.onNumbers x' y') := by
  rw [op.onNumbers_congr hx hy]
  exact op.onNumbers_self x' y'

theorem apply_typed (hw : Heap.Typed w h k) (op : BinaryOp) {x x' y y' : Value}
    (hx : Value.Linked w x x') (hy : Value.Linked w y y') :
    Except.Related (Value.Linked w) (op.apply h x y) (op.apply k x' y') := by
  have hn := op.onNumbers_linked hx hy
  have htx := hw.textOf hx
  have hty := hw.textOf hy
  have hlast : List.Forall₂ (Value.Linked w) [y] [y'] := .cons hy .nil
  cases op with
  | add =>
    cases hx with
    | list hxs =>
      cases hy with
      | list hys => exact .ok (.list (List.rel_append hxs hys))
      | _ => exact .ok (.list (List.rel_append hxs hlast))
    | text s =>
      simp only [BinaryOp.apply, hty]
      exact .ok (.text _)
    | _ =>
      cases hy with
      | text s =>
        simp only [BinaryOp.apply, htx]
        exact .ok (.text _)
      | _ => exact hn
  | and =>
    cases hx with
    | bool a =>
      cases hy with
      | bool b => exact .ok (.bool _)
      | _ => exact hn
    | _ => exact hn
  | or =>
    cases hx with
    | bool a =>
      cases hy with
      | bool b => exact .ok (.bool _)
      | _ => exact hn
    | _ => exact hn
  | _ => exact hn

theorem apply_linked (hw : Heap.Linked w h k) (op : BinaryOp) {x x' y y' : Value}
    (hx : Value.Linked w x x') (hy : Value.Linked w y y') :
    Except.Related (Value.Linked w) (op.apply h x y) (op.apply k x' y') := op.apply_typed hw.typed hx hy

end BinaryOp
end MobileCode
