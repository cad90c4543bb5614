import MobileCode.Wire.Datum
import Mathlib.Algebra.Group.Nat.Defs
import Mathlib.Data.List.Forall2

/-! # Reading what was written

A reader takes what was written off the front of the bytes and leaves the rest. It may put it into another order: the
entries of a dictionary and the elements of a set come back sorted. Lengths are written in eight bytes, so all of this
is about encodings of less than `UInt64.size` bytes.
-/
namespace MobileCode

/-! ## Canonical forms -/

namespace Datum

mutual

/-- The datum with the fields of each object in order. -/
def canonical : Datum → Datum
  | list items => list (canonicalItems items)
  | object type fields => object type (Dict.ofList (canonicalFields fields))
  | x => x

def canonicalItems : List Datum → List Datum
  | [] => []
  | x :: rest => canonical x :: canonicalItems rest

def canonicalFields : List (String × Datum) → List (String × Datum)
  | [] => []
  | (n, x) :: rest => (n, canonical x) :: canonicalFields rest

end

theorem depth_pos (x : Datum) : 0 < x.depth := by
  cases x <;> simp [depth]

end Datum

namespace Bytes

theorem splitExactly_append (front rest : Bytes) : splitExactly front.length (front ++ rest) = some (front, rest) := by
  induction front with
  | nil => rfl
  | cons b front ih =>
    rw [List.length_cons, List.cons_append, splitExactly, ih]
    rfl

theorem toText?_ofText (s : String) : toText? (ofText s) = some s := by
  unfold toText? ofText String.fromUTF8?
  simp only [Array.toArray_toList]
  exact dif_pos s.isValidUTF8

end Bytes

namespace Wire
variable {α β : Type}

/-- The first value is written and the second one read, whatever follows. Something is written for it. -/
structure Codec.Reads (c : Codec α) (x y : α) : Prop where
  solid : 0 < (c.encode x).length
  decodes : (c.encode x).length < UInt64.size → ∀ rest, c.decode (c.encode x ++ rest) = some (y, rest)

namespace Codec.Reads
variable {c : Codec α} {d : Codec β} {x y : α} {u v : β}

theorem map {make : α → β} {parts : β → α} (h : c.Reads x y) (hparts : parts u = x) (hmake : make y = v) :
    (c.map make parts).Reads u v where
  solid := by
    simp only [Codec.map, hparts]
    exact h.solid
  decodes hsize rest := by
    simp only [Codec.map, hparts] at hsize ⊢
    rw [h.decodes hsize rest, Option.map_some, hmake]

theorem check {make : α → Option β} {parts : β → α} (h : c.Reads x y) (hparts : parts u = x)
    (hmake : make y = some v) : (c.check make parts).Reads u v where
  solid := by
    simp only [Codec.check, hparts]
    exact h.solid
  decodes hsize rest := by
    simp only [Codec.check, hparts] at hsize ⊢
    rw [h.decodes hsize rest]
    simp [hmake]

theorem pair (h : c.Reads x y) (k : d.Reads u v) : (c.pair d).Reads (x, u) (y, v) where
  solid := by
    simp only [Codec.pair, List.length_append]
    exact Nat.add_pos_left h.solid _
  decodes hsize rest := by
    simp only [Codec.pair, List.length_append] at hsize ⊢
    rw [List.append_assoc, h.decodes (by omega)]
    simp only [Option.bind_eq_bind, Option.bind_some]
    rw [k.decodes (by omega)]
    rfl

end Codec.Reads

/-! ## Numbers and texts -/

theorem length_digits (width n : Nat) : (digits width n).length = width := by
  induction width generalizing n with
  | zero => rfl
  | succ width ih => rw [digits, List.length_cons, ih]

theorem length_encode_nat (width n : Nat) : ((nat width).encode n).length = width := length_digits width n

theorem ofDigits_digits {width n : Nat} (h : n < 256 ^ width) : ofDigits (digits width n) = n := by
  induction width generalizing n with
  | zero =>
    rw [Nat.pow_zero] at h
    simp only [digits, ofDigits]
    omega
  | succ width ih =>
    have hdigit : (UInt8.ofNat n).toNat = n % 256 := UInt8.toNat_ofNat'
    rw [digits, ofDigits, ih (by rw [Nat.pow_succ] at h; omega), hdigit]
    omega

theorem nat_reads {width n : Nat} (hwidth : 0 < width) (h : n < 256 ^ width) : (nat width).Reads n n where
  solid := by
    rw [length_encode_nat]
    exact hwidth
  decodes _ rest := by
    have hsplit := Bytes.splitExactly_append (digits width n) rest
    rw [length_digits] at hsplit
    simp only [nat, hsplit, Option.map_some, ofDigits_digits h]

theorem byte_reads (b : UInt8) : byte.Reads b b := ⟨Nat.one_pos, fun _ _ => rfl⟩

theorem uint16_reads (n : UInt16) : uint16.Reads n n :=
  (nat_reads (by decide) n.toNat_lt).map rfl UInt16.ofNat_toNat

theorem uint32_reads (n : UInt32) : uint32.Reads n n :=
  (nat_reads (by decide) n.toNat_lt).map rfl UInt32.ofNat_toNat

theorem uint64_reads (n : UInt64) : uint64.Reads n n :=
  (nat_reads (by decide) n.toNat_lt).map rfl UInt64.ofNat_toNat

theorem int32_reads (n : Int32) : int32.Reads n n := (uint32_reads n.toUInt32).map rfl rfl

theorem int64_reads (n : Int64) : int64.Reads n n := (uint64_reads n.toUInt64).map rfl rfl

theorem double_reads (x : Double) : double.Reads x x := (uint64_reads x.bits).map rfl rfl

theorem bool_reads (b : Bool) : bool.Reads b b := by
  cases b <;> exact (byte_reads _).check rfl rfl

/-- A length is written in eight bytes. -/
theorem length_reads {n : Nat} (h : n < UInt64.size) : (nat 8).Reads n n := nat_reads (by decide) h

theorem bytes_reads (data : Bytes) : bytes.Reads data data where
  solid := by
    simp only [bytes, List.length_append, length_encode_nat]
    omega
  decodes hsize rest := by
    simp only [bytes, List.length_append] at hsize ⊢
    have hlength := length_reads (show data.length < UInt64.size by omega)
    rw [List.append_assoc, hlength.decodes (by omega)]
    exact Bytes.splitExactly_append data rest

theorem text_reads (s : String) : text.Reads s s := (bytes_reads (Bytes.ofText s)).check rfl (Bytes.toText?_ofText s)

/-! ## Sequences -/

theorem option_reads {c : Codec α} {x y : Option α} (h : Option.Rel c.Reads x y) : (option c).Reads x y := by
  cases h with
  | none => exact ⟨Nat.one_pos, fun _ _ => rfl⟩
  | some h =>
    refine ⟨Nat.succ_pos _, fun hsize rest => ?_⟩
    simp only [option, List.length_cons] at hsize
    simp only [option, List.cons_append, h.decodes (Nat.lt_of_succ_lt hsize), Option.map_some]

theorem decodeMany_reads {c : Codec α} {xs ys : List α} (h : List.Forall₂ c.Reads xs ys)
    (hsize : (xs.flatMap c.encode).length < UInt64.size) (rest : Bytes) :
    decodeMany c xs.length (xs.flatMap c.encode ++ rest) = some (ys, rest) := by
  induction h with
  | nil => rfl
  | cons hxy hrest ih =>
    rw [List.flatMap_cons, List.length_append] at hsize
    rw [List.length_cons, decodeMany, List.flatMap_cons, List.append_assoc, hxy.decodes (by omega)]
    simp only [Option.bind_eq_bind, Option.bind_some]
    rw [ih (by omega)]
    rfl

/-- Something is written for each element, so the length of a list is less than that of its encoding. -/
theorem length_le_flatMap {c : Codec α} {xs ys : List α} (h : List.Forall₂ c.Reads xs ys) :
    xs.length ≤ (xs.flatMap c.encode).length := by
  induction h with
  | nil => exact Nat.le_refl _
  | cons hxy hrest ih =>
    rw [List.flatMap_cons, List.length_append, List.length_cons]
    have hsolid := hxy.solid
    omega

theorem list_reads {c : Codec α} {xs ys : List α} (h : List.Forall₂ c.Reads xs ys) : (list c).Reads xs ys where
  solid := by
    simp only [list, List.length_append, length_encode_nat]
    omega
  decodes hsize rest := by
    simp only [list, List.length_append] at hsize ⊢
    have hcount := length_le_flatMap h
    rw [List.append_assoc, (length_reads (by omega)).decodes (by omega)]
    exact decodeMany_reads h (by omega) rest

theorem list_reads_map {c : Codec α} {f : α → α} {xs : List α} (h : ∀ x ∈ xs, c.Reads x (f x)) :
    (list c).Reads xs (xs.map f) := by
  refine list_reads ?_
  rw [List.forall₂_map_right_iff, List.forall₂_same]
  exact h

theorem list_reads_self {c : Codec α} (h : ∀ x, c.Reads x x) (xs : List α) : (list c).Reads xs xs :=
  list_reads (List.forall₂_same.mpr fun x _ => h x)

theorem option_reads_map {c : Codec α} {f : α → α} (h : ∀ x, c.Reads x (f x)) (x : Option α) :
    (option c).Reads x (x.map f) := by
  cases x with
  | none => exact option_reads .none
  | some x => exact option_reads (.some (h x))

theorem option_reads_self {c : Codec α} (h : ∀ x, c.Reads x x) (x : Option α) : (option c).Reads x x := by
  cases x with
  | none => exact option_reads .none
  | some x => exact option_reads (.some (h x))

theorem dict_reads {c : Codec α} {f : α → α} {d : Dict α} (h : ∀ e ∈ d, c.Reads e.2 (f e.2)) :
    (dict c).Reads d (Dict.ofList (d.map fun e => (e.1, f e.2))) :=
  (list_reads_map fun e he => (text_reads e.1).pair (h e he)).map rfl rfl

theorem keySet_reads [Keyed α] {c : Codec α} (h : ∀ x, c.Reads x x) (s : KeySet α) :
    (keySet c).Reads s (KeySet.ofList s) := (list_reads_self h s).map rfl rfl

/-! ## Forms -/

section
variable {fs : List (Form α)} {x : α}

theorem forms_decode {i : Nat} {form : Form α} (hi : i < UInt32.size) (hform : fs[i]? = some form) (input : Bytes) :
    (forms fs).decode ((nat 4).encode i ++ input) = form.decode input := by
  have hindex : (nat 4).Reads i i := nat_reads (by decide) hi
  have hsmall : ((nat 4).encode i).length < UInt64.size := by
    rw [length_encode_nat]
    decide
  simp only [forms, hindex.decodes hsmall, hform]

theorem forms_reads_bare (i : Nat) {y : α} {isForm : α → Bool} (hi : i < UInt32.size)
    (hform : fs[i]? = some (Form.bare y isForm)) (hencode : (forms fs).encode x = (nat 4).encode i ++ []) :
    (forms fs).Reads x y where
  solid := by
    rw [hencode, List.length_append, length_encode_nat]
    exact Nat.succ_pos 3
  decodes _ rest := by
    rw [hencode, List.append_assoc, forms_decode hi hform]
    rfl

theorem forms_reads_of (i : Nat) {c : Codec β} {make : β → α} {part? : α → Option β} {p q : β} {y : α}
    (hi : i < UInt32.size) (hform : fs[i]? = some (Form.of c make part?))
    (hencode : (forms fs).encode x = (nat 4).encode i ++ c.encode p) (h : c.Reads p q) (hmake : make q = y) :
    (forms fs).Reads x y where
  solid := by
    rw [hencode, List.length_append]
    exact Nat.add_pos_right _ h.solid
  decodes hsize rest := by
    rw [hencode, List.length_append] at hsize
    rw [hencode, List.append_assoc, forms_decode hi hform, Form.decode]
    simp only [Form.of]
    rw [h.decodes (by omega), Option.map_some, hmake]

end

/-- The first form that fits is the one at the position of the value. -/
theorem encodeFrom_bare [DecidableEq α] {values : List α} {x : α} (hx : x ∈ values) (start : Nat) :
    ∃ i, values[i]? = some x ∧
      Form.encodeFrom x start (values.map fun y => Form.bare y (· = y)) = (nat 4).encode (start + i) ++ [] := by
  induction values generalizing start with
  | nil => cases hx
  | cons y values ih =>
    by_cases hxy : x = y
    · subst hxy
      exact ⟨0, rfl, by simp [Form.encodeFrom, Form.bare, Codec.unit]⟩
    · obtain ⟨i, hi, hencode⟩ := ih (List.mem_of_ne_of_mem hxy hx) (start + 1)
      refine ⟨i + 1, hi, ?_⟩
      rw [List.map_cons, Form.encodeFrom]
      simp only [Form.bare, hxy, decide_false, Bool.false_eq_true, if_false]
      rw [← Nat.add_assoc, Nat.add_right_comm]
      exact hencode

theorem enumeration_reads [DecidableEq α] {values : List α} (hfew : values.length < UInt32.size) {x : α}
    (hx : x ∈ values) : (enumeration values).Reads x x := by
  obtain ⟨i, hi, hencode⟩ := encodeFrom_bare hx 0
  rw [Nat.zero_add] at hencode
  have hlt := (List.getElem?_eq_some_iff.mp hi).1
  have hform : (values.map fun y => Form.bare y (· = y))[i]? = some (Form.bare x (· = x)) := by
    rw [List.getElem?_map, hi]
    rfl
  exact forms_reads_bare i (Nat.lt_trans hlt hfew) hform hencode

/-! ## Data -/

theorem canonicalItems_eq (items : List Datum) : Datum.canonicalItems items = items.map Datum.canonical := by
  induction items with
  | nil => rfl
  | cons x rest ih => rw [Datum.canonicalItems, ih, List.map_cons]

theorem canonicalFields_eq (fields : List (String × Datum)) :
    Datum.canonicalFields fields = fields.map fun e => (e.1, e.2.canonical) := by
  induction fields with
  | nil => rfl
  | cons e rest ih => rw [Datum.canonicalFields, ih, List.map_cons]

theorem depth_le_items {items : List Datum} {x : Datum} (h : x ∈ items) : x.depth ≤ Datum.depthItems items := by
  induction items with
  | nil => cases h
  | cons y rest ih =>
    rw [Datum.depthItems]
    obtain rfl | h := List.mem_cons.mp h
    · exact Nat.le_max_left _ _
    · exact Nat.le_trans (ih h) (Nat.le_max_right _ _)

theorem depth_le_fields {fields : List (String × Datum)} {e : String × Datum} (h : e ∈ fields) :
    e.2.depth ≤ Datum.depthFields fields := by
  induction fields with
  | nil => cases h
  | cons y rest ih =>
    obtain ⟨n, y⟩ := y
    rw [Datum.depthFields]
    obtain rfl | h := List.mem_cons.mp h
    · exact Nat.le_max_left _ _
    · exact Nat.le_trans (ih h) (Nat.le_max_right _ _)

/-- With levels enough a datum is read back in its canonical form. -/
theorem datumUpTo_reads {n : Nat} {x : Datum} (h : x.depth ≤ n) : (datumUpTo n).Reads x x.canonical := by
  induction n generalizing x with
  | zero => exact absurd h (Nat.not_le.mpr x.depth_pos)
  | succ n ih =>
    cases x with
    | null => exact forms_reads_bare 0 (by decide) rfl rfl
    | bool b => exact forms_reads_of 1 (by decide) rfl rfl (bool_reads b) rfl
    | int32 k => exact forms_reads_of 2 (by decide) rfl rfl (int32_reads k) rfl
    | int64 k => exact forms_reads_of 3 (by decide) rfl rfl (int64_reads k) rfl
    | double x => exact forms_reads_of 4 (by decide) rfl rfl (double_reads x) rfl
    | text s => exact forms_reads_of 5 (by decide) rfl rfl (text_reads s) rfl
    | list items =>
      rw [Datum.depth] at h
      have hitems : ∀ x ∈ items, (datumUpTo n).Reads x x.canonical := fun x hx =>
        ih (Nat.le_trans (depth_le_items hx) (Nat.le_of_succ_le_succ h))
      rw [Datum.canonical, canonicalItems_eq]
      exact forms_reads_of 6 (by decide) rfl rfl (list_reads_map hitems) rfl
    | object type fields =>
      rw [Datum.depth] at h
      have hfields : ∀ e ∈ fields, (datumUpTo n).Reads e.2 e.2.canonical := fun e he =>
        ih (Nat.le_trans (depth_le_fields he) (Nat.le_of_succ_le_succ h))
      rw [Datum.canonical, canonicalFields_eq]
      exact forms_reads_of 7 (by decide) rfl rfl ((text_reads type).pair (dict_reads hfields)) rfl

theorem list_encode_congr {c d : Codec α} {xs : List α} (h : ∀ x ∈ xs, c.encode x = d.encode x) :
    (list c).encode xs = (list d).encode xs := by
  simp only [list]
  rw [List.flatMap_congr h]

theorem dict_encode_congr {c d : Codec α} {entries : Dict α} (h : ∀ e ∈ entries, c.encode e.2 = d.encode e.2) :
    (dict c).encode entries = (dict d).encode entries := by
  refine list_encode_congr fun e he => ?_
  simp only [Codec.pair]
  rw [h e he]

/-- More levels than a datum has make no difference to what is written. -/
theorem datumUpTo_encode {n k : Nat} {x : Datum} (hn : x.depth ≤ n) (hk : x.depth ≤ k) :
    (datumUpTo n).encode x = (datumUpTo k).encode x := by
  induction n generalizing k x with
  | zero => exact absurd hn (Nat.not_le.mpr x.depth_pos)
  | succ n ih =>
    cases k with
    | zero => exact absurd hk (Nat.not_le.mpr x.depth_pos)
    | succ k =>
      cases x with
      | list items =>
        rw [Datum.depth] at hn hk
        have hitems : ∀ x ∈ items, (datumUpTo n).encode x = (datumUpTo k).encode x := fun x hx =>
          have hx := depth_le_items hx
          ih (by omega) (by omega)
        exact congrArg ((nat 4).encode 6 ++ ·) (list_encode_congr hitems)
      | object type fields =>
        rw [Datum.depth] at hn hk
        have hfields : ∀ e ∈ fields, (datumUpTo n).encode e.2 = (datumUpTo k).encode e.2 := fun e he =>
          have he := depth_le_fields he
          ih (by omega) (by omega)
        exact congrArg (fun part => (nat 4).encode 7 ++ (text.encode type ++ part)) (dict_encode_congr hfields)
      | _ => rfl

theorem depthItems_le {n : Nat} {items : List Datum} (h : ∀ x ∈ items, x.depth ≤ ((datumUpTo n).encode x).length) :
    Datum.depthItems items ≤ ((list (datumUpTo n)).encode items).length := by
  have hflat : Datum.depthItems items ≤ (items.flatMap (datumUpTo n).encode).length := by
    induction items with
    | nil => exact Nat.le_refl _
    | cons x rest ih =>
      have hx := h x List.mem_cons_self
      have hrest := ih fun y hy => h y (List.mem_cons_of_mem x hy)
      rw [Datum.depthItems, List.flatMap_cons, List.length_append]
      omega
  simp only [list, List.length_append]
  omega

theorem depthFields_le {n : Nat} {fields : List (String × Datum)}
    (h : ∀ e ∈ fields, e.2.depth ≤ ((datumUpTo n).encode e.2).length) :
    Datum.depthFields fields ≤ ((dict (datumUpTo n)).encode fields).length := by
  have hflat : Datum.depthFields fields ≤ (fields.flatMap (text.pair (datumUpTo n)).encode).length := by
    induction fields with
    | nil => exact Nat.le_refl _
    | cons e rest ih =>
      have he := h e List.mem_cons_self
      have hrest := ih fun y hy => h y (List.mem_cons_of_mem e hy)
      have hpair : ((text.pair (datumUpTo n)).encode e).length =
          (text.encode e.1).length + ((datumUpTo n).encode e.2).length := List.length_append
      rw [Datum.depthFields, List.flatMap_cons, List.length_append, hpair]
      omega
  show _ ≤ ((list (text.pair (datumUpTo n))).encode fields).length
  simp only [list, List.length_append]
  omega

/-- Each level of nesting takes a byte at least. -/
theorem depth_le_length {n : Nat} {x : Datum} (h : x.depth ≤ n) : x.depth ≤ ((datumUpTo n).encode x).length := by
  induction n generalizing x with
  | zero => exact absurd h (Nat.not_le.mpr x.depth_pos)
  | succ n ih =>
    cases x with
    | list items =>
      rw [Datum.depth] at h ⊢
      have hitems := depthItems_le fun y hy => ih (Nat.le_trans (depth_le_items hy) (Nat.le_of_succ_le_succ h))
      show _ ≤ ((nat 4).encode 6 ++ (list (datumUpTo n)).encode items).length
      rw [List.length_append, length_encode_nat]
      omega
    | object type fields =>
      rw [Datum.depth] at h ⊢
      have hfields := depthFields_le fun e he => ih (Nat.le_trans (depth_le_fields he) (Nat.le_of_succ_le_succ h))
      show _ ≤ ((nat 4).encode 7 ++ (text.encode type ++ (dict (datumUpTo n)).encode fields)).length
      rw [List.length_append, List.length_append, length_encode_nat]
      omega
    | _ => exact (datumUpTo_reads h).solid

theorem datum_reads (x : Datum) : datum.Reads x x.canonical where
  solid := (datumUpTo_reads (Nat.le_refl x.depth)).solid
  decodes hsize rest := by
    have hdepth := depth_le_length (Nat.le_refl x.depth)
    have hlevels : x.depth ≤ (datum.encode x ++ rest).length + 1 := by
      rw [List.length_append]
      exact Nat.le_succ_of_le (Nat.le_add_right_of_le hdepth)
    show (datumUpTo ((datum.encode x ++ rest).length + 1)).decode (datum.encode x ++ rest) = _
    generalize (datum.encode x ++ rest).length + 1 = n at hlevels ⊢
    have hencode : (datumUpTo n).encode x = datum.encode x := datumUpTo_encode hlevels (Nat.le_refl _)
    have hreads := (datumUpTo_reads hlevels).decodes
    rw [hencode] at hreads
    exact hreads hsize rest

end Wire
end MobileCode
