import MobileCode.Proofs.Codecs
import MobileCode.Proofs.Orders

/-! # What a reader takes

A reader looks no further than to the end of the value that it takes off the front, so it takes nothing from a proper
prefix of what is written. What it has taken is written in no more bytes than it took. A dictionary or a set is in order
once it has been read, whatever the order in which its entries came.
-/
namespace MobileCode

namespace Bytes

theorem splitExactly_eq_some {n : Nat} {input front rest : Bytes} (h : splitExactly n input = some (front, rest)) :
    input = front ++ rest ∧ front.length = n := by
  induction n generalizing input front with
  | zero =>
    cases h
    exact ⟨rfl, rfl⟩
  | succ n ih =>
    cases input with
    | nil => cases h
    | cons b input =>
      obtain ⟨⟨taken, left⟩, hsplit, h⟩ := Option.map_eq_some_iff.mp h
      cases h
      obtain ⟨rfl, rfl⟩ := ih hsplit
      exact ⟨rfl, rfl⟩

theorem ofText_of_toText? {data : Bytes} {s : String} (h : toText? data = some s) : ofText s = data := by
  unfold toText? String.fromUTF8? at h
  split at h
  · cases h
    rfl
  · cases h

end Bytes

/-! ## Data in order -/

namespace Datum

mutual

/-- The fields of every object in the datum are in ascending order of their names. -/
def Ordered : Datum → Prop
  | list items => OrderedItems items
  | object _ fields => Dict.Sorted fields ∧ OrderedFields fields
  | _ => True

def OrderedItems : List Datum → Prop
  | [] => True
  | x :: rest => Ordered x ∧ OrderedItems rest

def OrderedFields : List (String × Datum) → Prop
  | [] => True
  | (_, x) :: rest => Ordered x ∧ OrderedFields rest

end

theorem orderedItems_iff {items : List Datum} : OrderedItems items ↔ ∀ x ∈ items, x.Ordered := by
  induction items with
  | nil => simp [OrderedItems]
  | cons x rest ih => rw [OrderedItems, ih, List.forall_mem_cons]

theorem orderedFields_iff {fields : List (String × Datum)} : OrderedFields fields ↔ ∀ e ∈ fields, e.2.Ordered := by
  induction fields with
  | nil => simp [OrderedFields]
  | cons e rest ih => rw [OrderedFields, ih, List.forall_mem_cons]

mutual

/-- What is in order is its own canonical form. -/
theorem Ordered.canonical_eq : {x : Datum} → x.Ordered → x.canonical = x
  | list items, h => by rw [canonical, OrderedItems.canonical_eq h]
  | object type fields, ⟨hsorted, h⟩ => by rw [canonical, OrderedFields.canonical_eq h, hsorted.ofList_eq]
  | null, _ | bool _, _ | int32 _, _ | int64 _, _ | double _, _ | text _, _ => rfl

theorem OrderedItems.canonical_eq : {items : List Datum} → OrderedItems items → canonicalItems items = items
  | [], _ => rfl
  | x :: rest, ⟨hx, hrest⟩ => by rw [canonicalItems, hx.canonical_eq, OrderedItems.canonical_eq hrest]

theorem OrderedFields.canonical_eq : {fields : List (String × Datum)} → OrderedFields fields →
    canonicalFields fields = fields
  | [], _ => rfl
  | (n, x) :: rest, ⟨hx, hrest⟩ => by rw [canonicalFields, hx.canonical_eq, OrderedFields.canonical_eq hrest]

end
end Datum

/-! ## Steady readers -/

namespace Wire
variable {α β : Type}

/-- The reader looks at nothing behind the value that it takes, and what it has taken is written in no more bytes than it
took. -/
structure Codec.Steady (c : Codec α) : Prop where
  frames : ∀ {input x rest}, c.decode input = some (x, rest) → ∀ more, c.decode (input ++ more) = some (x, rest ++ more)
  shrinks : ∀ {input x rest}, c.decode input = some (x, rest) → (c.encode x).length + rest.length ≤ input.length

namespace Codec.Steady
variable {c : Codec α} {d : Codec β}

/-- Nothing is read from a proper prefix of what is written. -/
theorem cut (h : c.Steady) {x y : α} (hreads : c.Reads x y) (hsize : (c.encode x).length < UInt64.size)
    {front more : Bytes} (hsplit : front ++ more = c.encode x) (hmore : more ≠ []) : c.decode front = none := by
  rcases hfront : c.decode front with _ | ⟨z, rest⟩
  · rfl
  · have hall := h.frames hfront more
    have hread := hreads.decodes hsize []
    rw [List.append_nil, ← hsplit, hall] at hread
    have hrest : rest ++ more = [] := congrArg Prod.snd (Option.some.inj hread)
    exact absurd (List.append_eq_nil_iff.mp hrest).2 hmore

theorem map (h : c.Steady) {make : α → β} {parts : β → α}
    (hparts : ∀ input x rest, c.decode input = some (x, rest) → parts (make x) = x) : (c.map make parts).Steady where
  frames hdecode more := by
    obtain ⟨⟨x, rest⟩, hdecode, heq⟩ := Option.map_eq_some_iff.mp hdecode
    cases heq
    exact Option.map_eq_some_iff.mpr ⟨_, h.frames hdecode more, rfl⟩
  shrinks hdecode := by
    obtain ⟨⟨x, _⟩, hdecode, heq⟩ := Option.map_eq_some_iff.mp hdecode
    cases heq
    show (c.encode (parts (make x))).length + _ ≤ _
    rw [hparts _ _ _ hdecode]
    exact h.shrinks hdecode

theorem check_eq_some {make : α → Option β} {parts : β → α} {input : Bytes} {y : β} {rest : Bytes} :
    (c.check make parts).decode input = some (y, rest) ↔
      ∃ x, c.decode input = some (x, rest) ∧ make x = some y := by
  simp only [Codec.check, Option.bind_eq_bind, Option.bind_eq_some_iff, Option.pure_def, Option.some.injEq, Prod.mk.injEq]
  constructor
  · rintro ⟨⟨x, _⟩, hdecode, z, hmake, rfl, rfl⟩
    exact ⟨x, hdecode, hmake⟩
  · rintro ⟨x, hdecode, hmake⟩
    exact ⟨(x, rest), hdecode, y, hmake, rfl, rfl⟩

theorem check (h : c.Steady) {make : α → Option β} {parts : β → α} (hparts : ∀ {x y}, make x = some y → parts y = x) :
    (c.check make parts).Steady where
  frames hdecode more := by
    obtain ⟨x, hdecode, hmake⟩ := check_eq_some.mp hdecode
    exact check_eq_some.mpr ⟨x, h.frames hdecode more, hmake⟩
  shrinks {_ y _} hdecode := by
    obtain ⟨x, hdecode, hmake⟩ := check_eq_some.mp hdecode
    show (c.encode (parts y)).length + _ ≤ _
    rw [hparts hmake]
    exact h.shrinks hdecode

theorem pair_eq_some {input : Bytes} {p : α × β} {rest : Bytes} : (c.pair d).decode input = some (p, rest) ↔
    ∃ middle, c.decode input = some (p.1, middle) ∧ d.decode middle = some (p.2, rest) := by
  obtain ⟨x, y⟩ := p
  simp only [Codec.pair, Option.bind_eq_bind, Option.bind_eq_some_iff, Option.pure_def, Option.some.injEq, Prod.mk.injEq]
  constructor
  · rintro ⟨⟨_, middle⟩, hx, ⟨_, _⟩, hy, ⟨rfl, rfl⟩, rfl⟩
    exact ⟨middle, hx, hy⟩
  · rintro ⟨middle, hx, hy⟩
    exact ⟨(x, middle), hx, (y, rest), hy, ⟨rfl, rfl⟩, rfl⟩

theorem pair (h : c.Steady) (k : d.Steady) : (c.pair d).Steady where
  frames hdecode more := by
    obtain ⟨middle, hx, hy⟩ := pair_eq_some.mp hdecode
    exact pair_eq_some.mpr ⟨_, h.frames hx more, k.frames hy more⟩
  shrinks hdecode := by
    obtain ⟨middle, hx, hy⟩ := pair_eq_some.mp hdecode
    have hfirst := h.shrinks hx
    have hsecond := k.shrinks hy
    simp only [Codec.pair, List.length_append]
    omega

end Codec.Steady

/-! ## Numbers and texts -/

theorem ofDigits_lt (front : Bytes) : ofDigits front < 256 ^ front.length := by
  induction front with
  | nil => exact Nat.one_pos
  | cons b front ih =>
    have hb := b.toNat_lt
    rw [ofDigits, List.length_cons, Nat.pow_succ]
    omega

theorem nat_eq_some {width : Nat} {input : Bytes} {n : Nat} {rest : Bytes} (h : (nat width).decode input = some (n, rest)) :
    ∃ front, input = front ++ rest ∧ front.length = width ∧ ofDigits front = n := by
  obtain ⟨⟨front, _⟩, hsplit, heq⟩ := Option.map_eq_some_iff.mp h
  cases heq
  obtain ⟨hinput, hlength⟩ := Bytes.splitExactly_eq_some hsplit
  exact ⟨front, hinput, hlength, rfl⟩

theorem nat_lt {width : Nat} {input : Bytes} {n : Nat} {rest : Bytes} (h : (nat width).decode input = some (n, rest)) :
    n < 256 ^ width := by
  obtain ⟨front, _, rfl, rfl⟩ := nat_eq_some h
  exact ofDigits_lt front

theorem nat_steady {width : Nat} (hwidth : 0 < width) : (nat width).Steady where
  frames {_ n _} hdecode more := by
    obtain ⟨front, rfl, rfl, rfl⟩ := nat_eq_some hdecode
    rw [List.append_assoc]
    exact Option.map_eq_some_iff.mpr ⟨_, Bytes.splitExactly_append front _, rfl⟩
  shrinks hdecode := by
    obtain ⟨front, rfl, rfl, rfl⟩ := nat_eq_some hdecode
    exact Nat.le_of_eq (by rw [length_encode_nat, List.length_append])

theorem byte_steady : byte.Steady where
  frames {input _ _} hdecode more := by
    cases input with
    | nil => cases hdecode
    | cons b input =>
      cases hdecode
      rfl
  shrinks {input _ _} hdecode := by
    cases input with
    | nil => cases hdecode
    | cons b input =>
      cases hdecode
      exact Nat.le_of_eq (Nat.add_comm 1 _)

theorem uint16_steady : uint16.Steady :=
  (nat_steady (by decide)).map fun _ _ _ h => UInt16.toNat_ofNat_of_lt' (nat_lt h)

theorem uint32_steady : uint32.Steady :=
  (nat_steady (by decide)).map fun _ _ _ h => UInt32.toNat_ofNat_of_lt' (nat_lt h)

theorem uint64_steady : uint64.Steady :=
  (nat_steady (by decide)).map fun _ _ _ h => UInt64.toNat_ofNat_of_lt' (nat_lt h)

theorem int32_steady : int32.Steady := uint32_steady.map fun _ _ _ _ => rfl

theorem int64_steady : int64.Steady := uint64_steady.map fun _ _ _ _ => rfl

theorem double_steady : double.Steady := uint64_steady.map fun _ _ _ _ => rfl

theorem bool_steady : bool.Steady := by
  refine byte_steady.check fun {b y} h => ?_
  split at h
  · cases h
    exact (‹b = 0›).symm
  · split at h
    · cases h
      exact (‹b = 1›).symm
    · cases h

theorem bytes_eq_some {input data rest : Bytes} : bytes.decode input = some (data, rest) ↔
    ∃ middle, (nat 8).decode input = some (data.length, middle) ∧ middle = data ++ rest := by
  simp only [bytes, Option.bind_eq_bind, Option.bind_eq_some_iff]
  constructor
  · rintro ⟨⟨count, middle⟩, hcount, hsplit⟩
    obtain ⟨hmiddle, rfl⟩ := Bytes.splitExactly_eq_some hsplit
    exact ⟨middle, hcount, hmiddle⟩
  · rintro ⟨_, hcount, rfl⟩
    exact ⟨_, hcount, Bytes.splitExactly_append data rest⟩

theorem bytes_steady : bytes.Steady where
  frames hdecode more := by
    obtain ⟨_, hcount, rfl⟩ := bytes_eq_some.mp hdecode
    exact bytes_eq_some.mpr ⟨_, (nat_steady (by decide)).frames hcount more, List.append_assoc _ _ _⟩
  shrinks hdecode := by
    obtain ⟨_, hcount, rfl⟩ := bytes_eq_some.mp hdecode
    have hshrinks := (nat_steady (by decide)).shrinks hcount
    simp only [bytes, List.length_append] at hshrinks ⊢
    omega

theorem text_steady : text.Steady := bytes_steady.check Bytes.ofText_of_toText?

/-! ## Sequences -/

theorem option_eq_some {c : Codec α} {input rest : Bytes} {o : Option α}
    (h : (option c).decode input = some (o, rest)) :
    (input = 0 :: rest ∧ o = none) ∨ ∃ body x, input = 1 :: body ∧ c.decode body = some (x, rest) ∧ o = some x := by
  simp only [option] at h
  split at h
  · cases h
    exact .inl ⟨rfl, rfl⟩
  · obtain ⟨⟨x, _⟩, hdecode, heq⟩ := Option.map_eq_some_iff.mp h
    cases heq
    exact .inr ⟨_, x, rfl, hdecode, rfl⟩
  · cases h

theorem option_steady {c : Codec α} (h : c.Steady) : (option c).Steady where
  frames hdecode more := by
    rcases option_eq_some hdecode with ⟨rfl, rfl⟩ | ⟨body, x, rfl, hbody, rfl⟩
    · rfl
    · simp only [option, List.cons_append, h.frames hbody more, Option.map_some]
  shrinks hdecode := by
    rcases option_eq_some hdecode with ⟨rfl, rfl⟩ | ⟨body, x, rfl, hbody, rfl⟩
    · exact Nat.le_of_eq (Nat.add_comm 1 _)
    · have hshrinks := h.shrinks hbody
      simp only [option, List.length_cons]
      omega

theorem decodeMany_succ {c : Codec α} {count : Nat} {input rest : Bytes} {xs : List α} :
    decodeMany c (count + 1) input = some (xs, rest) ↔ ∃ x middle ys, c.decode input = some (x, middle) ∧
      decodeMany c count middle = some (ys, rest) ∧ xs = x :: ys := by
  simp only [decodeMany, Option.bind_eq_bind, Option.bind_eq_some_iff, Option.pure_def, Option.some.injEq, Prod.mk.injEq]
  constructor
  · rintro ⟨⟨x, middle⟩, hx, ⟨ys, _⟩, hys, rfl, rfl⟩
    exact ⟨x, middle, ys, hx, hys, rfl⟩
  · rintro ⟨x, middle, ys, hx, hys, rfl⟩
    exact ⟨(x, middle), hx, (ys, rest), hys, rfl, rfl⟩

section
variable {c : Codec α} (h : c.Steady)
include h

theorem decodeMany_frames {count : Nat} {input rest : Bytes} {xs : List α}
    (hdecode : decodeMany c count input = some (xs, rest)) (more : Bytes) :
    decodeMany c count (input ++ more) = some (xs, rest ++ more) := by
  induction count generalizing input xs with
  | zero =>
    cases hdecode
    rfl
  | succ count ih =>
    obtain ⟨x, middle, ys, hx, hys, rfl⟩ := decodeMany_succ.mp hdecode
    exact decodeMany_succ.mpr ⟨x, _, ys, h.frames hx more, ih hys, rfl⟩

omit h in
/-- What holds of every value that is read holds of every element of a list. -/
theorem decodeMany_forall {P : α → Prop} (hread : ∀ {input x rest}, c.decode input = some (x, rest) → P x) {count : Nat}
    {input rest : Bytes} {xs : List α} (hdecode : decodeMany c count input = some (xs, rest)) : ∀ x ∈ xs, P x := by
  induction count generalizing input xs with
  | zero =>
    cases hdecode
    exact fun _ hx => absurd hx List.not_mem_nil
  | succ count ih =>
    obtain ⟨x, middle, ys, hx, hys, rfl⟩ := decodeMany_succ.mp hdecode
    exact List.forall_mem_cons.mpr ⟨hread hx, ih hys⟩

theorem decodeMany_shrinks {count : Nat} {input rest : Bytes} {xs : List α}
    (hdecode : decodeMany c count input = some (xs, rest)) :
    (xs.flatMap c.encode).length + rest.length ≤ input.length := by
  induction count generalizing input xs with
  | zero =>
    cases hdecode
    exact Nat.le_of_eq (Nat.zero_add _)
  | succ count ih =>
    obtain ⟨x, middle, ys, hx, hys, rfl⟩ := decodeMany_succ.mp hdecode
    have hfirst := h.shrinks hx
    have hrest := ih hys
    rw [List.flatMap_cons, List.length_append]
    omega

omit h in
theorem list_eq_some {input rest : Bytes} {xs : List α} : (list c).decode input = some (xs, rest) ↔
    ∃ count middle, (nat 8).decode input = some (count, middle) ∧ decodeMany c count middle = some (xs, rest) := by
  simp only [list, Option.bind_eq_bind, Option.bind_eq_some_iff, Prod.exists]

omit h in
theorem list_forall {P : α → Prop} (hread : ∀ {input x rest}, c.decode input = some (x, rest) → P x)
    {input rest : Bytes} {xs : List α} (hdecode : (list c).decode input = some (xs, rest)) : ∀ x ∈ xs, P x := by
  obtain ⟨count, middle, _, hmany⟩ := list_eq_some.mp hdecode
  exact decodeMany_forall hread hmany

omit h in
theorem length_encode_list (xs : List α) : ((list c).encode xs).length = 8 + (xs.flatMap c.encode).length := by
  simp only [list, List.length_append, length_encode_nat]

theorem list_steady : (list c).Steady where
  frames hdecode more := by
    obtain ⟨count, middle, hcount, hmany⟩ := list_eq_some.mp hdecode
    exact list_eq_some.mpr ⟨count, _, (nat_steady (by decide)).frames hcount more, decodeMany_frames h hmany more⟩
  shrinks hdecode := by
    obtain ⟨count, middle, hcount, hmany⟩ := list_eq_some.mp hdecode
    have hfirst := (nat_steady (by decide)).shrinks hcount
    have hrest := decodeMany_shrinks h hmany
    rw [length_encode_nat] at hfirst
    rw [length_encode_list]
    omega

omit h in
theorem dict_eq_some {input rest : Bytes} {d : Dict α} : (dict c).decode input = some (d, rest) ↔
    ∃ entries, (list (text.pair c)).decode input = some (entries, rest) ∧ Dict.ofList entries = d := by
  show ((list (text.pair c)).decode input).map _ = _ ↔ _
  simp only [Option.map_eq_some_iff, Prod.exists, Prod.mk.injEq]
  constructor
  · rintro ⟨entries, _, hdecode, rfl, rfl⟩
    exact ⟨entries, hdecode, rfl⟩
  · rintro ⟨entries, hdecode, rfl⟩
    exact ⟨entries, rest, hdecode, rfl, rfl⟩

theorem dict_steady : (dict c).Steady where
  frames hdecode more := by
    obtain ⟨entries, hlist, rfl⟩ := dict_eq_some.mp hdecode
    exact dict_eq_some.mpr ⟨entries, (list_steady (text_steady.pair h)).frames hlist more, rfl⟩
  shrinks hdecode := by
    obtain ⟨entries, hlist, rfl⟩ := dict_eq_some.mp hdecode
    have hshrinks := (list_steady (text_steady.pair h)).shrinks hlist
    have hfewer := Dict.length_flatMap_ofList (text.pair c).encode entries
    show ((list (text.pair c)).encode (Dict.ofList entries)).length + _ ≤ _
    rw [length_encode_list] at hshrinks ⊢
    omega

omit h in
theorem keySet_eq_some [Keyed α] {input rest : Bytes} {s : KeySet α} : (keySet c).decode input = some (s, rest) ↔
    ∃ xs, (list c).decode input = some (xs, rest) ∧ KeySet.ofList xs = s := by
  show ((list c).decode input).map _ = _ ↔ _
  simp only [Option.map_eq_some_iff, Prod.exists, Prod.mk.injEq]
  constructor
  · rintro ⟨xs, _, hdecode, rfl, rfl⟩
    exact ⟨xs, hdecode, rfl⟩
  · rintro ⟨xs, hdecode, rfl⟩
    exact ⟨xs, rest, hdecode, rfl, rfl⟩

theorem keySet_steady [Keyed α] : (keySet c).Steady where
  frames hdecode more := by
    obtain ⟨xs, hlist, rfl⟩ := keySet_eq_some.mp hdecode
    exact keySet_eq_some.mpr ⟨xs, (list_steady h).frames hlist more, rfl⟩
  shrinks hdecode := by
    obtain ⟨xs, hlist, rfl⟩ := keySet_eq_some.mp hdecode
    have hshrinks := (list_steady h).shrinks hlist
    have hfewer := KeySet.length_flatMap_ofList c.encode xs
    show ((list c).encode (KeySet.ofList xs)).length + _ ≤ _
    rw [length_encode_list] at hshrinks ⊢
    omega

end

/-! ## Forms -/

/-- What `Codec.Steady` says, of one form among several. -/
structure Form.Steady (fs : List (Form α)) (form : Form α) : Prop where
  frames : ∀ {input x rest}, form.decode input = some (x, rest) → ∀ more, form.decode (input ++ more) = some (x, rest ++ more)
  shrinks : ∀ {input x rest}, form.decode input = some (x, rest) →
    ((forms fs).encode x).length + rest.length ≤ input.length + 4

section
variable {fs : List (Form α)}

theorem Form.steady_bare (i : Nat) {y : α} {isForm : α → Bool}
    (hencode : (forms fs).encode y = (nat 4).encode i ++ []) : Form.Steady fs (Form.bare y isForm) where
  frames hdecode more := by
    cases hdecode
    rfl
  shrinks hdecode := by
    cases hdecode
    rw [show (Form.bare y isForm).make () = y from rfl, hencode, List.append_nil, length_encode_nat]
    exact Nat.le_of_eq (Nat.add_comm 4 _)

theorem Form.of_eq_some {c : Codec β} {make : β → α} {part? : α → Option β} {input rest : Bytes} {x : α} :
    (Form.of c make part?).decode input = some (x, rest) ↔ ∃ p, c.decode input = some (p, rest) ∧ make p = x := by
  show (c.decode input).map (fun p => (make p.1, p.2)) = _ ↔ _
  simp only [Option.map_eq_some_iff, Prod.exists, Prod.mk.injEq]
  constructor
  · rintro ⟨p, _, hdecode, rfl, rfl⟩
    exact ⟨p, hdecode, rfl⟩
  · rintro ⟨p, hdecode, rfl⟩
    exact ⟨p, rest, hdecode, rfl, rfl⟩

theorem Form.steady_of (i : Nat) {c : Codec β} {make : β → α} {part? : α → Option β}
    (hencode : ∀ p, (forms fs).encode (make p) = (nat 4).encode i ++ c.encode p) (h : c.Steady) :
    Form.Steady fs (Form.of c make part?) where
  frames hdecode more := by
    obtain ⟨p, hpart, rfl⟩ := Form.of_eq_some.mp hdecode
    exact Form.of_eq_some.mpr ⟨p, h.frames hpart more, rfl⟩
  shrinks hdecode := by
    obtain ⟨p, hpart, rfl⟩ := Form.of_eq_some.mp hdecode
    have hshrinks := h.shrinks hpart
    rw [hencode, List.length_append, length_encode_nat]
    omega

theorem forms_eq_some {input rest : Bytes} {x : α} : (forms fs).decode input = some (x, rest) ↔
    ∃ i middle form, (nat 4).decode input = some (i, middle) ∧ fs[i]? = some form ∧
      form.decode middle = some (x, rest) := by
  simp only [forms]
  constructor
  · intro h
    split at h
    · rename_i i middle hi
      split at h
      · exact ⟨i, middle, _, hi, ‹_›, h⟩
      · cases h
    · cases h
  · rintro ⟨i, middle, form, hi, hform, h⟩
    simp only [hi, hform, h]

theorem forms_steady (h : ∀ form ∈ fs, Form.Steady fs form) : (forms fs).Steady where
  frames hdecode more := by
    obtain ⟨i, middle, form, hi, hform, hdecode⟩ := forms_eq_some.mp hdecode
    exact forms_eq_some.mpr ⟨i, _, form, (nat_steady (by decide)).frames hi more, hform,
      (h form (List.mem_of_getElem? hform)).frames hdecode more⟩
  shrinks hdecode := by
    obtain ⟨i, middle, form, hi, hform, hdecode⟩ := forms_eq_some.mp hdecode
    have hfirst := (nat_steady (by decide)).shrinks hi
    have hrest := (h form (List.mem_of_getElem? hform)).shrinks hdecode
    rw [length_encode_nat] at hfirst
    omega

end

theorem enumeration_steady [DecidableEq α] {values : List α} : (enumeration values).Steady := by
  refine forms_steady fun form hform => ?_
  obtain ⟨y, hy, rfl⟩ := List.mem_map.mp hform
  obtain ⟨i, _, hencode⟩ := encodeFrom_bare hy 0
  exact Form.steady_bare (0 + i) hencode

/-! ## Data -/

theorem datumUpTo_steady (n : Nat) : (datumUpTo n).Steady := by
  induction n with
  | zero => exact { frames := nofun, shrinks := nofun }
  | succ n ih =>
    refine forms_steady ?_
    simp only [List.forall_mem_cons]
    exact ⟨Form.steady_bare 0 rfl, Form.steady_of 1 (fun _ => rfl) bool_steady,
      Form.steady_of 2 (fun _ => rfl) int32_steady,
      Form.steady_of 3 (fun _ => rfl) int64_steady,
      Form.steady_of 4 (fun _ => rfl) double_steady,
      Form.steady_of 5 (fun _ => rfl) text_steady,
      Form.steady_of 6 (fun _ => rfl) (list_steady ih),
      Form.steady_of 7 (fun _ => rfl) (text_steady.pair (dict_steady ih)),
      fun _ h => absurd h List.not_mem_nil⟩

section
variable {c d : Codec α} (h : ∀ {input x rest}, c.decode input = some (x, rest) → d.decode input = some (x, rest))
include h

theorem list_widen {input rest : Bytes} {xs : List α} (hdecode : (list c).decode input = some (xs, rest)) :
    (list d).decode input = some (xs, rest) := by
  have hmany {count : Nat} {input rest : Bytes} {xs : List α} (hdecode : decodeMany c count input = some (xs, rest)) :
      decodeMany d count input = some (xs, rest) := by
    induction count generalizing input xs with
    | zero => exact hdecode
    | succ count ih =>
      obtain ⟨x, middle, ys, hx, hys, rfl⟩ := decodeMany_succ.mp hdecode
      exact decodeMany_succ.mpr ⟨x, middle, ys, h hx, ih hys, rfl⟩
  obtain ⟨count, middle, hcount, hdecode⟩ := list_eq_some.mp hdecode
  exact list_eq_some.mpr ⟨count, middle, hcount, hmany hdecode⟩

theorem pair_widen {k : Codec β} {input rest : Bytes} {p : β × α} (hdecode : (k.pair c).decode input = some (p, rest)) :
    (k.pair d).decode input = some (p, rest) := by
  obtain ⟨middle, hx, hy⟩ := Codec.Steady.pair_eq_some.mp hdecode
  exact Codec.Steady.pair_eq_some.mpr ⟨middle, hx, h hy⟩

theorem dict_widen {input rest : Bytes} {entries : Dict α} (hdecode : (dict c).decode input = some (entries, rest)) :
    (dict d).decode input = some (entries, rest) := by
  obtain ⟨list, hlist, hentries⟩ := dict_eq_some.mp hdecode
  exact dict_eq_some.mpr ⟨list, list_widen (pair_widen h) hlist, hentries⟩

end

theorem datumUpTo_widen_succ {n : Nat} {input rest : Bytes} {x : Datum}
    (hdecode : (datumUpTo n).decode input = some (x, rest)) : (datumUpTo (n + 1)).decode input = some (x, rest) := by
  induction n generalizing input x rest with
  | zero => cases hdecode
  | succ n ih =>
    obtain ⟨i, middle, form, hi, hform, hdecode⟩ := forms_eq_some.mp hdecode
    refine forms_eq_some.mpr ?_
    -- the last two forms hold data of a level less
    match i, hform with
    | 0, hform | 1, hform | 2, hform | 3, hform | 4, hform | 5, hform => exact ⟨_, middle, form, hi, hform, hdecode⟩
    | 6, hform =>
      cases hform
      obtain ⟨items, hitems, rfl⟩ := Form.of_eq_some.mp hdecode
      exact ⟨6, middle, _, hi, rfl, Form.of_eq_some.mpr ⟨items, list_widen ih hitems, rfl⟩⟩
    | 7, hform =>
      cases hform
      obtain ⟨object, hobject, rfl⟩ := Form.of_eq_some.mp hdecode
      exact ⟨7, middle, _, hi, rfl, Form.of_eq_some.mpr ⟨object, pair_widen (dict_widen ih) hobject, rfl⟩⟩

/-- With more levels a datum is read the same. -/
theorem datumUpTo_widen {n k : Nat} (hnk : n ≤ k) {input rest : Bytes} {x : Datum}
    (hdecode : (datumUpTo n).decode input = some (x, rest)) : (datumUpTo k).decode input = some (x, rest) := by
  induction hnk with
  | refl => exact hdecode
  | step _ ih => exact datumUpTo_widen_succ ih

theorem depthItems_le_of {n : Nat} {items : List Datum} (h : ∀ x ∈ items, x.depth ≤ n) : Datum.depthItems items ≤ n := by
  induction items with
  | nil => exact Nat.zero_le _
  | cons x rest ih =>
    obtain ⟨hx, hrest⟩ := List.forall_mem_cons.mp h
    exact Nat.max_le.mpr ⟨hx, ih hrest⟩

theorem depthFields_le_of {n : Nat} {fields : List (String × Datum)} (h : ∀ e ∈ fields, e.2.depth ≤ n) :
    Datum.depthFields fields ≤ n := by
  induction fields with
  | nil => exact Nat.zero_le _
  | cons e rest ih =>
    obtain ⟨hx, hrest⟩ := List.forall_mem_cons.mp h
    exact Nat.max_le.mpr ⟨hx, ih hrest⟩

/-- No more levels are read than were allowed. -/
theorem datumUpTo_depth {n : Nat} {input rest : Bytes} {x : Datum}
    (hdecode : (datumUpTo n).decode input = some (x, rest)) : x.depth ≤ n := by
  induction n generalizing input x rest with
  | zero => cases hdecode
  | succ n ih =>
    obtain ⟨i, middle, form, hi, hform, hdecode⟩ := forms_eq_some.mp hdecode
    match i, hform with
    | 0, hform | 1, hform | 2, hform | 3, hform | 4, hform | 5, hform =>
      cases hform
      obtain ⟨_, _, heq⟩ := Option.map_eq_some_iff.mp hdecode
      cases heq
      exact Nat.succ_le_succ (Nat.zero_le _)
    | 6, hform =>
      cases hform
      obtain ⟨items, hitems, rfl⟩ := Form.of_eq_some.mp hdecode
      exact Nat.succ_le_succ (depthItems_le_of (list_forall ih hitems))
    | 7, hform =>
      cases hform
      obtain ⟨object, hobject, rfl⟩ := Form.of_eq_some.mp hdecode
      obtain ⟨middle, _, hfields⟩ := Codec.Steady.pair_eq_some.mp hobject
      obtain ⟨entries, hentries, hfields⟩ := dict_eq_some.mp hfields
      have hread {input rest : Bytes} {e : String × Datum}
          (he : (text.pair (datumUpTo n)).decode input = some (e, rest)) : e.2.depth ≤ n := by
        obtain ⟨_, _, he⟩ := Codec.Steady.pair_eq_some.mp he
        exact ih he
      refine Nat.succ_le_succ (depthFields_le_of fun e he => ?_)
      exact list_forall hread hentries e (Dict.mem_of_mem_ofList (hfields ▸ he))

theorem datum_reads_self {x : Datum} (h : x.Ordered) : datum.Reads x x := by
  have hreads := datum_reads x
  rwa [h.canonical_eq] at hreads

theorem datum_steady : datum.Steady where
  frames {input x rest} hdecode more := by
    have hlevels : input.length + 1 ≤ (input ++ more).length + 1 := by
      rw [List.length_append]
      omega
    exact datumUpTo_widen hlevels ((datumUpTo_steady (input.length + 1)).frames hdecode more)
  shrinks {input x rest} hdecode := by
    have hdepth : x.depth ≤ input.length + 1 := datumUpTo_depth hdecode
    have hshrinks := (datumUpTo_steady (input.length + 1)).shrinks hdecode
    rw [datumUpTo_encode hdepth (Nat.le_refl _)] at hshrinks
    exact hshrinks

/-! ## What is known of what is read -/

/-- Whatever is read has the property. -/
def Codec.Yields (c : Codec α) (P : α → Prop) : Prop := ∀ input x rest, c.decode input = some (x, rest) → P x

namespace Codec.Yields
variable {c : Codec α} {d : Codec β} {P : α → Prop} {Q : β → Prop}

theorem any : c.Yields fun _ => True := fun _ _ _ _ => trivial

theorem map (h : c.Yields P) {make : α → β} {parts : β → α} (hmake : ∀ x, P x → Q (make x)) :
    (c.map make parts).Yields Q := by
  intro input y rest hdecode
  obtain ⟨⟨x, _⟩, hdecode, heq⟩ := Option.map_eq_some_iff.mp hdecode
  cases heq
  exact hmake x (h _ _ _ hdecode)

theorem pair (h : c.Yields P) (k : d.Yields Q) : (c.pair d).Yields fun p => P p.1 ∧ Q p.2 := by
  intro input p rest hdecode
  obtain ⟨middle, hx, hy⟩ := Steady.pair_eq_some.mp hdecode
  exact ⟨h _ _ _ hx, k _ _ _ hy⟩

theorem option (h : c.Yields P) : (option c).Yields fun o => ∀ x ∈ o, P x := by
  intro input o rest hdecode
  rcases option_eq_some hdecode with ⟨_, rfl⟩ | ⟨body, x, _, hbody, rfl⟩
  · nofun
  · rintro _ ⟨⟩
    exact h _ _ _ hbody

theorem list (h : c.Yields P) : (list c).Yields fun xs => ∀ x ∈ xs, P x :=
  fun _ _ _ => list_forall (h _ _ _)

theorem dict (h : c.Yields P) : (dict c).Yields fun entries => entries.Sorted ∧ ∀ e ∈ entries, P e.2 := by
  intro input entries rest hdecode
  obtain ⟨list, hlist, rfl⟩ := dict_eq_some.mp hdecode
  refine ⟨Dict.sorted_ofList list, fun e he => ?_⟩
  exact ((any.pair h).list _ _ _ hlist e (Dict.mem_of_mem_ofList he)).2

theorem keySet [Keyed α] : (keySet c).Yields KeySet.Sorted := by
  intro input s rest hdecode
  obtain ⟨list, _, rfl⟩ := keySet_eq_some.mp hdecode
  exact KeySet.sorted_ofList list

end Codec.Yields

/-- Whatever is read as a value of this form has the property. -/
def Form.Yields (form : Form α) (P : α → Prop) : Prop := ∀ input x rest, form.decode input = some (x, rest) → P x

theorem Form.yields_bare {P : α → Prop} {x : α} {isForm : α → Bool} (h : P x) : (Form.bare x isForm).Yields P := by
  intro input y rest hdecode
  cases hdecode
  exact h

theorem Form.yields_of {P : α → Prop} {Q : β → Prop} {c : Codec β} {make : β → α} {part? : α → Option β}
    (h : c.Yields Q) (hmake : ∀ p, Q p → P (make p)) : (Form.of c make part?).Yields P := by
  intro input x rest hdecode
  obtain ⟨p, hpart, rfl⟩ := Form.of_eq_some.mp hdecode
  exact hmake p (h _ _ _ hpart)

theorem Codec.Yields.forms {P : α → Prop} {fs : List (Form α)} (h : ∀ form ∈ fs, form.Yields P) : (forms fs).Yields P := by
  intro input x rest hdecode
  obtain ⟨i, middle, form, _, hform, hdecode⟩ := forms_eq_some.mp hdecode
  exact h form (List.mem_of_getElem? hform) _ _ _ hdecode

theorem datumUpTo_ordered (n : Nat) : (datumUpTo n).Yields Datum.Ordered := by
  induction n with
  | zero =>
    intro _ _ _ h
    cases h
  | succ n ih =>
    refine .forms ?_
    simp only [List.forall_mem_cons]
    exact ⟨Form.yields_bare trivial, Form.yields_of .any fun _ _ => trivial, Form.yields_of .any fun _ _ => trivial,
      Form.yields_of .any fun _ _ => trivial, Form.yields_of .any fun _ _ => trivial,
      Form.yields_of .any fun _ _ => trivial, Form.yields_of ih.list fun _ h => Datum.orderedItems_iff.mpr h,
      Form.yields_of (.pair .any ih.dict) fun _ h => ⟨h.2.1, Datum.orderedFields_iff.mpr h.2.2⟩,
      fun _ h => absurd h List.not_mem_nil⟩

/-- A datum that is read is in order. -/
theorem datum_ordered : datum.Yields Datum.Ordered := fun input => datumUpTo_ordered (input.length + 1) input

end Wire
end MobileCode
