import MobileCode.Proofs.Slots

/-! # Writing again

Of two values that are written at one slot the second one stays, and the order of writes at different slots does not
matter. So what is written once more, as a whole, changes nothing. A list of field variables is checked on parts of the
domain that no write touches: applied again it writes the same values up to the same variable, and ends alike.
-/
namespace MobileCode

/-! ## Dictionaries and heaps -/

namespace Dict
variable {β : Type}

theorem insert_insert (name : String) (x y : β) (d : Dict β) : insert name y (insert name x d) = insert name y d := by
  have hself (rest : Dict β) : insert name y ((name, x) :: rest) = (name, y) :: rest := by
    rw [insert, if_neg (String.lt_irrefl name), if_pos rfl]
  induction d with
  | nil => exact hself []
  | cons e rest ih =>
    obtain ⟨n, v⟩ := e
    by_cases hlt : name < n
    · simp only [insert, if_pos hlt, String.lt_irrefl, if_false, if_true]
    by_cases heq : name = n
    · subst heq
      simp only [insert, String.lt_irrefl, if_false, if_true]
    · simp only [insert, if_neg hlt, if_neg heq, ih]

/-- The one of two names that comes first is put in place first. -/
theorem insert_comm_of_lt {m n : String} (h : m < n) (x y : β) (d : Dict β) :
    insert m x (insert n y d) = insert n y (insert m x d) := by
  have hne : m ≠ n := fun he => String.lt_irrefl n (he ▸ h)
  have hback : ¬n < m := String.lt_asymm h
  induction d with
  | nil => simp only [insert, if_pos h, if_neg hback, if_neg hne.symm]
  | cons e rest ih =>
    obtain ⟨k, v⟩ := e
    by_cases hmk : m < k
    · by_cases hnk : n < k
      · simp only [insert, if_pos hmk, if_pos hnk, if_pos h, if_neg hback, if_neg hne.symm]
      by_cases hnk' : n = k
      · subst hnk'
        simp only [insert, if_pos h, if_neg hback, if_neg hne.symm, String.lt_irrefl, if_false, if_true]
      · simp only [insert, if_pos hmk, if_neg hnk, if_neg hnk', if_neg hback, if_neg hne.symm]
    by_cases hmk' : m = k
    · subst hmk'
      simp only [insert, if_neg hback, if_neg hne.symm, String.lt_irrefl, if_false, if_true]
    · have hnk : ¬n < k := fun hnk => hmk (String.lt_trans h hnk)
      have hnk' : n ≠ k := fun he => hmk (he ▸ h)
      simp only [insert, if_neg hmk, if_neg hmk', if_neg hnk, if_neg hnk', ih]

theorem insert_comm {m n : String} (h : m ≠ n) (x y : β) (d : Dict β) :
    insert m x (insert n y d) = insert n y (insert m x d) := by
  by_cases hlt : m < n
  · exact insert_comm_of_lt hlt x y d
  by_cases hgt : n < m
  · exact (insert_comm_of_lt hgt y x d).symm
  · exact absurd (String.le_antisymm (String.not_lt.mp hgt) (String.not_lt.mp hlt)) h

end Dict

namespace Heap

theorem ext_get? {h k : Heap} (hget : ∀ r, h.get? r = k.get? r) : h = k := by
  obtain ⟨xs⟩ := h
  obtain ⟨ys⟩ := k
  rw [Heap.mk.injEq]
  exact Array.ext_getElem? fun i => hget ⟨i⟩

theorem setField_setField (h : Heap) (r : Ref) (name : String) (x y : Value) :
    (h.setField r name x).setField r name y = h.setField r name y := by
  refine ext_get? fun s => ?_
  simp only [get?_setField]
  split
  · cases h.get? s with
    | none => rfl
    | some o => simp only [Option.map_some, Dict.insert_insert]
  · rfl

theorem setField_comm {r s : Ref} {m n : String} (hne : ¬(r = s ∧ m = n)) (h : Heap) (x y : Value) :
    (h.setField r m x).setField s n y = (h.setField s n y).setField r m x := by
  refine ext_get? fun k => ?_
  simp only [get?_setField]
  by_cases hr : r = k
  · by_cases hs : s = k
    · have hmn : m ≠ n := fun he => hne ⟨hr.trans hs.symm, he⟩
      simp only [if_pos hr, if_pos hs]
      cases h.get? k with
      | none => rfl
      | some o => simp only [Option.map_some, Dict.insert_comm hmn]
    · simp only [if_pos hr, if_neg hs]
  · simp only [if_neg hr]

end Heap

/-! ## Slots -/

namespace Domain

/-- The second of two values stays. -/
theorem put_put (d : Domain) (p : Slot) (x y : Value) : (d.put x p).put y p = d.put y p := by
  cases p with
  | field r name => simp only [put, Heap.setField_setField]
  | static type name => simp only [put, Dict.find?_insert, if_true, Option.getD_some, Dict.insert_insert]

theorem put_comm {p q : Slot} (h : p ≠ q) (d : Domain) (x y : Value) : (d.put x p).put y q = (d.put y q).put x p := by
  cases p with
  | field r m =>
    cases q with
    | field s n =>
      have hne : ¬(r = s ∧ m = n) := fun he => h (Slot.field.injEq .. ▸ he)
      simp only [put, Heap.setField_comm hne]
    | static type n => rfl
  | static type m =>
    cases q with
    | field s n => rfl
    | static type' n =>
      simp only [put, Dict.find?_insert]
      by_cases ht : type = type'
      · subst ht
        have hmn : m ≠ n := fun he => h (he ▸ rfl)
        simp only [if_true, Option.getD_some, Dict.insert_insert, Dict.insert_comm hmn]
      · simp only [if_neg ht, if_neg (Ne.symm ht), Dict.insert_comm ht]

/-- Writes values at slots, one after the other. -/
def putAll (d : Domain) (writes : List (Slot × Value)) : Domain := writes.foldl (fun d w => d.put w.2 w.1) d

variable {writes : List (Slot × Value)} {p : Slot}

theorem putAll_cons (d : Domain) (w : Slot × Value) (writes : List (Slot × Value)) :
    d.putAll (w :: writes) = (d.put w.2 w.1).putAll writes := rfl

/-- What other slots get may be written first. -/
theorem putAll_put_comm (h : p ∉ writes.map (·.1)) (d : Domain) (x : Value) :
    (d.put x p).putAll writes = (d.putAll writes).put x p := by
  induction writes generalizing d with
  | nil => rfl
  | cons w rest ih =>
    rw [List.map_cons, List.mem_cons, not_or] at h
    rw [putAll_cons, putAll_cons, put_comm h.1, ih h.2]

/-- A value does not outlast a later one at its slot. -/
theorem putAll_put (h : p ∈ writes.map (·.1)) (d : Domain) (x : Value) : (d.put x p).putAll writes = d.putAll writes := by
  induction writes generalizing d with
  | nil => cases h
  | cons w rest ih =>
    rw [putAll_cons, putAll_cons]
    by_cases hp : p = w.1
    · rw [hp, put_put]
    · rw [put_comm hp, ih (List.mem_of_ne_of_mem hp h)]

/-- Values do not outlast later ones at all their slots. -/
theorem putAll_putAll {first : List (Slot × Value)} (h : ∀ w ∈ first, w.1 ∈ writes.map (·.1)) (d : Domain) :
    (d.putAll first).putAll writes = d.putAll writes := by
  induction first generalizing d with
  | nil => rfl
  | cons w rest ih =>
    obtain ⟨hw, hrest⟩ := List.forall_mem_cons.mp h
    rw [putAll_cons, ih hrest, putAll_put hw]

theorem putAll_self (d : Domain) (writes : List (Slot × Value)) : (d.putAll writes).putAll writes = d.putAll writes :=
  putAll_putAll (fun _ hw => List.mem_map_of_mem hw) d

end Domain

/-! ## Lists of field variables -/

namespace Transfer
variable {ω : Type} {target : Option Ref} {d e : Domain}

/-- The writes of field variables up to the first one that is refused, and whether one is. -/
def writes (target : Option Ref) (d : Domain) : List (Variable Value) → List (Slot × Value) × Except Error Unit
  | [] => ([], .ok ())
  | v :: rest =>
    match v.destination d target with
    | .ok p => ((p, v.value) :: (writes target d rest).1, (writes target d rest).2)
    | .error refusal => ([], .error refusal)

theorem writes_conforms (h : d.Conforms e) (vs : List (Variable Value)) : writes target e vs = writes target d vs := by
  induction vs with
  | nil => rfl
  | cons v rest ih => rw [writes, writes, Variable.destination_conforms h, ih]

/-- To write changes nothing that the check of a later write depends on. -/
theorem conforms_putAll {vs : List (Variable Value)} (hfields : ∀ v ∈ vs, v.kind = .field) (d : Domain) :
    d.Conforms (d.putAll (writes target d vs).1) := by
  induction vs generalizing d with
  | nil => exact .refl d
  | cons v rest ih =>
    obtain ⟨hkind, hfields⟩ := List.forall_mem_cons.mp hfields
    rw [writes]
    cases hv : v.destination d target with
    | error refusal => exact .refl d
    | ok p =>
      have hput := Domain.conforms_put (Variable.source_eq_ok hkind (Variable.destination_eq_ok hv).2).1 v.value
      refine hput.trans ?_
      rw [← writes_conforms hput]
      exact ih hfields _

theorem apply_writes (host : Host ω) (run : Runner ω) (target : Option Ref) {vs : List (Variable Value)}
    (hfields : ∀ v ∈ vs, v.kind = .field) (s : State ω) : apply host run target vs s =
      some ((writes target s.domain vs).2, { s with domain := s.domain.putAll (writes target s.domain vs).1 }) := by
  induction vs generalizing s with
  | nil => rfl
  | cons v rest ih =>
    obtain ⟨hkind, hfields⟩ := List.forall_mem_cons.mp hfields
    rw [writes]
    cases hv : v.destination s.domain target with
    | error refusal => exact apply_refused host run target s hkind hv rest
    | ok p =>
      have hput := Domain.conforms_put (Variable.source_eq_ok hkind (Variable.destination_eq_ok hv).2).1 v.value
      rw [apply, Run.bind_apply, unlessUnavailable_apply, Variable.copyTo_field host run s hkind, hv]
      have hrest := ih hfields { s with domain := s.domain.put v.value p }
      rw [writes_conforms hput] at hrest
      exact hrest

/-- Field variables that are applied again end as they did, and leave everything as it is. -/
theorem apply_again (host : Host ω) (run : Runner ω) (target : Option Ref) {vs : List (Variable Value)}
    (hfields : ∀ v ∈ vs, v.kind = .field) (s : State ω) : ∃ outcome t,
      apply host run target vs s = some (outcome, t) ∧ apply host run target vs t = some (outcome, t) := by
  refine ⟨_, _, apply_writes host run target hfields s, ?_⟩
  rw [apply_writes host run target hfields]
  simp only [writes_conforms (conforms_putAll hfields s.domain), Domain.putAll_self]

end Transfer

/-- A module with a number in each object and one for all of them. -/
def scoreboard : Module Datum where
  name := "Scoreboard"
  types := [{
    space := "Ops"
    name := "Scoreboard"
    fields := [⟨"count", TypeName.int32, .none, some (.int32 1)⟩, ⟨"total", TypeName.int32, MemberFlags.static, none⟩] }]

namespace scoreboard

def host : Host Unit := { thread := none, natives := Native.standard none }

/-- Two values for one number, one for the other, and a member that is not declared in front of a third one. -/
def received : List (Variable Value) :=
  [⟨.field, "count", "Ops.Scoreboard", TypeName.int32, .int32 2, false⟩,
    ⟨.field, "total", "Ops.Scoreboard", TypeName.int32, .int32 5, true⟩,
    ⟨.field, "count", "Ops.Scoreboard", TypeName.int32, .int32 3, false⟩,
    ⟨.field, "limit", "Ops.Scoreboard", TypeName.int32, .int32 9, false⟩,
    ⟨.field, "count", "Ops.Scoreboard", TypeName.int32, .int32 4, false⟩]

end scoreboard

open Transfer scoreboard in
theorem scoreboard_settled : ∃ l d r s e t, Domain.register { hostName := "client" } scoreboard [] none = .ok (l, d) ∧
    State.alloc ⟨"Ops.Scoreboard", [("count", .int32 1)]⟩ ⟨d, ()⟩ = some (.ok r, s) ∧ (∀ v ∈ received, v.kind = .field) ∧
    apply host (fun _ => Run.outOfBudget) (some r) received s = some (.error e, t) ∧
    t.domain.at? (.field r "count") = some (.int32 3) ∧
    t.domain.at? (.static "Ops.Scoreboard" "total") = some (.int32 5) ∧
    apply host (fun _ => Run.outOfBudget) (some r) received t = some (.error e, t) := by
  obtain ⟨l, d, r, s, e, t, hd, hs, happly, hcount, htotal⟩ : ∃ l d r s e t,
      Domain.register { hostName := "client" } scoreboard [] none = .ok (l, d) ∧
      State.alloc ⟨"Ops.Scoreboard", [("count", .int32 1)]⟩ ⟨d, ()⟩ = some (.ok r, s) ∧
      apply host (fun _ => Run.outOfBudget) (some r) received s = some (.error e, t) ∧
      t.domain.at? (.field r "count") = some (.int32 3) ∧
      t.domain.at? (.static "Ops.Scoreboard" "total") = some (.int32 5) := ⟨_, _, _, _, _, _, rfl, rfl, rfl, rfl, rfl⟩
  have hfields : ∀ v ∈ received, v.kind = .field := by simp [received]
  obtain ⟨outcome, u, honce, hagain⟩ := apply_again host (fun _ => Run.outOfBudget) (some r) hfields s
  cases honce.symm.trans happly
  exact ⟨l, d, r, s, e, t, hd, hs, hfields, happly, hcount, htotal, hagain⟩

end MobileCode
