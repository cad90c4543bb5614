import MobileCode.Dict
import MobileCode.KeySet

/-! # Sorted dictionaries and sets

Insertion keeps dictionaries and sets in ascending order, so what is made from a list by insertion is sorted and holds
nothing but elements of the list. What is sorted already is left as it is.
-/
namespace MobileCode

namespace Dict
variable {β : Type}

theorem mem_of_mem_insert {name : String} {value : β} {d : Dict β} {e : String × β} (h : e ∈ insert name value d) :
    e = (name, value) ∨ e ∈ d := by
  induction d with
  | nil => exact .inl (List.mem_singleton.mp h)
  | cons x d ih =>
    unfold insert at h
    split at h
    · exact List.mem_cons.mp h
    · split at h
      · exact (List.mem_cons.mp h).imp_right (List.mem_cons_of_mem x)
      · rcases List.mem_cons.mp h with rfl | h
        · exact .inr List.mem_cons_self
        · exact (ih h).imp_right (List.mem_cons_of_mem x)

theorem Sorted.insert {name : String} {value : β} {d : Dict β} (h : d.Sorted) : (insert name value d).Sorted := by
  induction d with
  | nil => exact List.pairwise_singleton _ _
  | cons x d ih =>
    obtain ⟨hx, hd⟩ := List.pairwise_cons.mp h
    unfold Dict.insert
    split
    · rename_i hlt
      refine List.pairwise_cons.mpr ⟨fun e he => ?_, h⟩
      rcases List.mem_cons.mp he with rfl | he
      · exact hlt
      · exact String.lt_trans hlt (hx e he)
    · rename_i hnot
      split
      · rename_i heq
        subst heq
        exact List.pairwise_cons.mpr ⟨hx, hd⟩
      · rename_i hne
        refine List.pairwise_cons.mpr ⟨fun e he => ?_, ih hd⟩
        rcases mem_of_mem_insert he with rfl | he
        · exact Decidable.byContradiction fun hge => hne (String.le_antisymm (String.not_lt.mp hge) (String.not_lt.mp hnot))
        · exact hx e he

theorem sorted_ofList (entries : List (String × β)) : (ofList entries).Sorted := by
  suffices ∀ d : Dict β, d.Sorted → (entries.foldl (fun d e => insert e.1 e.2 d) d).Sorted from this [] List.Pairwise.nil
  induction entries with
  | nil => exact fun d hd => hd
  | cons e entries ih => exact fun d hd => ih _ hd.insert

theorem mem_of_mem_ofList {entries : List (String × β)} {e : String × β} (h : e ∈ ofList entries) : e ∈ entries := by
  suffices ∀ d : Dict β, e ∈ entries.foldl (fun d e => insert e.1 e.2 d) d → e ∈ d ∨ e ∈ entries from
    (this [] h).resolve_left List.not_mem_nil
  clear h
  induction entries with
  | nil => exact fun d h => .inl h
  | cons x entries ih =>
    intro d h
    rcases ih _ h with h | h
    · rcases mem_of_mem_insert h with rfl | h
      · exact .inr List.mem_cons_self
      · exact .inl h
    · exact .inr (List.mem_cons_of_mem x h)

theorem length_flatMap_insert {γ : Type} (f : String × β → List γ) (name : String) (value : β) (d : Dict β) :
    ((insert name value d).flatMap f).length ≤ (f (name, value)).length + (d.flatMap f).length := by
  induction d with
  | nil =>
    rw [insert, List.flatMap_singleton]
    exact Nat.le_add_right _ _
  | cons x d ih =>
    obtain ⟨n, v⟩ := x
    unfold insert
    split
    · exact Nat.le_of_eq (by rw [List.flatMap_cons, List.length_append])
    · split
      · rw [List.flatMap_cons, List.flatMap_cons, List.length_append, List.length_append]
        omega
      · rw [List.flatMap_cons, List.flatMap_cons, List.length_append, List.length_append]
        omega

theorem length_flatMap_ofList {γ : Type} (f : String × β → List γ) (entries : List (String × β)) :
    ((ofList entries).flatMap f).length ≤ (entries.flatMap f).length := by
  suffices ∀ d : Dict β, ((entries.foldl (fun d e => insert e.1 e.2 d) d).flatMap f).length ≤
      (d.flatMap f).length + (entries.flatMap f).length from
    Nat.le_trans (this []) (Nat.le_of_eq (Nat.zero_add _))
  induction entries with
  | nil => exact fun d => Nat.le_add_right _ _
  | cons x entries ih =>
    intro d
    obtain ⟨n, v⟩ := x
    have hinsert := length_flatMap_insert f n v d
    have hrest := ih (insert n v d)
    rw [List.foldl_cons, List.flatMap_cons, List.length_append]
    refine Nat.le_trans hrest ?_
    omega

/-- An entry behind all others is put at the end. -/
theorem insert_last {name : String} {value : β} {d : Dict β} (h : ∀ e ∈ d, e.1 < name) :
    insert name value d = d ++ [(name, value)] := by
  induction d with
  | nil => rfl
  | cons x d ih =>
    obtain ⟨hx, hd⟩ := List.forall_mem_cons.mp h
    have hne : name ≠ x.1 := fun heq => String.lt_irrefl _ (heq ▸ hx)
    unfold insert
    rw [if_neg (String.lt_asymm hx), if_neg hne, ih hd, List.cons_append]

theorem Sorted.ofList_eq {d : Dict β} (h : d.Sorted) : ofList d = d := by
  suffices ∀ front : Dict β, (front ++ d).Sorted → d.foldl (fun d e => Dict.insert e.1 e.2 d) front = front ++ d from
    this [] h
  clear h
  induction d with
  | nil => exact fun front _ => (List.append_nil front).symm
  | cons x d ih =>
    intro front h
    have hlast : Dict.insert x.1 x.2 front = front ++ [x] :=
      insert_last fun e he => (List.pairwise_append.mp h).2.2 e he x List.mem_cons_self
    rw [List.append_cons] at h ⊢
    rw [List.foldl_cons, hlast]
    exact ih _ h

end Dict

namespace KeySet
variable {α : Type} [Keyed α]

theorem mem_of_mem_insert {x y : α} {s : KeySet α} (h : y ∈ insert x s) : y = x ∨ y ∈ s := by
  induction s with
  | nil => exact .inl (List.mem_singleton.mp h)
  | cons z s ih =>
    unfold insert at h
    split at h
    · exact List.mem_cons.mp h
    · split at h
      · exact .inr h
      · rcases List.mem_cons.mp h with rfl | h
        · exact .inr List.mem_cons_self
        · exact (ih h).imp_right (List.mem_cons_of_mem z)

theorem Sorted.insert {x : α} {s : KeySet α} (h : s.Sorted) : (insert x s).Sorted := by
  induction s with
  | nil => exact List.pairwise_singleton _ _
  | cons z s ih =>
    obtain ⟨hz, hs⟩ := List.pairwise_cons.mp h
    unfold KeySet.insert
    split
    · rename_i hlt
      refine List.pairwise_cons.mpr ⟨fun y hy => ?_, h⟩
      rcases List.mem_cons.mp hy with rfl | hy
      · exact hlt
      · exact List.lt_trans hlt (hz y hy)
    · rename_i hnot
      split
      · exact h
      · rename_i hne
        refine List.pairwise_cons.mpr ⟨fun y hy => ?_, ih hs⟩
        rcases mem_of_mem_insert hy with rfl | hy
        · exact Decidable.byContradiction fun hge => hne (List.le_antisymm (List.not_lt.mp hge) (List.not_lt.mp hnot))
        · exact hz y hy

theorem sorted_ofList (xs : List α) : (ofList xs).Sorted := by
  suffices ∀ s : KeySet α, s.Sorted → (xs.foldl (fun s x => insert x s) s).Sorted from this [] List.Pairwise.nil
  induction xs with
  | nil => exact fun s hs => hs
  | cons x xs ih => exact fun s hs => ih _ hs.insert

theorem mem_of_mem_ofList {xs : List α} {y : α} (h : y ∈ ofList xs) : y ∈ xs := by
  suffices ∀ s : KeySet α, y ∈ xs.foldl (fun s x => insert x s) s → y ∈ s ∨ y ∈ xs from
    (this [] h).resolve_left List.not_mem_nil
  clear h
  induction xs with
  | nil => exact fun s h => .inl h
  | cons x xs ih =>
    intro s h
    rcases ih _ h with h | h
    · rcases mem_of_mem_insert h with rfl | h
      · exact .inr List.mem_cons_self
      · exact .inl h
    · exact .inr (List.mem_cons_of_mem x h)

theorem length_flatMap_insert {γ : Type} (f : α → List γ) (x : α) (s : KeySet α) :
    ((insert x s).flatMap f).length ≤ (f x).length + (s.flatMap f).length := by
  induction s with
  | nil =>
    rw [insert, List.flatMap_singleton]
    exact Nat.le_add_right _ _
  | cons y s ih =>
    unfold insert
    split
    · exact Nat.le_of_eq (by rw [List.flatMap_cons, List.length_append])
    · split
      · exact Nat.le_add_left _ _
      · rw [List.flatMap_cons, List.flatMap_cons, List.length_append, List.length_append]
        omega

theorem length_flatMap_ofList {γ : Type} (f : α → List γ) (xs : List α) :
    ((ofList xs).flatMap f).length ≤ (xs.flatMap f).length := by
  suffices ∀ s : KeySet α, ((xs.foldl (fun s x => insert x s) s).flatMap f).length ≤
      (s.flatMap f).length + (xs.flatMap f).length from
    Nat.le_trans (this []) (Nat.le_of_eq (Nat.zero_add _))
  induction xs with
  | nil => exact fun s => Nat.le_add_right _ _
  | cons x xs ih =>
    intro s
    have hinsert := length_flatMap_insert f x s
    have hrest := ih (insert x s)
    rw [List.foldl_cons, List.flatMap_cons, List.length_append]
    omega

/-- An element behind all others is put at the end. -/
theorem insert_last {x : α} {s : KeySet α} (h : ∀ y ∈ s, Keyed.key y < Keyed.key x) : insert x s = s ++ [x] := by
  induction s with
  | nil => rfl
  | cons y s ih =>
    obtain ⟨hy, hs⟩ := List.forall_mem_cons.mp h
    have hne : Keyed.key x ≠ Keyed.key y := fun heq => List.lt_irrefl _ (heq ▸ hy)
    unfold insert
    rw [if_neg (List.lt_asymm hy), if_neg hne, ih hs, List.cons_append]

theorem Sorted.ofList_eq {s : KeySet α} (h : s.Sorted) : ofList s = s := by
  suffices ∀ front : KeySet α, (front ++ s).Sorted → s.foldl (fun s x => KeySet.insert x s) front = front ++ s from
    this [] h
  clear h
  induction s with
  | nil => exact fun front _ => (List.append_nil front).symm
  | cons x s ih =>
    intro front h
    have hlast : KeySet.insert x front = front ++ [x] :=
      insert_last fun y hy => (List.pairwise_append.mp h).2.2 y hy x List.mem_cons_self
    rw [List.append_cons] at h ⊢
    rw [List.foldl_cons, hlast]
    exact ih _ h

end KeySet

end MobileCode
