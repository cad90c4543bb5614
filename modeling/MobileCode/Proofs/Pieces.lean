import Mathlib.Data.List.Basic
import MobileCode.Text.Blank

/-! # Pieces of a text

A text is made up in one way only of pieces without the separator. These are no longer than the text, and a text without
the separator is a piece of its own.
-/
namespace MobileCode.Text

theorem splitChars_self {sep : Char} {piece : List Char} (h : sep ∉ piece) : splitChars sep piece = [piece] := by
  induction piece with
  | nil => rfl
  | cons c rest ih =>
    obtain ⟨hc, hrest⟩ := not_or.mp (List.mem_cons.not.mp h)
    rw [splitChars, if_neg (Ne.symm hc), ih hrest]

theorem splitChars_append {sep : Char} {piece : List Char} (h : sep ∉ piece) (rest : List Char) :
    splitChars sep (piece ++ sep :: rest) = piece :: splitChars sep rest := by
  induction piece with
  | nil => rw [List.nil_append, splitChars, if_pos rfl]
  | cons c piece ih =>
    obtain ⟨hc, hpiece⟩ := not_or.mp (List.mem_cons.not.mp h)
    rw [List.cons_append, splitChars, if_neg (Ne.symm hc), ih hpiece]

theorem splitChars_intercalate {sep : Char} {pieces : List (List Char)} (hsome : pieces ≠ [])
    (h : ∀ piece ∈ pieces, sep ∉ piece) : splitChars sep ([sep].intercalate pieces) = pieces := by
  induction pieces with
  | nil => exact absurd rfl hsome
  | cons piece pieces ih =>
    obtain ⟨hpiece, hpieces⟩ := List.forall_mem_cons.mp h
    cases pieces with
    | nil => rw [List.intercalate_singleton, splitChars_self hpiece]
    | cons next pieces =>
      rw [List.intercalate_cons_cons, List.append_assoc, List.singleton_append, splitChars_append hpiece,
        ih (List.cons_ne_nil _ _) hpieces]

/-- Pieces without the separator are told apart again. -/
theorem split_intercalate {sep : Char} {pieces : List String} (hsome : pieces ≠ [])
    (h : ∀ piece ∈ pieces, sep ∉ piece.toList) : split sep (String.intercalate (String.singleton sep) pieces) = pieces := by
  have hchars : ∀ piece ∈ pieces.map String.toList, sep ∉ piece := List.forall_mem_map.mpr h
  rw [split, String.toList_intercalate, String.toList_singleton,
    splitChars_intercalate (fun hnil => hsome (List.map_eq_nil_iff.mp hnil)) hchars, List.map_map]
  exact List.map_id'' (fun _ => String.ofList_toList) pieces

theorem splitChars_ne_nil (sep : Char) (text : List Char) : splitChars sep text ≠ [] := by
  cases text with
  | nil => exact List.cons_ne_nil _ _
  | cons c rest =>
    rw [splitChars]
    split
    · exact List.cons_ne_nil _ _
    · split <;> exact List.cons_ne_nil _ _

theorem splitChars_cons {sep c : Char} (h : c ≠ sep) (rest : List Char) :
    ∃ piece pieces, splitChars sep rest = piece :: pieces ∧ splitChars sep (c :: rest) = (c :: piece) :: pieces := by
  obtain ⟨piece, pieces, hrest⟩ := List.exists_cons_of_ne_nil (splitChars_ne_nil sep rest)
  refine ⟨piece, pieces, hrest, ?_⟩
  rw [splitChars, if_neg h, hrest]

theorem intercalate_splitChars (sep : Char) (text : List Char) : [sep].intercalate (splitChars sep text) = text := by
  induction text with
  | nil => rfl
  | cons c rest ih =>
    by_cases hc : c = sep
    · obtain ⟨piece, pieces, hrest⟩ := List.exists_cons_of_ne_nil (splitChars_ne_nil sep rest)
      rw [splitChars, if_pos hc, hrest, List.intercalate_cons_cons, ← hrest, ih, hc]
      rfl
    · obtain ⟨piece, pieces, hrest, hall⟩ := splitChars_cons hc rest
      rw [hall]
      rw [hrest] at ih
      cases pieces with
      | nil =>
        rw [List.intercalate_singleton] at ih ⊢
        rw [ih]
      | cons next pieces =>
        rw [List.intercalate_cons_cons] at ih ⊢
        rw [List.append_assoc, List.cons_append, ← List.append_assoc, ih]

theorem not_mem_of_mem_splitChars {sep : Char} {text piece : List Char} (h : piece ∈ splitChars sep text) :
    sep ∉ piece := by
  induction text generalizing piece with
  | nil =>
    rw [List.mem_singleton.mp h]
    exact List.not_mem_nil
  | cons c rest ih =>
    by_cases hc : c = sep
    · rw [splitChars, if_pos hc] at h
      obtain rfl | h := List.mem_cons.mp h
      · exact List.not_mem_nil
      · exact ih h
    · obtain ⟨first, pieces, hrest, hall⟩ := splitChars_cons hc rest
      rw [hall] at h
      rw [hrest] at ih
      obtain rfl | h := List.mem_cons.mp h
      · exact List.not_mem_cons_of_ne_of_not_mem (Ne.symm hc) (ih List.mem_cons_self)
      · exact ih (List.mem_cons_of_mem _ h)

theorem split_self {sep : Char} {text : String} (h : sep ∉ text.toList) : split sep text = [text] := by
  rw [split, splitChars_self h, List.map_singleton, String.ofList_toList]

theorem not_mem_of_mem_split {sep : Char} {text piece : String} (h : piece ∈ split sep text) : sep ∉ piece.toList := by
  obtain ⟨chars, hchars, rfl⟩ := List.mem_map.mp h
  rw [String.toList_ofList]
  exact not_mem_of_mem_splitChars hchars

/-- The pieces of a text are the only texts without the separator that make it up. -/
theorem split_eq_iff {sep : Char} {text : String} {pieces : List String} : split sep text = pieces ↔
    pieces ≠ [] ∧ (∀ piece ∈ pieces, sep ∉ piece.toList) ∧ String.intercalate (String.singleton sep) pieces = text := by
  constructor
  · rintro rfl
    refine ⟨fun hnil => splitChars_ne_nil sep _ (List.map_eq_nil_iff.mp hnil), fun _ => not_mem_of_mem_split, ?_⟩
    have hpieces : (split sep text).map String.toList = splitChars sep text.toList := by
      rw [split, List.map_map]
      exact List.map_id'' (fun _ => String.toList_ofList) _
    rw [← String.toList_inj, String.toList_intercalate, String.toList_singleton, hpieces, intercalate_splitChars]
  · rintro ⟨hsome, hclean, rfl⟩
    exact split_intercalate hsome hclean

theorem length_le_of_mem_splitChars {sep : Char} {text piece : List Char} (h : piece ∈ splitChars sep text) :
    piece.length ≤ text.length := by
  induction text generalizing piece with
  | nil =>
    obtain rfl := List.mem_singleton.mp h
    exact Nat.le_refl 0
  | cons c rest ih =>
    by_cases hc : c = sep
    · rw [splitChars, if_pos hc] at h
      obtain rfl | h := List.mem_cons.mp h
      · exact Nat.zero_le _
      · exact Nat.le_succ_of_le (ih h)
    · obtain ⟨first, pieces, hrest, hall⟩ := splitChars_cons hc rest
      rw [hall] at h
      rw [hrest] at ih
      obtain rfl | h := List.mem_cons.mp h
      · exact Nat.succ_le_succ (ih List.mem_cons_self)
      · exact Nat.le_succ_of_le (ih (List.mem_cons_of_mem _ h))

theorem length_le_of_mem_split {sep : Char} {text piece : String} (h : piece ∈ split sep text) :
    piece.length ≤ text.length := by
  obtain ⟨chars, hchars, rfl⟩ := List.mem_map.mp h
  rw [← String.length_toList, ← String.length_toList, String.toList_ofList]
  exact length_le_of_mem_splitChars hchars

end MobileCode.Text
