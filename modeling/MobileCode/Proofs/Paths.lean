import Mathlib.Data.String.Basic
import MobileCode.Proofs.Pieces
import MobileCode.Proofs.Sandboxes

/-! # Path names

A path name that can be used names one place, whatever is on the disk. A name below a directory names the entry of that
name at the place of the directory.
-/
namespace MobileCode

/-! ## Components -/

section
open String

theorem splitOnAux_slash (l m r : List Char) (acc : List String) :
    splitOnAux (ofList (l ++ m ++ r)) "/" ⟨utf8Len l⟩ ⟨utf8Len l + utf8Len m⟩ 0 acc =
      acc.reverse ++ (List.splitOnPPrepend (· == '/') r m.reverse).map ofList := by
  have hback (p : Pos.Raw) : p.unoffsetBy 0 = p := rfl
  induction r generalizing l m acc with
  | nil =>
    have hatEnd := (atEnd_of_valid (l ++ m) []).mpr rfl
    rw [utf8Len_append] at hatEnd
    rw [splitOnAux, if_pos hatEnd]
    have hextract := extract_of_valid l m []
    simpa [-ofList_append] using hextract
  | cons c r ih =>
    have hinside : ¬Pos.Raw.atEnd (ofList (l ++ m ++ c :: r)) ⟨utf8Len l + utf8Len m⟩ = true := by
      have hatEnd := atEnd_of_valid (l ++ m) (c :: r)
      rw [utf8Len_append] at hatEnd
      exact fun h => List.cons_ne_nil c r (hatEnd.mp h)
    have hget : Pos.Raw.get (ofList (l ++ m ++ c :: r)) ⟨utf8Len l + utf8Len m⟩ = c := by
      simpa [-ofList_append] using get_of_valid (l ++ m) (c :: r)
    have hnext : Pos.Raw.next (ofList (l ++ m ++ c :: r)) ⟨utf8Len l + utf8Len m⟩ =
        ⟨utf8Len l + utf8Len m + c.utf8Size⟩ := by
      simpa [-ofList_append] using next_of_valid (l ++ m) c r
    have hslash : Pos.Raw.get "/" 0 = '/' := by decide
    rw [splitOnAux, if_neg hinside, hget, hslash, hback, hnext, List.splitOnPPrepend_cons_eq_if]
    split
    · rename_i hc
      obtain rfl := eq_of_beq hc
      have hend : Pos.Raw.atEnd "/" (Pos.Raw.next "/" 0) = true := by decide
      have hone : (⟨utf8Len l + utf8Len m + '/'.utf8Size⟩ : Pos.Raw).unoffsetBy (Pos.Raw.next "/" 0) =
          ⟨utf8Len l + utf8Len m⟩ := by
        show (⟨utf8Len l + utf8Len m + 1 - 1⟩ : Pos.Raw) = _
        rw [Nat.add_sub_cancel]
      have hrest := ih (l ++ m ++ ['/']) [] (ofList m :: acc)
      have hlen : utf8Len (l ++ m ++ ['/']) = utf8Len l + utf8Len m + '/'.utf8Size := by
        rw [utf8Len_append, utf8Len_append, utf8Len_cons, utf8Len_nil, Nat.zero_add]
      rw [List.append_nil, List.append_assoc, List.singleton_append, utf8Len_nil, Nat.add_zero, hlen] at hrest
      dsimp only
      rw [if_pos hend, hone, extract_of_valid l m ('/' :: r), hrest, List.reverse_cons, List.append_assoc, List.map_cons,
        List.reverse_reverse]
      rfl
    · have hrest := ih l (m ++ [c]) acc
      rw [List.reverse_append, utf8Len_append, utf8Len_cons, utf8Len_nil, Nat.zero_add, ← Nat.add_assoc,
        ← List.append_assoc, List.append_assoc, List.singleton_append] at hrest
      exact hrest

/-- A path name is cut at its slashes. -/
theorem splitOn_slash (s : String) : s.splitOn "/" = (s.toList.splitOnP (· == '/')).map ofList := by
  have h := splitOnAux_slash [] [] s.toList []
  rw [String.splitOn, if_neg (by decide)]
  simpa using h

theorem splitOn_empty : "".splitOn "/" = [""] := by
  rw [splitOn_slash]
  rfl

theorem splitOn_append_slash (s t : String) : (s ++ "/" ++ t).splitOn "/" = s.splitOn "/" ++ t.splitOn "/" := by
  have hslash : "/".toList = ['/'] := rfl
  rw [splitOn_slash, splitOn_slash, splitOn_slash, toList_append, toList_append, hslash, List.append_assoc,
    List.singleton_append, List.splitOnP_append_cons _ _ rfl, List.map_append]

end

/-- The name of an entry: a single component that leads neither back nor nowhere. -/
structure IsEntryName (name : String) : Prop where
  nonempty : name ≠ ""
  notHere : name ≠ "."
  notUp : name ≠ ".."
  single : '/' ∉ name.toList

/-- The names that are the last components of themselves are those of entries. -/
theorem isPlainFileName_iff {name : String} : isPlainFileName name = true ↔ IsEntryName name := by
  simp only [isPlainFileName, Bool.and_eq_true, Bool.not_eq_true', bne_iff_ne, String.isEmpty_eq_false_iff,
    decide_eq_true_eq]
  constructor
  · rintro ⟨⟨⟨hempty, hhere⟩, hup⟩, hname⟩
    obtain ⟨hfound, _⟩ := Option.filter_eq_some_iff.mp hname
    exact ⟨hempty, hhere, hup, Text.not_mem_of_mem_split (List.mem_reverse.mp (List.mem_of_find?_eq_some hfound))⟩
  · rintro ⟨hempty, hhere, hup, hsingle⟩
    refine ⟨⟨⟨hempty, hhere⟩, hup⟩, ?_⟩
    rw [fileName?, Text.split_self hsingle]
    simp [hempty, hhere, hup]

theorem slash_not_mem {name : String} (h : isPlainFileName name = true) : '/' ∉ name.toList :=
  (isPlainFileName_iff.mp h).single

theorem startsWith_slash {name : String} (h : isPlainFileName name = true) : name.startsWith "/" = false := by
  rw [String.startsWith_string_eq_false_iff]
  exact fun hslash => slash_not_mem h (hslash.subset List.mem_cons_self)

/-- The name is one component. -/
theorem splitOn_of_plain {name : String} (h : isPlainFileName name = true) : name.splitOn "/" = [name] := by
  rw [splitOn_slash, List.splitOnP_eq_singleton]
  · simp
  · intro c hc
    exact beq_eq_false_iff_ne.mpr fun he => slash_not_mem h (he ▸ hc)

/-- A name below a name. -/
theorem joinPath_plain {directory name : String} (hdirectory : isPlainFileName directory = true)
    (hname : isPlainFileName name = true) : joinPath directory name = directory ++ "/" ++ name := by
  have hempty : directory.isEmpty = false :=
    String.isEmpty_eq_false_iff.mpr (isPlainFileName_iff.mp hdirectory).nonempty
  have hends : directory.endsWith "/" = false := by
    rw [← String.endsWith_toSlice, String.Slice.endsWith_string_eq_false_iff, String.copy_toSlice]
    exact fun hslash => slash_not_mem hdirectory (hslash.subset List.mem_cons_self)
  rw [joinPath, startsWith_slash hname, hempty, hends]
  rfl

namespace FileTree
variable {t : FileTree} {path directory name : String} {p q : Place}

/-- Where a component leads if there is something of that name. -/
def towards (p : Place) (component : String) : Place :=
  if component = "" || component = "." then p
  else if component = ".." then p.dropLast
  else p ++ [component]

/-- The place that a path name names if it can be used. -/
def placeOf (t : FileTree) (path : String) : Place := (path.splitOn "/").foldl towards (t.start path)

theorem stepTo_towards {component : String} (h : t.stepTo p component = some q) : q = towards p component := by
  unfold stepTo at h
  unfold towards
  split at h
  · rw [if_pos ‹_›]
    exact (Option.some.inj h).symm
  rw [if_neg ‹_›]
  split at h
  · rw [if_pos ‹_›]
    exact (Option.some.inj h).symm
  rw [if_neg ‹_›]
  dsimp only at h
  split at h
  · exact (Option.some.inj h).symm
  · cases h

theorem locate?_place (h : t.locate? path = some (p, name)) : p ++ [name] = t.placeOf path := by
  have hwalk (components : List String) {p q : Place} (hq : components.foldlM t.stepTo p = some q) :
      q = components.foldl towards p := by
    induction components generalizing p with
    | nil => exact (Option.some.inj hq).symm
    | cons c rest ih =>
      rw [List.foldlM_cons, Option.bind_eq_bind, Option.bind_eq_some_iff] at hq
      obtain ⟨p', hp', hq⟩ := hq
      rw [List.foldl_cons, ← stepTo_towards hp']
      exact ih hq
  unfold locate? at h
  split at h
  · cases h
  rename_i last front hsplit
  split at h
  · cases h
  rename_i husable
  obtain ⟨_, hp, hx⟩ := Option.map_eq_some_iff.mp h
  cases hx
  have hcomponents : path.splitOn "/" = front.reverse ++ [name] := by
    rw [← List.reverse_reverse (path.splitOn "/"), hsplit, List.reverse_cons]
  have hname : towards p name = p ++ [name] := by
    simp only [Bool.or_eq_true, decide_eq_true_eq, not_or] at husable
    obtain ⟨⟨⟨hempty, hdot⟩, hdots⟩, _⟩ := husable
    simp [towards, hempty, hdot, hdots]
  rw [placeOf, hcomponents, List.foldl_append, ← hwalk _ hp]
  exact hname.symm

theorem towards_plain (h : isPlainFileName name = true) (p : Place) : towards p name = p ++ [name] := by
  obtain ⟨hempty, hdot, hdots, _⟩ := isPlainFileName_iff.mp h
  simp [towards, hempty, hdot, hdots]

/-- A walk starts at the root or not, whatever follows. -/
theorem start_append (hdirectory : directory ≠ "") (rest : String) : t.start (directory ++ rest) = t.start directory := by
  have hstarts : (directory ++ rest).startsWith "/" = directory.startsWith "/" := by
    rw [Bool.eq_iff_iff, String.startsWith_string_iff, String.startsWith_string_iff, String.toList_append]
    cases hchars : directory.toList with
    | nil => exact absurd (String.toList_eq_nil_iff.mp hchars) hdirectory
    | cons c cs => simp [List.cons_prefix_cons]
  rw [start, start, hstarts]

/-- The components of a path name below a directory end in those of the name. The others lead to the place of the
directory, if the name does not start at the root. -/
theorem splitOn_joinPath (directory name : String) : ∃ front,
    (joinPath directory name).splitOn "/" = front ++ name.splitOn "/" ∧ (name.startsWith "/" = false →
      ∀ t : FileTree, front.foldl towards (t.start (joinPath directory name)) = t.placeOf directory) := by
  unfold joinPath
  split
  · rename_i hname
    refine ⟨[], rfl, fun hrelative t => ?_⟩
    rw [hrelative, Bool.false_or] at hname
    obtain rfl := String.isEmpty_iff.mp hname
    rw [placeOf, splitOn_empty, start, hrelative]
    rfl
  rename_i hproper
  have hdirectory : directory ≠ "" := by
    rintro rfl
    simp at hproper
  split
  · rename_i hends
    rw [← String.endsWith_toSlice, String.Slice.endsWith_string_iff, String.copy_toSlice] at hends
    obtain ⟨front, hfront⟩ := hends
    obtain rfl : directory = String.ofList front ++ "/" := by
      rw [← String.toList_inj, ← hfront]
      simp
    have hsplit := splitOn_append_slash (String.ofList front) ""
    rw [String.append_empty, splitOn_empty] at hsplit
    refine ⟨(String.ofList front).splitOn "/", splitOn_append_slash _ _, fun _ t => ?_⟩
    -- the last component of the directory is empty and leads nowhere
    rw [placeOf, start_append hdirectory, hsplit, List.foldl_append]
    rfl
  · refine ⟨directory.splitOn "/", splitOn_append_slash _ _, fun _ t => ?_⟩
    rw [placeOf, String.append_assoc, start_append hdirectory]

theorem placeOf_joinPath_of_relative (h : name.startsWith "/" = false) :
    t.placeOf (joinPath directory name) = (name.splitOn "/").foldl towards (t.placeOf directory) := by
  obtain ⟨front, hsplit, hfront⟩ := splitOn_joinPath directory name
  rw [placeOf, hsplit, List.foldl_append, hfront h]

theorem placeOf_joinPath (h : isPlainFileName name = true) :
    t.placeOf (joinPath directory name) = t.placeOf directory ++ [name] := by
  rw [placeOf_joinPath_of_relative (startsWith_slash h), splitOn_of_plain h]
  exact towards_plain h _

theorem locate?_below (hdirectory : isPlainFileName directory = true) (hname : isPlainFileName name = true)
    (husable : isUsable name = true) :
    t.locate? (joinPath directory name) = (t.stepTo t.workingDirectory directory).map (·, name) := by
  have hstart : t.start (joinPath directory name) = t.workingDirectory := by
    have hdirectory' : directory ≠ "" := by
      rintro rfl
      cases hdirectory
    rw [joinPath_plain hdirectory hname, String.append_assoc, start_append hdirectory', start, startsWith_slash hdirectory]
    rfl
  have hsplit : (joinPath directory name).splitOn "/" = [directory, name] := by
    rw [joinPath_plain hdirectory hname, splitOn_append_slash, splitOn_of_plain hdirectory, splitOn_of_plain hname]
    rfl
  have hproper : name ≠ "" ∧ name ≠ "." ∧ name ≠ ".." := by
    refine ⟨?_, ?_, ?_⟩ <;>
    · rintro rfl
      cases hname
  unfold locate?
  rw [hsplit, hstart]
  simp [hproper, husable]

theorem createDirectories?_plain (hdirectory : isPlainFileName directory = true) :
    t.createDirectories? directory = (enterOrCreate (t, t.workingDirectory) directory).map (·.1) := by
  unfold createDirectories?
  rw [splitOn_of_plain hdirectory, start, startsWith_slash hdirectory]
  simp

end FileTree

end MobileCode
