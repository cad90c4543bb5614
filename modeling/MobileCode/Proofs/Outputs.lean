import MobileCode.Proofs.Confinement

/-! # Where a deployment is stored

The modules of a deployment are written to the places that their name leads to from two directories. A name may be any
text. Most names name an entry of each directory, and then a file in each of the two is all that changes, but for the
directories themselves. A name that starts at the root or leads out of the directory is followed too.
-/
namespace MobileCode

/-! ## Changes -/

namespace FileTree
variable {t u v : FileTree} {path : String} {data : Bytes} {paths : List String} {writes : List (Place × Bytes)}

/-- Directories have only come, and only on the way to the paths. A file that has changed holds what was to be written
to its place. -/
structure ChangedBy (t : FileTree) (paths : List String) (writes : List (Place × Bytes)) (u : FileTree) : Prop where
  kept : t.Extends u
  directories : ∀ p ∈ u.directories, p ∈ t.directories ∨ ∃ path ∈ paths, p ∈ t.along path
  files : ∀ p, u.fileAt? p = t.fileAt? p ∨ ∃ data, (p, data) ∈ writes ∧ u.fileAt? p = some data

namespace ChangedBy

theorem refl (t : FileTree) (paths : List String) (writes : List (Place × Bytes)) : t.ChangedBy paths writes t where
  kept := .refl t
  directories _ := .inl
  files _ := .inl rfl

theorem trans (h : t.ChangedBy paths writes u) (h' : u.ChangedBy paths writes v) : t.ChangedBy paths writes v where
  kept := h.kept.trans h'.kept
  directories p hp := by
    obtain hp | ⟨path, hpath, hp⟩ := h'.directories p hp
    · exact h.directories p hp
    · refine .inr ⟨path, hpath, ?_⟩
      rwa [along, start, h.kept.workingDirectory] at hp
  files p := by
    obtain hp | hp := h'.files p
    · rw [hp]
      exact h.files p
    · exact .inr hp

theorem of_createDirectories? (h : t.createDirectories? path = some u) (hpath : path ∈ paths) :
    t.ChangedBy paths writes u where
  kept := extends_createDirectories? h
  directories p hp := (directories_createDirectories? h p hp).imp_right fun hp => ⟨path, hpath, hp⟩
  files p := by
    rw [fileAt?, files_createDirectories? h]
    exact .inl rfl

theorem of_write? (h : t.write? path data = some u) (hwrite : (t.placeOf path, data) ∈ writes) :
    t.ChangedBy paths writes u where
  kept := extends_write? h
  directories p hp := by
    rw [directories_write? h] at hp
    exact .inl hp
  files p := by
    rw [fileAt?, write?_place h]
    by_cases hp : p = t.placeOf path
    · subst hp
      exact .inr ⟨data, hwrite, lookup_insertFile_self _ _ _⟩
    · exact .inl (lookup_insertFile_of_ne hp _ _)

end ChangedBy

/-- A computation that changes a tree further in these ways only. -/
def Keeps (t : FileTree) (paths : List String) (writes : List (Place × Bytes)) {α : Type} (x : StateM FileTree α) :
    Prop :=
  ∀ u, t.ChangedBy paths writes u → t.ChangedBy paths writes (x u).2

namespace Keeps
variable {α β : Type} {x : StateM FileTree α} {f : α → StateM FileTree β}

theorem pure (a : α) : t.Keeps paths writes (Pure.pure a : StateM FileTree α) := fun _ h => h

theorem bind (hx : t.Keeps paths writes x) (hf : ∀ a, t.Keeps paths writes (f a)) : t.Keeps paths writes (x >>= f) :=
  fun u h => hf _ _ (hx u h)

theorem attempt {change : FileTree → Option FileTree}
    (h : ∀ u v, t.Extends u → change u = some v → u.ChangedBy paths writes v) :
    t.Keeps paths writes (attempt change) := by
  intro u hu
  unfold FileTree.attempt
  split
  · exact hu.trans (h _ _ hu.kept ‹_›)
  · exact hu

theorem createDirectories (hpath : path ∈ paths) : t.Keeps paths writes (FileAccess.onTree.createDirectories path) :=
  attempt fun _ _ _ h => .of_createDirectories? h hpath

theorem write (hwrite : (t.placeOf path, data) ∈ writes) : t.Keeps paths writes (FileAccess.onTree.write path data) :=
  attempt fun _ _ hextends h => .of_write? h (placeOf_extends hextends ▸ hwrite)

end Keeps

/-! ## Names -/

variable {name file : String} {p q r : Place} {components : List String}

/-- Where components lead from a place below a directory, given as the place is seen from there, unless they lead out of
the directory. -/
def within? (q : Place) : List String → Option Place
  | [] => some q
  | c :: rest => if c = ".." ∧ q = [] then none else within? (towards q c) rest

/-- The entry of a directory that a name below it names, the same one whatever the directory. -/
def entryOf? (name : String) : Option String :=
  if name.startsWith "/" then none
  else match within? [] (name.splitOn "/") with
    | some [file] => some file
    | _ => none

theorem entryOf?_eq_some : entryOf? name = some file ↔
    name.startsWith "/" = false ∧ within? [] (name.splitOn "/") = some [file] := by
  unfold entryOf?
  split
  · simp_all
  split <;> simp_all

theorem towards_append {component : String} (h : ¬(component = ".." ∧ q = [])) :
    towards (p ++ q) component = p ++ towards q component := by
  unfold towards
  split
  · rfl
  split
  · exact List.dropLast_append_of_ne_nil fun hq => h ⟨‹_›, hq⟩
  · exact List.append_assoc ..

theorem foldl_towards_of_within? (h : within? q components = some r) (p : Place) :
    components.foldl towards (p ++ q) = p ++ r := by
  induction components generalizing q with
  | nil =>
    cases h
    rfl
  | cons c rest ih =>
    rw [within?] at h
    split at h
    · cases h
    · rw [List.foldl_cons, towards_append ‹_›]
      exact ih h

/-- Components that lead to something below whatever place they are followed from never lead out of it. -/
theorem exists_within? (h : ∀ p, ∃ r, components.foldl towards (p ++ q) = p ++ r) :
    ∃ r, within? q components = some r := by
  induction components generalizing q with
  | nil => exact ⟨q, rfl⟩
  | cons c rest ih =>
    rw [within?]
    split
    · rename_i hout
      obtain ⟨rfl, rfl⟩ := hout
      -- from two neighbours the way goes over the directory that holds both
      obtain ⟨r, hr⟩ := h ["a"]
      obtain ⟨r', hr'⟩ := h ["b"]
      have hsame : ["a"] ++ r = ["b"] ++ r' := hr.symm.trans hr'
      simp at hsame
    · refine ih fun p => ?_
      obtain ⟨r, hr⟩ := h p
      rw [List.foldl_cons, towards_append ‹_›] at hr
      exact ⟨r, hr⟩

theorem placeOf_joinPath_of_entryOf? (h : entryOf? name = some file) (t : FileTree) (directory : String) :
    t.placeOf (joinPath directory name) = t.placeOf directory ++ [file] := by
  obtain ⟨hrelative, hwithin⟩ := entryOf?_eq_some.mp h
  rw [placeOf_joinPath_of_relative hrelative]
  simpa using foldl_towards_of_within? hwithin (t.placeOf directory)

theorem placeOf_plain (h : isPlainFileName name = true) : t.placeOf name = t.workingDirectory ++ [name] := by
  rw [placeOf, splitOn_of_plain h, start, startsWith_slash h]
  exact towards_plain h _

/-- No other names lead to entries of all directories. -/
theorem exists_entryOf? (h : ∀ (t : FileTree) directory, ∃ file,
    t.placeOf (joinPath directory name) = t.placeOf directory ++ [file]) : ∃ file, entryOf? name = some file := by
  have hrelative : name.startsWith "/" = false := by
    by_contra habsolute
    rw [Bool.not_eq_false] at habsolute
    have hjoin (directory : String) : joinPath directory name = name := by
      rw [joinPath, habsolute]
      rfl
    obtain ⟨file, hfile⟩ := h {} "a"
    obtain ⟨file', hfile'⟩ := h {} "b"
    rw [hjoin, placeOf_plain (show isPlainFileName "a" = true by decide +kernel)] at hfile
    rw [hjoin, placeOf_plain (show isPlainFileName "b" = true by decide +kernel)] at hfile'
    have hsame := hfile.symm.trans hfile'
    simp at hsame
  have hwalk (p : Place) : ∃ file, (name.splitOn "/").foldl towards p = p ++ [file] := by
    obtain ⟨file, hfile⟩ := h { workingDirectory := p } ""
    have hhere : ({ workingDirectory := p } : FileTree).placeOf "" = p := by
      rw [placeOf, splitOn_empty]
      rfl
    rw [placeOf_joinPath_of_relative hrelative, hhere] at hfile
    exact ⟨file, hfile⟩
  obtain ⟨r, hwithin⟩ := exists_within? (q := []) fun p => by
    obtain ⟨file, hfile⟩ := hwalk p
    exact ⟨[file], by rwa [List.append_nil]⟩
  obtain ⟨file, hfile⟩ := hwalk []
  obtain rfl : r = [file] := (foldl_towards_of_within? hwithin []).symm.trans hfile
  exact ⟨file, entryOf?_eq_some.mpr ⟨hrelative, hwithin⟩⟩

theorem entryOf?_of_plain (h : isPlainFileName name = true) : entryOf? name = some name := by
  obtain ⟨hempty, hhere, hup, _⟩ := isPlainFileName_iff.mp h
  refine entryOf?_eq_some.mpr ⟨startsWith_slash h, ?_⟩
  rw [splitOn_of_plain h, within?, if_neg fun hout => hup hout.1, towards_plain h]
  rfl

/-- No file can have the last component of the name as its own. -/
def NamesNoFile (name : String) : Prop :=
  ∃ front last, name.splitOn "/" = front ++ [last] ∧ (last = "" ∨ last = "." ∨ last = ".." ∨ isUsable last = false)

theorem write?_eq_none (h : NamesNoFile name) (t : FileTree) (directory : String) (data : Bytes) :
    t.write? (joinPath directory name) data = none := by
  obtain ⟨front, last, hname, hlast⟩ := h
  obtain ⟨leading, hsplit, _⟩ := splitOn_joinPath directory name
  have hlocate : t.locate? (joinPath directory name) = none := by
    have hreverse : (leading ++ (front ++ [last])).reverse = last :: (leading ++ front).reverse := by simp
    rw [locate?, hsplit, hname, hreverse]
    exact if_pos (by simpa [or_assoc] using hlast)
  rw [write?, hlocate]
  rfl

theorem Keeps.write_none {directory : String} (h : NamesNoFile name) :
    t.Keeps paths writes (FileAccess.onTree.write (joinPath directory name) data) :=
  attempt fun u _ _ hv => nomatch (write?_eq_none h u directory data).symm.trans hv

end FileTree

/-! ## Deployments -/

namespace Deployment
open FileTree

section
variable {d : Deployment} {client server : String} {t : FileTree} {writes : List (Place × Bytes)}

theorem store_keeps
    (hclient : t.Keeps [client, server] writes (FileAccess.onTree.write (joinPath client d.client.name) d.client.toFile))
    (hserver : t.Keeps [client, server] writes (FileAccess.onTree.write (joinPath server d.server.name) d.server.toFile)) :
    t.Keeps [client, server] writes (d.store FileAccess.onTree client server) := by
  unfold store
  refine (Keeps.createDirectories (by simp)).bind fun _ => ?_
  split
  · refine (Keeps.createDirectories (by simp)).bind fun _ => ?_
    split
    · refine hclient.bind fun _ => ?_
      split
      · exact hserver
      · exact .pure false
    · exact .pure false
  · exact .pure false

end

/-- Whatever the name of a module, all that storing its deployment changes are two directories and the two files that
the name leads to from there. If the name leads to the same entry of every directory, they are in the two directories. If
no file can have the name, there are none. A name that leads to no such entry leads elsewhere from some directory. -/
theorem store_stays {boundary : Boundary} {digest : DigestAlgorithm} {m : Module Datum}
    {dependencies : List (Module Datum)} {d : Deployment} (hmake : make? boundary digest m dependencies = .ok (some d))
    {client server : String} {t u : FileTree} {stored : Bool} (hstore : d.store FileAccess.onTree client server t = (stored, u)) :
    t.ChangedBy [client, server] [(t.placeOf (joinPath client m.name), d.client.toFile),
      (t.placeOf (joinPath server m.name), d.server.toFile)] u ∧
    (∀ file, entryOf? m.name = some file → t.ChangedBy [client, server] [(t.placeOf client ++ [file], d.client.toFile),
      (t.placeOf server ++ [file], d.server.toFile)] u) ∧
    (NamesNoFile m.name → t.ChangedBy [client, server] [] u) ∧
    (entryOf? m.name = none → ∃ (t : FileTree) (directory : String), ∀ file,
      t.placeOf (joinPath directory m.name) ≠ t.placeOf directory ++ [file]) := by
  have hclient : d.client.name = m.name := owned_name hmake (.inl rfl)
  have hserver : d.server.name = m.name := owned_name hmake (.inr rfl)
  have hchanges {writes : List (Place × Bytes)} (hkeeps : t.Keeps [client, server] writes
      (d.store FileAccess.onTree client server)) : t.ChangedBy [client, server] writes u := by
    have h := hkeeps t (.refl t _ _)
    rwa [hstore] at h
  have hled : t.ChangedBy [client, server] [(t.placeOf (joinPath client m.name), d.client.toFile),
      (t.placeOf (joinPath server m.name), d.server.toFile)] u :=
    hchanges (store_keeps (.write (by simp [hclient])) (.write (by simp [hserver])))
  refine ⟨hled, fun file hentry => ?_, fun hnone => ?_, fun hnone => ?_⟩
  · rwa [placeOf_joinPath_of_entryOf? hentry, placeOf_joinPath_of_entryOf? hentry] at hled
  · exact hchanges (store_keeps (.write_none (hclient ▸ hnone)) (.write_none (hserver ▸ hnone)))
  · by_contra hall
    push Not at hall
    obtain ⟨file, hfile⟩ := exists_entryOf? hall
    rw [hnone] at hfile
    cases hfile

end Deployment

namespace gauge
open FileTree

/-- The gauge under a name that leads out of a directory. -/
def astray : Module Datum := { gauge with name := "../Gauge" }

/-- The directories of a client and of a server. -/
def shelves (files : List (Place × Bytes)) : FileTree := { files, directories := [["s"], ["c"]] }

theorem shelves_write {files : List (Place × Bytes)} {path file : String} {p : Place}
    (h : (shelves files).locate? path = some (p, file)) (hfree : (shelves files).isDirectory (p ++ [file]) = false)
    (data : Bytes) : (shelves files).write? path data = some (shelves (insertFile (p ++ [file]) data files)) := by
  rw [write?, h]
  exact if_neg (Bool.eq_false_iff.mp hfree)

theorem store_eq {d : Deployment} {file file' : List (Place × Bytes)}
    (hclient : (shelves []).write? (joinPath "c" d.client.name) d.client.toFile = some (shelves file))
    (hserver : (shelves file).write? (joinPath "s" d.server.name) d.server.toFile = some (shelves file')) :
    d.store FileAccess.onTree "c" "s" {} = (true, shelves file') := by
  have hc : ({} : FileTree).createDirectories? "c" = some { directories := [["c"]] } := by
    rw [createDirectories?_plain (by decide +kernel)]
    rfl
  have hs : ({ directories := [["c"]] } : FileTree).createDirectories? "s" = some (shelves []) := by
    rw [createDirectories?_plain (by decide +kernel)]
    rfl
  have hbind {α β : Type} (x : StateM FileTree α) (f : α → StateM FileTree β) (t : FileTree) :
      (x >>= f) t = f (x t).1 (x t).2 := rfl
  simp only [Deployment.store, FileAccess.onTree, attempt, hbind, hc, hs, hclient, hserver, ↓reduceIte]

theorem locate_plain (files : List (Place × Bytes)) :
    (shelves files).locate? (joinPath "c" gauge.name) = some (["c"], "Gauge") ∧
    (shelves files).locate? (joinPath "s" gauge.name) = some (["s"], "Gauge") := by
  constructor <;>
  · rw [locate?_below (by decide +kernel) (by decide +kernel) (by decide +kernel)]
    rfl

theorem locate_astray (files : List (Place × Bytes)) :
    (shelves files).locate? (joinPath "c" astray.name) = some ([], "Gauge") ∧
    (shelves files).locate? (joinPath "s" astray.name) = some ([], "Gauge") := by
  have hsplit : (joinPath "c" astray.name).splitOn "/" = ["c", "..", "Gauge"] ∧
      (joinPath "s" astray.name).splitOn "/" = ["s", "..", "Gauge"] := by
    rw [splitOn_slash, splitOn_slash]
    decide +kernel
  have hstart (path : String) : (shelves files).start path = [] := by
    unfold start
    split <;> rfl
  constructor
  · rw [locate?, hsplit.1, hstart]
    rfl
  · rw [locate?, hsplit.2, hstart]
    rfl

end gauge

open FileTree gauge in
/-- The modules of the gauge are stored in the directories. Under the name that leads out of these, they are stored
beside them, one over the other. -/
theorem gauge_stored : ∃ dep u, Deployment.make? {} .sha1 gauge [] = .ok (some dep) ∧
    dep.store FileAccess.onTree "c" "s" {} = (true, u) ∧
    u.files = [(["c", "Gauge"], dep.client.toFile), (["s", "Gauge"], dep.server.toFile)] ∧
    ({} : FileTree).ChangedBy ["c", "s"] u.files u ∧
    ∃ dep u, astray.validate = .ok () ∧ Deployment.make? {} .sha1 astray [] = .ok (some dep) ∧
      dep.store FileAccess.onTree "c" "s" {} = (true, u) ∧ u.files = [(["Gauge"], dep.server.toFile)] := by
  obtain ⟨dep, hmake⟩ : ∃ dep, Deployment.make? {} .sha1 gauge [] = .ok (some dep) := ⟨_, rfl⟩
  obtain ⟨dep', hmake'⟩ : ∃ dep, Deployment.make? {} .sha1 astray [] = .ok (some dep) := ⟨_, rfl⟩
  have hclient : dep.client.name = gauge.name := Deployment.owned_name hmake (.inl rfl)
  have hserver : dep.server.name = gauge.name := Deployment.owned_name hmake (.inr rfl)
  have hclient' : dep'.client.name = astray.name := Deployment.owned_name hmake' (.inl rfl)
  have hserver' : dep'.server.name = astray.name := Deployment.owned_name hmake' (.inr rfl)
  have hstore := store_eq (hclient ▸ shelves_write (locate_plain _).1 rfl dep.client.toFile)
    (hserver ▸ shelves_write (locate_plain _).2 rfl dep.server.toFile)
  have hstore' := store_eq (hclient' ▸ shelves_write (locate_astray _).1 rfl dep'.client.toFile)
    (hserver' ▸ shelves_write (locate_astray _).2 rfl dep'.server.toFile)
  have hplain : isPlainFileName gauge.name = true := by decide +kernel
  have hstays := (Deployment.store_stays hmake hstore).2.1 gauge.name (entryOf?_of_plain hplain)
  rw [placeOf_plain (by decide +kernel), placeOf_plain (by decide +kernel)] at hstays
  exact ⟨dep, _, hmake, hstore, rfl, hstays, dep', _, rfl, hmake', hstore', rfl⟩

end MobileCode
