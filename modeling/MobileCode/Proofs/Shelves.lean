import MobileCode.Proofs.Companions
import MobileCode.Proofs.Loadings

/-! # Modules on the shelf

A fresh server has nothing in its sandbox, and the files that it can find are what their names say. It finds the module that a
request names, or asks for it and finds what it is sent; and it finds each module that this one brings along. The files that it
keeps on the way change nothing in this.
-/
namespace MobileCode

/-- What is on the disk under the names of some modules are these modules, and there is a place for more of them. -/
structure Storage.Shelves (o : Storage) (hash : String) (ms : List (Module Datum)) : Prop where
  sandbox : o.sandbox = ""
  workingDirectory : o.disk.workingDirectory = []
  directory : o.disk.fileAt? [hash] = none
  free : ∀ m ∈ ms, o.disk.isDirectory [hash, m.name] = false
  genuine : ∀ m ∈ ms, ∀ p bytes, o.disk.fileAt? (p ++ [m.name]) = some bytes → Module.ofFile bytes = .ok m

namespace Storage.Shelves
variable {o o' : Storage} {hash name : String} {ms : List (Module Datum)} {m : Module Datum} {bytes : Bytes}

theorem of_disk (h : o.Shelves hash ms) (hsandbox : o'.sandbox = o.sandbox) (hdisk : o'.disk = o.disk) :
    o'.Shelves hash ms where
  sandbox := hsandbox.trans h.sandbox
  workingDirectory := hdisk ▸ h.workingDirectory
  directory := hdisk ▸ h.directory
  free := hdisk ▸ h.free
  genuine := hdisk ▸ h.genuine

/-- A file that is kept is one more of the modules, or has another name. -/
theorem keeping (h : o.Shelves hash ms) (hfile : ∀ m ∈ ms, m.name = name → Module.ofFile bytes = .ok m) :
    (o.keeping hash name bytes).Shelves hash ms where
  sandbox := h.sandbox
  workingDirectory := (FileTree.workingDirectory_withDirectory _ _).trans h.workingDirectory
  directory := (FileTree.lookup_insertFile_of_ne (by simp) _ _).trans h.directory
  free m hm := by
    have hmade := FileTree.isDirectory_withDirectory (t := o.disk) (p := [hash]) (q := [hash, m.name])
    rw [h.free m hm] at hmade
    exact hmade.trans (by simp)
  genuine m hm p found hfound := by
    by_cases hplace : p ++ [m.name] = [hash, name]
    · rw [hplace] at hfound
      cases (FileTree.lookup_insertFile_self [hash, name] bytes o.disk.files).symm.trans hfound
      have hlast := congrArg List.getLast? hplace
      simp only [List.getLast?_append, List.getLast?_singleton, List.getLast?_cons_cons, Option.some_or, Option.some.injEq]
        at hlast
      exact hfile m hm hlast
    · exact h.genuine m hm p found ((FileTree.lookup_insertFile_of_ne hplace bytes o.disk.files).symm.trans hfound)

/-- A module is kept, unless there is a file of its name. -/
theorem keep_succeeds (h : o.Shelves hash ms) (hname : isPlainFileName name = true) (hname' : FileTree.isUsable name = true)
    (hhash : isPlainFileName hash = true) (hhash' : FileTree.isUsable hash = true)
    (hfile : ∀ m ∈ ms, m.name = name → Module.ofFile bytes = .ok m) (hfree : o.disk.isDirectory [hash, name] = false) :
    ∃ o', keep hash name bytes o = some (.ok (), o') ∧ o'.Shelves hash ms := by
  cases hthere : o.disk.isFile (o.pathFor hash name) with
  | true =>
    refine ⟨{ o with touched := o.pathFor hash name :: o.touched }, ?_, h.of_disk rfl rfl⟩
    have hlooked := Storage.isFile_apply (o.pathFor hash name) o
    rw [hthere] at hlooked
    unfold keep
    rw [Run.get_bind, Run.bind_apply, ← Storage.pathFor, hlooked]
    rfl
  | false =>
    exact ⟨_, (keep_missing h.sandbox h.workingDirectory h.directory hfree hthere hhash hname hhash' hname' bytes).1,
      h.keeping hfile⟩

/-- What is read by the name of a module is this module. -/
theorem readFrom (h : o.Shelves hash ms) (hm : m ∈ ms) (hplain : isPlainFileName m.name = true) (directories : List String) :
    ∃ found paths, Server.readFrom m.name directories o = some (.ok found, { o with touched := paths }) ∧
      ∀ bytes, found = some bytes → Module.ofFile bytes = .ok m := by
  induction directories generalizing o with
  | nil => exact ⟨none, o.touched, rfl, by simp⟩
  | cons directory rest ih =>
    unfold Server.readFrom
    rw [Run.bind_apply, Storage.isFile_apply]
    dsimp only
    cases hread : o.disk.read? (joinPath directory m.name) with
    | none =>
      obtain ⟨found, paths, hfound, hgenuine⟩ :=
        ih (o := { o with touched := joinPath directory m.name :: o.touched }) (h.of_disk rfl rfl)
      refine ⟨found, paths, ?_, hgenuine⟩
      rw [FileTree.isFile, hread]
      exact hfound
    | some bytes =>
      have hplace := FileTree.read?_place hread
      rw [FileTree.placeOf_joinPath hplain] at hplace
      have hread' : Storage.read (joinPath directory m.name) { o with touched := joinPath directory m.name :: o.touched } =
          some (.ok bytes, _) := Storage.read_found hread
      refine ⟨some bytes, joinPath directory m.name :: joinPath directory m.name :: o.touched, ?_, fun found hfound => ?_⟩
      · rw [FileTree.isFile, hread, Option.isSome_some, if_pos rfl, Run.bind_apply, hread']
        rfl
      · cases hfound
        exact h.genuine m hm _ _ hplace

/-- A module that comes along is found, on the disk or among those that come along. -/
theorem findReferenced (h : o.Shelves hash ms) (hm : m ∈ ms) (hplain : isPlainFileName m.name = true)
    (husable : FileTree.isUsable m.name = true) (hhash : isPlainFileName hash = true) (hhash' : FileTree.isUsable hash = true)
    (hdistinct : ∀ n ∈ ms, n.name = m.name → n = m) {l : LoadedModule} (hbundled : l.code.bundled? m.name = some bytes)
    (hfile : Module.ofFile bytes = .ok m) : ∃ found o', Server.findReferenced l hash m.name o = some (.ok (some found), o') ∧
      Module.ofFile found = .ok m ∧ o'.Shelves hash ms := by
  obtain ⟨found, paths, hfound, hgenuine⟩ := h.readFrom hm hplain o.probePaths
  unfold Server.findReferenced
  rw [hplain, Bool.not_true, if_neg Bool.false_ne_true, Run.get_bind, Run.bind_apply, hfound]
  cases found with
  | some found => exact ⟨found, _, rfl, hgenuine found rfl, h.of_disk rfl rfl⟩
  | none =>
    have hread : Shelves { o with touched := paths } hash ms := h.of_disk rfl rfl
    obtain ⟨o', hkeep, hshelves⟩ := hread.keep_succeeds hplain husable hhash hhash'
      (fun n hn hname => hdistinct n hn hname ▸ hfile) (h.free m hm)
    refine ⟨bytes, o', ?_, hfile, hshelves⟩
    dsimp only
    rw [hbundled]
    dsimp only
    rw [Run.bind_apply, hkeep]
    rfl

end Storage.Shelves

/-- The request names the module that a client has of the deployment, which other modules do not have the name of. -/
structure Request.Seeks (r : Request Datum) (dep : Deployment) (hash : String) (ms : List (Module Datum)) : Prop where
  hash : r.hash = hash
  file : r.file = dep.client.name
  upload : r.upload = none
  valid : Server.validate r = .ok ()
  usable : FileTree.isUsable r.file = true
  apart : ∀ m ∈ ms, m.name ≠ dep.client.name

namespace Server
variable {s : Server} {r : Request Datum} {dep : Deployment} {hash : String} {ms : List (Module Datum)} {bytes : Bytes}

/-- A fresh server. What it can find under the hash of a deployed module is a module of the deployment. -/
structure Fresh (s : Server) (dep : Deployment) (hash : String) (ms : List (Module Datum)) : Prop where
  vacant : s.domain.Vacant
  heap : s.domain.heap = {}
  versions : s.outside.versions = {}
  shelves : s.outside.Shelves hash ms
  room : s.outside.Roomy hash dep.client.name
  genuine : ∀ p bytes, s.outside.disk.fileAt? (p ++ [dep.client.name]) = some bytes →
    answersTo s.domain.digest hash bytes = true → ∃ n, dep.Owns n ∧ Module.ofFile bytes = .ok n

/-- A module of the deployment that the server has found and loaded. -/
structure Obtains (s : Server) (dep : Deployment) (hash : String) (ms : List (Module Datum)) (n : Module Datum) (l : LoadedModule)
    (t : Server) : Prop where
  owns : dep.Owns n
  loaded : ∃ bytes path, Module.ofFile bytes = .ok n ∧ s.domain.loadFile bytes path = .ok (l, t.domain)
  shelves : t.outside.Shelves hash ms

/-- With nothing on record a file that answers to the hash is loaded, if there is one. -/
theorem find_unrecorded {u : Server} (haccept : accept r s = some (.ok (), u)) (hnone : u.outside.versions = {}) :
    (¬u.Stocks r ∧ ∃ paths, find r s = some (.ok none, u.touching paths)) ∨
      ∃ bytes path paths, u.Spots r bytes ∧ ∀ l d, u.domain.loadFile bytes (some path) = .ok (l, d) →
        find r s = some (.ok (some l),
          ⟨d, { u.outside with touched := paths, versions := u.outside.versions.record l r.type r.hash }⟩) := by
  have hfind : find r s = resolve r u := by rw [find_eq_accept, Run.bind_apply, haccept]
  rcases resolve_unrecorded (s := u) (r := r) (by rw [hnone]; rfl) with ⟨hmissing, paths, hresolve⟩ |
    ⟨bytes, path, paths, hspots, hresolve⟩
  · exact .inl ⟨hmissing, paths, hfind.trans hresolve⟩
  refine .inr ⟨bytes, path, paths, hspots, fun l d hload => ?_⟩
  have hload' : (u.touching paths).domain.loadFile bytes (some path) = .ok (l, d) := hload
  rw [hfind, hresolve, Run.bind_apply, State.loadFile, Run.get_bind, hload']
  rfl

/-- A server that has a module of the deployment finds it. One that has none asks for it, and finds what it is sent. -/
theorem Fresh.find (h : s.Fresh dep hash ms) (hr : r.Seeks dep hash ms) (hdigest : s.domain.digest.digest bytes = hash)
    (hread : Module.ofFile bytes = .ok dep.client)
    (hload : ∀ n bytes path, dep.Owns n → Module.ofFile bytes = .ok n → ∃ l d, s.domain.loadFile bytes path = .ok (l, d))
    (id : Uuid) : ∃ n l t, s.Obtains dep hash ms n l t ∧ (Server.find r s = some (.ok (some l), t) ∨
      ∃ u, Server.find r s = some (.ok none, u) ∧ Server.find (r.withModule id bytes) u = some (.ok (some l), t)) := by
  obtain ⟨hplain, hplain'⟩ := validate_eq_ok hr.valid
  -- what is found belongs to the deployment
  have hfound {o : Storage} (hgenuine : ∀ p bytes, o.disk.fileAt? (p ++ [dep.client.name]) = some bytes →
      answersTo s.domain.digest hash bytes = true → ∃ n, dep.Owns n ∧ Module.ofFile bytes = .ok n) {found : Bytes}
      (hspots : Spots ⟨s.domain, o⟩ r found) (path : Option String) :
      ∃ n l d, dep.Owns n ∧ Module.ofFile found = .ok n ∧ s.domain.loadFile found path = .ok (l, d) := by
    obtain ⟨⟨directory, _, hread⟩, hanswers⟩ := hspots
    have hplace := FileTree.read?_place hread
    rw [FileTree.placeOf_joinPath hplain', hr.file] at hplace
    obtain ⟨n, hn, hfile⟩ := hgenuine _ _ hplace (hr.hash ▸ hanswers)
    obtain ⟨l, d, hld⟩ := hload n found path hn hfile
    exact ⟨n, l, d, hn, hfile, hld⟩
  rcases find_unrecorded (accept_bare hr.upload hr.valid) h.versions with ⟨_, paths, hunknown⟩ |
    ⟨found, path, paths, hspots, hfind⟩
  · let kept : Storage := (s.touching paths).outside.keeping r.hash r.file bytes
    have hroom : (s.touching paths).outside.Roomy r.hash r.file := by
      rw [hr.hash, hr.file]
      exact h.room.of_disk rfl rfl
    obtain ⟨hkeep, hstored⟩ := hroom.keep_eq hplain hplain' (validate_usable hr.valid) hr.usable bytes
    have haccept : accept (r.withModule id bytes) (s.touching paths) = some (.ok (), ⟨s.domain, kept⟩) := by
      rw [accept_withModule (s := s.touching paths) hr.valid (hdigest.trans hr.hash.symm), onStorage, State.onOutside, Run.zoom, hkeep]
      rfl
    have hgenuine (p : Place) (found : Bytes) (hthere : kept.disk.fileAt? (p ++ [dep.client.name]) = some found)
        (hanswers : answersTo s.domain.digest hash found = true) : ∃ n, dep.Owns n ∧ Module.ofFile found = .ok n := by
      rcases FileTree.lookup_insertFile hthere with rfl | hold
      · exact ⟨_, .inl rfl, hread⟩
      · exact h.genuine p found hold hanswers
    have hshelves : kept.Shelves hash ms := by
      have hread : (s.touching paths).outside.Shelves hash ms := h.shelves.of_disk rfl rfl
      have hkept : ((s.touching paths).outside.keeping hash r.file bytes).Shelves hash ms :=
        hread.keeping fun m hm hname => absurd (hname.trans hr.file) (hr.apart m hm)
      rw [← hr.hash] at hkept ⊢
      exact hkept
    rcases find_unrecorded haccept h.versions with ⟨hmissing, _⟩ | ⟨found, path, paths', hspots, hfind⟩
    · refine absurd ?_ hmissing
      exact Stores.stocks (r := r.withModule id bytes) ⟨bytes, hstored, answersTo_eq_true.mpr (.inl (hdigest.trans hr.hash.symm))⟩
    · obtain ⟨n, l, d, hn, hfile, hld⟩ := hfound hgenuine ⟨hspots.read, hspots.answers⟩ (some path)
      refine ⟨n, l, ⟨d, _⟩, ?_, .inr ⟨_, hunknown, hfind l d hld⟩⟩
      exact ⟨hn, ⟨found, some path, hfile, hld⟩, hshelves.of_disk rfl rfl⟩
  · obtain ⟨n, l, d, hn, hfile, hld⟩ := hfound h.genuine hspots (some path)
    refine ⟨n, l, ⟨d, _⟩, ?_, .inl (hfind l d hld)⟩
    exact ⟨hn, ⟨found, some path, hfile, hld⟩, h.shelves.of_disk rfl rfl⟩

end Server
end MobileCode
