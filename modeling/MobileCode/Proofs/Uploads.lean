import MobileCode.Proofs.Stores

/-! # Modules that are sent

A server that has neither a module nor a file of it answers that it does not know the module, and stays as it is. With the
request once more and the module, it keeps the file under the hash and finds it there, then and as long as it runs.
-/
namespace MobileCode

namespace Server
variable {s t : Server} {r : Request Datum}

/-! ## Neither the module nor a file of it -/

theorem find_grounded (hs : s.Grounded) : (find r).Yields s fun _ t => t.Grounded := by
  intro outcome t h
  rcases find_searched outcome t h with ⟨hst, _⟩ | ⟨v, hv, ⟨hst, _⟩ | ⟨l, u, _, hcomes, hstays, hrecord⟩⟩
  · exact hs.stays hst
  · exact (hs.stays (.of_accept hv)).stays hst
  · have hv' := hs.stays (.of_accept hv)
    exact (hv'.stays hstays).record (hcomes.loaded hv'.indexed) hrecord

theorem Grounded.serves {turns : List Turn} (h : s.Grounded) (hserves : Serves s turns t) : t.Grounded :=
  hserves.keeps (fun _ _ h hst => h.stays hst) (fun _ _ h => find_grounded h) h

/-- The server has neither the module nor the type that the request names, and no file of that name where it looks. -/
structure Lacks (s : Server) (r : Request Datum) : Prop where
  module : s.domain.module? r.file = none
  type : s.domain.type? r.type = none
  probed : ∀ directory ∈ s.outside.probePaths, s.outside.disk.isFile (joinPath directory r.file) = false
  kept : s.outside.disk.isFile (s.outside.pathFor r.hash r.file) = false

theorem Grounded.hash?_lacking (hs : s.Grounded) (h : s.Lacks r) : s.outside.versions.hash? r.type r.file = none := by
  unfold Versions.hash?
  cases htype : s.outside.versions.types.find? r.type with
  | some hash =>
    obtain ⟨owner, howner⟩ := hs.types r.type hash htype
    cases h.type.symm.trans howner
  | none =>
    cases hmodule : s.outside.versions.modules.find? r.file with
    | some hash =>
      obtain ⟨l, hl⟩ := hs.modules r.file hash hmodule
      cases h.module.symm.trans hl
    | none => rfl

/-- The server after it has looked at some files. -/
def touching (s : Server) (paths : List String) : Server := { s with outside := { s.outside with touched := paths } }

theorem Lacks.touching (h : s.Lacks r) (paths : List String) : (s.touching paths).Lacks r :=
  ⟨h.module, h.type, h.probed, h.kept⟩

theorem Grounded.touching (h : s.Grounded) (paths : List String) : (s.touching paths).Grounded :=
  ⟨h.indexed, h.modules, h.types⟩

/-- The server after it has looked for the module of a request. -/
def looking (s : Server) (r : Request Datum) : Server :=
  s.touching (((s.outside.probePaths ++ [s.outside.sandboxFor r.hash]).map (joinPath · r.file)).reverse ++
    s.outside.touched)

theorem probeIn_none {algorithm : DigestAlgorithm} {directories : List String} {o : Storage}
    (h : ∀ directory ∈ directories, o.disk.isFile (joinPath directory r.file) = false) :
    probeIn r algorithm directories o =
      some (.ok none, { o with touched := (directories.map (joinPath · r.file)).reverse ++ o.touched }) := by
  induction directories generalizing o with
  | nil => rfl
  | cons directory rest ih =>
    obtain ⟨hfirst, hrest⟩ := List.forall_mem_cons.mp h
    have hlooked := ih (o := { o with touched := joinPath directory r.file :: o.touched }) hrest
    simp only [probeIn, Run.bind_apply, Storage.isFile_apply, hfirst, Bool.false_eq_true, if_false]
    rw [hlooked, List.map_cons, List.reverse_cons, List.append_assoc]
    rfl

/-- The server finds nothing, and all that has changed is which files it has looked at. -/
theorem find_missing (hvalid : validate r = .ok ()) (hupload : r.upload = none)
    (hhash : s.outside.versions.hash? r.type r.file = none)
    (hfiles : ∀ directory ∈ s.outside.probePaths ++ [s.outside.sandboxFor r.hash],
      s.outside.disk.isFile (joinPath directory r.file) = false) : find r s = some (.ok none, s.looking r) := by
  have hprobed : probe r s = some (.ok none, s.looking r) := by
    unfold probe onStorage State.onOutside Run.zoom
    rw [Run.get_bind, probeIn_none hfiles]
    rfl
  unfold find resolve
  rw [hvalid, hupload]
  simp only [Run.ofExcept_ok, pure_bind, Run.get_bind, hhash]
  rw [loadProbed, Run.bind_apply, hprobed]
  rfl

theorem find_lacking (hvalid : validate r = .ok ()) (hupload : r.upload = none) (hs : s.Grounded) (h : s.Lacks r) :
    find r s = some (.ok none, s.looking r) :=
  find_missing hvalid hupload (hs.hash?_lacking h)
    (List.forall_mem_append.mpr ⟨h.probed, List.forall_mem_singleton.mpr h.kept⟩)

/-! ## The method is run at most once -/

/-- What became of a request, and the one run of a method that it was answered from, if there was one. -/
inductive Executes (r : Request Datum) (budget : Nat) (thread : Option String) (s : Server) :
    Option Prepared → Answer Value → Server → Prop
  | failed {e : Error} {t : Server} (h : prepare r budget thread s = some (.error e, t)) :
    Executes r budget thread s none (.fault e.toFault) t
  | lacking {t : Server} (h : prepare r budget thread s = some (.ok none, t)) :
    Executes r budget thread s none .moduleUnknown t
  | ran {p : Prepared} {t u : Server} {a : Answer Value} (h : prepare r budget thread s = some (.ok (some p), t))
    (hrun : (Machine.runner p.env budget p.frame >>= p.finish r (Machine.runner p.env budget)) t = some (.ok a, u)) :
    Executes r budget thread s (some p) a u
  | broke {p : Prepared} {t u : Server} {e : Error} (h : prepare r budget thread s = some (.ok (some p), t))
    (hrun : (Machine.runner p.env budget p.frame >>= p.finish r (Machine.runner p.env budget)) t = some (.error e, u)) :
    Executes r budget thread s (some p) (.fault e.toFault) u

theorem execute_executes {budget : Nat} {thread : Option String} {a : Answer Value}
    (h : execute budget thread r s = some (.ok a, t)) : ∃ ran, Executes r budget thread s ran a t := by
  rw [execute, serve_eq, Run.bind_apply, Run.attempt, Run.bind_apply] at h
  rcases hprepare : prepare r budget thread s with _ | ⟨_ | _ | p, u⟩
  · rw [hprepare] at h
    cases h
  · rw [hprepare] at h
    cases h
    exact ⟨none, .failed hprepare⟩
  · rw [hprepare] at h
    cases h
    exact ⟨none, .lacking hprepare⟩
  · rw [hprepare] at h
    dsimp only at h
    rcases hrun : (Machine.runner p.env budget p.frame >>= p.finish r (Machine.runner p.env budget)) u with
      _ | ⟨_ | b, v⟩
    · rw [hrun] at h
      cases h
    · rw [hrun] at h
      cases h
      exact ⟨some p, .broke hprepare hrun⟩
    · rw [hrun] at h
      cases h
      exact ⟨some p, .ran hprepare hrun⟩

/-- A request for a module that the server lacks runs nothing. -/
theorem execute_lacking (hvalid : validate r = .ok ()) (hupload : r.upload = none) (hs : s.Grounded) (h : s.Lacks r)
    (budget : Nat) (thread : Option String) :
    execute budget thread r s = some (.ok .moduleUnknown, s.looking r) ∧
      Executes r budget thread s none .moduleUnknown (s.looking r) := by
  have hfind := find_lacking hvalid hupload hs h
  refine ⟨?_, .lacking ?_⟩
  · rw [execute, Run.bind_apply, Run.attempt, serve_eq_find, Run.bind_apply, hfind]
    rfl
  · rw [prepare_eq_find, Run.bind_apply, hfind]
    rfl

/-! ## With the module -/

/-- Where the server keeps modules with the hash, there is a file of the name that answers to it. -/
def Stores (s : Server) (r : Request Datum) : Prop :=
  ∃ bytes, s.outside.disk.read? (s.outside.pathFor r.hash r.file) = some bytes ∧
    answersTo s.domain.digest r.hash bytes = true

theorem Stores.stocks (h : s.Stores r) : s.Stocks r := ⟨_, List.mem_append_right _ List.mem_cons_self, h⟩

/-- A module that has the hash of the request is stored, if there was no file in its place or one that answers to the
hash as well. -/
theorem accept_stores {bytes : Bytes} (hupload : r.upload = some bytes)
    (hplace : ∀ found, s.outside.disk.read? (s.outside.pathFor r.hash r.file) = some found →
      answersTo s.domain.digest r.hash found = true) :
    (accept r).Ensures s fun _ t => t.domain = s.domain ∧ t.Stores r := by
  unfold accept
  refine .ofExcept_bind fun _ _ => ?_
  rw [hupload]
  refine storeUpload_kept.mono ?_
  rintro _ t ⟨hdomain, hdigest, hkept, hstored⟩
  have hpath : t.outside.pathFor r.hash r.file = s.outside.pathFor r.hash r.file := by
    rw [Storage.pathFor, Storage.pathFor, Storage.sandboxFor, Storage.sandboxFor, hkept.settings.sandbox]
  have hfile : answersTo s.domain.digest r.hash bytes = true := answersTo_eq_true.mpr (.inl hdigest)
  refine ⟨hdomain, ?_⟩
  rw [Stores, hpath, hdomain]
  rcases hstored with hthere | hread
  · obtain ⟨found, hfound⟩ := FileTree.isFile_eq_true.mp hthere
    rcases hkept.files _ _ hfound with hnew | hold
    · exact ⟨bytes, hnew, hfile⟩
    · exact ⟨found, hold, hplace found hfound⟩
  · exact ⟨bytes, hread, hfile⟩

section
variable {bytes : Bytes} (hupload : r.upload = some bytes)
  (hplace : ∀ found, s.outside.disk.read? (s.outside.pathFor r.hash r.file) = some found →
    answersTo s.domain.digest r.hash found = true)
include hupload hplace

/-- With the module the server does not ask for it. -/
theorem find_uploaded : (find r).Ensures s fun found _ => found ≠ none := by
  rw [find_eq_accept]
  exact (accept_stores hupload hplace).bind fun _ _ ht => resolve_ne_none ht.2.stocks

/-- After a completed request the module can be read where it was stored. -/
theorem execute_uploaded (budget : Nat) (thread : Option String) :
    (execute budget thread r).Ensures s fun a t => (∃ v vs, a = .completed v vs) → ∃ found,
      t.outside.disk.read? (t.outside.pathFor r.hash r.file) = some found ∧
        answersTo s.domain.digest r.hash found = true := by
  refine execute_of_accept (fun t u ht htu hvalid => ?_) ?_ budget thread
  · obtain ⟨found, hread, hanswers⟩ := ht
    obtain ⟨hhash, hname⟩ := validate_eq_ok hvalid
    exact ⟨found, (Storage.Fills.pathFor htu _ _).symm ▸ htu.stays _ _ _ hhash hname hread, hanswers⟩
  · refine (accept_stores hupload hplace).mono ?_
    rintro _ t ⟨hdomain, found, hread, hanswers⟩
    exact ⟨found, hread, hdomain ▸ hanswers⟩

end

end Server

/-! ## A place on the disk -/

namespace FileTree
variable {t : FileTree} {p q : Place}

/-- With a directory. -/
def withDirectory (t : FileTree) (p : Place) : FileTree :=
  if t.isDirectory p then t else { t with directories := p :: t.directories }

theorem files_withDirectory (t : FileTree) (p : Place) : (t.withDirectory p).files = t.files := by
  rw [withDirectory]
  split <;> rfl

theorem workingDirectory_withDirectory (t : FileTree) (p : Place) :
    (t.withDirectory p).workingDirectory = t.workingDirectory := by
  rw [withDirectory]
  split <;> rfl

theorem isDirectory_withDirectory : (t.withDirectory p).isDirectory q = (t.isDirectory q || q == p) := by
  rw [withDirectory]
  split
  · rename_i hthere
    cases hsame : q == p with
    | true => rw [eq_of_beq hsame, hthere, Bool.or_true]
    | false => rw [Bool.or_false]
  · simp only [isDirectory, List.contains_cons]
    cases q.isEmpty <;> cases t.directories.contains q <;> simp

end FileTree

namespace Storage

theorem change_apply {o : Storage} {path : String} {f : FileTree → Option FileTree} {disk : FileTree}
    (h : f o.disk = some disk) :
    change path f o = some (.ok (), { o with touched := path :: o.touched, disk }) := by
  simp only [change, touch, Run.bind_apply, Run.modify_apply, Run.get_apply, h]

/-- The sandbox is the working directory, and nothing there is in the way of a file. -/
structure Roomy (o : Storage) (hash name : String) : Prop where
  sandbox : o.sandbox = ""
  workingDirectory : o.disk.workingDirectory = []
  directory : o.disk.fileAt? [hash] = none
  file : o.disk.fileAt? [hash, name] = none
  free : o.disk.isDirectory [hash, name] = false

/-- With the file in its place. -/
def keeping (o : Storage) (hash name : String) (bytes : Bytes) : Storage := { o with
  disk := { o.disk.withDirectory [hash] with files := FileTree.insertFile [hash, name] bytes o.disk.files }
  touched := o.pathFor hash name :: o.sandboxFor hash :: o.pathFor hash name :: o.touched }

/-- Where nothing is in the way and there is no file yet, a file is kept. -/
theorem keep_missing {o : Storage} {hash name : String} (hsandbox : o.sandbox = "") (hworking : o.disk.workingDirectory = [])
    (hvacant : o.disk.fileAt? [hash] = none) (hfree : o.disk.isDirectory [hash, name] = false)
    (hmissing : o.disk.isFile (o.pathFor hash name) = false) (hhash : isPlainFileName hash = true)
    (hname : isPlainFileName name = true) (hhash' : FileTree.isUsable hash = true) (hname' : FileTree.isUsable name = true)
    (bytes : Bytes) : keep hash name bytes o = some (.ok (), o.keeping hash name bytes) ∧
      (o.keeping hash name bytes).disk.read? (o.pathFor hash name) = some bytes := by
  have hdirectory : o.sandboxFor hash = hash := by
    rw [sandboxFor, hsandbox, joinPath]
    simp
  have hpath : o.pathFor hash name = joinPath hash name := by rw [pathFor, hdirectory]
  have hproper : hash ≠ "" ∧ hash ≠ "." ∧ hash ≠ ".." := by
    refine ⟨?_, ?_, ?_⟩ <;>
    · rintro rfl
      cases hhash
  have hmade : o.disk.createDirectories? hash = some (o.disk.withDirectory [hash]) := by
    rw [FileTree.createDirectories?_plain hhash, FileTree.enterOrCreate, hworking]
    cases hthere : o.disk.isDirectory [hash] <;>
      simp [FileTree.stepTo, hproper, hthere, hhash', hvacant, hworking, FileTree.withDirectory]
  have hlocated : (o.disk.withDirectory [hash]).locate? (o.pathFor hash name) = some ([hash], name) := by
    rw [hpath, FileTree.locate?_below hhash hname hname', FileTree.workingDirectory_withDirectory, hworking]
    simp [FileTree.stepTo, hproper, FileTree.isDirectory_withDirectory]
  have hwritten : (o.disk.withDirectory [hash]).write? (o.pathFor hash name) bytes =
      some (o.keeping hash name bytes).disk := by
    have hfree : (o.disk.withDirectory [hash]).isDirectory [hash, name] = false := by
      simp [FileTree.isDirectory_withDirectory, hfree]
    rw [FileTree.write?, hlocated]
    refine (if_neg (Bool.eq_false_iff.mp hfree)).trans ?_
    rw [FileTree.files_withDirectory]
    rfl
  have hfirst : change (o.sandboxFor hash) (·.createDirectories? (o.sandboxFor hash))
      { o with touched := o.pathFor hash name :: o.touched } = some (.ok (), { o with
        touched := o.sandboxFor hash :: o.pathFor hash name :: o.touched, disk := o.disk.withDirectory [hash] }) :=
    change_apply (hdirectory.symm ▸ hmade)
  have hsecond : change (o.pathFor hash name) (·.write? (o.pathFor hash name) bytes)
      { o with touched := o.sandboxFor hash :: o.pathFor hash name :: o.touched, disk := o.disk.withDirectory [hash] } =
        some (.ok (), o.keeping hash name bytes) := change_apply hwritten
  refine ⟨?_, FileTree.read?_write?_self hwritten⟩
  have hkeep : keep hash name bytes o = (isFile (o.pathFor hash name) >>= fun there =>
      if there then pure () else change (o.sandboxFor hash) (·.createDirectories? (o.sandboxFor hash)) >>= fun _ =>
        change (o.pathFor hash name) (·.write? (o.pathFor hash name) bytes) : Run Storage Unit) o := rfl
  rw [hkeep, Run.bind_apply, isFile_apply, hmissing]
  dsimp only
  rw [if_neg Bool.false_ne_true, Run.bind_apply, hfirst]
  exact hsecond

theorem roomy_empty (hash name : String) : Roomy { sandbox := "" } hash name := ⟨rfl, rfl, rfl, rfl, rfl⟩

namespace Roomy
variable {o : Storage} {hash name : String}

theorem of_disk {o' : Storage} (h : o.Roomy hash name) (hsandbox : o'.sandbox = o.sandbox) (hdisk : o'.disk = o.disk) :
    o'.Roomy hash name where
  sandbox := hsandbox.trans h.sandbox
  workingDirectory := hdisk ▸ h.workingDirectory
  directory := hdisk ▸ h.directory
  file := hdisk ▸ h.file
  free := hdisk ▸ h.free

/-- Another file is not in the way. -/
theorem keeping {hash' name' : String} (h : o.Roomy hash name) (hother : ¬(hash = hash' ∧ name = name')) (bytes : Bytes) :
    (o.keeping hash' name' bytes).Roomy hash name where
  sandbox := h.sandbox
  workingDirectory := (FileTree.workingDirectory_withDirectory _ _).trans h.workingDirectory
  directory := (FileTree.lookup_insertFile_of_ne (by simp) _ _).trans h.directory
  file := (FileTree.lookup_insertFile_of_ne (by simpa using hother) _ _).trans h.file
  free := by
    have hmade := FileTree.isDirectory_withDirectory (t := o.disk) (p := [hash']) (q := [hash, name])
    rw [h.free] at hmade
    exact hmade.trans (by simp)

variable (h : o.Roomy hash name) (hhash : isPlainFileName hash = true) (hname : isPlainFileName name = true)
include h hhash hname

theorem missing : o.disk.isFile (o.pathFor hash name) = false := by
  have hhere : o.disk.placeOf "" = o.disk.workingDirectory := by
    rw [FileTree.placeOf, splitOn_slash]
    rfl
  have hplace : o.placeFor hash name = [hash, name] := by
    rw [Storage.placeFor_eq hhash hname, h.sandbox, hhere, h.workingDirectory]
    rfl
  rw [Bool.eq_false_iff]
  intro hfound
  obtain ⟨found, hread⟩ := FileTree.isFile_eq_true.mp hfound
  have hfile : o.disk.fileAt? (o.placeFor hash name) = some found := FileTree.read?_place hread
  rw [hplace] at hfile
  cases hfile.symm.trans h.file

/-- The file is kept. -/
theorem keep_eq (hhash' : FileTree.isUsable hash = true) (hname' : FileTree.isUsable name = true) (bytes : Bytes) :
    keep hash name bytes o = some (.ok (), o.keeping hash name bytes) ∧
      (o.keeping hash name bytes).disk.read? (o.pathFor hash name) = some bytes :=
  keep_missing h.sandbox h.workingDirectory h.directory h.free (h.missing hhash hname) hhash hname hhash' hname' bytes

end Roomy
end Storage

namespace Server
variable {r : Request Datum} {s : Server} {bytes : Bytes}

theorem validate_usable (h : validate r = .ok ()) : FileTree.isUsable r.hash = true := by
  unfold validate at h
  split at h
  · cases h
  · exact isUsable_of_isHexDigest (by simpa using ‹¬(!isHexDigest r.hash) = true›)

/-- With the module that it was sent, which it has looked for and read. -/
def stored (s : Server) (r : Request Datum) (bytes : Bytes) : Server := { s with outside := {
  s.outside.keeping r.hash r.file bytes with
    touched := List.replicate 3 (s.outside.pathFor r.hash r.file) ++ (s.outside.keeping r.hash r.file bytes).touched } }

/-- A server without probe directories that has a place for the module loads what it is sent. -/
theorem find_sent (hvalid : validate r = .ok ()) (husable : FileTree.isUsable r.file = true)
    (hprobe : s.outside.probePaths = []) (hhash : s.outside.versions.hash? r.type r.file = none)
    (hroom : s.outside.Roomy r.hash r.file) (hupload : r.upload = some bytes)
    (hdigest : s.domain.digest.digest bytes = r.hash) : find r s = (do
      let l ← State.loadFile bytes (some (s.outside.pathFor r.hash r.file))
      record r l
      return some l : Serving (Option LoadedModule)) (s.stored r bytes) := by
  obtain ⟨hplain, hplain'⟩ := validate_eq_ok hvalid
  obtain ⟨hkept, hread⟩ := hroom.keep_eq hplain hplain' (validate_usable hvalid) husable bytes
  let kept : Server := { s with outside := s.outside.keeping r.hash r.file bytes }
  have haccept : accept r s = some (.ok (), kept) := by
    unfold accept
    rw [hvalid, hupload, Run.ofExcept_ok, pure_bind]
    simp only [storeUpload, Run.get_bind, if_pos hdigest, onStorage, State.onOutside, Run.zoom, hkept, kept]
  have hdirectories : kept.outside.probePaths ++ [kept.outside.sandboxFor r.hash] = [s.outside.sandboxFor r.hash] := by
    have hpaths : kept.outside.probePaths = [] := hprobe
    rw [hpaths]
    rfl
  rw [find_eq_accept, Run.bind_apply, haccept]
  exact resolve_first hdirectories rfl hread (answersTo_eq_true.mpr (.inl hdigest)) hhash

end Server
end MobileCode
