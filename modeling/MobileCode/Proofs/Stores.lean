import MobileCode.Proofs.Paths
import MobileCode.Proofs.Versions

/-! # What a server has stored

A server only ever adds files to its sandbox, each in the directory of a hash. A file there has the hash, if a client has
sent it, or was carried along by a module with the hash. It is never written over, so that it can be read as long as the
server runs.
-/
namespace MobileCode

namespace FileTree
variable {t t' : FileTree} {path : String} {data bytes : Bytes}

theorem placeOf_extends (h : t.Extends t') : t'.placeOf path = t.placeOf path := by
  rw [placeOf, placeOf, start, start, h.workingDirectory]

theorem read?_place (h : t.read? path = some bytes) : t.fileAt? (t.placeOf path) = some bytes := by
  obtain ⟨⟨p, name⟩, hlocated, hfile⟩ := Option.bind_eq_some_iff.mp h
  rw [← locate?_place hlocated]
  exact hfile

theorem read?_of_place (hlocated : (t.locate? path).isSome = true) (h : t.fileAt? (t.placeOf path) = some bytes) :
    t.read? path = some bytes := by
  obtain ⟨⟨p, name⟩, hx⟩ := Option.isSome_iff_exists.mp hlocated
  rw [← locate?_place hx] at h
  rw [read?, hx]
  exact h

theorem write?_place (h : t.write? path data = some t') : t'.files = insertFile (t.placeOf path) data t.files := by
  obtain ⟨⟨p, name⟩, hlocated, h⟩ := Option.bind_eq_some_iff.mp h
  dsimp only at h
  split at h
  · cases h
  · cases h
    rw [← locate?_place hlocated]

theorem directories_write? (h : t.write? path data = some t') : t'.directories = t.directories := by
  obtain ⟨_, _, h⟩ := Option.bind_eq_some_iff.mp h
  dsimp only at h
  split at h <;> cases h
  rfl

theorem locate?_of_read? (h : t.read? path = some bytes) : (t.locate? path).isSome = true := by
  obtain ⟨x, hlocated, _⟩ := Option.bind_eq_some_iff.mp h
  rw [hlocated]
  rfl

theorem locate?_stays (h : t.Extends t') (hlocated : (t.locate? path).isSome = true) :
    (t'.locate? path).isSome = true := by
  obtain ⟨x, hx⟩ := Option.isSome_iff_exists.mp hlocated
  rw [locate?_extends h hx]
  rfl

end FileTree

namespace Storage
variable {o u v : Storage} {hash name : String} {bytes : Bytes}

/-- Where a file is kept under a hash. -/
def pathFor (o : Storage) (hash name : String) : String := joinPath (o.sandboxFor hash) name

def placeFor (o : Storage) (hash name : String) : Place := o.disk.placeOf (o.pathFor hash name)

theorem placeFor_eq (hhash : isPlainFileName hash = true) (hname : isPlainFileName name = true) :
    o.placeFor hash name = o.disk.placeOf o.sandbox ++ [hash, name] := by
  rw [placeFor, pathFor, FileTree.placeOf_joinPath hname, sandboxFor, FileTree.placeOf_joinPath hhash, List.append_assoc]
  rfl

/-- Other names are other places. -/
theorem placeFor_inj {hash' name' : String} (hhash : isPlainFileName hash = true) (hname : isPlainFileName name = true)
    (hhash' : isPlainFileName hash' = true) (hname' : isPlainFileName name' = true)
    (h : o.placeFor hash name = o.placeFor hash' name') : hash = hash' ∧ name = name' := by
  rw [placeFor_eq hhash hname, placeFor_eq hhash' hname', List.append_cancel_left_eq] at h
  simpa using h

/-- The sandbox holds what it held, and besides only files with the property. -/
structure Fills (P : String → String → Bytes → Prop) (o u : Storage) : Prop where
  settings : o.SameSettings u
  disk : o.disk.Extends u.disk
  stays : ∀ hash name bytes, isPlainFileName hash = true → isPlainFileName name = true →
    o.disk.read? (o.pathFor hash name) = some bytes → u.disk.read? (o.pathFor hash name) = some bytes
  comes : ∀ hash name bytes, isPlainFileName hash = true → isPlainFileName name = true →
    u.disk.fileAt? (o.placeFor hash name) = some bytes →
      o.disk.fileAt? (o.placeFor hash name) = some bytes ∨ P hash name bytes

namespace Fills
variable {P Q : String → String → Bytes → Prop}

theorem pathFor (h : o.Fills P u) (hash name : String) : u.pathFor hash name = o.pathFor hash name := by
  rw [Storage.pathFor, Storage.pathFor, sandboxFor, sandboxFor, h.settings.sandbox]

theorem placeFor (h : o.Fills P u) (hash name : String) : u.placeFor hash name = o.placeFor hash name := by
  rw [Storage.placeFor, Storage.placeFor, h.pathFor, FileTree.placeOf_extends h.disk]

theorem of_disk (hsettings : o.SameSettings u) (hdisk : u.disk = o.disk) : o.Fills P u where
  settings := hsettings
  disk := hdisk ▸ .refl o.disk
  stays _ _ _ _ _ h := hdisk ▸ h
  comes _ _ _ _ _ h := .inl (hdisk ▸ h)

theorem trans (h : o.Fills P u) (h' : u.Fills P v) : o.Fills P v where
  settings := h.settings.trans h'.settings
  disk := h.disk.trans h'.disk
  stays hash name bytes hhash hname hread := by
    have hthen := h'.stays hash name bytes hhash hname
    rw [h.pathFor] at hthen
    exact hthen (h.stays hash name bytes hhash hname hread)
  comes hash name bytes hhash hname hfile := by
    have hthen := h'.comes hash name bytes hhash hname
    rw [h.placeFor] at hthen
    exact (hthen hfile).elim (h.comes hash name bytes hhash hname) .inr

theorem mono (h : o.Fills P u) (hPQ : ∀ hash name bytes, P hash name bytes → Q hash name bytes) : o.Fills Q u where
  settings := h.settings
  disk := h.disk
  stays := h.stays
  comes hash name bytes hhash hname hfile := (h.comes hash name bytes hhash hname hfile).imp_right (hPQ _ _ _)

instance : IsPreorder Storage (Fills P) where
  refl o := .of_disk (.refl o) rfl
  trans _ _ _ := trans

end Fills

variable {P : String → String → Bytes → Prop}

theorem change_yields {path : String} {f : FileTree → Option FileTree} : (change path f).Yields o fun outcome u =>
    o.SameSettings u ∧ ((∃ v, outcome = .ok v) ∧ f o.disk = some u.disk ∨ u.disk = o.disk) := by
  intro outcome u h
  simp only [change, touch, Run.bind_apply, Run.modify_apply, Run.get_apply] at h
  cases hdisk : f o.disk with
  | none =>
    rw [hdisk] at h
    cases h
    exact ⟨⟨rfl, rfl⟩, .inr rfl⟩
  | some disk =>
    rw [hdisk] at h
    cases h
    exact ⟨⟨rfl, rfl⟩, .inl ⟨⟨_, rfl⟩, rfl⟩⟩

theorem Fills.of_directories {path : String} (hsettings : o.SameSettings u)
    (h : o.disk.createDirectories? path = some u.disk) : o.Fills P u where
  settings := hsettings
  disk := FileTree.extends_createDirectories? h
  stays _ _ _ _ _ hread := FileTree.read?_createDirectories? h hread
  comes hash name bytes _ _ hfile := by
    rw [FileTree.fileAt?, FileTree.files_createDirectories? h] at hfile
    exact .inl hfile

/-- A file comes where there was none. -/
theorem Fills.of_write (hhash : isPlainFileName hash = true) (hname : isPlainFileName name = true)
    (hnone : o.disk.isFile (o.pathFor hash name) = false) (hP : P hash name bytes) (hou : o.Fills P u)
    (hsettings : u.SameSettings v) (h : u.disk.write? (u.pathFor hash name) bytes = some v.disk) : o.Fills P v := by
  have hextends := FileTree.extends_write? h
  have hfiles := FileTree.write?_place h
  have hplace : u.disk.placeOf (u.pathFor hash name) = o.placeFor hash name := hou.placeFor hash name
  rw [hplace] at hfiles
  refine ⟨hou.settings.trans hsettings, hou.disk.trans hextends, ?_, ?_⟩
  · intro hash' name' found hhash' hname' hread
    have hread' := hou.stays _ _ _ hhash' hname' hread
    have hlocated := FileTree.locate?_stays hextends (FileTree.locate?_of_read? hread')
    refine FileTree.read?_of_place hlocated ?_
    have hplace' : v.disk.placeOf (o.pathFor hash' name') = o.placeFor hash' name' :=
      (FileTree.placeOf_extends (hou.disk.trans hextends))
    have hother : o.placeFor hash' name' ≠ o.placeFor hash name := by
      intro hsame
      obtain ⟨rfl, rfl⟩ := placeFor_inj hhash' hname' hhash hname hsame
      rw [FileTree.isFile, hread] at hnone
      cases hnone
    rw [hplace', FileTree.fileAt?, hfiles, FileTree.lookup_insertFile_of_ne hother]
    have hthere := FileTree.read?_place hread'
    rwa [FileTree.placeOf_extends hou.disk] at hthere
  · intro hash' name' found hhash' hname' hfile
    rw [FileTree.fileAt?, hfiles] at hfile
    by_cases hsame : o.placeFor hash' name' = o.placeFor hash name
    · obtain ⟨rfl, rfl⟩ := placeFor_inj hhash' hname' hhash hname hsame
      rw [FileTree.lookup_insertFile_self] at hfile
      exact .inr (Option.some.inj hfile ▸ hP)
    · rw [FileTree.lookup_insertFile_of_ne hsame] at hfile
      exact hou.comes _ _ _ hhash' hname' hfile

theorem keep_fills (hhash : isPlainFileName hash = true) (hname : isPlainFileName name = true)
    (hP : P hash name bytes) : (keep hash name bytes).Yields o fun _ u => o.Fills P u := by
  have hlooked : (isFile (o.pathFor hash name)).Yields o fun outcome u =>
      outcome = .ok (o.disk.isFile (o.pathFor hash name)) ∧ o.Fills P u := by
    intro outcome u h
    cases h
    exact ⟨rfl, .of_disk ⟨rfl, rfl⟩ rfl⟩
  unfold keep
  refine Run.Yields.get_bind (hlooked.bind ?_ fun e u h => h.2)
  rintro there u ⟨hthere, hou⟩
  split
  · exact .pure hou
  rename_i hmissing
  have hnone : o.disk.isFile (o.pathFor hash name) = false := by
    rw [← Except.ok.inj hthere]
    exact Bool.eq_false_iff.mpr hmissing
  have hcreated : (change (o.sandboxFor hash) (·.createDirectories? (o.sandboxFor hash))).Yields u fun _ v =>
      o.Fills P v := by
    rintro outcome v hv
    obtain ⟨hsettings, ⟨_, hdisk⟩ | hdisk⟩ := change_yields outcome v hv
    · exact hou.trans (.of_directories hsettings hdisk)
    · exact hou.trans (.of_disk hsettings hdisk)
  refine hcreated.bind (fun _ v hov => ?_) fun _ _ h => h
  intro outcome w hw
  obtain ⟨hsettings, ⟨_, hdisk⟩ | hdisk⟩ := change_yields outcome w hw
  · exact .of_write hhash hname hnone hP hov hsettings (hov.pathFor hash name ▸ hdisk)
  · exact hov.trans (.of_disk hsettings hdisk)

/-! ## Computations -/

/-- The computation adds to the sandbox only files with the property. -/
abbrev Adds (P : String → String → Bytes → Prop) {α : Type} (x : Run Storage α) : Prop := Run.Keeps (Fills P) x

theorem touch_adds (path : String) : Adds P (touch path) := by
  intro o outcome u h
  cases h
  exact .of_disk ⟨rfl, rfl⟩ rfl

theorem isFile_adds (path : String) : Adds P (isFile path) :=
  (touch_adds path).bind fun _ => Run.Keeps.get.bind fun _ => .pure _

theorem read_adds (path : String) : Adds P (read path) := by
  unfold read
  refine (touch_adds path).bind fun _ => Run.Keeps.get.bind fun o => ?_
  split
  · exact .pure _
  · exact .throw _

end Storage

/-- A digest in hexadecimal can be the name of a directory. -/
theorem isPlainFileName_of_isHexDigest {text : String} (h : isHexDigest text = true) : isPlainFileName text = true := by
  simp only [isHexDigest, Bool.and_eq_true, List.all_eq_true] at h
  obtain ⟨hlength, hdigits⟩ := h
  have hslash : '/' ∉ text.toList := fun hmem => absurd (hdigits '/' hmem) (by decide)
  have hother (short : String) (hshort : DigestAlgorithm.ofHexLength? short.utf8ByteSize = none) : text ≠ short := by
    rintro rfl
    rw [hshort] at hlength
    cases hlength
  exact isPlainFileName_iff.mpr ⟨hother "" rfl, hother "." rfl, hother ".." rfl, hslash⟩

theorem isUsable_of_isHexDigest {text : String} (h : isHexDigest text = true) : FileTree.isUsable text = true := by
  simp only [isHexDigest, Bool.and_eq_true, List.all_eq_true] at h
  obtain ⟨hlength, hdigits⟩ := h
  have hnull : '\x00' ∉ text.toList := fun hmem => absurd (hdigits _ hmem) (by decide)
  have hsize : text.utf8ByteSize ≤ 255 := by
    unfold DigestAlgorithm.ofHexLength? at hlength
    split at hlength
    · omega
    · omega
    · cases hlength
  simp [FileTree.isUsable, hnull, hsize]

namespace Server
open Storage
variable {P : String → String → Bytes → Prop} {s t : Server} {r : Request Datum}

theorem readFrom_adds (name : String) (directories : List String) : Adds P (readFrom name directories) := by
  induction directories with
  | nil => exact .pure _
  | cons directory rest ih =>
    unfold readFrom
    refine (isFile_adds _).bind fun there => ?_
    split
    · exact (read_adds _).bind fun _ => .pure _
    · exact ih

theorem probeIn_adds (algorithm : DigestAlgorithm) (directories : List String) :
    Adds P (probeIn r algorithm directories) := by
  induction directories with
  | nil => exact .pure _
  | cons directory rest ih =>
    unfold probeIn
    refine (isFile_adds _).bind fun there => ?_
    split
    · refine (read_adds _).bind fun bytes => ?_
      split
      · exact .pure _
      · exact ih
    · exact ih

theorem findReferenced_adds {m : LoadedModule} {hash : String} (hhash : isPlainFileName hash = true)
    (hP : ∀ name bytes, m.code.bundled? name = some bytes → P hash name bytes) (name : String) :
    Adds P (findReferenced m hash name) := by
  unfold findReferenced
  split
  · exact .pure _
  rename_i hname
  refine Run.Keeps.get.bind fun s => (readFrom_adds name _).bind fun found => ?_
  split
  · exact .pure _
  split
  · exact .pure _
  rename_i bytes hbytes
  refine Run.Keeps.bind (fun o => keep_fills hhash ?_ (hP name bytes hbytes)) fun _ => .pure _
  simpa using hname

/-- The sandbox of the server holds what it held, and besides only files with the property. -/
def Fills (P : String → String → Bytes → Prop) (s t : Server) : Prop := s.outside.Fills P t.outside

instance : IsPreorder Server (Fills P) where
  refl s := refl_of (Storage.Fills P) s.outside
  trans _ _ _ := Storage.Fills.trans

theorem onStorage_fills {α : Type} {x : Run Storage α} (hx : Adds P x) : (onStorage x).Respects True (Fills P) := by
  intro s outcome t h _
  exact (State.onOutside_yields (hx s.outside) outcome t h).2

/-! ## Requests -/

/-- Code that is run adds what the module of the request carries along. -/
theorem hostFor_fills (hhash : isPlainFileName r.hash = true) {m : LoadedModule}
    (hP : ∀ name bytes, m.code.bundled? name = some bytes → P r.hash name bytes) (thread : Option String) :
    (hostFor r thread m).Respects True (Fills P) where
  data s _ _ _ _ := refl_of (Storage.Fills P) s.outside
  loads s _ _ _ _ _ := refl_of (Storage.Fills P) s.outside
  resolver resolve hresolve name := by
    cases hresolve
    exact onStorage_fills (findReferenced_adds hhash hP name)
  natives type method native hnative args s a t h _ := by
    obtain rfl : s = t := Host.unchanged_of_standard rfl type method native hnative args s a t h (.inl trivial)
    exact refl_of (Fills P) s

theorem invoke_fills (hhash : isPlainFileName r.hash = true) {m : LoadedModule}
    (hP : ∀ name bytes, m.code.bundled? name = some bytes → P r.hash name bytes) (budget : Nat) (thread : Option String) :
    (invoke r (hostFor r thread m) (Machine.runner { host := hostFor r thread m } budget)).Respects True (Fills P) :=
  invoke_respects (hostFor_fills hhash hP thread).guards
    (Machine.runner_respects (hostFor_fills hhash hP thread).guards (fun _ _ h => by cases h) budget)

theorem resolve_fills (r : Request Datum) : (resolve r).Respects True (Fills P) := by
  have hrecord (l : LoadedModule) : (record r l).Respects True (Fills P) := by
    intro s outcome t h _
    cases h
    exact .of_disk ⟨rfl, rfl⟩ rfl
  have hprobed : (loadProbed r).Respects True (Fills P) := by
    unfold loadProbed
    have hprobe : (probe r).Respects True (Fills P) := Run.Respects.get.bind fun _ => onStorage_fills (probeIn_adds _ _)
    refine hprobe.bind fun found => ?_
    split
    · exact .pure _
    refine (onStorage_fills (read_adds _)).bind fun bytes => ?_
    refine (Host.loadFile_respects (fun s _ _ _ _ _ => refl_of (Storage.Fills P) s.outside) _ _).bind fun l => ?_
    exact (hrecord l).bind fun _ => .pure _
  unfold resolve
  refine Run.Respects.get.bind fun s => ?_
  split
  · exact hprobed
  split
  · exact .throw _
  split
  · exact hprobed
  · exact (hrecord _).bind fun _ => .pure _

theorem accept_valid (h : accept r s = some (.ok (), t)) : validate r = .ok () := by
  obtain ⟨_, _, hvalid, _⟩ := Run.bind_eq_ok.mp h
  cases hv : validate r with
  | ok _ => rfl
  | error e =>
    rw [hv] at hvalid
    cases hvalid

theorem validate_eq_ok (h : validate r = .ok ()) : isPlainFileName r.hash = true ∧ isPlainFileName r.file = true := by
  unfold validate at h
  split at h
  · cases h
  rename_i hhash
  split at h
  · cases h
  rename_i hname
  exact ⟨isPlainFileName_of_isHexDigest (by simpa using hhash), by simpa using hname⟩

/-- What a client sends is kept under its hash. -/
theorem accept_fills : (accept r).Yields s fun _ t =>
    Fills (fun hash _ bytes => hash = r.hash ∧ s.domain.digest.digest bytes = hash) s t := by
  unfold accept
  cases hvalid : validate r with
  | error e =>
    intro outcome t h
    cases h
    exact refl_of (Fills _) s
  | ok _ =>
    obtain ⟨hhash, hname⟩ := validate_eq_ok hvalid
    rw [Run.ofExcept_ok, pure_bind]
    cases r.upload with
    | none => exact .pure (refl_of (Fills _) s)
    | some bytes =>
      dsimp only
      unfold storeUpload
      refine Run.Yields.get_bind ?_
      dsimp only
      split
      · rename_i hdigest
        intro outcome t h
        exact (State.onOutside_yields (keep_fills hhash hname ⟨rfl, hdigest⟩) outcome t h).2
      · exact .throw (refl_of (Fills _) s)

theorem find_fills (hs : s.domain.Indexed) : (find r).Yields s fun outcome t =>
    Fills (fun hash _ bytes => hash = r.hash ∧ s.domain.digest.digest bytes = hash) s t ∧
      ∀ l, outcome = .ok (some l) → validate r = .ok () ∧ t.domain.module? l.name = some l := by
  intro outcome t h
  constructor
  · have hfills : (find r).Yields s fun _ t =>
        Fills (fun hash _ bytes => hash = r.hash ∧ s.domain.digest.digest bytes = hash) s t := by
      rw [find_eq_accept]
      refine accept_fills.bind (fun _ u hu => ?_) fun _ _ hu => hu
      intro outcome t h
      exact hu.trans (resolve_fills r u outcome t h (.inl trivial))
    exact hfills outcome t h
  · rintro l rfl
    rcases find_searched _ t h with ⟨_, hnone⟩ | ⟨v, hv, ⟨_, hnone⟩ | ⟨k, u, hk, hcomes, _, hrecord⟩⟩
    · exact absurd rfl (hnone l)
    · exact absurd rfl (hnone l)
    cases hk
    have hloaded := hcomes.loaded ((Stays.of_accept hv).1.indexed hs)
    refine ⟨accept_valid hv, ?_⟩
    cases hrecord
    exact hloaded

end Server

/-- Some loaded module carries the file along. -/
def Domain.Carries (d : Domain) (name : String) (bytes : Bytes) : Prop :=
  ∃ l, d.module? l.name = some l ∧ l.code.bundled? name = some bytes

theorem Domain.Carries.gains {d e : Domain} {name : String} {bytes : Bytes} (h : d.Carries name bytes)
    (hde : d.Gains e) : e.Carries name bytes := by
  obtain ⟨l, hl, hbytes⟩ := h
  exact ⟨l, hde.modules l.name l hl, hbytes⟩

namespace Server
variable {s t : Server} {r : Request Datum}

/-- Under its hash a request adds what a client sends and what loaded modules carry along. -/
theorem execute_fills (hs : s.domain.Indexed) (budget : Nat) (thread : Option String) :
    (execute budget thread r).Yields s fun _ t => Fills (fun hash name bytes =>
      hash = r.hash ∧ (s.domain.digest.digest bytes = hash ∨ t.domain.Carries name bytes)) s t := by
  have hserve : (serve r budget thread).Yields s fun _ t => Fills (fun hash name bytes =>
      hash = r.hash ∧ (s.domain.digest.digest bytes = hash ∨ t.domain.Carries name bytes)) s t := by
    rw [serve_eq_find]
    refine (find_fills hs).bind ?_ fun e t ht => Storage.Fills.mono ht.1 fun _ _ _ h => ⟨h.1, .inl h.2⟩
    rintro found u ⟨hfills, hfound⟩
    split
    · exact .pure (Storage.Fills.mono hfills fun _ _ _ h => ⟨h.1, .inl h.2⟩)
    rename_i l
    obtain ⟨hvalid, hl⟩ := hfound l rfl
    obtain ⟨hhash, _⟩ := validate_eq_ok hvalid
    intro outcome t h
    have hstays := invoke_stays r budget _ _ u outcome t h (.inl trivial)
    have hloaded := hstays.1.modules l.name l hl
    have hcarried (name : String) (bytes : Bytes) (hbytes : l.code.bundled? name = some bytes) :
        r.hash = r.hash ∧ (s.domain.digest.digest bytes = r.hash ∨ t.domain.Carries name bytes) :=
      ⟨rfl, .inr ⟨l, hloaded, hbytes⟩⟩
    exact Storage.Fills.trans (hfills.mono fun _ _ _ h => ⟨h.1, .inl h.2⟩)
      (invoke_fills (P := fun hash name bytes => hash = r.hash ∧
        (s.domain.digest.digest bytes = hash ∨ t.domain.Carries name bytes)) hhash hcarried budget _ u outcome t h (.inl trivial))
  unfold execute
  refine hserve.attempt_bind fun outcome t ht => ?_
  split
  · exact .pure ht
  · exact .pure ht

/-! ## Histories -/

/-- What holds when the request has been accepted holds when it is completed, if files may be added to the sandbox. -/
theorem execute_of_accept {Q : Server → Prop}
    (hQ : ∀ t u, Q t → Fills (fun _ _ _ => True) t u → validate r = .ok () → Q u)
    (haccept : (accept r).Ensures s fun _ t => Q t) (budget : Nat) (thread : Option String) :
    (execute budget thread r).Ensures s fun a t => (∃ v vs, a = .completed v vs) → Q t := by
  have hserve : (serve r budget thread).Ensures s fun _ t => Q t := by
    rw [serve_eq_find, find_eq_accept, bind_assoc]
    intro a t h
    obtain ⟨_, u, hu, h⟩ := Run.bind_eq_ok.mp h
    obtain ⟨found, v, hv, h⟩ := Run.bind_eq_ok.mp h
    have hvalid := accept_valid hu
    have hQv := hQ u v (haccept _ u hu) (resolve_fills r u _ v hv (.inl trivial)) hvalid
    cases found with
    | none =>
      cases h
      exact hQv
    | some l =>
      have hcarried : ∀ name bytes, l.code.bundled? name = some bytes → True := fun _ _ _ => trivial
      exact hQ v t hQv (invoke_fills (validate_eq_ok hvalid).1 hcarried budget _ v _ t h (.inl trivial)) hvalid
  unfold execute
  refine hserve.attempt.bind fun outcome t ht => ?_
  split
  · rename_i a
    exact .pure fun _ => ht a rfl
  · exact .pure (by simp)

theorem find_gains : (find r).Yields s fun _ t => s.domain.Gains t.domain := by
  intro outcome t h
  rcases find_searched outcome t h with ⟨hst, _⟩ | ⟨v, hv, ⟨hst, _⟩ | ⟨l, u, _, _, hstays, hrecord⟩⟩
  · exact hst.1
  · exact (trans_of Stays (.of_accept hv) hst).1
  · cases hrecord
    exact (trans_of Stays (.of_accept hv) hstays).1

namespace Serves
variable {turns : List Turn}

/-- What code that is run keeps, and the search for a module, every request keeps. -/
theorem keeps {P : Server → Prop} (hstays : ∀ s t, P s → Stays s t → P t)
    (hfind : ∀ r s, P s → (find r).Yields s fun _ t => P t) (h : Serves s turns t) (hs : P s) : P t := by
  induction h with
  | nil s => exact hs
  | @cons x turns t hexecute _ ih =>
    refine ih (execute_of_find hstays (Q := fun _ => True) (fun _ _ h _ => h) ?_ x.budget x.thread _ _ hexecute).1
    exact fun outcome t h => ⟨hfind x.request x.before hs outcome t h, fun _ => trivial⟩

theorem gains (h : Serves s turns t) : s.domain.Gains t.domain := by
  refine h.keeps (P := fun u => s.domain.Gains u.domain) (fun u v hu huv => hu.trans huv.1) ?_ (.refl s.domain)
  intro r u hu outcome v hv
  exact hu.trans (find_gains outcome v hv)

/-- What has come into the sandbox was sent under its hash or carried along. -/
theorem fills (h : Serves s turns t) (hs : s.domain.Indexed) : Fills (fun hash name bytes =>
    (∃ x ∈ turns, x.before.domain.digest.digest bytes = hash) ∨ t.domain.Carries name bytes) s t := by
  induction h with
  | nil s => exact refl_of (Fills _) s
  | @cons x turns t hexecute hrest ih =>
    have hgains := (execute_of_find (fun u v hu huv => hu.trans huv.1) (Q := fun _ => True) (fun _ _ h _ => h)
      (fun outcome u h => ⟨find_gains outcome u h, fun _ => trivial⟩) x.budget x.thread _ x.after hexecute).1
    have hturn := execute_fills hs x.budget x.thread _ x.after hexecute
    refine Storage.Fills.trans (hturn.mono fun hash name bytes h => ?_)
      ((ih (hgains.indexed hs)).mono fun hash name bytes h => ?_)
    · exact h.2.imp (fun h => ⟨x, List.mem_cons_self, h⟩) (·.gains hrest.gains)
    · exact h.imp_left fun ⟨y, hy, h⟩ => ⟨y, List.mem_cons_of_mem _ hy, h⟩

variable {hash name : String}

/-- What can be read in the sandbox can be read later. -/
theorem reads (h : Serves s turns t) (hs : s.domain.Indexed) (hhash : isPlainFileName hash = true)
    (hname : isPlainFileName name = true) {bytes : Bytes}
    (hread : s.outside.disk.read? (s.outside.pathFor hash name) = some bytes) :
    t.outside.disk.read? (t.outside.pathFor hash name) = some bytes := by
  have hfills := h.fills hs
  rw [Storage.Fills.pathFor hfills]
  exact hfills.stays _ _ _ hhash hname hread

/-- A file in the sandbox answers to its hash unless a loaded module carries along one of that name, if so did the one
that stood in its place when the server began. -/
theorem answers (h : Serves s turns t) (hs : s.domain.Indexed) (hhash : isPlainFileName hash = true)
    (hname : isPlainFileName name = true) (hdigest : ∀ x ∈ turns, x.before.domain.digest = t.domain.digest)
    (hplace : ∀ bytes, s.outside.disk.fileAt? (s.outside.placeFor hash name) = some bytes →
      answersTo t.domain.digest hash bytes = true)
    (hcarried : ∀ bytes, ¬t.domain.Carries name bytes) {bytes : Bytes}
    (hread : t.outside.disk.read? (t.outside.pathFor hash name) = some bytes) :
    answersTo t.domain.digest hash bytes = true := by
  have hfills := h.fills hs
  have hfile : t.outside.disk.fileAt? (t.outside.placeFor hash name) = some bytes := FileTree.read?_place hread
  rw [Storage.Fills.placeFor hfills] at hfile
  rcases hfills.comes _ _ _ hhash hname hfile with hold | ⟨x, hx, hsent⟩ | hfound
  · exact hplace bytes hold
  · exact answersTo_eq_true.mpr (.inl (hdigest x hx ▸ hsent))
  · exact absurd hfound (hcarried bytes)

end Serves
end Server
end MobileCode
