import MobileCode.Proofs.Histories

/-! # Files that a server keeps

Keeping a file adds a file and directories. What could be read can be read afterwards, at the same paths, though the
new file may stand in its place. So a file that answers to the hash of a request is found as long as the server runs,
and a server that has one never asks for the module.
-/
namespace MobileCode

/-! ## Directories and files -/

namespace FileTree
variable {t t' : FileTree} {path : String} {p q : Place} {data bytes : Bytes}

/-- Names are resolved from the same directory, and no directory is gone. -/
structure Extends (t t' : FileTree) : Prop where
  workingDirectory : t'.workingDirectory = t.workingDirectory
  directories : ∀ p, t.isDirectory p = true → t'.isDirectory p = true

theorem Extends.refl (t : FileTree) : t.Extends t := ⟨rfl, fun _ h => h⟩

theorem Extends.trans {t'' : FileTree} (h : t.Extends t') (h' : t'.Extends t'') : t.Extends t'' where
  workingDirectory := h'.workingDirectory.trans h.workingDirectory
  directories p hp := h'.directories p (h.directories p hp)

theorem stepTo_extends (h : t.Extends t') {component : String} (hq : t.stepTo p component = some q) :
    t'.stepTo p component = some q := by
  unfold stepTo at hq ⊢
  split at hq
  · rw [if_pos ‹_›]
    exact hq
  rw [if_neg ‹_›]
  split at hq
  · rw [if_pos ‹_›]
    exact hq
  rw [if_neg ‹_›]
  dsimp only at hq ⊢
  split at hq
  · rw [if_pos (h.directories _ ‹_›)]
    exact hq
  · cases hq

theorem locate?_extends (h : t.Extends t') {x : Place × String} (hx : t.locate? path = some x) :
    t'.locate? path = some x := by
  have hwalk (components : List String) {p q : Place} (hq : components.foldlM t.stepTo p = some q) :
      components.foldlM t'.stepTo p = some q := by
    induction components generalizing p with
    | nil => exact hq
    | cons c rest ih =>
      rw [List.foldlM_cons, Option.bind_eq_bind, Option.bind_eq_some_iff] at hq ⊢
      obtain ⟨p', hp', hq⟩ := hq
      exact ⟨p', stepTo_extends h hp', ih hq⟩
  have hstart : t'.start path = t.start path := by
    rw [start, start, h.workingDirectory]
  unfold locate? at hx ⊢
  split at hx
  · cases hx
  split at hx
  · cases hx
  rw [if_neg ‹_›, hstart]
  rw [Option.map_eq_some_iff] at hx ⊢
  obtain ⟨p, hp, rfl⟩ := hx
  exact ⟨p, hwalk _ hp, rfl⟩

theorem extends_createDirectories? (h : t.createDirectories? path = some t') : t.Extends t' := by
  have henter {s u : FileTree × Place} {component : String} (hu : enterOrCreate s component = some u) :
      s.1.Extends u.1 := by
    obtain ⟨t, q⟩ := s
    simp only [enterOrCreate] at hu
    split at hu
    · cases hu
      exact .refl t
    · split at hu <;> cases hu
      refine ⟨rfl, fun p hp => ?_⟩
      simp only [isDirectory, Bool.or_eq_true, List.contains_cons] at hp ⊢
      exact hp.imp_right .inr
  have hall (components : List String) {s u : FileTree × Place} (hu : components.foldlM enterOrCreate s = some u) :
      s.1.Extends u.1 := by
    induction components generalizing s with
    | nil =>
      cases hu
      exact .refl _
    | cons c rest ih =>
      rw [List.foldlM_cons, Option.bind_eq_bind, Option.bind_eq_some_iff] at hu
      obtain ⟨s', hs', hu⟩ := hu
      exact (henter hs').trans (ih hu)
  obtain ⟨u, hu, rfl⟩ := Option.map_eq_some_iff.mp h
  exact hall _ hu

theorem lookup_insertFile_self (p : Place) (data : Bytes) (files : List (Place × Bytes)) :
    (insertFile p data files).lookup p = some data := by
  induction files with
  | nil => simp [insertFile]
  | cons x rest ih =>
    obtain ⟨q, old⟩ := x
    unfold insertFile
    split
    · simp
    split
    · simp
    · rename_i hne
      rw [List.lookup_cons, beq_eq_false_iff_ne.mpr hne]
      exact ih

theorem lookup_insertFile_of_ne (hne : q ≠ p) (data : Bytes) (files : List (Place × Bytes)) :
    (insertFile p data files).lookup q = files.lookup q := by
  have hbeq : (q == p) = false := beq_eq_false_iff_ne.mpr hne
  induction files with
  | nil => simp [insertFile, List.lookup_cons, hbeq]
  | cons x rest ih =>
    obtain ⟨place, old⟩ := x
    unfold insertFile
    split
    · rw [List.lookup_cons, hbeq]
    split
    · subst place
      simp only [List.lookup_cons, hbeq]
    · rw [List.lookup_cons, List.lookup_cons, ih]

theorem extends_write? (h : t.write? path data = some t') : t.Extends t' := by
  simp only [write?, Option.bind_eq_bind, Option.bind_eq_some_iff] at h
  obtain ⟨_, _, h⟩ := h
  split at h
  · cases h
  · cases h
    exact ⟨rfl, fun _ h => h⟩

/-- What was written is read at the same path. -/
theorem read?_write?_self (h : t.write? path data = some t') : t'.read? path = some data := by
  have hextends := extends_write? h
  simp only [write?, Option.bind_eq_bind, Option.bind_eq_some_iff] at h
  obtain ⟨⟨p, name⟩, hlocated, h⟩ := h
  split at h
  · cases h
  · cases h
    rw [read?, locate?_extends hextends hlocated]
    exact lookup_insertFile_self _ _ _

/-- At every other path there is what was there before, if this is not another name for the same file. -/
theorem read?_write? {other : String} (h : t.write? path data = some t') (hread : t.read? other = some bytes) :
    t'.read? other = some data ∨ t'.read? other = some bytes := by
  have hextends := extends_write? h
  simp only [write?, Option.bind_eq_bind, Option.bind_eq_some_iff] at h
  simp only [read?, Option.bind_eq_bind, Option.bind_eq_some_iff] at hread
  obtain ⟨⟨p, name⟩, _, h⟩ := h
  obtain ⟨⟨q, name'⟩, hlocated, hread⟩ := hread
  split at h
  · cases h
  cases h
  rw [read?, locate?_extends hextends hlocated]
  by_cases hsame : q ++ [name'] = p ++ [name]
  · refine .inl ?_
    show (insertFile _ _ _).lookup (q ++ [name']) = some data
    rw [hsame]
    exact lookup_insertFile_self _ _ _
  · exact .inr ((lookup_insertFile_of_ne hsame _ _).trans hread)

theorem read?_createDirectories? {other : String} (h : t.createDirectories? path = some t')
    (hread : t.read? other = some bytes) : t'.read? other = some bytes := by
  simp only [read?, Option.bind_eq_bind, Option.bind_eq_some_iff] at hread ⊢
  obtain ⟨x, hlocated, hread⟩ := hread
  refine ⟨x, locate?_extends (extends_createDirectories? h) hlocated, ?_⟩
  rw [fileAt?, files_createDirectories? h]
  exact hread

theorem isFile_eq_true : t.isFile path = true ↔ ∃ bytes, t.read? path = some bytes := by
  rw [isFile, Option.isSome_iff_exists]

end FileTree

/-! ## Keeping -/

namespace Storage
variable {s t : Storage}

/-- The settings of the storage, which no operation changes. -/
structure SameSettings (s t : Storage) : Prop where
  probePaths : t.probePaths = s.probePaths
  sandbox : t.sandbox = s.sandbox

theorem SameSettings.refl (s : Storage) : s.SameSettings s := ⟨rfl, rfl⟩

theorem SameSettings.trans {u : Storage} (h : s.SameSettings t) (h' : t.SameSettings u) : s.SameSettings u :=
  ⟨h'.probePaths.trans h.probePaths, h'.sandbox.trans h.sandbox⟩

/-- The storage has the settings it had, and every file can be read that could be; only the new bytes may have come in
the place of others. -/
structure Kept (bytes : Bytes) (s t : Storage) : Prop where
  settings : s.SameSettings t
  files : ∀ path found, s.disk.read? path = some found →
    t.disk.read? path = some bytes ∨ t.disk.read? path = some found

theorem change_eq_ok {path : String} {f : FileTree → Option FileTree} {u : Unit} (h : change path f s = some (.ok u, t)) :
    f s.disk = some t.disk ∧ s.SameSettings t := by
  simp only [change, touch, Run.bind_eq_ok, Run.modify_apply, Run.get_apply] at h
  obtain ⟨_, _, hs, _, _, hs', h⟩ := h
  cases hs
  cases hs'
  cases hdisk : f s.disk with
  | none =>
    simp only [hdisk] at h
    cases h
  | some disk =>
    simp only [hdisk] at h
    cases h
    exact ⟨rfl, rfl, rfl⟩

/-- A file that is kept can be read where it was to be kept, unless there was one already. -/
theorem keep_kept {hash name : String} {bytes : Bytes} : (keep hash name bytes).Ensures s fun _ t => s.Kept bytes t ∧
    (s.disk.isFile (joinPath (s.sandboxFor hash) name) = true ∨
      t.disk.read? (joinPath (s.sandboxFor hash) name) = some bytes) := by
  unfold keep
  refine Run.Ensures.get_bind ?_
  intro u t h
  simp only [Run.bind_apply, isFile_apply] at h
  split at h
  · rename_i hthere
    cases h
    exact ⟨⟨⟨rfl, rfl⟩, fun _ _ h => .inr h⟩, .inl hthere⟩
  · obtain ⟨_, v, hcreate, hwrite⟩ := Run.bind_eq_ok.mp h
    obtain ⟨hcreated, hsettings⟩ := change_eq_ok hcreate
    obtain ⟨hwritten, hsettings'⟩ := change_eq_ok hwrite
    refine ⟨⟨⟨?_, ?_⟩, fun path found hread => ?_⟩, .inr (FileTree.read?_write?_self hwritten)⟩
    · exact hsettings'.probePaths.trans hsettings.probePaths
    · exact hsettings'.sandbox.trans hsettings.sandbox
    · exact FileTree.read?_write? hwritten (FileTree.read?_createDirectories? hcreated hread)

end Storage

/-! ## Probing -/

namespace Server
variable {r : Request Datum} {s : Server}

/-- The directory has a file of the name that answers to the hash. -/
def HasFile (algorithm : DigestAlgorithm) (r : Request Datum) (disk : FileTree) (directory : String) : Prop :=
  ∃ bytes, disk.read? (joinPath directory r.file) = some bytes ∧ answersTo algorithm r.hash bytes = true

/-- No file in another directory keeps the search from finding one. -/
theorem probeIn_finds {algorithm : DigestAlgorithm} {directories : List String} {directory : String}
    (hmem : directory ∈ directories) {o : Storage} (hfile : HasFile algorithm r o.disk directory) :
    ∃ path t, probeIn r algorithm directories o = some (.ok (some path), t) := by
  induction directories generalizing o with
  | nil => cases hmem
  | cons first rest ih =>
    have hrest {t : Storage} (hdisk : t.disk = o.disk) (hneither : ¬HasFile algorithm r o.disk first) :
        ∃ path u, probeIn r algorithm rest t = some (.ok (some path), u) := by
      refine ih ?_ (hdisk ▸ hfile)
      rcases List.mem_cons.mp hmem with rfl | hmem
      · exact absurd hfile hneither
      · exact hmem
    simp only [probeIn, Run.bind_apply, Storage.isFile_apply]
    split
    · rename_i hthere
      obtain ⟨bytes, hread⟩ := FileTree.isFile_eq_true.mp hthere
      have hread' : Storage.read (joinPath first r.file) { o with touched := joinPath first r.file :: o.touched } =
          some (.ok bytes, _) := Storage.read_found hread
      simp only [Run.bind_apply, hread']
      split
      · exact ⟨_, _, rfl⟩
      · rename_i hother
        refine hrest rfl ?_
        rintro ⟨found, hfound, hanswers⟩
        rw [hread] at hfound
        cases hfound
        exact hother hanswers
    · rename_i hmissing
      refine hrest rfl ?_
      rintro ⟨found, hfound, _⟩
      exact hmissing (FileTree.isFile_eq_true.mpr ⟨found, hfound⟩)

/-- One of the directories that are searched for the request has a file for it. -/
def Stocks (s : Server) (r : Request Datum) : Prop :=
  ∃ directory ∈ s.outside.probePaths ++ [s.outside.sandboxFor r.hash],
    HasFile s.domain.digest r s.outside.disk directory

theorem probe_finds (hstocks : s.Stocks r) : ∃ path t, probe r s = some (.ok (some path), t) := by
  obtain ⟨directory, hmem, hfile⟩ := hstocks
  obtain ⟨path, o, hprobe⟩ := probeIn_finds hmem hfile
  refine ⟨path, { s with outside := o }, ?_⟩
  unfold probe onStorage State.onOutside Run.zoom
  rw [Run.get_bind, hprobe]

/-- Whatever is kept under the hash of the request, there still is a file for it. -/
theorem Stocks.of_kept {t : Server} {bytes : Bytes} (hstocks : s.Stocks r) (hdomain : t.domain = s.domain)
    (hkept : s.outside.Kept bytes t.outside) (hbytes : answersTo s.domain.digest r.hash bytes = true) : t.Stocks r := by
  obtain ⟨directory, hmem, found, hread, hanswers⟩ := hstocks
  have hpaths : t.outside.probePaths ++ [t.outside.sandboxFor r.hash] =
      s.outside.probePaths ++ [s.outside.sandboxFor r.hash] := by
    rw [Storage.sandboxFor, Storage.sandboxFor, hkept.settings.probePaths, hkept.settings.sandbox]
  refine ⟨directory, hpaths ▸ hmem, ?_⟩
  rw [hdomain]
  rcases hkept.files _ _ hread with hnew | hold
  · exact ⟨bytes, hnew, hbytes⟩
  · exact ⟨found, hold, hanswers⟩

theorem answersTo_eq_true {algorithm : DigestAlgorithm} {hash : String} {bytes : Bytes} :
    answersTo algorithm hash bytes = true ↔
      algorithm.digest bytes = hash ∨ ∃ n, Module.ofFile bytes = .ok n ∧ n.pairedHash = some hash := by
  rw [answersTo, Bool.or_eq_true, decide_eq_true_iff]
  refine or_congr_right ?_
  cases Module.ofFile bytes <;> simp

/-- What a server keeps of an upload has the hash that the request names. -/
theorem storeUpload_kept {bytes : Bytes} : (storeUpload r bytes).Ensures s fun _ t =>
    t.domain = s.domain ∧ s.domain.digest.digest bytes = r.hash ∧ s.outside.Kept bytes t.outside ∧
      (s.outside.disk.isFile (joinPath (s.outside.sandboxFor r.hash) r.file) = true ∨
        t.outside.disk.read? (joinPath (s.outside.sandboxFor r.hash) r.file) = some bytes) := by
  unfold storeUpload
  refine Run.Ensures.get_bind ?_
  dsimp only
  split
  · rename_i hdigest
    exact (State.onOutside_ensures Storage.keep_kept).mono fun _ t ht => ⟨ht.1, hdigest, ht.2⟩
  · exact .throw

/-! ## Never unknown -/

theorem loadProbed_ne_none (hstocks : s.Stocks r) : (loadProbed r).Ensures s fun found _ => found ≠ none := by
  obtain ⟨path, t, hprobe⟩ := probe_finds hstocks
  intro found u h
  rw [loadProbed, Run.bind_apply, hprobe] at h
  obtain ⟨_, _, _, h⟩ := Run.bind_eq_ok.mp h
  obtain ⟨_, _, _, h⟩ := Run.bind_eq_ok.mp h
  obtain ⟨_, _, _, h⟩ := Run.bind_eq_ok.mp h
  cases h
  simp

theorem resolve_ne_none (hstocks : s.Stocks r) : (resolve r).Ensures s fun found _ => found ≠ none := by
  unfold resolve
  refine Run.Ensures.get_bind ?_
  split
  · exact loadProbed_ne_none hstocks
  split
  · exact .throw
  split
  · exact loadProbed_ne_none hstocks
  · exact .after fun _ _ => .pure (by simp)

theorem find_ne_none (hstocks : s.Stocks r) : (find r).Ensures s fun found _ => found ≠ none := by
  unfold find
  refine .ofExcept_bind fun _ _ => ?_
  cases r.upload with
  | none => exact resolve_ne_none hstocks
  | some bytes =>
    refine storeUpload_kept.bind ?_
    rintro _ t ⟨hdomain, hdigest, hkept, _⟩
    exact resolve_ne_none (hstocks.of_kept hdomain hkept (answersTo_eq_true.mpr (.inl hdigest)))

theorem invoke_completed {host : Host Storage} {run : Runner Storage} :
    (invoke r host run).Ensures s fun a _ => ∃ v vs, a = .completed v vs := by
  unfold invoke
  refine .after fun args _ => .after fun nonLocals _ => .after fun asked _ => .after fun entry _ => ?_
  dsimp only
  split
  all_goals
    refine .after fun receiver _ => ?_
    split
    · exact .after fun _ _ => .after fun _ _ => .after fun back _ => .after fun _ _ => .pure ⟨_, _, rfl⟩
    · exact .after fun _ _ => .pure ⟨_, _, rfl⟩

/-- A server asks for the module only if it finds none. -/
theorem execute_ne_unknown (hfind : (find r).Ensures s fun found _ => found ≠ none) {budget : Nat} {thread : Option String} :
    (execute budget thread r).Ensures s fun a _ => a ≠ .moduleUnknown := by
  have hserve : (serve r budget thread).Ensures s fun a _ => a ≠ .moduleUnknown := by
    rw [serve_eq_find]
    refine hfind.bind fun found t hfound => ?_
    split
    · exact absurd rfl hfound
    · refine invoke_completed.mono ?_
      rintro _ _ ⟨v, vs, rfl⟩
      simp
  unfold execute
  refine hserve.attempt.bind fun outcome t hcompleted => ?_
  split
  · rename_i a
    exact .pure (hcompleted a rfl)
  · exact .pure (by simp)

end Server
end MobileCode
