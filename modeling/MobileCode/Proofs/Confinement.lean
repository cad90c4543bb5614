import MobileCode.Proofs.Digests
import MobileCode.Proofs.Stores

/-! # The paths that a server uses

Names of modules come from clients and from the code that is run. Whatever they are, a server touches only entries of its
probe directories, the directories of hashes in its sandbox and the entries of these. A request whose hash or file name
cannot name such an entry is refused, and nothing is touched.
-/
namespace MobileCode

/-! ## Names of directories -/

def IsHexDigit (c : Char) : Prop := '0' ≤ c ∧ c ≤ '9' ∨ 'a' ≤ c ∧ c ≤ 'f' ∨ 'A' ≤ c ∧ c ≤ 'F'

theorem Bytes.hexValue?_isSome_iff {c : Char} : (hexValue? c).isSome = true ↔ IsHexDigit c := by
  unfold hexValue? IsHexDigit
  split
  · simp [*]
  split
  · simp [*]
  split <;> simp [*]

theorem IsHexDigit.utf8Size {c : Char} (h : IsHexDigit c) : c.utf8Size = 1 := by
  rw [Char.utf8Size_eq_one_iff]
  have hbelow (high : Char) (hc : c ≤ high) (hhigh : high.val ≤ 127) : c.val ≤ 127 := UInt32.le_trans hc hhigh
  obtain ⟨_, hc⟩ | ⟨_, hc⟩ | ⟨_, hc⟩ := h
  · exact hbelow '9' hc (by decide)
  · exact hbelow 'f' hc (by decide)
  · exact hbelow 'F' hc (by decide)

/-- As many digits as one of the digests has. -/
structure IsDigestName (text : String) : Prop where
  length : text.length = 32 ∨ text.length = 40
  digits : ∀ c ∈ text.toList, IsHexDigit c

theorem DigestAlgorithm.ofHexLength?_isSome_iff {n : Nat} : (ofHexLength? n).isSome = true ↔ n = 32 ∨ n = 40 := by
  unfold ofHexLength?
  split
  · simp
  · simp
  · rename_i h40 h32
    simpa using ⟨h32, h40⟩

theorem isHexDigest_iff {text : String} : isHexDigest text = true ↔ IsDigestName text := by
  rw [isHexDigest, Bool.and_eq_true, List.all_eq_true, DigestAlgorithm.ofHexLength?_isSome_iff]
  have hsize (hdigits : ∀ c ∈ text.toList, IsHexDigit c) : text.utf8ByteSize = text.length := by
    have hchars := Bytes.utf8ByteSize_ofList fun c hc => (hdigits c hc).utf8Size
    rwa [String.ofList_toList, String.length_toList] at hchars
  constructor
  · rintro ⟨hlength, hvalued⟩
    have hdigits := fun c hc => Bytes.hexValue?_isSome_iff.mp (hvalued c hc)
    exact ⟨hsize hdigits ▸ hlength, hdigits⟩
  · rintro ⟨hlength, hdigits⟩
    exact ⟨(hsize hdigits).symm ▸ hlength, fun c hc => Bytes.hexValue?_isSome_iff.mpr (hdigits c hc)⟩

theorem IsDigestName.isEntryName {text : String} (h : IsDigestName text) : IsEntryName text :=
  isPlainFileName_iff.mp (isPlainFileName_of_isHexDigest (isHexDigest_iff.mpr h))

/-! ## Directories on the way -/

namespace FileTree
variable {t t' : FileTree} {path : String} {p : Place}

/-- The places that a path name leads through. -/
def along (t : FileTree) (path : String) : List Place := (path.splitOn "/").scanl towards (t.start path)

theorem mem_scanl_towards (components : List String) : p ∈ components.scanl towards p := by
  cases components <;> simp

theorem enterOrCreate_towards {q : Place} {component : String} (h : enterOrCreate (t, p) component = some (t', q)) :
    q = towards p component ∧ ∀ d ∈ t'.directories, d ∈ t.directories ∨ d = q := by
  simp only [enterOrCreate] at h
  split at h
  · rename_i hstep
    cases h
    exact ⟨stepTo_towards hstep, fun _ => .inl⟩
  rename_i hnone
  split at h <;> cases h
  refine ⟨?_, fun d hd => (List.mem_cons.mp hd).symm⟩
  -- only a component that is a name may lead nowhere
  unfold stepTo at hnone
  unfold towards
  split at hnone
  · cases hnone
  split at hnone
  · cases hnone
  · rw [if_neg ‹_›, if_neg ‹_›]

/-- Directories are created on the way only. -/
theorem directories_createDirectories? (h : t.createDirectories? path = some t') :
    ∀ d ∈ t'.directories, d ∈ t.directories ∨ d ∈ t.along path := by
  have hall (components : List String) {t : FileTree} {p : Place} {u : FileTree × Place}
      (hu : components.foldlM enterOrCreate (t, p) = some u) :
      ∀ d ∈ u.1.directories, d ∈ t.directories ∨ d ∈ components.scanl towards p := by
    induction components generalizing t p with
    | nil =>
      cases hu
      exact fun _ => .inl
    | cons c rest ih =>
      rw [List.foldlM_cons, Option.bind_eq_bind, Option.bind_eq_some_iff] at hu
      obtain ⟨⟨t', q⟩, hstep, hu⟩ := hu
      obtain ⟨rfl, hcreated⟩ := enterOrCreate_towards hstep
      intro d hd
      rw [List.scanl_cons, List.mem_cons]
      obtain hd | hd := ih hu d hd
      · obtain hd | rfl := hcreated d hd
        · exact .inl hd
        · exact .inr (.inr (mem_scanl_towards rest))
      · exact .inr (.inr hd)
  obtain ⟨u, hu, rfl⟩ := Option.map_eq_some_iff.mp h
  exact hall _ hu

end FileTree

/-! ## Storage -/

namespace Storage
variable {o u v : Storage} {hash name path : String} {bytes : Bytes}

/-- The path names that a server may use: entries of the probe directories, directories of hashes and entries of these. -/
inductive Permits (o : Storage) : String → Prop
  | probed {directory name : String} : directory ∈ o.probePaths → IsEntryName name →
    Permits o (joinPath directory name)
  | directory {hash : String} : IsDigestName hash → Permits o (o.sandboxFor hash)
  | kept {hash name : String} : IsDigestName hash → IsEntryName name → Permits o (o.pathFor hash name)

/-- Only permitted paths were touched, no file has changed but in the directories of hashes, and no directory has come but
on the way to these. -/
structure Confined (o u : Storage) : Prop where
  settings : o.SameSettings u
  workingDirectory : u.disk.workingDirectory = o.disk.workingDirectory
  touched : ∃ paths, u.touched = paths ++ o.touched ∧ ∀ path ∈ paths, o.Permits path
  files : ∀ p, (∀ hash name, IsDigestName hash → IsEntryName name → p ≠ o.placeFor hash name) →
    u.disk.fileAt? p = o.disk.fileAt? p
  directories : ∀ p ∈ u.disk.directories, p ∈ o.disk.directories ∨
    ∃ hash, IsDigestName hash ∧ p ∈ o.disk.along (o.sandboxFor hash)

namespace Confined

theorem sandboxFor (h : o.Confined u) (hash : String) : u.sandboxFor hash = o.sandboxFor hash := by
  rw [Storage.sandboxFor, Storage.sandboxFor, h.settings.sandbox]

theorem pathFor (h : o.Confined u) (hash name : String) : u.pathFor hash name = o.pathFor hash name := by
  rw [Storage.pathFor, Storage.pathFor, h.sandboxFor]

theorem start (h : o.Confined u) (path : String) : u.disk.start path = o.disk.start path := by
  rw [FileTree.start, FileTree.start, h.workingDirectory]

theorem placeFor (h : o.Confined u) (hash name : String) : u.placeFor hash name = o.placeFor hash name := by
  rw [Storage.placeFor, Storage.placeFor, FileTree.placeOf, FileTree.placeOf, h.pathFor, h.start]

theorem along (h : o.Confined u) (hash : String) :
    u.disk.along (u.sandboxFor hash) = o.disk.along (o.sandboxFor hash) := by
  rw [FileTree.along, FileTree.along, h.sandboxFor, h.start]

theorem permits (h : o.Confined u) : u.Permits path ↔ o.Permits path := by
  constructor
  · rintro (⟨hdirectory, hname⟩ | hhash | ⟨hhash, hname⟩)
    · exact .probed (h.settings.probePaths ▸ hdirectory) hname
    · exact h.sandboxFor _ ▸ .directory hhash
    · exact h.pathFor _ _ ▸ .kept hhash hname
  · rintro (⟨hdirectory, hname⟩ | hhash | ⟨hhash, hname⟩)
    · exact .probed (h.settings.probePaths.symm ▸ hdirectory) hname
    · exact h.sandboxFor _ ▸ .directory hhash
    · exact h.pathFor _ _ ▸ .kept hhash hname

theorem of_same (hsettings : o.SameSettings u) (hdisk : u.disk = o.disk)
    (htouched : ∃ paths, u.touched = paths ++ o.touched ∧ ∀ path ∈ paths, o.Permits path) : o.Confined u where
  settings := hsettings
  workingDirectory := hdisk ▸ rfl
  touched := htouched
  files _ _ := hdisk ▸ rfl
  directories _ hp := .inl (hdisk ▸ hp)

theorem trans (h : o.Confined u) (h' : u.Confined v) : o.Confined v where
  settings := h.settings.trans h'.settings
  workingDirectory := h'.workingDirectory.trans h.workingDirectory
  touched := by
    obtain ⟨paths, hu, hpaths⟩ := h.touched
    obtain ⟨paths', hv, hpaths'⟩ := h'.touched
    refine ⟨paths' ++ paths, by rw [hv, hu, List.append_assoc], fun path hpath => ?_⟩
    obtain hpath | hpath := List.mem_append.mp hpath
    · exact h.permits.mp (hpaths' path hpath)
    · exact hpaths path hpath
  files p hp := by
    have hp' : ∀ hash name, IsDigestName hash → IsEntryName name → p ≠ u.placeFor hash name := fun hash name hhash hname =>
      h.placeFor hash name ▸ hp hash name hhash hname
    exact (h'.files p hp').trans (h.files p hp)
  directories p hp := by
    obtain hp | ⟨hash, hhash, hp⟩ := h'.directories p hp
    · exact h.directories p hp
    · exact .inr ⟨hash, hhash, h.along hash ▸ hp⟩

instance : IsPreorder Storage Confined where
  refl o := of_same (.refl o) rfl ⟨[], rfl, by simp⟩
  trans _ _ _ := trans

end Confined

/-- From this state on the computation stays within the permitted paths. -/
abbrev Confines (o : Storage) {α : Type} (x : Run Storage α) : Prop := x.Yields o fun _ u => o.Confined u

namespace Confines
variable {α β : Type} {x : Run Storage α} {f : α → Run Storage β}

theorem pure (a : α) : Confines o (Pure.pure a : Run Storage α) := Run.Keeps.pure a o

theorem bind (hx : Confines o x) (hf : ∀ a u, o.Confined u → Confines u (f a)) : Confines o (x >>= f) :=
  Run.Yields.bind hx (fun a u hou r v hv => hou.trans (hf a u hou r v hv)) fun _ _ h => h

end Confines

theorem touch_confines (h : o.Permits path) : Confines o (touch path) := by
  intro r u hu
  cases hu
  exact .of_same ⟨rfl, rfl⟩ rfl ⟨[path], rfl, by simpa using h⟩

theorem isFile_confines (h : o.Permits path) : Confines o (isFile path) :=
  (touch_confines h).bind fun _ u _ => Run.Keeps.get.bind (fun _ => .pure _) u

theorem read_confines (h : o.Permits path) : Confines o (read path) := by
  unfold read
  refine (touch_confines h).bind fun _ u _ => Run.Keeps.get.bind (fun v => ?_) u
  split
  · exact .pure _
  · exact .throw _

/-- A change of the disk that leaves other places as they were. -/
theorem change_confines {f : FileTree → Option FileTree} (h : o.Permits path)
    (hdisk : ∀ disk, f o.disk = some disk → o.Confined { o with disk }) : Confines o (change path f) := by
  intro r u hu
  have htouched : o.Confined { o with touched := path :: o.touched } := touch_confines h (.ok ()) _ rfl
  simp only [change, touch, Run.bind_apply, Run.modify_apply, Run.get_apply] at hu
  cases hf : f o.disk with
  | none =>
    rw [hf] at hu
    cases hu
    exact htouched
  | some disk =>
    rw [hf] at hu
    cases hu
    have hchanged := hdisk disk hf
    exact ⟨⟨rfl, rfl⟩, hchanged.workingDirectory, htouched.touched, hchanged.files, hchanged.directories⟩

theorem createDirectories_confines (hhash : IsDigestName hash) :
    Confines o (change (o.sandboxFor hash) (·.createDirectories? (o.sandboxFor hash))) := by
  refine change_confines (.directory hhash) fun disk hcreated => ?_
  refine ⟨⟨rfl, rfl⟩, (FileTree.extends_createDirectories? hcreated).workingDirectory, ⟨[], rfl, by simp⟩, ?_, ?_⟩
  · intro p _
    rw [FileTree.fileAt?, FileTree.fileAt?, FileTree.files_createDirectories? hcreated]
  · intro p hp
    exact (FileTree.directories_createDirectories? hcreated p hp).imp_right fun hp => ⟨hash, hhash, hp⟩

theorem write_confines (hhash : IsDigestName hash) (hname : IsEntryName name) :
    Confines o (change (o.pathFor hash name) (·.write? (o.pathFor hash name) bytes)) := by
  refine change_confines (.kept hhash hname) fun disk hwritten => ?_
  refine ⟨⟨rfl, rfl⟩, (FileTree.extends_write? hwritten).workingDirectory, ⟨[], rfl, by simp⟩, ?_, ?_⟩
  · intro p hp
    show disk.files.lookup p = o.disk.files.lookup p
    rw [FileTree.write?_place hwritten]
    exact FileTree.lookup_insertFile_of_ne (hp hash name hhash hname) _ _
  · intro p hp
    exact .inl (FileTree.directories_write? hwritten ▸ hp)

theorem keep_confines (hhash : IsDigestName hash) (hname : IsEntryName name) : Confines o (keep hash name bytes) := by
  unfold keep
  refine Run.Yields.get_bind ((isFile_confines (.kept hhash hname)).bind fun there u hu => ?_)
  split
  · exact .pure _
  rw [← hu.sandboxFor hash]
  refine (createDirectories_confines hhash).bind fun _ v hv => ?_
  rw [← hv.sandboxFor hash]
  exact write_confines hhash hname

end Storage

namespace Server
open Storage
variable {s t : Server} {r : Request Datum} {o : Storage} {name : String}

theorem readFrom_confines (hname : IsEntryName name) {directories : List String}
    (h : ∀ directory ∈ directories, directory ∈ o.probePaths) : Confines o (readFrom name directories) := by
  induction directories generalizing o with
  | nil => exact .pure _
  | cons directory rest ih =>
    obtain ⟨hdirectory, hrest⟩ := List.forall_mem_cons.mp h
    have hpath : o.Permits (joinPath directory name) := .probed hdirectory hname
    unfold readFrom
    refine (isFile_confines hpath).bind fun there u hu => ?_
    split
    · exact (read_confines (hu.permits.mpr hpath)).bind fun _ _ _ => .pure _
    · exact ih fun other hother => hu.settings.probePaths.symm ▸ hrest other hother

theorem probeIn_confines {algorithm : DigestAlgorithm} {directories : List String}
    (h : ∀ directory ∈ directories, o.Permits (joinPath directory r.file)) :
    Confines o (probeIn r algorithm directories) := by
  induction directories generalizing o with
  | nil => exact .pure _
  | cons directory rest ih =>
    obtain ⟨hpath, hrest⟩ := List.forall_mem_cons.mp h
    unfold probeIn
    refine (isFile_confines hpath).bind fun there u hu => ?_
    split
    · refine (read_confines (hu.permits.mpr hpath)).bind fun bytes v hv => ?_
      split
      · exact .pure _
      · exact ih fun other hother => (hu.trans hv).permits.mpr (hrest other hother)
    · exact ih fun other hother => hu.permits.mpr (hrest other hother)

theorem findReferenced_confines {m : LoadedModule} {hash : String} (hhash : IsDigestName hash) (name : String) :
    Run.Keeps Storage.Confined (findReferenced m hash name) := by
  intro o
  unfold findReferenced
  split
  · exact .pure (refl_of Storage.Confined o)
  rename_i hplain
  have hname : IsEntryName name := isPlainFileName_iff.mp (by simpa using hplain)
  refine Run.Yields.get_bind ((readFrom_confines hname fun _ h => h).bind fun found u hu => ?_)
  split
  · exact .pure _
  split
  · exact .pure _
  · exact (keep_confines hhash hname).bind fun _ _ _ => .pure _

/-! ## Requests -/

/-- The storage of the server has stayed within the permitted paths. -/
def Confined (s t : Server) : Prop := s.outside.Confined t.outside

instance : IsPreorder Server Confined where
  refl s := refl_of Storage.Confined s.outside
  trans _ _ _ := Storage.Confined.trans

/-- The hash names a directory, and the file is an entry of one. -/
def Named (r : Request Datum) : Prop := IsDigestName r.hash ∧ IsEntryName r.file

theorem validate_eq_ok_iff : validate r = .ok () ↔ Named r := by
  rw [Named, ← isHexDigest_iff, ← isPlainFileName_iff, validate]
  split
  · simp_all
  split <;> simp_all

/-- Other requests are refused as they come. -/
theorem execute_unnamed (h : ¬Named r) (budget : Nat) (thread : Option String) :
    ∃ fault, fault.kind = .invalidRequest ∧ execute budget thread r s = some (.ok (.fault fault), s) := by
  have herror : ∃ defect, validate r = .error (.invalid defect) := by
    rw [← validate_eq_ok_iff] at h
    unfold validate at h ⊢
    split
    · exact ⟨_, rfl⟩
    split
    · exact ⟨_, rfl⟩
    · simp_all
  obtain ⟨defect, hdefect⟩ := herror
  refine ⟨(Error.invalid defect).toFault, rfl, ?_⟩
  unfold execute serve
  rw [hdefect]
  rfl

theorem hostFor_confined (h : IsDigestName r.hash) (thread : Option String) (m : LoadedModule) :
    (hostFor r thread m).Respects True Confined where
  data s _ _ _ _ := refl_of Storage.Confined s.outside
  loads s _ _ _ _ _ := refl_of Storage.Confined s.outside
  resolver resolve hresolve name := by
    cases hresolve
    intro s outcome t ht _
    exact (State.onOutside_yields (findReferenced_confines h name s.outside) outcome t ht).2
  natives type method native hnative args s a t ht _ := by
    obtain rfl : s = t := Host.unchanged_of_standard rfl type method native hnative args s a t ht (.inl trivial)
    exact refl_of Confined s

theorem accept_confined : (accept r).Yields s fun _ t => s.Confined t := by
  unfold accept
  cases hvalid : validate r with
  | error e =>
    intro outcome t h
    cases h
    exact refl_of Confined s
  | ok _ =>
    obtain ⟨hhash, hname⟩ := validate_eq_ok_iff.mp hvalid
    rw [Run.ofExcept_ok, pure_bind]
    cases r.upload with
    | none => exact .pure (refl_of Confined s)
    | some bytes =>
      dsimp only
      unfold storeUpload
      refine Run.Yields.get_bind ?_
      dsimp only
      split
      · intro outcome t h
        exact (State.onOutside_yields (keep_confines hhash hname) outcome t h).2
      · exact .throw (refl_of Confined s)

theorem probe_confined (h : Named r) : (probe r).Yields s fun outcome t =>
    s.Confined t ∧ ∀ path, outcome = .ok (some path) → t.outside.Permits path := by
  have hpermits : ∀ directory ∈ s.outside.probePaths ++ [s.outside.sandboxFor r.hash],
      s.outside.Permits (joinPath directory r.file) := by
    intro directory hdirectory
    obtain hdirectory | hdirectory := List.mem_append.mp hdirectory
    · exact .probed hdirectory h.2
    · rw [List.mem_singleton.mp hdirectory]
      exact .kept h.1 h.2
  unfold probe
  refine Run.Yields.get_bind ?_
  have hprobe : (probeIn r s.domain.digest (s.outside.probePaths ++ [s.outside.sandboxFor r.hash])).Yields s.outside
      fun outcome o => s.outside.Confined o ∧ ∀ path, outcome = .ok (some path) → o.Permits path := by
    intro outcome o ho
    have hconfined := probeIn_confines hpermits outcome o ho
    refine ⟨hconfined, ?_⟩
    rintro path rfl
    obtain ⟨directory, hdirectory, rfl⟩ := probeIn_among _ _ o ho path rfl
    exact hconfined.permits.mpr (hpermits directory hdirectory)
  intro outcome t ht
  exact (State.onOutside_yields hprobe outcome t ht).2

theorem resolve_confined (h : Named r) : (resolve r).Respects True Confined := by
  have hrecord (l : LoadedModule) : (record r l).Respects True Confined := by
    intro s outcome t ht _
    cases ht
    exact .of_same ⟨rfl, rfl⟩ rfl ⟨[], rfl, by simp⟩
  have hprobed : (loadProbed r).Respects True Confined := by
    intro s
    suffices hyields : (loadProbed r).Yields s fun _ t => Confined s t from fun outcome t ht _ => hyields outcome t ht
    unfold loadProbed
    refine (probe_confined h).bind (fun found u hu => ?_) fun _ _ hu => hu.1
    split
    · exact .pure hu.1
    rename_i path
    have hread : (onStorage (Storage.read path)).Yields u fun _ v => u.Confined v := fun outcome v hv =>
      (State.onOutside_yields (read_confines (hu.2 path rfl)) outcome v hv).2
    refine hread.bind (fun bytes v hv => ?_) fun _ _ hv => trans_of Confined hu.1 hv
    have hload : (State.loadFile bytes (some path) : Serving LoadedModule).Respects True Confined :=
      Host.loadFile_respects (fun s _ _ _ _ _ => refl_of Storage.Confined s.outside) _ _
    intro outcome t ht
    refine trans_of Confined hu.1 (trans_of Confined hv ?_)
    exact (hload.bind fun l => (hrecord l).bind fun _ => .pure _) v outcome t ht (.inl trivial)
  unfold resolve
  refine Run.Respects.get.bind fun s => ?_
  split
  · exact hprobed
  split
  · exact .throw _
  split
  · exact hprobed
  · exact (hrecord _).bind fun _ => .pure _

theorem find_confined : (find r).Yields s fun outcome t =>
    s.Confined t ∧ ∀ l, outcome = .ok (some l) → Named r := by
  have haccept : (accept r).Yields s fun outcome t => s.Confined t ∧ (outcome = .ok () → Named r) := by
    intro outcome t h
    refine ⟨accept_confined outcome t h, ?_⟩
    rintro rfl
    exact validate_eq_ok_iff.mp (accept_valid h)
  rw [find_eq_accept]
  refine haccept.bind (fun _ u hu => ?_) fun _ _ hu => ⟨hu.1, by simp⟩
  intro outcome t h
  have hnamed := hu.2 rfl
  exact ⟨trans_of Confined hu.1 (resolve_confined hnamed u outcome t h (.inl trivial)), fun _ _ => hnamed⟩

end Server

/-! ## Runs that are broken off -/

namespace Machine
variable {ω : Type} {env : Environment ω}

/-- The states that a run goes through, step by step. -/
inductive Visits (env : Environment ω) : Frame → List Frame → State ω → State ω → Prop
  | here {f : Frame} {below : List Frame} {s : State ω} : Visits env f below s s
  | last {f : Frame} {below : List Frame} {run : Runner ω} {r : Except Error Transition} {s t : State ω} :
    step env run f below s = some (r, t) → Visits env f below s t
  | next {f g : Frame} {below rest : List Frame} {run : Runner ω} {s t u : State ω} :
    step env run f below s = some (.ok (.next g rest), t) → Visits env g rest t u → Visits env f below s u

/-- The means to run code go along the steps of the machine. They may break off anywhere. -/
def Stepwise (env : Environment ω) (run : Runner ω) : Prop := ∀ f s r t, run f s = some (r, t) → Visits env f [] s t

theorem runner_stepwise (budget : Nat) : Stepwise env (runner env budget) := by
  suffices hrun : ∀ budget f below s r t, run env budget f below s = some (r, t) → Visits env f below s t from
    fun f s r t h => hrun budget f [] s r t h
  intro budget
  induction budget with
  | zero => exact fun _ _ _ _ _ h => nomatch h
  | succ budget ih =>
    intro f below s r t h
    rw [Machine.run] at h
    dsimp only at h
    split at h
    · rename_i g rest u hnext
      exact .next hnext (ih g rest u r t h)
    · rename_i v u hdone
      cases h
      exact .last hdone
    · rename_i e u herror
      cases h
      exact .last herror
    · cases h

/-- Without clients, what the host leaves alone is left alone all along. -/
theorem Visits.respects {K : State ω → State ω → Prop} [IsPreorder (State ω) K] (hK : env.host.Guards True K)
    (hclients : ∀ client, env.dispatcher? client = none) {f : Frame} {below : List Frame} {s t : State ω}
    (h : Visits env f below s t) : K s t := by
  have hstep (run : Runner ω) (f : Frame) (below : List Frame) : (step env run f below).Respects True K :=
    step_respects_clients hK (fun client d hd => nomatch (hclients client).symm.trans hd) f below
  induction h with
  | here => exact refl_of K _
  | last h => exact hstep _ _ _ _ _ _ h (.inl trivial)
  | next h _ ih => exact trans_of K (hstep _ _ _ _ _ _ h (.inl trivial)) ih

end Machine

namespace Server
variable {s : Server} {r : Request Datum}

/-- Runs a request with the given means to run code. -/
def serveBy (run : Host Storage → Runner Storage) (thread : Option String) (r : Request Datum) :
    Serving (Answer Value) := do
  match ← find r with
  | none => return .moduleUnknown
  | some m => do
    let host := hostFor r (if r.onMainThread then some Native.mainThread else thread) m
    invoke r host (run host)

theorem serve_eq_serveBy (budget : Nat) (thread : Option String) :
    serve r budget thread = serveBy (fun host => Machine.runner { host } budget) thread r := serve_eq_find budget thread

theorem serveBy_confined {run : Host Storage → Runner Storage} (hrun : ∀ host, Machine.Stepwise { host } (run host))
    (thread : Option String) : (serveBy run thread r).Yields s fun _ t => s.Confined t := by
  unfold serveBy
  refine find_confined.bind (fun found u hu => ?_) fun _ _ hu => hu.1
  split
  · exact .pure hu.1
  rename_i m
  have hhost := (hostFor_confined (hu.2 m rfl).1 (if r.onMainThread then some Native.mainThread else thread) m).guards
  intro outcome t h
  exact trans_of Confined hu.1
    (invoke_respects hhost (fun f s r t hr _ => (hrun _ f s r t hr).respects hhost fun _ => rfl) u outcome t h (.inl trivial))

theorem execute_stays_confined (budget : Nat) (thread : Option String) :
    (execute budget thread r).Yields s fun _ t => s.Confined t := by
  have hserve : (serve r budget thread).Yields s fun _ t => s.Confined t := by
    rw [serve_eq_serveBy]
    exact serveBy_confined (fun _ => Machine.runner_stepwise budget) thread
  unfold execute
  refine hserve.attempt_bind fun outcome t ht => ?_
  split
  · exact .pure ht
  · exact .pure ht

/-- Whatever a server was asked for, one request after another. -/
theorem Serves.confined {turns : List Turn} {t : Server} (h : Serves s turns t) : s.Confined t := by
  induction h with
  | nil s => exact refl_of Confined s
  | @cons x _ _ hexecute _ ih => exact trans_of Confined (execute_stays_confined x.budget x.thread _ _ hexecute) ih

/-- A server touches permitted paths only, also while a run goes on, and none for a request without proper names. -/
theorem execute_confined (thread : Option String) (r : Request Datum) (s : Server) :
    (∀ budget, (execute budget thread r).Yields s fun _ t => s.outside.Confined t.outside) ∧
    (∀ run : Host Storage → Runner Storage, (∀ host, Machine.Stepwise { host } (run host)) →
      (serveBy run thread r).Yields s fun _ t => s.outside.Confined t.outside) ∧
    (¬(IsDigestName r.hash ∧ IsEntryName r.file) → ∀ budget, ∃ fault, fault.kind = .invalidRequest ∧
      execute budget thread r s = some (.ok (.fault fault), s)) :=
  ⟨fun budget => execute_stays_confined budget thread, fun _ hrun => serveBy_confined hrun thread,
    fun h budget => execute_unnamed h budget thread⟩

open meter in
/-- A request that is completed, and one for a directory further up. -/
theorem shelf_confined : ∃ u vs, execute 10 none raise shelf = some (.ok (.completed (.int32 6) vs), u) ∧
    shelf.outside.Confined u.outside ∧
    (serveBy (fun host => Machine.runner { host } 10) none raise).Yields shelf
      (fun _ t => shelf.outside.Confined t.outside) ∧
    ∃ fault, fault.kind = .invalidRequest ∧
      execute 10 none { raise with hash := ".." } shelf = some (.ok (.fault fault), shelf) := by
  obtain ⟨u, vs, hexecute, _⟩ := shelf_answered
  refine ⟨u, vs, hexecute, (execute_confined none raise shelf).1 10 _ _ hexecute, ?_, ?_⟩
  · exact (execute_confined none raise shelf).2.1 _ fun _ => Machine.runner_stepwise 10
  · refine (execute_confined none { raise with hash := ".." } shelf).2.2 (fun h => ?_) 10
    exact h.1.isEntryName.notUp rfl

end Server
end MobileCode
