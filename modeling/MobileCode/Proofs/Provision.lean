import MobileCode.Proofs.Selection
import MobileCode.Proofs.Successors

/-! # What a server has of a module

A server that is to run a request finds the module in its domain, on its disk or in the request. If whatever
it finds under the hash of a deployment belongs to it, the server runs one of the deployed modules.
-/
namespace MobileCode

/-! ## Files -/

namespace FileTree
variable {t t' : FileTree} {path : String} {data bytes : Bytes} {p : Place}

theorem exists_fileAt?_of_read? (h : t.read? path = some bytes) : ∃ p, t.fileAt? p = some bytes := by
  simp only [read?, Option.bind_eq_bind, Option.bind_eq_some_iff] at h
  obtain ⟨⟨p, name⟩, _, h⟩ := h
  exact ⟨p ++ [name], h⟩

theorem lookup_insertFile {q : Place} {files : List (Place × Bytes)}
    (h : (insertFile q data files).lookup p = some bytes) : bytes = data ∨ files.lookup p = some bytes := by
  induction files with
  | nil =>
    simp only [insertFile, List.lookup_cons, List.lookup_nil] at h
    split at h
    · exact .inl (Option.some.inj h).symm
    · cases h
  | cons x rest ih =>
    obtain ⟨place, old⟩ := x
    unfold insertFile at h
    split at h
    · rw [List.lookup_cons] at h
      split at h
      · exact .inl (Option.some.inj h).symm
      · exact .inr h
    split at h
    · subst q
      rw [List.lookup_cons] at h ⊢
      split at h
      · exact .inl (Option.some.inj h).symm
      · exact .inr h
    · rw [List.lookup_cons] at h ⊢
      split at h
      · exact .inr h
      · exact ih h

/-- What is written is the only new file. -/
theorem fileAt?_write? (h : t.write? path data = some t') (hp : t'.fileAt? p = some bytes) :
    bytes = data ∨ t.fileAt? p = some bytes := by
  simp only [write?, Option.bind_eq_bind, Option.bind_eq_some_iff] at h
  obtain ⟨⟨q, name⟩, _, h⟩ := h
  split at h
  · cases h
  · cases h
    exact lookup_insertFile hp

theorem files_createDirectories? (h : t.createDirectories? path = some t') : t'.files = t.files := by
  have henter {s u : FileTree × Place} {component : String} (hu : enterOrCreate s component = some u) :
      u.1.files = s.1.files := by
    obtain ⟨t, q⟩ := s
    simp only [enterOrCreate] at hu
    split at hu
    · cases hu
      rfl
    · split at hu <;> cases hu
      rfl
  have hall (components : List String) {s u : FileTree × Place} (hu : components.foldlM enterOrCreate s = some u) :
      u.1.files = s.1.files := by
    induction components generalizing s with
    | nil =>
      cases hu
      rfl
    | cons c rest ih =>
      rw [List.foldlM_cons, Option.bind_eq_bind, Option.bind_eq_some_iff] at hu
      obtain ⟨s', hs', hu⟩ := hu
      exact (ih hu).trans (henter hs')
  obtain ⟨u, hu, rfl⟩ := Option.map_eq_some_iff.mp h
  exact hall _ hu

end FileTree

namespace Storage
variable {s : Storage} {path : String}

theorem isFile_ensures : (isFile path).Ensures s fun _ t => t.disk = s.disk := by
  intro a t h
  cases h
  rfl

theorem read_ensures : (read path).Ensures s fun bytes t => t.disk = s.disk ∧ s.disk.read? path = some bytes := by
  intro bytes t h
  simp only [read, touch, Run.bind_eq_ok, Run.modify_apply, Run.get_apply] at h
  obtain ⟨_, _, hs, _, _, hs', h⟩ := h
  cases hs
  cases hs'
  cases hread : s.disk.read? path with
  | none =>
    simp only [hread] at h
    cases h
  | some found =>
    simp only [hread] at h
    cases h
    exact ⟨rfl, rfl⟩

theorem change_ensures {f : FileTree → Option FileTree} :
    (change path f).Ensures s fun _ t => f s.disk = some t.disk := by
  intro a t h
  simp only [change, touch, Run.bind_eq_ok, Run.modify_apply, Run.get_apply] at h
  obtain ⟨_, _, hs, _, _, hs', h⟩ := h
  cases hs
  cases hs'
  cases hdisk : f s.disk with
  | none =>
    simp only [hdisk] at h
    cases h
  | some disk =>
    simp only [hdisk] at h
    cases h
    rfl

/-- Only the file that is kept can be new. -/
theorem keep_ensures {hash name : String} {bytes : Bytes} : (keep hash name bytes).Ensures s fun _ t =>
    ∀ p found, t.disk.fileAt? p = some found → found = bytes ∨ s.disk.fileAt? p = some found := by
  unfold keep
  refine Run.Ensures.get_bind (isFile_ensures.bind fun there t ht => ?_)
  split
  · exact .pure fun p found hp => .inr (ht ▸ hp)
  refine change_ensures.bind fun _ u hu => change_ensures.mono fun _ v hv p found hp => ?_
  refine (FileTree.fileAt?_write? hv hp).imp_right fun hold => ?_
  rw [FileTree.fileAt?, FileTree.files_createDirectories? hu, ht] at hold
  exact hold

end Storage

/-! ## Modules of a deployment -/

namespace Deployment
variable (dep : Deployment)

/-- A module of the deployment. -/
def Owns (n : Module Datum) : Prop := n = dep.client ∨ n = dep.server

/-- If the file answers to the hash, the module in it belongs to the deployment. -/
def Files (digest : DigestAlgorithm) (hash : String) (bytes : Bytes) : Prop :=
  Server.answersTo digest hash bytes = true → ∀ n, Module.ofFile bytes = .ok n → dep.Owns n

variable {dep} {boundary : Boundary} {digest : DigestAlgorithm} {m : Module Datum} {dependencies : List (Module Datum)}
  (hmake : Deployment.make? boundary digest m dependencies = .ok (some dep))
include hmake

theorem owned_name {n : Module Datum} (hn : dep.Owns n) : n.name = m.name := (grown hmake hn).name

theorem owned_fullNames {n : Module Datum} (hn : dep.Owns n) : n.types.map (·.fullName) = m.types.map (·.fullName) :=
  (grown hmake hn).fullNames

end Deployment

namespace State
variable {ω : Type} {s : State ω}

theorem onOutside_ensures {α : Type} {x : Run ω α} {Q : α → ω → Prop} (h : x.Ensures s.outside Q) :
    (onOutside x).Ensures s fun a t => t.domain = s.domain ∧ Q a t.outside := by
  intro a t ha
  simp only [onOutside, Run.zoom] at ha
  rcases hx : x s.outside with _ | ⟨b, o⟩
  · rw [hx] at ha
    cases ha
  · rw [hx] at ha
    cases ha
    exact ⟨rfl, h a o hx⟩

theorem loadFile_ensures {bytes : Bytes} {path : Option String} : (loadFile bytes path : Run (State ω) _).Ensures s
    fun l t => s.domain.loadFile bytes path = .ok (l, t.domain) ∧ t.outside = s.outside := by
  refine Run.Ensures.get_bind (.ofExcept_bind fun p hp => ?_)
  intro l t h
  cases h
  exact ⟨hp, rfl⟩

end State

namespace Server

/-- Under the hash of a deployment the server holds its modules only: a loaded module of that name is one of
them, and so is each file that answers to the hash. -/
structure Ready (dep : Deployment) (name hash : String) (s : Server) : Prop where
  module : ∀ l, s.domain.module? name = some l → ∃ n, dep.Owns n ∧ s.domain.Has n l
  files : ∀ p bytes, s.outside.disk.fileAt? p = some bytes → dep.Files s.domain.digest hash bytes

section
variable {boundary : Boundary} {digest : DigestAlgorithm} {m : Module Datum} {dependencies : List (Module Datum)}
  {dep : Deployment} {r : Request Datum} {s : Server}

theorem probeIn_ensures {algorithm : DigestAlgorithm} (directories : List String) {o : Storage} :
    (probeIn r algorithm directories).Ensures o fun found t => t.disk = o.disk ∧
      ∀ path ∈ found, ∃ bytes, o.disk.read? path = some bytes ∧ answersTo algorithm r.hash bytes = true := by
  induction directories generalizing o with
  | nil => exact .pure ⟨rfl, by simp⟩
  | cons directory rest ih =>
    unfold probeIn
    have hskip {t : Storage} (ht : t.disk = o.disk) := ht ▸ ih (o := t)
    refine Storage.isFile_ensures.bind fun there t ht => ?_
    split
    · refine Storage.read_ensures.bind fun bytes u hu => ?_
      rw [ht] at hu
      split
      · rename_i hanswers
        refine .pure ⟨hu.1, fun path hpath => ?_⟩
        cases hpath
        exact ⟨bytes, hu.2, hanswers⟩
      · exact hskip hu.1
    · exact hskip ht

theorem probe_ensures : (probe r).Ensures s fun found t =>
    (t.domain = s.domain ∧ t.outside.disk = s.outside.disk) ∧ ∀ path ∈ found, ∃ bytes,
      s.outside.disk.read? path = some bytes ∧ answersTo s.domain.digest r.hash bytes = true :=
  .get_bind ((State.onOutside_ensures (probeIn_ensures _)).mono fun _ _ h => ⟨⟨h.1, h.2.1⟩, h.2.2⟩)

theorem record_ensures (l : LoadedModule) : (record r l).Ensures s fun _ t => t.domain = s.domain := by
  unfold record onStorage
  exact (State.onOutside_ensures (Q := fun _ _ => True) fun _ _ _ => trivial).mono fun _ _ h => h.1

/-- A module that is loaded from a file of the deployment is one of its modules. -/
theorem loadFile_owned (hvalid : m.Valid) (hmake : Deployment.make? boundary digest m dependencies = .ok (some dep))
    {hash : String} (hready : Ready dep m.name hash s) {bytes : Bytes}
    (howns : ∀ n, Module.ofFile bytes = .ok n → dep.Owns n) {path : Option String} {l : LoadedModule} {d : Domain}
    (h : s.domain.loadFile bytes path = .ok (l, d)) : ∃ n, dep.Owns n ∧ d.Has n l := by
  obtain ⟨n, hn, h⟩ := Domain.loadFile_eq_ok h
  have howned := howns n hn
  have hname := Deployment.owned_name hmake howned
  rcases Domain.register_cases h with ⟨hknown, _, rfl⟩ | ⟨hknown, _⟩
  · exact hready.module l (hname ▸ hknown)
  · have hdistinct := (Deployment.owned_fullNames hmake howned).symm ▸ hvalid.distinct
    exact ⟨n, howned, .of_register hknown hdistinct h⟩

/-- What was found is a module of the deployment; if nothing was found the server is as ready as before. -/
def Found (dep : Deployment) (name hash : String) (found : Option LoadedModule) (t : Server) : Prop :=
  match found with
  | none => Ready dep name hash t
  | some l => ∃ n, dep.Owns n ∧ t.domain.Has n l

variable (hvalid : m.Valid) (hmake : Deployment.make? boundary digest m dependencies = .ok (some dep))
  (hready : Ready dep m.name r.hash s)
include hvalid hmake hready

theorem loadProbed_ensures : (loadProbed r).Ensures s (Found dep m.name r.hash) := by
  unfold loadProbed
  refine probe_ensures.bind ?_
  rintro found t ⟨⟨hdomain, hdisk⟩, hfound⟩
  split
  · refine .pure (show Ready dep m.name r.hash t from ⟨?_, ?_⟩)
    · rw [hdomain]
      exact hready.module
    · rw [hdomain, hdisk]
      exact hready.files
  · rename_i path
    obtain ⟨bytes, hread, hanswers⟩ := hfound path rfl
    obtain ⟨p, hp⟩ := FileTree.exists_fileAt?_of_read? hread
    refine (State.onOutside_ensures Storage.read_ensures).bind ?_
    rintro bytes' u ⟨hdomain', _, hread'⟩
    rw [hdisk, hread] at hread'
    obtain rfl := Option.some.inj hread'
    refine State.loadFile_ensures.bind ?_
    rintro l v ⟨hload, _⟩
    rw [hdomain', hdomain] at hload
    obtain ⟨n, hn, hl⟩ := loadFile_owned hvalid hmake hready (hready.files p bytes hp hanswers) hload
    refine (record_ensures l).bind fun _ w hw => .pure ⟨n, hn, ?_⟩
    rw [hw]
    exact hl

/-- A server that is ready finds a module of the deployment, if any. -/
theorem resolve_ensures (hfile : r.file = m.name) : (resolve r).Ensures s (Found dep m.name r.hash) := by
  unfold resolve
  refine Run.Ensures.get_bind ?_
  split
  · exact loadProbed_ensures hvalid hmake hready
  split
  · exact .throw
  split
  · exact loadProbed_ensures hvalid hmake hready
  · rename_i l hl
    obtain ⟨n, hn, hhas⟩ := hready.module l (hfile ▸ hl)
    refine (record_ensures l).bind fun _ w hw => .pure ⟨n, hn, ?_⟩
    rw [hw]
    exact hhas

omit hvalid hmake in
/-- So it stays when it is sent a file of the deployment. -/
theorem storeUpload_ensures {bytes : Bytes} (hbytes : dep.Files s.domain.digest r.hash bytes) :
    (storeUpload r bytes).Ensures s fun _ t => Ready dep m.name r.hash t := by
  unfold storeUpload
  refine Run.Ensures.get_bind ?_
  dsimp only
  split
  · refine (State.onOutside_ensures Storage.keep_ensures).mono ?_
    rintro _ t ⟨hdomain, hdisk⟩
    refine ⟨by rw [hdomain]; exact hready.module, fun p found hp => ?_⟩
    rw [hdomain]
    rcases hdisk p found hp with rfl | hold
    · exact hbytes
    · exact hready.files p found hold
  · exact .throw

end

end Server

end MobileCode
