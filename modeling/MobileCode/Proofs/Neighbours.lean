import MobileCode.Proofs.Companions
import MobileCode.Proofs.Handshakes

/-! # One request after another

A server that has answered a request for one module is asked for another one. The record of versions does not stand in the
way, nor does the sandbox, and once the module has been sent the server finds it. What can stand in the way is what has
been loaded: a domain holds one version of each module and one module for each type.
-/
namespace MobileCode

/-! ## Files that a domain refuses -/

namespace Domain
variable {d : Domain} {bytes : Bytes} {path : Option String} {e : Error}

/-- Why a domain refuses the file of a module. -/
inductive Refuses (d : Domain) (bytes : Bytes) : Error → Prop
  | unreadable {e : Error} : Module.ofFile bytes = .error e → Refuses d bytes e
  /-- Another version of the module is loaded. -/
  | version {m : Module Datum} {l : LoadedModule} : Module.ofFile bytes = .ok m → d.module? m.name = some l →
      l.hash ≠ d.digest.digest bytes → Refuses d bytes (.invalid (.versionLoaded m.name l.hash (d.digest.digest bytes)))
  /-- A type of that name is loaded, from another module. -/
  | type {m : Module Datum} {name : String} {t : TypeHandle} : Module.ofFile bytes = .ok m → d.module? m.name = none →
      name ∈ m.types.map (·.fullName) → d.type? name = some t →
      Refuses d bytes (.invalid (.typeDefined name m.name t.module.name))

theorem register_other {m : Module Datum} {l : LoadedModule} (hknown : d.module? m.name = some l)
    (hother : l.hash ≠ d.digest.digest bytes) :
    d.register m bytes path = .error (.invalid (.versionLoaded m.name l.hash (d.digest.digest bytes))) := by
  simp only [register, hknown, if_neg hother]

theorem clash?_eq_some {m : Module Value} {type owner : String} (h : d.clash? m = some (type, owner)) :
    type ∈ m.types.map (·.fullName) ∧ ∃ t, d.type? type = some t ∧ t.module.name = owner := by
  obtain ⟨t, ht, h⟩ := List.exists_of_findSome?_eq_some h
  obtain ⟨handle, hhandle, h⟩ := Option.map_eq_some_iff.mp h
  cases h
  exact ⟨List.mem_map_of_mem ht, handle, hhandle, rfl⟩

/-- A domain refuses a file only for one of these reasons, -/
theorem refuses_of_loadFile (h : d.loadFile bytes path = .error e) : d.Refuses bytes e := by
  unfold loadFile at h
  cases hm : Module.ofFile bytes with
  | error e' =>
    rw [hm] at h
    cases h
    exact .unreadable hm
  | ok m =>
    rw [hm] at h
    have hregister : d.register m bytes path = .error e := h
    cases hknown : d.module? m.name with
    | some l =>
      simp only [register, hknown] at hregister
      split at hregister
      · cases hregister
      · rename_i hother
        cases hregister
        exact .version hm hknown hother
    | none =>
      have hnames := Module.fullNames_eq (m.instantiate_shape d.heap)
      simp only [register, hknown] at hregister
      generalize (instantiate m).run d.heap = a at hregister hnames
      obtain ⟨code, heap⟩ := a
      simp only at hregister hnames
      split at hregister
      · rename_i type owner hclash
        cases hregister
        obtain ⟨hmem, t, ht, rfl⟩ := clash?_eq_some hclash
        exact .type hm hknown (hnames ▸ hmem) ht
      · cases hregister

/-- and for each of them it does. -/
theorem Refuses.not_loaded (h : d.Refuses bytes e) {l : LoadedModule} {d' : Domain} :
    d.loadFile bytes path ≠ .ok (l, d') := by
  intro hload
  obtain ⟨m, hm, hregister⟩ := loadFile_eq_ok hload
  cases h with
  | unreadable hunreadable => cases hm.symm.trans hunreadable
  | @version m' l' hm' hknown hother =>
    cases hm.symm.trans hm'
    rcases register_cases hregister with ⟨hl, hhash, _⟩ | ⟨hnone, _⟩
    · cases hknown.symm.trans hl
      exact hother hhash
    · cases hknown.symm.trans hnone
  | @type m' name t hm' hnone hmem ht =>
    cases hm.symm.trans hm'
    rcases register_cases hregister with ⟨hl, _⟩ | ⟨_, rfl, hclash, _⟩
    · cases hnone.symm.trans hl
    · have hnames := Module.fullNames_eq (m.instantiate_shape d.heap)
      rw [← hnames] at hmem
      obtain ⟨u, hu, rfl⟩ := List.mem_map.mp hmem
      have hfree := List.findSome?_eq_none_iff.mp hclash u hu
      rw [ht] at hfree
      cases hfree

end Domain

namespace Server
variable {s t u : Server} {r : Request Datum}

/-! ## What a request leaves behind -/

/-- What is on record was so before, or is what the request names. -/
structure Notes (r : Request Datum) (v w : Versions) : Prop where
  modules : ∀ name hash, w.modules.find? name = some hash → v.modules.find? name = some hash ∨ name = r.file
  types : ∀ type hash, w.types.find? type = some hash → v.types.find? type = some hash ∨ type = r.type

theorem Notes.refl (r : Request Datum) (v : Versions) : Notes r v v := ⟨fun _ _ => .inl, fun _ _ => .inl⟩

theorem Notes.record {l : LoadedModule} (hname : l.name = r.file) (v : Versions) :
    Notes r v (v.record l r.type r.hash) := by
  refine ⟨fun name hash h => ?_, fun type hash h => ?_⟩
  · rw [v.modules_record] at h
    split at h
    · rename_i hsame
      exact .inr (hsame.trans hname)
    · exact .inl h
  · rw [v.types_record] at h
    split at h
    · rename_i hsame
      exact .inr hsame.1
    · exact .inl h

/-- Nothing more is on record than what the request names, and files have come under its hash only. -/
structure Leaves (r : Request Datum) (s t : Server) : Prop where
  versions : Notes r s.outside.versions t.outside.versions
  files : Fills (fun hash _ _ => hash = r.hash) s t

theorem Leaves.trans (hst : Leaves r s t) (htu : Leaves r t u) : Leaves r s u where
  versions := ⟨fun name hash h => (htu.versions.modules name hash h).elim (hst.versions.modules name hash) .inr,
    fun type hash h => (htu.versions.types type hash h).elim (hst.versions.types type hash) .inr⟩
  files := Storage.Fills.trans hst.files htu.files

theorem find_notes (hs : s.Settled) (hfits : s.Fits r) :
    (find r).Yields s fun _ t => Notes r s.outside.versions t.outside.versions := by
  intro outcome t h
  rcases find_searched outcome t h with ⟨hst, _⟩ | ⟨v, hv, ⟨hvt, _⟩ | ⟨l, u, _, hcomes, hvu, hrecord⟩⟩
  · rw [hst.2]
    exact .refl r _
  · rw [hvt.2, (Stays.of_accept hv).2]
    exact .refl r _
  · obtain ⟨hname, _⟩ := hcomes.fits (hs.stays (.of_accept hv)) (hfits.of_accept hv)
    cases hrecord
    rw [← (Stays.of_accept hv).2, ← hvu.2]
    exact .record hname _

theorem execute_leaves (hs : s.Settled) (hfits : s.Fits r) (budget : Nat) (thread : Option String) :
    (execute budget thread r).Yields s fun _ t => Leaves r s t := by
  intro outcome t h
  have hversions := execute_of_find (P := fun t => Notes r s.outside.versions t.outside.versions) (Q := fun _ => True)
    (fun t u ht htu => by rwa [htu.2]) (fun _ _ _ _ => trivial)
    (fun outcome t hfind => ⟨find_notes hs hfits outcome t hfind, fun _ => trivial⟩) budget thread outcome t h
  exact ⟨hversions.1, Storage.Fills.mono (execute_fills hs.indexed budget thread outcome t h) fun _ _ _ h => h.1⟩

end Server

/-! ## Requests with the module -/

namespace Server
variable {s t u : Server} {r r' : Request Datum}

section
variable {budget : Nat} {thread : Option String} {id : Uuid} {bytes : Bytes} {a : Answer Value}

theorem Offers.withModule (hupload : r.upload = none) {file : Bytes} (h : s.Offers r file) :
    s.Offers (r.withModule id bytes) file := by
  refine h.imp_right fun h => ?_
  rw [hupload] at h
  cases h

theorem Settled.touching (h : s.Settled) (paths : List String) : (s.touching paths).Settled :=
  ⟨h.toGrounded.touching paths, h.ofTypes⟩

/-- What the first request leaves, with its module or without. -/
theorem supply_leaves (hs : s.domain.Indexed) (hversions : s.outside.versions = {}) (hupload : r.upload = none)
    (hfits : s.Fits (r.withModule id bytes)) (h : supply budget thread id bytes r s = some (.ok a, t)) : Leaves r s t := by
  have hsettled := Settled.of_fresh hs hversions
  have hbare : s.Fits r := ⟨hfits.type, fun file hoffers => hfits.files file (hoffers.withModule hupload)⟩
  rcases supply_eq_ok h with ⟨hexecute, _⟩ | ⟨u, hunknown, hexecute⟩
  · exact execute_leaves hsettled hbare budget thread _ _ hexecute
  · have hnone : s.outside.versions.hash? r.type r.file = none := by
      rw [hversions]
      rfl
    obtain ⟨paths, rfl⟩ := execute_unknown hupload hnone hunknown
    have hleaves := execute_leaves (hsettled.touching paths) ⟨hfits.type, hfits.files⟩ budget thread _ _ hexecute
    exact (execute_leaves hsettled hbare budget thread _ _ hunknown).trans
      ⟨⟨hleaves.versions.modules, hleaves.versions.types⟩, hleaves.files⟩

end

/-- What becomes of a request for which there is a file of its module: it is refused if the domain refuses the file, and
otherwise the module in it is loaded, or is so already, and the method is run. -/
structure Meets (r : Request Datum) (budget : Nat) (thread : Option String) (s : Server) (file : Bytes) (a : Answer Value)
    (u : Server) : Prop where
  answers : answersTo s.domain.digest r.hash file = true
  refused : (∃ e, s.domain.Refuses file e) → ∃ e, s.domain.Refuses file e ∧ a = .fault e.toFault ∧ u.domain = s.domain
  ran : (∀ e, ¬s.domain.Refuses file e) → ∃ path l v, s.domain.loadFile file path = .ok (l, v.domain) ∧
    respond r budget thread l v = some (.ok a, u)

section
variable {budget : Nat} {thread : Option String} {id : Uuid} {bytes : Bytes} {a : Answer Value}

/-- A request of which nothing is on record. -/
theorem execute_meets (haccept : accept r s = some (.ok (), t)) (h : s.outside.versions.hash? r.type r.file = none)
    (hexecute : execute budget thread r s = some (.ok a, u)) : a = .moduleUnknown ∧ ¬t.Stocks r ∨
      a ≠ .moduleUnknown ∧ ∃ file, s.Offers r file ∧ Meets r budget thread s file a u := by
  obtain ⟨hdomain, _, hdisk⟩ := accept_yields _ t haccept
  have hoffers {file : Bytes} (hspots : t.Spots r file) : s.Offers r file ∧ answersTo s.domain.digest r.hash file = true := by
    obtain ⟨p, hp⟩ := hspots.onDisk
    exact ⟨hdisk rfl p file hp, hdomain ▸ hspots.answers⟩
  rcases execute_unrecorded haccept h budget thread with ⟨hnone, paths, hunknown⟩ |
    ⟨file, path, paths, hspots, ⟨e, hload, hrefused⟩ | ⟨l, d, hload, hresponds⟩⟩
  · cases hunknown.symm.trans hexecute
    exact .inl ⟨rfl, hnone⟩
  · cases hrefused.symm.trans hexecute
    have hrefuses := Domain.refuses_of_loadFile hload
    obtain ⟨hoffered, hanswers⟩ := hoffers hspots
    exact .inr ⟨by simp, file, hoffered, hanswers, fun _ => ⟨e, hrefuses, rfl, hdomain⟩,
      fun hnot => absurd hrefuses (hnot e)⟩
  · rw [hresponds] at hexecute
    obtain ⟨hoffered, hanswers⟩ := hoffers hspots
    refine .inr ⟨respond_ne_unknown hexecute, file, hoffered, hanswers, ?_, fun _ => ⟨some path, l, _, hload, hexecute⟩⟩
    rintro ⟨e, hrefuses⟩
    exact absurd hload hrefuses.not_loaded

/-- A request of which nothing is on record, with its module if the server asks for it, for which there is a place on the
disk. -/
theorem supply_meets (hvalid : validate r = .ok ()) (hupload : r.upload = none)
    (hhash : s.outside.versions.hash? r.type r.file = none)
    (hplace : s.outside.disk.fileAt? (s.outside.placeFor r.hash r.file) = none)
    (hdigest : s.domain.digest.digest bytes = r.hash) (h : supply budget thread id bytes r s = some (.ok a, u)) :
    (a ≠ .moduleUnknown ∧ ∃ file, s.Offers (r.withModule id bytes) file ∧ Meets r budget thread s file a u) ∨
      ∃ paths e o, Storage.keep r.hash r.file bytes { s.outside with touched := paths } = some (.error e, o) ∧
        a = .fault e.toFault := by
  rcases supply_eq_ok h with ⟨hexecute, hknown⟩ | ⟨t, hunknown, hexecute⟩
  · rcases execute_meets (accept_bare hupload hvalid) hhash hexecute with ⟨hasked, _⟩ | ⟨_, file, hoffers, hmeets⟩
    · exact absurd hasked hknown
    · exact .inl ⟨hknown, file, hoffers.withModule hupload, hmeets⟩
  obtain ⟨paths, rfl⟩ := execute_unknown hupload hhash hunknown
  have haccept : accept (r.withModule id bytes) (s.touching paths) =
      onStorage (Storage.keep r.hash r.file bytes) (s.touching paths) := accept_withModule hvalid hdigest
  unfold onStorage State.onOutside Run.zoom at haccept
  cases hkeep : Storage.keep r.hash r.file bytes { s.outside with touched := paths } with
  | none =>
    have hnone : accept (r.withModule id bytes) (s.touching paths) = none := by
      rw [haccept]
      simp only [Server.touching, hkeep]
    rw [execute, Run.bind_apply, Run.attempt, serve_eq_find, Run.bind_apply, find_eq_accept, Run.bind_apply, hnone] at hexecute
    cases hexecute
  | some p =>
    obtain ⟨outcome, o⟩ := p
    have hkept : accept (r.withModule id bytes) (s.touching paths) = some (outcome, { s with outside := o }) := by
      rw [haccept]
      simp only [Server.touching, hkeep]
    cases outcome with
    | error e =>
      have hfind : find (r.withModule id bytes) (s.touching paths) = some (.error e, { s with outside := o }) := by
        rw [find_eq_accept, Run.bind_apply, hkept]
      cases (execute_find_error hfind).symm.trans hexecute
      exact .inr ⟨paths, e, o, hkeep, rfl⟩
    | ok _ =>
      have hstores := (accept_stores (r := r.withModule id bytes) rfl (fun found hread => by
        have hfile := FileTree.read?_place hread
        cases hplace.symm.trans hfile) _ _ hkept).2
      rcases execute_meets hkept hhash hexecute with ⟨_, hnone⟩ | ⟨hknown, file, hoffers, hmeets⟩
      · exact absurd hstores.stocks hnone
      · exact .inl ⟨hknown, file, hoffers, hmeets.answers, hmeets.refused, hmeets.ran⟩

/-- With nothing on record it is not refused as stale. -/
theorem supply_not_stale (hupload : r.upload = none) (hhash : s.outside.versions.hash? r.type r.file = none)
    (h : supply budget thread id bytes r s = some (.ok a, u)) : ¬RefusedAsStale a := by
  have hfresh {q : Request Datum} {t : Server} (hnone : t.outside.versions.hash? q.type q.file = none)
      (hexecute : execute budget thread q t = some (.ok a, u)) : ¬RefusedAsStale a := by
    intro hstale
    obtain ⟨hash, hfound, _⟩ := execute_stale budget thread _ _ hexecute a rfl hstale
    cases hnone.symm.trans hfound
  rcases supply_eq_ok h with ⟨hexecute, _⟩ | ⟨t, hunknown, hexecute⟩
  · exact hfresh hhash hexecute
  · obtain ⟨paths, rfl⟩ := execute_unknown hupload hhash hunknown
    exact hfresh (q := r.withModule id bytes) (t := s.touching paths) hhash hexecute

end

/-- Two requests for different modules. -/
structure Apart (r r' : Request Datum) : Prop where
  file : r'.file ≠ r.file
  type : r'.type ≠ r.type
  hash : r'.hash ≠ r.hash

end Server

/-! ## A lamp and its switch -/

namespace lamp

/-- The module on the server. -/
def placed : LoadedModule × Domain := (room.domain.register client client.toFile
  (some (room.outside.pathFor lighting.hash "Lamp"))).toOption.getD default

/-- The server when the method is run. -/
def dim : Server := room.supplied lighting client.toFile placed.1 placed.2

open switch Server

theorem lighting_valid : validate lighting = .ok () := by
  have hhash : isHexDigest lighting.hash = true := DigestAlgorithm.digest_isHexDigest _ _
  have hfile : isPlainFileName lighting.file = true := names_plain.1
  rw [validate, hhash, hfile]
  rfl

theorem ofFile_client : Module.ofFile lamp.client.toFile = .ok lamp.client :=
  Module.ofFile_toFile (Module.validate_eq_ok.mp rfl) (by decide +kernel)

set_option maxRecDepth 20000 in
theorem loadFile_client :
    room.domain.loadFile lamp.client.toFile (some (room.outside.pathFor lighting.hash lighting.file)) = .ok placed := by
  unfold Domain.loadFile
  rw [ofFile_client]
  rfl

/-- With the lamp in the domain as the other module has brought it, that of the request is refused. -/
theorem refused : ∃ d, supply 20 none (Uuid.ofNat 2) switch.client.toFile pressing room =
      some (.ok (.completed (.int32 7) []), ⟨d, lit.outside⟩) ∧ d.digest = .md5 ∧
    ∃ u, supply 20 none (Uuid.ofNat 2) lamp.client.toFile lighting ⟨d, lit.outside⟩ =
      some (.ok (.fault (Error.invalid (.versionLoaded "Lamp" (DigestAlgorithm.md5.digest lamp.toFile)
        lighting.hash)).toFault), u) := by
  obtain ⟨d, hpressed, hdigest, hloaded⟩ := pressed
  have hhash : d.digest.digest lamp.client.toFile = lighting.hash := by
    rw [hdigest]
    rfl
  have hbrought : brought.1.hash = DigestAlgorithm.md5.digest lamp.toFile := rfl
  have hload : d.loadFile lamp.client.toFile (some (lit.outside.pathFor lighting.hash lighting.file)) =
      .error (.invalid (.versionLoaded "Lamp" (DigestAlgorithm.md5.digest lamp.toFile) lighting.hash)) := by
    have hother : brought.1.hash ≠ d.digest.digest lamp.client.toFile := by
      rw [hhash, hbrought]
      exact digests_differ.1
    unfold Domain.loadFile
    rw [ofFile_client, ← hhash, ← hbrought]
    exact Domain.register_other (m := lamp.client) hloaded hother
  have hroom : lit.outside.Roomy lighting.hash "Lamp" := by
    have hother : ¬(lighting.hash = pressing.hash ∧ "Lamp" = "Lamp") := fun h => digests_differ.2.2 h.1.symm
    exact (dark_roomy _).keeping hother lamp.toFile
  exact ⟨d, hpressed, hdigest, _, supply_refused (s := ⟨d, lit.outside⟩) lighting_valid rfl names_plain.2.1 rfl rfl hroom
    hhash hload⟩

set_option maxRecDepth 20000 in
/-- The lamp cannot be lit twice, whoever lit it first. -/
theorem failed : ∃ s v, supply 20 none (Uuid.ofNat 2) lamp.client.toFile lighting room =
      some (.ok (.completed (.int32 7) []), s) ∧
    supply 20 none (Uuid.ofNat 2) switch.client.toFile pressing s =
      some (.ok (.fault (Error.thrown "Ops.Lamp" "Light" "lit").toFault), v) := by
  obtain ⟨e, l, d, v, hrun, hdigest, hregister, hrun'⟩ : ∃ e l d v,
      respond (lighting.withModule (Uuid.ofNat 2) lamp.client.toFile) 20 none placed.1 dim =
        some (.ok (.completed (.int32 7) []), ⟨e, dim.outside⟩) ∧ e.digest = .md5 ∧
      e.register switch.client switch.client.toFile (some (dim.outside.pathFor pressing.hash "Switch")) = .ok (l, d) ∧
      respond bringing 20 none l (Server.supplied ⟨e, dim.outside⟩ pressing switch.client.toFile l d) =
        some (.ok (.fault (Error.thrown "Ops.Lamp" "Light" "lit").toFault), v) := ⟨_, _, _, _, rfl, rfl, rfl, rfl⟩
  have hload : e.loadFile switch.client.toFile (some (dim.outside.pathFor pressing.hash pressing.file)) = .ok (l, d) := by
    unfold Domain.loadFile
    rw [switch.ofFile_client]
    exact hregister
  have hhash : e.digest.digest switch.client.toFile = pressing.hash := by
    rw [hdigest]
    rfl
  have hroom : dim.outside.Roomy pressing.hash "Switch" := by
    have hother : ¬(pressing.hash = lighting.hash ∧ "Switch" = "Lamp") := by simp
    exact (((Storage.roomy_empty _ _).of_disk rfl rfl).keeping hother lamp.client.toFile).of_disk rfl rfl
  refine ⟨⟨e, dim.outside⟩, v, ?_, ?_⟩
  · rw [supply_loads lighting_valid rfl names_plain.2.1 rfl rfl (Storage.roomy_empty _ _) rfl loadFile_client]
    exact hrun
  · rw [supply_loads (s := ⟨e, dim.outside⟩) pressing_valid rfl names_plain.2.2.2 rfl rfl hroom hhash hload]
    exact hrun'

end lamp

end MobileCode
