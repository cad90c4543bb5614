import MobileCode.Proofs.Conduct
import MobileCode.Proofs.Linkage

/-! # Looking for the module of a request

A server that has accepted a request looks for its module: in its domain if the hash is on record, and otherwise on its
disk. What it finds it writes down. After that it only runs code, which changes nothing of what is on record.
-/
namespace MobileCode

theorem State.loadFile_yields {ω : Type} {s : State ω} {bytes : Bytes} {path : Option String} :
    (loadFile bytes path : Run (State ω) _).Yields s fun outcome t =>
      (∃ l d, outcome = .ok l ∧ s.domain.loadFile bytes path = .ok (l, d) ∧ t = { s with domain := d }) ∨
        ∃ e, outcome = .error e ∧ t = s := by
  intro outcome t h
  unfold loadFile at h
  rw [Run.get_bind] at h
  cases hd : s.domain.loadFile bytes path with
  | error e =>
    rw [hd] at h
    cases h
    exact .inr ⟨e, rfl, rfl⟩
  | ok p =>
    rw [hd] at h
    cases h
    exact .inl ⟨p.1, p.2, rfl, rfl, rfl⟩

namespace Server
variable {s t : Server} {r : Request Datum}

/-! ## On the disk -/

theorem probe_stays (r : Request Datum) : (probe r).Respects True Stays :=
  Run.Respects.get.bind fun _ => onStorage_stays (probeIn_keepsVersions r _ _)

theorem probeIn_among {algorithm : DigestAlgorithm} (directories : List String) {o : Storage} :
    (probeIn r algorithm directories).Ensures o fun found _ =>
      ∀ path ∈ found, ∃ directory ∈ directories, path = joinPath directory r.file := by
  induction directories generalizing o with
  | nil => exact .pure (by simp)
  | cons directory rest ih =>
    have hrest {t : Storage} : (probeIn r algorithm rest).Ensures t fun found _ =>
        ∀ path ∈ found, ∃ other ∈ directory :: rest, path = joinPath other r.file := by
      intro found u h path hpath
      obtain ⟨other, hother, hsame⟩ := ih found u h path hpath
      exact ⟨other, List.mem_cons_of_mem _ hother, hsame⟩
    unfold probeIn
    refine .after fun there t => ?_
    split
    · refine .after fun bytes u => ?_
      split
      · refine .pure fun path hpath => ⟨directory, List.mem_cons_self, ?_⟩
        cases hpath
        rfl
      · exact hrest
    · exact hrest

/-- The file of a module in a directory where the server looks. -/
structure Spots (s : Server) (r : Request Datum) (bytes : Bytes) : Prop where
  read : ∃ directory ∈ s.outside.probePaths ++ [s.outside.sandboxFor r.hash],
    s.outside.disk.read? (joinPath directory r.file) = some bytes
  answers : answersTo s.domain.digest r.hash bytes = true

theorem Spots.onDisk {bytes : Bytes} (h : s.Spots r bytes) : ∃ p, s.outside.disk.fileAt? p = some bytes := by
  obtain ⟨_, _, hread⟩ := h.read
  exact FileTree.exists_fileAt?_of_read? hread

theorem probe_spots : (probe r).Ensures s fun found t => (t.domain = s.domain ∧ t.outside.disk = s.outside.disk) ∧
    ∀ path ∈ found, ∃ bytes, s.outside.disk.read? path = some bytes ∧ s.Spots r bytes := by
  intro found t h
  obtain ⟨hsame, hfound⟩ := probe_ensures found t h
  have hamong : (probe r).Ensures s fun found _ => ∀ path ∈ found,
      ∃ directory ∈ s.outside.probePaths ++ [s.outside.sandboxFor r.hash], path = joinPath directory r.file :=
    .get_bind ((State.onOutside_ensures (probeIn_among _)).mono fun _ _ h => h.2)
  refine ⟨hsame, fun path hpath => ?_⟩
  obtain ⟨bytes, hread, hanswers⟩ := hfound path hpath
  obtain ⟨directory, hdirectory, rfl⟩ := hamong found t h path hpath
  exact ⟨bytes, hread, ⟨directory, hdirectory, hread⟩, hanswers⟩

/-- Where the module of a request comes from. -/
inductive Comes (r : Request Datum) (s : Server) (l : LoadedModule) (u : Server) : Prop
  /-- It is loaded, and the hash is on record. -/
  | known (hash : s.outside.versions.hash? r.type r.file = some r.hash) (module : s.domain.module? r.file = some l)
    (domain : u.domain = s.domain)
  /-- It is not, or there is no record. -/
  | fromFile {bytes : Bytes} {path : Option String}
    (unknown : s.outside.versions.hash? r.type r.file = none ∨ s.domain.module? r.file = none)
    (file : s.Spots r bytes) (load : s.domain.loadFile bytes path = .ok (l, u.domain))

theorem Comes.loaded {l : LoadedModule} {u : Server} (h : Comes r s l u) (hs : s.domain.Indexed) :
    u.domain.module? l.name = some l := by
  cases h with
  | known _ hl hdomain =>
    obtain ⟨hname, _⟩ := hs.modules r.file l hl
    rw [hdomain, hname, hl]
  | fromFile _ _ hload => exact (Domain.loadFile_found hload hs).1

/-- What became of a search: no module was found and nothing is written down, or a module was found and is. -/
def Searched (r : Request Datum) (s : Server) (outcome : Except Error (Option LoadedModule)) (t : Server) : Prop :=
  Stays s t ∧ (∀ l, outcome ≠ .ok (some l)) ∨
    ∃ l u, outcome = .ok (some l) ∧ Comes r s l u ∧ Stays s u ∧ record r l u = some (.ok (), t)

theorem loadProbed_searched (hunknown : s.outside.versions.hash? r.type r.file = none ∨ s.domain.module? r.file = none) :
    (loadProbed r).Yields s (Searched r s) := by
  have hprobe : (probe r).Yields s fun outcome u => Stays s u ∧ ∀ path, outcome = .ok (some path) →
      (u.domain = s.domain ∧ u.outside.disk = s.outside.disk) ∧
        ∃ bytes, s.outside.disk.read? path = some bytes ∧ s.Spots r bytes := by
    intro outcome u h
    refine ⟨probe_stays r s outcome u h (.inl trivial), ?_⟩
    rintro path rfl
    obtain ⟨hsame, hfound⟩ := probe_spots _ _ h
    exact ⟨hsame, hfound path rfl⟩
  unfold loadProbed
  refine hprobe.bind ?_ fun e u hu => .inl ⟨hu.1, by simp⟩
  intro found u hu
  split
  · exact .pure (.inl ⟨hu.1, by simp⟩)
  rename_i path
  obtain ⟨⟨hdomain, hfiles⟩, bytes, hread, hspots⟩ := hu.2 path rfl
  have hread' : (Storage.read path).Yields u.outside fun outcome o =>
      o.versions = u.outside.versions ∧ ∀ b, outcome = .ok b → b = bytes := by
    intro outcome o h
    refine ⟨Storage.read_keepsVersions path u.outside outcome o h, ?_⟩
    rintro b rfl
    obtain ⟨_, hb⟩ := Storage.read_ensures b o h
    rw [hfiles, hread] at hb
    exact (Option.some.inj hb).symm
  refine (State.onOutside_yields hread').bind ?_ fun e v hv =>
    .inl ⟨trans_of Stays hu.1 (.of_same hv.1 hv.2.1), by simp⟩
  rintro b v ⟨hsame, hversions, hb⟩
  obtain rfl := hb b rfl
  have hv : Stays s v := trans_of Stays hu.1 (.of_same hsame hversions)
  refine State.loadFile_yields.bind ?_ ?_
  · rintro l w (⟨_, d, hl, hload, rfl⟩ | ⟨_, he, _⟩)
    · cases hl
      have hw : Stays s { v with domain := d } := ⟨hv.1.trans (Domain.loadFile_gains hload), hv.2⟩
      rw [hsame, hdomain] at hload
      intro outcome t h
      have hrecord : ∃ x, record r l { v with domain := d } = some (.ok (), x) ∧ outcome = .ok (some l) ∧ t = x := by
        cases h
        exact ⟨_, rfl, rfl, rfl⟩
      obtain ⟨x, hx, rfl, rfl⟩ := hrecord
      exact .inr ⟨l, _, rfl, .fromFile hunknown hspots hload, hw, hx⟩
    · cases he
  · rintro e w (⟨_, _, hl, _⟩ | ⟨_, _, rfl⟩)
    · cases hl
    · exact .inl ⟨hv, by simp⟩

theorem resolve_searched : (resolve r).Yields s (Searched r s) := by
  unfold resolve
  refine Run.Yields.get_bind ?_
  split
  · rename_i hnone
    exact loadProbed_searched (.inl hnone)
  rename_i hash hhash
  split
  · exact .throw (.inl ⟨refl_of Stays s, by simp⟩)
  rename_i hsame
  obtain rfl : hash = r.hash := not_not.mp hsame
  split
  · rename_i hnone
    exact loadProbed_searched (.inr hnone)
  rename_i l hl
  intro outcome t h
  have hrecord : ∃ u, record r l s = some (.ok (), u) ∧ outcome = .ok (some l) ∧ t = u := by
    cases h
    exact ⟨_, rfl, rfl, rfl⟩
  obtain ⟨u, hu, rfl, rfl⟩ := hrecord
  exact .inr ⟨l, s, rfl, .known hhash hl rfl, refl_of Stays s, hu⟩

/-! ## Requests that are accepted -/

/-- A file that is on the disk or comes with the request. -/
def Offers (s : Server) (r : Request Datum) (bytes : Bytes) : Prop :=
  (∃ p, s.outside.disk.fileAt? p = some bytes) ∨ r.upload = some bytes

theorem storeUpload_yields {bytes : Bytes} : (storeUpload r bytes).Yields s fun outcome t => t.domain = s.domain ∧
    t.outside.versions = s.outside.versions ∧ (outcome = .ok () → ∀ p found,
      t.outside.disk.fileAt? p = some found → found = bytes ∨ s.outside.disk.fileAt? p = some found) := by
  unfold storeUpload
  refine Run.Yields.get_bind ?_
  dsimp only
  split
  · have hkeep : (Storage.keep r.hash r.file bytes).Yields s.outside fun outcome o =>
        o.versions = s.outside.versions ∧ (outcome = .ok () → ∀ p found,
          o.disk.fileAt? p = some found → found = bytes ∨ s.outside.disk.fileAt? p = some found) := by
      intro outcome o h
      refine ⟨Storage.keep_keepsVersions _ _ _ s.outside outcome o h, ?_⟩
      rintro rfl
      exact Storage.keep_ensures _ o h
    exact State.onOutside_yields hkeep
  · exact .throw ⟨rfl, rfl, by simp⟩

/-- What comes before the search: the request is checked, and the module that it brings is kept. -/
def accept (r : Request Datum) : Serving Unit := do
  Run.ofExcept (validate r)
  if let some bytes := r.upload then storeUpload r bytes

theorem find_eq_accept : find r = accept r >>= fun _ => resolve r := by
  unfold find accept
  rw [bind_assoc]
  refine bind_congr fun _ => ?_
  cases r.upload with
  | none => rfl
  | some bytes => rfl

theorem accept_yields : (accept r).Yields s fun outcome t => t.domain = s.domain ∧
    t.outside.versions = s.outside.versions ∧ (outcome = .ok () → ∀ p bytes,
      t.outside.disk.fileAt? p = some bytes → s.Offers r bytes) := by
  have hvalid : (Run.ofExcept (validate r) : Serving Unit).Yields s fun _ t => t = s := by
    intro outcome t h
    cases h
    rfl
  unfold accept
  refine hvalid.bind ?_ ?_
  swap
  · rintro e t rfl
    exact ⟨rfl, rfl, by simp⟩
  rintro _ t rfl
  cases hupload : r.upload with
  | none => exact .pure ⟨rfl, rfl, fun _ p bytes hp => .inl ⟨p, hp⟩⟩
  | some bytes =>
    intro outcome u h
    obtain ⟨hdomain, hversions, hdisk⟩ := storeUpload_yields outcome u h
    refine ⟨hdomain, hversions, fun hok p found hp => ?_⟩
    rcases hdisk hok p found hp with rfl | hold
    · exact .inr hupload
    · exact .inl ⟨p, hold⟩

theorem Stays.of_accept {outcome : Except Error Unit} (h : accept r s = some (outcome, t)) : Stays s t := by
  obtain ⟨hdomain, hversions, _⟩ := accept_yields outcome t h
  exact .of_same hdomain hversions

/-- A module that is loaded and on record is found, and written down once more. -/
theorem find_loaded {l : LoadedModule} (hvalid : validate r = .ok ()) (hupload : r.upload = none)
    (hversions : s.outside.versions.hash? r.type r.file = some r.hash) (hmodule : s.domain.module? r.file = some l) :
    find r s = some (.ok (some l),
      ⟨s.domain, { s.outside with versions := s.outside.versions.record l r.type r.hash }⟩) := by
  unfold find resolve
  rw [hvalid, hupload]
  simp only [Run.ofExcept_ok, pure_bind, Run.get_bind, hversions, ne_eq, not_true_eq_false, if_false, hmodule]
  rfl

/-- Nothing was found, or the request was accepted, and from there a module was found. -/
theorem find_searched : (find r).Yields s fun outcome t => Stays s t ∧ (∀ l, outcome ≠ .ok (some l)) ∨
    ∃ v, accept r s = some (.ok (), v) ∧ Searched r v outcome t := by
  have haccept : (accept r).Yields s fun outcome v => Stays s v ∧ accept r s = some (outcome, v) :=
    fun outcome v h => ⟨.of_accept h, h⟩
  rw [find_eq_accept]
  refine haccept.bind ?_ fun e v hv => .inl ⟨hv.1, by simp⟩
  rintro _ v ⟨_, hv⟩ outcome t h
  exact .inr ⟨v, hv, resolve_searched outcome t h⟩

/-! ## Whole requests -/

theorem serve_eq_find (budget : Nat) (thread : Option String) : serve r budget thread = (do
    match ← find r with
    | none => return .moduleUnknown
    | some m => do
      let host := hostFor r (if r.onMainThread then some Native.mainThread else thread) m
      invoke r host (Machine.runner { host } budget)) := by
  unfold serve find
  rw [bind_assoc]
  refine bind_congr fun _ => ?_
  cases r.upload with
  | none => rfl
  | some bytes => exact (bind_assoc _ _ _).symm

/-- A module that is found is run. -/
theorem execute_found {budget : Nat} {thread : Option String} {l : LoadedModule} {u : Server} {a : Answer Value}
    (hfind : find r s = some (.ok (some l), t))
    (hinvoke : invoke r (hostFor r (if r.onMainThread then some Native.mainThread else thread) l)
      (Machine.runner { host := hostFor r (if r.onMainThread then some Native.mainThread else thread) l } budget) t =
        some (.ok a, u)) : execute budget thread r s = some (.ok a, u) := by
  have hserve : serve r budget thread s = some (.ok a, u) := by
    rw [serve_eq_find, Run.bind_apply, hfind]
    exact hinvoke
  rw [execute, Run.bind_apply, Run.attempt, hserve]
  rfl

/-- What holds when the module has been looked for, in two parts, of which the second is for a module that was found. If
code that is run changes nothing about them, then the first holds after the request, and the second if it is completed. -/
theorem execute_of_find {P Q : Server → Prop} (hP : ∀ t u, P t → Stays t u → P u) (hQ : ∀ t u, Q t → Stays t u → Q u)
    (hfind : (find r).Yields s fun outcome t => P t ∧ ((∃ l, outcome = .ok (some l)) → Q t)) (budget : Nat)
    (thread : Option String) : (execute budget thread r).Yields s fun outcome t =>
      P t ∧ ((∃ v vs, outcome = .ok (.completed v vs)) → Q t) := by
  have hserve : (serve r budget thread).Yields s fun outcome t =>
      P t ∧ ((∃ v vs, outcome = .ok (.completed v vs)) → Q t) := by
    rw [serve_eq_find]
    refine hfind.bind ?_ fun e t ht => ⟨ht.1, by simp⟩
    intro found t ht
    split
    · exact .pure ⟨ht.1, by simp⟩
    · rename_i l
      intro outcome u h
      have hstays := invoke_stays r budget _ _ t outcome u h (.inl trivial)
      exact ⟨hP t u ht.1 hstays, fun _ => hQ t u (ht.2 ⟨l, rfl⟩) hstays⟩
  unfold execute
  refine hserve.attempt_bind fun outcome t ht => ?_
  split
  · exact .pure ht
  · exact .pure ⟨ht.1, by simp⟩

end Server
end MobileCode
