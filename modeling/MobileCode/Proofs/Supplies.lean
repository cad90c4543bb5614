import MobileCode.Proofs.Uploads

/-! # Sending the module when it is asked for

A server with nothing on record for a request finds no module, or one that it loads from a file that answers to the hash.
A request is sent, and once more with the module if the server asks for it: then the server has only looked for the module,
and with a place for it on the disk it loads what it is sent.
-/
namespace MobileCode

theorem Run.bind_eq_bind {σ α β : Type} {x y : Run σ α} {s t : σ} (h : x s = y t) (f : α → Run σ β) :
    (x >>= f) s = (y >>= f) t := by rw [bind_apply, bind_apply, h]

namespace Server
variable {s t u : Server} {r : Request Datum}

/-! ## Searching with nothing on record -/

theorem probeIn_eq (algorithm : DigestAlgorithm) (directories : List String) (o : Storage) :
    ∃ found paths, probeIn r algorithm directories o = some (.ok found, { o with touched := paths }) ∧
      (found = none → ∀ directory ∈ directories, ¬HasFile algorithm r o.disk directory) ∧
      ∀ path, found = some path → ∃ directory ∈ directories, path = joinPath directory r.file ∧
        HasFile algorithm r o.disk directory := by
  induction directories generalizing o with
  | nil => exact ⟨none, o.touched, rfl, by simp, by simp⟩
  | cons first rest ih =>
    have hrest (paths : List String) (hnone : ¬HasFile algorithm r o.disk first) : ∃ found paths',
        probeIn r algorithm rest { o with touched := paths } = some (.ok found, { o with touched := paths' }) ∧
          (found = none → ∀ directory ∈ first :: rest, ¬HasFile algorithm r o.disk directory) ∧
          ∀ path, found = some path → ∃ directory ∈ first :: rest, path = joinPath directory r.file ∧
            HasFile algorithm r o.disk directory := by
      obtain ⟨found, paths', hprobe, hmissing, hfound⟩ := ih { o with touched := paths }
      refine ⟨found, paths', hprobe, fun h => List.forall_mem_cons.mpr ⟨hnone, hmissing h⟩, fun path h => ?_⟩
      obtain ⟨directory, hmem, hfile⟩ := hfound path h
      exact ⟨directory, List.mem_cons_of_mem _ hmem, hfile⟩
    simp only [probeIn, Run.bind_apply, Storage.isFile_apply]
    split
    · rename_i hthere
      obtain ⟨bytes, hread⟩ := FileTree.isFile_eq_true.mp hthere
      have hread' : Storage.read (joinPath first r.file) { o with touched := joinPath first r.file :: o.touched } =
          some (.ok bytes, _) := Storage.read_found hread
      simp only [Run.bind_apply, hread']
      split
      · rename_i hanswers
        refine ⟨_, _, rfl, by simp, fun path h => ⟨first, List.mem_cons_self, ?_, bytes, hread, hanswers⟩⟩
        cases h
        rfl
      · rename_i hother
        refine hrest _ ?_
        rintro ⟨found, hfound, hanswers⟩
        cases hread.symm.trans hfound
        exact hother hanswers
    · rename_i hmissing
      refine hrest _ ?_
      rintro ⟨found, hfound, _⟩
      exact hmissing (FileTree.isFile_eq_true.mpr ⟨found, hfound⟩)

/-- With nothing on record, the server finds no module, or one that it loads from a file that answers to the hash. -/
theorem resolve_unrecorded (h : s.outside.versions.hash? r.type r.file = none) :
    (¬s.Stocks r ∧ ∃ paths, resolve r s = some (.ok none, s.touching paths)) ∨
      ∃ bytes path paths, s.Spots r bytes ∧ resolve r s = (do
        let l ← State.loadFile bytes (some path)
        record r l
        return some l : Serving (Option LoadedModule)) (s.touching paths) := by
  have hresolve : resolve r s = loadProbed r s := by
    unfold resolve
    rw [Run.get_bind, h]
  rw [hresolve]
  obtain ⟨found, paths, hprobe, hmissing, hfound⟩ := probeIn_eq (r := r) s.domain.digest
    (s.outside.probePaths ++ [s.outside.sandboxFor r.hash]) s.outside
  have hprobed : probe r s = some (.ok found, s.touching paths) := by
    unfold probe onStorage State.onOutside Run.zoom
    rw [Run.get_bind, hprobe]
    rfl
  unfold loadProbed
  rw [Run.bind_apply, hprobed]
  cases found with
  | none =>
    refine .inl ⟨?_, paths, rfl⟩
    rintro ⟨directory, hmem, hfile⟩
    exact hmissing rfl directory hmem hfile
  | some path =>
    obtain ⟨directory, hmem, rfl, bytes, hread, hanswers⟩ := hfound path rfl
    have hread' : Storage.read (joinPath directory r.file) (s.touching paths).outside = some (.ok bytes, _) :=
      Storage.read_found hread
    refine .inr ⟨bytes, joinPath directory r.file, joinPath directory r.file :: paths, ⟨⟨directory, hmem, hread⟩, hanswers⟩, ?_⟩
    dsimp only
    rw [Run.bind_apply, onStorage, State.onOutside, Run.zoom, hread']
    rfl

/-! ## What comes of the search -/

/-- What is answered to a request for which a module has been found. -/
def respond (r : Request Datum) (budget : Nat) (thread : Option String) (l : LoadedModule) : Serving (Answer Value) := do
  let host := hostFor r (if r.onMainThread then some Native.mainThread else thread) l
  match ← Run.attempt (invoke r host (Machine.runner { host } budget)) with
  | .ok a => return a
  | .error e => return .fault e.toFault

section
variable {budget : Nat} {thread : Option String} {l : LoadedModule} {a : Answer Value}

theorem execute_eq_respond (h : find r s = some (.ok (some l), t)) : execute budget thread r s = respond r budget thread l t := by
  have hserve : serve r budget thread s =
      invoke r (hostFor r (if r.onMainThread then some Native.mainThread else thread) l)
        (Machine.runner { host := hostFor r (if r.onMainThread then some Native.mainThread else thread) l } budget) t := by
    rw [serve_eq_find, Run.bind_apply, h]
  exact Run.bind_eq_bind (by rw [Run.attempt, Run.attempt, hserve]) _

theorem execute_not_found (h : find r s = some (.ok none, t)) :
    execute budget thread r s = some (.ok .moduleUnknown, t) := by
  rw [execute, Run.bind_apply, Run.attempt, serve_eq_find, Run.bind_apply, h]
  rfl

theorem execute_find_error {e : Error} (h : find r s = some (.error e, t)) :
    execute budget thread r s = some (.ok (.fault e.toFault), t) := by
  rw [execute, Run.bind_apply, Run.attempt, serve_eq_find, Run.bind_apply, h]
  rfl

theorem respond_ne_unknown (h : respond r budget thread l s = some (.ok a, t)) : a ≠ .moduleUnknown := by
  rw [respond, Run.bind_apply, Run.attempt] at h
  rcases hinvoke : invoke r (hostFor r (if r.onMainThread then some Native.mainThread else thread) l)
    (Machine.runner { host := hostFor r (if r.onMainThread then some Native.mainThread else thread) l } budget) s with
    _ | ⟨e | b, u⟩
  · rw [hinvoke] at h
    cases h
  · rw [hinvoke] at h
    cases h
    simp
  · rw [hinvoke] at h
    cases h
    obtain ⟨v, vs, rfl⟩ := invoke_completed _ _ hinvoke
    simp

/-- A request that is accepted, of which nothing is on record: the module is unknown, or a file of it cannot be loaded, or
it can, and the method is run. -/
theorem execute_unrecorded (haccept : accept r s = some (.ok (), u))
    (h : s.outside.versions.hash? r.type r.file = none) (budget : Nat) (thread : Option String) :
    (¬u.Stocks r ∧ ∃ paths, execute budget thread r s = some (.ok .moduleUnknown, u.touching paths)) ∨
      ∃ bytes path paths, u.Spots r bytes ∧
        ((∃ e, s.domain.loadFile bytes (some path) = .error e ∧
            execute budget thread r s = some (.ok (.fault e.toFault), u.touching paths)) ∨
          ∃ l d, s.domain.loadFile bytes (some path) = .ok (l, d) ∧
            execute budget thread r s = respond r budget thread l
              ⟨d, { u.outside with touched := paths, versions := u.outside.versions.record l r.type r.hash }⟩) := by
  obtain ⟨hdomain, hversions, _⟩ := accept_yields _ u haccept
  have hfind : find r s = resolve r u := by rw [find_eq_accept, Run.bind_apply, haccept]
  rcases resolve_unrecorded (s := u) (r := r) (by rw [hversions, h]) with ⟨hnone, paths, hresolve⟩ |
    ⟨bytes, path, paths, hspots, hresolve⟩
  · exact .inl ⟨hnone, paths, execute_not_found (hfind.trans hresolve)⟩
  refine .inr ⟨bytes, path, paths, hspots, ?_⟩
  have hload : (State.loadFile bytes (some path) : Serving LoadedModule) (u.touching paths) =
      (Run.ofExcept (s.domain.loadFile bytes (some path)) >>= fun p => State.modifyDomain (fun _ => p.2) >>= fun _ =>
        pure p.1 : Serving LoadedModule) (u.touching paths) := by
    rw [State.loadFile, Run.get_bind, ← hdomain]
    rfl
  rw [← hfind, Run.bind_apply, hload] at hresolve
  cases hd : s.domain.loadFile bytes (some path) with
  | error e =>
    rw [hd] at hresolve
    exact .inl ⟨e, rfl, execute_find_error hresolve⟩
  | ok p =>
    rw [hd] at hresolve
    exact .inr ⟨p.1, p.2, rfl, execute_eq_respond hresolve⟩

end

end Server

/-! ## Requests with the module -/

/-- The request once more, with its module. -/
def Request.withModule (r : Request Datum) (id : Uuid) (bytes : Bytes) : Request Datum := { r with id, upload := some bytes }

namespace Server
variable {s t u : Server} {r r' : Request Datum}

/-- Sends a request, and once more with the module if the server asks for it. -/
def supply (budget : Nat) (thread : Option String) (id : Uuid) (bytes : Bytes) (r : Request Datum) :
    Serving (Answer Value) := do
  match ← execute budget thread r with
  | .moduleUnknown => execute budget thread (r.withModule id bytes)
  | a => return a

section
variable {budget : Nat} {thread : Option String} {id : Uuid} {bytes : Bytes} {a : Answer Value}

/-- If the module is asked for, then after the server has looked for it only. -/
theorem supply_eq_ok (h : supply budget thread id bytes r s = some (.ok a, u)) :
    execute budget thread r s = some (.ok a, u) ∧ a ≠ .moduleUnknown ∨
      ∃ t, execute budget thread r s = some (.ok .moduleUnknown, t) ∧
        execute budget thread (r.withModule id bytes) t = some (.ok a, u) := by
  obtain ⟨b, t, hfirst, h⟩ := Run.bind_eq_ok.mp h
  cases b with
  | moduleUnknown => exact .inr ⟨t, hfirst, h⟩
  | completed v vs | fault f =>
    cases h
    exact .inl ⟨hfirst, by simp⟩

theorem accept_bare (hupload : r.upload = none) (hvalid : validate r = .ok ()) : accept r s = some (.ok (), s) := by
  unfold accept
  rw [hupload, hvalid]
  rfl

/-- A module is unknown to a server that has only looked for it. -/
theorem execute_unknown (hupload : r.upload = none) (h : s.outside.versions.hash? r.type r.file = none)
    (hexecute : execute budget thread r s = some (.ok .moduleUnknown, t)) : ∃ paths, t = s.touching paths := by
  cases hvalid : validate r with
  | error e =>
    have haccept : find r s = some (.error e, s) := by
      rw [find, hvalid]
      rfl
    cases (execute_find_error haccept).symm.trans hexecute
  | ok _ =>
    rcases execute_unrecorded (accept_bare hupload hvalid) h budget thread with ⟨_, paths, hunknown⟩ |
      ⟨_, _, _, _, ⟨e, _, hrefused⟩ | ⟨l, d, _, hresponds⟩⟩
    · cases hunknown.symm.trans hexecute
      exact ⟨paths, rfl⟩
    · cases hrefused.symm.trans hexecute
    · exact absurd rfl (respond_ne_unknown (hresponds.symm.trans hexecute))

theorem accept_withModule (hvalid : validate r = .ok ()) (hdigest : s.domain.digest.digest bytes = r.hash) :
    accept (r.withModule id bytes) s = onStorage (Storage.keep r.hash r.file bytes) s := by
  have hvalid' : validate (r.withModule id bytes) = .ok () := hvalid
  have hstore : accept (r.withModule id bytes) s = storeUpload (r.withModule id bytes) bytes s := by
    unfold accept
    rw [hvalid']
    rfl
  rw [hstore, storeUpload, Run.get_bind]
  exact congrFun (if_pos hdigest) _

/-- What is answered in the end is answered in a run of at most two requests. -/
theorem Serves.of_supply (h : supply budget thread id bytes r s = some (.ok a, u)) : ∃ turns, Serves s turns u := by
  rcases supply_eq_ok h with ⟨hexecute, _⟩ | ⟨t, hunknown, hexecute⟩
  · exact ⟨_, .cons (x := ⟨budget, thread, r, s, a, u⟩) hexecute (.nil u)⟩
  · exact ⟨_, .cons (x := ⟨budget, thread, r, s, .moduleUnknown, t⟩) hunknown
      (.cons (x := ⟨budget, thread, r.withModule id bytes, t, a, u⟩) hexecute (.nil u))⟩

end

/-- The server when it has asked for a module and loaded what it was sent. -/
def supplied (s : Server) (r : Request Datum) (bytes : Bytes) (l : LoadedModule) (d : Domain) : Server :=
  ⟨d, { ((s.looking r).stored r bytes).outside with versions := s.outside.versions.record l r.type r.hash }⟩

section
variable {budget : Nat} {thread : Option String} {id : Uuid} {bytes : Bytes} {l : LoadedModule} {d : Domain}
  (hvalid : validate r = .ok ()) (hupload : r.upload = none) (husable : FileTree.isUsable r.file = true)
  (hprobe : s.outside.probePaths = []) (hhash : s.outside.versions.hash? r.type r.file = none)
  (hroom : s.outside.Roomy r.hash r.file) (hdigest : s.domain.digest.digest bytes = r.hash)
include hvalid hupload husable hprobe hhash hroom hdigest

/-- A server with a place for the module asks for it, and searches no further when it is sent. -/
theorem supply_sent (budget : Nat) (thread : Option String) (id : Uuid) :
    supply budget thread id bytes r s = execute budget thread (r.withModule id bytes) (s.looking r) ∧
      find (r.withModule id bytes) (s.looking r) = (do
        let l ← State.loadFile bytes (some (s.outside.pathFor r.hash r.file))
        record r l
        return some l : Serving (Option LoadedModule)) ((s.looking r).stored r bytes) := by
  obtain ⟨hplain, hplain'⟩ := validate_eq_ok hvalid
  have hfiles : ∀ directory ∈ s.outside.probePaths ++ [s.outside.sandboxFor r.hash],
      s.outside.disk.isFile (joinPath directory r.file) = false := by
    rw [hprobe]
    exact List.forall_mem_singleton.mpr (hroom.missing hplain hplain')
  constructor
  · rw [supply, Run.bind_apply, execute_not_found (find_missing hvalid hupload hhash hfiles)]
  · exact find_sent (s := s.looking r) (r := r.withModule id bytes) hvalid husable hprobe hhash
      (hroom.of_disk rfl rfl) rfl hdigest

theorem supply_loads (hload : s.domain.loadFile bytes (some (s.outside.pathFor r.hash r.file)) = .ok (l, d)) :
    supply budget thread id bytes r s = respond (r.withModule id bytes) budget thread l (s.supplied r bytes l d) := by
  obtain ⟨hsupply, hfind⟩ := supply_sent hvalid hupload husable hprobe hhash hroom hdigest budget thread id
  rw [hsupply]
  refine execute_eq_respond (hfind.trans ?_)
  have hload' : ((s.looking r).stored r bytes).domain.loadFile bytes (some (s.outside.pathFor r.hash r.file)) =
      .ok (l, d) := hload
  simp only [Run.bind_apply, State.loadFile, Run.get_apply, hload']
  rfl

theorem supply_refused {e : Error}
    (hload : s.domain.loadFile bytes (some (s.outside.pathFor r.hash r.file)) = .error e) :
    supply budget thread id bytes r s = some (.ok (.fault e.toFault), (s.looking r).stored r bytes) := by
  obtain ⟨hsupply, hfind⟩ := supply_sent hvalid hupload husable hprobe hhash hroom hdigest budget thread id
  rw [hsupply]
  refine execute_find_error (hfind.trans ?_)
  have hload' : ((s.looking r).stored r bytes).domain.loadFile bytes (some (s.outside.pathFor r.hash r.file)) =
      .error e := hload
  simp only [Run.bind_apply, State.loadFile, Run.get_apply, hload']
  rfl

end

end Server
end MobileCode
