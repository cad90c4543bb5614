import MobileCode.Proofs.Lookups

/-! # Requests one after the other

A server answers requests one after the other. It remembers with which hash it served a module or a type, and as long
as every request asks for a type of the module that it names, each hash on record is one that the module answers to.
So a request that is completed has run a method of the module that it named.
-/
namespace MobileCode

/-- The hash is that of the module, or the one of the client module that it was deployed with. -/
def LoadedModule.Answers (l : LoadedModule) (hash : String) : Prop := l.hash = hash ∨ l.code.pairedHash = some hash

/-- The type that a request names belongs to the module that it names, if the domain has it. -/
def Request.NamesType {α : Type} (r : Request α) (d : Domain) : Prop :=
  ∀ t, d.type? r.type = some t → t.module.name = r.file

/-- The modules that answer to the hash that a request names have the name that it names. -/
def Request.NamesHash {α : Type} (r : Request α) (d : Domain) : Prop :=
  ∀ name l, d.module? name = some l → l.Answers r.hash → l.name = r.file

theorem Request.NamesType.of_gains {α : Type} {r : Request α} {d e : Domain} (h : r.NamesType e) (hde : d.Gains e) :
    r.NamesType d := fun t ht => h t (hde.types r.type t ht)

/-! ## The record of versions -/

namespace Versions
variable (v : Versions) (l : LoadedModule) (type hash name : String)

theorem modules_record : (v.record l type hash).modules.find? name =
    if name = l.name then some hash else v.modules.find? name := Dict.find?_insert _ _ _ _

theorem types_record : (v.record l type hash).types.find? name =
    if name = type ∧ (l.code.type? type).isSome = true then some hash else v.types.find? name := by
  unfold record
  dsimp only
  by_cases hsome : (l.code.type? type).isSome = true
  · simp only [hsome, if_true, Dict.find?_insert, and_true]
  · rw [if_neg hsome, if_neg fun h => hsome h.2]

end Versions

/-- What a loaded module declares is its own. -/
theorem Domain.Indexed.type?_declared {d : Domain} (hd : d.Indexed) {l : LoadedModule}
    (hl : d.module? l.name = some l) {type : String} (h : (l.code.type? type).isSome = true) :
    ∃ u, d.type? type = some ⟨l, u⟩ := by
  obtain ⟨u, hu⟩ := Option.isSome_iff_exists.mp h
  obtain ⟨hmem, hname⟩ := Module.type?_eq_some hu
  exact ⟨u, hname ▸ hd.declared l.name l hl u hmem⟩

namespace Server

/-- Each hash on record is one that the module on record answers to, or the module of the type on record. -/
structure Consistent (s : Server) : Prop where
  indexed : s.domain.Indexed
  modules : ∀ name hash, s.outside.versions.modules.find? name = some hash →
    ∃ l, s.domain.module? name = some l ∧ l.Answers hash
  types : ∀ type hash, s.outside.versions.types.find? type = some hash →
    ∃ t, s.domain.type? type = some t ∧ t.module.Answers hash

variable {s t : Server}

theorem Consistent.of_fresh (hindexed : s.domain.Indexed) (hversions : s.outside.versions = {}) : s.Consistent := by
  refine ⟨hindexed, fun name hash h => ?_, fun type hash h => ?_⟩
  · rw [hversions] at h
    cases h
  · rw [hversions] at h
    cases h

theorem Consistent.stays (hs : s.Consistent) (hst : Stays s t) : t.Consistent := by
  obtain ⟨hgains, hversions⟩ := hst
  refine ⟨hgains.indexed hs.indexed, fun name hash h => ?_, fun type hash h => ?_⟩
  · obtain ⟨l, hl, hanswers⟩ := hs.modules name hash (hversions ▸ h)
    exact ⟨l, hgains.modules name l hl, hanswers⟩
  · obtain ⟨t, ht, hanswers⟩ := hs.types type hash (hversions ▸ h)
    exact ⟨t, hgains.types type t ht, hanswers⟩

variable {r : Request Datum} {l : LoadedModule}

/-- What is recorded for a module that answers to the hash of the request. -/
theorem record_yields (hs : s.Consistent) (hl : s.domain.module? l.name = some l) (hanswers : l.Answers r.hash) :
    (record r l).Yields s fun outcome t => outcome = .ok () ∧ t.domain = s.domain ∧ t.Consistent := by
  intro outcome t h
  cases h
  refine ⟨rfl, rfl, hs.indexed, fun name hash h => ?_, fun type hash h => ?_⟩
  · replace h := (s.outside.versions.modules_record l r.type r.hash name).symm.trans h
    split at h
    · rename_i hname
      cases h
      exact ⟨l, hname ▸ hl, hanswers⟩
    · exact hs.modules name hash h
  · replace h := (s.outside.versions.types_record l r.type r.hash type).symm.trans h
    split at h
    · rename_i hdeclared
      obtain ⟨rfl, hdeclared⟩ := hdeclared
      cases h
      obtain ⟨u, hu⟩ := hs.indexed.type?_declared hl hdeclared
      exact ⟨⟨l, u⟩, hu, hanswers⟩
    · exact hs.types type hash h

/-! ## Files that are found -/

end Server

/-- The file has no digest in common with the file of a loaded module, unless it is the same. -/
def Domain.Discerns (d : Domain) (bytes : Bytes) : Prop :=
  ∀ name l, d.module? name = some l → ∀ x y : DigestAlgorithm, x.digest bytes = y.digest l.bytes → bytes = l.bytes

/-- A file that answers to a hash is loaded as a module that does. -/
theorem Domain.loadFile_answers {d e : Domain} {bytes : Bytes} {path : Option String} {l : LoadedModule} {hash : String}
    (hd : d.Indexed) (h : d.loadFile bytes path = .ok (l, e)) (hdiscerns : d.Discerns bytes)
    (hanswers : Server.answersTo d.digest hash bytes = true) : e.module? l.name = some l ∧ l.Answers hash := by
  obtain ⟨hfound, hhash, hcases⟩ := loadFile_found h hd
  refine ⟨hfound, ?_⟩
  obtain ⟨_, ⟨m, hm, hshape⟩, algorithm, hdigest⟩ := ((loadFile_gains h).indexed hd).modules l.name l hfound
  have hbytes : l.bytes = bytes := by
    rcases hcases with hsame | hknown
    · exact hsame
    · have hcollision : d.digest.digest bytes = algorithm.digest l.bytes := hhash.symm.trans hdigest
      exact (hdiscerns l.name l hknown _ _ hcollision).symm
  unfold Server.answersTo at hanswers
  rw [← hbytes, hm, Bool.or_eq_true] at hanswers
  rcases hanswers with hown | hpaired
  · have hown : d.digest.digest bytes = hash := hbytes ▸ of_decide_eq_true hown
    exact .inl (hhash.trans hown)
  · have hsame : l.code.pairedHash = m.pairedHash := congrArg Module.pairedHash hshape
    exact .inr (hsame.trans (of_decide_eq_true hpaired))

namespace Server
variable {s t : Server} {r : Request Datum} {l : LoadedModule}

/-- What became of looking for the module of a request. -/
structure Looked (r : Request Datum) (s : Server) (outcome : Except Error (Option LoadedModule)) (t : Server) : Prop where
  gains : s.domain.Gains t.domain
  consistent : r.NamesType t.domain → t.Consistent
  found : r.NamesType t.domain → ∀ l, outcome = .ok (some l) → t.domain.module? l.name = some l ∧ l.Answers r.hash

theorem Looked.of_stays (hs : s.Consistent) (hst : Stays s t) {outcome : Except Error (Option LoadedModule)}
    (hnone : ∀ l, outcome ≠ .ok (some l)) : Looked r s outcome t :=
  ⟨hst.1, fun _ => hs.stays hst, fun _ l hl => absurd hl (hnone l)⟩

/-- A module that comes from where the record says answers to the hash, and so does one that comes from a file. -/
theorem Comes.answers {u : Server} (h : Comes r s l u) (hs : s.Consistent) (hnames : r.NamesType s.domain)
    (hdisk : ∀ p bytes, s.outside.disk.fileAt? p = some bytes → s.domain.Discerns bytes) :
    u.domain.module? l.name = some l ∧ l.Answers r.hash := by
  refine ⟨h.loaded hs.indexed, ?_⟩
  cases h with
  | known hhash hl hdomain =>
    unfold Versions.hash? at hhash
    cases htype : s.outside.versions.types.find? r.type with
    | some hash =>
      rw [htype] at hhash
      cases hhash
      obtain ⟨t, ht, hanswers⟩ := hs.types r.type r.hash htype
      obtain ⟨howner, _⟩ := hs.indexed.owners r.type t ht
      rw [hnames t ht, hl] at howner
      exact Option.some.inj howner ▸ hanswers
    | none =>
      rw [htype] at hhash
      obtain ⟨k, hk, hanswers⟩ := hs.modules r.file r.hash hhash
      rw [hl] at hk
      exact Option.some.inj hk ▸ hanswers
  | fromFile _ hspots hload =>
    obtain ⟨p, hp⟩ := hspots.onDisk
    exact (Domain.loadFile_answers hs.indexed hload (hdisk p _ hp) hspots.answers).2

section
variable (hs : s.Consistent) (hdiscerns : ∀ bytes, s.Offers r bytes → s.domain.Discerns bytes)
include hs hdiscerns

theorem find_yields : (find r).Yields s (Looked r s) := by
  intro outcome t h
  rcases find_searched outcome t h with ⟨hst, hnone⟩ | ⟨v, hv, hsearched⟩
  · exact .of_stays hs hst hnone
  obtain ⟨hdomain, _, hfiles⟩ := accept_yields _ v hv
  have hsv : Stays s v := .of_accept hv
  rcases hsearched with ⟨hst, hnone⟩ | ⟨l, u, rfl, hcomes, hstays, hrecord⟩
  · exact .of_stays hs (trans_of Stays hsv hst) hnone
  have hgains : t.domain = u.domain := record_ensures l () t hrecord
  have hmodule (hnames : r.NamesType t.domain) : u.domain.module? l.name = some l ∧ l.Answers r.hash := by
    refine hcomes.answers (hs.stays hsv) (hnames.of_gains (hgains ▸ hstays.1)) fun p bytes hp => ?_
    rw [hdomain]
    exact hdiscerns bytes (hfiles rfl p bytes hp)
  refine ⟨hgains ▸ hsv.1.trans hstays.1, fun hnames => ?_, fun hnames k hk => ?_⟩
  · obtain ⟨hfound, hanswers⟩ := hmodule hnames
    exact (record_yields ((hs.stays hsv).stays hstays) hfound hanswers _ t hrecord).2.2
  · cases hk
    exact hgains ▸ hmodule hnames

/-- Whatever is answered, the record stays consistent if the request asks for a type of the module that it names. -/
theorem execute_yields (budget : Nat) (thread : Option String) : (execute budget thread r).Yields s fun _ t =>
    s.domain.Gains t.domain ∧ (r.NamesType t.domain → t.Consistent) := by
  have hfind : (find r).Yields s fun outcome t => (s.domain.Gains t.domain ∧ (r.NamesType t.domain → t.Consistent)) ∧
      ((∃ l, outcome = .ok (some l)) → True) := by
    intro outcome t h
    have hlooked := find_yields hs hdiscerns outcome t h
    exact ⟨⟨hlooked.gains, hlooked.consistent⟩, fun _ => trivial⟩
  intro outcome t h
  refine (execute_of_find ?_ (fun _ _ h _ => h) hfind budget thread outcome t h).1
  rintro t u ⟨hgains, hconsistent⟩ htu
  exact ⟨hgains.trans htu.1, fun hnames => (hconsistent (hnames.of_gains htu.1)).stays htu⟩

end

/-! ## Methods that are run -/

/-- A server that has been asked for a method has the type. -/
theorem ask_type {host : Host Storage} {asked : MethodHandle} {args : List Value} {nonLocals : List (Variable Value)}
    (h : ask r host s = some (.ok (asked, args, nonLocals), t)) : ∃ owner, s.domain.type? r.type = some owner := by
  cases htype : s.domain.type? r.type with
  | some owner => exact ⟨owner, rfl⟩
  | none =>
    obtain ⟨nonLocals, heap, _, hvariables⟩ := State.mapM_instantiate_variables r.nonLocals
      (s.withHeap (Heap.instantiateItems r.arguments s.domain.heap).2)
    have hnone : ((s.withHeap (Heap.instantiateItems r.arguments s.domain.heap).2).withHeap heap).domain.type? r.type =
        none := htype
    rw [ask, Run.bind_apply, State.mapM_instantiate] at h
    simp only [Run.bind_apply, hvariables, Host.resolveOverload, Host.resolveLocal_apply, hnone] at h
    cases h

theorem prepareOn_method {host : Host Storage} {run : Runner Storage} : (prepareOn r host run).Ensures s fun p _ =>
    ∃ asked args nonLocals u args' v, ask r host s = some (.ok (asked, args, nonLocals), u) ∧
      entryPoint r host asked args u = some (.ok (p.frame.method, args'), v) := by
  intro p t h
  obtain ⟨⟨asked, args, nonLocals⟩, u, hask, h⟩ := Run.bind_eq_ok.mp h
  obtain ⟨⟨entry, args'⟩, v, hentry, h⟩ := Run.bind_eq_ok.mp h
  obtain ⟨receiver, w, _, h⟩ := Run.bind_eq_ok.mp h
  obtain ⟨_, x, _, h⟩ := Run.bind_eq_ok.mp h
  rw [Run.get_bind] at h
  cases hframe : Frame.enter x.domain.maxDepth 0 entry receiver args' with
  | error e =>
    rw [hframe] at h
    cases h
  | ok frame =>
    rw [hframe] at h
    cases h
    have hmethod : frame.method = entry := Frame.enter_method hframe
    exact ⟨asked, args, nonLocals, u, args', v, hask, hmethod.symm ▸ hentry⟩

end Server

/-- The method is declared in the module, by the type of that name. -/
structure MethodHandle.DeclaredIn (m : MethodHandle) (l : LoadedModule) (type : String) : Prop where
  module : m.module = l
  owner : m.owner ∈ l.code.types
  named : m.owner.fullName = type
  declared : m.decl ∈ m.owner.methods

namespace Server
variable {s t : Server} {r : Request Datum} {l : LoadedModule}

/-- The method that a prepared request runs is one of the type that was asked for. -/
theorem prepareOn_declared (hs : s.domain.Indexed) {host : Host Storage} {run : Runner Storage} {p : Prepared}
    (h : prepareOn r host run s = some (.ok p, t)) : ∃ l u, s.domain.type? r.type = some ⟨l, u⟩ ∧
      p.frame.method.DeclaredIn l r.type := by
  obtain ⟨asked, args, nonLocals, x, args', y, hask, hentry⟩ := prepareOn_method p t h
  obtain ⟨⟨l, u⟩, htype⟩ := ask_type hask
  obtain ⟨hmem, hmodule, howner, heap, rfl⟩ := ask_eq_ok htype hask
  obtain ⟨_, hdeclared, hname⟩ := hs.owners r.type ⟨l, u⟩ htype
  refine ⟨l, u, htype, ?_⟩
  obtain ⟨module, owner, decl⟩ := asked
  simp only at hmem hmodule howner
  subst hmodule howner
  have htype' : (s.withHeap heap).domain.type? r.type = some ⟨module, owner⟩ := htype
  rcases entryPoint_cases htype' hentry with hsame | ⟨name, sibling, _, hsibling, hsame⟩
  · rw [hsame]
    exact ⟨rfl, hdeclared, hname, hmem⟩
  · rw [hsame]
    exact ⟨rfl, hdeclared, hname, (TypeDecl.method?_eq_some hsibling).1⟩

theorem Prepared.finish_result {p : Prepared} {run : Runner Storage} {v w : Value} {vs : List (Variable Value)}
    (h : p.finish r run v s = some (.ok (.completed w vs), t)) : w = v := by
  unfold finish at h
  split at h
  · obtain ⟨⟨back, outcome⟩, u, _, h⟩ := Run.bind_eq_ok.mp h
    cases outcome with
    | error e => cases h
    | ok _ =>
      cases h
      rfl
  · cases h
    rfl

section
variable (hs : s.Consistent) (hdiscerns : ∀ bytes, s.Offers r bytes → s.domain.Discerns bytes)
include hs hdiscerns

/-- A completed request has run a method of the module that it named. -/
theorem execute_ran {budget : Nat} {thread : Option String} {w : Value} {vs : List (Variable Value)}
    (h : execute budget thread r s = some (.ok (.completed w vs), t)) (htype : r.NamesType t.domain)
    (hhash : r.NamesHash t.domain) : ∃ p u x l, prepare r budget thread s = some (.ok (some p), u) ∧
      Machine.runner p.env budget p.frame u = some (.ok w, x) ∧ t.domain.module? r.file = some l ∧ l.Answers r.hash ∧
      p.frame.method.DeclaredIn l r.type := by
  obtain ⟨p, u, v, x, hprepare, hrun, hfinish⟩ := execute_completed h
  obtain rfl : w = v := Prepared.finish_result hfinish
  -- the module that was found
  have hprepare' := hprepare
  rw [prepare_eq_find] at hprepare'
  obtain ⟨found, y, hfind, hrest⟩ := Run.bind_eq_ok.mp hprepare'
  cases found with
  | none => cases hrest
  | some l =>
  simp only [map_eq_pure_bind] at hrest
  obtain ⟨q, y', hon, hq⟩ := Run.bind_eq_ok.mp hrest
  cases hq
  have hlooked := find_yields hs hdiscerns (.ok (some l)) y hfind
  -- what it is when the request has been answered
  have hgains : y.domain.Gains t.domain := by
    have hserve := execute_served h
    rw [serve_eq_find, Run.bind_apply, hfind] at hserve
    exact (invoke_stays r budget _ l y _ t hserve (.inl trivial)).1
  have hy : r.NamesType y.domain := htype.of_gains hgains
  obtain ⟨hfound, hanswers⟩ := hlooked.found hy l rfl
  have hname : l.name = r.file := hhash l.name l (hgains.modules l.name l hfound) hanswers
  rw [hname] at hfound
  -- the type that was asked for is its own
  have hindexed := (hlooked.consistent hy).indexed
  obtain ⟨k, u', hk, hdeclared⟩ := prepareOn_declared hindexed hon
  obtain ⟨howner, _⟩ := hindexed.owners r.type ⟨k, u'⟩ hk
  rw [hy ⟨k, u'⟩ hk, hfound] at howner
  obtain rfl : l = k := Option.some.inj howner
  exact ⟨p, u, x, l, hprepare, hrun, hgains.modules r.file l hfound, hanswers, hdeclared⟩

end

/-! ## Histories -/

/-- A request that was answered, with the states of the server before and after. -/
structure Turn where
  budget : Nat
  thread : Option String
  request : Request Datum
  before : Server
  answer : Answer Value
  after : Server

/-- The server answered requests one after the other. -/
inductive Serves : Server → List Turn → Server → Prop
  | nil (s : Server) : Serves s [] s
  | cons {x : Turn} {turns : List Turn} {t : Server} :
    execute x.budget x.thread x.request x.before = some (.ok x.answer, x.after) → Serves x.after turns t →
    Serves x.before (x :: turns) t

namespace Serves
variable {turns : List Turn}

/-- At each turn the record is consistent. -/
theorem consistent (h : Serves s turns t) (hs : s.Consistent)
    (hdiscerns : ∀ x ∈ turns, ∀ bytes, x.before.Offers x.request bytes → x.before.domain.Discerns bytes)
    (htypes : ∀ x ∈ turns, x.request.NamesType x.after.domain) : ∀ x ∈ turns, x.before.Consistent := by
  induction h with
  | nil s => simp
  | @cons x turns t hexecute _ ih =>
    simp only [List.forall_mem_cons] at hdiscerns htypes ⊢
    obtain ⟨_, hconsistent⟩ := execute_yields hs hdiscerns.1 x.budget x.thread _ x.after hexecute
    exact ⟨hs, ih (hconsistent htypes.1) hdiscerns.2 htypes.2⟩

theorem executed (h : Serves s turns t) : ∀ x ∈ turns,
    execute x.budget x.thread x.request x.before = some (.ok x.answer, x.after) := by
  induction h with
  | nil s => simp
  | cons hexecute _ ih => exact List.forall_mem_cons.mpr ⟨hexecute, ih⟩

/-- A server that starts without a record of versions is asked, request by request, for types of the modules that the
requests name. Then a completed request has run a method that is declared by the loaded module of that name, and if the
hash of the request is known by this name only, it is that of the module. -/
theorem ran_named (h : Serves s turns t) (hindexed : s.domain.Indexed) (hversions : s.outside.versions = {})
    (hdiscerns : ∀ x ∈ turns, ∀ bytes, x.before.Offers x.request bytes → x.before.domain.Discerns bytes)
    (htypes : ∀ x ∈ turns, x.request.NamesType x.after.domain) :
    ∀ x ∈ turns, ∀ w vs, x.answer = .completed w vs → x.request.NamesHash x.after.domain →
      ∃ p u u' l, prepare x.request x.budget x.thread x.before = some (.ok (some p), u) ∧
        Machine.runner p.env x.budget p.frame u = some (.ok w, u') ∧
        x.after.domain.module? x.request.file = some l ∧ l.Answers x.request.hash ∧
        p.frame.method.DeclaredIn l x.request.type := by
  intro x hx w vs hcompleted hhash
  have hs : x.before.Consistent := h.consistent (.of_fresh hindexed hversions) hdiscerns htypes x hx
  have hexecute := h.executed x hx
  rw [hcompleted] at hexecute
  exact execute_ran hs (hdiscerns x hx) hexecute (htypes x hx) hhash

end Serves
end Server

/-! ## A file in a probe directory -/

namespace Storage

theorem isFile_apply (path : String) (s : Storage) : isFile path s =
    some (.ok (s.disk.isFile path), { s with touched := path :: s.touched }) := rfl

theorem read_found {path : String} {s : Storage} {bytes : Bytes} (h : s.disk.read? path = some bytes) :
    read path s = some (.ok bytes, { s with touched := path :: s.touched }) := by
  simp only [read, touch, Run.bind_apply, Run.modify_apply, Run.get_apply, h]
  rfl

end Storage

namespace Server
variable {s : Server} {r : Request Datum} {l : LoadedModule} {d : Domain} {directory path : String} {rest : List String}
  {bytes : Bytes} (hpaths : s.outside.probePaths ++ [s.outside.sandboxFor r.hash] = directory :: rest)
  (hpath : path = joinPath directory r.file) (hread : s.outside.disk.read? path = some bytes)
  (hanswers : answersTo s.domain.digest r.hash bytes = true)
include hpaths hpath hread hanswers

/-- The first directory that is searched has the file. -/
theorem probe_first : probe r s =
    some (.ok (some path), { s with outside := { s.outside with touched := path :: path :: s.outside.touched } }) := by
  have hfile : s.outside.disk.isFile path = true := by
    rw [FileTree.isFile, hread]
    rfl
  have hagain : Storage.read path { s.outside with touched := path :: s.outside.touched } = some (.ok bytes, _) :=
    Storage.read_found hread
  unfold probe onStorage State.onOutside Run.zoom
  rw [Run.get_bind, hpaths]
  simp only [probeIn, ← hpath, Run.bind_apply, Storage.isFile_apply, hfile, if_true, hagain, hanswers]
  rfl

/-- Then the module of that file is loaded for a request of which there is no record. -/
theorem resolve_first (hhash : s.outside.versions.hash? r.type r.file = none) : resolve r s = (do
      let l ← State.loadFile bytes (some path)
      record r l
      return some l : Serving (Option LoadedModule))
    { s with outside := { s.outside with touched := path :: path :: path :: s.outside.touched } } := by
  have hprobe := probe_first hpaths hpath hread hanswers
  have hagain : Storage.read path { s.outside with touched := path :: path :: s.outside.touched } =
      some (.ok bytes, _) := Storage.read_found hread
  unfold resolve
  rw [Run.get_bind, hhash]
  dsimp only
  rw [loadProbed, Run.bind_apply, hprobe]
  dsimp only
  rw [Run.bind_apply, onStorage, State.onOutside, Run.zoom, hagain]

theorem find_first (hvalid : validate r = .ok ()) (hupload : r.upload = none)
    (hhash : s.outside.versions.hash? r.type r.file = none) (hload : s.domain.loadFile bytes (some path) = .ok (l, d)) :
    find r s = some (.ok (some l), ⟨d, { s.outside with
      touched := path :: path :: path :: s.outside.touched, versions := s.outside.versions.record l r.type r.hash }⟩) := by
  have hresolve : find r s = resolve r s := by
    unfold find
    rw [hvalid, hupload]
    rfl
  rw [hresolve, resolve_first hpaths hpath hread hanswers hhash]
  simp only [Run.bind_apply, State.loadFile, Run.get_apply, hload]
  rfl

end Server

namespace meter

/-- The module as servers have it. -/
def copy : Module Datum := { meter with pairedHash := some hash }

/-- A server with the file in a probe directory. -/
def shelf : Server where
  domain := { hostName := "server" }
  outside := { probePaths := [""], sandbox := "sandbox", disk := { files := [(["Meter"], copy.toFile)] } }

/-- What the server keeps outside its domain when it has found the module. -/
def found (l : LoadedModule) : Storage :=
  { shelf.outside with
    touched := ["Meter", "Meter", "Meter"], versions := shelf.outside.versions.record l raise.type raise.hash }

theorem splitOnAux_skip {s : String} {i : String.Pos.Raw} (hinside : String.Pos.Raw.atEnd s i = false)
    (hother : (String.Pos.Raw.get s i == '/') = false) :
    String.splitOnAux s "/" 0 i 0 [] = String.splitOnAux s "/" 0 (String.Pos.Raw.next s i) 0 [] := by
  have hslash : String.Pos.Raw.get "/" 0 = '/' := by decide +kernel
  have hback : String.Pos.Raw.unoffsetBy i 0 = i := by simp [String.Pos.Raw.unoffsetBy]
  rw [String.splitOnAux, hinside, hslash, hother, hback]
  simp

theorem shelf_read : shelf.outside.disk.read? "Meter" = some copy.toFile := by
  have hname : "Meter".splitOn "/" = ["Meter"] := by
    rw [String.splitOn, if_neg (by decide)]
    iterate 5 rw [splitOnAux_skip (by decide +kernel) (by decide +kernel)]
    rw [String.splitOnAux]
    decide +kernel
  have hlocated : shelf.outside.disk.locate? "Meter" = some ([], "Meter") := by
    unfold FileTree.locate?
    rw [hname]
    decide +kernel
  rw [FileTree.read?, hlocated]
  rfl

set_option maxRecDepth 20000 in
theorem ofFile_copy : Module.ofFile copy.toFile = .ok copy := rfl

theorem copy_answers : Server.answersTo .sha1 raise.hash copy.toFile = true := by
  have hpaired : copy.pairedHash = some raise.hash := rfl
  unfold Server.answersTo
  rw [ofFile_copy, Bool.or_eq_true]
  exact .inr (decide_eq_true hpaired)

open Server in
/-- The server finds the module on its disk. -/
theorem shelf_finds {l : LoadedModule} {d : Domain}
    (hregister : shelf.domain.register copy copy.toFile (some "Meter") = .ok (l, d)) :
    shelf.domain.loadFile copy.toFile (some "Meter") = .ok (l, d) ∧
      find raise shelf = some (.ok (some l), ⟨d, found l⟩) := by
  have hload : shelf.domain.loadFile copy.toFile (some "Meter") = .ok (l, d) := by
    unfold Domain.loadFile
    rw [ofFile_copy]
    exact hregister
  have hvalid : validate raise = .ok () := rfl
  exact ⟨hload, find_first rfl (by decide +kernel) shelf_read copy_answers hvalid rfl rfl hload⟩

open Server in
/-- Then it has that one only. -/
theorem shelf_answered : ∃ u vs, execute 10 none raise shelf = some (.ok (.completed (.int32 6) vs), u) ∧
    u.domain.Indexed ∧ (∀ name l, u.domain.module? name = some l → l.name = "Meter") ∧
    u.outside.disk = shelf.outside.disk ∧
    u.outside.versions = { modules := [("Meter", hash)], types := [("Ops.Meter", hash)] } := by
  obtain ⟨l, d, hregister, hversions, u, vs, hinvoke, hnames, hdisk⟩ : ∃ l d,
      shelf.domain.register copy copy.toFile (some "Meter") = .ok (l, d) ∧
      (found l).versions = { modules := [("Meter", hash)], types := [("Ops.Meter", hash)] } ∧ ∃ u vs,
        invoke raise (hostFor raise none l) (Machine.runner { host := hostFor raise none l } 10) ⟨d, found l⟩ =
          some (.ok (.completed (.int32 6) vs), u) ∧ u.domain.moduleNames = ["Meter"] ∧
          u.outside.disk = shelf.outside.disk := ⟨_, _, rfl, rfl, _, _, rfl, rfl, rfl⟩
  obtain ⟨hload, hfind⟩ := shelf_finds hregister
  have hexecute : execute 10 none raise shelf = some (.ok (.completed (.int32 6) vs), u) := execute_found hfind hinvoke
  have hstays := invoke_stays raise 10 none l _ _ u hinvoke (.inl trivial)
  have hindexed : u.domain.Indexed :=
    hstays.1.indexed ((Domain.loadFile_gains hload).indexed (Domain.indexed_of_empty rfl rfl))
  refine ⟨u, vs, hexecute, hindexed, fun name k hk => ?_, hdisk, hstays.2.trans hversions⟩
  obtain ⟨hname, _⟩ := hindexed.modules name k hk
  obtain ⟨front, rest, hsplit, _⟩ := List.lookup_eq_some_iff.mp hk
  have hmem : name ∈ u.domain.moduleNames := by
    rw [Domain.moduleNames, Dict.names, hsplit]
    simp
  rw [hnames] at hmem
  exact hname.trans (List.mem_singleton.mp hmem)

end meter

open meter Server in
/-- The server finds the module on its disk, and the completed request has run a method of it. -/
theorem meter_ran : ∃ x p u u' l vs, Serves shelf [x] x.after ∧ x.request = raise ∧
    x.answer = .completed (.int32 6) vs ∧ prepare raise x.budget x.thread shelf = some (.ok (some p), u) ∧
    Machine.runner p.env x.budget p.frame u = some (.ok (.int32 6), u') ∧
    x.after.domain.module? "Meter" = some l ∧ l.Answers raise.hash ∧ p.frame.method.DeclaredIn l "Ops.Meter" := by
  obtain ⟨u, vs, hexecute, hindexed, honly, _, _⟩ := shelf_answered
  let x : Turn := ⟨10, none, raise, shelf, .completed (.int32 6) vs, u⟩
  have hserves : Serves shelf [x] u := Serves.cons (x := x) hexecute (.nil u)
  have hdiscerns : ∀ z ∈ [x], ∀ bytes, z.before.Offers z.request bytes → z.before.domain.Discerns bytes := by
    intro z hz bytes _ name k hk
    rw [List.mem_singleton.mp hz] at hk
    cases hk
  have htypes : ∀ z ∈ [x], z.request.NamesType z.after.domain := by
    intro z hz t ht
    rw [List.mem_singleton.mp hz] at ht ⊢
    exact honly _ _ (hindexed.owners _ t ht).1
  have hempty : shelf.domain.Indexed := Domain.indexed_of_empty rfl rfl
  obtain ⟨p, y, y', l', hprepare, hrun, hmodule, hanswers, hdeclared⟩ := hserves.ran_named hempty rfl hdiscerns htypes x
    List.mem_cons_self _ _ rfl fun name k hk _ => honly name k hk
  exact ⟨x, p, y, y', l', vs, hserves, rfl, rfl, hprepare, hrun, hmodule, hanswers, hdeclared⟩

end MobileCode
