import MobileCode.Proofs.Sandboxes
import MobileCode.Proofs.Staleness

/-! # The record of versions

A server writes down with which hash it has served a module and a type, and refuses another hash from then on. As long
as each request asks for a type of the module that it names, what is on record for a module and for its types is the
same, and it is never written over. So a request is refused as stale if and only if it has another hash than the one on
record, whatever was asked for in between.
-/
namespace MobileCode

/-- What is on record stays so. -/
structure Versions.Kept (v w : Versions) : Prop where
  modules : ∀ name hash, v.modules.find? name = some hash → w.modules.find? name = some hash
  types : ∀ type hash, v.types.find? type = some hash → w.types.find? type = some hash

namespace Versions.Kept

theorem refl (v : Versions) : v.Kept v := ⟨fun _ _ h => h, fun _ _ h => h⟩

theorem trans {u v w : Versions} (huv : u.Kept v) (hvw : v.Kept w) : u.Kept w :=
  ⟨fun name hash h => hvw.modules name hash (huv.modules name hash h),
    fun type hash h => hvw.types type hash (huv.types type hash h)⟩

end Versions.Kept

namespace Server

/-- Modules and types on record are loaded. -/
structure Grounded (s : Server) : Prop where
  indexed : s.domain.Indexed
  modules : ∀ name hash, s.outside.versions.modules.find? name = some hash → ∃ l, s.domain.module? name = some l
  types : ∀ type hash, s.outside.versions.types.find? type = some hash → ∃ t, s.domain.type? type = some t

/-- Moreover the hash of a type is that of its module. -/
structure Settled (s : Server) : Prop extends Grounded s where
  ofTypes : ∀ type hash, s.outside.versions.types.find? type = some hash → ∀ t, s.domain.type? type = some t →
    s.outside.versions.modules.find? t.module.name = some hash

/-- The type that the request asks for is on record, if at all, as one of the module that it names, and so is the module
of each file that answers to its hash. -/
structure Fits (s : Server) (r : Request Datum) : Prop where
  type : ∀ hash, s.outside.versions.types.find? r.type = some hash →
    ∀ t, s.domain.type? r.type = some t → t.module.name = r.file
  files : ∀ bytes, s.Offers r bytes → answersTo s.domain.digest r.hash bytes = true →
    ∀ m, Module.ofFile bytes = .ok m → m.name = r.file

variable {s t u : Server} {r : Request Datum} {l : LoadedModule}

theorem Settled.of_fresh (hindexed : s.domain.Indexed) (hversions : s.outside.versions = {}) : s.Settled := by
  have hmodules (name : String) : s.outside.versions.modules.find? name = none := by
    rw [hversions]
    rfl
  have htypes (type : String) : s.outside.versions.types.find? type = none := by
    rw [hversions]
    rfl
  refine ⟨⟨hindexed, fun name hash h => ?_, fun type hash h => ?_⟩, fun type hash h => ?_⟩
  · cases (hmodules name).symm.trans h
  · cases (htypes type).symm.trans h
  · cases (htypes type).symm.trans h

theorem Grounded.stays (hs : s.Grounded) (hst : Stays s t) : t.Grounded := by
  obtain ⟨hgains, hversions⟩ := hst
  refine ⟨hgains.indexed hs.indexed, fun name hash h => ?_, fun type hash h => ?_⟩
  · obtain ⟨l, hl⟩ := hs.modules name hash (hversions ▸ h)
    exact ⟨l, hgains.modules name l hl⟩
  · obtain ⟨t, ht⟩ := hs.types type hash (hversions ▸ h)
    exact ⟨t, hgains.types type t ht⟩

theorem Settled.stays (hs : s.Settled) (hst : Stays s t) : t.Settled := by
  refine ⟨hs.toGrounded.stays hst, fun type hash h owner howner => ?_⟩
  rw [hst.2] at h ⊢
  obtain ⟨owner', howner'⟩ := hs.types type hash h
  cases howner.symm.trans (hst.1.types type owner' howner')
  exact hs.ofTypes type hash h owner howner'

theorem Grounded.record (hs : s.Grounded) (hl : s.domain.module? l.name = some l) {outcome : Except Error Unit}
    (h : record r l s = some (outcome, t)) : t.Grounded := by
  cases h
  refine ⟨hs.indexed, fun name hash h => ?_, fun type hash h => ?_⟩
  · replace h := (s.outside.versions.modules_record l r.type r.hash name).symm.trans h
    split at h
    · rename_i hname
      exact ⟨l, hname ▸ hl⟩
    · exact hs.modules name hash h
  · replace h := (s.outside.versions.types_record l r.type r.hash type).symm.trans h
    split at h
    · rename_i hdeclared
      obtain ⟨rfl, hdeclared⟩ := hdeclared
      obtain ⟨u, hu⟩ := hs.indexed.type?_declared hl hdeclared
      exact ⟨⟨l, u⟩, hu⟩
    · exact hs.types type hash h

/-- The record of modules decides. -/
theorem Settled.hash?_eq (hs : s.Settled) (hfits : s.Fits r) :
    s.outside.versions.hash? r.type r.file = s.outside.versions.modules.find? r.file := by
  unfold Versions.hash?
  cases h : s.outside.versions.types.find? r.type with
  | none => rfl
  | some hash =>
    obtain ⟨owner, howner⟩ := hs.types r.type hash h
    rw [← hfits.type hash h owner howner, hs.ofTypes r.type hash h owner howner]
    rfl

/-! ## One request -/

/-- What is loaded stays so and is what is on record, in the second state and not only in the first. -/
structure Advances (s t : Server) : Prop where
  gains : s.domain.Gains t.domain
  settled : t.Settled
  kept : s.outside.versions.Kept t.outside.versions

theorem Advances.of_stays (hs : s.Settled) (hst : Stays s t) : Advances s t :=
  ⟨hst.1, hs.stays hst, hst.2 ▸ .refl s.outside.versions⟩

theorem Advances.trans (hst : Advances s t) (htu : Advances t u) : Advances s u :=
  ⟨hst.gains.trans htu.gains, htu.settled, hst.kept.trans htu.kept⟩

/-- Writing down the hash of a module of which there is none, or the same again. -/
theorem record_advances (hs : s.Settled) (hl : s.domain.module? l.name = some l)
    (hsame : ∀ hash, s.outside.versions.modules.find? l.name = some hash → hash = r.hash)
    {outcome : Except Error Unit} (h : record r l s = some (outcome, t)) :
    Advances s t ∧ t.outside.versions.modules.find? l.name = some r.hash := by
  have hgrounded := hs.toGrounded.record hl h
  cases h
  have hmodules := s.outside.versions.modules_record l r.type r.hash
  have htypes := s.outside.versions.types_record l r.type r.hash
  have hkept : ∀ name hash, s.outside.versions.modules.find? name = some hash →
      (s.outside.versions.record l r.type r.hash).modules.find? name = some hash := by
    intro name hash hfound
    rw [hmodules]
    split
    · rename_i hname
      rw [hsame hash (hname ▸ hfound)]
    · exact hfound
  have hself : (s.outside.versions.record l r.type r.hash).modules.find? l.name = some r.hash := by
    rw [hmodules, if_pos rfl]
  refine ⟨⟨.refl s.domain, ⟨hgrounded, fun type hash h owner howner => ?_⟩, hkept, fun type hash h => ?_⟩, hself⟩
  · replace h := (htypes type).symm.trans h
    split at h
    · rename_i hdeclared
      obtain ⟨rfl, hdeclared⟩ := hdeclared
      cases h
      obtain ⟨u, hu⟩ := hs.indexed.type?_declared hl hdeclared
      cases howner.symm.trans hu
      exact hself
    · exact hkept _ _ (hs.ofTypes type hash h owner howner)
  · refine (htypes type).trans ?_
    split
    · rename_i hdeclared
      obtain ⟨rfl, hdeclared⟩ := hdeclared
      obtain ⟨u, hu⟩ := hs.indexed.type?_declared hl hdeclared
      rw [hsame hash (hs.ofTypes r.type hash h ⟨l, u⟩ hu)]
    · exact h

end Server

/-- What is loaded from a file has the name of the module in it. -/
theorem Domain.loadFile_name {d e : Domain} {bytes : Bytes} {path : Option String} {l : LoadedModule} (hd : d.Indexed)
    (h : d.loadFile bytes path = .ok (l, e)) : ∃ m, Module.ofFile bytes = .ok m ∧ l.name = m.name := by
  obtain ⟨m, hm, hregister⟩ := loadFile_eq_ok h
  refine ⟨m, hm, ?_⟩
  rcases register_cases hregister with ⟨hknown, _, _⟩ | ⟨_, rfl, _, _⟩
  · exact (hd.modules m.name l hknown).1
  · exact congrArg Module.name (m.instantiate_shape d.heap)

namespace Server
variable {s t u : Server} {r : Request Datum} {l : LoadedModule}

/-- What has been accepted fits as before. -/
theorem Fits.of_accept (hfits : s.Fits r) (h : accept r s = some (.ok (), t)) : t.Fits r := by
  obtain ⟨hdomain, hversions, hdisk⟩ := accept_yields _ t h
  constructor
  · rw [hversions, hdomain]
    exact hfits.type
  · intro bytes hoffers
    rw [hdomain]
    rcases hoffers with ⟨p, hp⟩ | hupload
    · exact hfits.files bytes (hdisk rfl p bytes hp)
    · exact hfits.files bytes (.inr hupload)

/-- A module that fits has the name that the request asks for, and no other hash of it is on record. -/
theorem Comes.fits (h : Comes r s l u) (hs : s.Settled) (hfits : s.Fits r) : l.name = r.file ∧
    ∀ hash, s.outside.versions.modules.find? r.file = some hash → hash = r.hash := by
  cases h with
  | known hhash hl _ =>
    rw [hs.hash?_eq hfits] at hhash
    exact ⟨(hs.indexed.modules r.file l hl).1, fun hash h => Option.some.inj (h.symm.trans hhash)⟩
  | fromFile hunknown hspots hload =>
    obtain ⟨m, hm, hname⟩ := Domain.loadFile_name hs.indexed hload
    refine ⟨hname.trans (hfits.files _ (.inl hspots.onDisk) hspots.answers m hm), fun hash h => ?_⟩
    rcases hunknown with hnone | hmissing
    · cases (hs.hash?_eq hfits ▸ hnone).symm.trans h
    · obtain ⟨k, hk⟩ := hs.modules r.file hash h
      cases hmissing.symm.trans hk

section
variable (hs : s.Settled) (hfits : s.Fits r)
include hs hfits

theorem find_advances : (find r).Yields s fun outcome t => Advances s t ∧
    ((∃ l, outcome = .ok (some l)) → t.outside.versions.modules.find? r.file = some r.hash) := by
  intro outcome t h
  rcases find_searched outcome t h with ⟨hst, hnone⟩ | ⟨v, hv, hsearched⟩
  · exact ⟨.of_stays hs hst, fun ⟨l, hl⟩ => absurd hl (hnone l)⟩
  have hsv : Advances s v := .of_stays hs (.of_accept hv)
  rcases hsearched with ⟨hst, hnone⟩ | ⟨l, u, rfl, hcomes, hstays, hrecord⟩
  · exact ⟨hsv.trans (.of_stays hsv.settled hst), fun ⟨l, hl⟩ => absurd hl (hnone l)⟩
  have hsu : Advances s u := hsv.trans (.of_stays hsv.settled hstays)
  obtain ⟨hname, hsame⟩ := hcomes.fits hsv.settled (hfits.of_accept hv)
  rw [← hname, ← hstays.2] at hsame
  obtain ⟨hadvances, hrecorded⟩ := record_advances hsu.settled (hcomes.loaded hsv.settled.indexed) hsame hrecord
  exact ⟨hsu.trans hadvances, fun _ => hname ▸ hrecorded⟩

/-- Whatever is answered, what is on record stays so, and if the request is completed, its hash is on record. -/
theorem execute_advances (budget : Nat) (thread : Option String) : (execute budget thread r).Yields s fun outcome t =>
    Advances s t ∧
      ((∃ v vs, outcome = .ok (.completed v vs)) → t.outside.versions.modules.find? r.file = some r.hash) := by
  refine execute_of_find (fun t u ht htu => ht.trans (.of_stays ht.settled htu)) (fun t u ht htu => ?_)
    (find_advances hs hfits) budget thread
  rwa [htu.2]

end

/-! ## Stale requests -/

/-- The request was refused as one for another version. -/
def RefusedAsStale (a : Answer Value) : Prop := ∃ message, a = .fault ⟨.staleModule, message⟩

theorem accept_fresh (r : Request Datum) : (accept r).Fresh := by
  have hvalid : FreshFailure (validate r) := by
    unfold validate
    split
    · exact .error rfl
    split
    · exact .error rfl
    · exact .ok ()
  unfold accept
  refine (Run.Fresh.ofExcept hvalid).bind fun _ => ?_
  split
  · unfold storeUpload
    refine Run.Fresh.get.bind fun s => ?_
    dsimp only
    split
    · exact State.onOutside_fresh (Storage.keep_fresh _ _ _)
    · exact .throw rfl
  · exact .pure ()

theorem loadProbed_fresh (r : Request Datum) : (loadProbed r).Fresh := by
  have hprobe (digest : DigestAlgorithm) (directories : List String) : (probeIn r digest directories).Fresh := by
    induction directories with
    | nil => exact .pure _
    | cons directory rest ih =>
      unfold probeIn
      refine (Storage.isFile_fresh _).bind fun there => ?_
      split
      · refine (Storage.read_fresh _).bind fun bytes => ?_
        split
        · exact .pure _
        · exact ih
      · exact ih
  unfold loadProbed
  refine (Run.Fresh.get.bind fun s => State.onOutside_fresh (hprobe _ _)).bind fun found => ?_
  split
  · exact .pure _
  · refine (State.onOutside_fresh (Storage.read_fresh _)).bind fun bytes => ?_
    refine (State.loadFile_fresh _ _).bind fun l => Run.Fresh.bind ?_ fun _ => .pure _
    unfold record onStorage
    exact State.onOutside_fresh (.modify _)

/-- Another hash is on record than that of the request, for the type or, if there is none, for the file. -/
def Conflicts (s : Server) (r : Request Datum) : Prop :=
  ∃ hash, s.outside.versions.hash? r.type r.file = some hash ∧ hash ≠ r.hash

theorem resolve_conflicts : (resolve r).Yields s fun outcome _ =>
    ∀ e, outcome = .error e → ¬e.Fresh → s.Conflicts r := by
  have hprobed : (loadProbed r).Yields s fun outcome _ => ∀ e, outcome = .error e → ¬e.Fresh → s.Conflicts r := by
    rintro _ t h e rfl hstale
    exact absurd (loadProbed_fresh r s e t h) hstale
  unfold resolve
  refine Run.Yields.get_bind ?_
  split
  · exact hprobed
  rename_i hash hhash
  split
  · rename_i hother
    exact .throw fun _ _ _ => ⟨hash, hhash, hother⟩
  split
  · exact hprobed
  · intro outcome t h
    cases h
    simp

/-- A request is refused as stale only if another hash is on record. -/
theorem execute_stale (budget : Nat) (thread : Option String) : (execute budget thread r).Yields s fun outcome _ =>
    ∀ a, outcome = .ok a → RefusedAsStale a → s.Conflicts r := by
  have haccepts : (accept r).Yields s fun outcome u => (∀ e, outcome = .error e → e.Fresh) ∧
      u.outside.versions = s.outside.versions := by
    intro outcome u hu
    refine ⟨?_, (accept_yields outcome u hu).2.1⟩
    rintro e rfl
    exact accept_fresh r s e u hu
  have hfind : (find r).Yields s fun outcome _ => ∀ e, outcome = .error e → ¬e.Fresh → s.Conflicts r := by
    rw [find_eq_accept]
    refine haccepts.bind ?_ ?_
    · rintro _ u ⟨_, hversions⟩ outcome v hv e he hstale
      have hconflicts := resolve_conflicts outcome v hv e he hstale
      rwa [Conflicts, hversions] at hconflicts
    · rintro e u ⟨hfresh, _⟩ e' he' hstale
      cases he'
      exact absurd (hfresh e rfl) hstale
  have hserve : (serve r budget thread).Yields s fun outcome _ =>
      (∀ e, outcome = .error e → ¬e.Fresh → s.Conflicts r) ∧ ∀ a, outcome = .ok a → ¬RefusedAsStale a := by
    rw [serve_eq_find]
    refine hfind.bind ?_ ?_
    · intro found u _
      split
      · exact .pure ⟨by simp, by simp [RefusedAsStale]⟩
      · intro outcome v hv
        refine ⟨?_, ?_⟩
        · rintro e rfl hstale
          exact absurd (invoke_fresh r budget _ _ u e v hv) hstale
        · rintro a rfl ⟨message, hstale⟩
          obtain ⟨w, vs, rfl⟩ := invoke_completed a v hv
          cases hstale
    · intro e u he
      refine ⟨fun e' he' => ?_, by simp⟩
      cases he'
      exact he e rfl
  unfold execute
  refine hserve.attempt_bind fun outcome u hu => ?_
  split
  · rename_i a
    refine .pure fun b hb hstale => ?_
    cases hb
    exact absurd hstale (hu.2 a rfl)
  · rename_i e
    refine .pure fun b hb hstale => ?_
    cases hb
    obtain ⟨message, hfault⟩ := hstale
    exact hu.1 e rfl fun hfresh => Error.fresh_iff.mp hfresh (congrArg Fault.kind (Answer.fault.inj hfault))

/-- If the request is accepted, it is refused. -/
theorem execute_refused (haccepts : accept r s = some (.ok (), t)) {hash : String}
    (hhash : s.outside.versions.hash? r.type r.file = some hash) (hother : hash ≠ r.hash) (budget : Nat)
    (thread : Option String) : execute budget thread r s =
      some (.ok (.fault (Error.stale r.file r.type hash r.hash).toFault), t) := by
  obtain ⟨_, hversions, _⟩ := accept_yields _ t haccepts
  have hfind : find r s = some (.error (.stale r.file r.type hash r.hash), t) := by
    rw [find_eq_accept, Run.bind_apply, haccepts]
    simp only [resolve, Run.get_bind, hversions, hhash, if_pos hother]
    rfl
  rw [execute, Run.bind_apply, Run.attempt, serve_eq_find, Run.bind_apply, hfind]
  rfl

/-! ## Histories -/

namespace Serves
variable {u : Server} {turns front back : List Turn}

/-- At each turn the server is settled, and what was on record has stayed so. -/
theorem advances (h : Serves s turns t) (hs : s.Settled) (hfits : ∀ x ∈ turns, x.before.Fits x.request) :
    Advances s t ∧ ∀ x ∈ turns, Advances s x.before ∧ Advances x.after t := by
  induction h with
  | nil s => exact ⟨.of_stays hs (refl_of Stays s), by simp⟩
  | @cons x turns t hexecute _ ih =>
    obtain ⟨hfits, hrest⟩ := List.forall_mem_cons.mp hfits
    obtain ⟨hstep, _⟩ := execute_advances hs hfits x.budget x.thread _ x.after hexecute
    obtain ⟨hall, hturns⟩ := ih hstep.settled hrest
    refine ⟨hstep.trans hall, List.forall_mem_cons.mpr ⟨⟨.of_stays hs (refl_of Stays _), hall⟩, fun y hy => ?_⟩⟩
    obtain ⟨hbefore, hafter⟩ := hturns y hy
    exact ⟨hstep.trans hbefore, hafter⟩

/-- A server that starts without a record of versions answers requests, each for a type and a hash of the module that it
names. Then what is on record after some of them is on record after any more. A later request for a module or a type on
record is refused as stale only if it has another hash, and if it has, it is refused so, unless it has not been accepted.
And no request can make a later one stale that has the hash with which its module has been served. -/
theorem versions_kept (hfront : Serves s front u) (hback : Serves u back t) (hindexed : s.domain.Indexed)
    (hversions : s.outside.versions = {}) (hfits : ∀ x ∈ front ++ back, x.before.Fits x.request) :
    u.outside.versions.Kept t.outside.versions ∧
    (∀ y ∈ back, ∀ hash, u.outside.versions.modules.find? y.request.file = some hash ∨
        u.outside.versions.types.find? y.request.type = some hash →
      (RefusedAsStale y.answer → y.request.hash ≠ hash) ∧
        ∀ v, accept y.request y.before = some (.ok (), v) → y.request.hash ≠ hash → RefusedAsStale y.answer) ∧
    ∀ x ∈ front, ∀ w vs, x.answer = .completed w vs → ∀ y ∈ back, y.request.file = x.request.file →
      y.request.hash = x.request.hash → ¬RefusedAsStale y.answer := by
  obtain ⟨hfits₁, hfits₂⟩ := List.forall_mem_append.mp hfits
  obtain ⟨hstart, hturns₁⟩ := hfront.advances (.of_fresh hindexed hversions) hfits₁
  obtain ⟨hrest, hturns₂⟩ := hback.advances hstart.settled hfits₂
  -- the hash that decides about a later request is the one on record for its module
  have hdecides : ∀ y ∈ back, ∀ hash, u.outside.versions.modules.find? y.request.file = some hash →
      y.before.outside.versions.hash? y.request.type y.request.file = some hash := by
    intro y hy hash hhash
    obtain ⟨hbefore, _⟩ := hturns₂ y hy
    rw [hbefore.settled.hash?_eq (hfits₂ y hy)]
    exact hbefore.kept.modules _ _ hhash
  have hstale : ∀ y ∈ back, ∀ hash, y.before.outside.versions.hash? y.request.type y.request.file = some hash →
      RefusedAsStale y.answer → y.request.hash ≠ hash := by
    intro y hy hash hhash hrefused
    obtain ⟨other, hother, hne⟩ := execute_stale y.budget y.thread _ _ (hback.executed y hy) y.answer rfl hrefused
    obtain rfl : hash = other := Option.some.inj (hhash.symm.trans hother)
    exact hne.symm
  refine ⟨hrest.kept, fun y hy hash hrecorded => ?_, fun x hx w vs hcompleted y hy hfile hhash hrefused => ?_⟩
  · have hrecord : y.before.outside.versions.hash? y.request.type y.request.file = some hash := by
      rcases hrecorded with hmodule | htype
      · exact hdecides y hy hash hmodule
      · obtain ⟨hbefore, _⟩ := hturns₂ y hy
        rw [Versions.hash?, hbefore.kept.types _ _ htype]
        rfl
    refine ⟨hstale y hy hash hrecord, fun v haccepts hne => ?_⟩
    have hsame := (hback.executed y hy).symm.trans (execute_refused haccepts hrecord hne.symm y.budget y.thread)
    exact ⟨_, Except.ok.inj (congrArg Prod.fst (Option.some.inj hsame))⟩
  · obtain ⟨hbefore, hafter⟩ := hturns₁ x hx
    have hexecute := hfront.executed x hx
    obtain ⟨_, hserved⟩ := execute_advances hbefore.settled (hfits₁ x hx) x.budget x.thread _ x.after hexecute
    have hmodule := hafter.kept.modules _ _ (hserved ⟨w, vs, congrArg Except.ok hcompleted⟩)
    rw [← hfile] at hmodule
    exact hstale y hy _ (hdecides y hy _ hmodule) hrefused hhash

end Serves
end Server

/-- The request for another version of the module. -/
def meter.another : Request Datum := { raise with hash := "1111111111111111111111111111111111111111" }

open meter Server in
/-- The server has served the module with its hash. Asked for another version of it, it refuses. -/
theorem meter_kept : ∃ x y, Serves shelf [x] x.after ∧ Serves x.after [y] y.after ∧ x.request = raise ∧
    y.request = another ∧ x.after.outside.versions.Kept y.after.outside.versions ∧ RefusedAsStale y.answer := by
  obtain ⟨u, vs, hexecute, hindexed, honly, hdisk, hversions⟩ := shelf_answered
  have hvalid : validate another = .ok () := rfl
  have haccepts : accept another u = some (.ok (), u) := by
    unfold accept
    rw [hvalid]
    rfl
  have hhash : u.outside.versions.hash? another.type another.file = some hash := by
    rw [hversions]
    rfl
  have hother : hash ≠ another.hash := by decide
  let x : Turn := ⟨10, none, raise, shelf, .completed (.int32 6) vs, u⟩
  let y : Turn := ⟨10, none, another, u, .fault (Error.stale another.file another.type hash another.hash).toFault, u⟩
  have hfront : Serves shelf [x] u := .cons (x := x) hexecute (.nil u)
  have hback : Serves u [y] u := .cons (x := y) (execute_refused haccepts hhash hother 10 none) (.nil u)
  -- the only file is that of the module
  have hfile (r : Request Datum) (hupload : r.upload = none) (s : Server) (hs : s.outside.disk = shelf.outside.disk)
      (bytes : Bytes) (hoffers : s.Offers r bytes) (m : Module Datum) (hm : Module.ofFile bytes = .ok m) :
      m.name = "Meter" := by
    rcases hoffers with ⟨p, hp⟩ | hsent
    · rw [hs, FileTree.fileAt?] at hp
      obtain ⟨front, rest, hsplit, _⟩ := List.lookup_eq_some_iff.mp hp
      have hmem : (p, bytes) ∈ shelf.outside.disk.files := hsplit ▸ by simp
      cases List.mem_singleton.mp hmem
      cases ofFile_copy.symm.trans hm
      rfl
    · cases hupload.symm.trans hsent
  have hfits : ∀ z ∈ [x] ++ [y], z.before.Fits z.request := by
    intro z hz
    simp only [List.cons_append, List.nil_append, List.mem_cons, List.not_mem_nil, or_false] at hz
    rcases hz with rfl | rfl
    · refine ⟨fun hash hrecorded => ?_, fun bytes hoffers _ => hfile raise rfl shelf rfl bytes hoffers⟩
      cases hrecorded
    · exact ⟨fun _ _ t ht => honly _ _ (hindexed.owners _ t ht).1,
        fun bytes hoffers _ => hfile another rfl u hdisk bytes hoffers⟩
  obtain ⟨hkept, hlater, _⟩ := hfront.versions_kept hback (Domain.indexed_of_empty rfl rfl) rfl hfits
  refine ⟨x, y, hfront, hback, rfl, rfl, hkept, ?_⟩
  have hrecorded : u.outside.versions.modules.find? another.file = some hash := by
    rw [hversions]
    rfl
  exact (hlater y List.mem_cons_self hash (.inl hrecorded)).2 u haccepts hother.symm

end MobileCode
