import MobileCode.Proofs.Cargoes
import MobileCode.Proofs.Handshakes

/-! # What comes back

A client makes the objects of an answer and writes the members that came back. In the end these hold what they hold at home,
and everything else that the client had is as it was.
-/
namespace MobileCode

/-- The members that the closure names hold in a domain what they hold at home. All others hold there what they held before. -/
structure Outing.Agrees (e : Outing) (s : State Unit) (before after : Domain) : Prop where
  members : ∀ q ∈ e.places, ∃ x y z, s.domain.at? q.1 = some x ∧ s.domain.heap.snapshot x = some z ∧
    after.at? q.1 = some y ∧ after.heap.snapshot y = some z
  others : ∀ p y, (∀ q ∈ e.places, q.1 ≠ p) → before.at? p = some y → after.at? p = some y

theorem Domain.at?_extends {d : Domain} {k : Heap} (hk : d.heap.Extends k) {p : Slot} {v : Value} (hv : d.at? p = some v) :
    { d with heap := k }.at? p = some v := by
  cases p with
  | static type name => exact hv
  | field r name =>
    obtain ⟨o, ho, hv⟩ := Option.bind_eq_some_iff.mp hv
    exact Option.bind_eq_some_iff.mpr ⟨o, hk r o ho, hv⟩

namespace Outing
variable {e : Outing} {ω : Type} {s : State Unit} {start : Domain} {t : State ω} {ds : List (Variable Datum)} {d : Datum}
  {q : Slot × FieldDecl Datum}

/-- A variable that has been made of one that came back. -/
structure Arrives (e : Outing) (s : State Unit) (start : Domain) (k : Heap) (w : Variable Value) (q : Slot × FieldDecl Datum) :
    Prop where
  place : q ∈ e.places
  same : w = (e.packed start q).withValue w.value
  value : ∃ x z, s.domain.at? q.1 = some x ∧ s.domain.heap.snapshot x = some z ∧ k.snapshot w.value = some z

theorem Arrives.slot? {k : Heap} {w : Variable Value} (h : e.Arrives s start k w q) : w.slot? e.receiver = some q.1 := by
  rw [h.same]
  exact slot?_packed h.place start

/-- All variables that came back arrive. -/
theorem arrive (hbrings : List.Forall₂ (e.Brings s) (e.pack start) ds) {k k' : Heap}
    (hk : Heap.ExtendsFrom k.objects.size (Heap.instantiateVariables ds k).2 k') :
    (∀ w ∈ (Heap.instantiateVariables ds k).1, ∃ q, e.Arrives s start k' w q) ∧
      ∀ q ∈ e.places, ∃ w ∈ (Heap.instantiateVariables ds k).1, e.Arrives s start k' w q := by
  have hmade : List.Forall₂ (fun w d => w.traverse k'.snapshot = some d) (Heap.instantiateVariables ds k).1 ds :=
    mapM_eq_some_iff.mp (Makes.ofVariables.made ds k hk)
  have hone {w : Variable Value} {d : Variable Datum} (hw : w.traverse k'.snapshot = some d) {q : Slot × FieldDecl Datum}
      (hq : q ∈ e.places) (hd : e.Brings s (e.packed start q) d) : e.Arrives s start k' w q := by
    obtain ⟨z, hz, hwd⟩ := Option.bind_eq_some_iff.mp hw
    cases hwd
    obtain ⟨hsame, p, x, hp, hx, hxz⟩ := hd
    cases (slot?_packed hq start).symm.trans hp
    refine ⟨hq, ?_, x, z, hx, hxz, hz⟩
    have hfields := congrArg (fun d : Variable Datum => d.withValue w.value) hsame
    exact hfields
  constructor
  · intro w hw
    obtain ⟨d, hd, hwd⟩ := Forall₂.exists_of_mem hmade hw
    obtain ⟨v, hv, hvd⟩ := Forall₂.exists_of_mem hbrings.flip hd
    obtain ⟨q, hq, rfl⟩ := List.mem_map.mp hv
    exact ⟨q, hone hwd hq hvd⟩
  · intro q hq
    obtain ⟨d, hd, hqd⟩ := Forall₂.exists_of_mem hbrings (List.mem_map_of_mem hq)
    obtain ⟨w, hw, hwd⟩ := Forall₂.exists_of_mem hmade.flip hd
    exact ⟨w, hw, hone hwd hq hqd⟩

/-- Once all that came back is written, the members are as they are at home. -/
theorem agrees_of_written {before after : Domain} {ws : List (Variable Value)} {k : Heap} (hk : before.heap.Extends k)
    (hwritten : Transfer.Written e.receiver ws { before with heap := k } after)
    (hfrom : ∀ w ∈ ws, ∃ q, e.Arrives s start after.heap w q)
    (hto : ∀ q ∈ e.places, ∃ w ∈ ws, e.Arrives s start after.heap w q) : e.Agrees s before after where
  members q hq := by
    -- the last variable for the place, whichever it is, brought what is there at home
    obtain ⟨w, hw, harrives⟩ := hto q hq
    obtain ⟨y, hy⟩ := Option.isSome_iff_exists.mp (Transfer.lastAt?_isSome hw harrives.slot?)
    obtain ⟨w', hw', hslot, rfl⟩ := Transfer.lastAt?_eq_some hy
    obtain ⟨q', hq'⟩ := hfrom w' hw'
    obtain hsame : q'.1 = q.1 := Option.some.inj (hq'.slot?.symm.trans hslot)
    obtain ⟨x, z, hx, hz, hz'⟩ := hq'.value
    refine ⟨x, w'.value, z, hsame ▸ hx, hz, ?_, hz'⟩
    rw [hwritten.at?, hy]
    rfl
  others p y hp hy := by
    have hnone : Transfer.lastAt? e.receiver ws p = none := by
      refine Option.eq_none_iff_forall_ne_some.mpr fun y hy => ?_
      obtain ⟨w, hw, hslot, _⟩ := Transfer.lastAt?_eq_some hy
      obtain ⟨q, hq⟩ := hfrom w hw
      exact hp q hq.place (Option.some.inj (hq.slot?.symm.trans hslot))
    rw [hwritten.at?, hnone]
    exact Domain.at?_extends hk hy

section Conclusion
variable {ν : Type} {t : State (Reach ν)} (hnamed : e.Named) (hhosts : e.Hosts t.domain) (hfilled : e.Filled s)
  (hbrings : List.Forall₂ (e.Brings s) (e.pack start) ds)
include hnamed hhosts

theorem Hosts.object (r : Ref) (hr : r ∈ e.receiver) : ∃ o, t.domain.heap.get? r = some o := by
  have htype := hhosts.receiver r hr
  cases ho : t.domain.heap.get? r with
  | some o => exact ⟨o, rfl⟩
  | none =>
    rw [Heap.typeOf, ho] at htype
    exact absurd htype.symm hnamed.type

theorem Hosts.withHeap {k : Heap} (hk : t.domain.heap.Extends k) : e.Hosts (t.withHeap k).domain where
  type := hhosts.type
  receiver r hr := by
    obtain ⟨o, ho⟩ := hhosts.object hnamed r hr
    have htype := hhosts.receiver r hr
    rw [Heap.typeOf, ho] at htype
    rw [Heap.typeOf, State.withHeap, hk r o ho]
    exact htype
  places q hq := by
    obtain ⟨v, hv⟩ := Option.ne_none_iff_exists'.mp (hhosts.places q hq)
    rw [show (t.withHeap k).domain.at? q.1 = some v from Domain.at?_extends hk hv]
    exact Option.some_ne_none v

include hfilled

/-- A variable that arrives is accepted. -/
theorem Arrives.accepted {w : Variable Value} (h : e.Arrives s start t.domain.heap w q) :
    w.destination t.domain e.receiver = .ok q.1 := by
  obtain ⟨hq, hsame, x, z, hx, hxz, hwz⟩ := h
  obtain ⟨x', _, hx', _, _, hmatches⟩ := hfilled q hq
  cases hx.symm.trans hx'
  obtain ⟨hdeclared, hlocate⟩ := locate_packed hnamed hhosts hq start w.value
  rw [← hsame] at hdeclared hlocate
  have hfits : w.fits t.domain = .ok () := by
    have htype : w.type = q.2.type := by rw [hsame]; rfl
    unfold Variable.fits
    rw [htype, Heap.matchesType_snapshot hwz, ← Heap.matchesType_snapshot hxz, if_pos hmatches]
    rfl
  exact Except.bind_eq_ok.mpr ⟨(), hdeclared, Except.bind_eq_ok.mpr ⟨(), hfits, hlocate⟩⟩

include hbrings

/-- When an answer has come, the client has the result and the members as they are at home. -/
theorem conclude_eq {call : ServiceCall} (hmode : call.mode = .normal) (hreceiver : call.receiver = e.receiver) :
    ∃ v ws t', (∀ host run, Client.conclude host run call (.executed d ds) t = some (.ok (.executed v ws), t')) ∧
      t'.domain.heap.snapshot v = some d ∧ e.Agrees s t.domain t'.domain ∧ t'.outside = t.outside := by
  let k := (Heap.instantiate d t.domain.heap).2
  let made := Heap.instantiateVariables ds k
  have hgrows : t.domain.heap.Extends k := Heap.instantiate_grows d t.domain.heap
  have hgrows' : k.Extends made.2 := Heap.instantiateVariables_grows ds k
  have hhosts' : e.Hosts (t.withHeap made.2).domain := Hosts.withHeap hnamed hhosts (hgrows.trans hgrows')
  have hfirst : Heap.ExtendsFrom k.objects.size made.2 made.2 := fun _ _ _ h => h
  obtain ⟨hfrom, _⟩ := arrive hbrings hfirst
  have hfields : ∀ w ∈ made.1, w.kind = .field := by
    intro w hw
    obtain ⟨q, hq⟩ := hfrom w hw
    rw [hq.same]
    rfl
  have haccepted : ∀ w ∈ made.1, ∃ p, w.destination (t.withHeap made.2).domain e.receiver = .ok p := by
    intro w hw
    obtain ⟨q, hq⟩ := hfrom w hw
    exact ⟨q.1, Arrives.accepted hnamed hhosts' hfilled hq⟩
  obtain ⟨after, happly, hwritten, hsame, hothers⟩ := Transfer.apply_accepted hfields haccepted
  -- objects that were made are not the receiver
  have hnew {n : Nat} (hn : t.domain.heap.objects.size ≤ n) : Heap.ExtendsFrom n made.2 after.heap := by
    intro r o hr ho
    refine (hothers r fun hreceived => ?_).trans ho
    obtain ⟨o, ho⟩ := hhosts.object hnamed r hreceived
    exact absurd ho (by rw [Heap.get?_eq_none_iff.mpr (hn.trans hr)]; exact fun h => nomatch h)
  have hsnapshot : after.heap.snapshot (Heap.instantiate d t.domain.heap).1 = some d :=
    Heap.snapshot_instantiate d t.domain.heap (hgrows'.trans_since (hnew le_rfl))
  obtain ⟨hfrom, hto⟩ := arrive hbrings (hnew hgrows.size_le)
  refine ⟨(Heap.instantiate d t.domain.heap).1, made.1, { t with domain := after }, fun host run => ?_, hsnapshot,
    agrees_of_written (hgrows.trans hgrows') hwritten hfrom hto, rfl⟩
  unfold Client.conclude
  rw [Run.bind_apply, CallResult.traverse, Run.bind_apply, State.instantiate_apply]
  dsimp only
  rw [Run.bind_apply, State.mapM_instantiate_variables_eq]
  dsimp only
  rw [hmode, hreceiver]
  show (Transfer.apply host run e.receiver made.1 >>= _) (t.withHeap made.2) = _
  rw [Run.bind_apply, happly host run]
  rfl

end Conclusion
end Outing
end MobileCode
