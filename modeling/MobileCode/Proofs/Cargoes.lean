import MobileCode.Proofs.Receptions

/-! # What goes along

The members that a closure names have places: fields of the receiver, and static fields. A client takes the values of these
places along, in the order of the closure.
-/
namespace MobileCode

theorem Run.mapM_stays {σ α β : Type} {f : α → Run σ β} {g : α → β} {xs : List α} {s : σ}
    (h : ∀ x ∈ xs, f x s = some (.ok (g x), s)) : xs.mapM f s = some (.ok (xs.map g), s) := by
  induction xs with
  | nil => rfl
  | cons x xs ih =>
    obtain ⟨hx, hxs⟩ := List.forall_mem_cons.mp h
    rw [List.mapM_cons, Run.bind_apply, hx]
    dsimp only
    rw [Run.bind_apply, ih hxs]
    rfl

theorem TypeDecl.field?_name {α : Type} {t : TypeDecl α} {name : String} {f : FieldDecl α} (h : t.field? name = some f) :
    f ∈ t.fields ∧ f.name = name :=
  ⟨List.mem_of_find?_eq_some h, of_decide_eq_true (List.find?_some (p := fun f : FieldDecl α => decide (f.name = name)) h)⟩

namespace Outing
variable (e : Outing)

/-- The place of a field of the type. An instance field has none without a receiver. -/
def place? (f : FieldDecl Datum) : Option Slot :=
  if f.isStatic then some (.static e.type f.name) else e.receiver.map (.field · f.name)

/-- The member that the closure names, with its place. -/
def member? (id : MemberId) : Option (Slot × FieldDecl Datum) :=
  (e.start.type.field? id.name).bind fun f => (e.place? f).map (·, f)

/-- The fields that the closure names, with their places. -/
def places : List (Slot × FieldDecl Datum) := (e.closure.fields.filter (·.type = e.type)).filterMap e.member?

/-- A variable with what is at the place. -/
def packed (d : Domain) (q : Slot × FieldDecl Datum) : Variable Value :=
  ⟨.field, q.2.name, e.type, q.2.type, (d.at? q.1).getD .null, q.2.isStatic⟩

def pack (d : Domain) : List (Variable Value) := e.places.map (e.packed d)

/-- In each place is a value of the declared type, which can travel. Nothing hidden belongs to its state. -/
def Filled (s : State Unit) : Prop := ∀ q ∈ e.places, ∃ v x, s.domain.at? q.1 = some v ∧ s.domain.heap.snapshot v = some x ∧
  s.domain.heap.Clear e.veil v ∧ s.domain.heap.matchesType v q.2.type = true

/-- The type and its fields have names. -/
structure Named : Prop where
  type : e.type ≠ ""
  fields : ∀ f ∈ e.start.type.fields, f.name ≠ "" ∧ f.type ≠ ""

variable {e} {q : Slot × FieldDecl Datum}

theorem mem_places : q ∈ e.places ↔ ⟨e.type, q.2.name⟩ ∈ e.closure.fields ∧ e.start.type.field? q.2.name = some q.2 ∧
    e.place? q.2 = some q.1 := by
  constructor
  · intro h
    obtain ⟨⟨type, name⟩, hid, hmember⟩ := List.mem_filterMap.mp h
    obtain ⟨hmem, htype⟩ := List.mem_filter.mp hid
    obtain rfl : type = e.type := of_decide_eq_true htype
    obtain ⟨f, hf, hplace⟩ := Option.bind_eq_some_iff.mp hmember
    obtain ⟨p, hp, rfl⟩ := Option.map_eq_some_iff.mp hplace
    obtain ⟨_, rfl⟩ := TypeDecl.field?_name hf
    exact ⟨hmem, hf, hp⟩
  · rintro ⟨hmem, hf, hp⟩
    refine List.mem_filterMap.mpr ⟨⟨e.type, q.2.name⟩, List.mem_filter.mpr ⟨hmem, decide_eq_true rfl⟩, ?_⟩
    exact Option.bind_eq_some_iff.mpr ⟨q.2, hf, Option.map_eq_some_iff.mpr ⟨q.1, hp, rfl⟩⟩

/-- A variable stands at the place that it was packed from. -/
theorem slot?_packed (hq : q ∈ e.places) (d : Domain) : (e.packed d q).slot? e.receiver = some q.1 := (mem_places.mp hq).2.2

theorem validate_packed (hnamed : e.Named) (hq : q ∈ e.places) (d : Domain) : (e.packed d q).validate = .ok () := by
  obtain ⟨hname, htype⟩ := hnamed.fields q.2 (TypeDecl.field?_name (mem_places.mp hq).2.1).1
  have hdefect : (e.packed d q).defect? = none := by
    simp [Variable.defect?, packed, hname, htype, hnamed.type]
  rw [Variable.validate, hdefect]

/-- What a filled state packs is what has to go along. -/
theorem Filled.packs {s : State Unit} (h : e.Filled s) (hnamed : e.Named) : e.Packs s (e.pack s.domain) := by
  have hmem {v : Variable Value} (hv : v ∈ e.pack s.domain) : ∃ q ∈ e.places, e.packed s.domain q = v := List.mem_map.mp hv
  have hvalue {q : Slot × FieldDecl Datum} (hq : q ∈ e.places) : s.domain.at? q.1 = some (e.packed s.domain q).value := by
    obtain ⟨v, _, hv, _⟩ := h q hq
    rw [hv, packed, hv]
    rfl
  refine ⟨?_, ?_, ?_, ?_, ?_, ?_, ?_, fun name hreceiver hships => ?_, fun name hshares => ?_⟩
  · intro v hv
    obtain ⟨q, hq, rfl⟩ := hmem hv
    rfl
  · intro v hv
    obtain ⟨q, hq, rfl⟩ := hmem hv
    rfl
  · intro v hv
    obtain ⟨q, hq, rfl⟩ := hmem hv
    exact validate_packed hnamed hq _
  · intro v hv
    obtain ⟨q, hq, rfl⟩ := hmem hv
    exact (mem_places.mp hq).1
  · intro v hv
    obtain ⟨q, hq, rfl⟩ := hmem hv
    exact ⟨q.2, (mem_places.mp hq).2.1, rfl⟩
  · intro v hv
    obtain ⟨q, hq, rfl⟩ := hmem hv
    exact ⟨q.1, slot?_packed hq _, hvalue hq⟩
  · intro v hv
    obtain ⟨q, hq, rfl⟩ := hmem hv
    obtain ⟨v, _, hv, _, _, hfits⟩ := h q hq
    have hsame : (e.packed s.domain q).value = v := by
      rw [packed, hv]
      rfl
    rw [hsame]
    exact hfits
  · obtain ⟨hclosure, f, hf, hstatic⟩ := hships
    obtain ⟨r, hr⟩ := Option.ne_none_iff_exists'.mp hreceiver
    obtain ⟨_, rfl⟩ := TypeDecl.field?_name hf
    have hplace : e.place? f = some (.field r f.name) := by
      rw [place?, hstatic, hr]
      rfl
    exact ⟨e.packed s.domain (_, f), List.mem_map_of_mem (mem_places.mpr ⟨hclosure, hf, hplace⟩), rfl, hstatic⟩
  · obtain ⟨hclosure, f, hf, hstatic⟩ := hshares
    obtain ⟨_, rfl⟩ := TypeDecl.field?_name hf
    have hplace : e.place? f = some (.static e.type f.name) := by
      rw [place?, hstatic]
      rfl
    exact ⟨e.packed s.domain (_, f), List.mem_map_of_mem (mem_places.mpr ⟨hclosure, hf, hplace⟩), rfl, hstatic⟩

/-! ## Captures -/

/-- A domain with the type of the method, with the object that the method runs on, and with a value in each place. -/
structure Hosts (e : Outing) (d : Domain) : Prop where
  type : ∃ o, d.type? e.type = some o ∧
    ∀ name f, e.start.type.field? name = some f → ∃ g, o.decl.field? name = some g ∧ f.shape = g.shape
  receiver : ∀ r ∈ e.receiver, d.heap.typeOf r = e.type
  places : ∀ q ∈ e.places, d.at? q.1 ≠ none

section Captures
variable {ω : Type} {t : State ω} (hnamed : e.Named) (hhosts : e.Hosts t.domain)
include hnamed hhosts

/-- There is a place for each packed variable, whatever its value becomes. -/
theorem locate_packed (hq : q ∈ e.places) (d : Domain) (v : Value) :
    ((e.packed d q).withValue v).declared t.domain = .ok () ∧
      ((e.packed d q).withValue v).locate t.domain e.receiver = .ok q.1 := by
  obtain ⟨_, hf, hplace⟩ := mem_places.mp hq
  obtain ⟨o, ho, hfields⟩ := hhosts.type
  have hthere := hhosts.places q hq
  constructor
  · obtain ⟨g, hg, hshape⟩ := hfields _ _ hf
    have hflags : q.2.flags = g.flags := congrArg FieldDecl.flags hshape
    have hdeclares : (o.decl.field? q.2.name).any (·.isStatic = q.2.isStatic) = true := by
      rw [hg, Option.any_some, FieldDecl.isStatic, FieldDecl.isStatic, hflags]
      exact decide_eq_true rfl
    unfold Variable.declared
    rw [show ((e.packed d q).withValue v).validate = .ok () from validate_packed hnamed hq d,
      show ((e.packed d q).withValue v).owner = e.type from rfl, ho]
    exact if_pos hdeclares
  · unfold Variable.locate
    show (if q.2.isStatic = true then _ else _ : Except Error Slot) = _
    unfold place? at hplace
    split at hplace
    · rename_i hstatic
      rw [if_pos hstatic]
      have hq : q.1 = .static e.type q.2.name := (Option.some.inj hplace).symm
      rw [hq] at hthere ⊢
      refine if_pos ?_
      cases hstatics : t.domain.statics.find? e.type with
      | some _ => rw [show ((e.packed d q).withValue v).owner = e.type from rfl, hstatics]; rfl
      | none =>
        rw [Domain.at?, hstatics] at hthere
        exact absurd rfl hthere
    · rename_i hstatic
      rw [if_neg hstatic]
      obtain ⟨r, hr, hrq⟩ := Option.map_eq_some_iff.mp hplace
      rw [hr]
      dsimp only
      rw [← hrq]
      exact if_pos (hhosts.receiver r hr)

omit hnamed hhosts in
theorem isNone_place? (f : FieldDecl Datum) : (e.place? f).isNone = (!f.isStatic && e.receiver.isNone) := by
  unfold place?
  cases f.isStatic with
  | true => rfl
  | false => exact Option.isNone_map

/-- A member that the closure names is captured if it has a place. -/
theorem captureField_eq {o : TypeHandle} {id : MemberId} (hid : id ∈ e.closure.fields) (hmine : id.type = e.type)
    {f : FieldDecl Datum} (hf : e.start.type.field? id.name = some f) {g : FieldDecl Value}
    (hg : o.decl.field? id.name = some g) (hshape : f.shape = g.shape) (host : Host ω) (run : Runner ω) :
    Transfer.captureField host run o e.receiver id t = some (.ok ((e.member? id).map (e.packed t.domain)), t) := by
  obtain ⟨type, name⟩ := id
  obtain rfl : type = e.type := hmine
  have hname : f.name = g.name := congrArg FieldDecl.name hshape
  have htype : f.type = g.type := congrArg FieldDecl.type hshape
  have hstatic : f.isStatic = g.isStatic := by
    rw [FieldDecl.isStatic, FieldDecl.isStatic, show f.flags = g.flags from congrArg FieldDecl.flags hshape]
  obtain ⟨_, rfl⟩ := TypeDecl.field?_name hf
  have hnone := isNone_place? (e := e) f
  unfold Transfer.captureField
  dsimp only at hg ⊢
  rw [hg]
  dsimp only
  rw [← hname, ← htype, ← hstatic, ← hnone, member?, hf, Option.bind_some, Option.map_map]
  cases hplace : e.place? f with
  | none => rfl
  | some p =>
    have hq : (p, f) ∈ e.places := mem_places.mpr ⟨hid, hf, hplace⟩
    obtain ⟨v, hv⟩ := Option.ne_none_iff_exists'.mp (hhosts.places _ hq)
    have hread : Variable.read ⟨.field, f.name, e.type, f.type, .null, f.isStatic⟩ t.domain e.receiver =
        .ok (e.packed t.domain (p, f)) := by
      obtain ⟨hdeclared, hlocate⟩ := locate_packed hnamed hhosts hq t.domain .null
      refine Except.bind_eq_ok.mpr ⟨p, Except.bind_eq_ok.mpr ⟨(), hdeclared, hlocate⟩, Except.bind_eq_ok.mpr ⟨v, ?_, ?_⟩⟩
      · unfold Variable.valueAt
        rw [hv]
        rfl
      · rw [packed, hv]
        rfl
    rw [Option.isNone_some, if_neg Bool.false_ne_true, Run.bind_apply, Variable.copyFrom_field host run t rfl, hread]
    rfl

/-- What the closure names is captured from a domain that has it all. -/
theorem capture_eq (hproperties : e.closure.properties = [])
    (hdeclared : ∀ id ∈ e.closure.fields, id.type = e.type → e.start.type.field? id.name ≠ none)
    (host : Host ω) (run : Runner ω) :
    Transfer.capture host run e.type e.closure e.receiver t = some (.ok (e.pack t.domain), t) := by
  obtain ⟨o, ho, hfields⟩ := hhosts.type
  have hcapture : ∀ id ∈ e.closure.fields.filter (·.type = e.type), Transfer.captureField host run o e.receiver id t =
      some (.ok ((e.member? id).map (e.packed t.domain)), t) := by
    intro id hid
    obtain ⟨hmem, hmine⟩ := List.mem_filter.mp hid
    have hmine : id.type = e.type := of_decide_eq_true hmine
    obtain ⟨f, hf⟩ := Option.ne_none_iff_exists'.mp (hdeclared _ hmem hmine)
    obtain ⟨g, hg, hshape⟩ := hfields _ _ hf
    exact captureField_eq hnamed hhosts hmem hmine hf hg hshape host run
  unfold Transfer.capture
  rw [Run.bind_apply, Host.resolveLocal_found ho]
  dsimp only
  rw [Run.bind_apply, Run.mapM_stays hcapture, hproperties]
  show some (Except.ok _, t) = _
  rw [pack, places, List.map_filterMap]
  simp [List.filterMap_map]

end Captures

/-! ## Runs at home -/

/-- The method completes at home, in a way that can be done elsewhere. What it leaves behind can travel, and so can the
result. -/
structure Completes (e : Outing) (m : MethodHandle) (args : List Value) (s s' : State Unit) (v : Value) (d : Datum) : Prop
    extends e.Runs m args s s' v where
  filled : e.Filled s'
  result : s'.domain.heap.snapshot v = some d
  clear : s'.domain.heap.Clear e.veil v

/-- A variable that brings the value that its member has at home. -/
structure Brings (e : Outing) (s : State Unit) (v : Variable Value) (d : Variable Datum) : Prop where
  same : d = v.withValue d.value
  value : ∃ p x, v.slot? e.receiver = some p ∧ s.domain.at? p = some x ∧ s.domain.heap.snapshot x = some d.value

/-- What comes back can travel. -/
theorem Returns.travel {s : State Unit} {k : Heap} {vs ws : List (Variable Value)} (h : List.Forall₂ (e.Returns s k) vs ws) :
    ∃ ds, ws.mapM (·.traverse (k.snapshot ·)) = some ds ∧ List.Forall₂ (e.Brings s) vs ds := by
  induction h with
  | nil => exact ⟨[], rfl, .nil⟩
  | @cons v w vs ws hvw _ ih =>
    obtain ⟨ds, hds, hbrings⟩ := ih
    obtain ⟨hsame, p, x, d, hp, hx, hd, hd'⟩ := hvw
    have hw : w.traverse (k.snapshot ·) = some (v.withValue d) := by
      rw [hsame, Variable.traverse]
      show Option.bind (k.snapshot w.value) _ = _
      rw [hd']
      rfl
    refine ⟨v.withValue d :: ds, ?_, .cons ⟨rfl, p, x, hp, hx, hd⟩ hbrings⟩
    rw [List.mapM_cons, hw, hds]
    rfl

end Outing
end MobileCode
