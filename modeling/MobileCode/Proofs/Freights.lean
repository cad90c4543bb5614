import MobileCode.Proofs.Errands
import MobileCode.Proofs.Shipments
import Mathlib.Data.Fintype.EquivFin

/-! # State that is delivered and fetched

The variables that went along are written onto a new object and onto static fields. From then on this object is the image of
the receiver, but for the fields that did not go along. After the run the variables are read again, and what they hold then is
what the members hold at home.
-/
namespace MobileCode

theorem forall₂_through {α β γ : Type} {R : α → β → Prop} {P : β → γ → Prop} {Q : α → γ → Prop} {xs : List α} {ys : List β}
    (h : List.Forall₂ R xs ys) (hstep : ∀ x ∈ xs, ∀ y, R x y → ∃ z, P y z ∧ Q x z) :
    ∃ zs, List.Forall₂ P ys zs ∧ List.Forall₂ Q xs zs := by
  induction h with
  | nil => exact ⟨[], .nil, .nil⟩
  | cons hxy _ ih =>
    obtain ⟨hfirst, hrest⟩ := List.forall_mem_cons.mp hstep
    obtain ⟨z, hz, hz'⟩ := hfirst _ hxy
    obtain ⟨zs, hzs, hzs'⟩ := ih hrest
    exact ⟨z :: zs, .cons hz hzs, .cons hz' hzs'⟩

/-! ## Images of objects -/

namespace Heap.Mirrors
variable {veil : Veil} {spared : Heap} {w : Links} {h k k' : Heap}

/-- Other objects may come on the second side. -/
theorem extended (hw : Mirrors veil spared w h k) (hk : k.Extends k') : Mirrors veil spared w h k' where
  object hr := by
    obtain ⟨o, p, ho, hp, hop⟩ := hw.object hr
    exact ⟨o, p, ho, hk _ _ hp, hop⟩
  functional := hw.functional
  injective := hw.injective
  apart := hw.apart
  extends_spared := hw.extends_spared.trans hk

/-- An object that is there becomes an image. -/
theorem enlink (hw : Mirrors veil {} w h k) {r s : Ref} (hr : ∀ b, ¬w r b) (hs : ∀ a, ¬w a s)
    (hothers : ∀ b, b ≠ s → k'.get? b = k.get? b) {o p : Object} (ho : h.get? r = some o) (hp : k'.get? s = some p)
    (hop : ∀ w', w ≤ w' → Object.Mirrors (veil r) w' o p) :
    ∃ w', w ≤ w' ∧ w' r s ∧ Mirrors veil {} w' h k' := by
  let w' : Links := fun a b => w a b ∨ (a = r ∧ b = s)
  have hle : w ≤ w' := fun _ _ => .inl
  refine ⟨w', hle, .inr ⟨rfl, rfl⟩, ⟨?_, ?_, ?_, fun _ => Nat.zero_le _, fun a _ ha => ?_⟩⟩
  · rintro a b (hab | ⟨rfl, rfl⟩)
    · obtain ⟨q, q', hq, hq', hqq⟩ := hw.object hab
      have hne : b ≠ s := by
        rintro rfl
        exact hs a hab
      exact ⟨q, q', hq, (hothers b hne).trans hq', hqq.mono hle⟩
    · exact ⟨o, p, ho, hp, hop w' hle⟩
  · rintro a b b' (hb | ⟨rfl, rfl⟩) (hb' | ⟨hr', rfl⟩)
    · exact hw.functional hb hb'
    · exact absurd (hr' ▸ hb) (hr b)
    · exact absurd hb' (hr b')
    · rfl
  · rintro a a' b (ha | ⟨rfl, rfl⟩) (ha' | ⟨rfl, hb⟩)
    · exact hw.injective ha ha'
    · exact absurd (hb ▸ ha) (hs a)
    · exact absurd ha' (hs a')
    · rfl
  · cases ha

end Heap.Mirrors

/-! ## Variables that are accepted -/

namespace Transfer
variable {ω : Type} {target : Option Ref}

/-- Field variables that are all accepted are written, on the target and on static fields only. -/
theorem apply_accepted {vs : List (Variable Value)} (hfields : ∀ v ∈ vs, v.kind = .field) {s : State ω}
    (haccepted : ∀ v ∈ vs, ∃ p, v.destination s.domain target = .ok p) :
    ∃ d, (∀ (host : Host ω) run, apply host run target vs s = some (.ok (), { s with domain := d })) ∧
      Written target vs s.domain d ∧ s.domain.SameCode d ∧
      ∀ b, target ≠ some b → d.heap.get? b = s.domain.heap.get? b := by
  induction vs generalizing s with
  | nil => exact ⟨_, fun _ _ => rfl, .nil _, .refl _, fun _ _ => rfl⟩
  | cons v vs ih =>
    obtain ⟨hkind, hfields⟩ := List.forall_mem_cons.mp hfields
    obtain ⟨⟨p, hp⟩, haccepted⟩ := List.forall_mem_cons.mp haccepted
    obtain ⟨hoffers, hslot⟩ := Variable.source_eq_ok hkind (Variable.destination_eq_ok hp).2
    have hput := Domain.conforms_put hoffers v.value
    obtain ⟨d, happly, hwritten, hsame, hothers⟩ := ih hfields (s := { s with domain := s.domain.put v.value p })
      fun w hw => by rw [Variable.destination_conforms hput]; exact haccepted w hw
    refine ⟨d, fun host run => ?_, hwritten.cons hkind hp, ?_, fun b hb => (hothers b hb).trans ?_⟩
    · rw [apply, Run.bind_apply, unlessUnavailable_apply, Variable.copyTo_field host run s hkind, hp]
      exact happly host run
    · refine ⟨hsame.same.trans ?_, fun type => (hsame.stores type).trans (hput.statics type)⟩
      cases p <;> rfl
    · cases p with
      | static type name => rfl
      | field r name =>
        unfold Variable.slot? at hslot
        split at hslot
        · cases hslot
        · obtain ⟨r', hr', hfield⟩ := Option.map_eq_some_iff.mp hslot
          cases hfield
          exact (Heap.get?_setField _ _ _ _ _).trans (if_neg fun h => hb (hr'.trans (congrArg some h)))

/-- Field variables that can all be read are read again. -/
theorem refresh_read (host : Host ω) (run : Runner ω) {vs ws : List (Variable Value)} {s : State ω} (hfields : ∀ v ∈ vs, v.kind = .field)
    (hread : List.Forall₂ (fun v w => v.read s.domain target = .ok w) vs ws) :
    refresh host run target vs s = some (.ok (ws, .ok ()), s) := by
  induction hread with
  | nil => rfl
  | cons hv _ ih =>
    obtain ⟨hkind, hfields⟩ := List.forall_mem_cons.mp hfields
    rw [refresh, Run.bind_apply, Run.attempt, unlessUnavailable_apply, Variable.copyFrom_field host run s hkind, hv]
    show (refresh host run target _ >>= _) s = _
    rw [Run.bind_apply, ih hfields]
    rfl

end Transfer

/-! ## What goes along -/

/-- Where the variable stands depends on its member alone. -/
theorem Variable.slot?_congr {u v : Variable Value} {target : Option Ref} (target' : Option Ref) {p : Slot}
    (hu : u.slot? target = some p) (hv : v.slot? target = some p) (howner : u.owner = v.owner) :
    u.slot? target' = v.slot? target' := by
  have hmember (x : Variable Value) (hx : x.slot? target = some p) : x.isStatic = true ∧ p = .static x.owner x.name ∨
      x.isStatic = false ∧ ∃ r, p = .field r x.name := by
    unfold slot? at hx
    split at hx
    · exact .inl ⟨‹_›, (Option.some.inj hx).symm⟩
    · obtain ⟨r, -, hr⟩ := Option.map_eq_some_iff.mp hx
      exact .inr ⟨(Bool.not_eq_true _).mp ‹_›, r, hr.symm⟩
  unfold slot?
  rw [howner]
  obtain ⟨hustatic, rfl⟩ | ⟨hustatic, r, rfl⟩ := hmember u hu
  · obtain ⟨hvstatic, hp⟩ | ⟨_, _, hp⟩ := hmember v hv
    · rw [hustatic, hvstatic, (Slot.static.inj hp).2]
    · cases hp
  · obtain ⟨_, hp⟩ | ⟨hvstatic, r', hp⟩ := hmember v hv
    · cases hp
    · rw [hustatic, hvstatic, (Slot.field.inj hp).2]

theorem exists_unnamed (names : List String) : ∃ name, name ∉ names := by
  obtain ⟨name, hname⟩ := Infinite.exists_notMem_finset names.toFinset
  exact ⟨name, fun h => hname (List.mem_toFinset.mpr h)⟩

namespace Outing
variable (e : Outing)

/-- Variables for the fields that the closure names, with the values at home. -/
structure Packs (s : State Unit) (vs : List (Variable Value)) : Prop where
  kind : ∀ v ∈ vs, v.kind = .field
  owner : ∀ v ∈ vs, v.owner = e.type
  valid : ∀ v ∈ vs, v.validate = .ok ()
  named : ∀ v ∈ vs, ⟨e.type, v.name⟩ ∈ e.closure.fields
  declared : ∀ v ∈ vs, ∃ f, e.start.type.field? v.name = some f ∧ f.isStatic = v.isStatic
  value : ∀ v ∈ vs, ∃ p, v.slot? e.receiver = some p ∧ s.domain.at? p = some v.value
  fits : ∀ v ∈ vs, s.domain.heap.matchesType v.value v.type = true
  fields : ∀ name, e.receiver ≠ none → e.Ships name → ∃ v ∈ vs, v.name = name ∧ v.isStatic = false
  statics : ∀ name, e.Shares name → ∃ v ∈ vs, v.name = name ∧ v.isStatic = true

/-- The objects that the method runs on, at home and elsewhere. These are no images of each other yet. -/
inductive Receives (w : Links) (h k : Heap) : Option Ref → Option Ref → Prop
  | none : Receives w h k none none
  | some {r r' : Ref} {o o' : Object} : h.get? r = some o → o.type = e.type → k.get? r' = some o' → o'.type = e.type →
    (∀ b, ¬w r b) → (∀ a, ¬w a r') → Receives w h k (some r) (some r')

/-- The object elsewhere is of the type of the method, if there is one at home. -/
structure Suits {ω : Type} (t : State ω) (target : Option Ref) : Prop where
  present : e.receiver.isSome = target.isSome
  typeOf : ∀ r', target = some r' → t.domain.heap.typeOf r' = e.type

/-- What a variable comes back with, among the objects of a heap: the value that its member has at home. -/
structure Returns (s : State Unit) (k : Heap) (v v' : Variable Value) : Prop where
  same : v' = v.withValue v'.value
  value : ∃ p x d, v.slot? e.receiver = some p ∧ s.domain.at? p = some x ∧ s.domain.heap.snapshot x = some d ∧
    k.snapshot v'.value = some d

end Outing

section
variable {ω : Type} {e : Errand ω} {w : Shared} {s s₀ : State Unit} {t : State ω} {vs vs' : List (Variable Value)}

/-- The type of the method, at home and elsewhere. -/
theorem Errand.Settled.types (hs : e.Settled w s t) (he : e.Prepared) : ∃ o o', s.domain.type? e.type = some o ∧
    t.domain.type? e.type = some o' ∧ e.start.type.shape = o.decl.shape ∧ o.module.code = e.modules.root.code ∧
    TypeHandle.Renders e.boundary.clientType (e.mode? e.modules.root o.decl.flags) o o' := by
  have hm : e.modules.root ∈ e.modules.members := List.mem_cons_self
  have htype : e.start.type ∈ e.modules.root.types := he.module ▸ he.stands.type
  obtain ⟨l, hl⟩ := Option.ne_none_iff_exists'.mp (hs.complete _ hm)
  obtain ⟨l', hl'⟩ := Option.ne_none_iff_exists'.mp (hs.held _ hm hs.root)
  obtain ⟨u, hu, hshape, hfound⟩ := hs.home.type? he.unambiguous hm hl htype
  obtain ⟨hcode, u', hu', hrenders⟩ := hs.home.renders hs.away he.renders he.unambiguous hm (hs.complete _ hm) hl' htype hfound
  exact ⟨_, _, hfound, hu', hshape, hcode, hrenders⟩

namespace Outing

/-- Elsewhere each variable is declared. -/
theorem Packs.declared_there (hpacks : e.Packs s₀ vs) (he : e.Prepared) (hs : e.Settled w s t) {v v' : Variable Value}
    (hv : v ∈ vs) (hsame : v' = v.withValue v'.value) : v'.declared t.domain = .ok () := by
  obtain ⟨o, o', _, htype', hshape, _, hrenders⟩ := hs.types he
  have howner : v'.owner = e.type := by
    rw [hsame]
    exact hpacks.owner v hv
  have hname : v'.name = v.name := by rw [hsame]; rfl
  have hstatic : v'.isStatic = v.isStatic := by rw [hsame]; rfl
  have hvalid : v'.validate = .ok () := by
    rw [hsame]
    exact hpacks.valid v hv
  obtain ⟨f, hf, hfstatic⟩ := hpacks.declared v hv
  obtain ⟨g, hg, hgshape⟩ := TypeDecl.field?_eq hshape hf
  have hfield := (hrenders.form fun _ _ => False).field? v.name
  rw [hg] at hfield
  generalize hg' : o'.decl.field? v.name = x at hfield
  cases hfield with
  | @some _ g' hgg' =>
    have hflags : f.flags = g.flags := congrArg FieldDecl.flags hgshape
    have hdeclares : (o'.decl.field? v'.name).any (·.isStatic = v'.isStatic) = true := by
      rw [hname, hg', Option.any_some, hstatic, ← hfstatic, FieldDecl.isStatic, FieldDecl.isStatic, hgg'.flags, hflags]
      exact decide_eq_true rfl
    unfold Variable.declared
    rw [hvalid, howner, htype']
    exact if_pos hdeclares

/-- Elsewhere there is a place for each variable. -/
theorem Packs.locate (hpacks : e.Packs s₀ vs) (he : e.Prepared) (hs : e.Settled w s t) {target : Option Ref}
    (hsuits : e.Suits t target) {v v' : Variable Value} (hv : v ∈ vs) (hsame : v' = v.withValue v'.value) :
    v'.declared t.domain = .ok () ∧ ∃ p, v'.locate t.domain target = .ok p := by
  obtain ⟨_, o', _, htype', _⟩ := hs.types he
  have howner : v'.owner = e.type := by
    rw [hsame]
    exact hpacks.owner v hv
  have hstatic : v'.isStatic = v.isStatic := by rw [hsame]; rfl
  refine ⟨hpacks.declared_there he hs hv hsame, ?_⟩
  unfold Variable.locate
  rw [howner, hstatic]
  cases hvstatic : v.isStatic with
  | true =>
    have hstores : (t.domain.statics.find? e.type).isSome = true := by
      have h := hs.away.stores e.type
      rw [htype'] at h
      exact h
    refine ⟨.static e.type v'.name, ?_⟩
    rw [if_pos rfl]
    exact if_pos hstores
  | false =>
    obtain ⟨p, hp, _⟩ := hpacks.value v hv
    rw [Variable.slot?, hvstatic, if_neg Bool.false_ne_true] at hp
    obtain ⟨r, hr, _⟩ := Option.map_eq_some_iff.mp hp
    have hpresent := hsuits.present
    rw [hr, Option.isSome_some] at hpresent
    obtain ⟨r', hr'⟩ := Option.isSome_iff_exists.mp hpresent.symm
    refine ⟨.field r' v'.name, ?_⟩
    rw [if_neg Bool.false_ne_true, hr']
    exact if_pos (hsuits.typeOf r' hr')

/-- What went along is accepted elsewhere. -/
theorem Packs.accepted (hpacks : e.Packs s vs) (he : e.Prepared) (hs : e.Settled w s t)
    (htyped : Heap.Typed w.links s.domain.heap t.domain.heap) {target : Option Ref} (hsuits : e.Suits t target)
    {v v' : Variable Value} (hv : v ∈ vs) (hlinked : Variable.Linked w.links v v') :
    ∃ p, v'.destination t.domain target = .ok p := by
  obtain ⟨hsame, hvalue⟩ := hlinked
  obtain ⟨hdeclared, p, hp⟩ := hpacks.locate he hs hsuits hv hsame
  have hmatches : t.domain.heap.matchesType v'.value v'.type = true := by
    have htypes : v'.type = v.type := by rw [hsame]; rfl
    rw [htypes, ← htyped.matchesType hvalue]
    exact hpacks.fits v hv
  have hfits : v'.fits t.domain = .ok () := by
    unfold Variable.fits
    rw [if_pos hmatches]
    rfl
  exact ⟨p, Except.bind_eq_ok.mpr ⟨_, hdeclared, Except.bind_eq_ok.mpr ⟨_, hfits, hp⟩⟩⟩

section
variable {links : Links} {target : Option Ref} {d d' : Domain} (hpacks : e.Packs s vs)
  (hvs : List.Forall₂ (Variable.Linked links) vs vs') (hwritten : Transfer.Written target vs' d d')
include hpacks hvs hwritten

/-- Each field that went along has its value at home elsewhere. -/
theorem Packs.written {v : Variable Value} (hv : v ∈ vs) {p : Slot} (hp : v.slot? target = some p) :
    ∃ x, d'.at? p = some x ∧ Value.Linked links v.value x := by
  obtain ⟨v', hv', hlinked⟩ := Forall₂.exists_of_mem hvs hv
  have hslot {u u' : Variable Value} (h : Variable.Linked links u u') : u'.slot? target = u.slot? target := by
    rw [h.same]
    rfl
  obtain ⟨x, hx⟩ := Option.isSome_iff_exists.mp (Transfer.lastAt?_isSome hv' ((hslot hlinked).trans hp))
  -- the last variable for the slot has the same value at home
  obtain ⟨u', hu', hup, rfl⟩ := Transfer.lastAt?_eq_some hx
  obtain ⟨u, hu, hlinked'⟩ := Forall₂.exists_of_mem hvs.flip hu'
  refine ⟨u'.value, (hwritten.at? p).trans (by rw [hx]; rfl), ?_⟩
  obtain ⟨q, hq, hvalue⟩ := hpacks.value v hv
  obtain ⟨q', hq', hvalue'⟩ := hpacks.value u hu
  have hsame := Variable.slot?_congr e.receiver hp ((hslot hlinked').symm.trans hup)
    ((hpacks.owner v hv).trans (hpacks.owner u hu).symm)
  cases hq.symm.trans (hsame.trans hq')
  have hvalues : v.value = u.value := Option.some.inj (hvalue.symm.trans hvalue')
  exact hvalues ▸ hlinked'.value

theorem Packs.written_static {name : String} (hname : e.Shares name) {v : Value}
    (hv : s.domain.at? (.static e.type name) = some v) :
    ∃ x, d'.at? (.static e.type name) = some x ∧ Value.Linked links v x := by
  obtain ⟨u, hu, rfl, hstatic⟩ := hpacks.statics name hname
  have hslot (target : Option Ref) : u.slot? target = some (.static e.type u.name) := by
    rw [Variable.slot?, hstatic, hpacks.owner u hu]
    rfl
  obtain ⟨q, hq, hvalue⟩ := hpacks.value u hu
  rw [hslot] at hq
  cases hq
  cases hv.symm.trans hvalue
  exact hpacks.written hvs hwritten hu (hslot _)

/-- The object that was written is the image of the receiver. -/
theorem Packs.written_object {r r' : Ref} (hr : e.receiver = some r) (hr' : target = some r') {o p : Object}
    (ho : s.domain.heap.get? r = some o) (hp : d'.heap.get? r' = some p) (htype : o.type = p.type) :
    Object.Mirrors (e.veil r) links o p := by
  have hships {name : String} (h : ¬e.veil r name) : e.Ships name := not_not.mp fun hn => h ⟨hr, hn⟩
  refine ⟨htype, fun name hshown => ?_, fun hall => ?_⟩
  · obtain ⟨v, hv, rfl, hstatic⟩ := hpacks.fields name (fun h => nomatch hr.symm.trans h) (hships hshown)
    have hslot (target : Option Ref) : v.slot? target = target.map (.field · v.name) := by
      rw [Variable.slot?, hstatic]
      rfl
    obtain ⟨q, hq, hvalue⟩ := hpacks.value v hv
    rw [hslot, hr] at hq
    cases hq
    obtain ⟨x, hx, hlinked⟩ := hpacks.written hvs hwritten hv ((hslot _).trans (by rw [hr']; rfl))
    rw [Domain.at?, Heap.field?, ho, Option.bind_some] at hvalue
    rw [Domain.at?, Heap.field?, hp, Option.bind_some] at hx
    rw [hvalue, hx]
    exact .some hlinked
  · -- a type has only so many fields, and there are more names than that
    obtain ⟨name, hname⟩ := exists_unnamed (e.start.type.fields.map (·.name))
    obtain ⟨-, f, hf, -⟩ := hships (hall name)
    refine absurd (List.mem_map.mpr ⟨f, List.mem_of_find?_eq_some hf, ?_⟩) hname
    exact of_decide_eq_true (List.find?_some (p := fun f : FieldDecl Datum => decide (f.name = name)) hf)

end

theorem Receives.suits {target : Option Ref}
    (h : e.Receives w.links s.domain.heap t.domain.heap e.receiver target) : e.Suits t target := by
  generalize hx : e.receiver = x at h
  cases h with
  | none => exact ⟨by rw [hx], fun _ h => nomatch h⟩
  | some _ _ ho' htype' =>
    refine ⟨by rw [hx]; rfl, ?_⟩
    rintro r' ⟨⟩
    rw [Heap.typeOf, ho', Option.map_some, Option.getD_some, htype']

/-- What went along is written elsewhere. The object there is then the image of the receiver. -/
theorem Packs.deliver (hpacks : e.Packs s vs) (he : e.Prepared) (hs : e.Settled w s t)
    (hheap : Heap.Mirrors e.veil {} w.links s.domain.heap t.domain.heap)
    (hvs : List.Forall₂ (Variable.Linked w.links) vs vs') {target : Option Ref}
    (hreceives : e.Receives w.links s.domain.heap t.domain.heap e.receiver target) :
    ∃ d w', (∀ (host : Host ω) run, Transfer.apply host run target vs' t = some (.ok (), { t with domain := d })) ∧ w ≤ w' ∧
      Option.Rel w'.links e.receiver target ∧ e.standIn.Holds w' s { t with domain := d } := by
  have hsuits := hreceives.suits
  have hfields : ∀ v' ∈ vs', v'.kind = .field := fun v' hv' => by
    obtain ⟨v, hv, hlinked⟩ := Forall₂.exists_of_mem hvs.flip hv'
    rw [hlinked.same]
    exact hpacks.kind v hv
  have haccepted : ∀ v' ∈ vs', ∃ p, v'.destination t.domain target = .ok p := fun v' hv' => by
    obtain ⟨v, hv, hlinked⟩ := Forall₂.exists_of_mem hvs.flip hv'
    exact hpacks.accepted he hs hheap.typed hsuits hv hlinked
  obtain ⟨d, happly, hwritten, hsame, hothers⟩ := Transfer.apply_accepted hfields haccepted
  obtain ⟨links, hle, hrel, hmirrors⟩ : ∃ links, w.links ≤ links ∧ Option.Rel links e.receiver target ∧
      Heap.Mirrors e.veil {} links s.domain.heap d.heap := by
    generalize hx : e.receiver = x at hreceives
    cases hreceives with
    | none => exact ⟨w.links, le_rfl, .none, hheap.extended fun r o ho => (hothers r (fun h => nomatch h)).trans ho⟩
    | @some r r' o o' ho htype ho' htype' hr hr' =>
      obtain ⟨p, hp, hptype⟩ := Option.map_eq_some_iff.mp ((hwritten.conforms.objects r').trans (by rw [ho', Option.map_some]))
      have hop := hpacks.written_object hvs hwritten hx rfl ho hp (htype.trans (htype'.symm.trans hptype.symm))
      obtain ⟨links, hle, hlinked, hmirrors⟩ := hheap.enlink hr hr' (fun b hb => hothers b fun h => hb (Option.some.inj h).symm)
        ho hp fun _ hle => hop.mono hle
      exact ⟨links, hle, .some hlinked, hmirrors⟩
  refine ⟨d, ⟨links, w.modules⟩, happly, ⟨hle, fun _ h => h⟩, hrel, hmirrors, ?_⟩
  exact {
    home := hs.home
    complete := hs.complete
    away := hs.away.congr (by rw [hsame.same]) (by rw [hsame.same]) (by rw [hsame.same]) hsame.stores
    held := fun m hm hheld => (hsame.module? m.name).symm ▸ hs.held m hm hheld
    root := hs.root
    statics := fun type name v (hshares : type = e.type ∧ e.Shares name) hv => by
      obtain ⟨rfl, hshares⟩ := hshares
      obtain ⟨y, hy, hlinked⟩ := hpacks.written_static hvs hwritten hshares hv
      exact ⟨y, hy, hlinked.mono hle⟩
    depth := hs.depth
    depth' := hsame.maxDepth.trans hs.depth'
    keeps := hs.keeps
    receiver := fun r hr => by
      rw [hr] at hreceives hrel
      cases hreceives with
      | @some _ r' _ _ _ _ ho' htype' =>
        cases hrel with
        | some hlinked =>
          have hp := hwritten.conforms.objects r'
          rw [ho', Option.map_some] at hp
          obtain ⟨p, hp, hptype⟩ := Option.map_eq_some_iff.mp hp
          exact ⟨r', p, hlinked, hp, hptype.trans htype'⟩ }

/-! ## What comes back -/

/-- At the end of the run the receiver is still of its type. -/
theorem suits_end (hs : e.standIn.Holds w s t) {target : Option Ref} (hrel : Option.Rel w.links e.receiver target) :
    e.Suits t target := by
  have hrest : e.Abroad w s t := hs.rest
  generalize hx : e.receiver = x at hrel
  cases hrel with
  | none =>
    refine ⟨by rw [hx], ?_⟩
    rintro _ ⟨⟩
  | @some r r' hr =>
    refine ⟨by rw [hx]; rfl, ?_⟩
    rintro _ ⟨⟩
    obtain ⟨r', o, hlinked, ho, htype⟩ := hrest.receiver r hx
    rw [hs.heap.functional hr hlinked, Heap.typeOf, ho, Option.map_some, Option.getD_some, htype]

/-- What a member that went along holds at home is held elsewhere as well. -/
theorem Packs.linked_at (hpacks : e.Packs s₀ vs) (hs : e.standIn.Holds w s t) {target : Option Ref}
    (hrel : Option.Rel w.links e.receiver target) {v : Variable Value} (hv : v ∈ vs) {p q : Slot}
    (hp : v.slot? e.receiver = some p) (hq : v.slot? target = some q) {x : Value} (hx : s.domain.at? p = some x) :
    ∃ y, t.domain.at? q = some y ∧ Value.Linked w.links x y := by
  have hrest : e.Abroad w s t := hs.rest
  obtain ⟨f, hf, hfstatic⟩ := hpacks.declared v hv
  cases hstatic : v.isStatic with
  | true =>
    rw [Variable.slot?, hstatic, if_pos rfl, hpacks.owner v hv] at hp hq
    cases hp
    cases hq
    exact hrest.statics _ _ x ⟨rfl, hpacks.named v hv, f, hf, hfstatic.trans hstatic⟩ hx
  | false =>
    rw [Variable.slot?, hstatic, if_neg Bool.false_ne_true] at hp hq
    obtain ⟨r, hr, rfl⟩ := Option.map_eq_some_iff.mp hp
    obtain ⟨r', rfl, rfl⟩ := Option.map_eq_some_iff.mp hq
    rw [hr] at hrel
    cases hrel with
    | some hlinked =>
      have hshown : ¬e.veil r v.name := fun h => h.2 ⟨hpacks.named v hv, f, hf, hfstatic.trans hstatic⟩
      have hfield := hs.heap.field? hlinked hshown
      rw [show s.domain.heap.field? r v.name = some x from hx] at hfield
      generalize hy : t.domain.heap.field? r' v.name = y at hfield
      cases hfield with
      | some hxy => exact ⟨_, hy, hxy⟩

/-- After the run the variables are read again. What they come back with is what the members hold at home. -/
theorem Packs.fetch (hpacks : e.Packs s₀ vs) (he : e.Prepared) (hs : e.standIn.Holds w s t) {target : Option Ref}
    (hrel : Option.Rel w.links e.receiver target) (hvs : List.Forall₂ (fun v v' => v' = v.withValue v'.value) vs vs')
    (hends : ∀ v ∈ vs, ∀ p, v.slot? e.receiver = some p → ∃ x d, s.domain.at? p = some x ∧
      s.domain.heap.snapshot x = some d ∧ s.domain.heap.Clear e.veil x) :
    ∃ ws, (∀ (host : Host ω) run, Transfer.refresh host run target vs' t = some (.ok (ws, .ok ()), t)) ∧
      List.Forall₂ (e.Returns s t.domain.heap) vs ws := by
  have hrest : e.Abroad w s t := hs.rest
  have hsuits : e.Suits t target := suits_end hs hrel
  have hread : ∀ v ∈ vs, ∀ v', v' = v.withValue v'.value → ∃ u, v'.read t.domain target = .ok u ∧ e.Returns s t.domain.heap v u := by
    intro v hv v' hsame
    obtain ⟨hdeclared, q, hq⟩ := hpacks.locate he hrest.toSettled hsuits hv hsame
    obtain ⟨p, hp, _⟩ := hpacks.value v hv
    obtain ⟨x, d, hx, hd, hclear⟩ := hends v hv p hp
    have hq' : v.slot? target = some q := by
      rw [← Variable.slot?_of_locate hq, hsame]
      rfl
    obtain ⟨y, hy, hlinked⟩ := hpacks.linked_at hs hrel hv hp hq' hx
    have hvalueAt : v'.valueAt t.domain q = .ok y := by
      unfold Variable.valueAt
      rw [hy]
      rfl
    refine ⟨v'.withValue y, Except.bind_eq_ok.mpr ⟨q, Except.bind_eq_ok.mpr ⟨_, hdeclared, hq⟩,
      Except.bind_eq_ok.mpr ⟨y, hvalueAt, rfl⟩⟩, ?_, p, x, d, hp, hx, hd, hs.heap.snapshot hlinked hclear hd⟩
    rw [hsame]
    rfl
  have hfields : ∀ v' ∈ vs', v'.kind = .field := fun v' hv' => by
    obtain ⟨v, hv, hsame⟩ := Forall₂.exists_of_mem hvs.flip hv'
    rw [hsame]
    exact hpacks.kind v hv
  obtain ⟨ws, hws, hreturns⟩ := forall₂_through hvs hread
  exact ⟨ws, fun host run => Transfer.refresh_read host run hfields hws, hreturns⟩

end Outing
end
end MobileCode
