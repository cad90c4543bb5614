import MobileCode.Execution.Transfer
import MobileCode.Proofs.Calls

/-! # Slots

A field variable is read and written at a slot: a field of the object that it is copied against, or a static
field. All that can go wrong is found out on the domain before anything is written, and no write changes the
outcome. So a list of field variables is written up to the first one that is refused, and each slot then has the
last value that was written there.
-/
namespace MobileCode

inductive Slot
  | field (r : Ref) (name : String)
  | static (type name : String)
  deriving DecidableEq

namespace Domain
variable {d e f : Domain}

/-- The value at a slot. -/
def at? (d : Domain) : Slot → Option Value
  | .field r name => d.heap.field? r name
  | .static type name => (d.statics.find? type).bind (Dict.find? · name)

/-- The domain with another value at a slot. -/
def put (d : Domain) (x : Value) : Slot → Domain
  | .field r name => { d with heap := d.heap.setField r name x }
  | .static type name =>
    { d with statics := d.statics.insert type (((d.statics.find? type).getD []).insert name x) }

/-- The object is there, or the type has static fields. -/
def Offers (d : Domain) : Slot → Prop
  | .field r _ => (d.heap.get? r).isSome = true
  | .static type _ => (d.statics.find? type).isSome = true

theorem at?_put {p : Slot} (hp : d.Offers p) (x : Value) (q : Slot) :
    (d.put x p).at? q = if q = p then some x else d.at? q := by
  cases p with
  | field r name =>
    cases q with
    | static type other => rfl
    | field s other =>
      obtain ⟨o, ho⟩ := Option.isSome_iff_exists.mp hp
      simp only [at?, put, Heap.field?, Heap.get?_setField, Slot.field.injEq]
      by_cases hr : r = s
      · subst hr
        simp [ho, Dict.find?_insert]
      · simp [hr, Ne.symm hr]
  | static type name =>
    cases q with
    | field s other => rfl
    | static type' other =>
      obtain ⟨fields, hfields⟩ := Option.isSome_iff_exists.mp hp
      simp only [at?, put, Dict.find?_insert, Slot.static.injEq]
      by_cases ht : type' = type
      · subst ht
        simp [hfields, Dict.find?_insert]
      · simp [ht]

/-- To write what is there already changes no slot. -/
theorem at?_put_self {p : Slot} (hp : d.Offers p) {x : Value} (hx : d.at? p = some x) (q : Slot) :
    (d.put x p).at? q = d.at? q := by
  rw [at?_put hp]
  split
  · rename_i hq
    rw [hq, hx]
  · rfl

/-! ## What copying depends on -/

/-- The second domain has the same types, and objects and static fields of the same types. -/
structure Conforms (d e : Domain) : Prop where
  types : e.types = d.types
  objects : ∀ r, (e.heap.get? r).map (·.type) = (d.heap.get? r).map (·.type)
  statics : ∀ type, (e.statics.find? type).isSome = (d.statics.find? type).isSome

namespace Conforms

theorem refl (d : Domain) : d.Conforms d := ⟨rfl, fun _ => rfl, fun _ => rfl⟩

theorem trans (h : d.Conforms e) (h' : e.Conforms f) : d.Conforms f :=
  ⟨h'.types.trans h.types, fun r => (h'.objects r).trans (h.objects r), fun t => (h'.statics t).trans (h.statics t)⟩

variable (h : d.Conforms e)
include h

theorem type? (name : String) : e.type? name = d.type? name := by rw [Domain.type?, h.types, Domain.type?]

theorem typeOf (r : Ref) : e.heap.typeOf r = d.heap.typeOf r := by rw [Heap.typeOf, h.objects, Heap.typeOf]

theorem typeName (x : Value) : e.heap.typeName x = d.heap.typeName x := by
  cases x with
  | object r => exact h.typeOf r
  | _ => rfl

theorem matchesType (x : Value) (declared : String) :
    e.heap.matchesType x declared = d.heap.matchesType x declared := by
  cases x with
  | object r => simp only [Heap.matchesType, h.typeName]
  | _ => rfl

end Conforms

theorem conforms_put {p : Slot} (hp : d.Offers p) (x : Value) : d.Conforms (d.put x p) := by
  cases p with
  | field r name =>
    refine ⟨rfl, fun s => ?_, fun _ => rfl⟩
    simp only [put, Heap.get?_setField]
    split
    · cases d.heap.get? s <;> rfl
    · rfl
  | static type name =>
    refine ⟨rfl, fun _ => rfl, fun type' => ?_⟩
    simp only [put, Dict.find?_insert]
    split
    · rename_i ht
      rw [ht, Option.isSome_some]
      exact hp.symm
    · rfl

end Domain

/-! ## Checks -/

theorem Except.bind_eq_ok {α β : Type} {x : Except Error α} {f : α → Except Error β} {b : β} :
    (x >>= f) = .ok b ↔ ∃ a, x = .ok a ∧ f a = .ok b := by
  cases x with
  | error e => exact ⟨fun h => (nomatch h), fun ⟨_, h, _⟩ => nomatch h⟩
  | ok a => exact ⟨fun h => ⟨a, rfl, h⟩, fun ⟨_, ha, h⟩ => Except.ok.inj ha ▸ h⟩

theorem Except.bind_ne_error {α β : Type} {x : Except Error α} {f : α → Except Error β} {e : Error}
    (hx : x ≠ .error e) (hf : ∀ a, f a ≠ .error e) : (x >>= f) ≠ .error e := by
  cases x with
  | error e' =>
    rintro ⟨⟩
    exact hx rfl
  | ok a => exact hf a

/-- A type of no scope is not looked for elsewhere. -/
theorem Host.resolveLocal_apply {ω : Type} (host : Host ω) (type : String) (s : State ω) : host.resolveLocal type s =
    some (match s.domain.type? type with
      | some t => .ok t
      | none => .error (Host.typeMissing ⟨none, type⟩), s) := by
  unfold Host.resolveLocal Host.resolveType
  rw [Run.get_bind]
  cases s.domain.type? type <;> rfl

namespace Variable
variable (v : Variable Value) (d : Domain) (target : Option Ref)

/-- Where the variable is read and written. -/
def slot? : Option Slot :=
  if v.isStatic then some (.static v.owner v.name) else target.map (.field · v.name)

/-- Is the variable well-formed, and does its type declare the field? -/
def declared : Except Error Unit := do
  v.validate
  match d.type? v.owner with
  | none => throw (Host.typeMissing ⟨none, v.owner⟩)
  | some owner =>
    if (owner.decl.field? v.name).any (·.isStatic = v.isStatic) then return () else throw (v.undeclared owner)

/-- Has the value the type that the variable is declared with? -/
def fits : Except Error Unit :=
  if d.heap.matchesType v.value v.type then return ()
  else throw (.invalid (.unassignable (d.heap.typeName v.value) v.owner v.name v.type))

/-- The slot, if it is one of the type that declares the field. -/
def locate : Except Error Slot :=
  if v.isStatic then
    if (d.statics.find? v.owner).isSome then return .static v.owner v.name
    else throw (Host.staticMissing v.owner v.name)
  else
    match target with
    | none => throw (.invalid (.noTarget v.owner v.name))
    | some r =>
      if d.heap.typeOf r = v.owner then return .field r v.name
      else throw (.invalid (.foreignTarget v.owner v.name (d.heap.typeOf r)))

/-- The slot that a field variable is read from. -/
def source : Except Error Slot := do
  v.declared d
  v.locate d target

/-- The slot that a field variable is written to. -/
def destination : Except Error Slot := do
  v.declared d
  v.fits d
  v.locate d target

/-- What is read at a slot. -/
def valueAt (p : Slot) : Except Error Value :=
  match d.at? p with
  | some x => return x
  | none =>
    if v.isStatic then throw (Host.staticMissing v.owner v.name)
    else throw (.memberNotFound v.name v.owner (((d.moduleOf? v.owner).map (·.name)).getD ""))

/-- The variable with the value at its slot. -/
def read : Except Error (Variable Value) := do
  let p ← v.source d target
  return v.withValue (← v.valueAt d p)

variable {v d target}

theorem owner_ne_empty (hkind : v.kind = .field) (hv : v.validate = .ok ()) : v.owner ≠ "" := by
  intro howner
  unfold validate defect? at hv
  split at hv
  · rename_i hnone
    split at hnone
    · cases hnone
    split at hnone
    · cases hnone
    · simp [hkind, howner] at hnone
  · cases hv

/-- The slot is a static field of the type, or a field of a target that is an instance of it. -/
theorem locate_eq_ok {p : Slot} (h : v.locate d target = .ok p) :
    v.isStatic = true ∧ (d.statics.find? v.owner).isSome = true ∧ p = .static v.owner v.name ∨
      v.isStatic = false ∧ ∃ r, target = some r ∧ d.heap.typeOf r = v.owner ∧ p = .field r v.name := by
  unfold locate at h
  split at h
  · rename_i hstatic
    split at h
    · cases h
      exact .inl ⟨hstatic, ‹_›, rfl⟩
    · cases h
  · rename_i hstatic
    cases target with
    | none => cases h
    | some r =>
      simp only at h
      split at h
      · cases h
        exact .inr ⟨Bool.eq_false_iff.mpr hstatic, r, rfl, ‹_›, rfl⟩
      · cases h

/-- A slot that was found is there. -/
theorem offers_of_locate (howner : v.owner ≠ "") {p : Slot} (hp : v.locate d target = .ok p) : d.Offers p := by
  obtain ⟨-, hstatics, rfl⟩ | ⟨-, r, -, htype, rfl⟩ := locate_eq_ok hp
  · exact hstatics
  · refine Option.isSome_iff_ne_none.mpr fun hr => howner ?_
    rw [← htype, Heap.typeOf, hr]
    rfl

theorem slot?_of_locate {p : Slot} (hp : v.locate d target = .ok p) : v.slot? target = some p := by
  unfold slot?
  obtain ⟨hstatic, -, rfl⟩ | ⟨hstatic, r, rfl, -, rfl⟩ := locate_eq_ok hp
  · rw [if_pos hstatic]
  · rw [hstatic]
    rfl

/-! ### Checks come to the same while types stay -/

section
variable {e : Domain} (h : d.Conforms e)
include h

theorem declared_conforms : v.declared e = v.declared d := by unfold declared; rw [h.type?]

theorem fits_conforms : v.fits e = v.fits d := by unfold fits; rw [h.matchesType, h.typeName]

theorem locate_conforms : v.locate e target = v.locate d target := by
  unfold locate
  rw [h.statics]
  simp only [h.typeOf]

theorem destination_conforms : v.destination e target = v.destination d target := by
  unfold destination
  rw [declared_conforms h, fits_conforms h, locate_conforms h]

end

theorem declared_eq_ok (h : v.declared d = .ok ()) : v.validate = .ok () ∧ ∃ owner, d.type? v.owner = some owner ∧
    (owner.decl.field? v.name).any (·.isStatic = v.isStatic) = true := by
  obtain ⟨_, hv, h⟩ := Except.bind_eq_ok.mp h
  refine ⟨hv, ?_⟩
  split at h
  · cases h
  · rename_i owner htype
    split at h
    · exact ⟨owner, htype, ‹_›⟩
    · cases h

theorem source_eq_ok (hkind : v.kind = .field) {p : Slot} (h : v.source d target = .ok p) :
    d.Offers p ∧ v.slot? target = some p := by
  obtain ⟨_, hdeclared, hlocate⟩ := Except.bind_eq_ok.mp h
  have howner := owner_ne_empty hkind (declared_eq_ok hdeclared).1
  exact ⟨offers_of_locate howner hlocate, slot?_of_locate hlocate⟩

/-- A variable that can be written has a fitting value, and it can be read. -/
theorem destination_eq_ok {p : Slot} (h : v.destination d target = .ok p) :
    v.fits d = .ok () ∧ v.source d target = .ok p := by
  obtain ⟨_, hdeclared, h⟩ := Except.bind_eq_ok.mp h
  obtain ⟨_, hfits, hlocate⟩ := Except.bind_eq_ok.mp h
  exact ⟨hfits, Except.bind_eq_ok.mpr ⟨_, hdeclared, hlocate⟩⟩

/-! ### A refusal has nothing to do with accessors -/

section
variable (v d target) (name type : String)

theorem declared_ne_unavailable : v.declared d ≠ .error (.accessorUnavailable name type) := by
  unfold declared validate
  cases v.defect? with
  | some defect => exact fun h => nomatch h
  | none =>
    cases d.type? v.owner with
    | none => exact fun h => nomatch h
    | some owner =>
      show (if _ then _ else _ : Except Error Unit) ≠ _
      split <;> exact fun h => nomatch h

theorem fits_ne_unavailable : v.fits d ≠ .error (.accessorUnavailable name type) := by
  unfold fits
  split <;> exact fun h => nomatch h

theorem locate_ne_unavailable : v.locate d target ≠ .error (.accessorUnavailable name type) := by
  unfold locate
  split
  · split <;> exact fun h => nomatch h
  split
  · exact fun h => nomatch h
  · split <;> exact fun h => nomatch h

theorem valueAt_ne_unavailable (p : Slot) : v.valueAt d p ≠ .error (.accessorUnavailable name type) := by
  unfold valueAt
  split
  · exact fun h => nomatch h
  · split <;> exact fun h => nomatch h

theorem source_ne_unavailable : v.source d target ≠ .error (.accessorUnavailable name type) :=
  Except.bind_ne_error (declared_ne_unavailable v d name type) fun _ => locate_ne_unavailable v d target name type

theorem read_ne_unavailable : v.read d target ≠ .error (.accessorUnavailable name type) :=
  Except.bind_ne_error (source_ne_unavailable v d target name type) fun p =>
    Except.bind_ne_error (valueAt_ne_unavailable v d name type p) fun _ => nofun

theorem destination_ne_unavailable : v.destination d target ≠ .error (.accessorUnavailable name type) :=
  Except.bind_ne_error (declared_ne_unavailable v d name type) fun _ =>
    Except.bind_ne_error (fits_ne_unavailable v d name type) fun _ => locate_ne_unavailable v d target name type

end

/-! ### Copying is checking, then reading or writing -/

section
variable {ω : Type} (host : Host ω) (run : Runner ω) (s : State ω)

theorem declared_apply :
    (Run.ofExcept v.validate >>= fun _ => v.checkField host) s = some (v.declared s.domain, s) := by
  unfold declared checkField
  cases v.validate with
  | error e => rfl
  | ok _ =>
    rw [Run.ofExcept_ok, pure_bind, Run.bind_apply, Host.resolveLocal_apply]
    cases s.domain.type? v.owner with
    | none => rfl
    | some owner =>
      show (if _ then _ else _ : Run (State ω) Unit) s = some (if _ then _ else _, s)
      split <;> rfl

theorem checkValue_apply : v.checkValue s = some (v.fits s.domain, s) := by
  unfold checkValue fits State.getHeap
  simp only [bind_assoc, Run.get_bind, pure_bind]
  split <;> rfl

/-- The static fields of the type are at hand where it declares the field and the field is static. -/
theorem staticsWith_apply (hdeclared : v.declared s.domain = .ok ()) (hstatic : v.isStatic = true) :
    host.staticsWith v.owner v.name s = some (match s.domain.statics.find? v.owner with
      | some fields => .ok fields
      | none => .error (Host.staticMissing v.owner v.name), s) := by
  obtain ⟨_, owner, htype, hfield⟩ := declared_eq_ok hdeclared
  rw [hstatic] at hfield
  simp only [Bool.decide_eq_true] at hfield
  unfold Host.staticsWith
  rw [Run.bind_apply, Host.resolveLocal_apply, htype]
  simp only [hfield, if_true]
  rw [Run.get_bind]
  cases s.domain.statics.find? v.owner <;> rfl

theorem instance?_apply : v.instance? target s = some (
    if v.isStatic then .ok none
    else
      match target with
      | none => .error (.invalid (.noTarget v.owner v.name))
      | some r =>
        if s.domain.heap.typeOf r = v.owner then .ok (some r)
        else .error (.invalid (.foreignTarget v.owner v.name (s.domain.heap.typeOf r))), s) := by
  unfold instance?
  split
  · rfl
  cases target with
  | none => rfl
  | some r =>
    show (if _ then _ else _ : Run (State ω) (Option Ref)) s = some (if _ then _ else _, s)
    split <;> rfl

theorem write_apply (hdeclared : v.declared s.domain = .ok ()) : (v.instance? target >>= fun
      | some r => State.setField r v.name v.value
      | none => host.setStatic v.owner v.name v.value) s = some (match v.locate s.domain target with
    | .ok p => (.ok (), { s with domain := s.domain.put v.value p })
    | .error e => (.error e, s)) := by
  rw [Run.bind_apply, instance?_apply]
  unfold locate
  by_cases hstatic : v.isStatic = true
  · simp only [if_pos hstatic]
    unfold Host.setStatic
    rw [Run.bind_apply, staticsWith_apply _ _ hdeclared hstatic]
    cases hstatics : s.domain.statics.find? v.owner with
    | none => rfl
    | some fields =>
      simp only [Option.isSome_some, if_true, pure, Except.pure, Domain.put, hstatics]
      rfl
  · simp only [if_neg hstatic]
    cases target with
    | none => rfl
    | some r =>
      by_cases htype : s.domain.heap.typeOf r = v.owner
      · simp only [if_pos htype]
        rfl
      · simp only [if_neg htype]
        rfl

theorem readField_apply (hdeclared : v.declared s.domain = .ok ()) :
    v.readField host target s = some (v.locate s.domain target >>= v.valueAt s.domain, s) := by
  unfold readField
  rw [Run.bind_apply, instance?_apply]
  unfold locate
  by_cases hstatic : v.isStatic = true
  · simp only [if_pos hstatic]
    unfold Host.getStatic
    rw [Run.bind_apply, staticsWith_apply _ _ hdeclared hstatic]
    cases hstatics : s.domain.statics.find? v.owner with
    | none => rfl
    | some fields =>
      simp only [Option.isSome_some, if_true]
      show _ = some (v.valueAt s.domain (.static v.owner v.name), s)
      unfold valueAt Domain.at?
      simp only [hstatics, Option.bind_some, if_pos hstatic]
      cases Dict.find? fields v.name <;> rfl
  · simp only [if_neg hstatic]
    cases target with
    | none => rfl
    | some r =>
      by_cases htype : s.domain.heap.typeOf r = v.owner
      · simp only [if_pos htype, State.getHeap, bind_assoc, Run.get_bind, pure_bind]
        show _ = some (v.valueAt s.domain (.field r v.name), s)
        unfold valueAt Domain.at?
        simp only [if_neg hstatic]
        cases s.domain.heap.field? r v.name <;> rfl
      · simp only [if_neg htype]
        rfl

/-- A field variable is written to its slot, or refused. -/
theorem copyTo_field (hkind : v.kind = .field) :
    v.copyTo host run target s = some (match v.destination s.domain target with
    | .ok p => (.ok (), { s with domain := s.domain.put v.value p })
    | .error e => (.error e, s)) := by
  unfold copyTo destination
  simp only [hkind]
  rw [← bind_assoc, Run.bind_apply, declared_apply]
  cases hdeclared : v.declared s.domain with
  | error e => rfl
  | ok _ =>
    show (v.checkValue >>= _) s = some (match (v.fits s.domain >>= fun _ => v.locate s.domain target) with
      | .ok p => _
      | .error e => _)
    rw [Run.bind_apply, checkValue_apply]
    cases v.fits s.domain with
    | error e => rfl
    | ok _ => exact write_apply host s hdeclared

/-- A field variable gets the value at its slot, or is refused. Nothing changes. -/
theorem copyFrom_field (hkind : v.kind = .field) :
    v.copyFrom host run target s = some (v.read s.domain target, s) := by
  unfold copyFrom read source
  simp only [hkind]
  rw [← bind_assoc, Run.bind_apply, declared_apply]
  cases hdeclared : v.declared s.domain with
  | error e => rfl
  | ok _ =>
    show (v.readField host target >>= _) s =
      some (v.locate s.domain target >>= fun p => v.withValue <$> v.valueAt s.domain p, s)
    rw [Run.bind_apply, readField_apply host s hdeclared]
    cases v.locate s.domain target with
    | error e => rfl
    | ok p =>
      have hvalue : (Except.ok p >>= v.valueAt s.domain) = v.valueAt s.domain p := rfl
      rw [hvalue]
      show _ = some (v.withValue <$> v.valueAt s.domain p, s)
      cases v.valueAt s.domain p <;> rfl

end

end Variable

/-! ## Lists of field variables -/

namespace Transfer
variable {ω : Type} {host : Host ω} {run : Runner ω} {target : Option Ref} {d e f : Domain}

theorem unlessUnavailable_apply {α : Type} (x : Run (State ω) α) (s : State ω) : unlessUnavailable x s = match x s with
    | some (.ok y, t) => some (.ok (some y), t)
    | some (.error (.accessorUnavailable ..), t) => some (.ok none, t)
    | some (.error e, t) => some (.error e, t)
    | none => none := by
  unfold unlessUnavailable
  rw [Run.bind_apply]
  unfold Run.attempt
  rcases x s with _ | ⟨e | y, t⟩
  · rfl
  · cases e <;> rfl
  · rfl

/-- The last value that some variables have for a slot. -/
def lastAt? (target : Option Ref) : List (Variable Value) → Slot → Option Value
  | [], _ => none
  | v :: rest, p => (lastAt? target rest p).or (if v.slot? target = some p then some v.value else none)

theorem lastAt?_eq_some {vs : List (Variable Value)} {p : Slot} {x : Value} (h : lastAt? target vs p = some x) :
    ∃ v ∈ vs, v.slot? target = some p ∧ v.value = x := by
  induction vs with
  | nil => cases h
  | cons v rest ih =>
    rcases Option.or_eq_some_iff.mp h with hrest | ⟨-, hv⟩
    · obtain ⟨w, hw, hp⟩ := ih hrest
      exact ⟨w, List.mem_cons_of_mem _ hw, hp⟩
    · split at hv
      · exact ⟨v, List.mem_cons_self, ‹_›, Option.some.inj hv⟩
      · cases hv

theorem lastAt?_isSome {vs : List (Variable Value)} {v : Variable Value} (hv : v ∈ vs) {p : Slot}
    (hp : v.slot? target = some p) : (lastAt? target vs p).isSome = true := by
  induction vs with
  | nil => cases hv
  | cons w rest ih =>
    rw [lastAt?, Option.isSome_or]
    rcases List.mem_cons.mp hv with rfl | hv
    · rw [if_pos hp, Option.isSome_some, Bool.or_true]
    · rw [ih hv, Bool.true_or]

/-- The second domain comes of the first one when these variables are written, the last ones last. -/
structure Written (target : Option Ref) (vs : List (Variable Value)) (d e : Domain) : Prop where
  conforms : d.Conforms e
  accepted : ∀ v ∈ vs, ∃ p, v.destination d target = .ok p
  at? : ∀ p, e.at? p = (lastAt? target vs p).or (d.at? p)

namespace Written

theorem nil (d : Domain) : Written target [] d d := ⟨.refl d, by simp, fun _ => rfl⟩

theorem cons {v : Variable Value} {vs : List (Variable Value)} {p : Slot} (hkind : v.kind = .field)
    (hv : v.destination d target = .ok p) (h : Written target vs (d.put v.value p) e) :
    Written target (v :: vs) d e := by
  obtain ⟨hoffers, hslot⟩ := Variable.source_eq_ok hkind (Variable.destination_eq_ok hv).2
  have hput := Domain.conforms_put hoffers v.value
  refine ⟨hput.trans h.conforms, List.forall_mem_cons.mpr ⟨⟨p, hv⟩, fun w hw => ?_⟩, fun q => ?_⟩
  · rw [← Variable.destination_conforms hput]
    exact h.accepted w hw
  · rw [h.at?, Domain.at?_put hoffers, lastAt?, hslot, Option.or_assoc]
    simp only [Option.some.injEq, eq_comm (a := p)]
    congr 1
    split <;> rfl

end Written

/-- A refusal ends it. -/
theorem apply_refused (host : Host ω) (run : Runner ω) (target : Option Ref) (s : State ω) {v : Variable Value}
    (hkind : v.kind = .field) {refusal : Error} (hv : v.destination s.domain target = .error refusal)
    (after : List (Variable Value)) : apply host run target (v :: after) s = some (.error refusal, s) := by
  rw [apply, Run.bind_apply, unlessUnavailable_apply, Variable.copyTo_field host run s hkind, hv]
  cases refusal <;> first | rfl | exact absurd hv (Variable.destination_ne_unavailable _ _ _ _ _)

/-- Field variables are written up to the first one that is refused. -/
theorem apply_fields (host : Host ω) (run : Runner ω) (target : Option Ref) {vs : List (Variable Value)}
    (hfields : ∀ v ∈ vs, v.kind = .field) (s : State ω) :
    ∃ done rest r e, vs = done ++ rest ∧ apply host run target vs s = some (r, { s with domain := e }) ∧
      Written target done s.domain e ∧ (rest = [] ∧ r = .ok () ∨ ∃ v after refusal, rest = v :: after ∧
        v.destination s.domain target = .error refusal ∧ r = .error refusal) := by
  induction vs generalizing s with
  | nil => exact ⟨[], [], _, _, rfl, rfl, .nil _, .inl ⟨rfl, rfl⟩⟩
  | cons v vs ih =>
    obtain ⟨hkind, hfields⟩ := List.forall_mem_cons.mp hfields
    cases hv : v.destination s.domain target with
    | error refusal =>
      exact ⟨[], v :: vs, .error refusal, s.domain, rfl, apply_refused host run target s hkind hv vs, .nil _,
        .inr ⟨v, vs, refusal, rfl, hv, rfl⟩⟩
    | ok p =>
      rw [apply, Run.bind_apply, unlessUnavailable_apply, Variable.copyTo_field host run s hkind, hv]
      obtain ⟨hoffers, _⟩ := Variable.source_eq_ok hkind (Variable.destination_eq_ok hv).2
      obtain ⟨done, rest, r, e, rfl, hr, hwritten, hrest⟩ := ih hfields { s with domain := s.domain.put v.value p }
      refine ⟨v :: done, rest, r, e, rfl, hr, hwritten.cons hkind hv, hrest.imp_right ?_⟩
      rintro ⟨w, after, refusal, rfl, hw, rfl⟩
      exact ⟨w, after, refusal, rfl, Variable.destination_conforms (Domain.conforms_put hoffers v.value) ▸ hw, rfl⟩

/-- The second variable is the first one with the value at its slot. -/
structure ReadBack (target : Option Ref) (d : Domain) (v w : Variable Value) : Prop where
  value : ∃ p, v.slot? target = some p ∧ d.at? p = some w.value
  same : w = v.withValue w.value

theorem readBack_of_read {v w : Variable Value} (hkind : v.kind = .field) (h : v.read d target = .ok w) :
    ReadBack target d v w := by
  obtain ⟨p, hsource, h⟩ := Except.bind_eq_ok.mp h
  obtain ⟨x, hvalue, h⟩ := Except.bind_eq_ok.mp h
  cases h
  unfold Variable.valueAt at hvalue
  split at hvalue
  · cases hvalue
    exact ⟨⟨p, (Variable.source_eq_ok hkind hsource).2, ‹_›⟩, rfl⟩
  · split at hvalue <;> cases hvalue

/-- Field variables are read again without a change, up to the first one that is refused. -/
theorem refresh_fields (host : Host ω) (run : Runner ω) (target : Option Ref) {vs : List (Variable Value)}
    (hfields : ∀ v ∈ vs, v.kind = .field) (s : State ω) :
    ∃ ws outcome, refresh host run target vs s = some (.ok (ws, outcome), s) ∧
      (outcome = .ok () → List.Forall₂ (ReadBack target s.domain) vs ws) := by
  induction vs with
  | nil => exact ⟨[], _, rfl, fun _ => .nil⟩
  | cons v vs ih =>
    obtain ⟨hkind, hfields⟩ := List.forall_mem_cons.mp hfields
    obtain ⟨ws, outcome, hrefresh, hback⟩ := ih hfields
    have hcopy : v.copyFrom host run target s = some (v.read s.domain target, s) :=
      Variable.copyFrom_field host run s hkind
    rw [refresh, Run.bind_apply, Run.attempt, unlessUnavailable_apply, hcopy]
    cases hread : v.read s.domain target with
    | error e =>
      refine ⟨v :: vs, .error e, ?_, nofun⟩
      cases e <;> first | rfl | exact absurd hread (Variable.read_ne_unavailable _ _ _ _ _)
    | ok w =>
      refine ⟨w :: ws, outcome, ?_, fun h => .cons (readBack_of_read hkind hread) (hback h)⟩
      show (refresh host run target vs >>= _) s = _
      rw [Run.bind_apply, hrefresh]
      rfl

end Transfer
end MobileCode
