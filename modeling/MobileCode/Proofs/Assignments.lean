import MobileCode.Execution.Machine
import MobileCode.Proofs.Slots
import MobileCode.Proofs.Transfers

/-! # What applied state leaves behind

A value is checked against the type that its variable names, not against the declaration of the field. So the fields
that were written have values of their declared types where the variables name these types. State that was captured
and is applied again leaves the members as they are, as far as the setters do when they are given what their getters
returned.
-/
namespace MobileCode

/-! ## Declared types -/

namespace Domain

/-- The type that the loaded definition declares for a field. -/
def fieldType? (d : Domain) (type name : String) : Option String :=
  (d.type? type).bind fun t => (t.decl.field? name).map (·.type)

def declaredAt? (d : Domain) : Slot → Option String
  | .field r name => d.fieldType? (d.heap.typeOf r) name
  | .static type name => d.fieldType? type name

variable {d e : Domain}

theorem Conforms.fieldType? (h : d.Conforms e) (type name : String) :
    e.fieldType? type name = d.fieldType? type name := by
  unfold Domain.fieldType?
  rw [h.type?]

theorem Conforms.declaredAt? (h : d.Conforms e) (p : Slot) : e.declaredAt? p = d.declaredAt? p := by
  cases p with
  | field r name => simp only [Domain.declaredAt?, h.typeOf, h.fieldType?]
  | static type name => exact h.fieldType? type name

end Domain

namespace Variable
variable {v : Variable Value} {d : Domain} {target : Option Ref} {p : Slot}

theorem fits_eq_ok (h : v.fits d = .ok ()) : d.heap.matchesType v.value v.type = true := by
  unfold fits at h
  split at h
  · assumption
  · cases h

/-- A variable that can be read names a field that is declared. -/
theorem declaredAt?_of_source (h : v.source d target = .ok p) :
    d.declaredAt? p = d.fieldType? v.owner v.name ∧ ∃ declared, d.fieldType? v.owner v.name = some declared := by
  obtain ⟨_, hdeclared, hlocate⟩ := Except.bind_eq_ok.mp h
  obtain ⟨_, owner, htype, hfield⟩ := declared_eq_ok hdeclared
  obtain ⟨f, hf, _⟩ := (Option.any_eq_true _ _).mp hfield
  refine ⟨?_, f.type, ?_⟩
  · obtain ⟨-, -, rfl⟩ | ⟨-, r, -, hr, rfl⟩ := locate_eq_ok hlocate
    · rfl
    · rw [Domain.declaredAt?, hr]
  · rw [Domain.fieldType?, htype, Option.bind_some, hf]
    rfl

end Variable

namespace Transfer
variable {ω : Type} {host : Host ω} {run : Runner ω} {target : Option Ref} {s : State ω}

/-- The variable names the type that the loaded definition declares for its field. -/
def Named (d : Domain) (v : Variable Value) : Prop :=
  ∀ declared, d.fieldType? v.owner v.name = some declared → v.type = declared

/-- The last variable that was written to a slot fits the declaration of the slot. -/
theorem Written.wellTyped {done : List (Variable Value)} {d e : Domain} (h : Written target done d e)
    (hfields : ∀ v ∈ done, v.kind = .field) (hnamed : ∀ v ∈ done, Named d v) {v : Variable Value} (hv : v ∈ done) :
    ∃ p x declared, v.slot? target = some p ∧ e.at? p = some x ∧ e.declaredAt? p = some declared ∧
      e.heap.matchesType x declared = true := by
  obtain ⟨p, hp⟩ := h.accepted v hv
  have hsource := (Variable.destination_eq_ok hp).2
  obtain ⟨hdeclaredAt, declared, hdeclared⟩ := Variable.declaredAt?_of_source hsource
  have hslot := (Variable.source_eq_ok (hfields v hv) hsource).2
  obtain ⟨x, hx⟩ := Option.isSome_iff_exists.mp (lastAt?_isSome hv hslot)
  obtain ⟨w, hw, hwslot, rfl⟩ := lastAt?_eq_some hx
  obtain ⟨q, hq⟩ := h.accepted w hw
  obtain ⟨hfits, hwsource⟩ := Variable.destination_eq_ok hq
  cases (Variable.source_eq_ok (hfields w hw) hwsource).2.symm.trans hwslot
  have hsame : d.fieldType? w.owner w.name = some declared :=
    (Variable.declaredAt?_of_source hwsource).1.symm.trans (hdeclaredAt.trans hdeclared)
  refine ⟨p, w.value, declared, hslot, ?_, ?_, ?_⟩
  · rw [h.at?, hx, Option.some_or]
  · rw [h.conforms.declaredAt?, hdeclaredAt, hdeclared]
  · rw [h.conforms.matchesType, ← hnamed w hw declared hsame]
    exact Variable.fits_eq_ok hfits

/-- Where field variables name the types that the fields are declared with, every field that is written ends with a
value of its declared type, and a variable with any other value is refused. -/
theorem apply_wellTyped (host : Host ω) (run : Runner ω) (target : Option Ref) (s : State ω)
    {vs : List (Variable Value)} (hfields : ∀ v ∈ vs, v.kind = .field) (hnamed : ∀ v ∈ vs, Named s.domain v) :
    ∃ done rest r e, vs = done ++ rest ∧ apply host run target vs s = some (r, { s with domain := e }) ∧
      (rest = [] ∧ r = .ok () ∨ ∃ v after refusal, rest = v :: after ∧
        v.copyTo host run target s = some (.error refusal, s) ∧ r = .error refusal) ∧
      (∀ p, e.at? p = (lastAt? target done p).or (s.domain.at? p)) ∧
      (∀ v ∈ done, ∃ p x declared, v.slot? target = some p ∧ e.at? p = some x ∧ e.declaredAt? p = some declared ∧
        e.heap.matchesType x declared = true) ∧
      ∀ v ∈ vs, ∀ declared, s.domain.fieldType? v.owner v.name = some declared →
        s.domain.heap.matchesType v.value declared = false →
          v ∉ done ∧ (∃ refusal, v.copyTo host run target s = some (.error refusal, s)) ∧
            ∃ refusal, r = .error refusal := by
  obtain ⟨done, rest, r, e, rfl, happly, hwritten, hend⟩ := apply_fields host run target hfields s
  obtain ⟨hdone, hrest⟩ := List.forall_mem_append.mp hfields
  have hrefused {v : Variable Value} {refusal : Error} (hkind : v.kind = .field)
      (h : v.destination s.domain target = .error refusal) :
      v.copyTo host run target s = some (.error refusal, s) := by
    rw [Variable.copyTo_field host run s hkind, h]
  refine ⟨done, rest, r, e, rfl, happly, hend.imp_right ?_, hwritten.at?, fun v hv => ?_, ?_⟩
  · rintro ⟨v, after, refusal, rfl, hv, rfl⟩
    exact ⟨v, after, refusal, rfl, hrefused (hrest v List.mem_cons_self) hv, rfl⟩
  · exact hwritten.wellTyped hdone (fun w hw => hnamed w (List.mem_append_left _ hw)) hv
  intro v hv declared hdeclared hmismatch
  have hunfit : ∀ p, v.destination s.domain target ≠ .ok p := by
    intro p hp
    have hfits := Variable.fits_eq_ok (Variable.destination_eq_ok hp).1
    rw [hnamed v hv declared hdeclared, hmismatch] at hfits
    cases hfits
  have hnot : v ∉ done := fun hmem => (hwritten.accepted v hmem).elim hunfit
  refine ⟨hnot, ?_, ?_⟩
  · cases hdestination : v.destination s.domain target with
    | ok p => exact absurd hdestination (hunfit p)
    | error refusal => exact ⟨refusal, hrefused (hfields v hv) hdestination⟩
  · obtain ⟨rfl, _⟩ | ⟨w, after, refusal, _, _, rfl⟩ := hend
    · exact absurd ((List.mem_append.mp hv).resolve_right List.not_mem_nil) hnot
    · exact ⟨refusal, rfl⟩

end Transfer

/-- A module with a property over a field; the setter may do more than store what it is given. -/
def dial (more : List (Instruction Datum)) : Module Datum where
  name := "Dial"
  types := [{
    space := "Ops"
    name := "Dial"
    fields := [⟨"level", TypeName.int32, .none, some (.int32 1)⟩]
    properties := [⟨"Level", TypeName.int32, .none, some "get_Level", some "set_Level"⟩]
    methods := [
      { name := constructorName, flags := MethodFlags.constructor, body := [.ret] },
      { name := "get_Level", flags := MethodFlags.getter, returns := some TypeName.int32,
        body := [.loadThis, .loadField ⟨⟨none, "Ops.Dial"⟩, "level"⟩, .ret] },
      { name := "set_Level", flags := MethodFlags.setter, params := [⟨"value", TypeName.int32, none⟩],
        body := [.loadThis, .loadArg 0] ++ more ++ [.storeField ⟨⟨none, "Ops.Dial"⟩, "level"⟩, .ret] }] }]

namespace dial

def host : Host Unit := { thread := none, natives := Native.standard none }
def run : Runner Unit := Machine.runner { host } 8

/-- An object of the type. -/
def object : Object := ⟨"Ops.Dial", [("level", .int32 1)]⟩

/-- The field as a variable. -/
def level (x : Value) : Variable Value := ⟨.field, "level", "Ops.Dial", TypeName.int32, x, false⟩

/-- The property as a variable. -/
def setting (x : Value) : Variable Value := ⟨.property, "Level", "Ops.Dial", TypeName.int32, x, false⟩

end dial

open Transfer dial in
theorem dial_overfilled : ∃ l d r s e refusal, Domain.register { hostName := "client" } (dial []) [] none = .ok (l, d) ∧
    State.alloc object ⟨d, ()⟩ = some (.ok r, s) ∧
    apply host run (some r) [level (.int32 7), level (.text "full")] s = some (.error refusal, { s with domain := e }) ∧
    ∃ refusal, (level (.text "full")).copyTo host run (some r) s = some (.error refusal, s) := by
  obtain ⟨l, d, r, s, hd, hs, hdeclared, hmismatch⟩ : ∃ l d r s,
      Domain.register { hostName := "client" } (dial []) [] none = .ok (l, d) ∧
      State.alloc object ⟨d, ()⟩ = some (.ok r, s) ∧
      s.domain.fieldType? "Ops.Dial" "level" = some TypeName.int32 ∧
      s.domain.heap.matchesType (.text "full") TypeName.int32 = false := ⟨_, _, _, _, rfl, rfl, rfl, rfl⟩
  have hnamed (x : Value) : Named s.domain (level x) := fun declared h => Option.some.inj (hdeclared.symm.trans h)
  have hfields : ∀ v ∈ [level (.int32 7), level (.text "full")], v.kind = .field := by simp [level]
  obtain ⟨done, rest, r', e, -, happly, -, -, -, hrefused⟩ :=
    apply_wellTyped host run (some r) s hfields (by simp [hnamed])
  obtain ⟨-, hcopy, refusal, rfl⟩ := hrefused (level (.text "full")) (by simp) TypeName.int32 hdeclared hmismatch
  exact ⟨l, d, r, s, e, refusal, hd, hs, happly, hcopy⟩

/-! ## Captured state -/

/-- Both states have the same fields of the receiver and the same static fields of the type. -/
structure State.SameMembers {ω : Type} (type : String) (receiver : Option Ref) (s t : State ω) : Prop where
  fields : ∀ r ∈ receiver, ∀ name, t.domain.at? (.field r name) = s.domain.at? (.field r name)
  statics : ∀ name, t.domain.at? (.static type name) = s.domain.at? (.static type name)

namespace State.SameMembers
variable {ω : Type} {type : String} {receiver : Option Ref} {s t u : State ω}

theorem of_at? (h : ∀ p, t.domain.at? p = s.domain.at? p) : SameMembers type receiver s t :=
  ⟨fun r _ name => h (.field r name), fun name => h (.static type name)⟩

theorem trans (h : SameMembers type receiver s t) (h' : SameMembers type receiver t u) :
    SameMembers type receiver s u :=
  ⟨fun r hr name => (h'.fields r hr name).trans (h.fields r hr name),
    fun name => (h'.statics name).trans (h.statics name)⟩

/-- The slots of a type's variables are among these members. -/
theorem at? (h : SameMembers type receiver s t) {v : Variable Value} (howner : v.owner = type) {p : Slot}
    (hp : v.slot? receiver = some p) : t.domain.at? p = s.domain.at? p := by
  unfold Variable.slot? at hp
  split at hp
  · cases hp
    exact howner ▸ h.statics v.name
  · obtain ⟨r, hr, rfl⟩ := Option.map_eq_some_iff.mp hp
    exact h.fields r hr v.name

end State.SameMembers

/-- If every element leaves the state as it is, so does the list. -/
theorem Run.mapM_ensures_same {σ α β : Type} {f : α → Run σ β} {P : β → Prop} (xs : List α) {s : σ}
    (h : ∀ x ∈ xs, (f x).Ensures s fun b t => t = s ∧ P b) :
    (xs.mapM f).Ensures s fun bs t => t = s ∧ ∀ b ∈ bs, P b := by
  induction xs with
  | nil => exact .pure (by simp)
  | cons x xs ih =>
    obtain ⟨hx, hxs⟩ := List.forall_mem_cons.mp h
    rw [List.mapM_cons]
    refine hx.bind ?_
    rintro b _ ⟨rfl, hb⟩
    refine (ih hxs).bind ?_
    rintro bs _ ⟨rfl, hbs⟩
    exact .pure ⟨rfl, List.forall_mem_cons.mpr ⟨hb, hbs⟩⟩

namespace Transfer
variable {ω : Type} {host : Host ω} {run : Runner ω} {type : String} {closure : Closure} {receiver : Option Ref}
  {s t u : State ω} {vs : List (Variable Value)}

/-- A property, or a field with the value that the domain has for it. -/
def Captured (type : String) (receiver : Option Ref) (d : Domain) (v : Variable Value) : Prop :=
  v.kind = .property ∨ v.kind = .field ∧ v.owner = type ∧ ∃ p, v.slot? receiver = some p ∧ d.at? p = some v.value

theorem captureField_captured {owner : TypeHandle} {id : MemberId} (hid : id.type = type) :
    (captureField host run owner receiver id).Ensures s fun found t =>
      t = s ∧ ∀ v ∈ found, Captured type receiver s.domain v := by
  unfold captureField
  split
  · exact .throw
  rename_i d _
  split
  · exact .pure (by simp)
  have hread : (Variable.copyFrom host run ⟨.field, d.name, id.type, d.type, .null, d.isStatic⟩ receiver).Ensures s
      fun w t => t = s ∧ Captured type receiver s.domain w := by
    intro w t hw
    rw [Variable.copyFrom_field host run s rfl] at hw
    generalize hr : Variable.read _ s.domain receiver = r at hw
    cases hw
    obtain ⟨hvalue, hsame⟩ := readBack_of_read rfl hr
    refine ⟨rfl, .inr ?_⟩
    rw [hsame]
    exact ⟨rfl, hid, hvalue⟩
  refine hread.bind ?_
  rintro w _ ⟨rfl, hw⟩
  exact .pure ⟨rfl, fun v hv => Option.some.inj hv ▸ hw⟩

theorem captureProperty_kind {owner : TypeHandle} {id : MemberId} :
    (captureProperty host run owner receiver id).Ensures s fun found _ => ∀ v ∈ found, v.kind = .property := by
  unfold captureProperty
  split
  · exact .throw
  split
  · exact .pure (by simp)
  · refine unlessUnavailable_ensures ?_
    unfold Variable.copyFrom
    exact .after fun _ _ => .after fun _ _ => .pure rfl

theorem capture_captured : (capture host run type closure receiver).Ensures s fun vs _ =>
    ∀ v ∈ vs, Captured type receiver s.domain v := by
  unfold capture
  have howner : (host.resolveLocal type).Ensures s fun _ t => t = s := by
    intro owner t h
    rw [Host.resolveLocal_apply] at h
    exact (Prod.mk.inj (Option.some.inj h)).2.symm
  refine howner.bind ?_
  rintro owner _ rfl
  have hfield (t : State ω) : ∀ id ∈ closure.fields.filter (·.type = type),
      (captureField host run owner receiver id).Ensures t fun found u => u = t ∧ ∀ v ∈ found, Captured type receiver t.domain v :=
    fun id hid => captureField_captured (of_decide_eq_true (List.mem_filter.mp hid).2)
  refine (Run.mapM_ensures_same _ (hfield _)).bind ?_
  rintro fields _ ⟨rfl, hfields⟩
  refine (Run.mapM_ensures _ fun id _ _ => captureProperty_kind).bind fun properties _ hproperties => .pure ?_
  intro v hv
  obtain ⟨found, hfound, hsome⟩ := List.mem_filterMap.mp hv
  rcases List.mem_append.mp hfound with hfound | hfound
  · exact hfields found hfound v hsome
  · exact .inl (hproperties found hfound v hsome)

theorem apply_append (host : Host ω) (run : Runner ω) (target : Option Ref) (vs ws : List (Variable Value)) :
    apply host run target (vs ++ ws) = apply host run target vs >>= fun _ => apply host run target ws := by
  induction vs with
  | nil => rfl
  | cons v vs ih => simp only [List.cons_append, apply, ih, bind_assoc]

/-- What is written on is what was written. -/
theorem unlessUnavailable_eq_ok {α : Type} {x : Run (State ω) α} {found : Option α}
    (h : unlessUnavailable x s = some (.ok found, t)) : ∃ r, x s = some (r, t) := by
  rw [unlessUnavailable_apply] at h
  rcases hx : x s with _ | ⟨e | a, y⟩
  · rw [hx] at h
    cases h
  · rw [hx] at h
    cases e <;> cases h
    exact ⟨_, rfl⟩
  · rw [hx] at h
    cases h
    exact ⟨_, rfl⟩

/-- To write a field with the value that it has changes no member. -/
theorem copyTo_captured {v : Variable Value} (hv : Captured type receiver s.domain v) (hkind : v.kind = .field)
    (hsame : State.SameMembers type receiver s t) {found : Option Unit}
    (h : unlessUnavailable (v.copyTo host run receiver) t = some (.ok found, u)) :
    State.SameMembers type receiver t u := by
  obtain ⟨_, howner, q, hq, hvalue⟩ := hv.resolve_left (by rw [hkind]; nofun)
  obtain ⟨r, hr⟩ := unlessUnavailable_eq_ok h
  rw [Variable.copyTo_field host run t hkind] at hr
  cases hdestination : v.destination t.domain receiver with
  | error refusal =>
    rw [hdestination] at hr
    cases hr
    exact .of_at? fun _ => rfl
  | ok p =>
    rw [hdestination] at hr
    cases hr
    obtain ⟨hoffers, hp⟩ := Variable.source_eq_ok hkind (Variable.destination_eq_ok hdestination).2
    cases hp.symm.trans hq
    exact .of_at? (Domain.at?_put_self hoffers ((hsame.at? howner hp).trans hvalue))

/-- State that was captured and is applied again leaves the members as they were, if the getters did and if the setters
do with what the getters returned. -/
theorem apply_captured (hcapture : capture host run type closure receiver s = some (.ok vs, t))
    (hgetters : State.SameMembers type receiver s t)
    (hsetters : ∀ before v after x r y, vs = before ++ v :: after → v.kind = .property →
      apply host run receiver before t = some (.ok (), x) → v.copyTo host run receiver x = some (r, y) →
        State.SameMembers type receiver x y)
    (happly : apply host run receiver vs t = some (.ok (), u)) : State.SameMembers type receiver s u := by
  have hcaptured := capture_captured vs t hcapture
  -- The variables in front have been written, and the members are still the same.
  have hfrom (before after : List (Variable Value)) (hvs : vs = before ++ after) {x : State ω}
      (hbefore : apply host run receiver before t = some (.ok (), x)) (hsame : State.SameMembers type receiver s x)
      (hafter : apply host run receiver after x = some (.ok (), u)) : State.SameMembers type receiver s u := by
    induction after generalizing before x with
    | nil =>
      cases hafter
      exact hsame
    | cons v after ih =>
      obtain ⟨found, y, hv, hafter⟩ := Run.bind_eq_ok.mp hafter
      obtain ⟨r, hr⟩ := unlessUnavailable_eq_ok hv
      refine ih (before ++ [v]) (by rw [hvs, List.append_assoc, List.singleton_append]) ?_ (hsame.trans ?_) hafter
      · rw [apply_append, Run.bind_apply, hbefore]
        exact Run.bind_eq_ok.mpr ⟨found, y, hv, rfl⟩
      · have hmem := hcaptured v (hvs ▸ List.mem_append_right _ List.mem_cons_self)
        by_cases hkind : v.kind = .property
        · exact hsetters before v after x r y hvs hkind hbefore hr
        · exact copyTo_captured hmem (hmem.resolve_left hkind).1 hsame hv
  exact hfrom [] vs rfl rfl hgetters happly

end Transfer
open Transfer dial in
/-- The setter stores one more than its getter returned. -/
theorem dial_turned : ∃ l d r s vs u,
    Domain.register { hostName := "client" } (dial [.const (.int32 1), .binary .add]) [] none = .ok (l, d) ∧
    State.alloc object ⟨d, ()⟩ = some (.ok r, s) ∧
    s.domain.declaredAt? (.field r "level") = some TypeName.int32 ∧
    s.domain.heap.matchesType (.int32 1) TypeName.int32 = true ∧
    capture host run "Ops.Dial" { properties := [⟨"Ops.Dial", "Level"⟩] } (some r) s = some (.ok vs, s) ∧
    apply host run (some r) vs s = some (.ok (), u) ∧ ¬State.SameMembers "Ops.Dial" (some r) s u := by
  obtain ⟨l, d, r, s, vs, u, hd, hs, htype, hmatches, hcapture, happly, hbefore, hafter⟩ : ∃ l d r s vs u,
      Domain.register { hostName := "client" } (dial [.const (.int32 1), .binary .add]) [] none = .ok (l, d) ∧
      State.alloc object ⟨d, ()⟩ = some (.ok r, s) ∧
      s.domain.declaredAt? (.field r "level") = some TypeName.int32 ∧
      s.domain.heap.matchesType (.int32 1) TypeName.int32 = true ∧
      capture host run "Ops.Dial" { properties := [⟨"Ops.Dial", "Level"⟩] } (some r) s = some (.ok vs, s) ∧
      apply host run (some r) vs s = some (.ok (), u) ∧
      s.domain.at? (.field r "level") = some (.int32 1) ∧ u.domain.at? (.field r "level") = some (.int32 2) :=
    ⟨_, _, _, _, _, _, rfl, rfl, rfl, rfl, rfl, rfl, rfl, rfl⟩
  refine ⟨l, d, r, s, vs, u, hd, hs, htype, hmatches, hcapture, happly, fun hsame => ?_⟩
  have hkept := hsame.fields r rfl "level"
  rw [hbefore, hafter] at hkept
  exact absurd (Value.int32.inj (Option.some.inj hkept)) (by decide)

open Transfer dial in
theorem dial_kept : ∃ l d r s vs u, Domain.register { hostName := "client" } (dial []) [] none = .ok (l, d) ∧
    State.alloc object ⟨d, ()⟩ = some (.ok r, s) ∧
    capture host run "Ops.Dial" { fields := [⟨"Ops.Dial", "level"⟩], properties := [⟨"Ops.Dial", "Level"⟩] }
      (some r) s = some (.ok vs, s) ∧
    apply host run (some r) vs s = some (.ok (), u) ∧ State.SameMembers "Ops.Dial" (some r) s u := by
  obtain ⟨l, d, r, s, x, u, hd, hs, hcapture, hbefore, hsetter, hsame, happly⟩ : ∃ l d r s x u,
      Domain.register { hostName := "client" } (dial []) [] none = .ok (l, d) ∧
      State.alloc object ⟨d, ()⟩ = some (.ok r, s) ∧
      capture host run "Ops.Dial" { fields := [⟨"Ops.Dial", "level"⟩], properties := [⟨"Ops.Dial", "Level"⟩] }
        (some r) s = some (.ok [level (.int32 1), setting (.int32 1)], s) ∧
      apply host run (some r) [level (.int32 1)] s = some (.ok (), x) ∧
      (setting (.int32 1)).copyTo host run (some r) x = some (.ok (), u) ∧
      (∀ p, u.domain.at? p = x.domain.at? p) ∧
      apply host run (some r) [level (.int32 1), setting (.int32 1)] s = some (.ok (), u) :=
    ⟨_, _, _, _, _, _, rfl, rfl, rfl, rfl, rfl, fun _ => rfl, rfl⟩
  refine ⟨l, d, r, s, _, u, hd, hs, hcapture, happly, ?_⟩
  refine apply_captured hcapture (.of_at? fun _ => rfl) ?_ happly
  intro before v after y res z hvs hkind hy hz
  match before, hvs with
  | [], hvs =>
    cases hvs
    cases hkind
  | [b], hvs =>
    cases hvs
    cases hbefore.symm.trans hy
    cases hsetter.symm.trans hz
    exact .of_at? hsame
  | _ :: _ :: before, hvs => simp at hvs

end MobileCode
