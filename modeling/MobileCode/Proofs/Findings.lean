import MobileCode.Proofs.Companions
import MobileCode.Proofs.Slots
import MobileCode.Proofs.StandIns

/-! # What two machines find

The first machine has the type that a reference means, and the second one finds it, perhaps only after it has loaded a
module. Then both come to the same static fields, methods and constructors of it.
-/
namespace MobileCode

/-! ## Static fields -/

namespace Host
variable {ω : Type} {host : Host ω} {s t : State ω} {type field : String} {o : TypeHandle} {v : Value}

/-- The type declares a static field of that name. -/
def Declares (o : TypeHandle) (field : String) : Prop := (o.decl.field? field).any (·.isStatic) = true

theorem staticsWith_found (h : s.domain.type? type = some o) : host.staticsWith type field s =
    some (if (o.decl.field? field).any (·.isStatic) then
      match s.domain.statics.find? type with
      | some fields => .ok fields
      | none => .error (staticMissing type field)
    else .error (staticMissing type field), s) := by
  unfold staticsWith
  rw [Run.bind_apply, resolveLocal_found h]
  dsimp only
  split
  · rw [Run.get_bind]
    cases s.domain.statics.find? type <;> rfl
  · rfl

theorem getStatic_eq_ok (h : s.domain.type? type = some o) : host.getStatic type field s = some (.ok v, t) ↔
    Declares o field ∧ s.domain.at? (.static type field) = some v ∧ t = s := by
  unfold getStatic Declares Domain.at?
  rw [Run.bind_apply, staticsWith_found h]
  dsimp only
  by_cases hdeclared : (o.decl.field? field).any (·.isStatic) = true
  · rw [if_pos hdeclared]
    cases s.domain.statics.find? type with
    | none => exact ⟨fun h => (nomatch h), fun h => nomatch h.2.1⟩
    | some fields =>
      simp only [Option.bind_some]
      cases fields.find? field with
      | none => exact ⟨fun h => (nomatch h), fun h => nomatch h.2.1⟩
      | some x =>
        constructor
        · intro h
          cases h
          exact ⟨hdeclared, rfl, rfl⟩
        · rintro ⟨_, ⟨⟩, rfl⟩
          rfl
  · rw [if_neg hdeclared]
    exact ⟨fun h => (nomatch h), fun h => absurd h.1 hdeclared⟩

theorem setStatic_eq_ok (h : s.domain.type? type = some o) : host.setStatic type field v s = some (.ok (), t) ↔
    Declares o field ∧ s.domain.Offers (.static type field) ∧
      t = { s with domain := s.domain.put v (.static type field) } := by
  unfold setStatic Declares Domain.Offers Domain.put
  rw [Run.bind_apply, staticsWith_found h]
  dsimp only
  by_cases hdeclared : (o.decl.field? field).any (·.isStatic) = true
  · rw [if_pos hdeclared]
    cases s.domain.statics.find? type with
    | none => exact ⟨fun h => (nomatch h), fun h => nomatch h.2.1⟩
    | some fields =>
      constructor
      · intro h
        cases h
        exact ⟨hdeclared, rfl, rfl⟩
      · rintro ⟨_, _, rfl⟩
        rfl
  · rw [if_neg hdeclared]
    exact ⟨fun h => (nomatch h), fun h => absurd h.1 hdeclared⟩

end Host

/-! ## Types -/

namespace StandIn
variable {ω ω' : Type}

/-- The first machine has the type that a reference means, and the second one finds it in its form. -/
structure Locates (p : StandIn ω ω') (mode? : MethodFlags → Option Mobility → Option Mode) (w w' : Shared) (s : State ω)
    (t t' : State ω') (r : TypeRef) (o o' : TypeHandle) : Prop where
  le : w ≤ w'
  holds : p.Holds w' s t'
  here : s.domain.type? r.fullName = some o
  name : o.decl.fullName = r.fullName
  found : p.env'.host.resolveType r t = some (.ok o', t')
  there : t'.domain.type? r.fullName = some o'
  form : TypeDecl.Form False (Value.Linked w'.links) p.client mode? o.decl o'.decl

namespace Locates
variable {p : StandIn ω ω'} {mode? : MethodFlags → Option Mobility → Option Mode} {w w' : Shared} {s : State ω}
  {t t' : State ω'} {o o' : TypeHandle}

theorem name' {r : TypeRef} (h : p.Locates mode? w w' s t t' r o o') : o'.decl.fullName = r.fullName :=
  h.form.fullName.trans h.name

theorem declares {r : TypeRef} (h : p.Locates mode? w w' s t t' r o o') {field : String} (hd : Host.Declares o field) :
    Host.Declares o' field := by
  have hfield := h.form.field? field
  unfold Host.Declares at hd ⊢
  generalize o.decl.field? field = x at hfield hd
  generalize o'.decl.field? field = y at hfield
  cases hfield with
  | none => exact hd
  | some hab => simpa [FieldDecl.isStatic, hab.flags] using hd

theorem readStatic {r : FieldRef} (h : p.Locates mode? w w' s t t' r.owner o o')
    (hshared : Host.Declares o r.name → ∀ v, s.domain.at? (.static r.owner.fullName r.name) = some v →
      ∃ v', t'.domain.at? (.static r.owner.fullName r.name) = some v' ∧ Value.Linked w'.links v v') :
    Run.Echoes p.Holds (fun w => Value.Linked w.links) w s t (readStatic p.env.host r) (readStatic p.env'.host r) := by
  intro v u hv
  unfold StandIn.readStatic at hv
  rw [Run.bind_apply, Host.resolveType_found h.here] at hv
  dsimp only at hv
  rw [h.name] at hv
  obtain ⟨hdeclared, hvalue, rfl⟩ := (Host.getStatic_eq_ok h.here).mp hv
  obtain ⟨v', hvalue', hlinked⟩ := hshared hdeclared v hvalue
  refine ⟨v', t', w', ?_, h.le, h.holds, hlinked⟩
  unfold StandIn.readStatic
  rw [Run.bind_apply, h.found]
  dsimp only
  rw [h.name']
  exact (Host.getStatic_eq_ok h.there).mpr ⟨h.declares hdeclared, hvalue', rfl⟩

theorem writeStatic {r : FieldRef} (h : p.Locates mode? w w' s t t' r.owner o o') {v v' : Value}
    (hoffers : s.domain.Offers (.static r.owner.fullName r.name) → t'.domain.Offers (.static r.owner.fullName r.name))
    (hrest : s.domain.Offers (.static r.owner.fullName r.name) →
      p.Rest w' { s with domain := s.domain.put v (.static r.owner.fullName r.name) }
        { t' with domain := t'.domain.put v' (.static r.owner.fullName r.name) }) :
    Run.Echoes p.Holds (fun _ _ _ => True) w s t (writeStatic p.env.host r v) (writeStatic p.env'.host r v') := by
  intro _ u hu
  unfold StandIn.writeStatic at hu
  rw [Run.bind_apply, Host.resolveType_found h.here] at hu
  dsimp only at hu
  rw [h.name] at hu
  obtain ⟨hdeclared, hthere, rfl⟩ := (Host.setStatic_eq_ok h.here).mp hu
  refine ⟨(), { t' with domain := t'.domain.put v' (.static r.owner.fullName r.name) }, w', ?_, h.le,
    ⟨h.holds.heap, hrest hthere⟩, trivial⟩
  unfold StandIn.writeStatic
  rw [Run.bind_apply, h.found]
  dsimp only
  rw [h.name']
  exact (Host.setStatic_eq_ok h.there).mpr ⟨h.declares hdeclared, hoffers hthere, rfl⟩

/-- What the second machine finds for a method of the type. -/
theorem method? {r : TypeRef} (h : p.Locates mode? w w' s t t' r o o') {name : String} {types : List String}
    {d : MethodDecl Value} (hd : o.decl.method? name types = some d) : ∃ e, o'.decl.method? name types = some e ∧
      MethodDecl.Form False (Value.Linked w'.links) p.client o'.decl (mode? d.flags d.mobility) d e := by
  have hmethod := h.form.method? name types
  rw [hd] at hmethod
  generalize hy : o'.decl.method? name types = y at hmethod
  cases hmethod with
  | some hde => exact ⟨_, rfl, hde⟩

theorem builtType {r : TypeRef} (h : p.Locates mode? w w' s t t' r o o') (hpaired : ∀ d e,
      o.decl.method? constructorName [] = some d → d.isDefaultConstructor = true →
      MethodDecl.Form False (Value.Linked w'.links) p.client o'.decl (mode? d.flags d.mobility) d e →
      o'.decl.method? constructorName [] = some e →
      p.Paired w' ⟨o.module, o.decl, d⟩ ⟨o'.module, o'.decl, e⟩) :
    Run.Echoes p.Holds p.Builds w s t (builtType p.env.host r) (builtType p.env'.host r) := by
  have hbuilds : p.Builds w' (o.decl.fullName, o) (o'.decl.fullName, o') := by
    refine ⟨h.form.fullName, h.form.initialValues Value.Linked.defaultFor (!·), fun m hm => ?_⟩
    obtain ⟨hm, hdefault⟩ := Option.filter_eq_some_iff.mp hm
    obtain ⟨d, hd, rfl⟩ := Option.map_eq_some_iff.mp hm
    obtain ⟨e, he, hde⟩ := h.method? hd
    have hdefault' : e.isDefaultConstructor = true := hde.alike.isDefaultConstructor.trans hdefault
    refine ⟨⟨o'.module, o'.decl, e⟩, ?_, hpaired d e hd hdefault hde he⟩
    rw [TypeHandle.method?, he, Option.map_some, Option.filter_some, if_pos hdefault']
  intro x u hx
  unfold StandIn.builtType at hx
  rw [Run.bind_apply, Host.resolveType_found h.here] at hx
  dsimp only at hx
  rw [Run.bind_apply, Host.resolveLocal_found (h.name.symm ▸ h.here)] at hx
  cases hx
  refine ⟨(o'.decl.fullName, o'), t', w', ?_, h.le, h.holds, hbuilds⟩
  unfold StandIn.builtType
  rw [Run.bind_apply, h.found]
  dsimp only
  rw [Run.bind_apply, Host.resolveLocal_found (h.name'.symm ▸ h.there)]
  rfl

theorem resolveMethod {r : MethodRef} (h : p.Locates mode? w w' s t t' r.owner o o') (hpaired : ∀ d e,
      o.decl.method? r.name r.paramTypes = some d →
      MethodDecl.Form False (Value.Linked w'.links) p.client o'.decl (mode? d.flags d.mobility) d e →
      o'.decl.method? r.name r.paramTypes = some e → p.Paired w' ⟨o.module, o.decl, d⟩ ⟨o'.module, o'.decl, e⟩) :
    Run.Echoes p.Holds p.Paired w s t (p.env.host.resolveMethod r) (p.env'.host.resolveMethod r) := by
  intro m u hm
  rw [Host.resolveMethod, Run.bind_apply, Host.resolveType_found h.here] at hm
  dsimp only at hm
  cases hd : o.decl.method? r.name r.paramTypes with
  | none =>
    rw [TypeHandle.method?, hd] at hm
    cases hm
  | some d =>
    rw [TypeHandle.method?, hd] at hm
    cases hm
    obtain ⟨e, he, hde⟩ := h.method? hd
    refine ⟨⟨o'.module, o'.decl, e⟩, t', w', Host.resolveMethod_of_type h.found ?_, h.le, h.holds, hpaired d e hd hde he⟩
    rw [TypeHandle.method?, he]
    rfl

end Locates
end StandIn
end MobileCode
