import MobileCode.Execution.Transfer
import MobileCode.Proofs.References
import MobileCode.Proofs.Successors

/-! # What carrying state runs

Fields are read and written directly, properties by their accessors. So what is captured, applied or read
again depends on the code of a domain by the accessors of the carried properties alone.
-/
namespace MobileCode

/-! ## Computations that do the same -/

section Twins
variable {ω α β : Type} {I : State ω → Prop} {R : State ω → State ω → Prop}

/-- From states with `I` the computations do the same; whatever comes of it, `I` still holds and the states
before and after are related. -/
def Run.Twins (I : State ω → Prop) (R : State ω → State ω → Prop) (x y : Run (State ω) α) : Prop :=
  ∀ s, I s → x s = y s ∧ ∀ r t, x s = some (r, t) → I t ∧ R s t

/-- What `I` and `R` make of each other. -/
def State.Within (I : State ω → Prop) (R : State ω → State ω → Prop) (s t : State ω) : Prop := I s → I t ∧ R s t

namespace Run.Twins
variable {x y : Run (State ω) α} {f g : α → Run (State ω) β}

theorem of_respects (h : x.Respects True (State.Within I R)) : Twins I R x x :=
  fun s hs => ⟨rfl, fun r t hr => h s r t hr (.inl trivial) hs⟩

theorem ensures (h : Twins I R x y) {s : State ω} (hs : I s) : x.Ensures s fun _ t => I t ∧ R s t :=
  fun _ t ha => (h s hs).2 _ t ha

variable [IsPreorder (State ω) R]

theorem throw (e : Error) : Twins I R (MonadExcept.throw e : Run (State ω) α) (MonadExcept.throw e) := by
  refine fun s hs => ⟨rfl, fun r t h => ?_⟩
  cases h
  exact ⟨hs, refl_of R s⟩

theorem pure (a : α) : Twins I R (Pure.pure a : Run (State ω) α) (Pure.pure a) := by
  refine fun s hs => ⟨rfl, fun r t h => ?_⟩
  cases h
  exact ⟨hs, refl_of R s⟩

/-- The results of the first computation may be known to satisfy `P`. -/
theorem bind_of {P : α → Prop} (hx : Twins I R x y) (hP : ∀ s, I s → x.Ensures s fun a _ => P a)
    (hf : ∀ a, P a → Twins I R (f a) (g a)) : Twins I R (x >>= f) (y >>= g) := by
  intro s hs
  obtain ⟨hsame, hkeeps⟩ := hx s hs
  rw [bind_apply, bind_apply, ← hsame]
  rcases hxs : x s with _ | ⟨e | a, u⟩
  · exact ⟨rfl, fun _ _ h => nomatch h⟩
  · refine ⟨rfl, fun r t h => ?_⟩
    cases h
    exact hkeeps _ _ hxs
  · obtain ⟨hu, hsu⟩ := hkeeps _ _ hxs
    obtain ⟨hsame', hkeeps'⟩ := hf a (hP s hs a u hxs) u hu
    exact ⟨hsame', fun r t h => ⟨(hkeeps' r t h).1, trans_of R hsu (hkeeps' r t h).2⟩⟩

theorem bind (hx : Twins I R x y) (hf : ∀ a, Twins I R (f a) (g a)) : Twins I R (x >>= f) (y >>= g) :=
  hx.bind_of (P := fun _ => True) (fun _ _ _ _ _ => trivial) fun a _ => hf a

omit [IsPreorder (State ω) R] in
theorem attempt (h : Twins I R x y) : Twins I R (Run.attempt x) (Run.attempt y) := by
  intro s hs
  obtain ⟨hsame, hkeeps⟩ := h s hs
  unfold Run.attempt
  rw [← hsame]
  refine ⟨rfl, fun r t hr => ?_⟩
  rcases hxs : x s with _ | ⟨r', u⟩
  · rw [hxs] at hr
    cases hr
  · rw [hxs] at hr
    cases hr
    exact hkeeps r' _ hxs

theorem mapM {γ : Type} {f g : γ → Run (State ω) α} (xs : List γ) (h : ∀ c ∈ xs, Twins I R (f c) (g c)) :
    Twins I R (xs.mapM f) (xs.mapM g) := by
  induction xs with
  | nil => exact .pure _
  | cons c cs ih =>
    rw [List.mapM_cons, List.mapM_cons]
    refine (h c List.mem_cons_self).bind fun a => ?_
    exact (ih fun c hc => h c (List.mem_cons_of_mem _ hc)).bind fun _ => .pure _

end Run.Twins
end Twins

/-! ## What reading members leaves alone -/

namespace Variable
section
variable {ω : Type} {K : State ω → State ω → Prop} [IsPreorder (State ω) K] {failing : Prop} {host : Host ω}
  (hK : host.Guards failing K)
include hK

theorem accessor_respects (which : PropertyDecl → Option String) (v : Variable Value) :
    (v.accessor host which).Respects failing K := by
  unfold accessor
  refine (hK.resolveType _).bind fun owner => ?_
  split
  · exact .throw _
  split
  · exact .throw _
  split
  · exact .pure _
  · exact .throw _

omit hK in
theorem instance?_respects (v : Variable Value) (target : Option Ref) :
    (v.instance? target).Respects failing K := by
  unfold instance?
  split
  · exact .pure _
  split
  · exact .throw _
  · refine Run.Respects.getHeap.bind fun _ => ?_
    dsimp only
    split
    · exact .pure _
    · exact .throw _

theorem checkField_respects (v : Variable Value) : (v.checkField host).Respects failing K := by
  unfold checkField
  refine (hK.resolveType _).bind fun owner => ?_
  split
  · exact .pure _
  · exact .throw _

omit hK in
theorem checkValue_respects (v : Variable Value) :
    (v.checkValue : Run (State ω) Unit).Respects failing K := by
  unfold checkValue
  refine Run.Respects.getHeap.bind fun heap => ?_
  split
  · exact .pure _
  · exact .throw _

theorem readField_respects (v : Variable Value) (target : Option Ref) :
    (v.readField host target).Respects failing K := by
  unfold readField
  refine (instance?_respects v target).bind fun r => ?_
  split
  · exact hK.getStatic _ _
  · refine Run.Respects.getHeap.bind fun _ => ?_
    split
    · exact .pure _
    · exact Run.Respects.get.bind fun _ => .throw _

end
end Variable

/-! ## Accessors -/

theorem TypeDecl.property?_eq_some {α : Type} {t : TypeDecl α} {name : String} {p : PropertyDecl}
    (h : t.property? name = some p) : p ∈ t.properties ∧ p.name = name :=
  ⟨List.mem_of_find?_eq_some h, by simpa using List.find?_some h⟩

/-- The first frame of an accessor of a property that the closure carries. -/
def Closure.Accesses (c : Closure) (l : LoadedModule) (u : TypeDecl Value) (f : Frame) : Prop :=
  ∃ d ∈ u.methods, ∃ p ∈ u.properties, ⟨u.fullName, p.name⟩ ∈ c.properties ∧ p.hasAccessor d.name = true ∧
    ∃ r args, f = .first ⟨l, u, d⟩ r args 0

/-- If the variable is a property, the closure carries it. -/
def Closure.Carries {α : Type} (c : Closure) (type : String) (v : Variable α) : Prop :=
  v.kind = .property → v.owner = type ∧ ⟨type, v.name⟩ ∈ c.properties

theorem Closure.Carries.withValue {α β : Type} {c : Closure} {type : String} {v : Variable α}
    (h : c.Carries type v) (x : β) : c.Carries type (v.withValue x) := h

theorem Closure.Carries.of_field {α : Type} {c : Closure} {type : String} {v : Variable α} (h : v.kind = .field) :
    c.Carries type v := by
  intro hp
  rw [h] at hp
  cases hp

section Carrying
variable {ω : Type} {I : State ω → Prop} {R : State ω → State ω → Prop} [IsPreorder (State ω) R] {host : Host ω}
  {run run' : Runner ω} {closure : Closure} {l : LoadedModule} {u : TypeDecl Value}

instance : IsPreorder (State ω) (State.Within I R) where
  refl s hs := ⟨hs, refl_of R s⟩
  trans _ _ _ hst htu hs := ⟨(htu (hst hs).1).1, trans_of R (hst hs).2 (htu (hst hs).1).2⟩

variable (hK : host.Guards True (State.Within I R)) (hI : ∀ s, I s → s.domain.type? u.fullName = some ⟨l, u⟩)
  (hrun : ∀ f, closure.Accesses l u f → Run.Twins I R (run f) (run' f))
include hK hI

omit [IsPreorder (State ω) R] hK in
theorem Host.resolveLocal_ensures {s : State ω} (hs : I s) :
    (host.resolveLocal u.fullName).Ensures s fun owner _ => owner = ⟨l, u⟩ := by
  intro owner t h
  cases (resolveLocal_found (hI s hs)).symm.trans h
  rfl

include hrun

/-- By name an accessor is called, or a native method. -/
theorem Host.invoke_twins {name : String} {p : PropertyDecl} (hp : p ∈ u.properties)
    (hcarried : ⟨u.fullName, p.name⟩ ∈ closure.properties) (hname : p.hasAccessor name = true) (types : List String)
    (r : Option Ref) (args : List Value) : Run.Twins I R
      (host.invoke run ⟨⟨none, u.fullName⟩, name, types⟩ r args)
      (host.invoke run' ⟨⟨none, u.fullName⟩, name, types⟩ r args) := by
  unfold invoke
  split
  · rename_i native hnative
    exact .of_respects (hK.natives _ _ native hnative args)
  · have hmethod : ∀ s, I s → (host.resolveMethod ⟨⟨none, u.fullName⟩, name, types⟩).Ensures s fun m _ =>
        ∃ d ∈ u.methods, d.name = name ∧ m = ⟨l, u, d⟩ := by
      intro s hs
      unfold resolveMethod
      refine (resolveLocal_ensures hI hs).bind ?_
      rintro owner t rfl
      split
      · rename_i m hm
        obtain ⟨d, hd, rfl⟩ := Option.map_eq_some_iff.mp hm
        obtain ⟨hmem, hdname, _⟩ := TypeDecl.method?_eq_some hd
        exact .pure ⟨d, hmem, hdname, rfl⟩
      · exact .throw
    refine (Run.Twins.of_respects (hK.resolveMethod _)).bind_of hmethod ?_
    rintro m ⟨d, hd, rfl, rfl⟩
    unfold invokeHandle
    refine (Run.Twins.of_respects .get).bind fun s => ?_
    cases hf : Frame.enter s.domain.maxDepth 0 ⟨l, u, d⟩ r args with
    | error e => exact .throw e
    | ok f =>
      obtain ⟨vs, _, rfl⟩ := Frame.enter_eq_ok hf
      exact hrun _ ⟨d, hd, p, hp, hcarried, hname, r, vs, rfl⟩

namespace Variable
variable {v : Variable Value}

omit [IsPreorder (State ω) R] hrun hK in
theorem accessor_ensures {which : PropertyDecl → Option String} (hv : v.owner = u.fullName) {s : State ω} (hs : I s) :
    (v.accessor host which).Ensures s fun name _ => ∃ p ∈ u.properties, p.name = v.name ∧ which p = some name := by
  unfold accessor
  rw [hv]
  refine (Host.resolveLocal_ensures hI hs).bind ?_
  rintro owner t rfl
  split
  · exact .throw
  rename_i p hp
  split
  · exact .throw
  split
  · rename_i name hname
    obtain ⟨hmem, hnamed⟩ := TypeDecl.property?_eq_some hp
    exact .pure ⟨p, hmem, hnamed, hname⟩
  · exact .throw

theorem readProperty_twins (hv : v.owner = u.fullName) (hcarried : ⟨u.fullName, v.name⟩ ∈ closure.properties)
    (target : Option Ref) : Run.Twins I R (v.readProperty host run target) (v.readProperty host run' target) := by
  unfold readProperty
  refine (Run.Twins.of_respects (accessor_respects hK _ v)).bind_of (fun s hs => accessor_ensures hI hv hs) ?_
  rintro name ⟨p, hp, hname, hgetter⟩
  refine (Run.Twins.of_respects (instance?_respects v target)).bind fun r => ?_
  rw [hv]
  exact Host.invoke_twins hK hI hrun hp (hname ▸ hcarried) (by simp [PropertyDecl.hasAccessor, hgetter]) _ _ _

theorem copyFrom_twins (hv : closure.Carries u.fullName v) (target : Option Ref) :
    Run.Twins I R (v.copyFrom host run target) (v.copyFrom host run' target) := by
  unfold copyFrom
  refine (Run.Twins.of_respects (.ofExcept _)).bind fun _ => ?_
  cases hkind : v.kind with
  | parameter => exact .throw _
  | field =>
    refine (Run.Twins.of_respects (checkField_respects hK v)).bind fun _ => ?_
    exact (Run.Twins.of_respects (readField_respects hK v target)).bind fun _ => .pure _
  | property =>
    obtain ⟨howner, hcarried⟩ := hv hkind
    exact (readProperty_twins hK hI hrun howner hcarried target).bind fun _ => .pure _

theorem copyTo_twins (hv : closure.Carries u.fullName v) (target : Option Ref) :
    Run.Twins I R (v.copyTo host run target) (v.copyTo host run' target) := by
  unfold copyTo
  refine (Run.Twins.of_respects (.ofExcept _)).bind fun _ => ?_
  cases hkind : v.kind with
  | parameter => exact .throw _
  | field =>
    refine (Run.Twins.of_respects (checkField_respects hK v)).bind fun _ => ?_
    refine (Run.Twins.of_respects (checkValue_respects v)).bind fun _ => ?_
    refine (Run.Twins.of_respects (instance?_respects v target)).bind fun r => ?_
    cases r with
    | none => exact .of_respects (hK.setStatic _ _ _)
    | some r => exact .of_respects (hK.setField _ _ _)
  | property =>
    obtain ⟨howner, hcarried⟩ := hv hkind
    refine (Run.Twins.of_respects (checkValue_respects v)).bind fun _ => ?_
    refine (Run.Twins.of_respects (accessor_respects hK _ v)).bind_of (fun s hs => accessor_ensures hI howner hs) ?_
    rintro name ⟨p, hp, hname, hsetter⟩
    refine (Run.Twins.of_respects (instance?_respects v target)).bind fun r => ?_
    rw [howner]
    exact (Host.invoke_twins hK hI hrun hp (hname ▸ hcarried) (by simp [PropertyDecl.hasAccessor, hsetter])
      _ _ _).bind fun _ => .pure _

end Variable

/-! ## Capture and application -/

namespace Transfer

omit hK hI hrun in
theorem unlessUnavailable_twins {α : Type} {x y : Run (State ω) α} (h : Run.Twins I R x y) :
    Run.Twins I R (unlessUnavailable x) (unlessUnavailable y) := by
  unfold unlessUnavailable
  refine h.attempt.bind fun r => ?_
  split
  · exact .pure _
  · exact .pure _
  · exact .throw _

theorem capture_twins (receiver : Option Ref) : Run.Twins I R (capture host run u.fullName closure receiver)
    (capture host run' u.fullName closure receiver) := by
  unfold capture
  refine (Run.Twins.of_respects (hK.resolveType _)).bind_of (fun s hs => Host.resolveLocal_ensures hI hs) ?_
  rintro owner rfl
  refine (Run.Twins.mapM _ fun id hid => ?_).bind fun fields => (Run.Twins.mapM _ fun id hid => ?_).bind fun _ => .pure _
  · unfold captureField
    split
    · exact .throw _
    split
    · exact .pure _
    · exact (Variable.copyFrom_twins hK hI hrun (.of_field rfl) receiver).bind fun _ => .pure _
  · obtain ⟨hmem, htype⟩ := List.mem_filter.mp hid
    have htype : id.type = u.fullName := of_decide_eq_true htype
    unfold captureProperty
    split
    · exact .throw _
    rename_i p hp
    split
    · exact .pure _
    · obtain ⟨_, hname⟩ := TypeDecl.property?_eq_some hp
      refine unlessUnavailable_twins (Variable.copyFrom_twins hK hI hrun (fun _ => ⟨htype, ?_⟩) receiver)
      show ⟨u.fullName, p.name⟩ ∈ closure.properties
      rw [hname, ← htype]
      exact hmem

theorem apply_twins (target : Option Ref) {vs : List (Variable Value)} (hvs : ∀ v ∈ vs, closure.Carries u.fullName v) :
    Run.Twins I R (apply host run target vs) (apply host run' target vs) := by
  induction vs with
  | nil => exact .pure _
  | cons v vs ih =>
    obtain ⟨hv, hvs⟩ := List.forall_mem_cons.mp hvs
    unfold apply
    exact (unlessUnavailable_twins (Variable.copyTo_twins hK hI hrun hv target)).bind fun _ => ih hvs

end Transfer

end Carrying
/-! ## What is carried -/

section Carried
variable {ω α β : Type} {closure : Closure} {type : String}

theorem Run.mapM_ensures {σ : Type} {f : α → Run σ β} {P : β → Prop} (xs : List α) {s : σ}
    (h : ∀ x ∈ xs, ∀ s, (f x).Ensures s fun b _ => P b) : (xs.mapM f).Ensures s fun bs _ => ∀ b ∈ bs, P b := by
  induction xs generalizing s with
  | nil => exact .pure (by simp)
  | cons x xs ih =>
    rw [List.mapM_cons]
    refine (h x List.mem_cons_self s).bind fun b t hb => ?_
    refine (ih fun x hx => h x (List.mem_cons_of_mem _ hx)).bind fun bs u hbs => .pure ?_
    exact List.forall_mem_cons.mpr ⟨hb, hbs⟩

/-- Variables stay the ones that are carried when their values change. -/
theorem Closure.Carries.traverse {σ : Type} {f : α → Run σ β} {vs : List (Variable α)}
    (h : ∀ v ∈ vs, closure.Carries type v) (s : σ) :
    (vs.mapM (Variable.traverse f)).Ensures s fun ws _ => ∀ w ∈ ws, closure.Carries type w :=
  Run.mapM_ensures vs fun v hv _ => .after fun x _ => .pure ((h v hv).withValue x)

theorem Variable.copyFrom_ensures {host : Host ω} {run : Runner ω} {v : Variable Value} {target : Option Ref}
    {s : State ω} (h : closure.Carries type v) :
    (v.copyFrom host run target).Ensures s fun w _ => closure.Carries type w := by
  unfold copyFrom
  refine .after fun _ _ => ?_
  split
  · exact .throw
  · exact .after fun _ _ => .after fun x _ => .pure (h.withValue x)
  · exact .after fun x _ => .pure (h.withValue x)

namespace Transfer
variable {host : Host ω} {run : Runner ω}

theorem unlessUnavailable_ensures {P : α → Prop} {x : Run (State ω) α} {s : State ω} (h : x.Ensures s fun a _ => P a) :
    (unlessUnavailable x).Ensures s fun found _ => ∀ a ∈ found, P a := by
  unfold unlessUnavailable
  refine h.attempt.bind fun r t hr => ?_
  split
  · exact .pure fun a ha => Option.some.inj ha ▸ hr _ rfl
  · exact .pure (by simp)
  · exact .throw

/-- Of the properties only those are captured that the closure carries. -/
theorem capture_ensures {receiver : Option Ref} {s : State ω} :
    (capture host run type closure receiver).Ensures s fun vs _ => ∀ v ∈ vs, closure.Carries type v := by
  unfold capture
  refine .after fun owner _ => ?_
  have hfields : ∀ id ∈ closure.fields.filter (·.type = type), ∀ s : State ω,
      (captureField host run owner receiver id).Ensures s fun found _ => ∀ v ∈ found, closure.Carries type v := by
    intro id _ s
    unfold captureField
    split
    · exact .throw
    split
    · exact .pure (by simp)
    · refine Run.Ensures.bind (P := fun w _ => closure.Carries type w) (Variable.copyFrom_ensures (.of_field rfl))
        fun w _ hw => .pure fun v hv => ?_
      exact Option.some.inj hv ▸ hw
  have hproperties : ∀ id ∈ closure.properties.filter (·.type = type), ∀ s : State ω,
      (captureProperty host run owner receiver id).Ensures s fun found _ => ∀ v ∈ found, closure.Carries type v := by
    intro id hid s
    obtain ⟨hmem, htype⟩ := List.mem_filter.mp hid
    have htype : id.type = type := of_decide_eq_true htype
    unfold captureProperty
    split
    · exact .throw
    rename_i p hp
    split
    · exact .pure (by simp)
    · obtain ⟨_, hname⟩ := TypeDecl.property?_eq_some hp
      refine unlessUnavailable_ensures (Variable.copyFrom_ensures fun _ => ⟨htype, ?_⟩)
      show ⟨type, p.name⟩ ∈ closure.properties
      rw [hname, ← htype]
      exact hmem
  refine (Run.mapM_ensures _ hfields).bind fun fs _ hfs => (Run.mapM_ensures _ hproperties).bind fun ps _ hps => .pure ?_
  intro v hv
  obtain ⟨found, hfound, hsome⟩ := List.mem_filterMap.mp hv
  rcases List.mem_append.mp hfound with hfound | hfound
  · exact hfs found hfound v hsome
  · exact hps found hfound v hsome

/-- What is read again is what was carried. -/
theorem refresh_ensures {target : Option Ref} {vs : List (Variable Value)} (hvs : ∀ v ∈ vs, closure.Carries type v)
    {s : State ω} : (refresh host run target vs).Ensures s fun p _ => ∀ v ∈ p.1, closure.Carries type v := by
  induction vs generalizing s with
  | nil => exact .pure (by simp)
  | cons v vs ih =>
    obtain ⟨hv, hrest⟩ := List.forall_mem_cons.mp hvs
    unfold refresh
    refine (unlessUnavailable_ensures (Variable.copyFrom_ensures hv)).attempt.bind fun r t hr => ?_
    split
    · exact .pure (List.forall_mem_cons.mpr ⟨hv, hrest⟩)
    · rename_i found
      refine (ih hrest).bind fun p u hp => .pure (List.forall_mem_cons.mpr ⟨?_, hp⟩)
      cases found with
      | none => exact hv
      | some w => exact hr _ rfl w rfl

end Transfer
end Carried

end MobileCode
