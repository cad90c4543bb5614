import MobileCode.Execution.Run
import MobileCode.Proofs.Links

/-! # Computations side by side

One computation tracks another when, from related states, its success makes the other succeed with a
related result in a related state. An exact comparison also wants failures and missing answers on
both sides alike. The links between the two states only ever grow.
-/
namespace MobileCode

/-- The same error; of one for code that ran past its end the position may differ. -/
inductive Error.Alike : Error → Error → Prop
  | same (e : Error) : Alike e e
  | ranPastEnd (method : MethodKey) (p q : Nat) :
    Alike (.malformed (.ranPastEnd method p)) (.malformed (.ranPastEnd method q))

/-- Both results are related, or both are errors; unless the comparison is exact, only results of the
first one count. -/
inductive Except.Tracks {α β : Type} (exact : Prop) (R : α → β → Prop) :
    Except Error α → Except Error β → Prop
  | ok {a : α} {b : β} : R a b → Except.Tracks exact R (.ok a) (.ok b)
  | error {e e' : Error} : (exact → e.Alike e') → Except.Tracks exact R (.error e) (.error e')
  | loose {e : Error} {y : Except Error β} : ¬exact → Except.Tracks exact R (.error e) y

theorem Except.Tracks.same {α β : Type} {exact : Prop} {R : α → β → Prop} (e : Error) :
    Except.Tracks exact R (.error e) (.error e) := .error fun _ => .same e

theorem Except.Tracks.and_left {α β : Type} {exact : Prop} {R : α → β → Prop} {P : α → Prop}
    {x : Except Error α} {y : Except Error β} (h : Except.Tracks exact R x y) (hP : ∀ a, x = .ok a → P a) :
    Except.Tracks exact (fun a b => R a b ∧ P a) x y := by
  cases h with
  | ok hab => exact .ok ⟨hab, hP _ rfl⟩
  | error he => exact .error he
  | loose hx => exact .loose hx

namespace Run
variable {σ α β γ : Type}

/-! ## Single computations -/

theorem bind_apply (x : Run σ α) (f : α → Run σ β) (s : σ) :
    (x >>= f) s = match x s with
      | some (.ok a, t) => f a t
      | some (.error e, t) => some (.error e, t)
      | none => none := by
  show (ExceptT.bind x f) s = _
  simp only [ExceptT.bind, ExceptT.mk, bind, StateT.bind]
  rcases x s with _ | ⟨_ | _, _⟩ <;> rfl

theorem bind_eq_ok {x : Run σ α} {f : α → Run σ β} {s s' : σ} {b : β} :
    (x >>= f) s = some (.ok b, s') ↔ ∃ a t, x s = some (.ok a, t) ∧ f a t = some (.ok b, s') := by
  rw [bind_apply]
  rcases x s with _ | ⟨_ | a, t⟩ <;> simp

theorem get_bind (f : σ → Run σ α) (s : σ) : (get >>= f) s = f s s := rfl

@[simp] theorem pure_apply (a : α) (s : σ) : (pure a : Run σ α) s = some (.ok a, s) := rfl
@[simp] theorem throw_apply (e : Error) (s : σ) : (throw e : Run σ α) s = some (.error e, s) := rfl
@[simp] theorem get_apply (s : σ) : (get : Run σ σ) s = some (.ok s, s) := rfl
@[simp] theorem modify_apply (f : σ → σ) (s : σ) : (modify f : Run σ Unit) s = some (.ok (), f s) := rfl
@[simp] theorem ofExcept_ok (a : α) : (Run.ofExcept (.ok a) : Run σ α) = pure a := rfl
@[simp] theorem ofExcept_error (e : Error) : (Run.ofExcept (.error e) : Run σ α) = throw e := rfl

/-! ## Two computations -/

/-- How the answers of two computations compare. Unless the comparison is exact, only successes of
the first one count, and of these only the `wanted` ones. -/
inductive Compare (exact : Prop) (wanted : α → Prop) (failed : Error → σ → Error → σ → Prop)
    (done : α → σ → β → σ → Prop) : Option (Except Error α × σ) → Option (Except Error β × σ) → Prop
  | ok {a : α} {b : β} {s t : σ} : done a s b t →
    Compare exact wanted failed done (some (.ok a, s)) (some (.ok b, t))
  | error {e e' : Error} {s t : σ} : failed e s e' t →
    Compare exact wanted failed done (some (.error e, s)) (some (.error e', t))
  | none : Compare exact wanted failed done none none
  | loose {x : Option (Except Error α × σ)} {y : Option (Except Error β × σ)} : ¬exact →
    (∀ a s, x = some (.ok a, s) → ¬wanted a) → Compare exact wanted failed done x y

variable {exact : Prop} {S : Links → σ → σ → Prop} {wanted : α → Prop} {w : Links}

/-- From these two states the second computation does what the first one does. -/
def TracksFrom (exact : Prop) (S : Links → σ → σ → Prop) (wanted : α → Prop) (R : Links → α → β → Prop)
    (w : Links) (s t : σ) (x : Run σ α) (y : Run σ β) : Prop :=
  Compare exact wanted (fun e s e' t => e.Alike e' ∧ ∃ w', w ≤ w' ∧ S w' s t)
    (fun a s b t => ∃ w', w ≤ w' ∧ S w' s t ∧ R w' a b) (x s) (y t)

/-- The second computation does what the first one does, from any states related by `S`. -/
def Tracks (exact : Prop) (S : Links → σ → σ → Prop) (wanted : α → Prop) (R : Links → α → β → Prop)
    (w : Links) (x : Run σ α) (y : Run σ β) : Prop :=
  ∀ s t, S w s t → TracksFrom exact S wanted R w s t x y

/-- Every result of the first computation is of interest. -/
abbrev Every (_ : α) : Prop := True

theorem Tracks.pure {R : Links → α → β → Prop} {a : α} {b : β} (h : R w a b) :
    Tracks exact S wanted R w (Pure.pure a) (Pure.pure b) :=
  fun _ _ hs => .ok ⟨w, le_rfl, hs, h⟩

theorem Tracks.throw {R : Links → α → β → Prop} {e e' : Error} (h : exact → e.Alike e') :
    Tracks exact S wanted R w (MonadExcept.throw e) (MonadExcept.throw e') := by
  intro s t hs
  by_cases hx : exact
  · exact .error ⟨h hx, w, le_rfl, hs⟩
  · exact .loose hx (fun _ _ h => nomatch h)

theorem TracksFrom.bind {δ : Type} {R : Links → α → β → Prop} {wanted : γ → Prop}
    {Q : Links → γ → δ → Prop} {x : Run σ α} {y : Run σ β} {f : α → Run σ γ} {g : β → Run σ δ} {s t : σ}
    (h : TracksFrom exact S Every R w s t x y)
    (hf : ∀ w', w ≤ w' → ∀ s t, S w' s t → ∀ a b, R w' a b →
      TracksFrom exact S wanted Q w' s t (f a) (g b)) :
    TracksFrom exact S wanted Q w s t (x >>= f) (y >>= g) := by
  unfold TracksFrom at h ⊢
  rw [bind_apply, bind_apply]
  generalize x s = u at h
  generalize y t = v at h
  cases h with
  | ok hab =>
    obtain ⟨w', hle, hs', hr⟩ := hab
    have hfg := hf w' hle _ _ hs' _ _ hr
    unfold TracksFrom at hfg
    simp only
    generalize f _ _ = u at hfg
    generalize g _ _ = v at hfg
    cases hfg with
    | ok hcd =>
      obtain ⟨w'', hle', hs'', hq⟩ := hcd
      exact .ok ⟨w'', hle.trans hle', hs'', hq⟩
    | error he =>
      obtain ⟨he, w'', hle', hs''⟩ := he
      exact .error ⟨he, w'', hle.trans hle', hs''⟩
    | none => exact .none
    | loose hx hu => exact .loose hx hu
  | error he => exact .error he
  | none => exact .none
  | loose hx hu =>
    refine .loose hx fun c s' hc => ?_
    rcases u with _ | ⟨_ | a, s''⟩
    · cases hc
    · cases hc
    · exact absurd trivial (hu a s'' rfl)

theorem Tracks.bind {δ : Type} {R : Links → α → β → Prop} {wanted : γ → Prop} {Q : Links → γ → δ → Prop}
    {x : Run σ α} {y : Run σ β} {f : α → Run σ γ} {g : β → Run σ δ}
    (h : Tracks exact S Every R w x y)
    (hf : ∀ w', w ≤ w' → ∀ a b, R w' a b → Tracks exact S wanted Q w' (f a) (g b)) :
    Tracks exact S wanted Q w (x >>= f) (y >>= g) :=
  fun s t hs => (h s t hs).bind fun w' hle s' t' hs' a b hab => hf w' hle a b hab s' t' hs'

theorem Tracks.mono {R Q : Links → α → β → Prop} {x : Run σ α} {y : Run σ β}
    (h : Tracks exact S wanted R w x y) (hRQ : ∀ w', w ≤ w' → ∀ a b, R w' a b → Q w' a b) :
    Tracks exact S wanted Q w x y := by
  intro s t hs
  have hxy := h s t hs
  unfold TracksFrom at hxy ⊢
  generalize x s = u at hxy ⊢
  generalize y t = v at hxy ⊢
  cases hxy with
  | ok hab =>
    obtain ⟨w', hle, hs', hr⟩ := hab
    exact .ok ⟨w', hle, hs', hRQ w' hle _ _ hr⟩
  | error he => exact .error he
  | none => exact .none
  | loose hx hu => exact .loose hx hu

theorem Tracks.modify {wanted : Unit → Prop} {R : Links → Unit → Unit → Prop} {f g : σ → σ}
    (h : ∀ s t, S w s t → S w (f s) (g t)) (hr : R w () ()) :
    Tracks exact S wanted R w (modify f : Run σ Unit) (modify g) :=
  fun s t hs => .ok ⟨w, le_rfl, h s t hs, hr⟩

theorem Tracks.ofExcept {R : Links → α → β → Prop} {x : Except Error α} {y : Except Error β}
    (h : Except.Tracks exact (R w) x y) : Tracks exact S wanted R w (Run.ofExcept x) (Run.ofExcept y) := by
  cases h with
  | ok hab => exact Tracks.pure hab
  | error he => exact Tracks.throw he
  | loose hx => exact fun _ _ _ => .loose hx fun _ _ h => nomatch h

/-- A check or a calculation comes first on both sides. -/
theorem Tracks.ofExcept_bind {δ : Type} {wanted : γ → Prop} {R : α → β → Prop} {Q : Links → γ → δ → Prop}
    {x : Except Error α} {y : Except Error β} {f : α → Run σ γ} {g : β → Run σ δ}
    (h : Except.Tracks exact R x y) (hf : ∀ a b, R a b → Tracks exact S wanted Q w (f a) (g b)) :
    Tracks exact S wanted Q w (Run.ofExcept x >>= f) (Run.ofExcept y >>= g) := by
  cases h with
  | ok hab => exact hf _ _ hab
  | error he => exact Tracks.throw he
  | loose hx => exact fun _ _ _ => .loose hx fun _ _ h => nomatch h

theorem Tracks.ofOption {R : Links → α → α → Prop} {x : Option α} (h : ∀ a, x = some a → R w a a) :
    Tracks exact S wanted R w (Run.ofOption x) (Run.ofOption x) := by
  cases x with
  | none => exact fun _ _ _ => .none
  | some a => exact Tracks.pure (h a rfl)

end Run
end MobileCode
