import MobileCode.Execution.Invocation
import MobileCode.Proofs.Lockstep

/-! # Runs side by side

A run of the first machine has a run of the second one that comes to the same end, as long as there is
room for the frames of siblings. Where there are none, each run of the second machine is matched by one
of the first as well, so either both come to an end or neither does.
-/
namespace MobileCode
variable {c : Comparison} {w w' : Links} {ω : Type}

/-! ## Steps -/

namespace Machine
variable {env : Environment ω} {k : Nat} {f g : Frame} {below below' : List Frame}

/-- Only a dispatch needs the means to run code within the domain, and only if its client uses them. -/
theorem step_runner (run run' : Runner ω) (hidle : ∀ site,
    f.method.decl.body[f.position]? = some (.dispatch site) → env.IdleFor site.client.fullName) :
    step env run f below = step env run' f below := by
  unfold step
  cases hi : f.method.decl.body[f.position]? with
  | none => rfl
  | some i =>
    cases i with
    | dispatch site =>
      simp only [execute]
      refine congrArg (fun x => x >>= _) ?_
      unfold dispatch
      cases hd : env.dispatcher? site.client.fullName with
      | none => rfl
      | some d =>
        simp only
        split
        · rfl
        · funext s
          rw [hidle site hi d hd, hidle site hi d hd]
    | _ => rfl

/-- The next instruction of the second frame is that of the first one, wherever it has moved. -/
theorem next_moved (h : Frame.Alike c w k f g) :
    Option.Rel (Instruction.Moved (Value.Linked w) k) f.method.decl.body[f.position]?
      g.method.decl.body[g.position]? := by
  obtain ⟨front, rfl, rest, hbody, hrest⟩ := h.body
  rw [hbody, h.position, List.getElem?_append_right (Nat.le_add_left _ _), Nat.add_sub_cancel]
  exact Forall₂.getElem? hrest f.position

theorem moved_dispatch {i : Instruction Value} {site : DispatchSite}
    (h : Instruction.Moved (Value.Linked w) k i (.dispatch site)) : i = .dispatch site := by
  cases i with
  | dispatch _ => exact h.symm
  | const _ => obtain ⟨_, hj, _⟩ := h; cases hj
  | jump _ => obtain ⟨_, hj, _⟩ := h; cases hj
  | jumpIfTrue _ => obtain ⟨_, hj, _⟩ := h; cases hj
  | jumpIfFalse _ => obtain ⟨_, hj, _⟩ := h; cases hj
  | _ => cases h

/-- One step of two stacks. -/
theorem step_steps (hhost : env.host.Impartial c) (hclient : env.IdleFor c.client)
    (hspares : ¬c.exact → env.host.SparesSiblings) (run run' : Runner ω)
    (hs : Frame.Stands c w k below below' f g) (hidle : ∀ site,
      f.method.decl.body[f.position]? = some (.dispatch site) → env.IdleFor site.client.fullName) :
    Steps c env w (step env run f below) (step env run' g below') := by
  have hnext := next_moved hs.alike
  unfold step
  generalize f.method.decl.body[f.position]? = x at hnext hidle
  generalize g.method.decl.body[g.position]? = y at hnext
  cases hnext with
  | none =>
    refine Run.Tracks.throw fun hx => ?_
    rw [hs.alike.key hx]
    exact .ranPastEnd _ _ _
  | @some i j hij =>
    have hpos : g.position + 1 = f.position + 1 + k := by
      rw [hs.alike.position]
      omega
    exact execute_steps hhost hclient hspares run run' (hs.withPosition hpos) hij
      fun site hi => hidle site (hi ▸ rfl)

/-! ## Runs -/

/-- What is left of a run after a step. -/
def resume (env : Environment ω) (budget : Nat) : Transition → Run (State ω) Value
  | .next f below => run env budget f below
  | .done v => pure v

theorem resume_succ (budget : Nat) (f : Frame) (below : List Frame) (s : State ω) :
    resume env (budget + 1) (.next f below) s =
      (step env (runner env budget) f below >>= resume env budget) s := by
  rw [Run.bind_apply]
  show run env (budget + 1) f below s = _
  rw [run]
  unfold runner
  beta_reduce
  rcases step env (fun g => run env budget g []) f below s with _ | ⟨_ | (_ | _), _⟩ <;> rfl

section
variable {run : Runner ω} {s s' : State ω} (hidle : ∀ site,
  f.method.decl.body[f.position]? = some (.dispatch site) → env.IdleFor site.client.fullName)
include hidle

theorem resume_step {t : Transition} (h : step env run f below s = some (.ok t, s')) (budget : Nat) :
    resume env (budget + 1) (.next f below) s = resume env budget t s' := by
  rw [resume_succ, Run.bind_apply, step_runner _ run hidle, h]

theorem resume_error {e : Error} (h : step env run f below s = some (.error e, s')) (budget : Nat) :
    resume env (budget + 1) (.next f below) s = some (.error e, s') := by
  rw [resume_succ, Run.bind_apply, step_runner _ run hidle, h]

end

/-- All transitions that a run goes through within its budget satisfy `P`. -/
def Throughout (env : Environment ω) (P : Transition → Prop) : Nat → Transition → State ω → Prop
  | 0, t, _ => P t
  | _ + 1, .done v, _ => P (.done v)
  | budget + 1, .next f below, s => P (.next f below) ∧ ∀ u s',
      step env (runner env budget) f below s = some (.ok u, s') → Throughout env P budget u s'

theorem Throughout.here {P : Transition → Prop} {budget : Nat} {t : Transition} {s : State ω}
    (h : Throughout env P budget t s) : P t := by
  cases budget with
  | zero => exact h
  | succ budget =>
    cases t with
    | done v => exact h
    | next f below => exact h.1

theorem Throughout.of_forall {P : Transition → Prop} (hP : ∀ t, P t) :
    ∀ (budget : Nat) (t : Transition) (s : State ω), Throughout env P budget t s
  | 0, t, _ => hP t
  | _ + 1, .done v, _ => hP (.done v)
  | budget + 1, .next _ _, _ => ⟨hP _, fun u s' _ => Throughout.of_forall hP budget u s'⟩

end Machine

/-- There is room for a frame, and no client takes what it dispatches. -/
structure Comparison.Allows (c : Comparison) (env : Environment ω) (t : Transition) : Prop where
  fits : t.Fits c
  idle : ∀ f below, t = .next f below → ∀ site,
    f.method.decl.body[f.position]? = some (.dispatch site) → env.IdleFor site.client.fullName

/-- Two runs that end alike. -/
inductive Comparison.Ends (c : Comparison) (w : Links) :
    Except Error Value × State ω → Except Error Value × State ω → Prop
  | ok {w' : Links} {v v' : Value} {s t : State ω} : w ≤ w' → State.Alike c w' s t → Value.Linked w' v v' →
    Ends c w (.ok v, s) (.ok v', t)
  | error {w' : Links} {e e' : Error} {s t : State ω} : w ≤ w' → State.Alike c w' s t → e.Alike e' →
    Ends c w (.error e, s) (.error e', t)

theorem Comparison.Ends.after (hw : w ≤ w') {a b : Except Error Value × State ω} (h : c.Ends w' a b) :
    c.Ends w a b := by
  cases h with
  | ok hle hs hv => exact .ok (hw.trans hle) hs hv
  | error hle hs he => exact .error (hw.trans hle) hs he

theorem State.Alike.holds {s t : State ω} (h : State.Alike c w s t) : c.Holds t :=
  ⟨h.domain.kept, h.domain.sameLimit⟩

namespace Transition.Leads
open Machine
variable {env : Environment ω}

/-- A run goes over quiet steps. -/
theorem catchUp {Q : Transition → Prop} {u : Transition} (h : Leads c env Q u) {s : State ω} (hs : c.Holds s) :
    ∃ n u', (∀ budget, resume env (budget + n) u s = resume env budget u' s) ∧ Q u' := by
  induction h with
  | here h => exact ⟨0, _, fun _ => rfl, h⟩
  | quiet hstep _ ih =>
    obtain ⟨n, u', hn, hu'⟩ := ih
    refine ⟨n + 1, u', fun budget => ?_, hu'⟩
    rw [← Nat.add_assoc, resume_succ, Run.bind_apply, hstep _ s hs]
    exact hn budget

end Transition.Leads

namespace Machine
variable {env : Environment ω}

section
variable (hhost : env.host.Impartial c) (hclient : env.IdleFor c.client)
  (hspares : ¬c.exact → env.host.SparesSiblings)
include hhost hclient hspares

/-- The second machine comes to the end that the first one comes to. -/
theorem resume_forward {w : Links} {budget : Nat} {t u : Transition} {s s₂ : State ω} (htu : t.Reaches c w env u)
    (hs : State.Alike c w s s₂) (hallows : Throughout env (c.Allows env) budget t s)
    {a : Except Error Value × State ω} (ha : resume env budget t s = some a)
    (hok : c.exact ∨ ∃ v, a.1 = .ok v) : ∃ n b, resume env n u s₂ = some b ∧ c.Ends w a b := by
  obtain ⟨n, u', hn, hend⟩ := htu.catchUp hs.holds
  cases hend with
  | @next f g below below' hfg =>
    cases budget with
    | zero => cases ha
    | succ budget =>
      cases hfg with
      | push hf hr =>
      have hidle := hallows.here.idle f below rfl
      have hidle' : ∀ site, g.method.decl.body[g.position]? = some (.dispatch site) →
          env.IdleFor site.client.fullName := fun site hsite => hidle site <| by
        have hnext := next_moved hf
        rw [hsite] at hnext
        generalize f.method.decl.body[f.position]? = x at hnext
        cases hnext with
        | some hij => rw [moved_dispatch hij]
      have hstep := step_steps hhost hclient hspares (runner env budget) (runner env 0) ⟨hf, hr⟩ hidle s s₂ hs
      unfold Run.TracksFrom at hstep
      rw [resume_succ, Run.bind_apply] at ha
      have hrest := hallows.2
      generalize step env (runner env budget) f below s = x at ha hstep hrest
      generalize hy : step env (runner env 0) g below' s₂ = y at hstep
      cases hstep with
      | @ok t₁ u₁ s' s₂' hab =>
        obtain ⟨w', hle, hs', hreach⟩ := hab
        obtain ⟨m, b, hb, hends⟩ := resume_forward hreach hs' (hrest t₁ s' rfl) ha hok
        exact ⟨m + 1 + n, b, (hn _).trans ((resume_step hidle' hy m).trans hb), hends.after hle⟩
      | @error e e' s' s₂' he =>
        obtain ⟨he, w', hle, hs'⟩ := he
        cases ha
        exact ⟨0 + 1 + n, _, (hn _).trans (resume_error hidle' hy 0), .error hle hs' he⟩
      | none => cases ha
      | loose hx hunfit =>
        rcases x with _ | ⟨e | t₁, s'⟩
        · cases ha
        · cases ha
          obtain hexact | ⟨v, hv⟩ := hok
          · exact absurd hexact hx
          · cases hv
        · exact absurd (hrest t₁ s' rfl).here.fits (hunfit t₁ s' rfl)
  | done hv =>
    cases budget <;>
    · cases ha
      exact ⟨0 + n, _, hn 0, .ok le_rfl hs hv⟩
termination_by budget

/-- The first machine comes to the end that the second one comes to, if errors are compared too. -/
theorem resume_backward (hexact : c.exact) (hidle : ∀ client, env.IdleFor client) {w : Links}
    {budget : Nat} {t u : Transition} {s s₂ : State ω} (htu : t.Reaches c w env u) (hs : State.Alike c w s s₂)
    {b : Except Error Value × State ω} (hb : resume env budget u s₂ = some b) :
    ∃ n a, resume env n t s = some a ∧ c.Ends w a b := by
  cases htu with
  | quiet hstep hu =>
    cases budget with
    | zero => cases hb
    | succ budget =>
      rw [resume_succ, Run.bind_apply, hstep _ s₂ hs.holds] at hb
      exact resume_backward hexact hidle hu hs hb
  | here hend =>
  cases hend with
  | done hv =>
    cases budget <;>
    · cases hb
      exact ⟨0, _, rfl, .ok le_rfl hs hv⟩
  | @next f g below below' hfg =>
    cases budget with
    | zero => cases hb
    | succ budget =>
      cases hfg with
      | push hf hr =>
      have hstep := step_steps hhost hclient hspares (runner env 0) (runner env budget) ⟨hf, hr⟩
        (fun site _ => hidle _) s s₂ hs
      unfold Run.TracksFrom at hstep
      rw [resume_succ, Run.bind_apply] at hb
      generalize hx : step env (runner env 0) f below s = x at hstep
      generalize step env (runner env budget) g below' s₂ = y at hb hstep
      cases hstep with
      | ok hab =>
        obtain ⟨w', hle, hs', hreach⟩ := hab
        obtain ⟨m, a, ha, hends⟩ := resume_backward hexact hidle hreach hs' hb
        exact ⟨m + 1, a, (resume_step (fun _ _ => hidle _) hx m).trans ha, hends.after hle⟩
      | error he =>
        obtain ⟨he, w', hle, hs'⟩ := he
        cases hb
        exact ⟨1, _, resume_error (fun _ _ => hidle _) hx 0, .error hle hs' he⟩
      | none => cases hb
      | loose hloose _ => exact absurd hexact hloose
termination_by budget

end

end Machine
end MobileCode
