import MobileCode.Proofs.Selection
import MobileCode.Proofs.Successors

/-! # Moves of runs

The moves of a run are its steps up to the one that ends it. They show how often a run comes from the
front of a mobile method into its body, and what the body then calls.
-/
namespace MobileCode

namespace Machine
variable {ω : Type} {env : Environment ω}

/-- A step of a run, by the stack before it and the stack after it. -/
structure Move where
  top : Frame
  below : List Frame
  next : Frame
  rest : List Frame

/-- The moves of what is left of a run. -/
def moves (env : Environment ω) : Nat → Transition → State ω → List Move
  | budget + 1, .next f below, s =>
    match step env (runner env budget) f below s with
    | some (.ok (.next g rest), t) => ⟨f, below, g, rest⟩ :: moves env budget (.next g rest) t
    | _ => []
  | _, _, _ => []

@[simp] theorem moves_zero (t : Transition) (s : State ω) : moves env 0 t s = [] := rfl
@[simp] theorem moves_done (budget : Nat) (v : Value) (s : State ω) : moves env budget (.done v) s = [] := by
  cases budget <;> rfl

/-- The move that a step is. -/
def moved (f : Frame) (below : List Frame) : Transition → List Move
  | .next g rest => [⟨f, below, g, rest⟩]
  | .done _ => []

section
variable {f : Frame} {below : List Frame} {budget : Nat} {s s' : State ω}

theorem moves_step {t : Transition} (h : step env (runner env budget) f below s = some (.ok t, s')) :
    moves env (budget + 1) (.next f below) s = moved f below t ++ moves env budget t s' := by
  rw [moves, h]
  cases t with
  | next g rest => rfl
  | done v => rw [moves_done]; rfl

/-- A run that comes to its end has a first step, and goes on from there to that end. -/
theorem resume_eq_ok {v : Value} (h : resume env budget (.next f below) s = some (.ok v, s')) :
    ∃ k t u, budget = k + 1 ∧ step env (runner env k) f below s = some (.ok t, u) ∧
      resume env k t u = some (.ok v, s') ∧
      moves env budget (.next f below) s = moved f below t ++ moves env k t u := by
  cases budget with
  | zero => cases h
  | succ k =>
    rw [resume_succ, Run.bind_eq_ok] at h
    obtain ⟨t, u, hstep, ht⟩ := h
    exact ⟨k, t, u, rfl, hstep, ht, moves_step hstep⟩

end

/-- The given moves lead from one transition to another and leave the state alone. -/
inductive Passes (env : Environment ω) (s : State ω) : List Move → Transition → Transition → Prop
  | here (t : Transition) : Passes env s [] t t
  | step {f g : Frame} {below rest : List Frame} {xs : List Move} {u : Transition} :
    (∀ run, step env run f below s = some (.ok (.next g rest), s)) → Passes env s xs (.next g rest) u →
    Passes env s (⟨f, below, g, rest⟩ :: xs) (.next f below) u

namespace Passes
variable {s s' : State ω} {xs ys : List Move} {t u v : Transition}

theorem trans (h : Passes env s xs t u) (h' : Passes env s ys u v) : Passes env s (xs ++ ys) t v := by
  induction h with
  | here _ => exact h'
  | step hstep _ ih => exact .step hstep (ih h')

/-- A run that starts with these moves goes on with what comes behind them. -/
theorem resume_eq_ok (h : Passes env s xs t u) {budget : Nat} {v : Value}
    (hv : resume env budget t s = some (.ok v, s')) :
    ∃ k, resume env k u s = some (.ok v, s') ∧ moves env budget t s = xs ++ moves env k u s := by
  induction h generalizing budget with
  | here u => exact ⟨budget, hv, rfl⟩
  | step hstep _ ih =>
    obtain ⟨k, t, w, rfl, hstep', ht, hmoves⟩ := Machine.resume_eq_ok hv
    cases (hstep _).symm.trans hstep'
    obtain ⟨k', hk', hmoves'⟩ := ih ht
    exact ⟨k', hk', hmoves.trans (congrArg (_ :: ·) hmoves')⟩

/-- If a step ends the run behind them, they are all its moves. -/
theorem ends {f : Frame} {below : List Frame} (h : Passes env s xs t (.next f below)) {w : Value}
    (hends : ∀ run, Machine.step env run f below s = some (.ok (.done w), s)) {budget : Nat} {v : Value}
    (hv : resume env budget t s = some (.ok v, s')) : s' = s ∧ moves env budget t s = xs := by
  obtain ⟨k, hk, hmoves⟩ := h.resume_eq_ok hv
  obtain ⟨_, _, _, rfl, hstep, hdone, hnone⟩ := Machine.resume_eq_ok hk
  cases (hends _).symm.trans hstep
  cases hdone
  rw [hmoves, hnone, moves_done, moved, List.append_nil, List.append_nil]
  exact ⟨rfl, rfl⟩

end Passes

/-! ## Dispatches -/

/-- A dispatch never ends a run. -/
theorem step_dispatch_next {f : Frame} {site : DispatchSite}
    (hi : f.method.decl.body[f.position]? = some (.dispatch site)) {run : Runner ω} {below : List Frame}
    {s s' : State ω} {t : Transition} (h : step env run f below s = some (.ok t, s')) : ∃ outcome : DispatchOutcome,
      dispatch env run f.ahead site s = some (.ok outcome, s') ∧
      t = .next (match outcome with
        | .notExecuted => (f.ahead.push .null).push (.bool false)
        | .executed v => (f.ahead.push v).push (.bool true)) below := by
  rw [step_eq run below hi] at h
  simp only [execute, Run.bind_eq_ok] at h
  obtain ⟨outcome, _, houtcome, h⟩ := h
  cases outcome <;>
  · cases h
    exact ⟨_, houtcome, rfl⟩

/-- Where no client is installed, what is dispatched is not executed elsewhere. -/
theorem notExecuted_of_free (hfree : ∀ client, env.dispatcher? client = none) (budget : Nat) (t : Transition)
    (s : State ω) : ∀ x ∈ moves env budget t s, ∀ site, x.top.method.decl.body[x.top.position]? = some (.dispatch site) →
      x.next.stack = .bool false :: .null :: x.top.stack := by
  induction budget generalizing t s with
  | zero => simp
  | succ budget ih =>
    cases t with
    | done v => simp
    | next f below =>
      rw [moves]
      split
      · rename_i g rest s' hstep
        intro x hx site hi
        rcases List.mem_cons.mp hx with rfl | hx
        · obtain ⟨outcome, houtcome, ht⟩ := step_dispatch_next hi hstep
          simp only [dispatch, hfree] at houtcome
          cases houtcome
          exact congrArg Frame.stack (Transition.next.inj ht).1
        · exact ih _ _ x hx site hi
      · simp

section
variable {K : State ω → State ω → Prop} [IsPreorder (State ω) K] {failing : Prop} (hK : env.host.Respects failing K)
include hK

/-- What a run leaves alone that comes to its end and whose moves are no dispatches that a client takes. -/
theorem resume_respects {budget : Nat} {t : Transition} {s s' : State ω} {v : Value}
    (hv : resume env budget t s = some (.ok v, s')) (hquiet : ∀ x ∈ moves env budget t s, ¬Dispatches env x.top) :
    K s s' := by
  induction budget generalizing t s with
  | zero =>
    cases t with
    | next f below => cases hv
    | done w =>
      cases hv
      exact refl_of K _
  | succ budget ih =>
    cases t with
    | done w =>
      cases hv
      exact refl_of K _
    | next f below =>
      obtain ⟨k, t, u, hk, hstep, ht, hmoves⟩ := resume_eq_ok hv
      obtain rfl := Nat.succ.inj hk
      rw [hmoves] at hquiet
      have hidle : ¬Dispatches env f := by
        cases t with
        | next g rest => exact hquiet _ List.mem_cons_self
        | done w =>
          rintro ⟨site, hi, _⟩
          obtain ⟨_, _, hnext⟩ := step_dispatch_next hi hstep
          cases hnext
      have hsu := step_respects hK.guards hidle below s _ u hstep (.inr ⟨t, rfl⟩)
      exact trans_of K hsu (ih ht fun x hx => hquiet x (List.mem_append_right _ hx))

/-- What a run leaves alone whatever it comes to. -/
theorem Throughout.respects {P : Transition → Prop} (hP : ∀ f below, P (.next f below) → ¬Dispatches env f)
    {budget : Nat} {t : Transition} {s s' : State ω} {r : Except Error Value} (h : Throughout env P budget t s)
    (hr : resume env budget t s = some (r, s')) (hcounts : failing ∨ ∃ v, r = .ok v) : K s s' := by
  induction budget generalizing t s with
  | zero =>
    cases t with
    | next f below => cases hr
    | done w =>
      cases hr
      exact refl_of K _
  | succ budget ih =>
    cases t with
    | done w =>
      cases hr
      exact refl_of K _
    | next f below =>
      obtain ⟨hhere, hnext⟩ := h
      have hsteps : (step env (runner env budget) f below).Respects failing K :=
        step_respects hK.guards (hP f below hhere) below
      rw [resume_succ, Run.bind_apply] at hr
      rcases hstep : step env (runner env budget) f below s with _ | ⟨e | u, s₁⟩
      · rw [hstep] at hr
        cases hr
      · rw [hstep] at hr
        cases hr
        exact hsteps s _ _ hstep (hcounts.imp_right fun ⟨_, he⟩ => nomatch he)
      · rw [hstep] at hr
        exact trans_of K (hsteps s _ _ hstep (.inr ⟨u, rfl⟩)) (ih (hnext u s₁ hstep) hr)

end

end Machine

open Machine

/-! ## Bodies of mobile methods -/

namespace Target
variable (t : Target Datum) (client : String)

def key : MethodKey := t.method.key t.type.fullName

def siblingKey : MethodKey :=
  ⟨t.type.fullName, relayBodyName t.method.name, t.method.paramTypes ++ [TypeName.boolean]⟩

/-- The method that holds the body when the method is mobile. -/
def bodyKey : MethodKey := if t.mobility.mode = .normal then t.key else t.siblingKey

/-- What stands in front of the body. -/
def front : List (Instruction Value) :=
  if t.mobility.mode = .normal then (t.method.callSite client t.type.fullName).normalFront t.method.isVoid
  else (t.method.callSite client t.type.fullName).relayFront

/-- The move comes from the front into the body. -/
def starts (x : Move) : Bool :=
  x.rest.length = x.below.length && x.top.method.key = t.bodyKey && x.top.position < (t.front client).length &&
    (t.front client).length ≤ x.next.position

/-- The move enters the method or its sibling. -/
def enters (x : Move) : Bool :=
  x.rest.length = x.below.length + 1 && (x.next.method.key = t.key || x.next.method.key = t.siblingKey)

/-- How often the body is started. -/
def startCount (xs : List Move) : Nat := xs.countP (t.starts client)

/-- What the code of the method does: the moves from the start of the body on. -/
def code (xs : List Move) : List Move := xs.dropWhile fun x => !t.starts client x

variable {t client}

theorem bodyKey_eq : t.bodyKey = t.key ∨ t.bodyKey = t.siblingKey := by
  unfold bodyKey
  split
  · exact .inl rfl
  · exact .inr rfl

/-- If the body is started once more than behind that start, it is started once. -/
theorem startCount_eq {xs ys : List Move} {x : Move} (hxs : ∀ y ∈ xs, t.starts client y = false)
    (hx : t.starts client x = true) : t.code client (xs ++ x :: ys) = x :: ys ∧
      t.startCount client (xs ++ x :: ys) = t.startCount client ys + 1 := by
  constructor
  · rw [code, List.dropWhile_append_of_pos fun y hy => by rw [hxs y hy]; rfl, List.dropWhile_cons_of_neg (by simp [hx])]
  · have hnone : xs.countP (t.starts client) = 0 := List.countP_eq_zero.mpr fun y hy => by simp [hxs y hy]
    rw [startCount, List.countP_append, hnone, List.countP_cons_of_pos hx, Nat.zero_add]
    rfl

theorem startCount_eq_zero {xs : List Move} (h : ∀ x ∈ xs, t.starts client x = false) : t.startCount client xs = 0 :=
  List.countP_eq_zero.mpr fun x hx => by simp [h x hx]

end Target

/-- From behind its first `k` instructions no branch of the method leads back to them. -/
def MethodDecl.StaysBehind (d : MethodDecl Value) (k : Nat) : Prop :=
  ∀ p i n, k ≤ p → d.body[p]? = some i → i.target? = some n → k ≤ n.toNat

/-- A frame that runs the body has left the front behind it for good. -/
def Target.Settled (t : Target Datum) (client : String) (f : Frame) : Prop :=
  f.method.key = t.bodyKey → (t.front client).length ≤ f.position ∧ f.method.decl.StaysBehind (t.front client).length

namespace Target.Settled
variable {t : Target Datum} {client : String} {f g : Frame}

theorem samePlace (h : t.Settled client f) (hg : f.SamePlace g) : t.Settled client g := by
  intro hkey
  rw [hg.method] at hkey ⊢
  rw [hg.position]
  exact h hkey

theorem goesOn (h : t.Settled client f) (hg : f.GoesOn g) : t.Settled client g := by
  intro hkey
  rw [hg.method] at hkey ⊢
  obtain ⟨hpos, hbehind⟩ := h hkey
  refine ⟨?_, hbehind⟩
  rcases hg.position with hnext | ⟨i, n, hi, hn, htarget⟩
  · omega
  · rw [htarget]
    exact hbehind _ i n hpos hi hn

theorem of_new (hkey : f.method.key ≠ t.key) (hsibling : f.method.key ≠ t.siblingKey) : t.Settled client f := by
  intro hbody
  rcases t.bodyKey_eq with h | h
  · exact absurd (hbody.trans h) hkey
  · exact absurd (hbody.trans h) hsibling

/-- Behind the start of the body it is not started again, as long as the method is not called. -/
theorem moves {ω : Type} {env : Environment ω} {budget : Nat} {below : List Frame} {s : State ω}
    (hs : ∀ g ∈ f :: below, t.Settled client g)
    (hcalls : ∀ x ∈ moves env budget (.next f below) s, t.enters x = false) :
    ∀ x ∈ Machine.moves env budget (.next f below) s, t.starts client x = false := by
  induction budget generalizing f below s with
  | zero => simp
  | succ budget ih =>
    rw [Machine.moves] at hcalls ⊢
    split at hcalls
    · rename_i g rest s' hstep
      have htop := hs f List.mem_cons_self
      have hfollows := step_follows f below s _ _ hstep
      have hnot : t.starts client ⟨f, below, g, rest⟩ = false := by
        by_contra hstarts
        simp only [Bool.not_eq_false, starts, Bool.and_eq_true, decide_eq_true_eq] at hstarts
        have hpos := (htop hstarts.1.1.2).1
        omega
      have hnew (hlength : rest.length = below.length + 1) : t.Settled client g := by
        have hfirst := hcalls _ List.mem_cons_self
        simp only [enters, hlength, decide_true, Bool.true_and, Bool.or_eq_false_iff, decide_eq_false_iff_not] at hfirst
        exact .of_new hfirst.1 hfirst.2
      have hrest : ∀ h ∈ g :: rest, t.Settled client h := by
        cases hfollows with
        | stays hg => exact List.forall_mem_cons.mpr ⟨htop.goesOn hg, fun h hh => hs h (List.mem_cons_of_mem f hh)⟩
        | returns hcaller hg =>
          subst hcaller
          obtain ⟨hcaller, hbelow⟩ := List.forall_mem_cons.mp (List.forall_mem_cons.mp hs).2
          exact List.forall_mem_cons.mpr ⟨hcaller.samePlace hg, hbelow⟩
        | calls _ hf _ | constructs _ hf _ _ _ _ =>
          refine List.forall_mem_cons.mpr ⟨hnew rfl, List.forall_mem_cons.mpr ⟨htop.goesOn hf.goesOn, ?_⟩⟩
          exact fun h hh => hs h (List.mem_cons_of_mem f hh)
      intro x hx
      rcases List.mem_cons.mp hx with rfl | hx
      · exact hnot
      · exact ih hrest (fun y hy => hcalls y (List.mem_cons_of_mem _ hy)) x hx
    · simp

end Target.Settled

end MobileCode
