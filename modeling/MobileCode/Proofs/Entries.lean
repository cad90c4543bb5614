import MobileCode.Proofs.Runs

/-! # Calls from outside

A call from outside starts alike in both domains, and what it comes to in the one it comes to in the other.
-/
namespace MobileCode

/-- A call from outside, by reference or by the values of its arguments. -/
inductive Entry
  | invoke (method : MethodRef) (receiver : Option Ref) (args : List Value)
  | invokeByValues (type method : String) (receiver : Option Ref) (args : List Value)

namespace Entry
variable {ω : Type}

def perform (env : Environment ω) (budget : Nat) : Entry → Run (State ω) Value
  | invoke m r args => env.host.invoke (Machine.runner env budget) m r args
  | invokeByValues type method r args => env.host.invokeByValues (Machine.runner env budget) type method r args

/-- The first frame of a call, or its result where a native method answers it. -/
def start (env : Environment ω) : Entry → Run (State ω) Transition
  | invoke m r args =>
    match env.host.native? m.owner.fullName m.name with
    | some native => do return .done (← native.call args)
    | none => do first (← env.host.resolveMethod m) r args
  | invokeByValues type method r args => do first (← env.host.resolveOverload type method args) r args
where
  first (m : MethodHandle) (r : Option Ref) (args : List Value) : Run (State ω) Transition := do
    return .next (← Run.ofExcept (Frame.enter (← get).domain.maxDepth 0 m r args)) []

theorem perform_eq (env : Environment ω) (budget : Nat) (call : Entry) (s : State ω) :
    call.perform env budget s = (call.start env >>= Machine.resume env budget) s := by
  cases call with
  | invoke m r args =>
    simp only [perform, start, Host.invoke]
    cases env.host.native? m.owner.fullName m.name with
    | some native =>
      simp only [bind_assoc, pure_bind]
      show _ = (native.call args >>= pure) s
      rw [bind_pure]
    | none =>
      simp only [start.first, Host.invokeHandle, bind_assoc, pure_bind]
      rfl
  | invokeByValues type method r args =>
    simp only [perform, start, start.first, Host.invokeByValues, Host.invokeHandle, bind_assoc, pure_bind]
    rfl

/-- The arguments of two calls of the same method are linked. -/
inductive Linked (w : Links) : Entry → Entry → Prop
  | invoke (m : MethodRef) {r r' : Option Ref} {args args' : List Value} : Option.Rel w r r' →
    List.Forall₂ (Value.Linked w) args args' → Linked w (.invoke m r args) (.invoke m r' args')
  | invokeByValues (type method : String) {r r' : Option Ref} {args args' : List Value} : Option.Rel w r r' →
    List.Forall₂ (Value.Linked w) args args' →
    Linked w (.invokeByValues type method r args) (.invokeByValues type method r' args')

section Tracking
variable {c : Comparison} {w : Links} {env : Environment ω} (hhost : env.host.Impartial c)
  (hclient : env.IdleFor c.client) (hspares : ¬c.exact → env.host.SparesSiblings)

theorem first_steps (hclient : env.IdleFor c.client) (hspares : ¬c.exact → env.host.SparesSiblings)
    {m n : MethodHandle} (hm : MethodHandle.Alike c w m n) {r r' : Option Ref} (hr : Option.Rel w r r')
    {args args' : List Value} (hargs : List.Forall₂ (Value.Linked w) args args') :
    Machine.Steps c env w (start.first m r args) (start.first n r' args') := by
  intro s t hst
  unfold start.first Run.TracksFrom
  rw [Run.get_bind, Run.get_bind, hst.domain.limit, hst.domain.sameLimit]
  exact Machine.enter_steps hclient hspares hm .nil rfl hr hargs s t hst

include hhost hclient hspares in
/-- A call starts alike in both domains. -/
theorem start_steps {call call' : Entry} (h : call.Linked w call') :
    Machine.Steps c env w (call.start env) (call'.start env) := by
  cases h with
  | invoke m hr hargs =>
    simp only [start]
    cases hn : env.host.native? m.owner.fullName m.name with
    | some native =>
      exact (hhost.native? hn w hargs).bind fun _ _ _ _ hv => Run.Tracks.pure (.here (.done hv))
    | none =>
      exact (Host.resolveMethod_tracks hhost m).bind fun _ hle _ _ hm =>
        first_steps hclient hspares hm (relRef_mono hle hr) (forall₂_mono hle hargs)
  | invokeByValues type method hr hargs =>
    exact (Host.resolveOverload_tracks hhost type method hargs).bind fun _ hle _ _ hm =>
      first_steps hclient hspares hm (relRef_mono hle hr) (forall₂_mono hle hargs)

/-- All transitions of a call satisfy `P`. -/
def Throughout (env : Environment ω) (P : Transition → Prop) (budget : Nat) (call : Entry) (s : State ω) : Prop :=
  ∀ t s', call.start env s = some (.ok t, s') → Machine.Throughout env P budget t s'

include hhost hclient hspares in
/-- The call in the second domain comes to the end of the call in the first one. -/
theorem perform_forward {call call' : Entry} (h : call.Linked w call') {s s₂ : State ω} (hs : State.Alike c w s s₂)
    {budget : Nat} (hallows : call.Throughout env (c.Allows env) budget s)
    {a : Except Error Value × State ω} (ha : call.perform env budget s = some a)
    (hok : c.exact ∨ ∃ v, a.1 = .ok v) : ∃ n b, call'.perform env n s₂ = some b ∧ c.Ends w a b := by
  have hstart := start_steps hhost hclient hspares h s s₂ hs
  unfold Run.TracksFrom at hstart
  rw [perform_eq, Run.bind_apply] at ha
  have hall := hallows
  unfold Throughout at hall
  generalize call.start env s = x at ha hstart hall
  generalize hy : call'.start env s₂ = y at hstart
  have hsecond : ∀ n, call'.perform env n s₂ = (call'.start env >>= Machine.resume env n) s₂ :=
    fun n => perform_eq env n call' s₂
  cases hstart with
  | @ok t u s' s₂' htu =>
    obtain ⟨w', hle, hs', hreach⟩ := htu
    obtain ⟨n, b, hb, hends⟩ := Machine.resume_forward hhost hclient hspares hreach hs' (hall t s' rfl) ha hok
    refine ⟨n, b, ?_, hends.after hle⟩
    rw [hsecond, Run.bind_apply, hy]
    exact hb
  | error he =>
    obtain ⟨he, w', hle, hs'⟩ := he
    cases ha
    refine ⟨0, _, ?_, .error hle hs' he⟩
    rw [hsecond, Run.bind_apply, hy]
  | none => cases ha
  | loose hx hunfit =>
    rcases x with _ | ⟨e | t, s'⟩
    · cases ha
    · cases ha
      obtain hexact | ⟨v, hv⟩ := hok
      · exact absurd hexact hx
      · cases hv
    · exact absurd (hall t s' rfl).here.fits (hunfit t s' rfl)

include hhost hclient hspares in
/-- The call in the first domain comes to the end of the call in the second one, if errors are
compared too. -/
theorem perform_backward (hexact : c.exact) (hidle : ∀ client, env.IdleFor client) {call call' : Entry}
    (h : call.Linked w call') {s s₂ : State ω} (hs : State.Alike c w s s₂) {budget : Nat}
    {b : Except Error Value × State ω} (hb : call'.perform env budget s₂ = some b) :
    ∃ n a, call.perform env n s = some a ∧ c.Ends w a b := by
  have hstart := start_steps hhost hclient hspares h s s₂ hs
  unfold Run.TracksFrom at hstart
  rw [perform_eq, Run.bind_apply] at hb
  generalize hx : call.start env s = x at hstart
  generalize call'.start env s₂ = y at hb hstart
  cases hstart with
  | ok htu =>
    obtain ⟨w', hle, hs', hreach⟩ := htu
    obtain ⟨n, a, ha, hends⟩ := Machine.resume_backward hhost hclient hspares hexact hidle hreach hs' hb
    refine ⟨n, a, ?_, hends.after hle⟩
    rw [perform_eq, Run.bind_apply, hx]
    exact ha
  | error he =>
    obtain ⟨he, w', hle, hs'⟩ := he
    cases hb
    refine ⟨0, _, ?_, .error hle hs' he⟩
    rw [perform_eq, Run.bind_apply, hx]
  | none => cases hb
  | loose hloose _ => exact absurd hexact hloose

end Tracking

end Entry

theorem Entry.Linked.refl : ∀ call : Entry, call.Linked Eq call
  | .invoke m _ args => .invoke m (relOption_refl fun _ _ => rfl) (Value.Linked.reflItems args)
  | .invokeByValues type method _ args =>
    .invokeByValues type method (relOption_refl fun _ _ => rfl) (Value.Linked.reflItems args)

/-! ## More budget -/

theorem Machine.resume_add {ω : Type} {env : Environment ω} (hidle : ∀ client, env.IdleFor client) {budget : Nat}
    {t : Transition} {s : State ω} {a : Except Error Value × State ω} (h : resume env budget t s = some a)
    (k : Nat) : resume env (budget + k) t s = some a := by
  induction budget generalizing t s with
  | zero =>
    cases t with
    | next f below => cases h
    | done v => exact h
  | succ budget ih =>
    cases t with
    | done v => exact h
    | next f below =>
      rw [resume_succ, Run.bind_apply] at h
      rw [Nat.add_right_comm, resume_succ, Run.bind_apply,
        step_runner _ (runner env budget) fun _ _ => hidle _]
      generalize step env (runner env budget) f below s = x at h ⊢
      rcases x with _ | ⟨_ | u, s'⟩
      · cases h
      · exact h
      · exact ih h

theorem Entry.perform_add {ω : Type} {env : Environment ω} (hidle : ∀ client, env.IdleFor client) {budget : Nat}
    {call : Entry} {s : State ω} {a : Except Error Value × State ω} (h : call.perform env budget s = some a)
    (k : Nat) : call.perform env (budget + k) s = some a := by
  rw [perform_eq, Run.bind_apply] at h ⊢
  generalize call.start env s = x at h ⊢
  rcases x with _ | ⟨_ | u, s'⟩
  · cases h
  · exact h
  · exact Machine.resume_add hidle h k

end MobileCode
