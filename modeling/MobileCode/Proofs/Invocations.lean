import MobileCode.Proofs.Executions
import MobileCode.Proofs.Natives

/-! # Calls of mobile methods

A call of a mobile method dispatches once, before its body. What comes of the dispatch decides whether the call
returns or goes on with the body, and the body never comes back to the front.
-/
namespace MobileCode
open Machine

/-! ## Advancing -/

namespace Machine
variable {ω : Type} {env : Environment ω} {s : State ω}

/-- The instructions at which the given frames stand lead from one transition to another. They leave the state alone
and run nothing on the side. -/
inductive Advances (env : Environment ω) (s : State ω) : List Frame → Transition → Transition → Prop
  | here (t : Transition) : Advances env s [] t t
  | step {f : Frame} {below fs : List Frame} {t u : Transition} :
    (∀ run, step env run f below s = some (.ok t, s)) → Advances env s fs t u →
    Advances env s (f :: fs) (.next f below) u

theorem Advances.trans {fs gs : List Frame} {t u v : Transition} (h : Advances env s fs t u)
    (h' : Advances env s gs u v) : Advances env s (fs ++ gs) t v := by
  induction h with
  | here _ => exact h'
  | step hstep _ ih => exact .step hstep (ih h')

theorem Advances.resume_eq {fs : List Frame} {t u : Transition} (h : Advances env s fs t u) (budget : Nat) :
    resume env (fs.length + budget) t s = resume env budget u s := by
  induction h with
  | here _ => rw [List.length_nil, Nat.zero_add]
  | step hstep _ ih =>
    rw [List.length_cons, Nat.add_right_comm, resume_succ, Run.bind_apply, hstep]
    exact ih

theorem Passes.advances {xs : List Move} {t u : Transition} (h : Passes env s xs t u) :
    Advances env s (xs.map (·.top)) t u := by
  induction h with
  | here t => exact .here t
  | step hstep _ ih => exact .step hstep ih

end Machine

/-- The frame as the answer to a dispatch leaves it. -/
def Frame.answered (f : Frame) : DispatchOutcome → Frame
  | .notExecuted => (f.ahead.push .null).push (.bool false)
  | .executed v => (f.ahead.push v).push (.bool true)

theorem Machine.step_asks {ω : Type} {env : Environment ω} {f : Frame} {site : DispatchSite} {p : Dispatcher ω}
    (hclient : env.dispatcher? site.client.fullName = some p)
    (hi : f.method.decl.body[f.position]? = some (.dispatch site)) (hargs : site.paramCount.toNat ≤ f.args.length)
    (run : Runner ω) (below : List Frame) (s : State ω) : step env run f below s =
      (p.dispatch env.host run site f.receiver (f.args.take site.paramCount.toNat) >>= fun outcome =>
        pure (.next (f.answered outcome) below)) s := by
  rw [step_eq run below hi]
  simp only [execute, dispatch, hclient, Nat.not_lt.mpr hargs, if_false]
  refine congrFun (congrArg (_ >>= ·) (funext fun outcome => ?_)) s
  cases outcome <;> rfl

/-! ## Frames that last -/

/-- The frame that stands on `below` satisfies `P`. -/
def Transition.On (below : List Frame) (P : Frame → Prop) : Transition → Prop
  | .next f rest => ∃ above g, f :: rest = above ++ g :: below ∧ P g
  | .done _ => False

/-- No frame stands on `below` any more. -/
def Transition.Left (below : List Frame) : Transition → Prop
  | .next _ rest => rest.length < below.length
  | .done _ => True

namespace Machine
variable {ω : Type} {env : Environment ω} {below : List Frame} {P Q : Frame → Prop}

/-- As long as a frame stands on `below`, it satisfies `P`. -/
def Within (env : Environment ω) (below : List Frame) (P : Frame → Prop) : Nat → Transition → State ω → Prop
  | 0, t, _ => t.Left below ∨ t.On below P
  | _ + 1, .done _, _ => True
  | budget + 1, .next f rest, s => Transition.Left below (.next f rest) ∨
      Transition.On below P (.next f rest) ∧ ∀ u s',
        step env (runner env budget) f rest s = some (.ok u, s') → Within env below P budget u s'

theorem Within.of_left {t : Transition} (h : t.Left below) (budget : Nat) (s : State ω) :
    Within env below P budget t s := by
  cases budget with
  | zero => exact .inl h
  | succ budget =>
    cases t with
    | done v => trivial
    | next f rest => exact .inl h

/-- What a frame keeps while it goes on and while others run on top of it, holds as long as it stands. -/
theorem Within.of_on (hgo : ∀ f g, P f → f.GoesOn g → P g) (hstay : ∀ f g, P f → f.SamePlace g → P g)
    {t : Transition} (ht : t.On below P) (budget : Nat) (s : State ω) : Within env below P budget t s := by
  induction budget generalizing t s with
  | zero => exact .inr ht
  | succ budget ih =>
    cases t with
    | done v => trivial
    | next f rest =>
      refine .inr ⟨ht, fun u s' hstep => ?_⟩
      have hfollows := step_follows f rest s u s' hstep
      have hnext {a rest : List Frame} {g h : Frame} (hstack : h :: rest = a ++ g :: below) (hg : P g) :
          Within env below P budget (.next h rest) s' := ih (t := .next h rest) ⟨a, g, hstack, hg⟩ s'
      have hends (v : Value) : Within env below P budget (.done v) s' := .of_left (t := .done v) trivial _ _
      obtain ⟨above, g, hstack, hg⟩ := ht
      cases above with
      | nil =>
        obtain ⟨rfl, rfl⟩ := List.cons.inj hstack
        cases hfollows with
        | stays hf => exact hnext (a := []) rfl (hgo _ _ hg hf)
        | returns hcaller _ => exact .of_left (by simp [Transition.Left, hcaller]) _ _
        | ends v => exact hends v
        | calls _ hf _ | constructs _ hf _ _ _ _ => exact hnext (a := [_]) rfl (hgo _ _ hg hf.goesOn)
      | cons x above =>
        obtain ⟨rfl, rfl⟩ := List.cons.inj hstack
        cases hfollows with
        | stays hf => exact hnext (a := _ :: above) rfl hg
        | returns hcaller hf =>
          cases above with
          | nil =>
            obtain ⟨rfl, rfl⟩ := List.cons.inj hcaller
            exact hnext (a := []) rfl (hstay _ _ hg hf)
          | cons y above =>
            obtain ⟨rfl, rfl⟩ := List.cons.inj hcaller
            exact hnext (a := _ :: above) rfl hg
        | ends v => exact hends v
        | calls _ _ _ | constructs _ _ _ _ _ _ => exact hnext (a := _ :: _ :: above) rfl hg

theorem Within.mono (hPQ : ∀ f, P f → Q f) {budget : Nat} {t : Transition} {s : State ω}
    (h : Within env below P budget t s) : Within env below Q budget t s := by
  have hon {t : Transition} (ht : t.On below P) : t.On below Q := by
    cases t with
    | done v => exact ht
    | next f rest =>
      obtain ⟨above, g, hstack, hg⟩ := ht
      exact ⟨above, g, hstack, hPQ g hg⟩
  induction budget generalizing t s with
  | zero => exact h.imp id hon
  | succ budget ih =>
    cases t with
    | done v => trivial
    | next f rest => exact h.imp id fun ⟨ht, hnext⟩ => ⟨hon ht, fun u s' hstep => ih (hnext u s' hstep)⟩

end Machine

/-- The frame runs `m` and stands behind its first `k` instructions, at no dispatch. -/
def Frame.InBody (m : MethodHandle) (k : Nat) (f : Frame) : Prop :=
  f.method = m ∧ k ≤ f.position ∧ ∀ site, f.method.decl.body[f.position]? ≠ some (.dispatch site)

/-- The frame stands at no dispatch and not behind the first `k` instructions of `m`. -/
def Frame.OutsideBody (m : MethodHandle) (k : Nat) (f : Frame) : Prop :=
  (f.method = m → f.position < k) ∧ ∀ site, f.method.decl.body[f.position]? ≠ some (.dispatch site)

/-- A body that branches only to itself and dispatches nothing is not left while its frame lasts. -/
theorem Machine.within_body {ω : Type} {env : Environment ω} {m : MethodHandle} {k : Nat}
    (hstays : m.decl.StaysBehind k) (hquiet : ∀ p, k ≤ p → ∀ site, m.decl.body[p]? ≠ some (.dispatch site))
    {f : Frame} (hm : f.method = m) (hk : k ≤ f.position) (below : List Frame) (budget : Nat) (s : State ω) :
    Within env below (Frame.InBody m k) budget (.next f below) s := by
  have hinside : Within env below (fun g => g.method = m ∧ k ≤ g.position) budget (.next f below) s := by
    refine .of_on ?_ ?_ (t := .next f below) ⟨[], f, rfl, hm, hk⟩ budget s
    · rintro g h ⟨rfl, hpos⟩ hgo
      refine ⟨hgo.method, ?_⟩
      rcases hgo.position with hnext | ⟨i, n, hi, hn, htarget⟩
      · omega
      · exact htarget ▸ hstays _ i n hpos hi hn
    · rintro g h ⟨rfl, hpos⟩ hsame
      exact ⟨hsame.method, hsame.position ▸ hpos⟩
  refine hinside.mono ?_
  rintro g ⟨rfl, hpos⟩
  exact ⟨rfl, hpos, hquiet _ hpos⟩

/-! ## Fronts -/

theorem Machine.finish_congr {f g : Frame} (hmethod : g.method = f.method) (hconstructs : g.constructs = f.constructs)
    (below : List Frame) (v : Value) : finish g below v = finish f below v := by
  cases below <;> simp only [finish, Frame.giveBack, hmethod, hconstructs]

theorem Machine.step_ret_finish {ω : Type} {env : Environment ω} {f : Frame}
    (hi : f.method.decl.body[f.position]? = some .ret) (hvoid : f.method.decl.isVoid = false) {v : Value}
    {rest : List Value} (hstack : f.stack = v :: rest) (run : Runner ω) (below : List Frame) (s : State ω) :
    step env run f below s = some (.ok (finish f below v), s) := by
  rw [step_eq run below hi]
  simp only [execute, hvoid, Bool.false_eq_true, if_false, Frame.pop, hstack]
  cases below <;> rfl

namespace Target
variable {t : Target Datum} {client : String} {ω : Type} {env : Environment ω} {f : Frame}

theorem HeldBy.getElem? {d : MethodDecl Value} (h : t.HeldBy client d) {p : Nat} {i : Instruction Value}
    (hi : (t.front client)[p]? = some i) : d.body[p]? = some i := by
  obtain ⟨rest, hbody, _⟩ := h
  exact hbody ▸ List.getElem?_append_of_some hi

theorem HeldBy.outsideBody (h : t.HeldBy client f.method.decl) {i : Instruction Value}
    (hi : (t.front client)[f.position]? = some i) (hquiet : ∀ site, i ≠ .dispatch site) :
    f.OutsideBody f.method (t.front client).length :=
  ⟨fun _ => (List.getElem?_eq_some_iff.mp hi).1,
    fun site hsite => hquiet site (Option.some.inj ((h.getElem? hi).symm.trans hsite))⟩

variable (env) in
/-- Behind the dispatch a front of normal mode returns what was executed, and else comes to the body. -/
theorem normal_advances (hmode : t.mobility.mode = .normal) (hholds : t.HeldBy client f.method.decl)
    (hvoid : f.method.decl.isVoid = t.method.isVoid) (hpos : f.position = 0) (hstack : f.stack = [])
    (outcome : DispatchOutcome) (below : List Frame) (s : State ω) : ∃ fs,
      (∀ g ∈ fs, g.OutsideBody f.method (t.front client).length) ∧
      Advances env s fs (.next (f.answered outcome) below) (match outcome with
        | .executed v => finish f below (if t.method.isVoid then .null else v)
        | .notExecuted => .next { f with position := (t.front client).length } below) := by
  have hfront : t.front client = _ := front_normal hmode
  obtain ⟨k, hlength, hk, _, hjump, hlast⟩ :=
    (t.method.callSite client t.type.fullName).normalFront_leads t.method.isVoid
  rw [← hfront] at hlength hjump hlast
  obtain ⟨m, r, args, locals, _, _, depth, constructs⟩ := f
  simp only at hpos hstack
  subst hpos hstack
  let g (p : Nat) (stack : List Value) : Frame := ⟨m, r, args, locals, stack, p, depth, constructs⟩
  cases outcome with
  | notExecuted =>
    have hjumps (run : Runner ω) : step env run (g 1 [.bool false, .null]) below s =
        some (.ok (.next (g k.toNat [.null]) below), s) :=
      step_jumpIfFalse (g := g 1 _) (hholds.getElem? hjump) rfl run below s
    have hpops (run : Runner ω) : step env run (g k.toNat [.null]) below s =
        some (.ok (.next (g (k.toNat + 1) []) below), s) :=
      step_pop (g := g k.toNat _) (hholds.getElem? hlast) rfl run below s
    refine ⟨[g 1 _, g k.toNat _], ?_, .step hjumps (.step hpops ?_)⟩
    · simp only [List.forall_mem_cons]
      exact ⟨hholds.outsideBody (f := g 1 _) hjump (by simp),
        hholds.outsideBody (f := g k.toNat _) hlast (by simp), by simp⟩
    · dsimp only
      rw [hlength]
      exact .here _
  | executed v =>
    have hjumps (run : Runner ω) : step env run (g 1 [.bool true, v]) below s =
        some (.ok (.next (g 2 [v]) below), s) :=
      step_jumpIfFalse (g := g 1 _) (hholds.getElem? hjump) rfl run below s
    cases hreturns : t.method.isVoid with
    | true =>
      have hpop : (t.front client)[2]? = some .pop := by rw [hfront, hreturns]; rfl
      have hret : (t.front client)[3]? = some .ret := by rw [hfront, hreturns]; rfl
      have hpops (run : Runner ω) : step env run (g 2 [v]) below s = some (.ok (.next (g 3 []) below), s) :=
        step_pop (g := g 2 _) (hholds.getElem? hpop) rfl run below s
      have hrets (run : Runner ω) : step env run (g 3 []) below s = some (.ok (finish (g 3 []) below .null), s) :=
        step_ret (g := g 3 _) (hholds.getElem? hret) (hvoid.trans hreturns) run below s
      refine ⟨[g 1 _, g 2 _, g 3 _], ?_, .step hjumps (.step hpops (.step hrets ?_))⟩
      · simp only [List.forall_mem_cons]
        exact ⟨hholds.outsideBody (f := g 1 _) hjump (by simp), hholds.outsideBody (f := g 2 _) hpop (by simp),
          hholds.outsideBody (f := g 3 _) hret (by simp), by simp⟩
      · exact finish_congr (f := g 0 []) (g := g 3 []) rfl rfl below .null ▸ .here _
    | false =>
      have hret : (t.front client)[2]? = some .ret := by rw [hfront, hreturns]; rfl
      have hrets (run : Runner ω) : step env run (g 2 [v]) below s = some (.ok (finish (g 2 [v]) below v), s) :=
        step_ret_finish (f := g 2 _) (hholds.getElem? hret) (hvoid.trans hreturns) rfl run below s
      refine ⟨[g 1 _, g 2 _], ?_, .step hjumps (.step hrets ?_)⟩
      · simp only [List.forall_mem_cons]
        exact ⟨hholds.outsideBody (f := g 1 _) hjump (by simp), hholds.outsideBody (f := g 2 _) hret (by simp), by simp⟩
      · exact finish_congr (f := g 0 []) (g := g 2 [v]) rfl rfl below v ▸ .here _

variable (env) in
/-- Without the marker the front of a sibling comes to its dispatch. -/
theorem moved_asks (hmode : t.mobility.mode ≠ .normal) (hmovable : t.method.Movable)
    (hholds : t.HeldBy client f.method.decl) (hpos : f.position = 0) (hstack : f.stack = [])
    (hmarker : f.args[t.method.params.length]? = some (.bool false)) (below : List Frame) (s : State ω) : ∃ fs,
      (∀ g ∈ fs, g.OutsideBody f.method (t.front client).length) ∧
      Advances env s fs (.next f below) (.next { f with position := 2 } below) := by
  have hcount : (t.method.callSite client t.type.fullName).paramCount.toNat = _ := MethodDecl.callSite_count hmovable
  obtain ⟨k, hlength, hk, hload, hjump, _⟩ := (t.method.callSite client t.type.fullName).relayFront_leads
  rw [← front_moved hmode] at hlength hload hjump
  obtain ⟨m, r, args, locals, _, _, depth, constructs⟩ := f
  simp only at hpos hstack
  subst hpos hstack
  let g (p : Nat) (stack : List Value) : Frame := ⟨m, r, args, locals, stack, p, depth, constructs⟩
  have hloads (run : Runner ω) : step env run (g 0 []) below s = some (.ok (.next (g 1 [.bool false]) below), s) :=
    step_loadArg (g := g 0 []) (hholds.getElem? hload) (hcount ▸ hmarker) run below s
  have hjumps (run : Runner ω) : step env run (g 1 [.bool false]) below s = some (.ok (.next (g 2 []) below), s) :=
    step_jumpIfTrue (g := g 1 _) (hholds.getElem? hjump) rfl run below s
  refine ⟨[g 0 _, g 1 _], ?_, .step hloads (.step hjumps (.here _))⟩
  simp only [List.forall_mem_cons]
  exact ⟨hholds.outsideBody (f := g 0 _) hload (by simp), hholds.outsideBody (f := g 1 _) hjump (by simp), by simp⟩

variable (env) in
/-- Behind the dispatch the front of a sibling drops the answer. -/
theorem moved_drops (hmode : t.mobility.mode ≠ .normal) (hholds : t.HeldBy client f.method.decl)
    (hpos : f.position = 2) (hstack : f.stack = []) (outcome : DispatchOutcome) (below : List Frame)
    (s : State ω) : ∃ fs, (∀ g ∈ fs, g.OutsideBody f.method (t.front client).length) ∧
      Advances env s fs (.next (f.answered outcome) below) (.next { f with position := 5 } below) := by
  obtain ⟨k, _, _, _, _, _, hpop, hpop'⟩ := (t.method.callSite client t.type.fullName).relayFront_leads
  rw [← front_moved hmode] at hpop hpop'
  obtain ⟨m, r, args, locals, _, _, depth, constructs⟩ := f
  simp only at hpos hstack
  subst hpos hstack
  let g (p : Nat) (stack : List Value) : Frame := ⟨m, r, args, locals, stack, p, depth, constructs⟩
  obtain ⟨b, v, hanswered⟩ : ∃ b v, Frame.answered (g 2 []) outcome = g 3 [.bool b, v] := by
    cases outcome with
    | notExecuted => exact ⟨false, .null, rfl⟩
    | executed v => exact ⟨true, v, rfl⟩
  have hpops (run : Runner ω) : step env run (g 3 [.bool b, v]) below s = some (.ok (.next (g 4 [v]) below), s) :=
    step_pop (g := g 3 _) (hholds.getElem? hpop) rfl run below s
  have hpops' (run : Runner ω) : step env run (g 4 [v]) below s = some (.ok (.next (g 5 []) below), s) :=
    step_pop (g := g 4 _) (hholds.getElem? hpop') rfl run below s
  refine ⟨[g 3 [.bool b, v], g 4 [v]], ?_, ?_⟩
  · simp only [List.forall_mem_cons]
    exact ⟨hholds.outsideBody (f := g 3 _) hpop (by simp), hholds.outsideBody (f := g 4 _) hpop' (by simp), by simp⟩
  · rw [hanswered]
    exact .step hpops (.step hpops' (.here _))

variable (env) in
/-- A stub comes to its sibling, to which it hands its arguments without the marker. -/
theorem LoadedIn.stub_advances {l : LoadedModule} {u : TypeDecl Value} {e sibling : MethodDecl Value}
    (h : t.LoadedIn client l u e sibling) (hmode : t.mobility.mode ≠ .normal)
    (hbody : e.body = (List.range e.params.length).map (fun i => .loadArg (UInt16.ofNat i)) ++
      [.const (.bool false), .call (sibling.reference ⟨none, u.fullName⟩), .ret])
    {s : State ω} (htype : s.domain.type? u.fullName = some ⟨l, u⟩)
    (hnative : env.host.native? u.fullName (relayBodyName t.method.name) = none) {r : Option Ref} {args : List Value}
    (hargs : args.length = t.method.params.length) {depth : Nat} (hroom : depth + 1 < s.domain.maxDepth)
    (constructs : Option Ref) (below : List Frame) : ∃ fs,
      (∀ g ∈ fs, g.OutsideBody ⟨l, u, sibling⟩ (t.front client).length) ∧
      Advances env s fs (.next (.first ⟨l, u, e⟩ r args depth constructs) below)
        (.next (.first ⟨l, u, sibling⟩ none (args ++ [.bool false]) (depth + 1))
          ({ Frame.first ⟨l, u, e⟩ r args depth constructs with position := args.length + 2 } :: below)) := by
  rw [h.length_params, ← hargs] at hbody
  have hsmall : args.length ≤ 2 ^ 16 := by
    have hparams := h.movable.params
    omega
  have hat := getElem?_behind_loads hbody
  have houtside {g : Frame} (hg : g.method = ⟨l, u, e⟩) : g.OutsideBody ⟨l, u, sibling⟩ (t.front client).length := by
    refine ⟨fun hsame => ?_, fun site hsite => ?_⟩
    · cases hg.symm.trans hsame
      have hlength := h.length_sibling_params
      rw [h.length_params] at hlength
      omega
    · have hmem := List.mem_of_getElem? hsite
      rw [hg] at hmem
      simp [hbody] at hmem
  let g (n : Nat) (stack : List Value) : Frame := { Frame.first ⟨l, u, e⟩ r args depth constructs with
    position := args.length + n, stack }
  obtain ⟨xs, hloads, hxs⟩ := passes_loads env (g := .first ⟨l, u, e⟩ r args depth constructs) hbody hsmall rfl rfl
    below s
  have hconst (run : Runner ω) : step env run (g 0 args.reverse) below s =
      some (.ok (.next (g 1 (.bool false :: args.reverse)) below), s) := step_const (g := g 0 _) (hat 0) run below s
  have hlength : (args ++ [Value.bool false]).length = sibling.params.length := by
    rw [h.length_sibling_params, List.length_append, hargs]
    rfl
  have hcall (run : Runner ω) : step env run (g 1 (.bool false :: args.reverse)) below s = some (.ok (.next
      (.first ⟨l, u, sibling⟩ none (args ++ [.bool false]) (depth + 1)) (g 2 [] :: below)), s) := by
    rw [step_callSibling (g := g 1 _) htype (h.sibling_name ▸ hnative) h.sibling_found (h.sibling_static hmode) (hat 1)
      (by rw [List.reverse_append]; rfl) hlength]
    show (Run.ofExcept (Frame.enter s.domain.maxDepth (depth + 1) ⟨l, u, sibling⟩ none (args ++ [.bool false])) >>= _ :
      Run (State ω) Transition) s = _
    rw [Frame.enter_static hroom (Frame.bindArguments_full _ hlength) (h.sibling_static hmode)]
    rfl
  refine ⟨xs.map (·.top) ++ [g 0 args.reverse, g 1 (.bool false :: args.reverse)], ?_,
    hloads.advances.trans (.step hconst (.step hcall (.here _)))⟩
  rw [List.forall_mem_append]
  refine ⟨fun y hy => ?_, ?_⟩
  · obtain ⟨x, hx, rfl⟩ := List.mem_map.mp hy
    exact houtside (hxs x hx)
  · simp only [List.forall_mem_cons]
    exact ⟨houtside rfl, houtside rfl, by simp⟩

variable (env) in
/-- A relayed call then returns to the stub, and the stub returns. -/
theorem relay_returns (hmode : t.mobility.mode = .relay) (hholds : t.HeldBy client f.method.decl)
    (hvoid : f.method.decl.isVoid = true) (hconstructs : f.constructs = none) (hpos : f.position = 5) {w : Frame}
    (hret : w.method.decl.body[w.position]? = some .ret) (hvoid' : w.method.decl.isVoid = true)
    (hother : w.method ≠ f.method) (below : List Frame) (s : State ω) : ∃ fs,
      (∀ g ∈ fs, g.OutsideBody f.method (t.front client).length) ∧
      Advances env s fs (.next f (w :: below)) (finish w below .null) := by
  have hlast : (t.front client)[f.position]? = some .ret := by
    have hsite : (t.method.callSite client t.type.fullName).mode = .relay := hmode
    rw [front_moved (hmode ▸ by decide), DispatchSite.relayFront, hsite, hpos]
    rfl
  have hback : finish f (w :: below) .null = .next w below := by
    simp only [finish, Frame.giveBack, hconstructs, hvoid, Option.isSome_none, Bool.false_eq_true, if_false, if_true]
  refine ⟨[f, w], ?_, .step (fun run => step_ret (hholds.getElem? hlast) hvoid run _ s)
    (hback ▸ .step (fun run => step_ret hret hvoid' run below s) (.here _))⟩
  simp only [List.forall_mem_cons]
  refine ⟨hholds.outsideBody hlast (by simp), ⟨fun hsame => absurd hsame hother, fun site hsite => ?_⟩, by simp⟩
  cases hret.symm.trans hsite

/-- The body has as many dispatches as before. -/
theorem HeldBy.quiet {d : MethodDecl Value} (h : t.HeldBy client d) (hquiet : ∀ site, .dispatch site ∉ t.method.body)
    (p : Nat) (hp : (t.front client).length ≤ p) (site : DispatchSite) : d.body[p]? ≠ some (.dispatch site) := by
  intro hi
  obtain ⟨rest, hbody, hrest⟩ := h
  rw [hbody, List.getElem?_append_right hp] at hi
  have hshape : (rest.map Instruction.shape)[p - (t.front client).length]? = some (.dispatch site) := by
    rw [List.getElem?_map, hi]
    rfl
  rw [hrest, List.getElem?_map, List.getElem?_map, Option.map_eq_some_iff] at hshape
  obtain ⟨_, hshift, hshape⟩ := hshape
  obtain ⟨i, hi, rfl⟩ := Option.map_eq_some_iff.mp hshift
  cases i with
  | dispatch other =>
    cases hshape
    exact hquiet site (List.mem_of_getElem? hi)
  | _ => exact nomatch hshape

end Target

/-! ## Types with a mobile method as they are loaded -/

/-- The method as it is loaded: in normal mode it holds the body itself, and else its sibling holds it. -/
structure Target.Loaded (x : Target Datum) (client : String) (l : LoadedModule) (u : TypeDecl Value)
    (e : MethodDecl Value) : Prop where
  type : u.fullName = x.type.fullName
  movable : x.method.Movable
  params : e.params.length = x.method.params.length
  void : e.isVoid = x.method.isVoid
  static : e.isStatic = x.method.isStatic
  holds : x.mobility.mode = .normal → x.HeldBy client e ∧ e.locals = x.method.locals
  moved : x.mobility.mode ≠ .normal → ∃ sibling, x.LoadedIn client l u e sibling ∧ e.body =
    (List.range e.params.length).map (fun i => .loadArg (UInt16.ofNat i)) ++
      [.const (.bool false), .call (sibling.reference ⟨none, u.fullName⟩), .ret]

/-- The method stands in a type in its mobile form, and so does its sibling if it has one. -/
structure Target.Placed (x : Target Datum) (client : String) (closure : Closure) (t : TypeDecl Datum) : Prop where
  name : t.fullName = x.type.fullName
  movable : x.method.Movable
  main : t.methods[x.methodIndex]? = some (x.method.mobileForm client x.type.fullName closure)
  sibling : x.mobility.mode ≠ .normal → t.method? (relayBodyName x.method.name) (x.method.paramTypes ++
    [TypeName.boolean]) = some (x.method.relaySibling (x.method.callSite client x.type.fullName))

/-- An element that replaces another one is found where that one was found. -/
theorem List.find?_set_eq {β : Type} {p : β → Bool} {xs : List β} {y z : β} {j : Nat} (hj : xs[j]? = some y)
    (hp : p z = p y) : (xs.set j z).find? p = xs.find? p ∨
      xs.find? p = some y ∧ (xs.set j z).find? p = some z := by
  induction xs generalizing j with
  | nil => cases hj
  | cons a xs ih =>
    cases j with
    | zero =>
      obtain rfl : a = y := Option.some.inj hj
      rw [List.set_cons_zero, List.find?_cons, List.find?_cons, hp]
      cases p a with
      | true => exact .inr ⟨rfl, rfl⟩
      | false => exact .inl rfl
    | succ j =>
      rw [List.set_cons_succ, List.find?_cons, List.find?_cons]
      cases p a with
      | true => exact .inl rfl
      | false => exact ih hj

namespace TypeDecl
section
variable {α : Type} {client module : String} {t t' : TypeDecl α} {index : Nat} {a : Mobility} {closure : Closure}
  {done : Mobilized} {d : MethodDecl α}

/-- The method as a target of its own. -/
def target (t : TypeDecl α) (index : Nat) (a : Mobility) (d : MethodDecl α) : Target α :=
  ⟨0, index, t, { d with mobility := some a }⟩

variable [Literal α] (h : t.mobilize client module index a closure = .ok (done, t')) (hd : t.methods[index]? = some d)
include h hd

/-- In the place of the method stands its mobile form, and behind all methods its sibling. -/
theorem mobilize_eq_ok : (t.target index a d).method.Movable ∧
      d.flags.has MethodFlags.mobilized = false ∧
      (a.mode ≠ .normal → ∀ e ∈ t.methods, e.name ≠ relayBodyName d.name) ∧
      t' = { t with methods := t.methods.set index ((t.target index a d).method.mobileForm client t.fullName closure) ++
        ((t.target index a d).method.sibling? client t.fullName).toList } := by
  unfold mobilize at h
  simp only [hd] at h
  cases hobstacle : a.obstacle? t d with
  | some o => simp [Mobility.check, hobstacle, bind, Except.bind] at h
  | none =>
    simp only [Mobility.check, hobstacle, bind, Except.bind, pure, Except.pure, Except.ok.injEq, Prod.mk.injEq] at h
    obtain ⟨hmovable, hfree⟩ := movable_of_obstacle?_eq_none (d := (t.target index a d).method) hobstacle
    have hfirst : d.flags.has MethodFlags.mobilized = false := by
      unfold Mobility.obstacle? at hobstacle
      split at hobstacle
      · cases hobstacle
      · rename_i hmobilized
        exact Bool.not_eq_true _ ▸ hmobilized
    refine ⟨hmovable, hfirst, hfree, h.2.symm.trans ?_⟩
    obtain ⟨mode, onMainThread⟩ := a
    cases mode <;> rfl

theorem mobilize_sibling (hmode : a.mode ≠ .normal) : t'.method? (relayBodyName d.name)
    (d.paramTypes ++ [TypeName.boolean]) = some (d.relaySibling (a.site client t.fullName d)) := by
  obtain ⟨hmovable, _, hfree, rfl⟩ := mobilize_eq_ok h hd
  have hsibling : (t.target index a d).method.sibling? client t.fullName =
      some (d.relaySibling (a.site client t.fullName d)) := by
    rw [MethodDecl.sibling?, MethodDecl.mobilize_moved (d := (t.target index a d).method) hmode]
    rfl
  rw [hsibling, ← d.relaySibling_paramTypes (a.site client t.fullName d)]
  refine method?_sibling (s := d.relaySibling (a.site client t.fullName d)) rfl (by simp) List.mem_cons_self
    fun x hx hname => ?_
  obtain hx | rfl := List.mem_or_eq_of_mem_set hx
  · exact hfree hmode x hx hname.symm
  · exact hfree hmode d (List.mem_of_getElem? hd)
      ((MethodDecl.mobileForm_name (d := (t.target index a d).method) closure).symm.trans hname.symm)

end

variable {client module : String} {t t' : TypeDecl Datum} {index : Nat} {a : Mobility} {closure : Closure}
  {done : Mobilized} {d : MethodDecl Datum}

theorem mobilize_places (h : t.mobilize client module index a closure = .ok (done, t'))
    (hd : t.methods[index]? = some d) : (t.target index a d).Placed client closure t' := by
  have hsibling := mobilize_sibling h hd
  obtain ⟨hmovable, _, _, rfl⟩ := mobilize_eq_ok h hd
  have hlt : index < t.methods.length := (List.getElem?_eq_some_iff.mp hd).1
  refine ⟨rfl, hmovable, ?_, fun hmode => hsibling hmode⟩
  show (_ ++ _)[index]? = _
  rw [List.getElem?_append_left (by rw [List.length_set]; exact hlt), List.getElem?_set_self hlt]
  rfl

/-- Any number of methods, one after the other, are made mobile. -/
inductive Rewritten (client module : String) : TypeDecl Datum → TypeDecl Datum → Prop
  | here (t : TypeDecl Datum) : Rewritten client module t t
  | step {t t' t'' : TypeDecl Datum} {index : Nat} {a : Mobility} {closure : Closure} {done : Mobilized} :
    t.mobilize client module index a closure = .ok (done, t') → Rewritten client module t' t'' →
    Rewritten client module t t''

end TypeDecl

namespace Target.Placed
variable {x : Target Datum} {client module : String} {closure : Closure} {t t' : TypeDecl Datum}

/-- A method that is mobile stays as it is while others are made mobile. -/
theorem mobilize (h : x.Placed client closure t) {index : Nat} {a : Mobility} {closure' : Closure} {done : Mobilized}
    (hmobilize : t.mobilize client module index a closure' = .ok (done, t')) : x.Placed client closure t' := by
  cases hd : t.methods[index]? with
  | none =>
    simp only [TypeDecl.mobilize, hd] at hmobilize
    cases hmobilize
  | some d =>
    obtain ⟨_, hfirst, _, rfl⟩ := TypeDecl.mobilize_eq_ok hmobilize hd
    have hne {e : MethodDecl Datum} (he : e.flags.has MethodFlags.mobilized = true) : d ≠ e := by
      rintro rfl
      rw [hfirst] at he
      cases he
    refine ⟨h.name, h.movable, ?_, fun hmode => ?_⟩
    · have hlt : x.methodIndex < t.methods.length := (List.getElem?_eq_some_iff.mp h.main).1
      have hother : index ≠ x.methodIndex := by
        rintro rfl
        exact hne (MethodDecl.mobileForm_mobilized closure) (Option.some.inj (hd.symm.trans h.main))
      show (_ ++ _)[x.methodIndex]? = _
      rw [List.getElem?_append_left (by rw [List.length_set]; exact hlt), List.getElem?_set_ne hother, h.main]
    · have hfound := h.sibling hmode
      unfold TypeDecl.method? at hfound ⊢
      refine (List.find?_append ..).trans ?_
      obtain hsame | ⟨hother, _⟩ := List.find?_set_eq hd
        (p := fun e => e.name = relayBodyName x.method.name &&
          e.hasSignature (x.method.paramTypes ++ [TypeName.boolean]))
        (z := (t.target index a d).method.mobileForm client t.fullName closure')
        (by simp only [MethodDecl.hasSignature, MethodDecl.mobileForm_name, MethodDecl.mobileForm_paramTypes]; rfl)
      · rw [hsame, hfound]
        rfl
      · exact absurd (Option.some.inj (hother.symm.trans hfound)) (hne (MethodDecl.relaySibling_mobilized _))

theorem rewritten (h : x.Placed client closure t) (hmore : TypeDecl.Rewritten client module t t') :
    x.Placed client closure t' := by
  induction hmore with
  | here _ => exact h
  | step hmobilize _ ih => exact ih (h.mobilize hmobilize)

theorem loads (h : x.Placed client closure t) {l : LoadedModule} {u : TypeDecl Value} (hu : u.shape = t.shape)
    {e : MethodDecl Value} (he : u.methods[x.methodIndex]? = some e) : x.Loaded client l u e := by
  have htype : u.fullName = x.type.fullName := (TypeDecl.fullName_eq hu).trans h.name
  obtain ⟨e₀, he₀, hshape⟩ := TypeDecl.methods_getElem? hu he
  cases h.main.symm.trans he₀
  have halike := MethodDecl.mobileForm_alike client x.type.fullName x.method closure
  have hbody : e.body.map Instruction.shape = _ := congrArg MethodDecl.body hshape
  refine
    { type := htype
      movable := h.movable
      params := (MethodDecl.length_params_eq hshape).trans halike.params.length_eq.symm
      void := (MethodDecl.isVoid_eq hshape).trans halike.isVoid
      static := (MethodDecl.isStatic_eq hshape).trans halike.static
      holds := fun hmode => ?_
      moved := fun hmode => ?_ }
  · rw [MethodDecl.mobileForm_normal hmode] at hbody hshape
    have hlocals : e.locals = x.method.locals := congrArg MethodDecl.locals hshape
    exact ⟨.of_shape hmode hbody, hlocals⟩
  · rw [MethodDecl.mobileForm_moved hmode] at hbody hshape
    obtain ⟨s, hs, hsame⟩ := TypeDecl.method?_eq hu.symm (h.sibling hmode)
    have hloaded : x.LoadedIn client l u e s :=
      { type := htype
        params := congrArg MethodDecl.params hshape
        relayBody := congrArg MethodDecl.relayBody hshape
        sibling := hs
        shape := hsame.symm
        movable := h.movable }
    exact ⟨s, hloaded, hloaded.stub hbody⟩

end Target.Placed

/-! ## Calls -/

/-- Behind `k` instructions `g` holds the body of `d`, for the call for which `f` was made. -/
structure Frame.StandsFor (d : MethodDecl Datum) (k : Nat) (f g : Frame) : Prop where
  body : ∃ front body, g.method.decl.body = front ++ body ∧ front.length = k ∧
    body.map Instruction.shape = (d.body.map (·.shift (UInt64.ofNat k))).map Instruction.shape
  args : g.args.take d.params.length = f.args
  receiver : g.receiver = f.receiver
  locals : g.locals = List.replicate d.locals.toNat .null
  stack : g.stack = []

/-- How the call `f` goes on when the dispatch in the frame `g` has been answered: it returns, or comes to the body
behind `k` instructions. -/
def Mode.continues (mode : Mode) (isVoid : Bool) (f : Frame) (below : List Frame) (g : Frame) (rest : List Frame)
    (k : Nat) : DispatchOutcome → Transition
  | .executed v =>
    match mode with
    | .normal => finish f below (if isVoid then .null else v)
    | .relay => finish f below .null
    | .replay => .next { g with position := k } rest
  | .notExecuted =>
    match mode with
    | .relay => finish f below .null
    | _ => .next { g with position := k } rest

/-- The call `f` dispatches once, in the frame `g` before the body that stands there behind `k` instructions. -/
structure Machine.DispatchesOnce {ω : Type} (env : Environment ω) (s : State ω) (p : Dispatcher ω) (site : DispatchSite)
    (isVoid : Bool) (f : Frame) (below : List Frame) (g : Frame) (rest : List Frame) (k : Nat) : Prop where
  comes : ∃ fs, (∀ x ∈ fs, x.OutsideBody g.method k) ∧ Advances env s fs (.next f below) (.next g rest)
  front : g.position < k
  stands : g.method.decl.body[g.position]? = some (.dispatch site)
  asks : ∀ run z, step env run g rest z = (p.dispatch env.host run site f.receiver f.args >>= fun outcome =>
    pure (.next (g.answered outcome) rest)) z
  goesOn : ∀ outcome z, ∃ fs, (∀ x ∈ fs, x.OutsideBody g.method k) ∧
    Advances env z fs (.next (g.answered outcome) rest) (site.mode.continues isVoid f below g rest k outcome)
  within : ∀ budget z, Within env rest (Frame.InBody g.method k) budget (.next { g with position := k } rest) z
  returns : site.mode = .replay → ∃ w, rest = w :: below ∧
    (∀ x v, x.method = g.method → x.constructs = none → finish x rest v = .next w below) ∧
    ∀ z, Advances env z [w] (.next w below) (finish f below .null)

theorem Machine.DispatchesOnce.resume_eq {ω : Type} {env : Environment ω} {s : State ω} {p : Dispatcher ω}
    {site : DispatchSite} {isVoid : Bool} {f g : Frame} {below rest : List Frame} {k : Nat}
    (h : DispatchesOnce env s p site isVoid f below g rest k) : ∃ n, ∀ budget,
      resume env (n + (budget + 1)) (.next f below) s =
        (p.dispatch env.host (runner env budget) site f.receiver f.args >>= fun outcome =>
          resume env budget (.next (g.answered outcome) rest)) s := by
  obtain ⟨fs, _, hadvances⟩ := h.comes
  refine ⟨fs.length, fun budget => ?_⟩
  rw [hadvances.resume_eq, resume_succ, Run.bind_apply, h.asks, Run.bind_apply, Run.bind_apply]
  rcases p.dispatch env.host (runner env budget) site f.receiver f.args s with _ | ⟨_ | _, _⟩ <;> rfl

namespace Target.Loaded
variable {t : Target Datum} {client : String} {l : LoadedModule} {u : TypeDecl Value} {e : MethodDecl Value}
  {ω : Type} {env : Environment ω} {p : Dispatcher ω} {s : State ω} {args : List Value} {depth : Nat}

theorem dispatchesOnce_normal (h : t.Loaded client l u e) (hmode : t.mobility.mode = .normal)
    (hinside : BranchesInside t.method.body) (hwords : t.method.body.length < 2 ^ 63)
    (hquiet : ∀ site, .dispatch site ∉ t.method.body) (hclient : env.dispatcher? client = some p)
    (hargs : args.length = t.method.params.length) (r : Option Ref) (depth : Nat) (constructs : Option Ref)
    (below : List Frame) : (Frame.first ⟨l, u, e⟩ r args depth constructs).StandsFor t.method (t.front client).length
        (.first ⟨l, u, e⟩ r args depth constructs) ∧
      DispatchesOnce env s p (t.method.callSite client t.type.fullName) t.method.isVoid
        (.first ⟨l, u, e⟩ r args depth constructs) below (.first ⟨l, u, e⟩ r args depth constructs) below
        (t.front client).length := by
  obtain ⟨hholds, hlocals⟩ := h.holds hmode
  have hcount : (t.method.callSite client t.type.fullName).paramCount.toNat = args.length :=
    (MethodDecl.callSite_count h.movable).trans hargs.symm
  have hsite : (t.method.callSite client t.type.fullName).mode = .normal := hmode
  obtain ⟨k, hlength, hk, hdispatch, _⟩ :=
    (t.method.callSite client t.type.fullName).normalFront_leads t.method.isVoid
  rw [← front_normal hmode] at hlength hdispatch
  refine ⟨?_, ⟨[], by simp, .here _⟩, by rw [hlength]; exact Nat.succ_pos _, hholds.getElem? hdispatch,
    fun run z => ?_, fun outcome z => ?_, fun budget z => ?_, fun hreplay => ?_⟩
  · obtain ⟨rest, hbody, hrest⟩ := hholds
    refine ⟨⟨_, rest, hbody, rfl, hrest⟩, ?_, rfl, ?_, rfl⟩
    · exact List.take_of_length_le (Nat.le_of_eq hargs)
    · show List.replicate e.locals.toNat _ = _
      rw [hlocals]
  · have hasks := step_asks (p := p) (f := .first ⟨l, u, e⟩ r args depth constructs) hclient
      (hholds.getElem? hdispatch) (Nat.le_of_eq hcount) run below z
    have hall : (Frame.first ⟨l, u, e⟩ r args depth constructs).args.take args.length = args := List.take_length
    rw [hcount, hall] at hasks
    exact hasks
  · obtain ⟨fs, hfs, hadvances⟩ := normal_advances env hmode (f := .first ⟨l, u, e⟩ r args depth constructs) hholds
      h.void rfl rfl outcome below z
    refine ⟨fs, hfs, ?_⟩
    cases outcome <;> simp only [Mode.continues, hsite] <;> exact hadvances
  · exact within_body (m := ⟨l, u, e⟩) (hholds.staysBehind hinside hwords) (hholds.quiet hquiet)
      (f := { Frame.first ⟨l, u, e⟩ r args depth constructs with position := _ }) rfl (Nat.le_refl _) below budget z
  · exact absurd (hreplay.symm.trans hsite) (by decide)

/-- The frame of the sibling stands for the call of the stub. -/
theorem standsFor_moved (h : t.Loaded client l u e) (hmode : t.mobility.mode ≠ .normal) {sibling : MethodDecl Value}
    (hloaded : t.LoadedIn client l u e sibling) (hargs : args.length = t.method.params.length)
    (r constructs : Option Ref) :
    (Frame.first ⟨l, u, e⟩ r args depth constructs).StandsFor t.method (t.front client).length
      { Frame.first ⟨l, u, sibling⟩ none (args ++ [.bool false]) (depth + 1) with position := 2 } := by
  obtain ⟨rest, hrest, hshape⟩ := hloaded.holds hmode
  refine ⟨⟨_, rest, hrest, rfl, hshape⟩, ?_, ?_, ?_, rfl⟩
  · show (args ++ _).take _ = args
    rw [← hargs, List.take_left]
  · simp [Frame.first, hloaded.sibling_static hmode, h.static.trans (h.movable.static hmode)]
  · have hlocals : sibling.locals = t.method.locals := congrArg MethodDecl.locals hloaded.shape
    show List.replicate sibling.locals.toNat _ = _
    rw [hlocals]

/-- Whatever the answer, a relayed method returns from its sibling and from the stub, and a replayed one comes to the
body in its sibling. -/
theorem moved_continues (env : Environment ω) (hmode : t.mobility.mode ≠ .normal) {f g w : Frame}
    (hholds : t.HeldBy client g.method.decl) (hvoid : g.method.decl.isVoid = true) (hpos : g.position = 2)
    (hstack : g.stack = []) (hconstructs : g.constructs = none)
    (hret : w.method.decl.body[w.position]? = some .ret) (hvoid' : w.method.decl.isVoid = true)
    (hother : w.method ≠ g.method) {below : List Frame} (hfinish : finish w below .null = finish f below .null)
    (isVoid : Bool) (outcome : DispatchOutcome) (z : State ω) : ∃ fs,
      (∀ x ∈ fs, x.OutsideBody g.method (t.front client).length) ∧
      Advances env z fs (.next (g.answered outcome) (w :: below))
        (t.mobility.mode.continues isVoid f below g (w :: below) (t.front client).length outcome) := by
  obtain ⟨fs, hfs, hdrops⟩ := moved_drops env hmode hholds hpos hstack outcome (w :: below) z
  cases hm : t.mobility.mode with
  | normal => exact absurd hm hmode
  | relay =>
    obtain ⟨gs, hgs, hreturns⟩ := relay_returns env hm (f := { g with position := 5 }) hholds hvoid hconstructs rfl
      hret hvoid' hother below z
    refine ⟨fs ++ gs, List.forall_mem_append.mpr ⟨hfs, hgs⟩, ?_⟩
    rw [hfinish] at hreturns
    cases outcome <;> exact hdrops.trans hreturns
  | replay =>
    have hsite : (t.method.callSite client t.type.fullName).mode = .replay := hm
    have hfive : (t.front client).length = 5 := by
      rw [front_moved hmode, DispatchSite.relayFront, hsite]
      rfl
    refine ⟨fs, hfs, ?_⟩
    rw [hfive]
    cases outcome <;> exact hdrops

theorem dispatchesOnce_moved (h : t.Loaded client l u e) (hmode : t.mobility.mode ≠ .normal)
    (hinside : BranchesInside t.method.body) (hwords : t.method.body.length < 2 ^ 63)
    (hquiet : ∀ site, .dispatch site ∉ t.method.body) (hclient : env.dispatcher? client = some p)
    (hspares : env.host.SparesSiblings) (htype : s.domain.type? u.fullName = some ⟨l, u⟩)
    (hargs : args.length = t.method.params.length) (hroom : depth + 1 < s.domain.maxDepth) (r constructs : Option Ref)
    (below : List Frame) : ∃ g rest,
      (Frame.first ⟨l, u, e⟩ r args depth constructs).StandsFor t.method (t.front client).length g ∧
      DispatchesOnce env s p (t.method.callSite client t.type.fullName) t.method.isVoid
        (.first ⟨l, u, e⟩ r args depth constructs) below g rest (t.front client).length := by
  obtain ⟨sibling, hloaded, hbody⟩ := h.moved hmode
  have hholds : t.HeldBy client sibling := hloaded.holds hmode
  have hcount : (t.method.callSite client t.type.fullName).paramCount.toNat = args.length :=
    (MethodDecl.callSite_count h.movable).trans hargs.symm
  obtain ⟨k, hlength, hk, _, _, hdispatch, _⟩ := (t.method.callSite client t.type.fullName).relayFront_leads
  rw [← front_moved hmode] at hlength hdispatch
  let w : Frame := { Frame.first ⟨l, u, e⟩ r args depth constructs with position := args.length + 2 }
  let g : Frame := { Frame.first ⟨l, u, sibling⟩ none (args ++ [.bool false]) (depth + 1) with position := 2 }
  have hvoid : e.isVoid = true := h.void.trans (h.movable.void hmode)
  have hret : w.method.decl.body[w.position]? = some .ret := by
    rw [h.params, ← hargs] at hbody
    exact getElem?_behind_loads hbody 2
  have hother : w.method ≠ g.method := by
    intro hsame
    have hparams := congrArg (fun m => m.decl.params.length) hsame
    have hlong := hloaded.length_sibling_params
    have hshort := h.params
    simp only [w, g, Frame.first] at hparams
    omega
  refine ⟨g, w :: below, h.standsFor_moved hmode hloaded hargs r constructs, ?_, ?_, hholds.getElem? hdispatch,
    fun run z => ?_, fun outcome z => ?_, fun budget z => ?_,
    fun hreplay => ⟨w, rfl, fun x v hx hnone => ?_, fun z => ?_⟩⟩
  · obtain ⟨fs, hfs, hstub⟩ := hloaded.stub_advances env hmode hbody htype (hspares _ _) (r := r) hargs
      hroom constructs below
    obtain ⟨gs, hgs, hfront⟩ := moved_asks env hmode h.movable
      (f := .first ⟨l, u, sibling⟩ none (args ++ [.bool false]) (depth + 1)) hholds rfl rfl
      (by simp [Frame.first, ← hargs]) (w :: below) s
    exact ⟨fs ++ gs, List.forall_mem_append.mpr ⟨hfs, hgs⟩, hstub.trans hfront⟩
  · show 2 < _
    omega
  · have hasks := step_asks (p := p) (f := g) hclient (hholds.getElem? hdispatch) (by
      rw [hcount]
      simp [g, Frame.first]) run (w :: below) z
    have hall : g.args.take args.length = args := List.take_left
    have hreceiver : g.receiver = (Frame.first ⟨l, u, e⟩ r args depth constructs).receiver :=
      (h.standsFor_moved hmode hloaded hargs r constructs).receiver
    rw [hcount, hall, hreceiver] at hasks
    exact hasks
  · exact moved_continues env hmode (g := g) hholds (hloaded.sibling_void hmode) rfl rfl rfl hret hvoid hother rfl _
      outcome z
  · exact within_body (m := g.method) (hholds.staysBehind hinside hwords) (hholds.quiet hquiet)
      (f := { g with position := (t.front client).length }) rfl (Nat.le_refl _) _ budget z
  · have hvoid' : x.method.decl.isVoid = true := hx ▸ hloaded.sibling_void hmode
    simp only [finish, Frame.giveBack, hnone, hvoid', Option.isSome_none, Bool.false_eq_true, if_false, if_true]
  · exact .step (fun run => step_ret hret hvoid run below z) (.here _)

/-- In every mode the call dispatches once. -/
theorem dispatchesOnce (h : t.Loaded client l u e) (hinside : BranchesInside t.method.body)
    (hwords : t.method.body.length < 2 ^ 63) (hquiet : ∀ site, .dispatch site ∉ t.method.body)
    (hclient : env.dispatcher? client = some p) (hspares : env.host.SparesSiblings)
    (htype : s.domain.type? u.fullName = some ⟨l, u⟩) (hargs : args.length = t.method.params.length)
    (hroom : t.mobility.mode ≠ .normal → depth + 1 < s.domain.maxDepth) (r constructs : Option Ref)
    (below : List Frame) : ∃ g rest,
      (Frame.first ⟨l, u, e⟩ r args depth constructs).StandsFor t.method (t.front client).length g ∧
      DispatchesOnce env s p (t.method.callSite client t.type.fullName) t.method.isVoid
        (.first ⟨l, u, e⟩ r args depth constructs) below g rest (t.front client).length := by
  by_cases hmode : t.mobility.mode = .normal
  · have hnormal := h.dispatchesOnce_normal hmode hinside hwords hquiet hclient hargs (s := s) r depth constructs below
    exact ⟨_, _, hnormal.1, hnormal.2⟩
  · exact h.dispatchesOnce_moved hmode hinside hwords hquiet hclient hspares htype hargs (hroom hmode) r constructs below

end Target.Loaded

theorem Frame.bindArguments_eq_ok {m : MethodHandle} {given args : List Value} (h : bindArguments m given = .ok args) :
    args.length = m.decl.params.length ∧ given <+: args := by
  rw [bindArguments_eq] at h
  split at h
  · cases h
  cases hdefaults : (m.decl.params.drop given.length).mapM (defaultOf m.key) with
  | error x =>
    rw [hdefaults] at h
    cases h
  | ok defaults =>
    rw [hdefaults] at h
    cases h
    have hlength := Deployment.length_mapM hdefaults
    rw [List.length_drop] at hlength
    refine ⟨?_, List.prefix_append _ _⟩
    rw [List.length_append]
    omega

/-- A call of a method that was made mobile, however it was called, dispatches once and before the body, with the
method, its mode and all its arguments. The answer decides how it goes on; once it is in the body it does not leave
it for the front. -/
theorem TypeDecl.mobilize_dispatches_once {client module : String} {t t' t'' : TypeDecl Datum} {index : Nat}
    {a : Mobility} {closure : Closure} {done : Mobilized} {d : MethodDecl Datum}
    (hmobilize : t.mobilize client module index a closure = .ok (done, t')) (hd : t.methods[index]? = some d)
    (hinside : BranchesInside d.body) (hwords : d.body.length < 2 ^ 63) (hquiet : ∀ site, .dispatch site ∉ d.body)
    -- the type as it is loaded
    (hmore : Rewritten client module t' t'') {l : LoadedModule} {u : TypeDecl Value} (hu : u.shape = t''.shape)
    {e : MethodDecl Value} (he : u.methods[index]? = some e) {ω : Type} {env : Environment ω}
    (hspares : env.host.SparesSiblings) {p : Dispatcher ω} (hclient : env.dispatcher? client = some p)
    {s : State ω} (htype : s.domain.type? u.fullName = some ⟨l, u⟩)
    -- a call
    {depth : Nat} {receiver constructs : Option Ref} {given : List Value} {f : Frame}
    (hentered : Frame.enter s.domain.maxDepth depth ⟨l, u, e⟩ receiver given constructs = .ok f)
    (hroom : a.mode ≠ .normal → depth + 1 < s.domain.maxDepth) (below : List Frame) :
    f.args.length = d.params.length ∧ given <+: f.args ∧ ∃ site k g rest,
      site.method = d.reference ⟨none, t.fullName⟩ ∧ site.mode = a.mode ∧ f.StandsFor d k g ∧
      DispatchesOnce env s p site d.isVoid f below g rest k ∧
      ∃ n, ∀ budget, resume env (n + (budget + 1)) (.next f below) s =
        (p.dispatch env.host (runner env budget) site f.receiver f.args >>= fun outcome =>
          resume env budget (.next (g.answered outcome) rest)) s := by
  have hloaded := ((mobilize_places hmobilize hd).rewritten hmore).loads (l := l) hu he
  obtain ⟨args, hbind, rfl⟩ := Frame.enter_eq_ok hentered
  obtain ⟨hlength, hgiven⟩ := Frame.bindArguments_eq_ok hbind
  have hargs : args.length = d.params.length := hlength.trans hloaded.params
  refine ⟨hargs, hgiven, (t.target index a d).method.callSite client t.fullName,
    ((t.target index a d).front client).length, ?_⟩
  have hstands {f g : Frame} {k : Nat} (h : f.StandsFor (t.target index a d).method k g) : f.StandsFor d k g :=
    ⟨h.body, h.args, h.receiver, h.locals, h.stack⟩
  obtain ⟨g, rest, hfor, honce⟩ := hloaded.dispatchesOnce hinside hwords hquiet hclient hspares htype hargs hroom
    receiver constructs below
  exact ⟨g, rest, rfl, rfl, hstands hfor, honce, honce.resume_eq⟩

/-- A type with a method that loops back to its first instruction. -/
def pulse : TypeDecl Datum where
  space := "Ops"
  name := "Pulse"
  methods := [
    { name := constructorName, flags := MethodFlags.constructor, body := [.ret] },
    { name := "Beat", flags := MethodFlags.static, params := [⟨"n", TypeName.int32, none⟩],
      body := [.loadArg 0, .jumpIfFalse 7, .loadArg 0, .const (.int32 1), .binary .sub, .storeArg 0, .jump 0, .ret] }]

namespace pulse
variable (a : Mobility) (args : List Value)

/-- The type with that method made mobile. -/
def mobilized : Mobilized × TypeDecl Datum :=
  (pulse.mobilize defaultClientType "Pulse" 1 a {}).toOption.getD default

/-- The only module of a domain. -/
def loaded : LoadedModule × Domain :=
  (Domain.register { hostName := "" } { name := "Pulse", types := [(mobilized a).2] } [] none).toOption.getD default

def type : TypeDecl Value := (loaded a).1.code.types[0]?.getD default

def call : Frame := .first ⟨(loaded a).1, type a, (type a).methods[1]?.getD default⟩ none args 0

end pulse

/-- A client that answers nothing is installed. -/
def pulse.environment : Environment Unit where
  host := { thread := none, natives := Native.standard none }
  dispatcher? _ := some ⟨fun _ _ _ _ _ => pure .notExecuted⟩

open pulse in
theorem pulse_dispatches_once : ∃ p g rest site k, environment.dispatcher? defaultClientType = some p ∧
    site.method = ⟨⟨none, "Ops.Pulse"⟩, "Beat", [TypeName.int32]⟩ ∧ DispatchesOnce environment
      ⟨(loaded { mode := .replay }).2, ()⟩ p site true (call { mode := .replay } [.int32 3]) [] g rest k := by
  have hmobilize : pulse.mobilize defaultClientType "Pulse" 1 { mode := .replay } {} =
      .ok (mobilized { mode := .replay }) := rfl
  have hspares : environment.host.SparesSiblings := Host.sparesSiblings_of_standard rfl
  have hentered : Frame.enter (loaded { mode := .replay }).2.maxDepth 0 ⟨(loaded { mode := .replay }).1,
      type { mode := .replay }, (type { mode := .replay }).methods[1]?.getD default⟩ none [.int32 3] =
        .ok (call { mode := .replay } [.int32 3]) := rfl
  obtain ⟨_, _, site, k, g, rest, hmethod, _, _, honce, _⟩ := TypeDecl.mobilize_dispatches_once hmobilize rfl
    (by simp [BranchesInside, Instruction.target?]) (by simp) (by simp) (.here _) (u := type { mode := .replay }) rfl
    rfl hspares rfl (s := ⟨(loaded { mode := .replay }).2, ()⟩) rfl hentered (fun _ => by decide +kernel) []
  exact ⟨_, g, rest, site, k, rfl, hmethod, honce⟩

end MobileCode
