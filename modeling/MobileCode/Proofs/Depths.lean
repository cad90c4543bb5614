import MobileCode.Proofs.Attempts
import MobileCode.Proofs.Confinement
import MobileCode.Proofs.Entries
import MobileCode.Proofs.Operations

/-! # How deep calls nest

A frame that is entered by a call stands one level deeper than its caller, and levels are limited. A constructor starts
over: its frame stands at the first level, wherever it is entered. So the limit bounds the frames on top of a stack, down to
the innermost constructor, and no stack without constructors is higher.
-/
namespace MobileCode

/-! ## Depths on a stack -/

namespace Frame

/-- The other frame is of the same call: it stands at the same level and constructs the same object, if any. -/
structure SameCall (f g : Frame) : Prop where
  depth : g.depth = f.depth
  constructs : g.constructs = f.constructs

/-- The number of frames from the top of a stack down to the innermost one that constructs an object. -/
def active : List Frame → Nat
  | [] => 0
  | f :: below => if f.constructs.isSome then 1 else active below + 1

/-- The frames that construct an object for the code of a frame below. -/
def constructors (fs : List Frame) : Nat := fs.dropLast.countP (·.constructs.isSome)

/-- Each frame stands at the level at which it is counted, within the limit. -/
def Counted (limit : Nat) : List Frame → Prop
  | [] => True
  | f :: below => f.depth + 1 = active (f :: below) ∧ f.depth < limit ∧ Counted limit below

section
variable {f g : Frame} {below : List Frame} {limit : Nat}

theorem SameCall.refl (f : Frame) : f.SameCall f := ⟨rfl, rfl⟩

theorem SameCall.trans {h : Frame} (hfg : f.SameCall g) (hgh : g.SameCall h) : f.SameCall h :=
  ⟨hgh.depth.trans hfg.depth, hgh.constructs.trans hfg.constructs⟩

theorem SameCall.counted (h : f.SameCall g) (hf : Counted limit (f :: below)) : Counted limit (g :: below) := by
  obtain ⟨hdepth, hlimit, hbelow⟩ := hf
  refine ⟨?_, h.depth ▸ hlimit, hbelow⟩
  rw [h.depth, hdepth, active, active, h.constructs]

theorem Counted.called (h : Counted limit (f :: below)) (hdepth : g.depth = f.depth + 1) (hlimit : g.depth < limit)
    (hconstructs : g.constructs = none) : Counted limit (g :: f :: below) := by
  refine ⟨?_, hlimit, h⟩
  rw [hdepth, h.1, active.eq_2 g, hconstructs]
  rfl

theorem Counted.constructed (h : Counted limit below) {r : Ref} (hdepth : g.depth = 0) (hlimit : 0 < limit)
    (hconstructs : g.constructs = some r) : Counted limit (g :: below) := by
  refine ⟨?_, hdepth ▸ hlimit, h⟩
  rw [hdepth, active, hconstructs]
  rfl

theorem Counted.active_le {fs : List Frame} (h : Counted limit fs) : active fs ≤ limit := by
  cases fs with
  | nil => exact Nat.zero_le _
  | cons f below =>
    obtain ⟨hdepth, hlimit, _⟩ := h
    omega

/-- Each constructor adds at most as many frames as the limit allows. -/
theorem Counted.length_le {fs : List Frame} (h : Counted limit fs) : fs.length ≤ limit * constructors fs + active fs := by
  induction fs with
  | nil => exact Nat.zero_le _
  | cons f below ih =>
    cases below with
    | nil => simp [constructors, active]
    | cons g rest =>
      have hrest := ih h.2.2
      have hactive := Counted.active_le h.2.2
      unfold constructors at hrest ⊢
      rw [List.dropLast_cons_cons, List.countP_cons, List.length_cons, active]
      -- a constructor starts over: what was counted down from it is charged to it
      by_cases hf : f.constructs.isSome = true
      · rw [if_pos hf, if_pos hf, Nat.mul_add]
        omega
      · simp only [if_neg hf, Nat.add_zero]
        omega

theorem sameCall_restacked (h : ∃ xs, g = { f with stack := xs }) : f.SameCall g := by
  obtain ⟨_, rfl⟩ := h
  exact ⟨rfl, rfl⟩

theorem sameCall_giveBack (finished : Frame) (v : Value) : f.SameCall (finished.giveBack f v) := by
  unfold giveBack
  split
  · exact ⟨rfl, rfl⟩
  split
  · exact .refl f
  · exact ⟨rfl, rfl⟩

/-- A frame is entered below the limit only. -/
theorem enter_within {depth : Nat} {m : MethodHandle} {r : Option Ref} {args : List Value} {constructs : Option Ref}
    (h : enter limit depth m r args constructs = .ok f) :
    depth < limit ∧ f.depth = depth ∧ f.constructs = constructs := by
  obtain ⟨_, _, hf⟩ := enter_eq_ok h
  refine ⟨?_, hf ▸ rfl, hf ▸ rfl⟩
  by_contra hdeep
  rw [enter_eq, if_pos (Nat.not_lt.mp hdeep)] at h
  cases h

end

section
variable {σ β : Type} {f : Frame} {s : σ} {R : β → σ → Prop}

theorem pop_within {k : Value × Frame → Run σ β} (h : ∀ v g, f.SameCall g → (k (v, g)).Ensures s R) :
    (Run.ofExcept f.pop >>= k).Ensures s R :=
  .ofExcept_bind fun p hp => h p.1 p.2 (sameCall_restacked (restacked_pop hp))

theorem popMany_within {n : Nat} {k : List Value × Frame → Run σ β}
    (h : ∀ vs g, f.SameCall g → (k (vs, g)).Ensures s R) : (Run.ofExcept (f.popMany n) >>= k).Ensures s R :=
  .ofExcept_bind fun p hp => h p.1 p.2 (sameCall_restacked (restacked_popMany hp))

theorem popObject_within {heap : Heap} {k : Ref × Frame → Run σ β}
    (h : ∀ r g, f.SameCall g → (k (r, g)).Ensures s R) : (Run.ofExcept (f.popObject heap) >>= k).Ensures s R :=
  .ofExcept_bind fun p hp => h p.1 p.2 (sameCall_restacked (restacked_popObject hp))

end
end Frame

/-! ## Steps -/

namespace Machine
variable {ω : Type} {env : Environment ω} {run : Runner ω}

/-- What a step makes of the levels on a stack. The frame goes on, returns to its caller, calls a method one level deeper or
starts a constructor at the first level. -/
inductive Nests (limit : Nat) (f : Frame) (below : List Frame) : Transition → Prop
  | stays {g : Frame} : f.SameCall g → Nests limit f below (.next g below)
  | returns {caller g : Frame} {rest : List Frame} : below = caller :: rest → caller.SameCall g →
    Nests limit f below (.next g rest)
  | ends (v : Value) : below = [] → Nests limit f below (.done (constructedOr f.constructs v))
  | calls {f' g : Frame} : f.SameCall f' → g.depth = f.depth + 1 → g.depth < limit → g.constructs = none →
    Nests limit f below (.next g (f' :: below))
  | constructs {f' g : Frame} {r : Ref} : f.SameCall f' → g.depth = 0 → 0 < limit → g.constructs = some r →
    Nests limit f below (.next g (f' :: below))

theorem startConstruction_within {host : Host ω} (type : String) (s : State ω) :
    (startConstruction host type).Ensures s fun g t => g.depth = 0 ∧ 0 < t.domain.maxDepth ∧ ∃ r, g.constructs = some r := by
  unfold startConstruction
  refine .after fun owner t => ?_
  split
  · exact .throw
  · refine .after fun r u => .get_bind (.ofExcept fun g hg => ?_)
    obtain ⟨hlimit, hdepth, hconstructs⟩ := Frame.enter_within hg
    exact ⟨hdepth, hlimit, r, hconstructs⟩

theorem call_nests {host : Host ω} {f f' : Frame} {r : MethodRef} (hf : f.SameCall f') (below : List Frame)
    (s : State ω) : (call host f' below r).Ensures s fun t u => Nests u.domain.maxDepth f below t := by
  unfold call
  split
  · refine Frame.popMany_within fun args g hg => .after fun result t => .pure (.stays ?_)
    split
    · exact ⟨(hf.trans hg).depth, (hf.trans hg).constructs⟩
    · exact hf.trans hg
  · refine .after fun callee t => ?_
    have henter (receiver : Option Ref) (args : List Value) (g : Frame) (hg : f'.SameCall g) :
        (do
          let top ← Run.ofExcept (Frame.enter (← get).domain.maxDepth (g.depth + 1) callee receiver args)
          return .next top (g :: below) : Run (State ω) Transition).Ensures t
            fun t u => Nests u.domain.maxDepth f below t := by
      refine Run.Ensures.get_bind (.ofExcept_bind fun top htop => .pure ?_)
      obtain ⟨hlimit, hdepth, hconstructs⟩ := Frame.enter_within htop
      exact .calls (hf.trans hg) (hdepth.trans (by rw [(hf.trans hg).depth])) (hdepth ▸ hlimit) hconstructs
    refine Frame.popMany_within fun args g hg => ?_
    cases callee.decl.isStatic with
    | true => exact henter none args g hg
    | false => exact .get_bind (Frame.popObject_within fun receiver g' hg' => henter (some receiver) args g' (hg.trans hg'))

/-- What an instruction makes of the levels on the stack. -/
theorem execute_nests {f f' : Frame} (hf : f.SameCall f') (i : Instruction Value) (below : List Frame) (s : State ω) :
    (execute env run f' below i).Ensures s fun t u => Nests u.domain.maxDepth f below t := by
  have hgo {g : Frame} {t : State ω} (hg : f'.SameCall g) :
      (pure (.next g below) : Run (State ω) Transition).Ensures t fun t u => Nests u.domain.maxDepth f below t :=
    .pure (.stays (hf.trans hg))
  have hpush {g : Frame} {t : State ω} (hg : f'.SameCall g) (v : Value) :
      (pure (.next (g.push v) below) : Run (State ω) Transition).Ensures t fun t u => Nests u.domain.maxDepth f below t :=
    hgo ⟨hg.depth, hg.constructs⟩
  have hjump {g : Frame} {t : State ω} (hg : f'.SameCall g) (n : Nat) :
      (pure (.next { g with position := n } below) : Run (State ω) Transition).Ensures t
        fun t u => Nests u.domain.maxDepth f below t :=
    hgo ⟨hg.depth, hg.constructs⟩
  cases i with
  | nop => exact hgo (.refl _)
  | const v => exact hpush (.refl _) v
  | jump n => exact hjump (.refl _) _
  | loadArg n | loadLocal n | loadThis | dup =>
    simp only [execute]
    split
    · exact hpush (.refl _) _
    · exact .throw
  | storeArg n | storeLocal n =>
    refine Frame.pop_within fun v g hg => ?_
    simp only
    split
    · exact hgo ⟨hg.depth, hg.constructs⟩
    · exact .throw
  | loadField field =>
    refine Run.Ensures.get_bind (Frame.popObject_within fun r g hg => ?_)
    simp only
    split
    · exact hpush hg _
    · exact .throw
  | storeField field =>
    refine Frame.pop_within fun v g hg => Run.Ensures.get_bind (Frame.popObject_within fun r g' hg' => ?_)
    exact .after fun _ t => hgo (hg.trans hg')
  | loadStatic field => exact .after fun owner t => .after fun v u => hpush (.refl _) v
  | storeStatic field => exact Frame.pop_within fun v g hg => .after fun owner t => .after fun _ u => hgo hg
  | call r => exact call_nests hf below s
  | construct r =>
    refine .after fun owner t => (startConstruction_within owner.decl.fullName t).bind ?_
    rintro g u ⟨hdepth, hlimit, r, hconstructs⟩
    exact .pure (.constructs hf hdepth hlimit hconstructs)
  | binary op =>
    refine Frame.pop_within fun right g hg => Frame.pop_within fun left g' hg' => Run.Ensures.get_bind ?_
    exact .ofExcept_bind fun v _ => hpush (hg.trans hg') v
  | compare op =>
    refine Frame.pop_within fun right g hg => Frame.pop_within fun left g' hg' => Run.Ensures.get_bind ?_
    exact .after fun b t => hpush (hg.trans hg') _
  | not =>
    refine Frame.pop_within fun v g hg => Run.Ensures.get_bind ?_
    exact .ofExcept_bind fun b _ => hpush hg _
  | jumpIfTrue n =>
    refine Frame.pop_within fun v g hg => Run.Ensures.get_bind (.ofExcept_bind fun b _ => ?_)
    split
    · exact hjump hg _
    · exact hgo hg
  | jumpIfFalse n =>
    refine Frame.pop_within fun v g hg => Run.Ensures.get_bind (.ofExcept_bind fun b _ => ?_)
    split
    · exact hgo hg
    · exact hjump hg _
  | pop => exact Frame.pop_within fun v g hg => hgo hg
  | ret =>
    have hends {g : Frame} (hg : f'.SameCall g) (v : Value) {limit : Nat} : Nests limit f below (finish g below v) := by
      unfold finish
      split
      · rw [(hf.trans hg).constructs]
        exact .ends v rfl
      · exact .returns rfl (Frame.sameCall_giveBack g v)
    simp only [execute]
    split
    · exact .pure (hends (.refl _) _)
    · exact Frame.pop_within fun v g hg => .pure (hends hg v)
  | throw => exact Frame.pop_within fun v g hg => Run.Ensures.get_bind .throw
  | dispatch site =>
    refine .after fun outcome t => ?_
    cases outcome <;> exact hgo ⟨rfl, rfl⟩

theorem step_nests (f : Frame) (below : List Frame) (s : State ω) :
    (step env run f below).Ensures s fun t u => Nests u.domain.maxDepth f below t := by
  unfold step
  split
  · rename_i i _
    have hahead : f.SameCall f.ahead := ⟨rfl, rfl⟩
    exact execute_nests hahead i below s
  · exact .throw

theorem Nests.counted {limit : Nat} {f g : Frame} {below rest : List Frame} (h : Nests limit f below (.next g rest))
    (hf : Frame.Counted limit (f :: below)) : Frame.Counted limit (g :: rest) := by
  cases h with
  | stays hg => exact hg.counted hf
  | returns hbelow hg =>
    subst hbelow
    exact hg.counted hf.2.2
  | calls hsame hdepth hlimit hconstructs => exact (hsame.counted hf).called (hsame.depth ▸ hdepth) hlimit hconstructs
  | constructs hsame hdepth hlimit hconstructs => exact (hsame.counted hf).constructed hdepth hlimit hconstructs

end Machine

namespace Entry
variable {ω : Type} {env : Environment ω}

theorem start_respects {K : State ω → State ω → Prop} [IsPreorder (State ω) K] (hK : env.host.Guards True K) (call : Entry) :
    (call.start env).Respects True K := by
  have hfirst (m : MethodHandle) (r : Option Ref) (args : List Value) :
      (start.first m r args : Run (State ω) Transition).Respects True K :=
    Run.Respects.get.bind fun _ => (Run.Respects.ofExcept _).bind fun _ => .pure _
  cases call with
  | invoke m r args =>
    simp only [start]
    split
    · rename_i native hnative
      exact (hK.natives _ _ _ hnative args).bind fun _ => .pure _
    · exact (hK.resolveMethod m).bind fun _ => hfirst _ _ _
  | invokeByValues type method r args => exact (Host.resolveOverload_respects hK type method args).bind fun _ => hfirst _ _ _

/-- The first frame of a call stands at the first level. -/
theorem start_within (call : Entry) (s : State ω) : (call.start env).Ensures s fun t u => ∀ f below, t = .next f below →
    f.depth = 0 ∧ 0 < u.domain.maxDepth ∧ f.constructs = none := by
  have hfirst (m : MethodHandle) (r : Option Ref) (args : List Value) (s : State ω) :
      (start.first m r args).Ensures s fun t u => ∀ f below, t = .next f below →
        f.depth = 0 ∧ 0 < u.domain.maxDepth ∧ f.constructs = none := by
    refine Run.Ensures.get_bind (.ofExcept_bind fun f hf => .pure fun g below hg => ?_)
    cases hg
    obtain ⟨hlimit, hdepth, hconstructs⟩ := Frame.enter_within hf
    exact ⟨hdepth, hlimit, hconstructs⟩
  cases call with
  | invoke m r args =>
    simp only [start]
    split
    · refine .after fun v t => .pure fun f below h => ?_
      cases h
    · exact .after fun m t => hfirst m r args t
  | invokeByValues type method r args => exact .after fun m t => hfirst m r args t

end Entry

/-! ## Runs -/

namespace Machine

/-- What a run of the frame `f` comes to: the stack and the state after some of its steps. -/
inductive ComesTo (env : Environment ω) (f : Frame) (s : State ω) : Frame → List Frame → State ω → Prop
  | start : ComesTo env f s f [] s
  | step {run : Runner ω} {g h : Frame} {below rest : List Frame} {t u : State ω} : ComesTo env f s g below t →
    Machine.step env run g below t = some (.ok (.next h rest), u) → ComesTo env f s h rest u

end Machine

/-- The limits of the two domains are the same. -/
def State.SameLimit {ω : Type} (s t : State ω) : Prop := t.domain.maxDepth = s.domain.maxDepth

instance {ω : Type} : IsPreorder (State ω) State.SameLimit where
  refl _ := rfl
  trans _ _ _ hst htu := Eq.trans htu hst

theorem State.sameLimit_lenient {ω : Type} : State.Lenient (@State.SameLimit ω) where
  objects _ _ := rfl
  statics _ _ _ _ _ _ := rfl
  register s m bytes path l d _ h := by
    rcases Domain.register_cases h with ⟨_, _, rfl⟩ | ⟨_, _, _, rfl⟩
    · rfl
    · show (Domain.enter _ _).maxDepth = _
      rw [Domain.enter_eq]
  outside _ _ := rfl

namespace Machine
variable {ω : Type} {env : Environment ω}

theorem ComesTo.counted (henv : env.Plain) (hfree : ∀ client, env.dispatcher? client = none) {f g : Frame}
    {below : List Frame} {s t : State ω} (hf : Frame.Counted s.domain.maxDepth [f]) (h : ComesTo env f s g below t) :
    t.domain.maxDepth = s.domain.maxDepth ∧ Frame.Counted s.domain.maxDepth (g :: below) := by
  have hguards := henv.host.guards State.sameLimit_lenient
  induction h with
  | start => exact ⟨rfl, hf⟩
  | @step run g h below rest t u _ hstep ih =>
    obtain ⟨hlimit, hcounted⟩ := ih
    have hsame : u.domain.maxDepth = t.domain.maxDepth :=
      step_respects hguards (fun ⟨_, _, hclient⟩ => hclient (hfree _)) below t _ u hstep (.inl trivial)
    have hnests : Nests u.domain.maxDepth g below (.next h rest) := step_nests g below t _ _ hstep
    rw [hsame, hlimit] at hnests
    exact ⟨hsame.trans hlimit, hnests.counted hcounted⟩

/-- A call from a frame at the last level is refused once its operands are off the stack. -/
theorem call_refused {host : Host ω} {f g : Frame} {r : MethodRef} {m : MethodHandle} {args : List Value} {s t : State ω}
    (hnative : host.native? r.owner.fullName r.name = none) (hm : host.resolveMethod r s = some (.ok m, t))
    (hargs : f.popMany m.decl.params.length = .ok (args, g))
    (hreceiver : m.decl.isStatic = true ∨ ∃ x h, g.popObject t.domain.heap = .ok (x, h))
    (hdeep : t.domain.maxDepth ≤ f.depth + 1) (below : List Frame) :
    call host f below r s = some (.error (.recursionLimit t.domain.maxDepth), t) := by
  have hrefused {h : Frame} (hh : f.SameCall h) (receiver : Option Ref) :
      Frame.enter t.domain.maxDepth (h.depth + 1) m receiver args = .error (.recursionLimit t.domain.maxDepth) := by
    rw [Frame.enter_eq, hh.depth, if_pos hdeep]
  have hg : f.SameCall g := Frame.sameCall_restacked (Frame.restacked_popMany hargs)
  unfold call
  rw [hnative]
  dsimp only
  rw [Run.bind_apply, hm]
  dsimp only
  rw [hargs, Run.ofExcept_ok, pure_bind]
  dsimp only
  by_cases hstatic : m.decl.isStatic = true
  · rw [if_pos hstatic, pure_bind, Run.get_bind, hrefused hg]
    rfl
  · obtain ⟨x, h, hobject⟩ := hreceiver.resolve_left hstatic
    rw [if_neg hstatic, State.getHeap_bind, hobject, Run.ofExcept_ok, pure_bind]
    dsimp only
    rw [pure_bind, Run.get_bind, hrefused (hg.trans (Frame.sameCall_restacked (Frame.restacked_popObject hobject)))]
    rfl

/-- A run from outside starts at the first level. -/
theorem counted_of_start (henv : env.Plain) {s t : State ω} {f : Frame}
    (hstart : (∃ call : Entry, call.start env s = some (.ok (.next f []), t)) ∨
      ∃ type, startConstruction env.host type s = some (.ok f, t)) :
    t.domain.maxDepth = s.domain.maxDepth ∧ Frame.Counted t.domain.maxDepth [f] := by
  have hguards := henv.host.guards State.sameLimit_lenient
  rcases hstart with ⟨call, hcall⟩ | ⟨type, hnew⟩
  · refine ⟨call.start_respects hguards s _ t hcall (.inl trivial), ?_⟩
    obtain ⟨hdepth, hlimit, hconstructs⟩ := call.start_within s _ _ hcall f [] rfl
    exact ⟨by rw [hdepth, Frame.active, hconstructs]; rfl, hdepth ▸ hlimit, trivial⟩
  · refine ⟨startConstruction_respects hguards type s _ t hnew (.inl trivial), ?_⟩
    obtain ⟨hdepth, hlimit, r, hconstructs⟩ := startConstruction_within type s _ _ hnew
    have hempty : Frame.Counted t.domain.maxDepth [] := trivial
    exact hempty.constructed hdepth hlimit hconstructs

/-- Within a run from outside, without clients, the frames from the top down to the innermost constructor are never more than
the limit allows, and each constructor that code has started adds at most as many again. A call from the last level ends
the run. -/
theorem calls_bounded (henv : env.Plain) (hfree : ∀ client, env.dispatcher? client = none) {s t u : State ω} {f g : Frame}
    {below : List Frame} (hstart : (∃ call : Entry, call.start env s = some (.ok (.next f []), t)) ∨
      ∃ type, startConstruction env.host type s = some (.ok f, t)) (h : ComesTo env f t g below u) :
    Frame.active (g :: below) ≤ s.domain.maxDepth ∧
      (g :: below).length ≤ s.domain.maxDepth * (Frame.constructors (g :: below) + 1) ∧
      ∀ r m args g' v, g.method.decl.body[g.position]? = some (.call r) →
        env.host.native? r.owner.fullName r.name = none → env.host.resolveMethod r u = some (.ok m, v) →
        g.ahead.popMany m.decl.params.length = .ok (args, g') →
        (m.decl.isStatic = true ∨ ∃ x h, g'.popObject v.domain.heap = .ok (x, h)) →
        Frame.active (g :: below) = s.domain.maxDepth →
        ∀ run, step env run g below u = some (.error (.recursionLimit s.domain.maxDepth), v) := by
  have hguards := henv.host.guards State.sameLimit_lenient
  obtain ⟨hsame, hf⟩ := counted_of_start henv hstart
  obtain ⟨hlimit, hcounted⟩ := h.counted henv hfree hf
  rw [hsame] at hlimit hcounted
  have hactive := hcounted.active_le
  refine ⟨hactive, ?_, ?_⟩
  · have hlength := hcounted.length_le
    rw [Nat.mul_succ]
    omega
  · intro r m args g' v hi hnative hm hargs hreceiver hfull run
    have hkept : v.domain.maxDepth = u.domain.maxDepth := hguards.resolveMethod r u _ v hm (.inl trivial)
    have hdepth : g.depth + 1 = _ := hcounted.1
    rw [step_eq run below hi]
    have hrefused := call_refused hnative hm hargs hreceiver (by rw [hkept, hlimit, ← hfull, ← hdepth]) below
    rw [hkept, hlimit] at hrefused
    exact hrefused

end Machine

namespace well

def dig : MethodRef := ⟨⟨none, "Ops.Well"⟩, "Dig", []⟩

/-- A digger digs deeper and deeper. -/
def shaft : Module Datum where
  name := "Well"
  types := [{
    space := "Ops", name := "Well"
    methods := [{ name := "Dig", flags := MethodFlags.static, body := [.call dig, .ret] }] }]

def surface : State Unit := ⟨{ hostName := "site", maxDepth := 2 }, ()⟩

end well

open well in
/-- At a limit of two, the second digger cannot call a third one. -/
theorem well_runs_dry : ∃ s t f g below m v, (Entry.invoke dig none []).start .bare s = some (.ok (.next f []), t) ∧
    Machine.ComesTo .bare f t g below t ∧ (g :: below).length ≤ 2 ∧ Frame.active (g :: below) = 2 ∧
    Environment.bare.host.resolveMethod dig t = some (.ok m, v) ∧
    Machine.step .bare (Machine.runner .bare 0) g below t = some (.error (.recursionLimit 2), v) := by
  obtain ⟨s, t, f, g, h, m, v, args, g', -, hlimit, hstart, hstep, hi, hm, hargs, hstatic, hfull, hnone⟩ :
      ∃ s t f g h m v args g', (Operation.load (.memory shaft)).perform .bare 1 surface = some (.ok (), s) ∧
      s.domain.maxDepth = 2 ∧ (Entry.invoke dig none []).start .bare s = some (.ok (.next f []), t) ∧
      Machine.step .bare (Machine.runner .bare 0) f [] t = some (.ok (.next g [h]), t) ∧
      g.method.decl.body[g.position]? = some (.call dig) ∧
      Environment.bare.host.resolveMethod dig t = some (.ok m, v) ∧
      g.ahead.popMany m.decl.params.length = .ok (args, g') ∧ m.decl.isStatic = true ∧ Frame.active [g, h] = 2 ∧
      Frame.constructors [g, h] = 0 :=
    ⟨_, _, _, _, _, _, _, _, _, rfl, rfl, rfl, rfl, rfl, rfl, rfl, rfl, rfl, rfl⟩
  have hcomes : Machine.ComesTo .bare f t g [h] t := .step .start hstep
  obtain ⟨-, hlength, hrefused⟩ := Machine.calls_bounded Environment.bare_plain (fun _ => rfl) (.inl ⟨_, hstart⟩) hcomes
  rw [hlimit] at hlength hrefused
  rw [hnone] at hlength
  have hends := hrefused dig m args g' v hi rfl hm hargs (.inl hstatic) hfull (Machine.runner .bare 0)
  exact ⟨s, t, f, g, [h], m, v, hstart, hcomes, hlength, hfull, hm, hends⟩

end MobileCode
