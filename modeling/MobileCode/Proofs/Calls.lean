import MobileCode.Proofs.Frames
import Mathlib.Algebra.Group.Nat.Defs

/-! # Calls side by side

A call enters the same method in both domains. In the second one the frame may stand in front of code
that dispatches the call, or in a method that hands it on to a sibling: while no client takes the call,
quiet steps lead to the body.
-/
namespace MobileCode
variable {c : Comparison} {w w' : Links}

/-- A client that has no call executed elsewhere and does nothing within the domain. -/
def Dispatcher.Idle {ω : Type} (d : Dispatcher ω) : Prop :=
  ∀ host run site receiver args s, d.dispatch host run site receiver args s = some (.ok .notExecuted, s)

/-- No client of that type is installed, or an idle one. -/
def Environment.IdleFor {ω : Type} (env : Environment ω) (client : String) : Prop :=
  ∀ d, env.dispatcher? client = some d → d.Idle

/-- No native of the host has the name of a sibling. -/
def Host.SparesSiblings {ω : Type} (host : Host ω) : Prop :=
  ∀ type method, host.native? type (relayBodyName method) = none

namespace Machine
variable {ω : Type} {env : Environment ω}

theorem step_eq (run : Runner ω) {f : Frame} (below : List Frame) {i : Instruction Value}
    (hi : f.method.decl.body[f.position]? = some i) :
    step env run f below = execute env run { f with position := f.position + 1 } below i := by
  simp only [step, hi]

theorem dispatch_idle {f : Frame} {site : DispatchSite} (hidle : env.IdleFor site.client.fullName)
    (hargs : site.paramCount.toNat ≤ f.args.length) (run : Runner ω) (s : State ω) :
    dispatch env run f site s = some (.ok .notExecuted, s) := by
  unfold dispatch
  cases hd : env.dispatcher? site.client.fullName with
  | none => rfl
  | some d =>
    simp only [if_neg (Nat.not_lt.mpr hargs)]
    exact hidle d hd env.host run site f.receiver (f.args.take site.paramCount.toNat) s

/-! ### Single steps -/

section
variable {g : Frame}

theorem step_dispatch {site : DispatchSite} (hi : g.method.decl.body[g.position]? = some (.dispatch site))
    (hidle : env.IdleFor site.client.fullName) (hargs : site.paramCount.toNat ≤ g.args.length) (run : Runner ω)
    (below : List Frame) (s : State ω) : step env run g below s = some (.ok (.next { g with
      position := g.position + 1, stack := .bool false :: .null :: g.stack } below), s) := by
  have hd := dispatch_idle (f := { g with position := g.position + 1 }) hidle hargs run s
  rw [step_eq run below hi]
  simp only [execute]
  rw [Run.bind_apply, hd]
  rfl

theorem step_pop (hi : g.method.decl.body[g.position]? = some .pop) {v : Value} {rest : List Value}
    (hstack : g.stack = v :: rest) (run : Runner ω) (below : List Frame) (s : State ω) :
    step env run g below s = some (.ok (.next { g with position := g.position + 1, stack := rest } below), s) := by
  rw [step_eq run below hi]
  simp only [execute, Frame.pop, hstack]
  rfl

theorem step_jumpIfFalse {target : UInt64} (hi : g.method.decl.body[g.position]? = some (.jumpIfFalse target))
    {b : Bool} {rest : List Value} (hstack : g.stack = .bool b :: rest) (run : Runner ω) (below : List Frame)
    (s : State ω) : step env run g below s = some (.ok (.next { g with
      position := if b then g.position + 1 else target.toNat, stack := rest } below), s) := by
  rw [step_eq run below hi]
  simp only [execute, Frame.pop, hstack]
  cases b <;> rfl

theorem step_jumpIfTrue {target : UInt64} (hi : g.method.decl.body[g.position]? = some (.jumpIfTrue target))
    {b : Bool} {rest : List Value} (hstack : g.stack = .bool b :: rest) (run : Runner ω) (below : List Frame)
    (s : State ω) : step env run g below s = some (.ok (.next { g with
      position := if b then target.toNat else g.position + 1, stack := rest } below), s) := by
  rw [step_eq run below hi]
  simp only [execute, Frame.pop, hstack]
  cases b <;> rfl

theorem step_loadArg {n : UInt16} (hi : g.method.decl.body[g.position]? = some (.loadArg n)) {v : Value}
    (hv : g.args[n.toNat]? = some v) (run : Runner ω) (below : List Frame) (s : State ω) : step env run g below s =
      some (.ok (.next { g with position := g.position + 1, stack := v :: g.stack } below), s) := by
  rw [step_eq run below hi]
  simp only [execute, hv]
  rfl

theorem step_const {v : Value} (hi : g.method.decl.body[g.position]? = some (.const v)) (run : Runner ω)
    (below : List Frame) (s : State ω) : step env run g below s =
      some (.ok (.next { g with position := g.position + 1, stack := v :: g.stack } below), s) := by
  rw [step_eq run below hi]
  rfl

theorem step_ret (hi : g.method.decl.body[g.position]? = some .ret) (hvoid : g.method.decl.isVoid = true)
    (run : Runner ω) (below : List Frame) (s : State ω) :
    step env run g below s = some (.ok (finish g below .null), s) := by
  rw [step_eq run below hi]
  simp only [execute, hvoid, if_true]
  rfl

end

end Machine

theorem Host.resolveType_found {ω : Type} {host : Host ω} {r : TypeRef} {s : State ω} {t : TypeHandle}
    (h : s.domain.type? r.fullName = some t) : host.resolveType r s = some (.ok t, s) := by
  unfold Host.resolveType
  rw [Run.get_bind, h]
  rfl

theorem Host.resolveLocal_found {ω : Type} {host : Host ω} {type : String} {s : State ω} {t : TypeHandle}
    (h : s.domain.type? type = some t) : host.resolveLocal type s = some (.ok t, s) :=
  resolveType_found (r := ⟨none, type⟩) h

/-! ## Quiet steps -/

namespace Transition.Leads
variable {ω : Type} {env : Environment ω} {Q : Transition → Prop} {g : Frame} {below : List Frame}

theorem dispatch {site : DispatchSite} (hi : g.method.decl.body[g.position]? = some (.dispatch site))
    (hidle : env.IdleFor site.client.fullName) (hargs : site.paramCount.toNat ≤ g.args.length)
    (h : Leads c env Q (.next { g with
      position := g.position + 1, stack := .bool false :: .null :: g.stack } below)) :
    Leads c env Q (.next g below) :=
  .quiet (fun run s _ => Machine.step_dispatch hi hidle hargs run below s) h

theorem pop (hi : g.method.decl.body[g.position]? = some .pop) {v : Value} {rest : List Value}
    (hstack : g.stack = v :: rest)
    (h : Leads c env Q (.next { g with position := g.position + 1, stack := rest } below)) :
    Leads c env Q (.next g below) :=
  .quiet (fun run s _ => Machine.step_pop hi hstack run below s) h

theorem jumpIfFalse {target : UInt64} (hi : g.method.decl.body[g.position]? = some (.jumpIfFalse target))
    {rest : List Value} (hstack : g.stack = .bool false :: rest)
    (h : Leads c env Q (.next { g with position := target.toNat, stack := rest } below)) :
    Leads c env Q (.next g below) :=
  .quiet (fun run s _ => Machine.step_jumpIfFalse hi hstack run below s) h

theorem jumpIfTrue {target : UInt64} (hi : g.method.decl.body[g.position]? = some (.jumpIfTrue target))
    {rest : List Value} (hstack : g.stack = .bool false :: rest)
    (h : Leads c env Q (.next { g with position := g.position + 1, stack := rest } below)) :
    Leads c env Q (.next g below) :=
  .quiet (fun run s _ => Machine.step_jumpIfTrue hi hstack run below s) h

theorem loadArg {n : UInt16} (hi : g.method.decl.body[g.position]? = some (.loadArg n)) {v : Value}
    (hv : g.args[n.toNat]? = some v)
    (h : Leads c env Q (.next { g with position := g.position + 1, stack := v :: g.stack } below)) :
    Leads c env Q (.next g below) :=
  .quiet (fun run s _ => Machine.step_loadArg hi hv run below s) h

theorem const {v : Value} (hi : g.method.decl.body[g.position]? = some (.const v))
    (h : Leads c env Q (.next { g with position := g.position + 1, stack := v :: g.stack } below)) :
    Leads c env Q (.next g below) :=
  .quiet (fun run s _ => Machine.step_const hi run below s) h

theorem ret (hi : g.method.decl.body[g.position]? = some .ret) (hvoid : g.method.decl.isVoid = true)
    (h : Leads c env Q (Machine.finish g below .null)) : Leads c env Q (.next g below) :=
  .quiet (fun run s _ => Machine.step_ret hi hvoid run below s) h

/-- Where nothing takes the call, the front of a method leads to its body. -/
theorem over_normalFront {site : DispatchSite} {isVoid : Bool} {rest : List (Instruction Value)}
    (hbody : g.method.decl.body = site.normalFront isVoid ++ rest)
    (hidle : env.IdleFor site.client.fullName) (hargs : site.paramCount.toNat ≤ g.args.length)
    (hpos : g.position = 0)
    (h : Leads c env Q (.next { g with
      position := (site.normalFront isVoid : List (Instruction Value)).length } below)) :
    Leads c env Q (.next g below) := by
  obtain ⟨method, receiver, args, locals, stack, position, depth, constructs⟩ := g
  simp only at hbody hargs hpos
  subst hpos
  cases isVoid with
  | true =>
    refine dispatch (by simp only [hbody]; rfl : _ = some (Instruction.dispatch site)) hidle hargs ?_
    refine jumpIfFalse (by simp only [hbody]; rfl : _ = some (Instruction.jumpIfFalse 4)) rfl ?_
    exact pop (by simp only [hbody]; rfl) rfl h
  | false =>
    refine dispatch (by simp only [hbody]; rfl : _ = some (Instruction.dispatch site)) hidle hargs ?_
    refine jumpIfFalse (by simp only [hbody]; rfl : _ = some (Instruction.jumpIfFalse 3)) rfl ?_
    exact pop (by simp only [hbody]; rfl) rfl h

/-- Where nothing takes the call, the front of a sibling leads to the body for a replayed call. -/
theorem over_relayFront {site : DispatchSite} (hmode : site.mode = .replay) {rest : List (Instruction Value)}
    (hbody : g.method.decl.body = site.relayFront ++ rest) (hidle : env.IdleFor site.client.fullName)
    {args : List Value} (hargs : g.args = args ++ [.bool false]) (hcount : site.paramCount.toNat = args.length)
    (hpos : g.position = 0) (h : Leads c env Q (.next { g with position := 5 } below)) :
    Leads c env Q (.next g below) := by
  obtain ⟨method, receiver, _, locals, stack, position, depth, constructs⟩ := g
  simp only at hbody hargs hpos
  subst hpos hargs
  simp only [DispatchSite.relayFront, hmode] at hbody
  have hmarker : (args ++ [Value.bool false])[site.paramCount.toNat]? = some (.bool false) := by
    rw [hcount, List.getElem?_append_right (Nat.le_refl _), Nat.sub_self]
    rfl
  refine loadArg (n := site.paramCount) (by simp only [hbody]; rfl) hmarker ?_
  refine jumpIfTrue (by simp only [hbody]; rfl : _ = some (Instruction.jumpIfTrue 5)) rfl ?_
  refine dispatch (by simp only [hbody]; rfl : _ = some (Instruction.dispatch site)) hidle ?_ ?_
  · simp only [List.length_append, hcount]
    omega
  refine pop (by simp only [hbody]; rfl) rfl ?_
  exact pop (by simp only [hbody]; rfl) rfl h

/-- The front of a sibling does not lead to the body for a relayed call: it returns although nothing was
executed elsewhere. -/
theorem over_relayed {site : DispatchSite} (hmode : site.mode = .relay) {rest : List (Instruction Value)}
    (hbody : g.method.decl.body = site.relayFront ++ rest) (hvoid : g.method.decl.isVoid = true)
    (hidle : env.IdleFor site.client.fullName) {args : List Value} (hargs : g.args = args ++ [.bool false])
    (hcount : site.paramCount.toNat = args.length) (hpos : g.position = 0)
    (h : Leads c env Q (Machine.finish g below .null)) : Leads c env Q (.next g below) := by
  obtain ⟨method, receiver, _, locals, stack, position, depth, constructs⟩ := g
  simp only at hbody hargs hpos
  subst hpos hargs
  simp only [DispatchSite.relayFront, hmode] at hbody
  have hmarker : (args ++ [Value.bool false])[site.paramCount.toNat]? = some (.bool false) := by
    rw [hcount, List.getElem?_append_right (Nat.le_refl _), Nat.sub_self]
    rfl
  refine loadArg (n := site.paramCount) (by simp only [hbody]; rfl) hmarker ?_
  refine jumpIfTrue (by simp only [hbody]; rfl : _ = some (Instruction.jumpIfTrue 6)) rfl ?_
  refine dispatch (by simp only [hbody]; rfl : _ = some (Instruction.dispatch site)) hidle ?_ ?_
  · simp only [List.length_append, hcount]
    omega
  refine pop (by simp only [hbody]; rfl) rfl ?_
  refine pop (by simp only [hbody]; rfl) rfl ?_
  exact ret (by simp only [hbody]; rfl) hvoid h

end Transition.Leads

/-! ## Entering a method -/

namespace Frame
variable {m n : MethodHandle}

/-- The first frame of a call, its arguments complete. -/
def first (m : MethodHandle) (r : Option Ref) (args : List Value) (depth : Nat)
    (constructs : Option Ref := none) : Frame where
  method := m
  args
  depth
  constructs
  receiver := if m.decl.isStatic then none else r
  locals := List.replicate m.decl.locals.toNat .null

theorem enter_eq (limit depth : Nat) (m : MethodHandle) (r : Option Ref) (args : List Value)
    (constructs : Option Ref) : enter limit depth m r args constructs =
      if limit ≤ depth then .error (.recursionLimit limit)
      else
        match bindArguments m args with
        | .error e => .error e
        | .ok vs =>
          if m.decl.isStatic = false ∧ r = none then .error (.invalid (.noReceiver m.key))
          else .ok (first m r vs depth constructs) := by
  unfold enter
  by_cases hlimit : limit ≤ depth
  · rw [if_pos hlimit, if_pos hlimit]
    rfl
  rw [if_neg hlimit, if_neg hlimit]
  cases bindArguments m args with
  | error e => rfl
  | ok vs =>
    cases hs : m.decl.isStatic <;> cases r <;>
      simp [first, hs, bind, Except.bind, pure, Except.pure, throw, throwThe, MonadExceptOf.throw]

theorem enter_eq_ok {limit depth : Nat} {r : Option Ref} {args : List Value} {constructs : Option Ref}
    {f : Frame} (h : enter limit depth m r args constructs = .ok f) :
    ∃ vs, bindArguments m args = .ok vs ∧ f = first m r vs depth constructs := by
  rw [enter_eq] at h
  split at h
  · cases h
  split at h
  · cases h
  · rename_i vs hvs
    split at h <;> cases h
    exact ⟨vs, hvs, rfl⟩

theorem enter_static {limit depth : Nat} {args vs : List Value} (hlimit : depth < limit)
    (hvs : bindArguments m args = .ok vs) (hstatic : m.decl.isStatic = true) (r : Option Ref) :
    enter limit depth m r args = .ok (first m r vs depth) := by
  rw [enter_eq, if_neg (Nat.not_le.mpr hlimit), hvs]
  simp only [hstatic, Bool.true_eq_false, false_and, if_false]

/-- The default of a parameter that got no argument. -/
def defaultOf (key : MethodKey) (p : ParamDecl Value) : Except Error Value :=
  match p.default with
  | some v => .ok v
  | none => .error (.invalid (.missingArgument p.name key))

theorem bindArguments_eq (m : MethodHandle) (args : List Value) : bindArguments m args =
    if m.decl.params.length < args.length then
      .error (.invalid (.tooManyArguments m.key m.decl.params.length args.length))
    else (m.decl.params.drop args.length).mapM (defaultOf m.key) >>= fun defaults => .ok (args ++ defaults) := by
  unfold bindArguments
  simp only
  split <;> rfl

theorem defaults_tracks (key : MethodKey) {ps qs : List (ParamDecl Value)}
    (h : List.Forall₂ (ParamDecl.Alike (Value.Linked w)) ps qs) :
    Except.Tracks c.exact (fun vs vs' => vs.length = ps.length ∧ List.Forall₂ (Value.Linked w) vs vs')
      (ps.mapM (defaultOf key)) (qs.mapM (defaultOf key)) := by
  induction h with
  | nil => exact .ok ⟨rfl, .nil⟩
  | @cons p q ps qs hpq _ ih =>
    have hd := hpq.default
    have hp : defaultOf key p = match p.default with
      | some v => .ok v
      | none => .error (.invalid (.missingArgument p.name key)) := rfl
    have hq : defaultOf key q = match q.default with
      | some v => .ok v
      | none => .error (.invalid (.missingArgument p.name key)) := by rw [← hpq.name]; rfl
    rw [List.mapM_cons, List.mapM_cons, hp, hq]
    generalize p.default = x at hd
    generalize q.default = y at hd
    generalize ps.mapM (defaultOf key) = xs at ih
    generalize qs.mapM (defaultOf key) = ys at ih
    cases hd with
    | none => exact .same _
    | some hv =>
      cases ih with
      | ok h => exact .ok ⟨congrArg (· + 1) h.1, .cons hv h.2⟩
      | error he => exact .error he
      | loose hx => exact .loose hx

theorem bindArguments_tracks (hkey : n.key = m.key)
    (hparams : List.Forall₂ (ParamDecl.Alike (Value.Linked w)) m.decl.params n.decl.params)
    {args args' : List Value} (hargs : List.Forall₂ (Value.Linked w) args args') :
    Except.Tracks c.exact (fun vs vs' => vs.length = m.decl.params.length ∧ List.Forall₂ (Value.Linked w) vs vs')
      (bindArguments m args) (bindArguments n args') := by
  have hd := defaults_tracks (c := c) m.key (List.forall₂_drop args.length hparams)
  rw [bindArguments_eq, bindArguments_eq, hkey, ← hparams.length_eq, ← hargs.length_eq]
  split
  · exact .same _
  · rename_i hlen
    generalize (m.decl.params.drop args.length).mapM (defaultOf m.key) = x at hd
    generalize (n.decl.params.drop args.length).mapM (defaultOf m.key) = y at hd
    cases hd with
    | ok h =>
      refine .ok ⟨?_, List.rel_append hargs h.2⟩
      rw [List.length_append, h.1, List.length_drop]
      omega
    | error he => exact .error he
    | loose hx => exact .loose hx

end Frame

/-- A body that stays in place stands behind no front, or behind one that dispatches. -/
inductive FrontOf (client : String) (d : MethodDecl Value) : List (Instruction Value) → Prop
  | none : FrontOf client d []
  | normal (site : DispatchSite) : site.client.fullName = client →
    site.paramCount.toNat = d.params.length → FrontOf client d (site.normalFront d.isVoid)

section Entering
variable {m n : MethodHandle}

theorem MethodHandle.Alike.key (hm : MethodHandle.Alike c w m n) : n.key = m.key := by
  simp only [MethodHandle.key, hm.owner, hm.form.alike.key]

theorem StaysInPlace.moves {mode? : Option Mode} (h : StaysInPlace mode?) :
    mode?.any (· ≠ .normal) = false := by
  cases mode? with
  | none => rfl
  | some mode => simp [h mode rfl]

theorem MethodHandle.Alike.inPlace (hm : MethodHandle.Alike c w m n) (hmoves : c.moves m = false) :
    n.decl.locals = m.decl.locals ∧
      ∃ front, FrontOf c.client m.decl front ∧ Behind (Value.Linked w) front m.decl.body n.decl.body := by
  unfold Comparison.moves at hmoves
  have hform := hm.form
  generalize c.modeOf? m = mode? at hform hmoves
  cases hform with
  | plain _ _ hlocals hbody => exact ⟨hlocals, [], .none, hbody⟩
  | fronted site _ _ hlocals hclient hcount hbody => exact ⟨hlocals, _, .normal site hclient hcount, hbody⟩
  | stub _ _ hmode _ => simp [hmode] at hmoves

/-- A body only moves where failures are not compared. -/
theorem MethodHandle.Alike.moves_eq_false (hm : MethodHandle.Alike c w m n) (hexact : c.exact) :
    c.moves m = false := by
  have hform := hm.form
  unfold Comparison.moves
  generalize c.modeOf? m = mode? at hform
  cases hform with
  | plain hp _ _ _ => exact hp.moves
  | fronted _ hp _ _ _ _ _ => exact hp.moves
  | stub _ hx _ _ => exact absurd hexact hx

/-- Bodies only move in the module that is compared. -/
theorem Comparison.module_of_moves (hmoves : c.moves m = true) : m.module.name = c.module := by
  by_contra hne
  rw [Comparison.moves, Comparison.modeOf?, c.foreign _ _ _ _ hne] at hmoves
  cases hmoves

/-- A method whose body moves is a stub in the second domain. -/
theorem MethodHandle.Alike.stub (hm : MethodHandle.Alike c w m n) (hmoves : c.moves m = true) :
    ∃ mode sibling, c.modeOf? m = some mode ∧ mode ≠ .normal ∧
      m.decl.Stub (Value.Linked w) c.client n.owner mode n.decl sibling := by
  have hform := hm.form
  unfold Comparison.moves at hmoves
  generalize c.modeOf? m = mode? at hform hmoves
  cases hform with
  | plain hp _ _ _ => exact absurd hmoves (by rw [hp.moves]; exact Bool.false_ne_true)
  | fronted _ hp _ _ _ _ _ => exact absurd hmoves (by rw [hp.moves]; exact Bool.false_ne_true)
  | stub sibling _ hmode hs => exact ⟨_, sibling, rfl, hmode, hs⟩

/-- Constructors stay in place. -/
theorem MethodHandle.Alike.moves_constructor (hm : MethodHandle.Alike c w m n)
    (hctor : m.decl.isDefaultConstructor = true) : c.moves m = false := by
  have hform := hm.form
  unfold Comparison.moves
  generalize c.modeOf? m = mode? at hform
  cases hform with
  | plain hp _ _ _ => exact hp.moves
  | fronted _ hp _ _ _ _ _ => exact hp.moves
  | stub _ _ _ hs => simp [MethodDecl.isDefaultConstructor, hs.static] at hctor

variable {ω : Type} {env : Environment ω} {B B' : List Frame}

/-- The first frame of a method, the front of whose form is behind it. -/
theorem Frame.stands_inPlace (hm : MethodHandle.Alike c w m n) (hmoves : c.moves m = false)
    {front : List (Instruction Value)} (hbody : Behind (Value.Linked w) front m.decl.body n.decl.body)
    (hB : Stack.Alike c w B B') {depth depth' : Nat} {constructs constructs' : Option Ref}
    (hcons : Option.Rel w constructs constructs')
    (hdepth : depth' = depth + if constructs.isSome then 0 else c.overhead B) {r r' : Option Ref}
    (hr : Option.Rel w r r') {args args' : List Value} (hargs : List.Forall₂ (Value.Linked w) args args') :
    Frame.Stands c w front.length B B' (.first m r args depth constructs)
      { Frame.first n r' args' depth' constructs' with position := front.length } where
  alike := {
    key := fun _ => hm.key
    module := fun _ => hm.module
    isVoid := hm.form.alike.isVoid
    body := ⟨front, rfl, hbody⟩
    receiver := by
      simp only [Frame.first, hm.form.alike.static]
      split
      · exact .none
      · exact hr
    args := ⟨args', [], (List.append_nil _).symm, hargs, fun _ => rfl⟩
    locals := by
      simp only [Frame.first, (hm.inPlace hmoves).1]
      exact List.forall₂_same.mpr fun x hx => List.eq_of_mem_replicate hx ▸ .null
    stack := .nil
    position := (Nat.zero_add _).symm
    constructs := hcons }
  rests := by
    refine .same hmoves ?_ hB
    simp only [Frame.first, Comparison.overhead, hmoves, hdepth, Bool.false_eq_true, if_false, Nat.zero_add]
    rfl

/-- A method whose body stays in place is entered alike. -/
theorem Frame.enter_inPlace (hidle : env.IdleFor c.client) (hm : MethodHandle.Alike c w m n)
    (hmoves : c.moves m = false) (hB : Stack.Alike c w B B') {depth depth' : Nat}
    {constructs constructs' : Option Ref} (hcons : Option.Rel w constructs constructs')
    (hdepth : depth' = depth + if constructs.isSome then 0 else c.overhead B)
    (hlimit : c.limit ≤ depth' ↔ c.limit ≤ depth) {r r' : Option Ref} (hr : Option.Rel w r r')
    {args args' : List Value} (hargs : List.Forall₂ (Value.Linked w) args args') :
    Except.Tracks c.exact (fun f g => Transition.Reaches c w env (.next f B) (.next g B'))
      (Frame.enter c.limit depth m r args constructs) (Frame.enter c.limit depth' n r' args' constructs') := by
  have ha := hm.form.alike
  have hbind := Frame.bindArguments_tracks (c := c) hm.key ha.params hargs
  have hnone : r' = none ↔ r = none := by cases hr <;> simp
  obtain ⟨_, front, hfront, hbody⟩ := hm.inPlace hmoves
  simp only [Frame.enter_eq, hlimit, hm.key, ha.static, hnone]
  split
  · exact .same _
  generalize Frame.bindArguments m args = x at hbind
  generalize Frame.bindArguments n args' = y at hbind
  cases hbind with
  | error he => exact .error he
  | loose hx => exact .loose hx
  | @ok vs vs' hvs =>
    simp only
    split
    · exact .same _
    · refine .ok ?_
      have hstands := Frame.stands_inPlace hm hmoves hbody hB hcons hdepth hr hvs.2
      cases hfront with
      | none => exact hstands.reaches
      | normal site hclient hcount =>
        obtain ⟨rest, hrest, _⟩ := hbody
        have hcount' : site.paramCount.toNat = vs'.length := by rw [hcount, ← hvs.1, hvs.2.length_eq]
        exact .over_normalFront hrest (hclient ▸ hidle) (Nat.le_of_eq hcount') rfl hstands.reaches

/-! ### Siblings -/

theorem Frame.bindArguments_full (m : MethodHandle) {args : List Value}
    (h : args.length = m.decl.params.length) : Frame.bindArguments m args = .ok args := by
  rw [Frame.bindArguments_eq, if_neg (by omega), List.drop_eq_nil_of_le (by omega)]
  exact congrArg Except.ok (List.append_nil args)

/-- A stub loads the arguments that it was called with, one after the other. -/
theorem Machine.step_loads {g : Frame} {tail : List (Instruction Value)}
    (hbody : g.method.decl.body =
      (List.range g.args.length).map (fun i => .loadArg (UInt16.ofNat i)) ++ tail)
    (hlen : g.args.length ≤ 2 ^ 16) {i : Nat} (hlt : i < g.args.length) (run : Runner ω) (below : List Frame)
    (s : State ω) : step env run { g with position := i, stack := (g.args.take i).reverse } below s =
      some (.ok (.next { g with position := i + 1, stack := (g.args.take (i + 1)).reverse } below), s) := by
  have hmod : (UInt16.ofNat i).toNat = i := by
    rw [UInt16.toNat_ofNat']
    omega
  have hload : g.method.decl.body[i]? = some (.loadArg (UInt16.ofNat i)) := by
    rw [hbody, List.getElem?_append_left (by simpa using hlt), List.getElem?_map, List.getElem?_range hlt]
    rfl
  have hv : g.args[(UInt16.ofNat i).toNat]? = some g.args[i] := by
    rw [hmod]
    exact List.getElem?_eq_getElem hlt
  rw [List.take_add_one, List.getElem?_eq_getElem hlt, List.reverse_append]
  exact step_loadArg (g := { g with position := i, stack := (g.args.take i).reverse }) hload hv run below s

theorem Transition.Leads.over_loads {Q : Transition → Prop} {g : Frame} {tail : List (Instruction Value)}
    (hbody : g.method.decl.body =
      (List.range g.args.length).map (fun i => .loadArg (UInt16.ofNat i)) ++ tail)
    (hlen : g.args.length ≤ 2 ^ 16) (hpos : g.position = 0) (hstack : g.stack = [])
    (h : Transition.Leads c env Q (.next { g with
      position := g.args.length, stack := g.args.reverse } B)) :
    Transition.Leads c env Q (.next g B) := by
  suffices ∀ n i, i + n = g.args.length →
      Transition.Leads c env Q (.next { g with position := i, stack := (g.args.take i).reverse } B) by
    have h0 := this g.args.length 0 (Nat.zero_add _)
    obtain ⟨_, _, _, _, _, _, _, _⟩ := g
    simp only at hpos hstack
    subst hpos hstack
    exact h0
  intro n
  induction n with
  | zero =>
    intro i hi
    obtain rfl : i = g.args.length := hi
    rw [List.take_length]
    exact h
  | succ n ih =>
    intro i hi
    exact .quiet (fun run s _ => Machine.step_loads hbody hlen (by omega) run B s) (ih (i + 1) (by omega))

/-- A stub calls its sibling and waits for it. -/
theorem Machine.step_callSibling {g : Frame} {sibling : MethodDecl Value} {args : List Value} {s : State ω}
    (htype : s.domain.type? g.method.owner.fullName = some ⟨g.method.module, g.method.owner⟩)
    (hnative : env.host.native? g.method.owner.fullName sibling.name = none)
    (hfound : g.method.owner.method? sibling.name sibling.paramTypes = some sibling)
    (hstatic : sibling.isStatic = true) (hi : g.method.decl.body[g.position]? =
      some (.call (sibling.reference ⟨none, g.method.owner.fullName⟩)))
    (hstack : g.stack = args.reverse) (hargs : args.length = sibling.params.length) (run : Runner ω)
    (below : List Frame) : step env run g below s = (do
      let top ← Run.ofExcept (Frame.enter s.domain.maxDepth (g.depth + 1) ⟨g.method.module, g.method.owner, sibling⟩
        none args)
      return .next top ({ g with position := g.position + 1, stack := [] } :: below) : Run (State ω) Transition) s := by
  have hresolve : env.host.resolveMethod (sibling.reference ⟨none, g.method.owner.fullName⟩) s =
      some (.ok ⟨g.method.module, g.method.owner, sibling⟩, s) := by
    unfold Host.resolveMethod
    rw [Run.bind_apply, Host.resolveType_found htype]
    simp only [MethodDecl.reference, TypeHandle.method?, hfound, Option.map_some]
    rfl
  have hpop : Frame.popMany sibling.params.length { g with position := g.position + 1 } =
      .ok (args, { g with position := g.position + 1, stack := [] }) := by
    simp only [Frame.popMany, hstack, List.length_reverse, hargs, Nat.lt_irrefl, if_false]
    rw [← hargs, ← List.length_reverse, List.take_length, List.drop_length, List.reverse_reverse]
  have hnone : env.host.native? (sibling.reference ⟨none, g.method.owner.fullName⟩).owner.fullName
      (sibling.reference ⟨none, g.method.owner.fullName⟩).name = none := hnative
  rw [step_eq run below hi]
  simp only [execute, call, hnone]
  rw [Run.bind_apply, hresolve]
  simp only [hpop, Run.ofExcept_ok, pure_bind, hstatic, if_true]
  rw [Run.get_bind]

theorem Transition.Leads.over_call {Q : Transition → Prop} {g : Frame} {sibling : MethodDecl Value}
    {args : List Value} (hn : c.deployed g.method.owner.fullName = some ⟨g.method.module, g.method.owner⟩)
    (hnative : env.host.native? g.method.owner.fullName sibling.name = none)
    (hfound : g.method.owner.method? sibling.name sibling.paramTypes = some sibling)
    (hstatic : sibling.isStatic = true) (hlimit : g.depth + 1 < c.limit)
    (hi : g.method.decl.body[g.position]? =
      some (.call (sibling.reference ⟨none, g.method.owner.fullName⟩)))
    (hstack : g.stack = args.reverse) (hargs : args.length = sibling.params.length)
    (h : Transition.Leads c env Q (.next
      (.first ⟨g.method.module, g.method.owner, sibling⟩ none args (g.depth + 1))
      ({ g with position := g.position + 1, stack := [] } :: B))) :
    Transition.Leads c env Q (.next g B) := by
  refine .quiet (fun run s hs => ?_) h
  have henter : Frame.enter s.domain.maxDepth (g.depth + 1) ⟨g.method.module, g.method.owner, sibling⟩ none args none =
      .ok (.first ⟨g.method.module, g.method.owner, sibling⟩ none args (g.depth + 1)) :=
    Frame.enter_static (hs.limit ▸ hlimit) (Frame.bindArguments_full _ hargs) hstatic none
  rw [Machine.step_callSibling (hs.types hn) hnative hfound hstatic hi hstack hargs, henter]
  rfl

section Stubs
variable {L : Value → Value → Prop} {d sibling : MethodDecl Value} {mode : Mode}

/-- A stub that waits for its sibling. -/
def Frame.waiting (n : MethodHandle) (r : Option Ref) (args : List Value) (depth : Nat) : Frame :=
  { Frame.first n r args depth with position := args.length + 2 }

/-- What follows the loads of a stub. -/
theorem MethodDecl.Stub.rest (hs : d.Stub L c.client n.owner mode n.decl sibling) {args : List Value}
    (hargs : args.length = d.params.length) (i : Nat) : n.decl.body[args.length + i]? =
      [.const (.bool false), .call (sibling.reference ⟨none, n.owner.fullName⟩), .ret][i]? := by
  have hlen : n.decl.params.length = args.length := hs.alike.params.length_eq.symm.trans hargs.symm
  rw [hs.body, MethodDecl.stubBody, List.getElem?_append_right (by simp [hlen]), List.length_map, List.length_range,
    hlen, Nat.add_sub_cancel_left]
  rfl

theorem Frame.waits (hs : d.Stub L c.client n.owner mode n.decl sibling) {args : List Value}
    (hargs : args.length = d.params.length) (r : Option Ref) (depth : Nat) : (waiting n r args depth).Waits :=
  ⟨hs.rest hargs 2, hs.alike.isVoid.trans hs.void, rfl⟩

/-- A stub hands its call on to its sibling, if there is room for one more frame. -/
theorem Transition.Leads.over_stub {Q : Transition → Prop} (hspares : env.host.SparesSiblings)
    (hkept : c.deployed n.owner.fullName = some ⟨n.module, n.owner⟩)
    (hs : d.Stub L c.client n.owner mode n.decl sibling) {args : List Value} (hargs : args.length = d.params.length)
    {depth : Nat} (hroom : depth + 1 < c.limit) {r : Option Ref}
    (h : Transition.Leads c env Q (.next
      (.first ⟨n.module, n.owner, sibling⟩ none (args ++ [.bool false]) (depth + 1)) (.waiting n r args depth :: B))) :
    Transition.Leads c env Q (.next (.first n r args depth) B) := by
  obtain ⟨site, _, _, hcount, _⟩ := hs.behind
  have hsmall := site.paramCount.toNat_lt
  have hlen : n.decl.params.length = args.length := hs.alike.params.length_eq.symm.trans hargs.symm
  have hstub : n.decl.body = (List.range args.length).map (fun i => .loadArg (UInt16.ofNat i)) ++
      [.const (.bool false), .call (sibling.reference ⟨none, n.owner.fullName⟩), .ret] := by
    rw [hs.body, MethodDecl.stubBody, hlen]
    rfl
  have hstack : Value.bool false :: args.reverse = (args ++ [Value.bool false]).reverse := by
    rw [List.reverse_append]
    rfl
  refine .over_loads (g := .first n r args depth) hstub (by simp only [Frame.first]; omega) rfl rfl ?_
  refine .const (v := .bool false) (hs.rest hargs 0) ?_
  refine .over_call hkept (hs.name ▸ hspares _ _) hs.found hs.siblingStatic hroom (hs.rest hargs 1) hstack ?_ h
  rw [List.length_append, hs.params, hargs]
  rfl

/-- A relayed call does nothing where nothing takes it: its body is not run. -/
theorem Transition.Leads.over_relay {Q : Transition → Prop} (hidle : env.IdleFor c.client)
    (hspares : env.host.SparesSiblings) (hkept : c.deployed n.owner.fullName = some ⟨n.module, n.owner⟩)
    (hs : d.Stub L c.client n.owner .relay n.decl sibling) {args : List Value} (hargs : args.length = d.params.length)
    {depth : Nat} (hroom : depth + 1 < c.limit) {r : Option Ref}
    (h : Transition.Leads c env Q (Machine.finish (.first n r args depth) B .null)) :
    Transition.Leads c env Q (.next (.first n r args depth) B) := by
  obtain ⟨site, hclient, hsite, hcount, rest, hrest, _⟩ := hs.behind
  have hwaits := Frame.waits hs hargs r depth
  refine .over_stub hspares hkept hs hargs hroom ?_
  refine .over_relayed hsite hrest hs.siblingVoid (hclient ▸ hidle) rfl (hcount.trans hargs.symm) rfl ?_
  have hreturn : Machine.finish (.first ⟨n.module, n.owner, sibling⟩ none (args ++ [.bool false]) (depth + 1))
      (.waiting n r args depth :: B) .null = .next (.waiting n r args depth) B := by
    simp only [Machine.finish, Frame.giveBack, Frame.first, hs.siblingVoid, Option.isSome_none, Bool.false_eq_true,
      if_false, if_true]
  rw [hreturn]
  exact .ret hwaits.next hwaits.isVoid h

end Stubs

/-- A replayed call goes through the stub to the sibling, if there is room for one more frame. -/
theorem Frame.enter_stub (hidle : env.IdleFor c.client) (hspares : env.host.SparesSiblings)
    (hm : MethodHandle.Alike c w m n) (hexact : ¬c.exact) (hmoves : c.moves m = true)
    (hrelay : c.modeOf? m ≠ some .relay) (hB : Stack.Alike c w B B') {depth depth' : Nat}
    (hdepth : depth' = depth + c.overhead B) {r r' : Option Ref} {args args' : List Value}
    (hargs : List.Forall₂ (Value.Linked w) args args') {f : Frame}
    (hf : Frame.enter c.limit depth m r args = .ok f) (hroom : f.depth + c.overhead (f :: B) < c.limit) :
    ∃ g, Frame.enter c.limit depth' n r' args' = .ok g ∧ Transition.Reaches c w env (.next f B) (.next g B') := by
  obtain ⟨vs, hvs, rfl⟩ := Frame.enter_eq_ok hf
  have hkept := hm.kept hexact (c.module_of_moves hmoves)
  have hover : c.overhead (Frame.first m r vs depth :: B) = c.overhead B + 1 := by
    simp only [Comparison.overhead, Frame.first, hmoves, Option.isSome_none]
    simp only [if_true, Bool.false_eq_true, if_false]
    omega
  rw [hover] at hroom
  have hdep : (Frame.first m r vs depth).depth = depth := rfl
  have hroom' : depth' + 1 < c.limit := by omega
  obtain ⟨mode, sibling, hmode, hnormal, hs⟩ := hm.stub hmoves
  have hbind := Frame.bindArguments_tracks (c := c) hm.key hs.alike.params hargs
  rw [hvs] at hbind
  generalize hvs' : Frame.bindArguments n args' = y at hbind
  cases hbind with
  | @ok _ vs' h =>
    have hlen : vs'.length = m.decl.params.length := h.2.length_eq.symm.trans h.1
    have hstatic : n.decl.isStatic = true := hs.alike.static.trans hs.static
    refine ⟨.first n r' vs' depth', Frame.enter_static (by omega) hvs' hstatic r', ?_⟩
    refine .over_stub hspares hkept hs hlen hroom' ?_
    obtain ⟨site, hclient, hsite, hcount, rest, hrest, hmoved⟩ := hs.behind
    have hreplay : site.mode = .replay := by
      rw [hsite]
      cases mode with
      | normal => exact absurd rfl hnormal
      | relay => exact absurd hmode hrelay
      | replay => rfl
    have hfive : (site.relayFront : List (Instruction Value)).length = 5 := by
      simp only [DispatchSite.relayFront, hreplay, List.length_cons, List.length_nil]
    refine .over_relayFront hreplay hrest (hclient ▸ hidle) rfl (hcount.trans hlen.symm) rfl ?_
    refine Frame.Stands.reaches (k := 5) ⟨?_, ?_⟩
    · exact {
        key := fun hx => absurd hx hexact
        module := fun hx => absurd hx hexact
        isVoid := hs.siblingVoid.trans hs.void.symm
        body := ⟨site.relayFront, hfive, rest, hrest, hmoved⟩
        receiver := by
          simp only [Frame.first, hs.static, hs.siblingStatic, if_true]
          exact .none
        args := ⟨vs', [.bool false], rfl, h.2, fun hx => absurd hx hexact⟩
        locals := by
          simp only [Frame.first, hs.locals]
          exact List.forall₂_same.mpr fun x hx => List.eq_of_mem_replicate hx ▸ .null
        stack := .nil
        position := rfl
        constructs := .none }
    · refine .moved hexact hmoves ?_ rfl hs.void (Frame.waits hs hlen r' depth') hB
      rw [hover]
      simp only [Frame.first, hdepth]
      omega

end Entering

/-! ## Calls and constructions -/

theorem MethodHandle.Alike.mono (hw : w ≤ w') {m n : MethodHandle} (h : MethodHandle.Alike c w m n) :
    MethodHandle.Alike c w' m n :=
  ⟨h.module, h.owner, h.form.mono fun _ _ hv => hv.mono hw, h.kept⟩

theorem Finds.filter {α β : Type} {exact : Prop} {R : α → β → Prop} {x : Option α} {y : Option β}
    {p : α → Bool} {q : β → Bool} (h : Finds exact R x y) (hpq : ∀ a b, R a b → q b = p a) :
    Finds exact (fun a b => R a b ∧ p a = true) (x.filter p) (y.filter q) := by
  cases h with
  | none => exact .none
  | loose hx => exact .loose hx
  | @some a b hab =>
    simp only [Option.filter, hpq a b hab]
    split
    · rename_i hp
      exact .some ⟨hab, hp⟩
    · exact .none

mutual

/-- Without siblings no frames are added. -/
theorem Stack.Alike.overhead_eq_zero (hexact : c.exact) :
    ∀ {B B' : List Frame}, Stack.Alike c w B B' → c.overhead B = 0
  | _, _, .nil => rfl
  | _, _, .push _ hr => Frame.Rests.overhead_eq_zero hexact hr

theorem Frame.Rests.overhead_eq_zero (hexact : c.exact) : ∀ {f g : Frame} {B B' : List Frame},
    Frame.Rests c w f g B B' → c.overhead (f :: B) = 0
  | _, _, _, _, .same hmoves _ hB => by
    simp only [Comparison.overhead, hmoves, Stack.Alike.overhead_eq_zero hexact hB, ite_self,
      Bool.false_eq_true, if_false]
  | _, _, _, _, .moved hx _ _ _ _ _ _ => absurd hexact hx

end

namespace Machine
variable {ω : Type} {env : Environment ω} {k : Nat} {f g : Frame} {below below' B B' : List Frame}

/-- A method is entered alike, as far as there is room for the frames of siblings. -/
theorem enter_steps (hidle : env.IdleFor c.client) (hspares : ¬c.exact → env.host.SparesSiblings)
    {m n : MethodHandle} (hm : MethodHandle.Alike c w m n) (hB : Stack.Alike c w B B') {depth depth' : Nat}
    (hdepth : depth' = depth + c.overhead B) {r r' : Option Ref} (hr : Option.Rel w r r')
    {args args' : List Value} (hargs : List.Forall₂ (Value.Linked w) args args') :
    Steps c env w (Run.ofExcept (Frame.enter c.limit depth m r args) >>= fun f => pure (.next f B))
      (Run.ofExcept (Frame.enter c.limit depth' n r' args') >>= fun g => pure (.next g B')) := by
  have hplace (hmoves : c.moves m = false) (hlimit : c.limit ≤ depth' ↔ c.limit ≤ depth) :=
    Frame.enter_inPlace hidle hm hmoves hB .none hdepth hlimit hr hargs
  have hunfit (hexact : ¬c.exact) (h : ∀ f, Frame.enter c.limit depth m r args = .ok f →
      ¬Transition.Fits c (.next f B)) : Steps c env w
        (Run.ofExcept (Frame.enter c.limit depth m r args) >>= fun f => pure (.next f B))
        (Run.ofExcept (Frame.enter c.limit depth' n r' args') >>= fun g => pure (.next g B')) := by
    intro s t _
    refine .loose hexact fun u s' hu => ?_
    cases he : Frame.enter c.limit depth m r args with
    | error e => rw [he] at hu; cases hu
    | ok f => rw [he] at hu; cases hu; exact h f he
  by_cases hexact : c.exact
  · have hover := hB.overhead_eq_zero hexact
    have hsame : depth' = depth := by omega
    refine Run.Tracks.ofExcept_bind (hplace ?_ (hsame ▸ Iff.rfl)) fun _ _ h => Run.Tracks.pure h
    exact hm.moves_eq_false hexact
  by_cases hlimit : depth' < c.limit
  · cases hmoves : c.moves m with
    | false =>
      have hlimits : c.limit ≤ depth' ↔ c.limit ≤ depth := by omega
      exact Run.Tracks.ofExcept_bind (hplace hmoves hlimits) fun _ _ h => Run.Tracks.pure h
    | true =>
      by_cases hfits : ∃ f, Frame.enter c.limit depth m r args = .ok f ∧ Transition.Fits c (.next f B)
      · obtain ⟨f, hf, hfit⟩ := hfits
        obtain ⟨hrelay, hroom⟩ := hfit.resolve_left hexact
        obtain ⟨vs, _, rfl⟩ := Frame.enter_eq_ok hf
        obtain ⟨g, hg, hreach⟩ := Frame.enter_stub hidle (hspares hexact) hm hexact hmoves hrelay hB
          hdepth hargs hf hroom
        rw [hf, hg]
        exact Run.Tracks.pure hreach
      · exact hunfit hexact fun f hf hfit => hfits ⟨f, hf, hfit⟩
  · refine hunfit hexact fun f hf hfit => ?_
    obtain ⟨vs, _, rfl⟩ := Frame.enter_eq_ok hf
    have hroom := (hfit.resolve_left hexact).2
    simp only [Frame.first, Comparison.overhead, Option.isSome_none, Bool.false_eq_true, if_false] at hroom
    omega

/-- A construction starts alike. -/
theorem startConstruction_tracks (hhost : env.host.Impartial c) (hidle : env.IdleFor c.client)
    (hB : Stack.Alike c w B B') (type : String) : c.Tracks Run.Every
      (fun w f g => Transition.Reaches c w env (.next f B) (.next g B')) w
      (startConstruction env.host type) (startConstruction env.host type) := by
  refine Run.Tracks.bind (R := fun w' t u => w ≤ w' ∧ TypeHandle.Alike c w' t u)
    ((Host.resolveType_tracks hhost ⟨none, type⟩).mono fun _ hle _ _ h => ⟨hle, h⟩) ?_
  rintro w₁ - t u ⟨hle₁, htu⟩
  have hctor := (htu.method? constructorName []).filter
    (p := (·.decl.isDefaultConstructor)) (q := (·.decl.isDefaultConstructor))
    fun _ _ hm => hm.form.alike.isDefaultConstructor
  rw [htu.module]
  generalize (t.method? constructorName []).filter (·.decl.isDefaultConstructor) = x at hctor
  generalize (u.method? constructorName []).filter (·.decl.isDefaultConstructor) = y at hctor
  cases hctor with
  | none => exact Run.Tracks.throw fun _ => .same _
  | loose hx => exact fun _ _ _ => .loose hx fun _ _ h => nomatch h
  | @some m n hmn =>
    obtain ⟨hm, hctor⟩ := hmn
    have hfields := htu.form.initialValues Value.Linked.defaultFor (!·)
    refine Run.Tracks.bind (State.alloc_tracks ?_) fun w₂ hle r r' hr => ?_
    · exact ⟨rfl, hfields⟩
    replace hm := hm.mono hle
    intro s s' hs
    unfold Run.TracksFrom
    rw [Run.get_bind, Run.get_bind, hs.domain.limit, hs.domain.sameLimit]
    exact Run.Tracks.ofExcept (R := fun w f g => Transition.Reaches c w env (.next f B) (.next g B'))
      (Frame.enter_inPlace hidle hm (hm.moves_constructor hctor) (hB.mono (hle₁.trans hle)) (.some hr) rfl
        Iff.rfl (.some hr) .nil) s s' hs

/-- A call goes to a native, which cannot tell the domains apart, or enters a method. -/
theorem call_steps (hhost : env.host.Impartial c) (hidle : env.IdleFor c.client)
    (hspares : ¬c.exact → env.host.SparesSiblings) (hs : Frame.Stands c w k below below' f g) (m : MethodRef) :
    Steps c env w (call env.host f below m) (call env.host g below' m) := by
  unfold call
  cases hn : env.host.native? m.owner.fullName m.name with
  | some native =>
    refine Run.Tracks.ofExcept_bind (hs.popMany _) fun p q hpq => ?_
    obtain ⟨args, f⟩ := p
    obtain ⟨args', g⟩ := q
    obtain ⟨hargs, hs⟩ := hpq
    refine (hhost.native? hn w hargs).bind fun w' hle v v' hv => ?_
    split
    · exact Steps.go ((hs.mono hle).push hv)
    · exact Steps.go (hs.mono hle)
  | none =>
    refine (Host.resolveMethod_tracks hhost m).bind fun w₁ hle₁ callee callee' hcallee => ?_
    have ha := hcallee.form.alike
    rw [← ha.params.length_eq, ha.static]
    refine Run.Tracks.ofExcept_bind ((hs.mono hle₁).popMany _) fun p q hpq => ?_
    obtain ⟨args, f⟩ := p
    obtain ⟨args', g⟩ := q
    obtain ⟨hargs, hs⟩ := hpq
    have hgo {r r' : Option Ref} {f g : Frame} (hr : Option.Rel w₁ r r') (hs : Frame.Stands c w₁ k below below' f g) :
        Steps c env w₁
          (do let top ← Run.ofExcept (Frame.enter (← get).domain.maxDepth (f.depth + 1) callee r args)
              return .next top (f :: below))
          (do let top ← Run.ofExcept (Frame.enter (← get).domain.maxDepth (g.depth + 1) callee' r' args')
              return .next top (g :: below')) := by
      intro s s' hss
      unfold Run.TracksFrom
      rw [Run.get_bind, Run.get_bind, hss.domain.limit, hss.domain.sameLimit]
      refine enter_steps hidle hspares hcallee (.push hs.alike hs.rests) ?_ hr hargs s s' hss
      have hdepth := hs.depth
      omega
    cases callee.decl.isStatic with
    | true => exact hgo .none hs
    | false =>
      exact Steps.getHeap fun heap heap' hh =>
        Run.Tracks.ofExcept_bind (hs.popObject hh) fun p q hpq => hgo (.some hpq.1) hpq.2

end Machine
end MobileCode
