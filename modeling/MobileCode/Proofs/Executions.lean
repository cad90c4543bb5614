import MobileCode.Proofs.Fronts

/-! # Calls executed elsewhere

Where a client has all calls executed elsewhere, a mobile method dispatches its call once. Then it returns, or
if it is replayed it goes on with the body.
-/
namespace MobileCode
open Machine

theorem Run.ofExcept_eq_ok {σ α : Type} {x : Except Error α} {a : α} {s t : σ} :
    ofExcept x s = some (.ok a, t) ↔ x = .ok a ∧ s = t := by
  simp [ofExcept]

/-! ## Stubs as they are loaded -/

namespace Target.LoadedIn
variable {t : Target Datum} {client : String} {l : LoadedModule} {u : TypeDecl Value} {e sibling : MethodDecl Value}
  (h : t.LoadedIn client l u e sibling)
include h

theorem sibling_name : sibling.name = relayBodyName t.method.name := congrArg MethodDecl.name h.shape

theorem sibling_found : u.method? sibling.name sibling.paramTypes = some sibling := by
  have htypes : sibling.paramTypes = t.method.paramTypes ++ [TypeName.boolean] := congrArg MethodKey.paramTypes h.sibling_key
  rw [h.sibling_name, htypes]
  exact h.sibling

theorem sibling_static (hmode : t.mobility.mode ≠ .normal) : sibling.isStatic = true :=
  (MethodDecl.isStatic_eq h.shape).trans ((MethodDecl.relaySibling_isStatic _).trans (h.movable.static hmode))

theorem sibling_void (hmode : t.mobility.mode ≠ .normal) : sibling.isVoid = true :=
  (MethodDecl.isVoid_eq h.shape).trans (h.movable.void hmode)

/-- A stub loads the arguments, calls the sibling without the marker and returns. -/
theorem stub (hbody : e.body.map Instruction.shape =
      (t.method.stubBody t.type.fullName (t.method.relaySibling
        (t.method.callSite client t.type.fullName))).map Instruction.shape) :
    e.body = (List.range e.params.length).map (fun i => .loadArg (UInt16.ofNat i)) ++
      [.const (.bool false), .call (sibling.reference ⟨none, u.fullName⟩), .ret] := by
  have hreference : (t.method.relaySibling (t.method.callSite client t.type.fullName)).reference
      ⟨none, t.type.fullName⟩ = sibling.reference ⟨none, u.fullName⟩ := by
    have hname := congrArg MethodDecl.name h.shape
    rw [MethodDecl.reference, MethodDecl.reference, ← MethodDecl.paramTypes_eq h.shape, h.type]
    exact congrArg (MethodRef.mk _ · _) hname.symm
  rw [MethodDecl.stubBody, hreference, List.map_append, ← h.length_params] at hbody
  have hloads : ∀ i ∈ (List.range e.params.length).map fun i => Instruction.loadArg (UInt16.ofNat i),
      ∀ x : Value, i ≠ .const x := by simp
  obtain ⟨rest, hrest, htail⟩ := eq_append_of_shape hloads (hbody.trans (by rw [List.map_map, List.map_map]; rfl))
  obtain ⟨i, _, rfl, hi, hmore⟩ := List.map_eq_cons_iff.mp htail
  obtain ⟨j, _, rfl, hj, hmore⟩ := List.map_eq_cons_iff.mp hmore
  obtain ⟨k, _, rfl, hk, hmore⟩ := List.map_eq_cons_iff.mp hmore
  obtain rfl := List.map_eq_nil_iff.mp hmore
  rw [hrest]
  have hconst : i = .const (.bool false) := by
    cases i with
    | const v => exact congrArg Instruction.const (Value.eq_bool_of_sketch (Instruction.const.inj hi))
    | _ => cases hi
  rw [hconst, Instruction.eq_of_shape (j := .call (sibling.reference ⟨none, u.fullName⟩)) hj (by simp),
    Instruction.eq_of_shape (j := .ret) hk (by simp)]

end Target.LoadedIn

theorem Deployment.loadedStub {boundary : Boundary} {digest : DigestAlgorithm} {m n : Module Datum}
    {dependencies : List (Module Datum)} {dep : Deployment}
    (hmake : Deployment.make? boundary digest m dependencies = .ok (some dep)) (hn : n = dep.client ∨ n = dep.server)
    {l : LoadedModule} (hl : l.code.shape = n.shape) {t : Target Datum} (ht : t ∈ m.targets) {u : TypeDecl Value}
    (hu : l.code.types[t.typeIndex]? = some u) {e sibling : MethodDecl Value}
    (he : u.methods[t.methodIndex]? = some e) (hmode : t.mobility.mode ≠ .normal)
    (hloaded : t.LoadedIn boundary.clientType l u e sibling) :
    e.body = (List.range e.params.length).map (fun i => .loadArg (UInt16.ofNat i)) ++
      [.const (.bool false), .call (sibling.reference ⟨none, u.fullName⟩), .ret] := by
  obtain ⟨_, _, closure, e₀, hmarks, hshape⟩ := loadedMain hmake hn hl ht hu he
  rw [MethodDecl.mobileForm_moved hmode] at hmarks
  have hbody : e.body.map Instruction.shape = e₀.body.map Instruction.shape := congrArg MethodDecl.body hshape
  refine hloaded.stub (hbody.trans (congrArg (List.map Instruction.shape) ?_))
  obtain rfl | ⟨_, rfl⟩ := hmarks <;> rfl

/-! ## Dispatched calls -/

/-- A client that has all calls executed elsewhere. -/
def Dispatcher.Executes {ω : Type} (d : Dispatcher ω) : Prop :=
  ∀ host run site receiver args s outcome s', d.dispatch host run site receiver args s = some (.ok outcome, s') →
    ∃ v, outcome = .executed v

section Executed
variable {ω : Type} {env : Environment ω} {d : Dispatcher ω} (hexecutes : d.Executes)

namespace Machine
variable {f : Frame} {below : List Frame} {s s' : State ω}

include hexecutes in
theorem step_executed {site : DispatchSite} (hclient : env.dispatcher? site.client.fullName = some d)
    (hi : f.method.decl.body[f.position]? = some (.dispatch site)) {run : Runner ω} {t : Transition}
    (h : step env run f below s = some (.ok t, s')) : ∃ v,
      d.dispatch env.host run site f.receiver (f.args.take site.paramCount.toNat) s = some (.ok (.executed v), s') ∧
      t = .next { f with position := f.position + 1, stack := .bool true :: v :: f.stack } below := by
  obtain ⟨outcome, houtcome, rfl⟩ := step_dispatch_next hi h
  simp only [dispatch, hclient] at houtcome
  split at houtcome
  · cases houtcome
  · obtain ⟨v, rfl⟩ := hexecutes _ _ _ _ _ _ _ _ houtcome
    exact ⟨v, houtcome, rfl⟩

theorem step_ret_value (hi : f.method.decl.body[f.position]? = some .ret) (hvoid : f.method.decl.isVoid = false)
    {v : Value} {rest : List Value} (hstack : f.stack = v :: rest) (run : Runner ω) (s : State ω) :
    step env run f [] s = some (.ok (.done (constructedOr f.constructs v)), s) := by
  rw [step_eq run [] hi]
  simp only [execute, hvoid, Bool.false_eq_true, if_false, Frame.pop, hstack]
  rfl

variable (env) in
/-- The loads of a stub, as moves of the stub. -/
theorem passes_loads {g : Frame} {tail : List (Instruction Value)} (hbody : g.method.decl.body =
      (List.range g.args.length).map (fun i => .loadArg (UInt16.ofNat i)) ++ tail)
    (hlen : g.args.length ≤ 2 ^ 16) (hpos : g.position = 0) (hstack : g.stack = []) (below : List Frame)
    (s : State ω) : ∃ xs, Passes env s xs (.next g below)
      (.next { g with position := g.args.length, stack := g.args.reverse } below) ∧
      ∀ x ∈ xs, x.top.method = g.method := by
  suffices ∀ n i, i + n = g.args.length → ∃ xs, Passes env s xs
      (.next { g with position := i, stack := (g.args.take i).reverse } below)
      (.next { g with position := g.args.length, stack := g.args.reverse } below) ∧
      ∀ x ∈ xs, x.top.method = g.method by
    have hall := this g.args.length 0 (Nat.zero_add _)
    obtain ⟨_, _, _, _, _, _, _, _⟩ := g
    simp only at hpos hstack
    subst hpos hstack
    exact hall
  intro n
  induction n with
  | zero =>
    intro i hi
    obtain rfl : i = g.args.length := hi
    rw [List.take_length]
    exact ⟨[], .here _, by simp⟩
  | succ n ih =>
    intro i hi
    obtain ⟨xs, hxs, htops⟩ := ih (i + 1) (by omega)
    refine ⟨_ :: xs, .step (fun run => step_loads hbody hlen (by omega) run below s) hxs, ?_⟩
    exact List.forall_mem_cons.mpr ⟨rfl, htops⟩

end Machine

/-- A stub that has called its sibling has entered it. -/
theorem Machine.step_callSibling_eq_ok {g : Frame} {sibling : MethodDecl Value} {args : List Value} {s s' : State ω}
    (htype : s.domain.type? g.method.owner.fullName = some ⟨g.method.module, g.method.owner⟩)
    (hnative : env.host.native? g.method.owner.fullName sibling.name = none)
    (hfound : g.method.owner.method? sibling.name sibling.paramTypes = some sibling)
    (hstatic : sibling.isStatic = true) (hi : g.method.decl.body[g.position]? =
      some (.call (sibling.reference ⟨none, g.method.owner.fullName⟩)))
    (hstack : g.stack = args.reverse) (hargs : args.length = sibling.params.length) {run : Runner ω}
    {below : List Frame} {t : Transition} (h : step env run g below s = some (.ok t, s')) : s' = s ∧
      t = .next (.first ⟨g.method.module, g.method.owner, sibling⟩ none args (g.depth + 1))
        ({ g with position := g.position + 1, stack := [] } :: below) := by
  rw [step_callSibling htype hnative hfound hstatic hi hstack hargs, Run.bind_eq_ok] at h
  obtain ⟨top, _, henter, hnext⟩ := h
  obtain ⟨hentered, rfl⟩ := Run.ofExcept_eq_ok.mp henter
  obtain ⟨vs, hvs, rfl⟩ := Frame.enter_eq_ok hentered
  cases (Frame.bindArguments_full _ hargs).symm.trans hvs
  cases hnext
  exact ⟨rfl, rfl⟩

namespace Target
variable {t : Target Datum} {client : String} (hclient : env.dispatcher? client = some d) {f : Frame} {budget : Nat}
  {v : Value} {s s' : State ω}

include hexecutes hclient in
/-- In normal mode the method returns what was executed elsewhere. -/
theorem returns_normal (hmode : t.mobility.mode = .normal) (hmovable : t.method.Movable)
    (hholds : t.HeldBy client f.method.decl) (hvoid : f.method.decl.isVoid = t.method.isVoid) (hpos : f.position = 0)
    (hargs : f.args.length = t.method.params.length)
    (hv : resume env budget (.next f []) s = some (.ok v, s')) : ∃ k w,
      d.dispatch env.host (runner env k) (t.method.callSite client t.type.fullName) f.receiver f.args s =
        some (.ok (.executed w), s') ∧ ∀ x ∈ moves env budget (.next f []) s, t.starts client x = false := by
  obtain ⟨rest, hbody, _⟩ := hholds
  have hfront : t.front client = _ := front_normal hmode
  rw [← hvoid] at hfront
  have hat {p : Nat} {i : Instruction Value} (hi : (t.front client)[p]? = some i) :
      f.method.decl.body[f.position + p]? = some i := by
    rw [hpos, Nat.zero_add]
    exact hbody ▸ List.getElem?_append_of_some hi
  obtain ⟨j, hlength, hj, hdispatch, hjump, _⟩ :=
    (t.method.callSite client t.type.fullName).normalFront_leads f.method.decl.isVoid
  rw [← hfront] at hlength hdispatch hjump
  obtain ⟨k, u, s₁, rfl, hstep, hu, hmoves⟩ := resume_eq_ok hv
  obtain ⟨w, hexecuted, rfl⟩ := step_executed hexecutes hclient (hat hdispatch) hstep
  rw [MethodDecl.callSite_count hmovable, ← hargs, List.take_length] at hexecuted
  have hbefore {p : Nat} {x : Move} (hx : x.next.position = f.position + p) (hp : p < (t.front client).length) :
      t.starts client x = false := starts_eq_false (by omega)
  -- behind the jump stands the return, in a method without a result after the result is dropped
  have hjumps (run : Runner ω) : step env run { f with
      position := f.position + 1, stack := .bool true :: w :: f.stack } [] s₁ =
        some (.ok (.next { f with position := f.position + 2, stack := w :: f.stack } []), s₁) :=
    step_jumpIfFalse (b := true) (hat hjump) rfl run [] s₁
  cases hreturns : f.method.decl.isVoid with
  | true =>
    have hpop : (t.front client)[2]? = some .pop := by rw [hfront, hreturns]; rfl
    have hret : (t.front client)[3]? = some .ret := by rw [hfront, hreturns]; rfl
    have hthree : 3 < (t.front client).length := (List.getElem?_eq_some_iff.mp hret).1
    have hpops (run : Runner ω) : step env run { f with position := f.position + 2, stack := w :: f.stack } [] s₁ =
        some (.ok (.next { f with position := f.position + 3 } []), s₁) := step_pop (hat hpop) rfl run [] s₁
    obtain ⟨rfl, hxs⟩ := (Passes.step hjumps (.step hpops (.here _))).ends
      (fun run => step_ret (g := { f with position := f.position + 3 }) (hat hret) hreturns run [] _) hu
    refine ⟨k, w, hexecuted, ?_⟩
    rw [hmoves, hxs]
    simp only [moved, List.cons_append, List.nil_append, List.forall_mem_cons]
    exact ⟨hbefore (p := 1) rfl (by omega), hbefore (p := 2) rfl (by omega), hbefore (p := 3) rfl (by omega), by simp⟩
  | false =>
    have hret : (t.front client)[2]? = some .ret := by rw [hfront, hreturns]; rfl
    have htwo : 2 < (t.front client).length := (List.getElem?_eq_some_iff.mp hret).1
    obtain ⟨rfl, hxs⟩ := (Passes.step hjumps (.here _)).ends (fun run => step_ret_value
      (f := { f with position := f.position + 2, stack := w :: f.stack }) (hat hret) hreturns rfl run _) hu
    refine ⟨k, w, hexecuted, ?_⟩
    rw [hmoves, hxs]
    simp only [moved, List.cons_append, List.nil_append, List.forall_mem_cons]
    exact ⟨hbefore (p := 1) rfl (by omega), hbefore (p := 2) rfl (by omega), by simp⟩

/-- The move back into a sibling's body, from the last instruction that drops what was executed elsewhere. -/
def droppedMove (g : Frame) (below : List Frame) (w : Value) : Move :=
  ⟨{ g with position := 4, stack := w :: g.stack }, below, { g with position := 5 }, below⟩

include hexecutes hclient in
/-- Without the marker the front of a sibling dispatches and drops what was executed elsewhere. -/
theorem drops_executed (hmode : t.mobility.mode ≠ .normal) (hmovable : t.method.Movable)
    (hholds : t.HeldBy client f.method.decl) (hpos : f.position = 0)
    (hmarker : f.args[t.method.params.length]? = some (.bool false)) {below : List Frame}
    (hv : resume env budget (.next f below) s = some (.ok v, s')) : ∃ k w u k' xs,
      d.dispatch env.host (runner env k) (t.method.callSite client t.type.fullName) f.receiver
        (f.args.take t.method.params.length) s = some (.ok (.executed w), u) ∧
      resume env k' (.next { f with position := 5 } below) u = some (.ok v, s') ∧
      moves env budget (.next f below) s =
        xs ++ droppedMove f below w :: moves env k' (.next { f with position := 5 } below) u ∧
      ∀ x ∈ xs, t.starts client x = false := by
  obtain ⟨rest, hbody, _⟩ := hholds
  obtain ⟨j, hlength, hj, hload, hjump, hdispatch, hpop, hpop'⟩ :=
    (t.method.callSite client t.type.fullName).relayFront_leads
  rw [← front_moved hmode] at hlength hload hjump hdispatch hpop hpop'
  have hat {p : Nat} {i : Instruction Value} (hi : (t.front client)[p]? = some i) :
      f.method.decl.body[p]? = some i := hbody ▸ List.getElem?_append_of_some hi
  have hcount : (t.method.callSite client t.type.fullName).paramCount.toNat = t.method.params.length :=
    MethodDecl.callSite_count hmovable
  have hbefore {x : Move} (hx : x.next.position < 5) : t.starts client x = false := starts_eq_false (by omega)
  have hloads (run : Runner ω) : step env run f below s =
      some (.ok (.next { f with position := 1, stack := .bool false :: f.stack } below), s) := by
    have hstep : step env run f below s = _ :=
      step_loadArg (g := f) (hpos ▸ hat hload) (hcount.symm ▸ hmarker) run below s
    rw [hpos] at hstep
    exact hstep
  have hstays (run : Runner ω) : step env run { f with position := 1, stack := .bool false :: f.stack } below s =
      some (.ok (.next { f with position := 2 } below), s) :=
    step_jumpIfTrue (b := false) (g := { f with position := 1, stack := .bool false :: f.stack }) (hat hjump) rfl
      run below s
  obtain ⟨k₁, hk₁, hmoves₁⟩ := (Passes.step hloads (.step hstays (.here _))).resume_eq_ok hv
  obtain ⟨k, _, u, rfl, hstep, hu, hmoves₂⟩ := resume_eq_ok hk₁
  obtain ⟨w, hexecuted, rfl⟩ := step_executed hexecutes hclient (f := { f with position := 2 }) (hat hdispatch) hstep
  have hdrops (run : Runner ω) : step env run { f with position := 3, stack := .bool true :: w :: f.stack } below u =
      some (.ok (.next { f with position := 4, stack := w :: f.stack } below), u) :=
    step_pop (g := { f with position := 3, stack := .bool true :: w :: f.stack }) (hat hpop) rfl run below u
  have hdrops' (run : Runner ω) : step env run { f with position := 4, stack := w :: f.stack } below u =
      some (.ok (.next { f with position := 5 } below), u) :=
    step_pop (g := { f with position := 4, stack := w :: f.stack }) (hat hpop') rfl run below u
  obtain ⟨k', hk', hmoves₃⟩ := (Passes.step hdrops (.step hdrops' (.here _))).resume_eq_ok hu
  rw [hcount] at hexecuted
  refine ⟨k, w, u, k', [⟨f, below, { f with position := 1, stack := .bool false :: f.stack }, below⟩,
    ⟨{ f with position := 1, stack := .bool false :: f.stack }, below, { f with position := 2 }, below⟩,
    ⟨{ f with position := 2 }, below, { f with position := 3, stack := .bool true :: w :: f.stack }, below⟩,
    ⟨{ f with position := 3, stack := .bool true :: w :: f.stack }, below,
      { f with position := 4, stack := w :: f.stack }, below⟩], hexecuted, hk', ?_, ?_⟩
  · rw [hmoves₁, hmoves₂, hmoves₃]
    rfl
  · simp only [List.forall_mem_cons]
    exact ⟨hbefore (by decide : 1 < 5), hbefore (by decide : 2 < 5), hbefore (by decide : 3 < 5),
      hbefore (by decide : 4 < 5), by simp⟩

theorem starts_of_key (hmode : t.mobility.mode ≠ .normal) {x : Move} (h : x.top.method.key = t.key) :
    t.starts client x = false := by
  have hne : x.top.method.key ≠ t.bodyKey := by
    rw [bodyKey_moved hmode, h]
    exact key_ne_siblingKey
  simp [starts, hne]

theorem getElem?_behind_loads {k : Nat} {body tail : List (Instruction Value)}
    (h : body = (List.range k).map (fun i => .loadArg (UInt16.ofNat i)) ++ tail) (i : Nat) : body[k + i]? = tail[i]? := by
  rw [h, List.getElem?_append_right (by simp), List.length_map, List.length_range, Nat.add_sub_cancel_left]

/-- A stub calls its sibling without the marker, and waits for it. -/
theorem LoadedIn.passes_stub {l : LoadedModule} {u : TypeDecl Value} {e sibling : MethodDecl Value}
    (h : t.LoadedIn client l u e sibling) (hmode : t.mobility.mode ≠ .normal)
    (hbody : e.body = (List.range e.params.length).map (fun i => .loadArg (UInt16.ofNat i)) ++
      [.const (.bool false), .call (sibling.reference ⟨none, u.fullName⟩), .ret])
    (hkey : e.key u.fullName = t.key) (hspares : env.host.SparesSiblings)
    (htype : s.domain.type? u.fullName = some ⟨l, u⟩) {args : List Value}
    (hargs : args.length = t.method.params.length) {r : Option Ref} {depth : Nat}
    (hv : resume env budget (.next (.first ⟨l, u, e⟩ r args depth) []) s = some (.ok v, s')) : ∃ k xs,
      resume env k (.next (.first ⟨l, u, sibling⟩ none (args ++ [.bool false]) (depth + 1))
        [.waiting ⟨l, u, e⟩ r args depth]) s = some (.ok v, s') ∧
      moves env budget (.next (.first ⟨l, u, e⟩ r args depth) []) s =
        xs ++ moves env k (.next (.first ⟨l, u, sibling⟩ none (args ++ [.bool false]) (depth + 1))
          [.waiting ⟨l, u, e⟩ r args depth]) s ∧
      ∀ x ∈ xs, t.starts client x = false := by
  rw [h.length_params, ← hargs] at hbody
  have hsmall : args.length ≤ 2 ^ 16 := by
    have hparams := h.movable.params
    omega
  have hat := getElem?_behind_loads hbody
  have hquiet {x : Move} (hx : x.top.method = ⟨l, u, e⟩) : t.starts client x = false :=
    starts_of_key hmode (by rw [hx]; exact hkey)
  obtain ⟨xs, hloads, hxs⟩ := passes_loads env (g := .first ⟨l, u, e⟩ r args depth) hbody hsmall rfl rfl [] s
  let g : Frame := { Frame.first ⟨l, u, e⟩ r args depth with position := args.length, stack := args.reverse }
  have hconst (run : Runner ω) : step env run g [] s = _ := step_const (hat 0) run [] s
  obtain ⟨k₁, hk₁, hmoves₁⟩ := (hloads.trans (.step hconst (.here _))).resume_eq_ok hv
  obtain ⟨k₂, _, _, rfl, hstep, hk₂, hmoves₂⟩ := resume_eq_ok hk₁
  -- the call enters the sibling, for which there is room
  have hlength : (args ++ [Value.bool false]).length = sibling.params.length := by
    rw [h.length_sibling_params, List.length_append, hargs]
    rfl
  obtain ⟨rfl, rfl⟩ := step_callSibling_eq_ok htype
    (h.sibling_name ▸ hspares _ _) h.sibling_found (h.sibling_static hmode) (hat 1) (by rw [List.reverse_append]; rfl)
    hlength hstep
  rw [hmoves₂, ← List.append_assoc] at hmoves₁
  refine ⟨k₂, _, hk₂, hmoves₁, List.forall_mem_append.mpr ⟨List.forall_mem_append.mpr ⟨fun x hx => hquiet (hxs x hx), ?_⟩,
    ?_⟩⟩
  · exact List.forall_mem_singleton.mpr (hquiet rfl)
  · exact List.forall_mem_singleton.mpr (hquiet rfl)

/-- A relayed call returns behind its dispatch, and so does the stub. -/
theorem relayed_returns (hmode : t.mobility.mode = .relay) (hholds : t.HeldBy client f.method.decl)
    (hvoid : f.method.decl.isVoid = true) (hconstructs : f.constructs = none) {g : Frame}
    (hret : g.method.decl.body[g.position]? = some .ret) (hvoid' : g.method.decl.isVoid = true) {w : Value}
    (hv : resume env budget (.next { f with position := 5 } [g]) s = some (.ok v, s')) : s' = s ∧
      ∀ x ∈ droppedMove f [g] w :: moves env budget (.next { f with position := 5 } [g]) s,
        t.starts client x = false := by
  obtain ⟨rest, hbody, _⟩ := hholds
  have hlast : (t.front client)[5]? = some .ret := by
    have hsite : (t.method.callSite client t.type.fullName).mode = .relay := hmode
    rw [front_moved (hmode ▸ by decide), DispatchSite.relayFront, hsite]
    rfl
  have hfive : 5 < (t.front client).length := (List.getElem?_eq_some_iff.mp hlast).1
  have hreturns (run : Runner ω) : step env run { f with position := 5 } [g] s = some (.ok (.next g []), s) := by
    rw [step_ret (g := { f with position := 5 }) (hbody ▸ List.getElem?_append_of_some hlast) hvoid run [g] s]
    simp only [finish, Frame.giveBack, hconstructs, hvoid, Option.isSome_none, Bool.false_eq_true, if_false, if_true]
  obtain ⟨rfl, hmoves⟩ := (Passes.step hreturns (.here _)).ends (fun run => step_ret hret hvoid' run [] _) hv
  refine ⟨rfl, List.forall_mem_cons.mpr ⟨starts_eq_false hfive, ?_⟩⟩
  rw [hmoves]
  exact List.forall_mem_singleton.mpr (by simp [starts])

variable (env budget s) in
/-- A replayed call goes on with the body, which it does not start again. -/
theorem replayed_goes_on (hmode : t.mobility.mode = .replay) (hkey : f.method.key = t.siblingKey)
    (hstays : f.method.decl.StaysBehind (t.front client).length) {g : Frame} (hg : g.method.key = t.key) {w : Value} :
    t.starts client (droppedMove f [g] w) = true ∧
      ((∀ x ∈ moves env budget (.next { f with position := 5 } [g]) s, t.enters x = false) →
        ∀ x ∈ moves env budget (.next { f with position := 5 } [g]) s, t.starts client x = false) := by
  have hmoved : t.mobility.mode ≠ .normal := hmode ▸ by decide
  have hfive : (t.front client).length = 5 := by
    have hsite : (t.method.callSite client t.type.fullName).mode = .replay := hmode
    rw [front_moved hmoved, DispatchSite.relayFront, hsite]
    rfl
  refine ⟨starts_eq_true rfl (hkey.trans (bodyKey_moved hmoved).symm) (hfive ▸ by decide : 4 < _)
    (Nat.le_of_eq hfive), fun hcalls => ?_⟩
  refine Settled.moves (List.forall_mem_cons.mpr ⟨fun _ => ⟨Nat.le_of_eq hfive, hstays⟩,
    List.forall_mem_singleton.mpr ?_⟩) hcalls
  intro hbody
  rw [bodyKey_moved hmoved, hg] at hbody
  exact absurd hbody key_ne_siblingKey

section
variable {boundary : Boundary} {digest : DigestAlgorithm} {m n : Module Datum} {dependencies : List (Module Datum)}
  {dep : Deployment} {K : State ω → State ω → Prop} [IsPreorder (State ω) K] {failing : Prop}

include hexecutes in
/-- A call of a mobile method is dispatched once. The body runs after that if the call is replayed, once, and
else it does not run. -/
theorem executed_once (hmake : Deployment.make? boundary digest m dependencies = .ok (some dep))
    (hn : n = dep.client ∨ n = dep.server) (ht : t ∈ m.targets) (hinside : BranchesInside t.method.body)
    (hwords : t.method.body.length < 2 ^ 63) (hclient : env.dispatcher? boundary.clientType = some d)
    (hspares : env.host.SparesSiblings) (hK : env.host.Respects failing K) {l : LoadedModule} (hl : s.domain.Has n l)
    {u : TypeDecl Value} (hu : l.code.types[t.typeIndex]? = some u) {e : MethodDecl Value}
    (he : u.methods[t.methodIndex]? = some e) {args : List Value} (hargs : args.length = t.method.params.length)
    {r : Option Ref} {depth : Nat}
    (hv : resume env budget (.next (.first ⟨l, u, e⟩ r args depth) []) s = some (.ok v, s'))
    (hcode : ∀ x ∈ t.code boundary.clientType (moves env budget (.next (.first ⟨l, u, e⟩ r args depth) []) s),
      t.enters x = false ∧ ¬Dispatches env x.top) : ∃ k w s₁,
      d.dispatch env.host (runner env k) (t.method.callSite boundary.clientType t.type.fullName)
        (if t.method.isStatic then none else r) args s = some (.ok (.executed w), s₁) ∧ K s₁ s' ∧
      t.startCount boundary.clientType (moves env budget (.next (.first ⟨l, u, e⟩ r args depth) []) s) =
        if t.mobility.mode = .replay then 1 else 0 := by
  obtain ⟨_, hmovable, _⟩ := Deployment.loadedMain hmake hn hl.shape ht hu he
  obtain ⟨hkey, hstatic, hvoid, _⟩ := Deployment.main_alike hmake hn hl.shape ht hu he
  by_cases hmode : t.mobility.mode = .normal
  · obtain ⟨k, w, hexecuted, hnone⟩ := returns_normal hexecutes hclient hmode hmovable
      (Deployment.main_holds hmake hn hl.shape ht hu he hmode) hvoid rfl hargs hv
    refine ⟨k, w, s', hstatic ▸ hexecuted, refl_of K s', ?_⟩
    rw [startCount_eq_zero hnone, if_neg (hmode ▸ by decide)]
  · obtain ⟨sibling, h⟩ := Deployment.loadedIn hmake hn hl.shape ht hu he hmode
    have hstub := Deployment.loadedStub hmake hn hl.shape ht hu he hmode h
    obtain ⟨k₁, xs, hk₁, hmoves₁, hxs⟩ := h.passes_stub hmode hstub hkey hspares
      (hl.types u (List.mem_of_getElem? hu)) hargs hv
    have hmarker : (args ++ [Value.bool false])[t.method.params.length]? = some (.bool false) := by
      rw [← hargs, List.getElem?_concat_length]
    obtain ⟨k, w, s₁, k₂, ys, hexecuted, hk₂, hmoves₂, hys⟩ := drops_executed hexecutes hclient hmode hmovable
      (h.holds hmode) rfl hmarker hk₁
    have hgiven : (args ++ [Value.bool false]).take t.method.params.length = args := List.take_left' hargs
    have hfront : ∀ x ∈ xs ++ ys, t.starts boundary.clientType x = false := List.forall_mem_append.mpr ⟨hxs, hys⟩
    rw [hmoves₂, ← List.append_assoc] at hmoves₁
    rw [hmoves₁] at hcode ⊢
    have hreceiver : (Frame.first ⟨l, u, sibling⟩ none (args ++ [.bool false]) (depth + 1)).receiver =
        if t.method.isStatic then none else r := by
      rw [hmovable.static hmode]
      exact if_pos (h.sibling_static hmode)
    rw [hreceiver] at hexecuted
    refine ⟨k, w, s₁, hgiven ▸ hexecuted, ?_⟩
    cases hreplay : t.mobility.mode with
    | normal => exact absurd hreplay hmode
    | relay =>
      rw [h.length_params, ← hargs] at hstub
      obtain ⟨rfl, hnone⟩ := relayed_returns hreplay (h.holds hmode) (h.sibling_void hmode) rfl
        (g := .waiting ⟨l, u, e⟩ r args depth) (getElem?_behind_loads hstub 2) (hvoid.trans (hmovable.void hmode)) hk₂
      refine ⟨refl_of K s', (startCount_eq_zero ?_).trans (if_neg (by decide)).symm⟩
      exact List.forall_mem_append.mpr ⟨hfront, hnone⟩
    | replay =>
      obtain ⟨hstarts, hsettled⟩ := replayed_goes_on env k₂ s₁
        (f := .first ⟨l, u, sibling⟩ none (args ++ [.bool false]) (depth + 1)) hreplay h.sibling_key
        ((h.holds hmode).staysBehind hinside hwords) (g := .waiting ⟨l, u, e⟩ r args depth) hkey
        (w := w)
      obtain ⟨hrun, hcount⟩ := startCount_eq hfront hstarts
      rw [hrun] at hcode
      replace hcode := fun x hx => hcode x (List.mem_cons_of_mem _ hx)
      refine ⟨resume_respects hK hk₂ fun x hx => (hcode x hx).2, ?_⟩
      rw [hcount, startCount_eq_zero (hsettled fun x hx => (hcode x hx).1), if_pos rfl]

end

end Target

end Executed

end MobileCode
