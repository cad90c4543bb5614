import MobileCode.Proofs.Anchors
import MobileCode.Proofs.Bundles

/-! # Programs have no dangling references

The values on a frame, and the literals of its method, refer to objects that are there. Each instruction leaves it so on all
frames, and so a run from such a frame comes to such a value, if the native methods and the clients do.
-/
namespace MobileCode
variable {ω : Type}

/-! ## Frames -/

/-- All values of a frame, and the literals of its method, refer to the first `n` objects. -/
structure Frame.Anchored (n : Nat) (f : Frame) : Prop where
  method : f.method.Anchored n
  receiver : ∀ r ∈ f.receiver, r.index < n
  args : ∀ v ∈ f.args, v.Anchored n
  locals : ∀ v ∈ f.locals, v.Anchored n
  stack : ∀ v ∈ f.stack, v.Anchored n
  constructs : ∀ r ∈ f.constructs, r.index < n

/-- What a step comes to. -/
def Transition.Anchored (n : Nat) : Transition → Prop
  | .next top below => ∀ f ∈ top :: below, f.Anchored n
  | .done v => v.Anchored n

def DispatchOutcome.Anchored (n : Nat) : DispatchOutcome → Prop
  | .notExecuted => True
  | .executed v => v.Anchored n

namespace Frame
variable {n m : Nat} {f g : Frame} {v : Value}

theorem Anchored.mono (h : f.Anchored n) (hle : n ≤ m) : f.Anchored m where
  method := h.method.mono hle
  receiver r hr := Nat.lt_of_lt_of_le (h.receiver r hr) hle
  args v hv := (h.args v hv).mono hle
  locals v hv := (h.locals v hv).mono hle
  stack v hv := (h.stack v hv).mono hle
  constructs r hr := Nat.lt_of_lt_of_le (h.constructs r hr) hle

theorem Anchored.push (h : f.Anchored n) (hv : v.Anchored n) : (f.push v).Anchored n :=
  { h with stack := List.forall_mem_cons.mpr ⟨hv, h.stack⟩ }

theorem Anchored.withPosition (h : f.Anchored n) (position : Nat) : ({ f with position } : Frame).Anchored n :=
  { h with }

theorem forall_mem_set {xs : List Value} (hxs : ∀ x ∈ xs, x.Anchored n) (hv : v.Anchored n) (i : Nat) :
    ∀ x ∈ xs.set i v, x.Anchored n := by
  intro x hx
  rcases List.mem_or_eq_of_mem_set hx with hx | rfl
  · exact hxs x hx
  · exact hv

theorem Anchored.pop (h : f.Anchored n) (hpop : f.pop = .ok (v, g)) : v.Anchored n ∧ g.Anchored n := by
  unfold Frame.pop at hpop
  split at hpop
  · rename_i w rest hstack
    cases hpop
    have hall := h.stack
    rw [hstack] at hall
    obtain ⟨hv, hrest⟩ := List.forall_mem_cons.mp hall
    exact ⟨hv, { h with stack := hrest }⟩
  · cases hpop

theorem Anchored.popMany (h : f.Anchored n) {k : Nat} {vs : List Value} (hpop : f.popMany k = .ok (vs, g)) :
    (∀ v ∈ vs, v.Anchored n) ∧ g.Anchored n := by
  unfold Frame.popMany at hpop
  split at hpop
  · cases hpop
  · cases hpop
    refine ⟨fun v hv => h.stack v (List.mem_of_mem_take (List.mem_reverse.mp hv)), { h with stack := fun v hv => ?_ }⟩
    exact h.stack v (List.mem_of_mem_drop hv)

theorem Anchored.popObject (h : f.Anchored n) {heap : Heap} {r : Ref} (hpop : f.popObject heap = .ok (r, g)) :
    r.index < n ∧ g.Anchored n := by
  obtain ⟨⟨v, g'⟩, hv, hrest⟩ := Except.bind_eq_ok.mp hpop
  obtain ⟨hanchored, hg⟩ := h.pop hv
  dsimp only at hrest
  split at hrest
  · cases hrest
    exact ⟨Value.anchored_object.mp hanchored, hg⟩
  · cases hrest
  · cases hrest

theorem bindArguments_anchored {target : MethodHandle} (h : target.Anchored n) {args all : List Value}
    (hargs : ∀ v ∈ args, v.Anchored n) (hall : bindArguments target args = .ok all) : ∀ v ∈ all, v.Anchored n := by
  rw [bindArguments_eq] at hall
  split at hall
  · cases hall
  obtain ⟨defaults, hdefaults, hall⟩ := Except.bind_eq_ok.mp hall
  cases hall
  refine List.forall_mem_append.mpr ⟨hargs, fun v hv => ?_⟩
  obtain ⟨p, hp, hdefault⟩ := Forall₂.exists_of_mem (Deployment.forall₂_mapM hdefaults).flip hv
  unfold defaultOf at hdefault
  split at hdefault
  · rename_i w hw
    cases hdefault
    exact h.defaults p (List.mem_of_mem_drop hp) v hw
  · cases hdefault

/-- The first frame of a call with an anchored receiver and anchored arguments. -/
theorem anchored_of_enter {target : MethodHandle} (h : target.Anchored n) {limit depth : Nat} {receiver : Option Ref}
    {args : List Value} {constructs : Option Ref} (hreceiver : ∀ r ∈ receiver, r.index < n)
    (hargs : ∀ v ∈ args, v.Anchored n) (hconstructs : ∀ r ∈ constructs, r.index < n)
    (henter : enter limit depth target receiver args constructs = .ok f) : f.Anchored n := by
  obtain ⟨all, hall, rfl⟩ := enter_eq_ok henter
  refine ⟨h, fun r hr => ?_, bindArguments_anchored h hargs hall, fun v hv => ?_, fun _ hv => absurd hv List.not_mem_nil,
    hconstructs⟩
  · dsimp only [first] at hr
    split at hr
    · cases hr
    · exact hreceiver r hr
  · obtain rfl := (List.mem_replicate.mp hv).2
    exact .null

theorem constructedOr_anchored {constructs : Option Ref} (hconstructs : ∀ r ∈ constructs, r.index < n)
    (hv : v.Anchored n) : (constructedOr constructs v).Anchored n := by
  cases constructs with
  | none => exact hv
  | some r => exact Value.anchored_object.mpr (hconstructs r rfl)

theorem Anchored.giveBack (h : f.Anchored n) (hg : g.Anchored n) (hv : v.Anchored n) : (f.giveBack g v).Anchored n := by
  unfold Frame.giveBack
  split
  · exact hg.push (constructedOr_anchored h.constructs hv)
  split
  · exact hg
  · exact hg.push hv

end Frame

namespace Machine
variable {n : Nat} {f : Frame} {below : List Frame}

theorem finish_anchored (hf : f.Anchored n) (hbelow : ∀ g ∈ below, g.Anchored n) {v : Value} (hv : v.Anchored n) :
    (finish f below v).Anchored n := by
  cases below with
  | nil => exact Frame.constructedOr_anchored hf.constructs hv
  | cons caller rest =>
    obtain ⟨hcaller, hrest⟩ := List.forall_mem_cons.mp hbelow
    exact List.forall_mem_cons.mpr ⟨hf.giveBack hcaller hv, hrest⟩

/-- The run goes on with these frames. -/
theorem next_anchored {m : Nat} (hle : n ≤ m) (hf : f.Anchored m) (hbelow : ∀ g ∈ below, g.Anchored n) :
    (Transition.next f below).Anchored m :=
  List.forall_mem_cons.mpr ⟨hf, fun g hg => (hbelow g hg).mono hle⟩

theorem binary_anchored {h : Heap} (hh : h.Closed) (op : BinaryOp) {x y v : Value} (hx : h.Holds x) (hy : h.Holds y)
    (hv : binary h f op x y = .ok v) : h.Holds v := by
  have happly := op.apply_linked hh.linked hx hy
  unfold binary at hv
  generalize op.apply h x y = a at happly hv
  cases happly with
  | ok hw =>
    cases hv
    exact hw
  | error e => cases e <;> cases hv

theorem compare_anchors (heap : Heap) (op : CompareOp) (x y : Value) :
    (compare heap op x y : Run (State ω) Bool).Anchors n Run.Unbound := by
  unfold compare
  split
  · exact .pure fun _ _ => trivial
  cases op with
  | eq => exact .ofOption fun _ _ _ _ => trivial
  | ne => exact (Run.Anchors.ofOption (P := Run.Unbound) fun _ _ _ _ => trivial).bind fun _ _ _ _ => .pure fun _ _ => trivial
  | _ => exact .throw _

section
variable {host : Host ω}

theorem startConstruction_anchors (type : String) : (startConstruction host type).Anchors n Frame.Anchored := by
  unfold startConstruction
  refine (Host.resolveType_anchors _).bind fun m owner _ howner => ?_
  split
  · exact .throw _
  rename_i ctor hctor
  obtain ⟨hctor, _⟩ := Option.filter_eq_some_iff.mp hctor
  dsimp only
  refine (State.alloc_anchors fun f hf => ?_).bind fun k r hk hr => .get_bind fun s _ hs => .ofExcept fun f hf l hl => ?_
  · obtain ⟨d, hd, rfl⟩ := List.mem_map.mp (Dict.mem_of_mem_ofList hf)
    exact howner.initialValue (List.mem_filter.mp hd).1
  · have hreceiver : ∀ q ∈ some r, q.index < s.room := by
      rintro _ ⟨⟩
      exact Nat.lt_of_lt_of_le hr hs
    have hframe := Frame.anchored_of_enter ((howner.method? hctor).mono (Nat.le_trans hk hs)) hreceiver
      (fun _ hv => absurd hv List.not_mem_nil) hreceiver hf
    exact hframe.mono hl

theorem call_anchors (hhost : host.Anchors) (hf : f.Anchored n) (hbelow : ∀ g ∈ below, g.Anchored n) (m : MethodRef) :
    (call host f below m).Anchors n Transition.Anchored := by
  unfold call
  split
  · rename_i native hnative
    refine .ofExcept_bind fun p hpop => ?_
    obtain ⟨hargs, hg⟩ := hf.popMany hpop
    refine (hhost _ _ native hnative n p.1 hargs).bind fun k v hk hv => .pure fun l hl => ?_
    have hle := Nat.le_trans hk hl
    split
    · exact next_anchored hle ((hg.mono hle).push (hv.mono hl)) hbelow
    · exact next_anchored hle (hg.mono hle) hbelow
  · refine (Host.resolveMethod_anchors m).bind fun k callee hk hcallee => .ofExcept_bind fun p hpop => ?_
    obtain ⟨hargs, hg⟩ := (hf.mono hk).popMany hpop
    -- once the receiver has been taken from the stack
    have henter {l : Nat} (hl : k ≤ l) {receiver : Option Ref} {g : Frame} (hreceiver : ∀ r ∈ receiver, r.index < l)
        (hg : g.Anchored l) : (do
          let top ← Run.ofExcept (Frame.enter (← get).domain.maxDepth (g.depth + 1) callee receiver p.1)
          return .next top (g :: below) : Run (State ω) Transition).Anchors l Transition.Anchored := by
      refine .get_bind fun s _ hs => .ofExcept_bind fun top htop => .pure fun j hj => ?_
      have hle := Nat.le_trans hl hs
      have htop := Frame.anchored_of_enter (hcallee.mono hle) (Ref.all_below_mono hreceiver hs)
        (Value.all_anchored_mono hargs hle) (fun _ hr => by cases hr) htop
      refine next_anchored hj (htop.mono hj) (List.forall_mem_cons.mpr ⟨hg.mono hs, fun c hc => ?_⟩)
      exact (hbelow c hc).mono (Nat.le_trans hk hle)
    cases callee.decl.isStatic with
    | true => exact henter le_rfl nofun hg
    | false =>
      refine .getHeap_bind fun heap _ hheap => .ofExcept_bind fun q hq => ?_
      obtain ⟨hr, hg'⟩ := (hg.mono hheap).popObject hq
      refine henter hheap ?_ hg'
      rintro _ ⟨⟩
      exact hr

end

end Machine

/-! ## Steps and runs -/

/-- From an anchored frame the runner comes to an anchored value. -/
def Runner.Anchors (run : Runner ω) : Prop := ∀ n f, Frame.Anchored n f → (run f).Anchors n Value.Anchored

/-- So does the client, from an anchored receiver and anchored arguments, if the code that it runs does. -/
def Dispatcher.Anchors (d : Dispatcher ω) : Prop := ∀ host : Host ω, host.Anchors → ∀ run : Runner ω, Runner.Anchors run →
  ∀ n site receiver args, (∀ r ∈ receiver, r.index < n) → (∀ v ∈ args, v.Anchored n) →
    (d.dispatch host run site receiver args).Anchors n DispatchOutcome.Anchored

structure Environment.Anchors (env : Environment ω) : Prop where
  host : env.host.Anchors
  clients : ∀ client d, env.dispatcher? client = some d → d.Anchors

/-- The standard native methods, and no clients. -/
theorem Environment.Anchors.of_standard {env : Environment ω} {thread : Option String}
    (hnatives : env.host.natives = Native.standard thread) (hnone : ∀ client, env.dispatcher? client = none) :
    env.Anchors where
  host := Host.anchors_of_standard hnatives
  clients client d hd := by
    rw [hnone] at hd
    cases hd

namespace Machine
variable {env : Environment ω} (henv : env.Anchors) {n : Nat}
include henv

theorem dispatch_anchors {run : Runner ω} (hrun : Runner.Anchors run) {f : Frame} (hf : f.Anchored n) (site : DispatchSite) :
    (dispatch env run f site).Anchors n DispatchOutcome.Anchored := by
  unfold dispatch
  split
  · exact .pure fun _ _ => trivial
  rename_i d hd
  dsimp only
  split
  · exact .throw _
  · exact henv.clients _ d hd _ henv.host run hrun n site _ _ hf.receiver fun v hv => hf.args v (List.mem_of_mem_take hv)

theorem execute_anchors {run : Runner ω} (hrun : Runner.Anchors run) {f : Frame} (hf : f.Anchored n) {below : List Frame}
    (hbelow : ∀ g ∈ below, g.Anchored n) {i : Instruction Value} (hi : i ∈ f.method.decl.body) :
    (execute env run f below i).Anchors n Transition.Anchored := by
  have hgo {m : Nat} (hle : n ≤ m) {g : Frame} (hg : g.Anchored m) :
      (Pure.pure (.next g below) : Run (State ω) Transition).Anchors m Transition.Anchored :=
    .pure fun k hk => next_anchored (Nat.le_trans hle hk) (hg.mono hk) hbelow
  -- a value is taken from the stack first
  have hpop {m : Nat} {g : Frame} (hg : g.Anchored m) {k : Value × Frame → Run (State ω) Transition}
      (h : ∀ p : Value × Frame, p.1.Anchored m → p.2.Anchored m → (k p).Anchors m Transition.Anchored) :
      (Run.ofExcept g.pop >>= k).Anchors m Transition.Anchored :=
    .ofExcept_bind fun p hp => h p (hg.pop hp).1 (hg.pop hp).2
  cases i with
  | nop => exact hgo le_rfl hf
  | const v => exact hgo le_rfl (hf.push (hf.method.body v hi))
  | loadArg k =>
    simp only [execute]
    split
    · rename_i v hv
      exact hgo le_rfl (hf.push (hf.args v (List.mem_of_getElem? hv)))
    · exact .throw _
  | loadLocal k =>
    simp only [execute]
    split
    · rename_i v hv
      exact hgo le_rfl (hf.push (hf.locals v (List.mem_of_getElem? hv)))
    · exact .throw _
  | loadThis =>
    simp only [execute]
    split
    · rename_i r hr
      exact hgo le_rfl (hf.push (Value.anchored_object.mpr (hf.receiver r hr)))
    · exact .throw _
  | dup =>
    simp only [execute]
    split
    · rename_i v rest hstack
      exact hgo le_rfl (hf.push (hf.stack v (by rw [hstack]; exact List.mem_cons_self)))
    · exact .throw _
  | storeArg k =>
    refine hpop hf fun p hv hg => ?_
    simp only
    split
    · exact hgo le_rfl { hg with args := Frame.forall_mem_set hg.args hv _ }
    · exact .throw _
  | storeLocal k =>
    refine hpop hf fun p hv hg => ?_
    simp only
    split
    · exact hgo le_rfl { hg with locals := Frame.forall_mem_set hg.locals hv _ }
    · exact .throw _
  | loadField field =>
    refine .getHeap_bind fun heap hheap hle => .ofExcept_bind fun p hp => ?_
    simp only
    split
    · rename_i v hv
      exact hgo hle (((hf.mono hle).popObject hp).2.push (hheap.field? hv))
    · exact .throw _
  | storeField field =>
    refine hpop hf fun p hv hg => .getHeap_bind fun heap _ hle => .ofExcept_bind fun q hq => ?_
    refine (State.setField_anchors _ (hv.mono hle)).bind fun m _ hm _ => ?_
    exact hgo (Nat.le_trans hle hm) (((hg.mono hle).popObject hq).2.mono hm)
  | loadStatic field =>
    refine (Host.resolveType_anchors _).bind fun m owner hm _ => (Host.getStatic_anchors _ _).bind fun k v hk hv => ?_
    exact hgo (Nat.le_trans hm hk) ((hf.mono (Nat.le_trans hm hk)).push hv)
  | storeStatic field =>
    refine hpop hf fun p hv hg => (Host.resolveType_anchors _).bind fun m owner hm _ => ?_
    refine (Host.setStatic_anchors _ _ (hv.mono hm)).bind fun k _ hk _ => ?_
    exact hgo (Nat.le_trans hm hk) (hg.mono (Nat.le_trans hm hk))
  | call r => exact call_anchors henv.host hf hbelow r
  | construct r =>
    refine (Host.resolveType_anchors r).bind fun m owner hm _ => (startConstruction_anchors _).bind fun k g hk hg => ?_
    refine .pure fun l hl => next_anchored le_rfl (hg.mono hl) (List.forall_mem_cons.mpr ⟨?_, fun c hc => ?_⟩)
    · exact hf.mono (Nat.le_trans hm (Nat.le_trans hk hl))
    · exact (hbelow c hc).mono (Nat.le_trans hm (Nat.le_trans hk hl))
  | binary op =>
    refine hpop hf fun p hy hg => hpop hg fun q hx hg => .getHeap_bind fun heap hheap hle => .ofExcept_bind fun v hv => ?_
    exact hgo hle ((hg.mono hle).push (binary_anchored hheap op (hx.mono hle) (hy.mono hle) hv))
  | compare op =>
    refine hpop hf fun p _ hg => hpop hg fun q _ hg => .getHeap_bind fun heap _ hle => ?_
    refine (compare_anchors _ _ _ _).bind fun m b hm _ => hgo (Nat.le_trans hle hm) ?_
    exact (hg.mono (Nat.le_trans hle hm)).push (.bool b)
  | not =>
    refine hpop hf fun p _ hg => .getHeap_bind fun heap _ hle => .ofExcept_bind fun b _ => ?_
    exact hgo hle ((hg.mono hle).push (.bool !b))
  | jump t => exact hgo le_rfl (hf.withPosition t.toNat)
  | jumpIfTrue t | jumpIfFalse t =>
    refine hpop hf fun p _ hg => .getHeap_bind fun heap _ hle => .ofExcept_bind fun b _ => ?_
    split
    all_goals first | exact hgo hle ((hg.mono hle).withPosition t.toNat) | exact hgo hle (hg.mono hle)
  | pop => exact hpop hf fun p _ hg => hgo le_rfl hg
  | ret =>
    simp only [execute]
    split
    · exact .pure fun m hm => finish_anchored (hf.mono hm) (fun g hg => (hbelow g hg).mono hm) .null
    · refine hpop hf fun p hv hg => .pure fun m hm => ?_
      exact finish_anchored (hg.mono hm) (fun g hg => (hbelow g hg).mono hm) (hv.mono hm)
  | throw => exact hpop hf fun p _ _ => .getHeap_bind fun _ _ _ => .throw _
  | dispatch site =>
    refine (dispatch_anchors henv hrun hf site).bind fun m outcome hm houtcome => ?_
    have hf' := hf.mono hm
    cases outcome with
    | notExecuted => exact hgo hm ((hf'.push .null).push (.bool false))
    | executed v => exact hgo hm ((hf'.push houtcome).push (.bool true))

theorem step_anchors {run : Runner ω} (hrun : Runner.Anchors run) {f : Frame} (hf : f.Anchored n) {below : List Frame}
    (hbelow : ∀ g ∈ below, g.Anchored n) : (step env run f below).Anchors n Transition.Anchored := by
  unfold step
  split
  · rename_i i hi
    exact execute_anchors henv hrun (hf.withPosition _) hbelow (List.mem_of_getElem? hi)
  · exact .throw _

/-- Whatever is run comes to an anchored value. -/
theorem runner_anchors (budget : Nat) : Runner.Anchors (runner env budget) := by
  suffices hrun : ∀ n f below, (∀ g ∈ f :: below, Frame.Anchored n g) →
      (Machine.run env budget f below).Anchors n Value.Anchored from
    fun n f hf => hrun n f [] (List.forall_mem_singleton.mpr hf)
  induction budget with
  | zero => exact fun _ _ _ _ => .outOfBudget
  | succ budget ih =>
    intro n f below hall s r t hs hn h
    obtain ⟨hf, hbelow⟩ := List.forall_mem_cons.mp hall
    have hrunner : Runner.Anchors (runner env budget) := fun n f hf => ih n f [] (List.forall_mem_singleton.mpr hf)
    have hstep : (step env (runner env budget) f below).Anchors n Transition.Anchored :=
      step_anchors henv hrunner hf hbelow
    rw [Machine.run] at h
    dsimp only at h
    split at h
    · rename_i g rest u hnext
      obtain ⟨hu, hroom, hresult⟩ := hstep s _ u hs hn hnext
      obtain ⟨ht, hroom', hr⟩ := ih u.room g rest (hresult _ rfl) u r t hu le_rfl h
      exact ⟨ht, Nat.le_trans hroom hroom', hr⟩
    · rename_i v u hdone
      cases h
      obtain ⟨ht, hroom, hresult⟩ := hstep s _ _ hs hn hdone
      exact ⟨ht, hroom, fun _ ha => Except.ok.inj ha ▸ hresult _ rfl⟩
    · rename_i e u herror
      cases h
      obtain ⟨ht, hroom, _⟩ := hstep s _ _ hs hn herror
      refine ⟨ht, hroom, fun v hv => ?_⟩
      cases hv
    · cases h

end Machine

end MobileCode
