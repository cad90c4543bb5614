import MobileCode.Proofs.Conduct

/-! # What fails as stale

A server refuses a request as stale while it looks for the module. Whatever goes wrong after that, when files are
loaded and code runs, it is not this: the fault that is answered then is of another kind.
-/
namespace MobileCode

/-- The error is not that of a request for another version. -/
def Error.Fresh (e : Error) : Prop := (e.toFault.kind == .staleModule) = false

theorem Error.fresh_iff {e : Error} : e.Fresh ↔ e.toFault.kind ≠ .staleModule := beq_eq_false_iff_ne

/-- If the computation fails, it is with another error. -/
def Run.Fresh {σ α : Type} (x : Run σ α) : Prop := ∀ s e t, x s = some (.error e, t) → e.Fresh

def FreshFailure {α : Type} (x : Except Error α) : Prop := ∀ e, x = .error e → e.Fresh

namespace FreshFailure
variable {α β : Type}

theorem ok (a : α) : FreshFailure (.ok a) := fun _ h => nomatch h

theorem error {e : Error} (h : e.Fresh) : FreshFailure (.error e : Except Error α) := by
  intro e' h'
  cases h'
  exact h

theorem bind {x : Except Error α} {f : α → Except Error β} (hx : FreshFailure x) (hf : ∀ a, FreshFailure (f a)) :
    FreshFailure (x >>= f) := by
  intro e h
  cases x with
  | error e' =>
    cases h
    exact hx e rfl
  | ok a => exact hf a e h

theorem mapM {f : α → Except Error β} (h : ∀ a, FreshFailure (f a)) (xs : List α) : FreshFailure (xs.mapM f) := by
  induction xs with
  | nil => exact .ok _
  | cons a xs ih =>
    rw [List.mapM_cons]
    exact (h a).bind fun _ => ih.bind fun _ => .ok _

end FreshFailure

namespace Run.Fresh
variable {σ α β : Type} {x : Run σ α} {f : α → Run σ β}

theorem pure (a : α) : (Pure.pure a : Run σ α).Fresh := fun _ _ _ h => nomatch h

theorem throw {e : Error} (h : e.Fresh) : (MonadExcept.throw e : Run σ α).Fresh := by
  intro s e' t h'
  cases h'
  exact h

/-- What is known of the value that comes first. -/
theorem bind_of {P : α → Prop} (hx : x.Fresh) (hP : ∀ s, x.Ensures s fun a _ => P a) (hf : ∀ a, P a → (f a).Fresh) :
    (x >>= f).Fresh := by
  intro s e t h
  rw [bind_apply] at h
  rcases hxs : x s with _ | ⟨_ | a, u⟩
  · rw [hxs] at h
    cases h
  · rw [hxs] at h
    cases h
    exact hx s _ _ hxs
  · rw [hxs] at h
    exact hf a (hP s a u hxs) u e t h

theorem bind (hx : x.Fresh) (hf : ∀ a, (f a).Fresh) : (x >>= f).Fresh :=
  bind_of (P := fun _ => True) hx (fun _ _ _ _ => trivial) fun a _ => hf a

theorem ofExcept {y : Except Error α} (h : FreshFailure y) : (Run.ofExcept y : Run σ α).Fresh := by
  intro s e t h'
  cases h'
  exact h e rfl

theorem ofOption (o : Option α) : (Run.ofOption o : Run σ α).Fresh := by
  cases o with
  | none => exact fun _ _ _ h => nomatch h
  | some a => exact .pure a

theorem get : (MonadState.get : Run σ σ).Fresh := fun _ _ _ h => nomatch h

theorem modify (g : σ → σ) : (MonadState.modifyGet fun s => ((), g s) : Run σ Unit).Fresh := fun _ _ _ h => nomatch h

/-- The error that is turned into a value is no other. -/
theorem attempt_bind {g : Except Error α → Run σ β} (hx : x.Fresh) (hok : ∀ a, (g (.ok a)).Fresh)
    (herror : ∀ e : Error, e.Fresh → (g (.error e)).Fresh) : (Run.attempt x >>= g).Fresh := by
  intro s e t h
  rw [bind_apply, Run.attempt] at h
  rcases hxs : x s with _ | ⟨r, u⟩
  · rw [hxs] at h
    cases h
  · rw [hxs] at h
    cases r with
    | ok a => exact hok a u e t h
    | error e' => exact herror e' (hx s e' u hxs) u e t h

theorem mapM {xs : List α} {g : α → Run σ β} (h : ∀ a, (g a).Fresh) : (xs.mapM g).Fresh := by
  induction xs with
  | nil => exact .pure _
  | cons a xs ih =>
    rw [List.mapM_cons]
    exact (h a).bind fun _ => ih.bind fun _ => .pure _

end Run.Fresh

/-! ## Loading -/

namespace Domain

theorem register_fresh (d : Domain) (m : Module Datum) (bytes : Bytes) (path : Option String) :
    FreshFailure (d.register m bytes path) := by
  unfold register
  dsimp only
  split
  · split
    · exact .ok _
    · exact .error rfl
  · generalize (instantiate m).run d.heap = a
    obtain ⟨code, heap⟩ := a
    dsimp only
    split
    · exact .error rfl
    · exact .ok _

theorem loadFile_fresh (d : Domain) (bytes : Bytes) (path : Option String) : FreshFailure (d.loadFile bytes path) := by
  have hread : FreshFailure (Module.ofFile bytes) := by
    unfold Module.ofFile
    split
    · exact .error rfl
    split
    · exact .error rfl
    · unfold Module.validate
      split
      · exact .error rfl
      · exact .ok _
  exact hread.bind fun m => d.register_fresh m bytes path

end Domain

/-! ## Running code -/

section Code
variable {ω : Type}

theorem State.getHeap_fresh : (State.getHeap : Run (State ω) Heap).Fresh := Run.Fresh.get.bind fun _ => .pure _

theorem State.loadFile_fresh (bytes : Bytes) (path : Option String) :
    (State.loadFile bytes path : Run (State ω) LoadedModule).Fresh :=
  Run.Fresh.get.bind fun s => (Run.Fresh.ofExcept (s.domain.loadFile_fresh bytes path)).bind fun _ =>
    (Run.Fresh.modify _).bind fun _ => .pure _

theorem State.onOutside_fresh {α : Type} {x : Run ω α} (hx : x.Fresh) : (State.onOutside x).Fresh := by
  intro s e t h
  unfold State.onOutside Run.zoom at h
  rcases hxs : x s.outside with _ | ⟨r, o⟩
  · rw [hxs] at h
    cases h
  · rw [hxs] at h
    cases h
    exact hx _ e o hxs

/-- Neither the resolver of the host nor its native methods fail as stale. -/
structure Host.Fresh (host : Host ω) : Prop where
  resolver : ∀ resolve, host.resolver = some resolve → ∀ name, (resolve name).Fresh
  natives : ∀ type method native, host.native? type method = some native → ∀ args, (native.call args).Fresh

namespace Host
variable {host : Host ω} (hhost : host.Fresh)
include hhost

theorem resolveModule_fresh (name : String) : (host.resolveModule name).Fresh := by
  unfold resolveModule
  split
  · exact .pure _
  · rename_i resolve hresolve
    refine (State.onOutside_fresh (hhost.resolver resolve hresolve name)).bind fun found => ?_
    split
    · exact .pure _
    · exact (State.loadFile_fresh _ _).bind fun _ => .pure _

theorem resolveType_fresh (r : TypeRef) : (host.resolveType r).Fresh := by
  have hmissing : (typeMissing r).Fresh := rfl
  unfold resolveType
  refine Run.Fresh.get.bind fun s => ?_
  split
  · exact .pure _
  split
  · exact .throw hmissing
  refine Run.Fresh.get.bind fun s => ?_
  split
  · exact .throw hmissing
  refine (resolveModule_fresh hhost _).bind fun found => ?_
  split
  · refine Run.Fresh.get.bind fun s => ?_
    split
    · exact .pure _
    · exact .throw hmissing
  · exact .throw hmissing

theorem resolveMethod_fresh (r : MethodRef) : (host.resolveMethod r).Fresh := by
  unfold resolveMethod
  refine (resolveType_fresh hhost r.owner).bind fun owner => ?_
  split
  · exact .pure _
  · exact .throw rfl

theorem resolveOverload_fresh (type method : String) (args : List Value) :
    (host.resolveOverload type method args).Fresh := by
  unfold resolveOverload
  refine (resolveType_fresh hhost _).bind fun owner => Run.Fresh.get.bind fun s => ?_
  dsimp only
  split
  · exact .pure _
  · exact .throw rfl

theorem staticsWith_fresh (type field : String) : (host.staticsWith type field).Fresh := by
  unfold staticsWith
  refine (resolveType_fresh hhost _).bind fun owner => ?_
  split
  · refine Run.Fresh.get.bind fun s => ?_
    split
    · exact .pure _
    · exact .throw rfl
  · exact .throw rfl

theorem getStatic_fresh (type field : String) : (host.getStatic type field).Fresh := by
  unfold getStatic
  refine (staticsWith_fresh hhost type field).bind fun fields => ?_
  split
  · exact .pure _
  · exact .throw rfl

theorem setStatic_fresh (type field : String) (v : Value) : (host.setStatic type field v).Fresh :=
  (staticsWith_fresh hhost type field).bind fun _ => .modify _

end Host

namespace Native

theorem items_fresh (method : String) (v : Value) : (items method v : Run (State ω) (List Value)).Fresh := by
  unfold items
  split
  · exact .pure _
  · exact State.getHeap_fresh.bind fun _ => .throw rfl

theorem textOf_fresh (v : Value) : (textOf v : Run (State ω) String).Fresh := State.getHeap_fresh.bind fun _ => .pure _

theorem standard_fresh (thread : Option String) :
    ∀ p ∈ (standard thread : List ((String × String) × Native ω)), ∀ args, (p.2.call args).Fresh := by
  intro p hp args
  have harity (type method : String) (n : Nat) :
      (wrongArity type method n args : Run (State ω) Value).Fresh := .throw rfl
  simp only [standard, List.mem_cons, List.not_mem_nil, or_false] at hp
  rcases hp with rfl | rfl | rfl | rfl | rfl | rfl | rfl | rfl | rfl
  · simp only [concat]
    split
    · exact (textOf_fresh _).bind fun _ => (textOf_fresh _).bind fun _ => .pure _
    · exact harity _ _ _
  · simp only [length]
    split
    · exact .pure _
    · exact harity _ _ _
  · simp only [toText]
    split
    · exact (textOf_fresh _).bind fun _ => .pure _
    · exact harity _ _ _
  · simp only [newList]
    split
    · exact .pure _
    · exact harity _ _ _
  · simp only [append]
    split
    · exact .pure _
    · exact (items_fresh _ _).bind fun _ => .pure _
    · exact harity _ _ _
  · simp only [listCount]
    split
    · exact .pure _
    · exact (items_fresh _ _).bind fun _ => .pure _
    · exact harity _ _ _
  · simp only [listGet]
    split
    · refine (items_fresh _ _).bind fun _ => ?_
      split
      · exact .pure _
      · exact State.getHeap_fresh.bind fun _ => .throw rfl
    · exact harity _ _ _
  · simp only [machineName]
    split
    · exact Run.Fresh.get.bind fun _ => .pure _
    · exact harity _ _ _
  · simp only [threadName]
    split
    · exact .pure _
    · exact harity _ _ _

end Native

theorem Host.natives_fresh {host : Host ω} {thread : Option String} (h : host.natives = Native.standard thread)
    (type method : String) (native : Native ω) (hfound : host.native? type method = some native) (args : List Value) :
    (native.call args).Fresh := by
  rw [native?, h, List.lookup_eq_some_iff] at hfound
  obtain ⟨front, rest, hsplit, _⟩ := hfound
  refine Native.standard_fresh thread ((type, method), native) ?_ args
  rw [hsplit]
  simp

namespace Frame
variable (f : Frame)

theorem pop_fresh : FreshFailure f.pop := by
  unfold pop
  split
  · exact .ok _
  · exact .error rfl

theorem popMany_fresh (n : Nat) : FreshFailure (f.popMany n) := by
  unfold popMany
  split
  · exact .error rfl
  · exact .ok _

theorem popObject_fresh (heap : Heap) : FreshFailure (f.popObject heap) := by
  unfold popObject
  refine f.pop_fresh.bind fun p => ?_
  obtain ⟨v, g⟩ := p
  cases v with
  | object r => exact .ok _
  | _ => exact .error rfl

theorem enter_fresh (limit depth : Nat) (m : MethodHandle) (receiver : Option Ref) (args : List Value)
    (constructs : Option Ref) : FreshFailure (enter limit depth m receiver args constructs) := by
  have hdefault (p : ParamDecl Value) : FreshFailure (defaultOf m.key p) := by
    unfold defaultOf
    split
    · exact .ok _
    · exact .error rfl
  have harguments : FreshFailure (bindArguments m args) := by
    rw [bindArguments_eq]
    split
    · exact .error rfl
    · exact (FreshFailure.mapM hdefault _).bind fun _ => .ok _
  rw [enter_eq]
  split
  · exact .error rfl
  cases hbound : bindArguments m args with
  | error e => exact .error (harguments e hbound)
  | ok vs =>
    dsimp only
    split
    · exact .error rfl
    · exact .ok _

end Frame

namespace Machine

theorem truth_fresh (heap : Heap) (v : Value) : FreshFailure (truth heap v) := by
  unfold truth
  split
  · exact .ok _
  · exact .error rfl

theorem binary_fresh (heap : Heap) (f : Frame) (op : BinaryOp) (x y : Value) : FreshFailure (binary heap f op x y) := by
  unfold binary
  split
  · exact .ok _
  · exact .error rfl
  · exact .error rfl

theorem compare_fresh (heap : Heap) (op : CompareOp) (x y : Value) :
    (compare heap op x y : Run (State ω) Bool).Fresh := by
  unfold compare
  split
  · exact .pure _
  split
  · exact .ofOption _
  · exact (Run.Fresh.ofOption _).bind fun _ => .pure _
  · exact .throw rfl

section
variable {env : Environment ω} {run : Runner ω} (hhost : env.host.Fresh)
include hhost

theorem startConstruction_fresh (type : String) : (startConstruction env.host type).Fresh := by
  have halloc (o : Object) : (State.alloc o : Run (State ω) Ref).Fresh :=
    State.getHeap_fresh.bind fun _ => (Run.Fresh.modify _).bind fun _ => .pure _
  unfold startConstruction
  refine (Host.resolveType_fresh hhost _).bind fun owner => ?_
  split
  · exact .throw rfl
  · exact (halloc _).bind fun r => Run.Fresh.get.bind fun _ => .ofExcept (Frame.enter_fresh _ _ _ _ _ _)

theorem call_fresh (f : Frame) (below : List Frame) (r : MethodRef) : (call env.host f below r).Fresh := by
  unfold call
  split
  · rename_i native hnative
    exact (Run.Fresh.ofExcept (f.popMany_fresh _)).bind fun p => (hhost.natives _ _ _ hnative p.1).bind fun _ => .pure _
  · refine (Host.resolveMethod_fresh hhost r).bind fun callee => (Run.Fresh.ofExcept (f.popMany_fresh _)).bind fun p => ?_
    have henter (receiver : Option Ref) (g : Frame) : (do
        let top ← Run.ofExcept (Frame.enter (← get).domain.maxDepth (g.depth + 1) callee receiver p.1)
        return .next top (g :: below) : Run (State ω) Transition).Fresh :=
      Run.Fresh.get.bind fun _ => (Run.Fresh.ofExcept (Frame.enter_fresh _ _ _ _ _ _)).bind fun _ => .pure _
    cases callee.decl.isStatic with
    | true => exact henter none p.2
    | false =>
      exact State.getHeap_fresh.bind fun heap => (Run.Fresh.ofExcept (p.2.popObject_fresh heap)).bind fun q =>
        henter (some q.1) q.2

theorem execute_fresh {i : Instruction Value} {f : Frame}
    (hdispatch : ∀ site, i = .dispatch site → (dispatch env run f site).Fresh) (below : List Frame) :
    (execute env run f below i).Fresh := by
  have hpop {g : Frame} {k : Value × Frame → Run (State ω) Transition} (h : ∀ p, (k p).Fresh) :
      (Run.ofExcept g.pop >>= k).Fresh := (Run.Fresh.ofExcept g.pop_fresh).bind h
  cases i with
  | nop | const | jump => exact .pure _
  | loadArg n | loadLocal n | loadThis | dup =>
    simp only [execute]
    split
    · exact .pure _
    · exact .throw rfl
  | storeArg n | storeLocal n =>
    refine hpop fun p => ?_
    simp only
    split
    · exact .pure _
    · exact .throw rfl
  | loadField field =>
    refine State.getHeap_fresh.bind fun heap => (Run.Fresh.ofExcept (f.popObject_fresh heap)).bind fun p => ?_
    simp only
    split
    · exact .pure _
    · exact .throw rfl
  | storeField field =>
    refine hpop fun p => State.getHeap_fresh.bind fun heap => (Run.Fresh.ofExcept (p.2.popObject_fresh heap)).bind fun q => ?_
    exact (Run.Fresh.modify _).bind fun _ => .pure _
  | loadStatic field =>
    exact (Host.resolveType_fresh hhost _).bind fun owner => (Host.getStatic_fresh hhost _ _).bind fun _ => .pure _
  | storeStatic field =>
    exact hpop fun p => (Host.resolveType_fresh hhost _).bind fun owner =>
      (Host.setStatic_fresh hhost _ _ _).bind fun _ => .pure _
  | call r => exact call_fresh hhost f below r
  | construct r =>
    exact (Host.resolveType_fresh hhost r).bind fun owner => (startConstruction_fresh hhost _).bind fun _ => .pure _
  | binary op =>
    exact hpop fun p => hpop fun q => State.getHeap_fresh.bind fun heap =>
      (Run.Fresh.ofExcept (binary_fresh heap q.2 op q.1 p.1)).bind fun _ => .pure _
  | compare op =>
    exact hpop fun p => hpop fun q => State.getHeap_fresh.bind fun heap =>
      (compare_fresh heap op q.1 p.1).bind fun _ => .pure _
  | not =>
    exact hpop fun p => State.getHeap_fresh.bind fun heap => (Run.Fresh.ofExcept (truth_fresh heap p.1)).bind fun _ => .pure _
  | jumpIfTrue n | jumpIfFalse n =>
    refine hpop fun p => State.getHeap_fresh.bind fun heap => (Run.Fresh.ofExcept (truth_fresh heap p.1)).bind fun b => ?_
    split <;> exact .pure _
  | pop => exact hpop fun p => .pure _
  | ret =>
    simp only [execute]
    split
    · exact .pure _
    · exact hpop fun p => .pure _
  | throw => exact hpop fun p => State.getHeap_fresh.bind fun _ => .throw rfl
  | dispatch site =>
    refine (hdispatch site rfl).bind fun outcome => ?_
    cases outcome <;> exact .pure _

/-- A run of code that is handed to no client. -/
theorem runner_fresh (halone : ∀ client, env.dispatcher? client = none) (budget : Nat) (f : Frame) :
    (runner env budget f).Fresh := by
  suffices hrun : ∀ f below, (Machine.run env budget f below).Fresh from hrun f []
  induction budget with
  | zero => exact fun f below _ _ _ h => nomatch h
  | succ budget ih =>
    intro f below s e t h
    have hstep : (step env (runner env budget) f below).Fresh := by
      unfold step
      split
      · refine execute_fresh hhost (fun site _ => ?_) _
        unfold dispatch
        rw [halone]
        exact .pure _
      · exact .throw rfl
    rw [Machine.run] at h
    dsimp only at h
    split at h
    · rename_i g rest u _
      exact ih g rest u e t h
    · cases h
    · rename_i e' u herror
      cases h
      exact hstep s _ _ herror
    · cases h

end
end Machine

/-! ## Calls and carried state -/

variable {host : Host ω} {run : Runner ω} (hhost : host.Fresh) (hrun : ∀ f, (run f).Fresh)

namespace Host
include hrun

theorem invokeHandle_fresh (m : MethodHandle) (receiver : Option Ref) (args : List Value) :
    (invokeHandle run m receiver args).Fresh := by
  unfold invokeHandle
  exact Run.Fresh.get.bind fun s => (Run.Fresh.ofExcept (Frame.enter_fresh _ _ _ _ _ _)).bind fun f => hrun f

include hhost

theorem invoke_fresh (m : MethodRef) (receiver : Option Ref) (args : List Value) :
    (host.invoke run m receiver args).Fresh := by
  unfold invoke
  split
  · rename_i native hnative
    exact hhost.natives _ _ native hnative args
  · exact (resolveMethod_fresh hhost m).bind fun found => invokeHandle_fresh hrun found receiver args

theorem construct_fresh (type : String) : (host.construct run type).Fresh := by
  have hstart : (Machine.startConstruction ({ host } : Environment ω).host type).Fresh :=
    Machine.startConstruction_fresh hhost type
  unfold construct
  refine hstart.bind fun f => (hrun f).bind fun v => ?_
  split
  · exact .pure _
  · exact fun _ _ _ h => nomatch h

end Host

namespace Variable
variable (v : Variable Value) (target : Option Ref)

theorem validate_fresh : FreshFailure v.validate := by
  unfold validate
  split
  · exact .ok ()
  · exact .error rfl

theorem instance?_fresh : (v.instance? target : Run (State ω) (Option Ref)).Fresh := by
  unfold instance?
  split
  · exact .pure _
  split
  · exact .throw rfl
  · refine State.getHeap_fresh.bind fun _ => ?_
    dsimp only
    split
    · exact .pure _
    · exact .throw rfl

theorem checkValue_fresh : (v.checkValue : Run (State ω) Unit).Fresh := by
  unfold checkValue
  refine State.getHeap_fresh.bind fun heap => ?_
  split
  · exact .pure _
  · exact .throw rfl

include hhost

theorem accessor_fresh (which : PropertyDecl → Option String) : (v.accessor host which).Fresh := by
  unfold accessor
  refine (Host.resolveType_fresh hhost _).bind fun owner => ?_
  split
  · exact .throw rfl
  split
  · exact .throw rfl
  split
  · exact .pure _
  · exact .throw rfl

theorem checkField_fresh : (v.checkField host).Fresh := by
  unfold checkField
  refine (Host.resolveType_fresh hhost _).bind fun owner => ?_
  split
  · exact .pure _
  · exact .throw rfl

theorem readField_fresh : (v.readField host target).Fresh := by
  unfold readField
  refine (v.instance?_fresh target).bind fun r => ?_
  split
  · exact Host.getStatic_fresh hhost _ _
  · refine State.getHeap_fresh.bind fun _ => ?_
    split
    · exact .pure _
    · exact Run.Fresh.get.bind fun _ => .throw rfl

include hrun

theorem copyFrom_fresh : (v.copyFrom host run target).Fresh := by
  unfold copyFrom
  refine (Run.Fresh.ofExcept v.validate_fresh).bind fun _ => ?_
  split
  · exact .throw rfl
  · exact (checkField_fresh hhost v).bind fun _ => (readField_fresh hhost v target).bind fun _ => .pure _
  · have hread : (v.readProperty host run target).Fresh :=
      (accessor_fresh hhost v _).bind fun getter => (v.instance?_fresh target).bind fun receiver =>
        Host.invoke_fresh hhost hrun _ receiver []
    exact hread.bind fun _ => .pure _

theorem copyTo_fresh : (v.copyTo host run target).Fresh := by
  unfold copyTo
  refine (Run.Fresh.ofExcept v.validate_fresh).bind fun _ => ?_
  split
  · exact .throw rfl
  · refine (checkField_fresh hhost v).bind fun _ => v.checkValue_fresh.bind fun _ => ?_
    refine (v.instance?_fresh target).bind fun receiver => ?_
    split
    · exact .modify _
    · exact Host.setStatic_fresh hhost _ _ _
  · refine v.checkValue_fresh.bind fun _ => (accessor_fresh hhost v _).bind fun setter => ?_
    refine (v.instance?_fresh target).bind fun receiver => ?_
    exact (Host.invoke_fresh hhost hrun _ receiver _).bind fun _ => .pure _

end Variable

namespace Transfer

theorem unlessUnavailable_fresh {α : Type} {x : Run (State ω) α} (hx : x.Fresh) : (unlessUnavailable x).Fresh := by
  unfold unlessUnavailable
  refine hx.attempt_bind (fun _ => .pure _) fun e he => ?_
  split
  · rename_i h
    cases h
  · exact .pure _
  · rename_i h
    cases h
    exact .throw he

variable (target : Option Ref) (vs : List (Variable Value))
include hhost hrun

theorem apply_fresh : (apply host run target vs).Fresh := by
  induction vs with
  | nil => exact .pure _
  | cons v vs ih =>
    unfold apply
    exact (unlessUnavailable_fresh (Variable.copyTo_fresh hhost hrun v target)).bind fun _ => ih

/-- Neither the computation nor its outcome. -/
theorem refresh_fresh : (refresh host run target vs).Fresh ∧
    ∀ s, (refresh host run target vs).Ensures s fun p _ => FreshFailure p.2 := by
  induction vs with
  | nil => exact ⟨.pure _, fun s => .pure (.ok ())⟩
  | cons v vs ih =>
    have hread : (unlessUnavailable (v.copyFrom host run target)).Fresh :=
      unlessUnavailable_fresh (Variable.copyFrom_fresh hhost hrun v target)
    unfold refresh
    constructor
    · exact hread.attempt_bind (fun w => ih.1.bind fun _ => .pure _) fun e _ => .pure _
    · intro s
      have hattempt : (Run.attempt (unlessUnavailable (v.copyFrom host run target))).Ensures s
          fun outcome _ => FreshFailure outcome := by
        intro outcome t h
        unfold Run.attempt at h
        split at h
        · rename_i r u hx
          cases h
          rintro e rfl
          exact hread s e t hx
        · cases h
      refine hattempt.bind fun outcome t houtcome => ?_
      split
      · rename_i e
        exact .pure (.error (houtcome e rfl))
      · exact (ih.2 t).bind fun p u hp => .pure hp

end Transfer

end Code

/-! ## Requests -/

namespace Storage

theorem read_fresh (path : String) : (read path).Fresh := by
  unfold read
  refine (Run.Fresh.modify _).bind fun _ => Run.Fresh.get.bind fun s => ?_
  split
  · exact .pure _
  · exact .throw rfl

theorem isFile_fresh (path : String) : (isFile path).Fresh :=
  (Run.Fresh.modify _).bind fun _ => Run.Fresh.get.bind fun _ => .pure _

theorem change_fresh (path : String) (f : FileTree → Option FileTree) : (change path f).Fresh := by
  unfold change
  refine (Run.Fresh.modify _).bind fun _ => Run.Fresh.get.bind fun s => ?_
  split
  · exact .modify _
  · exact .throw rfl

theorem keep_fresh (hash name : String) (bytes : Bytes) : (keep hash name bytes).Fresh := by
  unfold keep
  refine Run.Fresh.get.bind fun s => (isFile_fresh _).bind fun there => ?_
  split
  · exact .pure _
  · exact (change_fresh _ _).bind fun _ => change_fresh _ _

end Storage

namespace Server
variable (r : Request Datum)

theorem findReferenced_fresh (m : LoadedModule) (hash name : String) : (findReferenced m hash name).Fresh := by
  have hread (directories : List String) : (readFrom name directories).Fresh := by
    induction directories with
    | nil => exact .pure _
    | cons directory rest ih =>
      unfold readFrom
      refine (Storage.isFile_fresh _).bind fun there => ?_
      split
      · exact (Storage.read_fresh _).bind fun _ => .pure _
      · exact ih
  unfold findReferenced
  split
  · exact .pure _
  refine Run.Fresh.get.bind fun s => (hread _).bind fun found => ?_
  split
  · exact .pure _
  split
  · exact .pure _
  · exact (Storage.keep_fresh _ _ _).bind fun _ => .pure _

theorem hostFor_fresh (thread : Option String) (m : LoadedModule) : (hostFor r thread m).Fresh where
  resolver resolve hresolve name := by
    cases hresolve
    exact findReferenced_fresh m r.hash name
  natives := Host.natives_fresh rfl

/-- What is run for a request does not fail as stale. -/
theorem invoke_fresh (budget : Nat) (thread : Option String) (m : LoadedModule) :
    (invoke r (hostFor r thread m) (Machine.runner { host := hostFor r thread m } budget)).Fresh := by
  have hhost := hostFor_fresh r thread m
  have hrun : ∀ f, (Machine.runner { host := hostFor r thread m } budget f).Fresh :=
    Machine.runner_fresh hhost (fun _ => rfl) budget
  generalize Machine.runner { host := hostFor r thread m } budget = run at hrun ⊢
  generalize hostFor r thread m = host at hhost ⊢
  have hinstantiate (x : Datum) : (State.instantiate x : Serving Value).Fresh :=
    State.getHeap_fresh.bind fun _ => (Run.Fresh.modify _).bind fun _ => .pure _
  have hentry (asked : MethodHandle) (args : List Value) : (entryPoint r host asked args).Fresh := by
    unfold entryPoint
    dsimp only
    split
    · exact .pure _
    split
    · exact .pure _
    · refine (Host.resolveType_fresh hhost _).bind fun owner => ?_
      split
      · exact .throw rfl
      · exact .pure _
  have hanswer (entry : MethodHandle) (receiver : Option Ref) (args : List Value) (vs : List (Variable Value)) :
      (if r.mode = .normal then do
          Transfer.apply host run receiver vs
          let result ← Host.invokeHandle run entry receiver args
          let back ← Transfer.refresh host run receiver vs
          Run.ofExcept back.2
          return .completed result back.1
        else return .completed (← Host.invokeHandle run entry receiver args) [] : Serving (Answer Value)).Fresh := by
    split
    · refine (Transfer.apply_fresh hhost hrun receiver vs).bind fun _ => ?_
      refine (Host.invokeHandle_fresh hrun entry receiver args).bind fun result => ?_
      obtain ⟨hback, houtcome⟩ := Transfer.refresh_fresh hhost hrun receiver vs
      exact hback.bind_of houtcome fun p hp => (Run.Fresh.ofExcept hp).bind fun _ => .pure _
    · exact (Host.invokeHandle_fresh hrun entry receiver args).bind fun _ => .pure _
  unfold invoke
  refine (Run.Fresh.mapM hinstantiate).bind fun args => ?_
  refine (Run.Fresh.mapM fun v => (hinstantiate _).bind fun _ => .pure _).bind fun nonLocals => ?_
  refine (Host.resolveOverload_fresh hhost _ _ _).bind fun asked => (hentry _ _).bind fun entry => ?_
  dsimp only
  split
  · exact hanswer _ _ _ _
  · rw [map_eq_pure_bind]
    exact ((Host.construct_fresh hhost hrun _).bind fun _ => .pure _).bind fun receiver => hanswer _ _ _ _

end Server
end MobileCode
