import MobileCode.Proofs.Lookups
import MobileCode.Proofs.Tidiness

/-! # The name of the thread

Two hosts that have alike natives run a program to the same end. A program that ends where the name of the thread is
never given has not asked for it, so it comes to the same end on every thread. Heaps stay in order on the way.
-/
namespace MobileCode
variable {ω α β : Type}

/-! ## Approximation -/

/-- A heap in order stays in order. -/
def State.Tidied (s t : State ω) : Prop := s.domain.heap.Ordered → t.domain.heap.Ordered

instance : IsPreorder (State ω) State.Tidied where
  refl _ := id
  trans _ _ _ hst htu hs := htu (hst hs)

/-- From heaps in order, the second computation comes to the end that the first one comes to, with a heap in order. -/
def Run.Approximates (x y : Run (State ω) α) : Prop :=
  ∀ s r t, s.domain.heap.Ordered → x s = some (r, t) → y s = some (r, t) ∧ t.domain.heap.Ordered

namespace Run.Approximates
variable {x y : Run (State ω) α} {f g : α → Run (State ω) β}

theorem same (h : x.Respects True State.Tidied) : x.Approximates x :=
  fun s r t hs hr => ⟨hr, h s r t hr (.inl trivial) hs⟩

theorem pure (a : α) : Run.Approximates (Pure.pure a : Run (State ω) α) (Pure.pure a) := same (.pure a)

theorem throw (e : Error) : Run.Approximates (MonadExcept.throw e : Run (State ω) α) (MonadExcept.throw e) :=
  same (.throw e)

theorem bind (hx : x.Approximates y) (hf : ∀ a, (f a).Approximates (g a)) : (x >>= f).Approximates (y >>= g) := by
  intro s r t hs h
  rw [bind_apply] at h ⊢
  rcases hxs : x s with _ | ⟨e | a, u⟩
  · rw [hxs] at h
    cases h
  · obtain ⟨hys, hu⟩ := hx s _ _ hs hxs
    rw [hxs] at h
    cases h
    rw [hys]
    exact ⟨rfl, hu⟩
  · obtain ⟨hys, hu⟩ := hx s _ _ hs hxs
    rw [hxs] at h
    rw [hys]
    exact hf a u r t hu h

theorem get_bind {f g : State ω → Run (State ω) β} (h : ∀ s, (f s).Approximates (g s)) :
    (get >>= f).Approximates (get >>= g) := (same .get).bind h

theorem heap_bind {f g : Heap → Run (State ω) β} (h : ∀ heap, (f heap).Approximates (g heap)) :
    (State.getHeap >>= f).Approximates (State.getHeap >>= g) := (same .getHeap).bind h

theorem ofExcept_bind {e : Except Error α} (h : ∀ a, (f a).Approximates (g a)) :
    (Run.ofExcept e >>= f).Approximates (Run.ofExcept e >>= g) := (same (.ofExcept e)).bind h

theorem attempt (h : x.Approximates y) : (Run.attempt x).Approximates (Run.attempt y) := by
  intro s r t hs hr
  unfold Run.attempt at hr ⊢
  rcases hxs : x s with _ | ⟨a, u⟩
  · rw [hxs] at hr
    cases hr
  · obtain ⟨hys, hu⟩ := h s _ _ hs hxs
    rw [hxs] at hr
    cases hr
    rw [hys]
    exact ⟨rfl, hu⟩

end Run.Approximates

/-! ## What keeps heaps in order -/

namespace State

theorem setField_tidied (r : Ref) (name : String) (v : Value) :
    (setField r name v : Run (State ω) Unit).Respects True Tidied := by
  intro s a t h _ hs
  cases h
  exact hs.setField r name v

theorem alloc_tidied {o : Object} (ho : o.fields.Sorted) : (alloc o : Run (State ω) Ref).Respects True Tidied := by
  intro s a t h _ hs
  cases h
  exact hs.alloc ho

theorem instantiate_tidied {x : Datum} (hx : x.Ordered) : (instantiate x : Run (State ω) Value).Respects True Tidied := by
  intro s a t h _ hs
  cases h
  exact Heap.instantiate_tidy hx _ hs

theorem onOutside_tidied (x : Run ω α) : (onOutside x).Respects True Tidied := by
  intro s a t h _ hs
  obtain ⟨hdomain, _⟩ := onOutside_yields (Q := fun _ _ => True) (fun _ _ _ => trivial) a t h
  exact hdomain ▸ hs

end State

/-! ## Hosts -/

/-- The hosts differ in their native methods at most, and those of the first one approximate those of the second. -/
structure Host.Approximates (host host' : Host ω) : Prop where
  resolver : host'.resolver = host.resolver
  natives : ∀ type method, Option.Rel (fun m n : Native ω => n.returnsValue = m.returnsValue ∧
    ∀ args, (m.call args).Approximates (n.call args)) (host.native? type method) (host'.native? type method)

section
variable {host host' : Host ω} (h : host.Approximates host')
include h

namespace Host

theorem resolveType_approximates (r : TypeRef) : (host.resolveType r).Approximates (host'.resolveType r) := by
  have hsame : host'.resolveType r = host.resolveType r := by
    unfold resolveType resolveModule
    rw [h.resolver]
  rw [hsame]
  exact .same (resolveType_respects (fun s bytes path m d hd hs => Domain.loadFile_ordered hs hd)
    (fun _ _ _ => State.onOutside_tidied _) r)

theorem resolveMethod_approximates (r : MethodRef) : (host.resolveMethod r).Approximates (host'.resolveMethod r) := by
  unfold resolveMethod
  refine (resolveType_approximates h r.owner).bind fun owner => ?_
  split
  · exact .pure _
  · exact .throw _

theorem resolveOverload_approximates (type method : String) (args : List Value) :
    (host.resolveOverload type method args).Approximates (host'.resolveOverload type method args) := by
  unfold resolveOverload
  refine (resolveType_approximates h _).bind fun owner => .get_bind fun s => ?_
  dsimp only
  split
  · exact .pure _
  · exact .throw _

theorem staticsWith_approximates (type field : String) :
    (host.staticsWith type field).Approximates (host'.staticsWith type field) := by
  unfold staticsWith
  refine (resolveType_approximates h _).bind fun owner => ?_
  split
  · refine .get_bind fun s => ?_
    split
    · exact .pure _
    · exact .throw _
  · exact .throw _

theorem getStatic_approximates (type field : String) :
    (host.getStatic type field).Approximates (host'.getStatic type field) := by
  unfold getStatic
  refine (staticsWith_approximates h type field).bind fun fields => ?_
  split
  · exact .pure _
  · exact .throw _

theorem setStatic_approximates (type field : String) (v : Value) :
    (host.setStatic type field v).Approximates (host'.setStatic type field v) := by
  unfold setStatic
  refine (staticsWith_approximates h type field).bind fun fields => ?_
  intro s a t hs ht
  cases ht
  exact ⟨rfl, hs⟩

end Host

/-! ## The machine -/

namespace Machine

theorem startConstruction_approximates (type : String) :
    (startConstruction host type).Approximates (startConstruction host' type) := by
  unfold startConstruction
  refine (Host.resolveType_approximates h _).bind fun owner => ?_
  split
  · exact .throw _
  · refine (Run.Approximates.same (State.alloc_tidied (Dict.sorted_ofList _))).bind fun r => .get_bind fun s => ?_
    exact .same (.ofExcept _)

theorem call_approximates (f : Frame) (below : List Frame) (r : MethodRef) :
    (call host f below r).Approximates (call host' f below r) := by
  unfold call
  have hnative := h.natives r.owner.fullName r.name
  generalize host.native? r.owner.fullName r.name = m at hnative
  generalize host'.native? r.owner.fullName r.name = n at hnative
  cases hnative with
  | some hmn =>
    obtain ⟨hreturns, hcall⟩ := hmn
    simp only [hreturns]
    exact .ofExcept_bind fun p => (hcall p.1).bind fun _ => .pure _
  | none =>
    refine (Host.resolveMethod_approximates h r).bind fun callee => .ofExcept_bind fun p => ?_
    have henter (receiver : Option Ref) (g : Frame) : (do
        let top ← Run.ofExcept (Frame.enter (← get).domain.maxDepth (g.depth + 1) callee receiver p.1)
        return .next top (g :: below) : Run (State ω) Transition).Respects True State.Tidied :=
      Run.Respects.get.bind fun _ => (Run.Respects.ofExcept _).bind fun _ => .pure _
    cases callee.decl.isStatic with
    | true => exact .same (henter none p.2)
    | false => exact .heap_bind fun heap => .ofExcept_bind fun q => .same (henter (some q.1) q.2)

/-- Without clients. -/
theorem execute_approximates (run run' : Runner ω) (f : Frame) (below : List Frame) (i : Instruction Value) :
    (execute { host } run f below i).Approximates (execute { host := host' } run' f below i) := by
  have hpop {g : Frame} {k k' : Value × Frame → Run (State ω) Transition} (hk : ∀ p, (k p).Approximates (k' p)) :
      (Run.ofExcept g.pop >>= k).Approximates (Run.ofExcept g.pop >>= k') := .ofExcept_bind hk
  cases i with
  | nop | const | jump => exact .pure _
  | loadArg n | loadLocal n | loadThis | dup =>
    simp only [execute]
    split
    · exact .pure _
    · exact .throw _
  | storeArg n | storeLocal n =>
    refine hpop fun p => ?_
    dsimp only
    split
    · exact .pure _
    · exact .throw _
  | loadField field =>
    refine .heap_bind fun heap => .ofExcept_bind fun p => ?_
    dsimp only
    split
    · exact .pure _
    · exact .throw _
  | storeField field =>
    refine hpop fun p => .heap_bind fun heap => .ofExcept_bind fun q => ?_
    exact (Run.Approximates.same (State.setField_tidied _ _ _)).bind fun _ => .pure _
  | loadStatic field =>
    exact (Host.resolveType_approximates h _).bind fun owner => (Host.getStatic_approximates h _ _).bind fun _ => .pure _
  | storeStatic field =>
    refine hpop fun p => (Host.resolveType_approximates h _).bind fun owner => ?_
    exact (Host.setStatic_approximates h _ _ _).bind fun _ => .pure _
  | call r => exact call_approximates h f below r
  | construct r =>
    exact (Host.resolveType_approximates h r).bind fun owner => (startConstruction_approximates h _).bind fun _ => .pure _
  | binary op => exact hpop fun p => hpop fun q => .heap_bind fun heap => .ofExcept_bind fun v => .pure _
  | compare op =>
    exact hpop fun p => hpop fun q => .heap_bind fun heap =>
      (Run.Approximates.same (compare_respects heap op q.1 p.1)).bind fun _ => .pure _
  | not => exact hpop fun p => .heap_bind fun heap => .ofExcept_bind fun b => .pure _
  | jumpIfTrue n | jumpIfFalse n =>
    refine hpop fun p => .heap_bind fun heap => .ofExcept_bind fun b => ?_
    split <;> exact .pure _
  | pop => exact hpop fun p => .pure _
  | ret =>
    simp only [execute]
    split
    · exact .pure _
    · exact hpop fun p => .pure _
  | throw => exact hpop fun p => .heap_bind fun heap => .throw _
  | dispatch site => exact .pure _

theorem step_approximates (run run' : Runner ω) (f : Frame) (below : List Frame) :
    (step { host } run f below).Approximates (step { host := host' } run' f below) := by
  unfold step
  split
  · exact execute_approximates h run run' _ below _
  · exact .throw _

theorem resume_approximates (budget : Nat) (t : Transition) :
    (resume { host } budget t).Approximates (resume { host := host' } budget t) := by
  induction budget generalizing t with
  | zero =>
    cases t with
    | next f below => exact fun _ _ _ _ hr => nomatch hr
    | done v => exact .pure v
  | succ budget ih =>
    cases t with
    | done v => exact .pure v
    | next f below =>
      have hstep := step_approximates h (runner { host } budget) (runner { host := host' } budget) f below
      intro s r t hs hr
      rw [resume_succ] at hr ⊢
      exact hstep.bind ih s r t hs hr

theorem runner_approximates (budget : Nat) (f : Frame) :
    (runner { host } budget f).Approximates (runner { host := host' } budget f) :=
  resume_approximates h budget (.next f [])

end Machine

/-! ## Calls -/

variable {run run' : Runner ω} (hrun : ∀ f, (run f).Approximates (run' f))

namespace Host

include hrun

omit h in
theorem invokeHandle_approximates (m : MethodHandle) (receiver : Option Ref) (args : List Value) :
    (invokeHandle run m receiver args).Approximates (invokeHandle run' m receiver args) := by
  unfold invokeHandle
  exact .get_bind fun s => .ofExcept_bind fun f => hrun f

theorem invoke_approximates (m : MethodRef) (receiver : Option Ref) (args : List Value) :
    (host.invoke run m receiver args).Approximates (host'.invoke run' m receiver args) := by
  unfold invoke
  have hnative := h.natives m.owner.fullName m.name
  generalize host.native? m.owner.fullName m.name = a at hnative
  generalize host'.native? m.owner.fullName m.name = b at hnative
  cases hnative with
  | some hab => exact hab.2 args
  | none =>
    exact (resolveMethod_approximates h m).bind fun found => invokeHandle_approximates hrun found receiver args

theorem construct_approximates (type : String) : (host.construct run type).Approximates (host'.construct run' type) := by
  unfold construct
  refine (Machine.startConstruction_approximates h type).bind fun f => (hrun f).bind fun v => ?_
  split
  · exact .pure _
  · exact fun _ _ _ _ hr => nomatch hr

end Host

/-! ## Carried state -/

namespace Variable
variable (v : Variable Value) (target : Option Ref)

theorem accessor_approximates (which : PropertyDecl → Option String) :
    (v.accessor host which).Approximates (v.accessor host' which) := by
  unfold accessor
  refine (Host.resolveType_approximates h _).bind fun owner => ?_
  split
  · exact .throw _
  split
  · exact .throw _
  split
  · exact .pure _
  · exact .throw _

theorem checkField_approximates : (v.checkField host).Approximates (v.checkField host') := by
  unfold checkField
  refine (Host.resolveType_approximates h _).bind fun owner => ?_
  split
  · exact .pure _
  · exact .throw _

omit h in
theorem instance?_bind {α : Type} {f g : Option Ref → Run (State ω) α} (hf : ∀ r, (f r).Approximates (g r)) :
    (v.instance? target >>= f).Approximates (v.instance? target >>= g) :=
  (Run.Approximates.same (instance?_respects v target)).bind hf

omit h in
theorem checkValue_bind {α : Type} {f g : Unit → Run (State ω) α} (hf : ∀ u, (f u).Approximates (g u)) :
    (v.checkValue >>= f).Approximates (v.checkValue >>= g) :=
  (Run.Approximates.same (checkValue_respects v)).bind hf

theorem readField_approximates : (v.readField host target).Approximates (v.readField host' target) := by
  unfold readField
  refine v.instance?_bind target fun r => ?_
  split
  · exact Host.getStatic_approximates h _ _
  · refine .heap_bind fun heap => ?_
    split
    · exact .pure _
    · exact .get_bind fun s => .throw _

include hrun

theorem readProperty_approximates :
    (v.readProperty host run target).Approximates (v.readProperty host' run' target) := by
  unfold readProperty
  refine (v.accessor_approximates h _).bind fun getter => v.instance?_bind target fun receiver => ?_
  exact Host.invoke_approximates h hrun _ receiver []

theorem copyFrom_approximates : (v.copyFrom host run target).Approximates (v.copyFrom host' run' target) := by
  unfold copyFrom
  refine .ofExcept_bind fun _ => ?_
  split
  · exact .throw _
  · exact (v.checkField_approximates h).bind fun _ => (v.readField_approximates h target).bind fun _ => .pure _
  · exact (v.readProperty_approximates h hrun target).bind fun _ => .pure _

theorem copyTo_approximates : (v.copyTo host run target).Approximates (v.copyTo host' run' target) := by
  unfold copyTo
  refine .ofExcept_bind fun _ => ?_
  split
  · exact .throw _
  · refine (v.checkField_approximates h).bind fun _ => v.checkValue_bind fun _ => v.instance?_bind target fun r => ?_
    split
    · exact .same (State.setField_tidied _ _ _)
    · exact Host.setStatic_approximates h _ _ _
  · refine v.checkValue_bind fun _ => (v.accessor_approximates h _).bind fun setter => v.instance?_bind target fun r => ?_
    exact (Host.invoke_approximates h hrun _ r _).bind fun _ => .pure _

end Variable

namespace Transfer

omit h in
theorem unlessUnavailable_approximates {α : Type} {x y : Run (State ω) α} (hxy : x.Approximates y) :
    (unlessUnavailable x).Approximates (unlessUnavailable y) := by
  unfold unlessUnavailable
  refine hxy.attempt.bind fun r => ?_
  split
  · exact .pure _
  · exact .pure _
  · exact .throw _

variable (target : Option Ref) (vs : List (Variable Value))
include hrun

theorem apply_approximates : (apply host run target vs).Approximates (apply host' run' target vs) := by
  induction vs with
  | nil => exact .pure _
  | cons v vs ih =>
    unfold apply
    exact (unlessUnavailable_approximates (v.copyTo_approximates h hrun target)).bind fun _ => ih

theorem refresh_approximates : (refresh host run target vs).Approximates (refresh host' run' target vs) := by
  induction vs with
  | nil => exact .pure _
  | cons v vs ih =>
    unfold refresh
    refine (unlessUnavailable_approximates (v.copyFrom_approximates h hrun target)).attempt.bind fun r => ?_
    split
    · exact .pure _
    · exact ih.bind fun _ => .pure _

end Transfer
end

/-! ## Requests -/

namespace Server
variable {r : Request Datum}

section
variable {host host' : Host Storage} (h : host.Approximates host') {run run' : Runner Storage}
  (hrun : ∀ f, (run f).Approximates (run' f))
include h

theorem ask_approximates (hparams : ∀ v ∈ r.params, v.value.Ordered) (hnonLocals : ∀ v ∈ r.nonLocals, v.value.Ordered) :
    (ask r host).Approximates (ask r host') := by
  unfold ask
  refine (Run.Approximates.same (Run.Respects.mapM _ fun x hx => ?_)).bind fun args =>
    (Run.Approximates.same (Run.Respects.mapM _ fun v hv => ?_)).bind fun nonLocals => ?_
  · obtain ⟨v, hv, rfl⟩ := List.mem_map.mp hx
    exact State.instantiate_tidied (hparams v hv)
  · exact (State.instantiate_tidied (hnonLocals v hv)).bind fun _ => .pure _
  · exact (Host.resolveOverload_approximates h _ _ _).bind fun asked => .pure _

theorem entryPoint_approximates (asked : MethodHandle) (args : List Value) :
    (entryPoint r host asked args).Approximates (entryPoint r host' asked args) := by
  unfold entryPoint
  dsimp only
  split
  · exact .pure _
  split
  · exact .pure _
  · refine (Host.resolveType_approximates h _).bind fun owner => ?_
    split
    · exact .throw _
    · exact .pure _

include hrun

theorem runSelected_approximates (entry : MethodHandle) (args : List Value) (nonLocals : List (Variable Value)) :
    (runSelected r host run entry args nonLocals).Approximates (runSelected r host' run' entry args nonLocals) := by
  unfold runSelected
  dsimp only
  split
  swap
  -- the receiver is made
  rw [map_eq_pure_bind, map_eq_pure_bind]
  refine ((Host.construct_approximates h hrun _).bind fun _ => .pure _).bind fun receiver => ?_
  all_goals
    split
    · refine (Transfer.apply_approximates h hrun _ _).bind fun _ => ?_
      refine (Host.invokeHandle_approximates hrun _ _ _).bind fun result => ?_
      exact (Transfer.refresh_approximates h hrun _ _).bind fun back => .ofExcept_bind fun _ => .pure _
    · exact (Host.invokeHandle_approximates hrun _ _ _).bind fun _ => .pure _

theorem invoke_approximates (hparams : ∀ v ∈ r.params, v.value.Ordered) (hnonLocals : ∀ v ∈ r.nonLocals, v.value.Ordered) :
    (invoke r host run).Approximates (invoke r host' run') := by
  rw [invoke_eq, invoke_eq]
  refine (ask_approximates h hparams hnonLocals).bind fun asked => (entryPoint_approximates h _ _).bind fun entry => ?_
  exact runSelected_approximates h hrun _ _ _

end

/-! ### Finding the module -/

theorem onStorage_tidied {α : Type} (x : Run Storage α) : (onStorage x).Respects True State.Tidied :=
  State.onOutside_tidied x

theorem find_tidied : (find r).Respects True State.Tidied := by
  have hload : (loadProbed r).Respects True State.Tidied := by
    unfold loadProbed probe
    refine (Run.Respects.get.bind fun s => onStorage_tidied _).bind fun found => ?_
    split
    · exact .pure _
    · refine (onStorage_tidied _).bind fun bytes => ?_
      refine (Host.loadFile_respects (fun s bytes path m d hd hs => Domain.loadFile_ordered hs hd) _ _).bind fun m => ?_
      exact (onStorage_tidied _).bind fun _ => .pure _
  have hresolve : (resolve r).Respects True State.Tidied := by
    unfold resolve
    refine Run.Respects.get.bind fun s => ?_
    split
    · exact hload
    split
    · exact .throw _
    split
    · exact hload
    · exact (onStorage_tidied _).bind fun _ => .pure _
  unfold find
  refine (Run.Respects.ofExcept _).bind fun _ => ?_
  cases r.upload with
  | none => exact hresolve
  | some bytes =>
    have hstore : (storeUpload r bytes).Respects True State.Tidied := by
      unfold storeUpload
      refine Run.Respects.get.bind fun s => ?_
      dsimp only
      split
      · exact onStorage_tidied _
      · exact .throw _
    exact hstore.bind fun _ => hresolve

end Server

/-! ## The native methods of a server -/

namespace Native

/-- The native methods of a thread that never gives its name. -/
def mute : List ((String × String) × Native ω) :=
  (standard none).dropLast ++ [(("System.Threading.Thread", "get_Name"), { call := fun _ => Run.outOfBudget })]

theorem standard_approximates (thread : Option String) {n : Native ω} {key : String × String}
    (h : (standard thread).lookup key = some n) (args : List Value) : (n.call args).Approximates (n.call args) := by
  refine .same fun s r t ht _ => ?_
  let host : Host ω := ⟨thread, standard thread, none⟩
  have hunchanged := host.unchanged_of_standard rfl key.1 key.2 n h args s r t ht (.inl trivial)
  cases hunchanged
  exact id

theorem mute_approximates (thread : Option String) (key : String × String) :
    Option.Rel (fun m n : Native ω => n.returnsValue = m.returnsValue ∧ ∀ args, (m.call args).Approximates (n.call args))
      (mute.lookup key) ((standard thread).lookup key) := by
  have hstandard (thread : Option String) : (standard thread : List ((String × String) × Native ω)) =
      (standard none).dropLast ++ [(("System.Threading.Thread", "get_Name"), { call := threadName thread })] := rfl
  rw [mute, hstandard thread, List.lookup_append, List.lookup_append]
  cases hfound : (standard none : List ((String × String) × Native ω)).dropLast.lookup key with
  | some n =>
    have hkey : (standard none : List ((String × String) × Native ω)).lookup key = some n := by
      rw [hstandard, List.lookup_append, hfound]
      rfl
    exact .some ⟨rfl, standard_approximates none hkey⟩
  | none =>
    rw [Option.none_or, Option.none_or, List.lookup_cons, List.lookup_cons]
    split
    · refine .some ⟨rfl, fun args s r t _ h => ?_⟩
      cases h
    · exact .none

end Native

namespace Server
variable (r : Request Datum)

/-- The host of a request, on a thread that never gives its name. -/
def muteHost (m : LoadedModule) : Host Storage := { hostFor r none m with natives := Native.mute }

/-- Serves a request on these hosts. -/
def serveOn (host : LoadedModule → Host Storage) (budget : Nat) : Serving (Answer Value) := do
  match ← find r with
  | none => return .moduleUnknown
  | some m => invoke r (host m) (Machine.runner { host := host m } budget)

/-- The request is served without a question for the name of the thread. -/
def Anonymous (budget : Nat) (s : Server) : Prop := serveOn r (muteHost r) budget s ≠ none

variable {r}

theorem hostFor_approximates (thread : Option String) (m : LoadedModule) :
    (hostFor r thread m).Approximates (hostFor r thread m) where
  resolver := rfl
  natives type method := by
    cases hfound : (hostFor r thread m).native? type method with
    | none => exact .none
    | some n => exact .some ⟨rfl, Native.standard_approximates thread hfound⟩

theorem muteHost_approximates (thread : Option String) (m : LoadedModule) :
    (muteHost r m).Approximates (hostFor r thread m) where
  resolver := rfl
  natives type method := Native.mute_approximates thread (type, method)

theorem serveOn_approximates (hparams : ∀ v ∈ r.params, v.value.Ordered) (hnonLocals : ∀ v ∈ r.nonLocals, v.value.Ordered)
    {host host' : LoadedModule → Host Storage} (h : ∀ m, (host m).Approximates (host' m)) (budget : Nat) :
    (serveOn r host budget).Approximates (serveOn r host' budget) := by
  unfold serveOn
  refine (Run.Approximates.same find_tidied).bind fun found => ?_
  cases found with
  | none => exact .pure _
  | some m => exact invoke_approximates (h m) (Machine.runner_approximates (h m) budget) hparams hnonLocals

theorem serve_eq_serveOn (budget : Nat) (thread : Option String) : serve r budget thread =
    serveOn r (hostFor r (if r.onMainThread then some Native.mainThread else thread)) budget := serve_eq_find budget thread

/-- A server whose heap is in order stays so. -/
theorem execute_ordered (hparams : ∀ v ∈ r.params, v.value.Ordered) (hnonLocals : ∀ v ∈ r.nonLocals, v.value.Ordered)
    {budget : Nat} {thread : Option String} {s t : Server} {outcome : Except Error (Answer Value)}
    (hs : s.domain.heap.Ordered) (h : execute budget thread r s = some (outcome, t)) : t.domain.heap.Ordered := by
  have hexecute : (execute budget thread r).Approximates (execute budget thread r) := by
    unfold execute
    rw [serve_eq_serveOn]
    refine (serveOn_approximates hparams hnonLocals (hostFor_approximates _) budget).attempt.bind fun outcome => ?_
    split <;> exact .pure _
  exact (hexecute s outcome t hs h).2

/-- What is served without a question for the name of the thread is answered alike on all threads. -/
theorem execute_anonymous (hparams : ∀ v ∈ r.params, v.value.Ordered) (hnonLocals : ∀ v ∈ r.nonLocals, v.value.Ordered)
    (hmain : r.onMainThread = false) {budget : Nat} {s : Server} (hs : s.domain.heap.Ordered) (h : Anonymous r budget s)
    (thread thread' : Option String) : execute budget thread r s = execute budget thread' r s := by
  obtain ⟨⟨outcome, t⟩, hmute⟩ := Option.ne_none_iff_exists'.mp h
  have hserve (thread : Option String) : serve r budget thread s = some (outcome, t) := by
    rw [serve_eq_serveOn, if_neg (by rw [hmain]; decide)]
    exact (serveOn_approximates hparams hnonLocals (muteHost_approximates thread) budget s _ _ hs hmute).1
  unfold execute
  rw [Run.bind_apply, Run.bind_apply, Run.attempt, Run.attempt, hserve thread, hserve thread']

end Server
end MobileCode
