import MobileCode.Proofs.Lookups
import MobileCode.Proofs.Presence

/-! # What is done with a domain leaves no reference dangling

Calls from outside, state that is carried, clients and servers are made of what a host does and of runs. So a domain that
was empty once, whatever was done with it since, has no dangling reference, if all references that were handed to it had
come from it.
-/
namespace MobileCode
variable {ω : Type}

section
variable {host : Host ω} {run : Runner ω} {n : Nat}

/-! ## Calls from outside -/

namespace Host

theorem construct_anchors (hrun : Runner.Anchors run) (type : String) :
    (host.construct run type).Anchors n fun m r => r.index < m := by
  unfold construct
  refine (Machine.startConstruction_anchors type).bind fun m f _ hf => (hrun m f hf).bind fun k v _ hv => ?_
  split
  · exact .pure fun l hl => Nat.lt_of_lt_of_le (Value.anchored_object.mp hv) hl
  · exact .outOfBudget

variable {receiver : Option Ref} (hreceiver : ∀ r ∈ receiver, r.index < n) {args : List Value}
  (hargs : ∀ v ∈ args, v.Anchored n)
include hreceiver hargs

theorem invokeHandle_anchors (hrun : Runner.Anchors run) {m : MethodHandle} (hm : m.Anchored n) :
    (invokeHandle run m receiver args).Anchors n Value.Anchored := by
  unfold invokeHandle
  refine .get_bind fun s _ hs => .ofExcept_bind fun f hf => hrun _ f ?_
  exact Frame.anchored_of_enter (hm.mono hs) (Ref.all_below_mono hreceiver hs)
    (Value.all_anchored_mono hargs hs) (fun _ hr => by cases hr) hf

theorem invoke_anchors (hhost : host.Anchors) (hrun : Runner.Anchors run) (m : MethodRef) :
    (host.invoke run m receiver args).Anchors n Value.Anchored := by
  unfold invoke
  split
  · rename_i native hnative
    exact hhost _ _ native hnative n args hargs
  · refine (resolveMethod_anchors m).bind fun k found hk hfound => ?_
    exact invokeHandle_anchors (Ref.all_below_mono hreceiver hk) (Value.all_anchored_mono hargs hk) hrun
      hfound

theorem invokeByValues_anchors (hrun : Runner.Anchors run) (type method : String) :
    (host.invokeByValues run type method receiver args).Anchors n Value.Anchored := by
  unfold invokeByValues
  refine (resolveOverload_anchors type method args).bind fun k found hk hfound => ?_
  exact invokeHandle_anchors (Ref.all_below_mono hreceiver hk) (Value.all_anchored_mono hargs hk) hrun
    hfound

end Host

/-! ## Carried state -/

/-- The value of the variable is anchored. -/
def Variable.Anchored (n : Nat) (v : Variable Value) : Prop := v.value.Anchored n

namespace Variable
variable {target : Option Ref}

theorem Anchored.mono {m : Nat} {v : Variable Value} (h : v.Anchored n) (hle : n ≤ m) : v.Anchored m :=
  Value.Anchored.mono h hle

theorem checkField_anchors (v : Variable Value) : (v.checkField host).Anchors n Run.Unbound := by
  unfold checkField
  refine (Host.resolveType_anchors _).bind fun _ owner _ _ => ?_
  split
  · exact .pure fun _ _ => trivial
  · exact .throw _

theorem checkValue_anchors (v : Variable Value) : (v.checkValue : Run (State ω) Unit).Anchors n Run.Unbound := by
  unfold checkValue
  refine .getHeap_bind fun heap _ _ => ?_
  split
  · exact .pure fun _ _ => trivial
  · exact .throw _

theorem accessor_anchors (which : PropertyDecl → Option String) (v : Variable Value) :
    (v.accessor host which).Anchors n Run.Unbound := by
  unfold accessor
  refine (Host.resolveType_anchors _).bind fun _ owner _ _ => ?_
  split
  · exact .throw _
  split
  · exact .throw _
  split
  · exact .pure fun _ _ => trivial
  · exact .throw _

variable (htarget : ∀ r ∈ target, r.index < n)
include htarget

theorem instance?_anchors (v : Variable Value) :
    (v.instance? target : Run (State ω) (Option Ref)).Anchors n fun m found => ∀ r ∈ found, r.index < m := by
  unfold instance?
  split
  · exact .pure nofun
  split
  · exact .throw _
  · rename_i r
    refine .getHeap_bind fun heap _ hle => ?_
    dsimp only
    split
    · refine .pure fun m hm => ?_
      rintro _ ⟨⟩
      exact Nat.lt_of_lt_of_le (htarget r rfl) (Nat.le_trans hle hm)
    · exact .throw _

theorem readField_anchors (v : Variable Value) : (v.readField host target).Anchors n Value.Anchored := by
  unfold readField
  refine (instance?_anchors htarget v).bind fun m found _ _ => ?_
  split
  · exact Host.getStatic_anchors _ _
  refine .getHeap_bind fun heap hheap _ => ?_
  split
  · rename_i x hx
    exact .pure fun k hk => Value.Anchored.mono (hheap.field? hx) hk
  · exact .get_bind fun _ _ _ => .throw _

variable (hhost : host.Anchors) (hrun : Runner.Anchors run)
include hhost hrun

theorem readProperty_anchors (v : Variable Value) : (v.readProperty host run target).Anchors n Value.Anchored := by
  unfold readProperty
  refine (accessor_anchors _ v).bind fun m getter hm _ => ?_
  refine (instance?_anchors (Ref.all_below_mono htarget hm) v).bind fun k receiver _ hreceiver => ?_
  exact Host.invoke_anchors hreceiver (fun _ hv => absurd hv List.not_mem_nil) hhost hrun _

theorem copyFrom_anchors (v : Variable Value) : (v.copyFrom host run target).Anchors n Variable.Anchored := by
  unfold copyFrom
  refine .ofExcept_bind fun _ _ => ?_
  split
  · exact .throw _
  · refine (checkField_anchors v).bind fun m _ hm _ => ?_
    refine (readField_anchors (Ref.all_below_mono htarget hm) v).bind fun k x _ hx => ?_
    exact .pure fun l hl => Value.Anchored.mono hx hl
  · refine (readProperty_anchors htarget hhost hrun v).bind fun k x _ hx => ?_
    exact .pure fun l hl => Value.Anchored.mono hx hl

theorem copyTo_anchors {v : Variable Value} (hv : v.Anchored n) : (v.copyTo host run target).Anchors n Run.Unbound := by
  unfold copyTo
  refine .ofExcept_bind fun _ _ => ?_
  split
  · exact .throw _
  · refine (checkField_anchors v).bind fun m _ hm _ => (checkValue_anchors v).bind fun k _ hk _ => ?_
    have hle := Nat.le_trans hm hk
    refine (instance?_anchors (Ref.all_below_mono htarget hle) v).bind fun l receiver hl _ => ?_
    split
    · exact State.setField_anchors _ (hv.mono (Nat.le_trans hle hl))
    · exact Host.setStatic_anchors _ _ (hv.mono (Nat.le_trans hle hl))
  · refine (checkValue_anchors v).bind fun m _ hm _ => (accessor_anchors _ v).bind fun k setter hk _ => ?_
    have hle := Nat.le_trans hm hk
    refine (instance?_anchors (Ref.all_below_mono htarget hle) v).bind fun l receiver hl hreceiver => ?_
    have hargs : ∀ x ∈ [v.value], x.Anchored l := List.forall_mem_singleton.mpr (hv.mono (Nat.le_trans hle hl))
    exact (Host.invoke_anchors hreceiver hargs hhost hrun _).bind fun _ _ _ _ => .pure fun _ _ => trivial

end Variable

namespace Transfer

theorem unlessUnavailable_anchors {α : Type} {P : Nat → α → Prop} (hP : ∀ m k a, m ≤ k → P m a → P k a)
    {x : Run (State ω) α} (hx : x.Anchors n P) : (unlessUnavailable x).Anchors n fun m found => ∀ a ∈ found, P m a := by
  unfold unlessUnavailable
  refine hx.attempt.bind fun m r _ hr => ?_
  split
  · rename_i a
    refine .pure fun k hk => ?_
    rintro _ ⟨⟩
    exact hP m k a hk (hr a rfl)
  · exact .pure nofun
  · exact .throw _

variable {target : Option Ref} (htarget : ∀ r ∈ target, r.index < n) (hhost : host.Anchors) (hrun : Runner.Anchors run)
include htarget hhost hrun

theorem captureField_anchors (owner : TypeHandle) (id : MemberId) :
    (captureField host run owner target id).Anchors n fun m found => ∀ v ∈ found, Variable.Anchored m v := by
  unfold captureField
  split
  · exact .throw _
  dsimp only
  split
  · exact .pure nofun
  · refine (Variable.copyFrom_anchors htarget hhost hrun _).bind fun m v _ hv => .pure fun k hk => ?_
    rintro _ ⟨⟩
    exact hv.mono hk

theorem captureProperty_anchors (owner : TypeHandle) (id : MemberId) :
    (captureProperty host run owner target id).Anchors n fun m found => ∀ v ∈ found, Variable.Anchored m v := by
  unfold captureProperty
  split
  · exact .throw _
  dsimp only
  split
  · exact .pure nofun
  · exact unlessUnavailable_anchors (fun _ _ _ hle hv => hv.mono hle) (Variable.copyFrom_anchors htarget hhost hrun _)

theorem capture_anchors (type : String) (closure : Closure) :
    (capture host run type closure target).Anchors n fun m vs => ∀ v ∈ vs, Variable.Anchored m v := by
  have hlast (m k : Nat) (found : Option (Variable Value)) (hle : m ≤ k) (h : ∀ v ∈ found, Variable.Anchored m v) :
      ∀ v ∈ found, Variable.Anchored k v := fun v hv => (h v hv).mono hle
  unfold capture
  refine (Host.resolveType_anchors _).bind fun m owner hm _ => ?_
  have hfields : ((closure.fields.filter (·.type = type)).mapM (captureField host run owner target)).Anchors m
      fun k fs => ∀ found ∈ fs, ∀ v ∈ found, Variable.Anchored k v :=
    .mapM hlast fun id _ k hk =>
      captureField_anchors (Ref.all_below_mono htarget (Nat.le_trans hm hk)) hhost hrun owner id
  refine hfields.bind fun k fields hk hfields => ?_
  have hproperties : ((closure.properties.filter (·.type = type)).mapM (captureProperty host run owner target)).Anchors k
      fun l ps => ∀ found ∈ ps, ∀ v ∈ found, Variable.Anchored l v :=
    .mapM hlast fun id _ l hl => captureProperty_anchors
      (Ref.all_below_mono htarget (Nat.le_trans hm (Nat.le_trans hk hl))) hhost hrun owner id
  refine hproperties.bind fun l properties hl hproperties => .pure fun j hj v hv => ?_
  obtain ⟨found, hfound, rfl⟩ := List.mem_filterMap.mp hv
  rcases List.mem_append.mp hfound with hfound | hfound
  · exact (hfields _ hfound v rfl).mono (Nat.le_trans hl hj)
  · exact (hproperties _ hfound v rfl).mono hj

theorem apply_anchors {vs : List (Variable Value)} (hvs : ∀ v ∈ vs, v.Anchored n) :
    (apply host run target vs).Anchors n Run.Unbound := by
  induction vs generalizing n with
  | nil => exact .pure fun _ _ => trivial
  | cons v vs ih =>
    obtain ⟨hv, hvs⟩ := List.forall_mem_cons.mp hvs
    unfold apply
    have hcopy := unlessUnavailable_anchors (fun _ _ _ _ h => h) (Variable.copyTo_anchors htarget hhost hrun hv)
    refine hcopy.bind fun m _ hm _ => ?_
    exact ih (Ref.all_below_mono htarget hm) fun w hw => (hvs w hw).mono hm

theorem refresh_anchors {vs : List (Variable Value)} (hvs : ∀ v ∈ vs, v.Anchored n) :
    (refresh host run target vs).Anchors n fun m back => ∀ v ∈ back.1, v.Anchored m := by
  induction vs generalizing n with
  | nil => exact .pure nofun
  | cons v vs ih =>
    obtain ⟨hv, hvs'⟩ := List.forall_mem_cons.mp hvs
    unfold refresh
    have hcopy := unlessUnavailable_anchors (fun _ _ _ hle hv => hv.mono hle)
      (Variable.copyFrom_anchors htarget hhost hrun v)
    refine hcopy.attempt.bind fun m r hm hr => ?_
    split
    · exact .pure fun k hk w hw => (hvs w hw).mono (Nat.le_trans hm hk)
    · rename_i w
      refine (ih (Ref.all_below_mono htarget hm) fun w hw => (hvs' w hw).mono hm).bind
        fun k back hk hback => .pure fun l hl => ?_
      refine List.forall_mem_cons.mpr ⟨?_, fun u hu => (hback u hu).mono hl⟩
      cases w with
      | none => exact hv.mono (Nat.le_trans hm (Nat.le_trans hk hl))
      | some u => exact (hr (some u) rfl u rfl).mono (Nat.le_trans hk hl)

end Transfer
end

/-! ## Values that travel -/

theorem Variable.traverse_anchors {n : Nat} (v : Variable Datum) :
    (v.traverse State.instantiate : Run (State ω) (Variable Value)).Anchors n Variable.Anchored :=
  (State.instantiate_anchors v.value).bind fun _ _ _ hx => .pure fun _ hle => Value.Anchored.mono hx hle

theorem Variable.mapM_anchors {n : Nat} (vs : List (Variable Datum)) :
    (vs.mapM (·.traverse State.instantiate) : Run (State ω) (List (Variable Value))).Anchors n
      fun m ws => ∀ w ∈ ws, w.Anchored m :=
  .mapM (fun _ _ _ hle hw => hw.mono hle) fun v _ _ _ => v.traverse_anchors

/-- The values of a result and of the variables with it. -/
structure CallResult.Anchored (n : Nat) (found : CallResult Value) : Prop where
  result : ∀ v ∈ found.result?, v.Anchored n
  nonLocals : ∀ v ∈ found.nonLocals, v.Anchored n

theorem CallResult.Anchored.mono {n m : Nat} {found : CallResult Value} (h : found.Anchored n) (hle : n ≤ m) :
    found.Anchored m :=
  ⟨fun v hv => (h.result v hv).mono hle, fun v hv => (h.nonLocals v hv).mono hle⟩

theorem CallResult.traverse_anchors {n : Nat} (result : CallResult Datum) :
    (result.traverse State.instantiate : Run (State ω) (CallResult Value)).Anchors n CallResult.Anchored := by
  cases result with
  | disabled | moduleMissing => exact .pure fun _ _ => ⟨nofun, nofun⟩
  | executed x vs =>
    refine (State.instantiate_anchors x).bind fun m v _ hv => (Variable.mapM_anchors vs).bind fun k ws hk hws => ?_
    refine .pure fun l hl => ⟨?_, fun w hw => (hws w hw).mono hl⟩
    rintro _ ⟨⟩
    exact hv.mono (Nat.le_trans hk hl)

/-! ## Clients -/

namespace Client
variable {ν : Type} {c : Client ν} {n : Nat}

theorem anchors_of_outside {α : Type} {x : Calling ν α} (hx : x.Respects True fun s t => t.domain = s.domain) :
    x.Anchors n Run.Unbound := by
  intro s r t hs _ h
  have hsame : t.domain = s.domain := hx s r t h (.inl trivial)
  exact ⟨hsame ▸ hs, by rw [State.room, State.room, hsame], fun _ _ => trivial⟩

variable {host : Host (Reach ν)} (hhost : host.Anchors) {run : Runner (Reach ν)} (hrun : Runner.Anchors run)
  {call : ServiceCall} (hreceiver : ∀ r ∈ call.receiver, r.index < n) (hargs : ∀ v ∈ call.args, v.Anchored n)
include hhost hrun hreceiver

theorem captured_anchors (target : MethodHandle) :
    (captured host run call target).Anchors n fun m vs => ∀ v ∈ vs, Variable.Anchored m v := by
  unfold captured
  split
  · exact Transfer.capture_anchors hreceiver hhost hrun _ _
  · exact .pure nofun

include hargs

/-- All that a request takes along. -/
theorem request_anchors (target : MethodHandle) : (c.request host run call target).Anchors n
    fun m p => ∀ v ∈ p.2.params ++ p.2.nonLocals, v.Anchored m := by
  rw [request_eq_captured]
  refine (anchors_of_outside (moduleHash_respects (fun _ _ => rfl) _)).bind fun m hash hm _ => ?_
  refine (captured_anchors hhost hrun (Ref.all_below_mono hreceiver hm) target).bind
    fun k nonLocals hk hnonLocals => .ofExcept_bind fun endpoint _ => ?_
  refine (anchors_of_outside (freshId_respects fun _ _ => rfl)).bind fun l id hl _ => .pure fun j hj => ?_
  refine List.forall_mem_append.mpr ⟨fun v hv => ?_, fun v hv => (hnonLocals v hv).mono (Nat.le_trans hl hj)⟩
  obtain ⟨⟨p, x⟩, hx, rfl⟩ := List.mem_map.mp hv
  exact (hargs x (List.of_mem_zip hx).2).mono (Nat.le_trans hm (Nat.le_trans hk (Nat.le_trans hl hj)))

theorem call_anchors : (c.call host run call).Anchors n CallResult.Anchored := by
  unfold Client.call
  split
  · exact .pure fun _ _ => ⟨nofun, nofun⟩
  refine (Host.resolveMethod_anchors _).bind fun m target hm _ => ?_
  have hargs' := Value.all_anchored_mono hargs hm
  have hrequest := request_anchors (c := c) hhost hrun (Ref.all_below_mono hreceiver hm) hargs' target
  refine hrequest.bind fun k p hk _ => ?_
  refine (anchors_of_outside (recover_respects (fun _ _ => rfl) p.2 _ p.1)).bind fun l found hl _ => ?_
  refine found.traverse_anchors.bind fun j result hj hresult => ?_
  dsimp only
  split
  · have hle := Nat.le_trans hm (Nat.le_trans hk (Nat.le_trans hl hj))
    exact (Transfer.apply_anchors (Ref.all_below_mono hreceiver hle) hhost hrun hresult.nonLocals).bind fun i _ hi _ =>
      .pure fun o ho => hresult.mono (Nat.le_trans hi ho)
  · exact .pure fun o ho => hresult.mono ho

omit hhost hrun hreceiver hargs in
/-- Every client, whatever its settings, its recovery and its transport. -/
theorem dispatcher_anchors (c : Client ν) : c.dispatcher.Anchors := by
  intro host hhost run hrun n site receiver args hreceiver hargs
  unfold dispatcher
  dsimp only
  split
  · exact .pure fun _ _ => trivial
  refine (call_anchors hhost hrun hreceiver hargs).bind fun m result _ hresult => ?_
  split
  · rename_i v hv
    exact .pure fun k hk => (hresult.result v hv).mono hk
  · exact .throw _

end Client

/-! ## Servers -/

/-- All values of the answer are anchored. -/
def Answer.Anchored (n : Nat) (a : Answer Value) : Prop := ∀ v ∈ a.values, v.Anchored n

namespace Server
variable (r : Request Datum) {n : Nat}

theorem storeUpload_anchors (bytes : Bytes) : (storeUpload r bytes).Anchors n Run.Unbound := by
  unfold storeUpload
  refine .get_bind fun s _ _ => ?_
  dsimp only
  split
  · exact .onOutside _
  · exact .throw _

theorem record_anchors (l : LoadedModule) : (record r l).Anchors n Run.Unbound := by
  unfold record
  exact .onOutside _

theorem loadProbed_anchors : (loadProbed r).Anchors n Run.Unbound := by
  have hprobe : (probe r).Anchors n Run.Unbound := .get_bind fun s _ _ => .onOutside _
  unfold loadProbed
  refine hprobe.bind fun m found _ _ => ?_
  split
  · exact .pure fun _ _ => trivial
  · refine (Run.Anchors.onOutside _).bind fun _ bytes _ _ => (State.loadFile_anchors _ _).bind fun _ l _ _ => ?_
    exact (record_anchors r l).bind fun _ _ _ _ => .pure fun _ _ => trivial

theorem resolve_anchors : (resolve r).Anchors n Run.Unbound := by
  unfold resolve
  refine .get_bind fun s _ _ => ?_
  split
  · exact loadProbed_anchors r
  split
  · exact .throw _
  split
  · exact loadProbed_anchors r
  · exact (record_anchors r _).bind fun _ _ _ _ => .pure fun _ _ => trivial

section
variable {host : Host Storage}

theorem entryPoint_anchors {asked : MethodHandle} (hasked : asked.Anchored n) {args : List Value}
    (hargs : ∀ v ∈ args, v.Anchored n) :
    (entryPoint r host asked args).Anchors n fun m p => p.1.Anchored m ∧ ∀ v ∈ p.2, v.Anchored m := by
  have hasis : (Pure.pure (asked, args) : Serving (MethodHandle × List Value)).Anchors n
      fun m p => p.1.Anchored m ∧ ∀ v ∈ p.2, v.Anchored m :=
    .pure fun _ hm => ⟨hasked.mono hm, Value.all_anchored_mono hargs hm⟩
  unfold entryPoint
  dsimp only
  split
  · exact hasis
  split
  · exact hasis
  refine (Host.resolveType_anchors _).bind fun m owner hm howner => ?_
  split
  · exact .throw _
  · rename_i body hbody
    refine .pure fun k hk => ⟨(howner.method? hbody).mono hk, List.forall_mem_append.mpr ⟨fun v hv => ?_, ?_⟩⟩
    · exact (hargs v (List.mem_of_mem_take hv)).mono (Nat.le_trans hm hk)
    · exact List.forall_mem_singleton.mpr (.bool true)

theorem ask_anchors : (ask r host).Anchors n fun m p =>
    p.1.Anchored m ∧ (∀ v ∈ p.2.1, v.Anchored m) ∧ ∀ v ∈ p.2.2, Variable.Anchored m v := by
  have hargs : (r.arguments.mapM State.instantiate : Serving (List Value)).Anchors n fun m vs => ∀ v ∈ vs, v.Anchored m :=
    .mapM (fun _ _ _ hle hv => hv.mono hle) fun x _ _ _ => State.instantiate_anchors x
  unfold ask
  refine hargs.bind fun m args _ hargs => (Variable.mapM_anchors r.nonLocals).bind fun k nonLocals hk hnonLocals => ?_
  refine (Host.resolveOverload_anchors _ _ _).bind fun l asked hl hasked => .pure fun j hj => ?_
  exact ⟨hasked.mono hj, Value.all_anchored_mono hargs (Nat.le_trans hk (Nat.le_trans hl hj)),
    fun v hv => (hnonLocals v hv).mono (Nat.le_trans hl hj)⟩

variable (hhost : host.Anchors) {run : Runner Storage} (hrun : Runner.Anchors run)
include hhost hrun

theorem runSelected_anchors {entry : MethodHandle} (hentry : entry.Anchored n) {args : List Value}
    (hargs : ∀ v ∈ args, v.Anchored n) {nonLocals : List (Variable Value)} (hnonLocals : ∀ v ∈ nonLocals, v.Anchored n) :
    (runSelected r host run entry args nonLocals).Anchors n Answer.Anchored := by
  -- once the receiver has been made
  have hrest {m : Nat} (hm : n ≤ m) {receiver : Option Ref} (hreceiver : ∀ q ∈ receiver, q.index < m) : (do
      if r.mode = .normal then
        Transfer.apply host run receiver nonLocals
        let result ← Host.invokeHandle run entry receiver args
        let back ← Transfer.refresh host run receiver nonLocals
        Run.ofExcept back.2
        return .completed result back.1
      else return .completed (← Host.invokeHandle run entry receiver args) [] : Serving (Answer Value)).Anchors m
        Answer.Anchored := by
    have hinvoke {k : Nat} (hk : m ≤ k) : (Host.invokeHandle run entry receiver args).Anchors k Value.Anchored :=
      Host.invokeHandle_anchors (Ref.all_below_mono hreceiver hk) (Value.all_anchored_mono hargs (Nat.le_trans hm hk)) hrun
        (hentry.mono (Nat.le_trans hm hk))
    have hcarried {k : Nat} (hk : m ≤ k) : ∀ v ∈ nonLocals, v.Anchored k :=
      fun v hv => (hnonLocals v hv).mono (Nat.le_trans hm hk)
    split
    · refine (Transfer.apply_anchors hreceiver hhost hrun (hcarried le_rfl)).bind fun k _ hk _ => ?_
      refine (hinvoke hk).bind fun l result hl hresult => ?_
      have hle := Nat.le_trans hk hl
      have hrefresh := Transfer.refresh_anchors (Ref.all_below_mono hreceiver hle) hhost hrun (hcarried hle)
      refine hrefresh.bind fun j back hj hback => ?_
      refine .ofExcept_bind fun _ _ => .pure fun i hi => List.forall_mem_cons.mpr ⟨hresult.mono (Nat.le_trans hj hi), ?_⟩
      exact List.forall_mem_map.mpr fun v hv => (hback v hv).mono hi
    · refine (hinvoke le_rfl).bind fun k result _ hresult => .pure fun l hl => ?_
      exact List.forall_mem_singleton.mpr (hresult.mono hl)
  unfold runSelected
  dsimp only
  split
  · refine hrest le_rfl ?_
    rintro _ ⟨⟩
  · rw [map_eq_pure_bind, bind_assoc]
    refine (Host.construct_anchors hrun _).bind fun m q hm hq => hrest hm ?_
    rintro _ ⟨⟩
    exact hq

theorem invoke_anchors : (invoke r host run).Anchors n Answer.Anchored := by
  rw [invoke_eq]
  refine (ask_anchors r).bind fun m p _ hp => ?_
  obtain ⟨hasked, hargs, hnonLocals⟩ := hp
  refine (entryPoint_anchors r hasked hargs).bind fun k entry hk hentry => ?_
  exact runSelected_anchors r hhost hrun hentry.1 hentry.2 fun v hv => (hnonLocals v hv).mono hk

end

theorem find_anchors : (find r).Anchors n Run.Unbound := by
  unfold find
  refine .ofExcept_bind fun _ _ => ?_
  cases r.upload with
  | none => exact resolve_anchors r
  | some bytes => exact (storeUpload_anchors r bytes).bind fun _ _ _ _ => resolve_anchors r

theorem execute_anchors (budget : Nat) (thread : Option String) : (execute budget thread r).Anchors n Answer.Anchored := by
  have hserve : (serve r budget thread).Anchors n Answer.Anchored := by
    rw [serve_eq_find]
    refine (find_anchors r).bind fun m found _ _ => ?_
    cases found with
    | none => exact .pure fun _ _ v hv => absurd hv List.not_mem_nil
    | some l =>
      have henv : (Environment.mk (hostFor r (if r.onMainThread then some Native.mainThread else thread) l)
        fun _ => none).Anchors := .of_standard rfl fun _ => rfl
      exact invoke_anchors r henv.host (Machine.runner_anchors henv budget)
  unfold execute
  refine hserve.attempt.bind fun m a _ ha => ?_
  cases a with
  | error e => exact .pure fun _ _ v hv => absurd hv List.not_mem_nil
  | ok a => exact .pure fun k hk v hv => (ha a rfl v hv).mono hk

end Server

/-! ## Operations -/

theorem LoadCall.perform_anchors {n : Nat} (x : LoadCall ω) : x.perform.Anchors n Run.Unbound := by
  intro s r t hs _ h
  have hroom : s.room ≤ s.room := le_rfl
  rw [perform_apply] at h
  rcases hread : x.read s.outside with _ | ⟨e | ⟨m, bytes⟩, o⟩ <;> rw [hread] at h
  · cases h
  · cases h
    exact ⟨hs, hroom, fun _ _ => trivial⟩
  replace h := Option.some.inj h
  dsimp only at h
  rcases hregister : s.domain.register m bytes x.path? with e | ⟨l, d⟩ <;> rw [hregister] at h <;> cases h
  · exact ⟨hs, hroom, fun _ _ => trivial⟩
  · obtain ⟨hclosed, hsize⟩ := hs.register hregister
    exact ⟨hclosed, hsize, fun _ _ => trivial⟩

namespace Operation

/-- What is handed to the operation refers to the first `n` objects. -/
def Live (n : Nat) : Operation ω → Prop
  | load _ | construct _ | instantiate _ => True
  | invoke _ receiver args | invokeByValues _ _ receiver args =>
    (∀ r ∈ receiver, r.index < n) ∧ ∀ v ∈ args, v.Anchored n
  | setField r _ v => r.index < n ∧ v.Anchored n
  | setStatic _ _ v => v.Anchored n
  | capture _ _ receiver => ∀ r ∈ receiver, r.index < n
  | refresh receiver vs | apply receiver vs => (∀ r ∈ receiver, r.index < n) ∧ ∀ v ∈ vs, v.Anchored n

theorem perform_anchors {env : Environment ω} (henv : env.Anchors) {n : Nat} {op : Operation ω} (hop : op.Live n)
    (budget : Nat) : (op.perform env budget).Anchors n Run.Unbound := by
  have hrun := Machine.runner_anchors henv budget
  have hdone {α : Type} {P : Nat → α → Prop} {x : Run (State ω) α} (hx : x.Anchors n P) :
      (do let _ ← x : Run (State ω) Unit).Anchors n Run.Unbound := hx.bind fun _ _ _ _ => .pure fun _ _ => trivial
  cases op with
  | load x => exact hdone x.perform_anchors
  | construct type => exact hdone (Host.construct_anchors hrun type)
  | invoke m receiver args => exact hdone (Host.invoke_anchors hop.1 hop.2 henv.host hrun m)
  | invokeByValues type method receiver args => exact hdone (Host.invokeByValues_anchors hop.1 hop.2 hrun type method)
  | instantiate x => exact hdone (State.instantiate_anchors x)
  | setField r name v => exact State.setField_anchors name hop.2
  | setStatic type field v => exact Host.setStatic_anchors type field hop
  | capture type closure receiver => exact hdone (Transfer.capture_anchors hop henv.host hrun type closure)
  | refresh receiver vs => exact hdone (Transfer.refresh_anchors hop.1 henv.host hrun hop.2)
  | apply receiver vs => exact Transfer.apply_anchors hop.1 henv.host hrun hop.2

end Operation

/-! ## Domains that arise -/

/-- The domains that come of a new one by operations on it, by steps of programs in it, by methods that are looked up, by
calls of clients and by requests to the server that it belongs to, where all references that are handed over lead to its
objects. -/
inductive Domain.Arises : Domain → Prop
  | start (hostName : String) (digest : DigestAlgorithm) (maxDepth : Nat) : Arises { hostName, digest, maxDepth }
  | operate {ω : Type} {env : Environment ω} {budget : Nat} {op : Operation ω} {s t : State ω} {r : Except Error Unit} :
    Arises s.domain → env.Anchors → op.perform env budget s = some (r, t) → op.Live s.room → Arises t.domain
  | step {ω : Type} {env : Environment ω} {budget : Nat} {f : Frame} {below : List Frame} {s t : State ω}
    {r : Except Error Transition} : Arises s.domain → env.Anchors → (∀ g ∈ f :: below, g.Anchored s.room) →
    Machine.step env (Machine.runner env budget) f below s = some (r, t) → Arises t.domain
  | resolve {ω : Type} {host : Host ω} {m : MethodRef} {s t : State ω} {r : Except Error MethodHandle} :
    Arises s.domain → host.resolveMethod m s = some (r, t) → Arises t.domain
  | call {ν : Type} {c : Client ν} {env : Environment (Reach ν)} {budget : Nat} {call : ServiceCall}
    {s t : State (Reach ν)} {r : Except Error (CallResult Value)} : Arises s.domain → env.Anchors →
    (∀ q ∈ call.receiver, q.index < s.room) → (∀ v ∈ call.args, v.Anchored s.room) →
    c.call env.host (Machine.runner env budget) call s = some (r, t) → Arises t.domain
  | serve {budget : Nat} {thread : Option String} {x : Request Datum} {s t : Server} {r : Except Error (Answer Value)} :
    Arises s.domain → Server.execute budget thread x s = some (r, t) → Arises t.domain

/-- No reference in such a domain dangles. -/
theorem Domain.Arises.closed {d : Domain} (h : d.Arises) : d.Closed := by
  induction h with
  | start => exact Domain.closed_of_empty rfl rfl rfl rfl
  | operate _ henv hperform hop ih => exact (Operation.perform_anchors henv hop _ _ _ _ ih le_rfl hperform).1
  | step _ henv hall hstep ih =>
    obtain ⟨hf, hbelow⟩ := List.forall_mem_cons.mp hall
    exact (Machine.step_anchors henv (Machine.runner_anchors henv _) hf hbelow _ _ _ ih le_rfl hstep).1
  | resolve _ hresolve ih => exact (Host.resolveMethod_anchors _ _ _ _ ih le_rfl hresolve).1
  | call _ henv hreceiver hargs hcall ih =>
    exact (Client.call_anchors henv.host (Machine.runner_anchors henv _) hreceiver hargs _ _ _ ih le_rfl hcall).1
  | serve _ hserve ih => exact (Server.execute_anchors _ _ _ _ _ _ ih le_rfl hserve).1

/-- So does the domain of a run arise between any two of its steps, and the frames stay anchored. -/
theorem Domain.Arises.between_steps {env : Environment ω} (henv : env.Anchors) {budget : Nat} {f g : Frame}
    {below rest : List Frame} {s t : State ω} (hs : s.domain.Arises) (hall : ∀ k ∈ f :: below, k.Anchored s.room)
    (h : Machine.step env (Machine.runner env budget) f below s = some (.ok (.next g rest), t)) :
    t.domain.Arises ∧ ∀ k ∈ g :: rest, k.Anchored t.room := by
  obtain ⟨hf, hbelow⟩ := List.forall_mem_cons.mp hall
  have hstep := Machine.step_anchors henv (Machine.runner_anchors henv budget) hf hbelow
  exact ⟨hs.step henv hall h, (hstep s _ t hs.closed le_rfl h).2.2 _ rfl⟩

end MobileCode
