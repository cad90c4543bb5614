import MobileCode.Proofs.Indexes
import MobileCode.Proofs.Windows

/-! # What a request leaves alone

What is done in a domain comes down to what its host does: to change objects and static fields, to load files, to ask
the resolver and to call native methods. The rest is up to its clients, and a server has none. So on a server the
modules and types that were loaded stay, and so does the record of served versions.
-/
namespace MobileCode

/-! ## Calls -/

section Calls
variable {ω : Type} {K : State ω → State ω → Prop} [IsPreorder (State ω) K] {host : Host ω}

/-- What the host and its clients leave alone, a run does. -/
theorem Machine.runner_respects {env : Environment ω} (hK : env.host.Guards True K)
    (hclients : ∀ client d, env.dispatcher? client = some d → ∀ run : Runner ω, (∀ f, (run f).Respects True K) →
      ∀ site receiver args, (d.dispatch env.host run site receiver args).Respects True K) (budget : Nat) :
    ∀ f, (runner env budget f).Respects True K := by
  suffices hrun : ∀ f below, (Machine.run env budget f below).Respects True K from fun f => hrun f []
  induction budget with
  | zero => exact fun f below _ _ _ h => nomatch h
  | succ budget ih =>
    intro f below s r t h _
    have hstep : (step env (runner env budget) f below).Respects True K :=
      step_respects_clients hK (fun client d hd => hclients client d hd _ fun g => ih g []) f below
    rw [Machine.run] at h
    dsimp only at h
    split at h
    · rename_i g rest u hnext
      exact trans_of K (hstep s _ u hnext (.inl trivial)) (ih g rest u r t h (.inl trivial))
    · rename_i v u hdone
      cases h
      exact hstep s _ _ hdone (.inl trivial)
    · rename_i e u herror
      cases h
      exact hstep s _ _ herror (.inl trivial)
    · cases h

variable (hK : host.Guards True K) {run : Runner ω} (hrun : ∀ f, (run f).Respects True K)

namespace Host
include hK

theorem resolveOverload_respects (type method : String) (args : List Value) :
    (host.resolveOverload type method args).Respects True K := by
  unfold resolveOverload
  refine (hK.resolveType _).bind fun owner => Run.Respects.get.bind fun s => ?_
  dsimp only
  split
  · exact .pure _
  · exact .throw _

include hrun

omit hK in
theorem invokeHandle_respects (m : MethodHandle) (receiver : Option Ref) (args : List Value) :
    (invokeHandle run m receiver args).Respects True K := by
  unfold invokeHandle
  exact Run.Respects.get.bind fun s => (Run.Respects.ofExcept _).bind fun f => hrun f

theorem invoke_respects (m : MethodRef) (receiver : Option Ref) (args : List Value) :
    (host.invoke run m receiver args).Respects True K := by
  unfold invoke
  split
  · rename_i native hnative
    exact hK.natives _ _ native hnative args
  · exact (hK.resolveMethod m).bind fun found => invokeHandle_respects hrun found receiver args

theorem construct_respects (type : String) : (host.construct run type).Respects True K := by
  unfold construct
  refine (Machine.startConstruction_respects hK type).bind fun f => (hrun f).bind fun v => ?_
  split
  · exact .pure _
  · exact fun _ _ _ h => nomatch h

end Host

/-! ## Carried state -/

namespace Variable
variable (v : Variable Value) (target : Option Ref)
include hK hrun

theorem readProperty_respects : (v.readProperty host run target).Respects True K := by
  unfold readProperty
  refine (accessor_respects hK _ v).bind fun getter => (instance?_respects v target).bind fun receiver => ?_
  exact Host.invoke_respects hK hrun _ receiver []

theorem copyFrom_respects : (v.copyFrom host run target).Respects True K := by
  unfold copyFrom
  refine (Run.Respects.ofExcept _).bind fun _ => ?_
  split
  · exact .throw _
  · exact (checkField_respects hK v).bind fun _ => (readField_respects hK v target).bind fun _ => .pure _
  · exact (readProperty_respects hK hrun v target).bind fun _ => .pure _

theorem copyTo_respects : (v.copyTo host run target).Respects True K := by
  unfold copyTo
  refine (Run.Respects.ofExcept _).bind fun _ => ?_
  split
  · exact .throw _
  · refine (checkField_respects hK v).bind fun _ => (checkValue_respects v).bind fun _ => ?_
    refine (instance?_respects v target).bind fun receiver => ?_
    split
    · exact hK.setField _ _ _
    · exact hK.setStatic _ _ _
  · refine (checkValue_respects v).bind fun _ => (accessor_respects hK _ v).bind fun setter => ?_
    refine (instance?_respects v target).bind fun receiver => ?_
    exact (Host.invoke_respects hK hrun _ receiver _).bind fun _ => .pure _

end Variable

namespace Transfer

theorem unlessUnavailable_respects {α : Type} {x : Run (State ω) α} (hx : x.Respects True K) :
    (unlessUnavailable x).Respects True K := by
  unfold unlessUnavailable
  refine hx.attempt.bind fun r => ?_
  split
  · exact .pure _
  · exact .pure _
  · exact .throw _

variable (target : Option Ref) (vs : List (Variable Value))
include hK hrun

theorem apply_respects : (apply host run target vs).Respects True K := by
  induction vs with
  | nil => exact .pure _
  | cons v vs ih =>
    unfold apply
    exact (unlessUnavailable_respects (v.copyTo_respects hK hrun target)).bind fun _ => ih

theorem refresh_respects : (refresh host run target vs).Respects True K := by
  induction vs with
  | nil => exact .pure _
  | cons v vs ih =>
    unfold refresh
    refine (unlessUnavailable_respects (v.copyFrom_respects hK hrun target)).attempt.bind fun r => ?_
    split
    · exact .pure _
    · exact ih.bind fun _ => .pure _

section
variable (owner : TypeHandle) (receiver : Option Ref) (id : MemberId)

theorem captureField_respects : (captureField host run owner receiver id).Respects True K := by
  unfold captureField
  split
  · exact .throw _
  · dsimp only
    split
    · exact .pure _
    · exact (Variable.copyFrom_respects hK hrun _ receiver).bind fun _ => .pure _

theorem captureProperty_respects : (captureProperty host run owner receiver id).Respects True K := by
  unfold captureProperty
  split
  · exact .throw _
  · dsimp only
    split
    · exact .pure _
    · exact unlessUnavailable_respects (Variable.copyFrom_respects hK hrun _ receiver)

end

theorem capture_respects (type : String) (closure : Closure) (receiver : Option Ref) :
    (capture host run type closure receiver).Respects True K := by
  unfold capture
  refine (hK.resolveType _).bind fun owner => ?_
  refine (Run.Respects.mapM _ fun id _ => captureField_respects hK hrun owner receiver id).bind fun fields => ?_
  refine (Run.Respects.mapM _ fun id _ => captureProperty_respects hK hrun owner receiver id).bind fun properties => ?_
  exact .pure _

end Transfer
end Calls

/-! ## Requests -/

namespace Server
variable {r : Request Datum}

section
variable {K : Server → Server → Prop} [IsPreorder Server K] {host : Host Storage} (hK : host.Guards True K)
  {run : Runner Storage} (hrun : ∀ f, (run f).Respects True K)
include hK

theorem ask_respects : (ask r host).Respects True K := by
  unfold ask
  refine (Run.Respects.mapM _ fun x _ => hK.instantiate x).bind fun args => ?_
  refine (Run.Respects.mapM _ fun v _ => ?_).bind fun nonLocals => ?_
  · exact (hK.instantiate _).bind fun _ => .pure _
  · exact (Host.resolveOverload_respects hK _ _ _).bind fun asked => .pure _

theorem entryPoint_respects (asked : MethodHandle) (args : List Value) :
    (entryPoint r host asked args).Respects True K := by
  unfold entryPoint
  dsimp only
  split
  · exact .pure _
  split
  · exact .pure _
  · refine (hK.resolveType _).bind fun owner => ?_
    split
    · exact .throw _
    · exact .pure _

include hrun

theorem invoke_respects : (invoke r host run).Respects True K := by
  rw [invoke_eq]
  refine (ask_respects hK).bind fun asked => (entryPoint_respects hK _ _).bind fun entry => ?_
  unfold runSelected
  dsimp only
  split
  swap
  -- the receiver is made
  rw [map_eq_pure_bind]
  refine ((Host.construct_respects hK hrun _).bind fun _ => .pure _).bind fun receiver => ?_
  all_goals
    split
    · refine (Transfer.apply_respects hK hrun _ _).bind fun _ => ?_
      refine (Host.invokeHandle_respects hrun _ _ _).bind fun result => ?_
      refine (Transfer.refresh_respects hK hrun _ _).bind fun back => ?_
      exact (Run.Respects.ofExcept _).bind fun _ => .pure _
    · exact (Host.invokeHandle_respects hrun _ _ _).bind fun _ => .pure _

end
end Server

/-! ## The server's own host -/

namespace Run
variable {σ α β : Type} {K : σ → σ → Prop} {x : Run σ α} {f : α → Run σ β}

/-- Whatever the computation comes to, `K` holds of the states before and after it. -/
def Keeps (K : σ → σ → Prop) (x : Run σ α) : Prop := ∀ s, x.Yields s fun _ t => K s t

namespace Keeps
variable [IsPreorder σ K]

theorem pure (a : α) : Keeps K (Pure.pure a : Run σ α) := fun s => .pure (refl_of K s)

theorem throw (e : Error) : Keeps K (MonadExcept.throw e : Run σ α) := fun s => .throw (refl_of K s)

theorem bind (hx : Keeps K x) (hf : ∀ a, Keeps K (f a)) : Keeps K (x >>= f) := by
  intro s
  refine (hx s).bind (fun a t ht => ?_) fun _ _ ht => ht
  intro r u h
  exact trans_of K ht (hf a t r u h)

theorem get : Keeps K (MonadState.get : Run σ σ) := by
  intro s r t h
  cases h
  exact refl_of K s

end Keeps
end Run

namespace Storage

/-- The record of served versions is as it was. -/
def SameVersions (s t : Storage) : Prop := t.versions = s.versions

instance : IsPreorder Storage SameVersions where
  refl _ := rfl
  trans _ _ _ h h' := h'.trans h

abbrev KeepsVersions {α : Type} (x : Run Storage α) : Prop := Run.Keeps SameVersions x

theorem touch_keepsVersions (path : String) : KeepsVersions (touch path) := by
  intro s r t h
  cases h
  rfl

theorem isFile_keepsVersions (path : String) : KeepsVersions (isFile path) :=
  (touch_keepsVersions path).bind fun _ => Run.Keeps.get.bind fun _ => .pure _

theorem read_keepsVersions (path : String) : KeepsVersions (read path) := by
  unfold read
  refine (touch_keepsVersions path).bind fun _ => Run.Keeps.get.bind fun s => ?_
  split
  · exact .pure _
  · exact .throw _

theorem change_keepsVersions (path : String) (f : FileTree → Option FileTree) : KeepsVersions (change path f) := by
  unfold change
  refine (touch_keepsVersions path).bind fun _ => Run.Keeps.get.bind fun s => ?_
  split
  · intro t r u h
    cases h
    rfl
  · exact .throw _

theorem keep_keepsVersions (hash name : String) (bytes : Bytes) : KeepsVersions (keep hash name bytes) := by
  unfold keep
  refine Run.Keeps.get.bind fun s => (isFile_keepsVersions _).bind fun there => ?_
  split
  · exact .pure _
  · exact (change_keepsVersions _ _).bind fun _ => change_keepsVersions _ _

end Storage

theorem State.onOutside_yields {ω α : Type} {x : Run ω α} {s : State ω} {Q : Except Error α → ω → Prop}
    (h : x.Yields s.outside Q) : (onOutside x).Yields s fun r t => t.domain = s.domain ∧ Q r t.outside := by
  intro r t hr
  unfold onOutside Run.zoom at hr
  rcases hxs : x s.outside with _ | ⟨a, o⟩
  · rw [hxs] at hr
    cases hr
  · rw [hxs] at hr
    cases hr
    exact ⟨rfl, h _ o hxs⟩

namespace Server
open Storage
variable (r : Request Datum)

theorem probeIn_keepsVersions (algorithm : DigestAlgorithm) (directories : List String) :
    KeepsVersions (probeIn r algorithm directories) := by
  induction directories with
  | nil => exact .pure _
  | cons directory rest ih =>
    unfold probeIn
    refine (isFile_keepsVersions _).bind fun there => ?_
    split
    · refine (read_keepsVersions _).bind fun bytes => ?_
      split
      · exact .pure _
      · exact ih
    · exact ih

theorem readFrom_keepsVersions (name : String) (directories : List String) :
    KeepsVersions (readFrom name directories) := by
  induction directories with
  | nil => exact .pure _
  | cons directory rest ih =>
    unfold readFrom
    refine (isFile_keepsVersions _).bind fun there => ?_
    split
    · exact (read_keepsVersions _).bind fun _ => .pure _
    · exact ih

theorem findReferenced_keepsVersions (m : LoadedModule) (hash name : String) :
    KeepsVersions (findReferenced m hash name) := by
  unfold findReferenced
  split
  · exact .pure _
  · refine Run.Keeps.get.bind fun s => (readFrom_keepsVersions name _).bind fun found => ?_
    split
    · exact .pure _
    split
    · exact .pure _
    · exact (keep_keepsVersions _ _ _).bind fun _ => .pure _

/-- Modules and types are found as before, and the record of served versions is the same. -/
def Stays (s t : Server) : Prop := s.domain.Gains t.domain ∧ t.outside.versions = s.outside.versions

instance : IsPreorder Server Stays where
  refl s := ⟨.refl s.domain, rfl⟩
  trans _ _ _ hst htu := ⟨hst.1.trans htu.1, htu.2.trans hst.2⟩

theorem Stays.of_same {s t : Server} (hdomain : t.domain = s.domain) (hversions : t.outside.versions = s.outside.versions) :
    Stays s t := ⟨hdomain ▸ .refl s.domain, hversions⟩

theorem onStorage_stays {α : Type} {x : Run Storage α} (hx : KeepsVersions x) : (onStorage x).Respects True Stays := by
  intro s r t h _
  obtain ⟨hdomain, hversions⟩ := State.onOutside_yields (hx s.outside) r t h
  exact .of_same hdomain hversions

/-- Whatever happens on the host of a request. -/
theorem hostFor_stays (thread : Option String) (m : LoadedModule) : (hostFor r thread m).Respects True Stays where
  data s d hmodules htypes _ := ⟨.of_same hmodules htypes, rfl⟩
  loads s bytes path l d hd := ⟨Domain.loadFile_gains hd, rfl⟩
  resolver resolve hresolve name := by
    cases hresolve
    exact onStorage_stays (findReferenced_keepsVersions m r.hash name)
  natives type method native hnative args s a t h _ := by
    obtain rfl : s = t := Host.unchanged_of_standard rfl type method native hnative args s a t h (.inl trivial)
    exact refl_of Stays s

theorem invoke_stays (budget : Nat) (thread : Option String) (m : LoadedModule) :
    (invoke r (hostFor r thread m) (Machine.runner { host := hostFor r thread m } budget)).Respects True Stays :=
  invoke_respects (hostFor_stays r thread m).guards
    (Machine.runner_respects (hostFor_stays r thread m).guards (fun _ _ h => by cases h) budget)

end Server
end MobileCode
