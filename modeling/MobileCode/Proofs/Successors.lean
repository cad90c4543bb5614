import MobileCode.Proofs.Calls
import MobileCode.Proofs.Shapes

/-! # What follows a step

A step goes on in the same method, returns to the caller, or enters the method that a call or a construction
means. Where no client is installed, it leaves the modules of the domain loaded.
-/
namespace MobileCode

/-! ## Modules stay loaded -/

/-- Modules that the first domain holds are held by the second one. -/
def Domain.Keeps (d e : Domain) : Prop := ∀ m l, d.Has m l → e.Has m l

namespace Domain

theorem Keeps.refl (d : Domain) : d.Keeps d := fun _ _ h => h

theorem Keeps.trans {d e f : Domain} (h : d.Keeps e) (h' : e.Keeps f) : d.Keeps f := fun m l hd => h' m l (h m l hd)

/-- A new module is registered if no type of it is there. -/
theorem clash?_eq_none_of_register {d d' : Domain} {n : Module Datum} {bytes : Bytes} {path : Option String}
    {l' : LoadedModule} (hnew : d.module? n.name = none) (h : d.register n bytes path = .ok (l', d')) :
    d.clash? (d.loading n bytes path).code = none := by
  simp only [register, hnew] at h
  generalize hcode : (instantiate n).run d.heap = a at h
  obtain ⟨code, heap⟩ := a
  simp only at h
  split at h
  · cases h
  · rw [loading, hcode]
    assumption

/-- What is registered is loaded already, or the name is free and it is entered. -/
theorem register_cases {d e : Domain} {m : Module Datum} {bytes : Bytes} {path : Option String} {l : LoadedModule}
    (h : d.register m bytes path = .ok (l, e)) :
    (d.module? m.name = some l ∧ l.hash = d.digest.digest bytes ∧ e = d) ∨
      (d.module? m.name = none ∧ l = d.loading m bytes path ∧ d.clash? l.code = none ∧
        e = ({ d with heap := ((instantiate m).run d.heap).2 } : Domain).enter l) := by
  cases hknown : d.module? m.name with
  | some existing =>
    simp only [register, hknown] at h
    split at h
    · rename_i hsame
      cases h
      exact .inl ⟨rfl, hsame, rfl⟩
    · cases h
  | none =>
    have hclash := clash?_eq_none_of_register hknown h
    obtain ⟨rfl, rfl⟩ := register_eq_ok hknown h
    exact .inr ⟨rfl, rfl, hclash, rfl⟩

/-- What is loaded is the module of the file. -/
theorem loadFile_eq_ok {d d' : Domain} {bytes : Bytes} {path : Option String} {l : LoadedModule}
    (h : d.loadFile bytes path = .ok (l, d')) :
    ∃ m, Module.ofFile bytes = .ok m ∧ d.register m bytes path = .ok (l, d') := by
  unfold loadFile at h
  cases hm : Module.ofFile bytes with
  | error e =>
    rw [hm] at h
    cases h
  | ok m =>
    rw [hm] at h
    exact ⟨m, rfl, h⟩

/-- To register another module leaves the modules where they are. -/
theorem register_keeps {d d' : Domain} {n : Module Datum} {bytes : Bytes} {path : Option String} {l' : LoadedModule}
    (h : d.register n bytes path = .ok (l', d')) : d.Keeps d' := by
  intro m l hd
  rcases register_cases h with ⟨_, _, rfl⟩ | ⟨hknown, rfl, hclash, rfl⟩
  · exact hd
  · have hname : (d.loading n bytes path).name = n.name := congrArg Module.name (n.instantiate_shape d.heap)
    have hne : m.name ≠ n.name := by
      intro he
      rw [← he, hd.module] at hknown
      cases hknown
    refine ⟨hd.shape, hd.distinct, ?_, fun t ht => ?_, ?_⟩
    · rw [module?_enter, hname, if_neg hne]
      exact hd.module
    · rw [enter_eq]
      exact type?_indexed hclash (hd.types t ht)
    · rw [enter_eq]
      show Dict.find? _ _ = _
      rw [Dict.find?_insert, hname, hd.name, if_neg hne]
      exact hd.name ▸ hd.table

end Domain

/-! ## What computations ensure -/

namespace Run
variable {σ α β : Type}

/-- If the computation succeeds from this state, it is with such a result and in such a state. -/
def Ensures (x : Run σ α) (s : σ) (Q : α → σ → Prop) : Prop := ∀ a t, x s = some (.ok a, t) → Q a t

namespace Ensures
variable {x : Run σ α} {f : α → Run σ β} {s : σ} {P Q : α → σ → Prop} {R : β → σ → Prop}

theorem pure {a : α} (h : Q a s) : (Pure.pure a : Run σ α).Ensures s Q := by
  intro b t hb
  cases hb
  exact h

theorem throw {e : Error} : (MonadExcept.throw e : Run σ α).Ensures s Q := fun _ _ h => nomatch h

theorem bind (hx : x.Ensures s P) (hf : ∀ a t, P a t → (f a).Ensures t R) : (x >>= f).Ensures s R := by
  intro b u hb
  rw [bind_apply] at hb
  rcases hxs : x s with _ | ⟨_ | a, t⟩
  · rw [hxs] at hb
    cases hb
  · rw [hxs] at hb
    cases hb
  · rw [hxs] at hb
    exact hf a t (hx a t hxs) b u hb

/-- Whatever comes first. -/
theorem after (hf : ∀ a t, (f a).Ensures t R) : (x >>= f).Ensures s R :=
  bind (P := fun _ _ => True) (fun _ _ _ => trivial) fun a t _ => hf a t

theorem get_bind {g : σ → Run σ β} (h : (g s).Ensures s R) : (get >>= g).Ensures s R := h

theorem mono (hx : x.Ensures s P) (h : ∀ a t, P a t → Q a t) : x.Ensures s Q := fun a t ha => h a t (hx a t ha)

theorem ofExcept {e : Except Error α} (h : ∀ a, e = .ok a → Q a s) : (Run.ofExcept e).Ensures s Q := by
  intro a t ha
  cases ha
  exact h a rfl

theorem ofExcept_bind {e : Except Error α} (h : ∀ a, e = .ok a → (f a).Ensures s R) :
    (Run.ofExcept e >>= f).Ensures s R :=
  bind (P := fun a t => (f a).Ensures t R) (ofExcept h) fun _ _ ha => ha

theorem attempt (hx : x.Ensures s P) : (Run.attempt x).Ensures s fun r t => ∀ a, r = .ok a → P a t := by
  rintro r t hr a rfl
  unfold Run.attempt at hr
  rcases hxs : x s with _ | ⟨_, u⟩
  · rw [hxs] at hr
    cases hr
  · rw [hxs] at hr
    cases hr
    exact hx a t hxs

end Ensures
end Run

/-! ## What computations leave alone -/

section Computations
variable {ω : Type} {K : State ω → State ω → Prop} {failing : Prop}

/-- `K` holds of the states before and after the computation, if it succeeds or if failures count as well. -/
def Run.Respects {α : Type} (failing : Prop) (K : State ω → State ω → Prop) (x : Run (State ω) α) : Prop :=
  ∀ s r t, x s = some (r, t) → (failing ∨ ∃ a, r = .ok a) → K s t

/-- Whatever happens on the host apart from dispatches, `K` holds of the states before and after it. -/
structure Host.Respects (failing : Prop) (host : Host ω) (K : State ω → State ω → Prop) : Prop where
  data : ∀ s d, d.modules = s.domain.modules → d.types = s.domain.types → d.tables = s.domain.tables →
    K s { s with domain := d }
  loads : ∀ s bytes path m d, s.domain.loadFile bytes path = .ok (m, d) → K s { s with domain := d }
  resolver : ∀ resolve, host.resolver = some resolve → ∀ name, (State.onOutside (resolve name)).Respects failing K
  natives : ∀ type method native, host.native? type method = some native →
    ∀ args, (native.call args).Respects failing K

/-- The same, where `K` may depend on objects and static fields. Code changes no more than these. -/
structure Host.Guards (failing : Prop) (host : Host ω) (K : State ω → State ω → Prop) : Prop where
  objects : ∀ s heap, K s { s with domain := { s.domain with heap } }
  statics : ∀ s type fields name v, s.domain.statics.find? type = some fields →
    K s { s with domain := { s.domain with statics := s.domain.statics.insert type (fields.insert name v) } }
  loads : ∀ s bytes path m d, s.domain.loadFile bytes path = .ok (m, d) → K s { s with domain := d }
  resolver : ∀ resolve, host.resolver = some resolve → ∀ name, (State.onOutside (resolve name)).Respects failing K
  natives : ∀ type method native, host.native? type method = some native →
    ∀ args, (native.call args).Respects failing K

theorem Host.Respects.guards {host : Host ω} (h : host.Respects failing K) : host.Guards failing K where
  objects s _ := h.data s _ rfl rfl rfl
  statics s _ _ _ _ _ := h.data s _ rfl rfl rfl
  loads := h.loads
  resolver := h.resolver
  natives := h.natives

namespace Run.Respects
variable {α β : Type} {x : Run (State ω) α} {f : α → Run (State ω) β}

variable [IsPreorder (State ω) K]

theorem throw (e : Error) : Run.Respects failing K (MonadExcept.throw e : Run (State ω) α) := by
  intro s r t h _
  cases h
  exact refl_of K s

theorem pure (a : α) : Run.Respects failing K (Pure.pure a : Run (State ω) α) := by
  intro s r t h _
  cases h
  exact refl_of K s

theorem bind (hx : x.Respects failing K) (hf : ∀ a, (f a).Respects failing K) : (x >>= f).Respects failing K := by
  intro s r t h hr
  rw [bind_apply] at h
  rcases hxs : x s with _ | ⟨e | a, u⟩
  · rw [hxs] at h
    cases h
  · rw [hxs] at h
    cases h
    exact hx s _ _ hxs (hr.imp_right fun ⟨_, he⟩ => nomatch he)
  · rw [hxs] at h
    exact trans_of K (hx s _ u hxs (.inr ⟨a, rfl⟩)) (hf a u r t h hr)

theorem ofExcept (e : Except Error α) : (Run.ofExcept e : Run (State ω) α).Respects failing K := by
  cases e with
  | ok a => exact .pure a
  | error e => exact .throw e

theorem ofOption (o : Option α) : (Run.ofOption o : Run (State ω) α).Respects failing K := by
  cases o with
  | none => exact fun _ _ _ h => nomatch h
  | some a => exact .pure a

theorem get : Run.Respects failing K (MonadState.get : Run (State ω) (State ω)) := by
  intro s r t h _
  cases h
  exact refl_of K s

theorem getHeap : Run.Respects failing K (State.getHeap : Run (State ω) Heap) := get.bind fun _ => .pure _

end Run.Respects

/-! ### Looking for types -/

namespace Host
variable {host : Host ω} [IsPreorder (State ω) K]
  (hloads : ∀ s bytes path m d, s.domain.loadFile bytes path = .ok (m, d) → K s { s with domain := d })
include hloads

theorem loadFile_respects (bytes : Bytes) (path : Option String) :
    (State.loadFile bytes path : Run (State ω) LoadedModule).Respects failing K := by
  intro s r t h _
  unfold State.loadFile at h
  rw [Run.get_bind] at h
  cases hd : s.domain.loadFile bytes path with
  | error e =>
    rw [hd] at h
    cases h
    exact refl_of K s
  | ok p =>
    rw [hd] at h
    cases h
    exact hloads s bytes path _ _ hd

variable (hresolver : ∀ resolve, host.resolver = some resolve → ∀ name,
  (State.onOutside (resolve name)).Respects failing K)
include hresolver

theorem resolveModule_respects (name : String) : (host.resolveModule name).Respects failing K := by
  unfold Host.resolveModule
  split
  · exact .pure _
  · rename_i resolve hresolve
    refine (hresolver resolve hresolve name).bind fun found => ?_
    split
    · exact .pure _
    · exact (loadFile_respects hloads _ _).bind fun _ => .pure _

theorem resolveType_respects (r : TypeRef) : (host.resolveType r).Respects failing K := by
  unfold Host.resolveType
  refine Run.Respects.get.bind fun s => ?_
  split
  · exact .pure _
  split
  · exact .throw _
  refine Run.Respects.get.bind fun s => ?_
  split
  · exact .throw _
  refine (resolveModule_respects hloads hresolver _).bind fun found => ?_
  split
  · refine Run.Respects.get.bind fun s => ?_
    split
    · exact .pure _
    · exact .throw _
  · exact .throw _

theorem resolveMethod_respects (r : MethodRef) : (host.resolveMethod r).Respects failing K := by
  unfold Host.resolveMethod
  refine (resolveType_respects hloads hresolver r.owner).bind fun owner => ?_
  split
  · exact .pure _
  · exact .throw _

end Host

namespace Host.Guards
variable {host : Host ω} (hK : host.Guards failing K)
include hK

theorem setField (r : Ref) (name : String) (v : Value) :
    (State.setField r name v : Run (State ω) Unit).Respects failing K := by
  intro s a t h _
  cases h
  exact hK.objects s _

theorem alloc (o : Object) : (State.alloc o : Run (State ω) Ref).Respects failing K := by
  intro s a t h _
  cases h
  exact hK.objects s _

theorem instantiate (x : Datum) : (State.instantiate x : Run (State ω) Value).Respects failing K := by
  intro s a t h _
  cases h
  exact hK.objects s _

variable [IsPreorder (State ω) K]

theorem resolveType (r : TypeRef) : (host.resolveType r).Respects failing K :=
  resolveType_respects hK.loads hK.resolver r

theorem resolveMethod (r : MethodRef) : (host.resolveMethod r).Respects failing K :=
  resolveMethod_respects hK.loads hK.resolver r

theorem staticsWith (type field : String) : (host.staticsWith type field).Respects failing K := by
  unfold Host.staticsWith
  refine (hK.resolveType _).bind fun owner => ?_
  split
  · refine Run.Respects.get.bind fun s => ?_
    split
    · exact .pure _
    · exact .throw _
  · exact .throw _

theorem getStatic (type field : String) : (host.getStatic type field).Respects failing K := by
  unfold Host.getStatic
  refine (hK.staticsWith type field).bind fun fields => ?_
  split
  · exact .pure _
  · exact .throw _

omit hK [IsPreorder (State ω) K] in
theorem staticsWith_ensures (host : Host ω) (type field : String) (s : State ω) :
    (host.staticsWith type field).Ensures s fun fields t => t.domain.statics.find? type = some fields := by
  unfold Host.staticsWith
  refine .after fun owner u => ?_
  split
  · refine .get_bind ?_
    split
    · exact .pure ‹_›
    · exact .throw
  · exact .throw

theorem setStatic (type field : String) (v : Value) : (host.setStatic type field v).Respects failing K := by
  intro s r t h hr
  unfold Host.setStatic at h
  rw [Run.bind_apply] at h
  rcases hfields : host.staticsWith type field s with _ | ⟨e | fields, u⟩
  · rw [hfields] at h
    cases h
  · rw [hfields] at h
    cases h
    exact hK.staticsWith type field s _ _ hfields (hr.imp_right fun ⟨_, he⟩ => nomatch he)
  · rw [hfields] at h
    cases h
    refine trans_of K (hK.staticsWith type field s _ u hfields (.inr ⟨fields, rfl⟩)) ?_
    exact hK.statics u type fields field v (staticsWith_ensures host type field s fields u hfields)

end Host.Guards

/-- All modules stay loaded. -/
def State.Keeps (s t : State ω) : Prop := s.domain.Keeps t.domain

instance : IsPreorder (State ω) State.Keeps where
  refl s := .refl s.domain
  trans _ _ _ := Domain.Keeps.trans

/-- The native methods of the host leave all modules loaded. -/
def Host.KeepsModules (host : Host ω) : Prop :=
  ∀ type method native, host.native? type method = some native →
    ∀ args, (native.call args).Respects False State.Keeps

/-- Then all that happens on the host leaves them loaded. -/
theorem Host.KeepsModules.respects {host : Host ω} (h : host.KeepsModules) : host.Respects False State.Keeps where
  data s d hmodules htypes htables := fun m l hd => hd.congr hmodules htypes htables
  loads s bytes path l d hd := by
    obtain ⟨m, _, hm⟩ := Domain.loadFile_eq_ok hd
    exact Domain.register_keeps hm
  resolver resolve _ name s a t h _ := by
    simp only [State.onOutside, Run.zoom] at h
    rcases hx : resolve name s.outside with _ | ⟨_, _⟩
    · rw [hx] at h
      cases h
    · rw [hx] at h
      cases h
      exact .refl _
  natives := h

end Computations

/-! ## Native methods -/

namespace Native
variable {ω : Type}

theorem items_respects (method : String) (v : Value) :
    (items method v : Run (State ω) (List Value)).Respects True Eq := by
  unfold items
  split
  · exact .pure _
  · exact Run.Respects.getHeap.bind fun _ => .throw _

theorem textOf_respects (v : Value) : (textOf v : Run (State ω) String).Respects True Eq :=
  Run.Respects.getHeap.bind fun _ => .pure _

/-- The standard methods leave the state as it is. -/
theorem standard_respects (thread : Option String) :
    ∀ p ∈ (standard thread : List ((String × String) × Native ω)), ∀ args, (p.2.call args).Respects True Eq := by
  intro p hp args
  simp only [standard, List.mem_cons, List.not_mem_nil, or_false] at hp
  rcases hp with rfl | rfl | rfl | rfl | rfl | rfl | rfl | rfl | rfl
  · simp only [concat]
    split
    · exact (textOf_respects _).bind fun _ => (textOf_respects _).bind fun _ => .pure _
    · exact .throw _
  · simp only [length]
    split
    · exact .pure _
    · exact .throw _
  · simp only [toText]
    split
    · exact (textOf_respects _).bind fun _ => .pure _
    · exact .throw _
  · simp only [newList]
    split
    · exact .pure _
    · exact .throw _
  · simp only [append]
    split
    · exact .pure _
    · exact (items_respects _ _).bind fun _ => .pure _
    · exact .throw _
  · simp only [listCount]
    split
    · exact .pure _
    · exact (items_respects _ _).bind fun _ => .pure _
    · exact .throw _
  · simp only [listGet]
    split
    · refine (items_respects _ _).bind fun _ => ?_
      split
      · exact .pure _
      · exact Run.Respects.getHeap.bind fun _ => .throw _
    · exact .throw _
  · simp only [machineName]
    split
    · exact Run.Respects.get.bind fun _ => .pure _
    · exact .throw _
  · simp only [threadName]
    split
    · exact .pure _
    · exact .throw _

end Native

theorem Host.unchanged_of_standard {ω : Type} {host : Host ω} {thread : Option String}
    (h : host.natives = Native.standard thread) (type method : String) (native : Native ω)
    (hfound : host.native? type method = some native) (args : List Value) :
    (native.call args).Respects True Eq := by
  rw [native?, h, List.lookup_eq_some_iff] at hfound
  obtain ⟨front, rest, hsplit, _⟩ := hfound
  refine Native.standard_respects thread ((type, method), native) ?_ args
  rw [hsplit]
  simp

theorem Host.keepsModules_of_standard {ω : Type} {host : Host ω} {thread : Option String}
    (h : host.natives = Native.standard thread) : host.KeepsModules := by
  intro type method native hfound args s v t hv _
  rw [host.unchanged_of_standard h type method native hfound args s v t hv (.inl trivial)]
  exact .refl _

/-! ## Steps -/

namespace Frame

/-- The other frame stands at the same place in the same method. -/
structure SamePlace (f g : Frame) : Prop where
  method : g.method = f.method
  position : g.position = f.position

theorem SamePlace.refl (f : Frame) : f.SamePlace f := ⟨rfl, rfl⟩

theorem SamePlace.trans {f g h : Frame} (hfg : f.SamePlace g) (hgh : g.SamePlace h) : f.SamePlace h :=
  ⟨hgh.method.trans hfg.method, hgh.position.trans hfg.position⟩

theorem restacked_pop {f g : Frame} {v : Value} (h : f.pop = .ok (v, g)) : ∃ xs, g = { f with stack := xs } := by
  unfold pop at h
  split at h <;> cases h
  exact ⟨_, rfl⟩

theorem restacked_popMany {f g : Frame} {n : Nat} {vs : List Value} (h : f.popMany n = .ok (vs, g)) :
    ∃ xs, g = { f with stack := xs } := by
  unfold popMany at h
  split at h <;> cases h
  exact ⟨_, rfl⟩

theorem restacked_popObject {f g : Frame} {heap : Heap} {r : Ref} (h : f.popObject heap = .ok (r, g)) :
    ∃ xs, g = { f with stack := xs } := by
  unfold popObject at h
  cases hpop : f.pop with
  | error e =>
    rw [hpop] at h
    cases h
  | ok p =>
    obtain ⟨v, f'⟩ := p
    rw [hpop] at h
    cases v <;> cases h
    exact restacked_pop hpop

theorem samePlace_restacked {f g : Frame} (h : ∃ xs, g = { f with stack := xs }) : f.SamePlace g := by
  obtain ⟨_, rfl⟩ := h
  exact ⟨rfl, rfl⟩

theorem enter_method {f : Frame} {limit depth : Nat} {m : MethodHandle} {r : Option Ref} {args : List Value}
    {constructs : Option Ref} (h : enter limit depth m r args constructs = .ok f) : f.method = m := by
  obtain ⟨_, _, rfl⟩ := enter_eq_ok h
  rfl

variable {σ β : Type} {f : Frame} {s : σ} {R : β → σ → Prop}

theorem pop_ensures {k : Value × Frame → Run σ β} (h : ∀ v g, f.SamePlace g → (k (v, g)).Ensures s R) :
    (Run.ofExcept f.pop >>= k).Ensures s R :=
  .ofExcept_bind fun p hp => h p.1 p.2 (samePlace_restacked (restacked_pop hp))

theorem popMany_ensures {n : Nat} {k : List Value × Frame → Run σ β}
    (h : ∀ vs g, f.SamePlace g → (k (vs, g)).Ensures s R) : (Run.ofExcept (f.popMany n) >>= k).Ensures s R :=
  .ofExcept_bind fun p hp => h p.1 p.2 (samePlace_restacked (restacked_popMany hp))

theorem popObject_ensures {heap : Heap} {k : Ref × Frame → Run σ β}
    (h : ∀ r g, f.SamePlace g → (k (r, g)).Ensures s R) : (Run.ofExcept (f.popObject heap) >>= k).Ensures s R :=
  .ofExcept_bind fun p hp => h p.1 p.2 (samePlace_restacked (restacked_popObject hp))

/-- The frame behind the instruction at which it stands. -/
abbrev ahead (f : Frame) : Frame := { f with position := f.position + 1 }

/-- The frame goes on behind its instruction, or where this branches to. -/
structure GoesOn (f g : Frame) : Prop where
  method : g.method = f.method
  position : g.position = f.position + 1 ∨
    ∃ i n, f.method.decl.body[f.position]? = some i ∧ i.target? = some n ∧ g.position = n.toNat

theorem SamePlace.goesOn {f g : Frame} (h : f.ahead.SamePlace g) : f.GoesOn g := ⟨h.method, .inl h.position⟩

end Frame

namespace Machine
variable {ω : Type} {env : Environment ω} {run : Runner ω}

/-- The frame stands at a dispatch, and a client is installed that takes it. -/
def Dispatches (env : Environment ω) (f : Frame) : Prop :=
  ∃ site, f.method.decl.body[f.position]? = some (.dispatch site) ∧ env.dispatcher? site.client.fullName ≠ none

instance (env : Environment ω) (f : Frame) : Decidable (Dispatches env f) :=
  decidable_of_iff (f.method.decl.body[f.position]?.any (fun
    | .dispatch site => (env.dispatcher? site.client.fullName).isSome
    | _ => false) = true) <| by
      rw [Option.any_eq_true]
      constructor
      · rintro ⟨i, hi, hsome⟩
        cases i with
        | dispatch site => exact ⟨site, hi, Option.isSome_iff_ne_none.mp hsome⟩
        | _ => exact nomatch hsome
      · rintro ⟨site, hi, hsome⟩
        exact ⟨_, hi, Option.isSome_iff_ne_none.mpr hsome⟩

/-! ### What a step leaves alone -/

section
variable {K : State ω → State ω → Prop} [IsPreorder (State ω) K] {failing : Prop}

theorem compare_respects (heap : Heap) (op : CompareOp) (x y : Value) :
    (compare heap op x y : Run (State ω) Bool).Respects failing K := by
  unfold compare
  split
  · exact .pure _
  split
  · exact .ofOption _
  · exact (Run.Respects.ofOption _).bind fun _ => .pure _
  · exact .throw _

theorem startConstruction_respects {host : Host ω} (hK : host.Guards failing K) (type : String) :
    (startConstruction host type).Respects failing K := by
  unfold startConstruction
  refine (hK.resolveType _).bind fun owner => ?_
  split
  · exact .throw _
  · exact (hK.alloc _).bind fun r => Run.Respects.get.bind fun _ => .ofExcept _

theorem call_respects {host : Host ω} (hK : host.Guards failing K) (f : Frame) (below : List Frame) (r : MethodRef) :
    (call host f below r).Respects failing K := by
  unfold call
  split
  · rename_i native hnative
    exact (Run.Respects.ofExcept _).bind fun p => (hK.natives _ _ _ hnative p.1).bind fun _ => .pure _
  · refine (hK.resolveMethod r).bind fun callee => (Run.Respects.ofExcept _).bind fun p => ?_
    have henter (receiver : Option Ref) (g : Frame) : (do
        let top ← Run.ofExcept (Frame.enter (← get).domain.maxDepth (g.depth + 1) callee receiver p.1)
        return .next top (g :: below) : Run (State ω) Transition).Respects failing K :=
      Run.Respects.get.bind fun _ => (Run.Respects.ofExcept _).bind fun _ => .pure _
    cases callee.decl.isStatic with
    | true => exact henter none p.2
    | false => exact Run.Respects.getHeap.bind fun _ => (Run.Respects.ofExcept _).bind fun q => henter (some q.1) q.2

theorem execute_respects (hK : env.host.Guards failing K) {i : Instruction Value} {f : Frame}
    (hdispatch : ∀ site, i = .dispatch site → (dispatch env run f site).Respects failing K) (below : List Frame) :
    (execute env run f below i).Respects failing K := by
  have hpop {g : Frame} {k : Value × Frame → Run (State ω) Transition} (h : ∀ p, (k p).Respects failing K) :
      (Run.ofExcept g.pop >>= k).Respects failing K := (Run.Respects.ofExcept _).bind h
  cases i with
  | nop | const | jump => exact .pure _
  | loadArg n | loadLocal n | loadThis | dup =>
    simp only [execute]
    split
    · exact .pure _
    · exact .throw _
  | storeArg n | storeLocal n =>
    refine hpop fun p => ?_
    simp only
    split
    · exact .pure _
    · exact .throw _
  | loadField field =>
    refine Run.Respects.getHeap.bind fun heap => (Run.Respects.ofExcept _).bind fun p => ?_
    simp only
    split
    · exact .pure _
    · exact .throw _
  | storeField field =>
    refine hpop fun p => Run.Respects.getHeap.bind fun _ => (Run.Respects.ofExcept _).bind fun q => ?_
    exact (hK.setField _ _ _).bind fun _ => .pure _
  | loadStatic field => exact (hK.resolveType _).bind fun owner => (hK.getStatic _ _).bind fun _ => .pure _
  | storeStatic field => exact hpop fun p => (hK.resolveType _).bind fun owner => (hK.setStatic _ _ _).bind fun _ => .pure _
  | call r => exact call_respects hK f below r
  | construct r => exact (hK.resolveType r).bind fun owner => (startConstruction_respects hK _).bind fun _ => .pure _
  | binary op =>
    exact hpop fun p => hpop fun q => Run.Respects.getHeap.bind fun _ => (Run.Respects.ofExcept _).bind fun _ => .pure _
  | compare op =>
    exact hpop fun p => hpop fun q => Run.Respects.getHeap.bind fun _ => (compare_respects _ _ _ _).bind fun _ => .pure _
  | not => exact hpop fun p => Run.Respects.getHeap.bind fun _ => (Run.Respects.ofExcept _).bind fun _ => .pure _
  | jumpIfTrue n | jumpIfFalse n =>
    refine hpop fun p => Run.Respects.getHeap.bind fun _ => (Run.Respects.ofExcept _).bind fun b => ?_
    split <;> exact .pure _
  | pop => exact hpop fun p => .pure _
  | ret =>
    simp only [execute]
    split
    · exact .pure _
    · exact hpop fun p => .pure _
  | throw => exact hpop fun p => Run.Respects.getHeap.bind fun _ => .throw _
  | dispatch site =>
    refine (hdispatch site rfl).bind fun outcome => ?_
    cases outcome <;> exact .pure _

/-- A step that is no dispatch that a client takes leaves alone what the host leaves alone. -/
theorem step_respects (hK : env.host.Guards failing K) {f : Frame} (hidle : ¬Dispatches env f) (below : List Frame) :
    (step env run f below).Respects failing K := by
  unfold step
  split
  · rename_i i hi
    refine execute_respects hK (fun site hsite => ?_) _
    have hnone : env.dispatcher? site.client.fullName = none :=
      by_contra fun hsome => hidle ⟨site, hsite ▸ hi, hsome⟩
    unfold dispatch
    rw [hnone]
    exact .pure _
  · exact .throw _

/-- A step leaves alone what the host and its clients leave alone. -/
theorem step_respects_clients (hK : env.host.Guards failing K) (hclients : ∀ client d, env.dispatcher? client = some d →
    ∀ site receiver args, (d.dispatch env.host run site receiver args).Respects failing K) (f : Frame)
    (below : List Frame) : (step env run f below).Respects failing K := by
  unfold step
  split
  · refine execute_respects hK (fun site _ => ?_) _
    unfold dispatch
    split
    · exact .pure _
    · rename_i d hd
      dsimp only
      split
      · exact .throw _
      · exact hclients _ d hd site _ _
  · exact .throw _

end

/-! ### What a step leads to -/

/-- What a step makes of the frame `f` on top of others. The frame goes on, returns to its caller, or enters
the method that its instruction means. -/
inductive Follows (host : Host ω) (s : State ω) (f : Frame) (below : List Frame) : Transition → Prop
  | stays {g : Frame} : f.GoesOn g → Follows host s f below (.next g below)
  | returns {caller g : Frame} {rest : List Frame} : below = caller :: rest → caller.SamePlace g →
    Follows host s f below (.next g rest)
  | ends (v : Value) : Follows host s f below (.done v)
  | calls {r : MethodRef} {g f' : Frame} {t : State ω} : f.method.decl.body[f.position]? = some (.call r) →
    f.ahead.SamePlace f' → host.resolveMethod r s = some (.ok g.method, t) →
    Follows host s f below (.next g (f' :: below))
  | constructs {r : TypeRef} {g f' : Frame} {owner owner' : TypeHandle} {t u : State ω} :
    f.method.decl.body[f.position]? = some (.construct r) → f.ahead.SamePlace f' →
    host.resolveType r s = some (.ok owner, t) → host.resolveLocal owner.decl.fullName t = some (.ok owner', u) →
    owner'.method? constructorName [] = some g.method → g.method.decl.isDefaultConstructor = true →
    Follows host s f below (.next g (f' :: below))

theorem startConstruction_ensures {host : Host ω} (type : String) (s : State ω) :
    (startConstruction host type).Ensures s fun g _ => ∃ owner u, host.resolveLocal type s = some (.ok owner, u) ∧
      owner.method? constructorName [] = some g.method ∧ g.method.decl.isDefaultConstructor = true := by
  unfold startConstruction
  have howner : (host.resolveLocal type).Ensures s fun owner t => host.resolveLocal type s = some (.ok owner, t) :=
    fun owner t h => h
  refine howner.bind fun owner t hfound => ?_
  split
  · exact .throw
  · rename_i ctor hctor
    obtain ⟨hctor, hdefault⟩ := Option.filter_eq_some_iff.mp hctor
    refine .after fun r u => .get_bind (.ofExcept fun g hg => ?_)
    rw [Frame.enter_method hg]
    exact ⟨owner, t, hfound, hctor, hdefault⟩

theorem call_follows {host : Host ω} {f f' : Frame} {r : MethodRef}
    (hi : f.method.decl.body[f.position]? = some (.call r)) (hf : f.ahead.SamePlace f') (below : List Frame)
    (s : State ω) : (call host f' below r).Ensures s fun t _ => Follows host s f below t := by
  unfold call
  split
  · refine Frame.popMany_ensures fun args g hg => .after fun result t => .pure (.stays (Frame.SamePlace.goesOn ?_))
    split
    · exact ⟨(hf.trans hg).method, (hf.trans hg).position⟩
    · exact hf.trans hg
  · have hcallee : (host.resolveMethod r).Ensures s fun callee t => host.resolveMethod r s = some (.ok callee, t) :=
      fun callee t h => h
    refine hcallee.bind fun callee t hfound => ?_
    have henter (receiver : Option Ref) (args : List Value) (g : Frame) (hg : f'.SamePlace g) :
        (do
          let top ← Run.ofExcept (Frame.enter (← get).domain.maxDepth (g.depth + 1) callee receiver args)
          return .next top (g :: below) : Run (State ω) Transition).Ensures t fun t _ => Follows host s f below t := by
      refine Run.Ensures.get_bind (.ofExcept_bind fun top htop => ?_)
      refine .pure (.calls (t := t) hi (hf.trans hg) ?_)
      rw [Frame.enter_method htop]
      exact hfound
    refine Frame.popMany_ensures fun args g hg => ?_
    cases callee.decl.isStatic with
    | true => exact henter none args g hg
    | false =>
      refine Run.Ensures.get_bind (Frame.popObject_ensures fun receiver g' hg' => ?_)
      exact henter (some receiver) args g' (hg.trans hg')

/-- What an instruction makes of the stack. -/
theorem execute_follows {f : Frame} {i : Instruction Value} (hi : f.method.decl.body[f.position]? = some i)
    (below : List Frame) (s : State ω) :
    (execute env run f.ahead below i).Ensures s fun t _ => Follows env.host s f below t := by
  have hgo {g : Frame} {t : State ω} (hg : f.ahead.SamePlace g) :
      (pure (.next g below) : Run (State ω) Transition).Ensures t fun t _ => Follows env.host s f below t :=
    .pure (.stays hg.goesOn)
  have hpush {g : Frame} {t : State ω} (hg : f.ahead.SamePlace g) (v : Value) :
      (pure (.next (g.push v) below) : Run (State ω) Transition).Ensures t fun t _ => Follows env.host s f below t :=
    hgo ⟨hg.method, hg.position⟩
  have hjump {g : Frame} {n : UInt64} (hg : f.ahead.SamePlace g) (hn : i.target? = some n) :
      (pure (.next { g with position := n.toNat } below) : Run (State ω) Transition).Ensures s
        fun t _ => Follows env.host s f below t :=
    .pure (.stays ⟨hg.method, .inr ⟨i, n, hi, hn, rfl⟩⟩)
  cases i with
  | nop => exact hgo (.refl _)
  | const v => exact hpush (.refl _) v
  | jump n => exact hjump (.refl _) rfl
  | loadArg n | loadLocal n | loadThis | dup =>
    simp only [execute]
    split
    · exact hpush (.refl _) _
    · exact .throw
  | storeArg n | storeLocal n =>
    refine Frame.pop_ensures fun v g hg => ?_
    simp only
    split
    · exact hgo ⟨hg.method, hg.position⟩
    · exact .throw
  | loadField field =>
    refine Run.Ensures.get_bind (Frame.popObject_ensures fun r g hg => ?_)
    simp only
    split
    · exact hpush hg _
    · exact .throw
  | storeField field =>
    refine Frame.pop_ensures fun v g hg => Run.Ensures.get_bind (Frame.popObject_ensures fun r g' hg' => ?_)
    exact .after fun _ t => hgo (hg.trans hg')
  | loadStatic field => exact .after fun owner t => .after fun v u => hpush (.refl _) v
  | storeStatic field => exact Frame.pop_ensures fun v g hg => .after fun owner t => .after fun _ u => hgo hg
  | call r => exact call_follows hi (.refl _) below s
  | construct r =>
    have howner : (env.host.resolveType r).Ensures s fun owner t => env.host.resolveType r s = some (.ok owner, t) :=
      fun owner t h => h
    refine howner.bind fun owner t hfound => (startConstruction_ensures owner.decl.fullName t).bind ?_
    rintro g u ⟨owner', _, hlocal, hctor, hdefault⟩
    exact .pure (.constructs hi (.refl _) hfound hlocal hctor hdefault)
  | binary op =>
    refine Frame.pop_ensures fun right g hg => Frame.pop_ensures fun left g' hg' => Run.Ensures.get_bind ?_
    exact .ofExcept_bind fun v _ => hpush (hg.trans hg') v
  | compare op =>
    refine Frame.pop_ensures fun right g hg => Frame.pop_ensures fun left g' hg' => Run.Ensures.get_bind ?_
    exact .after fun b t => hpush (hg.trans hg') _
  | not =>
    refine Frame.pop_ensures fun v g hg => Run.Ensures.get_bind ?_
    exact .ofExcept_bind fun b _ => hpush hg _
  | jumpIfTrue n =>
    refine Frame.pop_ensures fun v g hg => Run.Ensures.get_bind (.ofExcept_bind fun b _ => ?_)
    split
    · exact hjump hg rfl
    · exact hgo hg
  | jumpIfFalse n =>
    refine Frame.pop_ensures fun v g hg => Run.Ensures.get_bind (.ofExcept_bind fun b _ => ?_)
    split
    · exact hgo hg
    · exact hjump hg rfl
  | pop => exact Frame.pop_ensures fun v g hg => hgo hg
  | ret =>
    have hends (g : Frame) (v : Value) : Follows env.host s f below (finish g below v) := by
      unfold finish
      split
      · exact .ends _
      · refine .returns rfl ?_
        unfold Frame.giveBack
        split
        · exact ⟨rfl, rfl⟩
        split
        · exact .refl _
        · exact ⟨rfl, rfl⟩
    simp only [execute]
    split
    · exact .pure (hends _ _)
    · exact Frame.pop_ensures fun v g _ => .pure (hends _ _)
  | throw => exact Frame.pop_ensures fun v g hg => Run.Ensures.get_bind .throw
  | dispatch site =>
    refine .after fun outcome t => ?_
    cases outcome <;> exact .pure (.stays ⟨rfl, .inl rfl⟩)

theorem step_follows (f : Frame) (below : List Frame) (s : State ω) :
    (step env run f below).Ensures s fun t _ => Follows env.host s f below t := by
  unfold step
  split
  · rename_i i hi
    exact execute_follows hi below s
  · exact .throw

end Machine
end MobileCode
