import MobileCode.Proofs.Invocations

/-! # Types with a split method

The body of a relayed or replayed method moves to a sibling. Two domains that differ in such a type alone hold the
same objects and static fields, and the same types, methods and modules are found in them, but for the method and
its sibling.
-/
namespace MobileCode

/-! ## Runs in two domains -/

namespace Run
variable {σ α β γ δ : Type}

/-- Both have no answer, or their results or errors are related, in related states. -/
inductive Agrees (S : σ → σ → Prop) (E : Error → Error → Prop) (R : α → β → Prop) :
    Option (Except Error α × σ) → Option (Except Error β × σ) → Prop
  | none : Agrees S E R none none
  | error {e e' : Error} {s t : σ} : E e e' → S s t → Agrees S E R (some (.error e, s)) (some (.error e', t))
  | ok {a : α} {b : β} {s t : σ} : R a b → S s t → Agrees S E R (some (.ok a, s)) (some (.ok b, t))

/-- The computations agree from all related states. -/
def Mirrors (S : σ → σ → Prop) (E : Error → Error → Prop) (R : α → β → Prop) (x : Run σ α) (y : Run σ β) : Prop :=
  ∀ s t, S s t → Agrees S E R (x s) (y t)

variable {S : σ → σ → Prop} {E : Error → Error → Prop} {R : α → β → Prop} {Q : γ → δ → Prop}

theorem Agrees.mono {E' : Error → Error → Prop} {R' : α → β → Prop} {u : Option (Except Error α × σ)}
    {v : Option (Except Error β × σ)} (h : Agrees S E R u v) (hE : ∀ e e', E e e' → E' e e')
    (hR : ∀ a b, R a b → R' a b) : Agrees S E' R' u v := by
  cases h with
  | none => exact .none
  | error he hs => exact .error (hE _ _ he) hs
  | ok hab hs => exact .ok (hR _ _ hab) hs

theorem Agrees.eq_none_iff {u : Option (Except Error α × σ)} {v : Option (Except Error β × σ)}
    (h : Agrees S E R u v) : u = .none ↔ v = .none := by
  cases h <;> simp

theorem Agrees.bind {x : Run σ α} {y : Run σ β} {f : α → Run σ γ} {g : β → Run σ δ} {s t : σ}
    (h : Agrees S E R (x s) (y t)) (hf : ∀ a b s' t', R a b → S s' t' → Agrees S E Q (f a s') (g b t')) :
    Agrees S E Q ((x >>= f) s) ((y >>= g) t) := by
  rw [bind_apply, bind_apply]
  generalize x s = u at h
  generalize y t = v at h
  cases h with
  | none => exact .none
  | error he hs => exact .error he hs
  | ok hab hs => exact hf _ _ _ _ hab hs

namespace Mirrors

theorem mono {E' : Error → Error → Prop} {R' : α → β → Prop} {x : Run σ α} {y : Run σ β} (h : Mirrors S E R x y)
    (hE : ∀ e e', E e e' → E' e e') (hR : ∀ a b, R a b → R' a b) : Mirrors S E' R' x y :=
  fun s t hs => (h s t hs).mono hE hR

theorem pure {a : α} {b : β} (h : R a b) : Mirrors S E R (Pure.pure a) (Pure.pure b) := fun _ _ hs => .ok h hs

theorem throw {e e' : Error} (h : E e e') : Mirrors S E R (MonadExcept.throw e) (MonadExcept.throw e') :=
  fun _ _ hs => .error h hs

theorem bind {x : Run σ α} {y : Run σ β} {f : α → Run σ γ} {g : β → Run σ δ} (h : Mirrors S E R x y)
    (hf : ∀ a b, R a b → Mirrors S E Q (f a) (g b)) : Mirrors S E Q (x >>= f) (y >>= g) :=
  fun s t hs => (h s t hs).bind fun a b s' t' hab hs' => hf a b hab s' t' hs'

theorem ofOption {E : Error → Error → Prop} (x : Option α) : Mirrors S E Eq (Run.ofOption x) (Run.ofOption x) := by
  cases x with
  | none => exact fun _ _ _ => .none
  | some a => exact .pure rfl

theorem update {f g : σ → σ} (h : ∀ s t, S s t → S (f s) (g t)) :
    Mirrors S E Eq (modify f : Run σ Unit) (modify g) := fun s t hs => .ok rfl (h s t hs)

end Mirrors
end Run

/-! ## Types in two versions -/

/-- The argument that an instruction reads or sets. -/
def Instruction.argument? {α : Type} : Instruction α → Option UInt16
  | .loadArg n | .storeArg n => some n
  | _ => none

/-- The instructions read and set the first `k` arguments alone. -/
def ArgumentsBelow {α : Type} (k : Nat) (body : List (Instruction α)) : Prop :=
  ∀ i ∈ body, ∀ n, i.argument? = some n → n.toNat < k

/-- A method of a loaded type that was made mobile in another mode than the normal one, so that a sibling holds its
body. -/
structure Split where
  /-- The module that holds the type. -/
  module : String
  client : String
  type : TypeDecl Value
  index : Nat
  mobility : Mobility
  closure : Closure
  done : Mobilized
  mobile : TypeDecl Value
  method : MethodDecl Value
  mobilized : type.mobilize client module index mobility closure = .ok (done, mobile)
  found : type.methods[index]? = some method
  moved : mobility.mode ≠ .normal
  inside : BranchesInside method.body
  words : method.body.length < 2 ^ 63
  /-- The body takes no notice of further arguments. -/
  arguments : ArgumentsBelow method.params.length method.body
  quiet : ∀ site, .dispatch site ∉ method.body

namespace Split
variable (x : Split)

def site : DispatchSite := x.mobility.site x.client x.type.fullName x.method

/-- The method that holds the body now. -/
def sibling : MethodDecl Value := x.method.relaySibling x.site

/-- What stands before the body there. -/
def front : List (Instruction Value) := x.site.relayFront

/-- The method, marked with the way it is to run. -/
def marked : MethodDecl Value := { x.method with mobility := some x.mobility }

/-- What stands in the place of the method. -/
def stub : MethodDecl Value := x.marked.mobileForm x.client x.type.fullName x.closure

theorem mobile_eq : x.mobile = { x.type with methods := x.type.methods.set x.index x.stub ++ [x.sibling] } := by
  obtain ⟨_, _, _, hmobile⟩ := TypeDecl.mobilize_eq_ok x.mobilized x.found
  have hsibling : x.marked.sibling? x.client x.type.fullName = some x.sibling := by
    rw [MethodDecl.sibling?, MethodDecl.mobilize_moved (d := x.marked) x.moved]
    rfl
  have htarget : (x.type.target x.index x.mobility x.method).method = x.marked := rfl
  rw [hmobile, htarget, hsibling]
  rfl

theorem movable : x.marked.Movable :=
  (TypeDecl.mobilize_eq_ok x.mobilized x.found).1

theorem stub_eq : x.stub = { x.method with
    body := x.method.stubBody x.type.fullName x.sibling
    locals := 0
    relayBody := some (relayBodyName x.method.name)
    flags := x.method.flags ||| MethodFlags.mobilized, mobility := some x.mobility, closure := some x.closure } :=
  MethodDecl.mobileForm_moved (d := x.marked) x.moved x.closure

theorem fullName : x.mobile.fullName = x.type.fullName := by
  rw [x.mobile_eq]
  rfl

theorem fields : x.mobile.fields = x.type.fields := by
  rw [x.mobile_eq]

/-- What is found in the two versions is the same, but for the method itself and for its sibling. -/
theorem method?_eq (name : String) (types : List String) :
    x.mobile.method? name types = x.type.method? name types ∨
      x.type.method? name types = some x.method ∧ x.mobile.method? name types = some x.stub ∨
      x.type.method? name types = none ∧ x.mobile.method? name types = some x.sibling := by
  have hmatches : (decide (x.stub.name = name) && x.stub.hasSignature types) =
      (decide (x.method.name = name) && x.method.hasSignature types) := by
    rw [x.stub_eq]
    rfl
  have hset := List.find?_set_eq (p := fun m => m.name = name && m.hasSignature types) x.found hmatches
  simp only [TypeDecl.method?, x.mobile_eq, List.find?_append]
  obtain hset | ⟨hfound, hset⟩ := hset
  · rw [hset]
    cases x.type.methods.find? fun m => m.name = name && m.hasSignature types with
    | some m => exact .inl rfl
    | none =>
      rw [Option.none_or, List.find?_singleton]
      split
      · exact .inr (.inr ⟨rfl, rfl⟩)
      · exact .inl rfl
  · rw [hset]
    exact .inr (.inl ⟨hfound, rfl⟩)

/-- A reference to a method of the type means neither the method nor its sibling. -/
structure Spares (name : String) (types : List String) : Prop where
  method : name = x.method.name → types ≠ x.method.paramTypes
  sibling : name = x.sibling.name → types ≠ x.sibling.paramTypes

theorem others {name : String} {types : List String} (h : x.Spares name types) :
    x.mobile.method? name types = x.type.method? name types := by
  have hfound {t : TypeDecl Value} {d : MethodDecl Value} (hd : t.method? name types = some d) :
      name = d.name ∧ types = d.paramTypes := by
    have hmatches := List.find?_some hd
    simp only [MethodDecl.hasSignature, Bool.and_eq_true, decide_eq_true_eq] at hmatches
    exact ⟨hmatches.1.symm, hmatches.2.symm⟩
  obtain hsame | ⟨hmethod, _⟩ | ⟨_, hsibling⟩ := x.method?_eq name types
  · exact hsame
  · exact absurd (hfound hmethod).2 (h.method (hfound hmethod).1)
  · exact absurd (hfound hsibling).2 (h.sibling (hfound hsibling).1)

theorem static : x.method.isStatic = true := x.movable.static x.moved

theorem stub_static : x.stub.isStatic = true := by
  have hstatic : (x.method.flags ||| MethodFlags.mobilized).has MethodFlags.static =
      x.method.flags.has MethodFlags.static := Flags.has_union (by decide) _
  rw [x.stub_eq]
  exact hstatic.trans x.static

theorem sibling_static : x.sibling.isStatic = true := by
  show ((x.method.flags ||| MethodFlags.relayBody ||| MethodFlags.mobilized).without MethodFlags.mobile).has _ = _
  rw [Flags.has_without (by decide), Flags.has_union (by decide), Flags.has_union (by decide)]
  exact x.static

theorem constructors : (x.mobile.method? constructorName []).filter (·.isDefaultConstructor) =
    (x.type.method? constructorName []).filter (·.isDefaultConstructor) := by
  have hstatic {d : MethodDecl Value} (h : d.isStatic = true) : d.isDefaultConstructor = false := by
    rw [MethodDecl.isDefaultConstructor, h, Bool.not_true, Bool.and_false, Bool.false_and]
  obtain hsame | ⟨hmethod, hstub⟩ | ⟨hnone, hsibling⟩ := x.method?_eq constructorName []
  · rw [hsame]
  · rw [hmethod, hstub]
    simp only [Option.filter, hstatic x.static, hstatic x.stub_static, Bool.false_eq_true, if_false]
  · rw [hnone, hsibling]
    simp only [Option.filter, hstatic x.sibling_static, Bool.false_eq_true, if_false]

theorem behind : Behind Eq x.front x.method.body x.sibling.body := by
  have hfront : x.front.length ≤ 6 := x.site.length_relayFront_le
  have hwords := x.words
  exact behind_inFrontOf x.inside (by omega)

/-- What is found under the name of a type: the two versions of the type, or the same. -/
structure Types (name : String) (t u : TypeHandle) : Prop where
  module : u.module.name = t.module.name
  decl : u.decl = t.decl ∨ name = x.type.fullName ∧ t.decl = x.type ∧ u.decl = x.mobile

/-- Domains that hold one version each, in a module of the same name. -/
structure Domains (d e : Domain) : Prop where
  host : e.hostName = d.hostName
  digest : e.digest = d.digest
  limit : e.maxDepth = d.maxDepth
  heap : e.heap = d.heap
  statics : e.statics = d.statics
  loaded : d.module? x.module ≠ none
  modules : ∀ name, Option.Rel (fun m n : LoadedModule => name ≠ x.module → n.hash = m.hash) (d.module? name)
    (e.module? name)
  types : ∀ name, Option.Rel (x.Types name) (d.type? name) (e.type? name)

structure States {ω : Type} (s t : State ω) : Prop where
  domain : x.Domains s.domain t.domain
  outside : t.outside = s.outside

/-- The same method of both versions of its type. -/
structure Same (m n : MethodHandle) : Prop where
  module : n.module.name = m.module.name
  owner : n.owner.fullName = m.owner.fullName
  decl : n.decl = m.decl

/-- The method, and the sibling that holds its body. -/
structure Parts (m n : MethodHandle) : Prop where
  module : n.module.name = m.module.name
  owner : m.owner.fullName = x.type.fullName
  siblingOwner : n.owner.fullName = x.type.fullName
  method : m.decl = x.method
  sibling : n.decl = x.sibling

/-- A method and one that has the same code `k` positions further on, and may be given further arguments. -/
inductive Methods : Nat → List Value → MethodHandle → MethodHandle → Prop
  | same {m n : MethodHandle} : Same m n → Methods 0 [] m n
  | parts {m n : MethodHandle} (extra : List Value) : x.Parts m n → Methods x.front.length extra m n

/-- The computations do the same with either version of the type. -/
abbrev Mirrors {ω α β : Type} (R : α → β → Prop) (a : Run (State ω) α) (b : Run (State ω) β) : Prop :=
  Run.Mirrors x.States Eq R a b

/-- The resolver hands out the module under no other name. -/
def Faithful {ω : Type} (resolve : String → Run ω (Option Bytes)) : Prop :=
  ∀ name o bytes o' m, resolve name o = some (.ok (some bytes), o') → Module.ofFile bytes = .ok m →
    m.name = x.module → name = x.module

/-- Neither the native methods nor the resolver can tell the two versions apart. -/
structure Indifferent {ω : Type} (host : Host ω) : Prop where
  natives : ∀ n ∈ host.natives, ∀ args, x.Mirrors Eq (n.2.call args) (n.2.call args)
  resolver : ∀ resolve, host.resolver = some resolve → x.Faithful resolve

variable {x}

namespace Types
variable {name : String} {t u : TypeHandle}

theorem refl (name : String) (t : TypeHandle) : x.Types name t t := ⟨rfl, .inl rfl⟩

theorem fullName (h : x.Types name t u) : u.decl.fullName = t.decl.fullName := by
  obtain hsame | ⟨_, ht, hu⟩ := h.decl
  · rw [hsame]
  · rw [ht, hu, x.fullName]

theorem fields (h : x.Types name t u) : u.decl.fields = t.decl.fields := by
  obtain hsame | ⟨_, ht, hu⟩ := h.decl
  · rw [hsame]
  · rw [ht, hu, x.fields]

theorem field? (h : x.Types name t u) (field : String) : u.decl.field? field = t.decl.field? field := by
  rw [TypeDecl.field?, TypeDecl.field?, h.fields]

theorem constructors (h : x.Types name t u) :
    (u.decl.method? constructorName []).filter (·.isDefaultConstructor) =
      (t.decl.method? constructorName []).filter (·.isDefaultConstructor) := by
  obtain hsame | ⟨_, ht, hu⟩ := h.decl
  · rw [hsame]
  · rw [ht, hu, x.constructors]

/-- All other methods are found in both versions. -/
theorem method? (h : x.Types name t u) {method : String} {types : List String}
    (hother : name = x.type.fullName → x.Spares method types) :
    u.decl.method? method types = t.decl.method? method types := by
  obtain hsame | ⟨hname, ht, hu⟩ := h.decl
  · rw [hsame]
  · rw [ht, hu]
    exact x.others (hother hname)

end Types

/-! ### Loading further modules -/

theorem Domains.withHeap {d e : Domain} (h : x.Domains d e) (heap : Heap) :
    x.Domains { d with heap } { e with heap } := { h with heap := rfl }

theorem Domains.withStatics {d e : Domain} (h : x.Domains d e) (statics : Dict (Dict Value)) :
    x.Domains { d with statics } { e with statics } := { h with statics := rfl }

/-- In a domain that holds the one version the other one takes its place. -/
theorem Domains.insert {d : Domain} {l l' : LoadedModule} (hname : l'.name = l.name)
    (htype : d.type? x.type.fullName = some ⟨l, x.type⟩) (hloaded : d.module? x.module ≠ none) :
    x.Domains d { d with types := d.types.insert x.type.fullName ⟨l', x.mobile⟩ } where
  host := rfl
  digest := rfl
  limit := rfl
  heap := rfl
  statics := rfl
  loaded := hloaded
  modules name := by
    show Option.Rel _ (d.module? name) (d.module? name)
    cases d.module? name with
    | none => exact .none
    | some m => exact .some fun _ => rfl
  types name := by
    show Option.Rel _ (d.type? name) (Dict.find? _ name)
    rw [Dict.find?_insert]
    split
    · rename_i he
      rw [he, htype]
      exact .some ⟨hname, .inr ⟨rfl, rfl, rfl⟩⟩
    · show Option.Rel _ (d.type? name) (d.type? name)
      cases d.type? name with
      | none => exact .none
      | some t => exact .some (.refl name t)

theorem Domains.clash? {d e : Domain} (h : x.Domains d e) (m : Module Value) : e.clash? m = d.clash? m := by
  refine congrArg (fun f => List.findSome? f _) (funext fun t => ?_)
  have ht := h.types t.fullName
  generalize d.type? t.fullName = a at ht ⊢
  generalize e.type? t.fullName = b at ht ⊢
  cases ht with
  | none => rfl
  | some htu => rw [Option.map_some, Option.map_some, htu.module]

/-- What the indices of two domains hold stays related when the same is added to both. -/
theorem find?_foldl_insert_rel {β γ : Type} {R : String → γ → γ → Prop} (hR : ∀ name v, R name v v) (key : β → String)
    (value : β → γ) (xs : List β) {d e : Dict γ} (h : ∀ name, Option.Rel (R name) (d.find? name) (e.find? name))
    (name : String) : Option.Rel (R name) ((xs.foldl (fun d b => d.insert (key b) (value b)) d).find? name)
      ((xs.foldl (fun d b => d.insert (key b) (value b)) e).find? name) := by
  induction xs generalizing d e with
  | nil => exact h name
  | cons b xs ih =>
    refine ih fun name => ?_
    rw [Dict.find?_insert, Dict.find?_insert]
    split
    · exact .some (hR name _)
    · exact h name

theorem Domains.enter {d e : Domain} (h : x.Domains d e) {l : LoadedModule} (hname : l.name ≠ x.module) :
    x.Domains (d.enter l) (e.enter l) := by
  rw [Domain.enter_eq, Domain.enter_eq]
  refine { h with
    heap := h.heap
    statics := by rw [h.statics]
    loaded := ?_
    modules := fun name => ?_
    types := find?_foldl_insert_rel (fun name t => .refl name t) _ _ _ h.types }
  · show Dict.find? _ _ ≠ none
    rw [Dict.find?_insert, if_neg (Ne.symm hname)]
    exact h.loaded
  · show Option.Rel _ (Dict.find? _ _) (Dict.find? _ _)
    rw [Dict.find?_insert, Dict.find?_insert]
    split
    · exact .some fun _ => rfl
    · exact h.modules name

/-- Another module is registered in both domains or in neither. -/
theorem Domains.register {d e : Domain} (h : x.Domains d e) {m : Module Datum} (hm : m.name ≠ x.module)
    (bytes : Bytes) (path : Option String) :
    (∃ err, d.register m bytes path = .error err ∧ e.register m bytes path = .error err) ∨
      ∃ l l' d' e', d.register m bytes path = .ok (l, d') ∧ e.register m bytes path = .ok (l', e') ∧
        x.Domains d' e' := by
  have hmod := h.modules m.name
  have hhash : e.digest.digest bytes = d.digest.digest bytes := by rw [h.digest]
  cases hd : d.module? m.name with
  | some l =>
    rw [hd] at hmod
    simp only [Domain.register, hhash, hd]
    generalize e.module? m.name = b at hmod
    cases hmod with
    | @some _ l' hl =>
    simp only [hl hm]
    split
    · exact .inr ⟨l, l', d, e, rfl, rfl, h⟩
    · exact .inl ⟨_, rfl, rfl⟩
  | none =>
    rw [hd] at hmod
    simp only [Domain.register, hhash, hd]
    generalize e.module? m.name = b at hmod
    cases hmod
    simp only [h.heap]
    have hcode : ((Domain.instantiate m).run d.heap).1.name = m.name :=
      congrArg Module.name (m.instantiate_shape d.heap)
    generalize (Domain.instantiate m).run d.heap = a at hcode
    obtain ⟨code, heap⟩ := a
    simp only [h.clash?]
    split
    · exact .inl ⟨_, rfl, rfl⟩
    · refine .inr ⟨_, _, _, _, rfl, rfl, ?_⟩
      exact (h.withHeap heap).enter (l := ⟨code, bytes, d.digest.digest bytes, path⟩) (hcode.trans_ne hm)

/-! ### Hosts -/

section Hosts
variable {ω : Type} {host : Host ω}

theorem getHeap_mirrors : x.Mirrors Eq (State.getHeap : Run (State ω) Heap) State.getHeap :=
  fun _ _ hs => .ok hs.domain.heap.symm hs

theorem modifyHeap_mirrors (f : Heap → Heap) :
    x.Mirrors Eq (State.modifyDomain fun d => { d with heap := f d.heap } : Run (State ω) Unit)
      (State.modifyDomain fun d => { d with heap := f d.heap }) := by
  refine .update fun s t hs => ⟨?_, hs.outside⟩
  show x.Domains _ { t.domain with heap := f t.domain.heap }
  rw [hs.domain.heap]
  exact hs.domain.withHeap _

theorem alloc_mirrors (o : Object) : x.Mirrors Eq (State.alloc o : Run (State ω) Ref) (State.alloc o) := by
  refine getHeap_mirrors.bind ?_
  rintro heap _ rfl
  exact (modifyHeap_mirrors fun _ => (heap.alloc o).2).bind fun _ _ _ => .pure rfl

variable (hhost : x.Indifferent host)
include hhost

theorem resolveModule_agrees {name : String} {s t : State ω} (hs : x.States s t)
    (hnew : s.domain.module? name = none) :
    Run.Agrees x.States Eq Eq (host.resolveModule name s) (host.resolveModule name t) := by
  have hne : name ≠ x.module := fun he => hs.domain.loaded (he ▸ hnew)
  unfold Host.resolveModule
  cases hresolver : host.resolver with
  | none => exact .ok rfl hs
  | some resolve =>
    have hfaithful := hhost.resolver resolve hresolver
    refine Run.Agrees.bind (R := fun a b => b = a ∧ ∀ bytes, a = some bytes → ∀ m,
      Module.ofFile bytes = .ok m → m.name ≠ x.module) ?_ ?_
    · unfold State.onOutside Run.zoom
      simp only [hs.outside]
      rcases hfound : resolve name s.outside with _ | ⟨err | found, o⟩
      · exact .none
      · exact .error rfl ⟨hs.domain, rfl⟩
      · exact .ok ⟨rfl, fun bytes hb m hm he => hne (hfaithful name s.outside bytes o m (hb ▸ hfound) hm he)⟩
          ⟨hs.domain, rfl⟩
    · rintro _ a s' t' ⟨rfl, hb⟩ hs'
      cases a with
      | none => exact .ok rfl hs'
      | some bytes =>
        refine Run.Agrees.bind (R := fun _ _ => True) ?_ fun _ _ _ _ _ hs' => .ok rfl hs'
        unfold State.loadFile
        rw [Run.get_bind, Run.get_bind]
        simp only [Domain.loadFile]
        cases hm : Module.ofFile bytes with
        | error err => exact .error rfl hs'
        | ok m =>
          simp only [bind, Except.bind]
          obtain ⟨err, hd, he⟩ | ⟨l, l', d, e, hd, he, hdomains⟩ := hs'.domain.register (hb bytes rfl m hm) bytes none
          · rw [hd, he]
            exact .error rfl hs'
          · rw [hd, he]
            exact .ok trivial ⟨hdomains, hs'.outside⟩

/-- Both domains have the type that a reference means, or neither has it. -/
theorem resolveType_mirrors (r : TypeRef) :
    x.Mirrors (x.Types r.fullName) (host.resolveType r) (host.resolveType r) := by
  intro s t hs
  unfold Host.resolveType
  rw [Run.get_bind, Run.get_bind]
  have htype := hs.domain.types r.fullName
  generalize s.domain.type? r.fullName = a at htype
  generalize t.domain.type? r.fullName = b at htype
  cases htype with
  | some htu => exact .ok htu hs
  | none =>
    cases r.scope with
    | none => exact .error rfl hs
    | some scope =>
      simp only [Run.get_bind]
      have hmod := hs.domain.modules scope
      generalize hnew : s.domain.module? scope = a at hmod
      generalize t.domain.module? scope = b at hmod
      cases hmod with
      | some _ => exact .error rfl hs
      | none =>
        refine (resolveModule_agrees hhost hs hnew).bind ?_
        rintro found _ s' t' rfl hs'
        cases found with
        | false => exact .error rfl hs'
        | true =>
          simp only [if_true, Run.get_bind]
          have htype := hs'.domain.types r.fullName
          generalize s'.domain.type? r.fullName = a at htype
          generalize t'.domain.type? r.fullName = b at htype
          cases htype with
          | some htu => exact .ok htu hs'
          | none => exact .error rfl hs'

theorem resolveMethod_mirrors {m : MethodRef}
    (hother : m.owner.fullName = x.type.fullName → x.Spares m.name m.paramTypes) :
    x.Mirrors Same (host.resolveMethod m) (host.resolveMethod m) := by
  refine (resolveType_mirrors hhost m.owner).bind fun t u htu => ?_
  simp only [TypeHandle.method?, htu.method? hother, htu.module]
  cases t.decl.method? m.name m.paramTypes with
  | none => exact .throw rfl
  | some d => exact .pure ⟨htu.module, htu.fullName, rfl⟩

theorem staticsWith_mirrors (type field : String) :
    x.Mirrors Eq (host.staticsWith type field) (host.staticsWith type field) := by
  refine (resolveType_mirrors hhost ⟨none, type⟩).bind fun t u htu => ?_
  rw [htu.field?]
  split
  · intro s s' hs
    rw [Run.get_bind, Run.get_bind, hs.domain.statics]
    cases s.domain.statics.find? type with
    | none => exact .error rfl hs
    | some fields => exact .ok rfl hs
  · exact .throw rfl

theorem getStatic_mirrors (type field : String) :
    x.Mirrors Eq (host.getStatic type field) (host.getStatic type field) := by
  refine (staticsWith_mirrors hhost type field).bind ?_
  rintro fields _ rfl
  cases fields.find? field with
  | none => exact .throw rfl
  | some v => exact .pure rfl

theorem setStatic_mirrors (type field : String) (v : Value) :
    x.Mirrors Eq (host.setStatic type field v) (host.setStatic type field v) := by
  refine (staticsWith_mirrors hhost type field).bind ?_
  rintro fields _ rfl
  refine .update fun s t hs => ⟨?_, hs.outside⟩
  show x.Domains _ { t.domain with statics := t.domain.statics.insert type (fields.insert field v) }
  rw [hs.domain.statics]
  exact hs.domain.withStatics _

theorem native_mirrors {type method : String} {n : Native ω} (hn : host.native? type method = some n)
    (args : List Value) : x.Mirrors Eq (n.call args) (n.call args) := by
  obtain ⟨_, _, hl⟩ := List.lookup_eq_some_iff.mp hn
  exact hhost.natives ((type, method), n) (by simp [hl.1]) args

end Hosts

section Natives
variable {ω : Type}

theorem textOf_mirrors (v : Value) : x.Mirrors Eq (Native.textOf v : Run (State ω) String) (Native.textOf v) :=
  getHeap_mirrors.bind fun _ _ h => .pure (by rw [h])

theorem items_mirrors (method : String) (v : Value) :
    x.Mirrors Eq (Native.items method v : Run (State ω) (List Value)) (Native.items method v) := by
  unfold Native.items
  split
  · exact .pure rfl
  · exact getHeap_mirrors.bind fun _ _ h => .throw (by rw [h])

theorem concat_mirrors (args : List Value) :
    x.Mirrors Eq (Native.concat args : Run (State ω) Value) (Native.concat args) := by
  unfold Native.concat
  split
  · refine (textOf_mirrors _).bind ?_
    rintro a _ rfl
    exact (textOf_mirrors _).bind fun _ _ h => .pure (by rw [h])
  · exact .throw rfl

theorem length_mirrors (args : List Value) :
    x.Mirrors Eq (Native.length args : Run (State ω) Value) (Native.length args) := by
  unfold Native.length
  split
  · exact .pure rfl
  · exact .throw rfl

theorem newList_mirrors (args : List Value) :
    x.Mirrors Eq (Native.newList args : Run (State ω) Value) (Native.newList args) := by
  unfold Native.newList
  split
  · exact .pure rfl
  · exact .throw rfl

theorem threadName_mirrors (thread : Option String) (args : List Value) :
    x.Mirrors Eq (Native.threadName thread args : Run (State ω) Value) (Native.threadName thread args) := by
  unfold Native.threadName
  split
  · exact .pure rfl
  · exact .throw rfl

theorem toText_mirrors (args : List Value) :
    x.Mirrors Eq (Native.toText args : Run (State ω) Value) (Native.toText args) := by
  unfold Native.toText
  split
  · exact (textOf_mirrors _).bind fun _ _ h => .pure (by rw [h])
  · exact .throw rfl

theorem append_mirrors (args : List Value) :
    x.Mirrors Eq (Native.append args : Run (State ω) Value) (Native.append args) := by
  unfold Native.append
  split
  · exact .pure rfl
  · exact (items_mirrors _ _).bind fun _ _ h => .pure (by rw [h])
  · exact .throw rfl

theorem listCount_mirrors (args : List Value) :
    x.Mirrors Eq (Native.listCount args : Run (State ω) Value) (Native.listCount args) := by
  unfold Native.listCount
  split
  · exact .pure rfl
  · exact (items_mirrors _ _).bind fun _ _ h => .pure (by rw [h])
  · exact .throw rfl

theorem listGet_mirrors (args : List Value) :
    x.Mirrors Eq (Native.listGet args : Run (State ω) Value) (Native.listGet args) := by
  unfold Native.listGet
  split
  · refine (items_mirrors _ _).bind ?_
    rintro xs _ rfl
    dsimp only
    split
    · exact .pure rfl
    · exact getHeap_mirrors.bind fun _ _ h => .throw (by rw [h])
  · exact .throw rfl

theorem machineName_mirrors (args : List Value) :
    x.Mirrors Eq (Native.machineName args : Run (State ω) Value) (Native.machineName args) := by
  unfold Native.machineName
  split
  · intro s t hs
    rw [Run.get_bind, Run.get_bind, hs.domain.host]
    exact .ok rfl hs
  · exact .throw rfl

/-- The native methods every host has cannot tell the versions apart. -/
theorem indifferent_of_standard {host : Host ω} (hnatives : host.natives = Native.standard host.thread)
    (hresolver : host.resolver = none) : x.Indifferent host where
  natives n hn args := by
    rw [hnatives] at hn
    simp only [Native.standard, List.mem_cons, List.not_mem_nil, or_false] at hn
    obtain rfl | rfl | rfl | rfl | rfl | rfl | rfl | rfl | rfl := hn
    · exact concat_mirrors args
    · exact length_mirrors args
    · exact toText_mirrors args
    · exact newList_mirrors args
    · exact append_mirrors args
    · exact listCount_mirrors args
    · exact listGet_mirrors args
    · exact machineName_mirrors args
    · exact threadName_mirrors host.thread args
  resolver _ h := nomatch hresolver.symm.trans h

end Natives
end Split
end MobileCode
