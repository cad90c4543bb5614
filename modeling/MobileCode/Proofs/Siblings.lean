import MobileCode.Proofs.Splits

/-! # Siblings

With the marker set a sibling is the method that its body came from: the two run in step.
-/
namespace MobileCode
open Machine

/-- The frame as a method that has the same code `k` positions further on executes it. -/
def Frame.movedTo (f : Frame) (m : MethodHandle) (extra : List Value) (k : Nat) : Frame :=
  { f with method := m, args := f.args ++ extra, position := f.position + k }

namespace Split
variable (x : Split)

/-- The same error; for the method it may name the sibling, at the position that the code has there. -/
inductive Errors : Error → Error → Prop
  | same (e : Error) : Errors e e
  | thrown (message : String) : Errors (.thrown x.type.fullName x.method.name message)
    (.thrown x.type.fullName x.sibling.name message)
  | notAnObject (type : String) : Errors (.invalid (.notAnObject (x.method.key x.type.fullName) type))
    (.invalid (.notAnObject (x.sibling.key x.type.fullName) type))
  | thisInStatic : Errors (.malformed (.thisInStatic (x.method.key x.type.fullName)))
    (.malformed (.thisInStatic (x.sibling.key x.type.fullName)))
  | ranPastEnd (p : Nat) : Errors (.malformed (.ranPastEnd (x.method.key x.type.fullName) p))
    (.malformed (.ranPastEnd (x.sibling.key x.type.fullName) (p + x.front.length)))

/-- The method has the code of the frame, and the frame has the arguments that the code takes notice of. -/
structure Carries (k : Nat) (extra : List Value) (m : MethodHandle) (f : Frame) : Prop where
  methods : x.Methods k extra f.method m
  arguments : extra = [] ∨ f.method.decl.params.length ≤ f.args.length

/-- The second frame executes the code of the first one. -/
def Frames (f g : Frame) : Prop := ∃ k extra m, x.Carries k extra m f ∧ g = f.movedTo m extra k

inductive Transitions : Transition → Transition → Prop
  | next {f g : Frame} {below below' : List Frame} : x.Frames f g → List.Forall₂ x.Frames below below' →
    Transitions (.next f below) (.next g below')
  | done (v : Value) : Transitions (.done v) (.done v)

/-- What the instructions make of two stacks. -/
abbrev Steps {ω : Type} (a b : Run (State ω) Transition) : Prop := Run.Mirrors x.States x.Errors x.Transitions a b

/-- What a client answers to a call, and what it does in the domain meanwhile, does not depend on the version of the
type. -/
def Ignored {ω : Type} (env : Environment ω) (client : String) : Prop :=
  ∀ p, env.dispatcher? client = some p → ∀ budget site r args,
    x.Mirrors Eq (p.dispatch env.host (runner env budget) site r args)
      (p.dispatch env.host (runner env budget) site r args)

variable {x}

theorem Mirrors.exact {ω α β : Type} {R : α → β → Prop} {a : Run (State ω) α} {b : Run (State ω) β}
    (h : x.Mirrors R a b) : Run.Mirrors x.States x.Errors R a b :=
  h.mono (fun _ _ he => he ▸ .same _) fun _ _ hab => hab

/-- Both read the same heap. -/
theorem readHeap {ω α β : Type} {R : α → β → Prop} {a : Heap → Run (State ω) α} {b : Heap → Run (State ω) β}
    (h : ∀ heap, Run.Mirrors x.States x.Errors R (a heap) (b heap)) :
    Run.Mirrors x.States x.Errors R (State.getHeap >>= a) (State.getHeap >>= b) :=
  getHeap_mirrors.exact.bind fun heap _ hheap => hheap ▸ h heap

/-- Both take the same truth from a value. -/
theorem readTruth {ω α β : Type} {R : α → β → Prop} (v : Value) {a : Bool → Run (State ω) α}
    {b : Bool → Run (State ω) β} (h : ∀ c, Run.Mirrors x.States x.Errors R (a c) (b c)) :
    Run.Mirrors x.States x.Errors R (State.getHeap >>= fun heap => Run.ofExcept (truth heap v) >>= a)
      (State.getHeap >>= fun heap => Run.ofExcept (truth heap v) >>= b) := by
  refine readHeap fun heap => ?_
  cases truth heap v with
  | error e => exact .throw (.same _)
  | ok c => exact h c

theorem Same.key {m n : MethodHandle} (h : Same m n) : n.key = m.key := by
  rw [MethodHandle.key, MethodHandle.key, h.owner, h.decl]

namespace Methods
variable {k : Nat} {extra : List Value} {m n : MethodHandle}

theorem module (h : x.Methods k extra m n) : n.module.name = m.module.name := by
  cases h with
  | same h => exact h.module
  | parts _ h => exact h.module

theorem isVoid (h : x.Methods k extra m n) : n.decl.isVoid = m.decl.isVoid := by
  cases h with
  | same h => rw [h.decl]
  | parts _ h =>
    rw [h.method, h.sibling]
    rfl

/-- The next instruction is the same, wherever the code stands. -/
theorem next (h : x.Methods k extra m n) (p : Nat) :
    Option.Rel (Instruction.Moved Eq k) m.decl.body[p]? n.decl.body[p + k]? := by
  cases h with
  | same h =>
    rw [h.decl]
    exact Forall₂.getElem? (List.forall₂_same.mpr fun _ _ => .refl fun _ _ => rfl) p
  | parts _ h =>
    obtain ⟨rest, hbody, hrest⟩ := x.behind
    rw [h.method, h.sibling, hbody, List.getElem?_append_right (Nat.le_add_left _ _), Nat.add_sub_cancel]
    exact Forall₂.getElem? hrest p

theorem thrown (h : x.Methods k extra m n) (message : String) :
    x.Errors (.thrown m.owner.fullName m.decl.name message) (.thrown n.owner.fullName n.decl.name message) := by
  cases h with
  | same h =>
    rw [h.owner, h.decl]
    exact .same _
  | parts _ h =>
    rw [h.owner, h.siblingOwner, h.method, h.sibling]
    exact .thrown message

/-- An error that names the method, and the position that its code has. -/
theorem errors (h : x.Methods k extra m n) {e : MethodKey → Nat → Error}
    (he : x.Errors (e (x.method.key x.type.fullName) 0) (e (x.sibling.key x.type.fullName) x.front.length)) :
    x.Errors (e m.key 0) (e n.key k) := by
  cases h with
  | same h =>
    rw [h.key]
    exact .same _
  | parts _ h =>
    rw [MethodHandle.key, MethodHandle.key, h.owner, h.siblingOwner, h.method, h.sibling]
    exact he

end Methods

/-! ## Frames -/

namespace Carries
variable {ω : Type} {k : Nat} {extra : List Value} {m : MethodHandle} {f : Frame}

theorem frames (h : x.Carries k extra m f) : x.Frames f (f.movedTo m extra k) := ⟨k, extra, m, h, rfl⟩

/-- The frame may change in all but its method and the number of its arguments. -/
theorem congr (h : x.Carries k extra m f) {g : Frame} (hmethod : g.method = f.method)
    (hargs : g.args.length = f.args.length) : x.Carries k extra m g :=
  ⟨hmethod ▸ h.methods, hmethod ▸ hargs ▸ h.arguments⟩

theorem step {below below' : List Frame} (h : x.Carries k extra m f) (hbelow : List.Forall₂ x.Frames below below') :
    x.Steps (pure (.next f below) : Run (State ω) _) (pure (.next (f.movedTo m extra k) below')) :=
  .pure (.next h.frames hbelow)

/-- A branch leads to the same place in the code. -/
theorem jump {below below' : List Frame} (h : x.Carries k extra m f) (hbelow : List.Forall₂ x.Frames below below')
    {t u : UInt64} (hu : u.toNat = t.toNat + k) :
    x.Steps (pure (.next { f with position := t.toNat } below) : Run (State ω) _)
      (pure (.next { f.movedTo m extra k with position := u.toNat } below')) := by
  have hcarries : x.Carries k extra m { f with position := t.toNat } := h.congr rfl rfl
  rw [hu]
  exact hcarries.step hbelow

variable {β γ : Type} {R : β → γ → Prop}

theorem pop (h : x.Carries k extra m f) {a : Value × Frame → Run (State ω) β} {b : Value × Frame → Run (State ω) γ}
    (hab : ∀ v g, g.method = f.method → x.Carries k extra m g →
      Run.Mirrors x.States x.Errors R (a (v, g)) (b (v, g.movedTo m extra k))) :
    Run.Mirrors x.States x.Errors R (Run.ofExcept f.pop >>= a) (Run.ofExcept (f.movedTo m extra k).pop >>= b) := by
  have hstack : (f.movedTo m extra k).stack = f.stack := rfl
  unfold Frame.pop
  rw [hstack]
  cases f.stack with
  | nil => exact .throw (.same _)
  | cons v rest => exact hab v { f with stack := rest } rfl (h.congr rfl rfl)

theorem popMany (h : x.Carries k extra m f) (n : Nat) {a : List Value × Frame → Run (State ω) β}
    {b : List Value × Frame → Run (State ω) γ} (hab : ∀ vs g, x.Carries k extra m g →
      Run.Mirrors x.States x.Errors R (a (vs, g)) (b (vs, g.movedTo m extra k))) :
    Run.Mirrors x.States x.Errors R (Run.ofExcept (f.popMany n) >>= a)
      (Run.ofExcept ((f.movedTo m extra k).popMany n) >>= b) := by
  have hstack : (f.movedTo m extra k).stack = f.stack := rfl
  unfold Frame.popMany
  rw [hstack]
  split
  · exact .throw (.same _)
  · exact hab _ { f with stack := f.stack.drop n } (h.congr rfl rfl)

theorem popObject (h : x.Carries k extra m f) (heap : Heap) {a : Ref × Frame → Run (State ω) β}
    {b : Ref × Frame → Run (State ω) γ} (hab : ∀ r g, x.Carries k extra m g →
      Run.Mirrors x.States x.Errors R (a (r, g)) (b (r, g.movedTo m extra k))) :
    Run.Mirrors x.States x.Errors R (Run.ofExcept (f.popObject heap) >>= a)
      (Run.ofExcept ((f.movedTo m extra k).popObject heap) >>= b) := by
  have hstack : (f.movedTo m extra k).stack = f.stack := rfl
  unfold Frame.popObject Frame.pop
  rw [hstack]
  cases f.stack with
  | nil => exact .throw (.same _)
  | cons v rest =>
    have hother : x.Errors (.invalid (.notAnObject f.method.key (heap.typeName v)))
        (.invalid (.notAnObject m.key (heap.typeName v))) :=
      h.methods.errors (e := fun key _ => .invalid (.notAnObject key (heap.typeName v))) (.notAnObject _)
    cases v with
    | object r => exact hab r { f with stack := rest } (h.congr rfl rfl)
    | null => exact .throw (h.methods.thrown _)
    | _ => exact .throw hother

/-- The frame has the arguments that its code takes notice of, or was given no further ones. -/
theorem argument (h : x.Carries k extra m f) {i : Instruction Value} (hi : i ∈ f.method.decl.body) {a : UInt16}
    (ha : i.argument? = some a) : extra = [] ∨ a.toNat < f.args.length := by
  obtain ⟨hmethods, hlength⟩ := h
  generalize f.method = n at hmethods hi hlength
  cases hmethods with
  | same _ => exact .inl rfl
  | parts extra h =>
    refine hlength.imp id fun hle => Nat.lt_of_lt_of_le ?_ hle
    rw [h.method] at hi ⊢
    exact x.arguments i hi a ha

/-- The code finds the same arguments. -/
theorem argument_eq (h : x.Carries k extra m f) {a : UInt16} (hi : .loadArg a ∈ f.method.decl.body) :
    (f.movedTo m extra k).args[a.toNat]? = f.args[a.toNat]? := by
  show (f.args ++ extra)[a.toNat]? = f.args[a.toNat]?
  obtain rfl | hlt := h.argument hi rfl
  · rw [List.append_nil]
  · exact List.getElem?_append_left hlt

theorem setArgument (h : x.Carries k extra m f) {below below' : List Frame}
    (hbelow : List.Forall₂ x.Frames below below') {a : UInt16} (hi : .storeArg a ∈ f.method.decl.body) (v : Value) :
    let set (g : Frame) (below : List Frame) : Run (State ω) Transition :=
      if a.toNat < g.args.length then pure (.next { g with args := g.args.set a.toNat v } below)
      else throw (.malformed (.noArgument a.toNat))
    Run.Mirrors x.States x.Errors x.Transitions (set f below) (set (f.movedTo m extra k) below') := by
  have hlength : (f.movedTo m extra k).args.length = f.args.length + extra.length := List.length_append
  by_cases hlt : a.toNat < f.args.length
  · have hset : (f.movedTo m extra k).args.set a.toNat v = f.args.set a.toNat v ++ extra :=
      List.set_append_left _ _ hlt
    have hcarries : x.Carries k extra m { f with args := f.args.set a.toNat v } := h.congr rfl List.length_set
    simp only [hlength, hset, if_pos hlt, if_pos (Nat.lt_add_right extra.length hlt)]
    exact hcarries.step hbelow
  · obtain rfl : extra = [] := (h.argument hi rfl).resolve_right hlt
    simp only [hlength, List.length_nil, Nat.add_zero, if_neg hlt]
    exact .throw (.same _)

end Carries

/-! ## Steps -/

section Steps
variable {ω : Type} {env : Environment ω}

theorem Same.enter {m n : MethodHandle} (h : Same m n) (limit depth : Nat) (r : Option Ref) (args : List Value)
    (constructs : Option Ref) : Frame.enter limit depth n r args constructs =
      (Frame.enter limit depth m r args constructs).map (·.movedTo n [] 0) := by
  have hfirst (vs : List Value) : Frame.first n r vs depth constructs =
      (Frame.first m r vs depth constructs).movedTo n [] 0 := by
    simp only [Frame.first, Frame.movedTo, h.decl, List.append_nil]
  have hbind : Frame.bindArguments n args = Frame.bindArguments m args := by
    rw [Frame.bindArguments_eq, Frame.bindArguments_eq, h.key, h.decl]
  rw [Frame.enter_eq, Frame.enter_eq, hbind, h.decl, h.key]
  split
  · rfl
  split
  · rfl
  split
  · rfl
  · rw [hfirst]
    rfl

/-- A call or a construction enters the same method in both domains. -/
theorem Same.enter_mirrors {m n : MethodHandle} (h : Same m n) (depth : Nat) (r : Option Ref) (args : List Value)
    (constructs : Option Ref) : Run.Mirrors x.States x.Errors x.Frames
      (do Run.ofExcept (Frame.enter (← get).domain.maxDepth depth m r args constructs) : Run (State ω) Frame)
      (do Run.ofExcept (Frame.enter (← get).domain.maxDepth depth n r args constructs)) := by
  intro s t hs
  rw [Run.get_bind, Run.get_bind, hs.domain.limit, h.enter]
  cases hentered : Frame.enter s.domain.maxDepth depth m r args constructs with
  | error e => exact .error (.same _) hs
  | ok f =>
    obtain ⟨vs, _, rfl⟩ := Frame.enter_eq_ok hentered
    exact .ok ⟨0, [], n, ⟨.same h, .inl rfl⟩, rfl⟩ hs

theorem startConstruction_mirrors (hhost : x.Indifferent env.host) (type : String) :
    Run.Mirrors x.States x.Errors x.Frames (startConstruction env.host type) (startConstruction env.host type) := by
  refine (resolveType_mirrors hhost ⟨none, type⟩).exact.bind fun t u htu => ?_
  have hfilter (t : TypeHandle) : (t.method? constructorName []).filter (·.decl.isDefaultConstructor) =
      ((t.decl.method? constructorName []).filter (·.isDefaultConstructor)).map fun d => ⟨t.module, t.decl, d⟩ := by
    rw [TypeHandle.method?, Option.filter_map]
    rfl
  rw [hfilter, hfilter, htu.constructors, htu.fields, htu.module]
  cases (t.decl.method? constructorName []).filter (·.isDefaultConstructor) with
  | none => exact .throw (.same _)
  | some ctor =>
    refine (alloc_mirrors _).exact.bind ?_
    rintro r _ rfl
    exact Same.enter_mirrors (m := ⟨t.module, t.decl, ctor⟩) (n := ⟨u.module, u.decl, ctor⟩)
      ⟨htu.module, htu.fullName, rfl⟩ 0 (some r) [] (some r)

theorem call_mirrors (hhost : x.Indifferent env.host) {k : Nat} {extra : List Value} {n : MethodHandle} {f : Frame}
    (h : x.Carries k extra n f) {below below' : List Frame} (hbelow : List.Forall₂ x.Frames below below')
    {m : MethodRef} (hother : m.owner.fullName = x.type.fullName → x.Spares m.name m.paramTypes) :
    x.Steps (call env.host f below m) (call env.host (f.movedTo n extra k) below' m) := by
  unfold call
  cases hnative : env.host.native? m.owner.fullName m.name with
  | some native =>
    refine h.popMany _ fun args g hg => ?_
    refine (native_mirrors hhost hnative args).exact.bind ?_
    rintro v _ rfl
    cases native.returnsValue with
    | false => exact hg.step hbelow
    | true => exact (hg.congr (g := g.push v) rfl rfl).step hbelow
  | none =>
    refine (resolveMethod_mirrors hhost hother).exact.bind fun a b hab => ?_
    rw [hab.decl]
    have henter {g : Frame} (hg : x.Carries k extra n g) (r : Option Ref) (args : List Value) : x.Steps
        (do return .next (← Run.ofExcept (Frame.enter (← get).domain.maxDepth (g.depth + 1) a r args)) (g :: below)
          : Run (State ω) Transition)
        (do return .next (← Run.ofExcept (Frame.enter (← get).domain.maxDepth (g.depth + 1) b r args))
              (g.movedTo n extra k :: below')) := by
      intro s t hs
      have htop := hab.enter_mirrors (g.depth + 1) r args none s t hs
      rw [Run.get_bind, Run.get_bind] at htop ⊢
      exact htop.bind fun top top' s' t' htop hs' => .ok (.next htop (.cons hg.frames hbelow)) hs'
    refine h.popMany _ fun args g hg => ?_
    cases a.decl.isStatic with
    | true => exact henter hg none args
    | false =>
      simp only [Bool.false_eq_true, if_false]
      exact readHeap fun heap => hg.popObject heap fun r g hg => henter hg (some r) args

theorem finish_mirrors {f g : Frame} (hfg : x.Frames f g) {below below' : List Frame}
    (hbelow : List.Forall₂ x.Frames below below') (v : Value) :
    x.Transitions (finish f below v) (finish g below' v) := by
  obtain ⟨k, extra, n, h, rfl⟩ := hfg
  cases hbelow with
  | nil => exact .done _
  | @cons p _ _ _ hpq hrest =>
    refine .next ?_ hrest
    obtain ⟨k', extra', n', hp, rfl⟩ := hpq
    have hcarries (u : Value) : x.Carries k' extra' n' (p.push u) := hp.congr rfl rfl
    simp only [Frame.giveBack, Frame.movedTo, h.methods.isVoid]
    split
    · exact (hcarries _).frames
    split
    · exact hp.frames
    · exact (hcarries _).frames

theorem dispatch_mirrors {f : Frame} {n : MethodHandle} {k : Nat} {extra : List Value} (h : x.Carries k extra n f)
    {site : DispatchSite} (hsite : .dispatch site ∈ f.method.decl.body) (hignored : x.Ignored env site.client.fullName)
    (budget : Nat) : Run.Mirrors x.States x.Errors Eq (dispatch env (runner env budget) f site)
      (dispatch env (runner env budget) (f.movedTo n extra k) site) := by
  obtain ⟨hmethods, _⟩ := h
  generalize hm : f.method = m at hmethods hsite
  cases hmethods with
  | parts extra h => exact absurd (h.method ▸ hsite) (x.quiet site)
  | same h =>
    unfold dispatch
    cases hp : env.dispatcher? site.client.fullName with
    | none => exact .pure rfl
    | some p =>
      simp only [Frame.movedTo, List.append_nil, h.key, hm]
      split
      · exact .throw (.same _)
      · exact (hignored p hp budget site f.receiver _).exact

theorem binary_mirrors {f : Frame} {n : MethodHandle} {k : Nat} {extra : List Value} (h : x.Carries k extra n f)
    (heap : Heap) (op : BinaryOp) (left right : Value) : Run.Mirrors x.States x.Errors Eq
      (Run.ofExcept (binary heap f op left right) : Run (State ω) Value)
      (Run.ofExcept (binary heap (f.movedTo n extra k) op left right)) := by
  unfold binary
  cases op.apply heap left right with
  | ok v => exact .pure rfl
  | error err =>
    cases err with
    | fault d => exact .throw (h.methods.thrown _)
    | mismatch => exact .throw (.same _)

theorem compare_mirrors (heap : Heap) (op : CompareOp) (left right : Value) : Run.Mirrors x.States x.Errors Eq
    (compare heap op left right : Run (State ω) Bool) (compare heap op left right) := by
  unfold Machine.compare
  cases left.compare? right with
  | some o => exact .pure rfl
  | none =>
    cases op with
    | eq => exact .ofOption _
    | ne => exact (Run.Mirrors.ofOption _).bind fun _ _ hab => .pure (by rw [hab])
    | _ => exact .throw (.same _)

/-- Each instruction does the same in both frames. -/
theorem execute_mirrors (hhost : x.Indifferent env.host) (budget : Nat) {f : Frame} {n : MethodHandle}
    {k : Nat} {extra : List Value} (h : x.Carries k extra n f) {below below' : List Frame}
    (hbelow : List.Forall₂ x.Frames below below') {i j : Instruction Value} (hij : i.Moved Eq k j)
    (hi : i ∈ f.method.decl.body) (hcalls : ∀ m, i = .call m → m.owner.fullName = x.type.fullName →
      x.Spares m.name m.paramTypes)
    (hignored : ∀ site, i = .dispatch site → x.Ignored env site.client.fullName) :
    x.Steps (execute env (runner env budget) f below i)
      (execute env (runner env budget) (f.movedTo n extra k) below' j) := by
  have hgo {g : Frame} (hmethod : g.method = f.method) (hargs : g.args.length = f.args.length) :
      x.Steps (pure (.next g below) : Run (State ω) _) (pure (.next (g.movedTo n extra k) below')) :=
    (h.congr hmethod hargs).step hbelow
  cases i with
  | nop =>
    cases hij
    exact hgo rfl rfl
  | const v =>
    obtain ⟨_, rfl, rfl⟩ := hij
    exact hgo (g := f.push v) rfl rfl
  | loadArg a =>
    cases hij
    simp only [execute, h.argument_eq hi]
    cases f.args[a.toNat]? with
    | none => exact .throw (.same _)
    | some v => exact hgo (g := f.push v) rfl rfl
  | storeArg a =>
    cases hij
    exact h.pop fun v g hmethod hg => hg.setArgument hbelow (hmethod ▸ hi) v
  | loadLocal a =>
    cases hij
    have hlocals : (f.movedTo n extra k).locals = f.locals := rfl
    simp only [execute, hlocals]
    cases f.locals[a.toNat]? with
    | none => exact .throw (.same _)
    | some v => exact hgo (g := f.push v) rfl rfl
  | storeLocal a =>
    cases hij
    refine h.pop fun v g _ hg => ?_
    have hlocals : (g.movedTo n extra k).locals = g.locals := rfl
    simp only [hlocals]
    split
    · exact (hg.congr (g := { g with locals := g.locals.set a.toNat v }) rfl rfl).step hbelow
    · exact .throw (.same _)
  | loadThis =>
    cases hij
    have hreceiver : (f.movedTo n extra k).receiver = f.receiver := rfl
    simp only [execute, hreceiver]
    cases f.receiver with
    | none => exact .throw (h.methods.errors (e := fun key _ => .malformed (.thisInStatic key)) .thisInStatic)
    | some r => exact hgo (g := f.push (.object r)) rfl rfl
  | loadField field =>
    cases hij
    refine readHeap fun heap => h.popObject heap fun r g hg => ?_
    have hmodule : (g.movedTo n extra k).method.module.name = g.method.module.name := hg.methods.module
    simp only [hmodule]
    cases heap.field? r field.name with
    | none => exact .throw (.same _)
    | some v => exact (hg.congr (g := g.push v) rfl rfl).step hbelow
  | storeField field =>
    cases hij
    refine h.pop fun v g _ hg => readHeap fun heap => hg.popObject heap fun r g hg => ?_
    exact (modifyHeap_mirrors fun heap => heap.setField r field.name v).exact.bind fun _ _ _ => hg.step hbelow
  | loadStatic field =>
    cases hij
    refine (resolveType_mirrors hhost field.owner).exact.bind fun t u htu => ?_
    rw [htu.fullName]
    refine (getStatic_mirrors hhost t.decl.fullName field.name).exact.bind ?_
    rintro v _ rfl
    exact hgo (g := f.push v) rfl rfl
  | storeStatic field =>
    cases hij
    refine h.pop fun v g _ hg => (resolveType_mirrors hhost field.owner).exact.bind fun t u htu => ?_
    rw [htu.fullName]
    exact (setStatic_mirrors hhost t.decl.fullName field.name v).exact.bind fun _ _ _ => hg.step hbelow
  | call m =>
    cases hij
    exact call_mirrors hhost h hbelow (hcalls m rfl)
  | construct t =>
    cases hij
    refine (resolveType_mirrors hhost t).exact.bind fun t u htu => ?_
    rw [htu.fullName]
    exact (startConstruction_mirrors hhost t.decl.fullName).bind fun top top' htop =>
      .pure (.next htop (.cons h.frames hbelow))
  | binary op =>
    cases hij
    refine h.pop fun right g _ hg => hg.pop fun left g _ hg => readHeap fun heap => ?_
    refine (binary_mirrors hg heap op left right).bind ?_
    rintro v _ rfl
    exact (hg.congr (g := g.push v) rfl rfl).step hbelow
  | compare op =>
    cases hij
    refine h.pop fun right g _ hg => hg.pop fun left g _ hg => readHeap fun heap => ?_
    refine (compare_mirrors heap op left right).bind ?_
    rintro b _ rfl
    exact (hg.congr (g := g.push (.bool b)) rfl rfl).step hbelow
  | not =>
    cases hij
    exact h.pop fun v g _ hg => readTruth v fun b => (hg.congr (g := g.push (.bool !b)) rfl rfl).step hbelow
  | jump t =>
    obtain ⟨u, rfl, hu⟩ := hij
    exact h.jump hbelow hu
  | jumpIfTrue t =>
    obtain ⟨u, rfl, hu⟩ := hij
    refine h.pop fun v g _ hg => readTruth v fun b => ?_
    cases b with
    | true => exact hg.jump hbelow hu
    | false => exact hg.step hbelow
  | jumpIfFalse t =>
    obtain ⟨u, rfl, hu⟩ := hij
    refine h.pop fun v g _ hg => readTruth v fun b => ?_
    cases b with
    | true => exact hg.step hbelow
    | false => exact hg.jump hbelow hu
  | dup =>
    cases hij
    have hstack : (f.movedTo n extra k).stack = f.stack := rfl
    simp only [execute, hstack]
    cases f.stack with
    | nil => exact .throw (.same _)
    | cons v rest => exact hgo (g := f.push v) rfl rfl
  | pop =>
    cases hij
    exact h.pop fun _ _ _ hg => hg.step hbelow
  | ret =>
    cases hij
    have hvoid : (f.movedTo n extra k).method.decl.isVoid = f.method.decl.isVoid := h.methods.isVoid
    simp only [execute, hvoid]
    cases f.method.decl.isVoid with
    | true => exact .pure (finish_mirrors h.frames hbelow .null)
    | false => exact h.pop fun v g _ hg => .pure (finish_mirrors hg.frames hbelow v)
  | throw =>
    cases hij
    exact h.pop fun v g _ hg => readHeap fun heap => .throw (hg.methods.thrown _)
  | dispatch site =>
    cases hij
    refine (dispatch_mirrors h hi (hignored site rfl) budget).bind ?_
    rintro outcome _ rfl
    cases outcome with
    | notExecuted => exact hgo (g := (f.push .null).push (.bool false)) rfl rfl
    | executed v => exact hgo (g := (f.push v).push (.bool true)) rfl rfl

/-! ## Runs -/

variable (x env) in
/-- The run is about to call neither the method, which is not what it was, nor its sibling, which there was not. It is
not about to dispatch to a client that would care which version of the type is loaded. -/
structure Calm (t : Transition) : Prop where
  calls : ∀ f below m, t = .next f below → f.method.decl.body[f.position]? = some (.call m) →
    m.owner.fullName = x.type.fullName → x.Spares m.name m.paramTypes
  ignored : ∀ f below site, t = .next f below → f.method.decl.body[f.position]? = some (.dispatch site) →
    x.Ignored env site.client.fullName

theorem Calm.done (v : Value) : x.Calm env (.done v) :=
  ⟨fun _ _ _ h => (nomatch h), fun _ _ _ h => (nomatch h)⟩

/-- A method that calls, constructs and dispatches nothing is calm. -/
theorem Calm.of_leaf {d : MethodDecl Value} (hcalls : ∀ m, .call m ∉ d.body) (hconstructs : ∀ t, .construct t ∉ d.body)
    (hquiet : ∀ site, .dispatch site ∉ d.body) {f : Frame} (hf : f.method.decl = d) (budget : Nat) (s : State ω) :
    Throughout env (x.Calm env) budget (.next f []) s := by
  induction budget generalizing f s with
  | zero => exact hhere hf
  | succ budget ih =>
    refine ⟨hhere hf, fun u s' hstep => ?_⟩
    cases step_follows f [] s u s' hstep with
    | stays hgo => exact ih (hgo.method ▸ hf) s'
    | returns hbelow _ => cases hbelow
    | ends v => cases budget <;> exact Calm.done v
    | calls hi _ _ => exact absurd (List.mem_of_getElem? (hf ▸ hi)) (hcalls _)
    | constructs hi _ _ _ _ _ => exact absurd (List.mem_of_getElem? (hf ▸ hi)) (hconstructs _)
where
  hhere {f : Frame} (hf : f.method.decl = d) : x.Calm env (.next f []) := by
    refine ⟨fun g below m hg hi => ?_, fun g below site hg hi => ?_⟩
    all_goals cases hg
    · exact absurd (List.mem_of_getElem? (hf ▸ hi)) (hcalls m)
    · exact absurd (List.mem_of_getElem? (hf ▸ hi)) (hquiet site)

theorem step_mirrors (hhost : x.Indifferent env.host) (budget : Nat) {f g : Frame} (hfg : x.Frames f g)
    {below below' : List Frame} (hbelow : List.Forall₂ x.Frames below below') (hcalm : x.Calm env (.next f below)) :
    x.Steps (step env (runner env budget) f below) (step env (runner env budget) g below') := by
  obtain ⟨k, extra, n, h, rfl⟩ := hfg
  have hnext := h.methods.next f.position
  unfold step
  have hat : (f.movedTo n extra k).method.decl.body[(f.movedTo n extra k).position]? = n.decl.body[f.position + k]? := rfl
  rw [hat]
  cases hi : f.method.decl.body[f.position]? with
  | none =>
    rw [hi] at hnext
    generalize n.decl.body[f.position + k]? = j at hnext
    cases hnext
    exact .throw (h.methods.errors (e := fun key k => .malformed (.ranPastEnd key (f.position + k))) (.ranPastEnd _))
  | some i =>
    rw [hi] at hnext
    generalize n.decl.body[f.position + k]? = j at hnext
    cases hnext with
    | @some _ j hij =>
    have hahead : x.Carries k extra n { f with position := f.position + 1 } := h.congr rfl rfl
    have hmirrors := execute_mirrors hhost budget hahead hbelow hij (List.mem_of_getElem? hi)
      (fun m hm => hcalm.calls f below m rfl (hm ▸ hi)) (fun site hm => hcalm.ignored f below site rfl (hm ▸ hi))
    simp only [Frame.movedTo, Nat.add_right_comm f.position 1 k] at hmirrors
    exact hmirrors

/-- The runs of two stacks agree, budget by budget, as long as the first one is calm. -/
theorem resume_agrees (hhost : x.Indifferent env.host) {budget : Nat} {a b : Transition} (hab : x.Transitions a b)
    {s t : State ω} (hs : x.States s t) (hcalm : Throughout env (x.Calm env) budget a s) :
    Run.Agrees x.States x.Errors Eq (resume env budget a s) (resume env budget b t) := by
  induction budget generalizing a b s t with
  | zero =>
    cases hab with
    | next _ _ => exact .none
    | done v => exact .ok rfl hs
  | succ budget ih =>
    cases hab with
    | done v => exact .ok rfl hs
    | next hfg hbelow =>
      rw [resume_succ, resume_succ, Run.bind_apply, Run.bind_apply]
      have hstep := step_mirrors hhost budget hfg hbelow hcalm.here s t hs
      have hrest := hcalm.2
      generalize step env (runner env budget) _ _ s = u at hstep hrest
      generalize step env (runner env budget) _ _ t = v at hstep
      cases hstep with
      | none => exact .none
      | error he hs' => exact .error he hs'
      | ok hab hs' => exact ih hab hs' (hrest _ _ rfl)

end Steps

/-! ## Calls -/

variable (x) in
/-- With the marker set the front of the sibling leads to its body, and dispatches nothing. -/
theorem front_advances {ω : Type} (env : Environment ω) {f : Frame} (hdecl : f.method.decl = x.sibling)
    (hpos : f.position = 0) (hstack : f.stack = [])
    (hmarker : f.args[x.method.params.length]? = some (.bool true)) (below : List Frame) (s : State ω) :
    ∃ fs, fs.length = 2 ∧ (∀ g ∈ fs, ∀ site, g.method.decl.body[g.position]? ≠ some (.dispatch site)) ∧
      Advances env s fs (.next f below) (.next { f with position := x.front.length } below) := by
  have hcount : x.site.paramCount.toNat = x.method.params.length :=
    UInt16.toNat_ofNat_of_lt x.movable.params
  obtain ⟨k, hlength, _, hload, hjump, _⟩ := x.site.relayFront_leads
  obtain ⟨m, r, args, locals, _, _, depth, constructs⟩ := f
  simp only at hdecl hpos hstack hmarker
  subst hpos hstack
  let g (p : Nat) (stack : List Value) : Frame := ⟨m, r, args, locals, stack, p, depth, constructs⟩
  have hat {p : Nat} {i : Instruction Value} (hi : x.front[p]? = some i) : m.decl.body[p]? = some i := by
    rw [hdecl]
    exact List.getElem?_append_of_some hi
  have hloads (run : Runner ω) : step env run (g 0 []) below s = some (.ok (.next (g 1 [.bool true]) below), s) :=
    step_loadArg (g := g 0 []) (hat hload) (hcount ▸ hmarker) run below s
  have hjumps (run : Runner ω) : step env run (g 1 [.bool true]) below s = some (.ok (.next (g k.toNat []) below), s) :=
    step_jumpIfTrue (g := g 1 _) (hat hjump) rfl run below s
  refine ⟨[g 0 [], g 1 [.bool true]], rfl, ?_, .step hloads (.step hjumps ?_)⟩
  · simp only [List.forall_mem_cons]
    refine ⟨fun site hsite => ?_, fun site hsite => ?_, by simp⟩
    · cases (hat hload).symm.trans hsite
    · cases (hat hjump).symm.trans hsite
  · rw [show x.front.length = k.toNat from hlength]
    exact .here _

end Split

/-- A run does not come to an end while its budget lasts for no more than the steps to where it advances. -/
theorem Machine.Advances.resume_eq_none {ω : Type} {env : Environment ω} {s : State ω} {fs : List Frame}
    {t u : Transition} (h : Advances env s fs t u) {budget : Nat} (hbudget : budget < fs.length) :
    resume env budget t s = none := by
  induction h generalizing budget with
  | here _ => cases hbudget
  | step hstep _ ih =>
    cases budget with
    | zero => rfl
    | succ budget =>
      rw [resume_succ, Run.bind_apply, hstep]
      exact ih (Nat.lt_of_succ_lt_succ hbudget)

/-- What a call of a static method comes to, at a depth of calls. -/
def MethodHandle.call {ω : Type} (m : MethodHandle) (env : Environment ω) (budget depth : Nat) (args : List Value) :
    Run (State ω) Value := do
  runner env budget (← Run.ofExcept (Frame.enter (← get).domain.maxDepth depth m none args))

theorem MethodHandle.call_eq {ω : Type} {m : MethodHandle} (hstatic : m.decl.isStatic = true) {given args : List Value}
    (hargs : Frame.bindArguments m given = .ok args) (env : Environment ω) (budget depth : Nat) (s : State ω) :
    m.call env budget depth given s =
      if s.domain.maxDepth ≤ depth then some (.error (.recursionLimit s.domain.maxDepth), s)
      else resume env budget (.next (.first m none args depth) []) s := by
  unfold MethodHandle.call
  rw [Run.get_bind]
  split
  · rename_i hlimit
    rw [Frame.enter_eq, if_pos hlimit]
    rfl
  · rename_i hlimit
    rw [Frame.enter_static (Nat.lt_of_not_le hlimit) hargs hstatic]
    rfl

namespace Split
variable {x : Split} {ω : Type} {env : Environment ω} {s t : State ω} {l l' : LoadedModule} {given args : List Value}

/-- The sibling takes the arguments of the method and the marker. -/
theorem bindArguments_marked (hargs : Frame.bindArguments ⟨l, x.type, x.method⟩ given = .ok args) :
    Frame.bindArguments ⟨l', x.mobile, x.sibling⟩ (args ++ [.bool true]) = .ok (args ++ [.bool true]) := by
  refine Frame.bindArguments_full _ ?_
  show (args ++ [Value.bool true]).length = (x.method.params ++ [relayMarker]).length
  rw [List.length_append, List.length_append, (Frame.bindArguments_eq_ok hargs).1]
  rfl

/-- Behind its front the sibling stands as the method does at its first instruction. -/
theorem first_marked (l l' : LoadedModule) (args : List Value) (depth : Nat) :
    { Frame.first ⟨l', x.mobile, x.sibling⟩ none (args ++ [.bool true]) depth with position := x.front.length } =
      (Frame.first ⟨l, x.type, x.method⟩ none args depth).movedTo ⟨l', x.mobile, x.sibling⟩ [.bool true]
        x.front.length := by
  simp only [Frame.first, Frame.movedTo, x.static, x.sibling_static, if_true, Nat.zero_add]
  rfl

theorem marked_advances (env : Environment ω) (hargs : Frame.bindArguments ⟨l, x.type, x.method⟩ given = .ok args)
    (l' : LoadedModule) (depth : Nat) (t : State ω) :
    let g : Frame := .first ⟨l', x.mobile, x.sibling⟩ none (args ++ [.bool true]) depth
    ∃ fs, fs.length = 2 ∧ (∀ y ∈ fs, ∀ site, y.method.decl.body[y.position]? ≠ some (.dispatch site)) ∧
      Advances env t fs (.next g []) (.next { g with position := x.front.length } []) := by
  refine x.front_advances env rfl rfl rfl ?_ [] t
  show (args ++ [Value.bool true])[x.method.params.length]? = _
  rw [← (Frame.bindArguments_eq_ok hargs).1, List.getElem?_concat_length]

/-- A call of the method comes to what the marked call of its sibling comes to within two steps more. -/
theorem call_agrees (hhost : x.Indifferent env.host) (hst : x.States s t) (hname : l'.name = l.name) {depth : Nat}
    (hargs : Frame.bindArguments ⟨l, x.type, x.method⟩ given = .ok args)
    (hcalm : ∀ f, Frame.enter s.domain.maxDepth depth ⟨l, x.type, x.method⟩ none given = .ok f →
      ∀ budget, Throughout env (x.Calm env) budget (.next f []) s) (budget : Nat) :
    Run.Agrees x.States x.Errors Eq
      (MethodHandle.call ⟨l, x.type, x.method⟩ env budget depth given s)
      (MethodHandle.call ⟨l', x.mobile, x.sibling⟩ env (budget + 2) depth (args ++ [.bool true]) t) := by
  rw [MethodHandle.call_eq x.static hargs, MethodHandle.call_eq x.sibling_static (bindArguments_marked hargs),
    hst.domain.limit]
  split
  · exact .error (.same _) hst
  · rename_i hlimit
    have hlength : x.method.params.length ≤ args.length := Nat.le_of_eq (Frame.bindArguments_eq_ok hargs).1.symm
    have hframes : x.Frames (.first ⟨l, x.type, x.method⟩ none args depth)
        ((Frame.first ⟨l, x.type, x.method⟩ none args depth).movedTo ⟨l', x.mobile, x.sibling⟩ [.bool true]
          x.front.length) :=
      ⟨_, _, _, ⟨.parts _ ⟨hname, rfl, x.fullName, rfl, rfl⟩, .inr hlength⟩, rfl⟩
    obtain ⟨fs, hsteps, _, hadvances⟩ := marked_advances env hargs l' depth t
    rw [Nat.add_comm, ← hsteps, hadvances.resume_eq, first_marked l]
    exact resume_agrees hhost (.next hframes .nil) hst
      (hcalm _ (Frame.enter_static (Nat.lt_of_not_le hlimit) hargs x.static none) budget)

/-- The two steps of the front do not end the call. -/
theorem call_marked_eq_none (hargs : Frame.bindArguments ⟨l, x.type, x.method⟩ given = .ok args)
    {depth : Nat} (hroom : depth < t.domain.maxDepth) {budget : Nat} (hbudget : budget < 2) :
    MethodHandle.call ⟨l', x.mobile, x.sibling⟩ env budget depth (args ++ [.bool true]) t = none := by
  obtain ⟨fs, hsteps, _, hadvances⟩ := marked_advances env hargs l' depth t
  rw [MethodHandle.call_eq x.sibling_static (bindArguments_marked hargs), if_neg (Nat.not_le_of_lt hroom)]
  exact hadvances.resume_eq_none (hsteps ▸ hbudget)

end Split

/-- The sibling of a relayed or replayed method, called with the arguments of the method and the marker, comes to what
the method comes to in the version of its type that was not split. Its front dispatches nothing. -/
theorem Split.sibling_agrees (x : Split) {ω : Type} {env : Environment ω} (hhost : x.Indifferent env.host)
    {s t : State ω} (hst : x.States s t) {l l' : LoadedModule} (hname : l'.name = l.name) {depth : Nat}
    {given args : List Value} (hargs : Frame.bindArguments ⟨l, x.type, x.method⟩ given = .ok args)
    (hcalm : ∀ f, Frame.enter s.domain.maxDepth depth ⟨l, x.type, x.method⟩ none given = .ok f →
      ∀ budget, Throughout env (x.Calm env) budget (.next f []) s) :
    x.mobile.method? (relayBodyName x.method.name) (x.method.paramTypes ++ [TypeName.boolean]) = some x.sibling ∧
    (∀ budget, Run.Agrees x.States x.Errors Eq
      (MethodHandle.call ⟨l, x.type, x.method⟩ env budget depth given s)
      (MethodHandle.call ⟨l', x.mobile, x.sibling⟩ env (budget + 2) depth (args ++ [.bool true]) t)) ∧
    ((∀ budget, MethodHandle.call ⟨l, x.type, x.method⟩ env budget depth given s = none) ↔
      ∀ budget, MethodHandle.call ⟨l', x.mobile, x.sibling⟩ env budget depth (args ++ [.bool true]) t = none) ∧
    ∀ g, Frame.enter t.domain.maxDepth depth ⟨l', x.mobile, x.sibling⟩ none (args ++ [.bool true]) = .ok g →
      ∃ fs, (∀ y ∈ fs, ∀ site, y.method.decl.body[y.position]? ≠ some (.dispatch site)) ∧
        Advances env t fs (.next g []) (.next { g with position := x.front.length } []) := by
  have hagrees := call_agrees hhost hst hname hargs hcalm
  refine ⟨TypeDecl.mobilize_sibling x.mobilized x.found x.moved, hagrees,
    ⟨fun hnone budget => ?_, fun hnone budget => (hagrees budget).eq_none_iff.mpr (hnone (budget + 2))⟩,
    fun g hg => ?_⟩
  · by_cases hbudget : budget < 2
    · have hstart := hnone budget
      rw [MethodHandle.call_eq x.static hargs] at hstart
      split at hstart
      · cases hstart
      · rename_i hlimit
        exact call_marked_eq_none hargs (hst.domain.limit ▸ Nat.lt_of_not_le hlimit) hbudget
    · obtain ⟨budget, rfl⟩ := Nat.exists_eq_add_of_le' (Nat.le_of_not_lt hbudget)
      exact (hagrees budget).eq_none_iff.mp (hnone budget)
  · obtain ⟨vs, hvs, rfl⟩ := Frame.enter_eq_ok hg
    cases (bindArguments_marked hargs).symm.trans hvs
    obtain ⟨fs, _, hquiet, hadvances⟩ := marked_advances env hargs l' depth t
    exact ⟨fs, hquiet, hadvances⟩

/-- A type with a method that adds up numbers in a loop back to its first instruction. -/
def tally : TypeDecl Value where
  space := "Ops"
  name := "Tally"
  fields := [⟨"total", TypeName.int32, MemberFlags.static, none⟩]
  methods := [
    { name := constructorName, flags := MethodFlags.constructor, body := [.ret] },
    { name := "Add", flags := MethodFlags.static, params := [⟨"n", TypeName.int32, none⟩],
      body := [.loadStatic ⟨⟨none, "Ops.Tally"⟩, "total"⟩, .loadArg 0, .binary .add,
        .storeStatic ⟨⟨none, "Ops.Tally"⟩, "total"⟩, .loadArg 0, .const (.int32 1), .binary .sub, .storeArg 0,
        .loadArg 0, .jumpIfTrue 0, .ret] }]

namespace tally

/-- The method made mobile. -/
def mobilized : Mobilized × TypeDecl Value :=
  (tally.mobilize defaultClientType "Tally" 1 { mode := .relay } {}).toOption.getD default

def split : Split where
  module := "Tally"
  client := defaultClientType
  type := tally
  index := 1
  mobility := { mode := .relay }
  closure := {}
  done := mobilized.1
  mobile := mobilized.2
  method := tally.methods[1]
  mobilized := rfl
  found := rfl
  moved := by decide
  inside := by simp [tally, BranchesInside, Instruction.target?]
  words := by decide
  arguments := by simp [tally, ArgumentsBelow, Instruction.argument?]
  quiet := by simp [tally]

/-- The type as the only one of a module, and the module as the only one of a domain. -/
def loaded : LoadedModule := ⟨{ name := "Tally", types := [tally] }, [], "", none⟩

def domain : Domain := ({ hostName := "" } : Domain).enter loaded

def splitDomain : Domain := { domain with types := domain.types.insert "Ops.Tally" ⟨loaded, split.mobile⟩ }

end tally

open tally in
theorem tally_sibling_agrees :
    split.mobile.method? "Add$relay" [TypeName.int32, TypeName.boolean] = some split.sibling ∧
    ∀ budget, Run.Agrees split.States split.Errors Eq
      (MethodHandle.call ⟨loaded, split.type, split.method⟩ pulse.environment budget 0 [.int32 3] ⟨domain, ()⟩)
      (MethodHandle.call ⟨loaded, split.mobile, split.sibling⟩ pulse.environment (budget + 2) 0
        [.int32 3, .bool true] ⟨splitDomain, ()⟩) := by
  have hhost : split.Indifferent pulse.environment.host := Split.indifferent_of_standard rfl rfl
  have hloaded : domain.module? split.module ≠ none := by
    rw [show domain.module? split.module = some loaded from rfl]
    exact Option.some_ne_none loaded
  have hst : split.States (⟨domain, ()⟩ : State Unit) ⟨splitDomain, ()⟩ :=
    ⟨Split.Domains.insert (l := loaded) rfl rfl hloaded, rfl⟩
  have hargs : Frame.bindArguments ⟨loaded, split.type, split.method⟩ [.int32 3] = .ok [.int32 3] := rfl
  have hcalm : ∀ f, Frame.enter domain.maxDepth 0 ⟨loaded, split.type, split.method⟩ none [.int32 3] = .ok f →
      ∀ budget, Throughout pulse.environment (split.Calm pulse.environment) budget (.next f []) ⟨domain, ()⟩ :=
    fun f hf budget => Split.Calm.of_leaf (d := split.method) (by simp [split, tally]) (by simp [split, tally])
      split.quiet (congrArg MethodHandle.decl (Frame.enter_method hf)) budget _
  have hname : loaded.name = loaded.name := rfl
  obtain ⟨hfound, hagrees, _⟩ := split.sibling_agrees hhost hst hname hargs hcalm
  exact ⟨hfound, hagrees⟩

end MobileCode
