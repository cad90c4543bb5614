import MobileCode.Proofs.Copies
import MobileCode.Proofs.Forms

/-! # Loading literals

Declarations of one form are loaded side by side, literal by literal, and the loaded declarations are of
that form again. The second heap gets its objects at once, or later as copies of those of the first one.
-/
namespace MobileCode

/-- What holds of two results goes on holding while links are added. -/
def Lasting {α β : Type} (R : Links → α → β → Prop) : Prop :=
  ∀ {w w'}, w ≤ w' → ∀ a b, R w a b → R w' a b

/-- A way to compare two computations that add objects, such that literals come out linked. -/
structure Loading where
  rel : ∀ {α β : Type}, (Links → α → β → Prop) → Links → StateM Heap α → StateM Heap β → Prop
  pure : ∀ {α β : Type} {R : Links → α → β → Prop} {w : Links} {a : α} {b : β}, R w a b →
    rel R w (Pure.pure a) (Pure.pure b)
  bind : ∀ {α β γ δ : Type} {R : Links → α → β → Prop} {Q : Links → γ → δ → Prop} {w : Links}
    {x : StateM Heap α} {y : StateM Heap β} {f : α → StateM Heap γ} {g : β → StateM Heap δ},
    Grows x → (∀ a, Grows (f a)) → rel R w x y →
    (∀ w', w ≤ w' → ∀ a b, R w' a b → rel Q w' (f a) (g b)) → rel Q w (x >>= f) (y >>= g)
  literal : ∀ x {w : Links}, rel Value.Linked w (Heap.instantiate x) (Heap.instantiate x)

/-! ## Two ways of loading -/

/-- From linked heaps both computations go to linked heaps, with related results. -/
def Loads {α β : Type} (R : Links → α → β → Prop) (w : Links) (x : StateM Heap α) (y : StateM Heap β) : Prop :=
  ∀ h k, Heap.Linked w h k → ∃ w', w ≤ w' ∧ Heap.Linked w' (x.run h).2 (y.run k).2 ∧ R w' (x.run h).1 (y.run k).1

theorem Loads.pure {α β : Type} {R : Links → α → β → Prop} {w : Links} {a : α} {b : β} (h : R w a b) :
    Loads R w (Pure.pure a) (Pure.pure b) :=
  fun _ _ hw => ⟨w, le_rfl, hw, h⟩

theorem Loads.bind {α β γ δ : Type} {R : Links → α → β → Prop} {Q : Links → γ → δ → Prop} {w : Links}
    {x : StateM Heap α} {y : StateM Heap β} {f : α → StateM Heap γ} {g : β → StateM Heap δ} (h : Loads R w x y)
    (hf : ∀ w', w ≤ w' → ∀ a b, R w' a b → Loads Q w' (f a) (g b)) : Loads Q w (x >>= f) (y >>= g) := by
  intro h₀ k₀ hw
  obtain ⟨w', hle, hw', hr⟩ := h h₀ k₀ hw
  obtain ⟨w'', hle', hw'', hq⟩ := hf w' hle _ _ hr _ _ hw'
  exact ⟨w'', hle.trans hle', hw'', hq⟩

theorem Heap.instantiate_loads (x : Datum) {w : Links} :
    Loads Value.Linked w (Heap.instantiate x) (Heap.instantiate x) := by
  intro h₀ k₀ hw
  obtain ⟨w', hle, hv, hw'⟩ := Heap.Linked.instantiate x hw
  exact ⟨w', hle, hw', hv⟩

namespace Loading

/-- Both heaps grow at once. -/
def atOnce : Loading where
  rel := Loads
  pure := Loads.pure
  bind _ _ := Loads.bind
  literal := Heap.instantiate_loads

/-- The second heap gets copies later. -/
def later : Loading where
  rel := Follows
  pure := Follows.pure
  bind := Follows.bind
  literal := Heap.instantiate_follows

variable (l : Loading) {α β γ δ : Type} {R : Links → α → β → Prop} {w : Links}

theorem mono {Q : Links → α → β → Prop} {x : StateM Heap α} {y : StateM Heap β} (hx : Grows x) (h : l.rel R w x y)
    (hRQ : ∀ w', w ≤ w' → ∀ a b, R w' a b → Q w' a b) : l.rel Q w x y := by
  rw [← bind_pure x, ← bind_pure y]
  exact l.bind hx Grows.pure h fun w' hle a b hab => l.pure (hRQ w' hle a b hab)

theorem mapM {Q : γ → δ → Prop} (hlast : Lasting R) {f : γ → StateM Heap α} {g : δ → StateM Heap β}
    (hf : ∀ x, Grows (f x)) {xs : List γ} {ys : List δ} (hxs : List.Forall₂ Q xs ys)
    (h : ∀ w', w ≤ w' → ∀ x y, Q x y → l.rel R w' (f x) (g y)) :
    l.rel (fun w' as bs => as.length = xs.length ∧ List.Forall₂ (R w') as bs) w (xs.mapM f) (ys.mapM g) := by
  induction hxs generalizing w with
  | nil =>
    rw [List.mapM_nil, List.mapM_nil]
    exact l.pure ⟨rfl, .nil⟩
  | @cons x y xs ys hxy _ ih =>
    rw [List.mapM_cons, List.mapM_cons]
    have hrest := Grows.mapM hf xs
    refine l.bind (hf x) (fun a => hrest.bind fun _ => .pure _) (h w le_rfl _ _ hxy) fun w' hle a b hab => ?_
    refine l.bind hrest (fun _ => .pure _) (ih fun w'' hle' => h w'' (hle.trans hle')) fun w'' hle' as bs habs => ?_
    exact l.pure ⟨congrArg (· + 1) habs.1, .cons (hlast hle' a b hab) habs.2⟩

end Loading

/-! ## Loading declarations -/

/-- A literal becomes a value of its own. -/
abbrev loadOption : Option Datum → StateM Heap (Option Value) := traverseOption (m := StateM Heap) Heap.instantiate

abbrev Instruction.load : Instruction Datum → StateM Heap (Instruction Value) :=
  Instruction.traverse (m := StateM Heap) Heap.instantiate

abbrev ParamDecl.load : ParamDecl Datum → StateM Heap (ParamDecl Value) :=
  ParamDecl.traverse (m := StateM Heap) Heap.instantiate

abbrev FieldDecl.load : FieldDecl Datum → StateM Heap (FieldDecl Value) :=
  FieldDecl.traverse (m := StateM Heap) Heap.instantiate

abbrev MethodDecl.load : MethodDecl Datum → StateM Heap (MethodDecl Value) :=
  MethodDecl.traverse (m := StateM Heap) Heap.instantiate

abbrev TypeDecl.load : TypeDecl Datum → StateM Heap (TypeDecl Value) :=
  TypeDecl.traverse (m := StateM Heap) Heap.instantiate

theorem loadOption_grows (x : Option Datum) : Grows (loadOption x) := by
  cases x with
  | none => exact .pure _
  | some x => exact (Heap.instantiate_grows x).bind fun _ => .pure _

theorem Instruction.load_grows (i : Instruction Datum) : Grows i.load := by
  cases i with
  | const x => exact (Heap.instantiate_grows x).bind fun _ => .pure _
  | _ => exact .pure _

theorem ParamDecl.load_grows (p : ParamDecl Datum) : Grows p.load :=
  (loadOption_grows p.default).bind fun _ => .pure _

theorem FieldDecl.load_grows (f : FieldDecl Datum) : Grows f.load :=
  (loadOption_grows f.initial).bind fun _ => .pure _

theorem MethodDecl.load_grows (d : MethodDecl Datum) : Grows d.load :=
  (Grows.mapM ParamDecl.load_grows d.params).bind fun _ =>
    (Grows.mapM Instruction.load_grows d.body).bind fun _ => .pure _

theorem TypeDecl.load_grows (t : TypeDecl Datum) : Grows t.load :=
  (Grows.mapM FieldDecl.load_grows t.fields).bind fun _ =>
    (Grows.mapM MethodDecl.load_grows t.methods).bind fun _ => .pure _

section Forms
variable (l : Loading) {w : Links}

theorem loadOption_loads {x y : Option Datum} (h : Option.Rel Eq x y) :
    l.rel (fun w => Option.Rel (Value.Linked w)) w (loadOption x) (loadOption y) := by
  cases h with
  | none => exact l.pure .none
  | some hab =>
    cases hab
    exact l.bind (Heap.instantiate_grows _) (fun _ => .pure _) (l.literal _) fun _ _ _ _ hv => l.pure (.some hv)

theorem Instruction.load_loads {k : Nat} {i j : Instruction Datum} (h : Instruction.Moved Eq k i j) :
    l.rel (fun w => Instruction.Moved (Value.Linked w) k) w i.load j.load := by
  cases i with
  | const x =>
    obtain ⟨y, rfl, rfl⟩ := h
    exact l.bind (Heap.instantiate_grows x) (fun _ => .pure _) (l.literal x) fun _ _ _ v hv => l.pure ⟨v, rfl, hv⟩
  | jump t =>
    obtain ⟨u, rfl, hu⟩ := h
    exact l.pure ⟨u, rfl, hu⟩
  | jumpIfTrue t =>
    obtain ⟨u, rfl, hu⟩ := h
    exact l.pure ⟨u, rfl, hu⟩
  | jumpIfFalse t =>
    obtain ⟨u, rfl, hu⟩ := h
    exact l.pure ⟨u, rfl, hu⟩
  | _ =>
    cases h
    exact l.pure rfl

theorem ParamDecl.load_loads {p q : ParamDecl Datum} (h : p.Alike Eq q) :
    l.rel (fun w => ParamDecl.Alike (Value.Linked w)) w p.load q.load :=
  l.bind (loadOption_grows p.default) (fun _ => .pure _) (loadOption_loads l h.default)
    fun _ _ _ _ hv => l.pure ⟨h.name, h.type, hv⟩

theorem FieldDecl.load_loads {f g : FieldDecl Datum} (h : f.Alike Eq g) :
    l.rel (fun w => FieldDecl.Alike (Value.Linked w)) w f.load g.load :=
  l.bind (loadOption_grows f.initial) (fun _ => .pure _) (loadOption_loads l h.initial)
    fun _ _ _ _ hv => l.pure ⟨h.name, h.type, h.flags, hv⟩

theorem params_load {ps qs : List (ParamDecl Datum)} (h : List.Forall₂ (ParamDecl.Alike Eq) ps qs) :
    l.rel (fun w ps' qs' => ps'.length = ps.length ∧ List.Forall₂ (ParamDecl.Alike (Value.Linked w)) ps' qs') w
      (ps.mapM ParamDecl.load) (qs.mapM ParamDecl.load) :=
  l.mapM (fun hle _ _ hp => hp.mono fun _ _ hv => hv.mono hle) ParamDecl.load_grows h
    fun _ _ _ _ hp => ParamDecl.load_loads l hp

theorem fields_load {fs gs : List (FieldDecl Datum)} (h : List.Forall₂ (FieldDecl.Alike Eq) fs gs) :
    l.rel (fun w fs' gs' => fs'.length = fs.length ∧ List.Forall₂ (FieldDecl.Alike (Value.Linked w)) fs' gs') w
      (fs.mapM FieldDecl.load) (gs.mapM FieldDecl.load) :=
  l.mapM (fun hle _ _ hf => hf.mono fun _ _ hv => hv.mono hle) FieldDecl.load_grows h
    fun _ _ _ _ hf => FieldDecl.load_loads l hf

/-! ### Bodies and their fronts -/

theorem DispatchSite.normalFront_load (site : DispatchSite) (isVoid : Bool) :
    (site.normalFront isVoid).mapM Instruction.load = pure (site.normalFront isVoid) := by
  cases isVoid <;> rfl

theorem DispatchSite.relayFront_load (site : DispatchSite) :
    site.relayFront.mapM Instruction.load = pure site.relayFront := by
  cases h : site.mode <;> simp only [relayFront, h] <;> rfl

theorem DispatchSite.length_normalFront (site : DispatchSite) (isVoid : Bool) :
    (site.normalFront isVoid : List (Instruction Value)).length =
      (site.normalFront isVoid : List (Instruction Datum)).length := by
  cases isVoid <;> rfl

theorem DispatchSite.length_relayFront (site : DispatchSite) :
    (site.relayFront : List (Instruction Value)).length = (site.relayFront : List (Instruction Datum)).length := by
  cases h : site.mode <;> simp only [relayFront, h] <;> rfl

theorem Behind.load_loads {front : List (Instruction Datum)} {front' : List (Instruction Value)}
    (hfront : front.mapM Instruction.load = pure front') (hlen : front'.length = front.length)
    {body body' : List (Instruction Datum)} (h : Behind Eq front body body') :
    l.rel (fun w => Behind (Value.Linked w) front') w (body.mapM Instruction.load) (body'.mapM Instruction.load) := by
  obtain ⟨rest, rfl, hrest⟩ := h
  have hlast : Lasting fun w => Instruction.Moved (Value.Linked w) front.length :=
    fun hle _ _ hm => hm.mono fun _ _ hv => hv.mono hle
  have hload := l.mapM (w := w) hlast Instruction.load_grows hrest fun _ _ _ _ hm => Instruction.load_loads l hm
  rw [List.mapM_append, hfront, pure_bind, ← bind_pure (body.mapM _)]
  refine l.bind (Grows.mapM Instruction.load_grows body) Grows.pure hload fun w' _ b b' hb => l.pure ⟨b', rfl, ?_⟩
  rw [hlen]
  exact hb.2

end Forms

/-! ## Modules without siblings -/

section Declarations
variable {client : String} {w : Links}

/-- Methods without siblings are loaded in their forms. -/
theorem MethodDecl.load_loads (l : Loading) {t : TypeDecl Datum} {mode? : Option Mode} {d e : MethodDecl Datum}
    (h : MethodDecl.Form True Eq client t mode? d e) :
    l.rel (fun w d' e' => d'.flags = d.flags ∧ d'.mobility = d.mobility ∧
      ∀ exact u, MethodDecl.Form exact (Value.Linked w) client u mode? d' e') w d.load e.load := by
  have hparams := params_load l (w := w) h.alike.params
  have hgrows : Grows (d.params.mapM ParamDecl.load) := .mapM ParamDecl.load_grows _
  have hbody : Grows (d.body.mapM Instruction.load) := .mapM Instruction.load_grows _
  have hlift {w' w'' : Links} (hle : w' ≤ w'') {ps qs : List (ParamDecl Value)}
      (hps : List.Forall₂ (ParamDecl.Alike (Value.Linked w')) ps qs) :
      List.Forall₂ (ParamDecl.Alike (Value.Linked w'')) ps qs :=
    hps.imp fun _ _ hp => hp.mono fun _ _ hv => hv.mono hle
  cases h with
  | plain hp ha hl hb =>
    refine l.bind hgrows (fun _ => hbody.bind fun _ => .pure _) hparams fun w' _ ps qs hps => ?_
    refine l.bind hbody (fun _ => .pure _) (Behind.load_loads l rfl rfl hb) fun w'' hle b b' hb' => ?_
    exact l.pure ⟨rfl, rfl, fun _ _ =>
      .plain hp ⟨ha.name, hlift hle hps.2, ha.returns, ha.static, ha.constructor⟩ hl hb'⟩
  | fronted site hp ha hl hclient hcount hb =>
    refine l.bind hgrows (fun _ => hbody.bind fun _ => .pure _) hparams fun w' _ ps qs hps => ?_
    refine l.bind hbody (fun _ => .pure _)
      (Behind.load_loads l (site.normalFront_load _) (site.length_normalFront _) hb) fun w'' hle b b' hb' => ?_
    exact l.pure ⟨rfl, rfl, fun _ _ => .fronted site hp
      ⟨ha.name, hlift hle hps.2, ha.returns, ha.static, ha.constructor⟩ hl hclient (hcount.trans hps.1.symm) hb'⟩
  | stub _ hx _ _ => exact absurd trivial hx

theorem TypeDecl.load_loads (l : Loading) {mode? : MethodFlags → Option Mobility → Option Mode} {t u : TypeDecl Datum}
    (h : TypeDecl.Form True Eq client mode? t u) :
    l.rel (fun w t' u' => t'.flags = t.flags ∧
      ∀ exact, TypeDecl.Form exact (Value.Linked w) client mode? t' u') w t.load u.load := by
  obtain ⟨main, siblings, heq, hmain, _, hexact⟩ := h.methods
  rw [hexact trivial, List.append_nil] at heq
  have hgrows : Grows (t.fields.mapM FieldDecl.load) := .mapM FieldDecl.load_grows _
  have hmethods : Grows (t.methods.mapM MethodDecl.load) := .mapM MethodDecl.load_grows _
  refine l.bind hgrows (fun _ => hmethods.bind fun _ => .pure _) (fields_load l h.fields) fun w' _ fs gs hfs => ?_
  have hload := l.mapM (w := w') (R := fun w d e => ∀ exact u,
      MethodDecl.Form exact (Value.Linked w) client u (mode? d.flags d.mobility) d e)
    (fun hle _ _ hd exact u => (hd exact u).mono fun _ _ hv => hv.mono hle) MethodDecl.load_grows hmain
    fun _ _ d e hde => l.mono d.load_grows (MethodDecl.load_loads l hde) fun _ _ d' e' hd => by
      rw [hd.1, hd.2.1]
      exact hd.2.2
  rw [← heq] at hload
  refine l.bind hmethods (fun _ => .pure _) hload fun w'' hle ds es hds => l.pure ⟨rfl, fun exact => ?_⟩
  exact {
    space := h.space
    name := h.name
    fields := hfs.2.imp fun _ _ hf => hf.mono fun _ _ hv => hv.mono hle
    methods := ⟨es, [], (List.append_nil es).symm, hds.2.imp fun _ _ hd => hd exact _,
      fun _ hs => absurd hs List.not_mem_nil, fun _ => rfl⟩ }

/-- A module is loaded in the form it has, type by type. -/
theorem Module.instantiate_loads (l : Loading)
    (mode? : TypeFlags → MethodFlags → Option Mobility → Option Mode) {m n : Module Datum}
    (h : List.Forall₂ (fun t u => TypeDecl.Form True Eq client (mode? t.flags) t u) m.types n.types) :
    l.rel (fun w m' n' => m'.name = m.name ∧ n'.name = n.name ∧ m'.flags = m.flags ∧
        List.Forall₂ (fun t u => ∀ exact,
          TypeDecl.Form exact (Value.Linked w) client (mode? t.flags) t u) m'.types n'.types) w
      (Domain.instantiate m) (Domain.instantiate n) := by
  have htypes := l.mapM (w := w) (R := fun w t u => ∀ exact,
      TypeDecl.Form exact (Value.Linked w) client (mode? t.flags) t u)
    (fun hle _ _ hf exact => (hf exact).mono fun _ _ hv => hv.mono hle) TypeDecl.load_grows h
    fun _ _ t u htu => l.mono t.load_grows (TypeDecl.load_loads l htu) fun _ _ t' u' hf => by
      rw [hf.1]
      exact hf.2
  exact l.bind (.mapM TypeDecl.load_grows _) (fun _ => .pure _) htypes fun _ _ _ _ hts => l.pure ⟨rfl, rfl, rfl, hts.2⟩

end Declarations

end MobileCode
