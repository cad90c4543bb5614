import MobileCode.Mobilize
import MobileCode.Module.Validity
import MobileCode.Execution.Domain
import MobileCode.Proofs.Links

/-! # Two forms of code

The instructions of a mobile method stand behind a front that dispatches the call, or in a sibling,
and their branches have moved by the length of the front. All else about a declaration is the same,
but for literals: these are linked values once two modules are loaded.
-/
namespace MobileCode

/-- What is found on the left is found on the right; an exact comparison also wants the converse. -/
inductive Finds {α β : Type} (exact : Prop) (R : α → β → Prop) : Option α → Option β → Prop
  | some {a : α} {b : β} : R a b → Finds exact R (some a) (some b)
  | none : Finds exact R none none
  | loose {y : Option β} : ¬exact → Finds exact R none y

theorem Forall₂.getElem? {α β : Type} {R : α → β → Prop} {xs : List α} {ys : List β}
    (h : List.Forall₂ R xs ys) (i : Nat) : Option.Rel R xs[i]? ys[i]? := by
  induction h generalizing i with
  | nil => exact .none
  | cons hxy _ ih =>
    cases i with
    | zero => exact .some hxy
    | succ i => exact ih i

theorem Forall₂.exists_of_mem {β γ : Type} {R : β → γ → Prop} {xs : List β} {ys : List γ} (h : List.Forall₂ R xs ys)
    {x : β} (hx : x ∈ xs) : ∃ y ∈ ys, R x y := by
  obtain ⟨i, hi⟩ := List.mem_iff_getElem?.mp hx
  have hrel := Forall₂.getElem? h i
  rw [hi] at hrel
  generalize hy : ys[i]? = y at hrel
  cases hrel with
  | some hxy => exact ⟨_, List.mem_of_getElem? hy, hxy⟩

theorem forall₂_of_getElem? {α β : Type} {R : α → β → Prop} {xs : List α} {ys : List β}
    (h : ∀ i : Nat, Option.Rel R xs[i]? ys[i]?) : List.Forall₂ R xs ys := by
  induction xs generalizing ys with
  | nil =>
    have h0 := h 0
    cases ys with
    | nil => exact .nil
    | cons y ys => cases h0
  | cons x xs ih =>
    have h0 := h 0
    cases ys with
    | nil => cases h0
    | cons y ys =>
      cases h0 with
      | some hxy => exact .cons hxy (ih fun i => h (i + 1))

section Relations
variable {α : Type}

/-- The same instruction, moved by `k` positions, with a related literal. -/
def Instruction.Moved (L : α → α → Prop) (k : Nat) : Instruction α → Instruction α → Prop
  | .const x, j => ∃ y, j = .const y ∧ L x y
  | .jump t, j => ∃ u, j = .jump u ∧ u.toNat = t.toNat + k
  | .jumpIfTrue t, j => ∃ u, j = .jumpIfTrue u ∧ u.toNat = t.toNat + k
  | .jumpIfFalse t, j => ∃ u, j = .jumpIfFalse u ∧ u.toNat = t.toNat + k
  | i, j => j = i

/-- A body that stands behind a front. -/
def Behind (L : α → α → Prop) (front body body' : List (Instruction α)) : Prop :=
  ∃ rest, body' = front ++ rest ∧ List.Forall₂ (Instruction.Moved L front.length) body rest

structure ParamDecl.Alike (L : α → α → Prop) (p q : ParamDecl α) : Prop where
  name : q.name = p.name
  type : q.type = p.type
  default : Option.Rel L p.default q.default

structure FieldDecl.Alike (L : α → α → Prop) (f g : FieldDecl α) : Prop where
  name : g.name = f.name
  type : g.type = f.type
  flags : g.flags = f.flags
  initial : Option.Rel L f.initial g.initial

/-- The same method to its callers. -/
structure MethodDecl.Alike (L : α → α → Prop) (d e : MethodDecl α) : Prop where
  name : e.name = d.name
  params : List.Forall₂ (ParamDecl.Alike L) d.params e.params
  returns : e.returns = d.returns
  static : e.isStatic = d.isStatic
  constructor : e.flags.has MethodFlags.constructor = d.flags.has MethodFlags.constructor

/-- A method `e` that hands its calls on to a sibling, which holds the body of `d`. -/
structure MethodDecl.Stub [Literal α] (L : α → α → Prop) (client : String) (t : TypeDecl α)
    (mode : Mode) (d e sibling : MethodDecl α) : Prop where
  alike : d.Alike L e
  static : d.isStatic = true
  void : d.isVoid = true
  body : e.body = e.stubBody t.fullName sibling
  found : t.method? sibling.name sibling.paramTypes = some sibling
  name : sibling.name = relayBodyName d.name
  params : sibling.params.length = d.params.length + 1
  siblingStatic : sibling.isStatic = true
  siblingVoid : sibling.isVoid = true
  locals : sibling.locals = d.locals
  behind : ∃ site : DispatchSite, site.client.fullName = client ∧ site.mode = mode ∧
    site.paramCount.toNat = d.params.length ∧ Behind L site.relayFront d.body sibling.body

/-- The body of the method does not move to a sibling. -/
def StaysInPlace (mode? : Option Mode) : Prop := ∀ mode, mode? = some mode → mode = .normal

/-- The forms that a method has in a type of the other module, by the mode it was made mobile in. -/
inductive MethodDecl.Form [Literal α] (exact : Prop) (L : α → α → Prop) (client : String)
    (t : TypeDecl α) : Option Mode → MethodDecl α → MethodDecl α → Prop
  | plain {mode? : Option Mode} {d e : MethodDecl α} : StaysInPlace mode? → d.Alike L e →
    e.locals = d.locals → Behind L [] d.body e.body → Form exact L client t mode? d e
  | fronted {mode? : Option Mode} {d e : MethodDecl α} (site : DispatchSite) : StaysInPlace mode? →
    d.Alike L e → e.locals = d.locals → site.client.fullName = client →
    site.paramCount.toNat = d.params.length → Behind L (site.normalFront d.isVoid) d.body e.body →
    Form exact L client t mode? d e
  | stub {mode : Mode} {d e : MethodDecl α} (sibling : MethodDecl α) : ¬exact → mode ≠ .normal →
    d.Stub L client t mode e sibling → Form exact L client t (some mode) d e

/-- A type and its form in the other module, in which siblings follow the methods. -/
structure TypeDecl.Form [Literal α] (exact : Prop) (L : α → α → Prop) (client : String)
    (mode? : MethodFlags → Option Mobility → Option Mode) (t u : TypeDecl α) : Prop where
  space : u.space = t.space
  name : u.name = t.name
  fields : List.Forall₂ (FieldDecl.Alike L) t.fields u.fields
  methods : ∃ main siblings, u.methods = main ++ siblings ∧
    List.Forall₂ (fun d e => MethodDecl.Form exact L client u (mode? d.flags d.mobility) d e) t.methods main ∧
    (∀ s ∈ siblings, ∀ d ∈ t.methods, s.name ≠ d.name) ∧ (exact → siblings = [])

variable {L M : α → α → Prop}

theorem Instruction.Moved.mono (h : ∀ x y, L x y → M x y) {k : Nat} {i j : Instruction α}
    (hij : Instruction.Moved L k i j) : Instruction.Moved M k i j := by
  cases i with
  | const x =>
    obtain ⟨y, rfl, hxy⟩ := hij
    exact ⟨y, rfl, h x y hxy⟩
  | _ => exact hij

theorem Behind.mono (h : ∀ x y, L x y → M x y) {front body body' : List (Instruction α)}
    (hb : Behind L front body body') : Behind M front body body' := by
  obtain ⟨rest, rfl, hrest⟩ := hb
  exact ⟨rest, rfl, hrest.imp fun _ _ => Instruction.Moved.mono h⟩

theorem relOption_mono (h : ∀ x y, L x y → M x y) {x y : Option α} (hxy : Option.Rel L x y) :
    Option.Rel M x y := by
  cases hxy with
  | none => exact .none
  | some hab => exact .some (h _ _ hab)

theorem ParamDecl.Alike.mono (h : ∀ x y, L x y → M x y) {p q : ParamDecl α} (hp : p.Alike L q) :
    p.Alike M q :=
  ⟨hp.name, hp.type, relOption_mono h hp.default⟩

theorem FieldDecl.Alike.mono (h : ∀ x y, L x y → M x y) {f g : FieldDecl α} (hf : f.Alike L g) :
    f.Alike M g :=
  ⟨hf.name, hf.type, hf.flags, relOption_mono h hf.initial⟩

namespace MethodDecl
variable {d e s : MethodDecl α}

theorem Alike.mono (h : ∀ x y, L x y → M x y) (hd : d.Alike L e) : d.Alike M e :=
  ⟨hd.name, hd.params.imp fun _ _ hp => hp.mono h, hd.returns, hd.static, hd.constructor⟩

theorem Alike.isVoid (h : d.Alike L e) : e.isVoid = d.isVoid := by
  simp only [MethodDecl.isVoid, h.returns]

theorem Alike.paramTypes (h : d.Alike L e) : e.paramTypes = d.paramTypes := by
  have hp := h.params
  simp only [MethodDecl.paramTypes]
  generalize d.params = ps at hp
  generalize e.params = qs at hp
  induction hp with
  | nil => rfl
  | cons hpq _ ih => simp only [List.map_cons, hpq.type, ih]

theorem Alike.key (h : d.Alike L e) (type : String) : e.key type = d.key type := by
  simp only [MethodDecl.key, h.name, h.paramTypes]

theorem Alike.isDefaultConstructor (h : d.Alike L e) :
    e.isDefaultConstructor = d.isDefaultConstructor := by
  have hempty : e.params.isEmpty = d.params.isEmpty := by
    have hp := h.params
    generalize d.params = ps at hp ⊢
    generalize e.params = qs at hp ⊢
    cases hp <;> rfl
  simp only [MethodDecl.isDefaultConstructor, h.constructor, h.static, hempty]

variable [Literal α] {exact : Prop} {client : String} {t : TypeDecl α} {mode : Mode}

theorem Stub.mono (h : ∀ x y, L x y → M x y) (hs : d.Stub L client t mode e s) :
    d.Stub M client t mode e s := by
  obtain ⟨site, hclient, hmode, hcount, hbehind⟩ := hs.behind
  exact { hs with
    alike := hs.alike.mono h
    behind := ⟨site, hclient, hmode, hcount, hbehind.mono h⟩ }

theorem Form.mono (h : ∀ x y, L x y → M x y) {mode? : Option Mode}
    (hf : MethodDecl.Form exact L client t mode? d e) : MethodDecl.Form exact M client t mode? d e := by
  cases hf with
  | plain hp ha hl hb => exact .plain hp (ha.mono h) hl (hb.mono h)
  | fronted site hp ha hl hclient hcount hb =>
    exact .fronted site hp (ha.mono h) hl hclient hcount (hb.mono h)
  | stub sibling hx hmode hs => exact .stub sibling hx hmode (hs.mono h)

theorem Form.alike {mode? : Option Mode} (hf : MethodDecl.Form exact L client t mode? d e) :
    d.Alike L e := by
  cases hf with
  | plain _ ha _ _ => exact ha
  | fronted _ _ ha _ _ _ _ => exact ha
  | stub _ _ _ hs => exact hs.alike

end MethodDecl

namespace TypeDecl
variable [Literal α] {exact : Prop} {client : String} {mode? : MethodFlags → Option Mobility → Option Mode} {t u : TypeDecl α}

theorem Form.mono (h : ∀ x y, L x y → M x y) (hf : TypeDecl.Form exact L client mode? t u) :
    TypeDecl.Form exact M client mode? t u := by
  obtain ⟨main, siblings, heq, hmain, hnew, hexact⟩ := hf.methods
  exact {
    space := hf.space
    name := hf.name
    fields := hf.fields.imp fun _ _ hab => hab.mono h
    methods := ⟨main, siblings, heq, hmain.imp fun _ _ hde => hde.mono h, hnew, hexact⟩ }

theorem Form.fullName (hf : TypeDecl.Form exact L client mode? t u) : u.fullName = t.fullName := by
  simp only [TypeDecl.fullName, hf.space, hf.name]

theorem Form.method? (hf : TypeDecl.Form exact L client mode? t u) (name : String) (types : List String) :
    Finds exact (fun d e => MethodDecl.Form exact L client u (mode? d.flags d.mobility) d e) (t.method? name types)
      (u.method? name types) := by
  obtain ⟨main, siblings, heq, hmain, _, hexact⟩ := hf.methods
  simp only [TypeDecl.method?, heq]
  clear heq
  generalize t.methods = ds at hmain
  induction hmain with
  | nil =>
    by_cases hx : exact
    · rw [hexact hx]
      exact .none
    · exact .loose hx
  | @cons d e _ _ hde _ ih =>
    have ha := hde.alike
    simp only [List.cons_append, List.find?_cons, MethodDecl.hasSignature, ha.name, ha.paramTypes]
    split
    · exact .some hde
    · exact ih

theorem Form.field? (hf : TypeDecl.Form exact L client mode? t u) (name : String) :
    Option.Rel (FieldDecl.Alike L) (t.field? name) (u.field? name) := by
  have hfields := hf.fields
  simp only [TypeDecl.field?]
  generalize t.fields = fs at hfields
  generalize u.fields = gs at hfields
  induction hfields with
  | nil => exact .none
  | cons hfg _ ih =>
    simp only [List.find?_cons, hfg.name]
    split
    · exact .some hfg
    · exact ih

/-- The initial values of the static fields, or of the others. -/
theorem Form.initialValues (hL : ∀ type, L (Literal.defaultFor type) (Literal.defaultFor type))
    (hf : TypeDecl.Form exact L client mode? t u) (p : Bool → Bool) :
    Dict.Related L (Dict.ofList ((t.fields.filter fun f => p f.isStatic).map fun f => (f.name, f.initialValue)))
      (Dict.ofList ((u.fields.filter fun f => p f.isStatic).map fun f => (f.name, f.initialValue))) := by
  refine Dict.Related.ofList ?_
  have hfields := hf.fields
  generalize t.fields = fs at hfields
  generalize u.fields = gs at hfields
  induction hfields with
  | nil => exact .nil
  | @cons f g _ _ hfg _ ih =>
    simp only [List.filter_cons, FieldDecl.isStatic, hfg.flags] at ih ⊢
    split
    · refine .cons ⟨hfg.name.symm, ?_⟩ ih
      have hi := hfg.initial
      simp only [FieldDecl.initialValue, hfg.type]
      generalize f.initial = x at hi ⊢
      generalize g.initial = y at hi ⊢
      cases hi with
      | none => exact hL _
      | some hxy => exact hxy
    · exact ih

end TypeDecl

/-! ## Code that stays as it is -/

/-- The literals of a type. -/
inductive TypeDecl.Mentions (t : TypeDecl α) : α → Prop
  | field {f : FieldDecl α} {x : α} : f ∈ t.fields → x ∈ f.initial → Mentions t x
  | default {d : MethodDecl α} {p : ParamDecl α} {x : α} : d ∈ t.methods → p ∈ d.params → x ∈ p.default → Mentions t x
  | const {d : MethodDecl α} {x : α} : d ∈ t.methods → .const x ∈ d.body → Mentions t x

/-- The literals of a type are those of its fields, of its parameters and of its bodies. -/
theorem TypeDecl.forall_mentions {t : TypeDecl α} {P : α → Prop} : (∀ x, t.Mentions x → P x) ↔
    (∀ f ∈ t.fields, ∀ x ∈ f.initial, P x) ∧
      ∀ d ∈ t.methods, (∀ p ∈ d.params, ∀ x ∈ p.default, P x) ∧ ∀ x, .const x ∈ d.body → P x := by
  constructor
  · exact fun h => ⟨fun f hf x hx => h x (.field hf hx), fun d hd =>
      ⟨fun p hp x hx => h x (.default hd hp hx), fun x hx => h x (.const hd hx)⟩⟩
  · rintro ⟨hfields, hmethods⟩ x (⟨hf, hx⟩ | ⟨hd, hp, hx⟩ | ⟨hd, hx⟩)
    · exact hfields _ hf x hx
    · exact (hmethods _ hd).1 _ hp x hx
    · exact (hmethods _ hd).2 x hx

theorem Instruction.Moved.refl {i : Instruction α} (hL : ∀ x, i = .const x → L x x) : Instruction.Moved L 0 i i := by
  cases i with
  | const x => exact ⟨x, rfl, hL x rfl⟩
  | jump t => exact ⟨t, rfl, rfl⟩
  | jumpIfTrue t => exact ⟨t, rfl, rfl⟩
  | jumpIfFalse t => exact ⟨t, rfl, rfl⟩
  | _ => exact rfl

theorem Behind.refl {body : List (Instruction α)} (hL : ∀ x, .const x ∈ body → L x x) : Behind L [] body body :=
  ⟨body, rfl, List.forall₂_same.mpr fun _ hi => .refl fun x hx => hL x (hx ▸ hi)⟩

theorem relOption_refl {x : Option α} (hL : ∀ a ∈ x, L a a) : Option.Rel L x x := by
  cases x with
  | none => exact .none
  | some x => exact .some (hL x rfl)

theorem ParamDecl.Alike.refl {p : ParamDecl α} (hL : ∀ x ∈ p.default, L x x) : p.Alike L p :=
  ⟨rfl, rfl, relOption_refl hL⟩

theorem FieldDecl.Alike.refl {f : FieldDecl α} (hL : ∀ x ∈ f.initial, L x x) : f.Alike L f :=
  ⟨rfl, rfl, rfl, relOption_refl hL⟩

theorem MethodDecl.Alike.refl {d : MethodDecl α} (hL : ∀ p ∈ d.params, ∀ x ∈ p.default, L x x) : d.Alike L d :=
  ⟨rfl, List.forall₂_same.mpr fun p hp => .refl (hL p hp), rfl, rfl, rfl⟩

/-- A type that nothing was made mobile in. -/
theorem TypeDecl.Form.refl [Literal α] {exact : Prop} {client : String} {t : TypeDecl α}
    (hL : ∀ x, t.Mentions x → L x x) : TypeDecl.Form exact L client (fun _ _ => none) t t where
  space := rfl
  name := rfl
  fields := List.forall₂_same.mpr fun _ hf => .refl fun x hx => hL x (.field hf hx)
  methods := by
    refine ⟨t.methods, [], (List.append_nil _).symm, List.forall₂_same.mpr fun d hd => ?_,
      fun _ hs => absurd hs List.not_mem_nil, fun _ => rfl⟩
    exact .plain (fun _ h => nomatch h) (.refl fun p hp x hx => hL x (.default hd hp hx)) rfl
      (.refl fun x hx => hL x (.const hd hx))

end Relations
end MobileCode
