import MobileCode.Proofs.Echoes
import MobileCode.Proofs.Runs
import MobileCode.Proofs.Selection
import MobileCode.Proofs.Successors
import MobileCode.Proofs.Veils

/-! # Machines that stand in for others

A machine stands in for another one if it runs the same methods, perhaps behind fronts, on images of the same objects, and
finds what the instructions refer to. What the first machine comes to, the second one comes to as well: to a linked value in
a related state. How the second machine finds methods, types and static fields is left open here.
-/
namespace MobileCode

/-- Frames of two machines that run the same bodies, perhaps behind fronts. -/
def Comparison.bare (client : String) (limit : Nat) : Comparison where
  module := ""
  client
  mode? := fun _ _ _ _ => none
  foreign := fun _ _ _ _ _ => rfl
  deployed := fun _ => none
  limit
  base := fun _ _ => False
  exact := True

theorem Comparison.bare_moves (client : String) (limit : Nat) (m : MethodHandle) :
    (bare client limit).moves m = false := rfl

theorem Comparison.bare_overhead (client : String) (limit : Nat) (fs : List Frame) :
    (bare client limit).overhead fs = 0 := by
  induction fs with
  | nil => rfl
  | cons f fs ih => simp only [overhead, bare_moves, ih, ite_self, Bool.false_eq_true, if_false]

theorem Comparison.bare_holds {ω : Type} (client : String) {limit : Nat} {s : State ω} (h : s.domain.maxDepth = limit) :
    (bare client limit).Holds s :=
  { types := fun hnone => (nomatch hnone), limit := h }

theorem Frame.stack_of_pop {f f' : Frame} {v : Value} (h : f.pop = .ok (v, f')) : f.stack = v :: f'.stack := by
  unfold Frame.pop at h
  split at h <;> cases h
  assumption

theorem Frame.stack_of_popObject {f f' : Frame} {heap : Heap} {r : Ref} (h : f.popObject heap = .ok (r, f')) :
    ∃ rest, f.stack = .object r :: rest := by
  unfold Frame.popObject at h
  cases hpop : f.pop with
  | error e =>
    rw [hpop] at h
    cases h
  | ok q =>
    obtain ⟨v, g⟩ := q
    rw [hpop] at h
    cases v <;> cases h
    exact ⟨_, Frame.stack_of_pop hpop⟩

/-- The fields of a new object. -/
def TypeDecl.initialFields (t : TypeDecl Value) : Dict Value :=
  Dict.ofList ((t.fields.filter (!·.isStatic)).map fun f => (f.name, f.initialValue))

/-- Whenever a frame comes to execute an instruction within the budget, `P` holds of it and the state. -/
def Machine.Behaves {ω : Type} (env : Environment ω) (P : Frame → State ω → Prop) : Nat → Transition → State ω → Prop
  | 0, _, _ => True
  | _ + 1, .done _, _ => True
  | budget + 1, .next f below, s => P f s ∧ ∀ u s',
      step env (runner env budget) f below s = some (.ok u, s') → Behaves env P budget u s'

/-- One step of a run that behaves. -/
theorem Machine.Behaves.step {ω : Type} {env : Environment ω} {P : Frame → State ω → Prop} {n : Nat} {f : Frame}
    {below : List Frame} {s t : State ω} {u : Transition} (hf : P f s)
    (hstep : Machine.step env (runner env n) f below s = some (.ok u, t)) (h : Behaves env P n u t) :
    Behaves env P (n + 1) (.next f below) s := by
  refine ⟨hf, fun u' t' hstep' => ?_⟩
  cases hstep.symm.trans hstep'
  exact h

/-- Two machines, what is hidden of the objects that they share, and what has to hold besides. -/
structure StandIn (ω ω' : Type) where
  env : Environment ω
  env' : Environment ω'
  /-- The type of the client that the fronts of the second machine's methods turn to. -/
  client : String
  /-- The depth limit of the second machine. -/
  limit : Nat
  veil : Veil
  /-- What the second heap had before. -/
  spared : Heap
  /-- What is related besides the heaps. -/
  Rest : Shared → State ω → State ω' → Prop
  /-- Methods that the two machines run for each other. -/
  Paired : Shared → MethodHandle → MethodHandle → Prop
  /-- May the first machine execute the instruction that the frame stands at? -/
  Admits : Frame → State ω → Prop

namespace StandIn
variable {ω ω' : Type} (p : StandIn ω ω')

abbrev bare : Comparison := .bare p.client p.limit

structure Holds (w : Shared) (s : State ω) (t : State ω') : Prop where
  heap : Heap.Mirrors p.veil p.spared w.links s.domain.heap t.domain.heap
  rest : p.Rest w s t

/-- Two types in which the same fields are made and the same constructors are called. -/
structure Builds (w : Shared) (o o' : String × TypeHandle) : Prop where
  name : o'.1 = o.1
  fields : Dict.Related (Value.Linked w.links) o.2.decl.initialFields o'.2.decl.initialFields
  constructor : ∀ m, (o.2.method? constructorName []).filter (·.decl.isDefaultConstructor) = some m →
    ∃ m', (o'.2.method? constructorName []).filter (·.decl.isDefaultConstructor) = some m' ∧ p.Paired w m m'

/-- The type that a construction means, under the name that its objects get. -/
def builtType {ω : Type} (host : Host ω) (r : TypeRef) : Run (State ω) (String × TypeHandle) := do
  let owner ← host.resolveType r
  let again ← host.resolveLocal owner.decl.fullName
  return (owner.decl.fullName, again)

/-- The new object of a type that has been found, and the frame of its constructor. -/
def beginConstruction {ω : Type} (o : String × TypeHandle) : Run (State ω) Frame :=
  match (o.2.method? constructorName []).filter (·.decl.isDefaultConstructor) with
  | none => throw (.memberNotFound constructorName o.1 o.2.module.name)
  | some ctor => do
    let r ← State.alloc ⟨o.1, o.2.decl.initialFields⟩
    Run.ofExcept (Frame.enter (← get).domain.maxDepth 0 ctor (some r) [] (some r))

def readStatic {ω : Type} (host : Host ω) (r : FieldRef) : Run (State ω) Value := do
  let owner ← host.resolveType r.owner
  host.getStatic owner.decl.fullName r.name

def writeStatic {ω : Type} (host : Host ω) (r : FieldRef) (v : Value) : Run (State ω) Unit := do
  let owner ← host.resolveType r.owner
  host.setStatic owner.decl.fullName r.name v

/-- What an instruction of the first machine needs to come to the same in the second one. -/
def Meets (w : Shared) (f : Frame) (s : State ω) (t : State ω') : Instruction Value → Prop
  | .loadField r => ∀ ref rest, f.stack = .object ref :: rest → ¬p.veil ref r.name
  | .compare _ => ∀ x y rest, f.stack = y :: x :: rest → Heap.Distinct p.veil s.domain.heap x y
  | .loadStatic r => Run.Echoes p.Holds (fun w => Value.Linked w.links) w s t (readStatic p.env.host r)
      (readStatic p.env'.host r)
  | .storeStatic r => ∀ v v', Value.Linked w.links v v' →
      Run.Echoes p.Holds (fun _ _ _ => True) w s t (writeStatic p.env.host r v) (writeStatic p.env'.host r v')
  | .construct r => Run.Echoes p.Holds p.Builds w s t (builtType p.env.host r) (builtType p.env'.host r)
  | .call r => Option.Rel (Native.Echoes p.Holds) (p.env.host.native? r.owner.fullName r.name)
        (p.env'.host.native? r.owner.fullName r.name) ∧
      (p.env.host.native? r.owner.fullName r.name = none →
        Run.Echoes p.Holds p.Paired w s t (p.env.host.resolveMethod r) (p.env'.host.resolveMethod r))
  | _ => True

structure Lawful : Prop where
  idle : ∀ client, p.env.dispatcher? client = none
  idle' : ∀ client, p.env'.dispatcher? client = none
  limits : ∀ {w s t}, p.Rest w s t → s.domain.maxDepth ≤ p.limit ∧ t.domain.maxDepth = p.limit
  /-- Objects are made and changed. -/
  heap : ∀ {w s t links h k}, p.Rest w s t → w.links ≤ links → t.domain.heap.Retains k →
    p.Rest { w with links } (s.withHeap h) (t.withHeap k)
  mono : ∀ {w w' m m'}, w ≤ w' → p.Paired w m m' → p.Paired w' m m'
  alike : ∀ {w m m'}, p.Paired w m m' → MethodHandle.Alike p.bare w.links m m'
  meets : ∀ {w f m' s t i}, p.Paired w f.method m' → p.Holds w s t → p.Admits f s →
    f.method.decl.body[f.position]? = some i → p.Meets w f s t i

/-- Frames at the same instruction, the second one `k` positions further on. -/
structure Plays (w : Shared) (k : Nat) (f g : Frame) : Prop where
  paired : p.Paired w f.method g.method
  stands : Frame.Stands p.bare w.links k [] [] f g

abbrev Stacks (w : Shared) (fs gs : List Frame) : Prop := List.Forall₂ (fun f g => ∃ k, p.Plays w k f g) fs gs

inductive Alike (w : Shared) : Transition → Transition → Prop
  | next {f g : Frame} {below below' : List Frame} : p.Stacks w (f :: below) (g :: below') →
    Alike w (.next f below) (.next g below')
  | done {v v' : Value} : Value.Linked w.links v v' → Alike w (.done v) (.done v')

/-- Quiet steps of the second machine lead to where the first one is. -/
abbrev Reaches (w : Shared) (u : Transition) : Transition → Prop :=
  Transition.Leads p.bare p.env' (p.Alike w u)

variable {p} (hp : p.Lawful) {w w' : Shared} {k : Nat} {f g : Frame} {below below' : List Frame} {s : State ω}
  {t : State ω'} {v v' : Value}

/-! ## States -/

theorem Holds.typed : Shared.Types p.Holds := fun hs => hs.heap.typed

section States
include hp

theorem Lawful.setField_echoes (hs : p.Holds w s t) {r r' : Ref} (hr : w.links r r') (name : String)
    (hv : Value.Linked w.links v v') :
    Run.Echoes p.Holds (fun _ _ _ => True) w s t (State.setField r name v) (State.setField r' name v') :=
  .modify ⟨hs.heap.setField hr name hv, hp.heap hs.rest le_rfl (Heap.retains_setField _ r' name v')⟩ trivial

theorem Lawful.alloc_echoes (hs : p.Holds w s t) {o o' : Object} (ho : Object.Linked w.links o o') :
    Run.Echoes p.Holds (fun w r r' => w.links r r') w s t (State.alloc o) (State.alloc o') := by
  intro r s' hr
  cases hr
  obtain ⟨links, hle, hlinked, hheap⟩ := hs.heap.alloc ho
  exact ⟨_, _, { w with links }, rfl, ⟨hle, fun _ => id⟩, ⟨hheap, hp.heap hs.rest hle (Heap.extends_alloc _ o').retains⟩, hlinked⟩

end States

/-! ## Frames -/

namespace Plays

theorem mono (hp : p.Lawful) (hw : w ≤ w') (h : p.Plays w k f g) : p.Plays w' k f g :=
  ⟨hp.mono hw h.paired, h.stands.mono hw.1⟩

theorem depth (h : p.Plays w k f g) : g.depth = f.depth := by
  have hd := h.stands.depth
  rwa [Comparison.bare_overhead, Nat.add_zero] at hd

theorem push (h : p.Plays w k f g) (hv : Value.Linked w.links v v') : p.Plays w k (f.push v) (g.push v') :=
  ⟨h.paired, h.stands.push hv⟩

theorem pop {f' : Frame} (h : p.Plays w k f g) (hf : f.pop = .ok (v, f')) :
    ∃ v' g', g.pop = .ok (v', g') ∧ Value.Linked w.links v v' ∧ p.Plays w k f' g' := by
  have hpop := h.stands.pop
  rw [hf] at hpop
  generalize hg : g.pop = y at hpop
  cases hpop with
  | @ok _ q hq =>
    obtain ⟨v', g'⟩ := q
    have hm := (Frame.samePlace_restacked (Frame.restacked_pop hf)).method
    have hm' := (Frame.samePlace_restacked (Frame.restacked_pop hg)).method
    exact ⟨v', g', rfl, hq.1, hm.symm ▸ hm'.symm ▸ h.paired, hq.2⟩

theorem popMany {n : Nat} {vs : List Value} {f' : Frame} (h : p.Plays w k f g) (hf : f.popMany n = .ok (vs, f')) :
    ∃ vs' g', g.popMany n = .ok (vs', g') ∧ List.Forall₂ (Value.Linked w.links) vs vs' ∧ p.Plays w k f' g' := by
  have hpop := h.stands.popMany n
  rw [hf] at hpop
  generalize hg : g.popMany n = y at hpop
  cases hpop with
  | @ok _ q hq =>
    obtain ⟨vs', g'⟩ := q
    have hm := (Frame.samePlace_restacked (Frame.restacked_popMany hf)).method
    have hm' := (Frame.samePlace_restacked (Frame.restacked_popMany hg)).method
    exact ⟨vs', g', rfl, hq.1, hm.symm ▸ hm'.symm ▸ h.paired, hq.2⟩

theorem popObject {heap heap' : Heap} {r : Ref} {f' : Frame} (h : p.Plays w k f g)
    (hf : f.popObject heap = .ok (r, f')) :
    ∃ r' g', g.popObject heap' = .ok (r', g') ∧ w.links r r' ∧ p.Plays w k f' g' := by
  unfold Frame.popObject at hf ⊢
  cases hpop : f.pop with
  | error e =>
    rw [hpop] at hf
    cases hf
  | ok q =>
    obtain ⟨v, f₁⟩ := q
    obtain ⟨v', g₁, hg, hv, hplays⟩ := h.pop hpop
    rw [hpop] at hf
    rw [hg]
    cases hv with
    | object hr =>
      cases hf
      exact ⟨_, _, rfl, hr, hplays⟩
    | _ => cases hf

theorem withPosition (h : p.Plays w k f g) {n m : Nat} (hm : m = n + k) :
    p.Plays w k { f with position := n } { g with position := m } :=
  ⟨h.paired, h.stands.withPosition hm⟩

theorem ahead (h : p.Plays w k f g) : p.Plays w k f.ahead g.ahead :=
  h.withPosition (by rw [h.stands.alike.position]; omega)

theorem reaches (h : p.Plays w k f g) (hb : p.Stacks w below below') :
    p.Reaches w (.next f below) (.next g below') := .here (.next (.cons ⟨k, h⟩ hb))

end Plays

theorem Stacks.mono (hp : p.Lawful) (hw : w ≤ w') {fs gs : List Frame} (h : p.Stacks w fs gs) : p.Stacks w' fs gs :=
  h.imp fun _ _ hk => ⟨hk.choose, hk.choose_spec.mono hp hw⟩

/-- A method is entered on both sides, and quiet steps lead over the front of the second one. -/
theorem enter_echoes (hp : p.Lawful) {m m' : MethodHandle} (hm : p.Paired w m m') {limit depth : Nat} (hlimit : limit ≤ p.limit)
    {r r' : Option Ref} (hr : Option.Rel w.links r r') {args args' : List Value}
    (hargs : List.Forall₂ (Value.Linked w.links) args args') {constructs constructs' : Option Ref}
    (hcons : Option.Rel w.links constructs constructs') (hb : p.Stacks w below below')
    (hf : Frame.enter limit depth m r args constructs = .ok f) :
    ∃ g, Frame.enter p.limit depth m' r' args' constructs' = .ok g ∧ p.Reaches w (.next f below) (.next g below') := by
  have halike := hp.alike hm
  have ha := halike.form.alike
  have hbind := Frame.bindArguments_tracks (c := p.bare) halike.key ha.params hargs
  have hnone : r' = none ↔ r = none := by cases hr <;> simp
  obtain ⟨_, front, hfront, hbody⟩ := halike.inPlace (Comparison.bare_moves _ _ m)
  rw [Frame.enter_eq] at hf ⊢
  split at hf
  · cases hf
  rename_i hdepth
  rw [if_neg fun h => hdepth (Nat.le_trans hlimit h)]
  generalize Frame.bindArguments m args = x at hbind hf
  generalize Frame.bindArguments m' args' = y at hbind
  cases hbind with
  | error _ => cases hf
  | loose hx => exact absurd trivial hx
  | @ok vs vs' hvs =>
    simp only [ha.static, hnone] at hf ⊢
    split at hf
    · cases hf
    rename_i hreceiver
    cases hf
    rw [if_neg hreceiver]
    refine ⟨_, rfl, ?_⟩
    have hdeep : depth = depth + if constructs.isSome then 0 else p.bare.overhead [] := by simp [Comparison.overhead]
    have hstands := Frame.stands_inPlace halike (Comparison.bare_moves _ _ m) hbody .nil hcons hdeep hr hvs.2
    have hplays : p.Reaches w (.next (.first m r vs depth constructs) below)
        (.next { Frame.first m' r' vs' depth constructs' with position := front.length } below') :=
      Plays.reaches ⟨hm, hstands⟩ hb
    cases hfront with
    | none => exact hplays
    | normal site hclient hcount =>
      obtain ⟨rest, hrest, _⟩ := hbody
      have hcount' : site.paramCount.toNat = vs'.length := by rw [hcount, ← hvs.1, hvs.2.length_eq]
      have hidle : p.env'.IdleFor site.client.fullName := fun d hd => nomatch (hp.idle' _).symm.trans hd
      exact .over_normalFront hrest hidle (Nat.le_of_eq hcount') rfl hplays

/-! ## Instructions -/

/-- What a step makes of two stacks. -/
abbrev Steps (p : StandIn ω ω') (w : Shared) (s : State ω) (t : State ω') (x : Run (State ω) Transition)
    (y : Run (State ω') Transition) : Prop := Run.Echoes p.Holds p.Reaches w s t x y

section
open Machine

theorem Steps.go (hs : p.Holds w s t) (h : p.Plays w k f g) (hb : p.Stacks w below below') :
    p.Steps w s t (pure (.next f below)) (pure (.next g below')) := .pure hs (h.reaches hb)

theorem Steps.getHeap {x : Heap → Run (State ω) Transition} {y : Heap → Run (State ω') Transition}
    (h : p.Steps w s t (x s.domain.heap) (y t.domain.heap)) :
    p.Steps w s t (State.getHeap >>= x) (State.getHeap >>= y) := h

theorem Steps.pop (h : p.Plays w k f g) {x : Value × Frame → Run (State ω) Transition}
    {y : Value × Frame → Run (State ω') Transition}
    (hxy : ∀ v v' f' g', f.pop = .ok (v, f') → Value.Linked w.links v v' → p.Plays w k f' g' →
      p.Steps w s t (x (v, f')) (y (v', g'))) :
    p.Steps w s t (Run.ofExcept f.pop >>= x) (Run.ofExcept g.pop >>= y) := by
  refine Run.Echoes.ofExcept_bind fun q hq => ?_
  obtain ⟨v, f'⟩ := q
  obtain ⟨v', g', hg, hv, hplays⟩ := h.pop hq
  exact ⟨_, hg, hxy v v' f' g' hq hv hplays⟩

theorem Steps.popObject (h : p.Plays w k f g) {heap heap' : Heap} {x : Ref × Frame → Run (State ω) Transition}
    {y : Ref × Frame → Run (State ω') Transition}
    (hxy : ∀ r r' f' g', f.popObject heap = .ok (r, f') → w.links r r' → p.Plays w k f' g' →
      p.Steps w s t (x (r, f')) (y (r', g'))) :
    p.Steps w s t (Run.ofExcept (f.popObject heap) >>= x) (Run.ofExcept (g.popObject heap') >>= y) := by
  refine Run.Echoes.ofExcept_bind fun q hq => ?_
  obtain ⟨r, f'⟩ := q
  obtain ⟨r', g', hg, hr, hplays⟩ := h.popObject hq
  exact ⟨_, hg, hxy r r' f' g' hq hr hplays⟩

/-- The end of a frame is the end of the frame that plays it. -/
theorem finish_reaches (h : p.Plays w k f g) (hb : p.Stacks w below below') (hv : Value.Linked w.links v v') :
    p.Reaches w (finish f below v) (finish g below' v') := by
  have hc := h.stands.alike.constructs
  have hvoid := h.stands.alike.isVoid
  have hresult : Value.Linked w.links (constructedOr f.constructs v) (constructedOr g.constructs v') := by
    generalize f.constructs = x at hc
    generalize g.constructs = y at hc
    cases hc with
    | none => exact hv
    | some hr => exact .object hr
  have hsome : g.constructs.isSome = f.constructs.isSome := by
    generalize f.constructs = x at hc
    generalize g.constructs = y at hc
    cases hc <;> rfl
  cases hb with
  | nil => exact .here (.done hresult)
  | cons hcaller hrest =>
    obtain ⟨j, hcaller⟩ := hcaller
    simp only [finish, Frame.giveBack, hsome, hvoid]
    split
    · exact (hcaller.push hresult).reaches hrest
    split
    · exact hcaller.reaches hrest
    · exact (hcaller.push hv).reaches hrest

theorem compare_echoes (hs : p.Holds w s t) (op : CompareOp) {x x' y y' : Value} (hx : Value.Linked w.links x x')
    (hy : Value.Linked w.links y y') (hxy : Heap.Distinct p.veil s.domain.heap x y) :
    Run.Echoes p.Holds (fun _ => Eq) w s t (Machine.compare s.domain.heap op x y)
      (Machine.compare t.domain.heap op x' y') := by
  have hequal := hs.heap.equal hx hy hxy
  simp only [Machine.compare, hx.compare? hy]
  cases x'.compare? y' with
  | some o => exact .pure hs rfl
  | none =>
    cases op with
    | eq =>
      simp only [hequal]
      intro b s' hb
      cases he : Heap.equal t.domain.heap x' y' with
      | none =>
        rw [he] at hb
        cases hb
      | some b' =>
        rw [he] at hb
        cases hb
        exact ⟨_, t, w, rfl, le_rfl, hs, rfl⟩
    | ne =>
      simp only [hequal]
      refine Run.Echoes.ofOption_bind fun b hb => ⟨b, hb, ?_⟩
      exact .pure (R := fun _ => Eq) hs rfl
    | _ => exact .throw

theorem binary_echoes (hs : p.Holds w s t) (op : BinaryOp) {x x' y y' z : Value} (hx : Value.Linked w.links x x')
    (hy : Value.Linked w.links y y') (hz : binary s.domain.heap f op x y = .ok z) :
    ∃ z', binary t.domain.heap g op x' y' = .ok z' ∧ Value.Linked w.links z z' := by
  have happly := op.apply_typed hs.heap.typed hx hy
  unfold binary at hz ⊢
  generalize op.apply s.domain.heap x y = u at happly hz
  generalize op.apply t.domain.heap x' y' = u' at happly
  cases happly with
  | ok hv =>
    cases hz
    exact ⟨_, rfl, hv⟩
  | error e => cases e <;> cases hz

theorem truth_echoes {h h' : Heap} {x x' : Value} (hx : Value.Linked w.links x x') {b : Bool} (hb : truth h x = .ok b) :
    truth h' x' = .ok b := by
  unfold truth at hb ⊢
  rw [hx.truth?] at hb
  cases hv : x'.truth? with
  | none =>
    rw [hv] at hb
    cases hb
  | some c =>
    rw [hv] at hb
    exact hb

/-- A call to a native method, or the first frame of a method. -/
theorem call_steps (hp : p.Lawful) (hs : p.Holds w s t) (h : p.Plays w k f g) (hb : p.Stacks w below below') {r : MethodRef}
    {f₀ : Frame} (hr : p.Meets w f₀ s t (.call r)) :
    p.Steps w s t (call p.env.host f below r) (call p.env'.host g below' r) := by
  obtain ⟨hnative, hmethod⟩ := hr
  unfold call
  generalize p.env.host.native? r.owner.fullName r.name = n at hnative hmethod
  generalize p.env'.host.native? r.owner.fullName r.name = n' at hnative
  cases hnative with
  | some hn =>
    refine Run.Echoes.ofExcept_bind fun q hq => ?_
    obtain ⟨args, f'⟩ := q
    obtain ⟨args', g', hg, hargs, h'⟩ := h.popMany hq
    refine ⟨_, hg, (hn.call hs hargs).bind fun w' s' t' v v' hle hs' hv => ?_⟩
    rw [hn.returnsValue]
    have hb' := Stacks.mono hp hle hb
    split
    · exact Steps.go hs' ((h'.mono hp hle).push hv) hb'
    · exact Steps.go hs' (h'.mono hp hle) hb'
  | none =>
    refine (hmethod rfl).bind fun w' s' t' callee callee' hle hs' hcallee => ?_
    have ha := (hp.alike hcallee).form.alike
    have hlimits := hp.limits hs'.rest
    have hb' := Stacks.mono hp hle hb
    rw [← ha.params.length_eq, ha.static]
    refine Run.Echoes.ofExcept_bind fun q hq => ?_
    obtain ⟨args, f'⟩ := q
    obtain ⟨args', g', hg, hargs, h'⟩ := (h.mono hp hle).popMany hq
    refine ⟨_, hg, ?_⟩
    have hgo {r r' : Option Ref} {f g : Frame} (hr : Option.Rel w'.links r r') (h : p.Plays w' k f g) : p.Steps w' s' t'
        (do let top ← Run.ofExcept (Frame.enter (← get).domain.maxDepth (f.depth + 1) callee r args)
            return .next top (f :: below))
        (do let top ← Run.ofExcept (Frame.enter (← get).domain.maxDepth (g.depth + 1) callee' r' args')
            return .next top (g :: below')) := by
      unfold Steps Run.Echoes
      rw [Run.get_bind, Run.get_bind, hlimits.2, h.depth]
      refine Run.Echoes.ofExcept_bind fun top htop => ?_
      obtain ⟨top', htop', hreaches⟩ := enter_echoes hp hcallee hlimits.1 hr hargs .none (.cons ⟨k, h⟩ hb') htop
      exact ⟨top', htop', .pure hs' hreaches⟩
    cases callee.decl.isStatic with
    | true => exact hgo .none h'
    | false =>
      simp only [Bool.false_eq_true, if_false, pure_bind]
      exact Steps.getHeap (Steps.popObject h' fun r r' f' g' _ hr hplays => hgo (.some hr) hplays)

/-- The first frame of the constructor of a new object. -/
theorem construct_steps (hp : p.Lawful) (hb : p.Stacks w below below') {r : TypeRef}
    (hr : Run.Echoes p.Holds p.Builds w s t (builtType p.env.host r) (builtType p.env'.host r)) :
    p.Steps w s t
      (do let owner ← p.env.host.resolveType r
          return .next (← startConstruction p.env.host owner.decl.fullName) below)
      (do let owner ← p.env'.host.resolveType r
          return .next (← startConstruction p.env'.host owner.decl.fullName) below') := by
  have heq {ω : Type} (host : Host ω) (below : List Frame) : (do
      let owner ← host.resolveType r
      return .next (← startConstruction host owner.decl.fullName) below : Run (State ω) Transition) =
        builtType host r >>= fun o => beginConstruction o >>= fun f => pure (.next f below) := by
    simp only [builtType, startConstruction, beginConstruction, bind_assoc, pure_bind]
    rfl
  rw [heq, heq]
  refine hr.bind fun w₁ s₁ t₁ o o' hle₁ hs₁ hbuilds => ?_
  cases hctor : (o.2.method? constructorName []).filter (·.decl.isDefaultConstructor) with
  | none =>
    rw [beginConstruction, hctor]
    exact .throw
  | some m =>
    obtain ⟨m', hctor', hm⟩ := hbuilds.constructor m hctor
    rw [beginConstruction, beginConstruction, hctor, hctor', hbuilds.name]
    simp only [bind_assoc]
    have hobjects : Object.Linked w₁.links ⟨o.1, o.2.decl.initialFields⟩ ⟨o.1, o'.2.decl.initialFields⟩ :=
      ⟨rfl, hbuilds.fields⟩
    refine (hp.alloc_echoes hs₁ hobjects).bind fun w₂ s₂ t₂ r r' hle₂ hs₂ hr => ?_
    have hlimits := hp.limits hs₂.rest
    unfold Run.Echoes
    rw [Run.get_bind, Run.get_bind, hlimits.2]
    refine Run.Echoes.ofExcept_bind fun top htop => ?_
    obtain ⟨top', htop', hreaches⟩ := enter_echoes hp (hp.mono hle₂ hm) hlimits.1 (.some hr) .nil (.some hr)
      (Stacks.mono hp (hle₁.trans hle₂) hb) htop
    exact ⟨top', htop', .pure hs₂ hreaches⟩

theorem execute_loadStatic {ω : Type} (env : Environment ω) (run : Runner ω) (f : Frame) (below : List Frame)
    (r : FieldRef) : execute env run f below (.loadStatic r) =
      readStatic env.host r >>= fun v => pure (.next (f.push v) below) := by
  simp only [execute, readStatic, bind_assoc]

theorem execute_storeStatic {ω : Type} (env : Environment ω) (run : Runner ω) (f : Frame) (below : List Frame)
    (r : FieldRef) : execute env run f below (.storeStatic r) =
      Run.ofExcept f.pop >>= fun q => writeStatic env.host r q.1 >>= fun _ => pure (.next q.2 below) := by
  simp only [execute, writeStatic, bind_assoc]

/-- Where no client is, a call is not executed elsewhere. -/
theorem execute_dispatch_idle {ω : Type} {env : Environment ω} (hidle : ∀ client, env.dispatcher? client = none)
    (run : Runner ω) (f : Frame) (below : List Frame) (site : DispatchSite) :
    execute env run f below (.dispatch site) = pure (.next ((f.push .null).push (.bool false)) below) := by
  simp only [execute, dispatch, hidle]
  rfl

/-- Each instruction that meets what it needs does the same in both machines. -/
theorem execute_steps (hp : p.Lawful) (run : Runner ω) (run' : Runner ω') (hs : p.Holds w s t) (h : p.Plays w k f.ahead g)
    (hb : p.Stacks w below below') {i j : Instruction Value} (hij : Instruction.Moved (Value.Linked w.links) k i j)
    (hi : p.Meets w f s t i) :
    p.Steps w s t (execute p.env run f.ahead below i) (execute p.env' run' g below' j) := by
  cases i with
  | nop =>
    cases hij
    exact Steps.go hs h hb
  | const x =>
    obtain ⟨y, rfl, hxy⟩ := hij
    exact Steps.go hs (h.push hxy) hb
  | loadArg n =>
    cases hij
    have ha := h.stands.alike.argument? n.toNat
    simp only [execute]
    generalize f.ahead.args[n.toNat]? = x at ha
    generalize g.args[n.toNat]? = y at ha
    cases ha with
    | some hv => exact Steps.go hs (h.push hv) hb
    | none => exact .throw
    | loose hx => exact absurd trivial hx
  | storeArg n =>
    cases hij
    refine Steps.pop h fun v v' f' g' _ hv h' => ?_
    have hlen := h'.stands.alike.length_args.2 trivial
    simp only [← hlen]
    split
    · rename_i hn
      exact Steps.go hs ⟨h'.paired, h'.stands.withArg hn hv⟩ hb
    · exact .throw
  | loadLocal n =>
    cases hij
    have hl := Forall₂.getElem? h.stands.alike.locals n.toNat
    simp only [execute]
    generalize f.ahead.locals[n.toNat]? = x at hl
    generalize g.locals[n.toNat]? = y at hl
    cases hl with
    | some hv => exact Steps.go hs (h.push hv) hb
    | none => exact .throw
  | storeLocal n =>
    cases hij
    refine Steps.pop h fun v v' f' g' _ hv h' => ?_
    simp only [h'.stands.alike.locals.length_eq]
    split
    · exact Steps.go hs ⟨h'.paired, h'.stands.setLocal n.toNat hv⟩ hb
    · exact .throw
  | loadThis =>
    cases hij
    have hr := h.stands.alike.receiver
    simp only [execute]
    generalize f.ahead.receiver = x at hr
    generalize g.receiver = y at hr
    cases hr with
    | some hr => exact Steps.go hs (h.push (.object hr)) hb
    | none => exact .throw
  | loadField field =>
    cases hij
    refine Steps.getHeap (Steps.popObject h fun r r' f' g' hpop hr h' => ?_)
    have hshown : ¬p.veil r field.name := by
      obtain ⟨rest, hstack⟩ := Frame.stack_of_popObject hpop
      exact hi r rest hstack
    have hfield := hs.heap.field? hr hshown
    simp only
    generalize s.domain.heap.field? r field.name = x at hfield
    generalize t.domain.heap.field? r' field.name = y at hfield
    cases hfield with
    | some hv => exact Steps.go hs (h'.push hv) hb
    | none => exact .throw
  | storeField field =>
    cases hij
    refine Steps.pop h fun v v' f' g' _ hv h' => ?_
    refine Steps.getHeap (Steps.popObject h' fun r r' f'' g'' _ hr h'' => ?_)
    exact (hp.setField_echoes hs hr field.name hv).bind fun w' s' t' _ _ hle hs' _ =>
      Steps.go hs' (h''.mono hp hle) (Stacks.mono hp hle hb)
  | loadStatic field =>
    cases hij
    rw [execute_loadStatic, execute_loadStatic]
    exact Run.Echoes.bind hi fun w' s' t' v v' hle hs' hv =>
      Steps.go hs' ((h.mono hp hle).push hv) (Stacks.mono hp hle hb)
  | storeStatic field =>
    cases hij
    rw [execute_storeStatic, execute_storeStatic]
    refine Steps.pop h fun v v' f' g' _ hv h' => ?_
    exact (hi v v' hv).bind fun w' s' t' _ _ hle hs' _ => Steps.go hs' (h'.mono hp hle) (Stacks.mono hp hle hb)
  | call m =>
    cases hij
    exact call_steps hp hs h hb hi
  | construct r =>
    cases hij
    exact construct_steps hp (.cons ⟨k, h⟩ hb) hi
  | binary op =>
    cases hij
    refine Steps.pop h fun y y' f' g' _ hy h' => Steps.pop h' fun x x' f'' g'' _ hx h'' => ?_
    refine Steps.getHeap (Run.Echoes.ofExcept_bind fun z hz => ?_)
    obtain ⟨z', hz', hlinked⟩ := binary_echoes (g := g'') hs op hx hy hz
    exact ⟨z', hz', Steps.go hs (h''.push hlinked) hb⟩
  | compare op =>
    cases hij
    refine Steps.pop h fun y y' f' g' hpop hy h' => Steps.pop h' fun x x' f'' g'' hpop' hx h'' => ?_
    have hdistinct : Heap.Distinct p.veil s.domain.heap x y := by
      have hstack := Frame.stack_of_pop hpop
      rw [Frame.stack_of_pop hpop'] at hstack
      exact hi x y _ hstack
    refine Steps.getHeap ((compare_echoes hs op hx hy hdistinct).bind fun w' s' t' b _ hle hs' heq => ?_)
    subst heq
    exact Steps.go hs' ((h''.mono hp hle).push (.bool b)) (Stacks.mono hp hle hb)
  | not =>
    cases hij
    refine Steps.pop h fun x x' f' g' _ hx h' => Steps.getHeap (Run.Echoes.ofExcept_bind fun b hbool => ?_)
    exact ⟨b, truth_echoes hx hbool, Steps.go hs (h'.push (.bool !b)) hb⟩
  | jump n =>
    obtain ⟨u, rfl, hu⟩ := hij
    exact Steps.go hs (h.withPosition hu) hb
  | jumpIfTrue n =>
    obtain ⟨u, rfl, hu⟩ := hij
    refine Steps.pop h fun x x' f' g' _ hx h' => Steps.getHeap (Run.Echoes.ofExcept_bind fun b hbool => ?_)
    refine ⟨b, truth_echoes hx hbool, ?_⟩
    cases b with
    | true => exact Steps.go hs (h'.withPosition hu) hb
    | false => exact Steps.go hs h' hb
  | jumpIfFalse n =>
    obtain ⟨u, rfl, hu⟩ := hij
    refine Steps.pop h fun x x' f' g' _ hx h' => Steps.getHeap (Run.Echoes.ofExcept_bind fun b hbool => ?_)
    refine ⟨b, truth_echoes hx hbool, ?_⟩
    cases b with
    | true => exact Steps.go hs h' hb
    | false => exact Steps.go hs (h'.withPosition hu) hb
  | dup =>
    cases hij
    have hstack := h.stands.alike.stack
    simp only [execute]
    generalize f.ahead.stack = xs at hstack
    generalize g.stack = ys at hstack
    cases hstack with
    | nil => exact .throw
    | cons hv _ => exact Steps.go hs (h.push hv) hb
  | pop =>
    cases hij
    exact Steps.pop h fun v v' f' g' _ _ h' => Steps.go hs h' hb
  | ret =>
    cases hij
    simp only [execute, h.stands.alike.isVoid]
    split
    · exact .pure hs (finish_reaches h hb .null)
    · exact Steps.pop h fun v v' f' g' _ hv h' => .pure hs (finish_reaches h' hb hv)
  | throw =>
    cases hij
    exact Steps.pop h fun x x' f' g' _ hx h' => Steps.getHeap .throw
  | dispatch site =>
    cases hij
    rw [execute_dispatch_idle hp.idle, execute_dispatch_idle hp.idle']
    exact Steps.go hs ((h.push .null).push (.bool false)) hb

/-! ## Runs -/

/-- One step of two stacks. -/
theorem step_steps (hp : p.Lawful) (run : Runner ω) (run' : Runner ω') (hs : p.Holds w s t) (h : p.Plays w k f g)
    (hb : p.Stacks w below below') (ha : p.Admits f s) :
    p.Steps w s t (step p.env run f below) (step p.env' run' g below') := by
  have hnext := next_moved h.stands.alike
  unfold step
  generalize hi : f.method.decl.body[f.position]? = x at hnext
  generalize g.method.decl.body[g.position]? = y at hnext
  cases hnext with
  | none => exact .throw
  | @some i j hij => exact execute_steps hp run run' hs h.ahead hb hij (hp.meets h.paired hs ha hi)

/-- The second machine comes to the end that the first one comes to. -/
theorem resume_echoes (hp : p.Lawful) {w : Shared} {budget : Nat} {u u' : Transition} {s s' : State ω} {t : State ω'} {v : Value}
    (hu : p.Reaches w u u') (hs : p.Holds w s t) (hbehaves : Behaves p.env p.Admits budget u s)
    (hv : resume p.env budget u s = some (.ok v, s')) :
    ∃ n v' t' w', resume p.env' n u' t = some (.ok v', t') ∧ w ≤ w' ∧ p.Holds w' s' t' ∧ Value.Linked w'.links v v' := by
  obtain ⟨n, u', hn, hend⟩ := hu.catchUp (Comparison.bare_holds _ (hp.limits hs.rest).2)
  cases hend with
  | @next f g below below' hfg =>
    cases budget with
    | zero => cases hv
    | succ budget =>
      cases hfg with
      | cons hf hb =>
      obtain ⟨k, hf⟩ := hf
      rw [resume_succ] at hv
      obtain ⟨u₁, s₁, hstep, hrest⟩ := Run.bind_eq_ok.mp hv
      obtain ⟨u₁', t₁, w₁, hstep', hle, hs₁, hu₁⟩ :=
        step_steps hp (runner p.env budget) (runner p.env' 0) hs hf hb hbehaves.1 u₁ s₁ hstep
      obtain ⟨m, v', t', w', hv', hle', hs', hlinked⟩ := resume_echoes hp hu₁ hs₁ (hbehaves.2 u₁ s₁ hstep) hrest
      have hidle : ∀ site, g.method.decl.body[g.position]? = some (.dispatch site) →
          p.env'.IdleFor site.client.fullName := fun site _ d hd => nomatch (hp.idle' _).symm.trans hd
      exact ⟨m + 1 + n, v', t', w', (hn _).trans ((resume_step hidle hstep' m).trans hv'), hle.trans hle', hs', hlinked⟩
  | @done a b hab =>
    have hdone : ∃ a', v = a' ∧ s' = s ∧ a' = a := by
      cases budget <;> cases hv <;> exact ⟨_, rfl, rfl, rfl⟩
    obtain ⟨_, rfl, rfl, rfl⟩ := hdone
    exact ⟨0 + n, b, t, w, hn 0, le_rfl, hs, hab⟩
termination_by budget

end

end StandIn
end MobileCode
