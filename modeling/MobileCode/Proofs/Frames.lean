import MobileCode.Execution.Machine
import MobileCode.Proofs.Domains

/-! # Stacks side by side

A frame executes a body in one domain and its form in the other, behind a front. Where the body has
moved to a sibling, the method itself waits below it for its return. Whenever a frame stands in front
of code that only one of the domains has, quiet steps lead over it.
-/
namespace MobileCode
variable (c : Comparison) (w : Links)

/-- The body of a method has moved to a sibling. -/
def Comparison.moves (m : MethodHandle) : Bool := (c.modeOf? m).any (· ≠ .normal)

/-- The frames that siblings add to a chain of calls. A construction starts a chain of its own. -/
def Comparison.overhead : List Frame → Nat
  | [] => 0
  | f :: below => (if c.moves f.method then 1 else 0) +
      if f.constructs.isSome then 0 else Comparison.overhead below

/-- The frames execute the same code, which stands `k` positions further on in the second one. -/
structure Frame.Alike (k : Nat) (f g : Frame) : Prop where
  key : c.exact → g.method.key = f.method.key
  module : c.exact → g.method.module.name = f.method.module.name
  isVoid : g.method.decl.isVoid = f.method.decl.isVoid
  body : ∃ front, front.length = k ∧ Behind (Value.Linked w) front f.method.decl.body g.method.decl.body
  receiver : Option.Rel w f.receiver g.receiver
  /-- A sibling has its marker behind the arguments. -/
  args : ∃ args extra, g.args = args ++ extra ∧ List.Forall₂ (Value.Linked w) f.args args ∧
    (c.exact → extra = [])
  locals : List.Forall₂ (Value.Linked w) f.locals g.locals
  stack : List.Forall₂ (Value.Linked w) f.stack g.stack
  position : g.position = f.position + k
  constructs : Option.Rel w f.constructs g.constructs

/-- A method that has handed its call on and is about to return. -/
structure Frame.Waits (f : Frame) : Prop where
  next : f.method.decl.body[f.position]? = some .ret
  isVoid : f.method.decl.isVoid = true
  constructs : f.constructs = none

mutual

/-- Stacks, their tops first. -/
inductive Stack.Alike : List Frame → List Frame → Prop
  | nil : Stack.Alike [] []
  | push {k : Nat} {f g : Frame} {below below' : List Frame} : Frame.Alike c w k f g →
    Frame.Rests f g below below' → Stack.Alike (f :: below) (g :: below')

/-- What the frames of two stacks stand on. -/
inductive Frame.Rests : Frame → Frame → List Frame → List Frame → Prop
  | same {f g : Frame} {below below' : List Frame} : c.moves f.method = false →
    g.depth = f.depth + c.overhead (f :: below) → Stack.Alike below below' → Frame.Rests f g below below'
  | moved {f g stub : Frame} {below below' : List Frame} : ¬c.exact → c.moves f.method = true →
    g.depth = f.depth + c.overhead (f :: below) → f.constructs = none →
    f.method.decl.isVoid = true → stub.Waits → Stack.Alike below below' →
    Frame.Rests f g below (stub :: below')

end

/-- The top frames of two stacks. -/
structure Frame.Stands (k : Nat) (below below' : List Frame) (f g : Frame) : Prop where
  alike : Frame.Alike c w k f g
  rests : Frame.Rests c w f g below below'

/-- A state of the second domain, as far as calls of siblings are concerned. -/
structure Comparison.Holds {ω : Type} (s : State ω) : Prop where
  types : ∀ {name t}, c.deployed name = some t → s.domain.type? name = some t
  limit : s.domain.maxDepth = c.limit

/-- Quiet steps of the second machine, which do not change the state, lead to what satisfies `Q`. -/
inductive Transition.Leads {ω : Type} (env : Environment ω) (Q : Transition → Prop) : Transition → Prop
  | here {t : Transition} : Q t → Leads env Q t
  | quiet {t : Transition} {g : Frame} {below : List Frame} :
    (∀ run s, c.Holds s → Machine.step env run g below s = some (.ok t, s)) → Leads env Q t →
    Leads env Q (.next g below)

/-- A stack and one like it, or linked results. -/
inductive Transition.Alike : Transition → Transition → Prop
  | next {f g : Frame} {below below' : List Frame} : Stack.Alike c w (f :: below) (g :: below') →
    Transition.Alike (.next f below) (.next g below')
  | done {v v' : Value} : Value.Linked w v v' → Transition.Alike (.done v) (.done v')

/-- Quiet steps of the second machine lead to a stack like that of the first one, or to its result. -/
abbrev Transition.Reaches {ω : Type} (env : Environment ω) (t : Transition) : Transition → Prop :=
  Transition.Leads c env (Transition.Alike c w t)

/-- There is room for the frames that siblings add, and the method is not one that is relayed. -/
def Transition.Fits : Transition → Prop
  | .done _ => True
  | .next f below => c.exact ∨ (c.modeOf? f.method ≠ some .relay ∧ f.depth + c.overhead (f :: below) < c.limit)

variable {c w}
variable {w' : Links}

theorem forall₂_mono {xs ys : List Value} (hw : w ≤ w') (h : List.Forall₂ (Value.Linked w) xs ys) :
    List.Forall₂ (Value.Linked w') xs ys := Value.Linked.monoItems hw h

theorem relRef_mono (hw : w ≤ w') {r s : Option Ref} (h : Option.Rel w r s) : Option.Rel w' r s := by
  cases h with
  | none => exact .none
  | some hr => exact .some (hw _ _ hr)

theorem Frame.Alike.mono (hw : w ≤ w') {k : Nat} {f g : Frame} (h : Frame.Alike c w k f g) :
    Frame.Alike c w' k f g := by
  obtain ⟨front, hlen, hb⟩ := h.body
  obtain ⟨args, extra, heq, hargs, hextra⟩ := h.args
  exact { h with
    body := ⟨front, hlen, hb.mono fun _ _ hv => hv.mono hw⟩
    receiver := relRef_mono hw h.receiver
    args := ⟨args, extra, heq, forall₂_mono hw hargs, hextra⟩
    locals := forall₂_mono hw h.locals
    stack := forall₂_mono hw h.stack
    constructs := relRef_mono hw h.constructs }

mutual

theorem Stack.Alike.mono (hw : w ≤ w') :
    ∀ {fs gs : List Frame}, Stack.Alike c w fs gs → Stack.Alike c w' fs gs
  | _, _, .nil => .nil
  | _, _, .push hf hr => .push (hf.mono hw) (Frame.Rests.mono hw hr)

theorem Frame.Rests.mono (hw : w ≤ w') : ∀ {f g : Frame} {below below' : List Frame},
    Frame.Rests c w f g below below' → Frame.Rests c w' f g below below'
  | _, _, _, _, .same hmoves hdepth hs => .same hmoves hdepth (Stack.Alike.mono hw hs)
  | _, _, _, _, .moved hx hmoves hdepth hcons hvoid hwaits hs =>
    .moved hx hmoves hdepth hcons hvoid hwaits (Stack.Alike.mono hw hs)

end

/-- What a frame stands on depends on its call alone. -/
theorem Frame.Rests.congr {f g f' g' : Frame} {below below' : List Frame}
    (h : Frame.Rests c w f g below below') (hmethod : f'.method = f.method) (hdepth : f'.depth = f.depth)
    (hcons : f'.constructs = f.constructs) (hdepth' : g'.depth = g.depth) :
    Frame.Rests c w f' g' below below' := by
  have hover : c.overhead (f' :: below) = c.overhead (f :: below) := by
    simp only [Comparison.overhead, hmethod, hcons]
  cases h with
  | same hmoves hd hs => exact .same (hmethod ▸ hmoves) (by rw [hdepth', hd, hdepth, hover]) hs
  | moved hx hmoves hd hc hvoid hwaits hs =>
    exact .moved hx (hmethod ▸ hmoves) (by rw [hdepth', hd, hdepth, hover]) (hcons.trans hc)
      (hmethod ▸ hvoid) hwaits hs

namespace Frame.Stands
variable {k : Nat} {f g : Frame} {below below' : List Frame}

theorem mono (hw : w ≤ w') (h : Frame.Stands c w k below below' f g) :
    Frame.Stands c w' k below below' f g := ⟨h.alike.mono hw, h.rests.mono hw⟩

theorem depth (h : Frame.Stands c w k below below' f g) : g.depth = f.depth + c.overhead (f :: below) := by
  cases h.rests with
  | same _ hdepth _ => exact hdepth
  | moved _ _ hdepth _ _ _ _ => exact hdepth

theorem reaches {ω : Type} {env : Environment ω} (h : Frame.Stands c w k below below' f g) :
    Transition.Reaches c w env (.next f below) (.next g below') := .here (.next (.push h.alike h.rests))

theorem withStack (h : Frame.Stands c w k below below' f g) {xs ys : List Value}
    (hxs : List.Forall₂ (Value.Linked w) xs ys) :
    Frame.Stands c w k below below' { f with stack := xs } { g with stack := ys } :=
  ⟨{ h.alike with stack := hxs }, h.rests.congr rfl rfl rfl rfl⟩

theorem push (h : Frame.Stands c w k below below' f g) {x y : Value} (hx : Value.Linked w x y) :
    Frame.Stands c w k below below' (f.push x) (g.push y) := h.withStack (.cons hx h.alike.stack)

theorem withLocals (h : Frame.Stands c w k below below' f g) {xs ys : List Value}
    (hxs : List.Forall₂ (Value.Linked w) xs ys) :
    Frame.Stands c w k below below' { f with locals := xs } { g with locals := ys } :=
  ⟨{ h.alike with locals := hxs }, h.rests.congr rfl rfl rfl rfl⟩

theorem withPosition (h : Frame.Stands c w k below below' f g) {p q : Nat} (hq : q = p + k) :
    Frame.Stands c w k below below' { f with position := p } { g with position := q } :=
  ⟨{ h.alike with position := hq }, h.rests.congr rfl rfl rfl rfl⟩

end Frame.Stands

/-! ## Operations on the top frames -/

theorem Frame.Alike.exception {k : Nat} {f g : Frame} (h : Frame.Alike c w k f g) (hx : c.exact)
    (message : String) : g.exception message = f.exception message := by
  have hk := h.key hx
  simp only [MethodHandle.key, MethodDecl.key, MethodKey.mk.injEq] at hk
  simp only [Frame.exception, hk.1, hk.2.1]

theorem Frame.Alike.length_args {k : Nat} {f g : Frame} (h : Frame.Alike c w k f g) :
    f.args.length ≤ g.args.length ∧ (c.exact → f.args.length = g.args.length) := by
  obtain ⟨args, extra, heq, hargs, hextra⟩ := h.args
  rw [heq, List.length_append, hargs.length_eq]
  exact ⟨Nat.le_add_right _ _, fun hx => by rw [hextra hx]; rfl⟩

theorem Frame.Alike.argument? {k : Nat} {f g : Frame} (h : Frame.Alike c w k f g) (n : Nat) :
    Finds c.exact (Value.Linked w) f.args[n]? g.args[n]? := by
  obtain ⟨args, extra, heq, hargs, hextra⟩ := h.args
  have hx := Forall₂.getElem? hargs n
  rw [heq]
  generalize hv : f.args[n]? = x at hx
  generalize hv' : args[n]? = y at hx
  cases hx with
  | some hxy =>
    rw [List.getElem?_append_left (List.getElem?_eq_some_iff.mp hv').1, hv']
    exact .some hxy
  | none =>
    by_cases hexact : c.exact
    · rw [hextra hexact, List.append_nil, hv']
      exact .none
    · exact .loose hexact

theorem forall₂_set {xs ys : List Value} (h : List.Forall₂ (Value.Linked w) xs ys) (n : Nat) {x y : Value}
    (hx : Value.Linked w x y) : List.Forall₂ (Value.Linked w) (xs.set n x) (ys.set n y) := by
  induction h generalizing n with
  | nil => exact .nil
  | cons hab hrest ih =>
    cases n with
    | zero => exact .cons hx hrest
    | succ n => exact .cons hab (ih n)

namespace Frame.Stands
variable {k : Nat} {f g : Frame} {below below' : List Frame}

theorem pop (h : Frame.Stands c w k below below' f g) :
    Except.Tracks c.exact (fun p q => Value.Linked w p.1 q.1 ∧ Frame.Stands c w k below below' p.2 q.2)
      f.pop g.pop := by
  have hs := h.alike.stack
  unfold Frame.pop
  generalize f.stack = xs at hs
  generalize g.stack = ys at hs
  cases hs with
  | nil => exact .same _
  | cons hx hrest => exact .ok ⟨hx, h.withStack hrest⟩

theorem popMany (h : Frame.Stands c w k below below' f g) (n : Nat) :
    Except.Tracks c.exact (fun p q => List.Forall₂ (Value.Linked w) p.1 q.1 ∧
      Frame.Stands c w k below below' p.2 q.2) (f.popMany n) (g.popMany n) := by
  have hs := h.alike.stack
  unfold Frame.popMany
  rw [hs.length_eq]
  split
  · exact .same _
  · exact .ok ⟨List.rel_reverse (List.forall₂_take n hs), h.withStack (List.forall₂_drop n hs)⟩

theorem popObject (h : Frame.Stands c w k below below' f g) {heap heap' : Heap}
    (hh : Heap.Linked w heap heap') :
    Except.Tracks c.exact (fun p q => w p.1 q.1 ∧ Frame.Stands c w k below below' p.2 q.2)
      (f.popObject heap) (g.popObject heap') := by
  have hpop := h.pop
  unfold Frame.popObject
  generalize f.pop = x at hpop
  generalize g.pop = y at hpop
  cases hpop with
  | error he => exact .error he
  | loose hx => exact .loose hx
  | @ok p q hpq =>
    obtain ⟨x, f'⟩ := p
    obtain ⟨y, g'⟩ := q
    obtain ⟨hv, hs⟩ := hpq
    have ht := hh.typeName hv
    simp only [bind, Except.bind]
    cases hv with
    | object hr => exact .ok ⟨hr, hs⟩
    | null => exact .error fun hx => hs.alike.exception hx _ ▸ .same _
    | _ =>
      refine .error fun hx => ?_
      rw [hs.alike.key hx, ht]
      exact .same _

theorem withArg (h : Frame.Stands c w k below below' f g) {n : Nat} (hn : n < f.args.length) {x y : Value}
    (hx : Value.Linked w x y) :
    Frame.Stands c w k below below' { f with args := f.args.set n x } { g with args := g.args.set n y } := by
  obtain ⟨args, extra, heq, hargs, hextra⟩ := h.alike.args
  refine ⟨{ h.alike with args := ⟨args.set n y, extra, ?_, forall₂_set hargs n hx, hextra⟩ },
    h.rests.congr rfl rfl rfl rfl⟩
  show g.args.set n y = args.set n y ++ extra
  rw [heq, List.set_append_left _ _ (hargs.length_eq ▸ hn)]

theorem setLocal (h : Frame.Stands c w k below below' f g) (n : Nat) {x y : Value} (hx : Value.Linked w x y) :
    Frame.Stands c w k below below' { f with locals := f.locals.set n x } { g with locals := g.locals.set n y } :=
  h.withLocals (forall₂_set h.alike.locals n hx)

end Frame.Stands

namespace Machine
variable {ω : Type} {env : Environment ω} {k : Nat} {f g : Frame} {below below' : List Frame}

/-- What the instructions make of two stacks. -/
abbrev Steps (c : Comparison) (env : Environment ω) (w : Links) (x y : Run (State ω) Transition) : Prop :=
  c.Tracks (Transition.Fits c) (fun w => Transition.Reaches c w env) w x y

theorem Steps.go (h : Frame.Stands c w k below below' f g) :
    Steps c env w (pure (.next f below)) (pure (.next g below')) := Run.Tracks.pure h.reaches

theorem Steps.getHeap {x y : Heap → Run (State ω) Transition}
    (h : ∀ heap heap', Heap.Linked w heap heap' → Steps c env w (x heap) (y heap')) :
    Steps c env w (State.getHeap >>= x) (State.getHeap >>= y) :=
  fun s t hs => h _ _ hs.domain.heap s t hs

end Machine
end MobileCode
