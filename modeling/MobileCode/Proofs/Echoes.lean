import MobileCode.Execution.Native
import MobileCode.Proofs.Calls

/-! # Computations that echo others

One computation echoes another when it succeeds wherever the other one does, with a related result in a related state. The
two may work on states of different kinds, and failures of the first one ask for nothing. What the two states share only
grows: pairs of objects, and modules that the second side has come to hold.
-/
namespace MobileCode

/-- What two sides share. -/
structure Shared where
  links : Links
  /-- The modules that the second side holds. -/
  modules : String → Prop

instance : Preorder Shared where
  le w w' := w.links ≤ w'.links ∧ ∀ name, w.modules name → w'.modules name
  le_refl w := ⟨le_rfl, fun _ => id⟩
  le_trans _ _ _ h h' := ⟨h.1.trans h'.1, fun name hn => h'.2 name (h.2 name hn)⟩

namespace Run
variable {σ τ α β γ δ : Type} {S : Shared → σ → τ → Prop} {R : Shared → α → β → Prop} {Q : Shared → γ → δ → Prop}
  {w : Shared} {s : σ} {t : τ}

/-- From these two states the second computation succeeds if the first one does, and comes to the same. -/
def Echoes (S : Shared → σ → τ → Prop) (R : Shared → α → β → Prop) (w : Shared) (s : σ) (t : τ) (x : Run σ α)
    (y : Run τ β) : Prop :=
  ∀ a s', x s = some (.ok a, s') → ∃ b t' w', y t = some (.ok b, t') ∧ w ≤ w' ∧ S w' s' t' ∧ R w' a b

namespace Echoes

theorem pure {a : α} {b : β} (hs : S w s t) (h : R w a b) : Echoes S R w s t (Pure.pure a) (Pure.pure b) := by
  intro _ _ ha
  cases ha
  exact ⟨b, t, w, rfl, le_rfl, hs, h⟩

theorem throw {e : Error} {y : Run τ β} : Echoes S R w s t (MonadExcept.throw e) y := by
  intro _ _ ha
  cases ha

theorem bind {x : Run σ α} {y : Run τ β} {f : α → Run σ γ} {g : β → Run τ δ} (h : Echoes S R w s t x y)
    (hf : ∀ w' s' t' a b, w ≤ w' → S w' s' t' → R w' a b → Echoes S Q w' s' t' (f a) (g b)) :
    Echoes S Q w s t (x >>= f) (y >>= g) := by
  intro c s'' hc
  obtain ⟨a, s', hx, hfa⟩ := bind_eq_ok.mp hc
  obtain ⟨b, t', w', hy, hle, hs, hab⟩ := h a s' hx
  obtain ⟨d, t'', w'', hgb, hle', hs', hcd⟩ := hf w' s' t' a b hle hs hab c s'' hfa
  exact ⟨d, t'', w'', bind_eq_ok.mpr ⟨b, t', hy, hgb⟩, hle.trans hle', hs', hcd⟩

theorem mono {x : Run σ α} {y : Run τ β} {R' : Shared → α → β → Prop} (h : Echoes S R w s t x y)
    (hR : ∀ w' a b, w ≤ w' → R w' a b → R' w' a b) : Echoes S R' w s t x y := by
  intro a s' ha
  obtain ⟨b, t', w', hy, hle, hs, hab⟩ := h a s' ha
  exact ⟨b, t', w', hy, hle, hs, hR w' a b hle hab⟩

/-- A check or a calculation comes first on both sides. -/
theorem ofExcept_bind {x : Except Error α} {y : Except Error β} {f : α → Run σ γ} {g : β → Run τ δ}
    (h : ∀ a, x = .ok a → ∃ b, y = .ok b ∧ Echoes S Q w s t (f a) (g b)) :
    Echoes S Q w s t (Run.ofExcept x >>= f) (Run.ofExcept y >>= g) := by
  cases x with
  | error e => exact throw
  | ok a =>
    obtain ⟨b, rfl, hfg⟩ := h a rfl
    exact hfg

theorem ofExcept {x : Except Error α} {y : Except Error β} (hs : S w s t)
    (h : ∀ a, x = .ok a → ∃ b, y = .ok b ∧ R w a b) : Echoes S R w s t (Run.ofExcept x) (Run.ofExcept y) := by
  cases x with
  | error e => exact throw
  | ok a =>
    obtain ⟨b, rfl, hab⟩ := h a rfl
    exact pure hs hab

theorem ofOption_bind {x : Option α} {y : Option β} {f : α → Run σ γ} {g : β → Run τ δ}
    (h : ∀ a, x = some a → ∃ b, y = some b ∧ Echoes S Q w s t (f a) (g b)) :
    Echoes S Q w s t (Run.ofOption x >>= f) (Run.ofOption y >>= g) := by
  cases x with
  | none =>
    intro _ _ ha
    cases ha
  | some a =>
    obtain ⟨b, rfl, hfg⟩ := h a rfl
    exact hfg

theorem modify {f : σ → σ} {g : τ → τ} {R : Shared → Unit → Unit → Prop} (hs : S w (f s) (g t)) (h : R w () ()) :
    Echoes S R w s t (modify f : Run σ Unit) (modify g) := by
  intro _ _ ha
  cases ha
  exact ⟨(), g t, w, rfl, le_rfl, hs, h⟩

end Echoes
end Run

/-! ## Native methods -/

section Natives
variable {ω ω' : Type} {S : Shared → State ω → State ω' → Prop}

/-- A native method of one side comes to what that of the other side comes to. -/
structure Native.Echoes (S : Shared → State ω → State ω' → Prop) (n : Native ω) (n' : Native ω') : Prop where
  returnsValue : n'.returnsValue = n.returnsValue
  call : ∀ {w s t args args'}, S w s t → List.Forall₂ (Value.Linked w.links) args args' →
    Run.Echoes S (fun w => Value.Linked w.links) w s t (n.call args) (n'.call args')

/-- Linked objects are of the same types on both sides. -/
def Shared.Types (S : Shared → State ω → State ω' → Prop) : Prop :=
  ∀ {w s t}, S w s t → Heap.Typed w.links s.domain.heap t.domain.heap

theorem lookup_related {κ β γ : Type} [BEq κ] [LawfulBEq κ] {R : κ → β → γ → Prop} {xs : List (κ × β)} {ys : List (κ × γ)}
    (h : List.Forall₂ (fun a b => a.1 = b.1 ∧ R a.1 a.2 b.2) xs ys) (k : κ) :
    Option.Rel (R k) (xs.lookup k) (ys.lookup k) := by
  induction h with
  | nil => exact .none
  | @cons a b _ _ hab _ ih =>
    obtain ⟨n, x⟩ := a
    obtain ⟨_, y⟩ := b
    obtain ⟨rfl, hxy⟩ := hab
    rw [List.lookup_cons, List.lookup_cons]
    cases hk : k == n with
    | true => exact .some (eq_of_beq hk ▸ hxy)
    | false => exact ih

namespace Native
variable {w : Shared} {s : State ω} {t : State ω'} {x y : Value} {args args' : List Value}

theorem textOf_echoes (hS : Shared.Types S) (hs : S w s t) (h : Value.Linked w.links x y) :
    Run.Echoes S (fun _ => Eq) w s t (textOf x) (textOf y) :=
  Run.Echoes.pure (R := fun _ => Eq) hs ((hS hs).textOf h)

theorem items_echoes (method : String) (hs : S w s t) (h : Value.Linked w.links x y) :
    Run.Echoes S (fun w => List.Forall₂ (Value.Linked w.links)) w s t (items method x) (items method y) := by
  cases h with
  | list hxs => exact Run.Echoes.pure (R := fun w => List.Forall₂ (Value.Linked w.links)) hs hxs
  | _ =>
    intro _ _ ha
    cases ha

theorem concat_echoes (hS : Shared.Types S) :
    Native.Echoes S ({ call := concat } : Native ω) ({ call := concat } : Native ω') := by
  refine ⟨rfl, fun {w s t args args'} hs h => ?_⟩
  cases h with
  | nil => exact Run.Echoes.throw
  | cons hx h =>
  cases h with
  | nil => exact Run.Echoes.throw
  | cons hy h =>
  cases h with
  | cons _ _ => exact Run.Echoes.throw
  | nil =>
    refine (textOf_echoes hS hs hx).bind fun w₁ s₁ t₁ a _ hle hs₁ hab => ?_
    subst hab
    refine (textOf_echoes hS hs₁ (hy.mono hle.1)).bind fun w₂ s₂ t₂ b _ _ hs₂ hab => ?_
    subst hab
    exact .pure hs₂ (.text _)

theorem length_echoes : Native.Echoes S ({ call := length } : Native ω) ({ call := length } : Native ω') := by
  refine ⟨rfl, fun {w s t args args'} hs h => ?_⟩
  cases h with
  | nil => exact Run.Echoes.throw
  | cons hx h =>
  cases h with
  | cons _ _ => exact Run.Echoes.throw
  | nil =>
    simp only [length, hx.asText?]
    exact .pure hs (.int32 _)

theorem toText_echoes (hS : Shared.Types S) :
    Native.Echoes S ({ call := toText } : Native ω) ({ call := toText } : Native ω') := by
  refine ⟨rfl, fun {w s t args args'} hs h => ?_⟩
  cases h with
  | nil => exact Run.Echoes.throw
  | cons hx h =>
  cases h with
  | cons _ _ => exact Run.Echoes.throw
  | nil =>
    refine (textOf_echoes hS hs hx).bind fun w₁ s₁ t₁ a _ _ hs₁ hab => ?_
    subst hab
    exact .pure hs₁ (.text _)

theorem newList_echoes : Native.Echoes S ({ call := newList } : Native ω) ({ call := newList } : Native ω') := by
  refine ⟨rfl, fun {w s t args args'} hs h => ?_⟩
  cases h with
  | nil => exact .pure hs (.list .nil)
  | cons _ _ => exact Run.Echoes.throw

theorem append_echoes : Native.Echoes S ({ call := append } : Native ω) ({ call := append } : Native ω') := by
  refine ⟨rfl, fun {w s t args args'} hs h => ?_⟩
  cases h with
  | nil => exact Run.Echoes.throw
  | cons hx h =>
  cases h with
  | nil => cases hx <;> exact Run.Echoes.throw
  | @cons y y' _ _ hy h =>
  cases h with
  | cons _ _ => cases hx <;> exact Run.Echoes.throw
  | nil =>
    cases hx with
    | null => exact .pure hs (.list (.cons hy .nil))
    | list hxs =>
      refine (items_echoes "Append" hs (.list hxs)).bind fun w₁ s₁ t₁ a b hle hs₁ hab => ?_
      exact .pure hs₁ (.list (List.rel_append hab (.cons (hy.mono hle.1) .nil)))
    | _ =>
      intro _ _ ha
      cases ha

theorem listCount_echoes : Native.Echoes S ({ call := listCount } : Native ω) ({ call := listCount } : Native ω') := by
  refine ⟨rfl, fun {w s t args args'} hs h => ?_⟩
  cases h with
  | nil => exact Run.Echoes.throw
  | cons hx h =>
  cases h with
  | cons _ _ => cases hx <;> exact Run.Echoes.throw
  | nil =>
    cases hx with
    | null => exact .pure hs (.int32 _)
    | list hxs =>
      refine (items_echoes "Count" hs (.list hxs)).bind fun w₁ s₁ t₁ a b _ hs₁ hab => ?_
      rw [hab.length_eq]
      exact .pure hs₁ (.int32 _)
    | _ =>
      intro _ _ ha
      cases ha

theorem listGet_echoes : Native.Echoes S ({ call := listGet } : Native ω) ({ call := listGet } : Native ω') := by
  refine ⟨rfl, fun {w s t args args'} hs h => ?_⟩
  cases h with
  | nil => exact Run.Echoes.throw
  | cons hx h =>
  cases h with
  | nil => exact Run.Echoes.throw
  | cons hy h =>
  cases h with
  | cons _ _ => exact Run.Echoes.throw
  | nil =>
    refine (items_echoes "Get" hs hx).bind fun w₁ s₁ t₁ xs ys _ hs₁ hxs => ?_
    simp only [hy.asInt64?]
    cases hi : Value.asInt64? _ with
    | none =>
      intro _ _ ha
      cases ha
    | some i =>
      simp only [Option.bind_eq_bind, Option.bind_some]
      by_cases hpos : 0 ≤ i
      · simp only [if_pos hpos]
        have hget := Forall₂.getElem? hxs i.toInt.toNat
        generalize xs[i.toInt.toNat]? = a at hget
        generalize ys[i.toInt.toNat]? = b at hget
        cases hget with
        | some hv => exact .pure hs₁ hv
        | none =>
          intro _ _ ha
          cases ha
      · simp only [if_neg hpos]
        intro _ _ ha
        cases ha

theorem machineName_echoes (hname : ∀ {w s t}, S w s t → t.domain.hostName = s.domain.hostName) :
    Native.Echoes S ({ call := machineName } : Native ω) ({ call := machineName } : Native ω') := by
  refine ⟨rfl, fun {w s t args args'} hs h => ?_⟩
  cases h with
  | cons _ _ => exact Run.Echoes.throw
  | nil =>
    refine Run.Echoes.pure (R := fun w => Value.Linked w.links) hs ?_
    rw [hname hs]
    exact .text _

theorem threadName_echoes (thread : Option String) :
    Native.Echoes S ({ call := threadName thread } : Native ω) ({ call := threadName thread } : Native ω') := by
  refine ⟨rfl, fun {w s t args args'} hs h => ?_⟩
  cases h with
  | cons _ _ => exact Run.Echoes.throw
  | nil =>
    cases thread with
    | none => exact .pure hs .null
    | some name => exact .pure hs (.text name)

/-- The name of the machine. -/
def machineNameKey : String × String := ("System.Environment", "get_MachineName")

/-- The name of the thread. -/
def threadNameKey : String × String := ("System.Threading.Thread", "get_Name")

/-- A native method that every host has does the same on both sides, unless it tells the machine or the thread and these
have different names. -/
theorem standard_echoes (hS : Shared.Types S) {thread thread' : Option String} {key : String × String}
    (hmachine : key = machineNameKey → ∀ {w s t}, S w s t → t.domain.hostName = s.domain.hostName)
    (hthread : key = threadNameKey → thread' = thread) :
    Option.Rel (Native.Echoes S) ((standard thread).lookup key) ((standard thread').lookup key) := by
  have hentries : List.Forall₂ (fun a b : (String × String) × Native _ => a.1 = b.1 ∧
      ((a.1 = machineNameKey → ∀ {w s t}, S w s t → t.domain.hostName = s.domain.hostName) →
        (a.1 = threadNameKey → thread' = thread) → Native.Echoes S a.2 b.2)) (standard thread) (standard thread') :=
    .cons ⟨rfl, fun _ _ => concat_echoes hS⟩ <| .cons ⟨rfl, fun _ _ => length_echoes⟩ <|
    .cons ⟨rfl, fun _ _ => toText_echoes hS⟩ <| .cons ⟨rfl, fun _ _ => newList_echoes⟩ <|
    .cons ⟨rfl, fun _ _ => append_echoes⟩ <| .cons ⟨rfl, fun _ _ => listCount_echoes⟩ <|
    .cons ⟨rfl, fun _ _ => listGet_echoes⟩ <| .cons ⟨rfl, fun hname _ => machineName_echoes (hname rfl)⟩ <|
    .cons ⟨rfl, fun _ hname => by rw [hname rfl]; exact threadName_echoes thread⟩ .nil
  have hfound := lookup_related (R := fun key n n' =>
    (key = machineNameKey → ∀ {w s t}, S w s t → t.domain.hostName = s.domain.hostName) →
      (key = threadNameKey → thread' = thread) → Native.Echoes S n n') hentries key
  generalize (standard thread).lookup key = x at hfound
  generalize (standard thread').lookup key = y at hfound
  cases hfound with
  | none => exact .none
  | some hn => exact .some (hn hmachine hthread)

end Native
end Natives
end MobileCode
