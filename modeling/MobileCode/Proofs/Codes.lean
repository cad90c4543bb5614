import MobileCode.Proofs.Definitions
import MobileCode.Proofs.Provision

/-! # Code without objects

A module whose literals hold no objects is loaded as the same code into every domain, and makes no objects there. The code
of such a module and that of its deployment are two forms of each other, whatever links there are.
-/
namespace MobileCode

/-- The code that every domain loads of a module whose literals hold no objects. -/
def Module.code (m : Module Datum) : Module Value := ((Domain.instantiate m).run {}).1

section Plain
variable {m n : Module Datum} {w : Links} {client : String}

theorem Module.Plain.instantiate_eq (h : m.Plain) (k : Heap) : (Domain.instantiate m).run k = (m.code, k) := by
  obtain ⟨code, hcode⟩ := h.still
  rw [Module.code, hcode, hcode]

theorem Module.code_shape (m : Module Datum) : m.code.shape = m.shape := m.instantiate_shape {}

theorem Module.code_name (m : Module Datum) : m.code.name = m.name := congrArg Module.name m.code_shape

theorem Module.code_flags (m : Module Datum) : m.code.flags = m.flags := congrArg Module.flags m.code_shape

theorem Module.code_resources (m : Module Datum) : m.code.resources = m.resources := congrArg Module.resources m.code_shape

theorem Module.code_fullNames (m : Module Datum) : m.code.types.map (·.fullName) = m.types.map (·.fullName) :=
  m.instantiate_fullNames {}

/-- In an empty heap there is nothing to link. -/
theorem Links.le_of_copied {w' : Links} (h : ∀ r s, w' r s → (fun _ _ => False : Links) r s ∨ Heap.Added {} {} r) : w' ≤ w := by
  intro r s hrs
  rcases h r s hrs with hnone | ⟨_, hlt⟩
  · exact hnone.elim
  · exact absurd hlt (Nat.not_lt_zero _)

theorem Heap.joined_empty : Heap.Joined (fun _ _ => False) {} {} :=
  { object := fun h => h.elim, functional := fun h => h.elim, injective := fun h => h.elim, beyond := fun h => h.elim,
    left := fun h => h.elim, right := fun h => h.elim }

/-- The code is a form of itself. -/
theorem Module.Plain.code_forms (h : m.Plain) (client : String) (w : Links) : List.Forall₂
    (fun t u => ∀ exact, TypeDecl.Form exact (Value.Linked w) client (fun _ _ => none) t u) m.code.types m.code.types := by
  have hforms : List.Forall₂ (fun t u => TypeDecl.Form True Eq client (fun _ _ => none) t u) m.types m.types :=
    List.forall₂_same.mpr fun _ _ => .refl fun _ _ => rfl
  have hloads := Module.instantiate_loads .later (fun _ _ _ => none) (w := fun _ _ => False) hforms
  have hcopies := hloads {} {} (by rw [h.still.heap]; exact .refl _)
  rw [h.still.heap] at hcopies
  obtain ⟨w', _, _, hnew, _, _, _, hcode⟩ := hcopies {} Heap.joined_empty fun _ _ _ hs => hs
  exact hcode.imp fun _ _ htu exact => (htu exact).mono fun _ _ hv => hv.mono (Links.le_of_copied hnew)

/-- The code of a deployed module has the types of the module in their forms. -/
theorem Module.Grown.code_forms (hg : m.Grown client (fun i k => (i, k) ∈ m.targets.map Target.position) n) (h : m.Plain)
    (hinside : ∀ t ∈ m.types, ∀ d ∈ t.methods, BranchesInside d.body) (hwords : m.Addressable) (w : Links) :
    List.Forall₂ (fun t u => TypeDecl.Form False (Value.Linked w) client (mobileMode? m.flags t.flags) t u)
      m.code.types n.code.types := by
  have hcopies := hg.instantiate_copies hinside hwords (mobileMode? m.flags)
    (fun i t k d ht hd hk _ => by
      rw [mobileMode?_eq, if_pos ((Module.mem_positions ht hd).mp hk)])
    (fun i t k d ht hd hk => by
      rw [mobileMode?_eq]
      split
      · rename_i htarget
        rintro mode ⟨⟩
        by_contra hmode
        exact hk ⟨(Module.mem_positions ht hd).mpr htarget, hmode⟩
      · exact fun _ h => nomatch h)
    (w := fun _ _ => False) (h := {})
  rw [h.still.heap] at hcopies
  obtain ⟨w', _, _, hnew, _, hforms⟩ := hcopies {} Heap.joined_empty fun _ _ _ hs => hs
  exact hforms.imp fun _ _ htu => htu.mono fun _ _ hv => hv.mono (Links.le_of_copied hnew)

end Plain

/-- A method that stays in place has the same body, perhaps behind a front. -/
theorem MethodDecl.Form.inPlace {α : Type} [Literal α] {exact : Prop} {L : α → α → Prop} {client : String} {t : TypeDecl α}
    {mode? : Option Mode} {d e : MethodDecl α} (h : MethodDecl.Form exact L client t mode? d e) (hstays : StaysInPlace mode?) :
    MethodDecl.Form True L client t none d e := by
  have hnone : StaysInPlace none := fun _ h => nomatch h
  cases h with
  | plain _ ha hl hb => exact .plain hnone ha hl hb
  | fronted site _ ha hl hclient hcount hb => exact .fronted site hnone ha hl hclient hcount hb
  | stub _ _ hmode _ => exact absurd (hstays _ rfl) hmode

/-! ## Literals of deployed modules -/

section Literals
variable {α : Type}

/-- The literals of a method. -/
inductive MethodDecl.Mentions (d : MethodDecl α) : α → Prop
  | default {p : ParamDecl α} {x : α} : p ∈ d.params → x ∈ p.default → Mentions d x
  | const {x : α} : .const x ∈ d.body → Mentions d x

theorem Instruction.const_of_shift {i : Instruction α} {k : UInt64} {x : α} (h : i.shift k = .const x) : i = .const x := by
  cases i with
  | const y => exact h
  | _ => cases h

theorem const_mem_of_inFrontOf {front body : List (Instruction α)} (hfront : ∀ i ∈ front, ∀ x, i ≠ .const x) {x : α}
    (h : .const x ∈ inFrontOf front body) : .const x ∈ body := by
  rcases List.mem_append.mp h with h | h
  · exact absurd rfl (hfront _ h x)
  · obtain ⟨i, hi, hshift⟩ := List.mem_map.mp h
    exact Instruction.const_of_shift hshift ▸ hi

theorem DispatchSite.normalFront_mute (site : DispatchSite) (isVoid : Bool) :
    ∀ i ∈ (site.normalFront isVoid : List (Instruction α)), ∀ x, i ≠ .const x := by
  cases isVoid <;> simp [normalFront]

theorem DispatchSite.relayFront_mute (site : DispatchSite) :
    ∀ i ∈ (site.relayFront : List (Instruction α)), ∀ x, i ≠ .const x := by
  unfold relayFront
  split <;> simp

variable [Literal α] {client type : String} {d e s : MethodDecl α} {x : α}

/-- The mobile form of a method has no other literals, but for the marker. -/
theorem MethodDecl.mentions_mobileForm {closure : Closure} (h : (d.mobileForm client type closure).Mentions x) :
    d.Mentions x ∨ x = Literal.bool false := by
  by_cases hn : d.manner.mode = .normal
  · rw [mobileForm, mobilize_normal hn] at h
    cases h with
    | default hp hx => exact .inl (.default hp hx)
    | const hx => exact .inl (.const (const_mem_of_inFrontOf (DispatchSite.normalFront_mute _ _) hx))
  · rw [mobileForm, mobilize_moved hn] at h
    cases h with
    | default hp hx => exact .inl (.default hp hx)
    | const hx =>
      simp only [stubBody, List.mem_append, List.mem_map, List.mem_cons, Instruction.const.injEq, reduceCtorEq, and_false,
        exists_false, false_or, or_false, List.not_mem_nil] at hx
      exact .inr hx

theorem MethodDecl.mentions_relaySibling {site : DispatchSite} (h : (d.relaySibling site).Mentions x) :
    d.Mentions x ∨ x = Literal.bool false := by
  cases h with
  | default hp hx =>
    rcases List.mem_append.mp hp with hp | hp
    · exact .inl (.default hp hx)
    · cases List.mem_singleton.mp hp
      exact .inr (Option.some.inj hx).symm
  | const hx => exact .inl (.const (const_mem_of_inFrontOf (DispatchSite.relayFront_mute _) hx))

omit [Literal α] in
theorem MethodDecl.Marks.mentions (hmarks : d.Marks e) (h : e.Mentions x) : d.Mentions x := by
  rcases hmarks with rfl | ⟨_, rfl⟩
  · exact h
  · cases h with
    | default hp hx => exact .default hp hx
    | const hx => exact .const hx

/-- A deployed type has the literals of its methods, and the marker. -/
theorem TypeDecl.Grown.mentions {P : Nat → Prop} {t : TypeDecl α} {main siblings : List (MethodDecl α)}
    (hg : Grown client P t main siblings) (he : e ∈ main ++ siblings) (h : e.Mentions x) :
    (∃ d ∈ t.methods, d.Mentions x) ∨ x = Literal.bool false := by
  rcases List.mem_append.mp he with he | he
  · obtain ⟨k, hk⟩ := List.mem_iff_getElem?.mp he
    have hlt : k < t.methods.length := hg.length ▸ (List.getElem?_eq_some_iff.mp hk).1
    have hd := List.getElem?_eq_getElem hlt
    by_cases hP : P k
    · obtain ⟨_, closure, e', he', hmarks⟩ := hg.moved hd hP
      cases hk.symm.trans he'
      exact (MethodDecl.mentions_mobileForm (hmarks.mentions h)).imp_left fun h => ⟨_, List.getElem_mem hlt, h⟩
    · cases hk.symm.trans (hg.kept hd hP)
      exact .inl ⟨_, List.getElem_mem hlt, h⟩
  · obtain ⟨k, d, hd, _, hsibling⟩ := hg.origin e he
    obtain ⟨_, rfl⟩ := MethodDecl.sibling?_eq_some hsibling
    exact (MethodDecl.mentions_relaySibling h).imp_left fun h => ⟨d, List.mem_of_getElem? hd, h⟩

end Literals

/-- To deploy a module adds no objects to its literals. -/
theorem Module.Grown.plain {client : String} {D : Nat → Nat → Prop} {m n : Module Datum} (hg : m.Grown client D n)
    (h : m.Plain) : n.Plain := by
  intro u hu x hx
  obtain ⟨i, hi⟩ := List.mem_iff_getElem?.mp hu
  have hrel := hg.types i
  rw [hi] at hrel
  generalize ht : m.types[i]? = y at hrel
  cases hrel with
  | @some t _ hgrown =>
  obtain ⟨main, siblings, rfl, hgrown⟩ := hgrown
  have hmem := List.mem_of_getElem? ht
  have hmethod {e : MethodDecl Datum} (he : e ∈ main ++ siblings) (hx : e.Mentions x) : x.Plain := by
    rcases hgrown.mentions he hx with ⟨d, hd, hx⟩ | rfl
    · cases hx with
      | default hp hx => exact h t hmem x (.default hd hp hx)
      | const hx => exact h t hmem x (.const hd hx)
    · trivial
  cases hx with
  | field hf hx => exact h t hmem x (.field hf hx)
  | default he hp hx => exact hmethod he (.default hp hx)
  | const he hx => exact hmethod he (.const hx)

end MobileCode
