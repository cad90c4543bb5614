import MobileCode.Proofs.Definitions

/-! # References that lead to objects

A program has its references from objects that were made, and no object is ever taken from the heap. So from a domain in
which no reference dangles, whatever a host does leads to such a domain, and its results refer to objects that are there.
-/
namespace MobileCode
variable {ω : Type}

/-! ## Anchored values -/

/-- All references in the value are to the first `n` objects. -/
def Value.Anchored (n : Nat) (v : Value) : Prop := Value.Linked (fun r s => r = s ∧ r.index < n) v v

/-- So are those in the literals of a method. -/
structure MethodHandle.Anchored (n : Nat) (m : MethodHandle) : Prop where
  defaults : ∀ p ∈ m.decl.params, ∀ v ∈ p.default, v.Anchored n
  body : ∀ v, .const v ∈ m.decl.body → v.Anchored n

def TypeHandle.Anchored (n : Nat) (t : TypeHandle) : Prop := ∀ v, t.decl.Mentions v → v.Anchored n

section
variable {n m : Nat}

namespace Value
variable {v : Value}

theorem Anchored.mono (h : v.Anchored n) (hle : n ≤ m) : v.Anchored m :=
  Linked.mono (fun _ _ hr => ⟨hr.1, Nat.lt_of_lt_of_le hr.2 hle⟩) h

theorem all_anchored_mono {vs : List Value} (h : ∀ v ∈ vs, v.Anchored n) (hle : n ≤ m) : ∀ v ∈ vs, v.Anchored m :=
  fun v hv => (h v hv).mono hle

theorem anchored_object {r : Ref} : (object r).Anchored n ↔ r.index < n := by
  constructor
  · intro h
    cases h with
    | object hr => exact hr.2
  · exact fun hr => .object ⟨rfl, hr⟩

theorem anchored_list {items : List Value} : (list items).Anchored n ↔ ∀ v ∈ items, v.Anchored n := by
  constructor
  · intro h
    cases h with
    | list hitems => exact fun v hv => List.forall₂_same.mp hitems v hv
  · exact fun h => .list (List.forall₂_same.mpr h)

theorem anchored_defaultFor (type : String) : (Literal.defaultFor type : Value).Anchored n := Linked.defaultFor type

end Value

/-- A reference to one of the first objects, if there is a reference. -/
theorem Ref.all_below_mono {receiver : Option Ref} (h : ∀ r ∈ receiver, r.index < n) (hle : n ≤ m) :
    ∀ r ∈ receiver, r.index < m := fun r hr => Nat.lt_of_lt_of_le (h r hr) hle

theorem MethodHandle.Anchored.mono {f : MethodHandle} (h : f.Anchored n) (hle : n ≤ m) : f.Anchored m :=
  ⟨fun p hp v hv => (h.defaults p hp v hv).mono hle, fun v hv => (h.body v hv).mono hle⟩

namespace TypeHandle.Anchored
variable {t : TypeHandle}

theorem mono (h : t.Anchored n) (hle : n ≤ m) : t.Anchored m := fun v hv => (h v hv).mono hle

theorem method? (h : t.Anchored n) {name : String} {types : List String} {f : MethodHandle}
    (hf : t.method? name types = some f) : f.Anchored n := by
  obtain ⟨d, hd, rfl⟩ := Option.map_eq_some_iff.mp hf
  have hmem := (TypeDecl.method?_eq_some hd).1
  exact ⟨fun p hp v hv => h v (.default hmem hp hv), fun v hv => h v (.const hmem hv)⟩

theorem initialValue (h : t.Anchored n) {d : FieldDecl Value} (hd : d ∈ t.decl.fields) : d.initialValue.Anchored n := by
  unfold FieldDecl.initialValue
  cases hinitial : d.initial with
  | none => exact Value.anchored_defaultFor _
  | some v => exact h v (.field hd hinitial)

end TypeHandle.Anchored
end

/-! ## Closed heaps -/

namespace Heap
variable {h : Heap}

/-- The fields of all objects refer to objects that are there. -/
def Closed (h : Heap) : Prop := ∀ r o, h.get? r = some o → ∀ f ∈ o.fields, h.Holds f.2

theorem Closed.field? (hh : h.Closed) {r : Ref} {name : String} {v : Value} (hv : h.field? r name = some v) :
    h.Holds v := by
  obtain ⟨o, ho, hfield⟩ := Option.bind_eq_some_iff.mp hv
  obtain ⟨f, hf, rfl⟩ := List.mem_map.mp (Dict.mem_of_find? hfield)
  exact hh r o ho f hf

theorem Closed.setField (hh : h.Closed) (r : Ref) (name : String) {v : Value} (hv : h.Holds v) :
    (h.setField r name v).Closed := by
  intro s o ho f hf
  have hsize : h.objects.size ≤ (h.setField r name v).objects.size := (h.size_setField r name v).ge
  rw [get?_setField] at ho
  split at ho
  · obtain ⟨p, hp, rfl⟩ := Option.map_eq_some_iff.mp ho
    rcases Dict.mem_of_mem_insert hf with rfl | hf
    · exact Value.Anchored.mono hv hsize
    · exact Value.Anchored.mono (hh s p hp f hf) hsize
  · exact Value.Anchored.mono (hh s o ho f hf) hsize

theorem Closed.alloc (hh : h.Closed) {o : Object} (ho : ∀ f ∈ o.fields, h.Holds f.2) : (h.alloc o).2.Closed := by
  intro s p hp f hf
  have hsize : h.objects.size ≤ (h.alloc o).2.objects.size := (h.extends_alloc o).size_le
  rw [get?_alloc] at hp
  split at hp
  · cases hp
    exact Value.Anchored.mono (ho f hf) hsize
  · exact Value.Anchored.mono (hh s p hp f hf) hsize

mutual

theorem Closed.instantiate : ∀ (x : Datum) {h : Heap}, h.Closed →
    (Heap.instantiate x h).2.Closed ∧ (Heap.instantiate x h).2.Holds (Heap.instantiate x h).1
  | .null, _, hh => ⟨hh, .null⟩
  | .bool b, _, hh => ⟨hh, .bool b⟩
  | .int32 n, _, hh => ⟨hh, .int32 n⟩
  | .int64 n, _, hh => ⟨hh, .int64 n⟩
  | .double x, _, hh => ⟨hh, .double x⟩
  | .text s, _, hh => ⟨hh, .text s⟩
  | .list items, _, hh =>
    have hitems := Closed.instantiateItems items hh
    ⟨hitems.1, Value.anchored_list.mpr hitems.2⟩
  | .object _ fields, h, hh =>
    have hfields := Closed.instantiateFields fields hh
    have hnew := Nat.lt_succ_self (Heap.instantiateFields fields h).2.objects.size
    ⟨hfields.1.alloc hfields.2, Value.anchored_object.mpr (Nat.lt_of_lt_of_eq hnew (size_alloc _ _).symm)⟩

theorem Closed.instantiateItems : ∀ (xs : List Datum) {h : Heap}, h.Closed →
    (Heap.instantiateItems xs h).2.Closed ∧ ∀ v ∈ (Heap.instantiateItems xs h).1, (Heap.instantiateItems xs h).2.Holds v
  | [], _, hh => ⟨hh, fun _ hv => absurd hv List.not_mem_nil⟩
  | x :: xs, _, hh =>
    have hfirst := Closed.instantiate x hh
    have hrest := Closed.instantiateItems xs hfirst.1
    have hsize := (instantiateItems_grows xs _).size_le
    ⟨hrest.1, List.forall_mem_cons.mpr ⟨Value.Anchored.mono hfirst.2 hsize, hrest.2⟩⟩

theorem Closed.instantiateFields : ∀ (xs : List (String × Datum)) {h : Heap}, h.Closed →
    (Heap.instantiateFields xs h).2.Closed ∧
      ∀ f ∈ (Heap.instantiateFields xs h).1, (Heap.instantiateFields xs h).2.Holds f.2
  | [], _, hh => ⟨hh, fun _ hv => absurd hv List.not_mem_nil⟩
  | (_, x) :: xs, _, hh =>
    have hfirst := Closed.instantiate x hh
    have hrest := Closed.instantiateFields xs hfirst.1
    have hsize := (instantiateFields_grows xs _).size_le
    ⟨hrest.1, List.forall_mem_cons.mpr ⟨Value.Anchored.mono hfirst.2 hsize, hrest.2⟩⟩

end

/-- The objects of a closed heap are linked to themselves. -/
theorem Closed.linked (hh : h.Closed) : Heap.Linked h.itself h h where
  object {r s} hrs := by
    obtain ⟨rfl, hlt⟩ := hrs
    have ho : h.get? r = some h.objects[r.index] := Array.getElem?_eq_getElem hlt
    rw [ho]
    exact .some ⟨rfl, Dict.Related.refl fun f hf => hh r _ ho f hf⟩
  functional hs hs' := hs.1.symm.trans hs'.1
  injective hr hr' := hr.1.trans hr'.1.symm
  beyond hrs hge := absurd hrs.2 (Nat.not_lt.mpr hge)

end Heap

/-! ## Making literals -/

/-- The computation leaves the heap closed. -/
def Encloses {α : Type} (x : StateM Heap α) : Prop := ∀ h, h.Closed → (x.run h).2.Closed

namespace Encloses
variable {α β : Type}

theorem pure (a : α) : Encloses (Pure.pure a) := fun _ hh => hh

theorem bind {x : StateM Heap α} {f : α → StateM Heap β} (hx : Encloses x) (hf : ∀ a, Encloses (f a)) :
    Encloses (x >>= f) := fun h hh => hf _ _ (hx h hh)

theorem mapM {f : α → StateM Heap β} (hf : ∀ a, Encloses (f a)) (xs : List α) : Encloses (xs.mapM f) := by
  induction xs with
  | nil => exact .pure _
  | cons x xs ih =>
    rw [List.mapM_cons]
    exact (hf x).bind fun _ => ih.bind fun _ => .pure _

theorem instantiate (x : Datum) : Encloses (Heap.instantiate x) := fun _ hh => (hh.instantiate x).1

theorem loadOption (x : Option Datum) : Encloses (MobileCode.loadOption x) := by
  cases x with
  | none => exact .pure _
  | some x => exact (instantiate x).bind fun _ => .pure _

theorem ofInstruction (i : Instruction Datum) : Encloses i.load := by
  cases i with
  | const x => exact (instantiate x).bind fun _ => .pure _
  | _ => exact .pure _

theorem ofParam (p : ParamDecl Datum) : Encloses p.load := (loadOption p.default).bind fun _ => .pure _

theorem ofField (f : FieldDecl Datum) : Encloses f.load := (loadOption f.initial).bind fun _ => .pure _

theorem ofMethod (d : MethodDecl Datum) : Encloses d.load :=
  (mapM ofParam d.params).bind fun _ => (mapM ofInstruction d.body).bind fun _ => .pure _

theorem ofType (t : TypeDecl Datum) : Encloses t.load :=
  (mapM ofField t.fields).bind fun _ => (mapM ofMethod t.methods).bind fun _ => .pure _

theorem ofModule (m : Module Datum) : Encloses (Domain.instantiate m) :=
  (mapM ofType m.types).bind fun _ => .pure _

end Encloses

/-- A value that has a state refers to objects that are there. -/
theorem Heap.holds_of_snapshotUpTo {h : Heap} {n : Nat} {v : Value} {x : Datum} (hx : h.snapshotUpTo n v = some x) :
    h.Holds v := by
  induction n generalizing v x with
  | zero => cases hx
  | succ n ih =>
    cases v with
    | list items =>
      obtain ⟨xs, hxs, _⟩ := snapshotUpTo_list.mp hx
      refine Value.anchored_list.mpr fun w hw => ?_
      obtain ⟨y, _, hy⟩ := Forall₂.exists_of_mem hxs hw
      exact ih hy
    | object r =>
      obtain ⟨o, _, ho, _⟩ := snapshotUpTo_object.mp hx
      exact Value.anchored_object.mpr (Array.getElem?_eq_some_iff.mp ho).1
    | null => exact .null
    | bool b => exact .bool b
    | int32 k => exact .int32 k
    | int64 k => exact .int64 k
    | double x => exact .double x
    | text s => exact .text s

/-- The literals of a module that has just been made refer to objects that are there. -/
theorem Domain.holds_of_mentions {m : Module Datum} {h : Heap} {t : TypeDecl Value}
    (ht : t ∈ ((Domain.instantiate m).run h).1.types) {v : Value} (hv : t.Mentions v) :
    ((Domain.instantiate m).run h).2.Holds v := by
  have hmade := Makes.ofModule.made m h (Heap.Extends.refl _).since
  obtain ⟨x, hx, _⟩ := Module.traverse_same hmade hmade ht hv
  exact Heap.holds_of_snapshotUpTo hx

/-! ## Closed domains -/

theorem Dict.mem_of_mem_foldl_insert {β γ : Type} {key : β → String} {value : β → γ} {xs : List β} {d : Dict γ}
    {e : String × γ} (h : e ∈ xs.foldl (fun d x => d.insert (key x) (value x)) d) :
    (∃ x ∈ xs, e = (key x, value x)) ∨ e ∈ d := by
  induction xs generalizing d with
  | nil => exact .inr h
  | cons x xs ih =>
    rcases ih h with ⟨y, hy, rfl⟩ | h
    · exact .inl ⟨y, List.mem_cons_of_mem x hy, rfl⟩
    · exact (mem_of_mem_insert h).imp_left fun he => ⟨x, List.mem_cons_self, he⟩

namespace Domain
variable {d e : Domain}

theorem Closed.heap (hd : d.Closed) : d.heap.Closed := fun _ _ => hd.objects

theorem Closed.withHeap (hd : d.Closed) {h : Heap} (hh : h.Closed) (hsize : d.heap.objects.size ≤ h.objects.size) :
    ({ d with heap := h } : Domain).Closed where
  objects {r o} := hh r o
  literals t ht v hv := Value.Anchored.mono (hd.literals t ht v hv) hsize
  defaults t ht type method o ho p hp v hv := Value.Anchored.mono (hd.defaults t ht type method o ho p hp v hv) hsize
  statics s hs v hv := Value.Anchored.mono (hd.statics s hs v hv) hsize
  owned := hd.owned

theorem Closed.withStatic (hd : d.Closed) {type : String} {fields : Dict Value}
    (hfields : ∀ f ∈ fields, d.heap.Holds f.2) :
    ({ d with statics := d.statics.insert type fields } : Domain).Closed where
  objects := hd.objects
  literals := hd.literals
  defaults := hd.defaults
  statics s hs := by
    rcases Dict.mem_of_mem_insert hs with rfl | hs
    · exact hfields
    · exact hd.statics s hs
  owned := hd.owned

/-- A module is entered whose literals refer to objects that are there. -/
theorem Closed.enter (hd : d.Closed) {l : LoadedModule} (hl : ∀ t ∈ l.code.types, ∀ v, t.Mentions v → d.heap.Holds v) :
    (d.enter l).Closed := by
  have htype {t : String × TypeHandle} (ht : t ∈ indexed d.types l) :
      (∃ u ∈ l.code.types, t.2 = ⟨l, u⟩) ∨ t ∈ d.types := by
    refine (Dict.mem_of_mem_foldl_insert ht).imp_left ?_
    rintro ⟨u, hu, rfl⟩
    exact ⟨u, hu, rfl⟩
  have hmodule (name : String) : (d.enter l).module? name = if name = l.name then some l else d.module? name :=
    module?_enter d l name
  rw [enter_eq] at hmodule ⊢
  refine ⟨hd.objects, fun t ht v hv => ?_, fun t ht type method o ho p hp v hv => ?_, fun s hs f hf => ?_, fun t ht => ?_⟩
  · rcases htype ht with ⟨u, hu, htu⟩ | ht
    · rw [htu] at hv
      exact hl u hu v hv
    · exact hd.literals t ht v hv
  · rcases Dict.mem_of_mem_insert ht with rfl | ht
    · obtain ⟨u, hu, hmentions⟩ := DispatchTable.mentions_of_overload ho hp hv
      exact hl u hu v hmentions
    · exact hd.defaults t ht type method o ho p hp v hv
  · rcases Dict.mem_of_mem_foldl_insert hs with ⟨u, hu, rfl⟩ | hs
    · obtain ⟨g, hg, rfl⟩ := List.mem_map.mp (Dict.mem_of_mem_ofList hf)
      have hanchored : TypeHandle.Anchored d.heap.objects.size ⟨l, u⟩ := hl u hu
      exact hanchored.initialValue (List.mem_filter.mp hg).1
    · exact hd.statics s hs f hf
  · rw [hmodule]
    split
    · exact Option.some_ne_none l
    · rename_i hother
      rcases htype ht with ⟨u, _, htu⟩ | ht
      · exact absurd (congrArg (·.module.name) htu) hother
      · exact hd.owned t ht

theorem Closed.register (hd : d.Closed) {m : Module Datum} {bytes : Bytes} {path : Option String} {l : LoadedModule}
    (h : d.register m bytes path = .ok (l, e)) : e.Closed ∧ d.heap.objects.size ≤ e.heap.objects.size := by
  rcases register_cases h with ⟨_, _, rfl⟩ | ⟨_, rfl, _, rfl⟩
  · exact ⟨hd, le_rfl⟩
  · have hsize := (m.instantiate_grows d.heap).size_le
    have hheap := hd.withHeap (Encloses.ofModule m d.heap hd.heap) hsize
    refine ⟨hheap.enter fun t ht v hv => holds_of_mentions ht hv, ?_⟩
    rw [enter_eq]
    exact hsize

theorem Closed.type? (hd : d.Closed) {name : String} {t : TypeHandle} (ht : d.type? name = some t) :
    t.Anchored d.heap.objects.size := by
  obtain ⟨e, he, rfl⟩ := List.mem_map.mp (Dict.mem_of_find? ht)
  exact hd.literals e he

end Domain

/-! ## Computations -/

/-- The number of objects in the heap. -/
abbrev State.room (s : State ω) : Nat := s.domain.heap.objects.size

/-- From a closed domain with at least `n` objects the computation leads to a closed domain with no fewer, and its result
is anchored there. -/
def Run.Anchors {α : Type} (n : Nat) (P : Nat → α → Prop) (x : Run (State ω) α) : Prop := ∀ s r t,
  s.domain.Closed → n ≤ s.room → x s = some (r, t) → t.domain.Closed ∧ s.room ≤ t.room ∧ ∀ a, r = .ok a → P t.room a

/-- Nothing is wanted of the result. -/
abbrev Run.Unbound {α : Type} (_ : Nat) (_ : α) : Prop := True

namespace Run.Anchors
variable {α β : Type} {n : Nat} {P : Nat → α → Prop} {Q : Nat → β → Prop} {x : Run (State ω) α} {f : α → Run (State ω) β}

theorem pure {a : α} (h : ∀ m, n ≤ m → P m a) : (Pure.pure a : Run (State ω) α).Anchors n P := by
  intro s r t hs hn hx
  cases hx
  exact ⟨hs, le_rfl, fun _ ha => Except.ok.inj ha ▸ h _ hn⟩

theorem throw (e : Error) : (MonadExcept.throw e : Run (State ω) α).Anchors n P := by
  intro s r t hs hn hx
  cases hx
  exact ⟨hs, le_rfl, nofun⟩

theorem bind (hx : x.Anchors n P) (hf : ∀ m a, n ≤ m → P m a → (f a).Anchors m Q) : (x >>= f).Anchors n Q := by
  intro s r t hs hn h
  rw [Run.bind_apply] at h
  rcases hxs : x s with _ | ⟨e | a, u⟩ <;> rw [hxs] at h
  · cases h
  · cases h
    obtain ⟨ht, hroom, _⟩ := hx s _ _ hs hn hxs
    exact ⟨ht, hroom, nofun⟩
  · obtain ⟨hu, hroom, ha⟩ := hx s _ _ hs hn hxs
    obtain ⟨ht, hroom', hr⟩ := hf u.room a (Nat.le_trans hn hroom) (ha a rfl) u r t hu le_rfl h
    exact ⟨ht, Nat.le_trans hroom hroom', hr⟩

theorem get_bind {f : State ω → Run (State ω) β} (hf : ∀ s, s.domain.Closed → n ≤ s.room → (f s).Anchors s.room Q) :
    (get >>= f).Anchors n Q := fun s r t hs hn h => hf s hs hn s r t hs le_rfl h

theorem getHeap_bind {f : Heap → Run (State ω) β}
    (hf : ∀ h : Heap, h.Closed → n ≤ h.objects.size → (f h).Anchors h.objects.size Q) :
    (State.getHeap >>= f).Anchors n Q := fun s r t hs hn h => hf _ hs.heap hn s r t hs le_rfl h

theorem ofExcept {y : Except Error α} (h : ∀ a, y = .ok a → ∀ m, n ≤ m → P m a) :
    (Run.ofExcept y : Run (State ω) α).Anchors n P := by
  cases y with
  | error e => exact .throw e
  | ok a => exact .pure (h a rfl)

/-- A check or a calculation comes first. -/
theorem ofExcept_bind {y : Except Error α} (hf : ∀ a, y = .ok a → (f a).Anchors n Q) :
    (Run.ofExcept y >>= f).Anchors n Q := by
  cases y with
  | error e => exact .throw e
  | ok a => exact hf a rfl

theorem ofOption {y : Option α} (h : ∀ a, y = some a → ∀ m, n ≤ m → P m a) :
    (Run.ofOption y : Run (State ω) α).Anchors n P := by
  cases y with
  | none =>
    intro s r t _ _ hx
    cases hx
  | some a => exact .pure (h a rfl)

theorem outOfBudget : (Run.outOfBudget : Run (State ω) α).Anchors n P := by
  intro s r t _ _ hx
  cases hx

theorem attempt (hx : x.Anchors n P) : (Run.attempt x).Anchors n fun m r => ∀ a, r = .ok a → P m a := by
  intro s r t hs hn h
  unfold Run.attempt at h
  rcases hxs : x s with _ | ⟨o, u⟩ <;> rw [hxs] at h
  · cases h
  · cases h
    obtain ⟨ht, hroom, hr⟩ := hx s _ _ hs hn hxs
    exact ⟨ht, hroom, fun _ ho => Except.ok.inj ho ▸ hr⟩

theorem mapM {f : α → Run (State ω) β} (hQ : ∀ m k b, m ≤ k → Q m b → Q k b) {xs : List α}
    (hf : ∀ a ∈ xs, ∀ m, n ≤ m → (f a).Anchors m Q) : (xs.mapM f).Anchors n fun m bs => ∀ b ∈ bs, Q m b := by
  induction xs generalizing n with
  | nil => exact .pure nofun
  | cons x xs ih =>
    obtain ⟨hx, hxs⟩ := List.forall_mem_cons.mp hf
    rw [List.mapM_cons]
    refine (hx n le_rfl).bind fun m b hm hb => ?_
    refine (ih fun a ha k hk => hxs a ha k (Nat.le_trans hm hk)).bind fun k bs hk hbs => .pure fun l hl => ?_
    refine List.forall_mem_cons.mpr ⟨hQ _ _ _ (Nat.le_trans hk hl) hb, fun c hc => hQ _ _ _ hl (hbs c hc)⟩

/-- Whatever happens outside the domain. -/
theorem onOutside (x : Run ω α) : (State.onOutside x).Anchors n Run.Unbound := by
  intro s r t hs _ h
  unfold State.onOutside Run.zoom at h
  rcases hx : x s.outside with _ | ⟨a, o⟩ <;> rw [hx] at h
  · cases h
  · cases h
    exact ⟨hs, le_rfl, fun _ _ => trivial⟩

theorem modifyDomain {f : Domain → Domain}
    (hf : ∀ d, d.Closed → n ≤ d.heap.objects.size → (f d).Closed ∧ d.heap.objects.size ≤ (f d).heap.objects.size) :
    (State.modifyDomain f : Run (State ω) Unit).Anchors n Run.Unbound := by
  intro s r t hs hn h
  cases h
  obtain ⟨hclosed, hroom⟩ := hf s.domain hs hn
  exact ⟨hclosed, hroom, fun _ _ => trivial⟩

end Run.Anchors

/-! ## Hosts -/

namespace State
variable {n : Nat}

theorem setField_anchors {r : Ref} (name : String) {v : Value} (hv : v.Anchored n) :
    (setField r name v : Run (State ω) Unit).Anchors n Run.Unbound := by
  refine .modifyDomain fun d hd hn => ?_
  have hsize := (d.heap.size_setField r name v).ge
  exact ⟨hd.withHeap (hd.heap.setField r name (hv.mono hn)) hsize, hsize⟩

theorem alloc_anchors {o : Object} (ho : ∀ f ∈ o.fields, f.2.Anchored n) :
    (alloc o : Run (State ω) Ref).Anchors n fun m r => r.index < m := by
  intro s r t hs hn h
  cases h
  have hsize : s.room < (s.domain.heap.alloc o).2.objects.size := (Heap.size_alloc _ _).ge
  have hclosed := hs.heap.alloc (o := o) fun f hf => (ho f hf).mono hn
  exact ⟨hs.withHeap hclosed (Nat.le_of_lt hsize), Nat.le_of_lt hsize, fun _ ha => Except.ok.inj ha ▸ hsize⟩

theorem instantiate_anchors (x : Datum) : (instantiate x : Run (State ω) Value).Anchors n Value.Anchored := by
  intro s r t hs _ h
  cases h
  have hsize := (Heap.instantiate_grows x s.domain.heap).size_le
  obtain ⟨hclosed, hv⟩ := hs.heap.instantiate x
  exact ⟨hs.withHeap hclosed hsize, hsize, fun _ ha => Except.ok.inj ha ▸ hv⟩

theorem loadFile_anchors (bytes : Bytes) (path : Option String) :
    (loadFile bytes path : Run (State ω) LoadedModule).Anchors n Run.Unbound := by
  intro s r t hs _ h
  rw [LoadCall.loadFile_apply] at h
  cases hload : s.domain.loadFile bytes path with
  | error e =>
    rw [hload] at h
    cases h
    exact ⟨hs, le_rfl, fun _ _ => trivial⟩
  | ok p =>
    rw [hload] at h
    cases h
    obtain ⟨m, _, hregister⟩ := Domain.loadFile_eq_ok hload
    obtain ⟨hclosed, hsize⟩ := hs.register hregister
    exact ⟨hclosed, hsize, fun _ _ => trivial⟩

end State

/-- From anchored arguments the native method comes to an anchored value. -/
def Native.Anchors (native : Native ω) : Prop :=
  ∀ n args, (∀ v ∈ args, v.Anchored n) → (native.call args).Anchors n Value.Anchored

def Host.Anchors (host : Host ω) : Prop :=
  ∀ type method native, host.native? type method = some native → native.Anchors

namespace Host
variable {host : Host ω} {n : Nat}

theorem resolveModule_anchors (name : String) : (host.resolveModule name).Anchors n Run.Unbound := by
  unfold resolveModule
  split
  · exact .pure fun _ _ => trivial
  · refine (Run.Anchors.onOutside _).bind fun m found _ _ => ?_
    split
    · exact .pure fun _ _ => trivial
    · exact (State.loadFile_anchors _ _).bind fun _ _ _ _ => .pure fun _ _ => trivial

theorem resolveType_anchors (t : TypeRef) : (host.resolveType t).Anchors n TypeHandle.Anchored := by
  unfold resolveType
  refine .get_bind fun s hs hn => ?_
  split
  · rename_i found hfound
    exact .pure fun m hm => (hs.type? hfound).mono hm
  split
  · exact .throw _
  refine .get_bind fun s hs hn => ?_
  split
  · exact .throw _
  refine (resolveModule_anchors _).bind fun m loaded _ _ => ?_
  split
  · refine .get_bind fun s hs hn => ?_
    split
    · rename_i found hfound
      exact .pure fun m hm => (hs.type? hfound).mono hm
    · exact .throw _
  · exact .throw _

theorem resolveMethod_anchors (m : MethodRef) : (host.resolveMethod m).Anchors n MethodHandle.Anchored := by
  unfold resolveMethod
  refine (resolveType_anchors _).bind fun k owner _ howner => ?_
  split
  · rename_i found hfound
    exact .pure fun l hl => (howner.method? hfound).mono hl
  · exact .throw _

theorem resolveOverload_anchors (type method : String) (args : List Value) :
    (host.resolveOverload type method args).Anchors n MethodHandle.Anchored := by
  unfold resolveOverload
  refine (resolveType_anchors _).bind fun k owner _ howner => .get_bind fun s _ hk => ?_
  dsimp only
  split
  · rename_i found hfound
    obtain ⟨table, _, hfound⟩ := Option.bind_eq_some_iff.mp hfound
    obtain ⟨overload, _, hmethod⟩ := Option.bind_eq_some_iff.mp hfound
    exact .pure fun l hl => ((howner.method? hmethod).mono hk).mono hl
  · exact .throw _

theorem staticsWith_anchors (type field : String) :
    (host.staticsWith type field).Anchors n fun m fields => ∀ f ∈ fields, f.2.Anchored m := by
  unfold staticsWith
  refine (resolveType_anchors _).bind fun k owner _ _ => ?_
  split
  · refine .get_bind fun s hs _ => ?_
    split
    · rename_i fields hfields
      obtain ⟨e, he, rfl⟩ := List.mem_map.mp (Dict.mem_of_find? hfields)
      exact .pure fun m hm f hf => Value.Anchored.mono (hs.statics e he f hf) hm
    · exact .throw _
  · exact .throw _

theorem getStatic_anchors (type field : String) : (host.getStatic type field).Anchors n Value.Anchored := by
  unfold getStatic
  refine (staticsWith_anchors type field).bind fun k fields _ hfields => ?_
  split
  · rename_i v hv
    obtain ⟨e, he, rfl⟩ := List.mem_map.mp (Dict.mem_of_find? hv)
    exact .pure fun m hm => (hfields e he).mono hm
  · exact .throw _

theorem setStatic_anchors (type field : String) {v : Value} (hv : v.Anchored n) :
    (host.setStatic type field v).Anchors n Run.Unbound := by
  unfold setStatic
  refine (staticsWith_anchors type field).bind fun k fields hk hfields => ?_
  refine .modifyDomain fun d hd hsize => ⟨hd.withStatic fun f hf => ?_, le_rfl⟩
  rcases Dict.mem_of_mem_insert hf with rfl | hf
  · exact hv.mono (Nat.le_trans hk hsize)
  · exact (hfields f hf).mono hsize

end Host

/-! ## The standard native methods -/

namespace Native
variable {n : Nat} {args : List Value}

theorem wrongArity_anchors {α : Type} {P : Nat → α → Prop} (type method : String) (expected : Nat) :
    (wrongArity type method expected args : Run (State ω) α).Anchors n P := .throw _

theorem textOf_anchors (v : Value) : (textOf v : Run (State ω) String).Anchors n Run.Unbound :=
  .getHeap_bind fun _ _ _ => .pure fun _ _ => trivial

theorem items_anchors (method : String) {v : Value} (hv : v.Anchored n) :
    (items method v : Run (State ω) (List Value)).Anchors n fun m xs => ∀ x ∈ xs, x.Anchored m := by
  unfold items
  split
  · exact .pure fun m hm x hx => (Value.anchored_list.mp hv x hx).mono hm
  · exact .getHeap_bind fun _ _ _ => .throw _

theorem concat_anchors : (concat args : Run (State ω) Value).Anchors n Value.Anchored := by
  unfold concat
  split
  · exact (textOf_anchors _).bind fun _ _ _ _ => (textOf_anchors _).bind fun _ _ _ _ => .pure fun _ _ => .text _
  · exact wrongArity_anchors _ _ _

theorem length_anchors : (length args : Run (State ω) Value).Anchors n Value.Anchored := by
  unfold length
  split
  · exact .pure fun _ _ => .int32 _
  · exact wrongArity_anchors _ _ _

theorem toText_anchors : (toText args : Run (State ω) Value).Anchors n Value.Anchored := by
  unfold toText
  split
  · exact (textOf_anchors _).bind fun _ _ _ _ => .pure fun _ _ => .text _
  · exact wrongArity_anchors _ _ _

theorem newList_anchors : (newList args : Run (State ω) Value).Anchors n Value.Anchored := by
  unfold newList
  split
  · exact .pure fun _ _ => .list .nil
  · exact wrongArity_anchors _ _ _

theorem machineName_anchors : (machineName args : Run (State ω) Value).Anchors n Value.Anchored := by
  unfold machineName
  split
  · exact .get_bind fun _ _ _ => .pure fun _ _ => .text _
  · exact wrongArity_anchors _ _ _

theorem threadName_anchors (thread : Option String) :
    (threadName thread args : Run (State ω) Value).Anchors n Value.Anchored := by
  unfold threadName
  split
  · refine .pure fun _ _ => ?_
    cases thread with
    | none => exact .null
    | some t => exact .text t
  · exact wrongArity_anchors _ _ _

variable (hargs : ∀ v ∈ args, v.Anchored n)
include hargs

theorem append_anchors : (append args : Run (State ω) Value).Anchors n Value.Anchored := by
  unfold append
  split
  · rename_i x
    refine .pure fun m hm => Value.anchored_list.mpr ?_
    exact List.forall_mem_singleton.mpr ((hargs x (by simp)).mono hm)
  · rename_i xs x _
    refine (items_anchors _ (hargs xs (by simp))).bind fun m items hm hitems => .pure fun k hk => ?_
    refine Value.anchored_list.mpr (List.forall_mem_append.mpr ⟨fun y hy => (hitems y hy).mono hk, ?_⟩)
    exact List.forall_mem_singleton.mpr ((hargs x (by simp)).mono (Nat.le_trans hm hk))
  · exact wrongArity_anchors _ _ _

theorem listCount_anchors : (listCount args : Run (State ω) Value).Anchors n Value.Anchored := by
  unfold listCount
  split
  · exact .pure fun _ _ => .int32 _
  · rename_i xs _
    exact (items_anchors _ (hargs xs (by simp))).bind fun _ _ _ _ => .pure fun _ _ => .int32 _
  · exact wrongArity_anchors _ _ _

theorem listGet_anchors : (listGet args : Run (State ω) Value).Anchors n Value.Anchored := by
  unfold listGet
  split
  · rename_i xs index
    refine (items_anchors _ (hargs xs (by simp))).bind fun m items _ hitems => ?_
    dsimp only
    split
    · rename_i x hx
      obtain ⟨i, _, hx⟩ := Option.bind_eq_some_iff.mp hx
      split at hx
      · exact .pure fun k hk => (hitems x (List.mem_of_getElem? hx)).mono hk
      · cases hx
    · exact .getHeap_bind fun _ _ _ => .throw _
  · exact wrongArity_anchors _ _ _

end Native

theorem Host.anchors_of_standard {host : Host ω} {thread : Option String} (h : host.natives = Native.standard thread) :
    host.Anchors := by
  intro type method native hnative n args hargs
  have hmem : native ∈ (Native.standard thread).map (·.2) := by
    rw [native?, h, List.lookup_eq_some_iff] at hnative
    obtain ⟨front, rest, heq, _⟩ := hnative
    simp [heq]
  simp only [Native.standard, List.map_cons, List.map_nil, List.mem_cons, List.not_mem_nil, or_false] at hmem
  rcases hmem with rfl | rfl | rfl | rfl | rfl | rfl | rfl | rfl | rfl
  · exact Native.concat_anchors
  · exact Native.length_anchors
  · exact Native.toText_anchors
  · exact Native.newList_anchors
  · exact Native.append_anchors hargs
  · exact Native.listCount_anchors hargs
  · exact Native.listGet_anchors hargs
  · exact Native.machineName_anchors
  · exact Native.threadName_anchors thread

end MobileCode
