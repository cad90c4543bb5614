import MobileCode.Execution.Native
import MobileCode.Proofs.Calls

/-! # Native methods side by side

The native methods every host has see their arguments, the heap and the name of the host, and none of
these tells one domain from the other.
-/
namespace MobileCode.Native
variable {c : Comparison} {w : Links} {ω : Type}

theorem textOf_tracks {x y : Value} (h : Value.Linked w x y) :
    c.Tracks Run.Every (fun _ a b => a = b) w (textOf x : Run (State ω) String) (textOf y) :=
  fun _ _ hs => .ok ⟨w, le_rfl, hs, hs.domain.heap.textOf h⟩

/-- An error that depends on the heap. -/
theorem throw_tracks {α β : Type} {R : Links → α → β → Prop} {e e' : Heap → Error}
    (h : ∀ heap heap', Heap.Linked w heap heap' → e heap = e' heap') : c.Tracks Run.Every R w
      (do throw (e (← State.getHeap)) : Run (State ω) α) (do throw (e' (← State.getHeap))) := by
  intro s t hs
  have he : (e s.domain.heap).Alike (e' t.domain.heap) := h _ _ hs.domain.heap ▸ .same _
  exact .error ⟨he, w, le_rfl, hs⟩

theorem items_tracks (method : String) {x y : Value} (h : Value.Linked w x y) :
    c.Tracks Run.Every (fun w xs ys => List.Forall₂ (Value.Linked w) xs ys) w
      (items method x : Run (State ω) (List Value)) (items method y) := by
  have hname (heap heap' : Heap) (hh : Heap.Linked w heap heap') :
      Error.invalid (.notAList method (heap.typeName x)) = .invalid (.notAList method (heap'.typeName y)) := by
    rw [hh.typeName h]
  cases h with
  | list hxs => exact Run.Tracks.pure hxs
  | _ => exact throw_tracks hname

theorem wrongArity_tracks {R : Links → Value → Value → Prop} (type method : String) (expected : Nat)
    {args args' : List Value} (h : List.Forall₂ (Value.Linked w) args args') : c.Tracks Run.Every R w
      (wrongArity type method expected args : Run (State ω) Value) (wrongArity type method expected args') := by
  rw [wrongArity, wrongArity, h.length_eq]
  exact Run.Tracks.throw fun _ => .same _

theorem concat_blind : Native.Blind c ({ call := concat } : Native ω) := by
  intro w args args' h
  unfold concat
  cases h with
  | nil => exact wrongArity_tracks _ _ _ .nil
  | cons ha h =>
  cases h with
  | nil => exact wrongArity_tracks _ _ _ (.cons ha .nil)
  | cons hb h =>
  cases h with
  | cons hx h => exact wrongArity_tracks _ _ _ (.cons ha (.cons hb (.cons hx h)))
  | nil =>
    refine (textOf_tracks ha).bind fun w₁ hle₁ a _ he => ?_
    subst he
    refine (textOf_tracks (hb.mono hle₁)).bind fun w₂ hle₂ b _ he => ?_
    subst he
    exact Run.Tracks.pure (.text _)

theorem length_blind : Native.Blind c ({ call := length } : Native ω) := by
  intro w args args' h
  unfold length
  cases h with
  | nil => exact wrongArity_tracks _ _ _ .nil
  | cons ha h =>
  cases h with
  | cons hb h => exact wrongArity_tracks _ _ _ (.cons ha (.cons hb h))
  | nil =>
    simp only [ha.asText?]
    exact Run.Tracks.pure (.int32 _)

theorem toText_blind : Native.Blind c ({ call := toText } : Native ω) := by
  intro w args args' h
  unfold toText
  cases h with
  | nil => exact wrongArity_tracks _ _ _ .nil
  | cons ha h =>
  cases h with
  | cons hb h => exact wrongArity_tracks _ _ _ (.cons ha (.cons hb h))
  | nil =>
    refine (textOf_tracks ha).bind fun w₁ _ a _ he => ?_
    subst he
    exact Run.Tracks.pure (.text _)

theorem newList_blind : Native.Blind c ({ call := newList } : Native ω) := by
  intro w args args' h
  unfold newList
  cases h with
  | nil => exact Run.Tracks.pure (.list .nil)
  | cons ha h => exact wrongArity_tracks _ _ _ (.cons ha h)

theorem append_blind : Native.Blind c ({ call := append } : Native ω) := by
  intro w args args' h
  have hwrong : c.Tracks Run.Every Value.Linked w (wrongArity TypeName.list "Append" 2 args : Run (State ω) Value)
      (wrongArity TypeName.list "Append" 2 args') := wrongArity_tracks _ _ _ h
  cases h with
  | nil => exact hwrong
  | cons ha h =>
  cases h with
  | nil => cases ha <;> exact hwrong
  | cons hb h =>
  cases h with
  | cons hx h => cases ha <;> exact hwrong
  | nil =>
    have hitems := @items_tracks c w ω "Append" _ _ ha
    cases ha with
    | null => exact Run.Tracks.pure (.list (.cons hb .nil))
    | _ =>
      refine hitems.bind fun w' hle xs ys hxs => Run.Tracks.pure (.list ?_)
      exact List.rel_append hxs (.cons (hb.mono hle) .nil)

theorem listCount_blind : Native.Blind c ({ call := listCount } : Native ω) := by
  intro w args args' h
  have hwrong : c.Tracks Run.Every Value.Linked w (wrongArity TypeName.list "Count" 1 args : Run (State ω) Value)
      (wrongArity TypeName.list "Count" 1 args') := wrongArity_tracks _ _ _ h
  cases h with
  | nil => exact hwrong
  | cons ha h =>
  cases h with
  | cons hb h => cases ha <;> exact hwrong
  | nil =>
    have hitems := @items_tracks c w ω "Count" _ _ ha
    cases ha with
    | null => exact Run.Tracks.pure (.int32 _)
    | _ =>
      refine hitems.bind fun w' _ xs ys hxs => ?_
      rw [hxs.length_eq]
      exact Run.Tracks.pure (.int32 _)

theorem listGet_blind : Native.Blind c ({ call := listGet } : Native ω) := by
  intro w args args' h
  have hwrong : c.Tracks Run.Every Value.Linked w (wrongArity TypeName.list "Get" 2 args : Run (State ω) Value)
      (wrongArity TypeName.list "Get" 2 args') := wrongArity_tracks _ _ _ h
  cases h with
  | nil => exact hwrong
  | cons ha h =>
  cases h with
  | nil => exact hwrong
  | @cons index index' _ _ hb h =>
  cases h with
  | cons hx h => exact hwrong
  | nil =>
    refine (items_tracks "Get" ha).bind fun w' hle xs ys hxs => ?_
    have hindex := hb.mono hle
    simp only [hindex.asInt64?]
    have hfound : Option.Rel (Value.Linked w')
        (do let i ← index'.asInt64?; if 0 ≤ i then xs[i.toInt.toNat]? else none)
        (do let i ← index'.asInt64?; if 0 ≤ i then ys[i.toInt.toNat]? else none) := by
      cases index'.asInt64? with
      | none => exact .none
      | some i =>
        simp only [Option.bind_eq_bind, Option.bind_some]
        split
        · exact Forall₂.getElem? hxs _
        · exact .none
    generalize (do let i ← index'.asInt64?; if 0 ≤ i then xs[i.toInt.toNat]? else none) = x at hfound
    generalize (do let i ← index'.asInt64?; if 0 ≤ i then ys[i.toInt.toNat]? else none) = y at hfound
    cases hfound with
    | some hv => exact Run.Tracks.pure hv
    | none => exact throw_tracks fun heap heap' hh => by rw [hh.display hindex, hxs.length_eq]

theorem machineName_blind : Native.Blind c ({ call := machineName } : Native ω) := by
  intro w args args' h
  cases h with
  | cons ha h => exact wrongArity_tracks _ _ _ (.cons ha h)
  | nil =>
    intro s t hs
    refine .ok ⟨w, le_rfl, hs, ?_⟩
    rw [hs.domain.host]
    exact .text _

theorem threadName_blind (thread : Option String) : Native.Blind c ({ call := threadName thread } : Native ω) := by
  intro w args args' h
  cases h with
  | cons ha h => exact wrongArity_tracks _ _ _ (.cons ha h)
  | nil =>
    refine Run.Tracks.pure ?_
    cases thread with
    | none => exact .null
    | some name => exact .text name

/-- The native methods every host has cannot tell one domain from the other. -/
theorem standard_blind (thread : Option String) : ∀ n ∈ (standard thread : List ((String × String) × Native ω)),
    Native.Blind c n.2 := by
  intro n hn
  simp only [standard, List.mem_cons, List.not_mem_nil, or_false] at hn
  obtain rfl | rfl | rfl | rfl | rfl | rfl | rfl | rfl | rfl := hn
  · exact concat_blind
  · exact length_blind
  · exact toText_blind
  · exact newList_blind
  · exact append_blind
  · exact listCount_blind
  · exact listGet_blind
  · exact machineName_blind
  · exact threadName_blind thread

/-- None of them has the name of a sibling. -/
theorem standard_spares (thread : Option String) (type method : String) :
    (standard thread : List ((String × String) × Native ω)).lookup (type, relayBodyName method) = none := by
  have hnames : ∀ name ∈ (standard thread : List ((String × String) × Native ω)).map (·.1.2),
      name.toList.getLast? ≠ some 'y' := by
    show ∀ name ∈ ["Concat", "Length", "ToString", "New", "Append", "Count", "Get", "get_MachineName", "get_Name"], _
    decide
  refine List.lookup_eq_none_iff.mpr fun n hn => bne_iff_ne.mpr fun he => ?_
  have hname : n.1.2 = relayBodyName method := (congrArg Prod.snd he).symm
  refine hnames n.1.2 (List.mem_map_of_mem hn) ?_
  rw [hname]
  simp [relayBodyName]

end MobileCode.Native

/-- A host without a resolver that has those natives alone. -/
theorem MobileCode.Host.impartial_of_standard {ω : Type} {c : Comparison} {host : Host ω}
    (hnatives : host.natives = Native.standard host.thread) (hresolver : host.resolver = none) :
    host.Impartial c where
  natives := hnatives ▸ Native.standard_blind host.thread
  resolver _ h := nomatch hresolver.symm.trans h

theorem MobileCode.Host.sparesSiblings_of_standard {ω : Type} {host : Host ω}
    (hnatives : host.natives = Native.standard host.thread) : host.SparesSiblings := fun type method => by
  rw [Host.native?, hnatives]
  exact Native.standard_spares host.thread type method
