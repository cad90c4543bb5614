import MobileCode.Execution.Domain
import MobileCode.Proofs.FileForms
import MobileCode.Proofs.Snapshots
import MobileCode.Proofs.Successors

/-! # Heaps in order

The fields of an object are in order when it is made and after each of them has been set, so they are always. What is
loaded is in order, since a reader has put it there.
-/
namespace MobileCode

namespace Heap
variable {h : Heap}

theorem Ordered.alloc (hh : h.Ordered) {o : Object} (ho : o.fields.Sorted) : (h.alloc o).2.Ordered := by
  intro r p hp
  rw [get?_alloc] at hp
  split at hp
  · cases hp
    exact ho
  · exact hh r p hp

theorem Ordered.setField (hh : h.Ordered) (r : Ref) (name : String) (v : Value) : (h.setField r name v).Ordered := by
  intro s p hp
  rw [get?_setField] at hp
  split at hp
  · obtain ⟨o, ho, rfl⟩ := Option.map_eq_some_iff.mp hp
    exact Dict.Sorted.insert (hh s o ho)
  · exact hh s p hp

end Heap

/-! ## Computations that keep the order -/

def Tidy {α : Type} (x : StateM Heap α) : Prop := ∀ h : Heap, h.Ordered → (x.run h).2.Ordered

namespace Tidy
variable {α β : Type}

theorem pure (a : α) : Tidy (Pure.pure a) := fun _ hh => hh

theorem bind {x : StateM Heap α} {f : α → StateM Heap β} (hx : Tidy x) (hf : ∀ a, Tidy (f a)) : Tidy (x >>= f) :=
  fun h hh => hf _ _ (hx h hh)

theorem mapM {f : α → StateM Heap β} {xs : List α} (hf : ∀ x ∈ xs, Tidy (f x)) : Tidy (xs.mapM f) := by
  induction xs with
  | nil =>
    rw [List.mapM_nil]
    exact .pure _
  | cons x xs ih =>
    obtain ⟨hx, hxs⟩ := List.forall_mem_cons.mp hf
    rw [List.mapM_cons]
    exact hx.bind fun _ => (ih hxs).bind fun _ => .pure _

theorem traverseOption {f : α → StateM Heap β} {o : Option α} (hf : ∀ x ∈ o, Tidy (f x)) :
    Tidy (MobileCode.traverseOption f o) := by
  cases o with
  | none => exact .pure _
  | some x => exact (hf x rfl).bind fun _ => .pure _

end Tidy

mutual

theorem Heap.instantiate_tidy : ∀ {x : Datum}, x.Ordered → Tidy (Heap.instantiate x)
  | .null, _ | .bool _, _ | .int32 _, _ | .int64 _, _ | .double _, _ | .text _, _ => fun _ hh => hh
  | .list _, hx => fun h hh => Heap.instantiateItems_tidy hx h hh
  | .object _ fields, ⟨hsorted, hfields⟩ => by
    intro h hh
    have hnames := (Heap.snapshotUpTo_instantiateFields fields h (Extends.refl _).since).flip
    exact (Heap.instantiateFields_tidy hfields h hh).alloc
      (Heap.sorted_of_names hsorted (hnames.imp fun _ _ he => he.2.symm))

theorem Heap.instantiateItems_tidy : ∀ {xs : List Datum}, Datum.OrderedItems xs → Tidy (Heap.instantiateItems xs)
  | [], _ => fun _ hh => hh
  | _ :: _, ⟨hx, hxs⟩ => fun h hh => Heap.instantiateItems_tidy hxs _ (Heap.instantiate_tidy hx h hh)

theorem Heap.instantiateFields_tidy : ∀ {xs : List (String × Datum)}, Datum.OrderedFields xs →
    Tidy (Heap.instantiateFields xs)
  | [], _ => fun _ hh => hh
  | (_, _) :: _, ⟨hx, hxs⟩ => fun h hh => Heap.instantiateFields_tidy hxs _ (Heap.instantiate_tidy hx h hh)

end

/-! ## Loading -/

theorem Instruction.instantiate_tidy {i : Instruction Datum} (hi : i.Ordered) :
    Tidy (i.traverse (m := StateM Heap) Heap.instantiate) := by
  cases i with
  | const x => exact (Heap.instantiate_tidy (hi x rfl)).bind fun _ => .pure _
  | _ => exact .pure _

theorem ParamDecl.instantiate_tidy {p : ParamDecl Datum} (hp : p.Ordered) :
    Tidy (p.traverse (m := StateM Heap) Heap.instantiate) :=
  (Tidy.traverseOption fun x hx => Heap.instantiate_tidy (hp x hx)).bind fun _ => .pure _

theorem FieldDecl.instantiate_tidy {d : FieldDecl Datum} (hd : d.Ordered) :
    Tidy (d.traverse (m := StateM Heap) Heap.instantiate) :=
  (Tidy.traverseOption fun x hx => Heap.instantiate_tidy (hd x hx)).bind fun _ => .pure _

theorem MethodDecl.instantiate_tidy {d : MethodDecl Datum} (hd : d.Ordered) :
    Tidy (d.traverse (m := StateM Heap) Heap.instantiate) :=
  (Tidy.mapM fun p hp => ParamDecl.instantiate_tidy (hd.params p hp)).bind fun _ =>
    (Tidy.mapM fun i hi => Instruction.instantiate_tidy (hd.body i hi)).bind fun _ => .pure _

theorem TypeDecl.instantiate_tidy {t : TypeDecl Datum} (ht : t.Ordered) :
    Tidy (t.traverse (m := StateM Heap) Heap.instantiate) :=
  (Tidy.mapM fun f hf => FieldDecl.instantiate_tidy (ht.fields f hf)).bind fun _ =>
    (Tidy.mapM fun d hd => MethodDecl.instantiate_tidy (ht.methods d hd)).bind fun _ => .pure _

theorem Module.instantiate_tidy {m : Module Datum} (hm : m.Ordered) : Tidy (Domain.instantiate m) :=
  (Tidy.mapM fun t ht => TypeDecl.instantiate_tidy (hm.types t ht)).bind fun _ => .pure _

theorem Domain.loadFile_ordered {d e : Domain} {bytes : Bytes} {path : Option String} {m : LoadedModule}
    (hd : d.heap.Ordered) (h : d.loadFile bytes path = .ok (m, e)) : e.heap.Ordered := by
  obtain ⟨n, hn, hregister⟩ := loadFile_eq_ok h
  rcases register_cases hregister with ⟨_, _, rfl⟩ | ⟨_, rfl, _, rfl⟩
  · exact hd
  · rw [enter_eq]
    exact Module.instantiate_tidy (Module.ofFile_ordered hn) _ hd

end MobileCode
