import MobileCode.Proofs.Registration

/-! # Modules in domains

Loading a module turns its literals into values and changes nothing else. So a loaded declaration has the
shape of the one it comes from: the same names, flags, parameters and instructions, and the same literals
as far as these are no lists and no objects.
-/
namespace MobileCode

/-! ## Shapes -/

/-- Literals, which are known as data but for what lists and objects hold. -/
class Sketched (α : Type) where
  sketch : α → Datum

instance : Sketched Datum where
  sketch
    | .list _ => .list []
    | .object _ _ => .object "" []
    | x => x

instance : Sketched Value where
  sketch
    | .null => .null
    | .bool b => .bool b
    | .int32 n => .int32 n
    | .int64 n => .int64 n
    | .double x => .double x
    | .text s => .text s
    | .list _ => .list []
    | .object _ => .object "" []

theorem Value.eq_bool_of_sketch {v : Value} {b : Bool} (h : Sketched.sketch v = .bool b) : v = .bool b := by
  cases v with
  | bool c => exact congrArg Value.bool (Datum.bool.inj h)
  | _ => exact nomatch h

theorem Heap.instantiate_sketch (x : Datum) (h : Heap) : Sketched.sketch (instantiate x h).1 = Sketched.sketch x := by
  cases x <;> rfl

section Shape
variable {α : Type} [Sketched α]

def Instruction.shape (i : Instruction α) : Instruction Datum := Id.run (i.traverse fun x => pure (Sketched.sketch x))

def ParamDecl.shape (p : ParamDecl α) : ParamDecl Datum := ⟨p.name, p.type, p.default.map Sketched.sketch⟩

def FieldDecl.shape (f : FieldDecl α) : FieldDecl Datum := ⟨f.name, f.type, f.flags, f.initial.map Sketched.sketch⟩

def MethodDecl.shape (d : MethodDecl α) : MethodDecl Datum where
  name := d.name
  flags := d.flags
  params := d.params.map (·.shape)
  returns := d.returns
  locals := d.locals
  body := d.body.map (·.shape)
  mobility := d.mobility
  relayBody := d.relayBody
  closure := d.closure

def TypeDecl.shape (t : TypeDecl α) : TypeDecl Datum where
  space := t.space
  name := t.name
  flags := t.flags
  fields := t.fields.map (·.shape)
  properties := t.properties
  methods := t.methods.map (·.shape)

def Module.shape (m : Module α) : Module Datum where
  name := m.name
  flags := m.flags
  references := m.references
  types := m.types.map (·.shape)
  resources := m.resources
  pairedHash := m.pairedHash

end Shape

/-! ### What shapes tell -/

section Known
variable {α β : Type} [Sketched α] [Sketched β] {d : MethodDecl α} {e : MethodDecl β} {t : TypeDecl α} {u : TypeDecl β}

namespace MethodDecl

theorem paramTypes_shape (d : MethodDecl α) : d.shape.paramTypes = d.paramTypes := by
  simp only [shape, paramTypes, List.map_map]
  rfl

theorem paramTypes_eq (h : d.shape = e.shape) : d.paramTypes = e.paramTypes := by
  rw [← paramTypes_shape, h, paramTypes_shape]

theorem length_params_eq (h : d.shape = e.shape) : d.params.length = e.params.length := by
  have hparams : d.params.map ParamDecl.shape = e.params.map ParamDecl.shape := congrArg params h
  simpa using congrArg List.length hparams

theorem key_eq (h : d.shape = e.shape) (type : String) : d.key type = e.key type := by
  have hname : d.name = e.name := congrArg name h
  rw [key, key, hname, paramTypes_eq h]

theorem isStatic_eq (h : d.shape = e.shape) : d.isStatic = e.isStatic := by
  have hflags : d.flags = e.flags := congrArg flags h
  rw [isStatic, isStatic, hflags]

theorem isVoid_eq (h : d.shape = e.shape) : d.isVoid = e.isVoid := by
  have hreturns : d.returns = e.returns := congrArg returns h
  rw [isVoid, isVoid, hreturns]

theorem isDefaultConstructor_eq (h : d.shape = e.shape) : d.isDefaultConstructor = e.isDefaultConstructor := by
  have hflags : d.flags = e.flags := congrArg flags h
  have hlength := length_params_eq h
  have hempty : d.params.isEmpty = e.params.isEmpty := by
    rw [Bool.eq_iff_iff, List.isEmpty_iff_length_eq_zero, List.isEmpty_iff_length_eq_zero, hlength]
  rw [isDefaultConstructor, isDefaultConstructor, hflags, isStatic_eq h, hempty]

end MethodDecl

namespace TypeDecl

theorem fullName_eq (h : t.shape = u.shape) : t.fullName = u.fullName := by
  have hspace : t.space = u.space := congrArg space h
  have hname : t.name = u.name := congrArg name h
  rw [fullName, fullName, hspace, hname]

theorem methods_getElem? (h : t.shape = u.shape) {k : Nat} {d : MethodDecl α} (hd : t.methods[k]? = some d) :
    ∃ e, u.methods[k]? = some e ∧ d.shape = e.shape := by
  have hmethods : t.methods.map MethodDecl.shape = u.methods.map MethodDecl.shape := congrArg methods h
  have hk : (u.methods.map MethodDecl.shape)[k]? = some d.shape := by
    rw [← hmethods, List.getElem?_map, hd]
    rfl
  rw [List.getElem?_map, Option.map_eq_some_iff] at hk
  obtain ⟨e, he, hshape⟩ := hk
  exact ⟨e, he, hshape.symm⟩

theorem method?_shape (t : TypeDecl α) (name : String) (types : List String) :
    t.shape.method? name types = (t.method? name types).map MethodDecl.shape := by
  simp only [method?, shape, List.find?_map, Function.comp_def, MethodDecl.hasSignature, MethodDecl.paramTypes_shape]
  rfl

theorem method?_eq (h : t.shape = u.shape) {name : String} {types : List String} {d : MethodDecl α}
    (hd : t.method? name types = some d) : ∃ e, u.method? name types = some e ∧ d.shape = e.shape := by
  have hfound := method?_shape u name types
  rw [← h, method?_shape, hd] at hfound
  obtain ⟨e, he, hshape⟩ := Option.map_eq_some_iff.mp hfound.symm
  exact ⟨e, he, hshape.symm⟩

end TypeDecl

theorem Module.types_getElem? {m : Module α} {n : Module β} (h : m.shape = n.shape) {i : Nat} {t : TypeDecl α}
    (ht : m.types[i]? = some t) : ∃ u, n.types[i]? = some u ∧ t.shape = u.shape := by
  have htypes : m.types.map TypeDecl.shape = n.types.map TypeDecl.shape := congrArg types h
  have hi : (n.types.map TypeDecl.shape)[i]? = some t.shape := by
    rw [← htypes, List.getElem?_map, ht]
    rfl
  rw [List.getElem?_map, Option.map_eq_some_iff] at hi
  obtain ⟨u, hu, hshape⟩ := hi
  exact ⟨u, hu, hshape.symm⟩

theorem Module.fullNames_eq {m : Module α} {n : Module β} (h : m.shape = n.shape) :
    m.types.map (·.fullName) = n.types.map (·.fullName) := by
  have hnames {γ : Type} [Sketched γ] (m : Module γ) : m.shape.types.map (·.fullName) = m.types.map (·.fullName) := by
    simp only [shape, List.map_map]
    rfl
  rw [← hnames, h, hnames]

end Known

/-! ### Loading keeps shapes -/

theorem Heap.mapM_map {α β γ : Type} {f : α → StateM Heap β} {p : β → γ} {q : α → γ}
    (h : ∀ x k, p ((f x).run k).1 = q x) (xs : List α) (k : Heap) : ((xs.mapM f).run k).1.map p = xs.map q := by
  induction xs generalizing k with
  | nil => rfl
  | cons x xs ih => rw [mapM_run_cons, List.map_cons, List.map_cons, ih, h]

theorem loadOption_shape (x : Option Datum) (h : Heap) :
    ((loadOption x).run h).1.map Sketched.sketch = x.map Sketched.sketch := by
  cases x with
  | none => rfl
  | some x => exact congrArg some (Heap.instantiate_sketch x h)

theorem Instruction.load_shape (i : Instruction Datum) (h : Heap) : (i.load.run h).1.shape = i.shape := by
  cases i with
  | const x => exact congrArg Instruction.const (Heap.instantiate_sketch x h)
  | _ => rfl

theorem ParamDecl.load_shape (p : ParamDecl Datum) (h : Heap) : (p.load.run h).1.shape = p.shape :=
  congrArg (ParamDecl.mk p.name p.type) (loadOption_shape p.default h)

theorem FieldDecl.load_shape (f : FieldDecl Datum) (h : Heap) : (f.load.run h).1.shape = f.shape :=
  congrArg (FieldDecl.mk f.name f.type f.flags) (loadOption_shape f.initial h)

theorem MethodDecl.load_shape (d : MethodDecl Datum) (h : Heap) : (d.load.run h).1.shape = d.shape := by
  have hparams := Heap.mapM_map ParamDecl.load_shape d.params h
  have hbody := Heap.mapM_map Instruction.load_shape d.body ((d.params.mapM ParamDecl.load).run h).2
  unfold shape
  rw [← hparams, ← hbody]
  rfl

theorem TypeDecl.load_shape (t : TypeDecl Datum) (h : Heap) : (t.load.run h).1.shape = t.shape := by
  have hfields := Heap.mapM_map FieldDecl.load_shape t.fields h
  have hmethods := Heap.mapM_map MethodDecl.load_shape t.methods ((t.fields.mapM FieldDecl.load).run h).2
  unfold shape
  rw [← hfields, ← hmethods]
  rfl

theorem Module.instantiate_shape (m : Module Datum) (h : Heap) :
    ((Domain.instantiate m).run h).1.shape = m.shape := by
  have htypes := Heap.mapM_map TypeDecl.load_shape m.types h
  unfold shape
  rw [← htypes]
  rfl

/-! ## Domains that hold a module -/

/-- The module is loaded, its types are indexed and its methods are in a table. -/
structure Domain.Has (d : Domain) (m : Module Datum) (l : LoadedModule) : Prop where
  shape : l.code.shape = m.shape
  distinct : (l.code.types.map (·.fullName)).Nodup
  module : d.module? m.name = some l
  types : ∀ t ∈ l.code.types, d.type? t.fullName = some ⟨l, t⟩
  table : d.table? l.name = some (.ofModule l.code)

namespace Domain.Has
variable {d d' : Domain} {m : Module Datum} {l : LoadedModule}

theorem name (h : d.Has m l) : l.name = m.name := congrArg Module.name h.shape

/-- A module that is registered is there. -/
theorem of_register {bytes : Bytes} {path : Option String} (hnew : d.module? m.name = none)
    (hdistinct : (m.types.map (·.fullName)).Nodup) (h : d.register m bytes path = .ok (l, d')) : d'.Has m l := by
  obtain ⟨rfl, rfl⟩ := register_eq_ok hnew h
  have hshape : (d.loading m bytes path).code.shape = m.shape := m.instantiate_shape d.heap
  have hname : (d.loading m bytes path).name = m.name := congrArg Module.name hshape
  have hdistinct' := (Module.fullNames_eq hshape).symm ▸ hdistinct
  refine ⟨hshape, hdistinct', ?_, fun t ht => type?_enter hdistinct' ht, ?_⟩
  · rw [module?_enter, if_pos hname.symm]
  · rw [enter_eq]
    show Dict.find? _ _ = _
    rw [Dict.find?_insert, if_pos rfl]

/-- It stays there whatever becomes of heap and static fields. -/
theorem congr (h : d.Has m l) (hmodules : d'.modules = d.modules) (htypes : d'.types = d.types)
    (htables : d'.tables = d.tables) : d'.Has m l where
  shape := h.shape
  distinct := h.distinct
  module := by rw [module?, hmodules]; exact h.module
  types t ht := by rw [type?, htypes]; exact h.types t ht
  table := by rw [table?, htables]; exact h.table

end Domain.Has
end MobileCode
