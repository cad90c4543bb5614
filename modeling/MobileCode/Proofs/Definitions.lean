import MobileCode.Proofs.Envelopes
import MobileCode.Proofs.Loadings

/-! # The definitions of loaded modules

A module that is loaded stays the same module with the same table of methods. Its literals are values, and where such a
value is an object, code can change the object. As long as the objects that were made for literals stay as they were
made, the module reads back as its file says.
-/
namespace MobileCode

/-! ## Literals and their states -/

namespace Makes

theorem ofOption : Makes (fun h => traverseOption h.snapshot) loadOption where
  grows := loadOption_grows
  made x h _ hk := by
    cases x with
    | none => rfl
    | some x => exact Option.bind_eq_some_iff.mpr ⟨x, instantiate.made x h hk, rfl⟩

theorem ofInstruction : Makes (fun h (i : Instruction Value) => i.traverse h.snapshot) Instruction.load where
  grows := Instruction.load_grows
  made i h _ hk := by
    cases i with
    | const x => exact Option.bind_eq_some_iff.mpr ⟨x, instantiate.made x h hk, rfl⟩
    | _ => rfl

theorem ofParam : Makes (fun h (p : ParamDecl Value) => p.traverse h.snapshot) ParamDecl.load where
  grows := ParamDecl.load_grows
  made p h _ hk := Option.bind_eq_some_iff.mpr ⟨p.default, ofOption.made p.default h hk, rfl⟩

theorem ofField : Makes (fun h (f : FieldDecl Value) => f.traverse h.snapshot) FieldDecl.load where
  grows := FieldDecl.load_grows
  made f h _ hk := Option.bind_eq_some_iff.mpr ⟨f.initial, ofOption.made f.initial h hk, rfl⟩

theorem ofMethod : Makes (fun h (d : MethodDecl Value) => d.traverse h.snapshot) MethodDecl.load where
  grows := MethodDecl.load_grows
  made d h _ hk := by
    obtain ⟨hparams, hbody⟩ := ofParam.mapM.both ofInstruction.mapM d.params d.body hk
    exact Option.bind_eq_some_iff.mpr ⟨d.params, hparams, Option.bind_eq_some_iff.mpr ⟨d.body, hbody, rfl⟩⟩

theorem ofType : Makes (fun h (t : TypeDecl Value) => t.traverse h.snapshot) TypeDecl.load where
  grows := TypeDecl.load_grows
  made t h _ hk := by
    obtain ⟨hfields, hmethods⟩ := ofField.mapM.both ofMethod.mapM t.fields t.methods hk
    exact Option.bind_eq_some_iff.mpr ⟨t.fields, hfields, Option.bind_eq_some_iff.mpr ⟨t.methods, hmethods, rfl⟩⟩

theorem ofModule : Makes (fun h (m : Module Value) => m.traverse h.snapshot) Domain.instantiate where
  grows := Module.instantiate_grows
  made m h _ hk := Option.bind_eq_some_iff.mpr ⟨m.types, ofType.mapM.made m.types h hk, rfl⟩

end Makes

/-! ### Literals without objects -/

mutual

/-- The datum holds no object. -/
def Datum.Plain : Datum → Prop
  | .list items => PlainItems items
  | .object _ _ => False
  | _ => True

def Datum.PlainItems : List Datum → Prop
  | [] => True
  | x :: xs => Plain x ∧ PlainItems xs

end

/-- None of the literals of the module holds an object. -/
def Module.Plain (m : Module Datum) : Prop := ∀ t ∈ m.types, ∀ x, t.Mentions x → x.Plain

/-- The computation makes no objects, and gives the same in every heap. -/
def Still {α : Type} (x : StateM Heap α) : Prop := ∃ a, ∀ h, x.run h = (a, h)

namespace Still
variable {α β : Type}

theorem heap {x : StateM Heap α} (hx : Still x) (h : Heap) : (x.run h).2 = h := by
  obtain ⟨a, ha⟩ := hx
  rw [ha]

theorem pure (a : α) : Still (Pure.pure a) := ⟨a, fun _ => rfl⟩

theorem bind {x : StateM Heap α} {f : α → StateM Heap β} (hx : Still x) (hf : ∀ a, Still (f a)) : Still (x >>= f) := by
  obtain ⟨a, ha⟩ := hx
  obtain ⟨b, hb⟩ := hf a
  exact ⟨b, fun h => by rw [StateT.run_bind, ha]; exact hb h⟩

theorem mapM {f : α → StateM Heap β} {xs : List α} (hf : ∀ x ∈ xs, Still (f x)) : Still (xs.mapM f) := by
  induction xs with
  | nil => exact .pure _
  | cons x xs ih =>
    obtain ⟨hx, hxs⟩ := List.forall_mem_cons.mp hf
    rw [List.mapM_cons]
    exact hx.bind fun _ => (ih hxs).bind fun _ => .pure _

end Still

mutual

theorem Datum.Plain.still : ∀ {x : Datum}, x.Plain → Still (Heap.instantiate x)
  | .null, _ | .bool _, _ | .int32 _, _ | .int64 _, _ | .double _, _ | .text _, _ => ⟨_, fun _ => rfl⟩
  | .list items, h =>
    have ⟨vs, hvs⟩ := Datum.PlainItems.still h
    ⟨.list vs, fun k => by
      show (Value.list (Heap.instantiateItems items k).1, (Heap.instantiateItems items k).2) = _
      rw [show Heap.instantiateItems items k = (vs, k) from hvs k]⟩

theorem Datum.PlainItems.still : ∀ {xs : List Datum}, Datum.PlainItems xs → Still (Heap.instantiateItems xs)
  | [], _ => ⟨[], fun _ => rfl⟩
  | _ :: rest, ⟨hx, hxs⟩ =>
    have ⟨v, hv⟩ := hx.still
    have ⟨vs, hvs⟩ := Datum.PlainItems.still hxs
    ⟨v :: vs, fun k => by
      show (_ :: (Heap.instantiateItems rest _).1, (Heap.instantiateItems rest _).2) = _
      rw [show Heap.instantiate _ k = (v, k) from hv k, show Heap.instantiateItems rest k = (vs, k) from hvs k]⟩

end

theorem loadOption_still {x : Option Datum} (h : ∀ y ∈ x, y.Plain) : Still (loadOption x) := by
  cases x with
  | none => exact .pure _
  | some x => exact (h x rfl).still.bind fun _ => .pure _

theorem TypeDecl.still {t : TypeDecl Datum} (h : ∀ x, t.Mentions x → x.Plain) : Still t.load := by
  have hfield (f : FieldDecl Datum) (hf : f ∈ t.fields) : Still f.load :=
    (loadOption_still fun x hx => h x (.field hf hx)).bind fun _ => .pure _
  have hparam (d : MethodDecl Datum) (hd : d ∈ t.methods) (p : ParamDecl Datum) (hp : p ∈ d.params) : Still p.load :=
    (loadOption_still fun x hx => h x (.default hd hp hx)).bind fun _ => .pure _
  have hinstruction (d : MethodDecl Datum) (hd : d ∈ t.methods) (i : Instruction Datum) (hi : i ∈ d.body) : Still i.load := by
    cases i with
    | const x => exact (h x (.const hd hi)).still.bind fun _ => .pure _
    | _ => exact .pure _
  have hmethod (d : MethodDecl Datum) (hd : d ∈ t.methods) : Still d.load :=
    (Still.mapM (hparam d hd)).bind fun _ => (Still.mapM (hinstruction d hd)).bind fun _ => .pure _
  exact (Still.mapM hfield).bind fun _ => (Still.mapM hmethod).bind fun _ => .pure _

theorem Module.Plain.still {m : Module Datum} (h : m.Plain) : Still (Domain.instantiate m) :=
  (Still.mapM fun t ht => TypeDecl.still (h t ht)).bind fun _ => .pure _

/-! ### Readings of one definition -/

section
variable {f g : Value → Option Datum}

theorem mapM_same {α β : Type} {f g : α → Option β} {xs : List α} {ys : List β} (hf : xs.mapM f = some ys)
    (hg : xs.mapM g = some ys) {x : α} (hx : x ∈ xs) : ∃ y, f x = some y ∧ g x = some y := by
  rw [mapM_eq_some_iff] at hf hg
  induction hf with
  | nil => cases hx
  | cons hfirst _ ih =>
    cases hg with
    | cons hfirst' hrest' =>
      obtain rfl | hx := List.mem_cons.mp hx
      · exact ⟨_, hfirst, hfirst'⟩
      · exact ih hrest' hx

theorem traverseOption_same {o : Option Value} {o' : Option Datum} (hf : traverseOption f o = some o')
    (hg : traverseOption g o = some o') {v : Value} (hv : v ∈ o) : ∃ x, f v = some x ∧ g v = some x := by
  cases Option.mem_def.mp hv
  obtain ⟨x, hx, hf⟩ := Option.bind_eq_some_iff.mp hf
  obtain ⟨y, hy, hg⟩ := Option.bind_eq_some_iff.mp hg
  cases hf
  cases hg
  exact ⟨x, hx, hy⟩

variable {v : Value}

theorem ParamDecl.traverse_same {p : ParamDecl Value} {q : ParamDecl Datum} (hf : p.traverse f = some q)
    (hg : p.traverse g = some q) (hv : v ∈ p.default) : ∃ x, f v = some x ∧ g v = some x := by
  obtain ⟨o, ho, hf⟩ := Option.bind_eq_some_iff.mp hf
  obtain ⟨o', ho', hg⟩ := Option.bind_eq_some_iff.mp hg
  cases hf
  cases hg
  exact traverseOption_same ho ho' hv

theorem FieldDecl.traverse_same {d : FieldDecl Value} {e : FieldDecl Datum} (hf : d.traverse f = some e)
    (hg : d.traverse g = some e) (hv : v ∈ d.initial) : ∃ x, f v = some x ∧ g v = some x := by
  obtain ⟨o, ho, hf⟩ := Option.bind_eq_some_iff.mp hf
  obtain ⟨o', ho', hg⟩ := Option.bind_eq_some_iff.mp hg
  cases hf
  cases hg
  exact traverseOption_same ho ho' hv

theorem Instruction.traverse_same {i : Instruction Datum} (hf : (Instruction.const v).traverse f = some i)
    (hg : (Instruction.const v).traverse g = some i) : ∃ x, f v = some x ∧ g v = some x := by
  obtain ⟨x, hx, hf⟩ := Option.bind_eq_some_iff.mp hf
  obtain ⟨y, hy, hg⟩ := Option.bind_eq_some_iff.mp hg
  cases hf
  cases hg
  exact ⟨x, hx, hy⟩

/-- Where two readings of a type come to the same, they come to the same for each of its literals. -/
theorem TypeDecl.traverse_same {t : TypeDecl Value} {u : TypeDecl Datum} (hf : t.traverse f = some u)
    (hg : t.traverse g = some u) (hv : t.Mentions v) : ∃ x, f v = some x ∧ g v = some x := by
  obtain ⟨fields, hfields, hf⟩ := Option.bind_eq_some_iff.mp hf
  obtain ⟨methods, hmethods, hf⟩ := Option.bind_eq_some_iff.mp hf
  cases hf
  obtain ⟨fields', hfields', hg⟩ := Option.bind_eq_some_iff.mp hg
  obtain ⟨methods', hmethods', hg⟩ := Option.bind_eq_some_iff.mp hg
  cases hg
  have hmethod {d : MethodDecl Value} (hd : d ∈ t.methods) : ∃ params body,
      d.params.mapM (·.traverse f) = some params ∧ d.params.mapM (·.traverse g) = some params ∧
        d.body.mapM (·.traverse f) = some body ∧ d.body.mapM (·.traverse g) = some body := by
    obtain ⟨e, he, he'⟩ := mapM_same hmethods hmethods' hd
    obtain ⟨params, hparams, he⟩ := Option.bind_eq_some_iff.mp he
    obtain ⟨body, hbody, he⟩ := Option.bind_eq_some_iff.mp he
    cases he
    obtain ⟨params', hparams', he'⟩ := Option.bind_eq_some_iff.mp he'
    obtain ⟨body', hbody', he'⟩ := Option.bind_eq_some_iff.mp he'
    cases he'
    exact ⟨params, body, hparams, hparams', hbody, hbody'⟩
  cases hv with
  | field hd hinitial =>
    obtain ⟨e, he, he'⟩ := mapM_same hfields hfields' hd
    exact FieldDecl.traverse_same he he' hinitial
  | default hd hp hdefault =>
    obtain ⟨_, _, hparams, hparams', -, -⟩ := hmethod hd
    obtain ⟨q, hq, hq'⟩ := mapM_same hparams hparams' hp
    exact ParamDecl.traverse_same hq hq' hdefault
  | const hd hi =>
    obtain ⟨_, _, -, -, hbody, hbody'⟩ := hmethod hd
    obtain ⟨i, hi, hi'⟩ := mapM_same hbody hbody' hi
    exact Instruction.traverse_same hi hi'

theorem Module.traverse_same {m : Module Value} {n : Module Datum} (hf : m.traverse f = some n) (hg : m.traverse g = some n)
    {t : TypeDecl Value} (ht : t ∈ m.types) (hv : t.Mentions v) : ∃ x, f v = some x ∧ g v = some x := by
  obtain ⟨types, htypes, hf⟩ := Option.bind_eq_some_iff.mp hf
  obtain ⟨types', htypes', hg⟩ := Option.bind_eq_some_iff.mp hg
  cases hf
  cases hg
  obtain ⟨u, hu, hu'⟩ := mapM_same htypes htypes' ht
  exact TypeDecl.traverse_same hu hu' hv

end

/-! ## Modules and what they were made from -/

/-- The defaults in the table of a module are literals of its types. -/
theorem DispatchTable.mentions_of_overload {m : Module Value} {type method : String} {o : Overload}
    (ho : o ∈ (ofModule m).overloads type method) {p : ParamDecl Value} (hp : p ∈ o.params) {v : Value}
    (hv : v ∈ p.default) : ∃ t ∈ m.types, t.Mentions v := by
  rw [overloads_ofModule] at ho
  obtain ⟨t, ht, ho⟩ := List.mem_flatMap.mp (List.mem_filter.mp ho).1
  obtain ⟨d, hd, rfl⟩ := List.mem_map.mp ho
  exact ⟨t, ht, .default hd hp hv⟩

/-- The objects that were made for the literals of the module are in the heap as they were made. -/
def Module.Untouched (m : Module Datum) (before now : Heap) : Prop :=
  Heap.ExtendsFrom before.objects.size ((Domain.instantiate m).run before).2 now

theorem Module.Plain.untouched {m : Module Datum} (h : m.Plain) (before now : Heap) : m.Untouched before now := by
  intro r o hr ho
  rw [h.still.heap before] at ho
  cases (Heap.get?_eq_none_iff.mpr hr).symm.trans ho

/-- What was read from a file, or is in order and was written to it, is read from it and from its own file. -/
theorem Module.FiledAs.read {m : Module Datum} {bytes : Bytes} (h : m.FiledAs bytes) (hm : m.Ordered)
    (hsize : bytes.length < UInt64.size) : Module.ofFile bytes = .ok m ∧ Module.ofFile m.toFile = .ok m := by
  have hvalid : m.validate = .ok () := Module.validate_eq_ok.mpr h.valid
  rcases h.file with hread | rfl
  · have hlength := Nat.lt_of_le_of_lt (Module.length_toFile_of_ofFile hread) hsize
    rw [Module.ofFile_toFile_ordered hm hlength, hvalid]
    exact ⟨hread, rfl⟩
  · rw [Module.ofFile_toFile_ordered hm hsize, hvalid]
    exact ⟨rfl, rfl⟩

namespace LoadedModule

/-- The definition as it reads with the objects of a heap. -/
def definition? (l : LoadedModule) (heap : Heap) : Option (Module Datum) := l.code.traverse heap.snapshot

/-- The module was loaded from a definition, at a time when the heap was this one. -/
structure LoadedFrom (l : LoadedModule) (m : Module Datum) (before : Heap) : Prop where
  filed : m.FiledAs l.bytes
  code : l.code = ((Domain.instantiate m).run before).1

variable {l : LoadedModule} {m : Module Datum} {before now : Heap}

theorem LoadedFrom.definition (h : l.LoadedFrom m before) (hnow : m.Untouched before now) : l.definition? now = some m := by
  rw [definition?, h.code]
  exact Makes.ofModule.made m before hnow

/-- Where the indexes agree, a module that was loaded is there with its types and its table. -/
theorem LoadedFrom.has {d : Domain} (h : l.LoadedFrom m before) (hd : d.Coherent) {name : String}
    (hl : d.module? name = some l) : d.Has m l := by
  have hshape : l.code.shape = m.shape := h.code ▸ m.instantiate_shape before
  obtain rfl : l.name = name := hd.names name l hl
  refine ⟨hshape, (Module.fullNames_eq hshape).symm ▸ h.filed.valid.distinct, ?_, fun u hu => ?_, ?_⟩
  · rw [← show l.name = m.name from congrArg Module.name hshape, hl]
  · exact hd.declared l.name l hl u hu
  · rw [hd.tables, hl]
    rfl

end LoadedModule

/-! ## Whatever is done with the domain -/

/-- Each module of the domain was loaded from a definition. -/
def Domain.Founded (d : Domain) : Prop := ∀ name l, d.module? name = some l → ∃ m before, l.LoadedFrom m before

theorem Domain.Founded.register {d e : Domain} (hd : d.Founded) {m : Module Datum} {bytes : Bytes} {path : Option String}
    {l : LoadedModule} (hm : m.FiledAs bytes) (h : d.register m bytes path = .ok (l, e)) : e.Founded := by
  rcases register_cases h with ⟨_, _, rfl⟩ | ⟨_, rfl, _, rfl⟩
  · exact hd
  · intro name k hk
    rcases module?_enter_cases hk with ⟨_, rfl⟩ | hk
    · exact ⟨m, d.heap, hm, rfl⟩
    · exact hd name k hk

namespace State
variable {ω : Type} {s t : State ω}

def StaysFounded (s t : State ω) : Prop := s.domain.Founded → t.domain.Founded

instance : IsPreorder (State ω) StaysFounded where
  refl _ := id
  trans _ _ _ hst htu := htu ∘ hst

theorem staysFounded_lenient : Lenient (@StaysFounded ω) where
  objects _ _ := id
  statics _ _ _ _ _ _ := id
  register _ _ _ _ _ _ hm h hs := hs.register hm h
  outside _ _ := id

theorem Reaches.founded (hnew : s.domain.Vacant) (h : s.Reaches t) : t.domain.Founded := by
  refine h.lenient staysFounded_lenient fun name l hl => ?_
  rw [Domain.module?, hnew.modules] at hl
  cases hl

/-- Whatever was done with a fresh domain, each of its modules was loaded and is there as it was loaded. -/
theorem Reaches.has (hnew : s.domain.Vacant) (h : s.Reaches t) {name : String} {l : LoadedModule}
    (hl : t.domain.module? name = some l) : ∃ m before, l.LoadedFrom m before ∧ t.domain.Has m l := by
  obtain ⟨m, before, hfrom⟩ := h.founded hnew name l hl
  exact ⟨m, before, hfrom, hfrom.has (h.accrues.coherent hnew.coherent) hl⟩

/-- Whatever is done with a domain, a module stays the same module with the same table. As long as the objects that were
made for its literals are as they were made, which is always so if no literal holds an object, its definition reads as it
was loaded, and so does each default in the table. For a definition in order this is what the file reads as, and it is
read from its own file. -/
theorem Reaches.definition_kept (hnew : s.domain.Vacant) (hst : s.Reaches t) {name : String} {l : LoadedModule}
    (hl : t.domain.module? name = some l) :
    (∃ m before, l.LoadedFrom m before) ∧ ∀ m before, l.LoadedFrom m before →
      (m.Ordered → l.bytes.length < UInt64.size → Module.ofFile l.bytes = .ok m ∧ Module.ofFile m.toFile = .ok m) ∧
      (m.Plain → ∀ now, m.Untouched before now) ∧
      ∀ u, t.Reaches u → u.domain.module? name = some l ∧ u.domain.table? name = some (.ofModule l.code) ∧
        (m.Untouched before u.domain.heap → l.definition? u.domain.heap = some m ∧
          ∀ type method, ∀ o ∈ (DispatchTable.ofModule l.code).overloads type method, ∀ p ∈ o.params, ∀ v ∈ p.default,
            ∃ x, ((Domain.instantiate m).run before).2.snapshot v = some x ∧ u.domain.heap.snapshot v = some x) := by
  refine ⟨hst.founded hnew name l hl, fun m before hfrom => ?_⟩
  refine ⟨hfrom.filed.read, fun hm now => hm.untouched before now, fun u htu => ?_⟩
  have hcoherent : t.domain.Coherent := hst.accrues.coherent hnew.coherent
  have hpersists : t.domain.Persists u.domain := htu.accrues.persists hcoherent
  have htable : t.domain.table? name = some (.ofModule l.code) := by rw [hcoherent.tables, hl]; rfl
  refine ⟨hpersists.modules name l hl, hpersists.tables name _ htable, fun hnow => ⟨hfrom.definition hnow, ?_⟩⟩
  intro type method o ho p hp v hv
  obtain ⟨d, hd, hmentions⟩ := DispatchTable.mentions_of_overload ho hp hv
  exact Module.traverse_same (hfrom.definition (Heap.Extends.refl _).since) (hfrom.definition hnow) hd hmentions

end State

namespace office

/-- The field of a note. -/
def count : FieldRef := ⟨⟨none, "Ops.Note"⟩, "count"⟩

/-- A clerk with a note to show and another one whose count is raised. -/
def notes (shown stamped : Int32) : Module Datum where
  name := "Office"
  types := [{
    space := "Ops", name := "Clerk"
    methods := [
      { name := "Show", flags := MethodFlags.static, returns := some TypeName.int32
        body := [.const (.object "Ops.Note" [("count", .int32 shown)]), .loadField count, .ret] },
      { name := "Stamp", flags := MethodFlags.static
        body := [.const (.object "Ops.Note" [("count", .int32 stamped)]), .dup, .loadField count, .const (.int32 1),
          .binary .add, .storeField count, .ret] }] }]

/-- A domain on a host with the standard native methods, without clients. -/
def desk : Environment Unit := { host := { thread := none, natives := Native.standard none } }

theorem desk_plain : desk.Plain where
  host := Host.plain_of_standard rfl
  clients client d hd := by cases hd

def empty : State Unit := ⟨{ hostName := "desk" }, ()⟩

def calling (method : String) : Operation Unit := .invoke ⟨⟨none, "Ops.Clerk"⟩, method, []⟩ none []

end office

open office in
/-- To show a note leaves the definition as it was loaded. To raise the count of the other one changes it, though the
module is the same. -/
theorem office_kept : ∃ l t u v, empty.domain.Vacant ∧ empty.Reaches t ∧ t.domain.module? "Office" = some l ∧
    l.LoadedFrom (notes 0 0) {} ∧ t.Reaches u ∧ l.definition? u.domain.heap = some (notes 0 0) ∧
    u.Reaches v ∧ v.domain.module? "Office" = some l ∧ l.definition? v.domain.heap = some (notes 0 1) := by
  obtain ⟨l, t, u, v, hload, hshow, hstamp, hl, hfrom, hheap, hread⟩ : ∃ l t u v,
      (Operation.load (.memory (notes 0 0))).perform desk 1 empty = some (.ok (), t) ∧
      (calling "Show").perform desk 10 t = some (.ok (), u) ∧
      (calling "Stamp").perform desk 10 u = some (.ok (), v) ∧
      t.domain.module? "Office" = some l ∧ l.LoadedFrom (notes 0 0) {} ∧
      u.domain.heap = ((Domain.instantiate (notes 0 0)).run {}).2 ∧
      l.definition? v.domain.heap = some (notes 0 1) :=
    ⟨_, _, _, _, rfl, rfl, rfl, rfl, ⟨⟨Module.validate_eq_ok.mp rfl, .inr rfl⟩, rfl⟩, rfl, rfl⟩
  have hnew : empty.domain.Vacant := ⟨rfl, rfl, rfl, rfl⟩
  have ht : empty.Reaches t := (State.Reaches.refl empty).step desk_plain hload
  have hu : t.Reaches u := (State.Reaches.refl t).step desk_plain hshow
  have hv : u.Reaches v := (State.Reaches.refl u).step desk_plain hstamp
  obtain ⟨-, hkept⟩ := State.Reaches.definition_kept hnew ht hl
  obtain ⟨-, -, hlater⟩ := hkept _ _ hfrom
  obtain ⟨-, -, hdefinition⟩ := hlater u hu
  obtain ⟨hsame, -, -⟩ := hlater v (hu.step desk_plain hstamp)
  have huntouched : (notes 0 0).Untouched {} u.domain.heap := by
    rw [Module.Untouched, hheap]
    exact (Heap.Extends.refl _).since
  exact ⟨l, t, u, v, hnew, ht, hl, hfrom, hu, (hdefinition huntouched).1, hv, hsame, hread⟩

end MobileCode
