import MobileCode.Proofs.Codecs
import MobileCode.Proofs.Validity

/-! # Module files

The file of a valid module is read back as that module, with its dictionaries and sets sorted. So whatever a reader of
the file sees of it — its name, its paired hash, the names of its types — is what was written.
-/
namespace MobileCode

/-! ## Canonical modules -/

def Instruction.canonical : Instruction Datum → Instruction Datum
  | .const x => .const x.canonical
  | i => i

def ParamDecl.canonical (p : ParamDecl Datum) : ParamDecl Datum := { p with default := p.default.map Datum.canonical }

def FieldDecl.canonical (f : FieldDecl Datum) : FieldDecl Datum := { f with initial := f.initial.map Datum.canonical }

def Closure.canonical (c : Closure) : Closure :=
  ⟨KeySet.ofList c.fields, KeySet.ofList c.properties, KeySet.ofList c.methods, KeySet.ofList c.modules⟩

def MethodDecl.canonical (d : MethodDecl Datum) : MethodDecl Datum :=
  { d with params := d.params.map (·.canonical), body := d.body.map (·.canonical)
           closure := d.closure.map (·.canonical) }

def TypeDecl.canonical (t : TypeDecl Datum) : TypeDecl Datum :=
  { t with fields := t.fields.map (·.canonical), methods := t.methods.map (·.canonical) }

/-- The module with the entries of its dictionaries and the elements of its sets in order, each once. -/
def Module.canonical (m : Module Datum) : Module Datum :=
  { m with types := m.types.map (·.canonical), resources := Dict.ofList m.resources }

/-! ## Reading the parts -/

namespace Wire

theorem typeRef_reads (t : TypeRef) : typeRef.Reads t t :=
  ((option_reads_self text_reads t.scope).pair (text_reads t.fullName)).map rfl rfl

theorem fieldRef_reads (f : FieldRef) : fieldRef.Reads f f := ((typeRef_reads f.owner).pair (text_reads f.name)).map rfl rfl

theorem methodRef_reads (m : MethodRef) : methodRef.Reads m m :=
  ((typeRef_reads m.owner).pair ((text_reads m.name).pair (list_reads_self text_reads m.paramTypes))).map rfl rfl

theorem methodKey_reads (k : MethodKey) : methodKey.Reads k k :=
  ((text_reads k.type).pair ((text_reads k.name).pair (list_reads_self text_reads k.paramTypes))).map rfl rfl

theorem binaryOp_reads (op : BinaryOp) : binaryOp.Reads op op :=
  enumeration_reads (by decide) (by cases op <;> decide)

theorem compareOp_reads (op : CompareOp) : compareOp.Reads op op :=
  enumeration_reads (by decide) (by cases op <;> decide)

theorem mode_reads (m : Mode) : mode.Reads m m := enumeration_reads (by decide) (by cases m <;> decide)

theorem dispatchSite_reads (s : DispatchSite) : dispatchSite.Reads s s :=
  ((typeRef_reads s.client).pair ((mode_reads s.mode).pair ((bool_reads s.onMainThread).pair
    ((methodRef_reads s.method).pair (uint16_reads s.paramCount))))).map rfl rfl

theorem instruction_reads (i : Instruction Datum) : (instruction datum).Reads i i.canonical := by
  cases i with
  | nop => exact forms_reads_bare 0 (by decide) rfl rfl
  | const x => exact forms_reads_of 1 (by decide) rfl rfl (datum_reads x) rfl
  | loadArg n => exact forms_reads_of 2 (by decide) rfl rfl (uint16_reads n) rfl
  | storeArg n => exact forms_reads_of 3 (by decide) rfl rfl (uint16_reads n) rfl
  | loadLocal n => exact forms_reads_of 4 (by decide) rfl rfl (uint16_reads n) rfl
  | storeLocal n => exact forms_reads_of 5 (by decide) rfl rfl (uint16_reads n) rfl
  | loadThis => exact forms_reads_bare 6 (by decide) rfl rfl
  | loadField f => exact forms_reads_of 7 (by decide) rfl rfl (fieldRef_reads f) rfl
  | storeField f => exact forms_reads_of 8 (by decide) rfl rfl (fieldRef_reads f) rfl
  | loadStatic f => exact forms_reads_of 9 (by decide) rfl rfl (fieldRef_reads f) rfl
  | storeStatic f => exact forms_reads_of 10 (by decide) rfl rfl (fieldRef_reads f) rfl
  | call m => exact forms_reads_of 11 (by decide) rfl rfl (methodRef_reads m) rfl
  | construct t => exact forms_reads_of 12 (by decide) rfl rfl (typeRef_reads t) rfl
  | binary op => exact forms_reads_of 13 (by decide) rfl rfl (binaryOp_reads op) rfl
  | compare op => exact forms_reads_of 14 (by decide) rfl rfl (compareOp_reads op) rfl
  | not => exact forms_reads_bare 15 (by decide) rfl rfl
  | jump t => exact forms_reads_of 16 (by decide) rfl rfl (uint64_reads t) rfl
  | jumpIfTrue t => exact forms_reads_of 17 (by decide) rfl rfl (uint64_reads t) rfl
  | jumpIfFalse t => exact forms_reads_of 18 (by decide) rfl rfl (uint64_reads t) rfl
  | dup => exact forms_reads_bare 19 (by decide) rfl rfl
  | pop => exact forms_reads_bare 20 (by decide) rfl rfl
  | ret => exact forms_reads_bare 21 (by decide) rfl rfl
  | throw => exact forms_reads_bare 22 (by decide) rfl rfl
  | dispatch s => exact forms_reads_of 23 (by decide) rfl rfl (dispatchSite_reads s) rfl

theorem flags_reads {names : FlagNames} (f : Flags names) : flags.Reads f f := (uint32_reads f.bits).map rfl rfl

theorem memberId_reads (k : MemberId) : memberId.Reads k k := ((text_reads k.type).pair (text_reads k.name)).map rfl rfl

theorem closure_reads (c : Closure) : closure.Reads c c.canonical :=
  ((keySet_reads memberId_reads c.fields).pair ((keySet_reads memberId_reads c.properties).pair
    ((keySet_reads methodKey_reads c.methods).pair (keySet_reads text_reads c.modules)))).map rfl rfl

theorem mobility_reads (a : Mobility) : mobility.Reads a a :=
  ((mode_reads a.mode).pair (bool_reads a.onMainThread)).map rfl rfl

theorem param_reads (p : ParamDecl Datum) : (param datum).Reads p p.canonical :=
  ((text_reads p.name).pair ((text_reads p.type).pair (option_reads_map datum_reads p.default))).map rfl rfl

theorem field_reads (f : FieldDecl Datum) : (field datum).Reads f f.canonical :=
  ((text_reads f.name).pair ((text_reads f.type).pair ((flags_reads f.flags).pair
    (option_reads_map datum_reads f.initial)))).map rfl rfl

theorem property_reads (p : PropertyDecl) : property.Reads p p :=
  ((text_reads p.name).pair ((text_reads p.type).pair ((flags_reads p.flags).pair
    ((option_reads_self text_reads p.getter).pair (option_reads_self text_reads p.setter))))).map rfl rfl

theorem method_reads (d : MethodDecl Datum) : (method datum).Reads d d.canonical :=
  ((text_reads d.name).pair ((flags_reads d.flags).pair ((list_reads_map fun p _ => param_reads p).pair
    ((option_reads_self text_reads d.returns).pair ((uint16_reads d.locals).pair
      ((list_reads_map fun i _ => instruction_reads i).pair ((option_reads_self mobility_reads d.mobility).pair
        ((option_reads_self text_reads d.relayBody).pair (option_reads_map closure_reads d.closure))))))))).map rfl rfl

theorem type_reads (t : TypeDecl Datum) : (type datum).Reads t t.canonical :=
  ((text_reads t.space).pair ((text_reads t.name).pair ((flags_reads t.flags).pair
    ((list_reads_map fun f _ => field_reads f).pair ((list_reads_self property_reads t.properties).pair
      (list_reads_map fun d _ => method_reads d)))))).map rfl rfl

theorem resources_reads (resources : Dict Bytes) : (dict bytes).Reads resources (Dict.ofList resources) := by
  have h := dict_reads (f := id) fun (e : String × Bytes) (_ : e ∈ resources) => bytes_reads e.2
  simpa only [id, List.map_id'] using h

theorem module_reads (m : Module Datum) : (module datum).Reads m m.canonical :=
  ((text_reads m.name).pair ((flags_reads m.flags).pair ((list_reads_self text_reads m.references).pair
    ((list_reads_map fun t _ => type_reads t).pair ((resources_reads m.resources).pair
      (option_reads_self text_reads m.pairedHash)))))).map rfl rfl

end Wire

/-! ## Reading the file -/

theorem Instruction.target?_canonical (i : Instruction Datum) : i.canonical.target? = i.target? := by
  cases i <;> rfl

theorem TypeDecl.fullName_canonical (t : TypeDecl Datum) : t.canonical.fullName = t.fullName := rfl

theorem branchesInside_canonical {body : List (Instruction Datum)} (h : BranchesInside body) :
    BranchesInside (body.map (·.canonical)) := by
  intro i hi t ht
  obtain ⟨j, hj, rfl⟩ := List.mem_map.mp hi
  rw [Instruction.target?_canonical] at ht
  rw [List.length_map]
  exact h j hj t ht

namespace Module

theorem canonical_fullNames (m : Module Datum) : m.canonical.types.map (·.fullName) = m.types.map (·.fullName) := by
  rw [canonical, List.map_map]
  rfl

theorem Valid.canonical {m : Module Datum} (h : m.Valid) : m.canonical.Valid where
  named := h.named
  typesNamed t ht := by
    obtain ⟨u, hu, rfl⟩ := List.mem_map.mp ht
    exact h.typesNamed u hu
  distinct := m.canonical_fullNames ▸ h.distinct
  branches t ht d hd := by
    obtain ⟨u, hu, rfl⟩ := List.mem_map.mp ht
    obtain ⟨e, he, rfl⟩ := List.mem_map.mp hd
    exact branchesInside_canonical (h.branches u hu e he)

theorem toFile_ne_nil (m : Module Datum) : m.toFile ≠ [] := List.ne_nil_of_length_pos (Wire.module_reads m).solid

/-- What is read from the file of a valid module is the module in its canonical form. -/
theorem ofFile_toFile {m : Module Datum} (h : m.Valid) (hsize : m.toFile.length < UInt64.size) :
    ofFile m.toFile = .ok m.canonical := by
  have hread : (Wire.module Wire.datum).read? m.toFile = some m.canonical := by
    have hdecodes := (Wire.module_reads m).decodes hsize []
    rw [List.append_nil] at hdecodes
    exact congrArg (Option.map Prod.fst) hdecodes
  have hfile : m.toFile.isEmpty = false := by
    rw [List.isEmpty_eq_false_iff]
    exact m.toFile_ne_nil
  rw [ofFile, hfile, hread]
  simp only [Bool.false_eq_true, if_false]
  rw [validate_eq_ok.mpr h.canonical]
  rfl

end Module
end MobileCode
