import MobileCode.Proofs.ModuleFiles
import MobileCode.Proofs.Readers

/-! # Module files that are read

Whatever bytes a module is read from, the module is valid, its dictionaries and sets are in order, and its own file,
which is no longer than these bytes, is read as that module. The file of a module in order is read as the module if it is
valid, and refused as malformed if it is not.
-/
namespace MobileCode

/-! ## Modules in order -/

def Instruction.Ordered (i : Instruction Datum) : Prop := ∀ x, i = .const x → x.Ordered

def ParamDecl.Ordered (p : ParamDecl Datum) : Prop := ∀ x ∈ p.default, x.Ordered

def FieldDecl.Ordered (f : FieldDecl Datum) : Prop := ∀ x ∈ f.initial, x.Ordered

structure Closure.Ordered (c : Closure) : Prop where
  fields : KeySet.Sorted c.fields
  properties : KeySet.Sorted c.properties
  methods : KeySet.Sorted c.methods
  modules : KeySet.Sorted c.modules

structure MethodDecl.Ordered (d : MethodDecl Datum) : Prop where
  params : ∀ p ∈ d.params, p.Ordered
  body : ∀ i ∈ d.body, i.Ordered
  closure : ∀ c ∈ d.closure, c.Ordered

structure TypeDecl.Ordered (t : TypeDecl Datum) : Prop where
  fields : ∀ f ∈ t.fields, f.Ordered
  methods : ∀ d ∈ t.methods, d.Ordered

/-- The dictionaries and sets of the module are sorted, and those in its constants. -/
structure Module.Ordered (m : Module Datum) : Prop where
  types : ∀ t ∈ m.types, t.Ordered
  resources : Dict.Sorted m.resources

theorem List.map_eq_self {α : Type} {f : α → α} {xs : List α} (h : ∀ x ∈ xs, f x = x) : xs.map f = xs :=
  (List.map_congr_left h).trans xs.map_id

theorem Option.map_eq_self {α : Type} {f : α → α} {o : Option α} (h : ∀ x ∈ o, f x = x) : o.map f = o := by
  cases o with
  | none => rfl
  | some x => exact congrArg some (h x rfl)

theorem Instruction.Ordered.canonical_eq {i : Instruction Datum} (h : i.Ordered) : i.canonical = i := by
  cases i with
  | const x => exact congrArg Instruction.const (h x rfl).canonical_eq
  | _ => rfl

theorem ParamDecl.Ordered.canonical_eq {p : ParamDecl Datum} (h : p.Ordered) : p.canonical = p := by
  rw [canonical, Option.map_eq_self fun x hx => (h x hx).canonical_eq]

theorem FieldDecl.Ordered.canonical_eq {f : FieldDecl Datum} (h : f.Ordered) : f.canonical = f := by
  rw [canonical, Option.map_eq_self fun x hx => (h x hx).canonical_eq]

theorem Closure.Ordered.canonical_eq {c : Closure} (h : c.Ordered) : c.canonical = c := by
  rw [canonical, h.fields.ofList_eq, h.properties.ofList_eq, h.methods.ofList_eq, h.modules.ofList_eq]

theorem MethodDecl.Ordered.canonical_eq {d : MethodDecl Datum} (h : d.Ordered) : d.canonical = d := by
  rw [canonical, List.map_eq_self fun p hp => (h.params p hp).canonical_eq,
    List.map_eq_self fun i hi => (h.body i hi).canonical_eq,
    Option.map_eq_self fun c hc => (h.closure c hc).canonical_eq]

theorem TypeDecl.Ordered.canonical_eq {t : TypeDecl Datum} (h : t.Ordered) : t.canonical = t := by
  rw [canonical, List.map_eq_self fun f hf => (h.fields f hf).canonical_eq,
    List.map_eq_self fun d hd => (h.methods d hd).canonical_eq]

theorem Module.Ordered.canonical_eq {m : Module Datum} (h : m.Ordered) : m.canonical = m := by
  rw [canonical, List.map_eq_self fun t ht => (h.types t ht).canonical_eq, h.resources.ofList_eq]

/-! ## Reading the parts -/

namespace Wire

theorem typeRef_steady : typeRef.Steady := ((option_steady text_steady).pair text_steady).map fun _ _ _ _ => rfl

theorem fieldRef_steady : fieldRef.Steady := (typeRef_steady.pair text_steady).map fun _ _ _ _ => rfl

theorem methodRef_steady : methodRef.Steady :=
  (typeRef_steady.pair (text_steady.pair (list_steady text_steady))).map fun _ _ _ _ => rfl

theorem methodKey_steady : methodKey.Steady :=
  (text_steady.pair (text_steady.pair (list_steady text_steady))).map fun _ _ _ _ => rfl

theorem binaryOp_steady : binaryOp.Steady := enumeration_steady

theorem compareOp_steady : compareOp.Steady := enumeration_steady

theorem mode_steady : mode.Steady := enumeration_steady

theorem dispatchSite_steady : dispatchSite.Steady :=
  (typeRef_steady.pair (mode_steady.pair (bool_steady.pair (methodRef_steady.pair uint16_steady)))).map
    fun _ _ _ _ => rfl

section
variable {α : Type} {literal : Codec α} (h : literal.Steady)
include h

theorem instruction_steady : (instruction literal).Steady := by
  refine forms_steady ?_
  simp only [List.forall_mem_cons]
  exact ⟨Form.steady_bare 0 rfl, Form.steady_of 1 (fun _ => rfl) h,
    Form.steady_of 2 (fun _ => rfl) uint16_steady,
    Form.steady_of 3 (fun _ => rfl) uint16_steady,
    Form.steady_of 4 (fun _ => rfl) uint16_steady,
    Form.steady_of 5 (fun _ => rfl) uint16_steady,
    Form.steady_bare 6 rfl,
    Form.steady_of 7 (fun _ => rfl) fieldRef_steady,
    Form.steady_of 8 (fun _ => rfl) fieldRef_steady,
    Form.steady_of 9 (fun _ => rfl) fieldRef_steady,
    Form.steady_of 10 (fun _ => rfl) fieldRef_steady,
    Form.steady_of 11 (fun _ => rfl) methodRef_steady,
    Form.steady_of 12 (fun _ => rfl) typeRef_steady,
    Form.steady_of 13 (fun _ => rfl) binaryOp_steady,
    Form.steady_of 14 (fun _ => rfl) compareOp_steady,
    Form.steady_bare 15 rfl,
    Form.steady_of 16 (fun _ => rfl) uint64_steady,
    Form.steady_of 17 (fun _ => rfl) uint64_steady,
    Form.steady_of 18 (fun _ => rfl) uint64_steady,
    Form.steady_bare 19 rfl, Form.steady_bare 20 rfl,
    Form.steady_bare 21 rfl, Form.steady_bare 22 rfl,
    Form.steady_of 23 (fun _ => rfl) dispatchSite_steady,
    fun _ h => absurd h List.not_mem_nil⟩

omit h in
theorem flags_steady {names : FlagNames} : (flags : Codec (Flags names)).Steady := uint32_steady.map fun _ _ _ _ => rfl

end

theorem memberId_steady : memberId.Steady := (text_steady.pair text_steady).map fun _ _ _ _ => rfl

theorem closure_steady : closure.Steady :=
  ((keySet_steady memberId_steady).pair ((keySet_steady memberId_steady).pair
    ((keySet_steady methodKey_steady).pair (keySet_steady text_steady)))).map fun _ _ _ _ => rfl

theorem mobility_steady : mobility.Steady := (mode_steady.pair bool_steady).map fun _ _ _ _ => rfl

theorem property_steady : property.Steady :=
  (text_steady.pair (text_steady.pair (flags_steady.pair ((option_steady text_steady).pair
    (option_steady text_steady))))).map fun _ _ _ _ => rfl

section
variable {α : Type} {literal : Codec α} (h : literal.Steady)
include h

theorem param_steady : (param literal).Steady :=
  (text_steady.pair (text_steady.pair (option_steady h))).map fun _ _ _ _ => rfl

theorem field_steady : (field literal).Steady :=
  (text_steady.pair (text_steady.pair (flags_steady.pair (option_steady h)))).map fun _ _ _ _ => rfl

theorem method_steady : (method literal).Steady :=
  (text_steady.pair (flags_steady.pair ((list_steady (param_steady h)).pair ((option_steady text_steady).pair
    (uint16_steady.pair ((list_steady (instruction_steady h)).pair ((option_steady mobility_steady).pair
      ((option_steady text_steady).pair (option_steady closure_steady))))))))).map fun _ _ _ _ => rfl

theorem type_steady : (type literal).Steady :=
  (text_steady.pair (text_steady.pair (flags_steady.pair ((list_steady (field_steady h)).pair
    ((list_steady property_steady).pair (list_steady (method_steady h))))))).map fun _ _ _ _ => rfl

theorem module_steady : (module literal).Steady :=
  (text_steady.pair (flags_steady.pair ((list_steady text_steady).pair ((list_steady (type_steady h)).pair
    ((dict_steady bytes_steady).pair (option_steady text_steady)))))).map fun _ _ _ _ => rfl

end
end Wire

/-! ## What is read is in order -/

namespace Wire
open Codec.Yields (any)

theorem instruction_ordered : (instruction datum).Yields Instruction.Ordered := by
  refine .forms ?_
  simp only [List.forall_mem_cons]
  exact ⟨Form.yields_bare nofun, Form.yields_of datum_ordered fun _ h _ heq => Instruction.const.inj heq ▸ h,
    Form.yields_of any fun _ _ => nofun, Form.yields_of any fun _ _ => nofun, Form.yields_of any fun _ _ => nofun,
    Form.yields_of any fun _ _ => nofun, Form.yields_bare nofun, Form.yields_of any fun _ _ => nofun,
    Form.yields_of any fun _ _ => nofun, Form.yields_of any fun _ _ => nofun, Form.yields_of any fun _ _ => nofun,
    Form.yields_of any fun _ _ => nofun, Form.yields_of any fun _ _ => nofun, Form.yields_of any fun _ _ => nofun,
    Form.yields_of any fun _ _ => nofun, Form.yields_bare nofun, Form.yields_of any fun _ _ => nofun,
    Form.yields_of any fun _ _ => nofun, Form.yields_of any fun _ _ => nofun, Form.yields_bare nofun,
    Form.yields_bare nofun, Form.yields_bare nofun, Form.yields_bare nofun, Form.yields_of any fun _ _ => nofun,
    fun _ h => absurd h List.not_mem_nil⟩

theorem param_ordered : (param datum).Yields ParamDecl.Ordered :=
  (any.pair (any.pair datum_ordered.option)).map fun _ h => h.2.2

theorem field_ordered : (field datum).Yields FieldDecl.Ordered :=
  (any.pair (any.pair (any.pair datum_ordered.option))).map fun _ h => h.2.2.2

theorem closure_ordered : closure.Yields Closure.Ordered :=
  (Codec.Yields.keySet.pair (Codec.Yields.keySet.pair (Codec.Yields.keySet.pair Codec.Yields.keySet))).map
    fun _ h => ⟨h.1, h.2.1, h.2.2.1, h.2.2.2⟩

theorem method_ordered : (method datum).Yields MethodDecl.Ordered :=
  (any.pair (any.pair (param_ordered.list.pair (any.pair (any.pair (instruction_ordered.list.pair (any.pair
    (any.pair closure_ordered.option)))))))).map fun _ h => ⟨h.2.2.1, h.2.2.2.2.2.1, h.2.2.2.2.2.2.2.2⟩

theorem type_ordered : (type datum).Yields TypeDecl.Ordered :=
  (any.pair (any.pair (any.pair (field_ordered.list.pair (any.pair method_ordered.list))))).map
    fun _ h => ⟨h.2.2.2.1, h.2.2.2.2.2⟩

theorem module_ordered : (module datum).Yields Module.Ordered :=
  (any.pair (any.pair (any.pair (type_ordered.list.pair ((Codec.Yields.dict any).pair any))))).map
    fun _ h => ⟨h.2.2.2.1, h.2.2.2.2.1.1⟩

end Wire

/-! ## Files -/

namespace Module
open Wire (datum_steady)

theorem validate_ne_ok {m : Module Datum} (h : m.validate ≠ .ok ()) : ∃ defect, m.validate = .error (.malformed defect) := by
  unfold validate at h ⊢
  split
  · exact ⟨_, rfl⟩
  · rename_i hnone
    rw [hnone] at h
    exact absurd rfl h

theorem ofFile_eq_ok {file : Bytes} {m : Module Datum} (h : ofFile file = .ok m) :
    (∃ rest, (Wire.module Wire.datum).decode file = some (m, rest)) ∧ m.validate = .ok () := by
  unfold ofFile at h
  split at h
  · cases h
  · split at h
    · cases h
    · rename_i hread
      obtain ⟨⟨found, rest⟩, hdecode, rfl⟩ := Option.map_eq_some_iff.mp hread
      dsimp only at h
      cases hvalid : found.validate with
      | error e =>
        rw [hvalid] at h
        cases h
      | ok u =>
        rw [hvalid] at h
        cases h
        exact ⟨⟨rest, hdecode⟩, hvalid⟩

theorem ofFile_toFile_ordered {m : Module Datum} (hm : m.Ordered) (hsize : m.toFile.length < UInt64.size) :
    ofFile m.toFile = m.validate.map fun _ => m := by
  have hread : (Wire.module Wire.datum).read? m.toFile = some m := by
    have hdecodes := (Wire.module_reads m).decodes hsize []
    rw [List.append_nil, hm.canonical_eq] at hdecodes
    exact congrArg (Option.map Prod.fst) hdecodes
  rw [ofFile, List.isEmpty_eq_false_iff.mpr m.toFile_ne_nil, hread]
  rfl

/-- What has been read from a file is in order. -/
theorem ofFile_ordered {file : Bytes} {m : Module Datum} (h : ofFile file = .ok m) : m.Ordered := by
  obtain ⟨⟨rest, hdecode⟩, _⟩ := ofFile_eq_ok h
  exact Wire.module_ordered _ _ _ hdecode

theorem length_toFile_of_ofFile {file : Bytes} {m : Module Datum} (h : ofFile file = .ok m) :
    m.toFile.length ≤ file.length := by
  obtain ⟨⟨rest, hdecode⟩, _⟩ := ofFile_eq_ok h
  exact Nat.le_trans (Nat.le_add_right _ _) ((Wire.module_steady datum_steady).shrinks hdecode)

/-- The file of a module in order is read as the module if this is valid, and refused as malformed if not. What is read
from any bytes is a valid module in order, and is read again from its own file. -/
theorem file_roundTrip :
    (∀ m : Module Datum, m.Ordered → m.toFile.length < UInt64.size →
      (m.validate = .ok () → ofFile m.toFile = .ok m) ∧
        (m.validate ≠ .ok () → ∃ defect, ofFile m.toFile = .error (.malformed defect))) ∧
    ∀ (file : Bytes) (m : Module Datum), file.length < UInt64.size → ofFile file = .ok m →
      m.validate = .ok () ∧ m.Ordered ∧ m.toFile.length ≤ file.length ∧ ofFile m.toFile = .ok m := by
  constructor
  · intro m hm hsize
    have hfile := ofFile_toFile_ordered hm hsize
    constructor
    · intro hvalid
      rw [hfile, hvalid]
      rfl
    · intro hinvalid
      obtain ⟨defect, hdefect⟩ := validate_ne_ok hinvalid
      refine ⟨defect, ?_⟩
      rw [hfile, hdefect]
      rfl
  · intro file m hsize h
    obtain ⟨_, hvalid⟩ := ofFile_eq_ok h
    have hordered := ofFile_ordered h
    have hlength := length_toFile_of_ofFile h
    refine ⟨hvalid, hordered, hlength, ?_⟩
    rw [ofFile_toFile_ordered hordered (Nat.lt_of_le_of_lt hlength hsize), hvalid]
    rfl

end Module

namespace crate

/-- A method that gives an object, and two files beside it. -/
def holding (fields : List (String × Datum)) (resources : Dict Bytes) (target : UInt64) : Module Datum where
  name := "Crate"
  types := [{
    space := "Ops", name := "Crate"
    methods := [{
      name := "Open", flags := MethodFlags.static, returns := some "Ops.Crate"
      body := [.const (.object "Ops.Crate" fields), .jump target, .ret] }] }]
  resources

def sorted : Module Datum := holding [("lid", .bool true), ("size", .int32 3)] [("a", [1]), ("b", [2, 3])] 2

/-- A branch leads out of the body. -/
def broken : Module Datum := holding [("lid", .bool true), ("size", .int32 3)] [("a", [1]), ("b", [2, 3])] 3

/-- The fields are in another order, and one of the files is there twice. -/
def shuffled : Module Datum :=
  holding [("size", .int32 3), ("lid", .bool true)] [("b", [4]), ("a", [1]), ("b", [2, 3])] 2

theorem holding_ordered (target : UInt64) :
    (holding [("lid", .bool true), ("size", .int32 3)] [("a", [1]), ("b", [2, 3])] target).Ordered := by
  have hfields : (Datum.object "Ops.Crate" [("lid", .bool true), ("size", .int32 3)]).Ordered := by
    exact ⟨List.pairwise_pair.mpr (by decide), trivial, trivial, trivial⟩
  refine ⟨List.forall_mem_singleton.mpr ⟨nofun, List.forall_mem_singleton.mpr ⟨nofun, ?_, nofun⟩⟩, ?_⟩
  · simp only [List.forall_mem_cons]
    refine ⟨?_, nofun, nofun, nofun⟩
    rintro x ⟨⟩
    exact hfields
  · exact List.pairwise_pair.mpr (by decide)

end crate

open crate in
theorem crate_restored : Module.ofFile sorted.toFile = .ok sorted ∧
    (∃ defect, Module.ofFile broken.toFile = .error (.malformed defect)) ∧
    Module.ofFile shuffled.toFile = .ok sorted ∧ sorted.toFile.length ≤ shuffled.toFile.length := by
  have hsizes : sorted.toFile.length < UInt64.size ∧ broken.toFile.length < UInt64.size ∧
      shuffled.toFile.length < UInt64.size := by decide +kernel
  have hvalid : sorted.validate = .ok () := rfl
  have hbroken : broken.validate = .error (.malformed (.branchOutside 1 "Ops.Crate" "Open" 3 3)) := rfl
  have hshuffled : shuffled.validate = .ok () := rfl
  have hread : Module.ofFile shuffled.toFile = .ok sorted :=
    Module.ofFile_toFile (Module.validate_eq_ok.mp hshuffled) hsizes.2.2
  have hkept := Module.file_roundTrip.1 sorted (holding_ordered 2) hsizes.1
  have hrefused := Module.file_roundTrip.1 broken (holding_ordered 3) hsizes.2.1
  have hagain := Module.file_roundTrip.2 shuffled.toFile sorted hsizes.2.2 hread
  exact ⟨hkept.1 hvalid, hrefused.2 (hbroken ▸ nofun), hread, hagain.2.2.1⟩

end MobileCode
