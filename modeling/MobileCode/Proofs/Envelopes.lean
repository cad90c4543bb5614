import MobileCode.Wire.Request
import MobileCode.Proofs.FileForms
import MobileCode.Proofs.Snapshots

/-! # Values, requests and answers on the wire

What is written is the state of a value, and with it whatever a request or an answer holds beside its values. It is read
back as it was, whatever follows it, and nothing is read from a proper prefix. A value that is made for the state, in any
heap, has the same state.
-/
namespace MobileCode

/-- The values that an answer carries. -/
def Answer.values {α : Type} : Answer α → List α
  | .completed result vs => result :: vs.map (·.value)
  | _ => []

/-! ## Reading the parts -/

namespace Wire
variable {α : Type}

/-- What is written for the value is read as the value, whatever follows, and no proper prefix of it is read. -/
def Codec.Lossless (c : Codec α) (x : α) : Prop :=
  (c.encode x).length < UInt64.size → (∀ rest, c.decode (c.encode x ++ rest) = some (x, rest)) ∧
    ∀ front more, front ++ more = c.encode x → more ≠ [] → c.decode front = none

theorem Codec.Steady.lossless {c : Codec α} {x : α} (h : c.Steady) (hreads : c.Reads x x) : c.Lossless x :=
  fun hsize => ⟨hreads.decodes hsize, fun _ _ => h.cut hreads hsize⟩

theorem uuid_steady : uuid.Steady := by
  refine bytes_steady.check fun {bytes id} h => ?_
  unfold Uuid.ofBytes? at h
  split at h
  · cases h
    rfl
  · cases h

theorem uuid_reads (id : Uuid) : uuid.Reads id id := (bytes_reads id.bytes).check rfl (dif_pos id.size)

theorem variableKind_steady : variableKind.Steady := enumeration_steady

theorem variableKind_reads (k : VariableKind) : variableKind.Reads k k :=
  enumeration_reads (by decide) (by cases k <;> decide)

theorem faultKind_steady : faultKind.Steady := by
  refine forms_steady ?_
  simp only [List.forall_mem_cons]
  exact ⟨Form.steady_of 0 (fun _ => rfl) (text_steady.pair text_steady),
    Form.steady_bare 1 rfl, Form.steady_bare 2 rfl,
    Form.steady_bare 3 rfl, Form.steady_bare 4 rfl,
    fun _ h => absurd h List.not_mem_nil⟩

theorem faultKind_reads (k : FaultKind) : faultKind.Reads k k := by
  cases k with
  | thrown t m => exact forms_reads_of 0 (by decide) rfl rfl ((text_reads t).pair (text_reads m)) rfl
  | staleModule => exact forms_reads_bare 1 (by decide) rfl rfl
  | memberNotFound => exact forms_reads_bare 2 (by decide) rfl rfl
  | invalidRequest => exact forms_reads_bare 3 (by decide) rfl rfl
  | internal => exact forms_reads_bare 4 (by decide) rfl rfl

theorem fault_steady : fault.Steady := (faultKind_steady.pair text_steady).map fun _ _ _ _ => rfl

theorem fault_reads (f : Fault) : fault.Reads f f :=
  ((faultKind_reads f.kind).pair (text_reads f.message)).map rfl rfl

section
variable {literal : Codec α} (h : literal.Steady)
include h

theorem oneVariable_steady : (oneVariable literal).Steady :=
  (variableKind_steady.pair (text_steady.pair (text_steady.pair (text_steady.pair (h.pair bool_steady))))).map
    fun _ _ _ _ => rfl

theorem variables_steady : («variables» literal).Steady := list_steady (oneVariable_steady h)

theorem request_steady : (request literal).Steady :=
  (uuid_steady.pair (mode_steady.pair (bool_steady.pair (text_steady.pair (text_steady.pair (text_steady.pair
    (text_steady.pair ((variables_steady h).pair ((variables_steady h).pair
      (option_steady bytes_steady)))))))))).map fun _ _ _ _ => rfl

theorem answer_steady : (answer literal).Steady := by
  refine forms_steady ?_
  simp only [List.forall_mem_cons]
  exact ⟨Form.steady_of 0 (fun _ => rfl) (h.pair (variables_steady h)),
    Form.steady_bare 1 rfl, Form.steady_of 2 (fun _ => rfl) fault_steady,
    fun _ h => absurd h List.not_mem_nil⟩

end

section
variable {literal : Codec α}

theorem oneVariable_reads {v : Variable α} (h : literal.Reads v.value v.value) : (oneVariable literal).Reads v v :=
  ((variableKind_reads v.kind).pair ((text_reads v.name).pair ((text_reads v.owner).pair ((text_reads v.type).pair
    (h.pair (bool_reads v.isStatic)))))).map rfl rfl

theorem variables_reads {vs : List (Variable α)} (h : ∀ v ∈ vs, literal.Reads v.value v.value) :
    («variables» literal).Reads vs vs := list_reads (List.forall₂_same.mpr fun v hv => oneVariable_reads (h v hv))

theorem request_reads {r : Request α} (hparams : ∀ v ∈ r.params, literal.Reads v.value v.value)
    (hnonLocals : ∀ v ∈ r.nonLocals, literal.Reads v.value v.value) : (request literal).Reads r r :=
  ((uuid_reads r.id).pair ((mode_reads r.mode).pair ((bool_reads r.onMainThread).pair ((text_reads r.file).pair
    ((text_reads r.hash).pair ((text_reads r.type).pair ((text_reads r.method).pair ((variables_reads hparams).pair
      ((variables_reads hnonLocals).pair (option_reads_self bytes_reads r.upload)))))))))).map rfl rfl

theorem answer_reads {a : Answer α} (h : ∀ x ∈ a.values, literal.Reads x x) : (answer literal).Reads a a := by
  cases a with
  | completed result vs =>
    obtain ⟨hresult, hvs⟩ := List.forall_mem_cons.mp h
    exact forms_reads_of 0 (by decide) rfl rfl (hresult.pair (variables_reads (List.forall_mem_map.mp hvs))) rfl
  | moduleUnknown => exact forms_reads_bare 1 (by decide) rfl rfl
  | fault f => exact forms_reads_of 2 (by decide) rfl rfl (fault_reads f) rfl

end
end Wire

/-! ## States in and out of a heap -/

/-- A computation that makes something for a state, which has this state as long as the objects that were made for it
stay as they are. -/
structure Makes {α β : Type} (state : Heap → β → Option α) (make : α → StateM Heap β) : Prop where
  grows : ∀ x, Grows (make x)
  made : ∀ x h {k : Heap}, Heap.ExtendsFrom h.objects.size ((make x).run h).2 k → state k ((make x).run h).1 = some x

/-- What the holders of values have for a state, and what is made for it. -/
def Heap.variables? (h : Heap) (vs : List (Variable Value)) : Option (List (Variable Datum)) :=
  vs.mapM (·.traverse h.snapshot)

def Heap.makeVariables (vs : List (Variable Datum)) : StateM Heap (List (Variable Value)) :=
  vs.mapM (·.traverse instantiate)

namespace Makes
variable {α β : Type} {state : Heap → β → Option α} {make : α → StateM Heap β}

theorem instantiate : Makes Heap.snapshot Heap.instantiate := ⟨Heap.instantiate_grows, Heap.snapshot_instantiate⟩

theorem mapM (hmake : Makes state make) :
    Makes (fun h (xs : List β) => xs.mapM (state h)) (fun (xs : List α) => xs.mapM make) where
  grows xs := .mapM hmake.grows xs
  made xs := by
    induction xs with
    | nil => exact fun _ _ _ => rfl
    | cons x xs ih =>
      intro h k hk
      rw [Heap.mapM_run_cons] at hk ⊢
      have hfirst := hmake.made x h ((Grows.mapM hmake.grows xs _).trans_since hk)
      rw [List.mapM_cons, hfirst, Option.bind_eq_bind, Option.bind_some, ih _ (hk.mono (hmake.grows x h).size_le)]
      rfl

/-- Two things that are made one after the other. -/
theorem both {γ δ : Type} {state' : Heap → δ → Option γ} {make' : γ → StateM Heap δ} (hmake : Makes state make)
    (hmake' : Makes state' make') (x : α) (y : γ) {h k : Heap}
    (hk : Heap.ExtendsFrom h.objects.size ((make' y).run ((make x).run h).2).2 k) :
    state k ((make x).run h).1 = some x ∧ state' k ((make' y).run ((make x).run h).2).1 = some y :=
  ⟨hmake.made x h ((hmake'.grows y _).trans_since hk), hmake'.made y _ (hk.mono (hmake.grows x h).size_le)⟩

theorem ofVariable : Makes (fun h (v : Variable Value) => v.traverse h.snapshot) (·.traverse Heap.instantiate) where
  grows v := (instantiate.grows v.value).bind fun _ => .pure _
  made v h _ hk := Option.bind_eq_some_iff.mpr ⟨v.value, instantiate.made v.value h hk, rfl⟩

theorem ofVariables : Makes Heap.variables? Heap.makeVariables := ofVariable.mapM

theorem ofRequest : Makes (fun h (r : Request Value) => r.traverse h.snapshot) (·.traverse Heap.instantiate) where
  grows r := (ofVariables.grows r.params).bind fun _ => (ofVariables.grows r.nonLocals).bind fun _ => .pure _
  made r h _ hk := by
    obtain ⟨hparams, hnonLocals⟩ := ofVariables.both ofVariables r.params r.nonLocals hk
    exact Option.bind_eq_some_iff.mpr ⟨r.params, hparams, Option.bind_eq_some_iff.mpr ⟨r.nonLocals, hnonLocals, rfl⟩⟩

theorem ofAnswer : Makes (fun h (a : Answer Value) => a.traverse h.snapshot) (·.traverse Heap.instantiate) where
  grows a := by
    cases a with
    | completed result vs => exact (instantiate.grows result).bind fun _ => (ofVariables.grows vs).bind fun _ => .pure _
    | moduleUnknown => exact .pure _
    | fault f => exact .pure _
  made a h k hk := by
    cases a with
    | completed result vs =>
      obtain ⟨hresult, hvs⟩ := instantiate.both ofVariables result vs hk
      exact Option.bind_eq_some_iff.mpr ⟨result, hresult, Option.bind_eq_some_iff.mpr ⟨vs, hvs, rfl⟩⟩
    | moduleUnknown => rfl
    | fault f => rfl

end Makes

/-! ## Crossing the wire -/

/-- What a heap holds is written as its state, read back without loss, and made again in any other heap. -/
def Crosses {α β : Type} (c : Wire.Codec α) (state : Heap → β → Option α) (make : α → StateM Heap β) (h : Heap) (v : β) :
    Prop :=
  ∃ x, state h v = some x ∧ c.Lossless x ∧ ∀ k, state ((make x).run k).2 ((make x).run k).1 = some x

theorem Makes.crosses {α β : Type} {c : Wire.Codec α} {state : Heap → β → Option α} {make : α → StateM Heap β}
    (hmake : Makes state make) (hc : c.Steady) {h : Heap} {v : β} {x : α} (hx : state h v = some x) (hreads : c.Reads x x) :
    Crosses c state make h v :=
  ⟨x, hx, hc.lossless hreads, fun k => hmake.made x k (Heap.Extends.refl _).since⟩

namespace Heap
variable {h : Heap}
open Wire (datum datum_steady datum_reads_self)

theorem exists_variables {vs : List (Variable Value)} (hh : h.Ordered) (hvs : ∀ v ∈ vs, h.Acyclic v.value) :
    ∃ ws, h.variables? vs = some ws ∧ ∀ w ∈ ws, datum.Reads w.value w.value := by
  have hall : ∀ v ∈ vs, ∃ w : Variable Datum, v.traverse h.snapshot = some w ∧ w.value.Ordered := by
    intro v hv
    obtain ⟨x, hx⟩ := exists_snapshot_iff.mpr (hvs v hv)
    exact ⟨v.withValue x, Option.bind_eq_some_iff.mpr ⟨x, hx, rfl⟩, snapshot_ordered hh hx⟩
  obtain ⟨ws, hws⟩ := forall₂_isSome hall
  refine ⟨ws, mapM_eq_some_iff.mpr (hws.imp fun _ _ hw => hw.1), fun w hw => ?_⟩
  obtain ⟨v, _, _, hordered⟩ := Forall₂.exists_of_mem hws.flip hw
  exact datum_reads_self hordered

/-- A value on no cycle of references, a list of variables, a request and an answer that hold only such values cross the
wire. -/
theorem crosses_wire (hh : h.Ordered) :
    (∀ v, h.Acyclic v → Crosses datum snapshot instantiate h v) ∧
    (∀ vs : List (Variable Value), (∀ v ∈ vs, h.Acyclic v.value) →
      Crosses (Wire.«variables» datum) variables? makeVariables h vs) ∧
    (∀ r : Request Value, (∀ v ∈ r.params ++ r.nonLocals, h.Acyclic v.value) →
      Crosses (Wire.request datum) (fun h r => r.traverse h.snapshot) (·.traverse instantiate) h r) ∧
    ∀ a : Answer Value, (∀ v ∈ a.values, h.Acyclic v) →
      Crosses (Wire.answer datum) (fun h a => a.traverse h.snapshot) (·.traverse instantiate) h a := by
  refine ⟨fun v hv => ?_, fun vs hvs => ?_, fun r hr => ?_, fun a ha => ?_⟩
  · obtain ⟨x, hx⟩ := exists_snapshot_iff.mpr hv
    exact Makes.instantiate.crosses datum_steady hx (datum_reads_self (snapshot_ordered hh hx))
  · obtain ⟨ws, hws, hreads⟩ := exists_variables hh hvs
    exact Makes.ofVariables.crosses (Wire.variables_steady datum_steady) hws (Wire.variables_reads hreads)
  · obtain ⟨hparams, hnonLocals⟩ := List.forall_mem_append.mp hr
    obtain ⟨params, hparams, hreads⟩ := exists_variables hh hparams
    obtain ⟨nonLocals, hnonLocals, hreads'⟩ := exists_variables hh hnonLocals
    have hsent : ∃ sent, r.traverse h.snapshot = some sent ∧ (Wire.request datum).Reads sent sent :=
      ⟨_, Option.bind_eq_some_iff.mpr ⟨params, hparams, Option.bind_eq_some_iff.mpr ⟨nonLocals, hnonLocals, rfl⟩⟩,
        Wire.request_reads hreads hreads'⟩
    obtain ⟨sent, hsent, hreads⟩ := hsent
    exact Makes.ofRequest.crosses (Wire.request_steady datum_steady) hsent hreads
  · have hsent : ∃ sent, a.traverse h.snapshot = some sent ∧ ∀ x ∈ sent.values, datum.Reads x x := by
      cases a with
      | completed result vs =>
        obtain ⟨hresult, hvs⟩ := List.forall_mem_cons.mp ha
        obtain ⟨x, hx⟩ := exists_snapshot_iff.mpr hresult
        obtain ⟨ws, hws, hreads⟩ := exists_variables hh (List.forall_mem_map.mp hvs)
        exact ⟨.completed x ws, Option.bind_eq_some_iff.mpr ⟨x, hx, Option.bind_eq_some_iff.mpr ⟨ws, hws, rfl⟩⟩,
          List.forall_mem_cons.mpr ⟨datum_reads_self (snapshot_ordered hh hx), List.forall_mem_map.mpr hreads⟩⟩
      | moduleUnknown => exact ⟨.moduleUnknown, rfl, nofun⟩
      | fault f => exact ⟨.fault f, rfl, nofun⟩
    obtain ⟨sent, hsent, hreads⟩ := hsent
    exact Makes.ofAnswer.crosses (Wire.answer_steady datum_steady) hsent (Wire.answer_reads hreads)

end Heap

namespace parcel

/-- A crate whose lid is also the first of its parts. -/
def heap : Heap := ⟨#[⟨"Ops.Lid", [("open", .bool true)]⟩,
  ⟨"Ops.Crate", [("lid", .object ⟨0⟩), ("parts", .list [.object ⟨0⟩, .text "nail", .double ⟨0⟩])]⟩]⟩

def request : Request Value where
  id := .ofNat 5
  file := "ops.module"
  hash := "a"
  type := "Ops.Crate"
  method := "Close"
  params := [⟨.parameter, "by", "", "Any", .list [.object ⟨1⟩, .null], false⟩]
  nonLocals := [⟨.field, "lid", "Ops.Crate", "Ops.Lid", .object ⟨0⟩, false⟩]
  upload := some [1, 2]

def lid : Datum := .object "Ops.Lid" [("open", .bool true)]

def crate : Datum := .object "Ops.Crate" [("lid", lid), ("parts", .list [lid, .text "nail", .double ⟨0⟩])]

def sent : Request Datum := { request with
  params := [⟨.parameter, "by", "", "Any", .list [crate, .null], false⟩]
  nonLocals := [⟨.field, "lid", "Ops.Crate", "Ops.Lid", lid, false⟩] }

theorem ordered : heap.Ordered := by
  rintro ⟨i⟩ o ho
  match i, ho with
  | 0, rfl => exact List.pairwise_singleton _ _
  | 1, rfl => exact List.pairwise_pair.mpr (by decide)

theorem acyclic : ∀ v ∈ request.params ++ request.nonLocals, heap.Acyclic v.value := by
  simp only [request, List.cons_append, List.nil_append, List.forall_mem_cons]
  exact ⟨Heap.exists_snapshot_iff.mp ⟨.list [crate, .null], rfl⟩, Heap.exists_snapshot_iff.mp ⟨lid, rfl⟩, nofun⟩

end parcel

open parcel in
theorem parcel_crosses :
    (Wire.request Wire.datum).decode ((Wire.request Wire.datum).encode sent ++ [0, 9]) = some (sent, [0, 9]) ∧
      (Wire.request Wire.datum).decode ((Wire.request Wire.datum).encode sent).dropLast = none ∧
        let made := (sent.traverse (m := StateM Heap) Heap.instantiate).run heap
        made.1.traverse made.2.snapshot = some sent := by
  obtain ⟨x, hx, hlossless, hmade⟩ := (Heap.crosses_wire ordered).2.2.1 request acyclic
  have hsent : request.traverse heap.snapshot = some sent := rfl
  cases hx.symm.trans hsent
  obtain ⟨hreads, hcut⟩ := hlossless (by decide +kernel)
  exact ⟨hreads [0, 9], hcut _ [_] (List.dropLast_append_getLast (by decide +kernel)) (List.cons_ne_nil _ _), hmade heap⟩

end MobileCode
