import MobileCode.Proofs.Transports

/-! # Requests that come by mail

A text is made up in one way only of pieces without the separator, so a body that can be read has seven fields, and
names and payloads cannot move them. The values in it are written in no more bytes than they took, so a request that has
been read can be written, unless one of its names is in the way, and is then read as itself.
-/
namespace MobileCode

namespace Text

theorem length_trim_le (text : String) : (trim text).length ≤ text.length := by
  rw [← String.length_toList, ← String.length_toList, trim, String.toList_ofList, trimChars, trimRight, List.length_reverse]
  refine Nat.le_trans (List.dropWhile_sublist _).length_le ?_
  rw [List.length_reverse]
  exact (List.dropWhile_sublist _).length_le

end Text

/-! ## Values in a text -/

/-- Three bytes make four digits. -/
theorem Base64.length_encodeChars (data : Bytes) : (encodeChars data).length = (data.length + 2) / 3 * 4 := by
  fun_induction encodeChars data with
  | case1 | case2 | case3 => simp
  | case4 a b c rest ih =>
    simp only [List.length_cons, ih]
    omega

/-- Four digits make three bytes at most. -/
theorem Base64.length_decode?_le {text : String} {data : Bytes} (h : decode? text = some data) :
    data.length ≤ text.length := by
  rw [← String.length_toList]
  rw [decode?] at h
  generalize text.toList = chars at h ⊢
  fun_induction decodeChars? chars generalizing data with
  | case1 =>
    cases h
    exact Nat.le_refl 0
  | case2 a b =>
    simp only [Option.bind_eq_bind, Option.bind_eq_some_iff] at h
    obtain ⟨x, _, y, _, h⟩ := h
    split at h <;> cases h
    exact Nat.le_add_left 1 3
  | case3 a b c =>
    simp only [Option.bind_eq_bind, Option.bind_eq_some_iff] at h
    obtain ⟨x, _, y, _, z, _, h⟩ := h
    split at h <;> cases h
    exact Nat.le_add_left 2 2
  | case4 a b c d rest _ _ ih =>
    simp only [Option.bind_eq_bind, Option.bind_eq_some_iff] at h
    obtain ⟨x, _, y, _, z, _, w, _, more, hmore, h⟩ := h
    cases h
    have hrest := ih hmore
    simp only [List.length_cons]
    omega
  | case5 => cases h

namespace Wire.Codec
variable {α : Type} {c : Codec α} {x : α} {text : String}

/-- What has been read from a text is written in no more bytes than the text has characters. -/
theorem Steady.length_encode_le (hc : c.Steady) (h : c.scan text = .ok x) : (c.encode x).length ≤ text.length := by
  unfold scan at h
  split at h
  · rename_i data hdata
    unfold parse read? at h
    rcases hdecode : c.decode data with _ | ⟨y, rest⟩ <;> rw [hdecode] at h <;> cases h
    have hshrinks := hc.shrinks hdecode
    dsimp only
    have hbytes := Base64.length_decode?_le hdata
    have htrim := Text.length_trim_le text
    omega
  · cases h

end Wire.Codec

/-! ## Messages -/

theorem Mode.ofName?_eq_some {text : String} {mode : Mode} : ofName? text = some mode ↔ mode.name = text := by
  constructor
  · intro h
    rw [ofName?] at h
    exact of_decide_eq_true (List.find?_some (p := fun mode : Mode => decide (mode.name = text)) h)
  · rintro rfl
    cases mode <;> rfl

namespace Mail
variable {m : Mail} {r : Request Datum}

/-- A message is a request if its subject names an id and its body has the seven fields of the request. The module is
attached under its name, and there is no flag for the main thread. -/
theorem toRequest_eq_ok_iff : m.toRequest = .ok r ↔ m.requestId = .ok r.id ∧ r.onMainThread = false ∧
    r.upload = m.attachments.find? r.file ∧ ∃ params nonLocals,
      Text.split separator m.body = [r.mode.name, r.file, r.hash, r.type, r.method, params, nonLocals] ∧
      (Wire.«variables» Wire.datum).scan params = .ok r.params ∧
      (Wire.«variables» Wire.datum).scan nonLocals = .ok r.nonLocals := by
  constructor
  · intro h
    unfold toRequest at h
    obtain ⟨id, hid, h⟩ := Except.bind_eq_ok.mp h
    split at h
    · rename_i modeText file hash type method params nonLocals hbody
      split at h
      · cases h
      · rename_i mode hmode
        obtain ⟨ps, hps, h⟩ := Except.bind_eq_ok.mp h
        obtain ⟨ns, hns, h⟩ := Except.bind_eq_ok.mp h
        cases h
        refine ⟨hid, rfl, rfl, params, nonLocals, ?_, hps, hns⟩
        rw [hbody, Mode.ofName?_eq_some.mp hmode]
    · cases h
  · rintro ⟨hid, hmain, hupload, params, nonLocals, hbody, hparams, hnonLocals⟩
    rw [toRequest, hid]
    simp only [hbody, Mode.ofName?_eq_some.mpr rfl, hparams, hnonLocals, ← hupload, ← hmain, bind, Except.bind, pure,
      Except.pure]

theorem toRequest_writable (h : m.toRequest = .ok r) (hsize : m.body.length < UInt64.size) : r.Writable := by
  obtain ⟨_, _, _, params, nonLocals, hbody, hparams, hnonLocals⟩ := toRequest_eq_ok_iff.mp h
  have hsteady : (Wire.«variables» Wire.datum).Steady := Wire.variables_steady Wire.datum_steady
  have hfield {field : String} (h : field ∈ [params, nonLocals]) : field.length < UInt64.size := by
    have hpiece : field ∈ Text.split separator m.body := by
      rw [hbody]
      exact List.mem_append_right [r.mode.name, r.file, r.hash, r.type, r.method] h
    exact Nat.lt_of_le_of_lt (Text.length_le_of_mem_split hpiece) hsize
  refine ⟨List.forall_mem_append.mpr (toRequest_ordered h), ?_, ?_⟩
  · exact Nat.lt_of_le_of_lt (hsteady.length_encode_le hparams) (hfield List.mem_cons_self)
  · exact Nat.lt_of_le_of_lt (hsteady.length_encode_le hnonLocals) (hfield (List.mem_cons_of_mem _ List.mem_cons_self))

/-- A request is refused exactly if one of its names contains the separator. The message that is made of any other one is
read as the request, but for the flag for the main thread. The body of a message that can be read has seven fields, and the
message that is made of what has been read is read as the same. -/
theorem request_roundTrip (sender recipient : String) :
    (∀ r : Request Datum,
      ((∃ e, ofRequest r sender recipient = .error e) ↔
        ∃ name ∈ [r.file, r.hash, r.type, r.method], separator ∈ name.toList) ∧
      ∀ m, r.Writable → ofRequest r sender recipient = .ok m → m.toRequest = .ok { r with onMainThread := false }) ∧
    ∀ (m : Mail) (r : Request Datum), m.body.length < UInt64.size → m.toRequest = .ok r →
      (∃ fields : List String, fields.length = 7 ∧ (∀ field ∈ fields, separator ∉ field.toList) ∧
        String.intercalate (String.singleton separator) fields = m.body) ∧
      ∀ again, ofRequest r sender recipient = .ok again → again.toRequest = .ok r := by
  refine ⟨fun r => ⟨⟨?_, ?_⟩, fun m hr hm => toRequest_ofRequest hm hr⟩, fun m r hsize h => ⟨?_, fun again hagain => ?_⟩⟩
  · rintro ⟨e, he⟩
    by_contra hsome
    have hclean : ∀ name ∈ [r.file, r.hash, r.type, r.method], separator ∉ name.toList :=
      fun name hname hsep => hsome ⟨name, hname, hsep⟩
    rw [ofRequest, unmailable?_eq_none.mpr hclean] at he
    cases he
  · rintro ⟨name, hname, hsep⟩
    cases hm : ofRequest r sender recipient with
    | error e => exact ⟨e, rfl⟩
    | ok m => exact absurd hsep ((ofRequest_eq_ok hm).1 name hname)
  · obtain ⟨_, _, _, params, nonLocals, hbody, _, _⟩ := toRequest_eq_ok_iff.mp h
    obtain ⟨_, hclean, hjoined⟩ := Text.split_eq_iff.mp hbody
    exact ⟨_, rfl, hclean, hjoined⟩
  · have hread := toRequest_ofRequest hagain (toRequest_writable h hsize)
    rw [hread, ← (toRequest_eq_ok_iff.mp h).2.1]

end Mail

namespace slip

/-- A variable with an object. -/
def lid (fields : List (String × Datum)) : Variable Datum := ⟨.field, "lid", "Ops.Crate", "Ops.Lid", .object "Ops.Lid" fields, false⟩

/-- No method is named, the type has blanks in its name, and the module is empty. -/
def request : Request Datum where
  id := .ofNat 7
  mode := .replay
  file := "ops.module"
  hash := "a"
  type := " Ops.Crate\t"
  method := ""
  nonLocals := [lid [("open", .bool true), ("width", .int32 3)]]
  upload := some []

/-- The variable with its fields in another order. -/
def swapped : String := (Wire.«variables» Wire.datum).print [lid [("width", .int32 3), ("open", .bool true)]]

/-- The id is in braces, there is a blank in front of the parameters, and another module is attached too. -/
def received : Mail where
  id := 3
  sender := "porter"
  recipient := "desk"
  subject := "ExecuteNomadicMethod-Request>\x7b00000000-0000-0000-0000-000000000007\x7d"
  body := String.intercalate ">" ["Repeat", "ops.module", "a", " Ops.Crate\t", "", " AAAAAAAAAAA=", swapped]
  attachments := [("lib.module", [1]), ("ops.module", [])]

theorem scan_swapped : (Wire.«variables» Wire.datum).scan swapped = .ok request.nonLocals := by
  have hlid : (Wire.oneVariable Wire.datum).Reads (lid [("width", .int32 3), ("open", .bool true)])
      (lid [("open", .bool true), ("width", .int32 3)]) :=
    ((Wire.variableKind_reads .field).pair ((Wire.text_reads "lid").pair ((Wire.text_reads "Ops.Crate").pair
      ((Wire.text_reads "Ops.Lid").pair ((Wire.datum_reads _).pair (Wire.bool_reads false)))))).map rfl rfl
  exact (Wire.list_reads (.cons hlid .nil)).scan_print (by decide +kernel)

set_option maxRecDepth 20000 in
theorem received_read : received.toRequest = .ok request := by
  refine Mail.toRequest_eq_ok_iff.mpr ⟨rfl, rfl, rfl, " AAAAAAAAAAA=", swapped, ?_, rfl, scan_swapped⟩
  refine Text.split_intercalate (List.cons_ne_nil _ _) ?_
  simp only [List.forall_mem_cons]
  exact ⟨by decide, by decide, by decide, by decide, by decide, by decide,
    fun h => (Wire.Codec.print_clean _ _ h).1 rfl, nofun⟩

theorem received_short : received.body.length < UInt64.size := by
  have hswapped : swapped.length < 1000 := by
    rw [swapped, Wire.Codec.print, Base64.encode, String.length_ofList, Base64.length_encodeChars]
    decide +kernel
  have hfields : ">".length = 1 ∧ "Repeat".length = 6 ∧ "ops.module".length = 10 ∧ "a".length = 1 ∧
      " Ops.Crate\t".length = 11 ∧ " AAAAAAAAAAA=".length = 13 := by decide
  show (String.intercalate ">" ["Repeat", "ops.module", "a", " Ops.Crate\t", "", " AAAAAAAAAAA=", swapped]).length < _
  simp only [ne_eq, reduceCtorEq, not_false_eq_true, String.intercalate_cons_of_ne_nil, String.intercalate_singleton,
    String.length_append, String.length_empty, hfields, UInt64.size]
  omega

end slip

open slip in
/-- The request is read from its own message and from another one, and the message that is made of what was read is read as
the same. With a separator in the name of its method it is refused. -/
theorem slip_returned : (∃ m, Mail.ofRequest { request with onMainThread := true } "home" "desk" = .ok m ∧
      m.toRequest = .ok request) ∧
    (∃ e, Mail.ofRequest { request with method := "Open>Close" } "home" "desk" = .error e) ∧
    received.toRequest = .ok request ∧ (∃ fields : List String, fields.length = 7 ∧
      (∀ field ∈ fields, Mail.separator ∉ field.toList) ∧
      String.intercalate (String.singleton Mail.separator) fields = received.body) ∧
    ∃ again, Mail.ofRequest request "desk" "porter" = .ok again ∧ again.toRequest = .ok request := by
  have hwritable : ({ request with onMainThread := true } : Request Datum).Writable :=
    ⟨List.forall_mem_singleton.mpr ⟨List.pairwise_pair.mpr (by decide), trivial, trivial, trivial⟩, by decide +kernel,
      by decide +kernel⟩
  have hclean : Mail.unmailable? request = none := Mail.unmailable?_eq_none.mpr (by decide)
  obtain ⟨m, hm⟩ := Network.ofRequest_of_mailable (r := { request with onMainThread := true }) hclean "home" "desk"
  obtain ⟨again, hagain⟩ := Network.ofRequest_of_mailable hclean "desk" "porter"
  obtain ⟨hwritten, _⟩ := Mail.request_roundTrip "home" "desk"
  obtain ⟨hfields, hsame⟩ := (Mail.request_roundTrip "desk" "porter").2 received request received_short received_read
  refine ⟨⟨m, hm, (hwritten _).2 m hwritable hm⟩, (hwritten _).1.mpr ⟨"Open>Close", ?_, ?_⟩, received_read, hfields, again,
    hagain, hsame again hagain⟩
  · simp
  · decide

end MobileCode
