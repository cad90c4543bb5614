import MobileCode.Service.Mail
import MobileCode.Proofs.Digests
import MobileCode.Proofs.Envelopes
import MobileCode.Proofs.Pieces

/-! # Requests and answers in the mail

A request that goes into a message is read from it again, but for the flag for the main thread, and an answer too. The
subject tells requests from answers and names the id, in text form; the fields of the body are told apart as none of
them contains the separator.
-/
namespace MobileCode

/-! ## Base 64 -/

namespace Base64

theorem digit_valued {n : Nat} (h : n < 64) :
    value? (digit n) = some n ∧ digit n ≠ '=' ∧ digit n ≠ '>' ∧ Text.isBlank (digit n) = false := by
  revert n
  decide +kernel

theorem decodeChars?_group {a b c d : Char} {x y z w : Nat} {data : Bytes} {rest : List Char} (ha : value? a = some x)
    (hb : value? b = some y) (hc : value? c = some z) (hd : value? d = some w) (hpad : d ≠ '=')
    (hrest : decodeChars? rest = some data) : decodeChars? (a :: b :: c :: d :: rest) =
      some (UInt8.ofNat (x * 4 + y / 16) :: UInt8.ofNat (y % 16 * 16 + z / 4) :: UInt8.ofNat (z % 4 * 64 + w) :: data) := by
  rw [decodeChars?]
  · simp only [ha, hb, hc, hd, hrest, Option.bind_eq_bind, Option.bind_some, Option.pure_def]
  · rintro - rfl
    exact absurd rfl hpad
  · rintro rfl
    exact absurd rfl hpad

theorem ofNat_eq {b : UInt8} {n : Nat} (h : n = b.toNat) : UInt8.ofNat n = b := by
  rw [h, UInt8.ofNat_toNat]

theorem decodeChars?_encodeChars (data : Bytes) : decodeChars? (encodeChars data) = some data := by
  fun_induction encodeChars data with
  | case1 => rfl
  | case2 a =>
    have ha := a.toNat_lt
    obtain ⟨h1, _⟩ := digit_valued (n := a.toNat / 4) (by omega)
    obtain ⟨h2, _⟩ := digit_valued (n := a.toNat % 4 * 16) (by omega)
    have hunused : a.toNat % 4 * 16 % 16 = 0 := by omega
    simp only [decodeChars?, h1, h2, Option.bind_eq_bind, Option.bind_some, if_pos hunused]
    rw [ofNat_eq (b := a) (by omega)]
  | case3 a b =>
    have ha := a.toNat_lt
    have hb := b.toNat_lt
    obtain ⟨h1, _⟩ := digit_valued (n := a.toNat / 4) (by omega)
    obtain ⟨h2, _⟩ := digit_valued (n := a.toNat % 4 * 16 + b.toNat / 16) (by omega)
    obtain ⟨h3, hpad, _⟩ := digit_valued (n := b.toNat % 16 * 4) (by omega)
    have hunused : b.toNat % 16 * 4 % 4 = 0 := by omega
    rw [decodeChars?]
    · simp only [h1, h2, h3, Option.bind_eq_bind, Option.bind_some, if_pos hunused]
      rw [ofNat_eq (b := a) (by omega), ofNat_eq (b := b) (by omega)]
    · exact hpad
  | case4 a b c rest ih =>
    have ha := a.toNat_lt
    have hb := b.toNat_lt
    have hc := c.toNat_lt
    obtain ⟨h1, _⟩ := digit_valued (n := a.toNat / 4) (by omega)
    obtain ⟨h2, _⟩ := digit_valued (n := a.toNat % 4 * 16 + b.toNat / 16) (by omega)
    obtain ⟨h3, _⟩ := digit_valued (n := b.toNat % 16 * 4 + c.toNat / 64) (by omega)
    obtain ⟨h4, hpad, _⟩ := digit_valued (n := c.toNat % 64) (by omega)
    rw [decodeChars?_group h1 h2 h3 h4 hpad ih, ofNat_eq (b := a) (by omega), ofNat_eq (b := b) (by omega),
      ofNat_eq (b := c) (by omega)]

/-- Neither blanks nor separators are written. -/
theorem encodeChars_clean {data : Bytes} {c : Char} (h : c ∈ encodeChars data) : c ≠ '>' ∧ Text.isBlank c = false := by
  have hpad : ∀ d, d = '=' → d ≠ '>' ∧ Text.isBlank d = false := by
    rintro _ rfl
    decide
  fun_induction encodeChars data with
  | case1 => cases h
  | case2 a =>
    have ha := a.toNat_lt
    simp only [List.mem_cons, List.not_mem_nil, or_false] at h
    rcases h with rfl | rfl | h | h
    · exact (digit_valued (by omega)).2.2
    · exact (digit_valued (by omega)).2.2
    · exact hpad c h
    · exact hpad c h
  | case3 a b =>
    have ha := a.toNat_lt
    have hb := b.toNat_lt
    simp only [List.mem_cons, List.not_mem_nil, or_false] at h
    rcases h with rfl | rfl | rfl | h
    · exact (digit_valued (by omega)).2.2
    · exact (digit_valued (by omega)).2.2
    · exact (digit_valued (by omega)).2.2
    · exact hpad c h
  | case4 a b d rest ih =>
    have ha := a.toNat_lt
    have hb := b.toNat_lt
    have hd := d.toNat_lt
    simp only [List.mem_cons] at h
    rcases h with rfl | rfl | rfl | rfl | h
    · exact (digit_valued (by omega)).2.2
    · exact (digit_valued (by omega)).2.2
    · exact (digit_valued (by omega)).2.2
    · exact (digit_valued (by omega)).2.2
    · exact ih h

end Base64

/-! ## Trimmed texts -/

namespace Text

theorem dropBlanks_eq {chars : List Char} (h : ∀ c ∈ chars, isBlank c = false) : chars.dropWhile isBlank = chars := by
  cases chars with
  | nil => rfl
  | cons c rest =>
    rw [List.dropWhile_cons_of_neg]
    rw [h c List.mem_cons_self]
    exact Bool.false_ne_true

theorem trim_eq {text : String} (h : ∀ c ∈ text.toList, isBlank c = false) : trim text = text := by
  have hreverse : ∀ c ∈ text.toList.reverse, isBlank c = false := fun c hc => h c (List.mem_reverse.mp hc)
  rw [trim, trimChars, trimLeft, dropBlanks_eq h, trimRight, dropBlanks_eq hreverse, List.reverse_reverse,
    String.ofList_toList]

end Text

/-! ## The wire format as text -/

namespace Wire.Codec
variable {α : Type} {c : Codec α} {x y : α}

theorem print_clean (c : Codec α) (x : α) {d : Char} (h : d ∈ (c.print x).toList) : d ≠ '>' ∧ Text.isBlank d = false := by
  rw [print, Base64.encode, String.toList_ofList] at h
  exact Base64.encodeChars_clean h

theorem Reads.scan_print (h : c.Reads x y) (hsize : (c.encode x).length < UInt64.size) : c.scan (c.print x) = .ok y := by
  have hdecode : Base64.decode? (c.print x) = some (c.encode x) := by
    rw [Base64.decode?, print, Base64.encode, String.toList_ofList, Base64.decodeChars?_encodeChars]
  have hread : c.read? (c.encode x) = some y := by
    have hdecodes := h.decodes hsize []
    rw [List.append_nil] at hdecodes
    rw [read?, hdecodes, Option.map_some]
  rw [scan, Text.trim_eq fun d hd => (print_clean c x hd).2, hdecode]
  simp only [parse, hread]

theorem Yields.scan {P : α → Prop} (h : c.Yields P) {text : String} (hscan : c.scan text = .ok x) : P x := by
  unfold Codec.scan parse at hscan
  split at hscan
  · rename_i input _
    cases hread : c.read? input with
    | none =>
      rw [hread] at hscan
      cases hscan
    | some y =>
      rw [hread] at hscan
      cases hscan
      obtain ⟨⟨_, rest⟩, hdecode, rfl⟩ := Option.map_eq_some_iff.mp hread
      exact h _ _ rest hdecode
  · cases hscan

end Wire.Codec

theorem Wire.variables_ordered : («variables» datum).Yields fun vs => ∀ v ∈ vs, v.value.Ordered := by
  have hone : (oneVariable datum).Yields fun v => v.value.Ordered :=
    .map (.pair .any (.pair .any (.pair .any (.pair .any (.pair datum_ordered .any))))) fun _ h => h.2.2.2.2.1
  exact hone.list

/-! ## Ids as texts -/

namespace Bytes

theorem hexValue?_hexDigit {n : Nat} (h : n < 16) : hexValue? (hexDigit n) = some n := by
  revert n
  decide

theorem ofHexDigits?_hexDigits (bytes : Bytes) : ofHexDigits? (hexDigits bytes) = some bytes := by
  induction bytes with
  | nil => rfl
  | cons b rest ih =>
    have hb := b.toNat_lt
    have hvalue : 16 * (b.toNat / 16) + b.toNat % 16 = b.toNat := by omega
    rw [hexDigits, List.flatMap_cons, ← hexDigits, List.cons_append, List.cons_append, List.nil_append, ofHexDigits?,
      hexValue?_hexDigit (by omega), hexValue?_hexDigit (by omega), ih]
    simp only [Option.bind_eq_bind, Option.bind_some, Option.pure_def, hvalue, UInt8.ofNat_toNat]

theorem hexDigits_append (front rest : Bytes) : hexDigits (front ++ rest) = hexDigits front ++ hexDigits rest :=
  List.flatMap_append

end Bytes

namespace Uuid

theorem toList_toText (id : Uuid) :
    id.toText.toList = ['-'].intercalate ((cut groups id.bytes).map Bytes.hexDigits) := by
  have hhex : String.toList ∘ Bytes.toHex = Bytes.hexDigits := funext fun _ => String.toList_ofList
  rw [toText, String.toList_intercalate, List.map_map, hhex]
  rfl

theorem takeGroups_cut {sizes : List Nat} (hsome : sizes ≠ []) {bytes : Bytes} (h : bytes.length = sizes.sum) :
    takeGroups sizes (['-'].intercalate ((cut sizes bytes).map Bytes.hexDigits)) = some (Bytes.hexDigits bytes) := by
  induction sizes generalizing bytes with
  | nil => exact absurd rfl hsome
  | cons n sizes ih =>
    rw [List.sum_cons] at h
    cases sizes with
    | nil =>
      rw [List.sum_nil, Nat.add_zero] at h
      rw [cut, cut, List.map_cons, List.map_nil, List.intercalate_singleton, List.take_of_length_le (Nat.le_of_eq h),
        takeGroups, Bytes.length_hexDigits, h, if_pos rfl]
    | cons m sizes =>
      have hfront : (bytes.take n).length = n := by
        rw [List.length_take]
        omega
      have hrest : (bytes.drop n).length = (m :: sizes).sum := by
        rw [List.length_drop]
        omega
      have hdigits : (Bytes.hexDigits (bytes.take n)).length = 2 * n := by rw [Bytes.length_hexDigits, hfront]
      have hgroups := ih (List.cons_ne_nil _ _) hrest
      rw [cut] at hgroups ⊢
      rw [cut, List.map_cons, List.map_cons, List.intercalate_cons_cons, List.append_assoc, List.singleton_append,
        takeGroups]
      · rw [List.drop_left' hdigits, List.take_left' hdigits]
        rw [List.map_cons] at hgroups
        simp only [hgroups, Option.map_some]
        rw [← Bytes.hexDigits_append, List.take_append_drop]
      · exact List.cons_ne_nil _ _

theorem length_toText (id : Uuid) : id.toText.toList.length = 36 := by
  have hsize := id.size
  simp only [toList_toText, groups, cut, List.map_cons, List.map_nil, List.intercalate_cons_cons, List.intercalate_singleton,
    List.length_append, Bytes.length_hexDigits, List.length_take, List.length_drop, List.length_cons, List.length_nil]
  omega

/-- An id is read from its text. -/
theorem ofText?_toText (id : Uuid) : ofText? id.toText = some id := by
  have hlength := id.length_toText
  have hgroups : ofGroups? id.toText.toList = some id := by
    rw [ofGroups?, toList_toText, takeGroups_cut (by decide) id.size]
    simp only [Option.bind_eq_bind, Option.bind_some, Bytes.ofHexDigits?_hexDigits]
    exact dif_pos id.size
  rw [ofText?]
  simp only [hlength, hgroups]
  rfl

end Uuid

/-! ## Messages -/

namespace Mail

theorem idBehind_append (mark : String) (id : Uuid) : idBehind mark (mark ++ id.toText) = .ok id := by
  have hmark : mark.toList.isPrefixOf (mark ++ id.toText).toList = true := by
    rw [String.toList_append, List.isPrefixOf_iff_prefix]
    exact List.prefix_append _ _
  have hrest : (mark ++ id.toText).toList.drop mark.length = id.toText.toList := by
    rw [String.toList_append]
    exact List.drop_left' String.length_toList
  rw [idBehind, if_pos hmark]
  simp only [hrest, String.ofList_toList, Uuid.ofText?_toText]

theorem isPrefixOf_of_idBehind {mark subject : String} {id : Uuid} (h : idBehind mark subject = .ok id) :
    mark.toList.isPrefixOf subject.toList = true := by
  unfold idBehind at h
  split at h
  · assumption
  · cases h

/-- A subject is that of a request or of an answer. -/
theorem not_isResponse {m : Mail} (h : m.isRequest = true) : m.isResponse = false := by
  refine Bool.eq_false_iff.mpr fun hresponse => ?_
  have hboth := List.prefix_or_prefix_of_prefix (List.isPrefixOf_iff_prefix.mp h) (List.isPrefixOf_iff_prefix.mp hresponse)
  revert hboth
  decide

/-- The id in the subject of a request or an answer. -/
def carried? (m : Mail) : Option Uuid := m.requestId.toOption.or (idBehind responseSubject m.subject).toOption

theorem carried?_of_request {m : Mail} {id : Uuid} (h : m.requestId = .ok id) : m.carried? = some id := by
  rw [carried?, h]
  rfl

theorem carried?_of_answer {m : Mail} {id : Uuid} (h : idBehind responseSubject m.subject = .ok id) :
    m.carried? = some id := by
  have hforeign : m.requestId.toOption = none := by
    cases hrequest : m.requestId with
    | error e => rfl
    | ok other =>
      have hresponse := not_isResponse (isPrefixOf_of_idBehind hrequest)
      cases hresponse.symm.trans (isPrefixOf_of_idBehind h)
  rw [carried?, hforeign, h]
  rfl

end Mail

/-- The values are in order, and lists of them short enough to be written. -/
structure Request.Writable (r : Request Datum) : Prop where
  ordered : ∀ v ∈ r.params ++ r.nonLocals, v.value.Ordered
  params : ((Wire.«variables» Wire.datum).encode r.params).length < UInt64.size
  nonLocals : ((Wire.«variables» Wire.datum).encode r.nonLocals).length < UInt64.size

structure Answer.Writable (a : Answer Datum) : Prop where
  ordered : ∀ x ∈ a.values, x.Ordered
  size : ((Wire.answer Wire.datum).encode a).length < UInt64.size

namespace Mail

section
variable {r : Request Datum} {sender recipient : String} {m : Mail}

theorem unmailable?_eq_none : unmailable? r = none ↔
    ∀ name ∈ [r.file, r.hash, r.type, r.method], separator ∉ name.toList := by
  rw [unmailable?, List.find?_eq_none]
  refine forall₂_congr fun name _ => ?_
  rw [String.contains_char_eq, decide_eq_true_eq]

theorem ofRequest_eq_ok (h : ofRequest r sender recipient = .ok m) :
    (∀ name ∈ [r.file, r.hash, r.type, r.method], separator ∉ name.toList) ∧
      m = { sender, recipient, subject := requestSubject ++ r.id.toText, body := bodyOf r
            attachments := r.upload.elim [] fun data => [(r.file, data)] } := by
  unfold ofRequest at h
  split at h
  · cases h
  · rename_i hnone
    cases h
    exact ⟨unmailable?_eq_none.mp hnone, rfl⟩

theorem requestId_ofRequest (h : ofRequest r sender recipient = .ok m) : m.requestId = .ok r.id := by
  obtain ⟨_, rfl⟩ := ofRequest_eq_ok h
  exact idBehind_append requestSubject r.id

theorem split_bodyOf (h : ∀ name ∈ [r.file, r.hash, r.type, r.method], separator ∉ name.toList) :
    Text.split separator (bodyOf r) = [r.mode.name, r.file, r.hash, r.type, r.method,
      (Wire.«variables» Wire.datum).print r.params, (Wire.«variables» Wire.datum).print r.nonLocals] := by
  refine Text.split_intercalate (List.cons_ne_nil _ _) (List.forall_mem_cons.mpr ⟨?_, ?_⟩)
  · cases r.mode <;> decide
  · simp only [List.forall_mem_cons] at h ⊢
    obtain ⟨hfile, hhash, htype, hmethod, _⟩ := h
    exact ⟨hfile, hhash, htype, hmethod, fun hsep => (Wire.Codec.print_clean _ _ hsep).1 rfl,
      fun hsep => (Wire.Codec.print_clean _ _ hsep).1 rfl, nofun⟩

/-- A request is read from the message that was made of it. The flag for the main thread stays behind. -/
theorem toRequest_ofRequest (h : ofRequest r sender recipient = .ok m) (hr : r.Writable) :
    m.toRequest = .ok { r with onMainThread := false } := by
  obtain ⟨hparams, hnonLocals⟩ := List.forall_mem_append.mp hr.ordered
  have hid := requestId_ofRequest h
  obtain ⟨hclean, rfl⟩ := ofRequest_eq_ok h
  have hmode : Mode.ofName? r.mode.name = some r.mode := by cases r.mode <;> rfl
  have hparams := (Wire.variables_reads fun v hv => Wire.datum_reads_self (hparams v hv)).scan_print hr.params
  have hnonLocals := (Wire.variables_reads fun v hv => Wire.datum_reads_self (hnonLocals v hv)).scan_print hr.nonLocals
  have hupload : Dict.find? (r.upload.elim [] fun data => [(r.file, data)]) r.file = r.upload := by
    cases r.upload with
    | none => rfl
    | some data => exact List.lookup_cons_self
  rw [toRequest, hid]
  simp only [split_bodyOf hclean, hmode, hparams, hnonLocals, hupload, bind, Except.bind, pure, Except.pure]

end

theorem toRequest_eq_ok {r : Request Datum} {m : Mail} (h : m.toRequest = .ok r) : m.requestId = .ok r.id ∧
    (∃ text, (Wire.«variables» Wire.datum).scan text = .ok r.params) ∧
      ∃ text, (Wire.«variables» Wire.datum).scan text = .ok r.nonLocals := by
  unfold toRequest at h
  cases hid : m.requestId with
  | error e =>
    rw [hid] at h
    cases h
  | ok id =>
    rw [hid] at h
    simp only [bind, Except.bind] at h
    repeat' split at h
    all_goals cases h
    exact ⟨rfl, ⟨_, by assumption⟩, _, by assumption⟩

/-- The values of a request that has been read are in order. -/
theorem toRequest_ordered {r : Request Datum} {m : Mail} (h : m.toRequest = .ok r) :
    (∀ v ∈ r.params, v.value.Ordered) ∧ ∀ v ∈ r.nonLocals, v.value.Ordered := by
  obtain ⟨_, ⟨_, hparams⟩, _, hnonLocals⟩ := toRequest_eq_ok h
  exact ⟨Wire.variables_ordered.scan hparams, Wire.variables_ordered.scan hnonLocals⟩

theorem answerId_of_toAnswer {m : Mail} {id : Uuid} {a : Answer Datum} (h : m.toAnswer = .ok (id, a)) :
    idBehind responseSubject m.subject = .ok id := by
  unfold toAnswer at h
  cases hid : idBehind responseSubject m.subject with
  | error e =>
    rw [hid] at h
    cases h
  | ok found =>
    rw [hid] at h
    simp only [bind, Except.bind] at h
    split at h <;> cases h
    rfl

theorem answerId_ofAnswer (id : Uuid) (a : Answer Datum) (sender recipient : String) :
    idBehind responseSubject (ofAnswer id a sender recipient).subject = .ok id := idBehind_append responseSubject id

/-- An answer is read from the message that was made of it. -/
theorem toAnswer_ofAnswer {a : Answer Datum} (ha : a.Writable) (id : Uuid) (sender recipient : String) :
    (ofAnswer id a sender recipient).toAnswer = .ok (id, a) := by
  have hread := (Wire.answer_reads fun x hx => Wire.datum_reads_self (ha.ordered x hx)).scan_print ha.size
  rw [toAnswer, answerId_ofAnswer]
  simp only [ofAnswer, hread, bind, Except.bind, pure, Except.pure]

end Mail
end MobileCode
