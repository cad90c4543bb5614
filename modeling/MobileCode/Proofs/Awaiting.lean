import MobileCode.Proofs.Deliveries

/-! # A client that waits for its answer

While a client waits, others go on with the mailbox. There may be copies of its request, which earlier attempts have left.
Each copy that a listener runs adds an answer behind those that are there, so what the client finds is the answer to the
first run.
-/
namespace MobileCode

namespace Mail
variable {m : Mail} {id : Uuid}

/-- The id of the request that a message answers. -/
def answered? (m : Mail) : Option Uuid := (idBehind responseSubject m.subject).toOption

theorem answered?_of_request (h : m.isRequest = true) : m.answered? = none := by
  have hforeign : responseSubject.toList.isPrefixOf m.subject.toList = false := not_isResponse h
  rw [answered?, idBehind, hforeign]
  rfl

theorem isResponse_of_answered? (h : m.answered? = some id) : m.isResponse = true := by
  unfold answered? at h
  cases hid : idBehind responseSubject m.subject with
  | error e =>
    rw [hid] at h
    cases h
  | ok _ => exact isPrefixOf_of_idBehind hid

theorem answered?_ofAnswer (id : Uuid) (a : Answer Datum) (sender recipient : String) :
    (ofAnswer id a sender recipient).answered? = some id := by
  rw [answered?, answerId_ofAnswer]
  rfl

theorem answered?_of_toAnswer {a : Answer Datum} (h : m.toAnswer = .ok (id, a)) : m.answered? = some id := by
  rw [answered?, answerId_of_toAnswer h]
  rfl

theorem carried?_of_answered? (h : m.answered? = some id) : m.carried? = some id := by
  unfold answered? at h
  cases hid : idBehind responseSubject m.subject with
  | error e =>
    rw [hid] at h
    cases h
  | ok _ =>
    rw [hid] at h
    cases h
    exact carried?_of_answer hid

end Mail

namespace Mailbox
variable {b : Mailbox} {m : Mail} {id : Uuid}

/-- The answers to a request. -/
def answersTo (b : Mailbox) (id : Uuid) : List Mail := b.messages.filter (·.answered? = some id)

theorem answersTo_send (b : Mailbox) (m : Mail) (id : Uuid) : (b.send m).2.answersTo id =
    b.answersTo id ++ if m.answered? = some id then [{ m with id := b.lastId + 1 }] else [] := by
  rw [answersTo, send, List.filter_append]
  congr 1
  split
  · rename_i h
    exact List.filter_cons_of_pos (decide_eq_true h)
  · rename_i h
    exact List.filter_cons_of_neg (by rwa [decide_eq_true_eq])

theorem answersTo_without_other (h : b.Numbered) (hm : m ∈ b.messages) (hid : m.answered? ≠ some id) :
    (b.without m.id).answersTo id = b.answersTo id := by
  rw [answersTo, without, List.filter_filter]
  refine List.filter_congr fun x hx => ?_
  by_cases hsame : x.id = m.id
  · rw [h.eq_of_id hx hm hsame]
    simp [hid]
  · simp [hsame]

theorem answersTo_of_unused (h : b.about id = []) : b.answersTo id = [] :=
  List.filter_eq_nil_iff.mpr fun x hx hanswered =>
    List.filter_eq_nil_iff.mp h x hx (decide_eq_true (Mail.carried?_of_answered? (of_decide_eq_true hanswered)))

/-- The requests with the id of this one are copies of it, which its client has sent. The flag for the main thread stays
behind. -/
def Copied (b : Mailbox) (r : Request Datum) (address : String) : Prop :=
  ∀ m ∈ b.messages, m.requestId = .ok r.id → m.toRequest = .ok { r with onMainThread := false } ∧ m.sender = address

variable {r : Request Datum} {address : String}

theorem copied_of_unused (h : b.about r.id = []) : b.Copied r address := fun x hx hid =>
  absurd (decide_eq_true (Mail.carried?_of_request hid)) (List.filter_eq_nil_iff.mp h x hx)

theorem Copied.without (h : b.Copied r address) (number : Nat) : (b.without number).Copied r address :=
  fun m hm => h m (List.mem_filter.mp hm).1

theorem Copied.send (h : b.Copied r address) (hm : m.requestId ≠ .ok r.id) : (b.send m).2.Copied r address := by
  refine List.forall_mem_append.mpr ⟨h, fun x hx hid => ?_⟩
  cases List.mem_singleton.mp hx
  exact absurd hid hm

/-- The client sends another copy. -/
theorem Copied.resend (h : b.Copied r address) {endpoint : String} (hm : Mail.ofRequest r address endpoint = .ok m)
    (hr : r.Writable) : (b.send m).2.Copied r address := by
  have hread := Mail.toRequest_ofRequest hm hr
  have hsender : m.sender = address := by
    obtain ⟨_, rfl⟩ := Mail.ofRequest_eq_ok hm
    rfl
  refine List.forall_mem_append.mpr ⟨h, fun x hx _ => ?_⟩
  cases List.mem_singleton.mp hx
  exact ⟨hread, hsender⟩

end Mailbox

namespace Network
variable {budget : Nat} {thread : Option String} {address endpoint server : String} {n n' : Network}
  {r : Request Datum} {m : Mail} {pending : List Mail} {log : List (Request Datum × Answer Datum)}

/-! ## What listeners add -/

theorem answersTo_answered {b : Mailbox} (h : b.Holds (m :: pending)) (hm : m.isRequest = true) (id c : Uuid)
    (a : Answer Datum) : (answered b m endpoint id a).answersTo c = b.answersTo c ++
      if id = c then [{ Mail.ofAnswer id a endpoint m.sender with id := b.lastId + 1 }] else [] := by
  have hnone : m.answered? ≠ some c := by simp [Mail.answered?_of_request hm]
  have hsent := h.send (Mail.ofAnswer id a endpoint m.sender)
  rw [answered, Mailbox.answersTo_without_other hsent.numbered (hsent.there m List.mem_cons_self) hnone,
    Mailbox.answersTo_send, Mail.answered?_ofAnswer]
  simp only [Option.some.injEq]

theorem copied_answered {b : Mailbox} (h : b.Copied r address) (m : Mail) (id : Uuid) (a : Answer Datum) :
    (answered b m endpoint id a).Copied r address := by
  refine (h.send fun hid => ?_).without m.id
  have hresponse : (Mail.ofAnswer id a endpoint m.sender).isResponse = true :=
    Mail.isPrefixOf_of_idBehind (Mail.answerId_ofAnswer id a endpoint m.sender)
  exact Bool.false_ne_true ((Mail.not_isResponse (Mail.isPrefixOf_of_idBehind hid)).symm.trans hresponse)

/-- The message tells the client what the run of a copy of its request has come to. -/
structure Tells (r : Request Datum) (address : String) (m : Mail) (e : Request Datum × Answer Datum) : Prop where
  copy : e.1 = { r with onMainThread := false }
  answer : m.toAnswer = .ok (r.id, e.2)
  recipient : m.recipient = address

section
variable {b : Mailbox} (hb : b.Holds (m :: pending)) (hm : m.isRequest = true) (hcopied : b.Copied r address)
include hb hm hcopied

variable (endpoint) in
/-- The answer to a request is added for the client if the request is a copy. -/
theorem answered_adds {asked : Request Datum} {a : Answer Datum} (hread : m.toRequest = .ok asked) (ha : a.Writable) :
    ∃ new, (answered b m endpoint asked.id a).answersTo r.id = b.answersTo r.id ++ new ∧
      List.Forall₂ (Tells r address) new ([(asked, a)].filter (·.1.id = r.id)) := by
  refine ⟨_, answersTo_answered hb hm _ _ _, ?_⟩
  have hid : m.requestId = .ok asked.id := (Mail.toRequest_eq_ok hread).1
  by_cases hsame : asked.id = r.id
  · obtain ⟨hread', hsender⟩ := hcopied m (hb.there m List.mem_cons_self) (hsame ▸ hid)
    have htold := Mail.toAnswer_ofAnswer ha asked.id endpoint m.sender
    have hkept : [(asked, a)].filter (·.1.id = r.id) = [(asked, a)] := by simp [hsame]
    rw [if_pos hsame, hkept]
    exact .cons ⟨Except.ok.inj (hread.symm.trans hread'), hsame ▸ htold, hsender⟩ .nil
  · have hnone : [(asked, a)].filter (·.1.id = r.id) = [] := by simp [hsame]
    rw [if_neg hsame, hnone]
    exact .nil

/-- What cannot be read is no copy. -/
theorem refused_stays {e : Error} (hread : m.toRequest = .error e) : (refused b m endpoint e).Copied r address ∧
    (refused b m endpoint e).answersTo r.id = b.answersTo r.id := by
  have hthere := hb.there m List.mem_cons_self
  unfold refused
  cases hid : m.requestId with
  | error _ =>
    refine ⟨hcopied.without m.id, Mailbox.answersTo_without_other hb.numbered hthere ?_⟩
    simp [Mail.answered?_of_request hm]
  | ok id =>
    have hother : id ≠ r.id := by
      rintro rfl
      cases hread.symm.trans (hcopied m hthere hid).1
    refine ⟨copied_answered hcopied m _ _, (answersTo_answered hb hm _ _ _).trans ?_⟩
    rw [if_neg hother, List.append_nil]

end

/-- A listener that passes by adds an answer for each copy that it runs, in their order. -/
theorem Replies.adds (h : Replies budget thread endpoint server pending n log n') (hn : n.mailbox.Holds pending)
    (hrequests : ∀ m ∈ pending, m.isRequest = true) (hcopied : n.mailbox.Copied r address)
    (hlog : ∀ e ∈ log, e.2.Writable) : n'.mailbox.Copied r address ∧ ∃ new,
      n'.mailbox.answersTo r.id = n.mailbox.answersTo r.id ++ new ∧
      List.Forall₂ (Tells r address) new (log.filter (·.1.id = r.id)) := by
  induction h with
  | done => exact ⟨hcopied, [], (List.append_nil _).symm, .nil⟩
  | @served m rest n n₁ n' asked a log hread hserve _ ih =>
    rw [← serve_mailbox hserve] at hn hcopied ⊢
    obtain ⟨hm, hrest⟩ := List.forall_mem_cons.mp hrequests
    obtain ⟨ha, hlog⟩ := List.forall_mem_cons.mp hlog
    obtain ⟨one, hone, htold⟩ := answered_adds endpoint hn hm hcopied hread ha
    obtain ⟨hcopied', more, hmore, htold'⟩ := ih (holds_answered hn) hrest (copied_answered hcopied m _ _) hlog
    refine ⟨hcopied', one ++ more, ?_, ?_⟩
    · rw [hmore, ← List.append_assoc]
      exact congrArg (· ++ more) hone
    · rw [← List.singleton_append, List.filter_append]
      exact List.rel_append htold htold'
  | @refused m rest n n' e log hread _ ih =>
    obtain ⟨hm, hrest⟩ := List.forall_mem_cons.mp hrequests
    obtain ⟨hcopied', hsame⟩ := refused_stays hn hm hcopied hread
    obtain ⟨hlater, new, hnew, htold⟩ := ih (holds_refused hn) hrest hcopied' hlog
    exact ⟨hlater, new, hsame ▸ hnew, htold⟩

theorem Replies.log_answered (h : Replies budget thread endpoint server pending n log n') :
    ∀ e ∈ log, ∃ s t, Server.answer e.1 budget thread s = some (.ok e.2, t) := by
  induction h with
  | done => nofun
  | served _ hserve _ ih =>
    obtain ⟨s, t, _, hanswer, _⟩ := serve_eq_ok hserve
    exact List.forall_mem_cons.mpr ⟨⟨s, t, hanswer⟩, ih⟩
  | refused _ _ ih => exact ih

/-! ## While the client waits -/

/-- What others do while a client waits for the answer to its request: they send what carries other ids, take the answers
to other requests, use the servers otherwise, and pass by as listeners. What listeners ran is on record, each request with
its answer. -/
inductive Acts (r : Request Datum) : Network → List (Request Datum × Answer Datum) → Network → Prop
  | rest {n : Network} : Acts r n [] n
  | send {n n₁ n₂ : Network} {log : List (Request Datum × Answer Datum)} {m : Mail} {number : Nat} :
    m.carried? ≠ some r.id → Network.send m n = some (.ok number, n₁) → Acts r n₁ log n₂ → Acts r n log n₂
  | look {n n₁ n₂ : Network} {log : List (Request Datum × Answer Datum)} {address : String} {id : Uuid}
    {found : Option (Answer Datum)} :
    id ≠ r.id → takeAnswer address id n = some (.ok found, n₁) → Acts r n₁ log n₂ → Acts r n log n₂
  | serve {n n₁ n₂ : Network} {log : List (Request Datum × Answer Datum)} :
    n₁.mailbox = n.mailbox → n₁.Tidy → Acts r n₁ log n₂ → Acts r n log n₂
  | listen {n n₁ n₂ : Network} {runs log : List (Request Datum × Answer Datum)} {budget : Nat} {thread : Option String}
    {endpoint server : String} {report : PollReport} :
    poll budget thread endpoint server n = some (.ok report, n₁) →
    Replies budget thread endpoint server ((n.mailbox.addressedTo endpoint).filter (·.isRequest)) n runs n₁ →
    (∀ e ∈ runs, ((Wire.answer Wire.datum).encode e.2).length < UInt64.size) → Acts r n₁ log n₂ →
    Acts r n (runs ++ log) n₂

/-- An answer has been added for each copy that was run, in their order. -/
theorem Acts.adds (h : Acts r n log n') (hnumbered : n.mailbox.Numbered) (htidy : n.Tidy)
    (hcopied : n.mailbox.Copied r address) : ∃ new, n'.mailbox.answersTo r.id = n.mailbox.answersTo r.id ++ new ∧
      List.Forall₂ (Tells r address) new (log.filter (·.1.id = r.id)) := by
  induction h with
  | rest => exact ⟨[], (List.append_nil _).symm, .nil⟩
  | @send n _ _ _ m _ hother hsend _ ih =>
    cases hsend
    have hanswered : m.answered? ≠ some r.id := fun he => hother (Mail.carried?_of_answered? he)
    have hsame : (n.mailbox.send m).2.answersTo r.id = n.mailbox.answersTo r.id := by
      rw [Mailbox.answersTo_send, if_neg hanswered, List.append_nil]
    obtain ⟨new, hnew, htold⟩ := ih (hnumbered.send m) htidy (hcopied.send fun he => hother (Mail.carried?_of_request he))
    exact ⟨new, hsame ▸ hnew, htold⟩
  | @look n _ _ _ place id _ hother hlook _ ih =>
    cases hfound : answerIn? id (n.mailbox.addressedTo place) with
    | none =>
      cases (takeAnswer_none hfound).symm.trans hlook
      exact ih hnumbered htidy hcopied
    | some p =>
      obtain ⟨m, hm, _, hread, hnumber⟩ := answerIn?_eq_some hfound
      cases (takeAnswer_some hfound).symm.trans hlook
      have hanswered : m.answered? ≠ some r.id := by
        rw [Mail.answered?_of_toAnswer hread]
        exact fun he => hother (Option.some.inj he)
      have hsame := Mailbox.answersTo_without_other hnumbered (List.mem_filter.mp hm).1 hanswered
      rw [hnumber] at hsame
      obtain ⟨new, hnew, htold⟩ := ih (hnumbered.without _) htidy (hcopied.without _)
      exact ⟨new, hsame ▸ hnew, htold⟩
  | serve hmailbox htidy' _ ih => exact hmailbox ▸ ih (hmailbox ▸ hnumbered) htidy' (hmailbox ▸ hcopied)
  | @listen _ _ _ _ _ _ _ endpoint _ _ _ hreplies hsize _ ih =>
    have hholds := Mailbox.Holds.of_addressed hnumbered endpoint
    obtain ⟨htidy', hordered⟩ := hreplies.ordered htidy
    obtain ⟨hcopied', new, hnew, htold⟩ := hreplies.adds hholds (fun m hm => (List.mem_filter.mp hm).2) hcopied
      fun e he => ⟨hordered e he, hsize e he⟩
    obtain ⟨more, hmore, htold'⟩ := ih (hreplies.numbered hholds) htidy' hcopied'
    refine ⟨new ++ more, ?_, ?_⟩
    · rw [hmore, hnew, List.append_assoc]
    · rw [List.filter_append]
      exact List.rel_append htold htold'

/-- What was run while a client waited, servers have answered. -/
theorem Acts.log_answered (h : Acts r n log n') :
    ∀ e ∈ log, ∃ budget thread s t, Server.answer e.1 budget thread s = some (.ok e.2, t) := by
  induction h with
  | rest => nofun
  | send _ _ _ ih | look _ _ _ ih | serve _ _ _ ih => exact ih
  | listen _ hreplies _ _ ih =>
    exact List.forall_mem_append.mpr ⟨fun e he => ⟨_, _, hreplies.log_answered e he⟩, ih⟩

/-! ## The answer that is found -/

theorem takeAnswer_first {a : Answer Datum} {c : Uuid} {rest : List Mail} (h : n.mailbox.answersTo c = m :: rest)
    (hread : m.toAnswer = .ok (c, a)) (hrecipient : m.recipient = address) :
    takeAnswer address c n = some (.ok (some a), n.withMailbox (n.mailbox.without m.id)) := by
  obtain ⟨front, back, hmessages, hfront, _, _⟩ := List.filter_eq_cons_iff.mp h
  refine takeAnswer_some ?_
  have hnone : answerIn? c (front.filter (·.recipient = address)) = none := by
    refine Option.eq_none_iff_forall_ne_some.mpr fun p hp => ?_
    obtain ⟨x, hx, _, hread', _⟩ := answerIn?_eq_some hp
    exact hfront x (List.mem_filter.mp hx).1 (decide_eq_true (Mail.answered?_of_toAnswer hread'))
  have hresponse : m.isResponse = true := Mail.isResponse_of_answered? (Mail.answered?_of_toAnswer hread)
  have hfound : answerIn? c (m :: back.filter (·.recipient = address)) = some (m.id, a) := by
    rw [answerIn?, List.filter_cons_of_pos hresponse, List.findSome?_cons, hread]
    dsimp only
    rw [if_pos rfl]
  rw [Mailbox.addressedTo, hmessages, List.filter_append, List.filter_cons_of_pos (by rwa [decide_eq_true_eq]),
    answerIn?_append, hnone, hfound]
  rfl

end Network

end MobileCode
