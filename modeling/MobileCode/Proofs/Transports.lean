import MobileCode.Proofs.Mailboxes

/-! # The two transports

By mail a request is left in the mailbox, found there by a listener, and its answer is left and found in turn. Where the
way is clear, this is the same as to hand the request to the server: the same answer travels, the server is left alike,
and no message remains.
-/
namespace MobileCode

namespace Server
variable {r : Request Datum} {budget : Nat} {s : Server}

/-- On all threads the same answer travels. -/
theorem answer_anonymous (hordered : ∀ v ∈ r.params ++ r.nonLocals, v.value.Ordered) (hmain : r.onMainThread = false)
    (hs : s.domain.heap.Ordered) (h : Anonymous r budget s) (thread thread' : Option String) :
    answer r budget thread s = answer r budget thread' s := by
  obtain ⟨hparams, hnonLocals⟩ := List.forall_mem_append.mp hordered
  rw [answer, answer, Run.bind_apply, Run.bind_apply, execute_anonymous hparams hnonLocals hmain hs h thread thread']

end Server

namespace Network
variable {n : Network} {budget : Nat} {thread : Option String} {address endpoint server : String} {s : Server}

/-- The way is clear for a request: the listener at the endpoint has a server that can be reached, no request waits there,
and no answer with the id of this one has been left. Neither the request nor its answer is too long to be written, and to
run it nobody asks for the name of the thread. -/
structure Clear (n : Network) (budget : Nat) (address endpoint server : String) (s : Server) (r : Request Datum) : Prop where
  server : n.servers.find? server = some s
  ordered : s.domain.heap.Ordered
  numbered : n.mailbox.Numbered
  idle : ∀ m ∈ n.mailbox.addressedTo endpoint, m.isRequest = false
  unanswered : answerIn? r.id (n.mailbox.addressedTo address) = none
  mailable : Mail.unmailable? r = none
  writable : r.Writable
  threadless : r.onMainThread = false
  anonymous : Server.Anonymous r budget s
  size : ∀ a t, Server.answer r budget none s = some (.ok a, t) →
    ((Wire.answer Wire.datum).encode a).length < UInt64.size

theorem Clear.answer_writable {r : Request Datum} (h : n.Clear budget address endpoint server s r) {a : Answer Datum}
    {t : Server} (hanswer : Server.answer r budget none s = some (.ok a, t)) : a.Writable := by
  obtain ⟨hparams, hnonLocals⟩ := List.forall_mem_append.mp h.writable.ordered
  exact ⟨(Server.answer_ordered hparams hnonLocals h.ordered hanswer).2 a rfl, h.size a t hanswer⟩

theorem answerIn?_append (c : Uuid) (mail mail' : List Mail) :
    answerIn? c (mail ++ mail') = (answerIn? c mail).or (answerIn? c mail') := by
  rw [answerIn?, List.filter_append, List.findSome?_append]
  rfl

theorem ofRequest_of_mailable {r : Request Datum} (h : Mail.unmailable? r = none) (sender recipient : String) :
    ∃ m, Mail.ofRequest r sender recipient = .ok m := by
  unfold Mail.ofRequest
  rw [h]
  exact ⟨_, rfl⟩

/-- The mailbox when a message has been sent and taken out again. -/
def spent (b : Mailbox) : Mailbox := { b with lastId := b.lastId + 1 }

section
variable {b : Mailbox} (hb : b.Numbered)
include hb

theorem spent_numbered : (spent b).Numbered := ⟨hb.ascending, fun x hx => Nat.le_succ_of_le (hb.below x hx)⟩

theorem send_without (m : Mail) : (b.send m).2.without (b.lastId + 1) = spent b := by
  have hold : b.messages.filter (·.id ≠ b.lastId + 1) = b.messages :=
    List.filter_eq_self.mpr fun x hx => decide_eq_true (Nat.ne_of_lt (Nat.lt_succ_of_le (hb.below x hx)))
  rw [Mailbox.without, Mailbox.send, List.filter_append, hold, List.filter_cons_of_neg (by simp), List.filter_nil,
    List.append_nil]
  rfl

/-- The answer to the last message is left in its place. -/
theorem answered_last (m : Mail) (id : Uuid) (a : Answer Datum) :
    answered (b.send m).2 { m with id := b.lastId + 1 } endpoint id a =
      ((spent b).send (Mail.ofAnswer id a endpoint m.sender)).2 := by
  rw [← send_without hb m, answered, Mailbox.without, Mailbox.send, List.filter_append, List.filter_cons_of_pos]
  · rfl
  · exact decide_eq_true (Nat.succ_ne_self _)

/-- The answer is taken, and the mailbox is as it was before. -/
theorem takeAnswer_last {c : Uuid} {a : Answer Datum} (ha : a.Writable)
    (hunanswered : answerIn? c (b.addressedTo address) = none) (endpoint : String) :
    takeAnswer address c (n.withMailbox (b.send (Mail.ofAnswer c a endpoint address)).2) =
      some (.ok (some a), n.withMailbox (spent b)) := by
  have hlast : answerIn? c [{ Mail.ofAnswer c a endpoint address with id := b.lastId + 1 }] = some (b.lastId + 1, a) :=
    answerIn?_eq (List.mem_singleton.mpr rfl)
      (Mail.isPrefixOf_of_idBehind (Mail.answerId_ofAnswer c a endpoint address))
      (Mail.toAnswer_ofAnswer ha c endpoint address) fun x hx _ => List.mem_singleton.mp hx
  have hfound : answerIn? c ((b.send (Mail.ofAnswer c a endpoint address)).2.addressedTo address) =
      some (b.lastId + 1, a) := by
    have hto : (Mail.ofAnswer c a endpoint address).recipient = address := rfl
    rw [Mailbox.addressedTo_send, if_pos hto, answerIn?_append, hunanswered, hlast]
    rfl
  refine (takeAnswer_some (n := n.withMailbox (b.send (Mail.ofAnswer c a endpoint address)).2) hfound).trans ?_
  exact congrArg (fun b => some (Except.ok (some a), n.withMailbox b)) (send_without hb _)

end

section
variable {r : Request Datum} (h : n.Clear budget address endpoint server s r) {m : Mail}
  (hm : Mail.ofRequest r address endpoint = .ok m)
include h hm

/-- The listener at the endpoint finds the request that has been sent, and nothing else. -/
theorem pending_sent : ((n.mailbox.send m).2.addressedTo endpoint).filter (·.isRequest) =
    [{ m with id := n.mailbox.lastId + 1 }] := by
  have hrequest : m.isRequest = true := Mail.isPrefixOf_of_idBehind (Mail.requestId_ofRequest hm)
  have hrecipient : m.recipient = endpoint := by
    obtain ⟨_, rfl⟩ := Mail.ofRequest_eq_ok hm
    rfl
  have hidle : (n.mailbox.addressedTo endpoint).filter (·.isRequest) = [] :=
    List.filter_eq_nil_iff.mpr fun m hm => Bool.eq_false_iff.mp (h.idle m hm)
  rw [Mailbox.addressedTo_send, if_pos hrecipient, List.filter_append, hidle, List.nil_append]
  exact List.filter_cons_of_pos hrequest

theorem poll_sent : poll budget thread endpoint server (n.withMailbox (n.mailbox.send m).2) =
    answerAll budget thread endpoint server [{ m with id := n.mailbox.lastId + 1 }] {}
      (n.withMailbox (n.mailbox.send m).2) := by
  unfold poll
  rw [Run.get_bind]
  exact congrArg (fun mail => answerAll budget thread endpoint server mail {} _) (pending_sent h hm)

theorem toRequest_sent : ({ m with id := n.mailbox.lastId + 1 } : Mail).toRequest = .ok r := by
  have hread := Mail.toRequest_ofRequest hm h.writable
  rw [← h.threadless] at hread
  exact hread

omit hm in
theorem serve_sent (thread : Option String) (b : Mailbox) : serve budget thread server r (n.withMailbox b) =
    (Server.answer r budget none s).map fun p => (p.1, { n with servers := n.servers.insert server p.2, mailbox := b }) := by
  have hthread := Server.answer_anonymous h.writable.ordered h.threadless h.ordered h.anonymous thread none
  rw [← hthread]
  exact serve_eq (n := n.withMailbox b) h.server

theorem poll_sent_none (hanswer : Server.answer r budget none s = none) :
    poll budget thread endpoint server (n.withMailbox (n.mailbox.send m).2) = none := by
  have hserve := serve_sent h thread (n.mailbox.send m).2
  rw [hanswer] at hserve
  rw [poll_sent h hm, answerAll, Run.bind_apply, answerMail_none (toRequest_sent h hm) hserve]

/-- It leaves the answer in the place of the request. -/
theorem poll_sent_answered {a : Answer Datum} {t : Server} (hanswer : Server.answer r budget none s = some (.ok a, t)) :
    poll budget thread endpoint server (n.withMailbox (n.mailbox.send m).2) =
      some (.ok { processed := 1 }, ({ n with servers := n.servers.insert server t } : Network).withMailbox
        ((spent n.mailbox).send (Mail.ofAnswer r.id a endpoint address)).2) := by
  have hserve := serve_sent h thread (n.mailbox.send m).2
  rw [hanswer, Option.map_some] at hserve
  have hsender : m.sender = address := by
    obtain ⟨_, rfl⟩ := Mail.ofRequest_eq_ok hm
    rfl
  have hthere : { m with id := n.mailbox.lastId + 1 } ∈ (n.mailbox.send m).2.messages :=
    List.mem_append_right _ (List.mem_singleton.mpr rfl)
  rw [poll_sent h hm, answerAll, Run.bind_apply, answerMail_served hthere (toRequest_sent h hm) hserve]
  show some (_, _) = _
  rw [withMailbox, answered_last h.numbered m r.id a, hsender]
  rfl

end

theorem exchange_eq {r : Request Datum} (h : n.Clear budget address endpoint server s r) (limit : Option Duration) :
    MailChannel.exchange ⟨address, endpoint, true⟩ (do let _ ← poll budget thread endpoint server) r limit n =
      (serve budget none server r n).map fun p => (p.1, p.2.withMailbox { n.mailbox with lastId := n.mailbox.lastId + 2 }) := by
  obtain ⟨m, hm⟩ := ofRequest_of_mailable h.mailable address endpoint
  unfold MailChannel.exchange
  simp only [Bool.not_true, Bool.false_eq_true, if_false, hm, bind_assoc, pure_bind, Run.ofExcept_ok]
  have hsend : send m n = some (.ok (n.mailbox.lastId + 1), n.withMailbox (n.mailbox.send m).2) := rfl
  rw [Run.bind_apply, hsend]
  dsimp only
  rw [Run.bind_apply, serve_eq h.server]
  cases hanswer : Server.answer r budget none s with
  | none =>
    rw [poll_sent_none h hm hanswer]
    rfl
  | some p =>
    obtain ⟨outcome, t⟩ := p
    obtain ⟨_, a, _, _, rfl⟩ := Server.answer_eq_some hanswer
    rw [poll_sent_answered h hm hanswer]
    dsimp only
    rw [Run.bind_apply, takeAnswer_last (spent_numbered h.numbered) (h.answer_writable hanswer) h.unanswered endpoint]
    rfl

/-- Over open channels a request is exchanged by mail as directly, with whatever it carries. Afterwards two numbers have
been used, and nothing else differs. -/
theorem exchange_by_mail {heap : Heap} {r : Request Value}
    (h : ∀ sent, r.snapshot? heap = some sent → n.Clear budget address endpoint server s sent) (bound : String)
    (limit limit' : Option Duration) :
    (byMail address (do let _ ← poll budget thread endpoint server)).exchange (⟨address, endpoint, true⟩ : MailChannel)
        heap r limit n =
      ((direct budget).exchange (⟨bound, server, true⟩ : DirectChannel) heap r limit' n).map fun p =>
        (p.1, p.2.withMailbox { n.mailbox with lastId := n.mailbox.lastId + 2 }) := by
  show (r.outward heap >>= fun sent => MailChannel.exchange _ _ sent limit : Run Network (Answer Datum)) n =
    Option.map _ ((r.outward heap >>= fun sent => DirectChannel.exchange budget _ sent : Run Network (Answer Datum)) n)
  rw [Request.outward_eq_snapshot?, Run.bind_apply, Run.bind_apply]
  cases hsent : r.snapshot? heap with
  | none => rfl
  | some sent => exact exchange_eq (h sent hsent) limit

end Network

namespace meter

open Server in
/-- The server finds the module and runs it without a question for the thread. -/
theorem shelf_answers : ∃ u, Anonymous raise 10 shelf ∧
    answer raise 10 none shelf = some (.ok (.completed (.int32 6) [level 6, level 6]), u) := by
  obtain ⟨l, d, b, v, u, hregister, hmute, hinvoke⟩ : ∃ l d b v u,
      shelf.domain.register copy copy.toFile (some "Meter") = .ok (l, d) ∧
      invoke raise (muteHost raise l) (Machine.runner { host := muteHost raise l } 10) ⟨d, found l⟩ = some (b, v) ∧
      invoke raise (hostFor raise none l) (Machine.runner { host := hostFor raise none l } 10) ⟨d, found l⟩ =
        some (.ok (.completed (.int32 6) [(level 6).withValue (.int32 6), (level 6).withValue (.int32 6)]), u) :=
    ⟨_, _, _, _, _, rfl, rfl, rfl⟩
  obtain ⟨_, hfind⟩ := shelf_finds hregister
  have hsnapshot (heap : Heap) : Answer.snapshot? heap
      (.completed (.int32 6) [(level 6).withValue (.int32 6), (level 6).withValue (.int32 6)]) =
        some (.completed (.int32 6) [level 6, level 6]) := rfl
  refine ⟨u, ?_, ?_⟩
  · rw [Anonymous, serveOn, Run.bind_apply, hfind]
    dsimp only
    rw [hmute]
    nofun
  · rw [answer, Run.bind_apply, execute_found hfind hinvoke]
    dsimp only
    rw [State.getHeap_bind, Answer.outward_eq_snapshot?, hsnapshot]
    rfl

/-- The request before it travels. -/
def asking : Request Value where
  id := raise.id
  file := raise.file
  hash := raise.hash
  type := raise.type
  method := raise.method
  nonLocals := [(level 3).withValue (.int32 3), (level 5).withValue (.int32 5)]

/-- The server and a mailbox with a message that is neither a request nor an answer. -/
def office : Network where
  servers := [("desk", shelf)]
  mailbox := ⟨4, [{ id := 2, sender := "porter", recipient := "desk", subject := "Keys", body := "found" }]⟩

theorem office_clear : office.Clear 10 "home" "desk" "desk" shelf raise where
  server := rfl
  ordered := fun ⟨i⟩ o ho => by cases ho
  numbered := ⟨List.pairwise_singleton _ _, by simp [office]⟩
  idle := by decide +kernel
  unanswered := by rfl
  mailable := Mail.unmailable?_eq_none.mpr (by decide)
  writable := ⟨by simp [raise, level, Datum.Ordered], by decide +kernel, by decide +kernel⟩
  threadless := rfl
  anonymous := shelf_answers.elim fun _ h => h.1
  size a t h := by
    obtain ⟨u, _, hanswer⟩ := shelf_answers
    cases h.symm.trans hanswer
    decide +kernel

end meter

open meter in
/-- By mail the meter is raised as it is directly. -/
theorem meter_raised_by_mail : ∃ u : Server,
    (Network.byMail "home" (do let _ ← Network.poll 10 (some "mail") "desk" "desk")).exchange
        (⟨"home", "desk", true⟩ : Network.MailChannel) {} asking none office =
      some (.ok (.completed (.int32 6) [level 6, level 6]),
        { office with servers := [("desk", u)], mailbox := ⟨6, office.mailbox.messages⟩ }) := by
  have hsent : asking.snapshot? {} = some raise := rfl
  have hclear : ∀ sent, asking.snapshot? {} = some sent → office.Clear 10 "home" "desk" "desk" shelf sent := by
    intro sent h
    cases h.symm.trans hsent
    exact office_clear
  obtain ⟨u, _, hanswer⟩ := shelf_answers
  refine ⟨u, (Network.exchange_by_mail hclear "desk" none none).trans ?_⟩
  have hdirect : (Network.direct 10).exchange (⟨"desk", "desk", true⟩ : Network.DirectChannel) {} asking none office =
      Network.serve 10 none "desk" raise office := by
    show (asking.outward {} >>= fun sent => Network.DirectChannel.exchange 10 _ sent : Run Network (Answer Datum)) office = _
    rw [Request.outward_eq_snapshot?, hsent]
    rfl
  rw [hdirect, Network.serve_eq office_clear.server, hanswer]
  rfl

end MobileCode
