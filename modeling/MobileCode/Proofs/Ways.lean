import MobileCode.Proofs.Awaiting

/-! # Answers over the two transports

A request that is handed over to a server, and one that a listener finds in the mailbox, come to the same: a server runs
it, and what it has answered comes back over the channel.
-/
namespace MobileCode

namespace Network

/-- How requests come to servers: handed over, or by mail while others act. -/
inductive Way
  | direct (budget : Nat)
  | mail (address : String) (others : Run Network Unit)

namespace Way

def transport : Way → Transport Network
  | direct budget => Network.direct budget
  | mail address others => byMail address others

/-- What a server is given to run: by mail the flag for the main thread stays behind. -/
def received : Way → Request Datum → Request Datum
  | direct _, r => r
  | mail .., r => { r with onMainThread := false }

/-- A request to an endpoint is answered by a server. By mail the names of the request can travel, and with an id that
nothing else carries it is run by a listener while others act. -/
inductive Answers : Way → String → Request Datum → Answer Datum → Network → Network → Prop
  | direct {budget : Nat} {endpoint server : String} {r : Request Datum} {a : Answer Datum} {n n' : Network} :
    n.bindings.find? endpoint = some server → serve budget none server r n = some (.ok a, n') →
    Answers (direct budget) endpoint r a n n'
  | mail {address endpoint : String} {others : Run Network Unit} {r : Request Datum} {a : Answer Datum} {n n₁ : Network}
    {m first : Mail} {later : List Mail} {log more : List (Request Datum × Answer Datum)} :
    Mail.ofRequest r address endpoint = .ok m → r.Writable → n.mailbox.Numbered → n.Tidy → n.mailbox.Copied r address →
    n.mailbox.answersTo r.id = [] → others (n.withMailbox (n.mailbox.send m).2) = some (.ok (), n₁) →
    Acts r (n.withMailbox (n.mailbox.send m).2) log n₁ →
    log.filter (·.1.id = r.id) = ({ r with onMainThread := false }, a) :: more →
    n₁.mailbox.answersTo r.id = first :: later →
    Answers (mail address others) endpoint r a n (n₁.withMailbox (n₁.mailbox.without first.id))

theorem exchange_mailed {address endpoint : String} {others : Run Network Unit} {r : Request Datum} {a : Answer Datum}
    {n n' : Network} (h : (mail address others).Answers endpoint r a n n') (limit : Option Duration) :
    MailChannel.exchange ⟨address, endpoint, true⟩ others r limit n = some (.ok a, n') := by
  cases h with
  | @mail _ _ _ _ _ _ n₁ m first _ _ _ hm hwritable hnumbered htidy hcopied hnone hothers hacts hran hfirst =>
    have hrequest : m.isRequest = true := Mail.isPrefixOf_of_idBehind (Mail.requestId_ofRequest hm)
    have hunanswered : (n.mailbox.send m).2.answersTo r.id = [] := by
      rw [Mailbox.answersTo_send, hnone, Mail.answered?_of_request hrequest]
      rfl
    obtain ⟨new, hnew, htold⟩ := hacts.adds (hnumbered.send m) htidy (hcopied.resend hm hwritable)
    replace hnew : first :: _ = [] ++ new := hfirst.symm.trans (hunanswered ▸ hnew)
    cases hnew
    rw [hran] at htold
    cases htold with
    | cons htells _ =>
      have hsend : send m n = some (.ok (n.mailbox.lastId + 1), n.withMailbox (n.mailbox.send m).2) := rfl
      have htake := takeAnswer_first hfirst htells.answer htells.recipient
      unfold MailChannel.exchange
      simp only [Bool.not_true, Bool.false_eq_true, if_false, hm, pure_bind, Run.ofExcept_ok]
      rw [Run.bind_apply, hsend]
      dsimp only
      rw [Run.bind_apply, hothers]
      dsimp only
      rw [Run.bind_apply, htake]
      rfl

/-- The server that a channel to the endpoint is bound to. -/
def bound : Way → String → Network → Option String
  | direct _, endpoint, n => n.bindings.find? endpoint
  | mail .., _, _ => none

variable {w : Way} {endpoint : String} {r : Request Datum} {a : Answer Datum} {n n' : Network}

theorem Answers.bound (h : w.Answers endpoint r a n n') : w.bound endpoint n' = w.bound endpoint n := by
  cases h with
  | direct _ hserve =>
    obtain ⟨_, _, _, _, rfl⟩ := serve_eq_ok hserve
    rfl
  | mail => rfl

/-- Where the way is clear and nothing carries the id of the request yet, a listener that passes by has it answered. -/
theorem answers_of_clear {budget : Nat} {address server : String} {s s' : Server}
    (h : n.Clear budget address endpoint server s r) (htidy : n.Tidy) (hnew : n.mailbox.about r.id = [])
    (hanswer : Server.answer r budget none s = some (.ok a, s')) (thread : Option String) :
    ∃ n', (mail address (do let _ ← poll budget thread endpoint server)).Answers endpoint r a n n' := by
  obtain ⟨m, hm⟩ := ofRequest_of_mailable h.mailable address endpoint
  let told := Mail.ofAnswer r.id a endpoint address
  let served : Network := ({ n with servers := n.servers.insert server s' } : Network).withMailbox
    ((spent n.mailbox).send told).2
  have hpoll : poll budget thread endpoint server (n.withMailbox (n.mailbox.send m).2) =
      some (.ok { processed := 1 }, served) := poll_sent_answered h hm hanswer
  have hothers : (do let _ ← poll budget thread endpoint server : Run Network Unit)
      (n.withMailbox (n.mailbox.send m).2) = some (.ok (), served) := by
    rw [Run.bind_apply, hpoll]
    rfl
  have hacts : Acts r (n.withMailbox (n.mailbox.send m).2) ([(r, a)] ++ []) served :=
    .listen hpoll (Correspondence.replies_sent h hm hanswer thread)
      (List.forall_mem_singleton.mpr (h.answer_writable hanswer).size) .rest
  have hcopy : { r with onMainThread := false } = r := by
    rw [← h.threadless]
  have hran : [(r, a)].filter (·.1.id = r.id) = [({ r with onMainThread := false }, a)] := by
    rw [hcopy]
    exact List.filter_cons_of_pos (decide_eq_true rfl)
  have hfirst : served.mailbox.answersTo r.id = [{ told with id := n.mailbox.lastId + 1 + 1 }] := by
    have hsent := Mailbox.answersTo_send (spent n.mailbox) told r.id
    rw [if_pos (Mail.answered?_ofAnswer r.id a endpoint address)] at hsent
    exact hsent.trans (congrArg (· ++ _) (Mailbox.answersTo_of_unused hnew))
  exact ⟨_, .mail hm h.writable h.numbered htidy (Mailbox.copied_of_unused hnew) (Mailbox.answersTo_of_unused hnew) hothers
    hacts hran hfirst⟩

/-- A channel to the endpoint can be opened, and what is answered to a request comes back over it. -/
theorem Answers.opens (h : w.Answers endpoint r a n n') : ∃ made channel,
    w.transport.connect endpoint n = some (.ok made, n) ∧ w.transport.start made n = some (.ok channel, n) ∧
    (∀ x, (w.transport.abort channel x).2 = x) ∧
    ∀ x y heap (asked : Request Value) sent b limit, w.bound endpoint x = w.bound endpoint n →
      asked.snapshot? heap = some sent → w.Answers endpoint sent b x y →
        w.transport.exchange channel heap asked limit x = some (.ok b, y) := by
  cases h with
  | @direct budget _ server _ _ _ _ hbound =>
    refine ⟨(⟨endpoint, server, false⟩ : DirectChannel), (⟨endpoint, server, true⟩ : DirectChannel), ?_, rfl,
      fun _ => rfl, fun x y heap asked sent b limit hsame hsent hanswers => ?_⟩
    · simp only [Way.transport, Network.direct]
      rw [Run.get_bind, hbound]
      rfl
    · cases hanswers with
      | direct hbound' hserve =>
        cases hbound.symm.trans (hsame.symm.trans hbound')
        show (asked.outward heap >>= fun sent => DirectChannel.exchange budget _ sent : Run Network (Answer Datum)) x = _
        rw [Request.outward_eq_snapshot?, hsent]
        exact hserve
  | @mail address _ others =>
    refine ⟨(⟨address, endpoint, false⟩ : MailChannel), (⟨address, endpoint, true⟩ : MailChannel), rfl, rfl,
      fun _ => rfl, fun x y heap asked sent b limit _ hsent hanswers => ?_⟩
    show (asked.outward heap >>= fun sent => MailChannel.exchange _ _ sent limit : Run Network (Answer Datum)) x = _
    rw [Request.outward_eq_snapshot?, hsent]
    exact exchange_mailed hanswers limit

/-- What a server answers it has answered to what it was given to run. -/
theorem Answers.served (h : w.Answers endpoint r a n n') : ∃ budget thread s t,
    Server.answer (w.received r) budget thread s = some (.ok a, t) := by
  cases h with
  | direct _ hserve =>
    obtain ⟨s, t, _, hanswer, _⟩ := serve_eq_ok hserve
    exact ⟨_, _, s, t, hanswer⟩
  | mail _ _ _ _ _ _ _ hacts hran =>
    obtain ⟨front, back, rfl, _⟩ := List.filter_eq_cons_iff.mp hran
    have hserved := hacts.log_answered _ (List.mem_append_right front List.mem_cons_self)
    exact hserved

end Way
end Network

end MobileCode
