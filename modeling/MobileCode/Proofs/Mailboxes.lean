import MobileCode.Service.Network
import MobileCode.Proofs.Attempts
import MobileCode.Proofs.Mails
import MobileCode.Proofs.Threads

/-! # A shared mailbox

The numbers of the messages ascend, so a message is deleted alone. A listener takes the requests to its address out of
the mailbox one after the other, runs each that can be read and leaves the answer; a client takes the answer with its id.
What carries another id is left where it is.
-/
namespace MobileCode

/-! ## Messages in a mailbox -/

namespace Mailbox
variable {b : Mailbox} {m : Mail}

/-- The numbers of the messages ascend to the last one given. -/
structure Numbered (b : Mailbox) : Prop where
  ascending : b.messages.Pairwise (·.id < ·.id)
  below : ∀ m ∈ b.messages, m.id ≤ b.lastId

/-- The messages that carry an id. -/
def about (b : Mailbox) (id : Uuid) : List Mail := b.messages.filter (·.carried? = some id)

def without (b : Mailbox) (number : Nat) : Mailbox := { b with messages := b.messages.filter (·.id ≠ number) }

theorem Numbered.send (h : b.Numbered) (m : Mail) : (b.send m).2.Numbered where
  ascending := by
    refine List.pairwise_append.mpr ⟨h.ascending, List.pairwise_singleton _ _, fun x hx y hy => ?_⟩
    cases List.mem_singleton.mp hy
    exact Nat.lt_succ_of_le (h.below x hx)
  below x hx := by
    rcases List.mem_append.mp hx with hx | hx
    · exact Nat.le_succ_of_le (h.below x hx)
    · cases List.mem_singleton.mp hx
      exact Nat.le_refl _

theorem Numbered.without (h : b.Numbered) (number : Nat) : (b.without number).Numbered where
  ascending := h.ascending.filter _
  below x hx := h.below x (List.mem_filter.mp hx).1

theorem Numbered.eq_of_id (h : b.Numbered) {m' : Mail} (hm : m ∈ b.messages) (hm' : m' ∈ b.messages)
    (hid : m.id = m'.id) : m = m' := by
  have hdistinct : (b.messages.map (·.id)).Nodup := List.pairwise_map.mpr (h.ascending.imp Nat.ne_of_lt)
  exact List.inj_on_of_nodup_map hdistinct hm hm' hid

theorem delete_eq (hm : m ∈ b.messages) : b.delete m.id = .ok (b.without m.id) := by
  have hfound : (b.message? m.id).isSome = true := List.find?_isSome.mpr ⟨m, hm, decide_eq_true rfl⟩
  rw [delete, if_pos hfound]
  rfl

theorem eq_of_about {id : Uuid} (h : b.about id = [m]) {x : Mail} (hx : x ∈ b.messages) (hid : x.carried? = some id) :
    x = m := by
  have hmem : x ∈ b.about id := List.mem_filter.mpr ⟨hx, decide_eq_true hid⟩
  rw [h] at hmem
  exact List.mem_singleton.mp hmem

theorem about_send (b : Mailbox) (m : Mail) (id : Uuid) : (b.send m).2.about id =
    b.about id ++ if m.carried? = some id then [{ m with id := b.lastId + 1 }] else [] := by
  rw [about, send, List.filter_append]
  congr 1
  split
  · rename_i h
    exact List.filter_cons_of_pos (decide_eq_true h)
  · rename_i h
    exact List.filter_cons_of_neg (by rwa [decide_eq_true_eq])

theorem addressedTo_send (b : Mailbox) (m : Mail) (recipient : String) : (b.send m).2.addressedTo recipient =
    b.addressedTo recipient ++ if m.recipient = recipient then [{ m with id := b.lastId + 1 }] else [] := by
  rw [addressedTo, send, List.filter_append]
  congr 1
  split
  · rename_i h
    exact List.filter_cons_of_pos (decide_eq_true h)
  · rename_i h
    exact List.filter_cons_of_neg (by rwa [decide_eq_true_eq])

theorem about_without (b : Mailbox) (number : Nat) (id : Uuid) :
    (b.without number).about id = (b.about id).filter (·.id ≠ number) := by
  rw [about, without, List.filter_filter, about, List.filter_filter]
  exact List.filter_congr fun _ _ => Bool.and_comm _ _

/-- A message that is taken out leaves those that carry other ids. -/
theorem about_without_other (h : b.Numbered) (hm : m ∈ b.messages) {id : Uuid} (hid : m.carried? ≠ some id) :
    (b.without m.id).about id = b.about id := by
  rw [about_without, List.filter_eq_self]
  intro x hx
  obtain ⟨hx, hcarried⟩ := List.mem_filter.mp hx
  refine decide_eq_true fun hsame => hid ?_
  rw [← h.eq_of_id hx hm hsame]
  exact of_decide_eq_true hcarried

end Mailbox

/-! ## One message of a listener -/

namespace Network
variable {budget : Nat} {thread : Option String} {address server : String} {n n' : Network}

/-- The heaps of all servers are in order. -/
def Tidy (n : Network) : Prop := ∀ name s, n.servers.find? name = some s → s.domain.heap.Ordered

def withMailbox (n : Network) (b : Mailbox) : Network := { n with mailbox := b }

/-- What is left in the mailbox when a request has been answered. -/
def answered (b : Mailbox) (m : Mail) (address : String) (id : Uuid) (a : Answer Datum) : Mailbox :=
  (b.send (Mail.ofAnswer id a address m.sender)).2.without m.id

/-- What is left when a request has been refused, which only one with an id is told. -/
def refused (b : Mailbox) (m : Mail) (address : String) (e : Error) : Mailbox :=
  m.requestId.toOption.elim (b.without m.id) fun id => answered b m address id (.fault e.toFault)

theorem delete_eq {m : Mail} (hm : m ∈ n.mailbox.messages) :
    delete m.id n = some (.ok (), n.withMailbox (n.mailbox.without m.id)) := by
  unfold delete
  rw [Run.get_bind, Mailbox.delete_eq hm]
  rfl

theorem delete_sent {m : Mail} (hm : m ∈ n.mailbox.messages) (x : Mail) :
    delete m.id { n with mailbox := (n.mailbox.send x).2 } =
      some (.ok (), n.withMailbox ((n.mailbox.send x).2.without m.id)) :=
  delete_eq (n := { n with mailbox := (n.mailbox.send x).2 }) (List.mem_append_left _ hm)

section
variable {r : Request Datum}

theorem serve_eq {s : Server} (hserver : n.servers.find? server = some s) : serve budget thread server r n =
    (Server.answer r budget thread s).map fun p => (p.1, { n with servers := n.servers.insert server p.2 }) := by
  unfold serve onServer Server.answer
  rw [hserver]
  dsimp only
  split <;> rename_i h <;> rw [h] <;> rfl

theorem serve_eq_some {s : Server} {outcome : Except Error (Answer Datum)} (hserver : n.servers.find? server = some s)
    (h : serve budget thread server r n = some (outcome, n')) : ∃ a t, outcome = .ok a ∧
      Server.answer r budget thread s = some (.ok a, t) ∧ n' = { n with servers := n.servers.insert server t } := by
  rw [serve_eq hserver] at h
  obtain ⟨⟨outcome, t⟩, hanswer, h⟩ := Option.map_eq_some_iff.mp h
  cases h
  obtain ⟨_, a, _, _, rfl⟩ := Server.answer_eq_some hanswer
  exact ⟨a, t, rfl, hanswer, rfl⟩

theorem serve_eq_ok {a : Answer Datum} (h : serve budget thread server r n = some (.ok a, n')) : ∃ s t,
    n.servers.find? server = some s ∧ Server.answer r budget thread s = some (.ok a, t) ∧
      n' = { n with servers := n.servers.insert server t } := by
  cases hserver : n.servers.find? server with
  | none =>
    unfold serve onServer at h
    rw [hserver] at h
    cases h
  | some s =>
    obtain ⟨a, t, ha, hanswer, hn⟩ := serve_eq_some hserver h
    cases ha
    exact ⟨s, t, rfl, hanswer, hn⟩

end

section
variable {m : Mail}

theorem answerMail_none {r : Request Datum} (hread : m.toRequest = .ok r)
    (hserve : serve budget thread server r n = none) : answerMail budget thread address server m n = none := by
  unfold answerMail
  rw [hread]
  dsimp only
  rw [Run.bind_apply, hserve]

theorem answerMail_served {r : Request Datum} {a : Answer Datum} {n₁ : Network} (hm : m ∈ n₁.mailbox.messages)
    (hread : m.toRequest = .ok r) (hserve : serve budget thread server r n = some (.ok a, n₁)) :
    answerMail budget thread address server m n =
      some (.ok none, n₁.withMailbox (answered n₁.mailbox m address r.id a)) := by
  unfold answerMail
  rw [hread]
  dsimp only
  rw [Run.bind_apply, hserve]
  dsimp only
  rw [Run.bind_apply, send]
  dsimp only
  rw [Run.bind_apply, delete_sent hm]
  rfl

theorem answerMail_refused {e : Error} (hm : m ∈ n.mailbox.messages) (hread : m.toRequest = .error e) :
    answerMail budget thread address server m n =
      some (.ok (some e), n.withMailbox (refused n.mailbox m address e)) := by
  unfold answerMail refused
  rw [hread]
  cases m.requestId with
  | error _ =>
    dsimp only
    rw [Run.bind_apply, delete_eq hm]
    rfl
  | ok id =>
    dsimp only
    rw [Run.bind_apply, send]
    dsimp only
    rw [Run.bind_apply, delete_sent hm]
    rfl

end
end Network

/-! ## One pass of a listener -/

/-- The mailbox holds these messages, which a listener is yet to answer. -/
structure Mailbox.Holds (b : Mailbox) (pending : List Mail) : Prop where
  numbered : b.Numbered
  there : ∀ m ∈ pending, m ∈ b.messages
  distinct : pending.Pairwise (·.id ≠ ·.id)

namespace Mailbox.Holds
variable {b : Mailbox} {m : Mail} {pending : List Mail}

theorem of_addressed (h : b.Numbered) (address : String) :
    b.Holds ((b.addressedTo address).filter (·.isRequest)) where
  numbered := h
  there _ hm := (List.mem_filter.mp (List.mem_filter.mp hm).1).1
  distinct := ((h.ascending.filter _).filter _).imp Nat.ne_of_lt

theorem send (h : b.Holds pending) (x : Mail) : (b.send x).2.Holds pending where
  numbered := h.numbered.send x
  there m hm := List.mem_append_left _ (h.there m hm)
  distinct := h.distinct

theorem without (h : b.Holds (m :: pending)) : (b.without m.id).Holds pending where
  numbered := h.numbered.without m.id
  there x hx := by
    have hne := List.rel_of_pairwise_cons h.distinct hx
    exact List.mem_filter.mpr ⟨h.there x (List.mem_cons_of_mem m hx), decide_eq_true (Ne.symm hne)⟩
  distinct := h.distinct.of_cons

end Mailbox.Holds

namespace Network
variable {b : Mailbox} {m : Mail} {pending : List Mail} {address : String} {c id : Uuid} {a : Answer Datum} {e : Error}

theorem holds_answered (h : b.Holds (m :: pending)) : (answered b m address id a).Holds pending := (h.send _).without

theorem holds_refused (h : b.Holds (m :: pending)) : (refused b m address e).Holds pending := by
  unfold refused
  cases m.requestId.toOption with
  | none => exact h.without
  | some id => exact holds_answered h

theorem about_answered_other (h : b.Holds (m :: pending)) (hm : m.carried? ≠ some c) (hid : id ≠ c) :
    (answered b m address id a).about c = b.about c := by
  have hanswer : (Mail.ofAnswer id a address m.sender).carried? ≠ some c := by
    rw [Mail.carried?_of_answer (Mail.answerId_ofAnswer id a address m.sender)]
    exact fun he => hid (Option.some.inj he)
  have hsent := h.send (Mail.ofAnswer id a address m.sender)
  rw [answered, Mailbox.about_without_other hsent.numbered (hsent.there m List.mem_cons_self) hm, Mailbox.about_send,
    if_neg hanswer, List.append_nil]

theorem about_refused_other (h : b.Holds (m :: pending)) (hm : m.carried? ≠ some c) :
    (refused b m address e).about c = b.about c := by
  unfold refused
  cases hid : m.requestId with
  | error _ => exact Mailbox.about_without_other h.numbered (h.there m List.mem_cons_self) hm
  | ok id =>
    refine about_answered_other h hm fun he => hm ?_
    rw [Mail.carried?_of_request hid, he]

/-- The message that is left where one request with the id was. -/
theorem about_answered_self (h : b.Holds (m :: pending)) (hc : b.about c = [m]) :
    (answered b m address c a).about c = [{ Mail.ofAnswer c a address m.sender with id := b.lastId + 1 }] := by
  have hbelow := h.numbered.below m (h.there m List.mem_cons_self)
  rw [answered, Mailbox.about_without, Mailbox.about_send, hc,
    if_pos (Mail.carried?_of_answer (Mail.answerId_ofAnswer c a address m.sender))]
  rw [List.singleton_append, List.filter_cons_of_neg (by simp), List.filter_cons_of_pos]
  · rfl
  · exact decide_eq_true (by show b.lastId + 1 ≠ m.id; omega)

/-- What a listener makes of the messages that it has found: the requests that it runs, each with its answer. -/
inductive Replies (budget : Nat) (thread : Option String) (address server : String) :
    List Mail → Network → List (Request Datum × Answer Datum) → Network → Prop
  | done {n : Network} : Replies budget thread address server [] n [] n
  | served {m : Mail} {rest : List Mail} {n n₁ n' : Network} {r : Request Datum} {a : Answer Datum}
    {log : List (Request Datum × Answer Datum)} : m.toRequest = .ok r → serve budget thread server r n = some (.ok a, n₁) →
      Replies budget thread address server rest (n₁.withMailbox (answered n₁.mailbox m address r.id a)) log n' →
      Replies budget thread address server (m :: rest) n ((r, a) :: log) n'
  | refused {m : Mail} {rest : List Mail} {n n' : Network} {e : Error} {log : List (Request Datum × Answer Datum)} :
    m.toRequest = .error e →
      Replies budget thread address server rest (n.withMailbox (refused n.mailbox m address e)) log n' →
      Replies budget thread address server (m :: rest) n log n'

variable {budget : Nat} {thread : Option String} {server : String} {n n' : Network}

theorem serve_mailbox {r : Request Datum} (h : serve budget thread server r n = some (.ok a, n')) :
    n'.mailbox = n.mailbox := by
  obtain ⟨_, _, _, _, rfl⟩ := serve_eq_ok h
  rfl

theorem answerAll_completes {report : PollReport} {outcome : Except Error PollReport} {s : Server}
    (hn : n.mailbox.Holds pending) (hserver : n.servers.find? server = some s)
    (h : answerAll budget thread address server pending report n = some (outcome, n')) :
    (∃ report, outcome = .ok report) ∧ ∃ log, Replies budget thread address server pending n log n' := by
  induction pending generalizing n report s with
  | nil =>
    cases h
    exact ⟨⟨report, rfl⟩, [], .done⟩
  | cons m rest ih =>
    rw [answerAll, Run.bind_apply] at h
    cases hread : m.toRequest with
    | error e =>
      rw [answerMail_refused (hn.there m List.mem_cons_self) hread] at h
      obtain ⟨hcompleted, log, hlog⟩ := ih (n := n.withMailbox _) (holds_refused hn) hserver h
      exact ⟨hcompleted, log, .refused hread hlog⟩
    | ok r =>
      cases hserve : serve budget thread server r n with
      | none =>
        rw [answerMail_none hread hserve] at h
        cases h
      | some p =>
        obtain ⟨outcome, n₁⟩ := p
        obtain ⟨a, t, rfl, _, rfl⟩ := serve_eq_some hserver hserve
        have hthere : m ∈ ({ n with servers := n.servers.insert server t } : Network).mailbox.messages :=
          hn.there m List.mem_cons_self
        rw [answerMail_served hthere hread hserve] at h
        have hreached : (n.servers.insert server t).find? server = some t := by rw [Dict.find?_insert, if_pos rfl]
        obtain ⟨hcompleted, log, hlog⟩ :=
          ih (n := { n with servers := n.servers.insert server t, mailbox := _ }) (holds_answered hn) hreached h
        exact ⟨hcompleted, _, .served hread hserve hlog⟩

/-- A listener whose server can be reached completes its pass, unless the budget does not suffice. -/
theorem poll_completes {outcome : Except Error PollReport} {s : Server} (hn : n.mailbox.Numbered)
    (hserver : n.servers.find? server = some s) (h : poll budget thread address server n = some (outcome, n')) :
    (∃ report, outcome = .ok report) ∧ ∃ log,
      Replies budget thread address server ((n.mailbox.addressedTo address).filter (·.isRequest)) n log n' := by
  unfold poll at h
  rw [Run.get_bind] at h
  exact answerAll_completes (.of_addressed hn address) hserver h

namespace Replies
variable {log : List (Request Datum × Answer Datum)} (h : Replies budget thread address server pending n log n')
include h

theorem numbered (hn : n.mailbox.Holds pending) : n'.mailbox.Numbered := by
  induction h with
  | done => exact hn.numbered
  | served _ hserve _ ih =>
    rw [← serve_mailbox hserve] at hn
    exact ih (holds_answered hn)
  | refused _ _ ih => exact ih (holds_refused hn)

/-- Nothing that carries other ids than the requests is touched, nor run. -/
theorem other (hn : n.mailbox.Holds pending) (hc : ∀ m ∈ pending, m.carried? ≠ some c) :
    n'.mailbox.about c = n.mailbox.about c ∧ log.filter (·.1.id = c) = [] := by
  induction h with
  | done => exact ⟨rfl, rfl⟩
  | @served m rest n n₁ n' r a log hread hserve _ ih =>
    rw [← serve_mailbox hserve] at hn ⊢
    obtain ⟨hm, hrest⟩ := List.forall_mem_cons.mp hc
    have hid : r.id ≠ c := fun he => hm (he ▸ Mail.carried?_of_request (Mail.toRequest_eq_ok hread).1)
    obtain ⟨habout, hlog⟩ := ih (holds_answered hn) hrest
    refine ⟨habout.trans (about_answered_other hn hm hid), ?_⟩
    rw [List.filter_cons_of_neg (by rwa [decide_eq_true_eq]), hlog]
  | refused _ _ ih =>
    obtain ⟨hm, hrest⟩ := List.forall_mem_cons.mp hc
    obtain ⟨habout, hlog⟩ := ih (holds_refused hn) hrest
    exact ⟨habout.trans (about_refused_other hn hm), hlog⟩

/-- A request that is alone with its id is run once, and the answer stands in its place. -/
theorem own (hn : n.mailbox.Holds pending) {r : Request Datum} (hc : n.mailbox.about r.id = [m]) (hm : m ∈ pending)
    (hread : m.toRequest = .ok r) : ∃ a number, log.filter (·.1.id = r.id) = [(r, a)] ∧
      n'.mailbox.about r.id = [{ Mail.ofAnswer r.id a address m.sender with id := number }] := by
  induction h with
  | done => cases hm
  | @served x rest n n₁ n' r' a log hread' hserve hrest ih =>
    rw [← serve_mailbox hserve] at hn hc
    have hx := Mail.carried?_of_request (Mail.toRequest_eq_ok hread').1
    by_cases hsame : x = m
    · subst hsame
      cases hread.symm.trans hread'
      have hothers : ∀ y ∈ rest, y.carried? ≠ some r.id := by
        intro y hy hcarried
        obtain rfl := Mailbox.eq_of_about hc (hn.there y (List.mem_cons_of_mem x hy)) hcarried
        exact List.rel_of_pairwise_cons hn.distinct hy rfl
      obtain ⟨habout, hlog⟩ := other hrest (holds_answered hn) hothers
      refine ⟨a, _, ?_, habout.trans (about_answered_self hn hc)⟩
      rw [List.filter_cons_of_pos (by simp), hlog]
    · have hne : x.carried? ≠ some r.id := fun he => hsame (Mailbox.eq_of_about hc (hn.there x List.mem_cons_self) he)
      have hid : r'.id ≠ r.id := fun he => hne (he ▸ hx)
      have hm : m ∈ rest := (List.mem_cons.mp hm).resolve_left (Ne.symm hsame)
      obtain ⟨a', number, hlog, habout⟩ := ih (holds_answered hn) ((about_answered_other hn hne hid).trans hc) hm
      refine ⟨a', number, ?_, habout⟩
      rw [List.filter_cons_of_neg (by rwa [decide_eq_true_eq]), hlog]
  | @refused x rest n n' e log hread' hrest ih =>
    have hsame : x ≠ m := by
      rintro rfl
      cases hread.symm.trans hread'
    have hne : x.carried? ≠ some r.id := fun he => hsame (Mailbox.eq_of_about hc (hn.there x List.mem_cons_self) he)
    have hm : m ∈ rest := (List.mem_cons.mp hm).resolve_left (Ne.symm hsame)
    exact ih (holds_refused hn) ((about_refused_other hn hne).trans hc) hm

end Replies
end Network

/-! ## Order -/

/-- What a heap in order gives for an answer is in order. -/
theorem Answer.snapshot?_ordered {heap : Heap} (hheap : heap.Ordered) {a : Answer Value} {found : Answer Datum}
    (h : a.snapshot? heap = some found) : ∀ x ∈ found.values, x.Ordered := by
  cases a with
  | completed v vs =>
    obtain ⟨x, hx, h⟩ := Option.bind_eq_some_iff.mp h
    obtain ⟨ws, hws, h⟩ := Option.bind_eq_some_iff.mp h
    cases h
    refine List.forall_mem_cons.mpr ⟨Heap.snapshot_ordered hheap hx, List.forall_mem_map.mpr fun w hw => ?_⟩
    obtain ⟨v, _, hv⟩ := Forall₂.exists_of_mem (mapM_eq_some_iff.mp hws).flip hw
    obtain ⟨y, hy, hw⟩ := Option.bind_eq_some_iff.mp hv
    cases hw
    exact Heap.snapshot_ordered hheap hy
  | moduleUnknown | fault f =>
    cases h
    nofun

theorem Server.answer_ordered {r : Request Datum} (hparams : ∀ v ∈ r.params, v.value.Ordered)
    (hnonLocals : ∀ v ∈ r.nonLocals, v.value.Ordered) {budget : Nat} {thread : Option String} {s t : Server}
    {outcome : Except Error (Answer Datum)} (hs : s.domain.heap.Ordered)
    (h : answer r budget thread s = some (outcome, t)) :
    t.domain.heap.Ordered ∧ ∀ a, outcome = .ok a → ∀ x ∈ a.values, x.Ordered := by
  obtain ⟨a, found, hexecute, hfound, rfl⟩ := answer_eq_some h
  have ht := execute_ordered hparams hnonLocals hs hexecute
  refine ⟨ht, fun a' ha' => ?_⟩
  cases ha'
  exact Answer.snapshot?_ordered ht hfound

namespace Network
variable {budget : Nat} {thread : Option String} {address server : String} {n n' : Network}

theorem Replies.ordered {pending : List Mail} {log : List (Request Datum × Answer Datum)}
    (h : Replies budget thread address server pending n log n') (hn : n.Tidy) :
    n'.Tidy ∧ ∀ e ∈ log, ∀ x ∈ e.2.values, x.Ordered := by
  induction h with
  | done => exact ⟨hn, nofun⟩
  | @served m rest n n₁ n' r a log hread hserve _ ih =>
    obtain ⟨s, t, hserver, hanswer, rfl⟩ := serve_eq_ok hserve
    obtain ⟨hparams, hnonLocals⟩ := Mail.toRequest_ordered hread
    obtain ⟨ht, hvalues⟩ := Server.answer_ordered hparams hnonLocals (hn _ _ hserver) hanswer
    have hserved : Tidy { n with servers := n.servers.insert server t } := by
      intro name u hu
      rw [Dict.find?_insert] at hu
      split at hu
      · cases hu
        exact ht
      · exact hn _ _ hu
    obtain ⟨htidy, hlog⟩ := ih hserved
    exact ⟨htidy, List.forall_mem_cons.mpr ⟨hvalues a rfl, hlog⟩⟩
  | refused _ _ ih => exact ih hn

/-! ## Looking for an answer -/

variable {c : Uuid} {a : Answer Datum} {number : Nat} {mail : List Mail}

theorem answerIn?_eq_some (h : answerIn? c mail = some (number, a)) :
    ∃ m ∈ mail, m.isResponse = true ∧ m.toAnswer = .ok (c, a) ∧ m.id = number := by
  obtain ⟨m, hm, h⟩ := List.exists_of_findSome?_eq_some h
  obtain ⟨hm, hresponse⟩ := List.mem_filter.mp hm
  refine ⟨m, hm, hresponse, ?_⟩
  cases hread : m.toAnswer with
  | error e =>
    rw [hread] at h
    cases h
  | ok found =>
    rw [hread] at h
    dsimp only at h
    split at h
    · rename_i hid
      cases h
      exact ⟨by rw [← hid], rfl⟩
    · cases h

/-- An answer that is alone with its id is found. -/
theorem answerIn?_eq {m : Mail} (hm : m ∈ mail) (hresponse : m.isResponse = true) (hread : m.toAnswer = .ok (c, a))
    (hunique : ∀ x ∈ mail, x.carried? = some c → x = m) : answerIn? c mail = some (m.id, a) := by
  cases hfound : answerIn? c mail with
  | none =>
    have hnone := List.findSome?_eq_none_iff.mp hfound m (List.mem_filter.mpr ⟨hm, hresponse⟩)
    rw [hread] at hnone
    dsimp only at hnone
    rw [if_pos rfl] at hnone
    cases hnone
  | some found =>
    obtain ⟨x, hx, _, hread', hid⟩ := answerIn?_eq_some hfound
    obtain rfl := hunique x hx (Mail.carried?_of_answer (Mail.answerId_of_toAnswer hread'))
    cases hread.symm.trans hread'
    rw [hid]

theorem takeAnswer_none (h : answerIn? c (n.mailbox.addressedTo address) = none) :
    takeAnswer address c n = some (.ok none, n) := by
  unfold takeAnswer
  rw [Run.get_bind, h]
  rfl

theorem takeAnswer_some (h : answerIn? c (n.mailbox.addressedTo address) = some (number, a)) :
    takeAnswer address c n = some (.ok (some a), n.withMailbox (n.mailbox.without number)) := by
  obtain ⟨m, hm, _, _, rfl⟩ := answerIn?_eq_some h
  unfold takeAnswer
  rw [Run.get_bind, h]
  dsimp only
  rw [Run.bind_apply, delete_eq (List.mem_filter.mp hm).1]
  rfl

end Network
end MobileCode
