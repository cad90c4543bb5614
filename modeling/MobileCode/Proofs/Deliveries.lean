import MobileCode.Proofs.Transports
import Mathlib.Logic.Relation

/-! # Requests and answers of many

Any number of clients, listeners and others share a mailbox. What becomes of a request goes through three stages: it waits
for the listener of its endpoint, its answer waits for the client, and the answer has been returned. At each stage one
message at most carries the id, so nobody else can take it.
-/
namespace MobileCode

/-- A request that has been sent by mail. -/
structure Posted where
  request : Request Datum
  address : String
  endpoint : String
  /-- A listener at the endpoint has completed a pass since. -/
  visited : Bool := false

namespace Posted

def id (p : Posted) : Uuid := p.request.id

/-- The flag for the main thread stays behind. -/
def received (p : Posted) : Request Datum := { p.request with onMainThread := false }

/-- A listener has completed a pass. -/
def visit (endpoint : String) (p : Posted) : Posted := { p with visited := p.visited || p.endpoint = endpoint }

theorem visit_of_visited {p : Posted} {endpoint : String} (h : p.visited = true) : p.visit endpoint = p := by
  rw [visit, h, Bool.true_or, ← h]

theorem visit_of_ne {p : Posted} {endpoint : String} (h : p.endpoint ≠ endpoint) : p.visit endpoint = p := by
  rw [visit, decide_eq_false h, Bool.or_false]

end Posted

/-- The network with its history: the requests that were sent, those that listeners ran, each with its answer, and the
answers that were returned for an id. -/
structure Correspondence where
  network : Network
  posted : List Posted := []
  ran : List (Request Datum × Answer Datum) := []
  returned : List (Uuid × Answer Datum) := []

namespace Correspondence

/-- What was run for an id. -/
def runs (t : Correspondence) (id : Uuid) : List (Request Datum × Answer Datum) := t.ran.filter (·.1.id = id)

/-- What was returned for an id. -/
def returns (t : Correspondence) (id : Uuid) : List (Uuid × Answer Datum) := t.returned.filter (·.1 = id)

def mailbox (t : Correspondence) : Mailbox := t.network.mailbox

/-- One operation on the mailbox. Each of the ids is used for one request; all else that is sent carries none of them. -/
inductive Step (ids : Uuid → Prop) : Correspondence → Correspondence → Prop
  | post {t : Correspondence} {r : Request Datum} {address endpoint : String} {m : Mail} {number : Nat} {n : Network} :
    ids r.id → (∀ p ∈ t.posted, p.id ≠ r.id) → r.Writable → Mail.ofRequest r address endpoint = .ok m →
      Network.send m t.network = some (.ok number, n) →
      Step ids t { t with network := n, posted := t.posted ++ [⟨r, address, endpoint, false⟩] }
  | foreign {t : Correspondence} {m : Mail} {number : Nat} {n : Network} : (∀ id, m.carried? = some id → ¬ids id) →
      Network.send m t.network = some (.ok number, n) → Step ids t { t with network := n }
  | look {t : Correspondence} {address : String} {id : Uuid} {found : Option (Answer Datum)} {n : Network} :
      Network.takeAnswer address id t.network = some (.ok found, n) →
      Step ids t { t with network := n, returned := t.returned ++ found.toList.map (id, ·) }
  | listen {t : Correspondence} {budget : Nat} {thread : Option String} {address server : String} {report : PollReport}
      {log : List (Request Datum × Answer Datum)} {n : Network} :
      Network.poll budget thread address server t.network = some (.ok report, n) →
      Network.Replies budget thread address server ((t.mailbox.addressedTo address).filter (·.isRequest)) t.network log n →
      (∀ e ∈ log, ((Wire.answer Wire.datum).encode e.2).length < UInt64.size) →
      Step ids t { t with network := n, posted := t.posted.map (·.visit address), ran := t.ran ++ log }

/-- Nothing has been sent with any of the ids. -/
structure Fresh (ids : Uuid → Prop) (t : Correspondence) : Prop where
  numbered : t.mailbox.Numbered
  tidy : t.network.Tidy
  foreign : ∀ id, ids id → t.mailbox.about id = []
  posted : t.posted = []
  ran : t.ran = []
  returned : t.returned = []

/-- What becomes of a request: it is run once a listener of its endpoint has passed by, as it was sent, and no more. What
is returned for its id is its answer, at most once; until then the answer is the one that its client finds. -/
structure Delivers (t : Correspondence) (p : Posted) : Prop where
  runs : (t.runs p.id).length = if p.visited then 1 else 0
  same : ∀ e ∈ t.runs p.id, e.1 = p.received
  returns : (t.returns p.id).length ≤ 1
  own : ∀ e ∈ t.returns p.id, ∃ e' ∈ t.runs p.id, e'.2 = e.2
  kept : t.returns p.id = [] → ∀ e ∈ t.runs p.id, ∃ m ∈ t.mailbox.addressedTo p.address, m.toAnswer = .ok (p.id, e.2) ∧
    Network.answerIn? p.id (t.mailbox.addressedTo p.address) = some (m.id, e.2)

/-! ## Stages -/

/-- Where a request stands: the messages that carry its id, what was run for it and what was returned. -/
inductive Stage (p : Posted) : List Mail → List (Request Datum × Answer Datum) → List (Uuid × Answer Datum) → Prop
  | waiting {m : Mail} : p.visited = false → m.isRequest = true → m.toRequest = .ok p.received →
      m.sender = p.address → m.recipient = p.endpoint → Stage p [m] [] []
  | answered {m : Mail} {a : Answer Datum} : p.visited = true → m.isResponse = true → m.toAnswer = .ok (p.id, a) →
      m.recipient = p.address → Stage p [m] [(p.received, a)] []
  | done {a : Answer Datum} : p.visited = true → Stage p [] [(p.received, a)] [(p.id, a)]

structure Regular (ids : Uuid → Prop) (t : Correspondence) : Prop where
  numbered : t.mailbox.Numbered
  tidy : t.network.Tidy
  known : ∀ p ∈ t.posted, ids p.id
  distinct : t.posted.Pairwise (·.id ≠ ·.id)
  stages : ∀ p ∈ t.posted, Stage p (t.mailbox.about p.id) (t.runs p.id) (t.returns p.id)
  unsent : ∀ id, ids id → (∀ p ∈ t.posted, p.id ≠ id) → t.mailbox.about id = [] ∧ t.runs id = [] ∧ t.returns id = []

variable {ids : Uuid → Prop} {t t' : Correspondence} {p : Posted}

theorem Fresh.regular (h : t.Fresh ids) : t.Regular ids where
  numbered := h.numbered
  tidy := h.tidy
  known p hp := by
    rw [h.posted] at hp
    cases hp
  distinct := h.posted ▸ .nil
  stages p hp := by
    rw [h.posted] at hp
    cases hp
  unsent id hid _ := by
    rw [runs, returns, h.ran, h.returned]
    exact ⟨h.foreign id hid, rfl, rfl⟩

/-! ## Steps -/

namespace Regular

/-- What is sent leaves all requests with other ids as they are. -/
theorem send {m : Mail} {n : Network} {number : Nat} (h : t.Regular ids)
    (hsend : Network.send m t.network = some (.ok number, n)) :
    n.mailbox.Numbered ∧ n.Tidy ∧ ∀ id, n.mailbox.about id =
      t.mailbox.about id ++ if m.carried? = some id then [{ m with id := t.mailbox.lastId + 1 }] else [] := by
  cases hsend
  exact ⟨h.numbered.send m, h.tidy, Mailbox.about_send t.mailbox m⟩

theorem post {r : Request Datum} {address endpoint : String} {m : Mail} {number : Nat} {n : Network} (h : t.Regular ids)
    (hid : ids r.id) (hnew : ∀ p ∈ t.posted, p.id ≠ r.id) (hr : r.Writable) (hm : Mail.ofRequest r address endpoint = .ok m)
    (hsend : Network.send m t.network = some (.ok number, n)) :
    Regular ids { t with network := n, posted := t.posted ++ [⟨r, address, endpoint, false⟩] } := by
  obtain ⟨hnumbered, htidy, habout⟩ := h.send hsend
  have hcarried := Mail.carried?_of_request (Mail.requestId_ofRequest hm)
  have hother {id : Uuid} (hne : id ≠ r.id) : n.mailbox.about id = t.mailbox.about id := by
    rw [habout, hcarried, if_neg fun he => hne (Option.some.inj he).symm, List.append_nil]
  obtain ⟨hnone, hruns, hreturns⟩ := h.unsent r.id hid hnew
  have hown : Stage ⟨r, address, endpoint, false⟩ (n.mailbox.about r.id) (t.runs r.id) (t.returns r.id) := by
    have hread := Mail.toRequest_ofRequest hm hr
    have hrequest : m.isRequest = true := Mail.isPrefixOf_of_idBehind (Mail.requestId_ofRequest hm)
    have hletter : m.sender = address ∧ m.recipient = endpoint := by
      obtain ⟨_, rfl⟩ := Mail.ofRequest_eq_ok hm
      exact ⟨rfl, rfl⟩
    rw [habout, hcarried, if_pos rfl, hnone, hruns, hreturns]
    exact Stage.waiting (m := { m with id := t.mailbox.lastId + 1 }) rfl hrequest hread hletter.1 hletter.2
  refine ⟨hnumbered, htidy, ?_, ?_, ?_, fun other hother' hall => ?_⟩
  · exact List.forall_mem_append.mpr ⟨h.known, List.forall_mem_singleton.mpr hid⟩
  · exact List.pairwise_append.mpr ⟨h.distinct, List.pairwise_singleton _ _,
      fun p hp q hq => List.mem_singleton.mp hq ▸ hnew p hp⟩
  · refine List.forall_mem_append.mpr ⟨fun p hp => ?_, List.forall_mem_singleton.mpr hown⟩
    exact (hother (hnew p hp)).symm ▸ h.stages p hp
  · obtain ⟨hposted, hlast⟩ := List.forall_mem_append.mp hall
    obtain ⟨hnone, hruns, hreturns⟩ := h.unsent other hother' hposted
    exact ⟨(hother (Ne.symm (hlast _ (List.mem_singleton.mpr rfl)))).trans hnone, hruns, hreturns⟩

theorem foreign {m : Mail} {number : Nat} {n : Network} (h : t.Regular ids) (hm : ∀ id, m.carried? = some id → ¬ids id)
    (hsend : Network.send m t.network = some (.ok number, n)) : Regular ids { t with network := n } := by
  obtain ⟨hnumbered, htidy, habout⟩ := h.send hsend
  have hother {id : Uuid} (hid : ids id) : n.mailbox.about id = t.mailbox.about id := by
    rw [habout, if_neg fun he => hm id he hid, List.append_nil]
  refine ⟨hnumbered, htidy, h.known, h.distinct, fun p hp => ?_, fun id hid hnew => ?_⟩
  · exact (hother (h.known p hp)).symm ▸ h.stages p hp
  · obtain ⟨hnone, hruns, hreturns⟩ := h.unsent id hid hnew
    exact ⟨(hother hid).trans hnone, hruns, hreturns⟩

/-- An answer that is taken out has been waiting there for the request with its id. -/
theorem take {m : Mail} {id : Uuid} {a : Answer Datum} (h : t.Regular ids) (hm : m ∈ t.mailbox.messages)
    (hresponse : m.isResponse = true) (hread : m.toAnswer = .ok (id, a)) : Regular ids
      { t with network := t.network.withMailbox (t.mailbox.without m.id), returned := t.returned ++ [(id, a)] } := by
  have hcarried : m.carried? = some id := Mail.carried?_of_answer (Mail.answerId_of_toAnswer hread)
  have hmem : m ∈ t.mailbox.about id := List.mem_filter.mpr ⟨hm, decide_eq_true hcarried⟩
  have hother {c : Uuid} (hne : id ≠ c) : (t.mailbox.without m.id).about c = t.mailbox.about c :=
    Mailbox.about_without_other h.numbered hm fun he => hne (Option.some.inj (hcarried.symm.trans he))
  have hreturns (c : Uuid) : (t.returned ++ [(id, a)]).filter (·.1 = c) = t.returns c ++ if id = c then [(id, a)] else [] := by
    rw [List.filter_append, returns]
    congr 1
    split
    · rename_i he
      exact List.filter_cons_of_pos (decide_eq_true he)
    · rename_i hne
      exact List.filter_cons_of_neg (by rwa [decide_eq_true_eq])
  refine ⟨h.numbered.without m.id, h.tidy, h.known, h.distinct, fun p hp => ?_, fun c hc hnew => ?_⟩
  · have hstage := h.stages p hp
    show Stage p ((t.mailbox.without m.id).about p.id) (t.runs p.id) ((t.returned ++ [(id, a)]).filter (·.1 = p.id))
    rw [hreturns]
    by_cases hid : id = p.id
    · subst hid
      rw [Mailbox.about_without, if_pos rfl]
      generalize t.mailbox.about p.id = about at hstage hmem
      generalize t.runs p.id = runs at hstage
      generalize t.returns p.id = returns at hstage
      cases hstage with
      | waiting _ hrequest =>
        cases List.mem_singleton.mp hmem
        cases (Mail.not_isResponse hrequest).symm.trans hresponse
      | answered hvisited _ hread' =>
        cases List.mem_singleton.mp hmem
        cases hread.symm.trans hread'
        rw [List.filter_cons_of_neg (by simp)]
        exact .done hvisited
      | done => cases hmem
    · rw [if_neg hid, List.append_nil, hother hid]
      exact hstage
  · obtain ⟨hnone, hruns, hnot⟩ := h.unsent c hc hnew
    have hne : id ≠ c := by
      rintro rfl
      rw [hnone] at hmem
      cases hmem
    refine ⟨(hother hne).trans hnone, hruns, (hreturns c).trans ?_⟩
    rw [if_neg hne, List.append_nil]
    exact hnot

theorem look {address : String} {id : Uuid} {found : Option (Answer Datum)} {n : Network} (h : t.Regular ids)
    (hlook : Network.takeAnswer address id t.network = some (.ok found, n)) :
    Regular ids { t with network := n, returned := t.returned ++ found.toList.map (id, ·) } := by
  cases hfound : Network.answerIn? id (t.network.mailbox.addressedTo address) with
  | none =>
    cases (Network.takeAnswer_none hfound).symm.trans hlook
    have hsame : t.returned ++ (none : Option (Answer Datum)).toList.map (id, ·) = t.returned := List.append_nil _
    rw [hsame]
    exact h
  | some p =>
    obtain ⟨number, a⟩ := p
    obtain ⟨m, hm, hresponse, hread, hnumber⟩ := Network.answerIn?_eq_some hfound
    cases (Network.takeAnswer_some hfound).symm.trans hlook
    rw [← hnumber]
    exact h.take (List.mem_filter.mp hm).1 hresponse hread

theorem listen {budget : Nat} {thread : Option String} {address server : String}
    {log : List (Request Datum × Answer Datum)} {n : Network} (h : t.Regular ids)
    (hreplies : Network.Replies budget thread address server ((t.mailbox.addressedTo address).filter (·.isRequest))
      t.network log n)
    (hsize : ∀ e ∈ log, ((Wire.answer Wire.datum).encode e.2).length < UInt64.size) :
    Regular ids { t with network := n, posted := t.posted.map (·.visit address), ran := t.ran ++ log } := by
  have hholds := Mailbox.Holds.of_addressed h.numbered address
  obtain ⟨htidy, hordered⟩ := hreplies.ordered h.tidy
  have hruns (c : Uuid) : (t.ran ++ log).filter (·.1.id = c) = t.runs c ++ log.filter (·.1.id = c) := List.filter_append ..
  have hothers {c : Uuid} (hc : ∀ x ∈ t.mailbox.about c, x.isRequest = true → x.recipient ≠ address) :
      n.mailbox.about c = t.mailbox.about c ∧ (t.ran ++ log).filter (·.1.id = c) = t.runs c := by
    have hnone : ∀ x ∈ (t.mailbox.addressedTo address).filter (·.isRequest), x.carried? ≠ some c := by
      intro x hx hcarried
      obtain ⟨hx, hrequest⟩ := List.mem_filter.mp hx
      obtain ⟨hthere, hrecipient⟩ := List.mem_filter.mp hx
      exact hc x (List.mem_filter.mpr ⟨hthere, decide_eq_true hcarried⟩) hrequest (of_decide_eq_true hrecipient)
    obtain ⟨habout, hlog⟩ := hreplies.other hholds hnone
    exact ⟨habout, by rw [hruns, hlog, List.append_nil]⟩
  refine ⟨hreplies.numbered hholds, htidy, List.forall_mem_map.mpr h.known, List.pairwise_map.mpr h.distinct,
    List.forall_mem_map.mpr fun p hp => ?_, fun c hc hnew => ?_⟩
  · have hstage := h.stages p hp
    have hstays (hc : ∀ x ∈ t.mailbox.about p.id, x.isRequest = true → x.recipient ≠ address)
        (hvisit : p.visit address = p ∨ p.visited = true) :
        Stage (p.visit address) (n.mailbox.about p.id) ((t.ran ++ log).filter (·.1.id = p.id)) (t.returns p.id) := by
      obtain ⟨habout, hsame⟩ := hothers hc
      have hp : p.visit address = p := hvisit.elim id Posted.visit_of_visited
      rw [habout, hsame, hp]
      exact hstage
    have hplace := hstage
    show Stage (p.visit address) (n.mailbox.about p.id) ((t.ran ++ log).filter (·.1.id = p.id)) (t.returns p.id)
    generalize habout : t.mailbox.about p.id = about at hplace
    generalize hran : t.runs p.id = runs at hplace
    generalize hreturned : t.returns p.id = returns at hplace
    cases hplace with
    | @waiting m hvisited hrequest hread hsender hrecipient =>
      by_cases haddress : p.endpoint = address
      · have hm : m ∈ t.mailbox.about p.id := habout ▸ List.mem_singleton.mpr rfl
        have hpending : m ∈ (t.mailbox.addressedTo address).filter (·.isRequest) := by
          refine List.mem_filter.mpr ⟨List.mem_filter.mpr ⟨(List.mem_filter.mp hm).1, ?_⟩, hrequest⟩
          exact decide_eq_true (hrecipient.trans haddress)
        obtain ⟨a, number, hlog, hanswer⟩ := hreplies.own hholds (r := p.received) habout hpending hread
        have hmem : (p.received, a) ∈ log := (List.mem_filter.mp (hlog ▸ List.mem_singleton.mpr rfl)).1
        have ha : a.Writable := ⟨hordered _ hmem, hsize _ hmem⟩
        rw [hruns, hran, List.nil_append]
        show Stage (p.visit address) (n.mailbox.about p.received.id) (log.filter (·.1.id = p.received.id)) []
        rw [hlog, hanswer]
        refine .answered ?_ ?_ ?_ hsender
        · exact Bool.or_eq_true_iff.mpr (.inr (decide_eq_true haddress))
        · exact Mail.isPrefixOf_of_idBehind (Mail.answerId_ofAnswer p.id a address m.sender)
        · exact Mail.toAnswer_ofAnswer ha p.id address m.sender
      · rw [← hreturned]
        refine hstays (fun x hx _ => ?_) (.inl (Posted.visit_of_ne haddress))
        rw [habout] at hx
        cases List.mem_singleton.mp hx
        exact fun he => haddress (hrecipient.symm.trans he)
    | @answered m a hvisited hresponse _ _ =>
      rw [← hreturned]
      refine hstays (fun x hx hrequest => ?_) (.inr hvisited)
      rw [habout] at hx
      cases List.mem_singleton.mp hx
      cases (Mail.not_isResponse hrequest).symm.trans hresponse
    | done hvisited =>
      rw [← hreturned]
      refine hstays (fun x hx => ?_) (.inr hvisited)
      rw [habout] at hx
      cases hx
  · obtain ⟨hnone, hruns, hreturns⟩ := h.unsent c hc fun p hp => hnew (p.visit address) (List.mem_map_of_mem hp)
    obtain ⟨habout, hsame⟩ := hothers (c := c) (by simp [hnone])
    exact ⟨habout.trans hnone, hsame.trans hruns, hreturns⟩

theorem step (h : t.Regular ids) (hstep : Step ids t t') : t'.Regular ids := by
  cases hstep with
  | post hid hnew hr hm hsend => exact h.post hid hnew hr hm hsend
  | foreign hm hsend => exact h.foreign hm hsend
  | look hlook => exact h.look hlook
  | listen _ hreplies hsize => exact h.listen hreplies hsize

end Regular

/-! ## Whole histories -/

theorem Regular.delivers (h : t.Regular ids) (hp : p ∈ t.posted) : t.Delivers p := by
  have hplace := h.stages p hp
  generalize habout : t.mailbox.about p.id = about at hplace
  generalize hran : t.runs p.id = runs at hplace
  generalize hreturned : t.returns p.id = returns at hplace
  cases hplace with
  | waiting hvisited _ _ _ _ =>
    exact ⟨by simp [hran, hvisited], by simp [hran], by simp [hreturned], by simp [hreturned], by simp [hran]⟩
  | @answered m a hvisited hresponse hread hrecipient =>
    refine ⟨by simp [hran, hvisited], by simp [hran], by simp [hreturned], by simp [hreturned], fun _ e he => ?_⟩
    rw [hran] at he
    cases List.mem_singleton.mp he
    have hm : m ∈ t.mailbox.about p.id := habout ▸ List.mem_singleton.mpr rfl
    have hthere : m ∈ t.mailbox.addressedTo p.address :=
      List.mem_filter.mpr ⟨(List.mem_filter.mp hm).1, decide_eq_true hrecipient⟩
    exact ⟨m, hthere, hread, Network.answerIn?_eq hthere hresponse hread fun x hx hid =>
      Mailbox.eq_of_about habout (List.mem_filter.mp hx).1 hid⟩
  | done hvisited =>
    exact ⟨by simp [hran, hvisited], by simp [hran], by simp [hreturned], by simp [hreturned, hran], by simp [hreturned]⟩

/-- Whatever clients, listeners and others do with the mailbox, each request that was sent is delivered. -/
theorem delivered {start : Correspondence} (hstart : start.Fresh ids) (h : Relation.ReflTransGen (Step ids) start t) :
    ∀ p ∈ t.posted, t.Delivers p := by
  have hregular : t.Regular ids := by
    induction h with
    | refl => exact hstart.regular
    | tail _ hstep ih => exact ih.step hstep
  exact fun p hp => hregular.delivers hp

/-! ## A round trip -/

section
open Network
variable {n : Network} {budget : Nat} {address endpoint server : String} {s s' : Server}
  {r : Request Datum} {a : Answer Datum} {m : Mail}

theorem replies_sent (h : n.Clear budget address endpoint server s r) (hm : Mail.ofRequest r address endpoint = .ok m)
    (hanswer : Server.answer r budget none s = some (.ok a, s')) (thread : Option String) :
    Replies budget thread endpoint server
      (((n.mailbox.send m).2.addressedTo endpoint).filter (·.isRequest)) (n.withMailbox (n.mailbox.send m).2) [(r, a)]
      (({ n with servers := n.servers.insert server s' } : Network).withMailbox
        ((spent n.mailbox).send (Mail.ofAnswer r.id a endpoint address)).2) := by
  have hserve := serve_sent h thread (n.mailbox.send m).2
  rw [hanswer, Option.map_some] at hserve
  have hsender : m.sender = address := by
    obtain ⟨_, rfl⟩ := Mail.ofRequest_eq_ok hm
    rfl
  rw [pending_sent h hm, ← hsender, ← answered_last h.numbered m r.id a]
  exact .served (toRequest_sent h hm) hserve .done

/-- Where the way is clear, a request is sent, run by the listener that passes by, and its answer found. -/
theorem round_trip (h : n.Clear budget address endpoint server s r)
    (hanswer : Server.answer r budget none s = some (.ok a, s')) :
    Relation.ReflTransGen (Step (· = r.id)) { network := n }
      { network := ({ n with servers := n.servers.insert server s' } : Network).withMailbox (spent (spent n.mailbox))
        posted := [⟨r, address, endpoint, true⟩], ran := [(r, a)], returned := [(r.id, a)] } := by
  obtain ⟨m, hm⟩ := ofRequest_of_mailable h.mailable address endpoint
  have ha := h.answer_writable hanswer
  let sent : Correspondence := { network := n.withMailbox (n.mailbox.send m).2, posted := [⟨r, address, endpoint, false⟩] }
  let served : Network := { n with servers := n.servers.insert server s' }
  let answered : Correspondence :=
    { network := served.withMailbox ((spent n.mailbox).send (Mail.ofAnswer r.id a endpoint address)).2
      posted := [⟨r, address, endpoint, true⟩], ran := [(r, a)] }
  have hpost : Step (· = r.id) { network := n } sent := .post rfl nofun h.writable hm rfl
  have hvisit : sent.posted.map (·.visit endpoint) = answered.posted := by
    simp [sent, answered, Posted.visit]
  have hlisten : Step (· = r.id) sent { answered with posted := sent.posted.map (·.visit endpoint) } :=
    .listen (poll_sent_answered h hm hanswer) (replies_sent h hm hanswer none) (List.forall_mem_singleton.mpr ha.size)
  rw [hvisit] at hlisten
  have htake : takeAnswer address r.id answered.network = some (.ok (some a), served.withMailbox (spent (spent n.mailbox))) :=
    takeAnswer_last (spent_numbered h.numbered) ha h.unanswered endpoint
  exact ((Relation.ReflTransGen.single hpost).tail hlisten).tail (Step.look htake)

end
end Correspondence

open meter in
/-- The meter is raised by mail: the request is sent, a listener passes by and the answer is found. -/
theorem meter_delivered : ∃ t : Correspondence,
    Relation.ReflTransGen (Correspondence.Step (· = raise.id)) { network := office } t ∧
      t.posted = [⟨raise, "home", "desk", true⟩] ∧
      t.returned = [(raise.id, .completed (.int32 6) [level 6, level 6])] ∧ ∀ p ∈ t.posted, t.Delivers p := by
  have hfresh : Correspondence.Fresh (· = raise.id) { network := office } := by
    refine ⟨office_clear.numbered, fun name s hs => ?_, fun id hid => ?_, rfl, rfl, rfl⟩
    · cases List.mem_singleton.mp (Dict.mem_of_find? hs)
      exact office_clear.ordered
    · subst hid
      rfl
  obtain ⟨u, _, hanswer⟩ := shelf_answers
  have htrip := Correspondence.round_trip office_clear hanswer
  exact ⟨_, htrip, rfl, rfl, Correspondence.delivered hfresh htrip⟩

end MobileCode
