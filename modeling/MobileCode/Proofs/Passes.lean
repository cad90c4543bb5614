import MobileCode.Proofs.Transports
import MobileCode.Proofs.RequestMails

/-! # One pass of a listener

A listener takes all requests to its address out of the mailbox. It has those that can be read run, one after the other, and
answers them; the others it refuses. What else is in the mailbox stays.
-/
namespace MobileCode

/-! ## Many messages -/

namespace Mailbox
variable {b : Mailbox}

def sendAll (b : Mailbox) (mail : List Mail) : Mailbox := mail.foldl (fun b m => (b.send m).2) b

/-- The mailbox without some messages. -/
def clear (b : Mailbox) (mail : List Mail) : Mailbox := mail.foldl (fun b m => b.without m.id) b

theorem sendAll_cons (b : Mailbox) (m : Mail) (rest : List Mail) : b.sendAll (m :: rest) = (b.send m).2.sendAll rest := rfl

theorem clear_cons (b : Mailbox) (m : Mail) (rest : List Mail) : b.clear (m :: rest) = (b.without m.id).clear rest := rfl

theorem lastId_sendAll (b : Mailbox) (mail : List Mail) : (b.sendAll mail).lastId = b.lastId + mail.length := by
  induction mail generalizing b with
  | nil => rfl
  | cons m rest ih =>
    simp only [sendAll_cons, ih, List.length_cons, send]
    omega

/-- The messages are put behind those that are there and numbered from the last one on. -/
theorem messages_sendAll (b : Mailbox) (mail : List Mail) : (b.sendAll mail).messages =
    b.messages ++ mail.mapIdx fun i m => { m with id := b.lastId + 1 + i } := by
  induction mail generalizing b with
  | nil => simp [sendAll]
  | cons m rest ih =>
    have hnumber (i : Nat) : b.lastId + 1 + 1 + i = b.lastId + 1 + (i + 1) := by omega
    rw [sendAll_cons, ih, List.mapIdx_cons, send]
    simp only [hnumber, List.append_assoc, List.singleton_append, Nat.add_zero]

theorem Numbered.sendAll (h : b.Numbered) (mail : List Mail) : (b.sendAll mail).Numbered := by
  induction mail generalizing b with
  | nil => exact h
  | cons m rest ih => exact ih (h.send m)

theorem lastId_clear (b : Mailbox) (mail : List Mail) : (b.clear mail).lastId = b.lastId := by
  induction mail generalizing b with
  | nil => rfl
  | cons m rest ih => exact ih (b.without m.id)

theorem messages_clear (b : Mailbox) (mail : List Mail) :
    (b.clear mail).messages = b.messages.filter (fun x => x.id ∉ mail.map (·.id)) := by
  induction mail generalizing b with
  | nil => simp [clear]
  | cons m rest ih =>
    rw [clear_cons, ih, without, List.filter_filter]
    apply List.filter_congr
    intro x _
    rw [Bool.eq_iff_iff]
    simp [and_comm]

theorem Numbered.clear (h : b.Numbered) (mail : List Mail) : (b.clear mail).Numbered := by
  induction mail generalizing b with
  | nil => exact h
  | cons m rest ih => exact ih (h.without m.id)

/-- An older message can be taken out before another one is sent as well as after it. -/
theorem without_send {number : Nat} (h : number ≤ b.lastId) (m : Mail) :
    (b.send m).2.without number = ((b.without number).send m).2 := by
  have hnew : ¬b.lastId + 1 = number := by omega
  simp [without, send, hnew]

theorem clear_send {mail : List Mail} (h : ∀ m ∈ mail, m.id ≤ b.lastId) (x : Mail) :
    (b.send x).2.clear mail = ((b.clear mail).send x).2 := by
  induction mail generalizing b with
  | nil => rfl
  | cons m rest ih =>
    obtain ⟨hm, hrest⟩ := List.forall_mem_cons.mp h
    rw [clear_cons, without_send hm]
    exact ih hrest

theorem clear_sendAll {mail : List Mail} (h : ∀ m ∈ mail, m.id ≤ b.lastId) (more : List Mail) :
    (b.sendAll more).clear mail = (b.clear mail).sendAll more := by
  induction more generalizing b with
  | nil => rfl
  | cons x more ih =>
    have hsent : ∀ m ∈ mail, m.id ≤ (b.send x).2.lastId := fun m hm => Nat.le_succ_of_le (h m hm)
    rw [sendAll_cons, sendAll_cons, ih hsent, clear_send h]

theorem sendAll_append (b : Mailbox) (mail more : List Mail) : b.sendAll (mail ++ more) = (b.sendAll mail).sendAll more :=
  List.foldl_append

end Mailbox

/-! ## Requests that are taken out -/

theorem Except.bind_eq_error {α β : Type} {x : Except Error α} {f : α → Except Error β} {e : Error} :
    x >>= f = .error e ↔ x = .error e ∨ ∃ a, x = .ok a ∧ f a = .error e := by
  cases x with
  | error e' => simp [bind, Except.bind]
  | ok a => simp [bind, Except.bind]

theorem Mail.idBehind_error {mark subject : String} {e : Error} (h : idBehind mark subject = .error e) :
    e.toFault.kind = .invalidRequest := by
  unfold idBehind at h
  split at h
  · dsimp only at h
    split at h <;> cases h
    rfl
  · cases h
    rfl

theorem Wire.Codec.scan_error {α : Type} {c : Codec α} {text : String} {e : Error} (h : c.scan text = .error e) :
    e.toFault.kind = .invalidRequest := by
  unfold scan parse at h
  split at h
  · split at h <;> cases h
    rfl
  · cases h
    rfl

/-- Whatever is wrong with a request that cannot be read, it is told as an invalid request. -/
theorem Mail.toRequest_error {m : Mail} {e : Error} (h : m.toRequest = .error e) : e.toFault.kind = .invalidRequest := by
  unfold toRequest at h
  obtain h | ⟨id, _, h⟩ := Except.bind_eq_error.mp h
  · exact idBehind_error h
  split at h
  · split at h
    · cases h
      rfl
    · obtain h | ⟨_, _, h⟩ := Except.bind_eq_error.mp h
      · exact Wire.Codec.scan_error h
      obtain h | ⟨_, _, h⟩ := Except.bind_eq_error.mp h
      · exact Wire.Codec.scan_error h
      · cases h
  · cases h
    rfl

theorem Mail.toRequest_withId (m : Mail) (n : Nat) : ({ m with id := n } : Mail).toRequest = m.toRequest := rfl

/-- A request that a listener has taken out of the mailbox: it was run and answered, or it could not be read. -/
inductive Handling
  | served (m : Mail) (r : Request Datum) (a : Answer Datum)
  | refused (m : Mail) (e : Error)

namespace Handling

def mail : Handling → Mail
  | served m .. | refused m _ => m

/-- What is told to the sender, if the request has an id. -/
def envelope : Handling → Answer Datum
  | served _ _ a => a
  | refused _ e => .fault e.toFault

/-- The request has been read as the one that was run, or it failed to be read in this way. -/
def Sound : Handling → Prop
  | served m r _ => m.toRequest = .ok r
  | refused m e => m.toRequest = .error e

def run? : Handling → Option (Request Datum × Answer Datum)
  | served _ r a => some (r, a)
  | refused .. => none

def rejection? : Handling → Option (Nat × Error)
  | served .. => none
  | refused m e => some (m.id, e)

def response? (address : String) (x : Handling) : Option Mail :=
  x.mail.requestId.toOption.map fun id => Mail.ofAnswer id x.envelope address x.mail.sender

section
variable {m : Mail} {r : Request Datum} {a : Answer Datum} {e : Error}

@[simp] theorem mail_served : (served m r a).mail = m := rfl
@[simp] theorem mail_refused : (refused m e).mail = m := rfl
@[simp] theorem run?_served : (served m r a).run? = some (r, a) := rfl
@[simp] theorem run?_refused : (refused m e).run? = none := rfl
@[simp] theorem rejection?_served : (served m r a).rejection? = none := rfl
@[simp] theorem rejection?_refused : (refused m e).rejection? = some (m.id, e) := rfl
@[simp] theorem envelope_served : (served m r a).envelope = a := rfl
@[simp] theorem envelope_refused : (refused m e).envelope = .fault e.toFault := rfl

end
end Handling

/-- The server runs the requests one after the other and comes to these answers. -/
inductive Server.Runs (budget : Nat) (thread : Option String) : List (Request Datum × Answer Datum) → Server → Server → Prop
  | none {s : Server} : Runs budget thread [] s s
  | next {r : Request Datum} {a : Answer Datum} {rest : List (Request Datum × Answer Datum)} {s t u : Server} :
    answer r budget thread s = some (.ok a, t) → Runs budget thread rest t u → Runs budget thread ((r, a) :: rest) s u

namespace Network
variable {budget : Nat} {thread : Option String} {address server : String} {n : Network} {s t : Server} {m : Mail}
  {pending : List Mail}

theorem served_eq (address : String) {b : Mailbox} (h : m.id ≤ b.lastId) {r : Request Datum} (hread : m.toRequest = .ok r)
    {a : Answer Datum} : answered b m address r.id a =
      (b.without m.id).sendAll ((Handling.served m r a).response? address).toList := by
  have hid : m.requestId = .ok r.id := (Mail.toRequest_eq_ok hread).1
  rw [answered, Mailbox.without_send h]
  simp [Handling.response?, hid, Except.toOption, Mailbox.sendAll]

theorem refused_eq (address : String) {b : Mailbox} (h : m.id ≤ b.lastId) {e : Error} :
    refused b m address e = (b.without m.id).sendAll ((Handling.refused m e).response? address).toList := by
  unfold refused Handling.response?
  cases hid : m.requestId with
  | error _ => simp [hid, Except.toOption, Mailbox.sendAll]
  | ok id =>
    simp [hid, Except.toOption, Mailbox.sendAll, answered, Mailbox.without_send h]

/-- A listener has dealt with the messages: they are out of the mailbox, its answers are in it, and its server has come to
this state. -/
structure Drains (address server : String) (t : Server) (pending : List Mail) (n n' : Network) (handled : List Handling) :
    Prop where
  mail : handled.map (·.mail) = pending
  sound : ∀ x ∈ handled, x.Sound
  servers : ∀ name, n'.servers.find? name = if name = server then some t else n.servers.find? name
  bindings : n'.bindings = n.bindings
  mailbox : n'.mailbox = (n.mailbox.clear pending).sendAll (handled.filterMap (·.response? address))

theorem Drains.none (hserver : n.servers.find? server = some s) : Drains address server s [] n n [] where
  mail := rfl
  sound := by simp
  servers name := by
    by_cases hname : name = server
    · rw [if_pos hname, hname, hserver]
    · rw [if_neg hname]
  bindings := rfl
  mailbox := rfl

theorem Drains.cons {n₁ n' : Network} {x : Handling} {handled : List Handling}
    (h : Drains address server t pending n₁ n' handled) (hx : x.Sound)
    (hservers : ∀ name, name ≠ server → n₁.servers.find? name = n.servers.find? name) (hbindings : n₁.bindings = n.bindings)
    (hmailbox : n₁.mailbox = (n.mailbox.without x.mail.id).sendAll (x.response? address).toList)
    (hlater : ∀ m ∈ pending, m.id ≤ n.mailbox.lastId) : Drains address server t (x.mail :: pending) n n' (x :: handled) where
  mail := by rw [List.map_cons, h.mail]
  sound := List.forall_mem_cons.mpr ⟨hx, h.sound⟩
  servers name := by
    rw [h.servers]
    by_cases hname : name = server
    · rw [if_pos hname, if_pos hname]
    · rw [if_neg hname, if_neg hname, hservers name hname]
  bindings := h.bindings.trans hbindings
  mailbox := by
    have hfirst : (x :: handled).filterMap (·.response? address) =
        (x.response? address).toList ++ handled.filterMap (·.response? address) := by
      cases hresponse : x.response? address <;> simp [hresponse]
    have hwithout : ∀ m ∈ pending, m.id ≤ (n.mailbox.without x.mail.id).lastId := hlater
    rw [h.mailbox, hmailbox, Mailbox.clear_sendAll hwithout, hfirst, Mailbox.sendAll_append, Mailbox.clear_cons]

/-- A listener deals with each of the messages that it has found. -/
theorem answerAll_drains (hn : n.mailbox.Holds pending) (hserver : n.servers.find? server = some s)
    {log : List (Request Datum × Answer Datum)} (hlog : log.map Prod.fst = pending.filterMap (·.toRequest.toOption))
    (hruns : Server.Runs budget thread log s t) (report : PollReport) :
    ∃ handled n', Drains address server t pending n n' handled ∧ handled.filterMap (·.run?) = log ∧
      answerAll budget thread address server pending report n = some (.ok
        ⟨report.processed + log.length, report.rejected ++ handled.filterMap (·.rejection?)⟩, n') := by
  induction pending generalizing n s log report with
  | nil =>
    obtain rfl : log = [] := by simpa using hlog
    cases hruns
    exact ⟨[], n, .none hserver, rfl, by simp [answerAll]⟩
  | cons m rest ih =>
    have hm : m ∈ n.mailbox.messages := hn.there m List.mem_cons_self
    have hid : m.id ≤ n.mailbox.lastId := hn.numbered.below m hm
    have hlater : ∀ x ∈ rest, x.id ≤ n.mailbox.lastId := fun x hx =>
      hn.numbered.below x (hn.there x (List.mem_cons_of_mem m hx))
    rw [answerAll, Run.bind_apply]
    cases hread : m.toRequest with
    | error e =>
      have hothers : log.map Prod.fst = rest.filterMap (·.toRequest.toOption) := by
        simpa [hread, Except.toOption] using hlog
      obtain ⟨handled, n', hdrains, hrun, hall⟩ := ih (n := n.withMailbox (refused n.mailbox m address e))
        (holds_refused hn) hserver hothers hruns { report with rejected := report.rejected ++ [(m.id, e)] }
      refine ⟨.refused m e :: handled, n', ?_, ?_, ?_⟩
      · exact hdrains.cons (x := .refused m e) hread (fun _ _ => rfl) rfl (refused_eq address hid) hlater
      · rw [List.filterMap_cons_none Handling.run?_refused, hrun]
      · rw [answerMail_refused hm hread]
        simpa [List.filterMap_cons_some] using hall
    | ok r =>
      have hfirst : log.map Prod.fst = r :: rest.filterMap (·.toRequest.toOption) := by
        simpa [hread, Except.toOption] using hlog
      cases hruns with
      | none => cases hfirst
      | @next r' a log _ u _ hanswer hruns =>
        obtain ⟨hr, hothers⟩ := List.cons.inj hfirst
        obtain rfl : r = r' := hr.symm
        -- the network when the server has run the request
        let n₁ : Network := { n with servers := n.servers.insert server u }
        have hserve : serve budget thread server r n = some (.ok a, n₁) := by
          rw [serve_eq hserver, hanswer]
          rfl
        have hreached : n₁.servers.find? server = some u := by rw [Dict.find?_insert, if_pos rfl]
        have hkept : ∀ name, name ≠ server → n₁.servers.find? name = n.servers.find? name := fun name hname => by
          rw [Dict.find?_insert, if_neg hname]
        obtain ⟨handled, n', hdrains, hrun, hall⟩ := ih (n := n₁.withMailbox (answered n.mailbox m address r.id a))
          (holds_answered hn) hreached hothers hruns { report with processed := report.processed + 1 }
        have hcount : report.processed + 1 + log.length = report.processed + (log.length + 1) := by omega
        refine ⟨.served m r a :: handled, n', ?_, ?_, ?_⟩
        · exact hdrains.cons (x := .served m r a) hread hkept rfl (served_eq address hid hread) hlater
        · rw [List.filterMap_cons_some Handling.run?_served, hrun]
        · have hthere : m ∈ n₁.mailbox.messages := hm
          rw [answerMail_served hthere hread hserve, List.filterMap_cons_none Handling.rejection?_served,
            List.length_cons, ← hcount]
          exact hall

theorem clear_addressed {b : Mailbox} (hb : b.Numbered) (address : String) :
    (b.clear ((b.addressedTo address).filter (·.isRequest))).messages =
      b.messages.filter (fun m => ¬(m.recipient = address ∧ m.isRequest = true)) := by
  rw [Mailbox.messages_clear]
  apply List.filter_congr
  intro m hm
  rw [Bool.eq_iff_iff, decide_eq_true_eq, decide_eq_true_eq, not_iff_not, List.mem_map]
  constructor
  · rintro ⟨x, hx, hid⟩
    obtain ⟨hx, hrequest⟩ := List.mem_filter.mp hx
    obtain ⟨hx, hrecipient⟩ := List.mem_filter.mp hx
    obtain rfl := hb.eq_of_id hx hm hid
    exact ⟨of_decide_eq_true hrecipient, hrequest⟩
  · rintro ⟨hrecipient, hrequest⟩
    have haddressed : m ∈ b.addressedTo address := List.mem_filter.mpr ⟨hm, decide_eq_true hrecipient⟩
    exact ⟨m, List.mem_filter.mpr ⟨haddressed, hrequest⟩, rfl⟩

/-- A listener takes all requests to its address out of the mailbox, in the order of their numbers. Those that can be read are
run once each and answered, the others are reported and, if they have an id, refused as invalid. All other messages stay, and
the answers are behind them. -/
theorem poll_drains (hn : n.mailbox.Numbered) (hserver : n.servers.find? server = some s)
    {log : List (Request Datum × Answer Datum)}
    (hlog : log.map Prod.fst = ((n.mailbox.addressedTo address).filter (·.isRequest)).filterMap (·.toRequest.toOption))
    (hruns : Server.Runs budget thread log s t) :
    ∃ (handled : List Handling) (n' : Network), poll budget thread address server n =
        some (.ok { processed := log.length, rejected := handled.filterMap (·.rejection?) }, n') ∧
      handled.map (·.mail) = (n.mailbox.addressedTo address).filter (·.isRequest) ∧
      (handled.map (·.mail.id)).Pairwise (· < ·) ∧
      (∀ x ∈ handled, x.Sound) ∧
      handled.filterMap (·.run?) = log ∧
      (∀ m e, .refused m e ∈ handled → e.toFault.kind = .invalidRequest) ∧
      (∀ name, n'.servers.find? name = if name = server then some t else n.servers.find? name) ∧
      n'.bindings = n.bindings ∧
      n'.mailbox.messages = n.mailbox.messages.filter (fun m => ¬(m.recipient = address ∧ m.isRequest = true)) ++
        (handled.filterMap (·.response? address)).mapIdx (fun i m => { m with id := n.mailbox.lastId + 1 + i }) ∧
      n'.mailbox.lastId = n.mailbox.lastId + (handled.filterMap (·.response? address)).length ∧
      n'.mailbox.Numbered ∧ (n'.mailbox.addressedTo address).filter (·.isRequest) = [] := by
  obtain ⟨handled, n', hdrains, hrun, hall⟩ := answerAll_drains (.of_addressed hn address) hserver hlog hruns {}
  have hmessages : n'.mailbox.messages =
      n.mailbox.messages.filter (fun m => ¬(m.recipient = address ∧ m.isRequest = true)) ++
        (handled.filterMap (·.response? address)).mapIdx (fun i m => { m with id := n.mailbox.lastId + 1 + i }) := by
    rw [hdrains.mailbox, Mailbox.messages_sendAll, clear_addressed hn, Mailbox.lastId_clear]
  refine ⟨handled, n', ?_, hdrains.mail, ?_, hdrains.sound, hrun, fun m e he => ?_, hdrains.servers, hdrains.bindings,
    hmessages, ?_, ?_, ?_⟩
  · rw [poll, Run.get_bind, hall]
    simp
  · have hascending : (((n.mailbox.addressedTo address).filter (·.isRequest)).map (·.id)).Pairwise (· < ·) :=
      List.pairwise_map.mpr ((hn.ascending.filter _).filter _)
    rwa [← hdrains.mail, List.map_map] at hascending
  · exact Mail.toRequest_error (hdrains.sound _ he)
  · rw [hdrains.mailbox, Mailbox.lastId_sendAll, Mailbox.lastId_clear]
  · rw [hdrains.mailbox]
    exact (hn.clear _).sendAll _
  · apply List.filter_eq_nil_iff.mpr
    intro m hm hrequest
    obtain ⟨hm, hrecipient⟩ := List.mem_filter.mp hm
    rw [hmessages] at hm
    obtain hm | hm := List.mem_append.mp hm
    · have hkept := of_decide_eq_true (List.mem_filter.mp hm).2
      exact hkept ⟨of_decide_eq_true hrecipient, hrequest⟩
    · -- what the listener has sent is no request
      obtain ⟨i, hi, rfl⟩ := List.mem_mapIdx.mp hm
      obtain ⟨x, _, hx⟩ := List.mem_filterMap.mp (List.getElem_mem hi)
      obtain ⟨id, _, hx⟩ := Option.map_eq_some_iff.mp hx
      have hresponse := Mail.isPrefixOf_of_idBehind (Mail.answerId_ofAnswer id x.envelope address x.mail.sender)
      rw [hx] at hresponse
      exact absurd hresponse (Bool.eq_false_iff.mp (Mail.not_isResponse hrequest))

end Network

namespace meter

/-- The request as a message. -/
def asked : Mail where
  id := 2
  sender := "home"
  recipient := "desk"
  subject := Mail.requestSubject ++ raise.id.toText
  body := Mail.bodyOf raise

/-- A message of the desk to itself that has an id but no fields. -/
def empty : Mail where
  id := 3
  sender := "desk"
  recipient := "desk"
  subject := "ExecuteNomadicMethod-Request>00000000-0000-0000-0000-000000000007"
  body := "found"

/-- A message whose id cannot be read. -/
def torn : Mail where
  id := 5
  sender := "porter"
  recipient := "desk"
  subject := "ExecuteNomadicMethod-Request>7"
  body := ""

/-- A message to the desk that is no request. -/
def note : Mail := { id := 6, sender := "porter", recipient := "desk", subject := "Keys", body := "found" }

/-- A request to another one. -/
def other : Mail := { id := 8, sender := "desk", recipient := "home", subject := "ExecuteNomadicMethod-Request>8", body := "" }

def tray : Network where
  servers := [("desk", shelf)]
  mailbox := ⟨9, [asked, empty, torn, note, other]⟩

theorem asked_read : asked.toRequest = .ok raise := by
  have hsent : Mail.ofRequest raise "home" "desk" = .ok { asked with id := 0 } := by
    rw [Mail.ofRequest, office_clear.mailable]
    rfl
  have hread := Mail.toRequest_ofRequest hsent office_clear.writable
  rw [Mail.toRequest_withId] at hread
  exact hread

theorem tray_numbered : tray.mailbox.Numbered where
  ascending := by simp [tray, asked, empty, torn, note, other]
  below := by simp [tray, asked, empty, torn, note, other]

theorem tray_pending : (tray.mailbox.addressedTo "desk").filter (·.isRequest) = [asked, empty, torn] := by
  have haddressed : tray.mailbox.addressedTo "desk" = [asked, empty, torn, note] := by rfl
  have hasked : asked.isRequest = true :=
    Mail.isPrefixOf_of_idBehind (Mail.idBehind_append Mail.requestSubject raise.id)
  have hempty : empty.isRequest = true := by decide +kernel
  have htorn : torn.isRequest = true := by decide +kernel
  have hnote : note.isRequest = false := by decide +kernel
  rw [haddressed]
  simp [hasked, hempty, htorn, hnote]

theorem tray_requests : [asked, empty, torn].filterMap (·.toRequest.toOption) = [raise] := by
  have hasked : asked.toRequest.toOption = some raise := by rw [asked_read]; rfl
  have hempty : empty.toRequest.toOption = none := by rfl
  have htorn : torn.toRequest.toOption = none := by rfl
  rw [List.filterMap_cons_some (f := fun m : Mail => m.toRequest.toOption) hasked,
    List.filterMap_cons_none (f := fun m : Mail => m.toRequest.toOption) hempty,
    List.filterMap_cons_none (f := fun m : Mail => m.toRequest.toOption) htorn, List.filterMap_nil]

end meter

open meter in
/-- The desk raises the meter for the one request that can be read and refuses the others. -/
theorem meter_drained : ∃ (handled : List Handling) (n' : Network), Network.poll 10 none "desk" "desk" tray =
      some (.ok { processed := 1, rejected := handled.filterMap (·.rejection?) }, n') ∧
    handled.map (·.mail) = [asked, empty, torn] ∧
    handled.filterMap (·.run?) = [(raise, .completed (.int32 6) [level 6, level 6])] ∧
    (n'.mailbox.addressedTo "desk").filter (·.isRequest) = [] := by
  obtain ⟨u, _, hanswer⟩ := shelf_answers
  have hserver : tray.servers.find? "desk" = some shelf := rfl
  have hruns : Server.Runs 10 none [(raise, .completed (.int32 6) [level 6, level 6])] shelf u := .next hanswer .none
  have hlog : [(raise, Answer.completed (.int32 6) [level 6, level 6])].map Prod.fst =
      ((tray.mailbox.addressedTo "desk").filter (·.isRequest)).filterMap (·.toRequest.toOption) := by
    rw [tray_pending, tray_requests]
    rfl
  obtain ⟨handled, n', hpoll, hmail, _, _, hrun, _, _, _, _, _, _, hrest⟩ :=
    Network.poll_drains tray_numbered hserver hlog hruns
  exact ⟨handled, n', hpoll, hmail.trans tray_pending, hrun, hrest⟩

end MobileCode
