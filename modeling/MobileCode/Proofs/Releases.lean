import MobileCode.Proofs.Attempts
import MobileCode.Proofs.Outcomes

/-! # The life of a channel

An attempt opens the channel that it obtained, hands over the request, hands it over once more with the module if the server
lacks it, and releases the channel: it closes the channel after a call that went well and aborts it otherwise. What fails on
the way comes to the caller as a failure of the transport, what the server answers does not.
-/
namespace MobileCode

/-! ## Computations that come to an end -/

namespace Run
variable {σ α β : Type} {x : Run σ α} {s u : σ} {b : Except Error β}

theorem bind_eq_some {f : α → Run σ β} : (x >>= f) s = some (b, u) ↔
    (∃ e, x s = some (.error e, u) ∧ b = .error e) ∨ ∃ a t, x s = some (.ok a, t) ∧ f a t = some (b, u) := by
  rw [bind_apply]
  rcases x s with _ | ⟨e | a, t⟩
  · simp
  · simp [eq_comm, and_comm]
  · simp

theorem attempt_bind_eq_some {f : Except Error α → Run σ β} : (Run.attempt x >>= f) s = some (b, u) ↔
    ∃ a t, x s = some (a, t) ∧ f a t = some (b, u) := by
  rw [bind_apply, attempt]
  rcases x s with _ | ⟨a, t⟩ <;> simp

end Run

/-! ## Ids -/

theorem Uuid.bigEndian_inj {width n m : Nat} (hn : n < 256 ^ width) (hm : m < 256 ^ width)
    (h : bigEndian width n = bigEndian width m) : n = m := by
  induction width generalizing n m with
  | zero => omega
  | succ width ih =>
    obtain ⟨hfront, hlast⟩ := List.append_inj' h rfl
    have hdigit : n % 256 = m % 256 := by simpa using congrArg UInt8.toNat (List.cons.inj hlast).1
    have hrest : n / 256 = m / 256 := by
      apply ih _ _ hfront
      all_goals
        apply Nat.div_lt_of_lt_mul
        rwa [← pow_succ']
    omega

theorem Uuid.ofNat_inj {n m : Nat} (hn : n < 2 ^ 128) (hm : m < 2 ^ 128) (h : ofNat n = ofNat m) : n = m :=
  bigEndian_inj hn hm (congrArg Uuid.bytes h)

/-! ## Operations on a channel -/

/-- An operation on a channel, and what came of it. -/
inductive Deed (γ : Type)
  | start (outcome : Except Error γ)
  | exchange (r : Request Value) (outcome : Except Error (Answer Datum))
  | close (outcome : Except Error γ)
  | abort

/-- The channel is given up. -/
def Deed.Releases {γ : Type} : Deed γ → Prop
  | close _ | abort => True
  | _ => False

namespace Transport
variable {ν : Type}

/-- The operations are done on the channel one after the other. -/
inductive Does (T : Transport ν) (heap : Heap) (limit : Option Duration) :
    T.Channel → List (Deed T.Channel) → ν → ν → Prop
  | none {channel : T.Channel} {x : ν} : Does T heap limit channel [] x x
  | opens {made channel : T.Channel} {rest : List (Deed T.Channel)} {x y z : ν} :
    T.start made x = some (.ok channel, y) → Does T heap limit channel rest y z →
    Does T heap limit made (.start (.ok channel) :: rest) x z
  | fails {made : T.Channel} {e : Error} {rest : List (Deed T.Channel)} {x y z : ν} :
    T.start made x = some (.error e, y) → Does T heap limit made rest y z →
    Does T heap limit made (.start (.error e) :: rest) x z
  | exchanges {channel : T.Channel} {r : Request Value} {a : Except Error (Answer Datum)} {rest : List (Deed T.Channel)}
    {x y z : ν} : T.exchange channel heap r limit x = some (a, y) → Does T heap limit channel rest y z →
    Does T heap limit channel (.exchange r a :: rest) x z
  | closes {channel : T.Channel} {a : Except Error T.Channel} {rest : List (Deed T.Channel)} {x y z : ν} :
    T.close channel x = some (a, y) → Does T heap limit channel rest y z →
    Does T heap limit channel (.close a :: rest) x z
  | aborts {channel : T.Channel} {rest : List (Deed T.Channel)} {x z : ν} :
    Does T heap limit channel rest (T.abort channel x).2 z → Does T heap limit channel (.abort :: rest) x z

/-- All operations come to an end. -/
structure Ends (T : Transport ν) : Prop where
  connect : ∀ endpoint x, T.connect endpoint x ≠ none
  start : ∀ channel x, T.start channel x ≠ none
  exchange : ∀ channel heap r limit x, T.exchange channel heap r limit x ≠ none
  close : ∀ channel x, T.close channel x ≠ none

section
variable {T : Transport ν} {heap : Heap} {limit : Option Duration} {channel made : T.Channel} {rest : List (Deed T.Channel)}
  {x z : ν}

@[simp] theorem does_nil : T.Does heap limit channel [] x z ↔ z = x := by
  constructor
  · intro h
    cases h
    rfl
  · rintro rfl
    exact .none

@[simp] theorem does_opens : T.Does heap limit made (.start (.ok channel) :: rest) x z ↔
    ∃ y, T.start made x = some (.ok channel, y) ∧ T.Does heap limit channel rest y z := by
  constructor
  · intro h
    cases h with
    | opens h hrest => exact ⟨_, h, hrest⟩
  · rintro ⟨y, h, hrest⟩
    exact .opens h hrest

@[simp] theorem does_fails {e : Error} : T.Does heap limit made (.start (.error e) :: rest) x z ↔
    ∃ y, T.start made x = some (.error e, y) ∧ T.Does heap limit made rest y z := by
  constructor
  · intro h
    cases h with
    | fails h hrest => exact ⟨_, h, hrest⟩
  · rintro ⟨y, h, hrest⟩
    exact .fails h hrest

@[simp] theorem does_exchanges {r : Request Value} {a : Except Error (Answer Datum)} :
    T.Does heap limit channel (.exchange r a :: rest) x z ↔
      ∃ y, T.exchange channel heap r limit x = some (a, y) ∧ T.Does heap limit channel rest y z := by
  constructor
  · intro h
    cases h with
    | exchanges h hrest => exact ⟨_, h, hrest⟩
  · rintro ⟨y, h, hrest⟩
    exact .exchanges h hrest

@[simp] theorem does_closes {a : Except Error T.Channel} : T.Does heap limit channel (.close a :: rest) x z ↔
    ∃ y, T.close channel x = some (a, y) ∧ T.Does heap limit channel rest y z := by
  constructor
  · intro h
    cases h with
    | closes h hrest => exact ⟨_, h, hrest⟩
  · rintro ⟨y, h, hrest⟩
    exact .closes h hrest

@[simp] theorem does_aborts : T.Does heap limit channel (.abort :: rest) x z ↔
    T.Does heap limit channel rest (T.abort channel x).2 z := by
  constructor
  · intro h
    cases h with
    | aborts hrest => exact hrest
  · exact .aborts

end

/-! ### Operations that are written down -/

/-- An operation is written down with what came of it. -/
def noted {γ α : Type} (deed : Except Error α → Deed γ) (x : Run ν α) : Run (ν × List (Deed γ)) α := fun y =>
  (x y.1).map fun p => (p.1, (p.2, y.2 ++ [deed p.1]))

/-- The same transport, with a list of all that is done on its channels. -/
def noting (T : Transport ν) : Transport (ν × List (Deed T.Channel)) where
  Channel := T.Channel
  connect endpoint := Run.zoom Prod.fst (fun y x => (y, x.2)) (T.connect endpoint)
  endpoint := T.endpoint
  start channel := noted .start (T.start channel)
  exchange channel heap r limit := noted (.exchange r) (T.exchange channel heap r limit)
  close channel := noted .close (T.close channel)
  abort channel x := ((T.abort channel x.1).1, (T.abort channel x.1).2, x.2 ++ [.abort])
  wait d := Run.zoom Prod.fst (fun y x => (y, x.2)) (T.wait d)

theorem noted_eq_some {γ α : Type} {deed : Except Error α → Deed γ} {x : Run ν α} {a : Except Error α}
    {y z : ν × List (Deed γ)} : noted deed x y = some (a, z) ↔ x y.1 = some (a, z.1) ∧ z.2 = y.2 ++ [deed a] := by
  obtain ⟨z, log⟩ := z
  rw [noted, Option.map_eq_some_iff]
  constructor
  · rintro ⟨⟨b, w⟩, hx, h⟩
    cases h
    exact ⟨hx, rfl⟩
  · rintro ⟨hx, hlog⟩
    cases hlog
    exact ⟨_, hx, rfl⟩

theorem connect_noting {T : Transport ν} {endpoint : String} {a : Except Error T.Channel}
    {x y : ν × List (Deed T.Channel)} (h : T.noting.connect endpoint x = some (a, y)) :
    T.connect endpoint x.1 = some (a, y.1) ∧ y.2 = x.2 := by
  have hzoom : Run.zoom Prod.fst (fun y x => (y, x.2)) (T.connect endpoint) x = some (a, y) := h
  obtain ⟨z, hconnect, rfl⟩ := Run.zoom_eq_some.mp hzoom
  exact ⟨hconnect, rfl⟩

/-- Exactly what is done is written down. -/
theorem does_noting {T : Transport ν} {heap : Heap} {limit : Option Duration} {channel : T.Channel}
    {deeds : List (Deed T.Channel)} {x z : ν × List (Deed T.Channel)} (h : T.noting.Does heap limit channel deeds x z) :
    z.2 = x.2 ++ deeds := by
  induction deeds generalizing channel x with
  | nil =>
    obtain rfl := does_nil.mp h
    exact (List.append_nil _).symm
  | cons d rest ih =>
    -- after the operation the list is longer by it
    suffices ∃ (channel' : T.Channel) (y : ν × List (Deed T.Channel)),
        T.noting.Does heap limit channel' rest y z ∧ y.2 = x.2 ++ [d] by
      obtain ⟨channel', y, hrest, hlog⟩ := this
      rw [ih hrest, hlog, List.append_assoc, List.singleton_append]
    rcases d with (e | opened) | ⟨r, a⟩ | a | _
    · obtain ⟨y, hstart, hrest⟩ := does_fails.mp h
      exact ⟨channel, y, hrest, (noted_eq_some.mp hstart).2⟩
    · obtain ⟨y, hstart, hrest⟩ := does_opens.mp h
      exact ⟨opened, y, hrest, (noted_eq_some.mp hstart).2⟩
    · obtain ⟨y, hexchange, hrest⟩ := does_exchanges.mp h
      exact ⟨channel, y, hrest, (noted_eq_some.mp hexchange).2⟩
    · obtain ⟨y, hclose, hrest⟩ := does_closes.mp h
      exact ⟨channel, y, hrest, (noted_eq_some.mp hclose).2⟩
    · exact ⟨channel, _, does_aborts.mp h, rfl⟩

end Transport

/-- The exchanges of an attempt and the last answer: a second one, with the module and an id of its own, if the first answer
asks for the module. The number is that of the next request. -/
inductive Asked {γ : Type} (r : Request Value) (l : LoadedModule) (n : Nat) :
    List (Deed γ) → Except Error (Answer Datum) → Nat → Prop
  | once {a : Except Error (Answer Datum)} : a ≠ .ok .moduleUnknown → Asked r l n [.exchange r a] a n
  | twice {a : Except Error (Answer Datum)} : Asked r l n [.exchange r (.ok .moduleUnknown),
    .exchange { r with id := Uuid.ofNat n, upload := some l.bytes } a] a (n + 1)

namespace Asked
variable {γ : Type} {r : Request Value} {l : LoadedModule} {n n' : Nat} {asked : List (Deed γ)}
  {a : Except Error (Answer Datum)}

theorem answers (h : Asked r l n asked a n') :
    (∃ r', .exchange r' a ∈ asked) ∧ ∀ d ∈ asked, ∃ r', d = .exchange r' a ∨ d = .exchange r' (.ok .moduleUnknown) := by
  cases h with
  | once => simp
  | twice => simp

theorem only (h : Asked r l n asked a n') : (∀ outcome, .close outcome ∉ asked) ∧ ∀ outcome, .start outcome ∉ asked := by
  cases h with
  | once => simp
  | twice => simp

/-- No exchange before the last one fails or is answered with a fault. -/
theorem sound {answer : Answer Datum} {result : CallResult Datum} (h : Asked r l n asked (.ok answer) n')
    (hresult : answer.toCallResult = .ok result) :
    (∀ r e, .exchange r (.error e) ∉ asked) ∧ ∀ r f, .exchange r (.ok (.fault f)) ∉ asked := by
  have hfault (f : Fault) : .fault f ≠ answer := by
    rintro rfl
    cases hresult
  cases h with
  | once => simp [hfault]
  | twice => simp [hfault]

theorem does_append {ν : Type} {T : Transport ν} {heap : Heap} {limit : Option Duration} {asked rest : List (Deed T.Channel)}
    (h : Asked r l n asked a n') {channel : T.Channel} {x z : ν} : T.Does heap limit channel (asked ++ rest) x z ↔
      ∃ y, T.Does heap limit channel asked x y ∧ T.Does heap limit channel rest y z := by
  cases h with
  | once => simp
  | twice =>
    simp only [List.cons_append, List.nil_append, Transport.does_exchanges, Transport.does_nil]
    constructor
    · rintro ⟨y, hfirst, y', hsecond, hrest⟩
      exact ⟨y', ⟨y, hfirst, y', hsecond, rfl⟩, hrest⟩
    · rintro ⟨y', ⟨y, hfirst, _, hsecond, rfl⟩, hrest⟩
      exact ⟨y, hfirst, _, hsecond, hrest⟩

end Asked

/-! ## What the caller is told -/

/-- How a failure of a channel is reported: timeouts and failures of the transport as they are, all others as failures of the
transport. -/
inductive Client.Reported (endpoint : String) : Error → Error → Prop
  | timeout {method type module : String} {limit : Duration} :
    Reported endpoint (.timeout method type module limit) (.timeout method type module limit)
  | transport {place message : String} : Reported endpoint (.transport place message) (.transport place message)
  | other {e : Error} : (∀ method type module limit, e ≠ .timeout method type module limit) →
    (∀ place message, e ≠ .transport place message) → Reported endpoint e (.transport endpoint e.message)

namespace Client
variable {ν : Type}

/-- What is done with a channel in an attempt, and what comes of the attempt. Each channel has the endpoint of its place. -/
inductive Life {γ : Type} (place : γ → String) (r : Request Value) (l : LoadedModule) (endpoint : String) (made : γ)
    (n : Nat) : List (Deed γ) → Except Error (CallResult Datum) → Nat → Prop
  | unopened {e e' : Error} : Reported (place made) e e' →
    Life place r l endpoint made n [.start (.error e), .abort] (.error e') n
  | broken {channel : γ} {asked : List (Deed γ)} {e e' : Error} {n' : Nat} :
    Asked r l n asked (.error e) n' → Reported (place channel) e e' →
    Life place r l endpoint made n (.start (.ok channel) :: asked ++ [.abort]) (.error e') n'
  | faulted {channel : γ} {asked : List (Deed γ)} {f : Fault} {n' : Nat} : Asked r l n asked (.ok (.fault f)) n' →
    Life place r l endpoint made n (.start (.ok channel) :: asked ++ [.abort]) (.error (.ofFault f)) n'
  | closed {channel closed : γ} {asked : List (Deed γ)} {a : Answer Datum} {result : CallResult Datum} {n' : Nat} :
    Asked r l n asked (.ok a) n' → a.toCallResult = .ok result →
    Life place r l endpoint made n (.start (.ok channel) :: asked ++ [.close (.ok closed)]) (.ok result) n'
  | unclosed {channel : γ} {asked : List (Deed γ)} {a : Answer Datum} {result : CallResult Datum} {e e' : Error}
    {n' : Nat} : Asked r l n asked (.ok a) n' → a.toCallResult = .ok result → Reported endpoint e e' →
    Life place r l endpoint made n (.start (.ok channel) :: asked ++ [.close (.error e)]) (.error e') n'

section
variable {γ : Type} {place : γ → String} {r : Request Value} {l : LoadedModule} {endpoint : String} {made : γ} {n n' : Nat}
  {deeds : List (Deed γ)} {a : Except Error (CallResult Datum)}

/-- The channel is released once, at the end. -/
theorem Life.released (h : Life place r l endpoint made n deeds a n') :
    ∃ front last, deeds = front ++ [last] ∧ last.Releases ∧ ∀ d ∈ front, ¬d.Releases := by
  have hfront {channel : γ} {asked : List (Deed γ)} {b : Except Error (Answer Datum)} (hasked : Asked r l n asked b n') :
      ∀ d ∈ .start (.ok channel) :: asked, ¬d.Releases := by
    intro d hd
    obtain rfl | hd := List.mem_cons.mp hd
    · simp [Deed.Releases]
    · obtain ⟨r', rfl | rfl⟩ := hasked.answers.2 d hd <;> simp [Deed.Releases]
  cases h with
  | @unopened e => exact ⟨[.start (.error e)], .abort, rfl, trivial, by simp [Deed.Releases]⟩
  | broken hasked | faulted hasked | closed hasked | unclosed hasked => exact ⟨_, _, rfl, trivial, hfront hasked⟩

/-- The channel is closed if nothing has failed on it and no fault was answered. -/
theorem Life.closes_iff (h : Life place r l endpoint made n deeds a n') : (∃ outcome, .close outcome ∈ deeds) ↔
    (∀ e, .start (.error e) ∉ deeds) ∧ (∀ r e, .exchange r (.error e) ∉ deeds) ∧
      ∀ r f, .exchange r (.ok (.fault f)) ∉ deeds := by
  cases h with
  | unopened => simp
  | broken hasked =>
    obtain ⟨r', hr⟩ := hasked.answers.1
    constructor
    · simp [hasked.only]
    · intro h
      exact (h.2.1 r' _ (List.mem_append_left _ (List.mem_cons_of_mem _ hr))).elim
  | faulted hasked =>
    obtain ⟨r', hr⟩ := hasked.answers.1
    constructor
    · simp [hasked.only]
    · intro h
      exact (h.2.2 r' _ (List.mem_append_left _ (List.mem_cons_of_mem _ hr))).elim
  | closed hasked hresult => simp [hasked.only, hasked.sound hresult]
  | unclosed hasked hresult => simp [hasked.only, hasked.sound hresult]

end

theorem reported_iff {endpoint : String} {e e' : Error} : Reported endpoint e e' ↔ e' = asTransport endpoint e := by
  constructor
  · intro h
    cases h with
    | timeout | transport => rfl
    | other htimeout htransport =>
      cases e with
      | timeout method type module limit => exact absurd rfl (htimeout method type module limit)
      | transport place message => exact absurd rfl (htransport place message)
      | _ => rfl
  · rintro rfl
    cases e with
    | timeout => exact .timeout
    | transport => exact .transport
    | _ => exact .other (by simp) (by simp)

/-- What the client makes of an answer or of a failure of the channel. -/
def told (place : String) (a : Except Error (Answer Datum)) : Except Error (CallResult Datum) :=
  (a.mapError (asTransport place)).bind Answer.toCallResult

variable {c : Client ν} {s t : State (Reach ν)}

theorem onNetwork_eq_some {α : Type} {x : Run ν α} {a : Except Error α} :
    onNetwork x s = some (a, t) ↔ ∃ y, x s.outside.network = some (a, y) ∧ t = s.withNetwork y := by
  constructor
  · intro h
    rcases hx : x s.outside.network with _ | ⟨b, y⟩
    · simp [onNetwork, onReach, State.onOutside, Run.zoom, hx] at h
    · rw [onNetwork_eq hx] at h
      cases h
      exact ⟨y, rfl, rfl⟩
  · rintro ⟨y, hx, rfl⟩
    exact onNetwork_eq hx

theorem onChannel_eq_some_iff {α : Type} {place : String} {x : Run ν α} {a : Except Error α} :
    onChannel place x s = some (a, t) ↔
      ∃ b y, x s.outside.network = some (b, y) ∧ a = b.mapError (asTransport place) ∧ t = s.withNetwork y := by
  rw [onChannel, Run.attempt_bind_eq_some]
  simp only [onNetwork_eq_some]
  constructor
  · rintro ⟨b, _, ⟨y, hx, rfl⟩, hb⟩
    cases b <;> (cases hb; exact ⟨_, y, hx, rfl, rfl⟩)
  · rintro ⟨b, y, hx, rfl, rfl⟩
    refine ⟨b, _, ⟨y, hx, rfl⟩, ?_⟩
    cases b <;> rfl

theorem send_eq_some {channel : c.transport.Channel} {r : Request Value} {a : Except Error (CallResult Datum)} :
    c.send channel r s = some (a, t) ↔ ∃ b y,
      c.transport.exchange channel s.domain.heap r c.settings.deadline s.outside.network = some (b, y) ∧
        a = told (c.transport.endpoint channel) b ∧ t = s.withNetwork y := by
  rw [send, State.getHeap_bind, Run.bind_eq_some]
  simp only [onChannel_eq_some_iff]
  constructor
  · rintro (⟨e, ⟨b, y, hx, hb, rfl⟩, rfl⟩ | ⟨b, _, ⟨b', y, hx, hb, rfl⟩, ha⟩)
    · refine ⟨b, y, hx, ?_, rfl⟩
      rw [told, ← hb]
      rfl
    · cases ha
      refine ⟨b', y, hx, ?_, rfl⟩
      rw [told, ← hb]
      rfl
  · rintro ⟨b, y, hx, rfl, rfl⟩
    cases b with
    | error e => exact .inl ⟨_, ⟨_, y, hx, rfl, rfl⟩, rfl⟩
    | ok a => exact .inr ⟨a, _, ⟨_, y, hx, rfl, rfl⟩, rfl⟩

theorem told_eq_moduleMissing {place : String} {a : Except Error (Answer Datum)} :
    told place a = .ok .moduleMissing ↔ a = .ok .moduleUnknown := by
  constructor
  · intro h
    rcases a with e | ⟨_ | _ | _⟩
    all_goals first | rfl | cases h
  · rintro rfl
    rfl

/-- An exchange hands the request over once, and once more if the module is asked for. -/
theorem exchange_eq_some {channel : c.transport.Channel} {r : Request Value} {l : LoadedModule}
    {a : Except Error (CallResult Datum)} : c.exchange channel r l s = some (a, t) ↔
      ∃ asked b n z, Asked r l s.outside.nextId asked b n ∧
        c.transport.Does s.domain.heap c.settings.deadline channel asked s.outside.network z ∧
        a = told (c.transport.endpoint channel) b ∧
        t = { s with outside := { s.outside with nextId := n, network := z } } := by
  rw [exchange_eq, Run.bind_eq_some]
  simp only [send_eq_some]
  constructor
  · rintro (⟨e, ⟨b, y, hx, hb, rfl⟩, rfl⟩ | ⟨result, _, ⟨b, y, hx, hb, rfl⟩, h⟩)
    · refine ⟨[.exchange r b], b, _, y, .once ?_, by simpa using hx, hb, rfl⟩
      rintro rfl
      cases hb
    · by_cases hmissing : result = .moduleMissing
      · subst hmissing
        obtain rfl := told_eq_moduleMissing.mp hb.symm
        obtain ⟨b, z, hz, rfl, rfl⟩ := send_eq_some.mp h
        exact ⟨_, b, _, z, .twice, by simpa using ⟨y, hx, hz⟩, rfl, rfl⟩
      · have hlast : (a, t) = (.ok result, s.withNetwork y) := by
          cases result with
          | moduleMissing => exact absurd rfl hmissing
          | disabled | executed => cases h; rfl
        cases hlast
        refine ⟨[.exchange r b], b, _, y, .once ?_, by simpa using hx, hb, rfl⟩
        rintro rfl
        cases hb
        exact hmissing rfl
  · rintro ⟨_, b, n, z, hasked, hdoes, rfl, rfl⟩
    cases hasked with
    | once hb =>
      have hx : c.transport.exchange channel s.domain.heap r c.settings.deadline s.outside.network = some (b, z) := by
        simpa using hdoes
      rcases htold : told (c.transport.endpoint channel) b with e | result
      · exact .inl ⟨e, ⟨b, z, hx, htold.symm, rfl⟩, rfl⟩
      · refine .inr ⟨result, _, ⟨b, z, hx, htold.symm, rfl⟩, ?_⟩
        cases result with
        | moduleMissing => exact absurd (told_eq_moduleMissing.mp htold) hb
        | disabled | executed => rfl
    | twice =>
      obtain ⟨y, hx, hz⟩ : ∃ y,
          c.transport.exchange channel s.domain.heap r c.settings.deadline s.outside.network =
              some (.ok .moduleUnknown, y) ∧
            c.transport.exchange channel s.domain.heap
              { r with id := Uuid.ofNat s.outside.nextId, upload := some l.bytes } c.settings.deadline y =
                some (b, z) := by
        simpa using hdoes
      refine .inr ⟨.moduleMissing, _, ⟨_, y, hx, rfl, rfl⟩, ?_⟩
      exact send_eq_some.mpr ⟨b, z, hz, rfl, rfl⟩

theorem settle_error {endpoint : String} {channel : c.transport.Channel} {e : Error}
    {a : Except Error (CallResult Datum)} : c.settle endpoint channel (.error e) s = some (a, t) ↔
      a = .error e ∧ t = s.withNetwork (c.transport.abort channel s.outside.network).2 := by
  have h : c.settle endpoint channel (.error e) s =
      some (.error e, s.withNetwork (c.transport.abort channel s.outside.network).2) := rfl
  rw [h]
  simp [eq_comm]

theorem settle_ok {endpoint : String} {channel : c.transport.Channel} {result : CallResult Datum}
    {a : Except Error (CallResult Datum)} : c.settle endpoint channel (.ok result) s = some (a, t) ↔
      ∃ b y, c.transport.close channel s.outside.network = some (b, y) ∧
        a = (b.mapError (asTransport endpoint)).map (fun _ => result) ∧ t = s.withNetwork y := by
  rw [settle, Run.bind_eq_some]
  simp only [onChannel_eq_some_iff]
  constructor
  · rintro (⟨e, ⟨b, y, hx, hb, rfl⟩, rfl⟩ | ⟨closed, _, ⟨b, y, hx, hb, rfl⟩, h⟩)
    · exact ⟨b, y, hx, by rw [← hb]; rfl, rfl⟩
    · cases h
      exact ⟨b, y, hx, by rw [← hb]; rfl, rfl⟩
  · rintro ⟨b, y, hx, rfl, rfl⟩
    cases b with
    | error e => exact .inl ⟨_, ⟨_, y, hx, rfl, rfl⟩, rfl⟩
    | ok closed => exact .inr ⟨closed, _, ⟨_, y, hx, rfl, rfl⟩, rfl⟩

section
variable {r : Request Value} {l : LoadedModule} {endpoint : String} {made channel : c.transport.Channel}
  {asked deeds : List (Deed c.transport.Channel)} {a : Except Error (CallResult Datum)} {n : Nat} {z : ν}

/-- What comes of the exchanges is left to settle. -/
theorem attemptOn_opened {rest : List (Deed c.transport.Channel)} {b : Except Error (Answer Datum)}
    (hasked : Asked r l s.outside.nextId asked b n)
    (h : c.transport.Does s.domain.heap c.settings.deadline made (.start (.ok channel) :: asked ++ rest)
      s.outside.network z) :
    ∃ w, c.attemptOn r l endpoint made s = c.settle endpoint channel (told (c.transport.endpoint channel) b)
        { s with outside := { s.outside with nextId := n, network := w } } ∧
      c.transport.Does s.domain.heap c.settings.deadline channel rest w z := by
  rw [List.cons_append, Transport.does_opens] at h
  obtain ⟨y, hstart, h⟩ := h
  obtain ⟨w, hdoes, hrest⟩ := hasked.does_append.mp h
  have hopened : onChannel (c.transport.endpoint made) (c.transport.start made) s = some (.ok channel, s.withNetwork y) :=
    onChannel_eq hstart
  have hexchange : c.exchange channel r l (s.withNetwork y) = some (told (c.transport.endpoint channel) b,
      { s with outside := { s.outside with nextId := n, network := w } }) :=
    exchange_eq_some.mpr ⟨asked, b, n, w, hasked, hdoes, rfl, rfl⟩
  refine ⟨w, ?_, hrest⟩
  rw [attemptOn, Run.bind_apply, Run.attempt, hopened]
  dsimp only
  rw [Run.bind_apply, Run.attempt, hexchange]

theorem attemptOn_of_life (hlife : Life c.transport.endpoint r l endpoint made s.outside.nextId deeds a n)
    (hdoes : c.transport.Does s.domain.heap c.settings.deadline made deeds s.outside.network z) :
    c.attemptOn r l endpoint made s =
      some (a, { s with outside := { s.outside with nextId := n, network := z } }) := by
  cases hlife with
  | @unopened e e' hreported =>
    obtain rfl := reported_iff.mp hreported
    obtain ⟨y, hstart, rfl⟩ : ∃ y, c.transport.start made s.outside.network = some (.error e, y) ∧
        z = (c.transport.abort made y).2 := by simpa using hdoes
    have hopened : onChannel (c.transport.endpoint made) (c.transport.start made) s =
        some (.error (asTransport (c.transport.endpoint made) e), s.withNetwork y) :=
      onChannel_eq_some_iff.mpr ⟨_, y, hstart, rfl, rfl⟩
    rw [attemptOn, Run.attempt_bind_eq_some]
    exact ⟨_, _, hopened, settle_error.mpr ⟨rfl, rfl⟩⟩
  | broken hasked hreported =>
    obtain rfl := reported_iff.mp hreported
    obtain ⟨w, hattempt, hrest⟩ := attemptOn_opened hasked hdoes
    obtain rfl : z = (c.transport.abort _ w).2 := by simpa using hrest
    rw [hattempt]
    exact settle_error.mpr ⟨rfl, rfl⟩
  | faulted hasked =>
    obtain ⟨w, hattempt, hrest⟩ := attemptOn_opened hasked hdoes
    obtain rfl : z = (c.transport.abort _ w).2 := by simpa using hrest
    rw [hattempt]
    exact settle_error.mpr ⟨rfl, rfl⟩
  | @closed channel closed asked answer result n hasked hresult =>
    obtain ⟨w, hattempt, hrest⟩ := attemptOn_opened hasked hdoes
    have hclose : c.transport.close channel w = some (.ok closed, z) := by simpa using hrest
    have htold : told (c.transport.endpoint channel) (.ok answer) = .ok result := hresult
    rw [hattempt, htold]
    exact settle_ok.mpr ⟨_, z, hclose, rfl, rfl⟩
  | @unclosed channel asked answer result e e' n hasked hresult hreported =>
    obtain rfl := reported_iff.mp hreported
    obtain ⟨w, hattempt, hrest⟩ := attemptOn_opened hasked hdoes
    have hclose : c.transport.close channel w = some (.error e, z) := by simpa using hrest
    have htold : told (c.transport.endpoint channel) (.ok answer) = .ok result := hresult
    rw [hattempt, htold]
    exact settle_ok.mpr ⟨_, z, hclose, rfl, rfl⟩

/-- Once its channel has been made, an attempt is a life of the channel. -/
theorem attemptOn_eq_some : c.attemptOn r l endpoint made s = some (a, t) ↔
    ∃ deeds z n, Life c.transport.endpoint r l endpoint made s.outside.nextId deeds a n ∧
      c.transport.Does s.domain.heap c.settings.deadline made deeds s.outside.network z ∧
      t = { s with outside := { s.outside with nextId := n, network := z } } := by
  constructor
  · intro h
    rw [attemptOn, Run.attempt_bind_eq_some] at h
    obtain ⟨_, _, hopened, h⟩ := h
    obtain ⟨opened, y, hstart, rfl, rfl⟩ := onChannel_eq_some_iff.mp hopened
    cases opened with
    | error e =>
      obtain ⟨rfl, rfl⟩ := settle_error.mp h
      exact ⟨_, _, _, .unopened (reported_iff.mpr rfl), by simpa using ⟨y, hstart, rfl⟩, rfl⟩
    | ok channel =>
      obtain ⟨_, _, hexchange, h⟩ := Run.attempt_bind_eq_some.mp h
      obtain ⟨asked, b, n, z, hasked, hdoes, rfl, rfl⟩ := exchange_eq_some.mp hexchange
      cases b with
      | error e =>
        obtain ⟨rfl, rfl⟩ := settle_error.mp h
        refine ⟨_, _, n, .broken hasked (reported_iff.mpr rfl), ?_, rfl⟩
        simpa [hasked.does_append] using ⟨y, hstart, z, hdoes, rfl⟩
      | ok answer =>
        rcases hresult : answer.toCallResult with e | result
        · obtain ⟨f, rfl⟩ : ∃ f, answer = .fault f := by
            cases answer with
            | fault f => exact ⟨f, rfl⟩
            | completed | moduleUnknown => cases hresult
          obtain ⟨rfl, rfl⟩ := settle_error.mp h
          refine ⟨.start (.ok channel) :: asked ++ [.abort], _, n, .faulted hasked, ?_, rfl⟩
          simpa [hasked.does_append] using ⟨y, hstart, z, hdoes, rfl⟩
        · have htold : told (c.transport.endpoint channel) (.ok answer) = .ok result := hresult
          rw [htold] at h
          obtain ⟨closed, w, hclose, rfl, rfl⟩ := settle_ok.mp h
          cases closed with
          | error e =>
            refine ⟨.start (.ok channel) :: asked ++ [.close (.error e)], w, n,
              .unclosed hasked hresult (reported_iff.mpr rfl), ?_, rfl⟩
            simpa [hasked.does_append] using ⟨y, hstart, z, hdoes, hclose⟩
          | ok closed =>
            refine ⟨.start (.ok channel) :: asked ++ [.close (.ok closed)], w, n, .closed hasked hresult, ?_, rfl⟩
            simpa [hasked.does_append] using ⟨y, hstart, z, hdoes, hclose⟩
  · rintro ⟨deeds, z, n, hlife, hdoes, rfl⟩
    exact attemptOn_of_life hlife hdoes

end

/-! ## Attempts -/

theorem exchange_ends (hends : c.transport.Ends) (channel : c.transport.Channel) (r : Request Value) (l : LoadedModule)
    (s : State (Reach ν)) : ∃ a t, c.exchange channel r l s = some (a, t) := by
  obtain ⟨⟨b, y⟩, hfirst⟩ := Option.ne_none_iff_exists'.mp
    (hends.exchange channel s.domain.heap r c.settings.deadline s.outside.network)
  by_cases hb : b = .ok .moduleUnknown
  · subst hb
    obtain ⟨⟨b, z⟩, hsecond⟩ := Option.ne_none_iff_exists'.mp (hends.exchange channel s.domain.heap
      { r with id := Uuid.ofNat s.outside.nextId, upload := some l.bytes } c.settings.deadline y)
    exact ⟨_, _, exchange_eq_some.mpr ⟨_, b, _, z, .twice, by simpa using ⟨y, hfirst, hsecond⟩, rfl, rfl⟩⟩
  · exact ⟨_, _, exchange_eq_some.mpr ⟨_, b, _, y, .once hb, by simpa using hfirst, rfl, rfl⟩⟩

theorem settle_ends (hends : c.transport.Ends) (endpoint : String) (channel : c.transport.Channel)
    (result : Except Error (CallResult Datum)) (s : State (Reach ν)) :
    ∃ a t, c.settle endpoint channel result s = some (a, t) := by
  cases result with
  | error e => exact ⟨_, _, settle_error.mpr ⟨rfl, rfl⟩⟩
  | ok result =>
    obtain ⟨⟨b, y⟩, hclose⟩ := Option.ne_none_iff_exists'.mp (hends.close channel s.outside.network)
    exact ⟨_, _, settle_ok.mpr ⟨b, y, hclose, rfl, rfl⟩⟩

theorem attempt_ends (hends : c.transport.Ends) (r : Request Value) (l : LoadedModule) (endpoint : String)
    (s : State (Reach ν)) : ∃ a t, c.attempt r l endpoint s = some (a, t) := by
  rw [attempt_eq]
  obtain ⟨⟨made, y⟩, hconnect⟩ := Option.ne_none_iff_exists'.mp (hends.connect endpoint s.outside.network)
  have hmade := onNetwork_eq_some.mpr ⟨y, hconnect, rfl⟩
  cases made with
  | error e => exact ⟨_, _, Run.bind_eq_some.mpr (.inl ⟨e, hmade, rfl⟩)⟩
  | ok made =>
    obtain ⟨⟨b, z⟩, hstart⟩ := Option.ne_none_iff_exists'.mp (hends.start made y)
    have hopened : onChannel (c.transport.endpoint made) (c.transport.start made) (s.withNetwork y) =
        some (b.mapError (asTransport (c.transport.endpoint made)), s.withNetwork z) :=
      onChannel_eq_some_iff.mpr ⟨b, z, hstart, rfl, rfl⟩
    suffices ∃ a t, c.attemptOn r l endpoint made (s.withNetwork y) = some (a, t) by
      obtain ⟨a, t, h⟩ := this
      exact ⟨a, t, Run.bind_eq_some.mpr (.inr ⟨made, _, hmade, h⟩)⟩
    cases b with
    | error e =>
      obtain ⟨a, t, h⟩ := settle_ends hends endpoint made (.error (asTransport (c.transport.endpoint made) e))
        (s.withNetwork z)
      exact ⟨a, t, Run.attempt_bind_eq_some.mpr ⟨_, _, hopened, h⟩⟩
    | ok channel =>
      obtain ⟨b, u, hexchange⟩ := exchange_ends hends channel r l (s.withNetwork z)
      obtain ⟨a, t, h⟩ := settle_ends hends endpoint channel b u
      exact ⟨a, t, Run.attempt_bind_eq_some.mpr ⟨_, _, hopened, Run.attempt_bind_eq_some.mpr ⟨b, u, hexchange, h⟩⟩⟩

/-- An attempt lives on the channel that it obtains, if it obtains one. -/
theorem attempt_eq_some {r : Request Value} {l : LoadedModule} {endpoint : String} {a : Except Error (CallResult Datum)} :
    c.attempt r l endpoint s = some (a, t) ↔
      (∃ e y, c.transport.connect endpoint s.outside.network = some (.error e, y) ∧ a = .error e ∧ t = s.withNetwork y) ∨
      ∃ made y deeds z n, c.transport.connect endpoint s.outside.network = some (.ok made, y) ∧
        Life c.transport.endpoint r l endpoint made s.outside.nextId deeds a n ∧
        c.transport.Does s.domain.heap c.settings.deadline made deeds y z ∧
        t = { s with outside := { s.outside with nextId := n, network := z } } := by
  rw [attempt_eq, Run.bind_eq_some]
  simp only [onNetwork_eq_some, attemptOn_eq_some]
  constructor
  · rintro (⟨e, ⟨y, hconnect, rfl⟩, rfl⟩ | ⟨made, _, ⟨y, hconnect, rfl⟩, deeds, z, n, hlife, hdoes, rfl⟩)
    · exact .inl ⟨e, y, hconnect, rfl, rfl⟩
    · exact .inr ⟨made, y, deeds, z, n, hconnect, hlife, hdoes, rfl⟩
  · rintro (⟨e, y, hconnect, rfl, rfl⟩ | ⟨made, y, deeds, z, n, hconnect, hlife, hdoes, rfl⟩)
    · exact .inl ⟨e, ⟨y, hconnect, rfl⟩, rfl⟩
    · exact .inr ⟨made, _, ⟨y, hconnect, rfl⟩, deeds, z, n, hlife, hdoes, rfl⟩

/-- The same client, with a list of all that it does on its channels. -/
def noting (c : Client ν) : Client (ν × List (Deed c.transport.Channel)) :=
  ⟨c.settings, c.recovery, c.clientType, c.transport.noting⟩

/-- What an attempt does on channels is one life of the channel that it obtained. -/
theorem attempt_noting {u v : State (Reach (ν × List (Deed c.transport.Channel)))} {r : Request Value} {l : LoadedModule}
    {endpoint : String} {a : Except Error (CallResult Datum)} (h : c.noting.attempt r l endpoint u = some (a, v)) :
    ∃ deeds, v.outside.network.2 = u.outside.network.2 ++ deeds ∧
      ((∃ e y, c.transport.connect endpoint u.outside.network.1 = some (.error e, y) ∧ deeds = []) ∨
        ∃ made y, c.transport.connect endpoint u.outside.network.1 = some (.ok made, y) ∧
          Life c.transport.endpoint r l endpoint made u.outside.nextId deeds a v.outside.nextId) := by
  obtain ⟨e, y, hconnect, rfl, rfl⟩ | ⟨made, y, deeds, z, n, hconnect, hlife, hdoes, rfl⟩ := attempt_eq_some.mp h
  · obtain ⟨hconnect, hlog⟩ := Transport.connect_noting hconnect
    exact ⟨[], hlog.trans (List.append_nil _).symm, .inl ⟨e, y.1, hconnect, rfl⟩⟩
  · obtain ⟨hconnect, hlog⟩ := Transport.connect_noting hconnect
    have hdeeds := Transport.does_noting hdoes
    rw [hlog] at hdeeds
    exact ⟨deeds, hdeeds, .inr ⟨made, y.1, hconnect, hlife⟩⟩

/-- The request of a call has taken an id. -/
theorem request_numbered {host : Host (Reach ν)} {run : Runner (Reach ν)} {call : ServiceCall} {target : MethodHandle}
    {place : String} {r : Request Value} (h : c.request host run call target s = some (.ok (place, r), t)) :
    ∃ n < t.outside.nextId, r.id = Uuid.ofNat n := by
  rw [request_eq_captured] at h
  obtain ⟨hash, _, _, h⟩ := Run.bind_eq_ok.mp h
  obtain ⟨nonLocals, _, _, h⟩ := Run.bind_eq_ok.mp h
  obtain ⟨endpoint, u, _, h⟩ := Run.bind_eq_ok.mp h
  cases h
  exact ⟨u.outside.nextId, Nat.lt_succ_self _, rfl⟩

/-- An attempt lives on the channel that it obtains, from opening to release, and does nothing else on channels. It ends if all
operations on channels do. The channel is released exactly once. Faults of the server are not reported as failures of the
transport, and the second request has an id that no request before it has. -/
theorem attempt_releases (c : Client ν) (r : Request Value) (l : LoadedModule) (endpoint : String)
    (s : State (Reach ν)) :
    (∀ a t, c.attempt r l endpoint s = some (a, t) ↔
      (∃ e y, c.transport.connect endpoint s.outside.network = some (.error e, y) ∧ a = .error e ∧ t = s.withNetwork y) ∨
      ∃ made y deeds z n, c.transport.connect endpoint s.outside.network = some (.ok made, y) ∧
        Life c.transport.endpoint r l endpoint made s.outside.nextId deeds a n ∧
        c.transport.Does s.domain.heap c.settings.deadline made deeds y z ∧
        t = { s with outside := { s.outside with nextId := n, network := z } }) ∧
    (∀ a u v, c.noting.attempt r l endpoint u = some (a, v) →
      ∃ deeds, v.outside.network.2 = u.outside.network.2 ++ deeds ∧
        ((∃ e y, c.transport.connect endpoint u.outside.network.1 = some (.error e, y) ∧ deeds = []) ∨
          ∃ made y, c.transport.connect endpoint u.outside.network.1 = some (.ok made, y) ∧
            Life c.transport.endpoint r l endpoint made u.outside.nextId deeds a v.outside.nextId)) ∧
    (c.transport.Ends → ∃ a t, c.attempt r l endpoint s = some (a, t)) ∧
    (∀ made n deeds a n', Life c.transport.endpoint r l endpoint made n deeds a n' →
      (∃ front last, deeds = front ++ [last] ∧ last.Releases ∧ ∀ d ∈ front, ¬d.Releases) ∧
      ((∃ outcome, .close outcome ∈ deeds) ↔ (∀ e, .start (.error e) ∉ deeds) ∧
        (∀ r e, .exchange r (.error e) ∉ deeds) ∧ ∀ r f, .exchange r (.ok (.fault f)) ∉ deeds)) ∧
    (∀ f place message, Error.ofFault f ≠ .transport place message) ∧
    (∀ host run call target u place sent v, c.request host run call target u = some (.ok (place, sent), v) →
      ∃ n < v.outside.nextId, sent.id = Uuid.ofNat n) ∧
    ∀ n < s.outside.nextId, s.outside.nextId < 2 ^ 128 → Uuid.ofNat s.outside.nextId ≠ Uuid.ofNat n := by
  refine ⟨fun a t => attempt_eq_some, fun a u v => attempt_noting, fun hends => attempt_ends hends r l endpoint s,
    fun made n deeds a n' hlife => ⟨hlife.released, hlife.closes_iff⟩, fun f place message => ?_,
    fun host run call target u place sent v => request_numbered, fun n hn hbound hsame => ?_⟩
  · unfold Error.ofFault
    split <;> simp
  · have := Uuid.ofNat_inj hbound (by omega) hsame
    omega

end Client
end MobileCode
