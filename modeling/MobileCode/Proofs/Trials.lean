import Mathlib.Data.List.Dedup
import MobileCode.Proofs.Orders
import MobileCode.Proofs.Recoveries

/-! # The attempts of a recovery

A recovery makes its attempts in turn, at the endpoints of its schedule, and the first one that settles the call is the
last. When none of them does, the error carries what they failed with: after a retry all of it, after a failover what came
last from each endpoint.
-/
namespace MobileCode

/-! ## The last of several values -/

namespace Dict
variable {β : Type}

theorem find?_ofList_eq_some {entries : List (String × β)} {name : String} {value : β} :
    (ofList entries).find? name = some value ↔
      ∃ front rest, entries = front ++ (name, value) :: rest ∧ ∀ e ∈ rest, e.1 ≠ name := by
  rw [find?_ofList, List.lookup_eq_some_iff]
  constructor
  · rintro ⟨front, rest, h, hfront⟩
    refine ⟨rest.reverse, front.reverse, by simpa using congrArg List.reverse h, fun e he => ?_⟩
    exact Ne.symm (by simpa using hfront e (List.mem_reverse.mp he))
  · rintro ⟨front, rest, rfl, hrest⟩
    refine ⟨rest.reverse, front.reverse, by simp, fun e he => ?_⟩
    simpa using Ne.symm (hrest e (List.mem_reverse.mp he))

theorem find?_eq_none {d : Dict β} {name : String} : d.find? name = none ↔ name ∉ d.names := by
  rw [find?, List.lookup_eq_none_iff]
  constructor
  · intro h hname
    obtain ⟨e, he, rfl⟩ := List.mem_map.mp hname
    simpa using h e he
  · intro h e he
    exact bne_iff_ne.mpr fun hname => h (hname ▸ List.mem_map_of_mem he)

theorem mem_names_ofList {entries : List (String × β)} {name : String} :
    name ∈ (ofList entries).names ↔ name ∈ entries.map Prod.fst := by
  have hsame : (ofList entries).find? name = none ↔ name ∉ entries.reverse.map Prod.fst := by
    rw [find?_ofList]
    exact find?_eq_none
  rw [← not_iff_not, ← find?_eq_none, hsame, List.map_reverse, List.mem_reverse]

/-- Each name is there once. -/
theorem length_ofList (entries : List (String × β)) :
    (ofList entries).length = (entries.map Prod.fst).dedup.length := by
  have hnodup : (ofList entries).names.Nodup :=
    (List.pairwise_map.mpr (sorted_ofList entries)).imp fun h => String.ne_of_lt h
  have hperm : (ofList entries).names.Perm (entries.map Prod.fst).dedup := by
    apply (List.perm_ext_iff_of_nodup hnodup (List.nodup_dedup _)).mpr
    intro name
    rw [List.mem_dedup, mem_names_ofList]
  simpa [names] using hperm.length_eq

end Dict

/-! ## Attempts in turn -/

namespace Recovery
variable {σ α : Type}

/-- A result, an exception and a fault of a server settle a call. -/
def Settled : Except Error α → Prop
  | .ok _ | .error (.thrown ..) | .error (.remote _) => True
  | .error _ => False

theorem error_of_unsettled {a : Except Error α} (h : ¬Settled a) : ∃ e, a = .error e := by
  cases a with
  | ok x => exact absurd trivial h
  | error e => exact ⟨e, rfl⟩

theorem settled_error {e : Error} : Settled (.error e : Except Error α) ↔ e.isFinal = true := by
  cases e <;> simp [Settled, Error.isFinal]

/-- Attempts that are made one after the other, each with its endpoint and its outcome. Between two of them something is
done. -/
inductive Trials (attempt : String → Run σ α) (between : Run σ Unit) : List (String × Except Error α) → σ → σ → Prop
  | none {s : σ} : Trials attempt between [] s s
  | last {endpoint : String} {a : Except Error α} {s t : σ} : attempt endpoint s = some (a, t) →
    Trials attempt between [(endpoint, a)] s t
  | next {endpoint : String} {a : Except Error α} {x : String × Except Error α} {rest : List (String × Except Error α)}
    {s t u v : σ} : attempt endpoint s = some (a, t) → between t = some (.ok (), u) →
    Trials attempt between (x :: rest) u v → Trials attempt between ((endpoint, a) :: x :: rest) s v

/-- An attempt that failed, as one of the attempts that were made. -/
def failing (p : String × Error) : String × Except Error α := (p.1, .error p.2)

/-- Attempts at some endpoints, after those that failed so far. -/
def inTurn (attempt : String → Run σ α) (between : Run σ Unit) (giveUp : List (String × Error) → Error) :
    List String → List (String × Error) → Run σ α
  | [], failed => throw (giveUp failed)
  | endpoint :: rest, failed => do
    match ← Run.attempt (attempt endpoint) with
    | .ok x => return x
    | .error e =>
      if e.isFinal then throw e
      else do
        if rest ≠ [] then between
        inTurn attempt between giveUp rest (failed ++ [(endpoint, e)])

/-- The remaining attempts, if there are any, with what is done in front of them. -/
def resume (attempt : String → Run σ α) (between : Run σ Unit) (giveUp : List (String × Error) → Error)
    (rest : List String) (failed : List (String × Error)) : Run σ α := do
  if rest ≠ [] then between
  inTurn attempt between giveUp rest failed

/-- The attempts at some endpoints end with the first outcome that settles the call or, after the last endpoint, with what
is made of the errors. -/
def Ends (giveUp : List (String × Error) → Error) (endpoints : List String) (failed : List (String × Error))
    (trials : List (String × Except Error α)) (a : Except Error α) : Prop :=
  ∃ errors : List (String × Error), (∀ p ∈ errors, ¬Settled (.error p.2 : Except Error α)) ∧
    ((∃ target rest, endpoints = errors.map Prod.fst ++ target :: rest ∧ Settled a ∧
        trials = errors.map failing ++ [(target, a)]) ∨
      (endpoints = errors.map Prod.fst ∧ a = .error (giveUp (failed ++ errors)) ∧ trials = errors.map failing))

section
variable {attempt : String → Run σ α} {between : Run σ Unit} {giveUp : List (String × Error) → Error} {endpoint : String}
  {rest : List String} {failed : List (String × Error)} {trials : List (String × Except Error α)} {a : Except Error α}
  {s t v : σ}

theorem trials_cons : Trials attempt between ((endpoint, a) :: trials) s v ↔ ∃ t, attempt endpoint s = some (a, t) ∧
    if trials = [] then v = t else ∃ u, between t = some (.ok (), u) ∧ Trials attempt between trials u v := by
  constructor
  · intro h
    cases h with
    | last h => exact ⟨_, h, by simp⟩
    | next h hbetween hrest => exact ⟨_, h, by simpa using ⟨_, hbetween, hrest⟩⟩
  · rintro ⟨t, h, hrest⟩
    cases trials with
    | nil =>
      obtain rfl : v = t := by simpa using hrest
      exact .last h
    | cons x trials =>
      obtain ⟨u, hbetween, hrest⟩ : ∃ u, between t = some (.ok (), u) ∧ Trials attempt between (x :: trials) u v := by
        simpa using hrest
      exact .next h hbetween hrest

theorem inTurn_settled (h : attempt endpoint s = some (a, t)) (ha : Settled a) :
    inTurn attempt between giveUp (endpoint :: rest) failed s = some (a, t) := by
  rw [inTurn, Run.bind_apply, Run.attempt, h]
  cases a with
  | ok x => rfl
  | error e => simp [settled_error.mp ha]

theorem inTurn_failed {e : Error} (h : attempt endpoint s = some (.error e, t))
    (he : ¬Settled (.error e : Except Error α)) : inTurn attempt between giveUp (endpoint :: rest) failed s =
      resume attempt between giveUp rest (failed ++ [(endpoint, e)]) t := by
  rw [inTurn, Run.bind_apply, Run.attempt, h]
  simp [mt settled_error.mpr he, resume]

theorem resume_nil : resume attempt between giveUp [] failed = inTurn attempt between giveUp [] failed := by
  simp [resume]

theorem resume_eq (hrest : rest ≠ []) (h : between s = some (.ok (), t)) :
    resume attempt between giveUp rest failed s = inTurn attempt between giveUp rest failed t := by
  rw [resume, if_pos hrest, Run.bind_apply, h]

theorem ends_nil : Ends giveUp [] failed trials a ↔ trials = [] ∧ a = .error (giveUp failed) := by
  constructor
  · rintro ⟨errors, _, ⟨target, rest, h, _⟩ | ⟨h, ha, htrials⟩⟩
    · simp at h
    · obtain rfl : errors = [] := by simpa using h.symm
      simp_all
  · rintro ⟨rfl, rfl⟩
    exact ⟨[], by simp, .inr ⟨rfl, by simp, rfl⟩⟩

theorem ends_cons : Ends giveUp (endpoint :: rest) failed trials a ↔ (Settled a ∧ trials = [(endpoint, a)]) ∨
    ∃ e later, ¬Settled (.error e : Except Error α) ∧ trials = (endpoint, .error e) :: later ∧
      Ends giveUp rest (failed ++ [(endpoint, e)]) later a := by
  constructor
  · rintro ⟨errors, herrors, h⟩
    cases errors with
    | nil =>
      obtain ⟨target, rest', h, ha, htrials⟩ | ⟨h, _⟩ := h
      · obtain ⟨rfl, rfl⟩ : endpoint = target ∧ rest = rest' := by simpa using h
        exact .inl ⟨ha, by simpa using htrials⟩
      · simp at h
    | cons p errors =>
      obtain ⟨hp, herrors⟩ := List.forall_mem_cons.mp herrors
      obtain ⟨target, rest', h, ha, rfl⟩ | ⟨h, rfl, rfl⟩ := h
      · obtain ⟨rfl, rfl⟩ : endpoint = p.1 ∧ rest = errors.map Prod.fst ++ target :: rest' := by simpa using h
        exact .inr ⟨p.2, _, hp, rfl, errors, herrors, .inl ⟨target, rest', rfl, ha, rfl⟩⟩
      · obtain ⟨rfl, rfl⟩ : endpoint = p.1 ∧ rest = errors.map Prod.fst := by simpa using h
        exact .inr ⟨p.2, _, hp, rfl, errors, herrors, .inr ⟨rfl, by simp, rfl⟩⟩
  · rintro (⟨ha, rfl⟩ | ⟨e, later, he, rfl, errors, herrors, h⟩)
    · exact ⟨[], by simp, .inl ⟨endpoint, rest, rfl, ha, rfl⟩⟩
    · refine ⟨(endpoint, e) :: errors, List.forall_mem_cons.mpr ⟨he, herrors⟩, ?_⟩
      obtain ⟨target, rest', rfl, ha, rfl⟩ | ⟨rfl, rfl, rfl⟩ := h
      · exact .inl ⟨target, rest', rfl, ha, rfl⟩
      · exact .inr ⟨rfl, by simp, rfl⟩

/-- Something is done in front of the remaining attempts, if there are any. -/
theorem Ends.eq_nil_iff (h : Ends giveUp rest failed trials a) : trials = [] ↔ rest = [] := by
  cases rest with
  | nil => simp [(ends_nil.mp h).1]
  | cons endpoint rest =>
    obtain ⟨_, rfl⟩ | ⟨_, _, _, rfl, _⟩ := ends_cons.mp h <;> simp

theorem resume_eq_some_iff (hbetween : ∀ s, ∃ t, between s = some (.ok (), t))
    (h : ∀ s, inTurn attempt between giveUp rest failed s = some (a, v) ↔
      ∃ trials, Trials attempt between trials s v ∧ Ends giveUp rest failed trials a) :
    resume attempt between giveUp rest failed t = some (a, v) ↔ ∃ trials,
      (if trials = [] then v = t else ∃ u, between t = some (.ok (), u) ∧ Trials attempt between trials u v) ∧
        Ends giveUp rest failed trials a := by
  by_cases hrest : rest = []
  · subst hrest
    rw [resume_nil, h]
    refine exists_congr fun trials => and_congr_left fun hends => ?_
    obtain rfl := hends.eq_nil_iff.mpr rfl
    constructor
    · intro htrials
      cases htrials
      simp
    · intro hv
      obtain rfl : v = t := by simpa using hv
      exact .none
  · obtain ⟨u, hu⟩ := hbetween t
    rw [resume_eq hrest hu, h]
    refine exists_congr fun trials => and_congr_left fun hends => ?_
    rw [if_neg (mt hends.eq_nil_iff.mp hrest)]
    constructor
    · exact fun htrials => ⟨u, hu, htrials⟩
    · rintro ⟨u', hu', htrials⟩
      obtain rfl : u = u' := by simpa [hu] using hu'
      exact htrials

/-- Attempts are made in turn until one settles the call. -/
theorem inTurn_eq_some_iff (hbetween : ∀ s, ∃ t, between s = some (.ok (), t)) {endpoints : List String} :
    inTurn attempt between giveUp endpoints failed s = some (a, v) ↔
      ∃ trials, Trials attempt between trials s v ∧ Ends giveUp endpoints failed trials a := by
  induction endpoints generalizing failed s with
  | nil =>
    simp only [ends_nil, inTurn, Run.throw_apply, Option.some.injEq, Prod.mk.injEq]
    constructor
    · rintro ⟨rfl, rfl⟩
      exact ⟨[], .none, rfl, rfl⟩
    · rintro ⟨_, htrials, rfl, rfl⟩
      cases htrials
      exact ⟨rfl, rfl⟩
  | cons endpoint rest ih =>
    rcases hattempt : attempt endpoint s with _ | ⟨o, t⟩
    · -- the first attempt does not come to an end
      have hnone : inTurn attempt between giveUp (endpoint :: rest) failed s = none := by
        rw [inTurn, Run.bind_apply, Run.attempt, hattempt]
      rw [hnone]
      constructor
      · intro h
        cases h
      · rintro ⟨trials, htrials, hends⟩
        obtain ⟨_, rfl⟩ | ⟨_, _, _, rfl, _⟩ := ends_cons.mp hends
        all_goals
          obtain ⟨_, h, _⟩ := trials_cons.mp htrials
          simp [hattempt] at h
    by_cases ho : Settled o
    · rw [inTurn_settled hattempt ho]
      constructor
      · intro h
        cases h
        exact ⟨_, .last hattempt, ends_cons.mpr (.inl ⟨ho, rfl⟩)⟩
      · rintro ⟨trials, htrials, hends⟩
        obtain ⟨_, rfl⟩ | ⟨e, later, he, rfl, _⟩ := ends_cons.mp hends
        · obtain ⟨u, h, hu⟩ := trials_cons.mp htrials
          simp_all
        · obtain ⟨u, h, _⟩ := trials_cons.mp htrials
          obtain ⟨rfl, rfl⟩ : o = .error e ∧ t = u := by simpa [hattempt] using h
          exact absurd ho he
    · obtain ⟨e, rfl⟩ := error_of_unsettled ho
      rw [inTurn_failed hattempt ho, resume_eq_some_iff hbetween fun s => ih]
      constructor
      · rintro ⟨later, hlater, hends⟩
        exact ⟨_, trials_cons.mpr ⟨t, hattempt, hlater⟩, ends_cons.mpr (.inr ⟨e, later, ho, rfl, hends⟩)⟩
      · rintro ⟨trials, htrials, hends⟩
        obtain ⟨ha, rfl⟩ | ⟨e', later, _, rfl, hrest⟩ := ends_cons.mp hends
        · obtain ⟨u, h, _⟩ := trials_cons.mp htrials
          obtain ⟨rfl, _⟩ : .error e = a ∧ t = u := by simpa [hattempt] using h
          exact absurd ha ho
        · obtain ⟨u, h, hlater⟩ := trials_cons.mp htrials
          obtain ⟨rfl, rfl⟩ : e = e' ∧ t = u := by simpa [hattempt] using h
          exact ⟨later, hlater, hrest⟩

/-- Attempts that all come to an end do so in turn. -/
theorem inTurn_ends (hbetween : ∀ s, ∃ t, between s = some (.ok (), t)) {endpoints : List String}
    (hattempt : ∀ endpoint ∈ endpoints, ∀ s, attempt endpoint s ≠ none) :
    ∃ a t, inTurn attempt between giveUp endpoints failed s = some (a, t) := by
  induction endpoints generalizing failed s with
  | nil => exact ⟨_, _, rfl⟩
  | cons endpoint rest ih =>
    obtain ⟨hfirst, hrest⟩ := List.forall_mem_cons.mp hattempt
    obtain ⟨⟨o, t⟩, ho⟩ := Option.ne_none_iff_exists'.mp (hfirst s)
    by_cases hsettled : Settled o
    · exact ⟨o, t, inTurn_settled ho hsettled⟩
    · obtain ⟨e, rfl⟩ := error_of_unsettled hsettled
      have hlater (w : σ) : ∃ a v, inTurn attempt between giveUp rest (failed ++ [(endpoint, e)]) w = some (a, v) :=
        ih hrest
      rw [inTurn_failed ho hsettled]
      by_cases hlast : rest = []
      · subst hlast
        rw [resume_nil]
        exact hlater t
      · obtain ⟨u, hu⟩ := hbetween t
        rw [resume_eq hlast hu]
        exact hlater u

/-! ## Retries -/

theorem retryUpTo_eq (n : Nat) (failed : List Error) :
    retryUpTo (attempt endpoint) between n failed =
      inTurn attempt between (fun errors => .retriesFailed (errors.map Prod.snd)) (List.replicate n endpoint)
        (failed.reverse.map fun e => (endpoint, e)) := by
  induction n generalizing failed with
  | zero => simp [retryUpTo, inTurn, Function.comp_def]
  | succ n ih =>
    have hagain (e : Error) := ih (e :: failed)
    simp only [List.reverse_cons, List.map_append, List.map_cons, List.map_nil] at hagain
    rw [List.replicate_succ, retryUpTo, inTurn]
    refine congrArg (Run.attempt (attempt endpoint) >>= ·) (funext fun o => ?_)
    cases o with
    | ok x => rfl
    | error e => simp [hagain]

/-- The attempts at one endpoint end with what settles the call or after the last of them. -/
theorem ends_replicate {n : Nat} : Ends giveUp (List.replicate n endpoint) [] trials a ↔
    ∃ errors : List Error, (∀ e ∈ errors, ¬Settled (.error e : Except Error α)) ∧
      ((errors.length < n ∧ Settled a ∧ trials = errors.map (fun e => (endpoint, .error e)) ++ [(endpoint, a)]) ∨
        (errors.length = n ∧ a = .error (giveUp (errors.map (endpoint, ·))) ∧
          trials = errors.map fun e => (endpoint, .error e))) := by
  constructor
  · rintro ⟨errors, herrors, h⟩
    have hsame (hfront : ∀ p ∈ errors, p.1 = endpoint) : errors = (errors.map Prod.snd).map (endpoint, ·) := by
      rw [List.map_map]
      refine (List.map_id errors).symm.trans (List.map_congr_left fun p hp => ?_)
      simp [← hfront p hp]
    have hunsettled : ∀ e ∈ errors.map Prod.snd, ¬Settled (.error e : Except Error α) := by
      simpa using fun e x h => herrors (x, e) h
    obtain ⟨target, rest, h, ha, rfl⟩ | ⟨h, rfl, rfl⟩ := h
    · obtain ⟨hcount, hfront, hrest⟩ := List.replicate_eq_append_iff.mp h
      obtain rfl : target = endpoint := List.eq_of_mem_replicate (hrest ▸ List.mem_cons_self)
      have hfront : ∀ p ∈ errors, p.1 = target := fun p hp =>
        List.eq_of_mem_replicate (hfront ▸ List.mem_map_of_mem hp)
      refine ⟨errors.map Prod.snd, hunsettled, .inl ⟨?_, ha, ?_⟩⟩
      · simp at hcount ⊢
        omega
      · rw [hsame hfront]
        simp [failing, Function.comp_def]
    · have hfront : ∀ p ∈ errors, p.1 = endpoint := fun p hp =>
        List.eq_of_mem_replicate (h ▸ List.mem_map_of_mem hp)
      refine ⟨errors.map Prod.snd, hunsettled, .inr ⟨?_, ?_, ?_⟩⟩
      · simpa using congrArg List.length h.symm
      · rw [← hsame hfront]
        simp
      · rw [hsame hfront]
        simp [failing, Function.comp_def]
  · rintro ⟨errors, herrors, h⟩
    refine ⟨errors.map (endpoint, ·), by simpa using herrors, ?_⟩
    obtain ⟨hcount, ha, rfl⟩ | ⟨rfl, rfl, rfl⟩ := h
    · refine .inl ⟨endpoint, List.replicate (n - errors.length - 1) endpoint, ?_, ha, ?_⟩
      · rw [← List.replicate_succ]
        simp only [List.map_map, Function.comp_def, List.map_const', List.replicate_append_replicate]
        congr 1
        omega
      · simp [failing, Function.comp_def]
    · refine .inr ⟨?_, by simp, ?_⟩
      · simp [Function.comp_def]
      · simp [failing, Function.comp_def]

/-- Attempts that fail until some calls have been made, each with a message of its own. -/
def ringing (patience : Nat) (endpoint : String) : Run (List String) Nat := fun called =>
  if called.length < patience then some (.error (.transport endpoint (String.join called)), called ++ [endpoint])
  else some (.ok called.length, called ++ [endpoint])

theorem tryEach_eq (endpoints : List String) (failed : List (String × Error)) :
    tryEach attempt endpoints (Dict.ofList failed) =
      inTurn attempt (pure ()) (fun errors => .endpointsFailed (Dict.ofList errors)) endpoints failed := by
  induction endpoints generalizing failed with
  | nil => simp [tryEach, inTurn]
  | cons endpoint rest ih =>
    have hagain (e : Error) := ih (failed ++ [(endpoint, e)])
    simp only [Dict.ofList_concat] at hagain
    rw [tryEach, inTurn]
    refine congrArg (Run.attempt (attempt endpoint) >>= ·) (funext fun o => ?_)
    cases o with
    | ok x => rfl
    | error e => simp [hagain]

/-- A failover attempts the call once at each entry of its list until an outcome settles it. After the last one the error
carries for each endpoint what came last from it, and everything if no endpoint is listed twice. -/
theorem failover_follows (wait : Duration → Run σ Unit) (endpoints : List String) (attempt : String → Run σ α)
    (endpoint : String) (s : σ) :
    (∀ a t, (failover endpoints).recover wait endpoint attempt s = some (a, t) ↔
      ∃ errors : List (String × Error), (∀ p ∈ errors, ¬Settled (.error p.2 : Except Error α)) ∧
        ((∃ target rest, endpoints = errors.map Prod.fst ++ target :: rest ∧ Settled a ∧
            Trials attempt (pure ()) (errors.map failing ++ [(target, a)]) s t) ∨
          (endpoints = errors.map Prod.fst ∧ a = .error (.endpointsFailed (Dict.ofList errors)) ∧
            Trials attempt (pure ()) (errors.map failing) s t))) ∧
      ((∀ target ∈ endpoints, ∀ s, attempt target s ≠ none) →
        ∃ a t, (failover endpoints).recover wait endpoint attempt s = some (a, t)) ∧
      ∀ errors : List (String × Error),
        (∀ target e, (Dict.ofList errors).find? target = some e ↔
          ∃ front rest, errors = front ++ (target, e) :: rest ∧ ∀ p ∈ rest, p.1 ≠ target) ∧
        (Error.endpointsFailed (Dict.ofList errors)).attempts = (errors.map Prod.fst).dedup.length ∧
        ((errors.map Prod.fst).Nodup → (Error.endpointsFailed (Dict.ofList errors)).attempts = errors.length ∧
          ∀ p ∈ errors, (Dict.ofList errors).find? p.1 = some p.2) := by
  have hbetween (s : σ) : ∃ t, (pure () : Run σ Unit) s = some (.ok (), t) := ⟨s, rfl⟩
  have hrecover : (failover endpoints).recover wait endpoint attempt = inTurn attempt (pure ())
      (fun errors => .endpointsFailed (Dict.ofList errors)) endpoints [] := tryEach_eq endpoints []
  have hcount (errors : List (String × Error)) :
      (Error.endpointsFailed (Dict.ofList errors)).attempts = (errors.map Prod.fst).dedup.length :=
    Dict.length_ofList errors
  rw [hrecover]
  refine ⟨fun a t => ?_, inTurn_ends hbetween, fun errors => ⟨fun target e => Dict.find?_ofList_eq_some, hcount errors, ?_⟩⟩
  · rw [inTurn_eq_some_iff hbetween]
    constructor
    · rintro ⟨_, htrials, errors, herrors, ⟨target, rest, hlist, ha, rfl⟩ | ⟨hlist, rfl, rfl⟩⟩
      · exact ⟨errors, herrors, .inl ⟨target, rest, hlist, ha, htrials⟩⟩
      · exact ⟨errors, herrors, .inr ⟨hlist, by simp, htrials⟩⟩
    · rintro ⟨errors, herrors, ⟨target, rest, hlist, ha, htrials⟩ | ⟨hlist, rfl, htrials⟩⟩
      · exact ⟨_, htrials, errors, herrors, .inl ⟨target, rest, hlist, ha, rfl⟩⟩
      · exact ⟨_, htrials, errors, herrors, .inr ⟨hlist, by simp, rfl⟩⟩
  · intro hnodup
    constructor
    · rw [hcount, hnodup.dedup, List.length_map]
    · rintro ⟨target, e⟩ hp
      obtain ⟨front, rest, rfl⟩ := List.append_of_mem hp
      apply Dict.find?_ofList_eq_some.mpr
      refine ⟨front, rest, rfl, fun p hrest hsame => ?_⟩
      have hlater : target ∉ rest.map Prod.fst := by
        simp only [List.map_append, List.map_cons, List.nodup_append, List.nodup_cons] at hnodup
        exact hnodup.2.1.1
      exact hlater (List.mem_map.mpr ⟨p, hrest, hsame⟩)

/-- The error of an endpoint's first attempt is lost if the endpoint is listed again. -/
theorem failover_forgets : ringing 3 "A" [] = some (.error (.transport "A" ""), ["A"]) ∧
    ∃ errors : Dict Error, (failover ["A", "B", "A"]).recover (fun _ => pure ()) "desk" (ringing 3) [] =
        some (.error (.endpointsFailed errors), ["A", "B", "A"]) ∧
      (Error.endpointsFailed errors).attempts = 2 ∧ errors.find? "A" = some (.transport "A" "AB") ∧
      Error.transport "A" "" ∉ errors.map Prod.snd := by
  refine ⟨rfl, [("A", .transport "A" "AB"), ("B", .transport "B" "A")], ?_, rfl, rfl, by simp⟩
  rfl

end
end Recovery
end MobileCode
