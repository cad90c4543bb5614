import MobileCode.Proofs.Failures
import MobileCode.Proofs.Outcomes

/-! # Recoveries

Whatever the recovery of a client is, it makes attempts until one of them settles the call, with a result or with an error
that is final. The attempts before it leave nothing in the domain.
-/
namespace MobileCode

/-! ## Attempts -/

namespace Recovery
variable {σ α : Type} {attempt : String → Run σ α} {wait : Duration → Run σ Unit} {s t u : σ}

/-- The endpoints of the attempts that are made while none of them settles the call. -/
def schedule (r : Recovery) (endpoint : String) : List String :=
  match r with
  | direct => [endpoint]
  | retry n _ => List.replicate (max n 1) endpoint
  | failover endpoints => endpoints

/-- What is done between two attempts. -/
def between (r : Recovery) (wait : Duration → Run σ Unit) : Run σ Unit :=
  match r with
  | retry _ pause => pause.elim (pure ()) wait
  | _ => pure ()

/-- Attempts at the endpoints fail one after the other, and each leaves the call to the next. -/
inductive Fails (attempt : String → Run σ α) (between : Run σ Unit) : List String → σ → σ → Prop
  | none {s : σ} : Fails attempt between [] s s
  | next {endpoint : String} {rest : List String} {s t u v : σ} {e : Error} : attempt endpoint s = some (.error e, t) →
    e.isFinal = false → between t = some (.ok (), u) → Fails attempt between rest u v →
    Fails attempt between (endpoint :: rest) s v

section
variable {target : String} {a : Except Error α} (hend : attempt target t = some (a, u))
  (hfinal : ∀ e, a = .error e → e.isFinal = true)
include hend hfinal

theorem retryUpTo_settled {between : Run σ Unit} {front : Nat}
    (h : Fails attempt between (List.replicate front target) s t) (rest : Nat) (failed : List Error) :
    retryUpTo (attempt target) between (front + rest + 1) failed s = some (a, u) := by
  induction front generalizing s failed with
  | zero =>
    cases h
    rw [retryUpTo, Run.bind_apply, Run.attempt, hend]
    cases a with
    | ok x => rfl
    | error e =>
      dsimp only
      rw [if_pos (hfinal e rfl)]
      rfl
  | succ front ih =>
    rw [List.replicate_succ] at h
    cases h with
    | @next _ _ _ t _ _ e hfails hagain hbetween h =>
      have hmore : front + 1 + rest = (front + rest) + 1 := by omega
      rw [hmore, retryUpTo, Run.bind_apply, Run.attempt, hfails]
      dsimp only
      rw [if_neg (Bool.eq_false_iff.mp hagain), if_pos (Nat.succ_ne_zero _), Run.bind_apply, hbetween]
      exact ih h _

theorem tryEach_settled {front : List String} (h : Fails attempt (pure ()) front s t) (rest : List String)
    (failed : Dict Error) : tryEach attempt (front ++ target :: rest) failed s = some (a, u) := by
  induction front generalizing s failed with
  | nil =>
    cases h
    rw [List.nil_append, tryEach, Run.bind_apply, Run.attempt, hend]
    cases a with
    | ok x => rfl
    | error e =>
      dsimp only
      rw [if_pos (hfinal e rfl)]
      rfl
  | cons endpoint front ih =>
    cases h with
    | @next _ _ _ t _ _ e hfails hagain hbetween h =>
      cases hbetween
      rw [List.cons_append, tryEach, Run.bind_apply, Run.attempt, hfails]
      dsimp only
      rw [if_neg (Bool.eq_false_iff.mp hagain)]
      exact ih h _

/-- The first attempt that settles the call is the last one. -/
theorem recover_settled {r : Recovery} {endpoint : String} {front rest : List String}
    (hschedule : r.schedule endpoint = front ++ target :: rest) (h : Fails attempt (r.between wait) front s t) :
    r.recover wait endpoint attempt s = some (a, u) := by
  cases r with
  | direct =>
    cases front with
    | nil =>
      cases hschedule
      cases h
      exact hend
    | cons => simp [schedule] at hschedule
  | retry n pause =>
    obtain ⟨hcount, hfront, hrest⟩ := List.replicate_eq_append_iff.mp hschedule
    obtain rfl : target = endpoint := List.eq_of_mem_replicate (hrest ▸ List.mem_cons_self)
    rw [hfront] at h
    have hmany : max n 1 = front.length + rest.length + 1 := by
      rw [List.length_cons] at hcount
      omega
    show retryUpTo _ _ (max n 1) [] s = _
    rw [hmany]
    exact retryUpTo_settled hend hfinal h _ _
  | failover endpoints =>
    cases hschedule
    exact tryEach_settled hend hfinal h rest []

end
end Recovery

/-! ## Attempts that come to nothing -/

/-- The endpoints to which the client has connected so far. -/
def State.connected {ν : Type} (s : State (Reach (ν × Traffic))) : List String := s.outside.network.2.connected

/-- No channel has been made in between. -/
def State.Unlinked {ν : Type} (s t : State (Reach (ν × Traffic))) : Prop := t.connected = s.connected

instance {ν : Type} : IsPreorder (State (Reach (ν × Traffic))) State.Unlinked where
  refl _ := rfl
  trans _ _ _ h h' := h'.trans h

namespace Client
variable {ν : Type} {c : Client ν} {r : Request Value} {l : LoadedModule} {s t : State (Reach (ν × Traffic))}

theorem onNetwork_unlinked {α : Type} {x : Run (ν × Traffic) α}
    (hx : ∀ a y z, x y = some (a, z) → z.2.connected = y.2.connected) :
    (onNetwork x : Calling (ν × Traffic) α).Respects True State.Unlinked := by
  intro s a t h _
  exact onNetwork_yields (Q := fun _ t => State.Unlinked s t) (fun a y ha => hx a _ y ha) a t h

/-- A channel that has been made is the only one of its attempt. -/
theorem channels_unlinked (c : Client ν) (r : Request Value) (l : LoadedModule) :
    c.recording.Channels State.Unlinked r l where
  fresh := by
    intro s a t h _
    cases h
    rfl
  start _ := onNetwork_unlinked fun _ _ _ h => by rw [Run.zoom_record h]
  exchange _ _ _ _ _ := onNetwork_unlinked fun _ _ _ h => by rw [Transport.recording_exchange (t := c.transport) h]
  close _ := onNetwork_unlinked fun _ _ _ h => by rw [Run.zoom_record h]
  abort _ := by
    intro s a t h _
    cases h
    rfl

theorem attempt_connects (endpoint : String) :
    (c.recording.attempt r l endpoint).Yields s fun _ t => t.connected = s.connected ++ [endpoint] := by
  rw [attempt_eq]
  refine Run.Yields.bind (P := fun _ t => t.connected = s.connected ++ [endpoint])
    (onNetwork_yields fun a y ha => ?_) (fun made u hu a t h => ?_) fun _ _ hu => hu
  · exact congrArg Traffic.connected (Transport.recording_connect (t := c.transport) ha)
  · exact ((c.channels_unlinked r l).attemptOn_respects endpoint made u a t h (.inl trivial)).trans hu

/-- Attempts fail one after the other, and no answer comes. -/
inductive Misses (c : Client ν) (r : Request Value) (l : LoadedModule) :
    List String → State (Reach (ν × Traffic)) → State (Reach (ν × Traffic)) → Prop
  | none {s : State (Reach (ν × Traffic))} : Misses c r l [] s s
  | next {endpoint : String} {rest : List String} {s t u : State (Reach (ν × Traffic))} {e : Error} :
    c.recording.attempt r l endpoint s = some (.error e, t) → e.isFinal = false → t.answers = s.answers →
    Misses c r l rest t u → Misses c r l (endpoint :: rest) s u

theorem Misses.kept {front : List String} (h : c.Misses r l front s t) :
    t.domain = s.domain ∧ t.connected = s.connected ++ front ∧ t.answers = s.answers := by
  induction h with
  | none => exact ⟨rfl, (List.append_nil _).symm, rfl⟩
  | @next endpoint rest s t u e hfails _ hanswers _ ih =>
    obtain ⟨hdomain, hconnected, hsame⟩ := ih
    have houtside : t.domain = s.domain :=
      attempt_respects (K := fun s t => t.domain = s.domain) (fun _ _ => rfl) r l endpoint s _ t hfails (.inl trivial)
    refine ⟨hdomain.trans houtside, ?_, hsame.trans hanswers⟩
    rw [hconnected, attempt_connects endpoint _ _ hfails, List.append_assoc, List.singleton_append]

end Client

end MobileCode
