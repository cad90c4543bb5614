import MobileCode.Proofs.Serving
import MobileCode.Proofs.Slots

/-! # The state that a requested method finds and leaves

In normal mode the state of a request is written when the receiver has been made, so it counts against whatever the
constructor did. When the method has returned, the same members are read back. In the other modes no state is written
or read.
-/
namespace MobileCode

/-- The same member with another value. -/
def Variable.SameMember {α β : Type} (v : Variable α) (w : Variable β) : Prop := w.withValue () = v.withValue ()

theorem Variable.SameMember.kind {α β : Type} {v : Variable α} {w : Variable β} (h : v.SameMember w) :
    w.kind = v.kind := congrArg (·.kind) h

/-- To change values keeps the members and their order. -/
theorem Variable.mapM_traverse_ensures {σ α β : Type} {f : α → Run σ β} (vs : List (Variable α)) (s : σ) :
    (vs.mapM (Variable.traverse f)).Ensures s fun ws _ => List.Forall₂ Variable.SameMember vs ws := by
  induction vs generalizing s with
  | nil => exact .pure .nil
  | cons v vs ih =>
    have hv : (v.traverse f).Ensures s fun w _ => v.SameMember w := .after fun x _ => .pure rfl
    rw [List.mapM_cons]
    exact hv.bind fun w t hw => (ih t).bind fun ws u hws => .pure (.cons hw hws)

theorem forall_kind_of_sameMember {α β : Type} {vs : List (Variable α)} {ws : List (Variable β)}
    (h : List.Forall₂ Variable.SameMember vs ws) {kind : VariableKind} (hvs : ∀ v ∈ vs, v.kind = kind) :
    ∀ w ∈ ws, w.kind = kind := by
  induction h with
  | nil => simp
  | cons hw _ ih =>
    obtain ⟨hv, hvs⟩ := List.forall_mem_cons.mp hvs
    exact List.forall_mem_cons.mpr ⟨hw.kind.trans hv, ih hvs⟩

/-- What is read back has the members of what was sent. -/
theorem Transfer.readBack_members {α : Type} {target : Option Ref} {d : Domain} {sent : List (Variable α)}
    {vs ws : List (Variable Value)} (hsent : List.Forall₂ Variable.SameMember sent vs)
    (hback : List.Forall₂ (ReadBack target d) vs ws) :
    List.Forall₂ (fun v w => v.SameMember w ∧ ∃ p, w.slot? target = some p ∧ d.at? p = some w.value) sent ws := by
  induction hsent generalizing ws with
  | nil =>
    cases hback
    exact .nil
  | cons hv _ ih =>
    cases hback with
    | @cons v w _ _ hw hback =>
      obtain ⟨hvalue, hsame⟩ := hw
      refine .cons ⟨?_, ?_⟩ (ih hback)
      · rw [Variable.SameMember, hsame]
        exact hv
      · rw [hsame]
        exact hvalue

namespace Server
variable {r : Request Datum} {budget : Nat} {thread : Option String} {s t u : Server}

/-- In normal mode each member that was sent has the last value that was sent for it, and all else is as before. In the
other modes nothing has changed. -/
def Opened (r : Request Datum) (receiver : Option Ref) (nonLocals : List (Variable Value)) (c t : Server) : Prop :=
  if r.mode = .normal then
    (∀ v ∈ nonLocals, ∃ q, v.slot? receiver = some q) ∧
      ∀ q, t.domain.at? q = (Transfer.lastAt? receiver nonLocals q).or (c.domain.at? q)
  else t = c

/-- Finds the module of a request, which may come with it. -/
def find (r : Request Datum) : Serving (Option LoadedModule) := do
  Run.ofExcept (validate r)
  if let some bytes := r.upload then storeUpload r bytes
  resolve r

/-- How things stand when the requested method starts: the module and the method were found, the receiver was made,
which led to the state `c`, and then the state of the request was written. -/
structure Begun (r : Request Datum) (budget : Nat) (thread : Option String) (s : Server) (p : Prepared) (t : Server) :
    Prop where
  /-- The values that were sent, as values of the domain. -/
  given : ∃ x y : Server, r.nonLocals.mapM (·.traverse State.instantiate) x = some (.ok p.nonLocals, y)
  started : ∃ m x asked args y entry args' z c, find r s = some (.ok (some m), x) ∧
    p.host = hostFor r (if r.onMainThread then some Native.mainThread else thread) m ∧
    ask r p.host x = some (.ok (asked, args, p.nonLocals), y) ∧
    entryPoint r p.host asked args y = some (.ok (entry, args'), z) ∧
    makeReceiver r p.host (Machine.runner p.env budget) entry z = some (.ok p.receiver, c) ∧
    Opened r p.receiver p.nonLocals c t ∧
    Frame.enter t.domain.maxDepth 0 entry p.receiver args' = .ok p.frame

theorem writeState_opened {host : Host Storage} {run : Runner Storage} {receiver : Option Ref}
    {nonLocals : List (Variable Value)} (hfields : r.mode = .normal → ∀ v ∈ nonLocals, v.kind = .field) {c : Server}
    (h : writeState r host run receiver nonLocals c = some (.ok (), t)) : Opened r receiver nonLocals c t := by
  unfold writeState at h
  unfold Opened
  split
  · rename_i hmode
    rw [if_pos hmode] at h
    have hall := hfields hmode
    obtain ⟨done, rest, a, d, rfl, happly, hwritten, hend⟩ := Transfer.apply_fields host run receiver hall c
    cases h.symm.trans happly
    obtain ⟨rfl, -⟩ | ⟨_, _, _, _, _, hok⟩ := hend
    · rw [List.append_nil] at hall ⊢
      refine ⟨fun v hv => ?_, hwritten.at?⟩
      obtain ⟨q, hq⟩ := hwritten.accepted v hv
      exact ⟨q, (Variable.source_eq_ok (hall v hv) (Variable.destination_eq_ok hq).2).2⟩
    · cases hok
  · rename_i hmode
    rw [if_neg hmode] at h
    cases h
    rfl

theorem prepare_eq_find : prepare r budget thread = (do
    match ← find r with
    | none => return none
    | some m =>
      let host := hostFor r (if r.onMainThread then some Native.mainThread else thread) m
      some <$> prepareOn r host (Machine.runner { host } budget)) := by
  unfold prepare find
  rw [bind_assoc]
  refine bind_congr fun _ => ?_
  cases r.upload with
  | none => rfl
  | some bytes => exact (bind_assoc _ _ _).symm

/-- Asking makes values of the state that was sent. -/
theorem ask_given {host : Host Storage} {asked : MethodHandle} {args : List Value} {nonLocals : List (Variable Value)}
    (h : ask r host s = some (.ok (asked, args, nonLocals), t)) :
    ∃ x y : Server, r.nonLocals.mapM (·.traverse State.instantiate) x = some (.ok nonLocals, y) := by
  obtain ⟨values, x, _, h⟩ := Run.bind_eq_ok.mp h
  obtain ⟨given, y, hgiven, h⟩ := Run.bind_eq_ok.mp h
  obtain ⟨method, z, _, h⟩ := Run.bind_eq_ok.mp h
  cases h
  exact ⟨x, y, hgiven⟩

/-- Preparation ends with the state written. -/
theorem prepare_begun (hfields : r.mode = .normal → ∀ v ∈ r.nonLocals, v.kind = .field) {p : Prepared}
    (h : prepare r budget thread s = some (.ok (some p), t)) :
    Begun r budget thread s p t ∧ List.Forall₂ Variable.SameMember r.nonLocals p.nonLocals := by
  rw [prepare_eq_find] at h
  obtain ⟨found, x, hfind, h⟩ := Run.bind_eq_ok.mp h
  cases found with
  | none => cases h
  | some m =>
    simp only [map_eq_pure_bind] at h
    obtain ⟨p', t', hprepare, h⟩ := Run.bind_eq_ok.mp h
    cases h
    obtain ⟨⟨asked, args, nonLocals⟩, y, hask, h⟩ := Run.bind_eq_ok.mp hprepare
    obtain ⟨⟨entry, args'⟩, z, hentry, h⟩ := Run.bind_eq_ok.mp h
    obtain ⟨receiver, c, hreceiver, h⟩ := Run.bind_eq_ok.mp h
    obtain ⟨_, d, hwrite, h⟩ := Run.bind_eq_ok.mp h
    rw [Run.get_bind] at h
    cases hframe : Frame.enter d.domain.maxDepth 0 entry receiver args' with
    | error e =>
      rw [hframe] at h
      cases h
    | ok frame =>
      rw [hframe] at h
      cases h
      obtain ⟨a, b, hgiven⟩ := ask_given hask
      have hmembers := Variable.mapM_traverse_ensures r.nonLocals a _ _ hgiven
      have hopened := writeState_opened (fun hmode => forall_kind_of_sameMember hmembers (hfields hmode)) hwrite
      exact ⟨⟨⟨a, b, hgiven⟩, m, x, asked, args, y, entry, args', z, c, hfind, rfl, hask, hentry, hreceiver, hopened,
        hframe⟩, hmembers⟩

/-- What is no fault was served. -/
theorem execute_served {w : Value} {vs : List (Variable Value)}
    (h : execute budget thread r s = some (.ok (.completed w vs), u)) :
    serve r budget thread s = some (.ok (.completed w vs), u) := by
  unfold execute at h
  rw [Run.bind_apply, Run.attempt] at h
  rcases hs : serve r budget thread s with _ | ⟨e | a, x⟩ <;> rw [hs] at h <;> cases h
  rfl

/-- A request is completed by a run of its method. -/
theorem execute_completed {w : Value} {vs : List (Variable Value)}
    (h : execute budget thread r s = some (.ok (.completed w vs), u)) :
    ∃ p t v x, prepare r budget thread s = some (.ok (some p), t) ∧
      Machine.runner p.env budget p.frame t = some (.ok v, x) ∧
      p.finish r (Machine.runner p.env budget) v x = some (.ok (.completed w vs), u) := by
  have hserve := execute_served h
  rw [serve_eq] at hserve
  obtain ⟨found, t, hprepare, hserve⟩ := Run.bind_eq_ok.mp hserve
  cases found with
  | none => cases hserve
  | some p =>
    obtain ⟨v, x, hrun, hfinish⟩ := Run.bind_eq_ok.mp hserve
    exact ⟨p, t, v, x, hprepare, hrun, hfinish⟩

/-- In normal mode the answer has the members that were sent, each with the value it has when the method returns. -/
theorem finish_completed {p : Prepared} {run : Runner Storage} {v w : Value} {vs : List (Variable Value)}
    (hfields : r.mode = .normal → ∀ v ∈ p.nonLocals, v.kind = .field)
    (h : p.finish r run v s = some (.ok (.completed w vs), u)) : u = s ∧ w = v ∧
      if r.mode = .normal then List.Forall₂ (Transfer.ReadBack p.receiver u.domain) p.nonLocals vs else vs = [] := by
  unfold Prepared.finish at h
  split at h
  · rename_i hmode
    obtain ⟨ws, outcome, hrefresh, hback⟩ := Transfer.refresh_fields p.host run p.receiver (hfields hmode) s
    rw [Run.bind_apply, hrefresh] at h
    cases outcome with
    | error e => cases h
    | ok _ =>
      cases h
      rw [if_pos hmode]
      exact ⟨rfl, rfl, hback rfl⟩
  · rename_i hmode
    cases h
    rw [if_neg hmode]
    exact ⟨rfl, rfl, rfl⟩

/-- A requested method starts with the state that was sent, written over what construction left, and a completed
request answers with the same members as they are when the method returns. Without normal mode no state is written and
none comes back. -/
theorem execute_window (hfields : r.mode = .normal → ∀ v ∈ r.nonLocals, v.kind = .field) :
    (∀ p t, prepare r budget thread s = some (.ok (some p), t) → Begun r budget thread s p t ∧
      serve r budget thread s = (Machine.runner p.env budget p.frame >>= p.finish r (Machine.runner p.env budget)) t) ∧
    ∀ w vs u, execute budget thread r s = some (.ok (.completed w vs), u) →
      ∃ p t, prepare r budget thread s = some (.ok (some p), t) ∧
        Machine.runner p.env budget p.frame t = some (.ok w, u) ∧
        if r.mode = .normal then
          List.Forall₂ (fun v w => v.SameMember w ∧ ∃ q, w.slot? p.receiver = some q ∧ u.domain.at? q = some w.value)
            r.nonLocals vs
        else vs = [] := by
  refine ⟨fun p t hp => ⟨(prepare_begun hfields hp).1, ?_⟩, fun w vs u h => ?_⟩
  · rw [serve_eq, Run.bind_apply, hp]
  · obtain ⟨p, t, v, x, hp, hrun, hfinish⟩ := execute_completed h
    obtain ⟨_, hmembers⟩ := prepare_begun hfields hp
    obtain ⟨rfl, rfl, hback⟩ :=
      finish_completed (fun hmode => forall_kind_of_sameMember hmembers (hfields hmode)) hfinish
    refine ⟨p, t, hp, hrun, ?_⟩
    split
    · rename_i hmode
      rw [if_pos hmode] at hback
      exact Transfer.readBack_members hmembers hback
    · rename_i hmode
      rw [if_neg hmode] at hback
      exact hback

end Server
/-- A module whose constructor gives the field another value than it starts with. -/
def meter : Module Datum where
  name := "Meter"
  types := [{
    space := "Ops"
    name := "Meter"
    fields := [⟨"level", TypeName.int32, .none, none⟩]
    methods := [
      { name := constructorName, flags := MethodFlags.constructor,
        body := [.loadThis, .const (.int32 9), .storeField ⟨⟨none, "Ops.Meter"⟩, "level"⟩, .ret] },
      { name := "Raise", returns := some TypeName.int32,
        body := [.loadThis, .loadThis, .loadField ⟨⟨none, "Ops.Meter"⟩, "level"⟩, .const (.int32 1), .binary .add,
          .storeField ⟨⟨none, "Ops.Meter"⟩, "level"⟩, .loadThis, .loadField ⟨⟨none, "Ops.Meter"⟩, "level"⟩, .ret] }] }]

namespace meter

def hash : String := "0000000000000000000000000000000000000000"

/-- The field as a variable. -/
def level (n : Int32) : Variable Datum := ⟨.field, "level", "Ops.Meter", TypeName.int32, .int32 n, false⟩

/-- A request that gives the field two values. -/
def raise : Request Datum where
  id := Uuid.ofNat 1
  file := "Meter"
  hash := hash
  type := "Ops.Meter"
  method := "Raise"
  nonLocals := [level 3, level 5]

/-- A server that has served the module before. -/
def serving (d : Domain) : Server := ⟨d, { sandbox := "sandbox", versions := { modules := [("Meter", hash)] } }⟩

end meter

open meter in
/-- The method finds the second value, and the answer has what it made of it. -/
theorem meter_raised : ∃ l d u vs, Domain.register { hostName := "server" } meter [] none = .ok (l, d) ∧
    Server.execute 10 none raise (serving d) = some (.ok (.completed (.int32 6) vs), u) ∧
    ∃ receiver, List.Forall₂
      (fun v w => v.SameMember w ∧ ∃ q, w.slot? receiver = some q ∧ u.domain.at? q = some w.value)
      [level 3, level 5] vs := by
  obtain ⟨l, d, u, vs, hd, hexecute⟩ : ∃ l d u vs, Domain.register { hostName := "server" } meter [] none = .ok (l, d) ∧
      Server.execute 10 none raise (serving d) = some (.ok (.completed (.int32 6) vs), u) := ⟨_, _, _, _, rfl, rfl⟩
  obtain ⟨p, t, _, _, hback⟩ := (Server.execute_window (by simp [raise, level])).2 _ _ _ hexecute
  have hmode : raise.mode = .normal := rfl
  rw [if_pos hmode] at hback
  exact ⟨l, d, u, vs, hd, hexecute, p.receiver, hback⟩

end MobileCode
