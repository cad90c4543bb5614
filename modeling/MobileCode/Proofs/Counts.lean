import MobileCode.Proofs.Exchanges
import MobileCode.Proofs.Executions
import MobileCode.Proofs.Natives
import MobileCode.Proofs.Undispatched

/-! # How often a body runs

A call that completes through a client at one end of a connection has run the body of the method once on the server
at the other end. On the client the body has run once if the call is replayed, and else not at all.
-/
namespace MobileCode
open Machine

/-- A client that is enabled has all calls executed elsewhere. -/
theorem Client.executes_of_enabled {ν : Type} {c : Client ν} (h : c.settings.enabled = true) : c.dispatcher.Executes := by
  intro host run site receiver args s outcome s' hdispatch
  simp only [dispatcher, h, Bool.not_true, Bool.false_eq_true, if_false, Run.bind_eq_ok] at hdispatch
  obtain ⟨result, u, _, hresult⟩ := hdispatch
  cases hfound : result.result? with
  | none =>
    rw [hfound] at hresult
    cases hresult
  | some v =>
    rw [hfound] at hresult
    cases hresult
    exact ⟨v, rfl⟩

/-- In the run of a requested method nothing that is dispatched is executed elsewhere. -/
theorem Server.notExecuted (r : Request Datum) (budget : Nat) (thread : Option String) (s : Server) :
    ∀ x ∈ moves r budget thread s, ∀ site, x.top.method.decl.body[x.top.position]? = some (.dispatch site) →
      x.next.stack = .bool false :: .null :: x.top.stack := by
  unfold moves
  split
  · exact notExecuted_of_free (fun _ => rfl) _ _ _
  · simp

/-- The run is not about to dispatch a call to a client. -/
def Machine.Undispatched {ω : Type} (env : Environment ω) : Transition → Prop
  | .next f _ => ¬Dispatches env f
  | .done _ => True

section Counts
variable {ν : Type} {c : Client ν} {env : Environment (Reach ν)} {conn : Connection ν} {boundary : Boundary}
  {digest : DigestAlgorithm} {m : Module Datum} {dependencies : List (Module Datum)} {dep : Deployment}
  {l : LoadedModule} {u : TypeDecl Value} {e : MethodDecl Value}
  (hhost : env.host.Respects True conn.Unseen)
  (haccess : ∀ f, (e.closure.getD {}).Accesses l u f → ∀ k x, x.domain.Has dep.client l →
    Throughout env (Undispatched env) k (.next f []) x)
include hhost haccess

/-- Accessors that dispatch nothing are run alike by runners that agree on them, and nothing comes to the server. -/
theorem Machine.runner_twins {k : Nat} {run : Runner (Reach ν)} {f : Frame}
    (hf : (e.closure.getD {}).Accesses l u f) (hrun : run f = runner env k f) :
    Run.Twins (fun x => x.domain.Has dep.client l) conn.Rests (runner env k f) (run f) := by
  intro x hx
  refine ⟨by rw [hrun], fun r y hr => ?_⟩
  have hunseen := (haccess f hf k x hx).respects hhost (fun _ _ h => h) hr (.inl trivial)
  exact ⟨hunseen.1 _ _ hx, hunseen.2⟩

end Counts

/-- A server, and what has come to it. -/
abbrev Record := Server × List (Request Datum × Server)

def Record.conn (budget : Nat) (thread : Option String) : Connection Record := ⟨Prod.fst, Prod.snd, budget, thread⟩

/-- Hands requests to the server and records them. -/
def Record.transport (budget : Nat) (thread : Option String) : Transport Record where
  Channel := Unit
  connect _ := pure ()
  endpoint _ := ""
  start := pure
  exchange _ heap r _ x :=
    match (r.outward heap : Run Record (Request Datum)) x with
    | some (.ok sent, _) =>
      match Server.answer sent budget thread x.1 with
      | some (.ok a, server) => some (.ok a, server, x.2 ++ [(sent, x.1)])
      | _ => none
    | _ => none
  close := pure
  abort c x := (c, x)

theorem Record.faultless (budget : Nat) (thread : Option String) :
    (Record.conn budget thread).Faultless (Record.transport budget thread) where
  connect _ x r y h := by
    cases h
    exact refl_of (Record.conn budget thread).Same x
  start _ x r y h := by
    cases h
    exact refl_of (Record.conn budget thread).Same x
  exchange channel heap r limit x a y h := by
    simp only [Record.transport] at h
    split at h
    · rename_i sent z hsent
      split at h
      · rename_i found server hanswer
        cases h
        exact .inr ⟨sent, z, found, rfl, hsent, hanswer, rfl⟩
      · cases h
    · cases h
  close _ x r y h := by
    cases h
    exact ⟨⟨_, rfl⟩, refl_of (Record.conn budget thread).Same x⟩
  abort _ x := refl_of (Record.conn budget thread).Same x
  wait _ x r y h := by
    cases h
    exact refl_of (Record.conn budget thread).Same x

/-! ## Calls that are recorded -/

namespace Record

def client : Client Record where
  settings := { defaultEndpoint := some "server" }
  transport := transport 40 none

def environment : Environment (Reach Record) where
  host := { thread := none, natives := Native.standard none }
  dispatcher? type := if type = defaultClientType then some client.dispatcher else none

/-- A hash by which both ends know a module. -/
def knownHash : String := "0123456789abcdef0123456789abcdef01234567"

/-- The deployment of a module without dependencies. -/
def deployment (m : Module Datum) : Deployment := ((Deployment.make? {} .sha1 m []).toOption.join).getD default

/-- A module that is the only one of a domain. -/
def loaded (n : Module Datum) : LoadedModule × Domain :=
  (Domain.register { hostName := "" } n n.toFile none).toOption.getD default

theorem has_loaded {n : Module Datum} (h : (n.types.map (·.fullName)).Nodup) : (loaded n).2.Has n (loaded n).1 := by
  have hregister : Domain.register { hostName := "" } n n.toFile none = .ok (loaded n) := by
    have hclash (code : Module Value) : Domain.clash? { hostName := "" } code = none :=
      List.findSome?_eq_none_iff.mpr fun _ _ => rfl
    unfold loaded Domain.register
    dsimp only [Domain.module?, Dict.find?, List.lookup]
    rcases StateT.run (Domain.instantiate n) {} with ⟨code, heap⟩
    dsimp only
    rw [hclash]
    rfl
  exact .of_register rfl h hregister

/-- The client and the server, each with its module of the deployment. -/
def start (m : Module Datum) : State (Reach Record) where
  domain := (loaded (deployment m).client).2
  outside := {
    hashes := [(m.name, knownHash)]
    network := (⟨(loaded (deployment m).server).2, { sandbox := "", versions.modules := [(m.name, knownHash)] }⟩, []) }

theorem ready {m : Module Datum} (hname : (deployment m).server.name = m.name)
    (h : ((deployment m).server.types.map (·.fullName)).Nodup) (hash : String) :
    ((conn 40 none).server (start m).outside.network).Ready (deployment m) m.name hash where
  module l hl := by
    have hserver := has_loaded h
    cases (hname ▸ hserver.module).symm.trans hl
    exact ⟨_, .inr rfl, hserver⟩
  files _ _ h := nomatch h

/-- The second method of the first type of a module. -/
def second (m : Module Datum) : Target Datum :=
  let u := m.types[0]?.getD default
  ⟨0, 1, u, u.methods[1]?.getD default⟩

/-- A call of that method on the client. -/
def call (m : Module Datum) (args : List Value) : Transition :=
  let l := (loaded (deployment m).client).1
  let u := l.code.types[0]?.getD default
  .next (.first ⟨l, u, u.methods[1]?.getD default⟩ none args 0) []

/-- The call completes with one request, and its code calls no mobile method at either end. -/
def Completes (m : Module Datum) (args : List Value) (v : Value) (s : State (Reach Record)) : Prop :=
  resume environment 40 (call m args) (start m) = some (.ok v, s) ∧ s.outside.network.2.length = 1 ∧
    (∀ p ∈ s.outside.network.2, ∀ x ∈ (second m).code defaultClientType ((conn 40 none).moves p),
      (second m).enters x = false) ∧
    ∀ x ∈ (second m).code defaultClientType (moves environment 40 (call m args) (start m)),
      (second m).enters x = false ∧ ¬Dispatches environment x.top

theorem completes {m : Module Datum} {args : List Value}
    (h : (resume environment 40 (call m args) (start m)).any (fun p => p.1.isOk &&
      p.2.outside.network.2.length = 1 && p.2.outside.network.2.all fun q =>
        ((second m).code defaultClientType ((conn 40 none).moves q)).all fun x => !(second m).enters x) = true)
    (hcode : ∀ x ∈ (second m).code defaultClientType (moves environment 40 (call m args) (start m)),
      (second m).enters x = false ∧ ¬Dispatches environment x.top) : ∃ v s, Completes m args v s := by
  obtain ⟨⟨r, s⟩, hr, hchecked⟩ := Option.any_eq_true _ _ |>.mp h
  cases r with
  | error e => cases hchecked
  | ok v =>
    simp only [Except.isOk, Except.toBool, Bool.true_and, Bool.and_eq_true, decide_eq_true_eq, List.all_eq_true,
      Bool.not_eq_true'] at hchecked
    exact ⟨v, s, hr, hchecked.1, hchecked.2, hcode⟩

end Record

/-- A module with a method that marks at both ends. -/
def ledger : Module Datum where
  name := "Ledger"
  types := [{
    space := "Ops"
    name := "Ledger"
    fields := [⟨"marks", TypeName.int32, MemberFlags.static, none⟩]
    methods := [
      { name := constructorName, flags := MethodFlags.constructor, body := [.ret] },
      { name := "Mark", flags := MethodFlags.static, mobility := some { mode := .replay },
        params := [⟨"n", TypeName.int32, none⟩],
        body := [.loadArg 0, .storeStatic ⟨⟨none, "Ops.Ledger"⟩, "marks"⟩, .ret] }] }]

/-- A module with a method that has been marked, with another method on record as its sibling. -/
def detour : Module Datum where
  name := "Detour"
  types := [{
    space := "Ops"
    name := "Detour"
    methods := [
      { name := constructorName, flags := MethodFlags.constructor, body := [.ret] },
      { name := "Ask", flags := MethodFlags.static ||| MethodFlags.relayEntry, mobility := some { mode := .normal },
        returns := some TypeName.int32, body := [.const (.int32 1), .ret], relayBody := some "Tell" },
      { name := "Tell", flags := MethodFlags.static, params := [⟨"told", TypeName.boolean, none⟩],
        returns := some TypeName.int32, body := [.const (.int32 2), .ret] }] }]

end MobileCode
