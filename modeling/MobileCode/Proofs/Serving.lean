import MobileCode.Proofs.Fronts
import MobileCode.Proofs.Overloads
import MobileCode.Proofs.Provision
import MobileCode.Proofs.Transfers

/-! # Runs of requested methods

A server that has the module prepares a request: it finds the method, makes the receiver and writes the state
of the request onto it. Then it runs the method in one run, whose moves show what the method did.
-/
namespace MobileCode

/-! ## Preparation -/

namespace Server
variable (r : Request Datum)

/-- A request about to be run. -/
structure Prepared where
  host : Host Storage
  receiver : Option Ref
  nonLocals : List (Variable Value)
  frame : Frame

/-- Where the method of a request is run: no client is installed. -/
abbrev Prepared.env (p : Prepared) : Environment Storage := { host := p.host }

def makeReceiver (host : Host Storage) (run : Runner Storage) (entry : MethodHandle) : Serving (Option Ref) :=
  if entry.decl.isStatic then pure none else some <$> host.construct run r.type

def writeState (host : Host Storage) (run : Runner Storage) (receiver : Option Ref)
    (nonLocals : List (Variable Value)) : Serving Unit :=
  if r.mode = .normal then Transfer.apply host run receiver nonLocals else pure ()

def prepareOn (host : Host Storage) (run : Runner Storage) : Serving Prepared := do
  let (asked, args, nonLocals) ← ask r host
  let (entry, args) ← entryPoint r host asked args
  let receiver ← makeReceiver r host run entry
  writeState r host run receiver nonLocals
  let frame ← Run.ofExcept (Frame.enter (← get).domain.maxDepth 0 entry receiver args)
  return ⟨host, receiver, nonLocals, frame⟩

/-- All that is done for a request before its method is run; nothing can be done without the module. -/
def prepare (budget : Nat) (thread : Option String) : Serving (Option Prepared) := do
  Run.ofExcept (validate r)
  if let some bytes := r.upload then storeUpload r bytes
  match ← resolve r with
  | none => return none
  | some m => do
    let host := hostFor r (if r.onMainThread then some Native.mainThread else thread) m
    some <$> prepareOn r host (Machine.runner { host } budget)

/-- The answer, in normal mode with the state read back. -/
def Prepared.finish (p : Prepared) (run : Runner Storage) (result : Value) : Serving (Answer Value) := do
  if r.mode = .normal then
    let (nonLocals, outcome) ← Transfer.refresh p.host run p.receiver p.nonLocals
    Run.ofExcept outcome
    return .completed result nonLocals
  else return .completed result []

theorem invoke_eq_prepareOn (host : Host Storage) (budget : Nat) : invoke r host (Machine.runner { host } budget) = (do
    let p ← prepareOn r host (Machine.runner { host } budget)
    let result ← Machine.runner p.env budget p.frame
    p.finish r (Machine.runner p.env budget) result) := by
  rw [invoke_eq]
  simp only [prepareOn, makeReceiver, writeState, runSelected, bind_assoc, pure_bind, Host.invokeHandle, Prepared.finish]
  refine bind_congr fun asked => bind_congr fun entry => ?_
  by_cases hstatic : entry.1.decl.isStatic = true <;> by_cases hmode : r.mode = .normal <;>
    simp only [hstatic, hmode, if_true, if_false, Bool.false_eq_true, pure_bind]

/-- A request is prepared, and then its method is run. -/
theorem serve_eq (budget : Nat) (thread : Option String) : serve r budget thread = (do
    match ← prepare r budget thread with
    | none => return .moduleUnknown
    | some p => do
      let result ← Machine.runner p.env budget p.frame
      p.finish r (Machine.runner p.env budget) result) := by
  have hresolved : (do
      match ← resolve r with
      | none => return .moduleUnknown
      | some m => do
        let host := hostFor r (if r.onMainThread then some Native.mainThread else thread) m
        invoke r host (Machine.runner { host } budget) : Serving (Answer Value)) = (do
      let found ← (do
        match ← resolve r with
        | none => return none
        | some m => do
          let host := hostFor r (if r.onMainThread then some Native.mainThread else thread) m
          some <$> prepareOn r host (Machine.runner { host } budget) : Serving (Option Prepared))
      match found with
      | none => return .moduleUnknown
      | some p => do
        let result ← Machine.runner p.env budget p.frame
        p.finish r (Machine.runner p.env budget) result) := by
    rw [bind_assoc]
    refine bind_congr fun found => ?_
    cases found with
    | none => rfl
    | some m =>
      simp only [invoke_eq_prepareOn, map_eq_pure_bind, bind_assoc, pure_bind]
  simp only [serve, prepare]
  rw [bind_assoc]
  refine bind_congr fun _ => ?_
  cases r.upload with
  | none => exact hresolved
  | some bytes =>
    simp only [bind_assoc] at hresolved ⊢
    exact bind_congr fun _ => hresolved

/-- The moves of the run of the requested method. -/
def moves (budget : Nat) (thread : Option String) (s : Server) : List Machine.Move :=
  match prepare r budget thread s with
  | some (.ok (some p), t) => Machine.moves p.env budget (.next p.frame []) t
  | _ => []

/-- What a server answers to a request, and the objects it answers with as they travel. -/
def answer (budget : Nat) (thread : Option String) : Serving (Answer Datum) := do
  let a ← execute budget thread r
  a.outward (← State.getHeap)

end Server

/-- Of the properties that come back all are ones that the closure carries. -/
def Answer.Carries {α : Type} (c : Closure) (type : String) : Answer α → Prop
  | .completed _ vs => ∀ v ∈ vs, c.Carries type v
  | _ => True

namespace Server
variable {r : Request Datum} {closure : Closure} {type : String}
  (hr : ∀ v ∈ r.nonLocals, closure.Carries type v) {s : Server}
include hr

theorem invoke_carries (host : Host Storage) (run : Runner Storage) :
    (invoke r host run).Ensures s fun a _ => a.Carries closure type := by
  have hask : (ask r host).Ensures s fun p _ => ∀ v ∈ p.2.2, closure.Carries type v :=
    .after fun args t => (Closure.Carries.traverse hr t).bind fun vs _ hvs => .after fun asked _ => .pure hvs
  rw [invoke_eq]
  refine hask.bind fun p _ hp => .after fun q _ => ?_
  unfold runSelected
  dsimp only
  split <;>
  · refine .after fun receiver _ => ?_
    split
    · refine .after fun _ _ => .after fun result _ => (Transfer.refresh_ensures hp).bind fun back _ hback => ?_
      exact .after fun _ _ => .pure hback
    · exact .after fun result _ => .pure (by simp [Answer.Carries])

theorem serve_carries (budget : Nat) (thread : Option String) :
    (serve r budget thread).Ensures s fun a _ => a.Carries closure type := by
  have hresolved (s : Server) : (do
      match ← resolve r with
      | none => return .moduleUnknown
      | some m => do
        let host := hostFor r (if r.onMainThread then some Native.mainThread else thread) m
        invoke r host (Machine.runner { host } budget) : Serving (Answer Value)).Ensures s
          fun a _ => a.Carries closure type := by
    refine .after fun found t => ?_
    cases found with
    | none => exact .pure trivial
    | some m => exact invoke_carries hr _ _
  unfold serve
  refine .after fun _ t => ?_
  cases r.upload with
  | none => exact hresolved t
  | some bytes => exact .after fun _ u => hresolved u

end Server

/-! ## Methods that are not overloaded -/

/-- Unless the code of the method calls it, its body is started once. -/
def Target.RunsOnce (t : Target Datum) (client : String) (moves : List Machine.Move) : Prop :=
  (∀ x ∈ t.code client moves, t.enters x = false) → t.startCount client moves = 1

/-- A method that runs in normal mode is not recorded as one whose calls go to a sibling. -/
def Target.Undirected {α : Type} (t : Target α) : Prop :=
  t.mobility.mode = .normal → t.method.flags.has MethodFlags.relayEntry = true → t.method.relayBody = none

/-- No other method of the type has the name of the method. -/
def Target.Alone {α : Type} (t : Target α) : Prop :=
  ∀ (k : Nat) (d : MethodDecl α), t.type.methods[k]? = some d → d.name = t.method.name → k = t.methodIndex

/-- A request for a call of the method of a deployed module, with all its arguments and with what the closure
carries. If it carries a module as well, then one of the deployment. -/
structure Target.Requested {α : Type} (t : Target Datum) (dep : Deployment) (name : String) (closure : Closure)
    (r : Request α) : Prop where
  file : r.file = name
  mode : r.mode = t.mobility.mode
  type : r.type = t.type.fullName
  method : r.method = t.method.name
  full : r.arguments.length = t.method.params.length
  carried : ∀ v ∈ r.nonLocals, closure.Carries r.type v
  upload : ∀ bytes ∈ r.upload, ∀ n, Module.ofFile bytes = .ok n → dep.Owns n

section Deployed
variable {boundary : Boundary} {digest : DigestAlgorithm} {m n : Module Datum} {dependencies : List (Module Datum)}
  {dep : Deployment} (hmake : Deployment.make? boundary digest m dependencies = .ok (some dep))
  (hn : dep.Owns n) {t : Target Datum} (ht : t ∈ m.targets) (halone : t.Alone) {l : LoadedModule}
include hmake hn ht halone

theorem Deployment.loadedAlone (hl : l.code.shape = n.shape) {u : TypeDecl Value}
    (hu : l.code.types[t.typeIndex]? = some u) {e : MethodDecl Value} (he : e ∈ u.methods)
    (hname : e.name = t.method.name) : u.methods[t.methodIndex]? = some e := by
  obtain ⟨⟨htype, hmethod⟩, _⟩ := Module.mem_targets.mp ht
  obtain ⟨k, hk⟩ := List.mem_iff_getElem?.mp he
  obtain ⟨d, hd, hloaded, _⟩ := (loaded_methods hmake hn hl htype hu).2.2 k e hk
    ⟨t.method, List.mem_of_getElem? hmethod, hname⟩
  rw [← halone k d hd (hloaded.name.symm.trans hname)]
  exact hk

namespace Server
variable {r : Request Datum} {closure : Closure} (hr : t.Requested dep m.name closure r) {s : Server}
  (hl : s.domain.Has n l) {u : TypeDecl Value}
  (hu : l.code.types[t.typeIndex]? = some u)
include hr hl hu

/-- The server finds the method that was called. -/
theorem ask_alone {host : Host Storage} : (ask r host).Ensures s fun p s' => ∃ e, u.methods[t.methodIndex]? = some e ∧
    p.1 = ⟨l, u, e⟩ ∧ p.2.1.length = t.method.params.length ∧ s'.domain.type? r.type = some ⟨l, u⟩ := by
  rintro ⟨asked, args, nonLocals⟩ s' hask
  obtain ⟨⟨htype, _⟩, _⟩ := Module.mem_targets.mp ht
  obtain ⟨hname, _⟩ := Deployment.loaded_methods hmake hn hl.shape htype hu
  have hmem := List.mem_of_getElem? hu
  have hrtype : r.type = u.fullName := hr.type.trans hname.symm
  have hfound : s.domain.type? r.type = some ⟨l, u⟩ := hrtype ▸ hl.types u hmem
  obtain ⟨_, h, hext, hasks⟩ := ask_eq r host hfound
  have hmatches := Heap.instantiateItems_matches r.arguments hext
  rw [hask, hrtype, (hl.withHeap h).meant?_eq hmem _ hmatches] at hasks
  cases he : u.methods.find? (fun e => e.name = r.method && e.takes r.arguments) with
  | none =>
    rw [he] at hasks
    cases hasks
  | some e =>
    rw [he, Option.bind_some] at hasks
    cases he' : u.method? e.name e.paramTypes with
    | none =>
      rw [he'] at hasks
      cases hasks
    | some e' =>
      rw [he'] at hasks
      cases hasks
      obtain ⟨hmem', hname', _⟩ := TypeDecl.method?_eq_some he'
      have hnamed : e.name = r.method := by
        have hyes := List.find?_some he
        simp only [Bool.and_eq_true, decide_eq_true_eq] at hyes
        exact hyes.1
      refine ⟨e', ?_, rfl, hmatches.length_eq.trans hr.full, hfound⟩
      exact Deployment.loadedAlone hmake hn ht halone hl.shape hu hmem' (hname'.trans (hnamed.trans hr.method))

omit halone in
/-- The selected method comes to the body of the method that was called. -/
theorem entryPoint_comes (hinside : BranchesInside t.method.body) (hwords : t.method.body.length < 2 ^ 63)
    (hrelay : t.Undirected) {host : Host Storage} {e : MethodDecl Value}
    (he : u.methods[t.methodIndex]? = some e) {args : List Value} (hargs : args.length = t.method.params.length)
    {s' : Server} (htype : s'.domain.type? r.type = some ⟨l, u⟩) :
    (entryPoint r host ⟨l, u, e⟩ args).Ensures s' fun p _ => ∀ limit depth receiver f,
      Frame.enter limit depth p.1 receiver p.2 = .ok f →
        ∀ env : Environment Storage, (∀ c, env.dispatcher? c = none) → t.ComesToBody boundary.clientType env f := by
  rintro ⟨entry, given⟩ s'' hentry limit depth receiver f hf env hfree
  obtain ⟨vs, hvs, rfl⟩ := Frame.enter_eq_ok hf
  obtain ⟨_, hmovable, _⟩ := Deployment.loadedMain hmake hn hl.shape ht hu he
  obtain ⟨hkey, _, _, hparams⟩ := Deployment.main_alike hmake hn hl.shape ht hu he
  by_cases hmode : t.mobility.mode = .normal
  · obtain ⟨⟨hfound, hmethod⟩, _⟩ := Module.mem_targets.mp ht
    have hnone : e.flags.has MethodFlags.relayEntry = true → e.relayBody = none := by
      obtain ⟨d, hd, _, hstays⟩ := (Deployment.loaded_methods hmake hn hl.shape hfound hu).2.2 t.methodIndex e he
        ⟨t.method, List.mem_of_getElem? hmethod, congrArg MethodKey.name hkey⟩
      cases hmethod.symm.trans hd
      rw [Deployment.main_relayEntry hmake hn hl.shape ht hu he hmode]
      exact fun hentry => (hstays fun h => h.2 hmode).trans (hrelay hmode hentry)
    rw [entryPoint_undirected r host (hr.mode.trans hmode) hnone] at hentry
    cases hentry
    cases (Frame.bindArguments_full ⟨l, u, e⟩ (hargs.trans hparams.symm)).symm.trans hvs
    have hholds := Deployment.main_holds hmake hn hl.shape ht hu he hmode
    have hcount : (t.method.callSite boundary.clientType t.type.fullName).paramCount.toNat = t.method.params.length :=
      MethodDecl.callSite_count hmovable
    exact Target.comesToBody_normal hmode hfree hholds (hholds.staysBehind hinside hwords) hkey rfl
      (Nat.le_of_eq (hcount.trans hargs.symm))
  · obtain ⟨sibling, h⟩ := Deployment.loadedIn hmake hn hl.shape ht hu he hmode
    have hmoved : entryPoint r host ⟨l, u, e⟩ args _ = _ := entryPoint_moved r host h.relayBody (hr.mode ▸ hmode) htype
      (h.paramTypes ▸ h.sibling) (Nat.le_of_eq (hargs.trans hparams.symm))
    cases hmoved.symm.trans hentry
    have hlength : (args ++ [Value.bool true]).length = sibling.params.length := by
      rw [h.length_sibling_params, List.length_append, hargs]
      rfl
    cases (Frame.bindArguments_full ⟨l, u, sibling⟩ hlength).symm.trans hvs
    have hholds := h.holds hmode
    refine Target.comesToBody_moved hmode hmovable hholds (hholds.staysBehind hinside hwords) h.sibling_key rfl ?_
    show (args ++ [Value.bool true])[t.method.params.length]? = _
    rw [← hargs, List.getElem?_concat_length]

theorem prepareOn_comes (hinside : BranchesInside t.method.body) (hwords : t.method.body.length < 2 ^ 63)
    (hrelay : t.Undirected) {host : Host Storage} {run : Runner Storage} :
    (prepareOn r host run).Ensures s fun p _ => t.ComesToBody boundary.clientType p.env p.frame := by
  unfold prepareOn
  refine (ask_alone hmake hn ht halone hr hl hu).bind ?_
  rintro ⟨asked, args, nonLocals⟩ s' ⟨e, he, rfl, hargs, htype⟩
  refine (entryPoint_comes hmake hn ht hr hl hu hinside hwords hrelay he hargs htype).bind ?_
  rintro ⟨entry, given⟩ _ hcomes
  have hany {α : Type} (x : Serving α) (s : Server) : x.Ensures s fun _ _ => True := fun _ _ _ => trivial
  refine (hany (makeReceiver r host run entry) _).bind fun receiver _ _ => ?_
  refine (hany (writeState r host run receiver nonLocals) _).bind fun _ t _ => .get_bind ?_
  exact .ofExcept_bind fun f hf => .pure (hcomes _ _ _ f hf _ fun _ => rfl)

end Server

/-! ## Answers -/

variable {r : Request Datum} {closure : Closure} (hr : t.Requested dep m.name closure r) (hvalid : m.Valid)
  (hwords : m.Addressable) (hrelay : t.Undirected) {s : Server}
  (hready : s.Ready dep m.name r.hash)
omit hn
include hr hvalid hwords hrelay hready

namespace Server

/-- What became of the preparation. -/
def Readied (dep : Deployment) (name hash : String) (t : Target Datum) (client : String) (found : Option Prepared)
    (s : Server) : Prop :=
  match found with
  | none => s.Ready dep name hash
  | some p => t.ComesToBody client p.env p.frame

theorem prepare_ensures (budget : Nat) (thread : Option String) :
    (prepare r budget thread).Ensures s (Readied dep m.name r.hash t boundary.clientType) := by
  obtain ⟨⟨htype, hmethod⟩, _⟩ := Module.mem_targets.mp ht
  have hmem := List.mem_of_getElem? htype
  have hinside := hvalid.branches _ hmem _ (List.mem_of_getElem? hmethod)
  have hshort := hwords _ hmem _ (List.mem_of_getElem? hmethod)
  have hfound {s : Server} (hready : s.Ready dep m.name r.hash) : (do
      match ← resolve r with
      | none => return none
      | some l => do
        let host := hostFor r (if r.onMainThread then some Native.mainThread else thread) l
        some <$> prepareOn r host (Machine.runner { host } budget) : Serving (Option Prepared)).Ensures s
          (Readied dep m.name r.hash t boundary.clientType) := by
    refine (resolve_ensures hvalid hmake hready hr.file).bind fun found t hfound => ?_
    cases found with
    | none => exact .pure hfound
    | some l =>
      obtain ⟨n, hn, hl⟩ := hfound
      obtain ⟨u, hu⟩ := Deployment.loaded_type hmake hn hl.shape htype
      simp only [map_eq_pure_bind]
      exact (prepareOn_comes hmake hn ht halone hr hl hu hinside hshort hrelay).bind fun p _ hp => .pure hp
  unfold prepare
  refine .ofExcept_bind fun _ _ => ?_
  cases hbytes : r.upload with
  | none => exact hfound hready
  | some bytes =>
    have howns : dep.Files s.domain.digest r.hash bytes := fun _ n hn => hr.upload bytes hbytes n hn
    exact (storeUpload_ensures hready howns).bind fun _ _ h => hfound h

/-- What a request did, by the answer. -/
def Served (dep : Deployment) (name hash : String) (t : Target Datum) (client : String) (moves : List Machine.Move)
    {α : Type} (a : Answer α) (s : Server) : Prop :=
  match a with
  | .moduleUnknown => moves = [] ∧ s.Ready dep name hash
  | .completed .. => t.RunsOnce client moves
  | .fault _ => True

theorem serve_ensures (budget : Nat) (thread : Option String) : (serve r budget thread).Ensures s
      (Served dep m.name r.hash t boundary.clientType (moves r budget thread s)) := by
  rw [serve_eq]
  have hprepared : (prepare r budget thread).Ensures s fun found u =>
      Readied dep m.name r.hash t boundary.clientType found u ∧ prepare r budget thread s = some (.ok found, u) :=
    fun found u h => ⟨prepare_ensures hmake ht halone hr hvalid hwords hrelay hready budget thread found u h, h⟩
  refine hprepared.bind ?_
  rintro found u ⟨hfound, hprepare⟩
  unfold moves
  rw [hprepare]
  cases found with
  | none => exact .pure ⟨rfl, hfound⟩
  | some p =>
    have hruns : (Machine.runner p.env budget p.frame).Ensures u fun _ _ =>
        t.RunsOnce boundary.clientType (Machine.moves p.env budget (.next p.frame []) u) :=
      fun v u' hv => Target.ComesToBody.startCount_eq hfound hv
    refine hruns.bind fun v u' hcount => ?_
    unfold Prepared.finish
    split
    · exact Run.Ensures.bind (P := fun _ _ => True) (fun _ _ _ => trivial) fun _ _ _ => .ofExcept_bind fun _ _ => .pure hcount
    · exact .pure hcount

/-- What became of a request that was answered. -/
theorem answer_ensures (budget : Nat) (thread : Option String) : (answer r budget thread).Ensures s fun a u =>
      Served dep m.name r.hash t boundary.clientType (moves r budget thread s) a u ∧ a.Carries closure r.type := by
  have hserved := serve_ensures hmake ht halone hr hvalid hwords hrelay hready budget thread
  have hexecute : (execute budget thread r).Ensures s fun a u =>
      Served dep m.name r.hash t boundary.clientType (moves r budget thread s) a u ∧ a.Carries closure r.type := by
    unfold execute
    have hboth : (serve r budget thread).Ensures s fun a u =>
        Served dep m.name r.hash t boundary.clientType (moves r budget thread s) a u ∧ a.Carries closure r.type :=
      fun a u h => ⟨hserved a u h, serve_carries hr.carried budget thread a u h⟩
    refine hboth.attempt.bind fun found u hfound => ?_
    split
    · exact .pure (hfound _ rfl)
    · exact .pure ⟨trivial, trivial⟩
  refine hexecute.bind fun a u ⟨hserved, hback⟩ => .get_bind ?_
  cases a with
  | completed result vs =>
    exact .after fun _ _ => (Closure.Carries.traverse hback _).bind fun ws _ hws => .pure ⟨hserved, hws⟩
  | moduleUnknown => exact .pure ⟨hserved, hback⟩
  | fault f => exact .pure ⟨trivial, trivial⟩

end Server
end Deployed

end MobileCode
