import MobileCode.Proofs.Moves

/-! # Fronts of mobile methods

A mobile method holds its body behind a front. Where no client is installed the front leads to the body, and
is then left for good.
-/
namespace MobileCode
open Machine

/-! ## Loaded bodies -/

theorem Instruction.target?_shape {α : Type} [Sketched α] (i : Instruction α) : i.shape.target? = i.target? := by
  cases i <;> rfl

theorem Instruction.target?_shift {α : Type} (i : Instruction α) (k : UInt64) :
    (i.shift k).target? = i.target?.map (· + k) := by
  cases i <;> rfl

namespace Target
variable {t : Target Datum} {client : String}

theorem front_normal (h : t.mobility.mode = .normal) :
    t.front client = (t.method.callSite client t.type.fullName).normalFront t.method.isVoid := if_pos h

theorem front_moved (h : t.mobility.mode ≠ .normal) :
    t.front client = (t.method.callSite client t.type.fullName).relayFront := if_neg h

theorem bodyKey_normal (h : t.mobility.mode = .normal) : t.bodyKey = t.key := if_pos h

theorem bodyKey_moved (h : t.mobility.mode ≠ .normal) : t.bodyKey = t.siblingKey := if_neg h

theorem key_ne_siblingKey : t.key ≠ t.siblingKey := by
  intro h
  have htypes := congrArg (fun k => k.paramTypes.length) h
  simp only [key, siblingKey, MethodDecl.key, List.length_append, List.length_singleton] at htypes
  omega

theorem length_front_le : (t.front client).length ≤ 6 := by
  unfold front
  split
  · exact DispatchSite.length_normalFront_le _ _
  · exact DispatchSite.length_relayFront_le _

variable (t client) in
/-- The body of the method stands in `d`, behind the front. -/
def HeldBy (d : MethodDecl Value) : Prop :=
  ∃ rest, d.body = t.front client ++ rest ∧ rest.map Instruction.shape =
    (t.method.body.map (·.shift (UInt64.ofNat (t.front client).length))).map Instruction.shape

/-- The branches of the body stay in the body. -/
theorem HeldBy.staysBehind {d : MethodDecl Value} (h : t.HeldBy client d) (hinside : BranchesInside t.method.body)
    (hwords : t.method.body.length < 2 ^ 63) : d.StaysBehind (t.front client).length := by
  obtain ⟨rest, hbody, hrest⟩ := h
  intro p i n hp hi hn
  rw [hbody, List.getElem?_append_right hp] at hi
  have hsix : (t.front client).length ≤ 6 := t.length_front_le
  have hshape : (rest.map Instruction.shape)[p - (t.front client).length]? = some i.shape := by
    rw [List.getElem?_map, hi]
    rfl
  rw [hrest, List.map_map, List.getElem?_map, Option.map_eq_some_iff] at hshape
  obtain ⟨j, hj, hij⟩ := hshape
  have htarget : j.target?.map (· + UInt64.ofNat (t.front client).length) = some n := by
    rw [← Instruction.target?_shift, ← Instruction.target?_shape, ← hn, ← Instruction.target?_shape i]
    exact congrArg Instruction.target? hij
  obtain ⟨k, hk, rfl⟩ := Option.map_eq_some_iff.mp htarget
  have hlt := hinside j (List.mem_of_getElem? hj) k hk
  rw [UInt64.toNat_add, UInt64.toNat_ofNat']
  omega

end Target

/-! ## Mobile methods as they are loaded -/

theorem DispatchSite.normalFront_shape (site : DispatchSite) (isVoid : Bool) :
    (site.normalFront isVoid : List (Instruction Datum)).map Instruction.shape =
      (site.normalFront isVoid : List (Instruction Value)).map Instruction.shape := by
  cases isVoid <;> rfl

theorem DispatchSite.not_const_of_mem_normalFront {site : DispatchSite} {isVoid : Bool} :
    ∀ i ∈ (site.normalFront isVoid : List (Instruction Value)), ∀ x, i ≠ .const x := by
  cases isVoid <;> simp [normalFront]

theorem Target.HeldBy.of_shape {t : Target Datum} {client : String} {d : MethodDecl Value} (hmode : t.mobility.mode = .normal)
    (hbody : d.body.map Instruction.shape = (inFrontOf ((t.method.callSite client t.type.fullName).normalFront
      t.method.isVoid) t.method.body).map Instruction.shape) : t.HeldBy client d := by
  have hlength : ((t.method.callSite client t.type.fullName).normalFront t.method.isVoid :
      List (Instruction Datum)).length = (t.front client).length := by
    rw [Target.front_normal hmode]
    cases t.method.isVoid <;> rfl
  rw [inFrontOf, List.map_append, DispatchSite.normalFront_shape, hlength, ← Target.front_normal hmode] at hbody
  refine eq_append_of_shape (fun i hi => ?_) hbody
  rw [Target.front_normal hmode] at hi
  exact DispatchSite.not_const_of_mem_normalFront i hi

section Deployed
variable {boundary : Boundary} {digest : DigestAlgorithm} {m n : Module Datum} {dependencies : List (Module Datum)}
  {dep : Deployment} (hmake : Deployment.make? boundary digest m dependencies = .ok (some dep))
  (hn : n = dep.client ∨ n = dep.server) {l : LoadedModule} (hl : l.code.shape = n.shape)
  {t : Target Datum} (ht : t ∈ m.targets) {u : TypeDecl Value} (hu : l.code.types[t.typeIndex]? = some u)
  {e : MethodDecl Value} (he : u.methods[t.methodIndex]? = some e)
include hmake hn hl ht hu he

/-- To its callers a mobile method is what it was. -/
theorem Deployment.main_alike : e.key u.fullName = t.key ∧ e.isStatic = t.method.isStatic ∧
    e.isVoid = t.method.isVoid ∧ e.params.length = t.method.params.length := by
  obtain ⟨hname, _, closure, e₀, hmarks, hshape⟩ := loadedMain hmake hn hl ht hu he
  have halike := (MethodDecl.mobileForm_alike boundary.clientType t.type.fullName t.method closure).marks hmarks
  refine ⟨?_, (MethodDecl.isStatic_eq hshape).trans halike.static, (MethodDecl.isVoid_eq hshape).trans halike.isVoid, ?_⟩
  · rw [MethodDecl.key_eq hshape, halike.key, hname, Target.key]
  · exact (MethodDecl.length_params_eq hshape).trans halike.params.length_eq.symm

/-- In normal mode no module has a mark that the method did not have. -/
theorem Deployment.main_relayEntry (hmode : t.mobility.mode = .normal) :
    e.flags.has MethodFlags.relayEntry = t.method.flags.has MethodFlags.relayEntry := by
  obtain ⟨_, _, closure, e₀, hmarks, hshape⟩ := loadedMain hmake hn hl ht hu he
  have hflags : e.flags = e₀.flags := congrArg MethodDecl.flags hshape
  obtain rfl | ⟨hmoved, _⟩ := hmarks
  · rw [hflags, MethodDecl.mobileForm_normal hmode]
    exact Flags.has_union (by decide) _
  · exact absurd hmode hmoved

/-- In normal mode the method itself holds the body. -/
theorem Deployment.main_holds (hmode : t.mobility.mode = .normal) : t.HeldBy boundary.clientType e := by
  obtain ⟨_, _, closure, e₀, hmarks, hshape⟩ := loadedMain hmake hn hl ht hu he
  have hbody : e.body.map Instruction.shape = e₀.body.map Instruction.shape := congrArg MethodDecl.body hshape
  rw [MethodDecl.mobileForm_normal hmode] at hmarks
  refine .of_shape hmode (hbody.trans (congrArg (List.map Instruction.shape) ?_))
  obtain rfl | ⟨_, rfl⟩ := hmarks <;> rfl

end Deployed

namespace Target.LoadedIn
variable {t : Target Datum} {client : String} {l : LoadedModule} {u : TypeDecl Value} {e sibling : MethodDecl Value}
  (h : t.LoadedIn client l u e sibling)
include h

/-- In the other modes the sibling holds it. -/
theorem holds (hmode : t.mobility.mode ≠ .normal) : t.HeldBy client sibling := by
  obtain ⟨rest, hbody, hrest⟩ := h.body
  have hlength : ((t.method.callSite client t.type.fullName).relayFront : List (Instruction Datum)).length =
      (t.front client).length := by
    rw [front_moved hmode]
    simpa using congrArg List.length (DispatchSite.relayFront_shape (t.method.callSite client t.type.fullName))
  rw [hlength] at hrest
  exact ⟨rest, by rw [front_moved hmode, hbody], hrest⟩

theorem sibling_key : sibling.key u.fullName = t.siblingKey := by
  rw [MethodDecl.key_eq h.shape, h.type]
  simp [MethodDecl.key, siblingKey, MethodDecl.relaySibling, MethodDecl.paramTypes, relayMarker]

end Target.LoadedIn

theorem List.getElem?_append_of_some {β : Type} {xs ys : List β} {i : Nat} {x : β} (h : xs[i]? = some x) :
    (xs ++ ys)[i]? = some x :=
  (List.getElem?_append_left (List.getElem?_eq_some_iff.mp h).1).trans h

namespace DispatchSite
variable (site : DispatchSite)

/-- The front dispatches, and a jump over the return leads to its last instruction. -/
theorem normalFront_leads (isVoid : Bool) : ∃ k : UInt64,
    (site.normalFront isVoid : List (Instruction Value)).length = k.toNat + 1 ∧ 1 < k.toNat ∧
    (site.normalFront isVoid : List (Instruction Value))[0]? = some (.dispatch site) ∧
    (site.normalFront isVoid : List (Instruction Value))[1]? = some (.jumpIfFalse k) ∧
    (site.normalFront isVoid : List (Instruction Value))[k.toNat]? = some .pop := by
  cases isVoid with
  | true => exact ⟨4, rfl, by decide, rfl, rfl, rfl⟩
  | false => exact ⟨3, rfl, by decide, rfl, rfl, rfl⟩

/-- The front looks at the marker, and a jump leads over the rest of it, which dispatches and drops the result. -/
theorem relayFront_leads : ∃ k : UInt64, (site.relayFront : List (Instruction Value)).length = k.toNat ∧ 5 ≤ k.toNat ∧
    (site.relayFront : List (Instruction Value))[0]? = some (.loadArg site.paramCount) ∧
    (site.relayFront : List (Instruction Value))[1]? = some (.jumpIfTrue k) ∧
    (site.relayFront : List (Instruction Value))[2]? = some (.dispatch site) ∧
    (site.relayFront : List (Instruction Value))[3]? = some .pop ∧
    (site.relayFront : List (Instruction Value))[4]? = some .pop := by
  unfold relayFront
  split
  · exact ⟨5, rfl, by decide, rfl, rfl, rfl, rfl, rfl⟩
  · exact ⟨6, rfl, by decide, rfl, rfl, rfl, rfl, rfl⟩

end DispatchSite

/-! ## Coming to the body -/

namespace Target
variable {t : Target Datum} {client : String}

theorem starts_eq_false {x : Move} (h : x.next.position < (t.front client).length) : t.starts client x = false := by
  simp only [starts, Bool.and_eq_false_iff, decide_eq_false_iff_not]
  omega

theorem starts_eq_true {x : Move} (hrest : x.rest.length = x.below.length) (hkey : x.top.method.key = t.bodyKey)
    (htop : x.top.position < (t.front client).length) (hnext : (t.front client).length ≤ x.next.position) :
    t.starts client x = true := by
  simp [starts, hrest, hkey, htop, hnext]

/-- A run of the frame comes to the body, at which the front is left for good. -/
def ComesToBody {ω : Type} (t : Target Datum) (client : String) (env : Environment ω) (f : Frame) : Prop :=
  ∀ s : State ω, ∃ xs x g, Passes env s (xs ++ [x]) (.next f []) (.next g []) ∧
    (∀ y ∈ xs, t.starts client y = false) ∧ t.starts client x = true ∧ t.Settled client g

/-- Such a run that comes to its end has started the body once, unless its code calls the method. -/
theorem ComesToBody.startCount_eq {ω : Type} {env : Environment ω} {f : Frame} (h : t.ComesToBody client env f)
    {budget : Nat} {v : Value} {s s' : State ω} (hv : resume env budget (.next f []) s = some (.ok v, s'))
    (hcalls : ∀ x ∈ t.code client (moves env budget (.next f []) s), t.enters x = false) :
    t.startCount client (moves env budget (.next f []) s) = 1 := by
  obtain ⟨xs, x, g, hpasses, hxs, hx, hsettled⟩ := h s
  obtain ⟨k, _, hmoves⟩ := hpasses.resume_eq_ok hv
  rw [List.append_assoc, List.singleton_append] at hmoves
  rw [hmoves] at hcalls ⊢
  obtain ⟨hcode, hcount⟩ := Target.startCount_eq hxs hx
  rw [hcode] at hcalls
  have hnone : ∀ y ∈ moves env k (.next g []) s, t.starts client y = false :=
    Settled.moves (by simpa using hsettled) fun y hy => hcalls y (List.mem_cons_of_mem x hy)
  rw [hcount, startCount_eq_zero hnone]

section
variable {ω : Type} {env : Environment ω} {f : Frame}

/-- In normal mode the dispatch comes first; nothing is executed elsewhere. -/
theorem comesToBody_normal (hmode : t.mobility.mode = .normal) (hfree : ∀ c, env.dispatcher? c = none)
    (hholds : t.HeldBy client f.method.decl) (hstays : f.method.decl.StaysBehind (t.front client).length)
    (hkey : f.method.key = t.key) (hpos : f.position = 0)
    (hargs : (t.method.callSite client t.type.fullName).paramCount.toNat ≤ f.args.length) :
    t.ComesToBody client env f := by
  intro s
  have hidle (c : String) : env.IdleFor c := fun d hd => by rw [hfree] at hd; cases hd
  have hbodyKey : f.method.key = t.bodyKey := hkey.trans (bodyKey_normal hmode).symm
  obtain ⟨rest, hbody, _⟩ := hholds
  obtain ⟨k, hlength, hk, hdispatch, hjump, hpop⟩ :=
    (t.method.callSite client t.type.fullName).normalFront_leads t.method.isVoid
  rw [← front_normal hmode] at hlength hdispatch hjump hpop
  have hfirst : f.method.decl.body[f.position]? = some (.dispatch (t.method.callSite client t.type.fullName)) := by
    rw [hpos]
    exact hbody ▸ List.getElem?_append_of_some hdispatch
  have hsecond : f.method.decl.body[f.position + 1]? = some (.jumpIfFalse k) := by
    rw [hpos]
    exact hbody ▸ List.getElem?_append_of_some hjump
  let g : Frame := { f with position := f.position + 1, stack := .bool false :: .null :: f.stack }
  refine ⟨[_, _], _, _, .step (fun run => step_dispatch hfirst (hidle _) hargs run [] s)
    (.step (fun run => step_jumpIfFalse (g := g) hsecond rfl run [] s)
      (.step (fun run => step_pop ?_ rfl run [] s) (.here _))), ?_, ?_, ?_⟩
  · exact hbody ▸ List.getElem?_append_of_some hpop
  · refine List.forall_mem_cons.mpr ⟨starts_eq_false ?_, List.forall_mem_singleton.mpr (starts_eq_false ?_)⟩
    · show f.position + 1 < _
      omega
    · show k.toNat < _
      omega
  · refine starts_eq_true rfl hbodyKey ?_ ?_
    · show k.toNat < _
      omega
    · show _ ≤ k.toNat + 1
      omega
  · refine fun _ => ⟨?_, hstays⟩
    show _ ≤ k.toNat + 1
    omega

/-- In the other modes the marker makes the run go to the body. -/
theorem comesToBody_moved (hmode : t.mobility.mode ≠ .normal) (hmovable : t.method.Movable)
    (hholds : t.HeldBy client f.method.decl) (hstays : f.method.decl.StaysBehind (t.front client).length)
    (hkey : f.method.key = t.siblingKey) (hpos : f.position = 0)
    (hmarker : f.args[t.method.params.length]? = some (.bool true)) : t.ComesToBody client env f := by
  intro s
  have hbodyKey : f.method.key = t.bodyKey := hkey.trans (bodyKey_moved hmode).symm
  obtain ⟨rest, hbody, _⟩ := hholds
  obtain ⟨k, hlength, hk, hload, hjump, _⟩ := (t.method.callSite client t.type.fullName).relayFront_leads
  rw [← front_moved hmode] at hlength hload hjump
  have hfirst : f.method.decl.body[f.position]? =
      some (.loadArg (t.method.callSite client t.type.fullName).paramCount) := by
    rw [hpos]
    exact hbody ▸ List.getElem?_append_of_some hload
  have hcount : (t.method.callSite client t.type.fullName).paramCount.toNat = _ := MethodDecl.callSite_count hmovable
  rw [← hcount] at hmarker
  have hsecond : f.method.decl.body[f.position + 1]? = some (.jumpIfTrue k) := by
    rw [hpos]
    exact hbody ▸ List.getElem?_append_of_some hjump
  let g : Frame := { f with position := f.position + 1, stack := .bool true :: f.stack }
  refine ⟨[_], _, _, .step (fun run => step_loadArg hfirst hmarker run [] s)
    (.step (fun run => step_jumpIfTrue (g := g) hsecond rfl run [] s) (.here _)), ?_, ?_, ?_⟩
  · refine List.forall_mem_singleton.mpr (starts_eq_false ?_)
    show f.position + 1 < _
    omega
  · refine starts_eq_true rfl hbodyKey ?_ ?_
    · show f.position + 1 < _
      omega
    · show _ ≤ k.toNat
      omega
  · refine fun _ => ⟨?_, hstays⟩
    show _ ≤ k.toNat
    omega

end

end Target

end MobileCode
