import MobileCode.Proofs.Calls

/-! # Instructions side by side

Each instruction does the same in both domains, wherever it has moved: it ends in stacks that are
alike, or in a call whose form in the second domain has a front that quiet steps lead over.
-/
namespace MobileCode
variable {c : Comparison} {w w' : Links}

namespace Machine
variable {ω : Type} {env : Environment ω} {k : Nat} {f g : Frame} {below below' : List Frame}

theorem compare_tracks {h h' : Heap} (hh : Heap.Linked w h h') (op : CompareOp) {x x' y y' : Value}
    (hx : Value.Linked w x x') (hy : Value.Linked w y y') :
    c.Tracks Run.Every (fun _ a b => a = b) w (compare h op x y : Run (State ω) Bool) (compare h' op x' y') := by
  simp only [compare, hx.compare? hy]
  cases x'.compare? y' with
  | some o => exact Run.Tracks.pure rfl
  | none =>
    cases op with
    | eq =>
      simp only [hh.equal hx hy]
      exact Run.Tracks.ofOption fun _ _ => rfl
    | ne =>
      simp only [hh.equal hx hy]
      refine Run.Tracks.bind (R := fun _ a b => a = b) (Run.Tracks.ofOption fun _ _ => rfl) ?_
      rintro w' - a _ rfl
      exact Run.Tracks.pure rfl
    | _ =>
      simp only [mismatch, hh.typeName hx, hh.typeName hy]
      exact Run.Tracks.throw fun _ => .same _

theorem truth_tracks {h h' : Heap} (hh : Heap.Linked w h h') {x x' : Value} (hx : Value.Linked w x x') :
    Except.Tracks c.exact Eq (truth h x) (truth h' x') := by
  simp only [truth, hx.truth?, hh.typeName hx]
  cases x'.truth? with
  | some b => exact .ok rfl
  | none => exact .same _

theorem binary_tracks (hs : Frame.Stands c w k below below' f g) {h h' : Heap} (hh : Heap.Linked w h h')
    (op : BinaryOp) {x x' y y' : Value} (hx : Value.Linked w x x') (hy : Value.Linked w y y') :
    Except.Tracks c.exact (Value.Linked w) (binary h f op x y) (binary h' g op x' y') := by
  have happly := op.apply_linked hh hx hy
  simp only [binary, mismatch, hh.typeName hx, hh.typeName hy]
  generalize op.apply h x y = u at happly
  generalize op.apply h' x' y' = v at happly
  cases happly with
  | ok hv => exact .ok hv
  | error e =>
    cases e with
    | fault d => exact .error fun hexact => hs.alike.exception hexact _ ▸ .same _
    | mismatch => exact .same _

/-- The end of a frame is the end of its form, once a method that waits for it has returned. -/
theorem finish_reaches (hs : Frame.Stands c w k below below' f g) {v v' : Value} (hv : Value.Linked w v v')
    (hnull : f.method.decl.isVoid = true → v = .null) :
    Transition.Reaches c w env (finish f below v) (finish g below' v') := by
  have hc := hs.alike.constructs
  have hresult : Value.Linked w (constructedOr f.constructs v) (constructedOr g.constructs v') := by
    generalize f.constructs = x at hc
    generalize g.constructs = y at hc
    cases hc with
    | none => exact hv
    | some hr => exact .object hr
  have hgive {k' : Nat} {p q : Frame} {rest rest' : List Frame} (hp : Frame.Stands c w k' rest rest' p q) :
      Frame.Stands c w k' rest rest' (f.giveBack p v) (g.giveBack q v') := by
    have hsome : g.constructs.isSome = f.constructs.isSome := by
      generalize f.constructs = x at hc
      generalize g.constructs = y at hc
      cases hc <;> rfl
    simp only [Frame.giveBack, hsome, hs.alike.isVoid]
    split
    · exact hp.push hresult
    split
    · exact hp
    · exact hp.push hv
  cases hs.rests with
  | same _ _ hbelow =>
    cases hbelow with
    | nil => exact .here (.done hresult)
    | push hp hr => exact (hgive ⟨hp, hr⟩).reaches
  | @moved _ _ stub _ below' hx hmoves hdepth hcons hvoid hwaits hbelow =>
    have hcons' : g.constructs = none := by
      rw [hcons] at hc
      generalize g.constructs = y at hc ⊢
      cases hc
      rfl
    have hstub : finish g (stub :: below') v' = .next stub below' := by
      simp only [finish, Frame.giveBack, hcons', hs.alike.isVoid, hvoid, Option.isSome_none,
        Bool.false_eq_true, if_false, if_true]
    rw [hstub]
    refine .quiet (t := finish { stub with position := stub.position + 1 } below' .null) ?_ ?_
    · intro run s _
      simp only [step, hwaits.next, execute, hwaits.isVoid, if_true]
      rfl
    · cases hbelow with
      | nil =>
        simp only [finish, hcons, hwaits.constructs, hnull hvoid]
        exact .here (.done .null)
      | push hp hr =>
        simp only [finish, Frame.giveBack, hcons, hwaits.constructs, hvoid, hwaits.isVoid, Option.isSome_none,
          Bool.false_eq_true, if_false, if_true]
        exact Frame.Stands.reaches ⟨hp, hr⟩

/-- A dispatch that nothing takes. -/
theorem dispatch_steps (run run' : Runner ω) (hs : Frame.Stands c w k below below' f g) {site : DispatchSite}
    (hidle : env.IdleFor site.client.fullName) :
    Steps c env w (execute env run f below (.dispatch site)) (execute env run' g below' (.dispatch site)) := by
  have hlen := hs.alike.length_args
  simp only [execute]
  refine Run.Tracks.bind (R := fun _ a b => a = .notExecuted ∧ b = .notExecuted) ?_ ?_
  · unfold dispatch
    cases hd : env.dispatcher? site.client.fullName with
    | none => exact Run.Tracks.pure ⟨rfl, rfl⟩
    | some d =>
      have hd := hidle d hd
      by_cases hargs : f.args.length < site.paramCount.toNat
      · simp only [if_pos hargs]
        by_cases hx : c.exact
        · rw [← hlen.2 hx, if_pos hargs, hs.alike.key hx]
          exact Run.Tracks.throw fun _ => .same _
        · exact fun _ _ _ => .loose hx fun _ _ h => by cases h
      · simp only [if_neg hargs, if_neg (fun h => hargs (Nat.lt_of_le_of_lt hlen.1 h))]
        intro s t hst
        unfold Run.TracksFrom
        rw [hd, hd]
        exact .ok ⟨w, le_rfl, hst, rfl, rfl⟩
  · rintro w' hle _ _ ⟨rfl, rfl⟩
    exact Steps.go (((hs.mono hle).push .null).push (.bool false))

/-- Each instruction does the same on both sides. -/
theorem execute_steps (hhost : env.host.Impartial c) (hclient : env.IdleFor c.client)
    (hspares : ¬c.exact → env.host.SparesSiblings) (run run' : Runner ω)
    (hs : Frame.Stands c w k below below' f g) {i j : Instruction Value}
    (hij : Instruction.Moved (Value.Linked w) k i j)
    (hidle : ∀ site, i = .dispatch site → env.IdleFor site.client.fullName) :
    Steps c env w (execute env run f below i) (execute env run' g below' j) := by
  cases i with
  | nop =>
    cases hij
    exact Steps.go hs
  | const x =>
    obtain ⟨y, rfl, hxy⟩ := hij
    exact Steps.go (hs.push hxy)
  | loadArg n =>
    cases hij
    have ha := hs.alike.argument? n.toNat
    simp only [execute]
    generalize f.args[n.toNat]? = x at ha
    generalize g.args[n.toNat]? = y at ha
    cases ha with
    | some hv => exact Steps.go (hs.push hv)
    | none => exact Run.Tracks.throw fun _ => .same _
    | loose hx => exact fun _ _ _ => .loose hx fun _ _ h => by cases h
  | storeArg n =>
    cases hij
    simp only [execute]
    refine Run.Tracks.ofExcept_bind hs.pop fun p q hpq => ?_
    obtain ⟨v, f⟩ := p
    obtain ⟨v', g⟩ := q
    obtain ⟨hv, hs⟩ := hpq
    have hlen := hs.alike.length_args
    by_cases hn : n.toNat < f.args.length
    · simp only [if_pos hn, if_pos (Nat.lt_of_lt_of_le hn hlen.1)]
      exact Steps.go (hs.withArg hn hv)
    · simp only [if_neg hn]
      by_cases hx : c.exact
      · rw [if_neg (hlen.2 hx ▸ hn)]
        exact Run.Tracks.throw fun _ => .same _
      · exact fun _ _ _ => .loose hx fun _ _ h => by cases h
  | loadLocal n =>
    cases hij
    have hl := Forall₂.getElem? hs.alike.locals n.toNat
    simp only [execute]
    generalize f.locals[n.toNat]? = x at hl
    generalize g.locals[n.toNat]? = y at hl
    cases hl with
    | some hv => exact Steps.go (hs.push hv)
    | none => exact Run.Tracks.throw fun _ => .same _
  | storeLocal n =>
    cases hij
    simp only [execute]
    refine Run.Tracks.ofExcept_bind hs.pop fun p q hpq => ?_
    obtain ⟨v, f⟩ := p
    obtain ⟨v', g⟩ := q
    obtain ⟨hv, hs⟩ := hpq
    simp only [hs.alike.locals.length_eq]
    split
    · exact Steps.go (hs.setLocal n.toNat hv)
    · exact Run.Tracks.throw fun _ => .same _
  | loadThis =>
    cases hij
    have hr := hs.alike.receiver
    simp only [execute]
    generalize f.receiver = x at hr
    generalize g.receiver = y at hr
    cases hr with
    | some hr => exact Steps.go (hs.push (.object hr))
    | none => exact Run.Tracks.throw fun hx => hs.alike.key hx ▸ .same _
  | loadField field =>
    cases hij
    simp only [execute]
    refine Steps.getHeap fun heap heap' hh => ?_
    refine Run.Tracks.ofExcept_bind (hs.popObject hh) fun p q hpq => ?_
    obtain ⟨r, f⟩ := p
    obtain ⟨r', g⟩ := q
    obtain ⟨hr, hs⟩ := hpq
    have hx := hh.field? hr field.name
    have ht := hh.typeOf hr
    simp only
    generalize heap.field? r field.name = x at hx
    generalize heap'.field? r' field.name = y at hx
    cases hx with
    | some hv => exact Steps.go (hs.push hv)
    | none =>
      refine Run.Tracks.throw fun hexact => ?_
      rw [hs.alike.module hexact, ht]
      exact .same _
  | storeField field =>
    cases hij
    simp only [execute]
    refine Run.Tracks.ofExcept_bind hs.pop fun p q hpq => ?_
    obtain ⟨v, f⟩ := p
    obtain ⟨v', g⟩ := q
    obtain ⟨hv, hs⟩ := hpq
    refine Steps.getHeap fun heap heap' hh => ?_
    refine Run.Tracks.ofExcept_bind (hs.popObject hh) fun p q hpq => ?_
    obtain ⟨r, f⟩ := p
    obtain ⟨r', g⟩ := q
    obtain ⟨hr, hs⟩ := hpq
    exact (State.setField_tracks hr field.name hv).bind fun _ hle _ _ _ => Steps.go (hs.mono hle)
  | loadStatic field =>
    cases hij
    simp only [execute]
    refine (Host.resolveType_tracks hhost field.owner).bind fun w₁ hle₁ t u htu => ?_
    rw [htu.form.fullName]
    refine (Host.getStatic_tracks hhost _ field.name).bind fun w₂ hle₂ v v' hv => ?_
    exact Steps.go ((hs.mono (hle₁.trans hle₂)).push hv)
  | storeStatic field =>
    cases hij
    simp only [execute]
    refine Run.Tracks.ofExcept_bind hs.pop fun p q hpq => ?_
    obtain ⟨v, f⟩ := p
    obtain ⟨v', g⟩ := q
    obtain ⟨hv, hs⟩ := hpq
    refine (Host.resolveType_tracks hhost field.owner).bind fun w₁ hle₁ t u htu => ?_
    simp only [htu.form.fullName]
    refine (Host.setStatic_tracks hhost _ field.name (hv.mono hle₁)).bind fun w₂ hle₂ _ _ _ => ?_
    exact Steps.go (hs.mono (hle₁.trans hle₂))
  | call m =>
    cases hij
    exact call_steps hhost hclient hspares hs m
  | construct t =>
    cases hij
    simp only [execute]
    refine (Host.resolveType_tracks hhost t).bind fun w₁ hle₁ t u htu => ?_
    rw [htu.form.fullName]
    have hs₁ := hs.mono hle₁
    refine (startConstruction_tracks hhost hclient (.push hs₁.alike hs₁.rests) t.decl.fullName).bind
      fun w₂ _ f' g' hfg => ?_
    exact Run.Tracks.pure hfg
  | binary op =>
    cases hij
    simp only [execute]
    refine Run.Tracks.ofExcept_bind hs.pop fun p q hpq => ?_
    obtain ⟨y, f⟩ := p
    obtain ⟨y', g⟩ := q
    obtain ⟨hy, hs⟩ := hpq
    refine Run.Tracks.ofExcept_bind hs.pop fun p q hpq => ?_
    obtain ⟨x, f⟩ := p
    obtain ⟨x', g⟩ := q
    obtain ⟨hx, hs⟩ := hpq
    refine Steps.getHeap fun heap heap' hh => ?_
    exact Run.Tracks.ofExcept_bind (binary_tracks hs hh op hx hy) fun v v' hv => Steps.go (hs.push hv)
  | compare op =>
    cases hij
    simp only [execute]
    refine Run.Tracks.ofExcept_bind hs.pop fun p q hpq => ?_
    obtain ⟨y, f⟩ := p
    obtain ⟨y', g⟩ := q
    obtain ⟨hy, hs⟩ := hpq
    refine Run.Tracks.ofExcept_bind hs.pop fun p q hpq => ?_
    obtain ⟨x, f⟩ := p
    obtain ⟨x', g⟩ := q
    obtain ⟨hx, hs⟩ := hpq
    refine Steps.getHeap fun heap heap' hh => ?_
    refine (compare_tracks hh op hx hy).bind fun w' hle b _ hb => ?_
    subst hb
    exact Steps.go ((hs.mono hle).push (.bool b))
  | not =>
    cases hij
    simp only [execute]
    refine Run.Tracks.ofExcept_bind hs.pop fun p q hpq => ?_
    obtain ⟨x, f⟩ := p
    obtain ⟨x', g⟩ := q
    obtain ⟨hx, hs⟩ := hpq
    refine Steps.getHeap fun heap heap' hh => ?_
    refine Run.Tracks.ofExcept_bind (truth_tracks hh hx) fun b _ hb => ?_
    subst hb
    exact Steps.go (hs.push (.bool !b))
  | jump t =>
    obtain ⟨u, rfl, hu⟩ := hij
    exact Steps.go (hs.withPosition hu)
  | jumpIfTrue t =>
    obtain ⟨u, rfl, hu⟩ := hij
    simp only [execute]
    refine Run.Tracks.ofExcept_bind hs.pop fun p q hpq => ?_
    obtain ⟨x, f⟩ := p
    obtain ⟨x', g⟩ := q
    obtain ⟨hx, hs⟩ := hpq
    refine Steps.getHeap fun heap heap' hh => ?_
    refine Run.Tracks.ofExcept_bind (truth_tracks hh hx) fun b _ hb => ?_
    subst hb
    cases b with
    | true => exact Steps.go (hs.withPosition hu)
    | false => exact Steps.go hs
  | jumpIfFalse t =>
    obtain ⟨u, rfl, hu⟩ := hij
    simp only [execute]
    refine Run.Tracks.ofExcept_bind hs.pop fun p q hpq => ?_
    obtain ⟨x, f⟩ := p
    obtain ⟨x', g⟩ := q
    obtain ⟨hx, hs⟩ := hpq
    refine Steps.getHeap fun heap heap' hh => ?_
    refine Run.Tracks.ofExcept_bind (truth_tracks hh hx) fun b _ hb => ?_
    subst hb
    cases b with
    | true => exact Steps.go hs
    | false => exact Steps.go (hs.withPosition hu)
  | dup =>
    cases hij
    have hstack := hs.alike.stack
    simp only [execute]
    generalize f.stack = xs at hstack
    generalize g.stack = ys at hstack
    cases hstack with
    | nil => exact Run.Tracks.throw fun _ => .same _
    | cons hv _ => exact Steps.go (hs.push hv)
  | pop =>
    cases hij
    simp only [execute]
    exact Run.Tracks.ofExcept_bind hs.pop fun _ _ hpq => Steps.go hpq.2
  | ret =>
    cases hij
    simp only [execute, hs.alike.isVoid]
    split
    · exact Run.Tracks.pure (finish_reaches hs .null fun _ => rfl)
    · rename_i hvoid
      have hmethod : ∀ p, f.pop = .ok p → p.2.method = f.method := by
        intro p hp
        unfold Frame.pop at hp
        split at hp <;> cases hp
        rfl
      refine Run.Tracks.ofExcept_bind (hs.pop.and_left hmethod) fun p q hpq => ?_
      obtain ⟨⟨hv, hs⟩, hm⟩ := hpq
      exact Run.Tracks.pure (finish_reaches hs hv fun h => absurd (hm ▸ h) hvoid)
  | throw =>
    cases hij
    simp only [execute]
    refine Run.Tracks.ofExcept_bind hs.pop fun p q hpq => ?_
    obtain ⟨x, f⟩ := p
    obtain ⟨x', g⟩ := q
    obtain ⟨hx, hs⟩ := hpq
    refine Steps.getHeap fun heap heap' hh => ?_
    refine Run.Tracks.throw fun hexact => ?_
    rw [hs.alike.exception hexact, hh.textOf hx]
    exact .same _
  | dispatch site =>
    cases hij
    exact dispatch_steps run run' hs (hidle site rfl)

end Machine
end MobileCode
