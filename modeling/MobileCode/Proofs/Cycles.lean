import MobileCode.Proofs.Holdings

/-! # State that cannot be sent

A program may store an object in a field of its own, or of an object below it. A value above such an object has no state at
any number of levels, and a request or an answer that holds the value is never written. Nothing else stands in the way: all
that a domain holds refers to objects that are there.
-/
namespace MobileCode

/-! ## Objects below themselves -/

namespace Heap
variable {h : Heap} {r : Ref} {v : Value}

/-- The object has a reference to itself below it. -/
def Loops (h : Heap) (r : Ref) : Prop := Relation.TransGen h.Part (.object r) (.object r)

/-- Below the value is an object that loops. -/
def Tied (h : Heap) (v : Value) : Prop := ∃ r, h.Below r v ∧ h.Loops r

theorem Closed.holds_part (hh : h.Closed) {p : Value} (hp : h.Part p v) (hv : h.Holds v) : h.Holds p := by
  cases hp with
  | item hmem => exact Value.anchored_list.mp hv _ hmem
  | field ho he => exact hh _ _ ho _ he

theorem Closed.holds_below (hh : h.Closed) (hr : h.Below r v) (hv : h.Holds v) : h.Holds (.object r) := by
  induction hr with
  | refl => exact hv
  | tail _ hp ih => exact ih (hh.holds_part hp hv)

/-- In a closed heap a value has a state unless it is tied. -/
theorem Closed.acyclic_iff (hh : h.Closed) (hv : h.Holds v) : h.Acyclic v ↔ ¬h.Tied v := by
  constructor
  · rintro hacyclic ⟨r, hr, hloops⟩
    exact hacyclic.noReturn r hr hloops
  · refine fun hfree => ⟨fun r hr => ?_, fun r hr hloops => hfree ⟨r, hr, hloops⟩⟩
    exact ⟨_, Array.getElem?_eq_getElem (Value.anchored_object.mp (hh.holds_below hr hv))⟩

/-! ## Stores -/

section
variable {name : String} {p w : Value}

theorem Part.of_setField (hp : (h.setField r name v).Part p w) : h.Part p w ∨ p = v ∧ w = .object r := by
  cases hp with
  | item hmem => exact .inl (.item hmem)
  | field ho he =>
    rw [get?_setField] at ho
    split at ho
    · rename_i hsame
      obtain ⟨o, hold, rfl⟩ := Option.map_eq_some_iff.mp ho
      rcases Dict.mem_of_mem_insert he with rfl | he
      · exact .inr ⟨rfl, by rw [hsame]⟩
      · exact .inl (.field hold he)
    · exact .inl (.field ho he)

theorem Part.setField (hp : h.Part p w) (hw : w ≠ .object r) : (h.setField r name v).Part p w := by
  cases hp with
  | item hmem => exact .item hmem
  | @field s o e ho he =>
    have hother : r ≠ s := fun hsame => hw (by rw [hsame])
    exact .field (by rw [get?_setField, if_neg hother, ho]) he

theorem part_setField {o : Object} (ho : h.get? r = some o) : (h.setField r name v).Part v (.object r) := by
  have hstored : (h.setField r name v).get? r = some { o with fields := o.fields.insert name v } := by
    rw [get?_setField, if_pos rfl, ho]
    rfl
  have hfield : (o.fields.insert name v).find? name = some v := by rw [Dict.find?_insert, if_pos rfl]
  obtain ⟨e, he, rfl⟩ := List.mem_map.mp (Dict.mem_of_find? hfield)
  exact .field hstored he

/-- What is above an object stays so when a field of the object changes. -/
theorem Below.setField (hw : h.Below r w) : (h.setField r name v).Below r w := by
  unfold Below at hw ⊢
  induction hw with
  | refl => exact .refl
  | @tail _ w _ hp ih =>
    by_cases hback : w = .object r
    · exact hback ▸ .refl
    · exact ih.tail (hp.setField hback)

/-- A path in the changed heap was there before, or leads to the stored value and goes on from the object. -/
theorem path_of_setField (hp : Relation.ReflTransGen (h.setField r name v).Part p w) :
    Relation.ReflTransGen h.Part p w ∨ Relation.ReflTransGen h.Part p v ∧ h.Below r w := by
  induction hp with
  | refl => exact .inl .refl
  | tail _ hpart ih =>
    rcases hpart.of_setField with hpart | ⟨rfl, rfl⟩
    · exact ih.imp (·.tail hpart) (.imp_right (·.tail hpart))
    · exact .inr ⟨ih.elim id (·.1), .refl⟩

/-- A store ties the object if the object is below the stored value. -/
theorem tied_setField {o : Object} (ho : h.get? r = some o) (hv : h.Below r v) : (h.setField r name v).Tied (.object r) :=
  ⟨r, .refl, .tail' hv.setField (part_setField ho)⟩

/-- So stores make loops only in this way. -/
theorem exists_loops_setField_iff {o : Object} (ho : h.get? r = some o) (hh : ∀ q, ¬h.Loops q) :
    (∃ q, (h.setField r name v).Loops q) ↔ h.Below r v := by
  constructor
  · rintro ⟨q, hq⟩
    obtain ⟨w, hpath, hpart⟩ := Relation.TransGen.tail'_iff.mp hq
    rcases path_of_setField hpath with hold | ⟨hstored, hbelow⟩ <;> rcases hpart.of_setField with hpart | ⟨rfl, heq⟩
    · exact absurd (.tail' hold hpart) (hh q)
    · cases heq
      exact hold
    · exact (hbelow.tail hpart).trans hstored
    · exact hbelow
  · intro hv
    obtain ⟨q, _, hq⟩ : (h.setField r name v).Tied (.object r) := tied_setField ho hv
    exact ⟨q, hq⟩

end
end Heap

/-! ## What is written -/

/-- To write something, the state of these values is asked for, and nothing else. -/
structure Consults {β : Type} (write : (Value → Option Datum) → Option β) (vs : List Value) : Prop where
  isSome_iff (state : Value → Option Datum) : (write state).isSome ↔ ∀ v ∈ vs, (state v).isSome
  congr {state state' : Value → Option Datum} : (∀ v ∈ vs, state v = state' v) → write state = write state'

namespace Consults
variable {β γ : Type} {write : (Value → Option Datum) → Option β} {vs ws : List Value}

theorem pure (b : β) : Consults (fun _ => some b) [] := ⟨fun _ => by simp, fun _ => rfl⟩

theorem one (v : Value) : Consults (fun state => state v) [v] := ⟨fun _ => by simp, List.forall_mem_singleton.mp⟩

theorem bind (hw : Consults write vs) {next : β → (Value → Option Datum) → Option γ} (hnext : ∀ b, Consults (next b) ws) :
    Consults (fun state => write state >>= fun b => next b state) (vs ++ ws) where
  isSome_iff state := by
    have hfirst := hw.isSome_iff state
    rw [List.forall_mem_append, ← hfirst]
    cases write state with
    | none => simp
    | some b => simpa using (hnext b).isSome_iff state
  congr {state state'} h := by
    obtain ⟨hvs, hws⟩ := List.forall_mem_append.mp h
    rw [hw.congr hvs]
    exact congrArg _ (funext fun b => (hnext b).congr hws)

theorem map (hw : Consults write vs) (f : β → γ) : Consults (fun state => write state >>= fun b => some (f b)) vs where
  isSome_iff state := by
    have hfirst := hw.isSome_iff state
    rw [← hfirst]
    cases write state <;> rfl
  congr h := by rw [hw.congr h]

theorem ofVariables (xs : List (Variable Value)) :
    Consults (fun state => xs.mapM (·.traverse state)) (xs.map (·.value)) := by
  induction xs with
  | nil => exact .pure []
  | cons x xs ih =>
    have hfirst : Consults (fun state => x.traverse state) [x.value] := (one x.value).map x.withValue
    simp only [List.mapM_cons]
    exact hfirst.bind fun y => ih.map (y :: ·)

end Consults

def Variable.bytes? (state : Value → Option Datum) (xs : List (Variable Value)) : Option Bytes :=
  return (Wire.«variables» Wire.datum).encode (← xs.mapM (·.traverse state))

def Request.bytes? (state : Value → Option Datum) (r : Request Value) : Option Bytes :=
  return (Wire.request Wire.datum).encode (← r.traverse state)

def Answer.bytes? (state : Value → Option Datum) (a : Answer Value) : Option Bytes :=
  return (Wire.answer Wire.datum).encode (← a.traverse state)

theorem Variable.bytes?_consults (xs : List (Variable Value)) : Consults (Variable.bytes? · xs) (xs.map (·.value)) :=
  (Consults.ofVariables xs).map _

theorem Request.bytes?_consults (r : Request Value) : Consults (r.bytes? ·) ((r.params ++ r.nonLocals).map (·.value)) := by
  rw [List.map_append]
  refine Consults.map ?_ _
  exact (Consults.ofVariables r.params).bind fun params => (Consults.ofVariables r.nonLocals).map _

theorem Answer.bytes?_consults (a : Answer Value) : Consults (a.bytes? ·) a.values := by
  refine Consults.map ?_ _
  cases a with
  | completed v xs => exact (Consults.one v).bind fun x => (Consults.ofVariables xs).map _
  | moduleUnknown => exact .pure _
  | fault f => exact .pure _

namespace Heap
variable {h : Heap} {vs : List Value} {write : (Value → Option Datum) → Option Bytes}

/-- Where none of the values is tied, all states that are deep enough are written as the same bytes. Where one of them is
tied, no states are, however deep. -/
structure Ships (h : Heap) (vs : List Value) (write : (Value → Option Datum) → Option Bytes) : Prop where
  ends : (∀ v ∈ vs, ¬h.Tied v) → ∃ bytes, write h.snapshot = some bytes ∧
    ∃ n, ∀ m, n ≤ m → write (h.snapshotUpTo m) = some bytes
  never : (∃ v ∈ vs, h.Tied v) → write h.snapshot = none ∧ ∀ n, write (h.snapshotUpTo n) = none

theorem Closed.ships (hh : h.Closed) (hvs : ∀ v ∈ vs, h.Holds v) (hw : Consults write vs) : h.Ships vs write where
  ends hfree := by
    have hstate (v : Value) (hv : v ∈ vs) : ∃ x, h.snapshot v = some x :=
      exists_snapshot_iff.mpr ((hh.acyclic_iff (hvs v hv)).mpr (hfree v hv))
    obtain ⟨bytes, hbytes⟩ := Option.isSome_iff_exists.mp
      ((hw.isSome_iff h.snapshot).mpr fun v hv => Option.isSome_iff_exists.mpr (hstate v hv))
    refine ⟨bytes, hbytes, (vs.map (h.reach · + 1)).sum, fun m hm => ?_⟩
    rw [← hbytes]
    refine hw.congr fun v hv => ?_
    obtain ⟨x, hx⟩ := hstate v hv
    have hdeep : h.reach v + 1 ≤ m :=
      (List.single_le_sum (fun _ _ => Nat.zero_le _) _ (List.mem_map_of_mem hv)).trans hm
    rw [hx]
    exact snapshotUpTo_mono hdeep hx
  never := by
    rintro ⟨v, hv, htied⟩
    have hnone {state : Value → Option Datum} (hstate : ∀ x, state v = some x → h.Acyclic v) : write state = none := by
      refine Option.not_isSome_iff_eq_none.mp fun hsome => ?_
      obtain ⟨x, hx⟩ := Option.isSome_iff_exists.mp ((hw.isSome_iff state).mp hsome v hv)
      exact (hh.acyclic_iff (hvs v hv)).mp (hstate x hx) htied
    exact ⟨hnone fun x hx => exists_snapshot_iff.mp ⟨x, hx⟩, fun n => hnone fun x hx => acyclic_of_snapshotUpTo hx⟩

end Heap

/-! ## Programs -/

/-- The instruction stores the value in the object. -/
theorem Machine.execute_storeField {ω : Type} (env : Environment ω) (run : Runner ω) {f : Frame} (below : List Frame)
    (field : FieldRef) (s : State ω) {v : Value} {r : Ref} {rest : List Value} (hstack : f.stack = v :: .object r :: rest) :
    execute env run f below (.storeField field) s = some (.ok (.next { f with stack := rest } below),
      s.withHeap (s.domain.heap.setField r field.name v)) := by
  obtain ⟨_, _, _, _, _, _, _, _⟩ := f
  cases hstack
  rfl

/-- Whatever was done with a domain: captured state, a request with captured state and arguments, and an answer are written
unless one of their values is tied, and then they never are. An instruction stores any value in any object, which makes the
first loop exactly where the object is below the value. -/
theorem Domain.Arises.ships_untied {d : Domain} (hd : d.Arises) :
    (∀ {ω : Type} {env : Environment ω} {budget : Nat} {type : String} {closure : Closure} {receiver : Option Ref}
      {s t : State ω} {vs : List (Variable Value)}, s.domain = d → env.Anchors → (∀ r ∈ receiver, r.index < s.room) →
      Transfer.capture env.host (Machine.runner env budget) type closure receiver s = some (.ok vs, t) →
      t.domain.heap.Ships (vs.map (·.value)) (Variable.bytes? · vs)) ∧
    (∀ {ν : Type} {c : Client ν} {env : Environment (Reach ν)} {budget : Nat} {call : ServiceCall} {target : MethodHandle}
      {s t : State (Reach ν)} {endpoint : String} {r : Request Value}, s.domain = d → env.Anchors →
      (∀ q ∈ call.receiver, q.index < s.room) → (∀ v ∈ call.args, v.Anchored s.room) →
      c.request env.host (Machine.runner env budget) call target s = some (.ok (endpoint, r), t) →
      t.domain.heap.Ships ((r.params ++ r.nonLocals).map (·.value)) (r.bytes? ·)) ∧
    (∀ {budget : Nat} {thread : Option String} {x : Request Datum} {s t : Server} {a : Answer Value}, s.domain = d →
      Server.execute budget thread x s = some (.ok a, t) → t.domain.heap.Ships a.values (a.bytes? ·)) ∧
    ∀ (r : Ref) (field : FieldRef) (v : Value), r.index < d.heap.objects.size → v.Anchored d.heap.objects.size →
      (∀ {ω : Type} {env : Environment ω} {run : Runner ω} {f : Frame} {below : List Frame} {s : State ω}
        {rest : List Value}, s.domain = d → f.stack = v :: .object r :: rest →
        Machine.execute env run f below (.storeField field) s =
          some (.ok (.next { f with stack := rest } below), s.withHeap (d.heap.setField r field.name v))) ∧
      ({ d with heap := d.heap.setField r field.name v } : Domain).Arises ∧
      (d.heap.Below r v → (d.heap.setField r field.name v).Tied (.object r)) ∧
      ((∀ q, ¬d.heap.Loops q) → ((∃ q, (d.heap.setField r field.name v).Loops q) ↔ d.heap.Below r v)) := by
  refine ⟨?captured, ?requested, ?answered, ?stored⟩
  case captured =>
    rintro ω env budget type closure receiver s t vs rfl henv hreceiver hcapture
    have hanchors := Transfer.capture_anchors hreceiver henv.host (Machine.runner_anchors henv budget) type closure
    obtain ⟨ht, _, hvs⟩ := hanchors s _ t hd.closed le_rfl hcapture
    exact ht.heap.ships (List.forall_mem_map.mpr (hvs vs rfl)) (Variable.bytes?_consults vs)
  case requested =>
    rintro ν c env budget call target s t endpoint r rfl henv hreceiver hargs hrequest
    have hanchors := Client.request_anchors (c := c) henv.host (Machine.runner_anchors henv budget) hreceiver hargs target
    obtain ⟨ht, _, hr⟩ := hanchors s _ t hd.closed le_rfl hrequest
    exact ht.heap.ships (List.forall_mem_map.mpr (hr _ rfl)) r.bytes?_consults
  case answered =>
    rintro budget thread x s t a rfl hexecute
    obtain ⟨ht, _, ha⟩ := Server.execute_anchors x budget thread s _ t hd.closed le_rfl hexecute
    exact ht.heap.ships (ha a rfl) a.bytes?_consults
  case stored =>
    intro r field v hr hv
    have ho : d.heap.get? r = some d.heap.objects[r.index] := Array.getElem?_eq_getElem hr
    refine ⟨?_, ?_, Heap.tied_setField ho, Heap.exists_loops_setField_iff ho⟩
    · rintro ω env run f below s rest rfl hstack
      exact Machine.execute_storeField env run below field s hstack
    · have hbare : Environment.bare.Anchors := .of_standard rfl fun _ => rfl
      have hlive : (Operation.setField r field.name v : Operation Unit).Live (⟨d, ()⟩ : State Unit).room := ⟨hr, hv⟩
      have hset : (Operation.setField r field.name v).perform .bare 0 ⟨d, ()⟩ =
        some (.ok (), (⟨d, ()⟩ : State Unit).withHeap (d.heap.setField r field.name v)) := rfl
      exact .operate hd hbare hset hlive

namespace knot

def next : FieldRef := ⟨⟨none, "Ops.Node"⟩, "next"⟩

/-- A node may be tied to itself, and be handed on. -/
def catalog : Module Datum where
  name := "Ops"
  types := [
    { space := "Ops", name := "Node"
      fields := [{ name := "next", type := TypeName.any }]
      methods := [
        { name := constructorName, flags := MethodFlags.constructor, body := [.ret] },
        { name := "Tie", body := [.loadThis, .loadThis, .storeField next, .ret] },
        { name := "Accept", flags := MethodFlags.static
          params := [{ name := "node", type := "Ops.Node" }], body := [.ret] }] }]

def environment : Environment (Reach Unit) := { host := { thread := none, natives := Native.standard none } }

def tie : MethodRef := ⟨⟨none, "Ops.Node"⟩, "Tie", []⟩

def accept : MethodRef := ⟨⟨none, "Ops.Node"⟩, "Accept", ["Ops.Node"]⟩

def handing (r : Ref) : ServiceCall := { method := accept, args := [.object r] }

def client : Client Unit where
  settings := { defaultEndpoint := some "server" }
  transport := {
    Channel := Unit, connect _ := pure (), endpoint _ := "", start := pure, close := pure, abort _ x := ((), x)
    exchange _ _ _ _ := pure .moduleUnknown }

def empty : State (Reach Unit) := ⟨{ hostName := "bench" }, { network := () }⟩

theorem environment_anchors : environment.Anchors := .of_standard rfl fun _ => rfl

end knot

open knot in
/-- A new node is sent. When its method has tied it to itself, the same call sends nothing, however deep its state is
followed. -/
theorem knot_stays : ∃ s t u w r m sent kept, s.domain.Arises ∧ t.domain.Arises ∧
    environment.host.resolveMethod accept s = some (.ok m, s) ∧
    client.request environment.host (Machine.runner environment 10) (handing r) m s = some (.ok ("server", sent), u) ∧
    (∃ bytes, sent.bytes? u.domain.heap.snapshot = some bytes) ∧
    environment.host.invoke (Machine.runner environment 10) tie (some r) [] s = some (.ok .null, t) ∧
    client.request environment.host (Machine.runner environment 10) (handing r) m t = some (.ok ("server", kept), w) ∧
    ∀ n, kept.bytes? (w.domain.heap.snapshotUpTo n) = none := by
  obtain ⟨l, s, t, u, w, r, m, sent, kept, hload, hmade, hr, hm, hsent, hbytes, htie, hr', hinvoke, hkept, hvalues, hheap⟩ :
      ∃ l s t u w r m sent kept, (Operation.load (.memory catalog)).perform environment 1 empty = some (.ok (), l) ∧
      (Operation.construct "Ops.Node").perform environment 10 l = some (.ok (), s) ∧ r.index < s.room ∧
      environment.host.resolveMethod accept s = some (.ok m, s) ∧
      client.request environment.host (Machine.runner environment 10) (handing r) m s = some (.ok ("server", sent), u) ∧
      (∃ bytes, sent.bytes? u.domain.heap.snapshot = some bytes) ∧
      (Operation.invoke tie (some r) []).perform environment 10 s = some (.ok (), t) ∧ r.index < t.room ∧
      environment.host.invoke (Machine.runner environment 10) tie (some r) [] s = some (.ok .null, t) ∧
      client.request environment.host (Machine.runner environment 10) (handing r) m t = some (.ok ("server", kept), w) ∧
      (kept.params ++ kept.nonLocals).map (·.value) = [.object r] ∧
      w.domain.heap = s.domain.heap.setField r "next" (.object r) :=
    ⟨_, _, _, _, _, ⟨0⟩, _, _, _, rfl, rfl, by decide, rfl, rfl, ⟨_, rfl⟩, rfl, by decide, rfl, rfl, rfl, rfl⟩
  have hempty : empty.domain.Arises := .start _ _ _
  have hs : s.domain.Arises := (hempty.operate environment_anchors hload trivial).operate environment_anchors hmade trivial
  have ht : t.domain.Arises := by
    refine hs.operate environment_anchors htie ⟨?_, nofun⟩
    rintro _ ⟨⟩
    exact hr
  -- the method has stored the node in itself
  obtain ⟨-, -, -, hstored⟩ := hs.ships_untied
  have htied : w.domain.heap.Tied (.object r) := by
    rw [hheap]
    exact (hstored r next (.object r) hr (Value.anchored_object.mpr hr)).2.2.1 .refl
  obtain ⟨-, hrequested, -, -⟩ := ht.ships_untied
  have hargs : ∀ v ∈ (handing r).args, v.Anchored t.room :=
    List.forall_mem_singleton.mpr (Value.anchored_object.mpr hr')
  have hreceiver : ∀ q ∈ (handing r).receiver, q.index < t.room := by rintro _ ⟨⟩
  have hships := hrequested rfl environment_anchors hreceiver hargs hkept
  refine ⟨s, t, u, w, r, m, sent, kept, hs, ht, hm, hsent, hbytes, hinvoke, hkept, ?_⟩
  refine (hships.never ⟨.object r, ?_, htied⟩).2
  rw [hvalues]
  exact List.mem_singleton_self _

end MobileCode
