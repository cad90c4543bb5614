import MobileCode.Execution.Host
import MobileCode.Proofs.Literals
import MobileCode.Proofs.Tracking

/-! # Domains side by side

Two domains hold the same modules, but one of these in two forms. What a host does in them comes to
the same: it finds the same types, methods and static fields, and loads the same further modules.
-/
namespace MobileCode

/-- What is compared: a module in two forms, in domains of one depth limit. -/
structure Comparison where
  /-- The name of the module. -/
  module : String
  /-- The type of the client that its mobile methods turn to. -/
  client : String
  /-- The mode in which a method is made mobile, by its module, the flags of its type and its own. -/
  mode? : LoadedModule → TypeFlags → MethodFlags → Option Mobility → Option Mode
  /-- Methods of other modules stay as they are. -/
  foreign : ∀ m t d mark, m.name ≠ module → mode? m t d mark = none
  /-- Its types in the second domain, where calls of siblings lead. -/
  deployed : String → Option TypeHandle
  limit : Nat
  /-- Links that there are from the start. -/
  base : Links
  /-- Failures are compared too, and there are no siblings. -/
  exact : Prop

/-- The mode of a method of the first domain. -/
def Comparison.modeOf? (c : Comparison) (m : MethodHandle) : Option Mode :=
  c.mode? m.module m.owner.flags m.decl.flags m.decl.mobility

variable (c : Comparison) (w : Links)

/-- What is loaded under a name, in one of the two forms if it is the module's. -/
structure LoadedModule.Alike (key : String) (m n : LoadedModule) : Prop where
  name : n.name = m.name
  hash : key ≠ c.module → n.hash = m.hash

structure TypeHandle.Alike (t u : TypeHandle) : Prop where
  module : u.module.name = t.module.name
  form : TypeDecl.Form c.exact (Value.Linked w) c.client (c.mode? t.module t.decl.flags) t.decl u.decl
  kept : ¬c.exact → t.module.name = c.module → c.deployed u.decl.fullName = some u

structure MethodHandle.Alike (m n : MethodHandle) : Prop where
  module : n.module.name = m.module.name
  owner : n.owner.fullName = m.owner.fullName
  form : MethodDecl.Form c.exact (Value.Linked w) c.client n.owner (c.modeOf? m) m.decl n.decl
  kept : ¬c.exact → m.module.name = c.module → c.deployed n.owner.fullName = some ⟨n.module, n.owner⟩

structure Overload.Alike (o p : Overload) : Prop where
  key : p.key = o.key
  params : List.Forall₂ (ParamDecl.Alike (Value.Linked w)) o.params p.params

/-- Siblings may have entries of their own in the second table. -/
def DispatchTable.Alike (t u : DispatchTable) : Prop :=
  ∀ type method, c.exact ∨ t.overloads type method ≠ [] →
    List.Forall₂ (Overload.Alike w) (t.overloads type method) (u.overloads type method)

structure Domain.Similar (d e : Domain) : Prop where
  host : e.hostName = d.hostName
  digest : e.digest = d.digest
  limit : d.maxDepth = c.limit
  sameLimit : e.maxDepth = c.limit
  base : c.base ≤ w
  heap : Heap.Linked w d.heap e.heap
  modules : ∀ name, Option.Rel (LoadedModule.Alike c name) (d.module? name) (e.module? name)
  types : Dict.Related (TypeHandle.Alike c w) d.types e.types
  tables : Dict.Related (DispatchTable.Alike c w) d.tables e.tables
  statics : Dict.Related (Dict.Related (Value.Linked w)) d.statics e.statics

/-- Similar domains that hold the module, each in its form. -/
structure Domain.Alike (d e : Domain) : Prop extends Domain.Similar c w d e where
  loaded : d.module? c.module ≠ none
  kept : ∀ {name t}, c.deployed name = some t → e.type? name = some t

structure State.Alike {ω : Type} (s t : State ω) : Prop where
  domain : Domain.Alike c w s.domain t.domain
  outside : t.outside = s.outside

/-- Do two computations in the two domains come to the same? -/
abbrev Comparison.Tracks {ω α β : Type} (wanted : α → Prop) (R : Links → α → β → Prop) (w : Links)
    (x : Run (State ω) α) (y : Run (State ω) β) : Prop :=
  Run.Tracks c.exact (fun w s t => State.Alike c w s t) wanted R w x y

abbrev Comparison.TracksFrom {ω α β : Type} (wanted : α → Prop) (R : Links → α → β → Prop) (w : Links)
    (s t : State ω) (x : Run (State ω) α) (y : Run (State ω) β) : Prop :=
  Run.TracksFrom c.exact (fun w s t => State.Alike c w s t) wanted R w s t x y

/-- A native method that cannot tell one domain from the other. -/
def Native.Blind {ω : Type} (n : Native ω) : Prop :=
  ∀ w {args args'}, List.Forall₂ (Value.Linked w) args args' →
    c.Tracks Run.Every Value.Linked w (n.call args) (n.call args')

/-- A resolver that hands out the module under no other name. -/
def Comparison.Faithful {ω : Type} (resolve : String → Run ω (Option Bytes)) : Prop :=
  ∀ name o bytes o' m, resolve name o = some (.ok (some bytes), o') → Module.ofFile bytes = .ok m →
    m.name = c.module → name = c.module

/-- A host whose natives are blind and whose resolver, if there is one, is faithful. -/
structure Host.Impartial {ω : Type} (host : Host ω) : Prop where
  natives : ∀ n ∈ host.natives, Native.Blind c n.2
  resolver : ∀ resolve, host.resolver = some resolve → c.Faithful resolve

variable {c w}
variable {w' : Links}

/-! ## More links -/

theorem TypeHandle.Alike.mono (hw : w ≤ w') {t u : TypeHandle} (h : TypeHandle.Alike c w t u) :
    TypeHandle.Alike c w' t u :=
  ⟨h.module, h.form.mono fun _ _ hv => hv.mono hw, h.kept⟩

theorem Overload.Alike.mono (hw : w ≤ w') {o p : Overload} (h : Overload.Alike w o p) :
    Overload.Alike w' o p :=
  ⟨h.key, h.params.imp fun _ _ hp => hp.mono fun _ _ hv => hv.mono hw⟩

theorem DispatchTable.Alike.mono (hw : w ≤ w') {t u : DispatchTable} (h : DispatchTable.Alike c w t u) :
    DispatchTable.Alike c w' t u :=
  fun type method hm => (h type method hm).imp fun _ _ ho => ho.mono hw

/-- New objects are added to both heaps. -/
theorem Domain.Similar.withHeap (hw : w ≤ w') {d e : Domain} (h : Domain.Similar c w d e) {g k : Heap}
    (hg : Heap.Linked w' g k) : Domain.Similar c w' { d with heap := g } { e with heap := k } where
  host := h.host
  digest := h.digest
  limit := h.limit
  sameLimit := h.sameLimit
  base := h.base.trans hw
  heap := hg
  modules := h.modules
  types := h.types.mono fun _ _ ht => ht.mono hw
  tables := h.tables.mono fun _ _ ht => ht.mono hw
  statics := h.statics.mono fun _ _ hs => hs.mono fun _ _ hv => hv.mono hw

theorem Domain.Alike.withHeap (hw : w ≤ w') {d e : Domain} (h : Domain.Alike c w d e) {g k : Heap}
    (hg : Heap.Linked w' g k) : Domain.Alike c w' { d with heap := g } { e with heap := k } :=
  ⟨h.toSimilar.withHeap hw hg, h.loaded, h.kept⟩

/-! ## The state -/

section States
variable {ω : Type}

theorem State.setField_tracks {wanted : Unit → Prop} {r r' : Ref} (hr : w r r') (name : String) {x y : Value}
    (hx : Value.Linked w x y) : c.Tracks wanted (fun _ _ _ => True) w
      (State.setField r name x : Run (State ω) Unit) (State.setField r' name y) :=
  Run.Tracks.modify
    (fun _ _ hs => ⟨hs.domain.withHeap le_rfl (hs.domain.heap.setField hr name hx), hs.outside⟩) trivial

theorem State.alloc_tracks {wanted : Ref → Prop} {o p : Object} (ho : Object.Linked w o p) :
    c.Tracks wanted (fun w r s => w r s) w (State.alloc o : Run (State ω) Ref) (State.alloc p) := by
  intro s t hs
  obtain ⟨w', hle, hr, hw'⟩ := hs.domain.heap.alloc ho
  exact .ok ⟨w', hle, ⟨hs.domain.withHeap hle hw', hs.outside⟩, hr⟩

/-- Setting static fields keeps all else. -/
theorem Domain.Alike.withStatics {d e : Domain} (h : Domain.Alike c w d e) {x y : Dict (Dict Value)}
    (hx : Dict.Related (Dict.Related (Value.Linked w)) x y) :
    Domain.Alike c w { d with statics := x } { e with statics := y } :=
  { h with statics := hx }

end States

/-! ## Loading a module -/

theorem Dict.find?_cons {β : Type} (a : String × β) (d : Dict β) (name : String) :
    Dict.find? (a :: d) name = if name = a.1 then some a.2 else d.find? name := by
  obtain ⟨n, x⟩ := a
  simp only [Dict.find?, List.lookup_cons]
  by_cases h : name = n
  · rw [if_pos h, beq_iff_eq.mpr h]
  · rw [if_neg h, beq_eq_false_iff_ne.mpr h]

theorem Dict.find?_insert {β : Type} (d : Dict β) (name : String) (x : β) (other : String) :
    (d.insert name x).find? other = if other = name then some x else d.find? other := by
  induction d with
  | nil => rw [Dict.insert, Dict.find?_cons]
  | cons a rest ih =>
    simp only [Dict.insert]
    split
    · rw [Dict.find?_cons]
    split
    · rename_i h
      rw [Dict.find?_cons, Dict.find?_cons, ← h]
      split <;> rfl
    · rename_i h
      rw [Dict.find?_cons, Dict.find?_cons, ih]
      by_cases he : other = a.1
      · rw [if_pos he, if_pos he, if_neg (he.trans_ne (Ne.symm h))]
      · rw [if_neg he, if_neg he]

theorem Dict.ofList_concat {β : Type} (entries : List (String × β)) (name : String) (value : β) :
    ofList (entries ++ [(name, value)]) = insert name value (ofList entries) := by
  simp [ofList]

/-- A name has the last of its values. -/
theorem Dict.find?_ofList {β : Type} (entries : List (String × β)) (name : String) :
    (ofList entries).find? name = entries.reverse.lookup name := by
  obtain ⟨rest, rfl⟩ : ∃ rest : List _, entries = rest.reverse := ⟨_, entries.reverse_reverse.symm⟩
  rw [List.reverse_reverse]
  induction rest with
  | nil => rfl
  | cons e rest ih =>
    rw [List.reverse_cons, ofList_concat, find?_insert, ih]
    exact (find?_cons e rest name).symm

theorem Dict.find?_ofList_map {β γ : Type} (key : β → String) (value : β → γ) (xs : List β) (name : String) :
    (ofList (xs.map fun x => (key x, value x))).find? name = (xs.reverse.find? fun x => key x = name).map value := by
  rw [find?_ofList, ← List.map_reverse]
  induction xs.reverse with
  | nil => rfl
  | cons x xs ih =>
    rw [List.map_cons, List.find?_cons, List.lookup_cons]
    by_cases h : key x = name
    · rw [decide_eq_true h, h, BEq.rfl]
      rfl
    · rw [decide_eq_false h, beq_eq_false_iff_ne.mpr (Ne.symm h)]
      exact ih

/-! ### Overload tables -/

namespace DispatchTable

theorem lookup_add (entries : List ((String × String) × List Overload)) (o : Overload)
    (k : String × String) : ((add entries o).lookup k).getD [] =
      (entries.lookup k).getD [] ++ if (o.key.type, o.key.name) = k then [o] else [] := by
  induction entries with
  | nil =>
    by_cases h : (o.key.type, o.key.name) = k
    · simp [add, h]
    · simp [add, List.lookup_cons, h, beq_eq_false_iff_ne.mpr (Ne.symm h)]
  | cons a rest ih =>
    obtain ⟨n, os⟩ := a
    by_cases hn : n = (o.key.type, o.key.name)
    · subst hn
      by_cases h : (o.key.type, o.key.name) = k
      · simp [add, h]
      · simp [add, List.lookup_cons, h, beq_eq_false_iff_ne.mpr (Ne.symm h)]
    · simp only [add, if_neg hn, List.lookup_cons]
      by_cases hk : k = n
      · subst hk
        simp [Ne.symm hn]
      · simp only [beq_eq_false_iff_ne.mpr hk, ih]

theorem lookup_foldl_add (os : List Overload) (entries : List ((String × String) × List Overload))
    (k : String × String) : ((os.foldl add entries).lookup k).getD [] =
      (entries.lookup k).getD [] ++ os.filter fun o => (o.key.type, o.key.name) = k := by
  induction os generalizing entries with
  | nil => simp
  | cons o os ih =>
    rw [List.foldl_cons, ih, lookup_add, List.append_assoc, List.filter_cons]
    by_cases h : (o.key.type, o.key.name) = k <;> simp [h]

/-- The overloads of a method are its declarations, in their order. -/
theorem overloads_ofModule (m : Module Value) (type method : String) :
    (ofModule m).overloads type method =
      (m.types.flatMap fun t => t.methods.map (Overload.ofMethod t.fullName)).filter
        fun o => (o.key.type, o.key.name) = (type, method) := by
  rw [DispatchTable.overloads, ofModule, lookup_foldl_add]
  rfl

theorem overload_alike {exact : Prop} {client : String} {t : TypeDecl Value} {mode? : Option Mode}
    {d e : MethodDecl Value} (type : String)
    (h : MethodDecl.Form exact (Value.Linked w) client t mode? d e) :
    Overload.Alike w (Overload.ofMethod type d) (Overload.ofMethod type e) :=
  ⟨h.alike.key type, h.alike.params⟩

theorem filter_alike {os ps : List Overload} (h : List.Forall₂ (Overload.Alike w) os ps)
    (p : MethodKey → Bool) :
    List.Forall₂ (Overload.Alike w) (os.filter fun o => p o.key) (ps.filter fun o => p o.key) := by
  induction h with
  | nil => exact .nil
  | cons hop _ ih =>
    simp only [List.filter_cons, hop.key]
    split
    · exact .cons hop ih
    · exact ih

/-- Without siblings the tables of the two forms of a module agree entry by entry. -/
theorem alike_ofModule {client : String} {m n : Module Value}
    (h : List.Forall₂ (fun t u => ∃ mode?, TypeDecl.Form True (Value.Linked w) client mode? t u) m.types n.types) :
    DispatchTable.Alike c w (ofModule m) (ofModule n) := by
  intro type method _
  rw [overloads_ofModule, overloads_ofModule]
  refine filter_alike ?_ fun k => (k.type, k.name) = (type, method)
  refine List.rel_flatMap h fun t u htu => ?_
  obtain ⟨_, htu⟩ := htu
  obtain ⟨main, siblings, heq, hmain, _, hexact⟩ := htu.methods
  rw [heq, hexact trivial, List.append_nil, htu.fullName]
  exact List.rel_map (fun d e hde => overload_alike t.fullName hde) hmain

end DispatchTable

/-! ### Registering -/

/-- The index of types with those of a module. -/
def Domain.indexed (types : Dict TypeHandle) (m : LoadedModule) : Dict TypeHandle :=
  m.code.types.foldl (fun x t => x.insert t.fullName ⟨m, t⟩) types

/-- The static fields with those of a module, as they start. -/
def Domain.started (statics : Dict (Dict Value)) (m : LoadedModule) : Dict (Dict Value) :=
  m.code.types.foldl (fun x t => x.insert t.fullName (staticsOf t)) statics

theorem Domain.enter_eq (d : Domain) (m : LoadedModule) :
    d.enter m = { d with types := indexed d.types m, statics := started d.statics m,
                         tables := d.tables.insert m.name (DispatchTable.ofModule m.code),
                         modules := d.modules.insert m.name m } := by
  have hfold (ts : List (TypeDecl Value)) (d : Domain) : ts.foldl (enterType m) d =
      { d with types := ts.foldl (fun x t => x.insert t.fullName ⟨m, t⟩) d.types,
               statics := ts.foldl (fun x t => x.insert t.fullName (staticsOf t)) d.statics } := by
    induction ts generalizing d with
    | nil => rfl
    | cons t ts ih => rw [List.foldl_cons, ih]; rfl
  simp only [Domain.enter, hfold, Domain.indexed, Domain.started]

theorem Dict.find?_foldl_insert {β γ : Type} (key : β → String) (value : β → γ) (xs : List β) (d : Dict γ)
    {name : String} (h : ∀ x ∈ xs, key x ≠ name) :
    (xs.foldl (fun d x => d.insert (key x) (value x)) d).find? name = d.find? name := by
  induction xs generalizing d with
  | nil => rfl
  | cons x xs ih =>
    rw [List.foldl_cons, ih _ fun y hy => h y (List.mem_cons_of_mem x hy), Dict.find?_insert,
      if_neg (Ne.symm (h x List.mem_cons_self))]

theorem Dict.Related.foldl_insert {β β' γ γ' : Type} {P : β → β' → Prop} {R : γ → γ' → Prop}
    {p : β → String} {q : β' → String} {f : β → γ} {g : β' → γ'}
    (hP : ∀ x y, P x y → q y = p x ∧ R (f x) (g y))
    {xs : List β} {ys : List β'} (hxs : List.Forall₂ P xs ys) {d : Dict γ} {e : Dict γ'} (hd : Dict.Related R d e) :
    Dict.Related R (xs.foldl (fun d x => d.insert (p x) (f x)) d)
      (ys.foldl (fun e y => e.insert (q y) (g y)) e) := by
  induction hxs generalizing d e with
  | nil => exact hd
  | cons hxy _ ih =>
    obtain ⟨hkey, hval⟩ := hP _ _ hxy
    rw [List.foldl_cons, List.foldl_cons, hkey]
    exact ih (hd.insert _ hval)

theorem TypeDecl.Form.staticsOf {exact : Prop} {client : String}
    {mode? : MethodFlags → Option Mobility → Option Mode} {t u : TypeDecl Value}
    (h : TypeDecl.Form exact (Value.Linked w) client mode? t u) :
    Dict.Related (Value.Linked w) (Domain.staticsOf t) (Domain.staticsOf u) :=
  h.initialValues Value.Linked.defaultFor id

/-- Two forms of a module enter domains whose indices are alike. -/
theorem indexed_alike {m n : LoadedModule}
    (hforms : List.Forall₂ (fun t u => TypeHandle.Alike c w ⟨m, t⟩ ⟨n, u⟩) m.code.types n.code.types)
    {types types' : Dict TypeHandle} (h : Dict.Related (TypeHandle.Alike c w) types types') :
    Dict.Related (TypeHandle.Alike c w) (Domain.indexed types m) (Domain.indexed types' n) := by
  unfold Domain.indexed
  exact Dict.Related.foldl_insert (R := TypeHandle.Alike c w) (fun _ _ htu => ⟨htu.form.fullName, htu⟩)
    hforms h

theorem started_alike {m n : LoadedModule}
    (hforms : List.Forall₂ (fun t u => TypeHandle.Alike c w ⟨m, t⟩ ⟨n, u⟩) m.code.types n.code.types)
    {statics statics' : Dict (Dict Value)} (h : Dict.Related (Dict.Related (Value.Linked w)) statics statics') :
    Dict.Related (Dict.Related (Value.Linked w)) (Domain.started statics m) (Domain.started statics' n) :=
  Dict.Related.foldl_insert (fun _ _ htu => ⟨htu.form.fullName, htu.form.staticsOf⟩) hforms h

theorem clash?_alike {d e : Domain} (h : Domain.Similar c w d e) {m n : Module Value}
    (hnames : n.types.map (·.fullName) = m.types.map (·.fullName)) : e.clash? n = d.clash? m := by
  have hclash (d : Domain) (m : Module Value) : d.clash? m =
      (m.types.map (·.fullName)).findSome? fun name => (d.type? name).map fun x => (name, x.module.name) := by
    rw [Domain.clash?, List.findSome?_map]
    rfl
  rw [hclash, hclash, hnames]
  refine congrArg (fun f => List.findSome? f _) (funext fun name => ?_)
  have hf := h.types.find? name
  simp only [Domain.type?]
  generalize d.types.find? name = x at hf
  generalize e.types.find? name = y at hf
  cases hf with
  | none => rfl
  | some htu => rw [Option.map_some, Option.map_some, htu.module]

theorem Domain.Alike.type? {d e : Domain} (h : Domain.Alike c w d e) (name : String) :
    Option.Rel (TypeHandle.Alike c w) (d.type? name) (e.type? name) := h.types.find? name

theorem fullNames_eq {exact : Prop} {client : String} {ts us : List (TypeDecl Value)}
    (h : List.Forall₂ (fun t u => ∃ mode?, TypeDecl.Form exact (Value.Linked w) client mode? t u) ts us) :
    us.map (·.fullName) = ts.map (·.fullName) := by
  induction h with
  | nil => rfl
  | cons htu _ ih =>
    obtain ⟨_, htu⟩ := htu
    rw [List.map_cons, List.map_cons, htu.fullName, ih]

/-- No type that is found already is defined by a module without a clash. -/
theorem type?_indexed {d : Domain} {m : LoadedModule} (hclash : d.clash? m.code = none) {name : String}
    {t : TypeHandle} (ht : d.type? name = some t) : (Domain.indexed d.types m).find? name = some t := by
  rw [Domain.indexed, Dict.find?_foldl_insert fun t : TypeDecl Value => t.fullName]
  · exact ht
  · intro u hu he
    have hnone := List.findSome?_eq_none_iff.mp hclash u hu
    rw [he, ht] at hnone
    cases hnone

theorem Domain.module?_enter (d : Domain) (m : LoadedModule) (name : String) :
    (d.enter m).module? name = if name = m.name then some m else d.module? name := by
  rw [Domain.enter_eq]
  exact Dict.find?_insert _ _ _ _

/-- Two forms of a module enter domains that are similar. -/
theorem Domain.Similar.enter {d e : Domain} (h : Domain.Similar c w d e) {m n : LoadedModule}
    (hname : n.name = m.name) (hhash : m.name ≠ c.module → n.hash = m.hash)
    (hforms : List.Forall₂ (fun t u => TypeHandle.Alike c w ⟨m, t⟩ ⟨n, u⟩) m.code.types n.code.types)
    (htable : DispatchTable.Alike c w (DispatchTable.ofModule m.code) (DispatchTable.ofModule n.code)) :
    Domain.Similar c w (d.enter m) (e.enter n) := by
  rw [Domain.enter_eq, Domain.enter_eq]
  exact {
    host := h.host
    digest := h.digest
    limit := h.limit
    sameLimit := h.sameLimit
    base := h.base
    heap := h.heap
    modules := fun name => by
      simp only [Domain.module?, Dict.find?_insert, hname]
      split
      · rename_i he
        exact .some ⟨hname, fun hne => hhash (he ▸ hne)⟩
      · exact h.modules name
    types := indexed_alike hforms h.types
    tables := by rw [hname]; exact h.tables.insert _ htable
    statics := started_alike hforms h.statics }

/-- A module without siblings that is new to both domains is registered alike, in either form. -/
theorem Domain.Similar.register {d e : Domain} (h : Domain.Similar c w d e) {m n : Module Datum}
    (hname : n.name = m.name) (hnew : d.module? m.name = none)
    (hforms : List.Forall₂ (TypeDecl.Form True Eq c.client fun _ _ => none) m.types n.types)
    (hmode : ∀ l flags, l.name = m.name → c.mode? l flags = fun _ _ => none)
    (hkept : ¬c.exact → m.name ≠ c.module) {bytes bytes' : Bytes}
    (hbytes : m.name ≠ c.module → bytes' = bytes) (path path' : Option String) :
    (∃ err, d.register m bytes path = .error err ∧ e.register n bytes' path' = .error err) ∨
      ∃ l l' d' e' w', w ≤ w' ∧ d.register m bytes path = .ok (l, d') ∧
        e.register n bytes' path' = .ok (l', e') ∧ Domain.Similar c w' d' e' ∧
        (∀ name, d'.module? name = if name = m.name then some l else d.module? name) ∧
        ∀ {name t}, e.type? name = some t → e'.type? name = some t := by
  have hmod := h.modules m.name
  rw [hnew] at hmod
  simp only [Domain.register, hname, hnew]
  generalize e.module? m.name = y at hmod
  cases hmod
  obtain ⟨w', hle, hheap, hcode, hcode', _, hforms⟩ := Module.instantiate_loads .atOnce (fun _ _ _ => none) hforms
    _ _ h.heap
  generalize (Domain.instantiate m).run d.heap = a at hheap hcode hforms
  generalize (Domain.instantiate n).run e.heap = b at hheap hcode' hforms
  obtain ⟨code, heap⟩ := a
  obtain ⟨code', heap'⟩ := b
  simp only at hheap hcode hcode' hforms ⊢
  have hform : List.Forall₂ (fun t u => ∃ mode?, TypeDecl.Form True (Value.Linked w') c.client mode? t u)
      code.types code'.types := hforms.imp fun _ _ htu => ⟨_, htu True⟩
  rw [clash?_alike h (fullNames_eq hform)]
  cases hclash : d.clash? code with
  | some found => exact .inl ⟨_, rfl, rfl⟩
  | none =>
    have hsame : code'.name = code.name := (hcode'.trans hname).trans hcode.symm
    have hclash' : ({ e with heap := heap' } : Domain).clash? code' = none := by
      rw [clash?_alike (h.withHeap hle hheap) (fullNames_eq hform)]
      exact hclash
    refine .inr ⟨_, _, _, _, w', hle, rfl, rfl, ?_, fun name => ?_, fun {name t} ht => ?_⟩
    · refine (h.withHeap hle hheap).enter (m := ⟨code, _, _, _⟩) (n := ⟨code', _, _, _⟩) hsame
        (fun hne => ?_) ?_ (DispatchTable.alike_ofModule hform)
      · show e.digest.digest bytes' = d.digest.digest bytes
        rw [h.digest, hbytes (hcode ▸ hne)]
      · refine hforms.imp fun t u htu => ⟨hsame, ?_, fun hx he => absurd (hcode.symm.trans he) (hkept hx)⟩
        rw [hmode ⟨code, bytes, d.digest.digest bytes, path⟩ t.flags hcode]
        exact htu c.exact
    · rw [Domain.module?_enter]
      exact if_congr (by rw [LoadedModule.name, hcode]) rfl rfl
    · rw [Domain.enter_eq]
      exact type?_indexed hclash' ht

/-- Another module is registered alike in both domains. -/
theorem Domain.Alike.register {d e : Domain} (h : Domain.Alike c w d e) {m : Module Datum}
    (hm : m.name ≠ c.module) (bytes : Bytes) (path : Option String) :
    (∃ err, d.register m bytes path = .error err ∧ e.register m bytes path = .error err) ∨
      ∃ l l' d' e' w', w ≤ w' ∧ d.register m bytes path = .ok (l, d') ∧
        e.register m bytes path = .ok (l', e') ∧ Domain.Alike c w' d' e' := by
  cases hd : d.module? m.name with
  | some l =>
    have hmod := h.modules m.name
    have hhash : e.digest.digest bytes = d.digest.digest bytes := by rw [h.digest]
    simp only [Domain.register, hhash, hd]
    rw [hd] at hmod
    generalize e.module? m.name = y at hmod
    cases hmod with
    | @some _ l' hl =>
    simp only [hl.hash hm]
    by_cases he : l.hash = d.digest.digest bytes
    · simp only [if_pos he]
      exact .inr ⟨l, l', d, e, w, le_rfl, rfl, rfl, h⟩
    · simp only [if_neg he]
      exact .inl ⟨_, rfl, rfl⟩
  | none =>
    obtain herr | ⟨l, l', d', e', w', hle, hdr, her, hsim, hmodule, htype⟩ := h.toSimilar.register rfl hd
      (List.forall₂_same.mpr fun _ _ => TypeDecl.Form.refl fun _ _ => rfl)
      (fun l flags hl => funext fun f => funext fun a => c.foreign l flags f a (hl.trans_ne hm))
      (fun _ => hm) (fun _ => rfl) path path
    · exact .inl herr
    · refine .inr ⟨l, l', d', e', w', hle, hdr, her, hsim, ?_, fun hk => htype (h.kept hk)⟩
      rw [hmodule, if_neg (Ne.symm hm)]
      exact h.loaded

/-! ## Lookups -/

theorem Finds.bind {α β γ δ : Type} {exact : Prop} {R : α → β → Prop} {Q : γ → δ → Prop} {x : Option α}
    {y : Option β} {f : α → Option γ} {g : β → Option δ} (h : Finds exact R x y)
    (hf : ∀ a b, R a b → Finds exact Q (f a) (g b)) : Finds exact Q (x >>= f) (y >>= g) := by
  cases h with
  | some hab => exact hf _ _ hab
  | none => exact .none
  | loose hx => exact .loose hx

theorem Finds.of_rel {α β : Type} {exact : Prop} {R : α → β → Prop} {x : Option α} {y : Option β}
    (h : Option.Rel R x y) : Finds exact R x y := by
  cases h with
  | some hab => exact .some hab
  | none => exact .none

theorem TypeHandle.Alike.method? {t u : TypeHandle} (h : TypeHandle.Alike c w t u) (name : String)
    (types : List String) : Finds c.exact (MethodHandle.Alike c w) (t.method? name types) (u.method? name types) := by
  have hm := h.form.method? name types
  simp only [TypeHandle.method?]
  generalize t.decl.method? name types = x at hm
  generalize u.decl.method? name types = y at hm
  cases hm with
  | some hde => exact .some ⟨h.module, h.form.fullName, hde, h.kept⟩
  | none => exact .none
  | loose hx => exact .loose hx

theorem Overload.Alike.accepts {o p : Overload} (ho : Overload.Alike w o p) {h k : Heap}
    (hh : Heap.Linked w h k) {args args' : List Value} (hargs : List.Forall₂ (Value.Linked w) args args') :
    p.accepts k args' = o.accepts h args := by
  have hrequired : p.required = o.required := by
    have hp := ho.params
    simp only [Overload.required]
    generalize o.params = ps at hp
    generalize p.params = qs at hp
    induction hp with
    | nil => rfl
    | @cons a b _ _ hab _ ih =>
      have hd := hab.default
      have heq : b.default.isNone = a.default.isNone := by
        generalize a.default = x at hd
        generalize b.default = y at hd
        cases hd <;> rfl
      simp only [List.takeWhile_cons, heq]
      split
      · rw [List.length_cons, List.length_cons, ih]
      · rfl
  have hall : ((args'.zip p.params).all fun q => k.matchesType q.1 q.2.type) =
      (args.zip o.params).all fun q => h.matchesType q.1 q.2.type := by
    have hp := ho.params
    generalize o.params = ps at hp
    generalize p.params = qs at hp
    clear hrequired
    induction hargs generalizing ps qs with
    | nil => rfl
    | cons hv _ ih =>
      cases hp with
      | nil => rfl
      | cons hab hp =>
        simp only [List.zip_cons_cons, List.all_cons, ih _ _ hp, hab.type, hh.matchesType hv]
  simp only [Overload.accepts, hrequired, hargs.length_eq, ho.params.length_eq]
  exact congrArg (_ && ·) hall

theorem DispatchTable.Alike.resolve? {t u : DispatchTable} (ht : DispatchTable.Alike c w t u) {h k : Heap}
    (hh : Heap.Linked w h k) {args args' : List Value} (hargs : List.Forall₂ (Value.Linked w) args args')
    (type method : String) :
    Finds c.exact (Overload.Alike w) (t.resolve? h type method args) (u.resolve? k type method args') := by
  simp only [DispatchTable.resolve?]
  by_cases hx : c.exact ∨ t.overloads type method ≠ []
  · have ho := ht type method hx
    generalize t.overloads type method = os at ho
    generalize u.overloads type method = ps at ho
    clear hx
    induction ho with
    | nil => exact .none
    | cons hop _ ih =>
      simp only [List.find?_cons, hop.accepts hh hargs]
      split
      · exact .some hop
      · exact ih
  · rw [not_or, not_ne_iff] at hx
    rw [hx.2]
    exact .loose hx.1

/-- The method that a call by argument values means. -/
def Domain.meant? (d : Domain) (owner : TypeHandle) (type method : String) (args : List Value) :
    Option MethodHandle := do
  let table ← d.table? owner.module.name
  let overload ← table.resolve? d.heap type method args
  owner.method? overload.key.name overload.key.paramTypes

theorem Domain.Alike.meant? {d e : Domain} (h : Domain.Alike c w d e) {t u : TypeHandle}
    (htu : TypeHandle.Alike c w t u) (type method : String) {args args' : List Value}
    (hargs : List.Forall₂ (Value.Linked w) args args') :
    Finds c.exact (MethodHandle.Alike c w) (d.meant? t type method args) (e.meant? u type method args') := by
  unfold Domain.meant?
  rw [htu.module]
  refine Finds.bind (Finds.of_rel (h.tables.find? t.module.name)) fun table table' ht => ?_
  refine Finds.bind (ht.resolve? h.heap hargs type method) fun o p hop => ?_
  rw [hop.key]
  exact htu.method? o.key.name o.key.paramTypes

/-! ## Hosts -/

theorem State.loadFile_tracks {ω : Type} {bytes : Bytes} (path : Option String)
    (h : ∀ m, Module.ofFile bytes = .ok m → m.name ≠ c.module) :
    c.Tracks Run.Every (fun _ _ _ => True) w (State.loadFile bytes path : Run (State ω) LoadedModule)
      (State.loadFile bytes path) := by
  intro s t hs
  unfold Run.TracksFrom State.loadFile
  rw [Run.get_bind, Run.get_bind]
  simp only [Domain.loadFile]
  cases hm : Module.ofFile bytes with
  | error e => exact .error ⟨.same e, w, le_rfl, hs⟩
  | ok m =>
    rcases hs.domain.register (h m hm) bytes path with ⟨e, he, he'⟩ | ⟨l, l', d, d', w', hle, hd, hd', hdd⟩
    · simp only [bind, Except.bind, he, he']
      exact .error ⟨.same e, w, le_rfl, hs⟩
    · simp only [bind, Except.bind, hd, hd']
      exact .ok ⟨w', hle, ⟨hdd, hs.outside⟩, trivial⟩

namespace Host
variable {ω : Type} {host : Host ω}

theorem resolveModule_tracks (hhost : host.Impartial c) {name : String} {s t : State ω}
    (hs : State.Alike c w s t) (hnew : s.domain.module? name = none) :
    c.TracksFrom Run.Every (fun _ a b => a = b) w s t (host.resolveModule name) (host.resolveModule name) := by
  have hne : name ≠ c.module := fun he => hs.domain.loaded (he ▸ hnew)
  unfold Host.resolveModule
  cases hr : host.resolver with
  | none => exact Run.Tracks.pure rfl s t hs
  | some resolve =>
    have hfaith := hhost.resolver resolve hr
    refine Run.TracksFrom.bind (R := fun _ a b => a = b ∧ ∀ bytes, a = some bytes → ∀ m,
      Module.ofFile bytes = .ok m → m.name ≠ c.module) ?_ ?_
    · unfold Run.TracksFrom State.onOutside Run.zoom
      simp only [hs.outside]
      cases hx : resolve name s.outside with
      | none => exact .none
      | some r =>
        obtain ⟨r | found, o⟩ := r
        · exact .error ⟨.same r, w, le_rfl, hs.domain, rfl⟩
        · exact .ok ⟨w, le_rfl, ⟨hs.domain, rfl⟩, rfl, fun bytes hb m hm he =>
            hne (hfaith name s.outside bytes o m (hb ▸ hx) hm he)⟩
    · rintro w' hle s' t' hs' a _ ⟨rfl, hb⟩
      cases a with
      | none => exact Run.Tracks.pure rfl s' t' hs'
      | some bytes =>
        have hload : c.Tracks Run.Every (fun _ _ _ => True) w' (State.loadFile bytes none : Run (State ω) _)
            (State.loadFile bytes none) :=
          State.loadFile_tracks none (hb bytes rfl)
        exact hload.bind (fun _ _ _ _ _ => Run.Tracks.pure rfl) s' t' hs'

/-- Both domains have the type that a reference means, or neither has it. -/
theorem resolveType_tracks (hhost : host.Impartial c) (r : TypeRef) :
    c.Tracks Run.Every (TypeHandle.Alike c) w (host.resolveType r) (host.resolveType r) := by
  intro s t hs
  unfold Host.resolveType Run.TracksFrom
  rw [Run.get_bind, Run.get_bind]
  have ht := hs.domain.type? r.fullName
  generalize s.domain.type? r.fullName = x at ht
  generalize t.domain.type? r.fullName = y at ht
  cases ht with
  | some htu => exact Run.Tracks.pure htu s t hs
  | none =>
    cases r.scope with
    | none => exact Run.Tracks.throw (fun _ => .same _) s t hs
    | some scope =>
      simp only [Run.get_bind]
      have hm := hs.domain.modules scope
      generalize hx : s.domain.module? scope = x at hm
      generalize t.domain.module? scope = y at hm
      cases hm with
      | some _ => exact Run.Tracks.throw (fun _ => .same _) s t hs
      | none =>
        refine (resolveModule_tracks hhost hs hx).bind ?_
        rintro w' hle s' t' hs' found _ rfl
        cases found with
        | false => exact Run.Tracks.throw (fun _ => .same _) s' t' hs'
        | true =>
          unfold Run.TracksFrom
          simp only [if_true, Run.get_bind]
          have ht := hs'.domain.type? r.fullName
          generalize s'.domain.type? r.fullName = x at ht
          generalize t'.domain.type? r.fullName = y at ht
          cases ht with
          | some htu => exact Run.Tracks.pure htu s' t' hs'
          | none => exact Run.Tracks.throw (fun _ => .same _) s' t' hs'

theorem resolveMethod_tracks (hhost : host.Impartial c) (m : MethodRef) :
    c.Tracks Run.Every (MethodHandle.Alike c) w (host.resolveMethod m) (host.resolveMethod m) := by
  refine (resolveType_tracks hhost m.owner).bind fun w' _ t u htu => ?_
  rw [htu.module]
  have hm := htu.method? m.name m.paramTypes
  generalize t.method? m.name m.paramTypes = x at hm ⊢
  generalize u.method? m.name m.paramTypes = y at hm ⊢
  cases hm with
  | some hmn => exact Run.Tracks.pure hmn
  | none => exact Run.Tracks.throw fun _ => .same _
  | loose hx => exact fun _ _ _ => .loose hx fun _ _ h => nomatch h

theorem resolveOverload_tracks (hhost : host.Impartial c) (type method : String) {args args' : List Value}
    (hargs : List.Forall₂ (Value.Linked w) args args') :
    c.Tracks Run.Every (MethodHandle.Alike c) w (host.resolveOverload type method args)
      (host.resolveOverload type method args') := by
  refine Run.Tracks.bind (R := fun w' t u => w ≤ w' ∧ TypeHandle.Alike c w' t u)
    ((resolveType_tracks hhost ⟨none, type⟩).mono fun _ hle _ _ h => ⟨hle, h⟩) ?_
  rintro w' - t u ⟨hle, htu⟩
  intro s s' hs
  replace hargs := Value.Linked.monoItems hle hargs
  have hnames : args'.map s'.domain.heap.typeName = args.map s.domain.heap.typeName := by
    have hheap := hs.domain.heap
    clear hle
    induction hargs with
    | nil => rfl
    | cons hv _ ih => rw [List.map_cons, List.map_cons, hheap.typeName hv, ih]
  unfold Run.TracksFrom
  rw [Run.get_bind, Run.get_bind]
  simp only [overloadMissing, hnames, htu.module]
  have hm := hs.domain.meant? htu type method hargs
  unfold Domain.meant? at hm
  rw [htu.module] at hm
  generalize (do
    let table ← s.domain.table? t.module.name
    let overload ← table.resolve? s.domain.heap type method args
    t.method? overload.key.name overload.key.paramTypes) = x at hm ⊢
  generalize (do
    let table ← s'.domain.table? t.module.name
    let overload ← table.resolve? s'.domain.heap type method args'
    u.method? overload.key.name overload.key.paramTypes) = y at hm ⊢
  cases hm with
  | some hmn => exact Run.Tracks.pure hmn s s' hs
  | none => exact Run.Tracks.throw (fun _ => .same _) s s' hs
  | loose hx => exact .loose hx fun _ _ h => nomatch h

/-! ### Static fields -/

theorem staticsWith_tracks (hhost : host.Impartial c) (type field : String) :
    c.Tracks Run.Every (fun w => Dict.Related (Value.Linked w)) w (host.staticsWith type field)
      (host.staticsWith type field) := by
  refine (resolveType_tracks hhost ⟨none, type⟩).bind fun w' _ t u htu => ?_
  have hdeclared : (u.decl.field? field).any (·.isStatic) = (t.decl.field? field).any (·.isStatic) := by
    have hf := htu.form.field? field
    generalize t.decl.field? field = x at hf
    generalize u.decl.field? field = y at hf
    cases hf with
    | none => rfl
    | some hfg => simp only [Option.any_some, FieldDecl.isStatic, hfg.flags]
  rw [hdeclared]
  split
  · intro s s' hs
    unfold Run.TracksFrom
    rw [Run.get_bind, Run.get_bind]
    have hx := hs.domain.statics.find? type
    generalize s.domain.statics.find? type = x at hx
    generalize s'.domain.statics.find? type = y at hx
    cases hx with
    | none => exact Run.Tracks.throw (fun _ => .same _) s s' hs
    | some hfields => exact Run.Tracks.pure hfields s s' hs
  · exact Run.Tracks.throw fun _ => .same _

theorem getStatic_tracks (hhost : host.Impartial c) (type field : String) :
    c.Tracks Run.Every Value.Linked w (host.getStatic type field) (host.getStatic type field) := by
  refine (staticsWith_tracks hhost type field).bind fun w' _ fields fields' hfields => ?_
  have hx := hfields.find? field
  generalize fields.find? field = x at hx
  generalize fields'.find? field = y at hx
  cases hx with
  | none => exact Run.Tracks.throw fun _ => .same _
  | some hv => exact Run.Tracks.pure hv

theorem setStatic_tracks (hhost : host.Impartial c) (type field : String) {x y : Value}
    (hx : Value.Linked w x y) :
    c.Tracks Run.Every (fun _ _ _ => True) w (host.setStatic type field x) (host.setStatic type field y) := by
  refine Run.Tracks.bind (R := fun w' d e => w ≤ w' ∧ Dict.Related (Value.Linked w') d e)
    ((staticsWith_tracks hhost type field).mono fun _ hle _ _ h => ⟨hle, h⟩) ?_
  rintro w' - fields fields' ⟨hle, hfields⟩
  exact Run.Tracks.modify (fun s s' hs => ⟨hs.domain.withStatics
    (hs.domain.statics.insert type (hfields.insert field (hx.mono hle))), hs.outside⟩) trivial

/-- A native is found in neither domain, or is blind. -/
theorem Impartial.native? (hhost : host.Impartial c) {type method : String} {n : Native ω}
    (hn : host.native? type method = some n) : Native.Blind c n := by
  unfold Host.native? at hn
  have hmem : ((type, method), n) ∈ host.natives := by
    generalize host.natives = l at hn
    induction l with
    | nil => cases hn
    | cons a rest ih =>
      obtain ⟨k, m⟩ := a
      rw [List.lookup_cons] at hn
      cases hk : (type, method) == k with
      | true =>
        rw [hk] at hn
        cases hn
        rw [beq_iff_eq.mp hk]
        exact List.mem_cons_self
      | false =>
        rw [hk] at hn
        exact List.mem_cons_of_mem _ (ih hn)
  exact hhost.natives _ hmem

end Host
end MobileCode
