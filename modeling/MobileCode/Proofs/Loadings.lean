import MobileCode.Proofs.Operations

/-! # Domains into which modules are loaded

A domain has four indexes: of modules, of types, of overload tables and of static fields. They agree however often and in
whatever order modules are loaded, by calls or by the resolver of a program that runs, and nothing leaves them.
-/
namespace MobileCode
namespace Domain
variable {d e f : Domain}

/-! ## Indexes that agree -/

/-- The indexes agree. Each module has the table of its methods, and each type has static fields. -/
structure Coherent (d : Domain) : Prop extends d.Listed where
  tables : ∀ name, d.table? name = (d.module? name).map fun l => DispatchTable.ofModule l.code
  stores : ∀ name, (d.statics.find? name).isSome = (d.type? name).isSome

/-- Nothing has been loaded. -/
structure Vacant (d : Domain) : Prop where
  modules : d.modules = []
  types : d.types = []
  tables : d.tables = []
  statics : d.statics = []

theorem Vacant.coherent (h : d.Vacant) : d.Coherent := by
  have hmodule (name : String) : d.module? name = none := by
    rw [module?, h.modules]
    rfl
  have htype (name : String) : d.type? name = none := by
    rw [type?, h.types]
    rfl
  refine ⟨⟨fun name l hl => ?_, fun name t ht => ?_, fun name l hl => ?_⟩, fun name => ?_, fun name => ?_⟩
  · cases (hmodule name).symm.trans hl
  · cases (htype name).symm.trans ht
  · cases (hmodule name).symm.trans hl
  · rw [hmodule, table?, h.tables]
    rfl
  · rw [htype, h.statics]
    rfl

theorem Coherent.congr (h : d.Coherent) (hmodules : e.modules = d.modules) (htypes : e.types = d.types)
    (htables : e.tables = d.tables) (hstores : ∀ name, (e.statics.find? name).isSome = (d.statics.find? name).isSome) :
    e.Coherent := by
  have hmodule : e.module? = d.module? := funext fun name => congrArg (Dict.find? · name) hmodules
  have htype : e.type? = d.type? := funext fun name => congrArg (Dict.find? · name) htypes
  have htable : e.table? = d.table? := funext fun name => congrArg (Dict.find? · name) htables
  obtain ⟨⟨hnames, howners, hdeclared⟩, htables, hsame⟩ := h
  rw [← hmodule] at hnames howners hdeclared htables
  rw [← htype] at howners hdeclared hsame
  rw [← htable] at htables
  exact ⟨⟨hnames, howners, hdeclared⟩, htables, fun name => (hstores name).trans (hsame name)⟩

/-- No two modules have a type of one name. -/
theorem Coherent.owner_unique (h : d.Coherent) {name : String} {t : TypeHandle} (ht : d.type? name = some t)
    {l : LoadedModule} (hl : d.module? l.name = some l) {u : TypeDecl Value} (hu : u ∈ l.code.types)
    (hname : u.fullName = name) : t = ⟨l, u⟩ := by
  have hfound := h.declared l.name l hl u hu
  rw [hname, ht] at hfound
  exact Option.some.inj hfound

section
variable {l : LoadedModule} (hdistinct : (l.code.types.map (·.fullName)).Nodup)
include hdistinct

/-- The static fields of a new type start as it is declared. -/
theorem statics_enter {u : TypeDecl Value} (hu : u ∈ l.code.types) :
    (d.enter l).statics.find? u.fullName = some (staticsOf u) := by
  rw [enter_eq]
  exact Dict.find?_foldl_insert_mem (fun u : TypeDecl Value => u.fullName) _ hdistinct hu d.statics

theorem Coherent.enter (hd : d.Coherent) (hnew : d.module? l.name = none) (hclash : d.clash? l.code = none) :
    (d.enter l).Coherent := by
  refine ⟨hd.toListed.enter hnew hclash hdistinct, fun name => ?_, fun name => ?_⟩
  · have htable : (d.enter l).table? name = if name = l.name then some (.ofModule l.code) else d.table? name := by
      rw [enter_eq]
      exact Dict.find?_insert _ _ _ _
    rw [htable, module?_enter]
    split
    · rfl
    · exact hd.tables name
  · by_cases hown : name ∈ l.code.types.map (·.fullName)
    · obtain ⟨u, hu, rfl⟩ := List.mem_map.mp hown
      rw [statics_enter hdistinct hu, type?_enter hdistinct hu]
      rfl
    · have hother : ∀ u ∈ l.code.types, u.fullName ≠ name := fun u hu he => hown (he ▸ List.mem_map_of_mem hu)
      rw [enter_eq]
      have htypes := Dict.find?_foldl_insert (fun u : TypeDecl Value => u.fullName) (TypeHandle.mk l) _ d.types hother
      have hstatics := Dict.find?_foldl_insert (fun u : TypeDecl Value => u.fullName) staticsOf _ d.statics hother
      exact (congrArg Option.isSome hstatics).trans ((hd.stores name).trans (congrArg Option.isSome htypes).symm)

end

/-! ## Domains that accrue modules -/

/-- All modules and types are found as before, and the indexes agree as they did. -/
structure Accrues (d e : Domain) : Prop where
  modules : ∀ name l, d.module? name = some l → e.module? name = some l
  types : ∀ name t, d.type? name = some t → e.type? name = some t
  coherent : d.Coherent → e.Coherent

theorem Accrues.of_same (hmodules : e.modules = d.modules) (htypes : e.types = d.types) (htables : e.tables = d.tables)
    (hstores : ∀ name, (e.statics.find? name).isSome = (d.statics.find? name).isSome) : d.Accrues e where
  modules name _ hl := (congrArg (Dict.find? · name) hmodules).trans hl
  types name _ ht := (congrArg (Dict.find? · name) htypes).trans ht
  coherent h := h.congr hmodules htypes htables hstores

theorem Accrues.refl (d : Domain) : d.Accrues d := .of_same rfl rfl rfl fun _ => rfl

theorem Accrues.trans (h : d.Accrues e) (h' : e.Accrues f) : d.Accrues f where
  modules name l hl := h'.modules name l (h.modules name l hl)
  types name t ht := h'.types name t (h.types name t ht)
  coherent hd := h'.coherent (h.coherent hd)

theorem Accrues.register {m : Module Datum} {bytes : Bytes} {path : Option String} {l : LoadedModule} (hm : m.Valid)
    (h : d.register m bytes path = .ok (l, e)) : d.Accrues e := by
  rcases register_entered hm h with ⟨_, _, rfl⟩ | ⟨hnew, hclash, hdistinct, _, rfl⟩
  · exact .refl e
  · have hheap : d.Accrues { d with heap := ((instantiate m).run d.heap).2 } := .of_same rfl rfl rfl fun _ => rfl
    exact hheap.trans ⟨modules_enter hnew, types_enter hclash, fun hd => hd.enter hdistinct hnew hclash⟩

/-- What the indexes of modules, types and tables hold in the first domain, they hold in the second one. -/
structure Persists (d e : Domain) : Prop where
  modules : ∀ name l, d.module? name = some l → e.module? name = some l
  types : ∀ name t, d.type? name = some t → e.type? name = some t
  tables : ∀ name table, d.table? name = some table → e.table? name = some table

theorem Accrues.persists (h : d.Accrues e) (hd : d.Coherent) : d.Persists e where
  modules := h.modules
  types := h.types
  tables name table htable := by
    rw [hd.tables] at htable
    obtain ⟨l, hl, rfl⟩ := Option.map_eq_some_iff.mp htable
    rw [(h.coherent hd).tables, h.modules name l hl]
    rfl

/-! ## One call -/

section
variable {m : Module Datum} {bytes : Bytes} {path : Option String} {l : LoadedModule}

/-- What is registered is found under its name, with the hash of its file. -/
theorem register_found (hd : d.Coherent) (h : d.register m bytes path = .ok (l, e)) :
    e.module? l.name = some l ∧ l.hash = d.digest.digest bytes := by
  rcases register_cases h with ⟨hknown, hhash, rfl⟩ | ⟨_, rfl, _, rfl⟩
  · exact ⟨(hd.names m.name l hknown).symm ▸ hknown, hhash⟩
  · exact ⟨by rw [module?_enter, if_pos rfl], rfl⟩

/-- A module of that name that is there is the answer to its own file, and to no other. -/
theorem register_known (hknown : d.module? m.name = some l) : d.register m bytes path =
    if l.hash = d.digest.digest bytes then .ok (l, d)
    else .error (.invalid (.versionLoaded m.name l.hash (d.digest.digest bytes))) := by
  simp only [register, hknown]

/-- The static fields that are there keep what they hold. -/
theorem register_statics (hd : d.Coherent) (h : d.register m bytes path = .ok (l, e)) {name : String} {fields : Dict Value}
    (hfields : d.statics.find? name = some fields) : e.statics.find? name = some fields := by
  obtain ⟨t, ht⟩ : ∃ t, d.type? name = some t := Option.isSome_iff_exists.mp (by rw [← hd.stores, hfields]; rfl)
  rw [(Retains.register h).statics name t ht, hfields]

end

end Domain

namespace LoadCall
variable {ω : Type} {x : LoadCall ω} {s t : State ω}

theorem perform_error {e : Error} (h : x.perform s = some (.error e, t)) : t.domain = s.domain := by
  rw [perform_apply] at h
  obtain ⟨⟨_ | ⟨m, b⟩, o⟩, _, h⟩ := Option.map_eq_some_iff.mp h
  · cases h
    rfl
  · dsimp only at h
    rcases hregister : s.domain.register m b x.path? with _ | ⟨l, d⟩ <;> rw [hregister] at h <;> cases h
    rfl

theorem perform_ok {l : LoadedModule} (h : x.perform s = some (.ok l, t)) : ∃ m b,
    x.read s.outside = some (.ok (m, b), t.outside) ∧ s.domain.register m b x.path? = .ok (l, t.domain) := by
  rw [perform_apply] at h
  obtain ⟨⟨_ | ⟨m, b⟩, o⟩, hread, h⟩ := Option.map_eq_some_iff.mp h
  · cases h
  · dsimp only at h
    rcases hregister : s.domain.register m b x.path? with _ | ⟨l, d⟩ <;> rw [hregister] at h <;> cases h
    exact ⟨m, b, hread, hregister⟩

end LoadCall

/-! ## Any number of calls and operations -/

namespace State
variable {ω : Type} {s t : State ω}

def Accrues (s t : State ω) : Prop := s.domain.Accrues t.domain

instance : IsPreorder (State ω) Accrues where
  refl s := .refl s.domain
  trans _ _ _ := Domain.Accrues.trans

theorem accrues_lenient : Lenient (@Accrues ω) where
  objects s _ := .of_same rfl rfl rfl fun _ => rfl
  statics s type fields name v hfields := by
    refine .of_same rfl rfl rfl fun other => ?_
    show (Dict.find? (s.domain.statics.insert type _) other).isSome = _
    rw [Dict.find?_insert]
    split
    · rename_i he
      rw [he, hfields]
      rfl
    · rfl
  register s m bytes path l d hm h := Domain.Accrues.register hm.valid h
  outside s _ := .refl s.domain

theorem Reaches.accrues (h : s.Reaches t) : s.domain.Accrues t.domain := h.lenient accrues_lenient

/-- Whatever was done with a fresh domain, its indexes agree, and each type is of one loaded module only. A call to load
that fails changes nothing. A call with the file of a module that is there gives this module and changes nothing, and one
with another file fails. Any other call adds to the indexes, and nothing that is done later takes from them. -/
theorem Reaches.indexes_agree (hnew : s.domain.Vacant) (h : s.Reaches t) :
    t.domain.Coherent ∧
      (∀ name v l u, t.domain.type? name = some v → t.domain.module? l.name = some l → u ∈ l.code.types →
        u.fullName = name → v = ⟨l, u⟩) ∧
      (∀ (x : LoadCall ω) e u, x.perform t = some (.error e, u) → u.domain = t.domain) ∧
      (∀ (x : LoadCall ω) m b o l, x.read t.outside = some (.ok (m, b), o) → t.domain.module? m.name = some l →
        if l.hash = t.domain.digest.digest b then x.perform t = some (.ok l, { t with outside := o })
        else ∃ e, x.perform t = some (.error e, { t with outside := o })) ∧
      (∀ (x : LoadCall ω) l u, x.perform t = some (.ok l, u) → u.domain.module? l.name = some l ∧
        t.domain.Persists u.domain ∧
        ∀ name fields, t.domain.statics.find? name = some fields → u.domain.statics.find? name = some fields) ∧
      ∀ u, t.Reaches u → t.domain.Persists u.domain := by
  have hcoherent : t.domain.Coherent := h.accrues.coherent hnew.coherent
  refine ⟨hcoherent, ?_, ?_, ?_, ?_, fun u hu => hu.accrues.persists hcoherent⟩
  · exact fun name v l u hv hl hu hname => hcoherent.owner_unique hv hl hu hname
  · exact fun x e u hx => LoadCall.perform_error hx
  · intro x m b o l hread hknown
    have hperform : x.perform t = some (LoadCall.registered { t with outside := o } (t.domain.register m b x.path?)) := by
      rw [LoadCall.perform_apply, hread]
      rfl
    rw [Domain.register_known hknown] at hperform
    split at hperform
    · rename_i hsame
      rw [if_pos hsame]
      exact hperform
    · rename_i hother
      rw [if_neg hother]
      exact ⟨_, hperform⟩
  · intro x l u hx
    obtain ⟨m, b, hread, hregister⟩ := LoadCall.perform_ok hx
    refine ⟨(Domain.register_found hcoherent hregister).1, ?_, fun name fields hfields => ?_⟩
    · exact (Domain.Accrues.register (LoadCall.read_filed hread).valid hregister).persists hcoherent
    · exact Domain.register_statics hcoherent hregister hfields

end State

namespace turnstile

/-- A type that counts in a static field. -/
def device : Module Datum where
  name := "Gate"
  types := [{ space := "Ops", name := "Turnstile", fields := [{ name := "count", type := TypeName.int32, flags := MemberFlags.static }] }]

/-- A domain on a host with the standard native methods, without clients. -/
def gate : Environment Unit := { host := { thread := none, natives := Native.standard none } }

theorem gate_plain : gate.Plain where
  host := Host.plain_of_standard rfl
  clients client d hd := by cases hd

def closed : State Unit := ⟨{ hostName := "gate" }, ()⟩

end turnstile

open turnstile in
/-- The module is loaded, its field is set, and the module is loaded again. The field keeps its value. -/
theorem turnstile_counts : ∃ l t, closed.domain.Vacant ∧ closed.Reaches t ∧ t.domain.module? "Gate" = some l ∧
    (t.domain.statics.find? "Ops.Turnstile").bind (·.find? "count") = some (.int32 3) ∧ t.domain.Coherent ∧
    (LoadCall.memory device).perform t = some (.ok l, t) := by
  obtain ⟨l, s, t, hload, hset, hknown, hhash, hcount⟩ : ∃ l s t,
      (Operation.load (.memory device)).perform gate 1 closed = some (.ok (), s) ∧
      (Operation.setStatic "Ops.Turnstile" "count" (.int32 3)).perform gate 1 s = some (.ok (), t) ∧
      t.domain.module? "Gate" = some l ∧ l.hash = t.domain.digest.digest device.toFile ∧
      (t.domain.statics.find? "Ops.Turnstile").bind (·.find? "count") = some (.int32 3) :=
    ⟨_, _, _, rfl, rfl, rfl, rfl, rfl⟩
  have hnew : closed.domain.Vacant := ⟨rfl, rfl, rfl, rfl⟩
  have hreaches : closed.Reaches t := ((State.Reaches.refl closed).step gate_plain hload).step gate_plain hset
  obtain ⟨hcoherent, -, -, hagain, -, -⟩ := State.Reaches.indexes_agree hnew hreaches
  have hread : (LoadCall.memory device).read t.outside = some (.ok (device, device.toFile), t.outside) := rfl
  have hfound := hagain _ _ _ _ _ hread hknown
  rw [if_pos hhash] at hfound
  exact ⟨l, t, hnew, hreaches, hknown, hcount, hcoherent, hfound⟩

end MobileCode
