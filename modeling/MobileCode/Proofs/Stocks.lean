import MobileCode.Proofs.Codes

/-! # Domains that hold modules of a set

Two domains hold modules of one set, the first one as they are and the second one in their deployed forms. A type that is
found in the first domain is found in the second one as well, once its module has been loaded there, and a module of the set
can be loaded whenever it is not there yet.
-/
namespace MobileCode

/-- Each module that the domain holds is one of the set, with the code that goes with it. -/
structure Domain.Stocks (d : Domain) (s : ModuleSet Datum) (code : Module Datum → Module Value) : Prop extends d.Coherent where
  drawn : ∀ name l, d.module? name = some l → ∃ m ∈ s.members, m.name = name ∧ l.code = code m

/-- For each module of the set, code with its types in their forms. -/
structure ModuleSet.Renders (s : ModuleSet Datum) (client : String)
    (mode? : Module Datum → TypeFlags → MethodFlags → Option Mobility → Option Mode) (code : Module Datum → Module Value) :
    Prop where
  name : ∀ m ∈ s.members, (code m).name = m.name
  forms : ∀ m ∈ s.members, ∀ w : Links, List.Forall₂
    (fun t u => TypeDecl.Form False (Value.Linked w) client (mode? m t.flags) t u) m.code.types (code m).types

/-- One type is a form of the other one, and their modules have one name. -/
structure TypeHandle.Renders (client : String) (mode? : MethodFlags → Option Mobility → Option Mode) (o o' : TypeHandle) :
    Prop where
  module : o'.module.name = o.module.name
  form : ∀ w : Links, TypeDecl.Form False (Value.Linked w) client mode? o.decl o'.decl

theorem ModuleSet.Unambiguous.eq_of_name {α : Type} {s : ModuleSet α} (hs : s.Unambiguous) {m n : Module α}
    (hm : m ∈ s.members) (hn : n ∈ s.members) (h : m.name = n.name) : m = n :=
  List.inj_on_of_nodup_map hs.modules hm hn h

namespace Domain
variable {s : ModuleSet Datum} {code : Module Datum → Module Value} {d e : Domain} {m : Module Datum} {l : LoadedModule}

namespace Stocks

theorem code_eq (h : d.Stocks s code) (hs : s.Unambiguous) (hm : m ∈ s.members) (hl : d.module? m.name = some l) :
    l.code = code m := by
  obtain ⟨m', hm', hname, hcode⟩ := h.drawn _ l hl
  rw [hcode, hs.eq_of_name hm' hm hname]

/-- It does not matter what becomes of objects and values of static fields. -/
theorem congr (h : d.Stocks s code) (hmodules : e.modules = d.modules) (htypes : e.types = d.types)
    (htables : e.tables = d.tables) (hstores : ∀ name, (e.statics.find? name).isSome = (d.statics.find? name).isSome) :
    e.Stocks s code where
  toCoherent := h.toCoherent.congr hmodules htypes htables hstores
  drawn name l hl := h.drawn name l ((congrArg (Dict.find? · name) hmodules).symm.trans hl)

/-- A type of a module that is there is found. -/
theorem type? (h : d.Stocks s Module.code) (hs : s.Unambiguous) (hm : m ∈ s.members) (hl : d.module? m.name = some l)
    {t : TypeDecl Datum} (ht : t ∈ m.types) :
    ∃ u, u ∈ m.code.types ∧ t.shape = u.shape ∧ d.type? t.fullName = some ⟨l, u⟩ := by
  obtain ⟨i, hi⟩ := List.mem_iff_getElem?.mp ht
  obtain ⟨u, hu, hshape⟩ := Module.types_getElem? m.code_shape.symm hi
  have hmem := List.mem_of_getElem? hu
  have hfound := h.declared _ l hl u (h.code_eq hs hm hl ▸ hmem)
  rw [← TypeDecl.fullName_eq hshape] at hfound
  exact ⟨u, hmem, hshape, hfound⟩

/-- What is found under the name of a type in the first domain is found in the second one in its form. -/
theorem renders {client : String} {mode? : Module Datum → TypeFlags → MethodFlags → Option Mobility → Option Mode}
    (h : d.Stocks s Module.code) (he : e.Stocks s code) (hcode : s.Renders client mode? code) (hs : s.Unambiguous)
    (hm : m ∈ s.members) (hl : d.module? m.name ≠ none) {l' : LoadedModule} (hl' : e.module? m.name = some l')
    {t : TypeDecl Datum} (ht : t ∈ m.types) {o : TypeHandle} (ho : d.type? t.fullName = some o) :
    o.module.code = m.code ∧ ∃ u', e.type? t.fullName = some ⟨l', u'⟩ ∧
      TypeHandle.Renders client (mode? m o.decl.flags) o ⟨l', u'⟩ := by
  obtain ⟨l, hl⟩ := Option.ne_none_iff_exists'.mp hl
  obtain ⟨u, hu, _, hfound⟩ := h.type? hs hm hl ht
  cases ho.symm.trans hfound
  have hsame := h.code_eq hs hm hl
  have hsame' := he.code_eq hs hm hl'
  obtain ⟨i, hi⟩ := List.mem_iff_getElem?.mp hu
  have hform (w : Links) := Forall₂.getElem? (hcode.forms m hm w) i
  obtain ⟨u', hu'⟩ : ∃ u', (code m).types[i]? = some u' := by
    have hi' := hform fun _ _ => False
    rw [hi] at hi'
    generalize (code m).types[i]? = y at hi'
    cases hi' with
    | some _ => exact ⟨_, rfl⟩
  have hform (w : Links) : TypeDecl.Form False (Value.Linked w) client (mode? m u.flags) u u' := by
    have hi' := hform w
    rw [hi, hu'] at hi'
    cases hi' with
    | some hf => exact hf
  have hname : u'.fullName = t.fullName :=
    (hform fun _ _ => False).fullName.trans (h.owners _ _ ho).2.2
  have hfound' := he.declared _ l' hl' u' (hsame' ▸ List.mem_of_getElem? hu')
  rw [hname] at hfound'
  refine ⟨hsame, u', hfound', ?_, hform⟩
  exact (he.names _ l' hl').trans (h.names _ l hl).symm

/-! ## Loading -/

/-- A type of a module that is not there yet is not there. -/
theorem type?_eq_none (h : d.Stocks s code) (hs : s.Unambiguous) (hm : m ∈ s.members)
    (htypes : ∀ n ∈ s.members, ∀ u ∈ (code n).types, u.fullName ∈ n.types.map (·.fullName))
    (hnew : d.module? m.name = none) {t : TypeDecl Datum} (ht : t ∈ m.types) : d.type? t.fullName = none := by
  rw [Option.eq_none_iff_forall_ne_some]
  intro o ho
  obtain ⟨hmodule, hdecl, hname⟩ := h.owners _ o ho
  obtain ⟨k, hk, hkname, hcode⟩ := h.drawn _ _ hmodule
  obtain ⟨t', ht', htname⟩ := List.mem_map.mp (htypes k hk o.decl (hcode ▸ hdecl))
  obtain ⟨rfl, _⟩ := Discovery.eq_of_fullName hs hk hm ht' ht (htname.trans hname)
  rw [← hkname] at hmodule
  cases hnew.symm.trans hmodule

theorem clash?_eq_none (h : d.Stocks s code) (hs : s.Unambiguous) (hm : m ∈ s.members)
    (htypes : ∀ n ∈ s.members, ∀ u ∈ (code n).types, u.fullName ∈ n.types.map (·.fullName))
    (hnew : d.module? m.name = none) {n : Module Value} (hn : n.types.map (·.fullName) = m.types.map (·.fullName)) :
    d.clash? n = none := by
  refine List.findSome?_eq_none_iff.mpr fun u hu => ?_
  obtain ⟨t, ht, htname⟩ := List.mem_map.mp (hn ▸ List.mem_map_of_mem (f := TypeDecl.fullName) hu)
  rw [Option.map_eq_none_iff, ← htname]
  exact h.type?_eq_none hs hm htypes hnew ht

/-- A module of the set that is not there yet is loaded from its file, and makes no objects. -/
theorem loadFile (h : d.Stocks s code) (hs : s.Unambiguous) (hm : m ∈ s.members) (hplain : m.Plain)
    (htypes : ∀ n ∈ s.members, ∀ u ∈ (code n).types, u.fullName ∈ n.types.map (·.fullName))
    (hcode : code m = m.code) (hnew : d.module? m.name = none) {bytes : Bytes} (hread : Module.ofFile bytes = .ok m)
    (path : Option String) : ∃ l, d.loadFile bytes path = .ok (l, d.enter l) ∧ l.code = m.code ∧ (d.enter l).Stocks s code ∧
      (d.enter l).module? m.name = some l := by
  have hname := m.code_name
  have hclash : d.clash? m.code = none := h.clash?_eq_none hs hm htypes hnew m.code_fullNames
  let l : LoadedModule := ⟨m.code, bytes, d.digest.digest bytes, path⟩
  have hload : d.loadFile bytes path = .ok (l, d.enter l) := by
    unfold Domain.loadFile
    rw [hread]
    show d.register m bytes path = _
    simp only [register, hnew, hplain.instantiate_eq, hclash]
    rfl
  have hdistinct : (l.code.types.map (·.fullName)).Nodup :=
    m.code_fullNames.symm ▸ (Module.valid_of_ofFile hread).distinct
  have hfound : (d.enter l).module? m.name = some l := by
    rw [module?_enter]
    exact if_pos hname.symm
  have hvacant : d.module? l.name = none := by
    show d.module? m.code.name = none
    rw [hname, hnew]
  refine ⟨l, hload, rfl, ⟨h.toCoherent.enter hdistinct hvacant hclash, fun name k hk => ?_⟩, hfound⟩
  rcases module?_enter_cases hk with ⟨rfl, rfl⟩ | hk
  · exact ⟨m, hm, hname.symm, hcode.symm⟩
  · exact h.drawn name k hk

end Stocks
end Domain
end MobileCode
