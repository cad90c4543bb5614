import MobileCode.Proofs.Failures
import MobileCode.Proofs.Validity

/-! # The indexes of a domain

Names lead to the modules that were loaded from files and to the types that these declare. Whatever is loaded later
adds to the indexes and replaces nothing in them.
-/
namespace MobileCode

/-- What can be read from a file is valid. -/
theorem Module.valid_of_ofFile {bytes : Bytes} {m : Module Datum} (h : ofFile bytes = .ok m) : m.Valid := by
  unfold ofFile at h
  split at h
  · cases h
  split at h
  · cases h
  · rename_i n _
    cases hn : n.validate with
    | error e =>
      rw [hn] at h
      cases h
    | ok _ =>
      rw [hn] at h
      cases h
      exact Module.validate_eq_ok.mp hn

/-- The module is that of its file, and its hash is a digest of the file. -/
structure LoadedModule.FromFile (l : LoadedModule) : Prop where
  module : ∃ m, Module.ofFile l.bytes = .ok m ∧ l.code.shape = m.shape
  hash : ∃ algorithm : DigestAlgorithm, l.hash = algorithm.digest l.bytes

namespace Domain

/-- The index of modules has each under its own name, and the index of types has the types that these declare and no
others. -/
structure Listed (d : Domain) : Prop where
  names : ∀ name l, d.module? name = some l → l.name = name
  owners : ∀ name t, d.type? name = some t → d.module? t.module.name = some t.module ∧
    t.decl ∈ t.module.code.types ∧ t.decl.fullName = name
  declared : ∀ name l, d.module? name = some l → ∀ u ∈ l.code.types, d.type? u.fullName = some ⟨l, u⟩

/-- Every name in the index of modules leads to a module from a file, and the index of types has the types that the
modules declare and no others. -/
structure Indexed (d : Domain) : Prop where
  modules : ∀ name l, d.module? name = some l → l.name = name ∧ l.FromFile
  owners : ∀ name t, d.type? name = some t → d.module? t.module.name = some t.module ∧
    t.decl ∈ t.module.code.types ∧ t.decl.fullName = name
  declared : ∀ name l, d.module? name = some l → ∀ u ∈ l.code.types, d.type? u.fullName = some ⟨l, u⟩

theorem indexed_iff {d : Domain} : d.Indexed ↔ d.Listed ∧ ∀ name l, d.module? name = some l → l.FromFile := by
  constructor
  · exact fun h => ⟨⟨fun name l hl => (h.modules name l hl).1, h.owners, h.declared⟩, fun name l hl => (h.modules name l hl).2⟩
  · exact fun ⟨h, hfiles⟩ => ⟨fun name l hl => ⟨h.names name l hl, hfiles name l hl⟩, h.owners, h.declared⟩

theorem indexed_of_empty {d : Domain} (hmodules : d.modules = []) (htypes : d.types = []) : d.Indexed := by
  have hnone (name : String) : d.module? name = none := by
    rw [module?, hmodules]
    rfl
  constructor
  · intro name l hl
    cases (hnone name).symm.trans hl
  · intro name t ht
    rw [type?, htypes] at ht
    cases ht
  · intro name l hl
    cases (hnone name).symm.trans hl

/-- All modules and types are found as before, and the indexes still agree if they did. -/
structure Gains (d e : Domain) : Prop where
  modules : ∀ name l, d.module? name = some l → e.module? name = some l
  types : ∀ name t, d.type? name = some t → e.type? name = some t
  indexed : d.Indexed → e.Indexed

variable {d e f : Domain}

theorem Gains.of_same (hmodules : e.modules = d.modules) (htypes : e.types = d.types) : d.Gains e := by
  have hmodule (name : String) : e.module? name = d.module? name := congrArg (Dict.find? · name) hmodules
  have htype (name : String) : e.type? name = d.type? name := congrArg (Dict.find? · name) htypes
  refine ⟨fun name l hl => (hmodule name).trans hl, fun name t ht => (htype name).trans ht, fun hd => ?_⟩
  constructor
  · intro name l hl
    exact hd.modules name l ((hmodule name).symm.trans hl)
  · intro name t ht
    rw [hmodule]
    exact hd.owners name t ((htype name).symm.trans ht)
  · intro name l hl u hu
    rw [htype]
    exact hd.declared name l ((hmodule name).symm.trans hl) u hu

theorem Gains.refl (d : Domain) : d.Gains d := .of_same rfl rfl

theorem Gains.trans (h : d.Gains e) (h' : e.Gains f) : d.Gains f where
  modules name l hl := h'.modules name l (h.modules name l hl)
  types name t ht := h'.types name t (h.types name t ht)
  indexed hd := h'.indexed (h.indexed hd)

/-! ## Loading -/

section
variable {l : LoadedModule} (hnew : d.module? l.name = none) (hclash : d.clash? l.code = none)
  (hdistinct : (l.code.types.map (·.fullName)).Nodup)

/-- After a module was entered, a type is its own or was there before. -/
theorem type?_enter_cases {name : String} {t : TypeHandle} (ht : (d.enter l).type? name = some t)
    (hdistinct : (l.code.types.map (·.fullName)).Nodup) :
    (∃ u ∈ l.code.types, u.fullName = name ∧ t = ⟨l, u⟩) ∨ d.type? name = some t := by
  by_cases hown : name ∈ l.code.types.map (·.fullName)
  · obtain ⟨u, hu, rfl⟩ := List.mem_map.mp hown
    rw [type?_enter hdistinct hu] at ht
    exact .inl ⟨u, hu, rfl, (Option.some.inj ht).symm⟩
  · have hother : ∀ u ∈ l.code.types, u.fullName ≠ name := fun u hu he => hown (he ▸ List.mem_map_of_mem hu)
    rw [enter_eq] at ht
    exact .inr ((Dict.find?_foldl_insert (fun u : TypeDecl Value => u.fullName) _ _ _ hother).symm.trans ht)

theorem module?_enter_cases {name : String} {k : LoadedModule} (hk : (d.enter l).module? name = some k) :
    name = l.name ∧ k = l ∨ d.module? name = some k := by
  rw [module?_enter] at hk
  split at hk
  · rename_i he
    exact .inl ⟨he, (Option.some.inj hk).symm⟩
  · exact .inr hk

include hnew in
theorem modules_enter (name : String) (k : LoadedModule) (hk : d.module? name = some k) :
    (d.enter l).module? name = some k := by
  have hne : name ≠ l.name := fun he => by
    rw [he, hnew] at hk
    cases hk
  rw [module?_enter, if_neg hne, hk]

include hclash in
theorem types_enter (name : String) (t : TypeHandle) (ht : d.type? name = some t) : (d.enter l).type? name = some t := by
  rw [enter_eq]
  exact type?_indexed hclash ht

include hnew hclash hdistinct

theorem Listed.enter (hd : d.Listed) : (d.enter l).Listed where
  names name k hk := by
    rcases module?_enter_cases hk with ⟨rfl, rfl⟩ | hk
    · rfl
    · exact hd.names name k hk
  owners name t ht := by
    rcases type?_enter_cases ht hdistinct with ⟨u, hu, rfl, rfl⟩ | ht
    · exact ⟨by rw [module?_enter, if_pos rfl], hu, rfl⟩
    · obtain ⟨hmodule, hmem, hname⟩ := hd.owners name t ht
      exact ⟨modules_enter hnew _ _ hmodule, hmem, hname⟩
  declared name k hk u hu := by
    rcases module?_enter_cases hk with ⟨rfl, rfl⟩ | hk
    · exact type?_enter hdistinct hu
    · exact types_enter hclash _ _ (hd.declared name k hk u hu)

theorem gains_enter (hfile : l.FromFile) : d.Gains (d.enter l) := by
  refine ⟨modules_enter hnew, types_enter hclash, fun hd => ?_⟩
  obtain ⟨hlisted, hfiles⟩ := indexed_iff.mp hd
  refine indexed_iff.mpr ⟨hlisted.enter hnew hclash hdistinct, fun name k hk => ?_⟩
  rcases module?_enter_cases hk with ⟨rfl, rfl⟩ | hk
  · exact hfile
  · exact hfiles name k hk

end

section
variable {bytes : Bytes} {path : Option String} {l : LoadedModule}

/-- A valid module that is registered is there already, or its name is free and its types are new. -/
theorem register_entered {m : Module Datum} (hm : m.Valid) (h : d.register m bytes path = .ok (l, e)) :
    (d.module? m.name = some l ∧ l.hash = d.digest.digest bytes ∧ e = d) ∨
      (d.module? l.name = none ∧ d.clash? l.code = none ∧ (l.code.types.map (·.fullName)).Nodup ∧
        l = d.loading m bytes path ∧ e = ({ d with heap := ((instantiate m).run d.heap).2 } : Domain).enter l) := by
  refine (register_cases h).imp_right fun ⟨hnew, hl, hclash, he⟩ => ?_
  subst hl
  have hshape : (d.loading m bytes path).code.shape = m.shape := m.instantiate_shape d.heap
  have hname : (d.loading m bytes path).name = m.name := congrArg Module.name hshape
  exact ⟨hname ▸ hnew, hclash, (Module.fullNames_eq hshape).symm ▸ hm.distinct, rfl, he⟩

theorem loading_fromFile (d : Domain) {m : Module Datum} (hm : Module.ofFile bytes = .ok m) :
    (d.loading m bytes path).FromFile where
  module := ⟨m, hm, m.instantiate_shape d.heap⟩
  hash := ⟨d.digest, rfl⟩

variable (h : d.loadFile bytes path = .ok (l, e))
include h

/-- Loading a file adds to the indexes. -/
theorem loadFile_gains : d.Gains e := by
  obtain ⟨m, hm, hregister⟩ := loadFile_eq_ok h
  rcases register_entered (Module.valid_of_ofFile hm) hregister with ⟨_, _, rfl⟩ | ⟨hnew, hclash, hdistinct, rfl, rfl⟩
  · exact .refl e
  · have hheap : d.Gains { d with heap := ((instantiate m).run d.heap).2 } := .of_same rfl rfl
    exact hheap.trans (gains_enter hnew hclash hdistinct (loading_fromFile d hm))

/-- What a file is loaded as has the hash of the file. It is the module of the file or was there before. -/
theorem loadFile_found (hd : d.Indexed) : e.module? l.name = some l ∧ l.hash = d.digest.digest bytes ∧
    (l.bytes = bytes ∨ d.module? l.name = some l) := by
  obtain ⟨m, hm, hregister⟩ := loadFile_eq_ok h
  rcases register_cases hregister with ⟨hknown, hhash, rfl⟩ | ⟨_, rfl, _, rfl⟩
  · obtain ⟨hname, _⟩ := hd.modules m.name l hknown
    rw [← hname] at hknown
    exact ⟨hknown, hhash, .inr hknown⟩
  · refine ⟨?_, rfl, .inl rfl⟩
    rw [module?_enter, if_pos rfl]

end
end Domain
end MobileCode
