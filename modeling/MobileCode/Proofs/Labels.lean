import Mathlib.Data.List.Induction
import MobileCode.Assembler
import MobileCode.Proofs.Rejections
import MobileCode.Proofs.Validity

/-! # Labels

A body is written in steps, each of which adds a line or defines a label. A label means the last place at which it was
defined. It has to stand in front of a line, and each branch has to name one: then the body has an instruction for each
line, and a branch leads to the first line behind its label, which is inside the body.
-/
namespace MobileCode
variable {α : Type}

theorem Dict.Sorted.find?_eq_some_iff {β : Type} {d : Dict β} (h : d.Sorted) {name : String} {x : β} :
    d.find? name = some x ↔ (name, x) ∈ d := by
  induction d with
  | nil => exact ⟨nofun, nofun⟩
  | cons e rest ih =>
    obtain ⟨hfirst, hrest⟩ := List.pairwise_cons.mp h
    obtain ⟨n, y⟩ := e
    rw [Dict.find?_cons, List.mem_cons, Prod.mk.injEq]
    split
    · rename_i hn
      subst hn
      have hnot : (name, x) ∉ rest := fun hx => String.lt_irrefl name (hfirst _ hx)
      simp [hnot, eq_comm]
    · rename_i hn
      rw [ih hrest]
      exact ⟨.inr, fun h => h.resolve_left fun he => hn he.1⟩

/-- The label that a line branches to. -/
def Line.label? : Line α → Option String
  | .emit _ => none
  | .jump name | .jumpIfTrue name | .jumpIfFalse name => some name

namespace Assembler

/-- A step of writing a body. -/
inductive Step (α : Type)
  | line (l : Line α)
  | label (name : String)

def perform (a : Assembler α) : Step α → Assembler α
  | .line l => a.push l
  | .label name => a.label name

def assemble (steps : List (Step α)) : Assembler α := steps.foldl perform {}

/-! ## What the steps say -/

/-- The lines in the order in which they were written. -/
def written : List (Step α) → List (Line α)
  | [] => []
  | .line l :: rest => l :: written rest
  | .label _ :: rest => written rest

/-- The label was last defined behind this number of lines. -/
def Marks (steps : List (Step α)) (name : String) (position : Nat) : Prop :=
  ∃ before after, steps = before ++ .label name :: after ∧ .label name ∉ after ∧ position = (written before).length

/-- The instruction that a line stands for. -/
inductive Resolves (steps : List (Step α)) : Line α → Instruction α → Prop
  | emit (i : Instruction α) : Resolves steps (.emit i) i
  | jump {name : String} {position : Nat} : Marks steps name position →
    Resolves steps (.jump name) (.jump (UInt64.ofNat position))
  | jumpIfTrue {name : String} {position : Nat} : Marks steps name position →
    Resolves steps (.jumpIfTrue name) (.jumpIfTrue (UInt64.ofNat position))
  | jumpIfFalse {name : String} {position : Nat} : Marks steps name position →
    Resolves steps (.jumpIfFalse name) (.jumpIfFalse (UInt64.ofNat position))

variable {steps : List (Step α)} {name : String} {position : Nat}

theorem written_append (before after : List (Step α)) : written (before ++ after) = written before ++ written after := by
  induction before with
  | nil => rfl
  | cons step rest ih =>
    cases step with
    | line l => exact congrArg (l :: ·) ih
    | label name => exact ih

/-- A label that is defined is defined a last time. -/
theorem exists_marks_iff : (∃ position, Marks steps name position) ↔ .label name ∈ steps := by
  constructor
  · rintro ⟨_, before, after, rfl, _, _⟩
    simp
  · intro h
    obtain ⟨after, before, hsplit, hlast⟩ := List.eq_append_cons_of_mem (List.mem_reverse.mpr h)
    refine ⟨_, before.reverse, after.reverse, ?_, by simpa using hlast, rfl⟩
    rw [← List.reverse_reverse steps, hsplit]
    simp

theorem marks_concat {step : Step α} : Marks (steps ++ [step]) name position ↔
    step = .label name ∧ position = (written steps).length ∨ step ≠ .label name ∧ Marks steps name position := by
  constructor
  · rintro ⟨before, after, hsteps, hlast, rfl⟩
    obtain rfl | ⟨front, last, rfl⟩ := after.eq_nil_or_concat
    · obtain ⟨rfl, hstep⟩ := List.append_inj' hsteps rfl
      exact .inl ⟨List.singleton_inj.mp hstep, rfl⟩
    · rw [List.concat_eq_append, List.mem_append, List.mem_singleton, not_or] at hlast
      have hsplit : before ++ .label name :: front.concat last = (before ++ .label name :: front) ++ [last] := by simp
      obtain ⟨rfl, hstep⟩ := List.append_inj' (hsteps.trans hsplit) rfl
      rw [List.singleton_inj.mp hstep]
      exact .inr ⟨Ne.symm hlast.2, before, front, rfl, hlast.1, rfl⟩
  · rintro (⟨rfl, rfl⟩ | ⟨hstep, before, after, rfl, hlast, rfl⟩)
    · exact ⟨steps, [], rfl, List.not_mem_nil, rfl⟩
    · refine ⟨before, after ++ [step], by simp, ?_, rfl⟩
      rw [List.mem_append, List.mem_singleton, not_or]
      exact ⟨hlast, hstep.symm⟩

/-! ## What the assembler holds -/

theorem assemble_concat (steps : List (Step α)) (step : Step α) :
    assemble (steps ++ [step]) = (assemble steps).perform step := by
  rw [assemble, List.foldl_append]
  rfl

/-- It has the lines, sorted labels, and for each of these the place of its last definition. -/
structure Reflects (a : Assembler α) (steps : List (Step α)) : Prop where
  lines : a.lines.reverse = written steps
  sorted : a.labels.Sorted
  labels : ∀ name position, a.labels.find? name = some position ↔ Marks steps name position

theorem Reflects.size {a : Assembler α} (h : a.Reflects steps) : a.size = (written steps).length := by
  rw [Assembler.size, ← List.length_reverse, h.lines]

theorem Reflects.perform {a : Assembler α} (h : a.Reflects steps) (step : Step α) :
    (a.perform step).Reflects (steps ++ [step]) := by
  cases step with
  | line l =>
    refine ⟨?_, h.sorted, fun name position => ?_⟩
    · rw [written_append, ← h.lines]
      exact List.reverse_cons
    · rw [marks_concat]
      exact (h.labels name position).trans ⟨fun h => .inr ⟨nofun, h⟩, fun h => (h.resolve_left nofun).2⟩
  | label defined =>
    refine ⟨?_, h.sorted.insert, fun name position => ?_⟩
    · rw [written_append, ← h.lines]
      exact (List.append_nil _).symm
    · show Dict.find? (a.labels.insert defined a.size) name = some position ↔ _
      rw [Dict.find?_insert, marks_concat, Step.label.injEq, h.size]
      split
      · rename_i hname
        simp [hname, eq_comm]
      · rename_i hname
        simp [Ne.symm hname, h.labels]

theorem assemble_reflects (steps : List (Step α)) : (assemble steps).Reflects steps := by
  induction steps using List.reverseRecOn with
  | nil =>
    refine ⟨rfl, List.Pairwise.nil, fun name position => ⟨nofun, ?_⟩⟩
    rintro ⟨before, after, h, _⟩
    simp at h
  | append_singleton steps step ih =>
    rw [assemble_concat]
    exact ih.perform step

/-! ## Finished bodies -/

section
variable {a : Assembler α} (h : a.Reflects steps)
include h

theorem Reflects.resolve_eq_ok {t : UInt64} :
    a.resolve name = .ok t ↔ ∃ position, Marks steps name position ∧ t = UInt64.ofNat position := by
  unfold resolve
  cases hfound : a.labels.find? name with
  | none =>
    refine ⟨nofun, ?_⟩
    rintro ⟨position, hmarks, _⟩
    rw [(h.labels name position).mpr hmarks] at hfound
    cases hfound
  | some found =>
    constructor
    · rintro ⟨⟩
      exact ⟨found, (h.labels name found).mp hfound, rfl⟩
    · rintro ⟨position, hmarks, rfl⟩
      rw [(h.labels name position).mpr hmarks] at hfound
      cases hfound
      rfl

theorem Reflects.branch_eq_ok {branch : UInt64 → Instruction α} {i : Instruction α} :
    (a.resolve name).map branch = .ok i ↔ ∃ position, Marks steps name position ∧ i = branch (UInt64.ofNat position) := by
  constructor
  · intro hi
    cases hfound : a.resolve name with
    | error e =>
      rw [hfound] at hi
      cases hi
    | ok t =>
      obtain ⟨position, hmarks, rfl⟩ := h.resolve_eq_ok.mp hfound
      rw [hfound] at hi
      cases hi
      exact ⟨position, hmarks, rfl⟩
  · rintro ⟨position, hmarks, rfl⟩
    rw [h.resolve_eq_ok.mpr ⟨position, hmarks, rfl⟩]
    rfl

theorem Reflects.resolveLine_eq_ok {l : Line α} {i : Instruction α} : a.resolveLine l = .ok i ↔ Resolves steps l i := by
  cases l with
  | emit j =>
    refine ⟨fun hi => ?_, fun hi => ?_⟩
    · cases hi
      exact .emit i
    · cases hi
      rfl
  | jump name =>
    refine h.branch_eq_ok.trans ⟨fun ⟨position, hmarks, hi⟩ => hi ▸ .jump hmarks, fun hi => ?_⟩
    cases hi with
    | jump hmarks => exact ⟨_, hmarks, rfl⟩
  | jumpIfTrue name =>
    refine h.branch_eq_ok.trans ⟨fun ⟨position, hmarks, hi⟩ => hi ▸ .jumpIfTrue hmarks, fun hi => ?_⟩
    cases hi with
    | jumpIfTrue hmarks => exact ⟨_, hmarks, rfl⟩
  | jumpIfFalse name =>
    refine h.branch_eq_ok.trans ⟨fun ⟨position, hmarks, hi⟩ => hi ▸ .jumpIfFalse hmarks, fun hi => ?_⟩
    cases hi with
    | jumpIfFalse hmarks => exact ⟨_, hmarks, rfl⟩

/-- Lines are resolved where each label stands in front of one. -/
theorem Reflects.finish_eq_mapM
    (hstand : ∀ name position, Marks steps name position → position < (written steps).length) :
    a.finish = (written steps).mapM a.resolveLine := by
  have hnone : List.find? (fun l => a.size ≤ l.2) a.labels = none := by
    refine List.find?_eq_none.mpr fun l hl hle => ?_
    have hmarks := (h.labels l.1 l.2).mp (h.sorted.find?_eq_some_iff.mpr hl)
    have hlt := hstand l.1 l.2 hmarks
    rw [← h.size] at hlt
    exact Nat.not_le_of_lt hlt (of_decide_eq_true hle)
  rw [finish, hnone, h.lines]

theorem Reflects.stands_of_finish {body : List (Instruction α)} (hbody : a.finish = .ok body)
    (hmarks : Marks steps name position) : position < (written steps).length := by
  have hl := h.sorted.find?_eq_some_iff.mp ((h.labels name position).mpr hmarks)
  unfold finish at hbody
  split at hbody
  · cases hbody
  · rename_i hnone
    have hle := List.find?_eq_none.mp hnone _ hl
    rw [← h.size]
    simpa using hle

end

/-! ## Lines and their instructions -/

namespace Resolves
variable {l : Line α} {i : Instruction α}

theorem target?_eq (h : Resolves steps l i) (hl : l.label? = some name) :
    ∃ position, Marks steps name position ∧ i.target? = some (UInt64.ofNat position) := by
  cases h with
  | emit => cases hl
  | jump hmarks | jumpIfTrue hmarks | jumpIfFalse hmarks =>
    cases hl
    exact ⟨_, hmarks, rfl⟩

theorem eq_emit (h : Resolves steps l i) (hl : l.label? = none) : l = .emit i := by
  cases h with
  | emit => rfl
  | jump | jumpIfTrue | jumpIfFalse => cases hl

/-- A branch stays below any number of lines that all labels stand below. -/
theorem target_lt {size : Nat} (hstand : ∀ name position, Marks steps name position → position < size)
    (h : Resolves steps l i) (hl : l.label?.isSome = true) {t : UInt64} (ht : i.target? = some t) : t.toNat < size := by
  obtain ⟨name, hl⟩ := Option.isSome_iff_exists.mp hl
  obtain ⟨position, hmarks, htarget⟩ := h.target?_eq hl
  cases ht.symm.trans htarget
  rw [UInt64.toNat_ofNat']
  exact Nat.lt_of_le_of_lt (Nat.mod_le _ _) (hstand name position hmarks)

end Resolves

theorem exists_resolves_iff {l : Line α} : (∃ i, Resolves steps l i) ↔ ∀ name ∈ l.label?, .label name ∈ steps := by
  constructor
  · rintro ⟨i, hi⟩ name hl
    obtain ⟨position, hmarks, _⟩ := hi.target?_eq hl
    exact exists_marks_iff.mp ⟨position, hmarks⟩
  · intro h
    cases l with
    | emit i => exact ⟨i, .emit i⟩
    | jump name =>
      obtain ⟨_, hmarks⟩ := exists_marks_iff.mpr (h name rfl)
      exact ⟨_, .jump hmarks⟩
    | jumpIfTrue name =>
      obtain ⟨_, hmarks⟩ := exists_marks_iff.mpr (h name rfl)
      exact ⟨_, .jumpIfTrue hmarks⟩
    | jumpIfFalse name =>
      obtain ⟨_, hmarks⟩ := exists_marks_iff.mpr (h name rfl)
      exact ⟨_, .jumpIfFalse hmarks⟩

theorem Reflects.resolves_of_finish {a : Assembler α} (h : a.Reflects steps) {body : List (Instruction α)}
    (hbody : a.finish = .ok body) : List.Forall₂ (Resolves steps) (written steps) body := by
  rw [h.finish_eq_mapM fun _ _ => h.stands_of_finish hbody] at hbody
  exact (Deployment.forall₂_mapM hbody).imp fun _ _ => h.resolveLine_eq_ok.mp

/-- A body is finished if and only if each label stands in front of a line at last and each branch names a label. It has
the instructions of its lines, and all branches to labels stay inside. -/
theorem finish_resolves (steps : List (Step α)) :
    ((∃ body, (assemble steps).finish = .ok body) ↔
      (∀ name position, Marks steps name position → position < (written steps).length) ∧
        ∀ l ∈ written steps, ∀ name ∈ l.label?, .label name ∈ steps) ∧
    ∀ body, (assemble steps).finish = .ok body →
      List.Forall₂ (Resolves steps) (written steps) body ∧
      List.Forall₂ (fun l i => l.label?.isSome = true → ∀ t, i.target? = some t → t.toNat < body.length)
        (written steps) body ∧
      ((∀ i, .emit i ∈ written steps → i.target? = none) →
        ∀ (d : MethodDecl α) (type : String), d.body = body → d.branchDefect? type = none) ∧
      (body.length ≤ UInt64.size → ∀ name position, Marks steps name position →
        (UInt64.ofNat position).toNat = position) := by
  have h := assemble_reflects steps
  constructor
  · constructor
    · rintro ⟨body, hbody⟩
      refine ⟨fun _ _ => h.stands_of_finish hbody, fun l hl => exists_resolves_iff.mp ?_⟩
      obtain ⟨i, _, hi⟩ := Forall₂.exists_of_mem (h.resolves_of_finish hbody) hl
      exact ⟨i, hi⟩
    · rintro ⟨hstand, hnamed⟩
      rw [h.finish_eq_mapM hstand]
      refine Deployment.mapM_succeeds fun l hl => ?_
      obtain ⟨i, hi⟩ := exists_resolves_iff.mpr (hnamed l hl)
      exact ⟨i, h.resolveLine_eq_ok.mpr hi⟩
  · intro body hbody
    have hresolves := h.resolves_of_finish hbody
    have hstand : ∀ name position, Marks steps name position → position < body.length := by
      rw [← hresolves.length_eq]
      exact fun _ _ => h.stands_of_finish hbody
    refine ⟨hresolves, hresolves.imp fun l i hi => ?_, ?_, ?_⟩
    · exact fun hl t ht => hi.target_lt hstand hl ht
    · rintro hplain d type rfl
      rw [MethodDecl.branchDefect?_eq_none]
      intro i hi t ht
      obtain ⟨l, hl, hli⟩ := Forall₂.exists_of_mem hresolves.flip hi
      cases hlabel : l.label? with
      | none =>
        rw [hplain i (hli.eq_emit hlabel ▸ hl)] at ht
        cases ht
      | some name => exact hli.target_lt hstand (hlabel ▸ rfl) ht
    · intro hsize name position hmarks
      rw [UInt64.toNat_ofNat']
      exact Nat.mod_eq_of_lt (Nat.lt_of_lt_of_le (hstand name position hmarks) hsize)

namespace loop

/-- A label that is defined again, one that is defined later, and one that stands at the same place and is not used. -/
def source : List (Step Datum) :=
  [.label "top", .line (.emit (.loadArg 0)), .line (.jumpIfTrue "end"), .label "top", .line (.jump "top"), .label "end",
    .label "out", .line (.emit .ret)]

end loop

open loop in
theorem loop_resolved : (assemble source).finish = .ok [.loadArg 0, .jumpIfTrue 3, .jump 2, .ret] ∧
    List.Forall₂ (Resolves source) (written source) [.loadArg 0, .jumpIfTrue 3, .jump 2, .ret] ∧
    ∀ (d : MethodDecl Datum) (type : String), d.body = [.loadArg 0, .jumpIfTrue 3, .jump 2, .ret] →
      d.branchDefect? type = none := by
  have hfinish : (assemble source).finish = .ok [.loadArg 0, .jumpIfTrue 3, .jump 2, .ret] := by rfl
  obtain ⟨hresolves, _, hvalid, _⟩ := (finish_resolves source).2 _ hfinish
  refine ⟨hfinish, hresolves, hvalid fun i hi => ?_⟩
  simp only [source, written, List.mem_cons, List.not_mem_nil, Line.emit.injEq, reduceCtorEq, or_false, false_or] at hi
  obtain rfl | rfl := hi <;> rfl

end Assembler

end MobileCode
