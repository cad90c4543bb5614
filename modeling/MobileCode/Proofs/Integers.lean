import Mathlib.Data.Int.Bitwise
import Mathlib.Data.Nat.Bitwise
import MobileCode.Proofs.Calls

/-! # Integers

What the machine computes with integers is what comes out without a bound, reduced to the width in which the operands
are taken. A program sees an exception where it divides by zero and where the least integer is divided by minus one.
No other operation on integers fails.
-/
namespace MobileCode

/-! ## Words -/

namespace BitVec
variable {w : Nat} {x y : BitVec w}

theorem toInt_of_msb_false (h : x.msb = false) : x.toInt = Int.ofNat x.toNat := by
  rw [BitVec.toInt_eq_msb_cond, if_neg (by simp [h])]
  rfl

/-- A word with its highest bit set is what its complement is short of minus one. -/
theorem toInt_of_msb_true (h : x.msb = true) : x.toInt = Int.negSucc (~~~x).toNat := by
  have hlt := x.isLt
  rw [BitVec.toInt_eq_msb_cond, if_pos h, BitVec.toNat_not, Int.negSucc_eq]
  omega

theorem ldiff_toNat (x y : BitVec w) : Nat.ldiff x.toNat y.toNat = (x &&& ~~~y).toNat := by
  refine Nat.eq_of_testBit_eq fun i => ?_
  rw [Nat.testBit_ldiff, BitVec.testBit_toNat, BitVec.testBit_toNat, BitVec.testBit_toNat]
  by_cases hi : i < w
  · simp [hi]
  · simp [BitVec.getLsbD_of_ge _ _ (Nat.not_lt.mp hi)]

/-- The common bits of words are those of their integers, which have bits without end. -/
theorem toInt_and_eq_land (x y : BitVec w) : (x &&& y).toInt = Int.land x.toInt y.toInt := by
  have hmsb : (x &&& y).msb = (x.msb && y.msb) := BitVec.msb_and
  cases hx : x.msb <;> cases hy : y.msb <;> rw [hx, hy] at hmsb
  · rw [toInt_of_msb_false hmsb, toInt_of_msb_false hx, toInt_of_msb_false hy, BitVec.toNat_and]
    rfl
  · rw [toInt_of_msb_false hmsb, toInt_of_msb_false hx, toInt_of_msb_true hy, Int.land, ldiff_toNat, BitVec.not_not]
    rfl
  · rw [toInt_of_msb_false hmsb, toInt_of_msb_true hx, toInt_of_msb_false hy, Int.land, ldiff_toNat, BitVec.not_not,
      BitVec.and_comm]
    rfl
  · rw [toInt_of_msb_true hmsb, toInt_of_msb_true hx, toInt_of_msb_true hy, BitVec.not_and, BitVec.toNat_or]
    rfl

theorem toInt_or_eq_lor (x y : BitVec w) : (x ||| y).toInt = Int.lor x.toInt y.toInt := by
  have hmsb : (x ||| y).msb = (x.msb || y.msb) := BitVec.msb_or
  cases hx : x.msb <;> cases hy : y.msb <;> rw [hx, hy] at hmsb
  · rw [toInt_of_msb_false hmsb, toInt_of_msb_false hx, toInt_of_msb_false hy, BitVec.toNat_or]
    rfl
  · rw [toInt_of_msb_true hmsb, toInt_of_msb_false hx, toInt_of_msb_true hy, Int.lor, ldiff_toNat, BitVec.not_or,
      BitVec.and_comm]
  · rw [toInt_of_msb_true hmsb, toInt_of_msb_true hx, toInt_of_msb_false hy, Int.lor, ldiff_toNat, BitVec.not_or]
  · rw [toInt_of_msb_true hmsb, toInt_of_msb_true hx, toInt_of_msb_true hy, BitVec.not_or, BitVec.toNat_and]
    rfl

end BitVec

/-! ## Operations without a bound -/

inductive Width
  | small
  | large
  deriving DecidableEq

namespace Width

/-- The number of integers that have the width. -/
def size : Width → Nat
  | small => Int32.size
  | large => Int64.size

def least : Width → Int
  | small => Int32.minValue.toInt
  | large => Int64.minValue.toInt

/-- The width in which two operands are taken. -/
def join : Width → Width → Width
  | small, small => small
  | _, _ => large

end Width

/-- A value that is an integer. -/
inductive Integer
  | int32 (n : Int32)
  | int64 (n : Int64)

namespace Integer

def value : Integer → Value
  | int32 n => .int32 n
  | int64 n => .int64 n

def width : Integer → Width
  | int32 _ => .small
  | int64 _ => .large

def toInt : Integer → Int
  | int32 n => n.toInt
  | int64 n => n.toInt

/-- The integer in the larger width. -/
def widen : Integer → Int64
  | int32 n => n.toInt64
  | int64 n => n

theorem toInt_widen (a : Integer) : a.widen.toInt = a.toInt := by
  cases a with
  | int32 n => exact n.toInt_toInt64
  | int64 n => rfl

end Integer

namespace BinaryOp

/-- The result without a bound. Quotients go toward zero, and integers have bits without end. -/
def exact (op : BinaryOp) (a b : Int) : Int :=
  match op with
  | add => a + b
  | sub => a - b
  | mul => a * b
  | div => a.tdiv b
  | rem => a.tmod b
  | and => a.land b
  | or => a.lor b

def Divides (op : BinaryOp) : Prop := op = div ∨ op = rem

/-- Why two integers have no quotient of some width, and so no remainder. -/
inductive Faults (op : BinaryOp) (w : Width) (a b : Int) : DivisionFault → Prop
  | byZero : op.Divides → b = 0 → Faults op w a b .byZero
  | overflow : op.Divides → a = w.least → b = -1 → Faults op w a b .overflow

theorem Faults.divides {op : BinaryOp} {w : Width} {a b : Int} {fault : DivisionFault} (h : op.Faults w a b fault) :
    op.Divides := by
  cases h <;> assumption

theorem Faults.eq {op : BinaryOp} {w : Width} {a b : Int} {fault other : DivisionFault} (h : op.Faults w a b fault)
    (h' : op.Faults w a b other) : fault = other := by
  have hne : (0 : Int) ≠ -1 := by decide
  cases h with
  | byZero _ hb =>
    cases h' with
    | byZero => rfl
    | overflow _ _ hb' => exact absurd (hb.symm.trans hb') hne
  | overflow _ _ hb =>
    cases h' with
    | byZero _ hb' => exact absurd (hb'.symm.trans hb) hne
    | overflow => rfl

/-- The operation on words of any width. -/
def onWords {w : Nat} (op : BinaryOp) (x y : BitVec w) : BitVec w :=
  match op with
  | add => x + y
  | sub => x - y
  | mul => x * y
  | div => x.sdiv y
  | rem => x.srem y
  | and => x &&& y
  | or => x ||| y

/-- Words hold the exact result as far as they can. -/
theorem toInt_onWords {w : Nat} (op : BinaryOp) (x y : BitVec w) :
    (op.onWords x y).toInt = (op.exact x.toInt y.toInt).bmod (2 ^ w) := by
  cases op with
  | add => exact BitVec.toInt_add x y
  | sub => exact BitVec.toInt_sub
  | mul => exact BitVec.toInt_mul x y
  | div => exact BitVec.toInt_sdiv x y
  | rem => rw [onWords, exact, ← BitVec.toInt_srem, BitVec.toInt_bmod_cancel]
  | and => rw [onWords, exact, ← BitVec.toInt_and_eq_land, BitVec.toInt_bmod_cancel]
  | or => rw [onWords, exact, ← BitVec.toInt_or_eq_lor, BitVec.toInt_bmod_cancel]

/-- A division checks for what makes it fail, and nothing else fails. -/
theorem faults_cases {op : BinaryOp} {γ : Type} {result : Except DivisionFault γ} {c : γ} (w : Width) (a b : Int)
    (hdivides : op.Divides → result =
      if b = 0 then .error .byZero else if a = w.least ∧ b = -1 then .error .overflow else .ok c)
    (hother : ¬op.Divides → result = .ok c) :
    (∃ fault, op.Faults w a b fault ∧ result = .error fault) ∨
      (∀ fault, ¬op.Faults w a b fault) ∧ result = .ok c := by
  by_cases h : op.Divides
  · rw [hdivides h]
    by_cases hzero : b = 0
    · exact .inl ⟨.byZero, .byZero h hzero, if_pos hzero⟩
    by_cases hleast : a = w.least ∧ b = -1
    · exact .inl ⟨.overflow, .overflow h hleast.1 hleast.2, by rw [if_neg hzero, if_pos hleast]⟩
    · refine .inr ⟨fun fault hfault => ?_, by rw [if_neg hzero, if_neg hleast]⟩
      cases hfault with
      | byZero _ hb => exact hzero hb
      | overflow _ ha hb => exact hleast ⟨ha, hb⟩
  · exact .inr ⟨fun fault hfault => h hfault.divides, hother h⟩

variable (op : BinaryOp)

theorem onInt32_cases (a b : Int32) :
    (∃ fault, op.Faults .small a.toInt b.toInt fault ∧ op.onInt32 a b = .error fault) ∨
      (∀ fault, ¬op.Faults .small a.toInt b.toInt fault) ∧
        op.onInt32 a b = .ok ⟨⟨op.onWords a.toBitVec b.toBitVec⟩⟩ := by
  refine faults_cases .small a.toInt b.toInt (fun h => ?_) fun h => ?_
  · have hzero : b.toInt = 0 ↔ b = 0 := Int32.toInt_inj (y := 0)
    have hminus : b.toInt = -1 ↔ b = -1 := Int32.toInt_inj (y := -1)
    have hleast : a.toInt = Width.small.least ↔ a = Int32.minValue := Int32.toInt_inj
    simp only [hzero, hminus, hleast]
    obtain rfl | rfl := h <;> rfl
  · cases op with
    | div => exact absurd (.inl rfl) h
    | rem => exact absurd (.inr rfl) h
    | _ => rfl

theorem onInt64_cases (a b : Int64) :
    (∃ fault, op.Faults .large a.toInt b.toInt fault ∧ op.onInt64 a b = .error fault) ∨
      (∀ fault, ¬op.Faults .large a.toInt b.toInt fault) ∧
        op.onInt64 a b = .ok ⟨⟨op.onWords a.toBitVec b.toBitVec⟩⟩ := by
  refine faults_cases .large a.toInt b.toInt (fun h => ?_) fun h => ?_
  · have hzero : b.toInt = 0 ↔ b = 0 := Int64.toInt_inj (y := 0)
    have hminus : b.toInt = -1 ↔ b = -1 := Int64.toInt_inj (y := -1)
    have hleast : a.toInt = Width.large.least ↔ a = Int64.minValue := Int64.toInt_inj
    simp only [hzero, hminus, hleast]
    obtain rfl | rfl := h <;> rfl
  · cases op with
    | div => exact absurd (.inl rfl) h
    | rem => exact absurd (.inr rfl) h
    | _ => rfl

/-- An integer of the given width that holds the exact result as far as it can. -/
structure Holds (w : Width) (a b : Int) (c : Integer) : Prop where
  width : c.width = w
  toInt : c.toInt = (op.exact a b).bmod w.size

variable {op}

theorem onNumbers_small (a b : Int32) :
    (∃ fault, op.Faults .small a.toInt b.toInt fault ∧ op.onNumbers (.int32 a) (.int32 b) = .error (.fault fault)) ∨
      (∀ fault, ¬op.Faults .small a.toInt b.toInt fault) ∧
        ∃ c, op.Holds .small a.toInt b.toInt c ∧ op.onNumbers (.int32 a) (.int32 b) = .ok c.value := by
  rw [onNumbers]
  obtain ⟨fault, hfault, hresult⟩ | ⟨hnone, hresult⟩ := onInt32_cases op a b
  · exact .inl ⟨fault, hfault, by rw [hresult]; rfl⟩
  · exact .inr ⟨hnone, .int32 ⟨⟨op.onWords a.toBitVec b.toBitVec⟩⟩, ⟨rfl, toInt_onWords op _ _⟩, by rw [hresult]; rfl⟩

theorem onNumbers_large {x y : Value} {a b : Int64} (hx : x.asInt64? = some a) (hy : y.asInt64? = some b)
    (hsmall : ∀ m n, ¬(x = .int32 m ∧ y = .int32 n)) :
    (∃ fault, op.Faults .large a.toInt b.toInt fault ∧ op.onNumbers x y = .error (.fault fault)) ∨
      (∀ fault, ¬op.Faults .large a.toInt b.toInt fault) ∧
        ∃ c, op.Holds .large a.toInt b.toInt c ∧ op.onNumbers x y = .ok c.value := by
  have hwide : op.onNumbers x y = ((op.onInt64 a b).map .int64).mapError .fault := by
    unfold onNumbers
    split
    · exact absurd ⟨rfl, rfl⟩ (hsmall _ _)
    · rw [hx, hy]
  rw [hwide]
  obtain ⟨fault, hfault, hresult⟩ | ⟨hnone, hresult⟩ := onInt64_cases op a b
  · exact .inl ⟨fault, hfault, by rw [hresult]; rfl⟩
  · exact .inr ⟨hnone, .int64 ⟨⟨op.onWords a.toBitVec b.toBitVec⟩⟩, ⟨rfl, toInt_onWords op _ _⟩, by rw [hresult]; rfl⟩

/-- On integers an operation means arithmetic. -/
theorem apply_integers (heap : Heap) (a b : Integer) :
    (∃ fault, op.Faults (a.width.join b.width) a.toInt b.toInt fault ∧
      op.apply heap a.value b.value = .error (.fault fault)) ∨
      (∀ fault, ¬op.Faults (a.width.join b.width) a.toInt b.toInt fault) ∧
        ∃ c, op.Holds (a.width.join b.width) a.toInt b.toInt c ∧ op.apply heap a.value b.value = .ok c.value := by
  have hnumbers : op.apply heap a.value b.value = op.onNumbers a.value b.value := by
    cases a <;> cases b <;> cases op <;> rfl
  rw [hnumbers]
  cases a with
  | int32 a =>
    cases b with
    | int32 b => exact onNumbers_small a b
    | int64 b =>
      rw [← Integer.toInt_widen (.int32 a)]
      exact onNumbers_large rfl rfl fun m n h => nomatch h.2
  | int64 a =>
    rw [← Integer.toInt_widen b]
    exact onNumbers_large rfl (by cases b <;> rfl) fun m n h => nomatch h.1

end BinaryOp

/-! ## Instructions -/

namespace Machine
variable {ω : Type}

theorem step_binary (env : Environment ω) (run : Runner ω) {f : Frame} (below : List Frame) (s : State ω) {op : BinaryOp}
    {x y : Value} {rest : List Value} (hi : f.method.decl.body[f.position]? = some (.binary op))
    (hstack : f.stack = y :: x :: rest) : step env run f below s =
      some (match op.apply s.domain.heap x y with
        | .ok v => .ok (.next { f with position := f.position + 1, stack := v :: rest } below)
        | .error (.fault d) => .error (f.exception d.message)
        | .error .mismatch => .error (mismatch s.domain.heap op.name x y), s) := by
  rw [step_eq run below hi]
  simp only [execute, Frame.pop, hstack]
  show (Run.ofExcept (binary s.domain.heap _ op x y) >>= fun v => _ : Run (State ω) Transition) s = _
  unfold binary
  rcases op.apply s.domain.heap x y with (_ | _) | _ <;> rfl

/-- An operation on integers fails where it would have to divide in vain, with an exception that the program sees, and
else puts an integer of the right width in the place of its operands. -/
theorem step_integers (env : Environment ω) (run : Runner ω) {f : Frame} (below : List Frame) (s : State ω)
    {op : BinaryOp} {a b : Integer} {rest : List Value} (hi : f.method.decl.body[f.position]? = some (.binary op))
    (hstack : f.stack = b.value :: a.value :: rest) :
    (∀ e t, step env run f below s = some (.error e, t) ↔ t = s ∧
      ∃ fault, op.Faults (a.width.join b.width) a.toInt b.toInt fault ∧
        e = .thrown f.method.owner.fullName f.method.decl.name fault.message) ∧
    ((∀ fault, ¬op.Faults (a.width.join b.width) a.toInt b.toInt fault) → ∃ c : Integer,
      c.width = a.width.join b.width ∧ c.toInt = (op.exact a.toInt b.toInt).bmod (a.width.join b.width).size ∧
      step env run f below s =
        some (.ok (.next { f with position := f.position + 1, stack := c.value :: rest } below), s)) := by
  rw [step_binary env run below s hi hstack]
  obtain ⟨fault, hfault, hresult⟩ | ⟨hnone, c, hc, hresult⟩ := BinaryOp.apply_integers s.domain.heap a b
  · rw [hresult]
    refine ⟨fun e t => ⟨?_, ?_⟩, fun hnone => absurd hfault (hnone fault)⟩
    · rintro ⟨⟩
      exact ⟨rfl, fault, hfault, rfl⟩
    · rintro ⟨rfl, other, hother, rfl⟩
      rw [hfault.eq hother]
      rfl
  · rw [hresult]
    refine ⟨fun e t => ⟨nofun, ?_⟩, fun _ => ⟨c, hc.width, hc.toInt, rfl⟩⟩
    rintro ⟨_, fault, hfault, _⟩
    exact absurd hfault (hnone fault)

end Machine

namespace quotient

def host : Host Unit := { thread := none, natives := Native.standard none }
def start : State Unit := ⟨{ hostName := "client" }, ()⟩

/-- A frame that is about to divide. -/
def frame (a b : Integer) : Frame where
  method := ⟨default, { space := "Util", name := "Math" }, { name := "Divide", body := [.binary .div] }⟩
  receiver := none
  args := []
  locals := []
  stack := [b.value, a.value]

end quotient

open Machine quotient in
/-- The least integer of the smaller width has an opposite in the larger one. -/
theorem quotient_of_least :
    step { host } (fun _ => Run.outOfBudget) (frame (.int32 Int32.minValue) (.int32 (-1))) [] start =
      some (.error (.thrown "Util.Math" "Divide" "Arithmetic operation resulted in an overflow"), start) ∧
    ∃ c : Integer, c.width = .large ∧ c.toInt = 2147483648 ∧
      step { host } (fun _ => Run.outOfBudget) (frame (.int32 Int32.minValue) (.int64 (-1))) [] start =
        some (.ok (.next { frame (.int32 0) (.int32 0) with position := 1, stack := [c.value] } []), start) := by
  have hdivides (a b : Integer) : (frame a b).method.decl.body[(frame a b).position]? = some (.binary .div) := rfl
  have hoperands (a b : Integer) : (frame a b).stack = b.value :: a.value :: [] := rfl
  have hsmall := step_integers { host } (fun _ => Run.outOfBudget) [] start (hdivides _ _)
    (hoperands (.int32 Int32.minValue) (.int32 (-1)))
  have hlarge := step_integers { host } (fun _ => Run.outOfBudget) [] start (hdivides _ _)
    (hoperands (.int32 Int32.minValue) (.int64 (-1)))
  refine ⟨(hsmall.1 _ _).mpr ⟨rfl, .overflow, .overflow (.inl rfl) rfl rfl, rfl⟩, ?_⟩
  obtain ⟨c, hwidth, hexact, hstep⟩ := hlarge.2 fun fault hfault => by
    cases hfault with
    | byZero _ hb => exact absurd hb (by decide)
    | overflow _ ha _ => exact absurd ha (by decide)
  exact ⟨c, hwidth, hexact, hstep⟩

end MobileCode
