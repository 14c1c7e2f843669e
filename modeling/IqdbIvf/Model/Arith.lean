import Mathlib.Algebra.Group.Nat.Defs
import Mathlib.Data.Nat.Notation

/-!
# The arithmetic and the panics of the crate's language

The crate computes with `f32` and `f64`, and indexes slices. Neither arithmetic is fixed here:
`Arith` lists the operations that the source uses and the one law of the standard library that
the search relies on, that `f32::total_cmp` is a total order. The checked operations return a
`Panic` where the compiled program would panic, so that the absence of panics is a theorem about
the model and not a convention of it.
-/

namespace IqdbIvf

/-- The `f64` operations that the crate uses. -/
class Double (D : Type) extends Zero D, One D, Add D, Sub D, Mul D, Div D where
  /-- `<=` on `f64`. -/
  le : D → D → Bool
  /-- The cast of an integer to `f64`. -/
  ofInteger : ℕ → D

/-- The `f32` operations that the crate uses, with the casts to and from `f64`. -/
class Arith (F32 : Type) extends Zero F32, One F32, Neg F32, Add F32, Sub F32, Mul F32,
    Div F32 where
  /-- The type of `f64` values. -/
  F64 : Type
  [double : Double F64]
  /-- `<` on `f32`. -/
  lt : F32 → F32 → Bool
  /-- `f32::sqrt`. -/
  sqrt : F32 → F32
  /-- `f32::max`. -/
  max : F32 → F32 → F32
  /-- `f32::total_cmp`. -/
  totalCmp : F32 → F32 → Ordering
  /-- `f32::total_cmp` is a total order. -/
  totalCmp_trans : Std.TransCmp totalCmp
  /-- The constant `1e-4`. -/
  tenThousandth : F32
  /-- The cast of an `f32` to `f64`. -/
  widen : F32 → F64
  /-- The cast of an `f64` to `f32`. -/
  narrow : F64 → F32

attribute [reducible, instance] Arith.double
attribute [instance] Arith.totalCmp_trans

/-- `usize::MAX`, on a 64-bit target. -/
def usizeMax : ℕ := 2^64 - 1

/-- `usize::saturating_add`. -/
def saturatingAdd (a b : ℕ) : ℕ := min (a + b) usizeMax

/-- `usize::saturating_mul`. -/
def saturatingMul (a b : ℕ) : ℕ := min (a * b) usizeMax

/-- `u64::checked_add(1)`. -/
def checkedSucc (n : ℕ) : Option ℕ := if n + 1 < 2^64 then some (n + 1) else none

/-- A slice argument: its length is a `usize`. -/
abbrev Slice (α : Type) := { xs : List α // xs.length < 2^64 }

/-- The ways in which the crate's own code could panic. `diverge` stands for a loop that does not
end. -/
inductive Panic where
  | indexOutOfBounds
  | subtractOverflow
  | remainderByZero
  | debugAssert
  | clampBounds
  | diverge
  deriving DecidableEq, Repr

/-- A computation of the crate that does not return a `Result`. -/
abbrev Checked := Except Panic

variable {α : Type}

/-- `xs[i]`. -/
def index (xs : List α) (i : ℕ) : Checked α :=
  match xs[i]? with
  | some x => .ok x
  | none => .error .indexOutOfBounds

/-- `xs[i] = x`. -/
def assign (xs : List α) (i : ℕ) (x : α) : Checked (List α) :=
  if i < xs.length then .ok (xs.set i x) else .error .indexOutOfBounds

/-- `xs.swap(i, j)`. -/
def swap (xs : List α) (i j : ℕ) : Checked (List α) := do
  let a ← index xs i
  let b ← index xs j
  assign (← assign xs i b) j a

/-- `a - b` on `usize`. -/
def subtract (a b : ℕ) : Checked ℕ := if b ≤ a then .ok (a - b) else .error .subtractOverflow

/-- `a % b` on `u64`. -/
def remainder (a b : UInt64) : Checked UInt64 :=
  if b = 0 then .error .remainderByZero else .ok (a % b)

/-- `n.clamp(lo, hi)`. -/
def clamp (n lo hi : ℕ) : Checked ℕ :=
  if lo ≤ hi then .ok (min (max n lo) hi) else .error .clampBounds

/-- `debug_assert!(p)`. -/
def debugAssert (p : Bool) : Checked Unit := if p then .ok () else .error .debugAssert

/-- An assertion that holds. -/
@[simp] theorem debugAssert_true : debugAssert true = .ok () := rfl

/-- An addition that does not saturate. -/
theorem saturatingAdd_of_le {a b : ℕ} (h : a + b ≤ usizeMax) : saturatingAdd a b = a + b :=
  Nat.min_eq_left h

/-- Indexing a slice at a position that holds `x`. -/
theorem index_eq_ok {xs : List α} {i : ℕ} {x : α} (h : xs[i]? = some x) : index xs i = .ok x := by
  rw [index, h]

/-- Indexing a slice within its bounds. -/
theorem index_of_lt {xs : List α} {i : ℕ} (h : i < xs.length) : index xs i = .ok xs[i] :=
  index_eq_ok (List.getElem?_eq_getElem h)

/-- Assigning to a slice within its bounds. -/
theorem assign_of_lt {xs : List α} {i : ℕ} (x : α) (h : i < xs.length) :
    assign xs i x = .ok (xs.set i x) := if_pos h

/-- A subtraction that does not underflow. -/
theorem subtract_of_le {a b : ℕ} (h : b ≤ a) : subtract a b = .ok (a - b) := if_pos h

/-- A remainder by a divisor that is not zero. -/
theorem remainder_of_ne_zero (a : UInt64) {b : UInt64} (h : b ≠ 0) :
    remainder a b = .ok (a % b) := if_neg h

/-- A clamp with ordered bounds. -/
theorem clamp_of_le (n : ℕ) {lo hi : ℕ} (h : lo ≤ hi) : clamp n lo hi = .ok (min (max n lo) hi) :=
  if_pos h

/-- A debug assertion that holds. -/
theorem debugAssert_of {p : Bool} (h : p = true) : debugAssert p = .ok () := by
  rw [h, debugAssert_true]

end IqdbIvf
