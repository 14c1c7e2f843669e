import Mathlib.Algebra.Group.Nat.Defs
import IqdbIvf.Lib.Ranking

/-!
# Single-precision numbers as bit patterns

A 32-bit pattern with a sign, a magnitude, the negation that flips the sign bit, and the total order
of IEEE 754, computed as a standard library does: the magnitude bits of a negative pattern are
inverted, and the results are compared as signed integers. The order puts the NaNs with a sign
before all numbers and those without one behind them (`leading_of_isLE`, `trailing_of_isLE`).
-/

/-- A single-precision number, by its bit pattern. -/
structure Binary32 where
  /-- The pattern. -/
  bits : BitVec 32
  deriving DecidableEq, Repr

namespace Binary32

/-- The sign bit. -/
def sign (x : Binary32) : Bool := x.bits.msb

/-- The bits below the sign. -/
def magnitude (x : Binary32) : ℕ := x.bits.toNat % 2^31

/-- The exponent bits are all set, and some bit behind them is. -/
def IsNaN (x : Binary32) : Prop := 0x7F800000 < x.magnitude

/-- Being no number is decidable. -/
instance : DecidablePred IsNaN := fun x => inferInstanceAs (Decidable (0x7F800000 < x.magnitude))

/-- The pattern with the sign bit flipped. -/
def flip (x : Binary32) : Binary32 := ⟨x.bits ^^^ 0x80000000⟩

/-- The integer that the total order compares: the magnitude bits are inverted when the sign is
set. -/
def key (x : Binary32) : ℤ := (x.bits ^^^ x.bits.sshiftRight 31 >>> 1).toInt

/-- The total order. -/
def totalCmp (a b : Binary32) : Ordering := compare a.key b.key

/-- The total order is transitive. -/
instance : Std.TransCmp totalCmp := Ranking.transCmp_comap key

/-- The magnitude has 31 bits. -/
theorem magnitude_lt (x : Binary32) : x.magnitude < 2^31 := Nat.mod_lt _ (Nat.two_pow_pos 31)

/-- The sign says whether the highest bit is set. -/
theorem sign_eq (x : Binary32) : x.sign = decide (2^31 ≤ x.bits.toNat) := BitVec.msb_eq_decide _

/-- Flipping changes the sign. -/
@[simp] theorem sign_flip (x : Binary32) : x.flip.sign = !x.sign := by
  unfold sign flip
  rw [BitVec.msb_xor, show (0x80000000 : BitVec 32).msb = true from rfl, Bool.xor_true]

/-- Flipping keeps the magnitude. -/
@[simp] theorem magnitude_flip (x : Binary32) : x.flip.magnitude = x.magnitude := by
  unfold magnitude flip
  have hsign : (0x80000000 : BitVec 32).toNat % 2^31 = 0 := rfl
  rw [BitVec.toNat_xor, Nat.xor_mod_two_pow, hsign, Nat.xor_zero]

/-- Flipping does not make a number of a NaN, nor the other way round. -/
@[simp] theorem isNaN_flip (x : Binary32) : x.flip.IsNaN ↔ x.IsNaN := by
  unfold IsNaN
  rw [magnitude_flip]

/-- The pattern without a sign is its magnitude. -/
theorem toNat_of_sign_eq_false {x : Binary32} (h : x.sign = false) :
    x.bits.toNat = x.magnitude := by
  rw [sign_eq, decide_eq_false_iff_not, Nat.not_le] at h
  exact (Nat.mod_eq_of_lt h).symm

/-- The key of a pattern without a sign is its magnitude. -/
theorem key_of_sign_eq_false {x : Binary32} (h : x.sign = false) : x.key = x.magnitude := by
  have hnat := toNat_of_sign_eq_false h
  -- The sign bit fills the mask, so the mask is zero.
  have hzero : x.magnitude >>> 31 = 0 := by
    rw [Nat.shiftRight_eq_div_pow, Nat.div_eq_of_lt x.magnitude_lt]
  have hmask : x.bits.sshiftRight 31 >>> 1 = 0#32 := by
    apply BitVec.eq_of_toNat_eq
    rw [BitVec.toNat_ushiftRight, BitVec.toNat_sshiftRight_of_msb_false h, hnat, hzero]
    rfl
  unfold key
  rw [hmask, BitVec.xor_zero, BitVec.toInt_eq_toNat_of_msb h, hnat]

/-- The key of a pattern with a sign counts down from `-1`. -/
theorem key_of_sign_eq_true {x : Binary32} (h : x.sign = true) :
    x.key = -(x.magnitude : ℤ) - 1 := by
  have hflip : x.flip.sign = false := by rw [sign_flip, h, Bool.not_true]
  have hnat : x.flip.bits.toNat = x.magnitude := by
    rw [toNat_of_sign_eq_false hflip, magnitude_flip]
  have hle : 2^31 ≤ x.bits.toNat := by rwa [sign_eq, decide_eq_true_eq] at h
  -- The mask inverts all bits but the sign, which is the same as flipping the sign and inverting
  -- all of them.
  have hzero : (2^32 - 1 - x.bits.toNat) >>> 31 = 0 := by
    rw [Nat.shiftRight_eq_div_pow, Nat.div_eq_of_lt (by omega)]
  have hmask : x.bits.sshiftRight 31 >>> 1 = 0x7FFFFFFF#32 := by
    apply BitVec.eq_of_toNat_eq
    rw [BitVec.toNat_ushiftRight, BitVec.toNat_sshiftRight_of_msb_true h, hzero]
    rfl
  have hinvert : x.bits ^^^ 0x7FFFFFFF#32 = ~~~x.flip.bits := by
    unfold flip
    rw [BitVec.not_xor_right]
    rfl
  have hmsb : (~~~x.flip.bits).msb = true := by
    have hsign : x.flip.bits.msb = false := hflip
    rw [BitVec.msb_not, hsign]
    rfl
  have hlt := x.magnitude_lt
  unfold key
  rw [hmask, hinvert, BitVec.toInt_eq_msb_cond, if_pos hmsb, BitVec.toNat_not, hnat]
  omega

/-! ## NaNs in the order -/

/-- A NaN with a sign. -/
def Leading (x : Binary32) : Prop := x.IsNaN ∧ x.sign = true

/-- A NaN without a sign. -/
def Trailing (x : Binary32) : Prop := x.IsNaN ∧ x.sign = false

/-- Being a NaN with a sign is decidable. -/
instance : DecidablePred Leading := fun x => inferInstanceAs (Decidable (x.IsNaN ∧ x.sign = true))

/-- A NaN has a sign or not. -/
theorem isNaN_iff (x : Binary32) : x.IsNaN ↔ x.Leading ∨ x.Trailing := by
  unfold Leading Trailing
  cases x.sign <;> simp

/-- Comparing is comparing the keys. -/
theorem isLE_totalCmp {a b : Binary32} : (totalCmp a b).isLE = true ↔ a.key ≤ b.key := by
  unfold totalCmp
  rw [Std.isLE_compare]

/-- What comes before a NaN with a sign is one. -/
theorem leading_of_isLE {a b : Binary32} (hab : (totalCmp a b).isLE = true) (hb : b.Leading) :
    a.Leading := by
  rw [isLE_totalCmp, key_of_sign_eq_true hb.2] at hab
  have hnan := hb.1
  unfold IsNaN at hnan
  cases hs : a.sign with
  | false =>
    rw [key_of_sign_eq_false hs] at hab
    omega
  | true =>
    rw [key_of_sign_eq_true hs] at hab
    refine ⟨?_, hs⟩
    unfold IsNaN
    omega

/-- What comes behind a NaN without a sign is one. -/
theorem trailing_of_isLE {a b : Binary32} (hab : (totalCmp a b).isLE = true) (ha : a.Trailing) :
    b.Trailing := by
  rw [isLE_totalCmp, key_of_sign_eq_false ha.2] at hab
  have hnan := ha.1
  unfold IsNaN at hnan
  cases hs : b.sign with
  | true =>
    rw [key_of_sign_eq_true hs] at hab
    omega
  | false =>
    rw [key_of_sign_eq_false hs] at hab
    refine ⟨?_, hs⟩
    unfold IsNaN
    omega

end Binary32
