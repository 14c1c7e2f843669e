import Mathlib.Data.BitVec
import Mathlib.Data.Fintype.Card
import Mathlib.Data.Int.CardIntervalMod
import Mathlib.Data.Set.Card

/-!
# Mixing and counting machine words

The steps that a mixing function of words is made of are injective: xoring a word with itself
shifted to the right (`xorShift_injective`) and multiplying by a word that has an inverse
(`mul_injective`). Adding such a word again and again visits every word (`exists_steps`), and comes
back after as many steps as there are words and not before (`steps_eq_iff`). Below a multiple of `n`
every residue modulo `n` is taken equally often (`card_residue`), and so is every quotient by `n`
(`card_quotient`, `ncard_quotient`).
-/

namespace Words

variable {w : ℕ}

/-- A word xored with itself shifted to the right determines the word. -/
theorem xorShift_injective {k : ℕ} (hk : 0 < k) :
    Function.Injective fun z : BitVec w => z ^^^ (z >>> k) := by
  intro x y hxy
  -- The difference of two such words is not changed by the shift, which makes it smaller.
  have hdiff : x ^^^ y = (x ^^^ y) >>> k := by
    rw [BitVec.ushiftRight_xor_distrib]
    have hxy' : x ^^^ (x >>> k) = y ^^^ (y >>> k) := hxy
    calc x ^^^ y = (x ^^^ (x >>> k)) ^^^ ((x >>> k) ^^^ y) := by
          rw [BitVec.xor_assoc, ← BitVec.xor_assoc (x >>> k), BitVec.xor_self, BitVec.zero_xor]
      _ = (x >>> k) ^^^ (y >>> k) := by
          rw [hxy', BitVec.xor_comm y, BitVec.xor_assoc, BitVec.xor_comm y, BitVec.xor_assoc,
            BitVec.xor_self, BitVec.xor_zero, BitVec.xor_comm]
  have hnat : (x ^^^ y).toNat = (x ^^^ y).toNat / 2^k := by
    conv_lhs => rw [hdiff]
    rw [BitVec.toNat_ushiftRight, Nat.shiftRight_eq_div_pow]
  have hzero : (x ^^^ y).toNat = 0 := by
    by_contra hne
    have hlt := Nat.div_lt_self (Nat.pos_of_ne_zero hne) (Nat.one_lt_two_pow hk.ne')
    omega
  exact BitVec.xor_eq_zero_iff.1 (BitVec.eq_of_toNat_eq hzero)

/-- Multiplying by a word with an inverse is injective. -/
theorem mul_injective {a b : BitVec w} (hab : a * b = 1) :
    Function.Injective fun z : BitVec w => z * a := by
  apply Function.LeftInverse.injective (g := fun z => z * b)
  intro z
  show z * a * b = z
  rw [BitVec.mul_assoc, hab]
  exact BitVec.mul_one z

/-- Steps by a word with an inverse lead from every word to every other one. -/
theorem exists_steps {a b : BitVec w} (hab : a * b = 1) (s t : BitVec w) :
    ∃ j < 2^w, s + BitVec.ofNat w j * a = t := by
  refine ⟨((t - s) * b).toNat, ((t - s) * b).isLt, ?_⟩
  rw [BitVec.ofNat_toNat, BitVec.setWidth_eq, BitVec.mul_assoc, BitVec.mul_comm b, hab]
  show s + (t - s) * 1#w = t
  rw [BitVec.mul_one, BitVec.add_comm, BitVec.sub_add_cancel]

/-- Two numbers of such steps lead to one word exactly when they agree modulo the number of
words. -/
theorem steps_eq_iff {a b : BitVec w} (hab : a * b = 1) (s : BitVec w) (i j : ℕ) :
    s + BitVec.ofNat w i * a = s + BitVec.ofNat w j * a ↔ i % 2^w = j % 2^w := by
  rw [BitVec.add_right_inj, (mul_injective hab).eq_iff, ← BitVec.toNat_inj,
    BitVec.toNat_ofNat, BitVec.toNat_ofNat]

/-- Below a multiple of `n` every residue is taken equally often. -/
theorem card_residue {n zone r : ℕ} (hzone : n ∣ zone) (hr : r < n) :
    ((Finset.range zone).filter fun v => v % n = r).card = zone / n := by
  have hn : 0 < n := Nat.zero_lt_of_lt hr
  have hcount := Nat.count_modEq_card zone hn r
  rw [Nat.count_eq_card_filter_range, Nat.mod_eq_zero_of_dvd hzone, if_neg (Nat.not_lt_zero _),
    Nat.add_zero] at hcount
  rw [← hcount]
  congr 1
  apply Finset.filter_congr
  intro v _
  rw [Nat.ModEq, Nat.mod_eq_of_lt hr]

/-- Below a multiple of `n` every quotient is taken `n` times. -/
theorem card_quotient {n N : ℕ} (hn : 0 < n) {S : Finset ℕ} (hS : ∀ b ∈ S, b < N) :
    ((Finset.range (n * N)).filter fun v => v / n ∈ S).card = n * S.card := by
  rw [Nat.mul_comm n S.card, ← Finset.card_range n, ← Finset.card_product, Finset.card_range]
  -- A number is its quotient and its residue.
  apply Finset.card_bij' (fun v _ => (v / n, v % n)) fun p _ => n * p.1 + p.2
  · intro v hv
    exact Finset.mem_product.2
      ⟨(Finset.mem_filter.1 hv).2, Finset.mem_range.2 (Nat.mod_lt _ hn)⟩
  · intro p hp
    obtain ⟨hquotient, hresidue⟩ := Finset.mem_product.1 hp
    have hresidue : p.2 < n := Finset.mem_range.1 hresidue
    have hdiv : (n * p.1 + p.2) / n = p.1 := by
      rw [Nat.mul_add_div hn, Nat.div_eq_of_lt hresidue, Nat.add_zero]
    have hlt : n * p.1 + p.2 < n * N := by
      calc n * p.1 + p.2 < n * (p.1 + 1) := Nat.add_lt_add_left hresidue _
        _ ≤ n * N := Nat.mul_le_mul_left n (hS _ hquotient)
    rw [Finset.mem_filter, Finset.mem_range, hdiv]
    exact ⟨hlt, hquotient⟩
  · intro v _
    exact Nat.div_add_mod v n
  · intro p hp
    have hresidue : p.2 < n := Finset.mem_range.1 (Finset.mem_product.1 hp).2
    rw [Nat.mul_add_div hn, Nat.div_eq_of_lt hresidue, Nat.mul_add_mod, Nat.mod_eq_of_lt hresidue,
      Nat.add_zero]

/-- Where every number below a multiple of `n` is taken once, every quotient is taken `n` times. -/
theorem ncard_quotient {α : Type} {f : α → ℕ} {n N : ℕ} (hinj : Function.Injective f)
    (hlt : ∀ a, f a < n * N) (hsurj : ∀ v < n * N, ∃ a, f a = v) (hn : 0 < n) {S : Finset ℕ}
    (hS : ∀ b ∈ S, b < N) : Set.ncard {a | f a / n ∈ S} = n * S.card := by
  have himage : f '' {a | f a / n ∈ S} =
      ((Finset.range (n * N)).filter fun v => v / n ∈ S : Finset ℕ) := by
    ext v
    rw [Finset.coe_filter]
    constructor
    · rintro ⟨a, ha, rfl⟩
      exact ⟨Finset.mem_range.2 (hlt a), ha⟩
    · rintro ⟨hv, hmem⟩
      obtain ⟨a, rfl⟩ := hsurj v (Finset.mem_range.1 hv)
      exact ⟨a, hmem, rfl⟩
  rw [← Set.ncard_image_of_injective _ hinj, himage, Set.ncard_coe_finset, card_quotient hn hS]

end Words
