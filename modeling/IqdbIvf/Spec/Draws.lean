import IqdbIvf.Lib.Words
import IqdbIvf.Model.Rng

/-!
# The draws of the generator

The output word of `SplitMix64` is a bijection of the advanced state: it is made of xor-shifts and
of multiplications by odd constants. So every word is the next one for exactly one state, and
because the zone of `next_below` is a multiple of `n`, as many states have an accepted word with one
residue as with any other.
-/

namespace IqdbIvf

namespace SplitMix64

/-- Xoring a word with itself shifted to the right is injective. -/
theorem xorShift_injective {k : UInt64} (hk : 0 < (k.toBitVec % 64#64).toNat) :
    Function.Injective fun z : UInt64 => z ^^^ (z >>> k) := by
  intro x y hxy
  have hbits := congrArg UInt64.toBitVec hxy
  simp only [UInt64.toBitVec_xor, UInt64.toBitVec_shiftRight, BitVec.ushiftRight_eq'] at hbits
  exact UInt64.toBitVec_inj.1 (Words.xorShift_injective hk hbits)

/-- Multiplying by a word with an inverse is injective. -/
theorem mul_injective {a b : UInt64} (hab : a.toBitVec * b.toBitVec = 1) :
    Function.Injective fun z : UInt64 => z * a := by
  intro x y hxy
  have hbits := congrArg UInt64.toBitVec hxy
  simp only [UInt64.toBitVec_mul] at hbits
  exact UInt64.toBitVec_inj.1 (Words.mul_injective hab hbits)

/-- There are finitely many words. -/
instance : Finite UInt64 := Finite.of_injective UInt64.toFin fun _ _ => UInt64.toFin_inj.1

/-- The output word is a bijection of the advanced state. -/
theorem mix_bijective : Function.Bijective mix := by
  apply Function.Injective.bijective_of_finite
  have h1 : ((0xBF58476D1CE4E5B9 : UInt64).toBitVec *
      (10871156337175269513 : UInt64).toBitVec) = 1 := by decide
  have h2 : ((0x94D049BB133111EB : UInt64).toBitVec *
      (3573116690164977347 : UInt64).toBitVec) = 1 := by decide
  -- Two rounds of a xor-shift and a multiplication, and a last xor-shift.
  have hround1 := (mul_injective h1).comp (xorShift_injective (k := 30) (by decide))
  have hround2 := (mul_injective h2).comp (xorShift_injective (k := 27) (by decide))
  exact (xorShift_injective (k := 31) (by decide)).comp (hround2.comp hround1)

/-- The next word determines the generator. -/
theorem word_injective : Function.Injective fun rng : SplitMix64 => rng.word 0 := by
  intro rng rng' hword
  have hstate : rng.state + gamma = rng'.state + gamma := mix_bijective.1 hword
  have hstate' : rng.state = rng'.state := (UInt64.add_left_inj gamma).1 hstate
  cases rng
  cases rng'
  exact congrArg _ hstate'

/-- Every word is the next one of some generator. -/
theorem word_surjective : Function.Surjective fun rng : SplitMix64 => rng.word 0 := by
  intro v
  obtain ⟨z, hz⟩ := mix_bijective.2 v
  refine ⟨⟨z - gamma⟩, ?_⟩
  show mix (z - gamma + gamma) = v
  rw [UInt64.sub_add_cancel, hz]

/-- The zone is a multiple of `n`. -/
theorem dvd_zone (n : UInt64) : n.toNat ∣ (zone n).toNat := by
  have hle : 0xFFFFFFFFFFFFFFFF % n ≤ 0xFFFFFFFFFFFFFFFF := by
    rw [UInt64.le_iff_toNat_le, UInt64.toNat_mod]
    exact Nat.mod_le _ _
  unfold zone
  rw [UInt64.toNat_sub_of_le _ _ hle, UInt64.toNat_mod]
  exact Nat.dvd_sub_mod _

/-- Every residue is drawn first from equally many states. -/
theorem ncard_accepted {n r : UInt64} (hr : r < n) :
    Set.ncard {rng : SplitMix64 | rng.word 0 < zone n ∧ rng.word 0 % n = r} =
      (zone n / n).toNat := by
  -- The states stand for the numbers below the zone with the residue.
  have himage : (fun rng : SplitMix64 => (rng.word 0).toNat) ''
      {rng | rng.word 0 < zone n ∧ rng.word 0 % n = r} =
      ((Finset.range (zone n).toNat).filter fun v => v % n.toNat = r.toNat : Finset ℕ) := by
    ext v
    simp only [Set.mem_image, Set.mem_ofPred_eq, Finset.coe_filter, Finset.mem_range]
    constructor
    · rintro ⟨rng, ⟨hlt, hmod⟩, rfl⟩
      rw [← hmod, UInt64.toNat_mod]
      exact ⟨UInt64.lt_iff_toNat_lt.1 hlt, rfl⟩
    · rintro ⟨hlt, hmod⟩
      obtain ⟨rng, hrng⟩ := word_surjective (UInt64.ofNat v)
      have hv : (UInt64.ofNat v).toNat = v :=
        UInt64.toNat_ofNat_of_lt' (hlt.trans (zone n).toNat_lt)
      dsimp only at hrng
      refine ⟨rng, ⟨?_, ?_⟩, by rw [hrng, hv]⟩
      · rw [hrng, UInt64.lt_iff_toNat_lt, hv]
        exact hlt
      · apply UInt64.toNat_inj.1
        rw [hrng, UInt64.toNat_mod, hv, hmod]
  have hinj : Function.Injective fun rng : SplitMix64 => (rng.word 0).toNat :=
    fun _ _ h => word_injective (UInt64.toNat_inj.1 h)
  rw [← Set.ncard_image_of_injective _ hinj, himage, Set.ncard_coe_finset,
    Words.card_residue (dvd_zone n) (UInt64.lt_iff_toNat_lt.1 hr), UInt64.toNat_div]

/-- The output word is a bijection of the advanced state, and the additive step visits every state.
So for every state and every `n ≥ 1` the loop of `next_below` comes to an accepted word, whose
remainder it returns, whatever the number of rounds is that it has left; and over all states every
remainder is accepted at the first word equally often. -/
theorem nextBelow_unbiased :
    Function.Bijective mix ∧ (∀ rng rng' : SplitMix64, ∃ j < 2^64, rng.advance j = rng') ∧
    ∀ n : UInt64, 1 ≤ n →
      (∀ rng : SplitMix64, ∃ j < 2^64, (∀ i < j, ¬ rng.word i < zone n) ∧ rng.word j < zone n ∧
        (∀ rounds, j < rounds →
          nextBelowLoop (zone n) n rounds rng = .ok (rng.word j % n, rng.advance (j + 1))) ∧
        rng.nextBelow n = .ok (rng.word j % n, rng.advance (j + 1)) ∧ rng.word j % n < n) ∧
      ∀ r < n, Set.ncard {rng : SplitMix64 | rng.word 0 < zone n ∧ rng.word 0 % n = r} =
        (zone n / n).toNat := by
  refine ⟨mix_bijective, exists_advance, fun n hn => ⟨fun rng => ?_, fun r => ncard_accepted⟩⟩
  have hpos : 0 < n := UInt64.lt_iff_toNat_lt.2 (UInt64.le_iff_toNat_le.1 hn)
  obtain ⟨j, hj, hrejected, haccepted, hret⟩ := rng.nextBelow_eq hpos
  exact ⟨j, hj, hrejected, haccepted, fun rounds h => nextBelowLoop_eq hpos h hrejected haccepted,
    hret, UInt64.mod_lt _ hpos⟩

/-- A die: every seed throws it, and as many states come to the last face at once as to any
other. -/
theorem nextBelow_die :
    zone 6 = 18446744073709551612 ∧
    (∃ j < 2^64, (∀ i < j, ¬ (new 42).word i < zone 6) ∧ (new 42).word j < zone 6 ∧
      (∀ rounds, j < rounds → nextBelowLoop (zone 6) 6 rounds (new 42) =
        .ok ((new 42).word j % 6, (new 42).advance (j + 1))) ∧
      (new 42).nextBelow 6 = .ok ((new 42).word j % 6, (new 42).advance (j + 1)) ∧
      (new 42).word j % 6 < 6) ∧
    Set.ncard {rng : SplitMix64 | rng.word 0 < zone 6 ∧ rng.word 0 % 6 = 5} =
      3074457345618258602 := by
  obtain ⟨-, -, hbelow⟩ := nextBelow_unbiased
  obtain ⟨hreturns, hcount⟩ := hbelow 6 (by decide)
  have hfive := hcount 5 (by decide)
  have hquotient : (zone 6 / 6).toNat = 3074457345618258602 := by decide
  exact ⟨by decide, hreturns (new 42), hfive.trans hquotient⟩

end SplitMix64

/-! ## Draws below a length -/

open Outcome

/-- The cast of a length to `u64` is exact. -/
theorem toNat_ofNat_length {n : ℕ} (hn : n < 2^64) : (UInt64.ofNat n).toNat = n :=
  UInt64.toNat_ofNat_of_lt' hn

/-- The length of a slice as a `u64`, when it is not empty. -/
theorem ofNat_pos {n : ℕ} (hn : n < 2^64) (hpos : 0 < n) : 0 < UInt64.ofNat n := by
  rw [UInt64.lt_iff_toNat_lt, toNat_ofNat_length hn, UInt64.toNat_zero]
  exact hpos

/-- A draw below the length of a slice is an index of it. -/
theorem nextBelow_length_returns {n : ℕ} (hn : n < 2^64) (hpos : 0 < n) (rng : SplitMix64) :
    Returns (rng.nextBelow (UInt64.ofNat n)) fun r => r.1.toNat < n := by
  apply Meets.mono (rng.nextBelow_returns (ofNat_pos hn hpos)) _ fun _ => id
  intro r hr
  rwa [UInt64.lt_iff_toNat_lt, toNat_ofNat_length hn] at hr

end IqdbIvf
