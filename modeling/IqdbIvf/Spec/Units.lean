import IqdbIvf.Lib.Lottery
import IqdbIvf.Spec.Seeding

/-!
# The words and the units of the generator

The additive step of `SplitMix64` has the number of words as its period, and the output word is a
bijection of the state, so every word comes once in each period. `next_open_unit` takes the upper 53
bits of a word, its ticket, and draws again when they are zero. As many states come to one ticket as
to any other.
-/

set_option linter.unusedSectionVars false

namespace IqdbIvf

open Outcome Lottery SplitMix64

namespace SplitMix64

/-! ## The period -/

/-- Two words of a run are equal exactly when their places agree modulo the period. -/
theorem word_eq_iff (rng : SplitMix64) (i j : ℕ) :
    rng.word i = rng.word j ↔ i % 2^64 = j % 2^64 := by
  have hinv : gamma.toBitVec * (17428512612931826493 : UInt64).toBitVec = 1 := by decide
  have hsteps := Words.steps_eq_iff hinv rng.state.toBitVec i j
  have hword : rng.word i = rng.word j ↔ (rng.advance i).state = (rng.advance j).state := by
    show mix ((rng.advance i).state + gamma) = mix ((rng.advance j).state + gamma) ↔ _
    rw [mix_bijective.1.eq_iff, UInt64.add_left_inj]
  rw [hword, advance_state, advance_state, ← hsteps]
  exact UInt64.toBitVec_inj.symm

/-- In every period of the generator every word comes exactly once. -/
theorem existsUnique_word (rng : SplitMix64) (v : UInt64) : ∃! j, j < 2^64 ∧ rng.word j = v := by
  obtain ⟨rng', hv⟩ := word_surjective v
  obtain ⟨j, hj, hadvance⟩ := exists_advance rng rng'
  have hword : rng.word j = v := by
    unfold word
    rw [hadvance]
    exact hv
  refine ⟨j, ⟨hj, hword⟩, fun i hi => ?_⟩
  have hmod := (word_eq_iff rng i j).1 (hi.2.trans hword.symm)
  rwa [Nat.mod_eq_of_lt hi.1, Nat.mod_eq_of_lt hj] at hmod

/-! ## Tickets -/

/-- The ticket of the first word: its upper 53 bits. -/
def ticket (rng : SplitMix64) : ℕ := (rng.word 0 >>> 11).toNat

/-- The ticket as a quotient of the word. -/
theorem ticket_eq (rng : SplitMix64) : rng.ticket = (rng.word 0).toNat / 2^11 := by
  unfold ticket
  rw [UInt64.toNat_shiftRight, Nat.shiftRight_eq_div_pow]
  rfl

/-- A ticket has 53 bits. -/
theorem ticket_lt (rng : SplitMix64) : rng.ticket < 2^53 := by
  rw [ticket_eq]
  exact Nat.div_lt_of_lt_mul (rng.word 0).toNat_lt

/-- There are finitely many states. -/
instance : Finite SplitMix64 := Finite.of_injective _ word_injective

/-- As many states come to one ticket as to any other. -/
theorem ncard_ticket {S : Finset ℕ} (hS : ∀ b ∈ S, b < 2^53) :
    Set.ncard {rng : SplitMix64 | rng.ticket ∈ S} = 2^11 * S.card := by
  have hsize : UInt64.size = 2^11 * 2^53 := by norm_num
  have hinj : Function.Injective fun rng : SplitMix64 => (rng.word 0).toNat :=
    fun _ _ h => word_injective (UInt64.toNat_inj.1 h)
  have hlt : ∀ rng : SplitMix64, (rng.word 0).toNat < 2^11 * 2^53 := by
    intro rng
    rw [← hsize]
    exact (rng.word 0).toNat_lt_size
  have hsurj : ∀ v < 2^11 * 2^53, ∃ rng : SplitMix64, (rng.word 0).toNat = v := by
    intro v hv
    rw [← hsize] at hv
    obtain ⟨rng, hrng⟩ := word_surjective (UInt64.ofNat v)
    dsimp only at hrng
    exact ⟨rng, by rw [hrng, UInt64.toNat_ofNat_of_lt' hv]⟩
  simp only [ticket_eq]
  exact Words.ncard_quotient hinj hlt hsurj (Nat.two_pow_pos 11) hS

end SplitMix64

section Exact

variable {K : Type} [Field K] [LinearOrder K] [IsStrictOrderedRing K] [SquareRoot K]

/-- A state whose ticket is not zero draws it at once. -/
theorem nextOpenUnit_eq {rng : SplitMix64} (hticket : rng.ticket ≠ 0) :
    (rng.nextOpenUnit : Arith.F64 K × SplitMix64).1 = (rng.ticket : K) / 2^53 := by
  have hne : rng.word 0 >>> 11 ≠ 0 := fun h => hticket (congrArg UInt64.toNat h)
  have hunit : (rng.nextOpenUnit : Arith.F64 K × SplitMix64) =
      ((Double.ofInteger rng.ticket * openUnitStep : Arith.F64 K), rng.nextU64.2) := if_pos hne
  rw [hunit, openUnitStep_eq]
  exact mul_one_div _ _

/-- Every attempt of `next_open_unit` ends in a fraction of `2^53` between `0` and `1`, both
excluded. -/
theorem openUnitLoop_eq (tries : ℕ) (rng : SplitMix64) :
    ∃ b : ℕ, 0 < b ∧ b < 2^53 ∧
      (openUnitLoop tries rng : Arith.F64 K × SplitMix64).1 = (b : K) / 2^53 := by
  induction tries generalizing rng with
  | zero =>
    refine ⟨1, Nat.one_pos, Nat.one_lt_two_pow (by decide), ?_⟩
    rw [openUnitLoop, openUnitStep_eq, Nat.cast_one]
  | succ tries ih =>
    by_cases hne : rng.word 0 >>> 11 = 0
    · have hagain : (openUnitLoop (tries + 1) rng : Arith.F64 K × SplitMix64) =
          openUnitLoop tries rng.nextU64.2 := if_neg (not_not.2 hne)
      rw [hagain]
      exact ih _
    · have hunit : (openUnitLoop (tries + 1) rng : Arith.F64 K × SplitMix64) =
          ((Double.ofInteger rng.ticket * openUnitStep : Arith.F64 K), rng.nextU64.2) :=
        if_pos hne
      have hpos : 0 < rng.ticket := Nat.pos_of_ne_zero fun h => hne (UInt64.toNat.inj h)
      refine ⟨rng.ticket, hpos, ticket_lt rng, ?_⟩
      rw [hunit, openUnitStep_eq]
      exact mul_one_div _ _

/-- The words of a run are equal exactly when their places agree modulo `2^64`, and every word comes
once among the first `2^64`. `next_open_unit` returns a fraction of `2^53` above `0` and below `1`,
and over all states each of these fractions is returned by `2^11` states or, with the states that
draw again, by at most twice as many. -/
theorem units_of_the_period (rng : SplitMix64) :
    (∀ i j, rng.word i = rng.word j ↔ i % 2^64 = j % 2^64) ∧
    (∀ v, ∃! j, j < 2^64 ∧ rng.word j = v) ∧
    (∀ rng' : SplitMix64, ∃ b : ℕ, 0 < b ∧ b < 2^53 ∧
      (rng'.nextOpenUnit : Arith.F64 K × SplitMix64).1 = (b : K) / 2^53) ∧
    ∀ b : ℕ, 0 < b → b < 2^53 →
      2^11 ≤ Set.ncard {rng' : SplitMix64 |
        (rng'.nextOpenUnit : Arith.F64 K × SplitMix64).1 = (b : K) / 2^53} ∧
      Set.ncard {rng' : SplitMix64 |
        (rng'.nextOpenUnit : Arith.F64 K × SplitMix64).1 = (b : K) / 2^53} ≤ 2^12 := by
  refine ⟨word_eq_iff rng, existsUnique_word rng, fun rng' => openUnitLoop_eq 4 rng', ?_⟩
  intro b hpos hlt
  have hcopies : ∀ S : Finset ℕ, (∀ b ∈ S, b < 2^53) →
      Set.ncard {rng : SplitMix64 | rng.ticket ∈ S} = 2^11 * S.card := fun S => ncard_ticket
  have hS : ∀ b' ∈ ({b} : Finset ℕ), 0 < b' ∧ b' < 2^53 := by
    intro b' hb'
    rw [Finset.mem_singleton.1 hb']
    exact ⟨hpos, hlt⟩
  have hne : (2^53 : K) ≠ 0 := pow_ne_zero _ two_ne_zero
  have hdrawn : ∀ rng' : SplitMix64, rng'.ticket ≠ 0 →
      ((rng'.nextOpenUnit : Arith.F64 K × SplitMix64).1 = (b : K) / 2^53 ↔
        rng'.ticket ∈ ({b} : Finset ℕ)) := by
    intro rng' hticket
    rw [nextOpenUnit_eq hticket, div_left_inj' hne, Nat.cast_inj, Finset.mem_singleton]
  have hbounds := ncard_drawn_bounds hcopies hS (Nat.two_pow_pos 53) hdrawn
  rw [Finset.card_singleton, Nat.mul_one, ← Nat.mul_two, ← pow_succ] at hbounds
  exact hbounds

end Exact

namespace Rational

/-- The run that starts from 7 repeats its first word after `2^64` words, and between `2^11` and
`2^12` states return one half. -/
theorem seven_units_of_the_period :
    (⟨7⟩ : SplitMix64).word (2^64) = (⟨7⟩ : SplitMix64).word 0 ∧
    ∃ half : ℚ, half = (2^52 : ℕ) / 2^53 ∧
      2^11 ≤ Set.ncard {rng : SplitMix64 |
        (rng.nextOpenUnit : Arith.F64 ℚ × SplitMix64).1 = half} ∧
      Set.ncard {rng : SplitMix64 |
        (rng.nextOpenUnit : Arith.F64 ℚ × SplitMix64).1 = half} ≤ 2^12 := by
  obtain ⟨hwords, -, -, hunits⟩ := units_of_the_period (K := ℚ) ⟨7⟩
  have hhalf : 2^52 < 2^53 := by norm_num
  have hperiod : 2^64 % 2^64 = 0 % 2^64 := by rw [Nat.mod_self, Nat.zero_mod]
  exact ⟨(hwords (2^64) 0).2 hperiod, _, rfl, hunits (2^52) (Nat.two_pow_pos 52) hhalf⟩

end Rational

end IqdbIvf
