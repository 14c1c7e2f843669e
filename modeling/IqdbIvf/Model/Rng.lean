import IqdbIvf.Lib.Outcome
import IqdbIvf.Lib.Words
import IqdbIvf.Model.Arith

/-!
# The pseudo-random generator

`src/rng.rs`. A draw returns the word with the advanced generator. `next_below` rejects words until
one falls into a multiple of `n`; the source loops without a bound, and the model gives the loop as
many rounds as the generator has states. `nextBelow_eq` says that the rounds are enough: the
additive step visits every state, among them the one with the output word `0`, and the zone is never
empty.
-/

namespace IqdbIvf

open Outcome

/-- `SplitMix64`. -/
structure SplitMix64 where
  /-- The Weyl state. -/
  state : UInt64
  deriving DecidableEq, Repr

namespace SplitMix64

/-- The additive step of the state. -/
def gamma : UInt64 := 0x9E3779B97F4A7C15

/-- The output word of an advanced state. -/
def mix (z : UInt64) : UInt64 :=
  let z := (z ^^^ (z >>> 30)) * 0xBF58476D1CE4E5B9
  let z := (z ^^^ (z >>> 27)) * 0x94D049BB133111EB
  z ^^^ (z >>> 31)

/-- `SplitMix64::new`. -/
def new (seed : UInt64) : SplitMix64 := ⟨seed⟩

/-- `SplitMix64::next_u64`. -/
def nextU64 (rng : SplitMix64) : UInt64 × SplitMix64 :=
  let state := rng.state + gamma
  (mix state, ⟨state⟩)

/-- `1.0 / ((1_u64 << 53) as f64)`. -/
def openUnitStep {D : Type} [Double D] : D := 1 / Double.ofInteger (2^53)

/-- The attempts of `next_open_unit`. -/
def openUnitLoop {D : Type} [Double D] : ℕ → SplitMix64 → D × SplitMix64
  | 0, rng => (openUnitStep, rng)
  | tries + 1, rng =>
    let (word, rng) := rng.nextU64
    -- The upper 53 bits; zero is drawn again.
    let bits := word >>> 11
    if bits ≠ 0 then (Double.ofInteger bits.toNat * openUnitStep, rng)
    else openUnitLoop tries rng

/-- `SplitMix64::next_open_unit`. -/
def nextOpenUnit {D : Type} [Double D] (rng : SplitMix64) : D × SplitMix64 := openUnitLoop 4 rng

/-- The rejection loop of `next_below`, for a given number of rounds. -/
def nextBelowLoop (zone n : UInt64) : ℕ → SplitMix64 → Checked (UInt64 × SplitMix64)
  | 0, _ => .error .diverge
  | rounds + 1, rng =>
    let (v, rng) := rng.nextU64
    if v < zone then do return (← remainder v n, rng)
    else nextBelowLoop zone n rounds rng

/-- `SplitMix64::next_below`. -/
def nextBelow (rng : SplitMix64) (n : UInt64) : Checked (UInt64 × SplitMix64) := do
  debugAssert (1 ≤ n)
  let max : UInt64 := 0xFFFFFFFFFFFFFFFF
  -- The zone is a multiple of `n`, so that every residue is as likely.
  let zone := max - (← remainder max n)
  nextBelowLoop zone n (2^64) rng

/-! ## The run of the generator -/

/-- The generator after `j` words. -/
def advance (rng : SplitMix64) (j : ℕ) : SplitMix64 := (fun rng => rng.nextU64.2)^[j] rng

/-- The word that follows `j` others. -/
def word (rng : SplitMix64) (j : ℕ) : UInt64 := (rng.advance j).nextU64.1

/-- The bound of the words that `next_below` accepts. -/
def zone (n : UInt64) : UInt64 := 0xFFFFFFFFFFFFFFFF - 0xFFFFFFFFFFFFFFFF % n

/-- Without a word the generator stays where it is. -/
@[simp] theorem advance_zero (rng : SplitMix64) : rng.advance 0 = rng := rfl

/-- The generator after `j + 1` words is the next one after `j` words. -/
theorem advance_succ (rng : SplitMix64) (j : ℕ) :
    rng.advance (j + 1) = rng.nextU64.2.advance j := Function.iterate_succ_apply _ j rng

/-- The word that follows `j + 1` others follows `j` others of the next generator. -/
theorem word_succ (rng : SplitMix64) (j : ℕ) : rng.word (j + 1) = rng.nextU64.2.word j := by
  unfold word
  rw [advance_succ]

/-- Every word adds one step to the state. -/
theorem advance_state (rng : SplitMix64) (j : ℕ) :
    (rng.advance j).state = rng.state + UInt64.ofNat j * gamma := by
  induction j generalizing rng with
  | zero => simp
  | succ j ih =>
    rw [advance_succ, ih]
    show rng.state + gamma + UInt64.ofNat j * gamma = _
    rw [UInt64.ofNat_add, UInt64.add_mul, UInt64.add_assoc, UInt64.add_comm gamma]
    rfl

/-- The additive step visits every state. -/
theorem exists_advance (rng rng' : SplitMix64) : ∃ j < 2^64, rng.advance j = rng' := by
  have hinv : gamma.toBitVec * (17428512612931826493 : UInt64).toBitVec = 1 := by decide
  obtain ⟨j, hj, hstep⟩ := Words.exists_steps hinv rng.state.toBitVec rng'.state.toBitVec
  refine ⟨j, hj, ?_⟩
  have hstate : (rng.advance j).state = rng'.state := by
    rw [advance_state]
    exact UInt64.toBitVec_inj.1 hstep
  calc rng.advance j = ⟨(rng.advance j).state⟩ := rfl
    _ = rng' := by rw [hstate]

/-! ## The rejection loop -/

/-- A positive word is not zero. -/
theorem ne_zero_of_pos {n : UInt64} (hn : 0 < n) : n ≠ 0 := by
  rintro rfl
  exact absurd hn (by decide)

/-- The zone of accepted words is not empty. -/
theorem zone_pos {n : UInt64} (hn : 0 < n) : 0 < zone n := by
  unfold zone
  have hlt : 0xFFFFFFFFFFFFFFFF % n < n := UInt64.mod_lt _ hn
  have hn64 : n.toNat < 2^64 := n.toNat_lt
  have hmax : (0xFFFFFFFFFFFFFFFF : UInt64).toNat = 2^64 - 1 := by decide
  rw [UInt64.lt_iff_toNat_lt] at hlt ⊢
  have hle : 0xFFFFFFFFFFFFFFFF % n ≤ 0xFFFFFFFFFFFFFFFF := by
    rw [UInt64.le_iff_toNat_le]
    omega
  rw [UInt64.toNat_sub_of_le _ _ hle, UInt64.toNat_zero]
  omega

/-- A word of the zone comes, before the states repeat. -/
theorem exists_first_accepted {bound : UInt64} (hbound : 0 < bound) (rng : SplitMix64) :
    ∃ j < 2^64, (∀ i < j, ¬ rng.word i < bound) ∧ rng.word j < bound := by
  -- One step before the state `0` the word is `0`.
  obtain ⟨j, hj, hadvance⟩ := exists_advance rng ⟨0 - gamma⟩
  have hword : rng.word j < bound := by
    have hzero : rng.word j = 0 := by
      unfold word
      rw [hadvance]
      decide
    rw [hzero]
    exact hbound
  classical
  have hex : ∃ j, rng.word j < bound := ⟨j, hword⟩
  exact ⟨Nat.find hex, (Nat.find_min' hex hword).trans_lt hj, fun i hi => Nat.find_min hex hi,
    Nat.find_spec hex⟩

/-- One round of the loop. -/
theorem nextBelowLoop_succ {bound n : UInt64} (hn : 0 < n) (rounds : ℕ) (rng : SplitMix64) :
    nextBelowLoop bound n (rounds + 1) rng =
      if rng.word 0 < bound then .ok (rng.word 0 % n, rng.nextU64.2)
      else nextBelowLoop bound n rounds rng.nextU64.2 := by
  have hword : rng.word 0 = rng.nextU64.1 := by
    unfold word
    rw [advance_zero]
  rw [nextBelowLoop, hword]
  dsimp only
  rw [remainder_of_ne_zero _ (ne_zero_of_pos hn)]
  rfl

/-- The loop returns the remainder of the first word of the zone, however many rounds it has
left. -/
theorem nextBelowLoop_eq {bound n : UInt64} (hn : 0 < n) {rng : SplitMix64} {j rounds : ℕ}
    (hj : j < rounds) (hrejected : ∀ i < j, ¬ rng.word i < bound) (haccepted : rng.word j < bound) :
    nextBelowLoop bound n rounds rng = .ok (rng.word j % n, rng.advance (j + 1)) := by
  induction rounds generalizing rng j with
  | zero => omega
  | succ rounds ih =>
    rw [nextBelowLoop_succ hn]
    cases j with
    | zero => rw [if_pos haccepted, advance_succ, advance_zero]
    | succ j =>
      rw [word_succ] at haccepted ⊢
      rw [if_neg (hrejected 0 (Nat.succ_pos j)), advance_succ]
      apply ih (Nat.lt_of_succ_lt_succ hj) _ haccepted
      intro i hi
      rw [← word_succ]
      exact hrejected (i + 1) (Nat.succ_lt_succ hi)

/-- `next_below` returns the remainder of the first word of the zone. -/
theorem nextBelow_eq (rng : SplitMix64) {n : UInt64} (hn : 0 < n) :
    ∃ j < 2^64, (∀ i < j, ¬ rng.word i < zone n) ∧ rng.word j < zone n ∧
      rng.nextBelow n = .ok (rng.word j % n, rng.advance (j + 1)) := by
  have h1 : 1 ≤ n := by
    rw [UInt64.lt_iff_toNat_lt] at hn
    rw [UInt64.le_iff_toNat_le]
    exact hn
  obtain ⟨j, hj, hrejected, haccepted⟩ := exists_first_accepted (zone_pos hn) rng
  refine ⟨j, hj, hrejected, haccepted, ?_⟩
  -- The number of rounds is not computed with.
  unfold nextBelow
  generalize 2^64 = rounds at hj ⊢
  rw [debugAssert_of (decide_eq_true h1), ok_bind]
  dsimp only
  rw [remainder_of_ne_zero _ (ne_zero_of_pos hn), ok_bind]
  exact nextBelowLoop_eq hn hj hrejected haccepted

/-- `next_below` ends for every state of the generator and every `n ≥ 1`, with a value below
`n`. -/
theorem nextBelow_returns (rng : SplitMix64) {n : UInt64} (hn : 0 < n) :
    Returns (rng.nextBelow n) fun r => r.1 < n := by
  obtain ⟨j, -, -, -, hret⟩ := rng.nextBelow_eq hn
  rw [hret]
  exact UInt64.mod_lt _ hn

end SplitMix64

end IqdbIvf
