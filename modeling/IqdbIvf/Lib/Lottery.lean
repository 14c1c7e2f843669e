import Mathlib.Algebra.Order.BigOperators.Group.List
import Mathlib.Algebra.Order.Field.Basic
import Mathlib.Data.Set.Card
import Mathlib.Order.Interval.Finset.Nat
import Mathlib.Tactic.Linarith

/-!
# Drawing by weight with finitely many tickets

A position of a list of weights wins with a target that lies in its own interval of the running
sum. The tickets `0, …, N - 1` put the target at `b / N` of the sum. The interval of a position has
the length of its weight, so a position wins with a fraction of the tickets that is its fraction of
the sum, up to one ticket (`abs_card_winners_le`). A source of tickets that comes to each of them
equally often, and may do as it likes with the ticket `0`, draws every position by its share, up to
two tickets (`abs_ncard_drawn_le`).
-/

set_option linter.unusedSectionVars false

namespace Lottery

variable {K : Type} [Field K] [LinearOrder K] [IsStrictOrderedRing K] {weights : List K}
  {N i : ℕ} {w x y : K}

/-! ## Tickets up to a number -/

/-- The positive tickets that are at most `y`. -/
def upTo (N : ℕ) (y : K) : Finset ℕ := (Finset.range N).filter fun b => 0 < b ∧ (b : K) ≤ y

/-- Up to `y` there are `y` tickets, rounded down or, at the upper end, one less. -/
theorem card_upTo (h0 : 0 ≤ y) (hN : y ≤ N) :
    ((upTo N y).card : K) ≤ y ∧ y ≤ (upTo N y).card + 1 := by
  induction N with
  | zero =>
    rw [Nat.cast_zero] at hN
    have hempty : upTo 0 y = ∅ := rfl
    rw [hempty, Finset.card_empty, Nat.cast_zero]
    exact ⟨h0, hN.trans (zero_le_one.trans (zero_add (1 : K)).ge)⟩
  | succ N ih =>
    rw [Nat.cast_succ] at hN
    by_cases hlt : y < N
    · -- The last ticket lies above `y`.
      have hsame : upTo (N + 1) y = upTo N y := by
        unfold upTo
        rw [Finset.range_add_one, Finset.filter_insert, if_neg fun h => not_le.2 hlt h.2]
      rw [hsame]
      exact ih hlt.le
    · -- Every positive ticket is at most `y`.
      have hall : upTo (N + 1) y = Finset.Ico 1 (N + 1) := by
        ext b
        unfold upTo
        rw [Finset.mem_filter, Finset.mem_range, Finset.mem_Ico]
        constructor
        · exact fun h => ⟨h.2.1, h.1⟩
        · intro h
          have hb : (b : K) ≤ N := Nat.cast_le.2 (Nat.le_of_lt_succ h.2)
          exact ⟨h.2, h.1, hb.trans (not_lt.1 hlt)⟩
      rw [hall, Nat.card_Ico, Nat.add_sub_cancel]
      exact ⟨not_lt.1 hlt, hN⟩

/-- The tickets above `x` that are at most `y`. -/
def between (N : ℕ) (x y : K) : Finset ℕ :=
  (Finset.range N).filter fun b => x < (b : K) ∧ (b : K) ≤ y

/-- There are as many tickets in an interval as it is long, up to one. -/
theorem abs_card_between_le (h0 : 0 ≤ x) (hxy : x ≤ y) (hN : y ≤ N) :
    |((between N x y).card : K) - (y - x)| ≤ 1 := by
  have hsplit : between N x y = upTo N y \ upTo N x := by
    ext b
    unfold between upTo
    simp only [Finset.mem_sdiff, Finset.mem_filter, Finset.mem_range]
    constructor
    · rintro ⟨hb, hx, hy⟩
      have hpos : 0 < b := Nat.cast_pos.1 (h0.trans_lt hx)
      exact ⟨⟨hb, hpos, hy⟩, fun h => not_lt.2 h.2.2 hx⟩
    · rintro ⟨⟨hb, hpos, hy⟩, hx⟩
      exact ⟨hb, not_le.1 fun h => hx ⟨hb, hpos, h⟩, hy⟩
  have hsub : upTo N x ⊆ upTo N y := by
    intro b hb
    obtain ⟨hb, hpos, hx⟩ := Finset.mem_filter.1 hb
    exact Finset.mem_filter.2 ⟨hb, hpos, hx.trans hxy⟩
  have hcard : ((between N x y).card : K) = (upTo N y).card - (upTo N x).card := by
    rw [hsplit, Finset.card_sdiff_of_subset hsub, Nat.cast_sub (Finset.card_le_card hsub)]
  obtain ⟨hy1, hy2⟩ := card_upTo (h0.trans hxy) hN
  obtain ⟨hx1, hx2⟩ := card_upTo h0 (hxy.trans hN)
  rw [hcard, abs_le]
  constructor <;> linarith only [hx1, hx2, hy1, hy2]

/-! ## Winning positions -/

/-- The target lies in the interval of the running sum that belongs to the position. -/
def Wins (weights : List K) (i : ℕ) (target : K) : Prop :=
  (weights.take i).sum < target ∧ target ≤ (weights.take (i + 1)).sum

instance (weights : List K) (i : ℕ) (target : K) : Decidable (Wins weights i target) :=
  inferInstanceAs (Decidable (_ ∧ _))

/-- The running sum up to a position takes its weight in. -/
theorem sum_take_succ (hi : weights[i]? = some w) :
    (weights.take (i + 1)).sum = (weights.take i).sum + w := by
  rw [List.take_add_one, hi, List.sum_append, Option.toList_some, List.sum_singleton]

/-- The running sum of weights is not negative. -/
theorem sum_take_nonneg (hweights : ∀ w ∈ weights, 0 ≤ w) (i : ℕ) : 0 ≤ (weights.take i).sum :=
  List.sum_nonneg fun w hw => hweights w (List.mem_of_mem_take hw)

/-- The running sum of weights stays below their sum. -/
theorem sum_take_le (hweights : ∀ w ∈ weights, 0 ≤ w) (i : ℕ) :
    (weights.take i).sum ≤ weights.sum := by
  rw [← List.sum_take_add_sum_drop weights i]
  apply le_add_of_nonneg_right
  exact List.sum_nonneg fun w hw => hweights w (List.mem_of_mem_drop hw)

/-- A position without weight does not win. -/
theorem not_wins_zero (hi : weights[i]? = some 0) (target : K) : ¬ Wins weights i target := by
  rintro ⟨hlt, hle⟩
  rw [sum_take_succ hi, add_zero] at hle
  exact absurd hlt (not_lt.2 hle)

/-- The tickets with which a position wins. -/
def winners (N : ℕ) (weights : List K) (i : ℕ) : Finset ℕ :=
  (Finset.range N).filter fun b => Wins weights i ((b : K) / N * weights.sum)

/-- A position wins with its share of the tickets, up to one. -/
theorem abs_card_winners_le (hweights : ∀ w ∈ weights, 0 ≤ w) (hsum : 0 < weights.sum)
    (hN : 0 < N) (hi : weights[i]? = some w) :
    |((winners N weights i).card : K) - N * (w / weights.sum)| ≤ 1 := by
  have hN' : (0 : K) < N := Nat.cast_pos.2 hN
  -- The interval of the targets as one of the tickets.
  have hticket : ∀ s t : K, s < t / N * weights.sum ↔ N * s / weights.sum < t := by
    intro s t
    rw [div_mul_eq_mul_div, lt_div_iff₀ hN', div_lt_iff₀ hsum, mul_comm s]
  have hbetween : winners N weights i = between N (N * (weights.take i).sum / weights.sum)
      (N * (weights.take (i + 1)).sum / weights.sum) := by
    unfold winners between Wins
    apply Finset.filter_congr
    intro b _
    rw [hticket, ← not_lt, hticket, not_lt]
  have hlower : 0 ≤ N * (weights.take i).sum / weights.sum :=
    div_nonneg (mul_nonneg hN'.le (sum_take_nonneg hweights i)) hsum.le
  have hw : 0 ≤ w := hweights w (List.mem_of_getElem? hi)
  have hlength : N * (weights.take (i + 1)).sum / weights.sum -
      N * (weights.take i).sum / weights.sum = N * (w / weights.sum) := by
    rw [sum_take_succ hi, ← sub_div, ← mul_sub, add_sub_cancel_left, mul_div_assoc]
  have hle : N * (weights.take i).sum / weights.sum ≤
      N * (weights.take (i + 1)).sum / weights.sum := by
    rw [← sub_nonneg, hlength]
    exact mul_nonneg hN'.le (div_nonneg hw hsum.le)
  have hupper : N * (weights.take (i + 1)).sum / weights.sum ≤ N := by
    rw [div_le_iff₀ hsum]
    exact mul_le_mul_of_nonneg_left (sum_take_le hweights _) hN'.le
  rw [hbetween, ← hlength]
  exact abs_card_between_le hlower hle hupper

/-- The ticket `0` does not win. -/
theorem pos_of_mem_winners (hweights : ∀ w ∈ weights, 0 ≤ w) {b : ℕ}
    (hb : b ∈ winners N weights i) : 0 < b := by
  apply Nat.pos_of_ne_zero
  rintro rfl
  have hlower := (Finset.mem_filter.1 hb).2.1
  rw [Nat.cast_zero, zero_div, zero_mul] at hlower
  exact absurd hlower (not_lt.2 (sum_take_nonneg hweights i))

/-! ## Sources of tickets -/

section Sources

variable {α : Type} [Finite α] {ticket : α → ℕ} {copies : ℕ} {drawn : α → Prop}

/-- A source that comes to every ticket equally often, and may do as it likes with the ticket `0`,
draws what a set of tickets stands for as often as it comes to them, or as often as to one ticket
more. -/
theorem ncard_drawn_bounds
    (hcopies : ∀ S : Finset ℕ, (∀ b ∈ S, b < N) →
      Set.ncard {a | ticket a ∈ S} = copies * S.card)
    {S : Finset ℕ} (hS : ∀ b ∈ S, 0 < b ∧ b < N) (hN : 0 < N)
    (hdrawn : ∀ a, ticket a ≠ 0 → (drawn a ↔ ticket a ∈ S)) :
    copies * S.card ≤ Set.ncard {a | drawn a} ∧
      Set.ncard {a | drawn a} ≤ copies * S.card + copies := by
  have hcard := hcopies S fun b hb => (hS b hb).2
  have hzero := hcopies {0} fun b hb => (Finset.mem_singleton.1 hb).trans_lt hN
  rw [Finset.card_singleton, Nat.mul_one] at hzero
  constructor
  · rw [← hcard]
    refine Set.ncard_le_ncard fun a ha => ?_
    have hmem : ticket a ∈ S := ha
    exact (hdrawn a (hS _ hmem).1.ne').2 hmem
  · calc Set.ncard {a | drawn a}
        ≤ Set.ncard ({a | ticket a ∈ S} ∪ {a | ticket a ∈ ({0} : Finset ℕ)}) := by
          refine Set.ncard_le_ncard fun a ha => ?_
          by_cases hne : ticket a = 0
          · exact .inr (Finset.mem_singleton.2 hne)
          · exact .inl ((hdrawn a hne).1 ha)
      _ ≤ Set.ncard {a | ticket a ∈ S} + Set.ncard {a | ticket a ∈ ({0} : Finset ℕ)} :=
          Set.ncard_union_le _ _
      _ = copies * S.card + copies := by rw [hcard, hzero]

/-- Such a source draws a position by its share, up to two tickets. -/
theorem abs_ncard_drawn_le
    (hcopies : ∀ S : Finset ℕ, (∀ b ∈ S, b < N) →
      Set.ncard {a | ticket a ∈ S} = copies * S.card)
    (hlt : ∀ a, ticket a < N)
    (hdrawn : ∀ a, ticket a ≠ 0 → (drawn a ↔ Wins weights i ((ticket a : K) / N * weights.sum)))
    (hweights : ∀ w ∈ weights, 0 ≤ w) (hsum : 0 < weights.sum) (hN : 0 < N)
    (hi : weights[i]? = some w) :
    |(Set.ncard {a | drawn a} : K) - copies * N * (w / weights.sum)| ≤ 2 * copies := by
  have hwinners : ∀ b ∈ winners N weights i, 0 < b ∧ b < N := fun b hb =>
    ⟨pos_of_mem_winners hweights hb, Finset.mem_range.1 (Finset.mem_filter.1 hb).1⟩
  have hmem : ∀ a, ticket a ≠ 0 → (drawn a ↔ ticket a ∈ winners N weights i) := by
    intro a hne
    rw [hdrawn a hne]
    exact ⟨fun h => Finset.mem_filter.2 ⟨Finset.mem_range.2 (hlt a), h⟩,
      fun h => (Finset.mem_filter.1 h).2⟩
  obtain ⟨hlower, hupper⟩ := ncard_drawn_bounds hcopies hwinners hN hmem
  have hlower' : (copies : K) * (winners N weights i).card ≤ Set.ncard {a | drawn a} := by
    exact_mod_cast hlower
  have hupper' : (Set.ncard {a | drawn a} : K) ≤
      copies * (winners N weights i).card + copies := by exact_mod_cast hupper
  obtain ⟨hshare, hshare'⟩ := abs_le.1 (abs_card_winners_le hweights hsum hN hi)
  have hnonneg : (0 : K) ≤ copies := Nat.cast_nonneg copies
  have hmul := mul_le_mul_of_nonneg_left hshare hnonneg
  have hmul' := mul_le_mul_of_nonneg_left hshare' hnonneg
  rw [mul_sub, ← mul_assoc] at hmul hmul'
  rw [abs_le]
  constructor <;> linarith only [hlower', hupper', hmul, hmul']

end Sources

end Lottery
