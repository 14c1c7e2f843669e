import Mathlib.Logic.Function.Iterate
import IqdbIvf.Lib.KMeans

/-!
# Lloyd's iteration

The step of the iteration, on points and centres alone: every point belongs to the first of its
nearest centres, and the centres are moved in turn, each to the mean of its points or, without
points, onto the point that is farthest from the centres as they are by then. The step is repeated
until a test on two successive lists of centres stops it, or a number of rounds is over
(`converge`).
-/

set_option linter.unusedSectionVars false

namespace KMeans

/-! ## Repeating a step -/

section Converge

variable {σ : Type}

/-- A step, repeated until the test stops it or the rounds are over. -/
def converge (step : σ → σ) (stop : σ → σ → Bool) : ℕ → σ → σ
  | 0, s => s
  | rounds + 1, s => if stop s (step s) then step s else converge step stop rounds (step s)

/-- What is returned is an iterate. Every round before the last one was not stopped, and the last
one was, unless the rounds are over. -/
theorem converge_spec (step : σ → σ) (stop : σ → σ → Bool) (rounds : ℕ) (s : σ) :
    ∃ j ≤ rounds, converge step stop rounds s = step^[j] s ∧
      (∀ i, i + 1 < j → stop (step^[i] s) (step^[i + 1] s) = false) ∧
      (j = rounds ∨ ∃ i, j = i + 1 ∧ stop (step^[i] s) (step^[i + 1] s) = true) := by
  induction rounds generalizing s with
  | zero => exact ⟨0, le_rfl, rfl, fun i hi => absurd hi (Nat.not_lt_zero _), .inl rfl⟩
  | succ rounds ih =>
    by_cases hstop : stop s (step s) = true
    · refine ⟨1, Nat.succ_pos rounds, if_pos hstop, fun i hi => ?_, .inr ⟨0, rfl, hstop⟩⟩
      exact absurd hi (by omega)
    · obtain ⟨j, hj, heq, hgoes, hends⟩ := ih (step s)
      refine ⟨j + 1, Nat.succ_le_succ hj, (if_neg hstop).trans heq, fun i hi => ?_, ?_⟩
      · cases i with
        | zero => exact Bool.eq_false_iff.2 hstop
        | succ i => exact hgoes i (Nat.lt_of_succ_lt_succ hi)
      · rcases hends with rfl | ⟨i, rfl, hlast⟩
        · exact .inl rfl
        · exact .inr ⟨i + 1, rfl, hlast⟩

end Converge

/-! ## The step -/

variable {K : Type} [Field K] [LinearOrder K] [IsStrictOrderedRing K] {dim k : ℕ}
  {cs ws : List (List K)} {v : List K} {cls : List K → ℕ}

/-- The number of the first of the nearest centres. -/
def nearestIndex (cs : List (List K)) (v : List K) : ℕ :=
  cs.findIdx fun c => decide (sqDist c v = nearestSq cs v)

/-- The first of the nearest centres has this number. -/
theorem FirstNearest.eq_nearestIndex {i : ℕ} {d : K} (h : FirstNearest cs v i d) :
    i = nearestIndex cs v := by
  obtain ⟨c, hc, hd⟩ := h.at_index
  obtain ⟨hi, rfl⟩ := List.getElem?_eq_some_iff.1 hc
  have heq := h.eq_nearestSq
  symm
  apply (List.findIdx_eq hi).2
  refine ⟨decide_eq_true (hd.trans heq), fun j hj => decide_eq_false fun hsame => ?_⟩
  have hlt := h.lt_of_lt j _ hj (List.getElem?_eq_getElem (hj.trans hi))
  rw [hsame, ← heq] at hlt
  exact lt_irrefl d hlt

/-- The first of the points that are farthest from their nearest centres. -/
def farthest (cs ws : List (List K)) : Option (List K) := ws.argmax (nearestSq cs)

/-- Where a centre moves, when a numbering gives the points to the centres. -/
def moved (dim : ℕ) (ws : List (List K)) (cls : List K → ℕ) (cs : List (List K)) (c : ℕ) : List K :=
  if (ws.filter fun v => cls v = c) = [] then (farthest cs ws).getD []
  else mean dim (ws.filter fun v => cls v = c)

/-- The centres after the first `n` of them are moved. -/
def movedUpTo (dim : ℕ) (ws : List (List K)) (cls : List K → ℕ) (cs : List (List K)) :
    ℕ → List (List K)
  | 0 => cs
  | n + 1 => (movedUpTo dim ws cls cs n).set n (moved dim ws cls (movedUpTo dim ws cls cs n) n)

/-- The step. -/
def lloydStep (dim : ℕ) (ws cs : List (List K)) : List (List K) :=
  movedUpTo dim ws (nearestIndex cs) cs cs.length

/-- The number of centres stays. -/
@[simp] theorem length_movedUpTo (n : ℕ) : (movedUpTo dim ws cls cs n).length = cs.length := by
  induction n with
  | zero => rfl
  | succ n ih => rw [movedUpTo, List.length_set, ih]

/-- The centres that are not moved yet are where they were. -/
theorem getElem?_movedUpTo {n i : ℕ} (h : n ≤ i) : (movedUpTo dim ws cls cs n)[i]? = cs[i]? := by
  induction n with
  | zero => rfl
  | succ n ih => rw [movedUpTo, List.getElem?_set_ne (by omega), ih (by omega)]

/-- The moved centres, one more of them. -/
theorem take_movedUpTo_succ {n : ℕ} (h : n < cs.length) :
    (movedUpTo dim ws cls cs (n + 1)).take (n + 1) =
      (movedUpTo dim ws cls cs n).take n ++ [moved dim ws cls (movedUpTo dim ws cls cs n) n] := by
  have hlt : n < (movedUpTo dim ws cls cs n).length := by rwa [length_movedUpTo]
  rw [movedUpTo, List.take_succ_eq_append_getElem (by rwa [List.length_set]),
    List.take_set_of_le le_rfl, List.getElem_set_self]

/-! ## How far the centres move -/

/-- The largest of the shifts of the centres, or zero. -/
def largestShift (shift : List K → List K → K) (old new : List (List K)) : K :=
  (List.zipWith shift old new).foldl max 0

/-- The largest shift with one more centre. -/
theorem largestShift_concat (shift : List K → List K → K) {old new : List (List K)}
    (h : old.length = new.length) (a b : List K) :
    largestShift shift (old ++ [a]) (new ++ [b]) =
      max (largestShift shift old new) (shift a b) := by
  unfold largestShift
  rw [List.zipWith_append h, List.foldl_append]
  rfl

end KMeans
