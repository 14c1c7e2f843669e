import Mathlib.Algebra.Order.Field.Basic
import Mathlib.Order.Compare
import IqdbIvf.Lib.KMeans
import IqdbIvf.Spec.Rational

/-!
# Exact arithmetic

The arithmetic of an ordered field in place of `f32` and `f64`: the casts are the identity and
`total_cmp` is the order of the field. The square root is left open, because only the test for
convergence takes one. Over it, the loops of `src/assign.rs` compute the squared distance and the
first of the nearest centroids.
-/

set_option linter.unusedSectionVars false

namespace IqdbIvf

open Outcome KMeans

/-- A square root function, exact or rounded. -/
class SquareRoot (K : Type) where
  /-- The root. -/
  root : K → K

variable {K : Type} [Field K] [LinearOrder K] [IsStrictOrderedRing K] [SquareRoot K]

/-- Exact arithmetic in double precision. -/
@[reducible] def exactDouble (K : Type) [Field K] [LinearOrder K] : Double K where
  le a b := decide (a ≤ b)
  ofInteger n := n

/-- Exact arithmetic. -/
instance (priority := low) exactArith {K : Type} [Field K] [LinearOrder K] [SquareRoot K] :
    Arith K where
  F64 := K
  double := exactDouble K
  lt a b := decide (a < b)
  sqrt := SquareRoot.root
  max := max
  totalCmp := compare
  totalCmp_trans := inferInstance
  tenThousandth := 1 / 10000
  widen := id
  narrow := id

/-- The root that the rational model takes. -/
instance : SquareRoot ℚ where
  root := Rat.sqrt

/-- The comparison of two numbers. -/
theorem exact_lt {x y : K} : Arith.lt x y = true ↔ x < y := decide_eq_true_iff

/-- The comparison of two numbers in double precision. -/
theorem exact_le {x y : Arith.F64 K} : Double.le x y = true ↔ (x : K) ≤ (y : K) :=
  decide_eq_true_iff

variable {dim k : ℕ} {a b v : List K} {cs : List (List K)}

/-- `squared_l2` computes the squared distance. -/
theorem squaredL2_eq (h : a.length = b.length) : squaredL2 a b = .ok (sqDist a b) := by
  unfold squaredL2
  rw [debugAssert_of (by simpa using h), ok_bind]
  have hlen : (List.zipWith (fun x y => (x - y) * (x - y)) a b).length = a.length := by
    rw [List.length_zipWith, h, min_self]
  -- After `i` rounds the accumulator is the sum of the first `i` squares.
  have hloop : Returns ((List.range a.length).foldlM (fun sum i => do
      let d := (← index a i) - (← index b i)
      return sum + d * d) 0) fun sum => sum =
        ((List.zipWith (fun x y => (x - y) * (x - y)) a b).take a.length).sum := by
    apply Meets.foldlM_range fun i sum => sum =
      ((List.zipWith (fun x y => (x - y) * (x - y)) a b).take i).sum
    · rw [List.take_zero, List.sum_nil]
    · intro i hi sum hsum
      have hib : i < b.length := h ▸ hi
      rw [index_of_lt hi, ok_bind, index_of_lt hib, ok_bind, List.sum_take_succ _ _ (by omega),
        List.getElem_zipWith, hsum]
      rfl
  rw [List.take_of_length_le (le_of_eq hlen)] at hloop
  exact hloop.eq_ok

/-- `assign_to_cluster` finds the first of the nearest centroids. -/
theorem assignToCluster_spec (hne : cs ≠ []) (hdims : ∀ c ∈ cs, c.length = v.length) :
    Returns (assignToCluster cs v) fun i => FirstNearest cs v i (nearestSq cs v) := by
  obtain ⟨c₀, rest, rfl⟩ := List.exists_cons_of_ne_nil hne
  unfold assignToCluster
  have hassert : debugAssert (!(c₀ :: rest).isEmpty) = .ok () := rfl
  have hfirst : index (c₀ :: rest) 0 = .ok c₀ := index_eq_ok rfl
  rw [hassert, ok_bind, hfirst, ok_bind, squaredL2_eq (hdims c₀ List.mem_cons_self), ok_bind,
    List.zipIdx_cons, List.drop_one, List.tail_cons]
  refine Meets.bind (P := fun best => FirstNearest (c₀ :: rest) v best.1 best.2) ?_ ?_
  · -- The best so far is the first of the nearest among the centroids already read.
    apply Meets.foldlM_zipIdx fun pre (best : ℕ × K) =>
      FirstNearest (c₀ :: pre) v best.1 best.2
    · exact .singleton c₀ v
    · intro pre c post hrest best hbest
      have hc : c ∈ c₀ :: rest := by simp [hrest]
      unfold nearerStep
      rw [squaredL2_eq (hdims c hc), ok_bind, pure_eq_ok, meets_ok, ← List.cons_append]
      by_cases hlt : sqDist c v < best.2
      · have hlen : 0 + 1 + pre.length = (c₀ :: pre).length := by
          rw [List.length_cons]
          omega
        rw [if_pos (exact_lt.2 hlt), hlen]
        exact hbest.append_of_lt hlt
      · rw [if_neg (mt exact_lt.1 hlt)]
        exact hbest.append_of_le (not_lt.1 hlt)
  · intro best hbest
    rw [pure_eq_ok, meets_ok, ← hbest.eq_nearestSq]
    exact hbest

/-- The nearest of some centroids is the first one at the least distance. -/
theorem Centroids.firstNearest (h : Centroids dim k cs) (hk : 1 ≤ k) (hv : v.length = dim) :
    FirstNearest cs v (nearest cs v) (nearestSq cs v) := by
  have hne : cs ≠ [] := by
    rw [← List.length_pos_iff, h.length_eq]
    exact hk
  have hspec := assignToCluster_spec hne fun c hc => (h.dims c hc).trans hv.symm
  exact hspec.of_ok (h.nearest_spec hk hv).1

end IqdbIvf
