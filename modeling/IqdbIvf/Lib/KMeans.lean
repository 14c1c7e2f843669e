import Mathlib.Algebra.BigOperators.Ring.Finset
import Mathlib.Algebra.Order.BigOperators.Group.Finset
import Mathlib.Algebra.Order.BigOperators.Group.List
import Mathlib.Algebra.Order.Field.Basic
import Mathlib.Data.List.GetD
import Mathlib.Data.List.MinMax
import Mathlib.Tactic.Linarith
import Mathlib.Tactic.Ring

/-!
# The k-means objective

Points are lists of coordinates over an ordered field. The cost of some centres is the sum, over the
points, of the squared distance to the nearest centre. The mean of a non-empty list of points
minimises the sum of the squared distances to them (`sum_sqDist_mean_le`), so moving each centre to
the mean of the points that it is nearest to does not raise the cost, wherever the centres without
points are moved (`cost_le_of_means`). The cost is zero only when every point is a centre. And the
means of points in a box are in the box (`closedUnderMeans_box`). `Rotation` is a linear map that
keeps distances.
-/

set_option linter.unusedSectionVars false

namespace KMeans

open Finset (range)

variable {K : Type} [Field K] [LinearOrder K] [IsStrictOrderedRing K] {dim k : ℕ}
  {cs cs' ws : List (List K)} {a b c v : List K}

/-! ## Squared distances -/

/-- The squared distance of two points. -/
def sqDist (a b : List K) : K := (List.zipWith (fun x y => (x - y) * (x - y)) a b).sum

/-- The squared distance, one coordinate first. -/
theorem sqDist_cons (x y : K) (a b : List K) :
    sqDist (x :: a) (y :: b) = (x - y) * (x - y) + sqDist a b := by
  unfold sqDist
  rw [List.zipWith_cons_cons, List.sum_cons]

/-- A squared distance is not negative. -/
theorem sqDist_nonneg (a b : List K) : 0 ≤ sqDist a b := by
  induction a generalizing b with
  | nil => exact le_refl _
  | cons x a ih =>
    cases b with
    | nil => exact le_refl _
    | cons y b =>
      rw [sqDist_cons]
      exact add_nonneg (mul_self_nonneg _) (ih b)

/-- Two points of one dimension have distance zero exactly when they are the same. -/
theorem sqDist_eq_zero_iff (h : a.length = b.length) : sqDist a b = 0 ↔ a = b := by
  induction a generalizing b with
  | nil =>
    rw [List.length_nil] at h
    obtain rfl := List.length_eq_zero_iff.1 h.symm
    exact iff_of_true rfl rfl
  | cons x a ih =>
    cases b with
    | nil => cases h
    | cons y b =>
      rw [List.length_cons, List.length_cons, Nat.add_right_cancel_iff] at h
      rw [sqDist_cons, add_eq_zero_iff_of_nonneg (mul_self_nonneg _) (sqDist_nonneg a b),
        mul_self_eq_zero, sub_eq_zero, ih h, List.cons.injEq]

/-- The squared distance does not depend on the order of the points. -/
theorem sqDist_comm (a b : List K) : sqDist a b = sqDist b a := by
  unfold sqDist
  rw [List.zipWith_comm]
  congr 2
  funext x y
  ring

/-- The distance of a point to itself. -/
@[simp] theorem sqDist_self (a : List K) : sqDist a a = 0 := (sqDist_eq_zero_iff rfl).2 rfl

/-- The squared distance as a sum over the coordinates. -/
theorem sqDist_eq_sum (ha : a.length = dim) (hb : b.length = dim) :
    sqDist a b =
      ∑ j ∈ range dim, (a.getD j 0 - b.getD j 0) * (a.getD j 0 - b.getD j 0) := by
  induction dim generalizing a b with
  | zero =>
    obtain rfl := List.length_eq_zero_iff.1 ha
    rfl
  | succ dim ih =>
    obtain ⟨x, a, rfl⟩ := List.exists_cons_of_length_eq_add_one ha
    obtain ⟨y, b, rfl⟩ := List.exists_cons_of_length_eq_add_one hb
    rw [sqDist_cons, ih (Nat.succ.inj ha) (Nat.succ.inj hb), Finset.sum_range_succ', add_comm]
    rfl

/-! ## The nearest centre -/

/-- The squared distance from a point to the nearest centre. -/
def nearestSq (cs : List (List K)) (v : List K) : K :=
  ((cs.map fun c => sqDist c v).min?).getD 0

/-- The sum over the points of the squared distance to the nearest centre. -/
def cost (cs ws : List (List K)) : K := (ws.map (nearestSq cs)).sum

/-- The distance to the nearest centre is the least one. -/
theorem nearestSq_eq_iff {m : K} (hne : cs ≠ []) :
    nearestSq cs v = m ↔ (∃ c ∈ cs, sqDist c v = m) ∧ ∀ c ∈ cs, m ≤ sqDist c v := by
  obtain ⟨d, hd⟩ := Option.isSome_iff_exists.1 (List.isSome_min?_of_ne_nil
    (fun hnil => hne (List.map_eq_nil_iff.1 hnil) : (cs.map fun c => sqDist c v) ≠ []))
  have hiff : nearestSq cs v = m ↔ (cs.map fun c => sqDist c v).min? = some m := by
    unfold nearestSq
    rw [hd, Option.getD_some, Option.some_inj]
  rw [hiff, List.min?_eq_some_iff, List.mem_map, List.forall_mem_map]

/-- No centre is closer than the nearest one. -/
theorem nearestSq_le (hc : c ∈ cs) (v : List K) : nearestSq cs v ≤ sqDist c v :=
  ((nearestSq_eq_iff (List.ne_nil_of_mem hc)).1 rfl).2 c hc

/-- Some centre is at the distance of the nearest one. -/
theorem exists_nearestSq (hne : cs ≠ []) (v : List K) : ∃ c ∈ cs, sqDist c v = nearestSq cs v :=
  ((nearestSq_eq_iff hne).1 rfl).1

/-- The distance to the nearest of one centre. -/
theorem nearestSq_singleton (c v : List K) : nearestSq [c] v = sqDist c v := by
  rw [nearestSq_eq_iff (List.cons_ne_nil c [])]
  simp

/-- One more centre can only lower the distance to the nearest one. -/
theorem nearestSq_append (hne : cs ≠ []) (c v : List K) :
    nearestSq (cs ++ [c]) v = min (nearestSq cs v) (sqDist c v) := by
  rw [nearestSq_eq_iff (List.append_ne_nil_of_left_ne_nil hne _)]
  constructor
  · rcases min_choice (nearestSq cs v) (sqDist c v) with hmin | hmin
    · obtain ⟨c', hc', heq⟩ := exists_nearestSq hne v
      exact ⟨c', List.mem_append_left _ hc', heq.trans hmin.symm⟩
    · exact ⟨c, List.mem_append_right _ (List.mem_singleton_self c), hmin.symm⟩
  · intro c' hc'
    rcases List.mem_append.1 hc' with hc' | hc'
    · exact (min_le_left _ _).trans (nearestSq_le hc' v)
    · rw [List.mem_singleton.1 hc']
      exact min_le_right _ _

/-- The distance to the nearest centre is not negative. -/
theorem nearestSq_nonneg (hne : cs ≠ []) (v : List K) : 0 ≤ nearestSq cs v := by
  obtain ⟨c, -, heq⟩ := exists_nearestSq hne v
  rw [← heq]
  exact sqDist_nonneg c v

/-- The nearest centre is at distance zero exactly when the point is a centre. -/
theorem nearestSq_eq_zero_iff (hne : cs ≠ []) (hdims : ∀ c ∈ cs, c.length = v.length) :
    nearestSq cs v = 0 ↔ v ∈ cs := by
  rw [nearestSq_eq_iff hne, and_iff_left fun c _ => sqDist_nonneg c v]
  constructor
  · rintro ⟨c, hc, hzero⟩
    rwa [← (sqDist_eq_zero_iff (hdims c hc)).1 hzero]
  · exact fun hv => ⟨v, hv, sqDist_self v⟩

/-- The first of the nearest centres is at position `i`, and its squared distance is `d`. -/
structure FirstNearest (cs : List (List K)) (v : List K) (i : ℕ) (d : K) : Prop where
  at_index : ∃ c, cs[i]? = some c ∧ sqDist c v = d
  le : ∀ c ∈ cs, d ≤ sqDist c v
  lt_of_lt : ∀ (j : ℕ) c, j < i → cs[j]? = some c → d < sqDist c v

namespace FirstNearest

variable {i : ℕ} {d : K}

/-- The only centre is the first of the nearest. -/
theorem singleton (c v : List K) : FirstNearest [c] v 0 (sqDist c v) where
  at_index := ⟨c, rfl, rfl⟩
  le c' hc' := by
    rw [List.mem_singleton.1 hc']
  lt_of_lt j _ hj := absurd hj (Nat.not_lt_zero j)

/-- A strictly nearer centre behind the others takes the place of the nearest. -/
theorem append_of_lt (h : FirstNearest cs v i d) (hlt : sqDist c v < d) :
    FirstNearest (cs ++ [c]) v cs.length (sqDist c v) where
  at_index := ⟨c, List.getElem?_concat_length, rfl⟩
  le c' hc' := by
    rcases List.mem_append.1 hc' with hc' | hc'
    · exact hlt.le.trans (h.le c' hc')
    · rw [List.mem_singleton.1 hc']
  lt_of_lt j c' hj hc' := by
    rw [List.getElem?_append_left hj] at hc'
    exact hlt.trans_le (h.le c' (List.mem_of_getElem? hc'))

/-- A centre behind the others that is no nearer changes nothing. -/
theorem append_of_le (h : FirstNearest cs v i d) (hle : d ≤ sqDist c v) :
    FirstNearest (cs ++ [c]) v i d := by
  obtain ⟨c₀, hc₀, hd⟩ := h.at_index
  have hi : i < cs.length := (List.getElem?_eq_some_iff.1 hc₀).1
  refine ⟨⟨c₀, by rw [List.getElem?_append_left hi, hc₀], hd⟩, ?_, ?_⟩
  · intro c' hc'
    rcases List.mem_append.1 hc' with hc' | hc'
    · exact h.le c' hc'
    · rwa [List.mem_singleton.1 hc']
  · intro j c' hj hc'
    rw [List.getElem?_append_left (hj.trans hi)] at hc'
    exact h.lt_of_lt j c' hj hc'

/-- The distance of the first of the nearest centres is that of the nearest. -/
theorem eq_nearestSq (h : FirstNearest cs v i d) : d = nearestSq cs v := by
  obtain ⟨c, hc, hd⟩ := h.at_index
  have hmem : c ∈ cs := List.mem_of_getElem? hc
  exact ((nearestSq_eq_iff (List.ne_nil_of_mem hmem)).2 ⟨⟨c, hmem, hd⟩, h.le⟩).symm

end FirstNearest

/-- Assigning the points to other centres than the nearest ones does not lower the sum. -/
theorem cost_le_of_assignment {f : List K → List K} (hf : ∀ v ∈ ws, f v ∈ cs) :
    cost cs ws ≤ (ws.map fun v => sqDist (f v) v).sum :=
  List.sum_le_sum fun v hv => nearestSq_le (hf v hv) v

/-! ## Means -/

/-- The sum of some points, coordinate by coordinate. -/
def coordinateSum (dim : ℕ) (vs : List (List K)) : List K :=
  vs.foldl (List.zipWith (· + ·)) (List.replicate dim 0)

/-- The mean of some points. -/
def mean (dim : ℕ) (vs : List (List K)) : List K :=
  (coordinateSum dim vs).map fun s => s * (1 / (vs.length : K))

/-- Adding one more point. -/
theorem coordinateSum_append (dim : ℕ) (vs : List (List K)) (v : List K) :
    coordinateSum dim (vs ++ [v]) = List.zipWith (· + ·) (coordinateSum dim vs) v :=
  List.foldl_append

/-- The sum of points of one dimension has the dimension, and sums every coordinate. -/
theorem coordinateSum_spec {vs : List (List K)} (hdims : ∀ v ∈ vs, v.length = dim) :
    (coordinateSum dim vs).length = dim ∧
      ∀ j < dim, (coordinateSum dim vs).getD j 0 = (vs.map fun v => v.getD j 0).sum := by
  induction vs using List.reverseRecOn with
  | nil =>
    refine ⟨List.length_replicate, fun j hj => ?_⟩
    exact List.getD_replicate 0 hj
  | append_singleton vs v ih =>
    obtain ⟨hlen, hsum⟩ := ih fun v' hv' => hdims v' (List.mem_append_left _ hv')
    have hv : v.length = dim := hdims v (List.mem_append_right _ (List.mem_singleton_self v))
    rw [coordinateSum_append]
    refine ⟨by rw [List.length_zipWith, hlen, hv, min_self], fun j hj => ?_⟩
    rw [List.map_append, List.sum_append, List.map_singleton, List.sum_singleton, ← hsum j hj,
      List.getD_eq_getElem _ _ (by rw [List.length_zipWith, hlen, hv, min_self]; exact hj),
      List.getElem_zipWith, List.getD_eq_getElem _ _ (by rw [hlen]; exact hj),
      List.getD_eq_getElem _ _ (by rw [hv]; exact hj)]

/-- The sum of squares around a number. -/
theorem sum_sub_sq (x : K) (xs : List K) :
    (xs.map fun y => (x - y) * (x - y)).sum =
      xs.length * x * x - 2 * x * xs.sum + (xs.map fun y => y * y).sum := by
  induction xs with
  | nil => simp
  | cons y xs ih =>
    rw [List.map_cons, List.sum_cons, ih, List.map_cons, List.sum_cons, List.sum_cons,
      List.length_cons]
    push_cast
    ring

/-- The sum of squares is least around the mean. -/
theorem sum_sub_sq_mean_le (x : K) {xs : List K} (hne : xs ≠ []) :
    (xs.map fun y => (xs.sum * (1 / (xs.length : K)) - y) *
      (xs.sum * (1 / (xs.length : K)) - y)).sum ≤ (xs.map fun y => (x - y) * (x - y)).sum := by
  have hpos : (0 : K) < xs.length := by
    exact_mod_cast List.length_pos_iff.2 hne
  -- The sums differ by `n (x - mean)²`.
  have hsum : xs.sum = xs.length * (xs.sum * (1 / (xs.length : K))) := by
    rw [mul_comm xs.sum, ← mul_assoc, mul_one_div_cancel hpos.ne', one_mul]
  have hsq : 0 ≤ (xs.length : K) * ((x - xs.sum * (1 / (xs.length : K))) *
      (x - xs.sum * (1 / (xs.length : K)))) := mul_nonneg hpos.le (mul_self_nonneg _)
  rw [sum_sub_sq, sum_sub_sq]
  generalize xs.sum * (1 / (xs.length : K)) = m at hsum hsq ⊢
  rw [hsum]
  linarith

/-- A sum over points of sums over coordinates, the other way round. -/
theorem sum_map_sum (vs : List (List K)) (f : List K → ℕ → K) :
    (vs.map fun v => ∑ j ∈ range dim, f v j).sum =
      ∑ j ∈ range dim, (vs.map fun v => f v j).sum := by
  induction vs with
  | nil => simp
  | cons v vs ih => simp only [List.map_cons, List.sum_cons, ih, Finset.sum_add_distrib]

/-- The mean of some points minimises the sum of the squared distances to them. -/
theorem sum_sqDist_mean_le {vs : List (List K)} (hne : vs ≠ []) (hdims : ∀ v ∈ vs, v.length = dim)
    (hc : c.length = dim) :
    (vs.map (sqDist (mean dim vs))).sum ≤ (vs.map (sqDist c)).sum := by
  obtain ⟨hlen, hsum⟩ := coordinateSum_spec hdims
  have hmean : (mean dim vs).length = dim := (List.length_map _).trans hlen
  -- The squared distances are sums over the coordinates, and the mean minimises each of them.
  have hcoords : ∀ {m : List K}, m.length = dim → (vs.map (sqDist m)).sum =
      ∑ j ∈ range dim, ((vs.map fun v => v.getD j 0).map fun y =>
        (m.getD j 0 - y) * (m.getD j 0 - y)).sum := by
    intro m hm
    simp only [List.map_map]
    rw [← sum_map_sum]
    congr 1
    exact List.map_congr_left fun v hv => sqDist_eq_sum hm (hdims v hv)
  rw [hcoords hmean, hcoords hc]
  apply Finset.sum_le_sum
  intro j hj
  have hj' : j < dim := Finset.mem_range.1 hj
  have hget : (mean dim vs).getD j 0 = (vs.map fun v => v.getD j 0).sum *
      (1 / ((vs.map fun v => v.getD j 0).length : K)) := by
    rw [← hsum j hj', List.length_map, List.getD_eq_getElem _ _ (by rw [hmean]; exact hj'),
      List.getD_eq_getElem _ _ (by rw [hlen]; exact hj')]
    exact List.getElem_map _
  rw [hget]
  exact sum_sub_sq_mean_le _ fun hnil => hne (List.map_eq_nil_iff.1 hnil)

/-! ## Moving the centres -/

/-- A sum over the points, regrouped by the class of each point. -/
theorem sum_map_classes {α : Type} (xs : List α) {cls : α → ℕ} (hcls : ∀ x ∈ xs, cls x < k)
    (f : ℕ → α → K) :
    ∑ i ∈ range k, ((xs.filter fun x => cls x = i).map (f i)).sum =
      (xs.map fun x => f (cls x) x).sum := by
  induction xs with
  | nil => simp
  | cons x xs ih =>
    have hx : cls x ∈ range k := Finset.mem_range.2 (hcls x List.mem_cons_self)
    have hsplit : ∀ i, (((x :: xs).filter fun x => cls x = i).map (f i)).sum =
        (if cls x = i then f i x else 0) + ((xs.filter fun x => cls x = i).map (f i)).sum := by
      intro i
      rw [List.filter_cons]
      by_cases hi : cls x = i
      · simp [hi]
      · simp [hi]
    rw [Finset.sum_congr rfl fun i _ => hsplit i, Finset.sum_add_distrib, Finset.sum_ite_eq,
      if_pos hx, ih fun y hy => hcls y (List.mem_cons_of_mem x hy), List.map_cons, List.sum_cons]

/-- Moving every centre that has points to their mean does not raise the cost; the other centres may
move anywhere. -/
theorem cost_le_of_means {cls : List K → ℕ} (hdims : ∀ c ∈ cs, c.length = dim)
    (hws : ∀ v ∈ ws, v.length = dim)
    (hcls : ∀ v ∈ ws, ∃ c, cs[cls v]? = some c ∧ sqDist c v = nearestSq cs v)
    (hmeans : ∀ v ∈ ws, cs'[cls v]? = some (mean dim (ws.filter fun w => cls w = cls v))) :
    cost cs' ws ≤ cost cs ws := by
  have hlt : ∀ v ∈ ws, cls v < cs.length := by
    intro v hv
    obtain ⟨c, hc, -⟩ := hcls v hv
    exact (List.getElem?_eq_some_iff.1 hc).1
  calc cost cs' ws
      ≤ (ws.map fun v => sqDist (mean dim (ws.filter fun w => cls w = cls v)) v).sum :=
        cost_le_of_assignment fun v hv => List.mem_of_getElem? (hmeans v hv)
    _ = ∑ i ∈ range cs.length, ((ws.filter fun v => cls v = i).map
          (sqDist (mean dim (ws.filter fun w => cls w = i)))).sum :=
        (sum_map_classes ws hlt fun i => sqDist (mean dim (ws.filter fun w => cls w = i))).symm
    _ ≤ ∑ i ∈ range cs.length,
          ((ws.filter fun v => cls v = i).map (sqDist (cs.getD i []))).sum := by
        apply Finset.sum_le_sum
        intro i hi
        have hi' : i < cs.length := Finset.mem_range.1 hi
        by_cases hnil : (ws.filter fun v => cls v = i) = []
        · rw [hnil]
          exact le_refl _
        · apply sum_sqDist_mean_le hnil fun v hv => hws v (List.mem_of_mem_filter hv)
          rw [List.getD_eq_getElem _ _ hi']
          exact hdims _ (List.getElem_mem hi')
    _ = (ws.map fun v => sqDist (cs.getD (cls v) []) v).sum :=
        sum_map_classes ws hlt fun i => sqDist (cs.getD i [])
    _ = cost cs ws := by
        unfold cost
        congr 1
        apply List.map_congr_left
        intro v hv
        obtain ⟨c, hc, heq⟩ := hcls v hv
        rw [List.getD_eq_getElem?_getD, hc, Option.getD_some, heq]

/-- Points cost nothing exactly when they are all centres. -/
theorem cost_eq_zero_iff (hne : cs ≠ []) (hcs : ∀ c ∈ cs, c.length = dim)
    (hws : ∀ v ∈ ws, v.length = dim) : cost cs ws = 0 ↔ ∀ v ∈ ws, v ∈ cs := by
  have hzero : ∀ v ∈ ws, nearestSq cs v = 0 ↔ v ∈ cs := fun v hv =>
    nearestSq_eq_zero_iff hne fun c hc => (hcs c hc).trans (hws v hv).symm
  constructor
  · intro hcost v hv
    have hle : nearestSq cs v ≤ cost cs ws :=
      List.single_le_sum (by
        intro d hd
        obtain ⟨w, -, rfl⟩ := List.mem_map.1 hd
        exact nearestSq_nonneg hne w) _ (List.mem_map_of_mem hv)
    rw [hcost] at hle
    exact (hzero v hv).1 (le_antisymm hle (nearestSq_nonneg hne v))
  · intro hall
    unfold cost
    apply List.sum_eq_zero
    intro d hd
    obtain ⟨v, hv, rfl⟩ := List.mem_map.1 hd
    exact (hzero v hv).2 (hall v hv)

/-! ## Deviations of numbers -/

/-- The squared deviations from the mean add up to the squares less the square of the mean for every
number. -/
theorem sum_sq_dev {xs : List K} (hne : xs ≠ []) {m : K} (hm : m = xs.sum / xs.length) :
    (xs.map fun y => (y - m) * (y - m)).sum =
      (xs.map fun y => y * y).sum - xs.length * (m * m) := by
  have hpos : (0 : K) < xs.length := Nat.cast_pos.2 (List.length_pos_iff.2 hne)
  have hsum : xs.sum = xs.length * m := by
    rw [hm, mul_div_cancel₀ _ hpos.ne']
  have hswap : (xs.map fun y => (y - m) * (y - m)) = xs.map fun y => (m - y) * (m - y) :=
    List.map_congr_left fun y _ => by ring
  rw [hswap, sum_sub_sq, hsum]
  ring

/-- No squared deviation is larger than the sum of all. -/
theorem sq_dev_le_sum (m : K) {xs : List K} {y : K} (hy : y ∈ xs) :
    (y - m) * (y - m) ≤ (xs.map fun y => (y - m) * (y - m)).sum := by
  apply List.single_le_sum _ _ (List.mem_map_of_mem hy)
  intro d hd
  obtain ⟨z, -, rfl⟩ := List.mem_map.1 hd
  exact mul_self_nonneg _

/-- The squared deviations add up to zero exactly when there are none. -/
theorem sum_sq_dev_eq_zero_iff (m : K) (xs : List K) :
    (xs.map fun y => (y - m) * (y - m)).sum = 0 ↔ ∀ y ∈ xs, y = m := by
  constructor
  · intro hzero y hy
    have hle := sq_dev_le_sum m hy
    rw [hzero] at hle
    exact sub_eq_zero.1 (mul_self_eq_zero.1 (le_antisymm hle (mul_self_nonneg _)))
  · intro hall
    apply List.sum_eq_zero
    intro d hd
    obtain ⟨y, hy, rfl⟩ := List.mem_map.1 hd
    rw [hall y hy, sub_self, mul_zero]

/-! ## Hulls -/

/-- Means of points with the property have it. -/
def ClosedUnderMeans (dim : ℕ) (P : List K → Prop) : Prop :=
  ∀ vs : List (List K), vs ≠ [] → (∀ v ∈ vs, v.length = dim) → (∀ v ∈ vs, P v) → P (mean dim vs)

/-- The points between two corners. -/
def Box (dim : ℕ) (lo hi : ℕ → K) (v : List K) : Prop :=
  ∀ j < dim, lo j ≤ v.getD j 0 ∧ v.getD j 0 ≤ hi j

/-- A coordinate of the mean of some points. -/
theorem getD_mean {vs : List (List K)} (hdims : ∀ v ∈ vs, v.length = dim) {j : ℕ} (hj : j < dim) :
    (mean dim vs).getD j 0 = (vs.map fun v => v.getD j 0).sum * (1 / (vs.length : K)) := by
  obtain ⟨hlen, hsum⟩ := coordinateSum_spec hdims
  have hmean : (mean dim vs).length = dim := (List.length_map _).trans hlen
  rw [← hsum j hj, List.getD_eq_getElem _ _ (by rw [hmean]; exact hj),
    List.getD_eq_getElem _ _ (by rw [hlen]; exact hj)]
  exact List.getElem_map _

/-- A box holds the means of its points. -/
theorem closedUnderMeans_box (dim : ℕ) (lo hi : ℕ → K) : ClosedUnderMeans dim (Box dim lo hi) := by
  intro vs hne hdims hbox j hj
  have hpos : (0 : K) < vs.length := by
    exact_mod_cast List.length_pos_iff.2 hne
  have hlen : ((vs.map fun v => v.getD j 0).length : K) = vs.length := by rw [List.length_map]
  rw [getD_mean hdims hj, mul_one_div]
  constructor
  · rw [le_div_iff₀ hpos, ← hlen, mul_comm, ← nsmul_eq_mul]
    apply List.card_nsmul_le_sum
    intro x hx
    obtain ⟨v, hv, rfl⟩ := List.mem_map.1 hx
    exact (hbox v hv j hj).1
  · rw [div_le_iff₀ hpos, ← hlen, mul_comm, ← nsmul_eq_mul]
    apply List.sum_le_card_nsmul
    intro x hx
    obtain ⟨v, hv, rfl⟩ := List.mem_map.1 hx
    exact (hbox v hv j hj).2

/-! ## Rotations -/

/-- A linear map of the points that keeps their distances: a rotation or a reflection. -/
structure Rotation (K : Type) [Field K] where
  toFun : List K → List K
  length_eq : ∀ v, (toFun v).length = v.length
  add : ∀ a b, a.length = b.length →
    toFun (List.zipWith (· + ·) a b) = List.zipWith (· + ·) (toFun a) (toFun b)
  smul : ∀ x v, toFun (v.map fun y => y * x) = (toFun v).map fun y => y * x
  sqDist_eq : ∀ a b, a.length = b.length → sqDist (toFun a) (toFun b) = sqDist a b

/-- A rotation as a function. -/
instance : CoeFun (Rotation K) fun _ => List K → List K := ⟨Rotation.toFun⟩

/-- The origin stays where it is. -/
theorem Rotation.zeros (ρ : Rotation K) (v : List K) :
    ρ (v.map fun _ => 0) = (ρ v).map fun _ => 0 := by
  have hscale := ρ.smul 0 v
  simpa only [mul_zero] using hscale

/-- The rotation by half a turn, or the reflection in the origin. -/
def Rotation.halfTurn (K : Type) [Field K] : Rotation K where
  toFun v := v.map fun x => -x
  length_eq v := List.length_map _
  add a b _ := by
    rw [List.map_zipWith, List.zipWith_map]
    simp only [neg_add]
  smul x v := by
    rw [List.map_map, List.map_map]
    exact List.map_congr_left fun y _ => (neg_mul y x).symm
  sqDist_eq a b _ := by
    unfold sqDist
    rw [List.zipWith_map]
    congr 2
    funext x y
    ring

end KMeans
