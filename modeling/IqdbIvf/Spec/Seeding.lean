import Mathlib.Data.Finset.Card
import IqdbIvf.Spec.Exact

/-!
# The k-means++ seeds

Over exact arithmetic the weights of the draw are the squared distances to the nearest seed, so
their sum is zero exactly when every point is a seed. While it is positive the draw is aimed at a
positive number that is no larger than the sum: the first index at which the running sum reaches it
has a positive weight, and the scan finds one. Each round therefore adds a new point, until all
points are seeds.
-/

set_option linter.unusedSectionVars false

namespace IqdbIvf

open Outcome KMeans Rational SplitMix64

section Rounds

variable {F32 : Type} [Arith F32]

/-- The state of the seeding loop after some rounds. -/
def seedRounds (working_set : List (List F32)) (rng : SplitMix64) (rounds : ℕ) :
    Checked (Seeding F32) := do
  let (draw, rng) ← rng.nextBelow (UInt64.ofNat working_set.length)
  let first ← index working_set draw.toNat
  let min_sq ← working_set.mapM (squaredL2 first)
  (List.range' 1 rounds).foldlM (fun st _ => seedStep working_set st) ⟨[first], min_sq, rng⟩

/-- The number that the running sum of the weights must reach. -/
def drawTarget (min_sq : List F32) (rng : SplitMix64) : Arith.F64 F32 :=
  (rng.nextOpenUnit : Arith.F64 F32 × SplitMix64).1 *
    min_sq.foldl (fun total w => total + Arith.widen w) 0

/-- One more round. -/
theorem seedRounds_succ (ws : List (List F32)) (rng : SplitMix64) (rounds : ℕ) :
    seedRounds ws rng (rounds + 1) = seedRounds ws rng rounds >>= seedStep ws := by
  unfold seedRounds
  simp only [List.range'_1_concat, List.foldlM_append, List.foldlM_cons, List.foldlM_nil, bind_pure,
    bind_assoc]

/-- The seeding returns the seeds after its rounds. -/
theorem kmeansPlusPlus_of_rounds {dim n_clusters : ℕ} {ws : List (List F32)} {rng : SplitMix64}
    {st : Seeding F32} (hrounds : seedRounds ws rng (n_clusters - 1) = .ok st)
    (hlen : st.centroids.length = n_clusters) (hdims : ∀ c ∈ st.centroids, c.length = dim) :
    kmeansPlusPlus dim n_clusters ws rng = .ok (st.centroids, st.rng) := by
  have hall : (st.centroids.all fun c => c.length == dim) = true := by
    rw [List.all_eq_true]
    intro c hc
    rw [beq_iff_eq]
    exact hdims c hc
  have heq : kmeansPlusPlus dim n_clusters ws rng = seedRounds ws rng (n_clusters - 1) >>=
      fun st => do
        debugAssert (st.centroids.length == n_clusters)
        debugAssert (st.centroids.all fun c => c.length == dim)
        return (st.centroids, st.rng) := by
    unfold kmeansPlusPlus seedRounds
    simp only [bind_assoc]
  rw [heq, hrounds, ok_bind, debugAssert_of (by rw [beq_iff_eq]; exact hlen), ok_bind,
    debugAssert_of hall]
  rfl

end Rounds

/-! ## The draw -/

section Draw

variable {K : Type} [Field K] [LinearOrder K] [IsStrictOrderedRing K] [SquareRoot K]
  {dim : ℕ} {ws cs : List (List K)} {st : Seeding K}

/-- The smallest draw, as a number of the field. -/
theorem openUnitStep_eq : (openUnitStep : Arith.F64 K) = (1 / 2^53 : K) := by
  show (1 / ((2^53 : ℕ) : K)) = 1 / 2^53
  rw [Nat.cast_pow, Nat.cast_ofNat]

/-- The attempts of `next_open_unit` end in a number above `0` that is at most `1`. -/
theorem openUnitLoop_bounds (tries : ℕ) (rng : SplitMix64) :
    (0 : K) < (openUnitLoop tries rng : Arith.F64 K × SplitMix64).1 ∧
      (openUnitLoop tries rng : Arith.F64 K × SplitMix64).1 ≤ (1 : K) := by
  have hpow : (0 : K) < 2^53 := by positivity
  induction tries generalizing rng with
  | zero =>
    rw [openUnitLoop, openUnitStep_eq]
    refine ⟨one_div_pos.2 hpow, (div_le_one hpow).2 ?_⟩
    exact one_le_pow₀ one_le_two
  | succ tries ih =>
    rw [openUnitLoop]
    dsimp only [nextU64]
    generalize hbits : mix (rng.state + gamma) >>> 11 = bits
    split_ifs with hne
    · -- The upper 53 bits are a number between `1` and `2^53`.
      have hpos : 0 < bits.toNat := Nat.pos_of_ne_zero fun h => hne (UInt64.toNat.inj h)
      have hlt : bits.toNat < 2^53 := by
        have hword := (mix (rng.state + gamma)).toNat_lt
        rw [← hbits, UInt64.toNat_shiftRight, Nat.shiftRight_eq_div_pow]
        exact Nat.div_lt_of_lt_mul hword
      have hvalue : ((Double.ofInteger bits.toNat * openUnitStep : Arith.F64 K)) =
          (bits.toNat : K) / 2^53 := by
        rw [openUnitStep_eq]
        exact mul_one_div _ _
      dsimp only
      rw [hvalue]
      refine ⟨div_pos (Nat.cast_pos.2 hpos) hpow, (div_le_one hpow).2 ?_⟩
      exact_mod_cast hlt.le
    · exact ih _

/-- The scan finds an index of positive weight when it still has to come up to the target and the
weights suffice for that. -/
theorem inverseCdf_spec {target running : K} {weights : List (K × ℕ)} (hlt : running < target)
    (hle : target ≤ running + (weights.map Prod.fst).sum) :
    ∃ w i, @inverseCdf K _ target running weights = some i ∧ (w, i) ∈ weights ∧ 0 < w := by
  induction weights generalizing running with
  | nil =>
    rw [List.map_nil, List.sum_nil, add_zero] at hle
    exact absurd hlt (not_lt.2 hle)
  | cons p weights ih =>
    obtain ⟨w, i⟩ := p
    rw [inverseCdf]
    rw [List.map_cons, List.sum_cons, ← add_assoc] at hle
    by_cases hreach : target ≤ running + w
    · -- The sum was below the target before this weight and is not any more.
      refine ⟨w, i, if_pos (exact_le.2 hreach), List.mem_cons_self, ?_⟩
      exact pos_of_lt_add_right (hlt.trans_le hreach)
    · obtain ⟨w', i', hfound, hmem, hpos⟩ := ih (not_le.1 hreach) hle
      refine ⟨w', i', ?_, List.mem_cons_of_mem _ hmem, hpos⟩
      exact (if_neg (mt exact_le.1 hreach)).trans hfound

/-- While the sum of the weights is positive, the draw takes the index that the scan finds, whose
weight is positive. -/
theorem drawIndex_spec {n : ℕ} (hn : 0 < n) {min_sq : List K} (hpos : 0 < min_sq.sum)
    (rng : SplitMix64) :
    ∃ w i, drawIndex n min_sq rng =
        .ok (i, (rng.nextOpenUnit : Arith.F64 K × SplitMix64).2) ∧
      inverseCdf (drawTarget min_sq rng) 0 min_sq.zipIdx = some i ∧ min_sq[i]? = some w ∧
      0 < w := by
  have htotal : min_sq.foldl (fun (total : Arith.F64 K) w => total + Arith.widen w) 0 =
      min_sq.sum := List.sum_eq_foldl.symm
  obtain ⟨hunit, hunit'⟩ := openUnitLoop_bounds (K := K) 4 rng
  have htarget : drawTarget min_sq rng =
      ((rng.nextOpenUnit : Arith.F64 K × SplitMix64).1 : K) * min_sq.sum := by
    unfold drawTarget
    rw [htotal]
  have hlt : (0 : K) < drawTarget min_sq rng := by
    rw [htarget]
    exact mul_pos hunit hpos
  have hle : (drawTarget min_sq rng : K) ≤ 0 + (min_sq.zipIdx.map Prod.fst).sum := by
    rw [htarget, List.zipIdx_map_fst, zero_add]
    exact mul_le_of_le_one_left hpos.le hunit'
  obtain ⟨w, i, hfound, hmem, hw⟩ := inverseCdf_spec hlt hle
  refine ⟨w, i, ?_, hfound, List.mem_zipIdx_iff_getElem?.1 hmem, hw⟩
  unfold drawIndex
  dsimp only
  rw [htotal, if_neg (mt exact_le.1 (not_le.2 hpos)), subtract_of_le hn, ok_bind, pure_eq_ok]
  unfold drawTarget at hfound
  rw [htotal] at hfound
  rw [hfound]
  rfl

/-! ## The rounds -/

/-- The refresh lowers every distance to that of the nearest seed, the new one included. -/
theorem refresh_eq (hne : cs ≠ []) {c : List K} (hdims : ∀ v ∈ ws, c.length = v.length) :
    Returns (ws.zipIdx.foldlM (refreshStep c) (ws.map (nearestSq cs))) fun min_sq =>
      min_sq = ws.map (nearestSq (cs ++ [c])) := by
  -- The points already read have the new distance, the others still have the old one.
  refine (Meets.foldlM_zipIdx (fun pre min_sq => ∀ post, ws = pre ++ post →
    min_sq = pre.map (nearestSq (cs ++ [c])) ++ post.map (nearestSq cs)) ws 0 ?_ ?_).mono ?_
      fun _ => id
  · intro post hws
    rw [hws]
    rfl
  · intro pre v post hws min_sq hmin
    have hv : c.length = v.length := hdims v (by simp [hws])
    have hold : min_sq[pre.length]? = some (nearestSq cs v) := by
      rw [hmin _ hws]
      simp
    have hlt : pre.length < min_sq.length := (List.getElem?_eq_some_iff.1 hold).1
    have hnew := nearestSq_append hne c v
    unfold refreshStep
    dsimp only
    rw [squaredL2_eq hv, ok_bind, Nat.zero_add, index_eq_ok hold, ok_bind]
    by_cases hnearer : sqDist c v < nearestSq cs v
    · rw [if_pos (exact_lt.2 hnearer), assign_of_lt _ hlt, meets_ok]
      intro post' hws'
      rw [min_eq_right hnearer.le] at hnew
      rw [hmin (v :: post') (by simpa using hws')]
      simp [hnew]
    · rw [if_neg (mt exact_lt.1 hnearer), pure_eq_ok, meets_ok]
      intro post' hws'
      rw [min_eq_left (not_lt.1 hnearer)] at hnew
      rw [hmin (v :: post') (by simpa using hws')]
      simp [hnew]
  · intro min_sq hmin
    have hall := hmin [] (List.append_nil ws).symm
    rwa [List.map_nil, List.append_nil] at hall

/-- What the seeding loop keeps: the seeds are points, the weights are the squared distances to the
nearest seed, and the seeds are distinct or every point is one. -/
structure Seeding.Spread (ws : List (List K)) (st : Seeding K) : Prop where
  ne_nil : st.centroids ≠ []
  subset : ∀ c ∈ st.centroids, c ∈ ws
  min_sq_eq : st.min_sq = ws.map (nearestSq st.centroids)
  distinct : st.centroids.Nodup ∨ ∀ v ∈ ws, v ∈ st.centroids

namespace Seeding.Spread

/-- A point that is not a seed has a positive weight. -/
theorem nearestSq_pos (h : st.Spread ws) (hdims : ∀ v ∈ ws, v.length = dim) {v : List K}
    (hv : v ∈ ws) (hnot : v ∉ st.centroids) : 0 < nearestSq st.centroids v := by
  have hcdims : ∀ c ∈ st.centroids, c.length = v.length :=
    fun c hc => (hdims c (h.subset c hc)).trans (hdims v hv).symm
  apply lt_of_le_of_ne (nearestSq_nonneg h.ne_nil v)
  exact fun hzero => hnot ((nearestSq_eq_zero_iff h.ne_nil hcdims).1 hzero.symm)

/-- While some point is not a seed, the draw takes the index that the scan finds, and the point at
that index is at a positive distance from every seed. -/
theorem draw_new (h : st.Spread ws) (hdims : ∀ v ∈ ws, v.length = dim)
    (hopen : ∃ v ∈ ws, v ∉ st.centroids) :
    ∃ v i, drawIndex ws.length st.min_sq st.rng =
        .ok (i, (st.rng.nextOpenUnit : Arith.F64 K × SplitMix64).2) ∧
      inverseCdf (drawTarget st.min_sq st.rng) 0 st.min_sq.zipIdx = some i ∧
      ws[i]? = some v ∧ ∀ c ∈ st.centroids, 0 < sqDist c v := by
  obtain ⟨v₀, hv₀, hnot⟩ := hopen
  have hsum : 0 < st.min_sq.sum := by
    rw [h.min_sq_eq]
    calc 0 < nearestSq st.centroids v₀ := h.nearestSq_pos hdims hv₀ hnot
      _ ≤ (ws.map (nearestSq st.centroids)).sum := by
        apply List.single_le_sum _ _ (List.mem_map_of_mem hv₀)
        intro d hd
        obtain ⟨v, -, rfl⟩ := List.mem_map.1 hd
        exact nearestSq_nonneg h.ne_nil v
  obtain ⟨w, i, hdraw, hfound, hw, hpos⟩ :=
    drawIndex_spec (List.length_pos_of_mem hv₀) hsum st.rng
  rw [h.min_sq_eq, List.getElem?_map, Option.map_eq_some_iff] at hw
  obtain ⟨v, hv, rfl⟩ := hw
  exact ⟨v, i, hdraw, hfound, hv, fun c hc => hpos.trans_le (nearestSq_le hc v)⟩

/-- The draw takes a point, and one that is not a seed while there is one. -/
theorem draw_spec (h : st.Spread ws) (hdims : ∀ v ∈ ws, v.length = dim) (hn : ws.length < 2^64)
    (hpos : 0 < ws.length) :
    Returns (drawIndex ws.length st.min_sq st.rng) fun r =>
      ∃ v, ws[r.1]? = some v ∧ ((∃ w ∈ ws, w ∉ st.centroids) → v ∉ st.centroids) := by
  by_cases hopen : ∃ w ∈ ws, w ∉ st.centroids
  · obtain ⟨v, i, hdraw, -, hv, hfar⟩ := h.draw_new hdims hopen
    rw [hdraw]
    refine ⟨v, hv, fun _ hmem => ?_⟩
    have hself := hfar v hmem
    rw [sqDist_self] at hself
    exact lt_irrefl _ hself
  · have hlen : st.min_sq.length = ws.length := by rw [h.min_sq_eq, List.length_map]
    apply (drawIndex_returns hn hpos hlen st.rng).mono _ fun _ => id
    intro r hr
    exact ⟨ws[r.1], List.getElem?_eq_getElem hr, fun h' => absurd h' hopen⟩

/-- One round adds a seed and keeps this. -/
theorem seedStep (h : st.Spread ws) (hdims : ∀ v ∈ ws, v.length = dim) (hn : ws.length < 2^64)
    (hpos : 0 < ws.length) :
    Returns (seedStep ws st) fun st' =>
      st'.Spread ws ∧ st'.centroids.length = st.centroids.length + 1 := by
  unfold IqdbIvf.seedStep
  apply Meets.bind (h.draw_spec hdims hn hpos)
  intro ⟨i, rng⟩ ⟨v, hv, hnew⟩
  have hmem : v ∈ ws := List.mem_of_getElem? hv
  have hvdim : ∀ w ∈ ws, v.length = w.length := fun w hw => (hdims v hmem).trans (hdims w hw).symm
  have hlen : (st.centroids ++ [v]).length = st.centroids.length + 1 := List.length_append
  have hlast : (st.centroids ++ [v])[st.centroids.length + 1 - 1]? = some v := by simp
  dsimp only
  rw [index_eq_ok hv, ok_bind, hlen, subtract_of_le (by omega), ok_bind, index_eq_ok hlast, ok_bind,
    h.min_sq_eq]
  apply Meets.bind (refresh_eq h.ne_nil hvdim)
  rintro min_sq rfl
  refine ⟨⟨?_, ?_, rfl, ?_⟩, hlen⟩
  · exact List.append_ne_nil_of_left_ne_nil h.ne_nil _
  · intro c hc
    rcases List.mem_append.1 hc with hc | hc
    · exact h.subset c hc
    · rwa [List.mem_singleton.1 hc]
  · by_cases hopen : ∃ w ∈ ws, w ∉ st.centroids
    · -- The seeds were distinct, and the new one is not among them.
      left
      obtain ⟨w, hw, hnot⟩ := hopen
      have hnodup := h.distinct.resolve_right fun hall => hnot (hall w hw)
      show (st.centroids ++ [v]).Nodup
      rw [← List.concat_eq_append]
      exact hnodup.concat (hnew ⟨w, hw, hnot⟩)
    · right
      intro w hw
      exact List.mem_append_left _ (not_not.1 fun hnot => hopen ⟨w, hw, hnot⟩)

/-- The first seed is a point. -/
theorem first {v : List K} (hv : v ∈ ws) (rng : SplitMix64) :
    (⟨[v], ws.map (nearestSq [v]), rng⟩ : Seeding K).Spread ws where
  ne_nil := List.cons_ne_nil _ _
  subset c hc := by rwa [List.mem_singleton.1 hc]
  min_sq_eq := rfl
  distinct := .inl (List.nodup_singleton v)

/-- The number of distinct seeds. -/
theorem card_eq (h : st.Spread ws) :
    st.centroids.toFinset.card = min st.centroids.length ws.toFinset.card := by
  have hsub : st.centroids.toFinset ⊆ ws.toFinset := by
    intro c hc
    exact List.mem_toFinset.2 (h.subset c (List.mem_toFinset.1 hc))
  have hle := Finset.card_le_card hsub
  rcases h.distinct with hnodup | hall
  · rw [List.toFinset_card_of_nodup hnodup] at hle ⊢
    exact (min_eq_left hle).symm
  · have heq : st.centroids.toFinset = ws.toFinset := by
      apply hsub.antisymm
      intro v hv
      exact List.mem_toFinset.2 (hall v (List.mem_toFinset.1 hv))
    rw [← heq]
    exact (min_eq_right st.centroids.toFinset_card_le).symm

end Seeding.Spread

/-- After any number of rounds there is one seed more than rounds, and the seeds are spread. -/
theorem seedRounds_spec (hdims : ∀ v ∈ ws, v.length = dim) (hn : ws.length < 2^64)
    (hpos : 0 < ws.length) (rng : SplitMix64) (rounds : ℕ) :
    Returns (seedRounds ws rng rounds) fun st =>
      st.Spread ws ∧ st.centroids.length = rounds + 1 := by
  induction rounds with
  | zero =>
    unfold seedRounds
    apply Meets.bind (nextBelow_length_returns hn hpos rng)
    intro ⟨draw, rng'⟩ hdraw
    dsimp only at hdraw ⊢
    have hmem : ws[draw.toNat] ∈ ws := List.getElem_mem hdraw
    have hmin : Returns (ws.mapM (squaredL2 ws[draw.toNat])) fun min_sq =>
        ws.map (nearestSq [ws[draw.toNat]]) = min_sq := by
      have hdist : ∀ v ∈ ws, Returns (squaredL2 ws[draw.toNat] v)
          (nearestSq [ws[draw.toNat]] v = ·) := by
        intro v hv
        rw [squaredL2_eq ((hdims _ hmem).trans (hdims v hv).symm)]
        exact nearestSq_singleton _ v
      refine (Meets.mapM hdist).mono (fun min_sq hall => ?_) fun _ => id
      rwa [← List.forall₂_eq_eq_eq, List.forall₂_map_left_iff]
    rw [index_of_lt hdraw, ok_bind]
    apply Meets.bind hmin
    rintro min_sq rfl
    exact ⟨.first hmem rng', rfl⟩
  | succ rounds ih =>
    rw [seedRounds_succ]
    apply Meets.bind ih
    intro st ⟨hst, hlen⟩
    apply (hst.seedStep hdims hn hpos).mono _ fun _ => id
    intro st' ⟨hst', hlen'⟩
    exact ⟨hst', by rw [hlen', hlen]⟩

/-- The seeding returns as many seeds as asked for, all of them points, with as many distinct ones
as the points allow. In every round the weights are the squared distances to the nearest seed, and
while some point is not a seed the scan finds a point at a positive distance from all seeds. The
uniform draws behind this lie above `0` and are at most `1`. -/
theorem seeds_as_distinct_as_points (ws : Slice (List K)) (hne : ws.1 ≠ [])
    (hdims : ∀ v ∈ ws.1, v.length = dim) {n_clusters : ℕ} (hk : 1 ≤ n_clusters)
    (rng : SplitMix64) :
    (∃ st, seedRounds ws.1 rng (n_clusters - 1) = .ok st ∧
      kmeansPlusPlus dim n_clusters ws.1 rng = .ok (st.centroids, st.rng) ∧
      st.centroids.length = n_clusters ∧ (∀ c ∈ st.centroids, c ∈ ws.1) ∧
      st.centroids.toFinset.card = min n_clusters ws.1.toFinset.card) ∧
    (∀ rounds, ∃ st, seedRounds ws.1 rng rounds = .ok st ∧
      st.min_sq = ws.1.map (nearestSq st.centroids) ∧
      ((∃ v ∈ ws.1, v ∉ st.centroids) → ∃ v i,
        drawIndex ws.1.length st.min_sq st.rng =
          .ok (i, (st.rng.nextOpenUnit : Arith.F64 K × SplitMix64).2) ∧
        inverseCdf (drawTarget st.min_sq st.rng) 0 st.min_sq.zipIdx = some i ∧
        ws.1[i]? = some v ∧ ∀ c ∈ st.centroids, 0 < sqDist c v)) ∧
    ∀ rng' : SplitMix64, ∃ unit : K,
      (rng'.nextOpenUnit : Arith.F64 K × SplitMix64).1 = unit ∧ 0 < unit ∧ unit ≤ 1 := by
  have hpos : 0 < ws.1.length := List.length_pos_iff.2 hne
  refine ⟨?_, fun rounds => ?_, fun rng' => ⟨_, rfl, openUnitLoop_bounds 4 rng'⟩⟩
  · obtain ⟨st, hrounds, hst, hlen⟩ :=
      returns_iff.1 (seedRounds_spec hdims ws.2 hpos rng (n_clusters - 1))
    rw [Nat.sub_add_cancel hk] at hlen
    have hkmeans := kmeansPlusPlus_of_rounds hrounds hlen fun c hc => hdims c (hst.subset c hc)
    refine ⟨st, hrounds, hkmeans, hlen, hst.subset, ?_⟩
    rw [hst.card_eq, hlen]
  · obtain ⟨st, hrounds, hst, -⟩ := returns_iff.1 (seedRounds_spec hdims ws.2 hpos rng rounds)
    exact ⟨st, hrounds, hst.min_sq_eq, hst.draw_new hdims⟩

end Draw

namespace Rational

/-- Three vectors, two of them equal. -/
def repeatedVectors : Slice (List ℚ) := ⟨[[0], [10], [0]], by decide⟩

/-- Four seeds of three points, two of which are distinct. -/
theorem repeatedVectors_seeds :
    (∃ st, seedRounds repeatedVectors.1 ⟨7⟩ 3 = .ok st ∧
      kmeansPlusPlus 1 4 repeatedVectors.1 ⟨7⟩ = .ok (st.centroids, st.rng) ∧
      st.centroids.length = 4 ∧ (∀ c ∈ st.centroids, c ∈ repeatedVectors.1) ∧
      st.centroids.toFinset.card = min 4 repeatedVectors.1.toFinset.card) ∧
    (∀ rounds, ∃ st, seedRounds repeatedVectors.1 ⟨7⟩ rounds = .ok st ∧
      st.min_sq = repeatedVectors.1.map (nearestSq st.centroids) ∧
      ((∃ v ∈ repeatedVectors.1, v ∉ st.centroids) → ∃ v i,
        drawIndex 3 st.min_sq st.rng =
          .ok (i, (st.rng.nextOpenUnit : Arith.F64 ℚ × SplitMix64).2) ∧
        inverseCdf (drawTarget st.min_sq st.rng) 0 st.min_sq.zipIdx = some i ∧
        repeatedVectors.1[i]? = some v ∧ ∀ c ∈ st.centroids, 0 < sqDist c v)) ∧
    ∀ rng : SplitMix64, ∃ unit : ℚ,
      (rng.nextOpenUnit : Arith.F64 ℚ × SplitMix64).1 = unit ∧ 0 < unit ∧ unit ≤ 1 := by
  have hdims : ∀ v ∈ repeatedVectors.1, v.length = 1 := by decide
  have hk : 1 ≤ 4 := by decide
  exact seeds_as_distinct_as_points repeatedVectors (by decide) hdims hk ⟨7⟩

end Rational

end IqdbIvf
