import IqdbIvf.Spec.Units

/-!
# The weights of the seeds

`kmeans_plus_plus` draws a point as the next seed by its squared distance to the nearest seed. The
draw takes the upper 53 bits of a word, and as many states of the generator have the one upper half
as the other: so a point is drawn by its share of the states, up to the share of two of the `2^53`
tickets, one for rounding and one for the states that draw again.
-/

set_option linter.unusedSectionVars false

namespace IqdbIvf

open Outcome KMeans Lottery SplitMix64

section Draw

variable {K : Type} [Field K] [LinearOrder K] [IsStrictOrderedRing K] [SquareRoot K]
  {dim : ℕ} {ws cs : List (List K)} {st : Seeding K} {weights : List K}

/-- The scan stops at the index whose interval of the running sum the target lies in. -/
theorem inverseCdf_eq_some_iff (hweights : ∀ w ∈ weights, 0 ≤ w) {target running : K}
    (hlt : running < target) (j i : ℕ) :
    @inverseCdf K _ target running (weights.zipIdx j) = some i ↔
      ∃ n < weights.length, i = j + n ∧ running + (weights.take n).sum < target ∧
        target ≤ running + (weights.take (n + 1)).sum := by
  induction weights generalizing running j with
  | nil => exact ⟨fun h => (nomatch h), fun ⟨n, hn, _⟩ => absurd hn (Nat.not_lt_zero n)⟩
  | cons w weights ih =>
    have hrest : ∀ w ∈ weights, 0 ≤ w := fun w hw => hweights w (List.mem_cons_of_mem _ hw)
    rw [List.zipIdx_cons, inverseCdf]
    by_cases hreach : target ≤ running + w
    · refine (Eq.congr_left (if_pos (exact_le.2 hreach))).trans ?_
      constructor
      · intro hj
        cases hj
        refine ⟨0, Nat.succ_pos _, rfl, ?_, ?_⟩
        · rwa [List.take_zero, List.sum_nil, add_zero]
        · rwa [List.take_succ_cons, List.take_zero, List.sum_singleton]
      · -- A later interval begins above the target.
        rintro ⟨n, -, rfl, hlower, -⟩
        cases n with
        | zero => rfl
        | succ n =>
          rw [List.take_succ_cons, List.sum_cons, ← add_assoc] at hlower
          have hle := le_add_of_nonneg_right (a := running + w) (sum_take_nonneg hrest n)
          exact absurd (hreach.trans hle) (not_le.2 hlower)
    · refine (Eq.congr_left (if_neg (mt exact_le.1 hreach))).trans ?_
      refine (ih hrest (not_le.1 hreach) (j + 1)).trans ?_
      constructor
      · rintro ⟨n, hn, rfl, hlower, hupper⟩
        refine ⟨n + 1, Nat.succ_lt_succ hn, by omega, ?_, ?_⟩
        · rwa [List.take_succ_cons, List.sum_cons, ← add_assoc]
        · rwa [List.take_succ_cons, List.sum_cons, ← add_assoc]
      · rintro ⟨n, hn, rfl, hlower, hupper⟩
        cases n with
        | zero =>
          rw [List.take_succ_cons, List.take_zero, List.sum_singleton] at hupper
          exact absurd hupper hreach
        | succ n =>
          rw [List.take_succ_cons, List.sum_cons, ← add_assoc] at hlower hupper
          exact ⟨n, Nat.lt_of_succ_lt_succ hn, by omega, hlower, hupper⟩

/-- The draw takes the index that wins with the target. -/
theorem drawIndex_eq_ok_iff (hweights : ∀ w ∈ weights, 0 ≤ w) (hsum : 0 < weights.sum)
    (rng : SplitMix64) (i : ℕ) :
    (∃ rng', drawIndex weights.length weights rng = .ok (i, rng')) ↔
      Wins weights i ((rng.nextOpenUnit : Arith.F64 K × SplitMix64).1 * weights.sum : K) := by
  have hlength : 0 < weights.length := by
    rw [List.length_pos_iff]
    rintro rfl
    exact lt_irrefl _ hsum
  have htarget : drawTarget weights rng =
      ((rng.nextOpenUnit : Arith.F64 K × SplitMix64).1 * weights.sum : K) := by
    unfold drawTarget
    rw [List.sum_eq_foldl]
    rfl
  obtain ⟨w, i', hdraw, hfound, hw, hpos⟩ := drawIndex_spec hlength hsum rng
  have hunit := (openUnitLoop_bounds (K := K) 4 rng).1
  have hscan := inverseCdf_eq_some_iff hweights (mul_pos hunit hsum) 0 i
  rw [htarget] at hfound
  have hsame : (∃ rng', drawIndex weights.length weights rng = .ok (i, rng')) ↔ i' = i := by
    rw [hdraw]
    constructor
    · rintro ⟨rng', h⟩
      cases h
      rfl
    · rintro rfl
      exact ⟨_, rfl⟩
  rw [hsame, ← Option.some_inj, ← hfound]
  refine hscan.trans ?_
  unfold Wins
  constructor
  · rintro ⟨n, -, rfl, hlower, hupper⟩
    rw [zero_add] at hlower hupper ⊢
    exact ⟨hlower, hupper⟩
  · rintro ⟨hlower, hupper⟩
    have hi : i < weights.length := by
      by_contra hge
      rw [List.take_of_length_le (not_lt.1 hge)] at hlower
      rw [List.take_of_length_le (le_trans (not_lt.1 hge) (Nat.le_succ i))] at hupper
      exact absurd hlower (not_lt.2 hupper)
    exact ⟨i, hi, (zero_add i).symm, by rwa [zero_add], by rwa [zero_add]⟩

/-- The states that draw an index are its share of the states by weight, up to two tickets. -/
theorem abs_ncard_drawIndex_le (hweights : ∀ w ∈ weights, 0 ≤ w) (hsum : 0 < weights.sum) {i : ℕ}
    {w : K} (hi : weights[i]? = some w) :
    |(Set.ncard {rng | ∃ rng', drawIndex weights.length weights rng = .ok (i, rng')} : K) -
      2^64 * (w / weights.sum)| ≤ 2^12 := by
  have hcopies : ∀ S : Finset ℕ, (∀ b ∈ S, b < 2^53) →
      Set.ncard {rng : SplitMix64 | rng.ticket ∈ S} = 2^11 * S.card := fun S => ncard_ticket
  have hdrawn : ∀ rng : SplitMix64, rng.ticket ≠ 0 →
      ((∃ rng', drawIndex weights.length weights rng = .ok (i, rng')) ↔
        Wins weights i ((rng.ticket : K) / (2^53 : ℕ) * weights.sum)) := by
    intro rng hticket
    rw [drawIndex_eq_ok_iff hweights hsum, nextOpenUnit_eq hticket, Nat.cast_pow, Nat.cast_ofNat]
  have hshare := abs_ncard_drawn_le hcopies ticket_lt hdrawn hweights hsum (Nat.two_pow_pos 53) hi
  have hstates : ((2^11 : ℕ) : K) * (2^53 : ℕ) = 2^64 := by
    rw [← Nat.cast_mul, ← pow_add, Nat.cast_pow, Nat.cast_ofNat]
  have hbound : 2 * ((2^11 : ℕ) : K) = 2^12 := by
    rw [Nat.cast_pow, Nat.cast_ofNat, pow_succ' 2 11]
  rwa [hstates, hbound] at hshare

/-- The round that draws an index appends the point at that index. -/
theorem Seeding.Spread.seedStep_eq (h : st.Spread ws) (hdims : ∀ v ∈ ws, v.length = dim) {i : ℕ}
    {v : List K} {rng : SplitMix64} (hdraw : drawIndex ws.length st.min_sq st.rng = .ok (i, rng))
    (hv : ws[i]? = some v) :
    IqdbIvf.seedStep ws st =
      .ok ⟨st.centroids ++ [v], ws.map (nearestSq (st.centroids ++ [v])), rng⟩ := by
  have hvdim : ∀ w ∈ ws, v.length = w.length :=
    fun w hw => (hdims v (List.mem_of_getElem? hv)).trans (hdims w hw).symm
  have hlen : (st.centroids ++ [v]).length = st.centroids.length + 1 := List.length_append
  have hlast : (st.centroids ++ [v])[st.centroids.length + 1 - 1]? = some v := by simp
  obtain ⟨min_sq, hrefresh, rfl⟩ := returns_iff.1 (refresh_eq h.ne_nil hvdim)
  unfold IqdbIvf.seedStep
  rw [hdraw, ok_bind]
  dsimp only
  rw [index_eq_ok hv, ok_bind, hlen, subtract_of_le (Nat.le_add_left 1 _), ok_bind,
    index_eq_ok hlast, ok_bind, h.min_sq_eq, hrefresh]
  rfl

/-- The sum of the weights is the cost of the seeds, and it is positive while some point is not a
seed. -/
theorem Seeding.Spread.cost_pos (h : st.Spread ws) (hdims : ∀ v ∈ ws, v.length = dim)
    (hopen : ∃ v ∈ ws, v ∉ st.centroids) : 0 < cost st.centroids ws := by
  obtain ⟨v, hv, hnot⟩ := hopen
  calc 0 < nearestSq st.centroids v := h.nearestSq_pos hdims hv hnot
    _ ≤ (ws.map (nearestSq st.centroids)).sum := by
      apply List.single_le_sum _ _ (List.mem_map_of_mem hv)
      intro d hd
      obtain ⟨w, -, rfl⟩ := List.mem_map.1 hd
      exact nearestSq_nonneg h.ne_nil w

/-- In every round of the seeding, while some point is not a seed, the states of the generator that
draw a point as the next seed are its share of all states by squared distance to the nearest seed,
up to two of the `2^53` tickets. No state draws a seed again, and every state draws some point,
which the round appends to the seeds. -/
theorem seeds_drawn_by_distance (ws : Slice (List K)) (hdims : ∀ v ∈ ws.1, v.length = dim)
    {seed : SplitMix64} {rounds : ℕ} (hrounds : seedRounds ws.1 seed rounds = .ok st)
    (hopen : ∃ v ∈ ws.1, v ∉ st.centroids) :
    (∀ i v, ws.1[i]? = some v →
      |(Set.ncard {rng | ∃ rng', drawIndex ws.1.length st.min_sq rng = .ok (i, rng')} : K) -
        2^64 * (nearestSq st.centroids v / cost st.centroids ws.1)| ≤ 2^12 ∧
      (v ∈ st.centroids → ∀ rng rng', drawIndex ws.1.length st.min_sq rng ≠ .ok (i, rng'))) ∧
    ∀ rng, ∃ i v rng', ws.1[i]? = some v ∧ v ∉ st.centroids ∧
      drawIndex ws.1.length st.min_sq rng = .ok (i, rng') ∧
      seedStep ws.1 ⟨st.centroids, st.min_sq, rng⟩ =
        .ok ⟨st.centroids ++ [v], ws.1.map (nearestSq (st.centroids ++ [v])), rng'⟩ := by
  have hpos : 0 < ws.1.length := by
    obtain ⟨v, hv, -⟩ := hopen
    exact List.length_pos_of_mem hv
  have hspread : st.Spread ws.1 := by
    obtain ⟨st', hrounds', hst', -⟩ :=
      returns_iff.1 (seedRounds_spec hdims ws.2 hpos seed rounds)
    rw [hrounds] at hrounds'
    cases hrounds'
    exact hst'
  have hcost := hspread.cost_pos hdims hopen
  have hweights : ∀ w ∈ ws.1.map (nearestSq st.centroids), 0 ≤ w := by
    intro w hw
    obtain ⟨v, -, rfl⟩ := List.mem_map.1 hw
    exact nearestSq_nonneg hspread.ne_nil v
  have hcdims : ∀ v ∈ ws.1, ∀ c ∈ st.centroids, c.length = v.length :=
    fun v hv c hc => (hdims c (hspread.subset c hc)).trans (hdims v hv).symm
  refine ⟨fun i v hv => ?_, fun rng => ?_⟩
  · have hw : (ws.1.map (nearestSq st.centroids))[i]? = some (nearestSq st.centroids v) := by
      rw [List.getElem?_map, hv, Option.map_some]
    rw [hspread.min_sq_eq, ← List.length_map (nearestSq st.centroids)]
    refine ⟨abs_ncard_drawIndex_le hweights hcost hw, fun hmem rng rng' hdraw => ?_⟩
    rw [(nearestSq_eq_zero_iff hspread.ne_nil (hcdims v (List.mem_of_getElem? hv))).2 hmem] at hw
    exact not_wins_zero hw _ ((drawIndex_eq_ok_iff hweights hcost rng i).1 ⟨rng', hdraw⟩)
  · have hspread' : (⟨st.centroids, st.min_sq, rng⟩ : Seeding K).Spread ws.1 :=
      ⟨hspread.ne_nil, hspread.subset, hspread.min_sq_eq, hspread.distinct⟩
    obtain ⟨v, i, hdraw, -, hv, hfar⟩ := hspread'.draw_new hdims hopen
    refine ⟨i, v, _, hv, fun hmem => ?_, hdraw, hspread'.seedStep_eq hdims hdraw hv⟩
    have hself := hfar v hmem
    rw [sqDist_self] at hself
    exact lt_irrefl _ hself

end Draw

namespace Rational

/-- After the first seed of three points, two of them equal, the far point is drawn by all states
and the other two by none. -/
theorem repeatedVectors_drawn_by_distance :
    ∃ st, seedRounds repeatedVectors.1 ⟨7⟩ 0 = .ok st ∧
      st.centroids = [[0]] ∧
      (∀ i v, repeatedVectors.1[i]? = some v →
        |(Set.ncard {rng | ∃ rng', drawIndex 3 st.min_sq rng = .ok (i, rng')} : ℚ) -
          2^64 * (nearestSq st.centroids v / cost st.centroids repeatedVectors.1)| ≤ 2^12 ∧
        (v ∈ st.centroids → ∀ rng rng', drawIndex 3 st.min_sq rng ≠ .ok (i, rng'))) ∧
      ∀ rng, ∃ i v rng', repeatedVectors.1[i]? = some v ∧ v ∉ st.centroids ∧
        drawIndex 3 st.min_sq rng = .ok (i, rng') ∧
        seedStep repeatedVectors.1 ⟨st.centroids, st.min_sq, rng⟩ = .ok ⟨st.centroids ++ [v],
          repeatedVectors.1.map (nearestSq (st.centroids ++ [v])), rng'⟩ := by
  have hdims : ∀ v ∈ repeatedVectors.1, v.length = 1 := by decide
  have hseeds : (seedRounds repeatedVectors.1 ⟨7⟩ 0).map Seeding.centroids = .ok [[0]] := by
    decide +kernel
  cases hrounds : seedRounds repeatedVectors.1 ⟨7⟩ 0 with
  | error f =>
    rw [hrounds] at hseeds
    cases hseeds
  | ok st =>
    rw [hrounds] at hseeds
    have hcentroids : st.centroids = [[0]] := Except.ok.inj hseeds
    have hopen : ∃ v ∈ repeatedVectors.1, v ∉ st.centroids := by
      rw [hcentroids]
      exact ⟨[10], by decide, by decide⟩
    exact ⟨st, rfl, hcentroids, seeds_drawn_by_distance repeatedVectors hdims hrounds hopen⟩

end Rational

end IqdbIvf
