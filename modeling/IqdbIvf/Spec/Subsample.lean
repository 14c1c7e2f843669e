import IqdbIvf.Lib.FisherYates
import IqdbIvf.Spec.Draws
import IqdbIvf.Model.Train
import Mathlib.Data.Set.Function

/-!
# The subsample

`subsample_refs` reads its draws, and the draws decide which positions its swap loop selects. The
loop is the partial Fisher–Yates shuffle of the positions: after `i` swaps the first `i` places hold
what was picked, and the others what is left (`foldlM_swap`). So the selections without repetition
correspond one to one to the lists of draws.
-/

namespace IqdbIvf

open Outcome FisherYates

variable {α : Type}

/-- Reads `t` draws; the first is below `m` and each of the others is below one less. -/
def readDraws : ℕ → ℕ → SplitMix64 → Checked (List ℕ × SplitMix64)
  | _, 0, rng => .ok ([], rng)
  | m, t + 1, rng => do
    let (draw, rng) ← rng.nextBelow (UInt64.ofNat m)
    let (draws, rng) ← readDraws (m - 1) t rng
    return (draw.toNat :: draws, rng)

/-- The swap for one draw, at its place. -/
def swapStep (indices : List ℕ) (p : ℕ × ℕ) : Checked (List ℕ) := swap indices p.2 (p.2 + p.1)

/-- The positions that the swap loop of `subsample_refs` selects for given draws. -/
def selectedPositions (n : ℕ) (draws : List ℕ) : Checked (List ℕ) := do
  let indices ← draws.zipIdx.foldlM swapStep (List.range n)
  return indices.take draws.length

/-! ## The swaps -/

/-- A swap behind the picked elements is a draw from the others. -/
theorem swap_append (front : List α) {rest rest' : List α} {d : ℕ} {y : α}
    (h : draw rest d = some (y, rest')) :
    swap (front ++ rest) front.length (front.length + d) = .ok (front ++ y :: rest') := by
  cases rest with
  | nil => cases h
  | cons x xs =>
    have hx : index (front ++ x :: xs) front.length = .ok x := index_eq_ok (by simp)
    have hy : index (front ++ x :: xs) (front.length + d) = .ok y := by
      apply index_eq_ok
      rw [List.getElem?_append_right (Nat.le_add_right _ _), Nat.add_sub_cancel_left]
      exact draw_eq_some h
    have hset : (front ++ x :: xs).set front.length y = front ++ y :: xs := by
      rw [List.set_append_right _ _ (Nat.le_refl _), Nat.sub_self, List.set_cons_zero]
    have hd : d < (y :: xs).length := (List.getElem?_eq_some_iff.1 (draw_eq_some h)).1
    unfold swap
    rw [hx, ok_bind, hy, ok_bind, assign_of_lt _ (by simp), ok_bind, hset,
      assign_of_lt _ (by rw [List.length_append]; omega),
      List.set_append_right _ _ (Nat.le_add_right _ _), Nat.add_sub_cancel_left]
    -- The second assignment puts the first element where `y` was.
    cases d with
    | zero =>
      obtain ⟨rfl, rfl⟩ := Prod.mk.inj (Option.some.inj h)
      rfl
    | succ d =>
      obtain ⟨z, -, heq⟩ := Option.map_eq_some_iff.1 h
      obtain ⟨rfl, rfl⟩ := Prod.mk.inj heq
      rfl

/-- The swap loop is a shuffle: the picked elements stand in front, in their order. -/
theorem foldlM_swap (front : List ℕ) {rest ys rest' draws : List ℕ}
    (h : shuffle rest draws = some (ys, rest')) :
    (draws.zipIdx front.length).foldlM swapStep (front ++ rest) = .ok (front ++ (ys ++ rest')) := by
  induction draws generalizing front rest ys with
  | nil =>
    obtain ⟨rfl, rfl⟩ := Prod.mk.inj (Option.some.inj h)
    rfl
  | cons d draws ih =>
    obtain ⟨y, xs', ys, rfl, hdraw, hshuffle⟩ := shuffle_cons.1 h
    rw [List.zipIdx_cons, List.foldlM_cons, swapStep, swap_append front hdraw, ok_bind]
    -- The picked element joins the front.
    have hfront := ih (front ++ [y]) hshuffle
    rw [List.length_append, List.length_singleton, List.append_assoc, List.append_assoc] at hfront
    exact hfront

/-- The positions that are selected are those that the shuffle picks. -/
theorem selectedPositions_eq {n : ℕ} {draws ys rest : List ℕ}
    (h : shuffle (List.range n) draws = some (ys, rest)) (hlen : ys.length = draws.length) :
    selectedPositions n draws = .ok ys := by
  unfold selectedPositions
  have hfold := foldlM_swap [] h
  rw [List.nil_append, List.nil_append, List.length_nil] at hfold
  rw [hfold, ok_bind, ← hlen, List.take_left]
  rfl

/-- Valid draws select distinct positions. -/
theorem selectedPositions_spec {n : ℕ} {draws : List ℕ} (h : Valid n draws) :
    ∃ positions rest, selectedPositions n draws = .ok positions ∧
      shuffle (List.range n) draws = some (positions, rest) ∧ positions.length = draws.length ∧
      positions.Nodup ∧ ∀ p ∈ positions, p < n := by
  rw [← List.length_range (n := n)] at h
  obtain ⟨ys, rest, hshuffle, hlen, hperm⟩ := shuffle_spec h
  refine ⟨ys, rest, selectedPositions_eq hshuffle hlen, hshuffle, hlen, ?_, fun p hp => ?_⟩
  · exact (hperm.nodup_iff.2 List.nodup_range).of_append_left
  · exact List.mem_range.1 (hperm.subset (List.mem_append_left _ hp))

/-- The lists of `t` valid draws correspond one to one to the selections of `t` distinct
positions. -/
theorem selectedPositions_bijOn (n t : ℕ) :
    Set.BijOn (selectedPositions n) {draws | draws.length = t ∧ Valid n draws}
      {r | ∃ positions, r = .ok positions ∧ positions.length = t ∧ positions.Nodup ∧
        ∀ p ∈ positions, p < n} := by
  refine ⟨?_, ?_, ?_⟩
  · rintro draws ⟨rfl, hvalid⟩
    obtain ⟨positions, -, hok, -, hlen, hnodup, hlt⟩ := selectedPositions_spec hvalid
    exact ⟨positions, hok, hlen, hnodup, hlt⟩
  · rintro draws ⟨-, hvalid⟩ draws' ⟨-, hvalid'⟩ heq
    obtain ⟨positions, _, hok, hshuffle, -⟩ := selectedPositions_spec hvalid
    obtain ⟨positions', _, hok', hshuffle', -⟩ := selectedPositions_spec hvalid'
    obtain rfl := Except.ok.inj (hok.symm.trans (heq.trans hok'))
    exact shuffle_inj List.nodup_range hshuffle hshuffle'
  · rintro _ ⟨positions, rfl, hlen, hnodup, hlt⟩
    have hsub : positions ⊆ List.range n := fun p hp => List.mem_range.2 (hlt p hp)
    obtain ⟨draws, rest, hvalid, hshuffle⟩ := exists_shuffle List.nodup_range hnodup hsub
    rw [List.length_range] at hvalid
    obtain ⟨_, _, hok, hshuffle', hlen', -⟩ := selectedPositions_spec hvalid
    obtain ⟨rfl, -⟩ := Prod.mk.inj (Option.some.inj (hshuffle'.symm.trans hshuffle))
    exact ⟨draws, ⟨hlen'.symm.trans hlen, hvalid⟩, hok⟩

/-! ## The draws -/

/-- As many valid draws are read as are asked for. -/
theorem readDraws_returns {m : ℕ} (hm : m < 2^64) {t : ℕ} (ht : t ≤ m) (rng : SplitMix64) :
    Returns (readDraws m t rng) fun r => r.1.length = t ∧ Valid m r.1 := by
  induction t generalizing m rng with
  | zero => exact ⟨rfl, valid_nil m⟩
  | succ t ih =>
    rw [readDraws]
    apply Meets.bind (nextBelow_length_returns hm (by omega) rng)
    intro ⟨draw, rng⟩ hdraw
    apply Meets.bind (ih (by omega) (by omega) rng)
    intro ⟨draws, rng⟩ ⟨hlen, hvalid⟩
    exact ⟨congrArg Nat.succ hlen, valid_cons.2 ⟨hdraw, hvalid⟩⟩

/-- The swap loop of `subsample_refs` swaps for the draws that it reads. -/
theorem foldlM_shuffleStep {n i t : ℕ} {indices indices' draws : List ℕ} {rng rng' : SplitMix64}
    (hi : i + t ≤ n) (hdraws : readDraws (n - i) t rng = .ok (draws, rng'))
    (hswaps : (draws.zipIdx i).foldlM swapStep indices = .ok indices') :
    (List.range' i t).foldlM (shuffleStep n) (indices, rng) = .ok (indices', rng') := by
  induction t generalizing i indices rng draws with
  | zero =>
    obtain ⟨rfl, rfl⟩ := Prod.mk.inj (Except.ok.inj hdraws)
    obtain rfl := Except.ok.inj hswaps
    rfl
  | succ t ih =>
    obtain ⟨⟨draw, rng⟩, hdraw, hdraws⟩ := bind_eq_ok.1 hdraws
    obtain ⟨⟨draws, _⟩, hrest, hdraws⟩ := bind_eq_ok.1 hdraws
    obtain ⟨rfl, rfl⟩ := Prod.mk.inj (Except.ok.inj hdraws)
    rw [List.zipIdx_cons, List.foldlM_cons] at hswaps
    obtain ⟨indices, hswap, hswaps⟩ := bind_eq_ok.1 hswaps
    rw [List.range'_succ, List.foldlM_cons]
    apply bind_eq_ok.2 ⟨(indices, rng), _, ih (by omega) (by rwa [Nat.sub_sub] at hrest) hswaps⟩
    unfold shuffleStep
    rw [subtract_of_le (by omega), ok_bind]
    dsimp only
    rw [hdraw, ok_bind]
    exact bind_eq_ok.2 ⟨indices, hswap, rfl⟩

/-- A subsample of everything is the sample, and draws nothing. -/
theorem subsampleRefs_of_le {sample : List α} {target_len : ℕ} (rng : SplitMix64)
    (h : sample.length ≤ target_len) : subsampleRefs sample target_len rng = .ok (sample, rng) := by
  unfold subsampleRefs
  dsimp only
  rw [if_pos (min_eq_right h)]
  rfl

/-- A subsample of a part of the sample: the draws that are read select the positions of its
elements. -/
theorem subsampleRefs_of_lt {sample : List α} (hn : sample.length < 2^64) {t : ℕ}
    (ht : t < sample.length) (rng : SplitMix64) :
    ∃ draws rng' positions chosen,
      readDraws sample.length t rng = .ok (draws, rng') ∧ draws.length = t ∧
      Valid sample.length draws ∧
      selectedPositions sample.length draws = .ok positions ∧ positions.length = t ∧
      positions.Nodup ∧ (∀ p ∈ positions, p < sample.length) ∧
      List.Forall₂ (fun p x => sample[p]? = some x) positions chosen ∧
      subsampleRefs sample t rng = .ok (chosen, rng') := by
  obtain ⟨⟨draws, rng'⟩, hdraws, hlen, hvalid⟩ := returns_iff.1 (readDraws_returns hn ht.le rng)
  obtain ⟨positions, rest, hselected, hshuffle, hlen', hnodup, hlt⟩ := selectedPositions_spec hvalid
  dsimp only at hlen hvalid hselected hshuffle hlen'
  rw [hlen] at hlen'
  have hswaps : (draws.zipIdx 0).foldlM swapStep (List.range sample.length) =
      .ok (positions ++ rest) := foldlM_swap [] hshuffle
  have hfold := foldlM_shuffleStep (i := 0) (by omega) hdraws hswaps
  rw [← List.range_eq_range'] at hfold
  -- The selected positions are looked up in the sample.
  have hlookup : Returns (positions.mapM (index sample))
      (List.Forall₂ (fun p x => sample[p]? = some x) positions) := by
    apply Meets.mapM
    intro p hp
    rw [index_of_lt (hlt p hp)]
    exact List.getElem?_eq_getElem (hlt p hp)
  obtain ⟨chosen, hchosen, hforall⟩ := returns_iff.1 hlookup
  refine ⟨draws, rng', positions, chosen, hdraws, hlen, hvalid, hselected, hlen', hnodup, hlt,
    hforall, ?_⟩
  unfold subsampleRefs
  dsimp only
  rw [min_eq_left ht.le, if_neg ht.ne, hfold, ok_bind]
  dsimp only
  rw [← hlen', List.take_left, hchosen]
  rfl

/-- A subsample has the length asked for, cut to the sample's, and consists of its elements. -/
theorem subsampleRefs_returns {sample : List α} (hn : sample.length < 2^64) (target_len : ℕ)
    (rng : SplitMix64) : Returns (subsampleRefs sample target_len rng) fun r =>
      r.1.length = min target_len sample.length ∧ ∀ x ∈ r.1, x ∈ sample := by
  rcases Nat.lt_or_ge target_len sample.length with hlt | hle
  · obtain ⟨_, _, positions, chosen, -, -, -, -, hlen, -, -, hchosen, hret⟩ :=
      subsampleRefs_of_lt hn hlt rng
    rw [hret]
    refine ⟨?_, fun x hx => ?_⟩
    · rw [min_eq_left hlt.le, ← hlen]
      exact hchosen.length_eq.symm
    · obtain ⟨k, hk, rfl⟩ := List.getElem_of_mem hx
      exact List.mem_of_getElem? ((List.forall₂_iff_get.1 hchosen).2 k (hchosen.length_eq ▸ hk) hk)
  · rw [subsampleRefs_of_le rng hle]
    exact ⟨(min_eq_right hle).symm, fun x hx => hx⟩

/-- The subsample has the length asked for, cut to the sample's. A whole sample is returned as it
is, with the generator untouched. For a part of it the draws are read one after the other, each
below the number of positions that are left, and select distinct positions; every selection comes
from exactly one list of draws. -/
theorem subsampleRefs_unbiased (sample : Slice α) (t : ℕ) (rng : SplitMix64) :
    let n := sample.1.length
    (∃ chosen rng', subsampleRefs sample.1 t rng = .ok (chosen, rng') ∧
      chosen.length = min t n) ∧
    (n ≤ t → subsampleRefs sample.1 t rng = .ok (sample.1, rng)) ∧
    (t < n →
      (∃ draws rng' positions chosen,
        readDraws n t rng = .ok (draws, rng') ∧ draws.length = t ∧ Valid n draws ∧
        selectedPositions n draws = .ok positions ∧ positions.length = t ∧ positions.Nodup ∧
        (∀ p ∈ positions, p < n) ∧
        List.Forall₂ (fun p x => sample.1[p]? = some x) positions chosen ∧
        subsampleRefs sample.1 t rng = .ok (chosen, rng')) ∧
      Set.BijOn (selectedPositions n) {draws | draws.length = t ∧ Valid n draws}
        {r | ∃ positions, r = .ok positions ∧ positions.length = t ∧ positions.Nodup ∧
          ∀ p ∈ positions, p < n}) := by
  intro n
  refine ⟨?_, fun h => subsampleRefs_of_le rng h, fun h => ?_⟩
  · obtain ⟨⟨chosen, rng'⟩, hret, hlen, -⟩ := returns_iff.1 (subsampleRefs_returns sample.2 t rng)
    exact ⟨chosen, rng', hret, hlen⟩
  · exact ⟨subsampleRefs_of_lt sample.2 h rng, selectedPositions_bijOn n t⟩

/-- A sample of three items. -/
def threeItems : Slice ℕ := ⟨[10, 20, 30], by decide⟩

/-- Two of the three items are drawn, and then all of them. -/
theorem threeItems_subsampled :
    subsampleRefs threeItems.1 3 (.new 1) = .ok (threeItems.1, .new 1) ∧
    (∃ draws rng' positions,
      readDraws 3 2 (.new 1) = .ok (draws, rng') ∧ draws.length = 2 ∧ Valid 3 draws ∧
      selectedPositions 3 draws = .ok positions ∧ positions.Nodup ∧
      List.Forall₂ (fun p x => threeItems.1[p]? = some x) positions [30, 10] ∧
      subsampleRefs threeItems.1 2 (.new 1) = .ok ([30, 10], rng')) ∧
    Set.BijOn (selectedPositions 3) {draws | draws.length = 2 ∧ Valid 3 draws}
      {r | ∃ positions, r = .ok positions ∧ positions.length = 2 ∧ positions.Nodup ∧
        ∀ p ∈ positions, p < 3} := by
  obtain ⟨-, hwhole, -⟩ := subsampleRefs_unbiased threeItems 3 (.new 1)
  obtain ⟨-, -, hpart⟩ := subsampleRefs_unbiased threeItems 2 (.new 1)
  obtain ⟨⟨draws, rng', positions, chosen, hdraws, hlen, hvalid, hselected, -, hnodup, -, hforall,
    hret⟩, hbij⟩ := hpart (by decide)
  have hchosen : (subsampleRefs threeItems.1 2 (.new 1)).map Prod.fst = .ok [30, 10] := by
    decide +kernel
  rw [hret] at hchosen
  obtain rfl : chosen = [30, 10] := Except.ok.inj hchosen
  exact ⟨hwhole (by decide), ⟨draws, rng', positions, hdraws, hlen, hvalid, hselected, hnodup,
    hforall, hret⟩, hbij⟩

end IqdbIvf
