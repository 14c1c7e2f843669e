import IqdbIvf.Lib.Nested
import IqdbIvf.Lib.Selection

/-!
# Fronts of rankings

What is selected from a list determines what is selected from its parts, as far as the two have
elements in common. The selection of a whole, restricted to a part, is the front of the selection
of the part (`best_filter`); and a part that holds the front of a ranking has the same front
(`take_rank_of_part`), so alternatives that were not selected do not matter. Among elements that
score alike the stamps decide, for every plan (`Plan.run_tie`), and a longer shortlist with room for
more makes no position worse (`Plan.run_staged_mono`).
-/

namespace Ranking

open Std (TransCmp)

variable {F α : Type} {cmp : F → F → Ordering} {score : α → F} {stamp : α → ℕ} {xs ys : List α}

/-- The ranking of the elements with a property is what is left of the ranking. -/
theorem rank_filter [TransCmp cmp] (hd : (xs.map stamp).Nodup) (p : α → Bool) :
    rank cmp score stamp (xs.filter p) = (rank cmp score stamp xs).filter p := by
  have hstamps : ((xs.filter p).map stamp).Nodup := hd.sublist (List.filter_sublist.map stamp)
  have hsorted : ((rank cmp score stamp xs).filter p).Pairwise (Le (rankCmp cmp score stamp)) :=
    (pairwise_sort xs).filter p
  have hperm : ((rank cmp score stamp xs).filter p).Perm (xs.filter p) := (rank_perm xs).filter p
  exact (eq_sort_of_perm (distinct_of_stamps hstamps) hsorted hperm).symm

/-- The elements with a property among the first `n` are first among all of them. -/
theorem filter_take_initial (p : α → Bool) (n : ℕ) (xs : List α) :
    (xs.take n).filter p <+: (xs.filter p).take n := by
  rw [List.prefix_take_iff]
  constructor
  · refine ⟨(xs.drop n).filter p, ?_⟩
    rw [← List.filter_append, List.take_append_drop]
  · calc ((xs.take n).filter p).length ≤ (xs.take n).length := List.length_filter_le _ _
      _ ≤ n := List.length_take_le n xs

/-- A part that holds the first `n` elements of the ranking of the whole has the same first `n`
elements. -/
theorem take_rank_of_part [TransCmp cmp] {n : ℕ} (hd : (xs.map stamp).Nodup) (h : ys.Subperm xs)
    (hmem : ∀ a ∈ (rank cmp score stamp xs).take n, a ∈ ys) :
    (rank cmp score stamp ys).take n = (rank cmp score stamp xs).take n := by
  classical
  have hxs : xs.Nodup := List.Nodup.of_map _ hd
  have hys : ys.Nodup := by
    obtain ⟨l, hperm, hsub⟩ := h
    exact hperm.nodup_iff.1 (hxs.sublist hsub)
  have hpart : (xs.filter fun a => a ∈ ys).Perm ys := by
    rw [List.perm_ext_iff_of_nodup (hxs.filter _) hys]
    intro a
    rw [List.mem_filter, decide_eq_true_eq]
    exact and_iff_right_of_imp fun ha => h.subset ha
  have hstamps : ((xs.filter fun a => a ∈ ys).map stamp).Nodup :=
    hd.sublist (List.filter_sublist.map stamp)
  have hrank : rank cmp score stamp ys = (rank cmp score stamp xs).filter fun a => a ∈ ys := by
    rw [← rank_filter hd, rank_eq_of_perm hstamps hpart]
  have hfront : (rank cmp score stamp xs).take n <+: (rank cmp score stamp ys).take n := by
    have hall : ((rank cmp score stamp xs).take n).filter (fun a => a ∈ ys) =
        (rank cmp score stamp xs).take n := by
      rw [List.filter_eq_self]
      intro a ha
      exact decide_eq_true (hmem a ha)
    rw [hrank, ← hall]
    exact filter_take_initial _ n _
  -- The front of the part cannot be longer than that of the whole.
  apply (hfront.eq_of_length_le _).symm
  rw [List.length_take, List.length_take, length_rank, length_rank]
  have hle := h.length_le
  omega

end Ranking

namespace Selection

open Ranking
open Std (TransCmp ReflCmp)

variable {F α : Type} {cmp : F → F → Ordering} {score : α → Option F} {stamp : α → ℕ} {n : ℕ}
  {xs ys : List α} {out : List (α × F)}

/-- Where a selection is defined there is nothing to select from, or every element has a score. -/
theorem best_cases (h : best cmp score stamp n xs = some out) :
    (xs = [] ∧ out = []) ∨ ∃ f : α → F, ∀ a ∈ xs, score a = some (f a) := by
  classical
  have hsome : ∀ a ∈ xs, score a ≠ none := by
    intro a ha hnone
    rw [best_eq_none_iff.2 ⟨a, ha, hnone⟩] at h
    cases h
  cases hxs : xs with
  | nil =>
    rw [hxs] at h
    obtain ⟨ps, hps, rfl⟩ := best_eq_some_iff.1 h
    rw [scored_nil] at hps
    obtain rfl := Option.some.inj hps
    exact .inl ⟨rfl, List.take_nil⟩
  | cons b bs =>
    right
    rw [← hxs]
    obtain ⟨d, -⟩ := Option.ne_none_iff_exists'.1 (hsome b (hxs ▸ List.mem_cons_self))
    refine ⟨fun a => (score a).getD d, fun a ha => ?_⟩
    obtain ⟨e, he⟩ := Option.ne_none_iff_exists'.1 (hsome a ha)
    show score a = some ((score a).getD d)
    rw [he]
    rfl

/-- What is selected from a list, restricted to a part of it, is the front of what is selected from
the part. -/
theorem best_filter [TransCmp cmp] (hd : (xs.map stamp).Nodup)
    (h : best cmp score stamp n xs = some out) (p : α → Bool) :
    ∃ out', best cmp score stamp n (xs.filter p) = some out' ∧
      out.filter (fun q => p q.1) <+: out' := by
  rcases best_cases h with ⟨rfl, rfl⟩ | ⟨f, hf⟩
  · exact ⟨[], h, List.nil_prefix⟩
  · have hf' : ∀ a ∈ xs.filter p, score a = some (f a) := fun a ha => hf a (List.mem_filter.1 ha).1
    rw [best_of_total hf] at h
    obtain rfl := Option.some.inj h
    refine ⟨_, best_of_total hf', ?_⟩
    rw [rank_filter hd, List.filter_map]
    exact (filter_take_initial p n _).map _

/-- The scores that a plan asks for. -/
def Plan.scores : Plan α F → List (α → Option F)
  | direct score => [score]
  | staged coarse fine _ => [coarse, fine]

/-- An element that scores like another one and has the earlier stamp is selected before it. -/
theorem best_tie [TransCmp cmp] (hd : (xs.map stamp).Nodup)
    (h : best cmp score stamp n xs = some out) {a b : α} (ha : a ∈ xs) (hscore : score a = score b)
    (hstamp : stamp a < stamp b) {j : ℕ} {d : F} (hj : out[j]? = some (b, d)) :
    ∃ i, i < j ∧ out[i]? = some (a, d) := by
  rcases best_cases h with ⟨rfl, rfl⟩ | ⟨f, hf⟩
  · rw [List.getElem?_nil] at hj
    cases hj
  rw [best_of_total hf] at h
  obtain rfl := Option.some.inj h
  rw [List.getElem?_map, Option.map_eq_some_iff] at hj
  obtain ⟨b', hb', heq⟩ := hj
  obtain ⟨rfl, rfl⟩ := Prod.mk.inj heq
  rw [List.getElem?_take] at hb'
  split_ifs at hb' with hjn
  have hb : b' ∈ xs := mem_rank.1 (List.mem_of_getElem? hb')
  have hfab : f a = f b' := by
    rw [hf a ha, hf b' hb] at hscore
    exact Option.some.inj hscore
  obtain ⟨i, hi⟩ := List.mem_iff_getElem?.1 (mem_rank.2 ha : a ∈ rank cmp f stamp xs)
  -- The later one cannot stand before the earlier one.
  have hij : i < j := by
    by_contra hle
    obtain ⟨hilt, hi'⟩ := List.getElem?_eq_some_iff.1 hi
    obtain ⟨hjlt, hj'⟩ := List.getElem?_eq_some_iff.1 hb'
    rcases Nat.eq_or_lt_of_le (Nat.le_of_not_lt hle) with rfl | hji
    · have hsame : a = b' := hi'.symm.trans hj'
      rw [hsame] at hstamp
      exact Nat.lt_irrefl _ hstamp
    · have hrank := List.pairwise_iff_getElem.1 (pairwise_rank hd) j i hjlt hilt hji
      have hself : cmp (f b') (f b') = .eq := ReflCmp.compare_self
      rw [hi', hj', hfab, hself] at hrank
      rcases hrank with hlt | ⟨-, hlt⟩
      · cases hlt
      · exact Nat.lt_asymm hlt hstamp
  refine ⟨i, hij, ?_⟩
  rw [List.getElem?_map, List.getElem?_take, if_pos (by omega), hi, Option.map_some, hfab]

namespace Plan

/-- A plan selects elements of the list. -/
theorem mem_of_run (plan : Plan α F) (h : plan.run cmp stamp n xs = some out) {p : α × F}
    (hp : p ∈ out) : p.1 ∈ xs := by
  cases plan with
  | direct score => exact ((selects_iff_best.2 h).mem hp).1
  | staged coarse fine m =>
    rw [run_staged] at h
    obtain ⟨short, hshort, hout⟩ := Option.bind_eq_some_iff.1 h
    exact (selects_iff_best.2 hshort).subperm.subset ((selects_iff_best.2 hout).mem hp).1

/-- An element that every score of a plan treats like another one, and that has the earlier stamp,
is selected before it. -/
theorem run_tie [TransCmp cmp] (hd : (xs.map stamp).Nodup) {plan : Plan α F}
    (h : plan.run cmp stamp n xs = some out) {a b : α} (ha : a ∈ xs)
    (hscore : ∀ score ∈ plan.scores, score a = score b) (hstamp : stamp a < stamp b) {j : ℕ}
    {d : F} (hj : out[j]? = some (b, d)) : ∃ i, i < j ∧ out[i]? = some (a, d) := by
  cases plan with
  | direct score => exact best_tie hd h ha (hscore score (List.mem_singleton_self score)) hstamp hj
  | staged coarse fine m =>
    rw [run_staged] at h
    obtain ⟨short, hshort, hout⟩ := Option.bind_eq_some_iff.1 h
    have hcoarse := hscore coarse List.mem_cons_self
    have hfine := hscore fine (List.mem_cons_of_mem _ (List.mem_singleton_self fine))
    have hsub := (selects_iff_best.2 hshort).subperm
    -- The later one is on the shortlist, and so is the earlier one.
    have hb : b ∈ short.map Prod.fst := by
      have hmem := List.mem_of_getElem? hj
      exact ((selects_iff_best.2 hout).mem hmem).1
    obtain ⟨⟨b', e⟩, hbe, rfl⟩ := List.mem_map.1 hb
    obtain ⟨l, hl⟩ := List.mem_iff_getElem?.1 hbe
    obtain ⟨i, -, hi⟩ := best_tie hd hshort ha hcoarse hstamp hl
    have ha' : a ∈ short.map Prod.fst := List.mem_map_of_mem (List.mem_of_getElem? hi)
    exact best_tie (nodup_map_of_subperm hsub hd) hout ha' hfine hstamp hj

/-- With a longer shortlist and room for more, what stands at a position scores no worse. -/
theorem run_staged_mono [TransCmp cmp] (hd : (xs.map stamp).Nodup) {coarse fine : α → Option F}
    {m m' n' : ℕ} (hm : m ≤ m') (hn : n ≤ n') {out' : List (α × F)}
    (h : (staged coarse fine m').run cmp stamp n' xs = some out') :
    ∃ out, (staged coarse fine m).run cmp stamp n xs = some out ∧ ∀ (i : ℕ) p, out[i]? = some p →
      ∃ p', out'[i]? = some p' ∧ (cmp p'.2 p.2).isLE = true := by
  rw [run_staged] at h
  obtain ⟨long, hlong, hout'⟩ := Option.bind_eq_some_iff.1 h
  have hshort : best cmp coarse stamp m xs = some (long.take m) := by
    rw [best_take hm, hlong]
    rfl
  have hfront : ((long.take m).map Prod.fst).Sublist (long.map Prod.fst) :=
    (List.take_sublist m long).map Prod.fst
  have hlongstamps := nodup_map_of_subperm (selects_iff_best.2 hlong).subperm hd
  rcases best_cases hout' with ⟨hnil, rfl⟩ | ⟨f, hf⟩
  · have hnil' : (long.take m).map Prod.fst = [] := by
      rw [hnil] at hfront
      exact List.sublist_nil.1 hfront
    refine ⟨[], ?_, fun i p hp => ?_⟩
    · rw [run_staged, hshort, Option.bind_some, hnil']
      exact congrArg some List.take_nil
    · rw [List.getElem?_nil] at hp
      cases hp
  · have hf' : ∀ a ∈ (long.take m).map Prod.fst, fine a = some (f a) :=
      fun a ha => hf a (hfront.subset ha)
    rw [best_of_total hf] at hout'
    obtain rfl := Option.some.inj hout'
    refine ⟨_, by rw [run_staged, hshort, Option.bind_some, best_of_total hf'], ?_⟩
    intro i p hp
    rw [List.getElem?_map, Option.map_eq_some_iff] at hp
    obtain ⟨a, ha, rfl⟩ := hp
    -- The ranking of the shorter shortlist is part of that of the longer one.
    obtain ⟨b, hb, hle⟩ := le_of_sublist (rank_sublist hlongstamps hfront.subperm)
      (pairwise_rank hlongstamps) ha
    refine ⟨(b, f b), ?_, ?_⟩
    · rw [List.getElem?_take] at hb
      split_ifs at hb with hin
      rw [List.getElem?_map, List.getElem?_take, if_pos (by omega), hb, Option.map_some]
    · rcases hle with rfl | hlt | ⟨heq, -⟩
      · exact ReflCmp.isLE_rfl
      · show (cmp (f b) (f a)).isLE = true
        rw [hlt]
        rfl
      · show (cmp (f b) (f a)).isLE = true
        rw [heq]
        rfl

end Plan

end Selection
