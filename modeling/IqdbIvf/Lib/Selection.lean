import IqdbIvf.Lib.Ranking
import Mathlib.Data.List.Perm.Basic

/-!
# Selecting the best elements

`Selects` says of a list that it holds the first `n` elements of another one, ranked by a score and
a stamp, when all that is known of the scores is a relation. `best` is the selection under a partial
score, which is the case of a relation that determines the scores (`selects_iff_best`): it scores
every element of a list, ranks the list by score and stamp, and keeps the first `n`. The score may
be undefined on an element, and then the selection is. What it selects depends on the elements,
their scores and the order of their stamps, and on nothing else: not on the order of the list
(`best_perm`), nor on what the elements and stamps are (`best_map`). Over a list that is in the
order of its stamps it is a stable sort by score (`rank_eq_sort`). A `Plan` is a selection in one
stage, or in two: a shortlist by a coarse score, and the best of it by a fine one.
-/

namespace Selection

open Ranking
open Std (TransCmp OrientedCmp)

variable {F α β : Type} {cmp : F → F → Ordering} {score : α → Option F} {stamp : α → ℕ} {n : ℕ}
  {xs ys : List α}

/-- Every element with its score, if they all have one. -/
def scored (score : α → Option F) (xs : List α) : Option (List (α × F)) :=
  xs.mapM fun a => (score a).map fun d => (a, d)

/-- The first `n` elements by score and stamp, with their scores. -/
def best (cmp : F → F → Ordering) (score : α → Option F) (stamp : α → ℕ) (n : ℕ) (xs : List α) :
    Option (List (α × F)) :=
  (scored score xs).map fun ps => (rank cmp Prod.snd (fun p => stamp p.1) ps).take n

/-- `out` holds the first `n` elements by score and stamp, under some scores in the relation `R`. -/
def Selects (cmp : F → F → Ordering) (stamp : α → ℕ) (R : α → F → Prop) (n : ℕ) (xs : List α)
    (out : List (α × F)) : Prop :=
  ∃ ps : List (α × F), ps.map Prod.fst = xs ∧ (∀ p ∈ ps, R p.1 p.2) ∧
    out = (rank cmp Prod.snd (fun p => stamp p.1) ps).take n

/-- A sub-multiset repeats no key that the whole does not repeat. -/
theorem nodup_map_of_subperm {key : α → β} (h : xs.Subperm ys) (hd : (ys.map key).Nodup) :
    (xs.map key).Nodup := by
  obtain ⟨l, hperm, hsub⟩ := h
  exact ((hperm.map key).nodup_iff).1 (hd.sublist (hsub.map key))

namespace Selects

variable {R : α → F → Prop} {out : List (α × F)}

/-- The selected elements are elements of the list, at scores in the relation. -/
theorem mem (h : Selects cmp stamp R n xs out) {p : α × F} (hp : p ∈ out) :
    p.1 ∈ xs ∧ R p.1 p.2 := by
  obtain ⟨ps, rfl, hR, rfl⟩ := h
  have hmem : p ∈ ps := mem_rank.1 (List.mem_of_mem_take hp)
  exact ⟨List.mem_map_of_mem hmem, hR p hmem⟩

/-- As many elements are selected as there are, up to `n`. -/
theorem length_eq (h : Selects cmp stamp R n xs out) : out.length = min n xs.length := by
  obtain ⟨ps, rfl, -, rfl⟩ := h
  rw [List.length_take, length_rank, List.length_map]

/-- No element is selected more often than it occurs. -/
theorem subperm (h : Selects cmp stamp R n xs out) : (out.map Prod.fst).Subperm xs := by
  obtain ⟨ps, rfl, -, rfl⟩ := h
  have hsub := (List.take_sublist n (rank cmp Prod.snd (fun p : α × F => stamp p.1) ps)).map
    Prod.fst
  exact hsub.subperm.trans ((rank_perm ps).map Prod.fst).subperm

/-- A selection of all elements permutes them. -/
theorem perm (h : Selects cmp stamp R n xs out) (hn : xs.length ≤ n) :
    (out.map Prod.fst).Perm xs := by
  apply h.subperm.perm_of_length_le
  rw [List.length_map, h.length_eq, Nat.min_eq_right hn]

/-- The bound of a selection may be cut to the number of elements. -/
theorem of_min (h : Selects cmp stamp R (min n xs.length) xs out) :
    Selects cmp stamp R n xs out := by
  obtain ⟨ps, rfl, hR, rfl⟩ := h
  refine ⟨ps, rfl, hR, ?_⟩
  have hlen : (rank cmp Prod.snd (fun p : α × F => stamp p.1) ps).length =
      (ps.map Prod.fst).length := by
    rw [length_rank, List.length_map]
  rw [← hlen, ← List.take_eq_take_min]

/-- The selected elements are in the order of score and stamp. -/
theorem pairwise [TransCmp cmp] (hd : (xs.map stamp).Nodup) (h : Selects cmp stamp R n xs out) :
    out.Pairwise fun p q => cmp p.2 q.2 = .lt ∨ cmp p.2 q.2 = .eq ∧ stamp p.1 < stamp q.1 := by
  obtain ⟨ps, rfl, -, rfl⟩ := h
  rw [List.map_map] at hd
  exact (pairwise_rank hd).sublist (List.take_sublist _ _)

end Selects

/-- There is nothing to score in the empty list. -/
@[simp] theorem scored_nil : scored score [] = some [] := rfl

/-- Scoring an element and a list. -/
theorem scored_cons (a : α) (xs : List α) :
    scored score (a :: xs) =
      (score a).bind fun d => (scored score xs).map fun ps => (a, d) :: ps := by
  unfold scored
  rw [List.mapM_cons]
  generalize List.mapM (fun a => (score a).map fun d => (a, d)) xs = rest
  cases score a with
  | none => rfl
  | some d =>
    cases rest with
    | none => rfl
    | some ps => rfl

/-- What it is for every element to have a score. -/
theorem scored_eq_some_iff {ps : List (α × F)} :
    scored score xs = some ps ↔ ps.map Prod.fst = xs ∧ ∀ p ∈ ps, score p.1 = some p.2 := by
  induction xs generalizing ps with
  | nil =>
    rw [scored_nil, Option.some_inj, List.map_eq_nil_iff]
    constructor
    · rintro rfl
      exact ⟨rfl, fun p hp => absurd hp List.not_mem_nil⟩
    · rintro ⟨rfl, -⟩
      rfl
  | cons a xs ih =>
    rw [scored_cons]
    constructor
    · intro h
      obtain ⟨d, hd, h⟩ := Option.bind_eq_some_iff.1 h
      obtain ⟨qs, hqs, rfl⟩ := Option.map_eq_some_iff.1 h
      obtain ⟨hfst, hscore⟩ := ih.1 hqs
      refine ⟨by rw [List.map_cons, hfst], fun p hp => ?_⟩
      rcases List.mem_cons.1 hp with rfl | hp
      · exact hd
      · exact hscore p hp
    · rintro ⟨hfst, hscore⟩
      rcases ps with _ | ⟨⟨b, d⟩, ps⟩
      · cases hfst
      rw [List.map_cons, List.cons.injEq] at hfst
      obtain ⟨rfl, hfst⟩ := hfst
      have hd := hscore (b, d) List.mem_cons_self
      have hps := ih.2 ⟨hfst, fun p hp => hscore p (List.mem_cons_of_mem _ hp)⟩
      rw [hd, hps]
      rfl

/-- What it is for some element to have no score. -/
theorem scored_eq_none_iff : scored score xs = none ↔ ∃ a ∈ xs, score a = none := by
  induction xs with
  | nil => simp
  | cons a xs ih =>
    rw [scored_cons]
    cases hd : score a with
    | none => simp [hd]
    | some d => simp [hd, ih]

/-- With a score everywhere, every element is scored. -/
theorem scored_of_total {f : α → F} (h : ∀ a ∈ xs, score a = some (f a)) :
    scored score xs = some (xs.map fun a => (a, f a)) := by
  rw [scored_eq_some_iff]
  constructor
  · simp [Function.comp_def]
  · intro p hp
    obtain ⟨a, ha, rfl⟩ := List.mem_map.1 hp
    exact h a ha

/-- Scoring a permuted list permutes the result. -/
theorem scored_perm (h : xs.Perm ys) {ps : List (α × F)} (hps : scored score xs = some ps) :
    ∃ qs, scored score ys = some qs ∧ ps.Perm qs := by
  obtain ⟨hfst, hscore⟩ := scored_eq_some_iff.1 hps
  cases hqs : scored score ys with
  | none =>
    obtain ⟨a, ha, hnone⟩ := scored_eq_none_iff.1 hqs
    rw [← h.mem_iff] at ha
    have hsome : scored score xs ≠ none := by
      rw [hps]
      exact Option.some_ne_none _
    exact absurd (scored_eq_none_iff.2 ⟨a, ha, hnone⟩) hsome
  | some qs =>
    obtain ⟨hfst', hscore'⟩ := scored_eq_some_iff.1 hqs
    -- Both lists of pairs are the graph of one function over permuted lists.
    have hgraph : ∀ rs : List (α × F), (∀ p ∈ rs, score p.1 = some p.2) →
        rs.map (fun p => (p.1, score p.1)) = rs.map fun p => (p.1, some p.2) := by
      intro rs hrs
      apply List.map_congr_left
      intro p hp
      rw [hrs p hp]
    have hmap : (ps.map fun p => (p.1, some p.2)).Perm (qs.map fun p => (p.1, some p.2)) := by
      rw [← hgraph ps hscore, ← hgraph qs hscore']
      have hcomp : ∀ rs : List (α × F), rs.map (fun p => (p.1, score p.1)) =
          (rs.map Prod.fst).map fun a => (a, score a) := fun rs => by
        rw [List.map_map]
        rfl
      rw [hcomp, hcomp, hfst, hfst']
      exact h.map _
    have hinj : Function.Injective fun p : α × F => (p.1, some p.2) := by
      rintro ⟨a, d⟩ ⟨b, e⟩ heq
      simpa using heq
    exact ⟨qs, rfl, (List.map_perm_map_iff hinj).1 hmap⟩

section Map

variable {score' : β → Option F} {stamp' : β → ℕ}

/-- Scoring commutes with a map that keeps the scores. -/
theorem scored_map (f : α → β) (h : ∀ a ∈ xs, score' (f a) = score a) :
    scored score' (xs.map f) = (scored score xs).map fun ps => ps.map fun p => (f p.1, p.2) := by
  induction xs with
  | nil => rfl
  | cons a xs ih =>
    rw [List.map_cons, scored_cons, scored_cons, h a List.mem_cons_self,
      ih fun b hb => h b (List.mem_cons_of_mem a hb)]
    cases score a with
    | none => rfl
    | some d =>
      cases scored score xs with
      | none => rfl
      | some ps => rfl

end Map

/-- The result of a selection. -/
theorem best_eq_some_iff {out : List (α × F)} :
    best cmp score stamp n xs = some out ↔
      ∃ ps, scored score xs = some ps ∧ (rank cmp Prod.snd (fun p => stamp p.1) ps).take n = out :=
  Option.map_eq_some_iff

/-- A selection is undefined when some element has no score. -/
theorem best_eq_none_iff : best cmp score stamp n xs = none ↔ ∃ a ∈ xs, score a = none := by
  unfold best
  rw [Option.map_eq_none_iff, scored_eq_none_iff]

/-- A selection is defined when every element has a score. -/
theorem exists_best (h : ∀ a ∈ xs, score a ≠ none) :
    ∃ out, best cmp score stamp n xs = some out := by
  rw [← Option.ne_none_iff_exists', ne_eq, best_eq_none_iff]
  rintro ⟨a, ha, hnone⟩
  exact h a ha hnone

/-- A selection under a partial score. -/
theorem selects_iff_best {out : List (α × F)} :
    Selects cmp stamp (fun a d => score a = some d) n xs out ↔
      best cmp score stamp n xs = some out := by
  rw [best_eq_some_iff]
  constructor
  · rintro ⟨ps, hfst, hR, rfl⟩
    exact ⟨ps, scored_eq_some_iff.2 ⟨hfst, hR⟩, rfl⟩
  · rintro ⟨ps, hps, rfl⟩
    obtain ⟨hfst, hR⟩ := scored_eq_some_iff.1 hps
    exact ⟨ps, hfst, hR, rfl⟩

/-- A smaller selection is the front of a larger one. -/
theorem best_take {m : ℕ} (h : m ≤ n) :
    best cmp score stamp m xs = (best cmp score stamp n xs).map (List.take m) := by
  unfold best
  rw [Option.map_map]
  congr 1
  funext ps
  rw [Function.comp_apply, List.take_take, Nat.min_eq_left h]

/-- The stamps of scored elements. -/
theorem map_stamp_of_scored {ps : List (α × F)} (h : scored score xs = some ps) :
    ps.map (fun p => stamp p.1) = xs.map stamp := by
  rw [← (scored_eq_some_iff.1 h).1, List.map_map]
  rfl

/-- With a score everywhere, a selection is a prefix of the ranking. -/
theorem best_of_total {f : α → F} (h : ∀ a ∈ xs, score a = some (f a)) :
    best cmp score stamp n xs =
      some (((rank cmp f stamp xs).take n).map fun a => (a, f a)) := by
  unfold best
  have hmap : (rank cmp f stamp xs).map (fun a => (a, f a)) =
      rank cmp Prod.snd (fun p => stamp p.1) (xs.map fun a => (a, f a)) :=
    map_rank _ xs (fun _ _ => rfl) fun _ _ _ _ => rfl
  rw [scored_of_total h, Option.map_some, ← hmap, List.map_take]

/-- With distinct stamps, a selection does not depend on the order of the list. -/
theorem best_perm [TransCmp cmp] (hd : (xs.map stamp).Nodup) (h : xs.Perm ys) :
    best cmp score stamp n xs = best cmp score stamp n ys := by
  unfold best
  cases hps : scored score xs with
  | none =>
    obtain ⟨a, ha, hnone⟩ := scored_eq_none_iff.1 hps
    rw [scored_eq_none_iff.2 ⟨a, h.mem_iff.1 ha, hnone⟩]
  | some ps =>
    obtain ⟨qs, hqs, hperm⟩ := scored_perm h hps
    rw [← map_stamp_of_scored hps] at hd
    rw [hqs, Option.map_some, Option.map_some, rank_eq_of_perm hd hperm]

/-- A selection commutes with a map that keeps the scores and the order of the stamps. -/
theorem best_map {score' : β → Option F} {stamp' : β → ℕ} (f : α → β)
    (hscore : ∀ a ∈ xs, score' (f a) = score a)
    (hstamp : ∀ a ∈ xs, ∀ b ∈ xs,
      compare (stamp' (f a)) (stamp' (f b)) = compare (stamp a) (stamp b)) :
    best cmp score' stamp' n (xs.map f) =
      (best cmp score stamp n xs).map fun out => out.map fun p => (f p.1, p.2) := by
  unfold best
  rw [scored_map f hscore]
  cases hps : scored score xs with
  | none => rfl
  | some ps =>
    have hmem : ∀ p ∈ ps, p.1 ∈ xs := fun p hp => by
      rw [← (scored_eq_some_iff.1 hps).1]
      exact List.mem_map_of_mem hp
    have hmap : (rank cmp Prod.snd (fun p => stamp p.1) ps).map (fun p => (f p.1, p.2)) =
        rank cmp Prod.snd (fun p => stamp' p.1) (ps.map fun p => (f p.1, p.2)) :=
      map_rank _ ps (fun _ _ => rfl) fun p hp q hq => hstamp p.1 (hmem p hp) q.1 (hmem q hq)
    simp only [Option.map_some, ← hmap, List.map_take]

/-- Inserting an element before others only compares it with them. -/
theorem orderedInsert_congr {r r' : α → α → Prop} [DecidableRel r] [DecidableRel r'] {a : α}
    (h : ∀ b ∈ xs, r a b ↔ r' a b) : xs.orderedInsert r a = xs.orderedInsert r' a := by
  induction xs with
  | nil => rfl
  | cons b xs ih =>
    have hb := h b List.mem_cons_self
    rw [List.orderedInsert_cons, List.orderedInsert_cons,
      ih fun c hc => h c (List.mem_cons_of_mem b hc)]
    by_cases hr : r a b
    · rw [if_pos hr, if_pos (hb.1 hr)]
    · rw [if_neg hr, if_neg fun hr' => hr (hb.2 hr')]

/-- Over a list in the order of its stamps, ranking is a stable sort by score. -/
theorem rank_eq_sort {f : α → F} (h : xs.Pairwise fun a b => stamp a < stamp b) :
    rank cmp f stamp xs = sort (fun a b => cmp (f a) (f b)) xs := by
  unfold rank sort
  induction xs with
  | nil => rfl
  | cons a xs ih =>
    obtain ⟨hlt, hxs⟩ := List.pairwise_cons.1 h
    rw [List.insertionSort_cons, List.insertionSort_cons, ih hxs]
    apply orderedInsert_congr
    intro b hb
    have hab : compare (stamp a) (stamp b) = .lt :=
      Nat.compare_eq_lt.2 (hlt b ((List.perm_insertionSort _ _).mem_iff.1 hb))
    show ((cmp (f a) (f b)).then (compare (stamp a) (stamp b))).isLE = true ↔
      (cmp (f a) (f b)).isLE = true
    -- The later stamp only decides between equal scores, and then for the element in front.
    rw [hab]
    cases cmp (f a) (f b) with
    | lt => exact Iff.rfl
    | eq => exact Iff.rfl
    | gt => exact Iff.rfl

/-! ## Plans -/

/-- How to select: by one score, or by a fine score among the best `m` by a coarse one. -/
inductive Plan (α F : Type) where
  | direct (score : α → Option F)
  | staged (coarse fine : α → Option F) (m : ℕ)

namespace Plan

/-- The selection of a plan. -/
def run (cmp : F → F → Ordering) (stamp : α → ℕ) (n : ℕ) (xs : List α) :
    Plan α F → Option (List (α × F))
  | direct score => best cmp score stamp n xs
  | staged coarse fine m =>
    (best cmp coarse stamp m xs).bind fun short => best cmp fine stamp n (short.map Prod.fst)

/-- A direct plan is one selection. -/
@[simp] theorem run_direct (score : α → Option F) :
    (direct score).run cmp stamp n xs = best cmp score stamp n xs := rfl

/-- A staged plan selects among what it has selected. -/
@[simp] theorem run_staged (coarse fine : α → Option F) (m : ℕ) :
    (staged coarse fine m).run cmp stamp n xs =
      (best cmp coarse stamp m xs).bind fun short =>
        best cmp fine stamp n (short.map Prod.fst) := rfl

/-- With distinct stamps, a plan does not depend on the order of the list. -/
theorem run_perm [TransCmp cmp] (hd : (xs.map stamp).Nodup) (h : xs.Perm ys) (plan : Plan α F) :
    plan.run cmp stamp n xs = plan.run cmp stamp n ys := by
  cases plan with
  | direct score => exact best_perm hd h
  | staged coarse fine m => rw [run_staged, run_staged, best_perm hd h]

/-- Two plans that score the elements of a list and their images alike. -/
inductive Agrees (f : α → β) (xs : List α) : Plan α F → Plan β F → Prop
  | direct {score : α → Option F} {score' : β → Option F}
    (hscore : ∀ a ∈ xs, score' (f a) = score a) : Agrees f xs (.direct score) (.direct score')
  | staged {coarse fine : α → Option F} {coarse' fine' : β → Option F} {m : ℕ}
    (hcoarse : ∀ a ∈ xs, coarse' (f a) = coarse a) (hfine : ∀ a ∈ xs, fine' (f a) = fine a) :
    Agrees f xs (.staged coarse fine m) (.staged coarse' fine' m)

/-- A plan commutes with a map that keeps the scores and the order of the stamps. -/
theorem run_map {stamp' : β → ℕ} {f : α → β} {plan : Plan α F} {plan' : Plan β F}
    (h : Agrees f xs plan plan')
    (hstamp : ∀ a ∈ xs, ∀ b ∈ xs,
      compare (stamp' (f a)) (stamp' (f b)) = compare (stamp a) (stamp b)) :
    plan'.run cmp stamp' n (xs.map f) =
      (plan.run cmp stamp n xs).map fun out => out.map fun p => (f p.1, p.2) := by
  cases h with
  | direct hscore => exact best_map f hscore hstamp
  | @staged coarse fine coarse' fine' m hcoarse hfine =>
    rw [run_staged, run_staged, best_map f hcoarse hstamp]
    cases hshort : best cmp coarse stamp m xs with
    | none => rfl
    | some short =>
      -- The second stage only meets elements of the list.
      have hmem : ∀ a ∈ short.map Prod.fst, a ∈ xs := fun a ha =>
        (selects_iff_best.2 hshort).subperm.subset ha
      have hfst : (short.map fun p => (f p.1, p.2)).map Prod.fst =
          (short.map Prod.fst).map f := by
        rw [List.map_map, List.map_map]
        rfl
      rw [Option.map_some, Option.bind_some, Option.bind_some, hfst]
      exact best_map f (fun a ha => hfine a (hmem a ha))
        fun a ha b hb => hstamp a (hmem a ha) b (hmem b hb)

/-- The plan that selects elements by the scores of their images. -/
def comap (f : α → β) : Plan β F → Plan α F
  | direct score => .direct fun a => score (f a)
  | staged coarse fine m => .staged (fun a => coarse (f a)) (fun a => fine (f a)) m

/-- Two plans that score images alike, seen from the elements. -/
theorem agrees_comap_comap {γ : Type} (f : α → β) (g : β → γ) (xs : List α) (plan : Plan γ F) :
    Agrees f xs (plan.comap fun a => g (f a)) (plan.comap g) := by
  cases plan with
  | direct score => exact .direct fun _ _ => rfl
  | staged coarse fine m => exact .staged (fun _ _ => rfl) fun _ _ => rfl

/-- There is nothing to select from the empty list. -/
theorem run_nil (plan : Plan α F) : plan.run cmp stamp n [] = some [] := by
  have hnil : ∀ (score : α → Option F) (n : ℕ), best cmp score stamp n [] = some [] := by
    intro score n
    unfold best
    rw [scored_nil, Option.map_some]
    exact congrArg some List.take_nil
  cases plan with
  | direct score => exact hnil score n
  | staged coarse fine m =>
    rw [run_staged, hnil]
    exact hnil fine n

/-- Numbering a list anew, in its order, does not change what is selected from it. -/
theorem run_renumbered {ps : List (β × ℕ)} (hps : ps.Pairwise fun p q => p.2 < q.2)
    (plan : Plan β F) :
    ((plan.comap Prod.fst).run cmp Prod.snd n ps).map (List.map fun r => (r.1.1, r.2)) =
      ((plan.comap Prod.fst).run cmp Prod.snd n (ps.map Prod.fst).zipIdx).map
        (List.map fun r => (r.1.1, r.2)) := by
  let middle := (plan.comap fun m : (β × ℕ) × ℕ => m.1.1).run cmp Prod.snd n ps.zipIdx
  -- Both runs are images of one over the pairs, numbered.
  have hold : (plan.comap Prod.fst).run cmp Prod.snd n ps =
      middle.map fun out => out.map fun r => (r.1.1, r.2) := by
    have hfst : ps.zipIdx.map Prod.fst = ps := List.zipIdx_map_fst ..
    have hagrees := agrees_comap_comap Prod.fst Prod.fst ps.zipIdx plan
    calc (plan.comap Prod.fst).run cmp Prod.snd n ps
        = (plan.comap Prod.fst).run cmp Prod.snd n (ps.zipIdx.map Prod.fst) := by rw [hfst]
      _ = middle.map fun out => out.map fun r => (r.1.1, r.2) :=
        run_map hagrees fun p hp q hq => compare_zipIdx hps hp hq
  have hnew : (plan.comap Prod.fst).run cmp Prod.snd n (ps.map Prod.fst).zipIdx =
      middle.map fun out => out.map fun r => ((r.1.1.1, r.1.2), r.2) := by
    rw [List.zipIdx_map]
    exact run_map (agrees_comap_comap (Prod.map Prod.fst id) Prod.fst ps.zipIdx plan)
      fun _ _ _ _ => rfl
  rw [hold, hnew, Option.map_map, Option.map_map]
  congr 1
  funext out
  simp

/-- Two lists with the same elements in the same order, numbered in any increasing way, are selected
from alike. -/
theorem run_numbered {ps qs : List (β × ℕ)} (hps : ps.Pairwise fun p q => p.2 < q.2)
    (hqs : qs.Pairwise fun p q => p.2 < q.2) (heq : ps.map Prod.fst = qs.map Prod.fst)
    (plan : Plan β F) :
    ((plan.comap Prod.fst).run cmp Prod.snd n ps).map (List.map fun r => (r.1.1, r.2)) =
      ((plan.comap Prod.fst).run cmp Prod.snd n qs).map (List.map fun r => (r.1.1, r.2)) := by
  rw [run_renumbered hps, run_renumbered hqs, heq]

/-- A shortlist of all elements leaves the selection to the fine score. -/
theorem run_staged_of_le [TransCmp cmp] (hd : (xs.map stamp).Nodup) {coarse fine : α → Option F}
    {m : ℕ} (hm : xs.length ≤ m) (hcoarse : ∀ a ∈ xs, coarse a ≠ none) :
    (staged coarse fine m).run cmp stamp n xs = best cmp fine stamp n xs := by
  rw [run_staged]
  cases hshort : best cmp coarse stamp m xs with
  | none =>
    obtain ⟨a, ha, hnone⟩ := best_eq_none_iff.1 hshort
    exact absurd hnone (hcoarse a ha)
  | some short =>
    -- The shortlist is the whole list in another order.
    have hperm := (selects_iff_best.2 hshort).perm hm
    rw [Option.bind_some]
    exact (best_perm hd hperm.symm).symm

end Plan

end Selection
