import Mathlib.Data.List.Count
import IqdbIvf.Lib.Ranking

/-!
# The first elements of a ranking, and outliers at its ends

An element is among the first `n` of a ranking exactly when fewer than `n` others rank below it
(`mem_take_rank_iff`). When a list has outliers that come before all normal elements and outliers
that come behind them, those of the first kind spoil a selection of the first `n`: no outlier stands
before a normal element exactly when there are no outliers of the first kind, or only outliers
(`outliers_behind_iff`). Without regard to the order of the selection, the outliers of the first
kind also do no harm when `n` leaves room for all normal elements behind them
(`no_outlier_instead_iff`).
-/

namespace Ranking

open Std (TransCmp OrientedCmp)

section Position

variable {F α : Type} {cmp : F → F → Ordering} {score : α → F} {stamp : α → ℕ}

/-- A member of a list without duplicates is among the first `n` when fewer than `n` others precede
it. -/
theorem mem_take_append_iff {before after : List α} {a : α} (hd : (before ++ a :: after).Nodup)
    (n : ℕ) : a ∈ (before ++ a :: after).take n ↔ before.length < n := by
  rw [List.take_append]
  constructor
  · intro h
    by_contra hn
    rw [Nat.sub_eq_zero_of_le (Nat.le_of_not_lt hn), List.take_zero, List.append_nil] at h
    exact (List.nodup_append.1 hd).2.2 a (List.mem_of_mem_take h) a List.mem_cons_self rfl
  · intro h
    obtain ⟨m, hm⟩ : ∃ m, n - before.length = m + 1 := ⟨n - before.length - 1, by omega⟩
    rw [hm, List.take_succ_cons]
    exact List.mem_append_right _ List.mem_cons_self

/-- An element is among the first `n` of a ranking when fewer than `n` elements rank below it. -/
theorem mem_take_rank_iff [TransCmp cmp] {xs : List α} (hd : (xs.map stamp).Nodup) {a : α}
    (ha : a ∈ xs) (n : ℕ) :
    a ∈ (rank cmp score stamp xs).take n ↔
      xs.countP (fun b => rankCmp cmp score stamp b a = .lt) < n := by
  have hlt : (rank cmp score stamp xs).Pairwise fun b c => rankCmp cmp score stamp b c = .lt := by
    refine (pairwise_rank hd).imp fun {b c} h => ?_
    unfold rankCmp
    rcases h with h | ⟨h, hstamp⟩
    · rw [h]
      rfl
    · rw [h, Ordering.eq_then, Nat.compare_eq_lt.2 hstamp]
  have hnodup : (rank cmp score stamp xs).Nodup :=
    ((rank_perm xs).nodup_iff).2 (List.Nodup.of_map _ hd)
  have hmem : a ∈ rank cmp score stamp xs := mem_rank.2 ha
  have hperm : (rank cmp score stamp xs).Perm xs := rank_perm xs
  rw [← hperm.countP_eq]
  -- What ranks below the element is what stands before it.
  obtain ⟨before, after, hsplit⟩ := List.append_of_mem hmem
  rw [hsplit] at hlt hnodup ⊢
  obtain ⟨-, hafter, hbefore⟩ := List.pairwise_append.1 hlt
  have hcount : (before ++ a :: after).countP (fun b => rankCmp cmp score stamp b a = .lt) =
      before.length := by
    rw [List.countP_append, List.countP_eq_length.2, List.countP_eq_zero.2, Nat.add_zero]
    · intro b hb
      rw [decide_eq_true_eq]
      rcases List.mem_cons.1 hb with rfl | hb
      · have hself : rankCmp cmp score stamp b b = .eq := Std.ReflCmp.compare_self
        rw [hself]
        exact Ordering.noConfusion
      · exact OrientedCmp.not_lt_of_lt ((List.pairwise_cons.1 hafter).1 b hb)
    · intro b hb
      exact decide_eq_true (hbefore b hb a List.mem_cons_self)
  rw [hcount, mem_take_append_iff hnodup]

end Position

section Outliers

variable {α : Type} {early outlier : α → Prop} {ys : List α} {n : ℕ}

/-- Early outliers are preceded by early outliers only, and the other outliers by no normal element
but followed by outliers only. -/
def Separated (early outlier : α → Prop) (ys : List α) : Prop :=
  ys.Pairwise fun a b => (early b → early a) ∧ (outlier a → early a ∨ outlier b)

/-- When there is an early outlier, the first element is one. -/
theorem Separated.exists_head (h : Separated early outlier ys) {a : α} (ha : a ∈ ys)
    (he : early a) : ∃ b rest, ys = b :: rest ∧ early b := by
  cases ys with
  | nil => exact absurd ha List.not_mem_nil
  | cons b rest =>
    refine ⟨b, rest, rfl, ?_⟩
    rcases List.mem_cons.1 ha with rfl | ha
    · exact he
    · exact ((List.pairwise_cons.1 h).1 a ha).1 he

/-- An element among the first `n` stands before one that is not. -/
theorem Separated.take_drop (h : Separated early outlier ys) {a b : α} (ha : a ∈ ys.take n)
    (hb : b ∈ ys.drop n) : (early b → early a) ∧ (outlier a → early a ∨ outlier b) := by
  unfold Separated at h
  rw [← List.take_append_drop n ys] at h
  exact (List.pairwise_append.1 h).2.2 a ha b hb

/-- Some element is an early outlier, when not all of them are none. -/
theorem exists_early (h : ¬ ∀ a ∈ ys, ¬ early a) : ∃ a ∈ ys, early a := by
  by_contra hno
  exact h fun a ha he => hno ⟨a, ha, he⟩

/-- Some element is normal, when not all of them are outliers. -/
theorem exists_normal (h : ¬ ∀ a ∈ ys, outlier a) : ∃ a ∈ ys, ¬ outlier a := by
  by_contra hno
  exact h fun a ha => not_not.1 fun hnot => hno ⟨a, ha, hnot⟩

/-- In the images of the first `n` elements every outlier stands behind all normal elements of the
list exactly when the list has no early outliers, or only outliers. -/
theorem outliers_behind_iff {β : Type} (f : α → β) (h : Separated early outlier ys)
    (hearly : ∀ a, early a → outlier a) (hn : 0 < n) :
    (∀ before a after, ys.take n = before ++ a :: after → outlier a →
      ∀ b ∈ ys, ¬ outlier b → f b ∈ before.map f) ↔
    (∀ a ∈ ys, ¬ early a) ∨ ∀ a ∈ ys, outlier a := by
  constructor
  · intro hbehind
    by_contra hno
    obtain ⟨a, ha, he⟩ := exists_early (not_or.1 hno).1
    obtain ⟨b, hb, hnormal⟩ := exists_normal (not_or.1 hno).2
    -- The first element is an early outlier, and nothing stands before it.
    obtain ⟨c, rest, rfl, hc⟩ := h.exists_head ha he
    obtain ⟨m, rfl⟩ : ∃ m, n = m + 1 := ⟨n - 1, by omega⟩
    exact List.not_mem_nil
      (hbehind [] c (rest.take m) List.take_succ_cons (hearly c hc) b hb hnormal)
  · rintro (hno | hall) before a after htake ha b hb hnormal
    · have hmem : a ∈ ys := List.mem_of_mem_take (by rw [htake]; simp)
      have hsplit : ys = before ++ a :: (after ++ ys.drop n) := by
        rw [← List.cons_append, ← List.append_assoc, ← htake, List.take_append_drop]
      rw [hsplit] at hb
      rcases List.mem_append.1 hb with hb | hb
      · exact List.mem_map_of_mem hb
      · -- What follows an outlier that is not an early one is an outlier.
        unfold Separated at h
        rw [hsplit] at h
        rcases List.mem_cons.1 hb with rfl | hb
        · exact absurd ha hnormal
        · have hafter := (List.pairwise_cons.1 (List.pairwise_append.1 h).2.1).1 b hb
          exact absurd ((hafter.2 ha).resolve_left (hno a hmem)) hnormal
    · exact absurd (hall b hb) hnormal

section Count

variable [DecidablePred early] [DecidablePred outlier]

/-- The count of a list is that of its first `n` elements and of the others. -/
theorem countP_take_add_drop (p : α → Bool) (ys : List α) (n : ℕ) :
    ys.countP p = (ys.take n).countP p + (ys.drop n).countP p := by
  rw [← List.countP_append, List.take_append_drop]

/-- When the first `n` elements contain all normal ones, of which there are some, at most `n`
elements are early outliers or normal. -/
theorem Separated.countP_le (h : Separated early outlier ys) (hearly : ∀ a, early a → outlier a)
    (hd : ys.Nodup) (hselected : ∀ b ∈ ys, ¬ outlier b → b ∈ ys.take n) {b : α} (hb : b ∈ ys)
    (hnormal : ¬ outlier b) : ys.countP (fun a => early a ∨ ¬ outlier a) ≤ n := by
  have hle : (ys.take n).countP (fun a => early a ∨ ¬ outlier a) ≤ n :=
    List.countP_le_length.trans (List.length_take_le n ys)
  -- No element of the rest is of this kind.
  have hzero : (ys.drop n).countP (fun a => early a ∨ ¬ outlier a) = 0 := by
    rw [List.countP_eq_zero]
    intro x hx hx'
    rcases of_decide_eq_true hx' with hxe | hxn
    · exact hnormal (hearly b ((h.take_drop (hselected b hb hnormal) hx).1 hxe))
    · have htake := hselected x (List.mem_of_mem_drop hx) hxn
      rw [← List.take_append_drop n ys] at hd
      exact (List.nodup_append.1 hd).2.2 x htake x hx rfl
  rw [countP_take_add_drop _ ys n, hzero]
  exact hle

/-- When a normal element is not among the first `n`, more than `n` elements are early outliers or
normal. -/
theorem Separated.lt_countP (h : Separated early outlier ys) {b : α} (hb : b ∈ ys.drop n)
    (hnormal : ¬ outlier b) : n < ys.countP fun a => early a ∨ ¬ outlier a := by
  have hlen : (ys.take n).length = n := by
    have hpos := List.length_pos_of_mem hb
    rw [List.length_drop] at hpos
    exact List.length_take_of_le (by omega)
  -- An outlier before a normal element is an early one.
  have hfull : (ys.take n).countP (fun a => early a ∨ ¬ outlier a) = n := by
    rw [List.countP_eq_length.2, hlen]
    intro x hx
    by_cases hxo : outlier x
    · exact decide_eq_true (.inl (((h.take_drop hx hb).2 hxo).resolve_right hnormal))
    · exact decide_eq_true (.inr hxo)
  have hpos : 0 < (ys.drop n).countP fun a => early a ∨ ¬ outlier a :=
    List.countP_pos_iff.2 ⟨b, hb, decide_eq_true (.inr hnormal)⟩
  have hsum := countP_take_add_drop (fun a => decide (early a ∨ ¬ outlier a)) ys n
  omega

/-- The first `n` elements contain no outlier in place of a normal element exactly when the list has
no early outliers, or only outliers, or at most `n` elements that are early outliers or normal. -/
theorem no_outlier_instead_iff (h : Separated early outlier ys)
    (hearly : ∀ a, early a → outlier a) (hd : ys.Nodup) (hn : 0 < n) :
    (∀ a ∈ ys.take n, outlier a → ∀ b ∈ ys, ¬ outlier b → b ∈ ys.take n) ↔
    (∀ a ∈ ys, ¬ early a) ∨ (∀ a ∈ ys, outlier a) ∨
      ys.countP (fun a => early a ∨ ¬ outlier a) ≤ n := by
  constructor
  · intro hinstead
    by_contra hno
    obtain ⟨hno, hrest⟩ := not_or.1 hno
    obtain ⟨hnormals, hroom⟩ := not_or.1 hrest
    obtain ⟨a, ha, he⟩ := exists_early hno
    obtain ⟨b, hb, hnormal⟩ := exists_normal hnormals
    -- The first element is an early outlier, so all normal elements must be selected.
    have hselected : ∀ b ∈ ys, ¬ outlier b → b ∈ ys.take n := by
      obtain ⟨c, rest, hys, hc⟩ := h.exists_head ha he
      obtain ⟨m, rfl⟩ : ∃ m, n = m + 1 := ⟨n - 1, by omega⟩
      exact hinstead c (by rw [hys, List.take_succ_cons]; exact List.mem_cons_self) (hearly c hc)
    exact hroom (h.countP_le hearly hd hselected hb hnormal)
  · intro hcond a ha hout b hb hnormal
    by_contra hnot
    have hdrop : b ∈ ys.drop n := by
      rw [← List.take_append_drop n ys] at hb
      exact (List.mem_append.1 hb).resolve_left hnot
    rcases hcond with hno | hall | hroom
    · have hae : early a := ((h.take_drop ha hdrop).2 hout).resolve_right hnormal
      exact hno a (List.mem_of_mem_take ha) hae
    · exact hnormal (hall b hb)
    · exact absurd (h.lt_countP hdrop hnormal) (Nat.not_lt.2 hroom)

end Count

end Outliers

end Ranking
