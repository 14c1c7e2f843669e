import IqdbIvf.Lib.Ranking
import Mathlib.Data.List.Induction

/-!
# Selection with a bounded max-heap

A heap of at most `cap` elements reads a stream: while there is room an element is pushed, and
afterwards an element below the greatest one replaces it. On a stream without equal elements the
heap ends with the first `cap` elements of the sorted stream (`select_eq`). The invariant is that
after a prefix of the stream the heap holds the first `cap` elements of that prefix, sorted; the
step inserts one element into a sorted list and cuts it again (`offer_toList`).
-/

namespace BoundedHeap

open Ranking
open Std (TransCmp OrientedCmp)

variable {α : Type}

/-- A max-heap for the order `cmp`, by its observable behaviour: its elements from the least to
the greatest, which is the order that emptying it into a vector gives. -/
structure BinaryHeap (cmp : α → α → Ordering) where
  /-- The elements, least first. -/
  toList : List α
  /-- They are in order. -/
  sorted : toList.Pairwise (Le cmp)

namespace BinaryHeap

variable {cmp : α → α → Ordering}

/-- The heap without elements. -/
def empty : BinaryHeap cmp := ⟨[], .nil⟩

/-- The number of elements. -/
def len (h : BinaryHeap cmp) : ℕ := h.toList.length

/-- The greatest element. -/
def peek (h : BinaryHeap cmp) : Option α := h.toList.getLast?

/-- Adds an element. -/
def push [TransCmp cmp] (h : BinaryHeap cmp) (x : α) : BinaryHeap cmp :=
  ⟨h.toList.orderedInsert (Le cmp) x, h.sorted.orderedInsert x _⟩

/-- Removes the greatest element. -/
def pop (h : BinaryHeap cmp) : BinaryHeap cmp :=
  ⟨h.toList.dropLast, h.sorted.sublist (List.dropLast_sublist _)⟩

/-- The elements, least first. -/
def intoSortedVec (h : BinaryHeap cmp) : List α := h.toList

/-- Pushing sorts the element in. -/
@[simp] theorem push_toList [TransCmp cmp] (h : BinaryHeap cmp) (x : α) :
    (h.push x).toList = h.toList.orderedInsert (Le cmp) x := rfl

/-- Popping takes off the greatest element. -/
@[simp] theorem pop_toList (h : BinaryHeap cmp) : h.pop.toList = h.toList.dropLast := rfl

end BinaryHeap

/-- Offers `x` to a heap of at most `cap` elements. -/
def offer {cmp : α → α → Ordering} [TransCmp cmp] (cap : ℕ) (heap : BinaryHeap cmp) (x : α) :
    BinaryHeap cmp :=
  if heap.len < cap then heap.push x
  else if heap.peek.any (fun worst => cmp x worst == .lt) then heap.pop.push x
  else heap

/-- The elements that a heap of at most `cap` elements keeps of a stream, least first. -/
def select (cmp : α → α → Ordering) [TransCmp cmp] (cap : ℕ) (xs : List α) : List α :=
  (xs.foldl (offer cap) (BinaryHeap.empty : BinaryHeap cmp)).intoSortedVec

section OrderedInsert

variable {r : α → α → Prop} [DecidableRel r]

/-- An element that comes before `w` is inserted in front of it. -/
theorem orderedInsert_append_cons (x w : α) (T R : List α) (h : r x w) :
    (T ++ w :: R).orderedInsert r x = T.orderedInsert r x ++ w :: R := by
  induction T with
  | nil => simp [h]
  | cons t T ih =>
    by_cases ht : r x t
    · simp [ht]
    · simp [ht, ih]

/-- An element that comes before none of a prefix is inserted behind it. -/
theorem orderedInsert_append_of_not (x : α) (T R : List α) (h : ∀ t ∈ T, ¬ r x t) :
    (T ++ R).orderedInsert r x = T ++ R.orderedInsert r x := by
  induction T with
  | nil => rfl
  | cons t T ih =>
    have ht : ¬ r x t := h t List.mem_cons_self
    simp [ht, ih fun t' ht' => h t' (List.mem_cons_of_mem t ht')]

end OrderedInsert

variable {cmp : α → α → Ordering} [TransCmp cmp]

/-- Sorting a list with one more element inserts it into the sorted list. -/
theorem sort_append_singleton {xs : List α} {x : α} (hd : Distinct cmp (xs ++ [x])) :
    sort cmp (xs ++ [x]) = (sort cmp xs).orderedInsert (Le cmp) x := by
  symm
  apply eq_sort_of_perm hd ((pairwise_sort xs).orderedInsert x _)
  calc (sort cmp xs).orderedInsert (Le cmp) x
      |>.Perm (x :: sort cmp xs) := List.perm_orderedInsert _ x _
    _ |>.Perm (x :: xs) := (sort_perm xs).cons x
    _ |>.Perm (xs ++ [x]) := (List.perm_append_singleton x xs).symm

/-- Offering an element to a heap that holds the first `cap` elements of a sorted list gives the
first `cap` elements of the list with the element inserted. -/
theorem offer_toList {cap : ℕ} {heap : BinaryHeap cmp} {S : List α} {x : α}
    (hS : S.Pairwise (Le cmp)) (hx : ∀ s ∈ S, cmp x s ≠ .eq) (hheap : heap.toList = S.take cap) :
    (offer cap heap x).toList = (S.orderedInsert (Le cmp) x).take cap := by
  unfold offer BinaryHeap.len
  rw [hheap, List.length_take]
  by_cases hroom : S.length < cap
  · -- The heap holds all of `S`, and there is room for one more.
    have hall : S.take cap = S := List.take_of_length_le hroom.le
    have hlen : (S.orderedInsert (Le cmp) x).length ≤ cap := by
      rw [(List.perm_orderedInsert _ x S).length_eq, List.length_cons]
      omega
    rw [if_pos (by omega), List.take_of_length_le hlen, BinaryHeap.push_toList, hheap, hall]
  rw [if_neg (by omega)]
  unfold BinaryHeap.peek
  rw [hheap]
  rcases hT : S.take cap with _ | ⟨t, T'⟩
  · -- An empty full heap has `cap = 0`.
    have hcap : cap = 0 := by
      have := congrArg List.length hT
      simp only [List.length_take, List.length_nil] at this
      omega
    rw [if_neg (by simp), hheap, hT, hcap, List.take_zero]
  rw [← hT]
  -- The heap is full: `w` is its greatest element and `T` holds the others.
  obtain ⟨T, w, hTw⟩ : ∃ T w, S.take cap = T ++ [w] :=
    ⟨_, _, (List.dropLast_concat_getLast (by rw [hT]; exact List.cons_ne_nil t T')).symm⟩
  have hsplit : S = T ++ w :: S.drop cap := by
    conv_lhs => rw [← List.take_append_drop cap S, hTw]
    simp
  have hlen : T.length + 1 = cap := by
    have := congrArg List.length hTw
    simp only [List.length_take, List.length_append, List.length_singleton] at this
    omega
  rw [hTw, List.getLast?_concat, Option.any_some]
  by_cases hlt : cmp x w = .lt
  · -- `x` replaces `w`.
    have hle : Le cmp x w := by rw [Le, hlt]; rfl
    have hpop : heap.pop.toList = T := by
      rw [BinaryHeap.pop_toList, hheap, hTw, List.dropLast_concat]
    have hcut : (T.orderedInsert (Le cmp) x).length = cap := by
      rw [(List.perm_orderedInsert _ x T).length_eq, List.length_cons, hlen]
    rw [if_pos (by rw [hlt]; rfl), BinaryHeap.push_toList, hpop, hsplit,
      orderedInsert_append_cons x w T _ hle, List.take_append_of_le_length hcut.ge,
      List.take_of_length_le hcut.le]
  · -- `x` comes behind everything in the heap.
    have hwx : cmp w x = .lt := by
      have hne := hx w (by rw [hsplit]; simp)
      rcases hc : cmp x w with _ | _ | _
      · exact absurd hc hlt
      · exact absurd hc hne
      · exact OrientedCmp.lt_of_gt hc
    have hbehind : ∀ t ∈ S.take cap, ¬ Le cmp x t := by
      intro t ht hxt
      have htw : Le cmp t w := by
        rw [hTw, List.mem_append, List.mem_singleton] at ht
        rcases ht with ht | rfl
        · rw [hsplit, List.pairwise_append] at hS
          exact hS.2.2 t ht w List.mem_cons_self
        · have hself : cmp t t = .eq := Std.ReflCmp.compare_self
          rw [Le, hself]; rfl
      exact OrientedCmp.not_isLE_of_lt hwx (TransCmp.isLE_trans hxt htw)
    have hfull : (S.take cap).length = cap := by rw [List.length_take]; omega
    rw [if_neg (by rw [beq_iff_eq]; exact hlt), hheap]
    conv_rhs => rw [← List.take_append_drop cap S, orderedInsert_append_of_not x _ _ hbehind,
      List.take_append_of_le_length hfull.ge, List.take_of_length_le hfull.le]

/-- A bounded heap keeps the first `cap` elements of the sorted stream, in order. -/
theorem select_eq (cap : ℕ) {xs : List α} (hd : Distinct cmp xs) :
    select cmp cap xs = (sort cmp xs).take cap := by
  unfold select BinaryHeap.intoSortedVec
  induction xs using List.reverseRecOn with
  | nil => simp [BinaryHeap.empty]
  | append_singleton xs x ih =>
    obtain ⟨hd', -, hx⟩ := List.pairwise_append.1 hd
    rw [List.foldl_append, List.foldl_cons, List.foldl_nil, sort_append_singleton hd]
    apply offer_toList (pairwise_sort xs) _ (ih hd')
    intro s hs heq
    exact hx s (mem_sort.1 hs) x (List.mem_singleton.2 rfl) (OrientedCmp.eq_symm heq)

end BoundedHeap
