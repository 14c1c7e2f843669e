import Mathlib.Algebra.Ring.Nat
import Mathlib.Data.List.Basic
import Mathlib.Data.List.Perm.Basic

/-!
# Lists of buckets

A list of lists, read as numbered buckets. Replacing one bucket changes the concatenation of all of
them by that bucket alone, up to order (`flatten_set_perm`); adding an element to a bucket and
removing one from it are the two cases that a store needs. Distributing a list over the buckets by
a function of the element gives buckets that are filters of it, and where the elements name their
buckets, the buckets are filters of the concatenation.
-/

namespace Buckets

variable {α : Type}

/-- `x` is in bucket `i`. -/
def Holds (bs : List (List α)) (i : ℕ) (x : α) : Prop := ∃ b, bs[i]? = some b ∧ x ∈ b

/-- An element is in some bucket exactly when it is in their concatenation. -/
theorem mem_flatten_iff {bs : List (List α)} {x : α} : x ∈ bs.flatten ↔ ∃ i, Holds bs i x := by
  rw [List.mem_flatten]
  constructor
  · rintro ⟨b, hb, hx⟩
    obtain ⟨i, hi⟩ := List.mem_iff_getElem?.1 hb
    exact ⟨i, b, hi, hx⟩
  · rintro ⟨i, b, hi, hx⟩
    exact ⟨b, List.mem_of_getElem? hi, hx⟩

/-- Empty buckets hold nothing. -/
theorem not_holds_of_empty {bs : List (List α)} (h : ∀ b ∈ bs, b = []) (i : ℕ) (x : α) :
    ¬ Holds bs i x := by
  rintro ⟨b, hb, hx⟩
  rw [h b (List.mem_of_getElem? hb)] at hx
  exact List.not_mem_nil hx

/-- After bucket `i` is replaced, it holds the new elements and the others hold what they held. -/
theorem holds_set_iff {bs : List (List α)} {i : ℕ} (hi : i < bs.length) (b : List α) (j : ℕ)
    (x : α) : Holds (bs.set i b) j x ↔ (j = i ∧ x ∈ b) ∨ (j ≠ i ∧ Holds bs j x) := by
  unfold Holds
  by_cases hj : j = i
  · subst hj
    simp [List.getElem?_set_self hi]
  · rw [List.getElem?_set_ne (Ne.symm hj)]
    simp [hj]

/-- Replacing a bucket changes the concatenation by that bucket. -/
theorem flatten_set_perm {bs : List (List α)} {i : ℕ} {old : List α} (hi : bs[i]? = some old)
    (b : List α) : ((bs.set i b).flatten ++ old).Perm (bs.flatten ++ b) := by
  induction bs generalizing i with
  | nil => simp at hi
  | cons c bs ih =>
    cases i with
    | zero =>
      obtain rfl : c = old := by simpa using hi
      simp only [List.set_cons_zero, List.flatten_cons]
      calc (b ++ bs.flatten ++ c).Perm (c ++ (b ++ bs.flatten)) := List.perm_append_comm
        _ |>.Perm (c ++ (bs.flatten ++ b)) := List.perm_append_comm.append_left c
        _ |>.Perm (c ++ bs.flatten ++ b) := by rw [List.append_assoc]
    | succ i =>
      have hi' : bs[i]? = some old := by simpa using hi
      simp only [List.set_cons_succ, List.flatten_cons, List.append_assoc]
      exact (ih hi').append_left c

/-- Adding an element to a bucket adds it to the concatenation. -/
theorem flatten_push_perm {bs : List (List α)} {i : ℕ} {old : List α} (hi : bs[i]? = some old)
    (x : α) : ((bs.set i (old ++ [x])).flatten).Perm (x :: bs.flatten) := by
  have h := flatten_set_perm hi (old ++ [x])
  have h' : (old ++ (bs.set i (old ++ [x])).flatten).Perm (old ++ (x :: bs.flatten)) := by
    calc (old ++ (bs.set i (old ++ [x])).flatten).Perm ((bs.set i (old ++ [x])).flatten ++ old) :=
          List.perm_append_comm
      _ |>.Perm (bs.flatten ++ (old ++ [x])) := h
      _ |>.Perm (old ++ [x] ++ bs.flatten) := List.perm_append_comm
      _ |>.Perm (old ++ (x :: bs.flatten)) := by simp
  exact (List.perm_append_left_iff old).1 h'

/-- Removing an element from a bucket removes it from the concatenation. -/
theorem flatten_remove_perm {bs : List (List α)} {i : ℕ} {old b : List α} {x : α}
    (hi : bs[i]? = some old) (hx : old.Perm (x :: b)) :
    bs.flatten.Perm (x :: (bs.set i b).flatten) := by
  have h := flatten_set_perm hi b
  have h' : (b ++ (x :: (bs.set i b).flatten)).Perm (b ++ bs.flatten) := by
    calc (b ++ (x :: (bs.set i b).flatten)).Perm (x :: (b ++ (bs.set i b).flatten)) :=
          List.perm_middle
      _ |>.Perm (x :: ((bs.set i b).flatten ++ b)) := List.perm_append_comm.cons x
      _ |>.Perm ((bs.set i b).flatten ++ (x :: b)) := List.perm_middle.symm
      _ |>.Perm ((bs.set i b).flatten ++ old) := hx.symm.append_left _
      _ |>.Perm (bs.flatten ++ b) := h
      _ |>.Perm (b ++ bs.flatten) := List.perm_append_comm
  exact ((List.perm_append_left_iff b).1 h').symm

/-- An element that occurs once in the concatenation is in one bucket only. -/
theorem Holds.unique {β : Type} {bs : List (List α)} {key : α → β}
    (hd : (bs.flatten.map key).Nodup) {i j : ℕ} {x y : α} (hx : Holds bs i x) (hy : Holds bs j y)
    (hxy : key x = key y) : i = j := by
  induction bs generalizing i j with
  | nil =>
    obtain ⟨b, hb, -⟩ := hx
    simp at hb
  | cons c bs ih =>
    rw [List.flatten_cons, List.map_append, List.nodup_append] at hd
    obtain ⟨-, hd', hdisj⟩ := hd
    -- An element of the first bucket shares its key with none of the others.
    have hapart : ∀ x y, x ∈ c → ∀ j, Holds bs j y → key x ≠ key y := fun x y hx j hy =>
      hdisj _ (List.mem_map_of_mem hx) _ (List.mem_map_of_mem (mem_flatten_iff.2 ⟨j, hy⟩))
    rcases i with _ | i <;> rcases j with _ | j
    · rfl
    · obtain ⟨b, hb, hxb⟩ := hx
      obtain rfl : c = b := by simpa using hb
      exact absurd hxy (hapart x y hxb j (by simpa [Holds] using hy))
    · obtain ⟨b, hb, hyb⟩ := hy
      obtain rfl : c = b := by simpa using hb
      exact absurd hxy.symm (hapart y x hyb i (by simpa [Holds] using hx))
    · have h : i = j := ih hd' (by simpa [Holds] using hx) (by simpa [Holds] using hy)
      rw [h]

/-- The concatenation of distinct buckets repeats no key that the concatenation of all of them
does not. -/
theorem nodup_flatMap_buckets {β : Type} {bs : List (List α)} {key : α → β}
    (hd : (bs.flatten.map key).Nodup) {js : List ℕ} (hjs : js.Nodup) :
    ((js.flatMap fun i => bs[i]?.getD []).map key).Nodup := by
  have hholds : ∀ (i : ℕ) (x : α), x ∈ bs[i]?.getD [] → Holds bs i x := by
    intro i x hx
    cases hi : bs[i]? with
    | none =>
      rw [hi] at hx
      exact absurd hx List.not_mem_nil
    | some b =>
      rw [hi] at hx
      exact ⟨b, hi, hx⟩
  have hbucket : ∀ i : ℕ, ((bs[i]?.getD []).map key).Nodup := by
    intro i
    cases hi : bs[i]? with
    | none => exact List.nodup_nil
    | some b =>
      exact hd.sublist ((List.sublist_flatten_of_mem (List.mem_of_getElem? hi)).map key)
  induction js with
  | nil => exact List.nodup_nil
  | cons i js ih =>
    obtain ⟨hi, hjs⟩ := List.nodup_cons.1 hjs
    rw [List.flatMap_cons, List.map_append, List.nodup_append]
    refine ⟨hbucket i, ih hjs, ?_⟩
    rintro a ha b hb rfl
    obtain ⟨x, hx, rfl⟩ := List.mem_map.1 ha
    obtain ⟨y, hy, hxy⟩ := List.mem_map.1 hb
    obtain ⟨j, hj, hy⟩ := List.mem_flatMap.1 hy
    have hij : i = j := Holds.unique hd (hholds i x hx) (hholds j y hy) hxy.symm
    rw [hij] at hi
    exact hi hj

/-- Adds `x` to bucket `f x`. -/
def place (f : α → ℕ) (bs : List (List α)) (x : α) : List (List α) :=
  bs.modify (f x) fun b => b ++ [x]

/-- Distributing a list over the buckets appends to each one the elements that belong to it. -/
theorem foldl_place (f : α → ℕ) (xs : List α) (bs : List (List α)) :
    xs.foldl (place f) bs = bs.mapIdx fun i b => b ++ xs.filter fun x => f x = i := by
  induction xs generalizing bs with
  | nil =>
    apply List.ext_getElem?
    intro i
    rw [List.getElem?_mapIdx]
    simp
  | cons x xs ih =>
    rw [List.foldl_cons, ih]
    apply List.ext_getElem?
    intro i
    rw [List.getElem?_mapIdx, List.getElem?_mapIdx, place, List.getElem?_modify]
    cases bs[i]? with
    | none => simp
    | some b =>
      by_cases hi : f x = i
      · simp [hi]
      · simp [hi]

/-! ## Sizes -/

/-- When every element says which bucket it is in, a bucket is the elements that name it. -/
theorem filter_flatten_eq {bs : List (List α)} (f : α → ℕ) (start : ℕ)
    (h : ∀ i x, Holds bs i x → f x = start + i) (i : ℕ) :
    (bs.flatten.filter fun x => f x = start + i) = bs[i]?.getD [] := by
  induction bs generalizing start i with
  | nil => rfl
  | cons b bs ih =>
    have hb : ∀ x ∈ b, f x = start := fun x hx => h 0 x ⟨b, rfl, hx⟩
    have hbs : ∀ i x, Holds bs i x → f x = start + 1 + i := by
      rintro i x ⟨c, hc, hx⟩
      rw [h (i + 1) x ⟨c, hc, hx⟩]
      omega
    rw [List.flatten_cons, List.filter_append]
    cases i with
    | zero =>
      have hrest : (bs.flatten.filter fun x => f x = start + 0) = [] := by
        rw [List.filter_eq_nil_iff]
        intro x hx
        obtain ⟨i, hi⟩ := mem_flatten_iff.1 hx
        rw [hbs i x hi, decide_eq_true_eq]
        omega
      rw [hrest, List.append_nil, List.filter_eq_self.2 fun x hx => by simp [hb x hx]]
      rfl
    | succ i =>
      have hfirst : (b.filter fun x => f x = start + (i + 1)) = [] := by
        rw [List.filter_eq_nil_iff]
        intro x hx
        rw [hb x hx, decide_eq_true_eq]
        omega
      have hshift : start + (i + 1) = start + 1 + i := by omega
      rw [hfirst, List.nil_append, hshift, ih (start + 1) hbs i]
      rfl

/-- When every element says which bucket it is in, the sizes of the buckets count them. -/
theorem map_length_eq (bs : List (List α)) (f : α → ℕ) (h : ∀ i x, Holds bs i x → f x = i) :
    bs.map List.length =
      (List.range bs.length).map fun i => bs.flatten.countP fun x => f x = i := by
  apply List.ext_getElem
  · rw [List.length_map, List.length_map, List.length_range]
  · intro i hi _
    rw [List.length_map] at hi
    have hfilter := filter_flatten_eq f 0 (fun i x hx => (h i x hx).trans (Nat.zero_add i).symm) i
    rw [Nat.zero_add, List.getElem?_eq_getElem hi] at hfilter
    rw [List.getElem_map, List.getElem_map, List.getElem_range, List.countP_eq_length_filter,
      hfilter]
    rfl

/-- When every element says how large its bucket is, together they say the squares of the sizes. -/
theorem sum_map_length {bs : List (List α)} {f : α → ℕ} (h : ∀ b ∈ bs, ∀ x ∈ b, f x = b.length) :
    (bs.flatten.map f).sum = (bs.map fun b => b.length * b.length).sum := by
  induction bs with
  | nil => rfl
  | cons b bs ih =>
    have hb : b.map f = List.replicate b.length b.length := by
      rw [← List.map_const']
      exact List.map_congr_left fun x hx => h b List.mem_cons_self x hx
    rw [List.flatten_cons, List.map_append, List.sum_append, hb, List.sum_replicate_nat,
      ih fun b' hb' => h b' (List.mem_cons_of_mem _ hb'), List.map_cons, List.sum_cons]

end Buckets
