import Mathlib.Data.List.Nodup

/-!
# Journals

A journal records what was put into a list under a key and which keys were removed from it. The list
that a journal leads to holds what was put and not removed afterwards, in the order in which it was
put (`replay_eq`). In an admissible journal a key is put only while it is free and removed only
while it is taken, so puts and removals of one key take turns.
-/

namespace Journal

variable {α κ : Type} [DecidableEq κ] {key : α → κ} {xs : List α} {es es' : List (α ⊕ κ)}

/-- One record: an element is put at the end, or a key is removed. -/
def step (key : α → κ) (xs : List α) : α ⊕ κ → List α
  | .inl a => xs ++ [a]
  | .inr k => xs.filter fun a => key a ≠ k

/-- The list that a journal leads to. -/
def replay (key : α → κ) (xs : List α) (es : List (α ⊕ κ)) : List α := es.foldl (step key) xs

/-- The key is removed in the journal. -/
def Removes (es : List (α ⊕ κ)) (k : κ) : Prop := Sum.inr k ∈ es

/-- Removals can be looked up. -/
instance (es : List (α ⊕ κ)) (k : κ) : Decidable (Removes es k) :=
  decidable_of_iff (∃ e ∈ es, e.getRight? = some k) <| by
    unfold Removes
    constructor
    · rintro ⟨e, he, hk⟩
      cases e with
      | inl a => cases hk
      | inr k' =>
        obtain rfl : k' = k := Option.some.inj hk
        exact he
    · intro h
      exact ⟨_, h, rfl⟩

/-- What is put and not removed afterwards. -/
def survivors (key : α → κ) : List (α ⊕ κ) → List α
  | [] => []
  | .inl a :: es => if Removes es (key a) then survivors key es else a :: survivors key es
  | .inr _ :: es => survivors key es

/-- What survives of a put and a journal. -/
theorem survivors_put (a : α) : survivors key (.inl a :: es) =
    if Removes es (key a) then survivors key es else a :: survivors key es := rfl

/-- The number of elements that are put. -/
def puts (es : List (α ⊕ κ)) : ℕ := es.countP Sum.isLeft

/-- The number of removals. -/
def removals (es : List (α ⊕ κ)) : ℕ := es.countP Sum.isRight

/-- A record is admissible for a list when it puts a free key or removes a taken one. -/
def Fits (key : α → κ) (xs : List α) : α ⊕ κ → Prop
  | .inl a => key a ∉ xs.map key
  | .inr k => k ∈ xs.map key

/-- A journal whose records are admissible for the lists that they meet. -/
def Admissible (key : α → κ) : List α → List (α ⊕ κ) → Prop
  | _, [] => True
  | xs, e :: es => Fits key xs e ∧ Admissible key (step key xs e) es

/-- The first record and the others. -/
theorem admissible_cons {e : α ⊕ κ} : Admissible key xs (e :: es) ↔
    Fits key xs e ∧ Admissible key (step key xs e) es := Iff.rfl

/-- The list that a journal leads to: what is left of the list that it started from, followed by
what was put and not removed afterwards. -/
theorem replay_eq (xs : List α) (es : List (α ⊕ κ)) :
    replay key xs es = (xs.filter fun a => ¬ Removes es (key a)) ++ survivors key es := by
  induction es generalizing xs with
  | nil =>
    have hall : (xs.filter fun a => ¬ Removes ([] : List (α ⊕ κ)) (key a)) = xs := by
      rw [List.filter_eq_self]
      intro a _
      simp [Removes]
    rw [hall]
    exact (List.append_nil xs).symm
  | cons e es ih =>
    show replay key (step key xs e) es = _
    rw [ih]
    cases e with
    | inl a =>
      have hrest : ∀ x, Removes (Sum.inl a :: es) (key x) ↔ Removes es (key x) := by
        intro x
        simp [Removes]
      simp only [hrest, step, List.filter_append, List.append_assoc]
      congr 1
      rw [survivors_put]
      by_cases ha : Removes es (key a)
      · simp [ha]
      · simp [ha]
    | inr k =>
      have hrest : ∀ x, Removes (Sum.inr k :: es) (key x) ↔ key x = k ∨ Removes es (key x) := by
        intro x
        simp [Removes]
      simp only [hrest, step, List.filter_filter, survivors]
      congr 1
      apply List.filter_congr
      intro x _
      by_cases hx : key x = k
      · simp [hx]
      · simp [hx]

/-- What survives was put. -/
theorem mem_of_mem_survivors {a : α} (h : a ∈ survivors key es) : Sum.inl a ∈ es := by
  induction es with
  | nil => cases h
  | cons e es ih =>
    cases e with
    | inl b =>
      unfold survivors at h
      split_ifs at h with hb
      · exact List.mem_cons_of_mem _ (ih h)
      · rcases List.mem_cons.1 h with rfl | h
        · exact List.mem_cons_self
        · exact List.mem_cons_of_mem _ (ih h)
    | inr k => exact List.mem_cons_of_mem _ (ih h)

/-! ## Admissible journals -/

/-- An admissible journal in two parts. -/
theorem admissible_append : Admissible key xs (es ++ es') ↔
    Admissible key xs es ∧ Admissible key (replay key xs es) es' := by
  induction es generalizing xs with
  | nil => simp [Admissible, replay]
  | cons e es ih =>
    rw [List.cons_append, admissible_cons, admissible_cons, ih, and_assoc]
    rfl

/-- Between two puts of a key it is removed. -/
theorem Admissible.removed_between {a b : α} {before between after : List (α ⊕ κ)}
    (h : Admissible key xs (before ++ .inl a :: (between ++ .inl b :: after)))
    (hkey : key a = key b) : Removes between (key a) := by
  obtain ⟨-, -, htail⟩ := admissible_append.1 h
  obtain ⟨-, hfree, -⟩ := admissible_append.1 htail
  by_contra hkept
  -- The first element is still there when the second one is put.
  apply hfree
  rw [← hkey]
  apply List.mem_map_of_mem
  rw [replay_eq, List.mem_append, List.mem_filter]
  left
  refine ⟨?_, decide_eq_true hkept⟩
  exact List.mem_append_right _ List.mem_cons_self

/-- Between two removals of a key it is put. -/
theorem Admissible.put_between {k : κ} {before between after : List (α ⊕ κ)}
    (h : Admissible key xs (before ++ .inr k :: (between ++ .inr k :: after))) :
    ∃ a, Sum.inl a ∈ between ∧ key a = k := by
  obtain ⟨-, -, htail⟩ := admissible_append.1 h
  obtain ⟨-, htaken, -⟩ := admissible_append.1 htail
  obtain ⟨a, ha, hkey⟩ := List.mem_map.1 htaken
  rw [replay_eq, List.mem_append, List.mem_filter] at ha
  rcases ha with ⟨hold, -⟩ | hput
  · -- Nothing under the key was left after the first removal.
    have hne := (List.mem_filter.1 hold).2
    rw [decide_eq_true_eq] at hne
    exact absurd hkey hne
  · exact ⟨a, mem_of_mem_survivors hput, hkey⟩

/-- Removing a taken key removes one element. -/
theorem length_filter_of_mem {k : κ} (hd : (xs.map key).Nodup) (hk : k ∈ xs.map key) :
    (xs.filter fun a => key a ≠ k).length + 1 = xs.length := by
  induction xs with
  | nil => cases hk
  | cons x xs ih =>
    rw [List.map_cons, List.nodup_cons] at hd
    by_cases hx : key x = k
    · have hall : (xs.filter fun a => key a ≠ k) = xs := by
        rw [List.filter_eq_self]
        intro a ha
        rw [decide_eq_true_eq]
        rintro rfl
        exact hd.1 (hx ▸ List.mem_map_of_mem ha)
      rw [List.filter_cons_of_neg (by simp [hx]), hall, List.length_cons]
    · have hk' : k ∈ xs.map key := by
        rcases List.mem_cons.1 hk with rfl | hk'
        · exact absurd rfl hx
        · exact hk'
      rw [List.filter_cons_of_pos (by simp [hx]), List.length_cons, ih hd.2 hk', List.length_cons]

/-- The keys of a list stay distinct along an admissible record. -/
theorem Fits.nodup {e : α ⊕ κ} (h : Fits key xs e) (hd : (xs.map key).Nodup) :
    ((step key xs e).map key).Nodup := by
  cases e with
  | inl a =>
    show ((xs ++ [a]).map key).Nodup
    rw [List.map_append, List.nodup_append]
    refine ⟨hd, List.nodup_singleton _, ?_⟩
    intro k hk k' hk' heq
    obtain rfl : k' = key a := List.mem_singleton.1 hk'
    exact h (heq ▸ hk)
  | inr k => exact hd.sublist (List.filter_sublist.map key)

/-- Every element is accounted for: the removals and what is left are what there was and what was
put. -/
theorem Admissible.length_replay (h : Admissible key xs es) (hd : (xs.map key).Nodup) :
    (replay key xs es).length + removals es = xs.length + puts es := by
  induction es generalizing xs with
  | nil => rfl
  | cons e es ih =>
    obtain ⟨hfits, hrest⟩ := h
    have hlen := ih hrest (hfits.nodup hd)
    have hreplay : replay key xs (e :: es) = replay key (step key xs e) es := rfl
    rw [hreplay]
    unfold removals puts at hlen ⊢
    rw [List.countP_cons, List.countP_cons]
    cases e with
    | inl a =>
      have hstep : (step key xs (.inl a)).length = xs.length + 1 := List.length_append
      simp only [Sum.isLeft_inl, Sum.isRight_inl, if_true, Bool.false_eq_true, if_false]
      omega
    | inr k =>
      have hstep : (step key xs (.inr k)).length + 1 = xs.length := length_filter_of_mem hd hfits
      simp only [Sum.isLeft_inr, Sum.isRight_inr, if_true, Bool.false_eq_true, if_false]
      omega

end Journal
