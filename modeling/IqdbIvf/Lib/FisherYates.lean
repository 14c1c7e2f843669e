import Mathlib.Data.List.Nodup
import Mathlib.Data.List.Perm.Basic

/-!
# The partial Fisher–Yates shuffle

A draw takes one element out of a list and fills its place with the first element. A shuffle takes
as many elements as there are draws, and the draw for each of them is below the number of elements
that are left (`Valid`). On a list without duplicates the draws and what they pick determine each
other: every list of distinct elements is picked by exactly one list of valid draws
(`shuffle_inj`, `exists_shuffle`).
-/

namespace FisherYates

variable {α : Type}

/-- Takes out the element at position `d`; the first element fills its place. -/
def draw : List α → ℕ → Option (α × List α)
  | [], _ => none
  | x :: xs, 0 => some (x, xs)
  | x :: xs, d + 1 => xs[d]?.map fun y => (y, xs.set d x)

/-- The elements that are picked by a list of draws, and the elements that are left. -/
def shuffle : List α → List ℕ → Option (List α × List α)
  | xs, [] => some ([], xs)
  | xs, d :: ds => do
    let (y, rest) ← draw xs d
    let (ys, rest) ← shuffle rest ds
    return (y :: ys, rest)

/-- The draws of a shuffle of `n` elements: each is below the number of elements that are left. -/
def Valid (n : ℕ) (draws : List ℕ) : Prop := ∀ i d : ℕ, draws[i]? = some d → d < n - i

variable {xs ys rest rest' : List α} {x y : α} {d d' : ℕ} {ds ds' : List ℕ}

/-! ## One draw -/

/-- A draw picks the element at its position. -/
theorem draw_eq_some (h : draw xs d = some (y, rest)) : xs[d]? = some y := by
  cases xs with
  | nil => cases h
  | cons x xs =>
    cases d with
    | zero =>
      obtain ⟨rfl, -⟩ := Prod.mk.inj (Option.some.inj h)
      rfl
    | succ d =>
      obtain ⟨z, hz, heq⟩ := Option.map_eq_some_iff.1 h
      obtain ⟨rfl, -⟩ := Prod.mk.inj heq
      exact hz

/-- A draw within the bounds picks an element. -/
theorem exists_draw (h : d < xs.length) : ∃ rest, draw xs d = some (xs[d], rest) := by
  cases xs with
  | nil => exact absurd h (Nat.not_lt_zero d)
  | cons x xs =>
    cases d with
    | zero => exact ⟨xs, rfl⟩
    | succ d =>
      have hd : d < xs.length := Nat.lt_of_succ_lt_succ h
      refine ⟨xs.set d x, ?_⟩
      rw [draw, List.getElem?_eq_getElem hd]
      rfl

/-- The element that is picked and the others make up the list. -/
theorem draw_perm (h : draw xs d = some (y, rest)) : (y :: rest).Perm xs := by
  cases xs with
  | nil => cases h
  | cons x xs =>
    cases d with
    | zero =>
      obtain ⟨rfl, rfl⟩ := Prod.mk.inj (Option.some.inj h)
      exact .refl _
    | succ d =>
      obtain ⟨z, hz, heq⟩ := Option.map_eq_some_iff.1 h
      obtain ⟨rfl, rfl⟩ := Prod.mk.inj heq
      obtain ⟨hd, rfl⟩ := List.getElem?_eq_some_iff.1 hz
      calc xs[d] :: xs.set d x
        |>.Perm (xs[d] :: x :: xs.eraseIdx d) := (List.set_perm_cons_eraseIdx hd x).cons _
      _ |>.Perm (x :: xs[d] :: xs.eraseIdx d) := .swap _ _ _
      _ |>.Perm (x :: xs) := (List.getElem_cons_eraseIdx_perm hd).cons _

/-- In a list without duplicates an element is picked by one draw. -/
theorem draw_inj (hxs : xs.Nodup) (h : draw xs d = some (y, rest))
    (h' : draw xs d' = some (y, rest')) : d = d' := by
  have hd := draw_eq_some h
  obtain ⟨hlt, -⟩ := List.getElem?_eq_some_iff.1 hd
  exact (List.getElem?_inj hlt hxs).1 (hd.trans (draw_eq_some h').symm)

/-! ## Valid draws -/

/-- No draws are valid. -/
theorem valid_nil (n : ℕ) : Valid n [] := by
  intro i d h
  cases h

/-- The first draw is valid, and the others are when one element less is left. -/
theorem valid_cons {n : ℕ} : Valid n (d :: ds) ↔ d < n ∧ Valid (n - 1) ds := by
  constructor
  · intro h
    refine ⟨h 0 d rfl, fun i e he => ?_⟩
    have := h (i + 1) e he
    omega
  · rintro ⟨hd, hds⟩ i e he
    cases i with
    | zero =>
      obtain rfl := Option.some.inj he
      exact hd
    | succ i =>
      have := hds i e he
      omega

/-! ## The shuffle -/

/-- A shuffle with one more draw. -/
theorem shuffle_cons {zs : List α} :
    shuffle xs (d :: ds) = some (zs, rest) ↔ ∃ y xs' ys, zs = y :: ys ∧
      draw xs d = some (y, xs') ∧ shuffle xs' ds = some (ys, rest) := by
  rw [shuffle]
  constructor
  · intro h
    obtain ⟨⟨y, xs'⟩, hdraw, h⟩ := Option.bind_eq_some_iff.1 h
    obtain ⟨⟨ys, rest''⟩, hshuffle, h⟩ := Option.bind_eq_some_iff.1 h
    obtain ⟨rfl, rfl⟩ := Prod.mk.inj (Option.some.inj h)
    exact ⟨y, xs', ys, rfl, hdraw, hshuffle⟩
  · rintro ⟨y, xs', ys, rfl, hdraw, hshuffle⟩
    rw [hdraw]
    show (shuffle xs' ds).bind _ = _
    rw [hshuffle]
    rfl

/-- Valid draws pick as many elements, which make up the list with those that are left. -/
theorem shuffle_spec (h : Valid xs.length ds) :
    ∃ ys rest, shuffle xs ds = some (ys, rest) ∧ ys.length = ds.length ∧ (ys ++ rest).Perm xs := by
  induction ds generalizing xs with
  | nil => exact ⟨[], xs, rfl, rfl, .refl _⟩
  | cons d ds ih =>
    obtain ⟨hd, hds⟩ := valid_cons.1 h
    obtain ⟨xs', hdraw⟩ := exists_draw hd
    have hperm := draw_perm hdraw
    have hlen := hperm.length_eq
    rw [List.length_cons] at hlen
    have hvalid : Valid xs'.length ds := by rwa [← hlen] at hds
    obtain ⟨ys, rest, hshuffle, hys, hrest⟩ := ih hvalid
    refine ⟨xs[d] :: ys, rest, shuffle_cons.2 ⟨_, _, _, rfl, hdraw, hshuffle⟩, ?_, ?_⟩
    · rw [List.length_cons, List.length_cons, hys]
    · exact (hrest.cons _).trans hperm

/-- In a list without duplicates what was picked determines the draws. -/
theorem shuffle_inj (hxs : xs.Nodup) (h : shuffle xs ds = some (ys, rest))
    (h' : shuffle xs ds' = some (ys, rest')) : ds = ds' := by
  induction ds generalizing xs ys ds' with
  | nil =>
    obtain ⟨rfl, -⟩ := Prod.mk.inj (Option.some.inj h)
    cases ds' with
    | nil => rfl
    | cons d' ds' =>
      obtain ⟨_, _, _, hcons, -⟩ := shuffle_cons.1 h'
      cases hcons
  | cons d ds ih =>
    obtain ⟨y, xs', ys, rfl, hdraw, hshuffle⟩ := shuffle_cons.1 h
    cases ds' with
    | nil => cases h'
    | cons d' ds' =>
      obtain ⟨z, xs'', zs, hcons, hdraw', hshuffle'⟩ := shuffle_cons.1 h'
      obtain ⟨rfl, rfl⟩ := List.cons.inj hcons
      -- The same element was drawn, so the same elements are left.
      obtain rfl := draw_inj hxs hdraw hdraw'
      obtain ⟨-, rfl⟩ := Prod.mk.inj (Option.some.inj (hdraw.symm.trans hdraw'))
      have hnodup := (draw_perm hdraw).nodup_iff.2 hxs
      rw [ih hnodup.of_cons hshuffle hshuffle']

/-- Every list of distinct elements is picked by valid draws. -/
theorem exists_shuffle (hxs : xs.Nodup) (hys : ys.Nodup) (hsub : ys ⊆ xs) :
    ∃ ds rest, Valid xs.length ds ∧ shuffle xs ds = some (ys, rest) := by
  induction ys generalizing xs with
  | nil => exact ⟨[], xs, valid_nil _, rfl⟩
  | cons y ys ih =>
    obtain ⟨d, hd, rfl⟩ := List.getElem_of_mem (hsub List.mem_cons_self)
    obtain ⟨xs', hdraw⟩ := exists_draw hd
    have hperm := draw_perm hdraw
    have hlen := hperm.length_eq
    rw [List.length_cons] at hlen
    obtain ⟨hy, hys'⟩ := List.nodup_cons.1 hys
    -- The other elements are still there, because they differ from the first.
    have hsub' : ys ⊆ xs' := by
      intro z hz
      rcases List.mem_cons.1 (hperm.mem_iff.2 (hsub (List.mem_cons_of_mem _ hz))) with rfl | hmem
      · exact absurd hz hy
      · exact hmem
    obtain ⟨ds, rest, hvalid, hshuffle⟩ := ih (hperm.nodup_iff.2 hxs).of_cons hys' hsub'
    refine ⟨d :: ds, rest, valid_cons.2 ⟨hd, ?_⟩, shuffle_cons.2 ⟨_, _, _, rfl, hdraw, hshuffle⟩⟩
    rwa [← hlen]

end FisherYates
