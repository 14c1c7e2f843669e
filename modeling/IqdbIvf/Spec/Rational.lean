import Mathlib.Data.Rat.Lemmas
import Mathlib.Data.Rat.Sqrt
import Mathlib.Order.Compare
import Mathlib.Algebra.Order.Field.Rat
import IqdbIvf.Spec.Effects

/-!
# The model over exact arithmetic

Rational numbers in place of floating-point ones, and a small implementation of the other crates
over them: distances by their formulas, filters that compare the metadata, and a product quantizer
with one subvector whose codebook is the head of its training sample. On inputs with exactly
representable results the real crates compute the same values. The implementation satisfies the
assumptions that results about the index make of these crates.
-/

set_option linter.unusedSectionVars false

namespace IqdbIvf

open Outcome

/-- Exact arithmetic in double precision. -/
instance : Double ℚ where
  le a b := decide (a ≤ b)
  ofInteger n := n

/-- Exact arithmetic. -/
instance : Arith ℚ where
  F64 := ℚ
  lt a b := decide (a < b)
  sqrt := Rat.sqrt
  max := max
  totalCmp := compare
  totalCmp_trans := inferInstance
  tenThousandth := 1 / 10000
  widen := id
  narrow := id

namespace Rational

/-- The Manhattan distance. -/
def manhattan (a b : List ℚ) : ℚ := ((a.zip b).map fun p => |p.1 - p.2|).sum

/-- The distances by their formulas; the cosine is not rational. -/
def distance (metric : DistanceMetric) (a b : List ℚ) : Option ℚ :=
  match metric with
  | .manhattan => some (manhattan a b)
  | .dotProduct => some ((a.zip b).map fun p => p.1 * p.2).sum
  | .euclidean => some (Rat.sqrt ((a.zip b).map fun p => (p.1 - p.2) * (p.1 - p.2)).sum)
  | .hamming => some (((a.zip b).filter fun p => p.1 ≠ p.2).length : ℚ)
  | .cosine => none

/-- The index of the codeword that is nearest to a vector. -/
def nearestCode (codebook : List (List ℚ)) (vector : List ℚ) : ℕ :=
  nearest codebook vector

/-- The other crates, over rational numbers. -/
abbrev crates : Crates ℚ where
  VectorId := ℕ
  Metadata := ℕ
  Filter := ℕ
  FilterEvaluator := ℕ
  newEvaluator := .ok
  evaluate eval metadata := metadata == some eval
  computeBatch metric query refs out :=
    match refs.mapM (distance metric query) with
    | some dists =>
      if h : dists.length = out.length then .ok ⟨dists, h⟩
      else .error (.dimensionMismatch out.length dists.length)
    | none => .error .invalidMetric
  ProductQuantizer := List (List ℚ)
  PqCode := ℕ
  PqAdcTables := List ℚ
  withConfig _ _ _ := []
  trainQuantizer _ sample :=
    if sample.length < 256 then
      .error (.invalidConfig "ProductQuantizer::train requires at least 256 vectors")
    else .ok (sample.take 256)
  quantize codebook vector :=
    match codebook with
    | [] => .error (.invalidConfig "ProductQuantizer must be trained before quantize")
    | word :: words =>
      if vector.length = word.length then .ok (nearestCode (word :: words) vector)
      else .error (.dimensionMismatch word.length vector.length)
  buildQueryTables codebook query metric :=
    match codebook.mapM (distance metric query) with
    | some dists => .ok dists
    | none => .error .invalidMetric
  adcDistance tables code :=
    match tables[code]? with
    | some d => .ok d
    | none => .error (.invalidConfig "PqCode does not match the query tables")

/-- Mapping a partial function over a list: it is defined on every element, or not on one of them.
-/
theorem mapM_cases {α β : Type} (f : α → Option β) (xs : List α) :
    (∃ ys, xs.mapM f = some ys ∧ List.Forall₂ (fun x y => f x = some y) xs ys) ∨
      (xs.mapM f = none ∧ ∃ x ∈ xs, f x = none) := by
  induction xs with
  | nil => exact .inl ⟨[], rfl, .nil⟩
  | cons x xs ih =>
    rw [List.mapM_cons]
    cases hx : f x with
    | none => exact .inr ⟨rfl, x, List.mem_cons_self, hx⟩
    | some y =>
      rcases ih with ⟨ys, hys, hall⟩ | ⟨hnone, x', hx', hnone'⟩
      · refine .inl ⟨y :: ys, ?_, .cons hx hall⟩
        rw [hys]
        rfl
      · refine .inr ⟨?_, x', List.mem_cons_of_mem x hx', hnone'⟩
        rw [hnone]
        rfl

/-- A batch function that applies a formula to each vector scores each of them on its own. -/
theorem scoresEach_of_batch {X : Crates ℚ} {metric : DistanceMetric}
    {score : List ℚ → List ℚ → Option ℚ} (dim : ℕ)
    (hbatch : ∀ query refs out, X.computeBatch metric query refs out =
      match refs.mapM (score query) with
      | some dists =>
        if h : dists.length = out.length then .ok ⟨dists, h⟩
        else .error (.dimensionMismatch out.length dists.length)
      | none => .error .invalidMetric) : ScoresEach X metric dim score := by
  intro query refs out _ _ _ hlen
  rw [hbatch]
  rcases mapM_cases (score query) refs with ⟨dists, hdists, hall⟩ | ⟨hnone, hex⟩
  · have hout : dists.length = out.length := hall.length_eq.symm.trans hlen.symm
    simp only [hdists, hout, dif_pos, meets_ok]
    exact hall
  · simp only [hnone, meets_error]
    exact hex

/-- Each vector of a batch is scored on its own, by the formula. -/
theorem scoresEach (metric : DistanceMetric) (dim : ℕ) :
    ScoresEach crates metric dim (distance metric) :=
  scoresEach_of_batch dim fun _ _ _ => rfl

/-- Each vector of a batch of an index with the Manhattan metric is scored on its own. -/
theorem manhattan_scoresEach {s : IvfIndex crates} (hmetric : s.metric = .manhattan) :
    ScoresEach crates s.metric s.dim fun query v => some (manhattan query v) := by
  rw [hmetric]
  exact scoresEach .manhattan s.dim

/-- The tables of a codebook of one dimension score every code that it gives. -/
theorem adcSucceeds {dim : ℕ} {codebook : List (List ℚ)} (hne : codebook ≠ [])
    (hdims : ∀ word ∈ codebook, word.length = dim) :
    AdcSucceeds crates .manhattan dim codebook := by
  intro query _
  have htables : codebook.mapM (distance .manhattan query) =
      some (codebook.map (manhattan query)) := List.mapM_pure
  refine ⟨codebook.map (manhattan query), ?_, ?_⟩
  · dsimp only [crates]
    rw [htables]
  · intro v code hv hcode
    have hcs : Centroids dim codebook.length codebook := ⟨rfl, hdims⟩
    have hlt : nearestCode codebook v < codebook.length :=
      (hcs.nearest_spec (List.length_pos_iff.2 hne) hv).2
    obtain ⟨word, words, rfl⟩ := List.exists_cons_of_ne_nil hne
    have hword : v.length = word.length := hv.trans (hdims word List.mem_cons_self).symm
    dsimp only [crates] at hcode ⊢
    rw [if_pos hword] at hcode
    obtain rfl := Except.ok.inj hcode
    have hget : ((word :: words).map (manhattan query))[nearestCode (word :: words) v]? =
        some (manhattan query (word :: words)[nearestCode (word :: words) v]) := by
      rw [List.getElem?_map, List.getElem?_eq_getElem hlt]
      rfl
    rw [hget]
    exact ⟨_, rfl⟩

/-- Items over rational numbers can be compared. -/
instance : DecidableEq (Item crates) := fun a b =>
  decidable_of_iff (a.id = b.id ∧ a.vector = b.vector ∧ a.metadata = b.metadata) Item.ext_iff.symm

end Rational

/-! ## States of the exact model -/

section After

variable {F32 : Type} [Arith F32] {X : Crates F32} {s : IvfIndex X}

/-- The state after a sequence of calls. -/
def IvfIndex.after (s : IvfIndex X) (ops : List (Op X)) : IvfIndex X :=
  match calls ops s with
  | .ok r => r.2
  | .error _ => s

/-- The results of a sequence of calls. -/
def IvfIndex.results (s : IvfIndex X) (ops : List (Op X)) : List (Except IqdbError Unit) :=
  match calls ops s with
  | .ok r => r.1
  | .error _ => []

/-- A sequence of calls returns its results and ends in the state after it. -/
theorem Inv.calls_results (h : Inv s) (ops : List (Op X)) :
    calls ops s = .ok (s.results ops, s.after ops) := by
  obtain ⟨rs, t, hcalls, -⟩ := h.calls_ok ops
  unfold IvfIndex.results IvfIndex.after
  rw [hcalls]

/-- A single call leaves the state after it. -/
theorem Inv.call_after (h : Inv s) (op : Op X) : ∃ r, call op s = .ok (r, s.after [op]) := by
  obtain ⟨r, t, hcall, -⟩ := call_transition h op
  have hafter : s.after [op] = t := by
    unfold IvfIndex.after calls
    rw [hcall]
    rfl
  exact ⟨r, by rw [hcall, hafter]⟩

/-- The state after calls of a reachable index is reachable. -/
theorem Reachable.after (h : Reachable s) (ops : List (Op X)) : Reachable (s.after ops) :=
  h.calls (h.inv.calls_results ops)

end After

namespace Rational

/-- Two clusters, all of them probed, in IVF-Flat mode. -/
def flatConfig : IvfConfig where
  n_clusters := 2
  n_probes := 2
  training_sample_size := 2
  use_pq := false
  pq_subvectors := none
  pq_refine_factor := 0
  seed := 7

/-- An empty index of dimension `1` with this configuration. -/
def flatIndex : IvfIndex crates := .fresh crates 1 .manhattan flatConfig

/-- The index is what construction returns. -/
theorem flatIndex_new : IvfIndex.new crates 1 .manhattan flatConfig = .ok flatIndex := by
  have hvalid : flatConfig.Valid := (IvfConfig.validate_eq_ok _).1 rfl
  exact IvfIndex.new_eq_ok.2 ⟨Nat.one_pos, hvalid, rfl, rfl⟩

/-- A training sample of two vectors. -/
def twoVectors : Slice (List ℚ) := ⟨[[0], [10]], by decide⟩

/-- The trained index. -/
def flatTrained : IvfIndex crates := flatIndex.after [.train twoVectors]

/-- Training succeeds. -/
theorem flatTrained_eq : call (.train twoVectors) flatIndex = .ok (.ok (), flatTrained) := by
  obtain ⟨r, hcall⟩ := (Inv.new flatIndex_new).call_after (.train twoVectors)
  have hok : (call (.train twoVectors) flatIndex).toOption.map Prod.fst = some (.ok ()) := by
    decide +kernel
  rw [hcall] at hok
  obtain rfl : r = .ok () := Option.some.inj hok
  exact hcall

/-- The index, trained and with two items. -/
def flatState : IvfIndex crates := flatIndex.after [.train twoVectors, .insert 3 [1] none,
  .insert 4 [9] (some 5), .delete 3, .insert 3 [2] (some 5)]

/-- The IVF-Flat state is reachable. -/
theorem flatState_reachable : Reachable flatState := (Reachable.new flatIndex_new).after _

/-- One cluster in IVF-PQ mode, with the exact rerank of as many entries as are asked for. -/
def pqConfig : IvfConfig where
  n_clusters := 1
  n_probes := 1
  training_sample_size := 1
  use_pq := true
  pq_subvectors := some 1
  pq_refine_factor := 1
  seed := 7

/-- An empty index of dimension `1` with this configuration. -/
def pqIndex : IvfIndex crates := .fresh crates 1 .manhattan pqConfig

/-- The index is what construction returns. -/
theorem pqIndex_new : IvfIndex.new crates 1 .manhattan pqConfig = .ok pqIndex := by
  have hvalid : pqConfig.Valid := (IvfConfig.validate_eq_ok _).1 rfl
  exact IvfIndex.new_eq_ok.2 ⟨Nat.one_pos, hvalid, rfl, rfl⟩

/-- A training sample of as many vectors as the quantizer needs. -/
def zeroVectors : Slice (List ℚ) :=
  ⟨List.replicate 256 [0], by rw [List.length_replicate]; decide⟩

/-- Training and two inserts. -/
def pqCalls : List (Op crates) :=
  [.train zeroVectors, .insert 3 [1] none, .insert 4 [9] (some 5)]

/-- The index, trained and with two items. -/
def pqState : IvfIndex crates := pqIndex.after pqCalls

/-- The IVF-PQ state is reachable. -/
theorem pqState_reachable : Reachable pqState := (Reachable.new pqIndex_new).after _

/-- Its codebook is the training sample. -/
theorem pqState_pq : pqState.pq = some (List.replicate 256 [0]) := by decide +kernel

/-- Its tables score every code. -/
theorem pqState_adcSucceeds : ∀ pq, pqState.pq = some pq → AdcSucceeds crates .manhattan 1 pq := by
  intro pq hpq
  rw [pqState_pq] at hpq
  obtain rfl := Option.some.inj hpq
  apply adcSucceeds
  · exact List.cons_ne_nil _ _
  · intro word hword
    rw [List.eq_of_mem_replicate hword]
    rfl

end Rational

end IqdbIvf
