import IqdbIvf.Spec.Rational

/-!
# Sessions do not panic

A session sends any requests to an index, one after the other: the mutating calls, searches and
probe recommendations, with arguments of any kind. No session panics, and in the state that it
leaves the defensive branches of the source cannot be taken (`session_no_panic`): the invariant
rules them out.
-/

set_option linter.unusedSectionVars false

namespace IqdbIvf

open Outcome Buckets Rational

variable {F32 : Type} [Arith F32] {X : Crates F32} {s t : IvfIndex X}

/-! ## Sessions -/

/-- The requests that an index serves. -/
inductive Request (X : Crates F32) where
  | call (op : Op X)
  | search (query : List F32) (params : SearchParams X)
  | suggestNProbes (coverage : Option ℚ)

/-- The state after a call that does not change it, or its panic. -/
def observe {α : Type} (x : Fallible α) (s : IvfIndex X) : Checked (IvfIndex X) :=
  match x with
  | .ok _ => .ok s
  | .error (.err _) => .ok s
  | .error (.panic p) => .error p

/-- Serves one request. -/
def serve (s : IvfIndex X) : Request X → Checked (IvfIndex X)
  | .call op => (IqdbIvf.call op s).map Prod.snd
  | .search query params => observe (s.search query params) s
  | .suggestNProbes coverage => observe (s.suggestNProbes coverage) s

/-- Serves requests one after the other. -/
def session (requests : List (Request X)) (s : IvfIndex X) : Checked (IvfIndex X) :=
  requests.foldlM serve s

/-- The branches of the source that are there in case an invariant is broken cannot be taken. -/
structure DeadBranches (s : IvfIndex X) : Prop where
  /-- In IVF-PQ mode no entry is missing its code. -/
  pq_code : s.cfg.use_pq = true → ∀ e ∈ s.entries, ∃ code, e.pqCodeOrErr = .ok code
  /-- After training in IVF-PQ mode the quantizer is there. -/
  quantizer : s.trained = true → s.cfg.use_pq = true → ∃ pq, s.pqOrErr = .ok pq
  /-- After training there are centroids. -/
  centroids : s.trained = true → s.centroids.isEmpty = false
  /-- The list that the id map points at has an entry with the id. -/
  not_found : ∀ id c, s.id_to_cluster.lookup id = some c → ∃ list pos,
    index s.inverted_lists c = .ok list ∧ list.findIdx? (fun e => e.id = id) = some pos
  /-- The coverage walk reaches its target. -/
  fall_through : ∀ coverage : ℚ, coverage ≤ 1 →
    IvfIndex.coverageWalk ⌈(s.live_count : ℚ) * coverage⌉.toNat 0
      ((s.inverted_lists.map List.length).insertionSort fun a b => b ≤ a).zipIdx ≠ none

/-! ## The coverage walk -/

/-- A walk reaches a target that the sum of the sizes reaches. -/
theorem coverageWalk_ne_none {target cumsum : ℕ} {sizes : List (ℕ × ℕ)} (hne : sizes ≠ [])
    (htarget : target ≤ cumsum + (sizes.map Prod.fst).sum)
    (hmax : cumsum + (sizes.map Prod.fst).sum ≤ usizeMax) :
    IvfIndex.coverageWalk target cumsum sizes ≠ none := by
  induction sizes generalizing cumsum with
  | nil => exact absurd rfl hne
  | cons p rest ih =>
    rw [List.map_cons, List.sum_cons] at htarget hmax
    have hadd : saturatingAdd cumsum p.1 = cumsum + p.1 := saturatingAdd_of_le (by omega)
    unfold IvfIndex.coverageWalk
    dsimp only
    rw [hadd]
    split_ifs with hreached
    · exact Option.some_ne_none _
    · have hrest : rest ≠ [] := by
        rintro rfl
        simp only [List.map_nil, List.sum_nil] at htarget
        omega
      exact ih hrest (by omega) (by omega)

/-- The sizes of the clusters, the largest first. -/
def IvfIndex.sortedSizes (s : IvfIndex X) : List ℕ :=
  (s.inverted_lists.map List.length).insertionSort fun a b => b ≤ a

/-- The sizes of the clusters add up to the live count. -/
theorem Inv.sum_sortedSizes (h : Inv s) : s.sortedSizes.sum = s.live_count :=
  (List.perm_insertionSort _ _).sum_eq.trans h.sum_sizes

/-- There are as many sizes as clusters. -/
theorem Inv.length_sortedSizes (h : Inv s) : s.sortedSizes.length = s.cfg.n_clusters := by
  unfold IvfIndex.sortedSizes
  rw [List.length_insertionSort, List.length_map, h.lists_length]

/-- The sum of the sizes does not saturate. -/
theorem Inv.sum_sortedSizes_le (h : Inv s) : 0 + s.sortedSizes.sum ≤ usizeMax := by
  have hlive := h.live_count_lt
  rw [h.sum_sortedSizes, usizeMax]
  omega

/-- The walk over the clusters reaches every target up to the live count. -/
theorem Inv.coverageWalk_ne_none (h : Inv s) {target : ℕ} (hle : target ≤ s.live_count) :
    IvfIndex.coverageWalk target 0 s.sortedSizes.zipIdx ≠ none := by
  have hclusters := h.valid.one_le_n_clusters
  apply IqdbIvf.coverageWalk_ne_none
  · intro hnil
    have hlen := congrArg List.length hnil
    rw [List.length_zipIdx, h.length_sortedSizes, List.length_nil] at hlen
    omega
  · rw [List.zipIdx_map_fst, h.sum_sortedSizes]
    omega
  · rw [List.zipIdx_map_fst]
    exact h.sum_sortedSizes_le

/-- A share of at most all vectors is no more than all of them. -/
theorem ceil_share_le (len : ℕ) {c : ℚ} (hle : c ≤ 1) : ⌈(len : ℚ) * c⌉ ≤ (len : ℤ) := by
  rw [Int.ceil_le]
  push_cast
  exact mul_le_of_le_one_right (Nat.cast_nonneg _) hle

/-- Every state with the invariant has dead branches only. -/
theorem Inv.deadBranches (h : Inv s) : DeadBranches s := by
  constructor
  case pq_code =>
    intro huse e he
    obtain ⟨pq, hpq⟩ := h.exists_pq (h.trained_of_mem he) huse
    obtain ⟨code, -, hcode⟩ := h.quantized hpq he
    unfold InvertedListEntry.pqCodeOrErr
    rw [hcode]
    exact ⟨code, rfl⟩
  case quantizer =>
    intro htrained huse
    obtain ⟨pq, hpq⟩ := h.exists_pq htrained huse
    unfold IvfIndex.pqOrErr
    rw [hpq]
    exact ⟨pq, rfl⟩
  case centroids =>
    intro htrained
    have hlen := (h.centroids htrained).length_eq
    have hpos := h.valid.one_le_n_clusters
    rw [← Bool.not_eq_true, List.isEmpty_iff_length_eq_zero]
    omega
  case not_found =>
    intro id c hlookup
    obtain ⟨e, ⟨list, hlist, he⟩, rfl⟩ := (h.lookup_iff id c).1 hlookup
    have hfind : (list.findIdx? fun x => x.id = e.id).isSome = true := by
      rw [List.findIdx?_isSome, List.any_eq_true]
      exact ⟨e, he, by simp⟩
    obtain ⟨pos, hpos⟩ := Option.isSome_iff_exists.1 hfind
    exact ⟨list, pos, index_eq_ok hlist, hpos⟩
  case fall_through =>
    intro coverage hle
    have hceil := ceil_share_le s.live_count hle
    exact h.coverageWalk_ne_none (by omega)

/-! ## No panics -/

/-- A recommendation is made, or the coverage is refused. -/
theorem Inv.suggestNProbes_no_panic (h : Inv s) (coverage : Option ℚ) :
    Meets (s.suggestNProbes coverage) (fun _ => True) Fault.IsErr := by
  unfold IvfIndex.suggestNProbes
  cases coverage with
  | none => exact trivial
  | some c =>
    dsimp only
    split_ifs with hrange hone hzero hall
    · exact trivial
    · exact trivial
    · exact trivial
    · split
      · next n _ =>
        rw [clamp_of_le n h.valid.one_le_n_clusters]
        exact trivial
      · exact trivial
    · exact trivial

/-- A call that does not panic keeps the invariant when it leaves the state alone. -/
theorem Inv.observe {α : Type} (h : Inv s) {x : Fallible α}
    (hx : Meets x (fun _ => True) Fault.IsErr) : Returns (observe x s) Inv := by
  unfold IqdbIvf.observe
  cases x with
  | ok a => exact h
  | error f =>
    cases f with
    | err e => exact h
    | panic p => exact (hx : False).elim

/-- A request to a state with the invariant leaves one, and does not panic. -/
theorem Inv.serve (h : Inv s) (request : Request X) : Returns (serve s request) Inv := by
  cases request with
  | call op =>
    obtain ⟨r, t, hcall, htransition⟩ := call_transition h op
    show Returns ((IqdbIvf.call op s).map Prod.snd) Inv
    rw [hcall]
    exact htransition.inv h
  | search query params => exact h.observe (search_no_panic h query params)
  | suggestNProbes coverage => exact h.observe (h.suggestNProbes_no_panic coverage)

/-- No session of a constructed index panics, and the defensive branches cannot be taken in the
state that it leaves. -/
theorem session_no_panic {dim : ℕ} {metric : DistanceMetric} {cfg : IvfConfig}
    (hnew : IvfIndex.new X dim metric cfg = .ok s) (requests : List (Request X)) :
    ∃ t, session requests s = .ok t ∧ DeadBranches t := by
  have hsession : Returns (session requests s) Inv :=
    Meets.foldlM_inv Inv (Inv.new hnew) fun request _ _ h => h.serve request
  obtain ⟨t, ht, hinv⟩ := returns_iff.1 hsession
  exact ⟨t, ht, hinv.deadBranches⟩

/-- A session with the two-cluster index, in which several requests are refused. -/
def flatSession : List (Request crates) :=
  [.call (.train twoVectors), .call (.train twoVectors), .call (.insert (3 : ℕ) [1] none),
    .call (.insert (4 : ℕ) [1, 2] none), .search [4] ⟨7, .manhattan, some (5 : ℕ)⟩,
    .search [] ⟨0, .cosine, none⟩, .suggestNProbes (some (1 / 2)), .suggestNProbes none,
    .call .retrain, .call (.delete (3 : ℕ))]

/-- No request of the session panics, the refused ones included. -/
theorem flatIndex_session_no_panic :
    ∃ t, session flatSession flatIndex = .ok t ∧ DeadBranches t :=
  session_no_panic flatIndex_new flatSession

end IqdbIvf
