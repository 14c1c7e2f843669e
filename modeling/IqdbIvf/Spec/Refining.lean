import IqdbIvf.Spec.Probing

/-!
# Refining a longer shortlist

An IVF-PQ search with a refine factor reranks a shortlist by the exact distances; a larger factor
makes the shortlist longer at its end. The reranked lists are rankings of nested lists, as they are
for more probes, so a true neighbour that was found is found again and no position of the result
gets worse (`refining_keeps_neighbours`). Without a factor the result is itself a front of every
shortlist.
-/

set_option linter.unusedSectionVars false

namespace IqdbIvf

open Outcome Ranking Selection Rational IvfIndex

variable {F32 : Type} [Arith F32] {X : Crates F32} {s t : IvfIndex X} {query : List F32}
  {dist : List F32 → F32} {evaluator : Option X.FilterEvaluator} {k : ℕ}

/-- The index after `set_pq_refine_factor`. -/
def IvfIndex.withRefineFactor (s : IvfIndex X) (factor : UInt32) : IvfIndex X :=
  { s with cfg := { s.cfg with pq_refine_factor := factor } }

/-- The setter takes every factor. -/
theorem setPqRefineFactor_ok (s : IvfIndex X) (factor : UInt32) :
    call (.setPqRefineFactor factor) s = .ok (.ok (), s.withRefineFactor factor) := rfl

/-! ## Shortlists -/

/-- The length of a shortlist grows with the factor. -/
theorem saturatingMul_mono {m n : ℕ} (h : m ≤ n) (k : ℕ) :
    saturatingMul m k ≤ saturatingMul n k := by
  unfold saturatingMul
  have hle := Nat.mul_le_mul_right k h
  omega

/-- A shortlist for a positive factor has room for what the caller asks for. -/
theorem le_saturatingMul {m : ℕ} (h : 1 ≤ m) (k : UInt64) :
    k.toNat ≤ saturatingMul m k.toNat := by
  have hk : k.toNat < 2^64 := k.toNat_lt
  have hle : k.toNat ≤ m * k.toNat := Nat.le_mul_of_pos_left _ h
  unfold saturatingMul usizeMax
  omega

/-- The entries that a search finds under a factor, among the candidates with the given ADC scores:
the first `k` by ADC score, or the first `k` of the shortlist by exact distance. -/
inductive Finds (dist : List F32 → F32) (adc : InvertedListEntry X → Option F32) (k : ℕ)
    (cands : List (InvertedListEntry X)) :
    UInt32 → List (InvertedListEntry X × F32) → Prop
  | adcOnly {out : List (InvertedListEntry X × F32)}
    (hout : best Arith.totalCmp adc (fun e => e.seq) k cands = some out) :
    Finds dist adc k cands 0 out
  | reranked {factor : UInt32} {short : List (InvertedListEntry X × F32)} (hfactor : factor ≠ 0)
    (hshort : best Arith.totalCmp adc (fun e => e.seq) (saturatingMul factor.toNat k) cands =
      some short) :
    Finds dist adc k cands factor
      (((ranked dist (short.map Prod.fst)).take k).map fun e => (e, dist e.vector))

section Finds

variable {adc : InvertedListEntry X → Option F32} {cands : List (InvertedListEntry X)}

/-- The entries of a selection are part of the list. -/
theorem subperm_of_best {m : ℕ} {short : List (InvertedListEntry X × F32)}
    (h : best Arith.totalCmp adc (fun e => e.seq) m cands = some short) :
    (short.map Prod.fst).Subperm cands := (selects_iff_best.2 h).subperm

/-- A selection is the front of every longer one. -/
theorem exists_longer {m n : ℕ} (hle : m ≤ n) {short : List (InvertedListEntry X × F32)}
    (h : best Arith.totalCmp adc (fun e => e.seq) m cands = some short) :
    ∃ long, best Arith.totalCmp adc (fun e => e.seq) n cands = some long ∧ short = long.take m := by
  rw [best_take hle, Option.map_eq_some_iff] at h
  obtain ⟨long, hlong, rfl⟩ := h
  exact ⟨long, hlong, rfl⟩

/-- A true neighbour on a shortlist is among the first `k` of it. -/
theorem mem_reranked {survivors short : List (InvertedListEntry X)}
    (hseqs : (survivors.map (·.seq)).Nodup) (hsub : short.Subperm survivors)
    {e : InvertedListEntry X} (hshort : e ∈ short) (he : e ∈ (ranked dist survivors).take k) :
    e ∈ (ranked dist short).take k := by
  have hranked : (ranked dist survivors).Nodup :=
    ((rank_perm _).nodup_iff).2 (List.Nodup.of_map _ hseqs)
  exact mem_take_of_sublist (rank_sublist hseqs hsub) hranked (mem_rank.2 hshort) he

/-- The entries that are found by reranking. -/
theorem map_fst_reranked (es : List (InvertedListEntry X)) :
    (es.map fun e => (e, dist e.vector)).map Prod.fst = es := by
  rw [List.map_map]
  exact List.map_id es

/-- A larger factor finds at least as much, and nothing worse. -/
theorem Finds.mono {survivors : List (InvertedListEntry X)}
    (hseqs : (survivors.map (·.seq)).Nodup) (hcands : cands.Subperm survivors) {k : UInt64}
    {N₁ N₂ : UInt32} (hle : N₁ ≤ N₂) {out₁ : List (InvertedListEntry X × F32)}
    (h : Finds dist adc k.toNat cands N₁ out₁) :
    ∃ out₂, Finds dist adc k.toNat cands N₂ out₂ ∧
      (∀ e ∈ (ranked dist survivors).take k.toNat, e ∈ out₁.map Prod.fst →
        e ∈ out₂.map Prod.fst) ∧
      (N₁ ≠ 0 → ∀ (i : ℕ) p, out₁[i]? = some p →
        ∃ p', out₂[i]? = some p' ∧ (p' = p ∨ Closer dist p'.1 p.1)) := by
  have hpos : ∀ N : UInt32, N ≠ 0 → 1 ≤ N.toNat := by
    intro N hN
    rw [Nat.one_le_iff_ne_zero]
    exact fun hzero => hN (UInt32.toNat_inj.1 hzero)
  cases h with
  | adcOnly hout =>
    by_cases hzero : N₂ = 0
    · subst hzero
      exact ⟨out₁, .adcOnly hout, fun _ _ => id, fun hne => absurd rfl hne⟩
    · -- The result by ADC score is the front of every shortlist.
      obtain ⟨short, hshort, rfl⟩ := exists_longer (le_saturatingMul (hpos N₂ hzero) k) hout
      refine ⟨_, .reranked hzero hshort, fun e he hfound => ?_, fun hne => absurd rfl hne⟩
      rw [map_fst_reranked]
      have hmem : e ∈ short.map Prod.fst :=
        ((List.take_sublist _ short).map Prod.fst).subset hfound
      exact mem_reranked hseqs ((subperm_of_best hshort).trans hcands) hmem he
  | reranked hfactor hshort =>
    have hfactor' : N₂ ≠ 0 := by
      rintro rfl
      have hle' : N₁.toNat ≤ 0 := hle
      have hone := hpos N₁ hfactor
      omega
    obtain ⟨long, hlong, rfl⟩ := exists_longer (saturatingMul_mono hle k.toNat) hshort
    have hfront : (long.take (saturatingMul N₁.toNat k.toNat)).map Prod.fst |>.Sublist
        (long.map Prod.fst) := (List.take_sublist _ long).map Prod.fst
    have hlongsub := (subperm_of_best hlong).trans hcands
    refine ⟨_, .reranked hfactor' hlong, fun e he hfound => ?_, fun _ i p hp => ?_⟩
    · rw [map_fst_reranked] at hfound ⊢
      have hmem := hfront.subset (mem_rank.1 (List.mem_of_mem_take hfound))
      exact mem_reranked hseqs hlongsub hmem he
    · -- The shorter shortlist is ranked inside the longer one.
      have hlongseqs := nodup_map_of_subperm hlongsub hseqs
      rw [List.getElem?_map, Option.map_eq_some_iff] at hp
      obtain ⟨e, he, rfl⟩ := hp
      obtain ⟨e', he', hcloser⟩ := le_of_sublist (rank_sublist hlongseqs hfront.subperm)
        (pairwise_rank hlongseqs) he
      refine ⟨(e', dist e'.vector), ?_, ?_⟩
      · rw [List.getElem?_map]
        exact congrArg (Option.map _) he'
      · rcases hcloser with rfl | hcloser
        · exact .inl rfl
        · exact .inr hcloser

/-- What is found is what the plan of the factor selects. -/
theorem finds_iff_run {k : ℕ} {factor : UInt32} {out : List (InvertedListEntry X × F32)} :
    Finds dist adc k cands factor out ↔
      (if factor = 0 then Plan.direct adc
        else .staged adc (fun e => some (dist e.vector)) (saturatingMul factor.toNat k)).run
          Arith.totalCmp (fun e => e.seq) k cands = some out := by
  have hfine : ∀ es : List (InvertedListEntry X),
      best Arith.totalCmp (fun e => some (dist e.vector)) (fun e => e.seq) k es =
        some (((ranked dist es).take k).map fun e => (e, dist e.vector)) :=
    fun es => best_of_total fun _ _ => rfl
  constructor
  · intro h
    cases h with
    | adcOnly hout =>
      rw [if_pos rfl, Plan.run_direct]
      exact hout
    | reranked hfactor hshort =>
      rw [if_neg hfactor, Plan.run_staged, hshort, Option.bind_some, hfine]
  · intro h
    by_cases hzero : factor = 0
    · subst hzero
      rw [if_pos rfl, Plan.run_direct] at h
      exact .adcOnly h
    · rw [if_neg hzero, Plan.run_staged] at h
      obtain ⟨short, hshort, hout⟩ := Option.bind_eq_some_iff.1 h
      rw [hfine] at hout
      obtain rfl := Option.some.inj hout
      exact .reranked hzero hshort

/-- What is found is a result of the search. -/
theorem Finds.resultOf {k : UInt64} {out : List (InvertedListEntry X × F32)}
    {pq : X.ProductQuantizer} {tables : X.PqAdcTables}
    (hfinds : Finds dist (adcScore X s.metric tables) k.toNat cands s.cfg.pq_refine_factor out)
    (h : Inv s) (huse : s.cfg.use_pq = true) (hpq : s.pq = some pq)
    (hbuild : X.buildQueryTables pq query s.metric = .ok tables)
    (hlive : ∀ e ∈ cands, e ∈ s.entries) (hids : (cands.map (·.id)).Nodup)
    (hseqs : (cands.map (·.seq)).Nodup) : ResultOf s query dist cands k.toNat out := by
  generalize hfactor : s.cfg.pq_refine_factor = factor at hfinds
  cases hfinds with
  | adcOnly hout =>
    apply ResultOf.of_selects hlive h hids hseqs (List.Subperm.refl _) rfl (selects_iff_best.2 hout)
    intro e _ d hd
    obtain ⟨code, hcode, hd⟩ := Option.bind_eq_some_iff.1 hd
    obtain ⟨adc, hadc, rfl⟩ := Option.map_eq_some_iff.1 hd
    unfold IvfIndex.Reports
    rw [if_pos ⟨huse, hfactor⟩]
    refine ⟨pq, tables, code, adc, hpq, hbuild, hcode, ?_, rfl⟩
    cases hlookup : X.adcDistance tables code with
    | error e =>
      rw [hlookup] at hadc
      cases hadc
    | ok adc' =>
      rw [hlookup] at hadc
      rw [Option.some.inj hadc]
  | @reranked _ short hne hshort =>
    have hranked := selects_iff_best.2 hshort
    have hfine : best Arith.totalCmp (fun e : InvertedListEntry X => some (dist e.vector))
        (fun e => e.seq) k.toNat (short.map Prod.fst) = some (((ranked dist (short.map
          Prod.fst)).take k.toNat).map fun e => (e, dist e.vector)) := best_of_total fun _ _ => rfl
    apply ResultOf.of_selects hlive h hids hseqs hranked.subperm _ (selects_iff_best.2 hfine)
    · intro e _ d hd
      unfold IvfIndex.Reports
      rw [if_neg fun hc => hne (hfactor.symm.trans hc.2)]
      exact (Option.some.inj hd).symm
    · rw [List.length_map, hranked.length_eq]
      exact min_shortlist _ hne k _

end Finds

/-- An index without live vectors has no candidates. -/
theorem Inv.candidates_of_empty (h : Inv s) (hlive : s.live_count = 0) (probed : List ℕ) :
    s.candidates evaluator probed = [] := by
  apply List.eq_nil_iff_forall_not_mem.2
  intro e he
  have hmem := mem_entries_of_candidates he
  rw [List.length_eq_zero_iff.1 (h.live_count.symm.trans hlive)] at hmem
  exact List.not_mem_nil hmem

/-! ## Searches -/

section Search

variable {score : List F32 → List F32 → F32} {params : SearchParams X}

/-- What an IVF-PQ search that reaches its passes returns. -/
theorem Inv.search_pq_iff (h : Inv s) (huse : s.cfg.use_pq = true)
    (hscore : ScoresEach X s.metric s.dim fun query v => some (score query v))
    (hr : Reaches s query params evaluator) {hits : List (Hit X)} :
    let dist := fun v => orient s.metric (score query v)
    s.search query params = .ok hits ↔ ∃ pq tables out, s.pq = some pq ∧
      X.buildQueryTables pq query s.metric = .ok tables ∧
      Finds dist (adcScore X s.metric tables) params.k.toNat
        (s.candidates evaluator (s.probes dist)) s.cfg.pq_refine_factor out ∧
      out.map hitOf = hits := by
  intro dist
  have hexact : ∀ v, exactScore s.metric (fun query v => some (score query v)) query v =
      some (dist v) := fun v => rfl
  obtain ⟨centroids, hbest, hprobes⟩ := best_centroids s hexact
  obtain ⟨pq, hpq⟩ := h.exists_pq hr.trained huse
  rw [search_eq_ok_iff h hscore hr, answer_of_probed hbest, hprobes]
  cases hbuild : X.buildQueryTables pq query s.metric with
  | error e =>
    rw [plan_of_tables_error huse hpq hbuild]
    constructor
    · exact nofun
    · rintro ⟨pq', tables, out, hpq', hbuild', -⟩
      obtain rfl := Option.some.inj (hpq.symm.trans hpq')
      rw [hbuild] at hbuild'
      cases hbuild'
  | ok tables =>
    rw [plan_of_pq huse hpq hbuild, Option.bind_some, Option.map_eq_some_iff]
    constructor
    · rintro ⟨out, hout, hhits⟩
      exact ⟨pq, tables, out, hpq, hbuild, finds_iff_run.2 hout, hhits⟩
    · rintro ⟨pq', tables', out, hpq', hbuild', hout, hhits⟩
      obtain rfl := Option.some.inj (hpq.symm.trans hpq')
      obtain rfl := Except.ok.inj (hbuild.symm.trans hbuild')
      exact ⟨out, finds_iff_run.1 hout, hhits⟩

end Search

/-- Raising the refine factor of an IVF-PQ index keeps the true neighbours that were found, and
between two reranked searches makes no hit worse. What both searches find is drawn from the
candidates of the probed clusters, at the distances that the factors ask for. -/
theorem refining_keeps_neighbours (hs : Reachable s) (htrained : s.trained = true)
    (huse : s.cfg.use_pq = true) {score : List F32 → List F32 → F32}
    (hscore : ScoresEach X s.metric s.dim fun query v => some (score query v)) {query : List F32}
    (hq : query.length = s.dim) {params : SearchParams X} (hmetric : params.metric = s.metric)
    {evaluator : Option X.FilterEvaluator} (hfilter : evaluatorOf X params.filter = .ok evaluator)
    {N₁ N₂ : UInt32} (hle : N₁ ≤ N₂) {t₁ t₂ : IvfIndex X}
    (hset₁ : call (.setPqRefineFactor N₁) s = .ok (.ok (), t₁))
    (hset₂ : call (.setPqRefineFactor N₂) s = .ok (.ok (), t₂)) {hits₁ : List (Hit X)}
    (hsearch : t₁.search query params = .ok hits₁) :
    let dist := fun v => orient s.metric (score query v)
    let T := s.neighbours dist evaluator params.k.toNat
    ∃ found₁ found₂ : List (InvertedListEntry X × F32), hits₁ = found₁.map hitOf ∧
      t₂.search query params = .ok (found₂.map hitOf) ∧
      ResultOf t₁ query dist (s.candidates evaluator (s.probes dist)) params.k.toNat found₁ ∧
      ResultOf t₂ query dist (s.candidates evaluator (s.probes dist)) params.k.toNat found₂ ∧
      (∀ e ∈ T, e ∈ found₁.map Prod.fst → e ∈ found₂.map Prod.fst) ∧
      (1 ≤ N₁ → ∀ (i : ℕ) p, found₁[i]? = some p →
        ∃ p', found₂[i]? = some p' ∧ (p' = p ∨ Closer dist p'.1 p.1)) := by
  intro dist T
  have h := hs.inv
  obtain rfl : s.withRefineFactor N₁ = t₁ := by
    rw [setPqRefineFactor_ok] at hset₁
    exact (Prod.mk.inj (Except.ok.inj hset₁)).2
  obtain rfl : s.withRefineFactor N₂ = t₂ := by
    rw [setPqRefineFactor_ok] at hset₂
    exact (Prod.mk.inj (Except.ok.inj hset₂)).2
  have h₁ := (transition_of_call h hset₁).inv h
  have h₂ := (transition_of_call h hset₂).inv h
  have hcases₁ := search_cases_of_valid (s := s.withRefineFactor N₁) htrained hq hmetric hfilter
  have hcases₂ := search_cases_of_valid (s := s.withRefineFactor N₂) htrained hq hmetric hfilter
  rcases hcases₁ with ⟨hstop, hnil⟩ | hr
  · -- Both searches return early.
    rcases hcases₂ with ⟨-, hnil₂⟩ | hr₂
    · rw [hnil] at hsearch
      obtain rfl := Except.ok.inj hsearch
      have hempty : params.k.toNat = 0 ∨ s.candidates evaluator (s.probes dist) = [] :=
        hstop.imp (fun hk => by rw [hk]; rfl) fun hlive => h.candidates_of_empty hlive _
      refine ⟨[], [], rfl, hnil₂, .nil hempty, .nil hempty, fun e _ hfound => hfound,
        fun _ i p hp => ?_⟩
      rw [List.getElem?_nil] at hp
      cases hp
    · rcases hstop with hk | hlive
      · exact absurd hk hr₂.k_ne_zero
      · exact absurd hlive hr₂.live
  · have hr₂ : Reaches (s.withRefineFactor N₂) query params evaluator :=
      ⟨hr.trained, hr.dim, hr.metric, hr.k_ne_zero, hr.live, hr.filter⟩
    obtain ⟨pq, tables, found₁, hpq, hbuild, hfinds, rfl⟩ :=
      (h₁.search_pq_iff huse hscore hr).1 hsearch
    have hnodup := (h.probes_spec htrained dist).1
    obtain ⟨found₂, hfinds₂, hkeeps, hcloser⟩ := hfinds.mono (h.survivors_seqs evaluator)
      (h.candidates_subperm hnodup (List.Subset.refl _)).2 hle
    have hlive : ∀ e ∈ s.candidates evaluator (s.probes dist), e ∈ s.entries :=
      fun e he => mem_entries_of_candidates he
    have hids := h.candidates_ids evaluator hnodup
    have hseqs := h.candidates_seqs evaluator hnodup
    refine ⟨found₁, found₂, rfl, ?_, hfinds.resultOf h₁ huse hpq hbuild hlive hids hseqs,
      hfinds₂.resultOf h₂ huse hpq hbuild hlive hids hseqs, hkeeps, fun hone => hcloser ?_⟩
    · exact (h₂.search_pq_iff huse hscore hr₂).2 ⟨pq, tables, found₂, hpq, hbuild, hfinds₂, rfl⟩
    · rintro rfl
      exact absurd hone (by decide)

/-- The IVF-PQ index with a shortlist of one entry and of two. -/
theorem pqState_refining :
    (pqState.trained = true ∧ pqState.cfg.use_pq = true) ∧
    let dist := fun v => orient pqState.metric (manhattan [4] v)
    let T := pqState.neighbours dist none 1
    ∃ hits₁, (pqState.withRefineFactor 1).search [4] ⟨1, .manhattan, none⟩ = .ok hits₁ ∧
      ∃ found₁ found₂ : List (InvertedListEntry crates × ℚ), hits₁ = found₁.map hitOf ∧
        (pqState.withRefineFactor 2).search [4] ⟨1, .manhattan, none⟩ = .ok (found₂.map hitOf) ∧
        ResultOf (pqState.withRefineFactor 1) [4] dist
          (pqState.candidates none (pqState.probes dist)) 1 found₁ ∧
        ResultOf (pqState.withRefineFactor 2) [4] dist
          (pqState.candidates none (pqState.probes dist)) 1 found₂ ∧
        (∀ e ∈ T, e ∈ found₁.map Prod.fst → e ∈ found₂.map Prod.fst) ∧
        ((1 : UInt32) ≤ 1 → ∀ (i : ℕ) p, found₁[i]? = some p →
          ∃ p', found₂[i]? = some p' ∧ (p' = p ∨ Closer dist p'.1 p.1)) := by
  have hdim : pqState.dim = 1 := by decide +kernel
  have hmetric : pqState.metric = .manhattan := by decide +kernel
  have hscore : ScoresEach crates pqState.metric pqState.dim
      fun query v => some (manhattan query v) := manhattan_scoresEach hmetric
  have htrained : pqState.trained = true := by decide +kernel
  have huse : pqState.cfg.use_pq = true := by decide +kernel
  have hq : [(4 : ℚ)].length = pqState.dim := hdim.symm
  let params : SearchParams crates := ⟨1, .manhattan, none⟩
  have hparams : params.metric = pqState.metric := hmetric.symm
  have hfilter : evaluatorOf crates params.filter = .ok none := rfl
  have hreturns : ((pqState.withRefineFactor 1).search [4] params).isOk = true := by
    decide +kernel
  refine ⟨⟨htrained, huse⟩, ?_⟩
  cases hsearch : (pqState.withRefineFactor 1).search [4] params with
  | error f =>
    rw [hsearch] at hreturns
    cases hreturns
  | ok hits₁ =>
    exact ⟨hits₁, rfl, refining_keeps_neighbours pqState_reachable htrained huse hscore hq hparams
      hfilter (by decide) (setPqRefineFactor_ok pqState 1) (setPqRefineFactor_ok pqState 2) hsearch⟩

end IqdbIvf
