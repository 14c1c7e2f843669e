import IqdbIvf.Spec.Refining
import IqdbIvf.Spec.Selected

/-!
# Asking for more hits

Without a rerank, a search for fewer hits returns the front of what a search for more returns. With
one it does not: the shortlist grows with `k`, so that an entry which a short list left out may come
up in the middle of the hits. But no position of the result gets worse (`asking_for_more`).
-/

set_option linter.unusedSectionVars false

namespace IqdbIvf

open Outcome Ranking Selection Rational

variable {F32 : Type} [Arith F32] {X : Crates F32} {s : IvfIndex X} {v : View X}
  {query : List F32} {exact : List F32 → Option F32} {evaluator : Option X.FilterEvaluator}
  {k k' : ℕ}

/-- A shortlist grows with what is asked for. -/
theorem saturatingMul_mono_right (m : ℕ) (h : k ≤ k') :
    saturatingMul m k ≤ saturatingMul m k' := by
  have hle := Nat.mul_le_mul_left m h
  unfold saturatingMul
  omega

/-- What a view selects when fewer items are asked for. -/
theorem View.selected_le (h : k ≤ k') {out' : List ((Item X × ℕ) × F32)}
    (hout' : v.selected query exact evaluator k' = some out') :
    ∃ out, v.selected query exact evaluator k = some out ∧
      (v.Direct → out = out'.take k) ∧
      ∀ (i : ℕ) p, out[i]? = some p →
        ∃ p', out'[i]? = some p' ∧ (Arith.totalCmp p'.2 p.2).isLE = true := by
  obtain ⟨probed, plan, hprobed, hplan, hrun⟩ := View.selected_eq_some_iff.1 hout'
  rcases v.plan_cases query exact with hnone | ⟨score, hscore⟩ | ⟨hreranked, adc, hstaged⟩
  · rw [hnone] at hplan
    cases hplan
  · rw [hscore] at hplan
    obtain rfl := Option.some.inj hplan
    have hfront : best Arith.totalCmp (fun q : Item X × ℕ => score q.1.vector) Prod.snd k
        (v.candidates evaluator probed) = some (out'.take k) := by
      have hrun' : best Arith.totalCmp (fun q : Item X × ℕ => score q.1.vector) Prod.snd k'
        (v.candidates evaluator probed) = some out' := hrun
      rw [best_take h, hrun', Option.map_some]
    refine ⟨_, View.selected_eq_some_iff.2 ⟨probed, _, hprobed, hscore k, hfront⟩, fun _ => rfl, ?_⟩
    intro i p hp
    rw [List.getElem?_take] at hp
    split_ifs at hp
    exact ⟨p, hp, Std.ReflCmp.isLE_rfl⟩
  · rw [hstaged] at hplan
    obtain rfl := Option.some.inj hplan
    obtain ⟨out, hout, hle⟩ := Plan.run_staged_mono (v.candidates_nodup evaluator probed)
      (saturatingMul_mono_right _ h) h hrun
    exact ⟨out, View.selected_eq_some_iff.2 ⟨probed, _, hprobed, hstaged k, hout⟩,
      fun hdirect => absurd hdirect hreranked, hle⟩

/-- A search for fewer hits returns no worse ones at any position than a search for more does, and
without a rerank it returns the front of them. -/
theorem asking_for_more (hs : Reachable s) {score : List F32 → List F32 → Option F32}
    (hscore : ScoresEach X s.metric s.dim score) {query : List F32}
    {params params' : SearchParams X} (hk : params.k ≤ params'.k)
    (hmetric : params.metric = params'.metric)
    (hfilter : params.filter = params'.filter) {hits' : List (Hit X)}
    (hsearch : s.search query params' = .ok hits') :
    ∃ hits, s.search query params = .ok hits ∧
      (s.cfg.use_pq = false ∨ s.cfg.pq_refine_factor = 0 → hits = hits'.take params.k.toNat) ∧
      ∀ (i : ℕ) hit, hits[i]? = some hit →
        ∃ hit', hits'[i]? = some hit' ∧
          (Arith.totalCmp hit'.distance hit.distance).isLE = true := by
  have h := hs.inv
  obtain ⟨⟨htrained, hdim, hmetric'⟩, hcases⟩ := h.search_ok_cases hscore hsearch
  rw [← hmetric] at hmetric'
  have hle : params.k.toNat ≤ params'.k.toNat := UInt64.le_iff_toNat_le.1 hk
  have hzero : ∀ k : UInt64, k = 0 ↔ k.toNat = 0 := fun k => UInt64.toNat_inj.symm
  rcases hcases with ⟨hstop, rfl⟩ | ⟨evaluator, out', hr, hout', rfl⟩
  · -- The search for more has nothing to do, and neither has the other one.
    have hidle : params.k = 0 ∨ s.items = [] := by
      refine hstop.imp_left fun hk₀ => ?_
      rw [hzero] at hk₀ ⊢
      omega
    refine ⟨[], h.search_idle htrained hdim hmetric' hidle, fun _ => List.take_nil.symm, ?_⟩
    intro i hit hhit
    rw [List.getElem?_nil] at hhit
    cases hhit
  · by_cases hk₀ : params.k = 0
    · refine ⟨[], h.search_idle htrained hdim hmetric' (.inl hk₀), fun _ => ?_, ?_⟩
      · rw [(hzero _).1 hk₀]
        rfl
      · intro i hit hhit
        rw [List.getElem?_nil] at hhit
        cases hhit
    · have hr' : Reaches s query params evaluator :=
        ⟨htrained, hdim, hmetric', hk₀, hr.live, by rw [hfilter]; exact hr.filter⟩
      obtain ⟨out, hout, hfront, hpositions⟩ := View.selected_le hle hout'
      refine ⟨_, h.search_of_selected hscore hr' hout, fun hdirect => ?_, ?_⟩
      · rw [hfront hdirect, List.map_take]
      · intro i hit hhit
        rw [List.getElem?_map, Option.map_eq_some_iff] at hhit
        obtain ⟨p, hp, rfl⟩ := hhit
        obtain ⟨p', hp', hbetter⟩ := hpositions i p hp
        refine ⟨View.hitOf p', ?_, hbetter⟩
        rw [List.getElem?_map, hp', Option.map_some]

/-- Searches of the IVF-PQ index for one hit and for two. -/
theorem pqState_asking :
    ∃ hits', pqState.search [4] ⟨2, .manhattan, none⟩ = .ok hits' ∧
      ∃ hits, pqState.search [4] ⟨1, .manhattan, none⟩ = .ok hits ∧
        (pqState.cfg.use_pq = false ∨ pqState.cfg.pq_refine_factor = 0 →
          hits = hits'.take (1 : UInt64).toNat) ∧
        ∀ (i : ℕ) hit, hits[i]? = some hit → ∃ hit', hits'[i]? = some hit' ∧
          (Arith.totalCmp hit'.distance hit.distance).isLE = true := by
  have hmetric : pqState.metric = .manhattan := by decide +kernel
  have hscore : ScoresEach crates pqState.metric pqState.dim (distance .manhattan) :=
    manhattan_scoresEach hmetric
  let params : SearchParams crates := ⟨1, .manhattan, none⟩
  let params' : SearchParams crates := ⟨2, .manhattan, none⟩
  have hreturns : (pqState.search [4] params').isOk = true := by decide +kernel
  have hk : params.k ≤ params'.k := by decide
  cases hsearch : pqState.search [4] params' with
  | error f =>
    rw [hsearch] at hreturns
    cases hreturns
  | ok hits' =>
    exact ⟨hits', rfl, asking_for_more pqState_reachable hscore hk rfl rfl hsearch⟩

end IqdbIvf
