import IqdbIvf.Spec.Rational

/-!
# Independence of the history

The view of an index is a state machine of its own: what an insert, a delete or a setter returns,
and the view that it leaves, depend on the view (`Transition.view_step`). Searches do too, so two
indexes with one view cannot be told apart by any further calls (`history_independent`).
-/

set_option linter.unusedSectionVars false

namespace IqdbIvf

open Outcome Rational

variable {F32 : Type} [Arith F32] {X : Crates F32} {s t : IvfIndex X}

/-- The calls that change the items. -/
inductive Edit (X : Crates F32) where
  | insert (id : X.VectorId) (vector : List F32) (metadata : Option X.Metadata)
  | delete (id : X.VectorId)

/-- The calls that leave the model alone: the edits, and the setters of the search parameters. -/
inductive Update (X : Crates F32) where
  | edit (edit : Edit X)
  | setNProbes (n : ℕ)
  | setPqRefineFactor (factor : UInt32)

/-- The call of an edit. -/
def Edit.op : Edit X → Op X
  | .insert id vector metadata => .insert id vector metadata
  | .delete id => .delete id

/-- The call of an update. -/
def Update.op : Update X → Op X
  | .edit e => e.op
  | .setNProbes n => .setNProbes n
  | .setPqRefineFactor factor => .setPqRefineFactor factor

namespace View

/-- The encoding of a vector through the quantizer of the view, when it has one. -/
def encode (v : View X) (vector : List F32) : Except IqdbError (Option X.PqCode) :=
  match v.pq with
  | some pq => (X.quantize pq vector).map some
  | none => .ok none

/-- An insert, seen through the view, while stamps are left. -/
def insert (v : View X) (id : X.VectorId) (vector : List F32) (metadata : Option X.Metadata) :
    Except IqdbError Unit × View X :=
  if v.trained = false then
    (.error (.invalidConfig "IvfIndex must be trained before use"), v)
  else if vector.length ≠ v.dim then (.error (.dimensionMismatch v.dim vector.length), v)
  else if id ∈ v.items.map (·.id) then (.error .duplicate, v)
  else match v.encode vector with
    | .error e => (.error e, v)
    | .ok _ => (.ok (), { v with items := v.items ++ [⟨id, vector, metadata⟩] })

/-- A delete, seen through the view. -/
def delete (v : View X) (id : X.VectorId) : Except IqdbError Unit × View X :=
  if id ∈ v.items.map (·.id) then
    (.ok (), { v with items := v.items.filter fun item => item.id ≠ id })
  else (.error .notFound, v)

/-- The setter of the number of probes, seen through the view. -/
def setNProbes (v : View X) (n : ℕ) : Except IqdbError Unit × View X :=
  if n = 0 then (.error (.invalidConfig "IvfIndex::set_n_probes requires n >= 1"), v)
  else if v.cfg.n_clusters < n then
    (.error (.invalidConfig "IvfIndex::set_n_probes requires n <= n_clusters"), v)
  else (.ok (), { v with cfg := { v.cfg with n_probes := n } })

/-- An update, seen through the view. -/
def step (v : View X) : Update X → Except IqdbError Unit × View X
  | .edit (.insert id vector metadata) => v.insert id vector metadata
  | .edit (.delete id) => v.delete id
  | .setNProbes n => v.setNProbes n
  | .setPqRefineFactor factor =>
    (.ok (), { v with cfg := { v.cfg with pq_refine_factor := factor } })

/-- A sequence of updates, seen through the view. -/
def run (v : View X) : List (Update X) → List (Except IqdbError Unit) × View X
  | [] => ([], v)
  | u :: us =>
    let r := v.step u
    let rest := r.2.run us
    (r.1 :: rest.1, rest.2)

end View

/-- An edit changes the items of the view and nothing else. -/
theorem Transition.view_edit {e : Edit X} {r : Except IqdbError Unit}
    (h : Transition s e.op r t) : t.view = { s.view with items := t.items } := by
  cases e with
  | insert id vector metadata =>
    cases h with
    | insertUntrained => rfl
    | insertWrongDim => rfl
    | insertDuplicate => rfl
    | insertOverflow => rfl
    | insertEncodeFails => rfl
    | inserted => rfl
  | delete id =>
    cases h with
    | deleteAbsent => rfl
    | deleted => rfl

/-- A sequence of edits changes the items of the view and nothing else. -/
theorem Transitions.view_edits {edits : List (Edit X)} {rs : List (Except IqdbError Unit)}
    (h : Transitions s (edits.map Edit.op) rs t) : t.view = { s.view with items := t.items } := by
  induction edits generalizing s rs with
  | nil =>
    cases h with
    | nil => rfl
  | cons e edits ih =>
    cases h with
    | cons _ htransition hrest => rw [ih hrest, htransition.view_edit]

/-- The insert of a view, in terms of the index. -/
theorem view_insert_eq (s : IvfIndex X) (id : X.VectorId) (v : List F32) (m : Option X.Metadata) :
    s.view.insert id v m =
      if s.trained = false then
        (.error (.invalidConfig "IvfIndex must be trained before use"), s.view)
      else if v.length ≠ s.dim then (.error (.dimensionMismatch s.dim v.length), s.view)
      else if id ∈ s.items.map (·.id) then (.error .duplicate, s.view)
      else match s.encode v with
        | .error e => (.error e, s.view)
        | .ok _ => (.ok (), { s.view with items := s.items ++ [⟨id, v, m⟩] }) := rfl

/-- What an insert returns, and the view that it leaves, while stamps are left. -/
theorem Transition.view_insert {id : X.VectorId} {v : List F32} {m : Option X.Metadata}
    {r : Except IqdbError Unit} (h : Transition s (.insert id v m) r t) (hs : Inv s)
    (hseq : s.next_seq + 1 < 2^64) : (r, t.view) = s.view.insert id v m := by
  have hview : t.view = { s.view with items := t.items } :=
    Transition.view_edit (e := .insert id v m) h
  have hok : r = .ok () → t.items = s.items ++ [⟨id, v, m⟩] := by
    rintro rfl
    exact h.items_of_ok hs
  have hnever : s.trained = true → ¬ s.trained = false := Bool.ne_false_iff.2
  rw [view_insert_eq]
  cases h with
  | insertUntrained _ _ _ htrained => rw [if_pos htrained]
  | insertWrongDim _ _ _ htrained hdim => rw [if_neg (hnever htrained), if_pos hdim]
  | insertDuplicate _ _ _ htrained hdim hid =>
    rw [mem_ids_iff] at hid
    rw [if_neg (hnever htrained), if_neg (not_not.2 hdim), if_pos hid]
  | insertOverflow _ _ _ _ _ _ hover => exact absurd hseq hover
  | insertEncodeFails _ _ _ e htrained hdim hid _ hcode =>
    rw [mem_ids_iff] at hid
    rw [if_neg (hnever htrained), if_neg (not_not.2 hdim), if_neg hid, hcode]
    rfl
  | inserted _ _ _ code htrained hdim hid _ hcode =>
    rw [mem_ids_iff] at hid
    rw [if_neg (hnever htrained), if_neg (not_not.2 hdim), if_neg hid, hcode, hview, hok rfl]

/-- What a delete returns, and the view that it leaves. -/
theorem Transition.view_delete {id : X.VectorId} {r : Except IqdbError Unit}
    (h : Transition s (.delete id) r t) (hs : Inv s) : (r, t.view) = s.view.delete id := by
  have hview : t.view = { s.view with items := t.items } := Transition.view_edit (e := .delete id) h
  have hok : r = .ok () → t.items = s.items.filter fun item => item.id ≠ id := by
    rintro rfl
    exact h.items_of_ok hs
  have hdelete : s.view.delete id = if id ∈ s.items.map (·.id) then
      (.ok (), { s.view with items := s.items.filter fun item => item.id ≠ id })
    else (.error .notFound, s.view) := rfl
  rw [hdelete]
  cases h with
  | deleteAbsent _ hid =>
    rw [mem_ids_iff] at hid
    rw [if_neg hid]
  | deleted e c pos old list hold hpos hlist =>
    have hid : e.id ∈ s.entries.map (·.id) :=
      List.mem_map_of_mem (IvfIndex.mem_entries hold hpos)
    rw [mem_ids_iff] at hid
    rw [if_pos hid, hview, hok rfl]

/-- What the setter of the number of probes returns, and the view that it leaves. -/
theorem Transition.view_setNProbes {n : ℕ} {r : Except IqdbError Unit}
    (h : Transition s (.setNProbes n) r t) : (r, t.view) = s.view.setNProbes n := by
  have hset : s.view.setNProbes n =
      if n = 0 then (.error (.invalidConfig "IvfIndex::set_n_probes requires n >= 1"), s.view)
      else if s.cfg.n_clusters < n then
        (.error (.invalidConfig "IvfIndex::set_n_probes requires n <= n_clusters"), s.view)
      else (.ok (), { s.view with cfg := { s.cfg with n_probes := n } }) := rfl
  rw [hset]
  cases h with
  | setNProbesZero => rfl
  | setNProbesTooMany _ hn =>
    have hpos : n ≠ 0 := by omega
    rw [if_neg hpos, if_pos hn]
  | nProbesSet _ hpos hn =>
    rw [if_neg (Nat.ne_of_gt hpos), if_neg (Nat.not_lt.2 hn)]
    rfl

/-- What an update returns, and the view that it leaves, while stamps are left. -/
theorem Transition.view_step {u : Update X} {r : Except IqdbError Unit}
    (h : Transition s u.op r t) (hs : Inv s) (hseq : s.next_seq + u.op.stamps < 2^64) :
    (r, t.view) = s.view.step u := by
  cases u with
  | edit e =>
    cases e with
    | insert id v m => exact Transition.view_insert h hs hseq
    | delete id => exact Transition.view_delete h hs
  | setNProbes n => exact Transition.view_setNProbes h
  | setPqRefineFactor factor =>
    cases h with
    | pqRefineFactorSet => rfl

/-- What a sequence of updates returns, and the view that it leaves, while the stamps suffice. -/
theorem Inv.view_run (h : Inv s) {us : List (Update X)}
    (hseq : s.next_seq + (us.map fun u => u.op.stamps).sum < 2^64) :
    ∃ t, calls (us.map Update.op) s = .ok ((s.view.run us).1, t) ∧ Inv t ∧
      t.view = (s.view.run us).2 := by
  induction us generalizing s with
  | nil => exact ⟨s, rfl, h, rfl⟩
  | cons u us ih =>
    obtain ⟨r, s', hcall, htransition⟩ := call_transition h u.op
    have hstamps := htransition.next_seq_bounds.2
    rw [List.map_cons, List.sum_cons] at hseq
    have hstep := htransition.view_step h (by omega)
    obtain ⟨t, hcalls, hinv, hview⟩ := ih (htransition.inv h) (by omega)
    have hrun : s.view.run (u :: us) = (r :: (s'.view.run us).1, (s'.view.run us).2) := by
      rw [View.run, ← hstep]
    refine ⟨t, ?_, hinv, ?_⟩
    · rw [hrun, List.map_cons, calls, hcall]
      simp only [ok_bind, hcalls]
      rfl
    · rw [hrun, hview]

/-- Two sequences of edits of one index that end in the same items cannot be told apart: any further
updates return the same results, while stamps are left, and any search then returns the same hits.
-/
theorem history_independent (hs : Reachable s) {edits edits' : List (Edit X)}
    {rs rs' : List (Except IqdbError Unit)} {t t' : IvfIndex X}
    (hcalls : calls (edits.map Edit.op) s = .ok (rs, t))
    (hcalls' : calls (edits'.map Edit.op) s = .ok (rs', t')) (hitems : t.items = t'.items)
    {score : List F32 → List F32 → Option F32} (hscore : ScoresEach X s.metric s.dim score)
    (us : List (Update X)) (hseq : t.next_seq + (us.map fun u => u.op.stamps).sum < 2^64)
    (hseq' : t'.next_seq + (us.map fun u => u.op.stamps).sum < 2^64) :
    ∃ results u u', calls (us.map Update.op) t = .ok (results, u) ∧
      calls (us.map Update.op) t' = .ok (results, u') ∧
      ∀ query params hits,
        u.search query params = .ok hits ↔ u'.search query params = .ok hits := by
  have h := hs.inv
  have hedits := transitions_of_calls h hcalls
  have hedits' := transitions_of_calls h hcalls'
  have ht := hedits.inv
  have ht' := hedits'.inv
  have hframe := hedits.frame
  -- Edits change the items only, so the views agree as soon as the items do.
  have hview : t.view = t'.view := by
    rw [hedits.view_edits, hedits'.view_edits, hitems]
  obtain ⟨u, hrun, hu, huview⟩ := ht.view_run hseq
  obtain ⟨u', hrun', hu', huview'⟩ := ht'.view_run hseq'
  rw [← hview] at hrun' huview'
  refine ⟨_, u, u', hrun, hrun', ?_⟩
  have hframe' := (ht.frame_of_calls hrun).2
  -- The updates have kept the views equal, and equal views answer alike.
  have hscore' : ScoresEach X u.metric u.dim score := by
    rw [hframe'.metric, hframe.metric, hframe'.dim, hframe.dim]
    exact hscore
  exact search_congr hu hu' (huview.trans huview'.symm) hscore'

/-- Edits that overwrite an item. -/
def longEdits : List (Edit crates) :=
  [.insert 3 [1] none, .insert 4 [9] (some 5), .delete 3, .insert 3 [2] none]

/-- Edits with the same outcome, one of which fails. -/
def shortEdits : List (Edit crates) := [.insert 4 [9] (some 5), .delete 3, .insert 3 [2] none]

/-- Two sequences of edits with the same items, followed by an insert and a change of the probes. -/
theorem edits_history_independent :
    (flatTrained.after (longEdits.map Edit.op)).items =
      (flatTrained.after (shortEdits.map Edit.op)).items ∧
    ∃ results u u',
      calls ([.edit (.insert 7 [5] none), .setNProbes 1].map Update.op)
        (flatTrained.after (longEdits.map Edit.op)) = .ok (results, u) ∧
      calls ([.edit (.insert 7 [5] none), .setNProbes 1].map Update.op)
        (flatTrained.after (shortEdits.map Edit.op)) = .ok (results, u') ∧
      ∀ query params hits,
        u.search query params = .ok hits ↔ u'.search query params = .ok hits := by
  have hreach : Reachable flatTrained := (Reachable.new flatIndex_new).after _
  have hcalls := hreach.inv.calls_results (longEdits.map Edit.op)
  have hcalls' := hreach.inv.calls_results (shortEdits.map Edit.op)
  have hmetric : flatTrained.metric = .manhattan := by decide +kernel
  have hscore : ScoresEach crates flatTrained.metric flatTrained.dim (distance .manhattan) :=
    manhattan_scoresEach hmetric
  have hitems : (flatTrained.after (longEdits.map Edit.op)).items =
      (flatTrained.after (shortEdits.map Edit.op)).items := by decide +kernel
  exact ⟨hitems, history_independent hreach hcalls hcalls' hitems hscore
    [.edit (.insert 7 [5] none), .setNProbes 1] (by decide +kernel) (by decide +kernel)⟩

end IqdbIvf
