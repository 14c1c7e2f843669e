import IqdbIvf.Lib.Journal
import IqdbIvf.Spec.Store

/-!
# The journal of a history

The accepted inserts and deletes of a history, in their order, account for everything that the index
holds: an item is live exactly when its insert was accepted and no later delete of its id was
(`journal_accounts_for_items`). Trainings, setters, refused calls and successful retrainings do not
appear in the journal, whatever they do to the lists.
-/

set_option linter.unusedSectionVars false

namespace IqdbIvf

open Outcome Journal Rational

variable {F32 : Type} [Arith F32] {X : Crates F32} {s t : IvfIndex X}

/-- What a call adds to the journal. -/
def Op.record : Op X → Except IqdbError Unit → Option (Item X ⊕ X.VectorId)
  | .insert id vector metadata, .ok _ => some (.inl ⟨id, vector, metadata⟩)
  | .delete id, .ok _ => some (.inr id)
  | _, _ => none

/-- The journal of a history with the given results. -/
def journal (ops : List (Op X)) (rs : List (Except IqdbError Unit)) :
    List (Item X ⊕ X.VectorId) := (ops.zip rs).filterMap fun p => p.1.record p.2

/-- A call that is not recorded leaves the items alone, and one that is recorded does to them what
the record says. -/
theorem Transition.items_of_record {op : Op X} {r : Except IqdbError Unit}
    (h : Transition s op r t) (hs : Inv s) (hretrain : op = .retrain → r = .ok ()) :
    (op.record r = none ∧ t.items = s.items) ∨
      ∃ e, op.record r = some e ∧ Fits Item.id s.items e ∧ t.items = step Item.id s.items e := by
  cases r with
  | error err =>
    left
    constructor
    · cases op with
      | _ => rfl
    · apply h.items_of_error
      intro hop
      cases hretrain hop
  | ok u =>
    have hitems := h.items_of_ok hs
    cases op with
    | insert id v m =>
      right
      refine ⟨_, rfl, ?_, hitems⟩
      cases h with
      | inserted _ _ _ code _ _ hid =>
        rw [mem_ids_iff] at hid
        exact hid
    | delete id =>
      right
      refine ⟨_, rfl, ?_, hitems⟩
      cases h with
      | deleted e c pos old list hold hpos =>
        have hid : e.id ∈ s.entries.map (·.id) :=
          List.mem_map_of_mem (IvfIndex.mem_entries hold hpos)
        rw [mem_ids_iff] at hid
        exact hid
    | train sample => exact .inl ⟨rfl, hitems⟩
    | setNProbes n => exact .inl ⟨rfl, hitems⟩
    | setPqRefineFactor factor => exact .inl ⟨rfl, hitems⟩
    | retrain => exact .inl ⟨rfl, hitems⟩

/-- The journal of a run leads from its first items to its last ones. -/
theorem Transitions.items_of_journal {ops : List (Op X)} {rs : List (Except IqdbError Unit)}
    (h : Transitions s ops rs t) (hretrains : RetrainsOk ops rs) :
    Admissible Item.id s.items (journal ops rs) ∧
      t.items = replay Item.id s.items (journal ops rs) := by
  induction h with
  | nil => exact ⟨trivial, rfl⟩
  | @cons s s' t op ops r rs hs htransition hrest ih =>
    obtain ⟨hhead, htail⟩ := List.forall_mem_cons.1 hretrains
    obtain ⟨hadmissible, hitems⟩ := ih htail
    have hjournal : journal (op :: ops) (r :: rs) =
        (op.record r).toList ++ journal ops rs := by
      unfold journal
      rw [List.zip_cons_cons, List.filterMap_cons]
      cases op.record r with
      | none => rfl
      | some e => rfl
    rcases htransition.items_of_record hs hhead with ⟨hnone, hsame⟩ | ⟨e, hsome, hfits, hstep⟩
    · rw [hjournal, hnone, ← hsame]
      exact ⟨hadmissible, hitems⟩
    · rw [hstep] at hadmissible hitems
      rw [hjournal, hsome]
      exact ⟨⟨hfits, hadmissible⟩, hitems⟩

/-- The ids of the items are distinct. -/
theorem Inv.item_ids_nodup (h : Inv s) : (s.items.map Item.id).Nodup := by
  have hperm : (s.live.map (·.id)).Perm (s.entries.map (·.id)) := s.live_perm.map _
  unfold IvfIndex.items
  rw [List.map_map]
  exact hperm.nodup_iff.2 h.ids_nodup

/-- The journal accounts for the items of every history whose retrainings succeed: the live items
are those that were there or inserted and not deleted afterwards, in insertion order; the deletes
and the live items add up to the inserts; and the inserts and the deletes of one id take turns. -/
theorem journal_accounts_for_items (hs : Reachable s) {ops : List (Op X)}
    {rs : List (Except IqdbError Unit)} (hcalls : calls ops s = .ok (rs, t))
    (hretrains : RetrainsOk ops rs) :
    t.items = (s.items.filter fun item => ¬ Removes (journal ops rs) item.id) ++
        survivors Item.id (journal ops rs) ∧
      t.len + removals (journal ops rs) = s.len + puts (journal ops rs) ∧
      (∀ a b before between after,
        journal ops rs = before ++ .inl a :: (between ++ .inl b :: after) → a.id = b.id →
          Removes between a.id) ∧
      ∀ id before between after,
        journal ops rs = before ++ .inr id :: (between ++ .inr id :: after) →
          ∃ a : Item X, Sum.inl a ∈ between ∧ a.id = id := by
  have h := hs.inv
  have hrun := transitions_of_calls h hcalls
  obtain ⟨hadmissible, hitems⟩ := hrun.items_of_journal hretrains
  refine ⟨?_, ?_, ?_, ?_⟩
  · rw [hitems, replay_eq]
  · have hlen := hadmissible.length_replay h.item_ids_nodup
    rw [← hitems, hrun.inv.length_items, h.length_items] at hlen
    exact hlen
  · intro a b before between after heq hid
    rw [heq] at hadmissible
    exact hadmissible.removed_between hid
  · intro id before between after heq
    rw [heq] at hadmissible
    exact hadmissible.put_between

/-- The history with a retraining, a duplicate and a delete, from its journal. -/
theorem flatHistory_journal :
    (flatTrained.after flatHistory).items =
        (flatTrained.items.filter fun item =>
          ¬ Removes (journal flatHistory (flatTrained.results flatHistory)) item.id) ++
        survivors Item.id (journal flatHistory (flatTrained.results flatHistory)) ∧
      (flatTrained.after flatHistory).len +
          removals (journal flatHistory (flatTrained.results flatHistory)) =
        flatTrained.len + puts (journal flatHistory (flatTrained.results flatHistory)) := by
  have hreach : Reachable flatTrained := (Reachable.new flatIndex_new).after _
  have hresults : flatTrained.results flatHistory =
      [.ok (), .ok (), .ok (), .error .duplicate, .ok (), .ok ()] := by decide +kernel
  have hretrains : RetrainsOk flatHistory (flatTrained.results flatHistory) := by
    unfold RetrainsOk
    rw [hresults]
    simp [flatHistory]
  obtain ⟨hitems, hlen, -⟩ := journal_accounts_for_items hreach
    (hreach.inv.calls_results flatHistory) hretrains
  exact ⟨hitems, hlen⟩

end IqdbIvf
