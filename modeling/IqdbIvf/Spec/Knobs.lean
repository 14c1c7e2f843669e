import IqdbIvf.Spec.Outcomes

/-!
# The search knobs

`set_n_probes` and `set_pq_refine_factor` are the two knobs that can be turned on a live index.
Nothing but a search reads them: leaving their calls out of a history changes no result of another
call and nothing in the state but the two fields themselves (`knobs_do_not_interfere`).
-/

set_option linter.unusedSectionVars false

namespace IqdbIvf

open Outcome Rational

variable {F32 : Type} [Arith F32] {X : Crates F32} {s t : IvfIndex X}

/-! ## The calls as a machine -/

/-- What a call returns and leaves, from a state in which it does not panic. -/
def IvfIndex.respond (s : IvfIndex X) (op : Op X) : Except IqdbError Unit × IvfIndex X :=
  match call op s with
  | .ok r => r
  | .error _ => (.ok (), s)

/-- A call returns and leaves what the machine does. -/
theorem Inv.call_respond (h : Inv s) (op : Op X) :
    call op s = .ok (s.respond op) ∧ Transition s op (s.respond op).1 (s.respond op).2 := by
  obtain ⟨r, t, hcall, htransition⟩ := call_transition h op
  have heq : s.respond op = (r, t) := by
    unfold IvfIndex.respond
    rw [hcall]
  rw [heq]
  exact ⟨hcall, htransition⟩

/-- The state after a call keeps the invariant. -/
theorem Inv.respond (h : Inv s) (op : Op X) : Inv (s.respond op).2 :=
  (h.call_respond op).2.inv h

/-- A history of calls is a run of the machine. -/
theorem Inv.calls_run (h : Inv s) (ops : List (Op X)) :
    calls ops s = .ok (Machine.run IvfIndex.respond s ops) := by
  induction ops generalizing s with
  | nil => rfl
  | cons op ops ih =>
    rw [calls, (h.call_respond op).1]
    simp only [ok_bind, ih (h.respond op)]
    rfl

/-! ## The knobs -/

/-- The two parameters that can be set on a live index. -/
structure Knobs where
  n_probes : ℕ
  pq_refine_factor : UInt32

/-- The knobs of an index. -/
def IvfIndex.knobs (s : IvfIndex X) : Knobs := ⟨s.cfg.n_probes, s.cfg.pq_refine_factor⟩

/-- The index with other knobs. -/
def IvfIndex.tuned (s : IvfIndex X) (knobs : Knobs) : IvfIndex X :=
  { s with cfg := { s.cfg with
      n_probes := knobs.n_probes, pq_refine_factor := knobs.pq_refine_factor } }

/-- The calls that turn a knob. -/
def Op.turns : Op X → Bool
  | .setNProbes _ => true
  | .setPqRefineFactor _ => true
  | _ => false

/-- The knobs after a call, with `n_clusters` clusters. -/
def Op.turn (n_clusters : ℕ) (knobs : Knobs) : Op X → Knobs
  | .setNProbes n => if 1 ≤ n ∧ n ≤ n_clusters then { knobs with n_probes := n } else knobs
  | .setPqRefineFactor factor => { knobs with pq_refine_factor := factor }
  | _ => knobs

/-- The setter of the number of probes takes the numbers that there are clusters for. -/
theorem Op.turn_setNProbes (n_clusters : ℕ) (knobs : Knobs) (n : ℕ) :
    (Op.setNProbes n : Op X).turn n_clusters knobs =
      if 1 ≤ n ∧ n ≤ n_clusters then { knobs with n_probes := n } else knobs := rfl

/-- An index that is filled again is filled alike under other knobs. -/
theorem IvfIndex.tuned_placeAll (s : IvfIndex X) (knobs : Knobs) (cs : List (List F32))
    (pq : Option X.ProductQuantizer) (es : List (InvertedListEntry X)) :
    ((s.drained cs pq).placeAll es).tuned knobs = ((s.tuned knobs).drained cs pq).placeAll es := by
  rw [IvfIndex.placeAll_eq, IvfIndex.placeAll_eq]
  rfl

/-- A call that turns no knob does the same under other knobs. -/
theorem Transition.tuned {op : Op X} {r : Except IqdbError Unit} (h : Transition s op r t)
    (hop : op.turns = false) (knobs : Knobs) :
    Transition (s.tuned knobs) op r (t.tuned knobs) := by
  cases h with
  | trainTwice sample htrained => exact .trainTwice sample htrained
  | trainKmeansFails sample e htrained hkmeans => exact .trainKmeansFails sample e htrained hkmeans
  | trainPqFails sample cs e htrained hkmeans huse hpq =>
    exact .trainPqFails sample cs e htrained hkmeans huse hpq
  | trained sample cs pq htrained hkmeans hpq => exact .trained sample cs pq htrained hkmeans hpq
  | insertUntrained id v m htrained => exact .insertUntrained id v m htrained
  | insertWrongDim id v m htrained hdim => exact .insertWrongDim id v m htrained hdim
  | insertDuplicate id v m htrained hdim hid => exact .insertDuplicate id v m htrained hdim hid
  | insertOverflow id v m htrained hdim hid hseq =>
    exact .insertOverflow id v m htrained hdim hid hseq
  | insertEncodeFails id v m e htrained hdim hid hseq hcode =>
    exact .insertEncodeFails id v m e htrained hdim hid hseq hcode
  | inserted id v m code htrained hdim hid hseq hcode =>
    exact .inserted id v m code htrained hdim hid hseq hcode
  | deleteAbsent id hid => exact .deleteAbsent id hid
  | deleted e c pos old list hold hpos hlist => exact .deleted e c pos old list hold hpos hlist
  | setNProbesZero => cases hop
  | setNProbesTooMany n hn => cases hop
  | nProbesSet n hpos hn => cases hop
  | pqRefineFactorSet factor => cases hop
  | retrainUntrained htrained => exact .retrainUntrained htrained
  | retrainEmpty htrained hlive => exact .retrainEmpty htrained hlive
  | retrainKmeansFails e htrained hlive hkmeans =>
    exact .retrainKmeansFails e htrained hlive hkmeans
  | retrainPqFails cs e htrained hlive hkmeans huse hpq =>
    exact .retrainPqFails cs e htrained hlive hkmeans huse hpq
  | retrainEncodeFails cs pq done rest entry e htrained hlive hkmeans hpq hsplit hdone hcode =>
    rw [IvfIndex.tuned_placeAll]
    exact .retrainEncodeFails cs pq done rest entry e htrained hlive hkmeans hpq hsplit hdone hcode
  | retrained cs pq htrained hlive hkmeans hpq hcode =>
    rw [IvfIndex.tuned_placeAll]
    exact .retrained cs pq htrained hlive hkmeans hpq hcode

/-- A call that turns a knob changes nothing else. -/
theorem Transition.turned {op : Op X} {r : Except IqdbError Unit} (h : Transition s op r t)
    (hop : op.turns = true) : t = s.tuned t.knobs := by
  cases h with
  | setNProbesZero => rfl
  | setNProbesTooMany => rfl
  | nProbesSet => rfl
  | pqRefineFactorSet => rfl
  | _ => cases hop

/-- The knobs after a call. -/
theorem Transition.knobs {op : Op X} {r : Except IqdbError Unit} (h : Transition s op r t) :
    t.knobs = op.turn s.cfg.n_clusters s.knobs := by
  have hplace : ∀ cs pq (es : List (InvertedListEntry X)),
      ((s.drained cs pq).placeAll es).knobs = s.knobs := by
    intro cs pq es
    rw [IvfIndex.placeAll_eq]
    rfl
  cases h with
  | setNProbesZero => rw [Op.turn_setNProbes, if_neg (by omega)]
  | setNProbesTooMany n hn => rw [Op.turn_setNProbes, if_neg (by omega)]
  | nProbesSet n hpos hn =>
    rw [Op.turn_setNProbes, if_pos ⟨hpos, hn⟩]
    rfl
  | retrainEncodeFails cs pq done => exact hplace cs pq done
  | retrained cs pq => exact hplace cs pq s.live
  | _ => rfl

/-- The knobs after a sequence of transitions. -/
theorem Transitions.knobs {ops : List (Op X)} {rs : List (Except IqdbError Unit)}
    (h : Transitions s ops rs t) : t.knobs = ops.foldl (Op.turn s.cfg.n_clusters) s.knobs := by
  induction h with
  | nil => rfl
  | cons _ htransition _ ih =>
    rw [ih, List.foldl_cons, htransition.knobs, htransition.frame.cfg.n_clusters]

/-- The calls that turn a knob do not interfere with the others: a history without them returns the
same results, and ends in the same state up to the two knobs, which are where the calls that turn
them have left them. -/
theorem knobs_do_not_interfere (hs : Reachable s) (ops : List (Op X)) :
    ∃ rs rs' t, calls ops s = .ok (rs, t.tuned (ops.foldl (Op.turn s.cfg.n_clusters) s.knobs)) ∧
      calls (ops.filter fun op => !op.turns) s = .ok (rs', t) ∧
      rs' = ((ops.zip rs).filter fun p => !p.1.turns).map Prod.snd := by
  have h := hs.inv
  -- The two runs stay equal up to the knobs.
  let R : IvfIndex X → IvfIndex X → Prop := fun s t => Inv s ∧ Inv t ∧ s = t.tuned s.knobs
  let keep : Op X → Except IqdbError Unit → Bool := fun op _ => !op.turns
  have hkeep : ∀ s t op, R s t → keep op (s.respond op).1 = true →
      (t.respond op).1 = (s.respond op).1 ∧ R (s.respond op).2 (t.respond op).2 := by
    rintro s t op ⟨hs, ht, heq⟩ hop
    have hturns : op.turns = false := by simpa [keep] using hop
    obtain ⟨-, hstep⟩ := ht.call_respond op
    have htuned := hstep.tuned hturns s.knobs
    rw [← heq] at htuned
    obtain ⟨hcall, hstep'⟩ := hs.call_respond op
    obtain ⟨hr, hnext⟩ := htuned.unique hstep' hs
    refine ⟨hr, hs.respond op, ht.respond op, ?_⟩
    rw [← hnext]
    rfl
  have hdrop : ∀ s t op, R s t → keep op (s.respond op).1 = false → R (s.respond op).2 t := by
    rintro s t op ⟨hs, ht, heq⟩ hop
    have hturns : op.turns = true := by simpa [keep] using hop
    obtain ⟨-, hstep⟩ := hs.call_respond op
    refine ⟨hs.respond op, ht, ?_⟩
    rw [hstep.turned hturns, heq]
    rfl
  have hstart : R s s := ⟨h, h, rfl⟩
  obtain ⟨hanswers, -, -, hlast⟩ := Machine.run_kept hkeep hdrop hstart ops
  rw [Machine.map_fst_kept _ (Machine.length_run _ _ _)] at hanswers hlast
  have hcalls := h.calls_run ops
  have hknobs := (transitions_of_calls h hcalls).knobs
  refine ⟨_, _, _, ?_, h.calls_run (ops.filter fun op => !op.turns), hanswers⟩
  rw [← hknobs, ← hlast]
  exact hcalls

/-- A history that turns both knobs, and asks for more probes than there are clusters. -/
def tuningCalls : List (Op crates) := [.setNProbes 1, .insert 6 [1] none, .setNProbes 5,
  .setPqRefineFactor 9, .insert 6 [2] none, .retrain, .delete 3]

/-- The history with and without the calls that turn the knobs. -/
theorem tuningCalls_do_not_interfere :
    ∃ rs rs' t, calls tuningCalls flatState =
        .ok (rs, t.tuned (tuningCalls.foldl (Op.turn flatState.cfg.n_clusters) flatState.knobs)) ∧
      calls (tuningCalls.filter fun op => !op.turns) flatState = .ok (rs', t) ∧
      rs' = ((tuningCalls.zip rs).filter fun p => !p.1.turns).map Prod.snd :=
  knobs_do_not_interfere flatState_reachable tuningCalls

end IqdbIvf
