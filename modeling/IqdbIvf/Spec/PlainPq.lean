import IqdbIvf.Spec.FirstTraining

/-!
# What the training stages are run on

In plain PQ the codebooks are trained on the working set of the centroids. The calls are run with a
record of the lists that k-means and the quantizer are handed: each stage is run through `recorded`,
which records the list that it hands on, and a call with the record is the call of the model next to
its stages (`callLogged_eq`). `retrain` hands both stages the same list. `train` hands k-means a
working set that it draws inside and the quantizer the sample itself, which are the same list only
when the cap does not cut the sample (`plain_pq_iff`).
-/

set_option linter.unusedSectionVars false

namespace IqdbIvf

open Outcome Buckets Rational

variable {F32 : Type} [Arith F32] {X : Crates F32} {s t : IvfIndex X}

/-- A training stage, with the list that it is run on. -/
inductive Stage (F32 : Type) where
  /-- k-means++ and Lloyd. -/
  | kmeans (working_set : List (List F32))
  /-- `ProductQuantizer::train`. -/
  | codebooks (sample : List (List F32))

/-- A method with a record of its training stages. -/
abbrev Logged (X : Crates F32) := EStateM Fault (IvfIndex X × List (Stage F32))

/-- A part of the method without training stages. -/
instance : MonadLift (Method X) (Logged X) :=
  ⟨fun m u => match m u.1 with
    | .ok a t => .ok a (t, u.2)
    | .error e t => .error e (t, u.2)⟩

/-- Runs a stage on a list of vectors, and records the list. -/
def recorded {α : Type} (stage : List (List F32) → Stage F32) (run : List (List F32) → Fallible α)
    (vectors : List (List F32)) : Logged X α := do
  modify fun u => (u.1, u.2 ++ [stage vectors])
  run vectors

/-- The part of `train_kmeans` that runs on the working set. -/
def kmeansStage (dim n_clusters : ℕ) (rng : SplitMix64) (working_set : List (List F32)) :
    Fallible (List (List F32)) := do
  let (centroids, _) ← kmeansPlusPlus dim n_clusters working_set rng
  lloyd centroids working_set dim

/-- `train_kmeans`, with the record. -/
def trainKmeansLogged (dim n_clusters : ℕ) (seed : UInt64) (sample : List (List F32))
    (training_sample_size : ℕ) : Logged X (List (List F32)) := do
  trainPrechecks dim n_clusters sample
  let rng := SplitMix64.new seed
  let target_len := min training_sample_size sample.length
  let (working_set, rng) ← subsampleRefs sample target_len rng
  recorded .kmeans (kmeansStage dim n_clusters rng) working_set

/-- `train_pq`, with the record. -/
def trainPqLogged (X : Crates F32) (cfg : IvfConfig) (sample : List (List F32)) :
    Logged X X.ProductQuantizer :=
  recorded .codebooks (fun sample => trainPq X cfg sample) sample

namespace IvfIndex

/-- `IvfIndex::train`, with the record. -/
def trainLogged (sample : Slice (List F32)) : Logged X Unit := do
  let s ← (get : Method X (IvfIndex X))
  if s.trained then
    (throw (.err (.invalidConfig
      "IvfIndex is already trained; use retrain() to rebuild centroids")) : Method X Unit)
  else
    let centroids ← trainKmeansLogged s.dim s.cfg.n_clusters s.cfg.seed sample.1
      s.cfg.training_sample_size
    debugAssert (centroids.length == s.cfg.n_clusters)
    (modify fun s => { s with centroids := centroids } : Method X Unit)
    if s.cfg.use_pq then
      let pq ← trainPqLogged X s.cfg sample.1
      (modify fun s => { s with pq := some pq } : Method X Unit)
    (modify fun s => { s with trained := true } : Method X Unit)

/-- `IvfIndex::retrain`, with the record. -/
def retrainLogged : Logged X Unit := do
  let s ← (get : Method X (IvfIndex X))
  if !s.trained then
    (throw (.err (.invalidConfig "IvfIndex must be trained before retrain()")) : Method X Unit)
  else if s.live_count = 0 then
    return
  else
    let snapshot := s.inverted_lists.flatten
    let drained := s.inverted_lists.map fun _ => []
    (set { s with inverted_lists := drained } : Method X Unit)
    debugAssert (drained.all List.isEmpty)
    (modify fun s => { s with id_to_cluster := ∅, live_count := 0 } : Method X Unit)
    let snapshot := sortBySeq snapshot
    let all_refs := snapshot.map (·.vector)
    let target_len := min s.cfg.training_sample_size all_refs.length
    let (capped, _) ← subsampleRefs all_refs target_len (SplitMix64.new s.cfg.seed)
    let centroids ← trainKmeansLogged s.dim s.cfg.n_clusters s.cfg.seed capped capped.length
    debugAssert (centroids.length == s.cfg.n_clusters)
    (modify fun s => { s with centroids := centroids } : Method X Unit)
    if s.cfg.use_pq then
      let pq ← trainPqLogged X s.cfg capped
      (modify fun s => { s with pq := some pq } : Method X Unit)
    (snapshot.forM reassign : Method X Unit)

end IvfIndex

/-- The method behind a call, with the record. -/
def Op.logged : Op X → Logged X Unit
  | train sample => IvfIndex.trainLogged sample
  | retrain => IvfIndex.retrainLogged
  | op => op.method

/-- The record that a method leaves, also when it ends with an error. -/
def Logged.stages {α : Type} (x : Logged X α) (u : IvfIndex X × List (Stage F32)) :
    List (Stage F32) :=
  match x u with
  | .ok _ u' => u'.2
  | .error _ u' => u'.2

/-- The training stages of a call. -/
def Op.stages (op : Op X) (s : IvfIndex X) : List (Stage F32) := Logged.stages op.logged (s, [])

/-- One call, with its training stages. -/
def callLogged (op : Op X) (s : IvfIndex X) :
    Checked ((Except IqdbError Unit × IvfIndex X) × List (Stage F32)) :=
  match op.logged (s, []) with
  | .ok a u => .ok ((.ok a, u.1), u.2)
  | .error (.err e) u => .ok ((.error e, u.1), u.2)
  | .error (.panic p) _ => .error p

/-! ## Without the record -/

/-- Without its record `x` is the method `m`. -/
def Erases {α : Type} (x : Logged X α) (m : Method X α) : Prop :=
  ∀ u, match x u with
    | .ok a u' => m u.1 = .ok a u'.1
    | .error e u' => m u.1 = .error e u'.1

section Erases

variable {α β : Type} {x : Logged X α} {m : Method X α}

/-- A part without training stages runs on the index. -/
theorem lift_apply (m : Method X α) (u : IvfIndex X × List (Stage F32)) :
    (liftM m : Logged X α) u = match m u.1 with
      | .ok a t => .ok a (t, u.2)
      | .error e t => .error e (t, u.2) := rfl

/-- A part without training stages is itself. -/
theorem erases_lift (m : Method X α) : Erases (liftM m : Logged X α) m := by
  intro u
  rw [lift_apply]
  cases hm : m u.1 <;> rfl

/-- Sequencing. -/
theorem Erases.bind (hx : Erases x m) {f : α → Logged X β} {g : α → Method X β}
    (hf : ∀ a, Erases (f a) (g a)) : Erases (x >>= f) (m >>= g) := by
  intro u
  have hu := hx u
  show match (EStateM.bind x f u) with
    | .ok a u' => (m >>= g) u.1 = .ok a u'.1
    | .error e u' => (m >>= g) u.1 = .error e u'.1
  unfold EStateM.bind
  cases hrun : x u with
  | ok a u' =>
    rw [hrun] at hu
    rw [Method.bind_of_ok hu]
    exact hf a u'
  | error e u' =>
    rw [hrun] at hu
    exact Method.bind_of_error hu

/-- Recording a stage does nothing else. -/
theorem erases_recorded (stage : List (List F32) → Stage F32) (run : List (List F32) → Fallible α)
    (vectors : List (List F32)) :
    Erases (X := X) (recorded stage run vectors) (liftM (run vectors)) :=
  fun u => erases_lift (liftM (run vectors)) (u.1, u.2 ++ [stage vectors])

end Erases

/-- A called computation hands its result on. -/
theorem liftM_fallible_bind {α β : Type} (x : Fallible α) (f : α → Fallible β) :
    (liftM (x >>= f) : Method X β) = (liftM x : Method X α) >>= fun a => liftM (f a) := by
  cases x with
  | ok a => rfl
  | error e => rfl

/-- `train_kmeans` without the record. -/
theorem trainKmeansLogged_erases (dim n_clusters : ℕ) (seed : UInt64) (sample : List (List F32))
    (training_sample_size : ℕ) :
    Erases (X := X) (trainKmeansLogged dim n_clusters seed sample training_sample_size)
      (liftM (trainKmeans dim n_clusters seed sample training_sample_size)) := by
  unfold trainKmeansLogged trainKmeans
  simp only [liftM_fallible_bind]
  refine (erases_lift _).bind fun _ => (erases_lift _).bind fun ws => ?_
  rw [← liftM_fallible_bind]
  exact erases_recorded _ (kmeansStage dim n_clusters ws.2) ws.1

/-- `train_pq` without the record. -/
theorem trainPqLogged_erases (cfg : IvfConfig) (sample : List (List F32)) :
    Erases (trainPqLogged X cfg sample) (liftM (trainPq X cfg sample)) :=
  erases_recorded _ _ sample

/-- `train` without the record. -/
theorem trainLogged_erases (sample : Slice (List F32)) :
    Erases (X := X) (IvfIndex.trainLogged sample) (IvfIndex.train sample) := by
  unfold IvfIndex.trainLogged IvfIndex.train
  refine (erases_lift _).bind fun s => ?_
  split_ifs with htrained huse
  · exact erases_lift _
  · refine (trainKmeansLogged_erases _ _ _ _ _).bind fun cs => (erases_lift _).bind fun _ =>
      (erases_lift _).bind fun _ => ?_
    exact (trainPqLogged_erases _ _).bind fun pq => (erases_lift _).bind fun _ => erases_lift _
  · refine (trainKmeansLogged_erases _ _ _ _ _).bind fun cs => (erases_lift _).bind fun _ =>
      (erases_lift _).bind fun _ => ?_
    exact erases_lift _

/-- `retrain` without the record. -/
theorem retrainLogged_erases : Erases (X := X) IvfIndex.retrainLogged IvfIndex.retrain := by
  unfold IvfIndex.retrainLogged IvfIndex.retrain
  refine (erases_lift _).bind fun s => ?_
  split_ifs with htrained hlive huse
  · exact erases_lift _
  · exact erases_lift (pure ())
  · refine (erases_lift _).bind fun _ => (erases_lift _).bind fun _ => (erases_lift _).bind fun _ =>
      (erases_lift _).bind fun capped => ?_
    refine (trainKmeansLogged_erases _ _ _ _ _).bind fun cs => (erases_lift _).bind fun _ =>
      (erases_lift _).bind fun _ => ?_
    exact (trainPqLogged_erases _ _).bind fun pq => (erases_lift _).bind fun _ => erases_lift _
  · refine (erases_lift _).bind fun _ => (erases_lift _).bind fun _ => (erases_lift _).bind fun _ =>
      (erases_lift _).bind fun capped => ?_
    refine (trainKmeansLogged_erases _ _ _ _ _).bind fun cs => (erases_lift _).bind fun _ =>
      (erases_lift _).bind fun _ => ?_
    exact erases_lift _

/-- Without the record a call is the call of the model. -/
theorem Op.logged_erases (op : Op X) : Erases op.logged op.method := by
  cases op with
  | train sample => exact trainLogged_erases sample
  | retrain => exact retrainLogged_erases
  | _ => exact erases_lift _

/-- A call with the record is the call of the model, next to its stages. -/
theorem callLogged_eq (op : Op X) (s : IvfIndex X) :
    callLogged op s = (call op s).map fun out => (out, op.stages s) := by
  have herases := op.logged_erases (s, [])
  unfold callLogged call Method.run Op.stages Logged.stages
  cases hrun : op.logged (s, []) with
  | ok a u =>
    rw [hrun] at herases
    rw [herases]
    rfl
  | error e u =>
    rw [hrun] at herases
    rw [herases]
    cases e <;> rfl

/-! ## The record -/

section Stages

variable {α β : Type} {x : Logged X α} {f : α → Logged X β} {u : IvfIndex X × List (Stage F32)}

/-- The record of a sequence whose first part returns. -/
theorem Logged.stages_bind_of_ok {a : α} {u' : IvfIndex X × List (Stage F32)}
    (h : x u = .ok a u') : Logged.stages (x >>= f) u = Logged.stages (f a) u' := by
  have hbind : (x >>= f) u = f a u' := by
    change EStateM.bind x f u = _
    unfold EStateM.bind
    rw [h]
  unfold Logged.stages
  rw [hbind]

/-- The record of a sequence whose first part fails. -/
theorem Logged.stages_bind_of_error {e : Fault} {u' : IvfIndex X × List (Stage F32)}
    (h : x u = .error e u') : Logged.stages (x >>= f) u = u'.2 := by
  have hbind : (x >>= f) u = .error e u' := by
    change EStateM.bind x f u = _
    unfold EStateM.bind
    rw [h]
  unfold Logged.stages
  rw [hbind]

/-- A part without training stages leaves the record alone. -/
theorem stages_lift (m : Method X α) : Logged.stages (liftM m) u = u.2 := by
  unfold Logged.stages
  rw [lift_apply]
  cases m u.1 <;> rfl

/-- The record behind a read of the index. -/
theorem stages_get_bind (f : IvfIndex X → Logged X β) :
    Logged.stages ((liftM (get : Method X (IvfIndex X)) : Logged X _) >>= f) u =
      Logged.stages (f u.1) u := rfl

/-- The record behind a write of the index. -/
theorem stages_set_bind (s' : IvfIndex X) (f : PUnit → Logged X β) :
    Logged.stages ((liftM (set s' : Method X PUnit) : Logged X _) >>= f) u =
      Logged.stages (f ()) (s', u.2) := rfl

/-- The record behind a change of the index. -/
theorem stages_modify_bind (g : IvfIndex X → IvfIndex X) (f : PUnit → Logged X β) :
    Logged.stages ((liftM (modify g : Method X PUnit) : Logged X _) >>= f) u =
      Logged.stages (f ()) (g u.1, u.2) := rfl

/-- The record behind a checked operation that does not panic. -/
theorem stages_checked_bind (a : α) :
    Logged.stages ((liftM (.ok a : Checked α) : Logged X α) >>= f) u = Logged.stages (f a) u := rfl

/-- Parts without training stages, one after the other. -/
theorem lift_bind (m : Method X α) (g : α → Method X β) :
    ((liftM m : Logged X α) >>= fun a => liftM (g a)) = (liftM (m >>= g) : Logged X β) := by
  funext u
  change EStateM.bind _ _ u = _
  unfold EStateM.bind
  rw [lift_apply, lift_apply]
  cases hrun : m u.1 with
  | ok a t =>
    rw [Method.bind_of_ok hrun]
    exact lift_apply (g a) (t, u.2)
  | error e t => rw [Method.bind_of_error hrun]

/-- The record of a stage, in front of the record of the rest. -/
theorem stages_recorded_bind (stage : List (List F32) → Stage F32)
    (run : List (List F32) → Fallible α) (vectors : List (List F32)) (f : α → Logged X β) :
    Logged.stages (recorded stage run vectors >>= f) u =
      Logged.stages (liftM (run vectors) >>= f) (u.1, u.2 ++ [stage vectors]) := rfl

end Stages

/-- The quantizer stage, with the record. -/
theorem stages_codebooks (cfg : IvfConfig) (sample : List (List F32)) (rest : Method X Unit)
    (u : IvfIndex X × List (Stage F32)) :
    Logged.stages (do
      if cfg.use_pq then
        let pq ← trainPqLogged X cfg sample
        (modify fun s => { s with pq := some pq } : Method X Unit)
      rest) u = u.2 ++ if cfg.use_pq then [.codebooks sample] else [] := by
  cases cfg.use_pq with
  | false =>
    simp only [Bool.false_eq_true, if_false, List.append_nil]
    exact stages_lift rest
  | true =>
    simp only [if_true]
    unfold trainPqLogged
    rw [stages_recorded_bind]
    -- No stage follows the training of the codebooks.
    have hrest := stages_lift (u := (u.1, u.2 ++ [.codebooks sample]))
      ((liftM (trainPq X cfg sample) : Method X X.ProductQuantizer) >>= fun pq =>
        (modify fun s => { s with pq := some pq }) >>= fun _ => rest)
    simp only [← lift_bind] at hrest
    exact hrest

/-- A stage that returns. -/
theorem recorded_of_ok {α : Type} {stage : List (List F32) → Stage F32}
    {run : List (List F32) → Fallible α} {vectors : List (List F32)} {a : α}
    (h : run vectors = .ok a) (u : IvfIndex X × List (Stage F32)) :
    recorded stage run vectors u = .ok a (u.1, u.2 ++ [stage vectors]) := by
  unfold recorded
  rw [h]
  rfl

/-- k-means with the record, on a sample that its pre-checks refuse. -/
theorem trainKmeansLogged_of_error {dim n_clusters cap : ℕ} {seed : UInt64}
    {sample : List (List F32)} {e : IqdbError}
    (hpre : trainPrechecks dim n_clusters sample = .error e)
    (u : IvfIndex X × List (Stage F32)) :
    trainKmeansLogged dim n_clusters seed sample cap u = .error (.err e) u := by
  unfold trainKmeansLogged
  rw [hpre]
  rfl

/-- k-means with the record, on a sample that its pre-checks take. -/
theorem trainKmeansLogged_of_ok {dim n_clusters cap : ℕ} {seed : UInt64}
    {sample ws cs : List (List F32)} {rng : SplitMix64}
    (hpre : trainPrechecks dim n_clusters sample = .ok ())
    (hsub : subsampleRefs sample (min cap sample.length) (.new seed) = .ok (ws, rng))
    (hcs : trainKmeans dim n_clusters seed sample cap = .ok cs)
    (u : IvfIndex X × List (Stage F32)) :
    trainKmeansLogged dim n_clusters seed sample cap u = .ok cs (u.1, u.2 ++ [.kmeans ws]) := by
  unfold trainKmeans at hcs
  unfold trainKmeansLogged
  rw [hpre] at hcs ⊢
  dsimp only at hcs ⊢
  rw [hsub] at hcs ⊢
  have hstage : kmeansStage dim n_clusters rng ws = .ok cs := hcs
  exact recorded_of_ok hstage u

/-- Storing a model of the right shape, with the record. -/
theorem stages_model {cs : List (List F32)} (hlen : cs.length = s.cfg.n_clusters) (cfg : IvfConfig)
    (sample : List (List F32)) (rest : Method X Unit) (u : IvfIndex X × List (Stage F32)) :
    Logged.stages (do
      debugAssert (cs.length == s.cfg.n_clusters)
      (modify fun s => { s with centroids := cs } : Method X Unit)
      if cfg.use_pq then
        let pq ← trainPqLogged X cfg sample
        (modify fun s => { s with pq := some pq } : Method X Unit)
      rest : Logged X Unit) u = u.2 ++ if cfg.use_pq then [.codebooks sample] else [] := by
  rw [hlen, beq_self_eq_true, debugAssert_true]
  exact stages_codebooks cfg sample rest ({ u.1 with centroids := cs }, u.2)

/-- The training stages of a model. -/
def IvfIndex.modelStages (s : IvfIndex X) (working_set sample : List (List F32)) :
    List (Stage F32) :=
  .kmeans working_set :: if s.cfg.use_pq then [.codebooks sample] else []

/-- The working set of a training: its size, and that it consists of vectors of the sample. -/
theorem Inv.exists_workingSet (sample : Slice (List F32)) (cfg : IvfConfig) :
    ∃ rng, subsampleRefs sample.1 (min cfg.training_sample_size sample.1.length) (.new cfg.seed) =
      .ok (workingSet cfg sample.1, rng) ∧
      (workingSet cfg sample.1).length = min cfg.training_sample_size sample.1.length := by
  obtain ⟨r, hr, hlen, -⟩ := returns_iff.1 (subsampleRefs_returns sample.2
    (min cfg.training_sample_size sample.1.length) (.new cfg.seed))
  have hws : workingSet cfg sample.1 = r.1 := by
    unfold workingSet
    rw [hr]
  rw [hws]
  exact ⟨r.2, hr, by omega⟩

/-- The stages of a first training whose sample k-means takes. -/
theorem Inv.stages_train (h : Inv s) (htrained : s.trained = false) {sample : Slice (List F32)}
    (htakes : s.KmeansTakes sample.1) :
    (Op.train sample).stages s = s.modelStages (workingSet s.cfg sample.1) sample.1 := by
  have hpre := trainPrechecks_eq_ok_iff.2 htakes
  obtain ⟨rng, hsub, -⟩ := Inv.exists_workingSet sample s.cfg
  obtain ⟨cs, hok, hcs⟩ := returns_iff.1 (trainKmeans_returns h.valid.one_le_n_clusters s.cfg.seed
    sample.2 h.valid.one_le_sample hpre)
  have hrun := trainKmeansLogged_of_ok hpre hsub hok (s, [])
  unfold Op.stages Op.logged IvfIndex.trainLogged
  rw [stages_get_bind, htrained, if_neg Bool.false_ne_true, Logged.stages_bind_of_ok hrun]
  exact stages_model hcs.length_eq s.cfg sample.1 _ _

/-- A training that is refused has no stages. -/
theorem stages_train_of_refused {sample : Slice (List F32)}
    (h : s.trained = false → ¬ s.KmeansTakes sample.1) : (Op.train sample).stages s = [] := by
  unfold Op.stages Op.logged IvfIndex.trainLogged
  rw [stages_get_bind]
  cases htrained : s.trained with
  | true => exact stages_lift _
  | false =>
    rw [if_neg Bool.false_ne_true]
    cases hpre : trainPrechecks s.dim s.cfg.n_clusters sample.1 with
    | error e =>
      rw [Logged.stages_bind_of_error (trainKmeansLogged_of_error hpre _)]
    | ok u => exact absurd (trainPrechecks_eq_ok_iff.1 hpre) (h htrained)

/-- The stages of a retraining: none, or k-means and the quantizer on one list. -/
theorem Inv.stages_retrain (h : Inv s) :
    (Op.retrain : Op X).stages s = [] ∨
      (Op.retrain : Op X).stages s = s.modelStages s.sample s.sample := by
  unfold Op.stages Op.logged IvfIndex.retrainLogged
  rw [stages_get_bind]
  cases htrained : s.trained with
  | false => exact .inl (stages_lift _)
  | true =>
    by_cases hlive : s.live_count = 0
    · left
      rw [Bool.not_true, if_neg Bool.false_ne_true, if_pos hlive]
      rfl
    obtain ⟨rng, hsub, -, -⟩ := h.exists_subsample
    have hempty : ((s.inverted_lists.map fun _ => ([] : List (InvertedListEntry X))).all
        List.isEmpty) = true := by simp
    have hflatten : IvfIndex.sortBySeq s.inverted_lists.flatten = s.live := rfl
    rw [Bool.not_true, if_neg Bool.false_ne_true, if_neg hlive]
    -- Up to k-means the lists are emptied, and k-means draws the whole list that it is handed.
    simp only [stages_set_bind, hempty, debugAssert_true, stages_checked_bind, stages_modify_bind,
      hflatten, hsub]
    have hwhole := subsampleRefs_of_le (SplitMix64.new s.cfg.seed)
      (Nat.le_of_eq (Nat.min_self s.sample.length).symm)
    rcases h.recluster_cases with ⟨e, hpre, -⟩ | ⟨hpre, cs, hok, hcs⟩
    · left
      rw [Logged.stages_bind_of_error (trainKmeansLogged_of_error hpre _)]
    · right
      rw [Logged.stages_bind_of_ok (trainKmeansLogged_of_ok hpre hwhole hok _)]
      exact stages_model hcs.length_eq s.cfg s.sample _ _

/-! ## Plain PQ -/

/-- Whatever list the quantizer is handed in the call, it is the one working set of k-means in this
call, and the cap bounds its length. -/
def Op.PlainPq (op : Op X) (s : IvfIndex X) : Prop :=
  ∀ sample, .codebooks sample ∈ op.stages s →
    op.stages s = [.kmeans sample, .codebooks sample] ∧
      sample.length ≤ s.cfg.training_sample_size

/-- The stages of a model in IVF-PQ mode. -/
theorem modelStages_of_usePq (huse : s.cfg.use_pq = true) (ws sample : List (List F32)) :
    s.modelStages ws sample = [.kmeans ws, .codebooks sample] := by
  unfold IvfIndex.modelStages
  rw [huse]
  rfl

/-- The list that the quantizer is handed in the stages of a model. -/
theorem mem_modelStages {ws sample L : List (List F32)}
    (h : .codebooks L ∈ s.modelStages ws sample) : s.cfg.use_pq = true ∧ L = sample := by
  have huse : s.cfg.use_pq = true := by
    by_contra hfalse
    unfold IvfIndex.modelStages at h
    rw [if_neg hfalse] at h
    simp at h
  rw [modelStages_of_usePq huse] at h
  exact ⟨huse, by simpa using h⟩

/-- A sample within the cap is its own working set. -/
theorem workingSet_of_le {cfg : IvfConfig} {sample : List (List F32)}
    (h : sample.length ≤ cfg.training_sample_size) : workingSet cfg sample = sample := by
  unfold workingSet
  rw [subsampleRefs_of_le _ (by omega)]

/-- The stages of a call are those of the model's call, and a call of a reachable index is plain PQ
if and only if it is not a first training in IVF-PQ mode whose sample k-means takes and the cap
cuts. -/
theorem plain_pq_iff (hs : Reachable s) (op : Op X) :
    (callLogged op s = (call op s).map fun out => (out, op.stages s)) ∧
    (op.PlainPq s ↔ ∀ sample, op = .train sample → s.trained = false → s.cfg.use_pq = true →
      s.KmeansTakes sample.1 → sample.1.length ≤ s.cfg.training_sample_size) := by
  have h := hs.inv
  refine ⟨callLogged_eq op s, ?_⟩
  constructor
  · rintro hplain sample rfl htrained huse htakes
    have hmem : .codebooks sample.1 ∈ (Op.train sample).stages s := by
      rw [h.stages_train htrained htakes, modelStages_of_usePq huse]
      simp
    exact (hplain sample.1 hmem).2
  · intro hcap L hL
    cases op with
    | train sample =>
      by_cases htakes : s.trained = false ∧ s.KmeansTakes sample.1
      · rw [h.stages_train htakes.1 htakes.2] at hL ⊢
        obtain ⟨huse, rfl⟩ := mem_modelStages hL
        have hle := hcap sample rfl htakes.1 huse htakes.2
        rw [modelStages_of_usePq huse, workingSet_of_le hle]
        exact ⟨rfl, hle⟩
      · rw [stages_train_of_refused fun htrained htakes' => htakes ⟨htrained, htakes'⟩] at hL
        cases hL
    | retrain =>
      rcases h.stages_retrain with hnil | hstages
      · rw [hnil] at hL
        cases hL
      · rw [hstages] at hL ⊢
        obtain ⟨huse, rfl⟩ := mem_modelStages hL
        rw [modelStages_of_usePq huse]
        refine ⟨rfl, ?_⟩
        rw [h.length_sample]
        exact Nat.min_le_left _ _
    | insert id v m => exact absurd hL (by simp [Op.stages, Op.logged, stages_lift])
    | delete id => exact absurd hL (by simp [Op.stages, Op.logged, stages_lift])
    | setNProbes n => exact absurd hL (by simp [Op.stages, Op.logged, stages_lift])
    | setPqRefineFactor factor => exact absurd hL (by simp [Op.stages, Op.logged, stages_lift])

/-- The number of the vectors that the quantizer needs. -/
theorem length_zeroVectors : zeroVectors.1.length = 256 := List.length_replicate

/-- A new IVF-PQ index of dimension `1` with one cluster hands the quantizer all of them. -/
theorem zeroVectors_codebooks {s : IvfIndex crates} (h : Inv s) (htrained : s.trained = false)
    (huse : s.cfg.use_pq = true) (hdim : s.dim = 1) (hclusters : s.cfg.n_clusters = 1) :
    .codebooks zeroVectors.1 ∈ (Op.train zeroVectors).stages s := by
  have htakes : s.KmeansTakes zeroVectors.1 := by
    refine ⟨List.cons_ne_nil _ _, fun v hv => ?_, ?_⟩
    · rw [List.eq_of_mem_replicate hv, hdim]
      rfl
    · rw [length_zeroVectors, hclusters]
      exact Nat.one_le_two_pow (n := 8)
  rw [h.stages_train htrained htakes, modelStages_of_usePq huse]
  simp

/-- The IVF-PQ configuration with a cap that does not cut these vectors. -/
def wideConfig : IvfConfig := { pqConfig with training_sample_size := 256 }

/-- An empty index with this configuration. -/
def wideIndex : IvfIndex crates := .fresh crates 1 .manhattan wideConfig

/-- The index is what construction returns. -/
theorem wideIndex_new : IvfIndex.new crates 1 .manhattan wideConfig = .ok wideIndex := by
  have hvalid : wideConfig.Valid := (IvfConfig.validate_eq_ok _).1 rfl
  exact IvfIndex.new_eq_ok.2 ⟨Nat.one_pos, hvalid, rfl, rfl⟩

/-- With a cap of 256 vectors the quantizer is handed the 256 vectors that k-means runs on. -/
theorem wideIndex_plain_pq :
    .codebooks zeroVectors.1 ∈ (Op.train zeroVectors).stages wideIndex ∧
      (Op.train zeroVectors).PlainPq wideIndex := by
  have hreach := Reachable.new wideIndex_new
  refine ⟨zeroVectors_codebooks hreach.inv rfl rfl rfl rfl, (plain_pq_iff hreach _).2.2 ?_⟩
  intro sample hsample _ _ _
  obtain rfl := Op.train.inj hsample
  exact length_zeroVectors.le

/-- With a cap of one vector k-means runs on one vector, and the quantizer is handed 256. -/
theorem train_hands_whole_sample :
    Reachable pqIndex ∧ ¬ (Op.train zeroVectors).PlainPq pqIndex := by
  have hreach := Reachable.new pqIndex_new
  refine ⟨hreach, fun hplain => ?_⟩
  have hmem := zeroVectors_codebooks hreach.inv rfl rfl rfl rfl
  have hle : zeroVectors.1.length ≤ 1 := (hplain zeroVectors.1 hmem).2
  rw [length_zeroVectors] at hle
  exact absurd hle (by decide)

end IqdbIvf
