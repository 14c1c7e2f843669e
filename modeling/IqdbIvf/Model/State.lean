import IqdbIvf.Model.Config
import Mathlib.Data.Finmap

/-!
# The state of the index

The types of `src/index.rs`: an entry of an inverted list, and the index itself. A method of the
index is a computation over its state; when it returns an error the changes that it made before the
error stay, as they do behind `&mut self`.
-/

namespace IqdbIvf

variable {F32 : Type}

/-- `InvertedListEntry`. -/
structure InvertedListEntry (X : Crates F32) where
  id : X.VectorId
  vector : List F32
  pq_code : Option X.PqCode
  metadata : Option X.Metadata
  seq : ℕ

/-- `InvertedListEntry::pq_code_or_err`. -/
def InvertedListEntry.pqCodeOrErr {X : Crates F32} (e : InvertedListEntry X) :
    Except IqdbError X.PqCode :=
  match e.pq_code with
  | some code => .ok code
  | none => .error (.invalidConfig
      "IvfIndex entry is missing its PqCode in IVF-PQ mode (index invariant violated)")

/-- `IvfIndex`. -/
structure IvfIndex (X : Crates F32) where
  dim : ℕ
  metric : DistanceMetric
  cfg : IvfConfig
  trained : Bool
  /-- The centroids. -/
  centroids : List (List F32)
  /-- One inverted list per centroid. -/
  inverted_lists : List (List (InvertedListEntry X))
  /-- The cluster that each live id is in. -/
  id_to_cluster : Finmap fun _ : X.VectorId => ℕ
  /-- The next insertion stamp. -/
  next_seq : ℕ
  /-- The number of live vectors. -/
  live_count : ℕ
  /-- The product quantizer of the IVF-PQ variant. -/
  pq : Option X.ProductQuantizer

/-- `Hit`. -/
structure Hit (X : Crates F32) where
  id : X.VectorId
  distance : F32
  metadata : Option X.Metadata

/-- `SearchParams`: `k` is a `usize`. -/
structure SearchParams (X : Crates F32) where
  k : UInt64
  metric : DistanceMetric
  filter : Option X.Filter

/-- A method of the index on `&mut self`. -/
abbrev Method (X : Crates F32) := EStateM Fault (IvfIndex X)

/-- A call of a function that does not change the index. -/
instance {X : Crates F32} : MonadLift Fallible (Method X) :=
  ⟨fun x s => match x with
    | .ok a => .ok a s
    | .error e => .error e s⟩

namespace Method

variable {X : Crates F32} {α β : Type}

/-- Sequencing runs the second method on the state that the first one leaves. -/
theorem bind_of_ok {x : Method X α} {f : α → Method X β} {s s' : IvfIndex X} {a : α}
    (h : x s = .ok a s') : (x >>= f) s = f a s' := by
  change EStateM.bind x f s = _
  unfold EStateM.bind
  rw [h]

/-- After a fault the second method does not run. -/
theorem bind_of_error {x : Method X α} {f : α → Method X β} {s s' : IvfIndex X} {e : Fault}
    (h : x s = .error e s') : (x >>= f) s = .error e s' := by
  change EStateM.bind x f s = _
  unfold EStateM.bind
  rw [h]

/-- An error leaves the state as it is at that point. -/
@[simp] theorem throw_apply (e : Fault) (s : IvfIndex X) :
    (throw e : Method X α) s = .error e s := rfl

/-- An error ends the method. -/
@[simp] theorem throw_bind (e : Fault) (f : α → Method X β) :
    ((throw e : Method X α) >>= f) = throw e := rfl

/-- Reading the state. -/
@[simp] theorem get_bind (f : IvfIndex X → Method X β) (s : IvfIndex X) :
    ((get : Method X (IvfIndex X)) >>= f) s = f s s := rfl

/-- Writing the state. -/
@[simp] theorem set_apply (s s' : IvfIndex X) : (set s' : Method X PUnit) s = .ok () s' := rfl

/-- Writing the state, followed by the rest of the method. -/
@[simp] theorem set_bind (s s' : IvfIndex X) (f : PUnit → Method X β) :
    ((set s' : Method X PUnit) >>= f) s = f () s' := rfl

/-- Changing the state. -/
@[simp] theorem modify_apply (g : IvfIndex X → IvfIndex X) (s : IvfIndex X) :
    (modify g : Method X PUnit) s = .ok () (g s) := rfl

/-- Changing the state, followed by the rest of the method. -/
@[simp] theorem modify_bind (g : IvfIndex X → IvfIndex X) (s : IvfIndex X)
    (f : PUnit → Method X β) : ((modify g : Method X PUnit) >>= f) s = f () (g s) := rfl

/-! A called function that returns leaves the state as it is; its error is the caller's. -/

/-- A checked operation that does not panic. -/
@[simp] theorem liftM_checked_ok (a : α) :
    (liftM (Except.ok a : Checked α) : Method X α) = pure a := rfl

/-- A call without access to the index that returns `Ok`. -/
@[simp] theorem liftM_result_ok (a : α) :
    (liftM (Except.ok a : Except IqdbError α) : Method X α) = pure a := rfl

/-- A call without access to the index that returns an error. -/
@[simp] theorem liftM_result_error (e : IqdbError) :
    (liftM (Except.error e : Except IqdbError α) : Method X α) = throw (.err e) := rfl

/-- A computation that returns `Ok`. -/
@[simp] theorem liftM_fallible_ok (a : α) :
    (liftM (Except.ok a : Fallible α) : Method X α) = pure a := rfl

/-- A computation that fails. -/
@[simp] theorem liftM_fallible_error (e : Fault) :
    (liftM (Except.error e : Fallible α) : Method X α) = throw e := rfl

end Method

end IqdbIvf
