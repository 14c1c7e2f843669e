import IqdbIvf.Lib.Outcome
import IqdbIvf.Model.Arith

/-!
# The shared vocabulary and the crates behind it

`iqdb-types`, `iqdb-distance`, `iqdb-filter` and `iqdb-quantize` are not part of this repository.
Their types and functions are the fields of `Crates`, and a result that relies on what one of them
does says so in a hypothesis. A function of these crates may fail but does not panic. The errors and
the metrics are the ones that this crate names.
-/

namespace IqdbIvf

/-- `iqdb_types::IqdbError`. `other` stands for the errors that only the other crates raise. -/
inductive IqdbError where
  | invalidConfig (reason : String)
  | dimensionMismatch (expected found : ℕ)
  | invalidMetric
  | invalidFilter (reason : String)
  | duplicate
  | notFound
  | other (reason : String)
  deriving DecidableEq, Repr

/-- `iqdb_types::DistanceMetric`. -/
inductive DistanceMetric where
  | cosine
  | euclidean
  | dotProduct
  | manhattan
  | hamming
  deriving DecidableEq, Repr

/-- The types and functions that the index takes from the other crates of its family. -/
structure Crates (F32 : Type) where
  /-- `iqdb_types::VectorId`, with the equality that the id map and the linear scans use. -/
  VectorId : Type
  [decEqVectorId : DecidableEq VectorId]
  /-- `iqdb_types::Metadata`. -/
  Metadata : Type
  /-- `iqdb_types::Filter`. -/
  Filter : Type
  /-- `iqdb_filter::FilterEvaluator`. -/
  FilterEvaluator : Type
  /-- `FilterEvaluator::new`. -/
  newEvaluator : Filter → Except IqdbError FilterEvaluator
  /-- `FilterEvaluator::evaluate`. -/
  evaluate : FilterEvaluator → Option Metadata → Bool
  /-- `iqdb_distance::compute_batch`: the last argument is the output slice, whose length the
  call cannot change. -/
  computeBatch : DistanceMetric → List F32 → List (List F32) → (out : List F32) →
    Except IqdbError { dists : List F32 // dists.length = out.length }
  /-- `iqdb_quantize::ProductQuantizer`. -/
  ProductQuantizer : Type
  /-- `iqdb_quantize::PqCode`. -/
  PqCode : Type
  /-- `iqdb_quantize::PqAdcTables`. -/
  PqAdcTables : Type
  /-- `ProductQuantizer::with_config`. -/
  withConfig : ℕ → ℕ → UInt64 → ProductQuantizer
  /-- `ProductQuantizer::train`, which returns the trained quantizer. -/
  trainQuantizer : ProductQuantizer → List (List F32) → Except IqdbError ProductQuantizer
  /-- `Quantizer::quantize`. -/
  quantize : ProductQuantizer → List F32 → Except IqdbError PqCode
  /-- `ProductQuantizer::build_query_tables`. -/
  buildQueryTables : ProductQuantizer → List F32 → DistanceMetric → Except IqdbError PqAdcTables
  /-- `PqAdcTables::distance`. -/
  adcDistance : PqAdcTables → PqCode → Except IqdbError F32

attribute [instance] Crates.decEqVectorId

/-- Two ids that compare equal are equal. -/
instance Crates.lawfulVectorId {F32 : Type} (X : Crates F32) : LawfulBEq X.VectorId :=
  inferInstance

/-- How a call ends when it does not return `Ok`: with an error, or with a panic. -/
inductive Fault where
  | err (e : IqdbError)
  | panic (p : Panic)
  deriving DecidableEq, Repr

/-- A computation of the crate that returns a `Result`. -/
abbrev Fallible := Except Fault

/-- A panic in a called function is a panic of the caller. -/
instance : MonadLift Checked Fallible := ⟨fun x => x.mapError .panic⟩

/-- The `?` on a `Result`. -/
instance : MonadLift (Except IqdbError) Fallible := ⟨fun x => x.mapError .err⟩

/-- The early return of an error. -/
def fail {α : Type} (e : IqdbError) : Fallible α := .error (.err e)

/-- A fault that is an error and not a panic. -/
def Fault.IsErr : Fault → Prop
  | .err _ => True
  | .panic _ => False

section Lift

variable {α : Type}

/-- A checked operation in a fallible computation. -/
@[simp] theorem liftM_checked (x : Checked α) : (liftM x : Fallible α) = x.mapError .panic := rfl

/-- A result in a fallible computation. -/
@[simp] theorem liftM_result (x : Except IqdbError α) :
    (liftM x : Fallible α) = x.mapError .err := rfl

/-- A success under another type of errors. -/
@[simp] theorem mapError_ok {ε ε' : Type} (f : ε → ε') (a : α) :
    (Except.ok a : Except ε α).mapError f = .ok a := rfl

/-- A failure under another type of errors. -/
@[simp] theorem mapError_error {ε ε' : Type} (f : ε → ε') (e : ε) :
    (Except.error e : Except ε α).mapError f = .error (f e) := rfl

end Lift

end IqdbIvf
