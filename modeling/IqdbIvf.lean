import IqdbIvf.Lib.Outcome
import IqdbIvf.Lib.Ranking
import IqdbIvf.Lib.Nested
import IqdbIvf.Lib.Outliers
import IqdbIvf.Lib.BoundedHeap
import IqdbIvf.Lib.Selection
import IqdbIvf.Lib.Fronts
import IqdbIvf.Lib.Reordering
import IqdbIvf.Lib.Greedy
import IqdbIvf.Lib.Words
import IqdbIvf.Lib.Lottery
import IqdbIvf.Lib.FisherYates
import IqdbIvf.Lib.Buckets
import IqdbIvf.Lib.Machine
import IqdbIvf.Lib.Journal
import IqdbIvf.Lib.KMeans
import IqdbIvf.Lib.Iteration
import IqdbIvf.Lib.Binary32
import IqdbIvf.Model.Arith
import IqdbIvf.Model.Types
import IqdbIvf.Model.Config
import IqdbIvf.Model.Topk
import IqdbIvf.Model.Rng
import IqdbIvf.Model.Train
import IqdbIvf.Model.State
import IqdbIvf.Model.Search
import IqdbIvf.Model.Index
import IqdbIvf.Model.Calls
import IqdbIvf.Spec.SinglePrecision
import IqdbIvf.Spec.Topk
import IqdbIvf.Spec.Draws
import IqdbIvf.Spec.Subsample
import IqdbIvf.Spec.Training
import IqdbIvf.Spec.Invariant
import IqdbIvf.Spec.Snapshot
import IqdbIvf.Spec.Exits
import IqdbIvf.Spec.Reassign
import IqdbIvf.Spec.Transitions
import IqdbIvf.Spec.Scan
import IqdbIvf.Spec.PqScan
import IqdbIvf.Spec.Search
import IqdbIvf.Spec.View
import IqdbIvf.Spec.Effects
import IqdbIvf.Spec.Rational
import IqdbIvf.Spec.Representation
import IqdbIvf.Spec.Retraining
import IqdbIvf.Spec.Acceptance
import IqdbIvf.Spec.Canonical
import IqdbIvf.Spec.Hits
import IqdbIvf.Spec.Store
import IqdbIvf.Spec.History
import IqdbIvf.Spec.Abstraction
import IqdbIvf.Spec.Outcomes
import IqdbIvf.Spec.Knobs
import IqdbIvf.Spec.Failures
import IqdbIvf.Spec.Relabelling
import IqdbIvf.Spec.Journal
import IqdbIvf.Spec.Covering
import IqdbIvf.Spec.Safety
import IqdbIvf.Spec.FirstTraining
import IqdbIvf.Spec.PlainPq
import IqdbIvf.Spec.FixedPoint
import IqdbIvf.Spec.Filtering
import IqdbIvf.Spec.Probing
import IqdbIvf.Spec.Refining
import IqdbIvf.Spec.Selected
import IqdbIvf.Spec.Narrowing
import IqdbIvf.Spec.Asking
import IqdbIvf.Spec.Ties
import IqdbIvf.Spec.Exactness
import IqdbIvf.Spec.Exact
import IqdbIvf.Spec.Lloyd
import IqdbIvf.Spec.Seeding
import IqdbIvf.Spec.Units
import IqdbIvf.Spec.Weighting
import IqdbIvf.Spec.Clustering
import IqdbIvf.Spec.Rotation
import IqdbIvf.Spec.Iterates
import IqdbIvf.Spec.Rotated
import IqdbIvf.Spec.Occupancy
import IqdbIvf.Spec.SelfRetrieval
import IqdbIvf.Spec.Batches
import IqdbIvf.Spec.Coverage
import IqdbIvf.Spec.NaN
