import IqdbIvf.Lib.BoundedHeap
import IqdbIvf.Model.Types

/-!
# Top-`k` selection

`src/topk.rs`. The candidates are ordered by distance under `f32::total_cmp` and then by sequence
number; `std::collections::BinaryHeap` is the library's max-heap for that order.
-/

namespace IqdbIvf

open BoundedHeap

variable {F32 : Type} [Arith F32]

/-- `Scored`: a candidate's distance, its insertion stamp, and its position in the input. -/
structure Scored (F32 : Type) where
  /-- The distance. -/
  dist : F32
  /-- The insertion stamp. -/
  seq : ℕ
  /-- The position, which no comparison looks at. -/
  idx : ℕ

/-- `Scored::cmp_key`, the `Ord` of the heap. -/
def Scored.cmpKey (a b : Scored F32) : Ordering :=
  (Arith.totalCmp a.dist b.dist).then (compare a.seq b.seq)

/-- The order of the heap is transitive. -/
instance : Std.TransCmp (@Scored.cmpKey F32 _) :=
  inferInstanceAs (Std.TransCmp (Ranking.rankCmp Arith.totalCmp Scored.dist Scored.seq))

/-- `select_topk_indices`. The loop body is `offer`: push while the heap has room, replace the root
when the candidate is below it, else skip. -/
def selectTopkIndices (distances : List F32) (seqs : List ℕ) (k : ℕ) : Checked (List ℕ) := do
  debugAssert (distances.length == seqs.length)
  if k = 0 || distances.isEmpty then return []
  let cap := min k distances.length
  -- The position travels with the key, and comes back out of the heap.
  let entries := (distances.zip seqs).zipIdx.map fun p => (⟨p.1.1, p.1.2, p.2⟩ : Scored F32)
  let heap : BinaryHeap (@Scored.cmpKey F32 _) := entries.foldl (offer cap) .empty
  return heap.intoSortedVec.map Scored.idx

end IqdbIvf
