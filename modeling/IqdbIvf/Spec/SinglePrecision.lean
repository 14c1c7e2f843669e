import IqdbIvf.Lib.Binary32
import IqdbIvf.Model.Types

/-!
# The model over single-precision numbers

Bit patterns in place of `f32` values. Negation and the total order are what the standard library
computes on the bits; the other operations are a parameter (`Operations`), so that a result about
signs and order holds whatever they compute. `ieee` is the arithmetic that rounds to the nearest
number, ties to even, and makes every NaN that it produces the quiet one without a sign.
-/

namespace IqdbIvf

/-- The operations on single-precision numbers that compute with more than the sign and the
order. -/
class Operations where
  /-- The type of `f64` values. -/
  F64 : Type
  [double : Double F64]
  /-- The constant `0.0`. -/
  zero : Binary32
  /-- The constant `1.0`. -/
  one : Binary32
  /-- `+` on `f32`. -/
  add : Binary32 → Binary32 → Binary32
  /-- `-` on `f32`. -/
  sub : Binary32 → Binary32 → Binary32
  /-- `*` on `f32`. -/
  mul : Binary32 → Binary32 → Binary32
  /-- `/` on `f32`. -/
  div : Binary32 → Binary32 → Binary32
  /-- `<` on `f32`. -/
  lt : Binary32 → Binary32 → Bool
  /-- `f32::sqrt`. -/
  sqrt : Binary32 → Binary32
  /-- `f32::max`. -/
  max : Binary32 → Binary32 → Binary32
  /-- The constant `1e-4`. -/
  tenThousandth : Binary32
  /-- The cast of an `f32` to `f64`. -/
  widen : Binary32 → F64
  /-- The cast of an `f64` to `f32`. -/
  narrow : F64 → Binary32

/-- Single-precision numbers as patterns: negation flips the sign bit. -/
instance [Operations] : Arith Binary32 where
  zero := Operations.zero
  one := Operations.one
  neg := Binary32.flip
  add := Operations.add
  sub := Operations.sub
  mul := Operations.mul
  div := Operations.div
  F64 := Operations.F64
  double := Operations.double
  lt := Operations.lt
  sqrt := Operations.sqrt
  max := Operations.max
  totalCmp := Binary32.totalCmp
  totalCmp_trans := inferInstance
  tenThousandth := Operations.tenThousandth
  widen := Operations.widen
  narrow := Operations.narrow

namespace Ieee

open Float.Model (Format UnpackedFloat)

/-- The value of a pattern. -/
def unpack (x : Binary32) : UnpackedFloat := UnpackedFloat.unpack Format.binary32 x.bits

/-- The pattern of a rounded value. -/
def pack (x : UnpackedFloat) : Binary32 := ⟨UnpackedFloat.pack Format.binary32 x⟩

/-- Double-precision numbers. -/
instance : Double Float.Model where
  zero := .ofNat 0
  one := .ofNat 1
  le := Float.Model.le
  ofInteger := .ofNat

/-- The arithmetic of IEEE 754. A value is converted by rounding its product with one. -/
instance ieee : Operations where
  F64 := Float.Model
  zero := ⟨0⟩
  one := ⟨0x3F800000⟩
  add a b := pack (UnpackedFloat.add Format.binary32 (unpack a) (unpack b))
  sub a b := pack (UnpackedFloat.sub Format.binary32 (unpack a) (unpack b))
  mul a b := pack (UnpackedFloat.mul Format.binary32 (unpack a) (unpack b))
  div a b := pack (UnpackedFloat.div Format.binary32 (unpack a) (unpack b))
  lt a b := UnpackedFloat.lt (unpack a) (unpack b)
  sqrt a := pack (UnpackedFloat.sqrt Format.binary32 (unpack a))
  max a b :=
    if a.IsNaN then b
    else if b.IsNaN then a
    else if UnpackedFloat.lt (unpack a) (unpack b) then b else a
  tenThousandth := ⟨0x38D1B717⟩
  widen a := .pack (UnpackedFloat.mul Format.binary64 (unpack a)
    (UnpackedFloat.ofNat Format.binary64 1))
  narrow a := pack (UnpackedFloat.mul Format.binary32 a.unpack
    (UnpackedFloat.ofNat Format.binary32 1))

/-- The other crates for an index with the inner product and without filters and quantizer. -/
abbrev crates : Crates Binary32 where
  VectorId := ℕ
  Metadata := ℕ
  Filter := Unit
  FilterEvaluator := Unit
  newEvaluator := .ok
  evaluate _ _ := true
  computeBatch metric query refs out :=
    if metric = .dotProduct then
      let dists := refs.map fun v => (query.zip v).foldl (fun sum p => sum + p.1 * p.2) 0
      if h : dists.length = out.length then .ok ⟨dists, h⟩
      else .error (.dimensionMismatch out.length dists.length)
    else .error .invalidMetric
  ProductQuantizer := Unit
  PqCode := Unit
  PqAdcTables := Unit
  withConfig _ _ _ := ()
  trainQuantizer pq _ := .ok pq
  quantize _ _ := .ok ()
  buildQueryTables _ _ _ := .ok ()
  adcDistance _ _ := .ok 0

end Ieee

end IqdbIvf
