import RubyEngine.Serde.Floats
import RubyEngine.Transport

/-!
# The library as a whole

All that the results about several processes take from the documentation of the JSON
library, and what becomes of a value that is printed and read.
-/
namespace RubyEngine

open Json (Doc Number Value)

structure SerdeJson.Documented (serde : SerdeJson) : Prop where
  standard : serde.Standard
  compact : serde.Compact
  numeric : serde.Numeric
  strict : serde.Strict
  nonempty : ∀ v, serde.toVec v ≠ []

theorem SerdeJson.unicode_documented : SerdeJson.unicode.Documented where
  standard := unicode_standard
  compact := {
    prints := reference_compact.prints
    limit := fun bytes v h => by
      simp only [unicode] at h
      split at h
      · cases h
      · exact reference_compact.limit bytes v h }
  numeric := unicode_numeric
  strict := unicode_strict
  nonempty := reference_roundTrips.nonempty

/-! ## Printed and read -/

/-- A value with the floats that are read for its floats. -/
def Json.Value.reread (f : UInt64 → Number) (v : Value) : Value := v.mapNumbers (Number.reread f)

theorem asU64_reread (f : UInt64 → Number) (d : Doc) {n : Nat} (h : d.asU64 = some n) :
    (d.mapNumbers (Number.reread f)).asU64 = some n := by
  cases d with
  | number m =>
    cases m with
    | int i => exact h
    | float bits => cases h
  | null | bool | string | array | object => cases h

theorem isBoolean_reread (f : UInt64 → Number) (d : Doc) :
    (d.mapNumbers (Number.reread f)).isBoolean = d.isBoolean := by
  cases d <;> rfl

section

variable (f : UInt64 → Number) (v : Value) (key : String)

@[simp] theorem asStr_index_reread : ((v.reread f).index key).asStr = (v.index key).asStr := by
  rw [Json.Value.reread, Json.Value.index_mapNumbers, Json.Doc.asStr_mapNumbers]

theorem asU64_index_reread {n : Nat} (h : (v.index key).asU64 = some n) :
    ((v.reread f).index key).asU64 = some n := by
  rw [Json.Value.reread, Json.Value.index_mapNumbers]
  exact asU64_reread f _ h

@[simp] theorem isBoolean_index_reread :
    ((v.reread f).index key).isBoolean = (v.index key).isBoolean := by
  rw [Json.Value.reread, Json.Value.index_mapNumbers, isBoolean_reread]

theorem reread_of_floatFree {v : Value} (h : v.doc.floatFree = true) : v.reread f = v :=
  Json.Value.ext_doc (Json.Doc.mapNumbers_reread h)

end

/-- A value that one frame carries and that is shallow enough to be read. -/
structure Carried (serde : SerdeJson) (v : Value) : Prop where
  bounded : (serde.toVec v).length ≤ MAX_FRAME
  nesting : v.doc.nesting < 128

namespace SerdeJson.Documented

variable {serde : SerdeJson} {v : Value}

theorem back (hd : serde.Documented) (hv : Plain v) : serde.fromSlice (serde.toVec v) = .ok v :=
  hd.compact.back hd.standard hv

theorem fits (hd : serde.Documented) (hv : (serde.toVec v).length ≤ MAX_FRAME) :
    Framing.Fits MAX_FRAME (serde.toVec v) :=
  ⟨List.length_pos_of_ne_nil (hd.nonempty v), hv⟩

end SerdeJson.Documented

end RubyEngine
