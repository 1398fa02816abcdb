/-
# `Oxyn.Store.Error` — what fails in the local state

The errors of the store, and the bounds of its integer columns.
-/
import Oxyn.Lib.Fallible

namespace Oxyn.Store

inductive StoreError where
  | cancelled
  | sqlite
  | corrupted (field detail : String)
  | tooLarge (field : String) (limit : Nat)
  | sampleWithheld (node : Nat)
deriving DecidableEq

/-- `i64::MAX`. -/
def i64Max : Nat := 2 ^ 63 - 1

end Oxyn.Store
