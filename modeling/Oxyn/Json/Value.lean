/-
# `Oxyn.Json.Value` — a JSON document in memory

The values the drivers look into.  A whole number that fits 64 bits is kept as it is, any other is
a double; the fields of an object keep their order.
-/
import Oxyn.Lib.Text

namespace Oxyn.Json

open Text List

/-- A number: whole from 0 on, whole below 0, or a double. -/
inductive Number (F : Type) where
  | unsigned (n : Nat)
  | negative (n : Int)
  | float (x : F)
deriving DecidableEq, Repr

inductive Value (F : Type) where
  | null
  | bool (b : Bool)
  | number (n : Number F)
  | string (s : Str)
  | array (items : List (Value F))
  | object (fields : List (Str × Value F))

variable {F : Type}

/-- `Map::get`. -/
def field (name : Str) (fields : List (Str × Value F)) : Option (Value F) :=
  (fields.find? fun entry => entry.1 == name).map Prod.snd

namespace Value

/-- `Value::get` of a name: nothing but an object has fields. -/
def get? (name : Str) : Value F → Option (Value F)
  | object fields => field name fields
  | _ => none

def asStr : Value F → Option Str
  | string s => some s
  | _ => none

end Value

/-! ## Fields -/

variable {name : Str}

theorem mem_of_field {fields : List (Str × Value F)} {v : Value F}
    (h : field name fields = some v) : (name, v) ∈ fields := by
  obtain ⟨⟨key, value⟩, hfind, rfl⟩ := Option.map_eq_some_iff.mp h
  have hkey : key = name := by simpa using find?_some hfind
  exact hkey ▸ mem_of_find?_eq_some hfind

theorem sizeOf_field {fields : List (Str × Value F)} {v : Value F}
    (h : field name fields = some v) : sizeOf v < sizeOf fields := by
  have hmem := sizeOf_lt_of_mem (mem_of_field h)
  rw [Prod.mk.sizeOf_spec] at hmem
  omega

theorem Value.sizeOf_get? {v inner : Value F} (h : v.get? name = some inner) :
    sizeOf inner < sizeOf v := by
  cases v with
  | object fields =>
    have hfield := sizeOf_field (F := F) h
    rw [Value.object.sizeOf_spec]
    omega
  | _ => cases h

end Oxyn.Json
