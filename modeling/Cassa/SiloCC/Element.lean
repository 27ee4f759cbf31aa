import Cassa.Common.Tid

/-!
# Records, read sets and write sets

The data of `db_value.h`, `structures.h`, `status.h` and `silo_element.h`. A
`Value *` is a number; keys and bodies stay generic, since the transaction layer
only compares keys and copies bodies.
-/

namespace Cassa.SiloCC

inductive OpType where
  | NONE | READ | WRITE | INSERT | DELETE | SCAN | RMW
  deriving DecidableEq, Repr

inductive TransactionStatus where
  | Invalid | InFlight | Committed | Aborted
  deriving DecidableEq, Repr

/-- The statuses that the transaction operations return. -/
inductive Status where
  | OK | WARN_ALREADY_EXISTS | WARN_NOT_FOUND | ERROR_CONCURRENT_WRITE_OR_DELETE
  deriving DecidableEq, Repr

/-- The address of a `Value`. -/
abbrev ValuePtr := Nat

structure Value (β : Type) where
  tidword_ : TIDword
  body_ : β
  deriving DecidableEq, Repr

structure ReadElement (K : Type) where
  key_ : K
  value_ : ValuePtr
  tidword_ : TIDword
  op_ : OpType := .READ
  deriving DecidableEq, Repr

structure WriteElement (K β : Type) where
  key_ : K
  value_ : ValuePtr
  new_value_body_ : β
  op_ : OpType
  deriving DecidableEq, Repr

variable {K β : Type} [DecidableEq K]

def searchWriteSet (ws : List (WriteElement K β)) (k : K) : Option (WriteElement K β) :=
  ws.find? fun we => we.key_ = k

theorem searchWriteSet_none {ws : List (WriteElement K β)} {k : K} :
    searchWriteSet ws k = none ↔ ∀ we ∈ ws, we.key_ ≠ k := by
  simp [searchWriteSet, List.find?_eq_none]

theorem searchWriteSet_some {ws : List (WriteElement K β)} {k : K} {we : WriteElement K β}
    (h : searchWriteSet ws k = some we) : we ∈ ws ∧ we.key_ = k :=
  ⟨List.mem_of_find?_eq_some h, by simpa using List.find?_some h⟩

theorem searchWriteSet_isSome {ws : List (WriteElement K β)} {k : K} :
    (searchWriteSet ws k).isSome ↔ ∃ we ∈ ws, we.key_ = k := by
  simp [searchWriteSet, List.find?_isSome]

end Cassa.SiloCC
