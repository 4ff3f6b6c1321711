/-!
# Stores

Bytes under keys. A store may refuse writes.
-/

namespace VoxelEdit

/-- Bytes under keys, each key once, and whether writes are refused. -/
structure Store where
  entries : List (String × List UInt8)
  refusing : Bool
deriving DecidableEq, Repr

namespace Store

/-- The store without entries. -/
def empty : Store := ⟨[], false⟩

variable (s : Store)

/-- The bytes under a key. -/
def get? (key : String) : Option (List UInt8) := s.entries.lookup key

/-- The store without a key. -/
def erase (key : String) : Store := { s with entries := s.entries.filter fun e => e.1 ≠ key }

/-- The store with bytes under a key, unless it refuses. -/
def set? (key : String) (bytes : List UInt8) : Option Store :=
  if s.refusing then none else some { s with entries := (key, bytes) :: (s.erase key).entries }

/-- Whether a key is there. -/
def contains (key : String) : Bool := (s.get? key).isSome

/-- The number of keys. -/
def size : Nat := s.entries.length

/-- The entries in the order of their keys. -/
def toList : List (String × List UInt8) :=
  s.entries.mergeSort fun a b => a.1 < b.1 || a.1 == b.1

end Store

end VoxelEdit
