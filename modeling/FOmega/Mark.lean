import FOmega.Span
import FOmega.Name

/-!
# Marks on the nodes of a tree

Every node of a tree carries a mark. Reading a source marks each node with its position; renaming
marks a node with what its name is, or that it has none.
-/

namespace FOmega

/-- What is noted at a node. -/
inductive Mark where
  | absent
  | position (span : Span)
  | notAName
  | binder (name : ScopedName)
  | free (name : ScopedName)
  deriving DecidableEq, BEq

namespace Mark

/-- The span of a node that has a position. -/
def span? : Mark → Option Span
  | position s => some s
  | _ => none

/-- The name of a node marked as a binder or a free occurrence. -/
def name? : Mark → Option ScopedName
  | binder n => some n
  | free n => some n
  | _ => none

/-- Numbers that determine a mark up to spelling: its kind, then what it holds. -/
def key : Mark → List Nat
  | absent => [0]
  | position s => [1, s.offset, s.len]
  | notAName => [2]
  | binder n => [3, n.level.rank, n.unique]
  | free n => [4, n.level.rank, n.unique]

/-- Marks are ordered by kind and then by what they hold. -/
instance : Ord Mark :=
  ⟨compareOn key⟩

instance : Std.TransOrd Mark :=
  inferInstanceAs (Std.TransCmp (compareOn key))

end Mark

end FOmega
