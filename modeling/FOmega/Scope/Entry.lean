import FOmega.Mark

/-!
# Scope entries

An entry notes one place of a tree where a name stands: a binder or a free occurrence, the name, and
the mark at its node. Entries are ordered by role, then by name, then by mark; as for names, neither
the order nor `==` looks at spellings.
-/

namespace FOmega

/-- Whether a name is introduced or used. -/
inductive Role where
  | binder
  | free
  deriving DecidableEq

namespace Role

/-- Binders come before free occurrences. -/
def rank : Role → Nat
  | binder => 0
  | free => 1

instance : Ord Role :=
  ⟨compareOn rank⟩

instance : Std.TransOrd Role :=
  inferInstanceAs (Std.TransCmp (compareOn rank))

/-- How a role is written. -/
def text : Role → String
  | binder => "binder"
  | free => "free"

end Role

/-- One place where a name stands. -/
structure ScopeEntry where
  role : Role
  name : ScopedName
  mark : Mark
  deriving DecidableEq, BEq

namespace ScopeEntry

/-- Entries are ordered by role, then by name, then by mark. -/
def order : ScopeEntry → ScopeEntry → Ordering :=
  compareLex (compareOn role) (compareLex (compareOn name) (compareOn mark))

instance : Ord ScopeEntry :=
  ⟨order⟩

instance : Std.TransOrd ScopeEntry :=
  inferInstanceAs (Std.TransCmp
    (compareLex (compareOn role) (compareLex (compareOn name) (compareOn mark))))

/-- The unique of the entry's name. -/
def unique (e : ScopeEntry) : Nat :=
  e.name.unique

end ScopeEntry

end FOmega
