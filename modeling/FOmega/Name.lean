import FOmega.Text.Decimal

/-!
# Names and the supply of uniques

A name is a spelling together with a unique. Only the unique matters for identity: `==` and the
order on names look at uniques alone, while `=` also compares spellings. A supply hands out each
unique once.
-/

namespace FOmega

/-! ## The supply -/

/-- A source of uniques that has handed out `0, …, issued - 1`. The counter is unbounded here. One of
    64 bits never wraps around in a run: it starts from zero, and every unique takes a draw of its
    own. -/
structure Supply where
  issued : Nat
  deriving DecidableEq

namespace Supply

/-- A supply that has handed out nothing. -/
def empty : Supply :=
  ⟨0⟩

/-- The next unique, and the supply after it. -/
def fresh (s : Supply) : Nat × Supply :=
  (s.issued, ⟨s.issued + 1⟩)

/-- The next `n` uniques in order, and the supply after them. -/
def take (s : Supply) (n : Nat) : List Nat × Supply :=
  (List.range' s.issued n, ⟨s.issued + n⟩)

end Supply

/-! ## Names -/

/-- A variable: how it is spelled, and which one it is. -/
structure Name where
  text : String
  unique : Nat
  deriving DecidableEq

namespace Name

/-- Two names are the same variable when their uniques are equal. -/
instance : BEq Name :=
  ⟨fun a b => a.unique == b.unique⟩

instance : Ord Name :=
  ⟨compareOn unique⟩

instance : Std.TransOrd Name :=
  inferInstanceAs (Std.TransCmp (compareOn unique))

/-- The same spelling with a unique of its own. -/
def freshen (n : Name) (s : Supply) : Name × Supply :=
  (⟨n.text, s.fresh.1⟩, s.fresh.2)

end Name

/-- The two levels at which a name can stand. -/
inductive Level where
  | type
  | term
  deriving DecidableEq

namespace Level

/-- Types come before terms. -/
def rank : Level → Nat
  | type => 0
  | term => 1

instance : Ord Level :=
  ⟨compareOn rank⟩

instance : Std.TransOrd Level :=
  inferInstanceAs (Std.TransCmp (compareOn rank))

/-- How a level is written in front of a name. -/
def text : Level → String
  | type => "type"
  | term => "term"

end Level

/-- A name together with the level at which it stands. -/
structure ScopedName where
  level : Level
  name : Name
  deriving DecidableEq, BEq

namespace ScopedName

/-- The unique of the name. -/
def unique (n : ScopedName) : Nat :=
  n.name.unique

/-- Names are ordered by level and then by unique. -/
instance : Ord ScopedName :=
  ⟨compareLex (compareOn level) (compareOn name)⟩

instance : Std.TransOrd ScopedName :=
  inferInstanceAs (Std.TransCmp (compareLex (compareOn level) (compareOn name)))

/-- A scoped name is written as its level, its spelling and its unique. -/
def text (n : ScopedName) : String :=
  n.level.text ++ " " ++ n.name.text ++ "_" ++ Text.Decimal.text n.unique

/-- The same spelling at the same level with a unique of its own. -/
def freshen (n : ScopedName) (s : Supply) : ScopedName × Supply :=
  (⟨n.level, (n.name.freshen s).1⟩, (n.name.freshen s).2)

/-- Each name freshened in turn. -/
def freshenAll : List ScopedName → Supply → List ScopedName × Supply
  | [], s => ([], s)
  | n :: ns, s =>
    let (m, s) := n.freshen s
    let (ms, s) := freshenAll ns s
    (m :: ms, s)

/-- The names in order; names that are the same variable keep their places to each other. -/
def sorted (ns : List ScopedName) : List ScopedName :=
  ns.mergeSort fun a b => (compare a b).isLE

/-- Of each run of names that are the same variable, the last. -/
def lastOfEach : List ScopedName → List ScopedName
  | a :: b :: ns => if a == b then lastOfEach (b :: ns) else a :: lastOfEach (b :: ns)
  | ns => ns

/-- The distinct variables in order, each as it is spelled where it stands last. -/
def distinct (ns : List ScopedName) : List ScopedName :=
  lastOfEach (sorted ns)

end ScopedName

end FOmega
