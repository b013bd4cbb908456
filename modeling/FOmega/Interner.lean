import FOmega.Name
import FOmega.Log

/-!
# Interning spellings

An interner gives each spelling one unique, drawn from its supply when the spelling is first seen.
Entries are never removed. Names of types and of terms share the table, and scope plays no part.
-/

namespace FOmega

/-- The spellings seen so far in the order of first use, with their uniques, and the supply from
    which further ones are drawn. -/
structure Interner where
  entries : List (String × Nat)
  supply : Supply
  deriving DecidableEq

namespace Interner

/-- An interner that has seen nothing and draws from the given supply. -/
def ofSupply (supply : Supply) : Interner :=
  ⟨[], supply⟩

/-- The unique of a spelling that was seen. -/
def lookup? (i : Interner) (text : String) : Option Nat :=
  i.entries.lookup text

/-- The unique of a spelling, drawn from the supply if it was not seen before. -/
def intern (i : Interner) (text : String) : Nat × Interner :=
  match i.lookup? text with
  | some u => (u, i)
  | none => (i.supply.fresh.1, ⟨i.entries ++ [(text, i.supply.fresh.1)], i.supply.fresh.2⟩)

/-- The number of spellings seen. -/
def size (i : Interner) : Nat :=
  i.entries.length

/-- Draws a unique that belongs to no spelling. -/
def draw (i : Interner) : Nat × Interner :=
  (i.supply.fresh.1, { i with supply := i.supply.fresh.2 })

/-- The record of each entry. -/
def log (i : Interner) : List LogRecord :=
  i.entries.map fun (text, unique) => .interned text unique

/-! ## Histories -/

/-- A use of an interner. A reset starts an empty one on the same supply. -/
inductive Step where
  | intern (text : String)
  | lookup (text : String)
  | draw
  | reset
  deriving DecidableEq

/-- What a use answers. -/
inductive Answer where
  | interned (unique : Nat)
  | found (unique : Option Nat)
  | drawn (unique : Nat)
  | restarted
  deriving DecidableEq

/-- Runs one step. -/
def step (i : Interner) : Step → Answer × Interner
  | .intern text => (.interned (i.intern text).1, (i.intern text).2)
  | .lookup text => (.found (i.lookup? text), i)
  | .draw => (.drawn i.draw.1, i.draw.2)
  | .reset => (.restarted, ofSupply i.supply)

/-- The records that a step adds. -/
def stepLog (i : Interner) : Step → List LogRecord
  | .intern text => (i.intern text).2.log.drop i.log.length
  | _ => []

/-- The answer to each step of a history, each with the interner after it. -/
def run (i : Interner) : List Step → List (Answer × Interner)
  | [] => []
  | s :: ss =>
    let out := i.step s
    out :: run out.2 ss

/-- The records of a whole history. -/
def runLog (i : Interner) : List Step → List LogRecord
  | [] => []
  | s :: ss => i.stepLog s ++ runLog (i.step s).2 ss

end Interner

end FOmega
