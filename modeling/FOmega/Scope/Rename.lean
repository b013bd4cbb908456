import FOmega.Scope.Registrar
import FOmega.Tree
import FOmega.Log

/-!
# Renaming apart

Renaming gives every binder and every variable of a tree a unique of its own, from left to right and
a binder before what stands under it, and lets a registrar mark their nodes. All other nodes are
marked as having no name. Variables are not resolved: an occurrence never keeps the unique of its
binder.
-/

namespace FOmega

namespace Rename

/-- The supply and the registrar's memory at one point of the walk. -/
structure State (σ : Type) where
  supply : Supply
  memory : σ

/-- Renames one name and asks the registrar for its mark. -/
def site {σ : Type} (r : Registrar σ) (role : Role) (level : Level) (x : Name) :
    StateM (State σ) (Name × Mark) :=
  fun s =>
    let (x, supply) := x.freshen s.supply
    let (m, memory) := r.register role ⟨level, x⟩ s.memory
    ((x, m), ⟨supply, memory⟩)

end Rename

/-- Renames a kind: it has no names, and every node is marked so. -/
def Kind.rename : Kind → Kind
  | .type _ => .type .notAName
  | .arrow _ domain codomain => .arrow .notAName domain.rename codomain.rename

section

variable {σ : Type}

mutual

/-- Renames a type. -/
def Ty.rename (r : Registrar σ) : Ty → StateM (Rename.State σ) Ty
  | .lam _ x kind body => do
    let (x, m) ← Rename.site r .binder .type x
    return .lam m x kind.rename (← body.rename r)
  | .all _ x kind body => do
    let (x, m) ← Rename.site r .binder .type x
    return .all m x kind.rename (← body.rename r)
  | .var _ x => do
    let (x, m) ← Rename.site r .free .type x
    return .var m x
  | .ifix _ pattern arg => return .ifix .notAName (← pattern.rename r) (← arg.rename r)
  | .app _ f arg => return .app .notAName (← f.rename r) (← arg.rename r)
  | .fn _ domain codomain => return .fn .notAName (← domain.rename r) (← codomain.rename r)
  | .builtin _ b => return .builtin .notAName b
  | .prod _ items => return .prod .notAName (← Ty.renameAll r items)

/-- Renames the types of a list in order. -/
def Ty.renameAll (r : Registrar σ) : List Ty → StateM (Rename.State σ) (List Ty)
  | [] => return []
  | t :: ts => return (← t.rename r) :: (← Ty.renameAll r ts)

end

mutual

/-- Renames a term. -/
def Term.rename (r : Registrar σ) : Term → StateM (Rename.State σ) Term
  | .lam _ x type body => do
    let (x, m) ← Rename.site r .binder .term x
    return .lam m x (← type.rename r) (← body.rename r)
  | .abs _ x kind body => do
    let (x, m) ← Rename.site r .binder .type x
    return .abs m x kind.rename (← body.rename r)
  | .var _ x => do
    let (x, m) ← Rename.site r .free .term x
    return .var m x
  | .iwrap _ pattern arg t =>
    return .iwrap .notAName (← pattern.rename r) (← arg.rename r) (← t.rename r)
  | .unwrap _ t => return .unwrap .notAName (← t.rename r)
  | .apply _ f arg => return .apply .notAName (← f.rename r) (← arg.rename r)
  | .inst _ t type => return .inst .notAName (← t.rename r) (← type.rename r)
  | .error _ type => return .error .notAName (← type.rename r)
  | .constant _ c => return .constant .notAName c
  | .builtin _ b => return .builtin .notAName b
  | .prod _ items => return .prod .notAName (← Term.renameAll r items)
  | .proj _ index t => return .proj .notAName index (← t.rename r)

/-- Renames the terms of a list in order. -/
def Term.renameAll (r : Registrar σ) : List Term → StateM (Rename.State σ) (List Term)
  | [] => return []
  | t :: ts => return (← t.rename r) :: (← Term.renameAll r ts)

end

/-- Renames a program. -/
def Program.rename (r : Registrar σ) (p : Program) : StateM (Rename.State σ) Program :=
  return ⟨.notAName, { p.version with mark := .notAName }, ← p.term.rename r⟩

/-- Renames a tree. -/
def Tree.rename (r : Registrar σ) : Tree → StateM (Rename.State σ) Tree
  | .kind k => return .kind k.rename
  | .type t => return .type (← t.rename r)
  | .term t => return .term (← t.rename r)
  | .program p => return .program (← p.rename r)

/-- The end of a renaming: the tree, the supply and the registrar's memory after it, and what was
    noted. -/
structure Renamed (σ : Type) where
  tree : Tree
  supply : Supply
  memory : σ
  log : List LogRecord

/-- Renames a tree with uniques of the given supply. -/
def Tree.renameWith (r : Registrar σ) (tree : Tree) (supply : Supply) (memory : σ) : Renamed σ :=
  let (out, s) := (tree.rename r).run ⟨supply, memory⟩
  ⟨out, s.supply, s.memory, [.renamed (s.supply.issued - supply.issued)]⟩

end

end FOmega
