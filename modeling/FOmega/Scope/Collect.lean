import FOmega.Scope.Info
import FOmega.Tree
import FOmega.Log

/-!
# The scope info of a tree

A binder gives a binder entry and a variable a free one, each with the mark at its node. Kinds,
built-ins and constants have no names.
-/

namespace FOmega

/-- The entries of a kind. Kinds never mention names. -/
def Kind.scopeInfo (_ : Kind) : ScopeInfo :=
  .empty

theorem Kind.scopeInfo_eq_empty (k : Kind) : k.scopeInfo = .empty :=
  rfl

mutual

/-- The entries of a type. -/
def Ty.scopeInfo : Ty → ScopeInfo
  | .lam m x kind body | .all m x kind body =>
    ((ScopeInfo.singleton ⟨.binder, ⟨.type, x⟩, m⟩).combine kind.scopeInfo).combine body.scopeInfo
  | .var m x => .singleton ⟨.free, ⟨.type, x⟩, m⟩
  | .ifix _ a b | .app _ a b | .fn _ a b => a.scopeInfo.combine b.scopeInfo
  | .builtin _ _ => .empty
  | .prod _ items => .sum (Ty.scopeInfos items)

/-- The entries of each type. -/
def Ty.scopeInfos : List Ty → List ScopeInfo
  | [] => []
  | t :: ts => t.scopeInfo :: Ty.scopeInfos ts

end

mutual

/-- The entries of a term. -/
def Term.scopeInfo : Term → ScopeInfo
  | .lam m x type body =>
    ((ScopeInfo.singleton ⟨.binder, ⟨.term, x⟩, m⟩).combine type.scopeInfo).combine body.scopeInfo
  | .abs m x kind body =>
    ((ScopeInfo.singleton ⟨.binder, ⟨.type, x⟩, m⟩).combine kind.scopeInfo).combine body.scopeInfo
  | .var m x => .singleton ⟨.free, ⟨.term, x⟩, m⟩
  | .iwrap _ pattern arg t => (pattern.scopeInfo.combine arg.scopeInfo).combine t.scopeInfo
  | .unwrap _ t | .proj _ _ t => t.scopeInfo
  | .apply _ f a => f.scopeInfo.combine a.scopeInfo
  | .inst _ t type => t.scopeInfo.combine type.scopeInfo
  | .error _ type => type.scopeInfo
  | .constant _ _ | .builtin _ _ => .empty
  | .prod _ items => .sum (Term.scopeInfos items)

/-- The entries of each term. -/
def Term.scopeInfos : List Term → List ScopeInfo
  | [] => []
  | t :: ts => t.scopeInfo :: Term.scopeInfos ts

end

/-- The entries of a tree. -/
def Tree.scopeInfo : Tree → ScopeInfo
  | .kind k => k.scopeInfo
  | .type t => t.scopeInfo
  | .term t => t.scopeInfo
  | .program p => p.term.scopeInfo

/-- What is noted when the entries of a tree are collected. -/
def ScopeInfo.log (info : ScopeInfo) : List LogRecord :=
  [.collected info.binders.length info.frees.length]

end FOmega
