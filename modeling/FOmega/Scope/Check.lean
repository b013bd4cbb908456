import FOmega.Scope.Info

/-!
# Consistent scoping

A scope info is consistent when every binder has a unique of its own and no free occurrence carries
the unique of a binder, of either level.
-/

namespace FOmega

/-- How a scope info can be inconsistent. -/
inductive ScopeError where
  | duplicateBinder (name : ScopedName) (count : Nat)
  | capturedFree (name : ScopedName)
  deriving DecidableEq

/-- The wording of an inconsistency. -/
def ScopeError.message : ScopeError → String
  | duplicateBinder name count => name.text ++ " is bound " ++ Text.Decimal.text count ++ " times"
  | capturedFree name =>
    "free occurrence " ++ name.text ++ " shares its unique with a binder"

/-! ## Binders by their uniques -/

namespace Scope

/-- The binders that carry one unique: the name of the first of them, and how many they are. -/
structure Binding where
  unique : Nat
  name : ScopedName
  count : Nat

/-- Counts one more binder. Bindings stand in increasing order of their uniques, and the first
    binder of a unique gives its binding the name. -/
def note (e : ScopeEntry) : List Binding → List Binding
  | [] => [⟨e.unique, e.name, 1⟩]
  | b :: bs =>
    match compare e.unique b.unique with
    | .lt => ⟨e.unique, e.name, 1⟩ :: b :: bs
    | .eq => { b with count := b.count + 1 } :: bs
    | .gt => b :: note e bs

/-- Binders that stand in the order of entries, counted one after the other. -/
def regroup (binders : List ScopeEntry) : List Binding :=
  binders.foldl (fun bound e => note e bound) []

/-- Whether some binder carries the unique. -/
def isBound (bound : List Binding) (unique : Nat) : Bool :=
  bound.any fun b => b.unique == unique

end Scope

/-! ## The check -/

/-- Whether the info is consistent. The binders are regrouped by their uniques; the first unique
    with several of them is reported, and otherwise the first free occurrence of a unique with any. -/
def ScopeInfo.check (info : ScopeInfo) : Except ScopeError Unit :=
  let bound := Scope.regroup info.binders
  match bound.find? fun b => 1 < b.count with
  | some b => .error (.duplicateBinder b.name b.count)
  | none =>
    match info.frees.find? fun e => Scope.isBound bound e.unique with
    | some e => .error (.capturedFree e.name)
    | none => .ok ()

end FOmega
