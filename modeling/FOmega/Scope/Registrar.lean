import FOmega.Scope.Entry

/-!
# Registrars

A registrar decides the mark of each node that has a name while a tree is renamed. It is asked once
for each binder and each variable, with the renamed name, and may keep a memory of what it saw.
-/

namespace FOmega

/-- A rule that marks each named node, with a memory of type `σ`. -/
structure Registrar (σ : Type) where
  register : Role → ScopedName → σ → Mark × σ

namespace Registrar

/-- Marks each node with its role and name. -/
def roleMark : Role → ScopedName → Mark
  | .binder, name => .binder name
  | .free, name => .free name

/-- Marks binders and free occurrences as what they are. -/
def tagging : Registrar Unit :=
  ⟨fun role name memory => (roleMark role name, memory)⟩

/-- Leaves no trace of names. -/
def erasing : Registrar Unit :=
  ⟨fun _ _ memory => (.notAName, memory)⟩

/-- The names registered so far, in order. -/
structure Record where
  binders : List ScopedName
  frees : List ScopedName
  deriving DecidableEq

/-- A record of nothing. -/
def Record.empty : Record :=
  ⟨[], []⟩

/-- The record with one more name. -/
def Record.push (r : Record) : Role → ScopedName → Record
  | .binder, name => { r with binders := r.binders ++ [name] }
  | .free, name => { r with frees := r.frees ++ [name] }

/-- Marks nodes as tagging does, and keeps every name. -/
def recording : Registrar Record :=
  ⟨fun role name record => (roleMark role name, record.push role name)⟩

/-- Marks nodes by two given functions, and keeps every call. -/
def answering (onBinder onFree : ScopedName → Mark) : Registrar (List (Role × ScopedName)) :=
  ⟨fun role name calls =>
    (match role with
      | .binder => onBinder name
      | .free => onFree name,
      calls ++ [(role, name)])⟩

end Registrar

end FOmega
