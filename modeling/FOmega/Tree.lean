import FOmega.Mark
import FOmega.Constant

/-!
# Kinds, types, terms and programs

The trees of the core language: System Fω with iso-recursive types, products and built-ins. Every
node carries a mark.

`==` compares trees node by node, marks included, and names by their uniques alone; `=` also
compares spellings.
-/

namespace FOmega

/-! ## Kinds -/

/-- The kind of a type. -/
inductive Kind where
  | type (mark : Mark)
  | arrow (mark : Mark) (domain codomain : Kind)
  deriving DecidableEq, BEq

/-- The mark at the root. -/
def Kind.mark : Kind → Mark
  | .type m => m
  | .arrow m _ _ => m

/-! ## Types -/

/-- A type: abstraction, universal quantification, fixed point of a pattern at an argument,
    application, function type, variable, built-in type and product. -/
inductive Ty where
  | lam (mark : Mark) (binder : Name) (kind : Kind) (body : Ty)
  | all (mark : Mark) (binder : Name) (kind : Kind) (body : Ty)
  | ifix (mark : Mark) (pattern arg : Ty)
  | app (mark : Mark) (function arg : Ty)
  | fn (mark : Mark) (domain codomain : Ty)
  | var (mark : Mark) (name : Name)
  | builtin (mark : Mark) (type : BuiltinType)
  | prod (mark : Mark) (items : List Ty)

/-- The mark at the root. -/
def Ty.mark : Ty → Mark
  | .lam m _ _ _ => m
  | .all m _ _ _ => m
  | .ifix m _ _ => m
  | .app m _ _ => m
  | .fn m _ _ => m
  | .var m _ => m
  | .builtin m _ => m
  | .prod m _ => m

mutual

/-- Equality of types up to the spelling of names. -/
def Ty.same : Ty → Ty → Bool
  | .lam m x k t, .lam m' x' k' t' => m == m' && x == x' && k == k' && t.same t'
  | .all m x k t, .all m' x' k' t' => m == m' && x == x' && k == k' && t.same t'
  | .ifix m p a, .ifix m' p' a' => m == m' && p.same p' && a.same a'
  | .app m f a, .app m' f' a' => m == m' && f.same f' && a.same a'
  | .fn m d c, .fn m' d' c' => m == m' && d.same d' && c.same c'
  | .var m x, .var m' x' => m == m' && x == x'
  | .builtin m b, .builtin m' b' => m == m' && b == b'
  | .prod m ts, .prod m' ts' => m == m' && Ty.sameAll ts ts'
  | _, _ => false

/-- Equality of lists of types up to the spelling of names. -/
def Ty.sameAll : List Ty → List Ty → Bool
  | [], [] => true
  | t :: ts, t' :: ts' => t.same t' && Ty.sameAll ts ts'
  | _, _ => false

end

instance : BEq Ty :=
  ⟨Ty.same⟩

/-! ## Terms -/

/-- A term: abstraction over a term and over a type, wrapping into and out of a fixed point,
    application, instantiation at a type, error of a type, variable, constant, built-in function,
    tuple and projection, counted from zero. -/
inductive Term where
  | lam (mark : Mark) (binder : Name) (type : Ty) (body : Term)
  | abs (mark : Mark) (binder : Name) (kind : Kind) (body : Term)
  | iwrap (mark : Mark) (pattern arg : Ty) (term : Term)
  | unwrap (mark : Mark) (term : Term)
  | apply (mark : Mark) (function arg : Term)
  | inst (mark : Mark) (term : Term) (type : Ty)
  | error (mark : Mark) (type : Ty)
  | var (mark : Mark) (name : Name)
  | constant (mark : Mark) (value : Constant)
  | builtin (mark : Mark) (function : BuiltinFunction)
  | prod (mark : Mark) (items : List Term)
  | proj (mark : Mark) (index : Nat) (term : Term)

/-- The mark at the root. -/
def Term.mark : Term → Mark
  | .lam m _ _ _ => m
  | .abs m _ _ _ => m
  | .iwrap m _ _ _ => m
  | .unwrap m _ => m
  | .apply m _ _ => m
  | .inst m _ _ => m
  | .error m _ => m
  | .var m _ => m
  | .constant m _ => m
  | .builtin m _ => m
  | .prod m _ => m
  | .proj m _ _ => m

mutual

/-- Equality of terms up to the spelling of names. -/
def Term.same : Term → Term → Bool
  | .lam m x a t, .lam m' x' a' t' => m == m' && x == x' && a == a' && t.same t'
  | .abs m x k t, .abs m' x' k' t' => m == m' && x == x' && k == k' && t.same t'
  | .iwrap m p a t, .iwrap m' p' a' t' => m == m' && p == p' && a == a' && t.same t'
  | .unwrap m t, .unwrap m' t' => m == m' && t.same t'
  | .apply m f a, .apply m' f' a' => m == m' && f.same f' && a.same a'
  | .inst m t a, .inst m' t' a' => m == m' && t.same t' && a == a'
  | .error m a, .error m' a' => m == m' && a == a'
  | .var m x, .var m' x' => m == m' && x == x'
  | .constant m c, .constant m' c' => m == m' && c == c'
  | .builtin m b, .builtin m' b' => m == m' && b == b'
  | .prod m ts, .prod m' ts' => m == m' && Term.sameAll ts ts'
  | .proj m i t, .proj m' i' t' => m == m' && i == i' && t.same t'
  | _, _ => false

/-- Equality of lists of terms up to the spelling of names. -/
def Term.sameAll : List Term → List Term → Bool
  | [], [] => true
  | t :: ts, t' :: ts' => t.same t' && Term.sameAll ts ts'
  | _, _ => false

end

instance : BEq Term :=
  ⟨Term.same⟩

/-! ## Programs -/

/-- A language version. -/
structure Version where
  mark : Mark
  major : Nat
  minor : Nat
  patch : Nat
  deriving DecidableEq, BEq

/-- A version is written as its three numbers with dots between. -/
def Version.text (v : Version) : String :=
  Text.Decimal.text v.major ++ "." ++ Text.Decimal.text v.minor ++ "." ++ Text.Decimal.text v.patch

/-- A term with the version of the language in which it is written. -/
structure Program where
  mark : Mark
  version : Version
  term : Term
  deriving BEq

/-! ## Trees of any sort -/

/-- A tree of one of the four sorts. -/
inductive Tree where
  | kind (kind : Kind)
  | type (type : Ty)
  | term (term : Term)
  | program (program : Program)
  deriving BEq

/-- The mark at the root. -/
def Tree.mark : Tree → Mark
  | .kind k => k.mark
  | .type t => t.mark
  | .term t => t.mark
  | .program p => p.mark

end FOmega
