import FOmega.Tree

/-!
# Skeletons and induction over trees

The skeleton of a tree is what is left when marks and uniques are taken out: the constructors, the
spelling of every name, and the data of the leaves. Two trees with one skeleton differ in marks and
uniques alone.

Products hold lists of trees, so the induction principles below give the hypothesis of a product for
every item of its list.
-/

namespace FOmega

/-! ## Induction -/

/-- Induction over types; the items of a product come with their hypotheses. -/
@[elab_as_elim, induction_eliminator]
theorem Ty.inductionOn {motive : Ty → Prop}
    (lam : ∀ m x k body, motive body → motive (.lam m x k body))
    (all : ∀ m x k body, motive body → motive (.all m x k body))
    (ifix : ∀ m pattern arg, motive pattern → motive arg → motive (.ifix m pattern arg))
    (app : ∀ m f arg, motive f → motive arg → motive (.app m f arg))
    (fn : ∀ m domain codomain, motive domain → motive codomain → motive (.fn m domain codomain))
    (var : ∀ m x, motive (.var m x))
    (builtin : ∀ m b, motive (.builtin m b))
    (prod : ∀ m items, (∀ t ∈ items, motive t) → motive (.prod m items)) (t : Ty) : motive t := by
  refine @Ty.rec motive (fun items => ∀ t ∈ items, motive t) lam all ifix app fn var builtin prod
    ?_ ?_ t
  · intro t ht
    cases ht
  · intro head tail hhead htail t ht
    rcases List.mem_cons.mp ht with rfl | ht
    · exact hhead
    · exact htail t ht

/-- Induction over terms; the items of a product come with their hypotheses. -/
@[elab_as_elim, induction_eliminator]
theorem Term.inductionOn {motive : Term → Prop}
    (lam : ∀ m x type body, motive body → motive (.lam m x type body))
    (abs : ∀ m x k body, motive body → motive (.abs m x k body))
    (iwrap : ∀ m pattern arg t, motive t → motive (.iwrap m pattern arg t))
    (unwrap : ∀ m t, motive t → motive (.unwrap m t))
    (apply : ∀ m f arg, motive f → motive arg → motive (.apply m f arg))
    (inst : ∀ m t type, motive t → motive (.inst m t type))
    (error : ∀ m type, motive (.error m type))
    (var : ∀ m x, motive (.var m x))
    (constant : ∀ m c, motive (.constant m c))
    (builtin : ∀ m b, motive (.builtin m b))
    (prod : ∀ m items, (∀ t ∈ items, motive t) → motive (.prod m items))
    (proj : ∀ m index t, motive t → motive (.proj m index t)) (t : Term) : motive t := by
  refine @Term.rec motive (fun items => ∀ t ∈ items, motive t) lam abs iwrap unwrap apply inst error
    var constant builtin prod proj ?_ ?_ t
  · intro t ht
    cases ht
  · intro head tail hhead htail t ht
    rcases List.mem_cons.mp ht with rfl | ht
    · exact hhead
    · exact htail t ht

/-! ## Skeletons -/

/-- The spelling of a name, as a name. -/
def Name.spelling (x : Name) : Name :=
  ⟨x.text, 0⟩

/-- The skeleton of a kind. -/
def Kind.skeleton : Kind → Kind
  | .type _ => .type .absent
  | .arrow _ domain codomain => .arrow .absent domain.skeleton codomain.skeleton

mutual

/-- The skeleton of a type. -/
def Ty.skeleton : Ty → Ty
  | .lam _ x k body => .lam .absent x.spelling k.skeleton body.skeleton
  | .all _ x k body => .all .absent x.spelling k.skeleton body.skeleton
  | .ifix _ pattern arg => .ifix .absent pattern.skeleton arg.skeleton
  | .app _ f arg => .app .absent f.skeleton arg.skeleton
  | .fn _ domain codomain => .fn .absent domain.skeleton codomain.skeleton
  | .var _ x => .var .absent x.spelling
  | .builtin _ b => .builtin .absent b
  | .prod _ items => .prod .absent (Ty.skeletons items)

/-- The skeletons of the types of a list. -/
def Ty.skeletons : List Ty → List Ty
  | [] => []
  | t :: ts => t.skeleton :: Ty.skeletons ts

end

mutual

/-- The skeleton of a term. -/
def Term.skeleton : Term → Term
  | .lam _ x type body => .lam .absent x.spelling type.skeleton body.skeleton
  | .abs _ x k body => .abs .absent x.spelling k.skeleton body.skeleton
  | .iwrap _ pattern arg t => .iwrap .absent pattern.skeleton arg.skeleton t.skeleton
  | .unwrap _ t => .unwrap .absent t.skeleton
  | .apply _ f arg => .apply .absent f.skeleton arg.skeleton
  | .inst _ t type => .inst .absent t.skeleton type.skeleton
  | .error _ type => .error .absent type.skeleton
  | .var _ x => .var .absent x.spelling
  | .constant _ c => .constant .absent c
  | .builtin _ b => .builtin .absent b
  | .prod _ items => .prod .absent (Term.skeletons items)
  | .proj _ index t => .proj .absent index t.skeleton

/-- The skeletons of the terms of a list. -/
def Term.skeletons : List Term → List Term
  | [] => []
  | t :: ts => t.skeleton :: Term.skeletons ts

end

/-- The skeleton of a version: its three numbers. -/
def Version.skeleton (v : Version) : Version :=
  { v with mark := .absent }

/-- The skeleton of a program. -/
def Program.skeleton (p : Program) : Program :=
  ⟨.absent, p.version.skeleton, p.term.skeleton⟩

/-- The skeleton of a tree. -/
def Tree.skeleton : Tree → Tree
  | .kind k => .kind k.skeleton
  | .type t => .type t.skeleton
  | .term t => .term t.skeleton
  | .program p => .program p.skeleton

@[simp] theorem Ty.skeletons_eq_map (ts : List Ty) : Ty.skeletons ts = ts.map Ty.skeleton := by
  induction ts with
  | nil => rfl
  | cons t ts ih => rw [Ty.skeletons, ih, List.map_cons]

@[simp] theorem Term.skeletons_eq_map (ts : List Term) :
    Term.skeletons ts = ts.map Term.skeleton := by
  induction ts with
  | nil => rfl
  | cons t ts ih => rw [Term.skeletons, ih, List.map_cons]

end FOmega
