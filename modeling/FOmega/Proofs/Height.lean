import FOmega.Proofs.Sentence

/-!
# The height of what is read

The height of a tree is the number of nodes on its longest path, and so the number of levels that a
walk over it opens. A rule counts the levels of the phrases it reads, and there an application is one
level however many arguments it has; in the tree every argument takes a node of its own. The limit on
nesting bounds the height where all applications have one argument, but not in general: how high the
tree gets is told by a second measure of derivations, which counts arguments.
-/

namespace FOmega

open Terminal FOmega.Parser Grammar

/-! ## The height of a tree -/

/-- The number of nodes on the longest path of a kind. -/
def Kind.height : Kind → Nat
  | .type _ => 1
  | .arrow _ domain codomain => max domain.height codomain.height + 1

mutual

/-- The number of nodes on the longest path of a type, kinds included. -/
def Ty.height : Ty → Nat
  | .lam _ _ k body => max k.height body.height + 1
  | .all _ _ k body => max k.height body.height + 1
  | .ifix _ pattern arg => max pattern.height arg.height + 1
  | .app _ f arg => max f.height arg.height + 1
  | .fn _ domain codomain => max domain.height codomain.height + 1
  | .var _ _ => 1
  | .builtin _ _ => 1
  | .prod _ items => (Ty.heights items).foldr max 0 + 1

/-- The heights of types in a row. -/
def Ty.heights : List Ty → List Nat
  | [] => []
  | t :: ts => t.height :: Ty.heights ts

end

mutual

/-- The number of nodes on the longest path of a term, types and kinds included. -/
def Term.height : Term → Nat
  | .lam _ _ type body => max type.height body.height + 1
  | .abs _ _ k body => max k.height body.height + 1
  | .iwrap _ pattern arg t => max pattern.height (max arg.height t.height) + 1
  | .unwrap _ t => t.height + 1
  | .apply _ f arg => max f.height arg.height + 1
  | .inst _ t type => max t.height type.height + 1
  | .error _ type => type.height + 1
  | .var _ _ => 1
  | .constant _ _ => 1
  | .builtin _ _ => 1
  | .prod _ items => (Term.heights items).foldr max 0 + 1
  | .proj _ _ t => t.height + 1

/-- The heights of terms in a row. -/
def Term.heights : List Term → List Nat
  | [] => []
  | t :: ts => t.height :: Term.heights ts

end

@[simp] theorem Ty.heights_eq_map (ts : List Ty) : Ty.heights ts = ts.map Ty.height := by
  induction ts with
  | nil => rfl
  | cons t ts ih => rw [Ty.heights, ih, List.map_cons]

@[simp] theorem Term.heights_eq_map (ts : List Term) : Term.heights ts = ts.map Term.height := by
  induction ts with
  | nil => rfl
  | cons t ts ih => rw [Term.heights, ih, List.map_cons]

theorem map_map_eq {α β γ : Type} {f : α → β} {g : β → γ} {h : α → γ} {l : List α}
    (hl : ∀ a ∈ l, g (f a) = h a) : (l.map f).map g = l.map h := by
  rw [List.map_map]
  exact List.map_congr_left hl

theorem Kind.height_skeleton (k : Kind) : k.skeleton.height = k.height := by
  induction k with
  | type m => rfl
  | arrow m d c ihd ihc => rw [skeleton, height, ihd, ihc, height]

theorem Ty.height_skeleton (t : Ty) : t.skeleton.height = t.height := by
  induction t with
  | lam m x k body ih | all m x k body ih => simp only [skeleton, height, k.height_skeleton, ih]
  | ifix m d e ihd ihe | app m d e ihd ihe | fn m d e ihd ihe =>
    simp only [skeleton, height, ihd, ihe]
  | var m x => rfl
  | builtin m b => rfl
  | prod m items ih =>
    simp only [skeleton, height, heights_eq_map, skeletons_eq_map, map_map_eq ih]

theorem Term.height_skeleton (t : Term) : t.skeleton.height = t.height := by
  induction t with
  | lam m x type body ih => simp only [skeleton, height, type.height_skeleton, ih]
  | abs m x k body ih => simp only [skeleton, height, k.height_skeleton, ih]
  | iwrap m pattern arg t ih =>
    simp only [skeleton, height, pattern.height_skeleton, arg.height_skeleton, ih]
  | unwrap m t ih | proj m index t ih => simp only [skeleton, height, ih]
  | apply m f arg ihf iharg => simp only [skeleton, height, ihf, iharg]
  | inst m t type ih => simp only [skeleton, height, type.height_skeleton, ih]
  | error m type => simp only [skeleton, height, type.height_skeleton]
  | var m x => rfl
  | constant m c | builtin m b => rfl
  | prod m items ih =>
    simp only [skeleton, height, heights_eq_map, skeletons_eq_map, map_map_eq ih]

/-! ## The height of a derivation -/

/-- How far arguments reach down, given their heights: the last stands one node below the root of the
    application, and each one before it a node further. -/
def argumentsHeight : List Nat → Nat
  | [] => 0
  | arg :: args => max (arg + (args.length + 1)) (argumentsHeight args)

/-- The height of an application, given the heights of its head, which stands below one node for each
    argument, and of its arguments. -/
def nestHeight (head : Nat) (args : List Nat) : Nat :=
  max (head + args.length) (argumentsHeight args)

/-- Nodes with two children, nested to the left over arguments. -/
theorem height_foldl {α β : Type} {node : α → β → α} {f : α → Nat} {g : β → Nat}
    (hnode : ∀ a b, f (node a b) = max (f a) (g b) + 1) (head : α) (args : List β) :
    f (args.foldl node head) = nestHeight (f head) (args.map g) := by
  induction args generalizing head with
  | nil => exact (Nat.max_eq_left (Nat.zero_le _)).symm
  | cons arg args ih =>
    rw [List.foldl_cons, ih, hnode]
    simp only [nestHeight, List.map_cons, List.length_cons, argumentsHeight]
    omega

mutual

/-- The height of the tree of a type. -/
def TypeDerivation.height : TypeDerivation → Nat
  | .var _ => 1
  | .lam _ _ _ k d _ => max k.depth d.height + 1
  | .all _ _ _ k d _ => max k.depth d.height + 1
  | .ifix _ _ d e _ => max d.height e.height + 1
  | .fn _ _ d e _ => max d.height e.height + 1
  | .con _ _ _ _ => 1
  | .prod _ _ ds _ => (TypeDerivation.heights ds).foldr max 0 + 1
  | .app _ d e es _ => nestHeight d.height (e.height :: TypeDerivation.heights es)

/-- The heights of the trees of types in a row. -/
def TypeDerivation.heights : List TypeDerivation → List Nat
  | [] => []
  | d :: ds => d.height :: TypeDerivation.heights ds

end

mutual

/-- The height of the tree of a term. -/
def TermDerivation.height : TermDerivation → Nat
  | .var _ => 1
  | .lam _ _ _ t d _ => max t.height d.height + 1
  | .abs _ _ _ k d _ => max k.depth d.height + 1
  | .iwrap _ _ t u d _ => max t.height (max u.height d.height) + 1
  | .unwrap _ _ d _ => d.height + 1
  | .error _ _ t _ => t.height + 1
  | .con _ _ _ _ => 1
  | .builtin _ _ _ _ => 1
  | .prod _ _ ds _ => (TermDerivation.heights ds).foldr max 0 + 1
  | .proj _ _ _ d _ => d.height + 1
  | .apply _ d e es _ => nestHeight d.height (e.height :: TermDerivation.heights es)
  | .inst _ d t ts _ => nestHeight d.height (t.height :: TypeDerivation.heights ts)

/-- The heights of the trees of terms in a row. -/
def TermDerivation.heights : List TermDerivation → List Nat
  | [] => []
  | d :: ds => d.height :: TermDerivation.heights ds

end

@[simp] theorem TypeDerivation.heights_eq_map (ds : List TypeDerivation) :
    TypeDerivation.heights ds = ds.map TypeDerivation.height := by
  induction ds with
  | nil => rfl
  | cons d ds ih => rw [TypeDerivation.heights, ih, List.map_cons]

@[simp] theorem TermDerivation.heights_eq_map (ds : List TermDerivation) :
    TermDerivation.heights ds = ds.map TermDerivation.height := by
  induction ds with
  | nil => rfl
  | cons d ds ih => rw [TermDerivation.heights, ih, List.map_cons]

/-- A kind opens a level for each node on its longest path. -/
theorem KindDerivation.height_ast (d : KindDerivation) : d.ast.height = d.depth := by
  induction d with
  | type o w c => rfl
  | arrow o w d e c ihd ihe => rw [ast, Kind.height, ihd, ihe, depth]

theorem TypeDerivation.height_ast (d : TypeDerivation) : d.ast.height = d.height := by
  induction d with
  | var x => rfl
  | lam o w x k d c ih | all o w x k d c ih =>
    simp only [ast, Ty.height, height, k.height_ast, ih]
  | ifix o w d e c ihd ihe | fn o w d e c ihd ihe => simp only [ast, Ty.height, height, ihd, ihe]
  | con o w b c => rfl
  | prod o w ds c ih =>
    simp only [ast, Ty.height, height, Ty.heights_eq_map, heights_eq_map, asts_eq_map,
      map_map_eq ih]
  | app o d e es c ihd ihe ihes =>
    have hfold := height_foldl (fun f arg => (rfl : (Ty.app .absent f arg).height = _)) d.ast
      (e.ast :: es.map ast)
    rw [List.map_cons, map_map_eq ihes, ihd, ihe] at hfold
    rw [ast, asts_eq_map, height, heights_eq_map]
    exact hfold

theorem TermDerivation.height_ast (d : TermDerivation) : d.ast.height = d.height := by
  induction d with
  | var x => rfl
  | lam o w x t d c ih => simp only [ast, Term.height, height, t.height_ast, ih]
  | abs o w x k d c ih => simp only [ast, Term.height, height, k.height_ast, ih]
  | iwrap o w t u d c ih => simp only [ast, Term.height, height, t.height_ast, u.height_ast, ih]
  | unwrap o w d c ih | proj o w n d c ih => simp only [ast, Term.height, height, ih]
  | error o w t c => simp only [ast, Term.height, height, t.height_ast]
  | con o w k c => rfl
  | builtin o w b c => rfl
  | prod o w ds c ih =>
    simp only [ast, Term.height, height, Term.heights_eq_map, heights_eq_map, asts_eq_map,
      map_map_eq ih]
  | apply o d e es c ihd ihe ihes =>
    have hfold := height_foldl (fun f arg => (rfl : (Term.apply .absent f arg).height = _)) d.ast
      (e.ast :: es.map ast)
    rw [List.map_cons, map_map_eq ihes, ihd, ihe] at hfold
    rw [ast, asts_eq_map, height, heights_eq_map]
    exact hfold
  | inst o d t ts c ih =>
    have hfold := height_foldl (fun t type => (rfl : (Term.inst .absent t type).height = _)) d.ast
      (t.ast :: ts.map TypeDerivation.ast)
    rw [List.map_cons, map_map_eq fun t _ => t.height_ast, ih, t.height_ast] at hfold
    rw [ast, TypeDerivation.asts_eq_map, height, TypeDerivation.heights_eq_map]
    exact hfold

/-! ## Applications to one argument -/

mutual

/-- Holds when every application in a type has one argument. -/
def TypeDerivation.Unary : TypeDerivation → Prop
  | .var _ => True
  | .lam _ _ _ _ d _ => d.Unary
  | .all _ _ _ _ d _ => d.Unary
  | .ifix _ _ d e _ => d.Unary ∧ e.Unary
  | .fn _ _ d e _ => d.Unary ∧ e.Unary
  | .con _ _ _ _ => True
  | .prod _ _ ds _ => TypeDerivation.AllUnary ds
  | .app _ d e es _ => d.Unary ∧ e.Unary ∧ es = []

/-- Holds when every application in types in a row has one argument. -/
def TypeDerivation.AllUnary : List TypeDerivation → Prop
  | [] => True
  | d :: ds => d.Unary ∧ TypeDerivation.AllUnary ds

end

mutual

/-- Holds when every application and every instantiation in a term has one argument. -/
def TermDerivation.Unary : TermDerivation → Prop
  | .var _ => True
  | .lam _ _ _ t d _ => t.Unary ∧ d.Unary
  | .abs _ _ _ _ d _ => d.Unary
  | .iwrap _ _ t u d _ => t.Unary ∧ u.Unary ∧ d.Unary
  | .unwrap _ _ d _ => d.Unary
  | .error _ _ t _ => t.Unary
  | .con _ _ _ _ => True
  | .builtin _ _ _ _ => True
  | .prod _ _ ds _ => TermDerivation.AllUnary ds
  | .proj _ _ _ d _ => d.Unary
  | .apply _ d e es _ => d.Unary ∧ e.Unary ∧ es = []
  | .inst _ d t ts _ => d.Unary ∧ t.Unary ∧ ts = []

/-- Holds when every application and every instantiation in terms in a row has one argument. -/
def TermDerivation.AllUnary : List TermDerivation → Prop
  | [] => True
  | d :: ds => d.Unary ∧ TermDerivation.AllUnary ds

end

/-- An application to one argument is one node above its head and its argument. -/
theorem nestHeight_singleton (head arg : Nat) : nestHeight head [arg] = max head arg + 1 := by
  simp only [nestHeight, argumentsHeight, List.length_cons, List.length_nil]
  omega

theorem TypeDerivation.heights_le_maxDepth {ds : List TypeDerivation}
    (h : ∀ d ∈ ds, d.Unary → d.height ≤ d.depth) (hunary : AllUnary ds) :
    (heights ds).foldr max 0 ≤ maxDepth ds := by
  induction ds with
  | nil => exact Nat.le_refl 0
  | cons d ds ih =>
    rcases hunary with ⟨hd, hds⟩
    have hhead := h d List.mem_cons_self hd
    have htail := ih (fun e he => h e (List.mem_cons_of_mem d he)) hds
    simp only [heights, List.foldr_cons, maxDepth]
    omega

theorem TypeDerivation.height_le_depth (d : TypeDerivation) (h : d.Unary) :
    d.height ≤ d.depth := by
  induction d with
  | var x => exact Nat.le_refl 1
  | lam o w x k d c ih | all o w x k d c ih =>
    have hd := ih h
    simp only [height, depth]
    omega
  | ifix o w d e c ihd ihe | fn o w d e c ihd ihe =>
    have hd := ihd h.1
    have he := ihe h.2
    simp only [height, depth]
    omega
  | con o w b c => exact Nat.le_refl 1
  | prod o w ds c ih =>
    have hds := heights_le_maxDepth ih h
    simp only [height, depth]
    omega
  | app o d e es c ihd ihe ihes =>
    rcases h with ⟨hd, he, rfl⟩
    have hhead := ihd hd
    have harg := ihe he
    simp only [height, heights, nestHeight_singleton, depth]
    omega

theorem TermDerivation.heights_le_maxDepth {ds : List TermDerivation}
    (h : ∀ d ∈ ds, d.Unary → d.height ≤ d.depth) (hunary : AllUnary ds) :
    (heights ds).foldr max 0 ≤ maxDepth ds := by
  induction ds with
  | nil => exact Nat.le_refl 0
  | cons d ds ih =>
    rcases hunary with ⟨hd, hds⟩
    have hhead := h d List.mem_cons_self hd
    have htail := ih (fun e he => h e (List.mem_cons_of_mem d he)) hds
    simp only [heights, List.foldr_cons, maxDepth]
    omega

theorem TermDerivation.height_le_depth (d : TermDerivation) (h : d.Unary) :
    d.height ≤ d.depth := by
  induction d with
  | var x => exact Nat.le_refl 1
  | lam o w x t d c ih =>
    have ht := t.height_le_depth h.1
    have hd := ih h.2
    simp only [height, depth]
    omega
  | abs o w x k d c ih =>
    have hd := ih h
    simp only [height, depth]
    omega
  | iwrap o w t u d c ih =>
    rcases h with ⟨ht, hu, hd⟩
    have htype := t.height_le_depth ht
    have harg := u.height_le_depth hu
    have hterm := ih hd
    simp only [height, depth]
    omega
  | unwrap o w d c ih | proj o w n d c ih =>
    have hd := ih h
    simp only [height, depth]
    omega
  | error o w t c =>
    have ht := t.height_le_depth h
    simp only [height, depth]
    omega
  | con o w k c =>
    simp only [height, depth]
    omega
  | builtin o w b c => exact Nat.le_refl 1
  | prod o w ds c ih =>
    have hds := heights_le_maxDepth ih h
    simp only [height, depth]
    omega
  | apply o d e es c ihd ihe ihes =>
    rcases h with ⟨hd, he, rfl⟩
    have hhead := ihd hd
    have harg := ihe he
    simp only [height, heights, nestHeight_singleton, depth]
    omega
  | inst o d t ts c ih =>
    rcases h with ⟨hd, ht, rfl⟩
    have hhead := ih hd
    have harg := t.height_le_depth ht
    simp only [height, TypeDerivation.heights, nestHeight_singleton, depth]
    omega

/-! ## Trees above the limit -/

namespace Phrase

/-- The number of kinds, types and terms on the longest path of an answer. A constant has none. -/
def height : (p : Phrase) → p.Answer → Nat
  | program => fun a => Term.height a.term
  | term => Term.height
  | type => Ty.height
  | kind => Kind.height
  | constant => fun _ => 0

/-- The height of the tree of a derivation. -/
def derivedHeight : (p : Phrase) → p.Derivation → Nat
  | program => fun d => TermDerivation.height d.term
  | term => TermDerivation.height
  | type => TypeDerivation.height
  | kind => KindDerivation.depth
  | constant => fun _ => 0

/-- Holds when every application and every instantiation has one argument. -/
def Unary : (p : Phrase) → p.Derivation → Prop
  | program => fun d => TermDerivation.Unary d.term
  | term => TermDerivation.Unary
  | type => TypeDerivation.Unary
  | kind => fun _ => True
  | constant => fun _ => True

variable {p : Phrase}

theorem height_skeleton (a : p.Answer) : p.height (p.skeleton a) = p.height a := by
  cases p with
  | program => exact Term.height_skeleton a.term
  | term => exact Term.height_skeleton a
  | type => exact Ty.height_skeleton a
  | kind => exact Kind.height_skeleton a
  | constant => rfl

theorem height_ast (d : p.Derivation) : p.height (p.ast d) = p.derivedHeight d := by
  cases p with
  | program => exact TermDerivation.height_ast d.term
  | term => exact TermDerivation.height_ast d
  | type => exact TypeDerivation.height_ast d
  | kind => exact KindDerivation.height_ast d
  | constant => rfl

theorem derivedHeight_le_depth (d : p.Derivation) (h : p.Unary d) :
    p.derivedHeight d ≤ p.depth d := by
  cases p with
  | program => exact TermDerivation.height_le_depth d.term h
  | term => exact TermDerivation.height_le_depth d h
  | type => exact TypeDerivation.height_le_depth d h
  | kind => exact Nat.le_refl _
  | constant => exact Nat.zero_le _

theorem height_eq_derivedHeight {a : p.Answer} {d : p.Derivation} (h : p.skeleton a = p.ast d) :
    p.height a = p.derivedHeight d := by
  rw [← height_skeleton, h, height_ast]

/-- A source is read into a tree that is higher than the limit exactly when it has a derivation that
    is no deeper than the limit, but whose tree is higher. This takes an application or an
    instantiation with several arguments. -/
theorem tree_exceeds_limit_iff (p : Phrase) (maxDepth : Nat) (supply : Supply)
    (label src : String) :
    ((∃ a, (parseWith maxDepth supply p.rule label src).result = .ok a ∧
        maxDepth < p.height a) ↔
      (lexSkippingComments src).errors = [] ∧
        ∃ d : p.Derivation, p.tokens d = (lexSkippingComments src).tokens ∧
          p.depth d ≤ maxDepth ∧ maxDepth < p.derivedHeight d) ∧
      ∀ d : p.Derivation, p.Unary d → p.derivedHeight d ≤ p.depth d := by
  refine ⟨⟨?_, ?_⟩, derivedHeight_le_depth⟩
  · rintro ⟨a, hparse, hhigh⟩
    rcases parseWith_eq_ok_iff.mp hparse with ⟨herrors, s, hwhole⟩
    rcases whole_derives (c := sourceContext maxDepth src) hwhole with ⟨d, hdepth, htokens, hast⟩
    rw [height_eq_derivedHeight hast] at hhigh
    exact ⟨herrors, d, htokens, hdepth, hhigh⟩
  · rintro ⟨herrors, d, htokens, hdepth, hhigh⟩
    rcases whole_read (c := sourceContext maxDepth src) (i := .ofSupply supply) d hdepth htokens with
      ⟨a, s, hread, hast⟩
    rw [← height_eq_derivedHeight hast] at hhigh
    exact ⟨a, parseWith_eq_ok_iff.mpr ⟨herrors, s, hread⟩, hhigh⟩

/-- At the limit two, the phrase `[f x y]` is read into a tree with three nodes on one path. -/
theorem twoArguments_exceeds_limit :
    ∃ t, (parseWith 2 .empty Grammar.term "t" "[f x y]").result = .ok t ∧ 2 < t.height := by
  have htokens : twoArguments.tokens = (lexSkippingComments "[f x y]").tokens := by decide +kernel
  have herrors : (lexSkippingComments "[f x y]").errors = [] := by decide +kernel
  rcases whole_read (p := term) (c := sourceContext 2 "[f x y]") (i := .ofSupply .empty)
    twoArguments (Nat.le_refl 2) htokens with ⟨t, s, hread, hast⟩
  have hheight : Term.height t = 3 := height_eq_derivedHeight (p := term) hast
  exact ⟨t, parseWith_eq_ok_iff.mpr ⟨herrors, s, hread⟩, by omega⟩

end Phrase

end FOmega
