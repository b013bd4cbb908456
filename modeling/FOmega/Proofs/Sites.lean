import FOmega.Scope.Entry
import FOmega.Proofs.Skeleton

/-!
# The places of a tree where names stand

The sites of a tree are its binders and variables in the order of a walk: a binder before its kind
or type and its body, children from left to right, the items of a product in order. Each site is
given with its role, its name and the mark at its node. All other nodes have no name; their marks
are listed apart.

Skeleton, sites and other marks together hold everything there is in a tree.
-/

namespace FOmega

/-! ## Sites -/

mutual

/-- The sites of a type. -/
def Ty.sites : Ty → List ScopeEntry
  | .lam m x _ body => ⟨.binder, ⟨.type, x⟩, m⟩ :: body.sites
  | .all m x _ body => ⟨.binder, ⟨.type, x⟩, m⟩ :: body.sites
  | .ifix _ pattern arg => pattern.sites ++ arg.sites
  | .app _ f arg => f.sites ++ arg.sites
  | .fn _ domain codomain => domain.sites ++ codomain.sites
  | .var m x => [⟨.free, ⟨.type, x⟩, m⟩]
  | .builtin _ _ => []
  | .prod _ items => Ty.allSites items

/-- The sites of types in a row. -/
def Ty.allSites : List Ty → List ScopeEntry
  | [] => []
  | t :: ts => t.sites ++ Ty.allSites ts

end

mutual

/-- The sites of a term. -/
def Term.sites : Term → List ScopeEntry
  | .lam m x type body => ⟨.binder, ⟨.term, x⟩, m⟩ :: (type.sites ++ body.sites)
  | .abs m x _ body => ⟨.binder, ⟨.type, x⟩, m⟩ :: body.sites
  | .iwrap _ pattern arg t => pattern.sites ++ arg.sites ++ t.sites
  | .unwrap _ t => t.sites
  | .apply _ f arg => f.sites ++ arg.sites
  | .inst _ t type => t.sites ++ type.sites
  | .error _ type => type.sites
  | .var m x => [⟨.free, ⟨.term, x⟩, m⟩]
  | .constant _ _ => []
  | .builtin _ _ => []
  | .prod _ items => Term.allSites items
  | .proj _ _ t => t.sites

/-- The sites of terms in a row. -/
def Term.allSites : List Term → List ScopeEntry
  | [] => []
  | t :: ts => t.sites ++ Term.allSites ts

end

/-- The sites of a tree. Kinds have none. -/
def Tree.sites : Tree → List ScopeEntry
  | .kind _ => []
  | .type t => t.sites
  | .term t => t.sites
  | .program p => p.term.sites

/-! ## Other marks -/

/-- The marks of the nodes of a kind. -/
def Kind.marks : Kind → List Mark
  | .type m => [m]
  | .arrow m domain codomain => m :: (domain.marks ++ codomain.marks)

mutual

/-- The marks of the nodes of a type that have no name. -/
def Ty.plainMarks : Ty → List Mark
  | .lam _ _ k body => k.marks ++ body.plainMarks
  | .all _ _ k body => k.marks ++ body.plainMarks
  | .ifix m pattern arg => m :: (pattern.plainMarks ++ arg.plainMarks)
  | .app m f arg => m :: (f.plainMarks ++ arg.plainMarks)
  | .fn m domain codomain => m :: (domain.plainMarks ++ codomain.plainMarks)
  | .var _ _ => []
  | .builtin m _ => [m]
  | .prod m items => m :: Ty.allPlainMarks items

/-- The marks of the nodes without a name of types in a row. -/
def Ty.allPlainMarks : List Ty → List Mark
  | [] => []
  | t :: ts => t.plainMarks ++ Ty.allPlainMarks ts

end

mutual

/-- The marks of the nodes of a term that have no name. -/
def Term.plainMarks : Term → List Mark
  | .lam _ _ type body => type.plainMarks ++ body.plainMarks
  | .abs _ _ k body => k.marks ++ body.plainMarks
  | .iwrap m pattern arg t => m :: (pattern.plainMarks ++ arg.plainMarks ++ t.plainMarks)
  | .unwrap m t => m :: t.plainMarks
  | .apply m f arg => m :: (f.plainMarks ++ arg.plainMarks)
  | .inst m t type => m :: (t.plainMarks ++ type.plainMarks)
  | .error m type => m :: type.plainMarks
  | .var _ _ => []
  | .constant m _ => [m]
  | .builtin m _ => [m]
  | .prod m items => m :: Term.allPlainMarks items
  | .proj m _ t => m :: t.plainMarks

/-- The marks of the nodes without a name of terms in a row. -/
def Term.allPlainMarks : List Term → List Mark
  | [] => []
  | t :: ts => t.plainMarks ++ Term.allPlainMarks ts

end

/-- The marks of the nodes of a tree that have no name; a program has two of its own, at its root and
    at its version. -/
def Tree.plainMarks : Tree → List Mark
  | .kind k => k.marks
  | .type t => t.plainMarks
  | .term t => t.plainMarks
  | .program p => p.mark :: p.version.mark :: p.term.plainMarks

@[simp] theorem Ty.allSites_eq_flatMap (ts : List Ty) : Ty.allSites ts = ts.flatMap Ty.sites := by
  induction ts with
  | nil => rfl
  | cons t ts ih => rw [Ty.allSites, ih, List.flatMap_cons]

@[simp] theorem Term.allSites_eq_flatMap (ts : List Term) :
    Term.allSites ts = ts.flatMap Term.sites := by
  induction ts with
  | nil => rfl
  | cons t ts ih => rw [Term.allSites, ih, List.flatMap_cons]

@[simp] theorem Ty.allPlainMarks_eq_flatMap (ts : List Ty) :
    Ty.allPlainMarks ts = ts.flatMap Ty.plainMarks := by
  induction ts with
  | nil => rfl
  | cons t ts ih => rw [Ty.allPlainMarks, ih, List.flatMap_cons]

@[simp] theorem Term.allPlainMarks_eq_flatMap (ts : List Term) :
    Term.allPlainMarks ts = ts.flatMap Term.plainMarks := by
  induction ts with
  | nil => rfl
  | cons t ts ih => rw [Term.allPlainMarks, ih, List.flatMap_cons]

/-! ## The number of other marks is told by the skeleton -/

theorem length_flatMap_map {α β : Type} {f : α → α} {g : α → List β} {l : List α}
    (h : ∀ a ∈ l, (g (f a)).length = (g a).length) :
    ((l.map f).flatMap g).length = (l.flatMap g).length := by
  rw [List.flatMap_map, List.length_flatMap, List.length_flatMap, List.map_congr_left h]

theorem Kind.length_marks_skeleton (k : Kind) : k.skeleton.marks.length = k.marks.length := by
  induction k with
  | type m => rfl
  | arrow m d c ihd ihc => simp only [skeleton, marks, List.length_cons, List.length_append, ihd, ihc]

theorem Ty.length_plainMarks_skeleton (t : Ty) :
    t.skeleton.plainMarks.length = t.plainMarks.length := by
  induction t with
  | lam m x k body ih | all m x k body ih =>
    simp only [skeleton, plainMarks, List.length_append, ih, k.length_marks_skeleton]
  | ifix m d e ihd ihe | app m d e ihd ihe | fn m d e ihd ihe =>
    simp only [skeleton, plainMarks, List.length_cons, List.length_append, ihd, ihe]
  | var m x => rfl
  | builtin m b => rfl
  | prod m items ih =>
    simp only [skeleton, plainMarks, List.length_cons, skeletons_eq_map, allPlainMarks_eq_flatMap]
    rw [length_flatMap_map ih]

theorem Term.length_plainMarks_skeleton (t : Term) :
    t.skeleton.plainMarks.length = t.plainMarks.length := by
  induction t with
  | lam m x type body ih =>
    simp only [skeleton, plainMarks, List.length_append, ih, type.length_plainMarks_skeleton]
  | abs m x k body ih =>
    simp only [skeleton, plainMarks, List.length_append, ih, k.length_marks_skeleton]
  | iwrap m pattern arg t ih =>
    simp only [skeleton, plainMarks, List.length_cons, List.length_append, ih,
      pattern.length_plainMarks_skeleton, arg.length_plainMarks_skeleton]
  | unwrap m t ih | proj m index t ih => simp only [skeleton, plainMarks, List.length_cons, ih]
  | apply m f arg ihf iharg =>
    simp only [skeleton, plainMarks, List.length_cons, List.length_append, ihf, iharg]
  | inst m t type ih =>
    simp only [skeleton, plainMarks, List.length_cons, List.length_append, ih,
      type.length_plainMarks_skeleton]
  | error m type =>
    simp only [skeleton, plainMarks, List.length_cons, type.length_plainMarks_skeleton]
  | var m x => rfl
  | constant m c | builtin m b => rfl
  | prod m items ih =>
    simp only [skeleton, plainMarks, List.length_cons, skeletons_eq_map, allPlainMarks_eq_flatMap]
    rw [length_flatMap_map ih]

theorem Tree.length_plainMarks_skeleton (t : Tree) :
    t.skeleton.plainMarks.length = t.plainMarks.length := by
  cases t with
  | kind k => exact k.length_marks_skeleton
  | type t => exact t.length_plainMarks_skeleton
  | term t => exact t.length_plainMarks_skeleton
  | program p =>
    simp only [skeleton, Program.skeleton, plainMarks, List.length_cons,
      p.term.length_plainMarks_skeleton]

/-! ## Trees are determined by skeleton, sites and other marks -/

section

variable {α β : Type} {shape : α → α} {sites : α → List ScopeEntry} {marks : α → List Mark}
  {shape' : β → β} {sites' : β → List ScopeEntry} {marks' : β → List Mark}

/-- A tree can be told from its skeleton, its sites and its other marks. There is room for what
    follows the tree in the lists, so that the children of a node can be taken off one by one. -/
def Told (shape : α → α) (sites : α → List ScopeEntry) (marks : α → List Mark) (a : α) : Prop :=
  ∀ (b : α) (es es' : List ScopeEntry) (ms ms' : List Mark), shape a = shape b →
    sites a ++ es = sites b ++ es' → marks a ++ ms = marks b ++ ms' → a = b ∧ es = es' ∧ ms = ms'

theorem Told.pair {a a' : α} {b b' : β} (ha : Told shape sites marks a)
    (hb : Told shape' sites' marks' b) {es es' : List ScopeEntry} {ms ms' : List Mark}
    (hshape : shape a = shape a' ∧ shape' b = shape' b')
    (hsites : sites a ++ sites' b ++ es = sites a' ++ sites' b' ++ es')
    (hmarks : marks a ++ marks' b ++ ms = marks a' ++ marks' b' ++ ms') :
    a = a' ∧ b = b' ∧ es = es' ∧ ms = ms' := by
  rw [List.append_assoc, List.append_assoc] at hsites hmarks
  obtain ⟨rfl, hrest, hrest'⟩ := ha a' _ _ _ _ hshape.1 hsites hmarks
  obtain ⟨rfl, rfl, rfl⟩ := hb b' _ _ _ _ hshape.2 hrest hrest'
  exact ⟨rfl, rfl, rfl, rfl⟩

theorem Told.list {as bs : List α} (h : ∀ a ∈ as, Told shape sites marks a)
    {es es' : List ScopeEntry} {ms ms' : List Mark} (hshape : as.map shape = bs.map shape)
    (hsites : as.flatMap sites ++ es = bs.flatMap sites ++ es')
    (hmarks : as.flatMap marks ++ ms = bs.flatMap marks ++ ms') :
    as = bs ∧ es = es' ∧ ms = ms' := by
  induction as generalizing bs es es' ms ms' with
  | nil =>
    cases bs with
    | nil => exact ⟨rfl, hsites, hmarks⟩
    | cons b bs => cases hshape
  | cons a as ih =>
    cases bs with
    | nil => cases hshape
    | cons b bs =>
      simp only [List.flatMap_cons, List.append_assoc] at hsites hmarks
      simp only [List.map_cons, List.cons.injEq] at hshape
      obtain ⟨rfl, hrest, hrest'⟩ := h a List.mem_cons_self b _ _ _ _ hshape.1 hsites hmarks
      obtain ⟨rfl, rfl, rfl⟩ := ih (fun a ha => h a (List.mem_cons_of_mem _ ha)) hshape.2 hrest hrest'
      exact ⟨rfl, rfl, rfl⟩

end

theorem Kind.told (a : Kind) : Told Kind.skeleton (fun _ => []) Kind.marks a := by
  induction a with
  | type m =>
    intro b es es' ms ms' hshape hsites hmarks
    cases b with
    | type m' =>
      obtain ⟨rfl, rfl⟩ := List.cons.inj hmarks
      exact ⟨rfl, hsites, rfl⟩
    | arrow => cases hshape
  | arrow m d c ihd ihc =>
    intro b es es' ms ms' hshape hsites hmarks
    cases b with
    | type => cases hshape
    | arrow m' d' c' =>
      simp only [Kind.skeleton, Kind.arrow.injEq, true_and] at hshape
      obtain ⟨rfl, hinner⟩ := List.cons.inj hmarks
      obtain ⟨rfl, rfl, hrest⟩ := ihd.pair ihc hshape hsites hinner
      exact ⟨rfl, hrest⟩

theorem Ty.told (a : Ty) : Told Ty.skeleton Ty.sites Ty.plainMarks a := by
  induction a with
  | lam m x k body ih | all m x k body ih =>
    intro b es es' ms ms' hshape hsites hmarks
    cases b <;> try cases hshape
    next m' x' k' body' =>
      simp only [Ty.skeleton, Ty.lam.injEq, Ty.all.injEq, true_and] at hshape
      obtain ⟨hsite, hbelow⟩ := List.cons.inj hsites
      cases hsite
      obtain ⟨rfl, rfl, hrest⟩ := k.told.pair ih hshape.2 hbelow hmarks
      exact ⟨rfl, hrest⟩
  | ifix m d e ihd ihe | app m d e ihd ihe | fn m d e ihd ihe =>
    intro b es es' ms ms' hshape hsites hmarks
    cases b <;> try cases hshape
    next m' d' e' =>
      simp only [Ty.skeleton, Ty.ifix.injEq, Ty.app.injEq, Ty.fn.injEq, true_and] at hshape
      obtain ⟨rfl, hinner⟩ := List.cons.inj hmarks
      obtain ⟨rfl, rfl, hrest⟩ := ihd.pair ihe hshape hsites hinner
      exact ⟨rfl, hrest⟩
  | var m x =>
    intro b es es' ms ms' hshape hsites hmarks
    cases b with
    | var m' x' =>
      obtain ⟨hsite, rfl⟩ := List.cons.inj hsites
      cases hsite
      exact ⟨rfl, rfl, hmarks⟩
    | _ => cases hshape
  | builtin m b =>
    intro b es es' ms ms' hshape hsites hmarks
    cases b <;> cases hshape
    obtain ⟨rfl, hinner⟩ := List.cons.inj hmarks
    exact ⟨rfl, hsites, hinner⟩
  | prod m items ih =>
    intro b es es' ms ms' hshape hsites hmarks
    cases b with
    | prod m' items' =>
      simp only [Ty.skeleton, Ty.prod.injEq, true_and, Ty.skeletons_eq_map] at hshape
      simp only [Ty.sites, Ty.allSites_eq_flatMap] at hsites
      simp only [Ty.plainMarks, Ty.allPlainMarks_eq_flatMap] at hmarks
      obtain ⟨rfl, hinner⟩ := List.cons.inj hmarks
      obtain ⟨rfl, hrest⟩ := Told.list ih hshape hsites hinner
      exact ⟨rfl, hrest⟩
    | _ => cases hshape

theorem Term.told (a : Term) : Told Term.skeleton Term.sites Term.plainMarks a := by
  induction a with
  | lam m x type body ih =>
    intro b es es' ms ms' hshape hsites hmarks
    cases b with
    | lam m' x' type' body' =>
      simp only [Term.skeleton, Term.lam.injEq, true_and] at hshape
      obtain ⟨hsite, hbelow⟩ := List.cons.inj hsites
      cases hsite
      obtain ⟨rfl, rfl, hrest⟩ := type.told.pair ih hshape.2 hbelow hmarks
      exact ⟨rfl, hrest⟩
    | _ => cases hshape
  | abs m x k body ih =>
    intro b es es' ms ms' hshape hsites hmarks
    cases b with
    | abs m' x' k' body' =>
      simp only [Term.skeleton, Term.abs.injEq, true_and] at hshape
      obtain ⟨hsite, hbelow⟩ := List.cons.inj hsites
      cases hsite
      obtain ⟨rfl, rfl, hrest⟩ := k.told.pair ih hshape.2 hbelow hmarks
      exact ⟨rfl, hrest⟩
    | _ => cases hshape
  | iwrap m pattern arg t ih =>
    intro b es es' ms ms' hshape hsites hmarks
    cases b with
    | iwrap m' pattern' arg' t' =>
      simp only [Term.skeleton, Term.iwrap.injEq, true_and] at hshape
      simp only [Term.sites, List.append_assoc] at hsites
      simp only [Term.plainMarks, List.cons_append, List.append_assoc, List.cons.injEq] at hmarks
      obtain ⟨rfl, hinner⟩ := hmarks
      obtain ⟨rfl, hsites', hinner'⟩ := pattern.told pattern' _ _ _ _ hshape.1 hsites hinner
      rw [← List.append_assoc, ← List.append_assoc] at hsites' hinner'
      obtain ⟨rfl, rfl, hrest⟩ := arg.told.pair ih hshape.2 hsites' hinner'
      exact ⟨rfl, hrest⟩
    | _ => cases hshape
  | apply m f arg ihf iharg =>
    intro b es es' ms ms' hshape hsites hmarks
    cases b with
    | apply m' f' arg' =>
      simp only [Term.skeleton, Term.apply.injEq, true_and] at hshape
      obtain ⟨rfl, hinner⟩ := List.cons.inj hmarks
      obtain ⟨rfl, rfl, hrest⟩ := ihf.pair iharg hshape hsites hinner
      exact ⟨rfl, hrest⟩
    | _ => cases hshape
  | inst m t type ih =>
    intro b es es' ms ms' hshape hsites hmarks
    cases b with
    | inst m' t' type' =>
      simp only [Term.skeleton, Term.inst.injEq, true_and] at hshape
      obtain ⟨rfl, hinner⟩ := List.cons.inj hmarks
      obtain ⟨rfl, rfl, hrest⟩ := ih.pair type.told hshape hsites hinner
      exact ⟨rfl, hrest⟩
    | _ => cases hshape
  | unwrap m t ih =>
    intro b es es' ms ms' hshape hsites hmarks
    cases b with
    | unwrap m' t' =>
      simp only [Term.skeleton, Term.unwrap.injEq, true_and] at hshape
      obtain ⟨rfl, hinner⟩ := List.cons.inj hmarks
      obtain ⟨rfl, hrest⟩ := ih t' _ _ _ _ hshape hsites hinner
      exact ⟨rfl, hrest⟩
    | _ => cases hshape
  | error m type =>
    intro b es es' ms ms' hshape hsites hmarks
    cases b with
    | error m' type' =>
      simp only [Term.skeleton, Term.error.injEq, true_and] at hshape
      obtain ⟨rfl, hinner⟩ := List.cons.inj hmarks
      obtain ⟨rfl, hrest⟩ := type.told type' _ _ _ _ hshape hsites hinner
      exact ⟨rfl, hrest⟩
    | _ => cases hshape
  | var m x =>
    intro b es es' ms ms' hshape hsites hmarks
    cases b with
    | var m' x' =>
      obtain ⟨hsite, rfl⟩ := List.cons.inj hsites
      cases hsite
      exact ⟨rfl, rfl, hmarks⟩
    | _ => cases hshape
  | constant m c | builtin m b =>
    intro b es es' ms ms' hshape hsites hmarks
    cases b <;> cases hshape
    obtain ⟨rfl, hinner⟩ := List.cons.inj hmarks
    exact ⟨rfl, hsites, hinner⟩
  | prod m items ih =>
    intro b es es' ms ms' hshape hsites hmarks
    cases b with
    | prod m' items' =>
      simp only [Term.skeleton, Term.prod.injEq, true_and, Term.skeletons_eq_map] at hshape
      simp only [Term.sites, Term.allSites_eq_flatMap] at hsites
      simp only [Term.plainMarks, Term.allPlainMarks_eq_flatMap] at hmarks
      obtain ⟨rfl, hinner⟩ := List.cons.inj hmarks
      obtain ⟨rfl, hrest⟩ := Told.list ih hshape hsites hinner
      exact ⟨rfl, hrest⟩
    | _ => cases hshape
  | proj m index t ih =>
    intro b es es' ms ms' hshape hsites hmarks
    cases b with
    | proj m' index' t' =>
      simp only [Term.skeleton, Term.proj.injEq, true_and] at hshape
      obtain ⟨rfl, hshape⟩ := hshape
      obtain ⟨rfl, hinner⟩ := List.cons.inj hmarks
      obtain ⟨rfl, hrest⟩ := ih t' _ _ _ _ hshape hsites hinner
      exact ⟨rfl, hrest⟩
    | _ => cases hshape

/-- Two trees with one skeleton, the same sites and the same other marks are equal. -/
theorem Tree.eq_of_skeleton_eq {a b : Tree} (hshape : a.skeleton = b.skeleton)
    (hsites : a.sites = b.sites) (hmarks : a.plainMarks = b.plainMarks) : a = b := by
  rw [← List.append_nil a.sites, ← List.append_nil b.sites] at hsites
  rw [← List.append_nil a.plainMarks, ← List.append_nil b.plainMarks] at hmarks
  cases a with
  | kind k =>
    cases b with
    | kind k' =>
      simp only [Tree.skeleton, Tree.kind.injEq] at hshape
      rw [(k.told k' _ _ _ _ hshape hsites hmarks).1]
    | _ => cases hshape
  | type t =>
    cases b with
    | type t' =>
      simp only [Tree.skeleton, Tree.type.injEq] at hshape
      rw [(t.told t' _ _ _ _ hshape hsites hmarks).1]
    | _ => cases hshape
  | term t =>
    cases b with
    | term t' =>
      simp only [Tree.skeleton, Tree.term.injEq] at hshape
      rw [(t.told t' _ _ _ _ hshape hsites hmarks).1]
    | _ => cases hshape
  | program p =>
    cases b with
    | program p' =>
      obtain ⟨m, ⟨mv, major, minor, patch⟩, t⟩ := p
      obtain ⟨m', ⟨mv', major', minor', patch'⟩, t'⟩ := p'
      simp only [Tree.skeleton, Program.skeleton, Version.skeleton, Tree.program.injEq,
        Program.mk.injEq, Version.mk.injEq, true_and] at hshape
      simp only [Tree.plainMarks, List.cons_append, List.cons.injEq] at hmarks
      obtain ⟨⟨rfl, rfl, rfl⟩, hshape⟩ := hshape
      obtain ⟨rfl, rfl, hmarks⟩ := hmarks
      rw [(t.told t' _ _ _ _ hshape hsites hmarks).1]
    | _ => cases hshape

end FOmega
