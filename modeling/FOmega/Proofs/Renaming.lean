import FOmega.Scope.Rename
import FOmega.Proofs.Sites

/-!
# What renaming does to a tree

Renaming numbers the sites of a tree from left to right, starting where the supply stands, and puts
each of them before the registrar once, with the name as it will be; the answer becomes the mark of
the site. Nothing else changes but the other marks, which all say that there is no name.

A walk over sites is described apart from trees first. Walks over two lists one after the other are a
walk over both, and so the walk over the sites of a tree is put together from those of its children.
-/

namespace FOmega

variable {σ : Type}

/-! ## Walks over sites -/

/-- The calls for sites in order: each with its role and its name, numbered from `n` on. -/
def Rename.calls (n : Nat) (es : List ScopeEntry) : List (Role × ScopedName) :=
  (es.zipIdx n).map fun (e, k) => (e.role, ⟨e.name.level, ⟨e.name.name.text, k⟩⟩)

/-- What comes of calls in order: the entries, each marked with the answer to its call, and the memory
    after the last answer. -/
def Registrar.answer (r : Registrar σ) : List (Role × ScopedName) → σ → List ScopeEntry × σ
  | [], memory => ([], memory)
  | (role, name) :: calls, memory =>
    let (m, memory) := r.register role name memory
    let (entries, memory) := r.answer calls memory
    (⟨role, name, m⟩ :: entries, memory)

/-- What a walk over sites makes of them, and the state after it. -/
def Rename.walk (r : Registrar σ) (es : List ScopeEntry) (s : State σ) :
    List ScopeEntry × State σ :=
  let (entries, memory) := r.answer (calls s.supply.issued es) s.memory
  (entries, ⟨⟨s.supply.issued + es.length⟩, memory⟩)

namespace Rename

theorem calls_append (n : Nat) (es fs : List ScopeEntry) :
    calls n (es ++ fs) = calls n es ++ calls (n + es.length) fs := by
  rw [calls, List.zipIdx_append, List.map_append]
  rfl

theorem answer_append (r : Registrar σ) (calls calls' : List (Role × ScopedName)) (memory : σ) :
    r.answer (calls ++ calls') memory =
      ((r.answer calls memory).1 ++ (r.answer calls' (r.answer calls memory).2).1,
        (r.answer calls' (r.answer calls memory).2).2) := by
  induction calls generalizing memory with
  | nil => rfl
  | cons call calls ih =>
    simp only [List.cons_append, Registrar.answer, ih]

theorem walk_append (r : Registrar σ) (es fs : List ScopeEntry) (s : State σ) :
    walk r (es ++ fs) s =
      ((walk r es s).1 ++ (walk r fs (walk r es s).2).1, (walk r fs (walk r es s).2).2) := by
  simp only [walk, calls_append, answer_append, List.length_append, Nat.add_assoc]

/-- The first step of a walk is the renaming of its first site. -/
theorem walk_cons (r : Registrar σ) (role : Role) (level : Level) (x : Name) (m : Mark)
    (es : List ScopeEntry) (s : State σ) :
    walk r (⟨role, ⟨level, x⟩, m⟩ :: es) s =
      (⟨role, ⟨level, (site r role level x s).1.1⟩, (site r role level x s).1.2⟩ ::
          (walk r es (site r role level x s).2).1, (walk r es (site r role level x s).2).2) := by
  have hlength : s.supply.issued + (es.length + 1) = s.supply.issued + 1 + es.length := by omega
  simp only [walk, List.length_cons, hlength]
  rfl

end Rename

/-! ## Renaming is a walk over the sites -/

theorem Ty.renameAll_walk (r : Registrar σ) {ts : List Ty}
    (h : ∀ t ∈ ts, ∀ s, Prod.map Ty.sites id (t.rename r s) = Rename.walk r t.sites s)
    (s : Rename.State σ) :
    Prod.map Ty.allSites id (Ty.renameAll r ts s) = Rename.walk r (Ty.allSites ts) s := by
  induction ts generalizing s with
  | nil => rfl
  | cons t ts ih =>
    have htail := ih fun u hu => h u (List.mem_cons_of_mem t hu)
    rw [Ty.allSites, Rename.walk_append, ← h t List.mem_cons_self, ← htail]
    rfl

theorem Ty.rename_walk (r : Registrar σ) (t : Ty) (s : Rename.State σ) :
    Prod.map Ty.sites id (t.rename r s) = Rename.walk r t.sites s := by
  induction t generalizing s with
  | lam m x k body ih | all m x k body ih =>
    rw [Ty.sites, Rename.walk_cons, ← ih]
    rfl
  | ifix m d e ihd ihe | app m d e ihd ihe | fn m d e ihd ihe =>
    rw [Ty.sites, Rename.walk_append, ← ihd, ← ihe]
    rfl
  | var m x =>
    rw [Ty.sites, Rename.walk_cons]
    rfl
  | builtin m b => rfl
  | prod m items ih =>
    rw [Ty.sites, ← Ty.renameAll_walk r ih]
    rfl

theorem Term.renameAll_walk (r : Registrar σ) {ts : List Term}
    (h : ∀ t ∈ ts, ∀ s, Prod.map Term.sites id (t.rename r s) = Rename.walk r t.sites s)
    (s : Rename.State σ) :
    Prod.map Term.allSites id (Term.renameAll r ts s) = Rename.walk r (Term.allSites ts) s := by
  induction ts generalizing s with
  | nil => rfl
  | cons t ts ih =>
    have htail := ih fun u hu => h u (List.mem_cons_of_mem t hu)
    rw [Term.allSites, Rename.walk_append, ← h t List.mem_cons_self, ← htail]
    rfl

theorem Term.rename_walk (r : Registrar σ) (t : Term) (s : Rename.State σ) :
    Prod.map Term.sites id (t.rename r s) = Rename.walk r t.sites s := by
  induction t generalizing s with
  | lam m x type body ih =>
    rw [Term.sites, Rename.walk_cons, Rename.walk_append, ← type.rename_walk, ← ih]
    rfl
  | abs m x k body ih =>
    rw [Term.sites, Rename.walk_cons, ← ih]
    rfl
  | iwrap m pattern arg t ih =>
    rw [Term.sites, Rename.walk_append, Rename.walk_append, ← pattern.rename_walk,
      ← arg.rename_walk, ← ih]
    rfl
  | unwrap m t ih | proj m index t ih =>
    rw [Term.sites, ← ih]
    rfl
  | apply m f arg ihf iharg =>
    rw [Term.sites, Rename.walk_append, ← ihf, ← iharg]
    rfl
  | inst m t type ih =>
    rw [Term.sites, Rename.walk_append, ← ih, ← type.rename_walk]
    rfl
  | error m type =>
    rw [Term.sites, ← type.rename_walk]
    rfl
  | var m x =>
    rw [Term.sites, Rename.walk_cons]
    rfl
  | constant m c | builtin m b => rfl
  | prod m items ih =>
    rw [Term.sites, ← Term.renameAll_walk r ih]
    rfl

theorem Tree.rename_walk (r : Registrar σ) (t : Tree) (s : Rename.State σ) :
    Prod.map Tree.sites id (t.rename r s) = Rename.walk r t.sites s := by
  cases t with
  | kind k => rfl
  | type t => exact t.rename_walk r s
  | term t => exact t.rename_walk r s
  | program p => exact p.term.rename_walk r s

/-! ## Renaming keeps the skeleton -/

theorem Kind.skeleton_rename (k : Kind) : k.rename.skeleton = k.skeleton := by
  induction k with
  | type m => rfl
  | arrow m d c ihd ihc => rw [rename, skeleton, ihd, ihc, skeleton]

theorem Ty.skeletons_renameAll (r : Registrar σ) {ts : List Ty}
    (h : ∀ t ∈ ts, ∀ s, (t.rename r s).1.skeleton = t.skeleton) (s : Rename.State σ) :
    Ty.skeletons (Ty.renameAll r ts s).1 = Ty.skeletons ts := by
  induction ts generalizing s with
  | nil => rfl
  | cons t ts ih =>
    have htail := ih fun u hu => h u (List.mem_cons_of_mem t hu)
    rw [Ty.skeletons, ← h t List.mem_cons_self s, ← htail (t.rename r s).2]
    rfl

theorem Ty.skeleton_rename (r : Registrar σ) (t : Ty) (s : Rename.State σ) :
    (t.rename r s).1.skeleton = t.skeleton := by
  induction t generalizing s with
  | lam m x k body ih | all m x k body ih =>
    rw [skeleton, ← k.skeleton_rename, ← ih (Rename.site r .binder .type x s).2]
    rfl
  | ifix m d e ihd ihe | app m d e ihd ihe | fn m d e ihd ihe =>
    rw [skeleton, ← ihd s, ← ihe (d.rename r s).2]
    rfl
  | var m x => rfl
  | builtin m b => rfl
  | prod m items ih =>
    rw [skeleton, ← Ty.skeletons_renameAll r ih s]
    rfl

theorem Term.skeletons_renameAll (r : Registrar σ) {ts : List Term}
    (h : ∀ t ∈ ts, ∀ s, (t.rename r s).1.skeleton = t.skeleton) (s : Rename.State σ) :
    Term.skeletons (Term.renameAll r ts s).1 = Term.skeletons ts := by
  induction ts generalizing s with
  | nil => rfl
  | cons t ts ih =>
    have htail := ih fun u hu => h u (List.mem_cons_of_mem t hu)
    rw [Term.skeletons, ← h t List.mem_cons_self s, ← htail (t.rename r s).2]
    rfl

theorem Term.skeleton_rename (r : Registrar σ) (t : Term) (s : Rename.State σ) :
    (t.rename r s).1.skeleton = t.skeleton := by
  induction t generalizing s with
  | lam m x type body ih =>
    let s₁ := (Rename.site r .binder .term x s).2
    rw [skeleton, ← type.skeleton_rename r s₁, ← ih (type.rename r s₁).2]
    rfl
  | abs m x k body ih =>
    rw [skeleton, ← k.skeleton_rename, ← ih (Rename.site r .binder .type x s).2]
    rfl
  | iwrap m pattern arg t ih =>
    let s₁ := (pattern.rename r s).2
    rw [skeleton, ← pattern.skeleton_rename r s, ← arg.skeleton_rename r s₁,
      ← ih (arg.rename r s₁).2]
    rfl
  | unwrap m t ih | proj m index t ih =>
    rw [skeleton, ← ih s]
    rfl
  | apply m f arg ihf iharg =>
    rw [skeleton, ← ihf s, ← iharg (f.rename r s).2]
    rfl
  | inst m t type ih =>
    rw [skeleton, ← ih s, ← type.skeleton_rename r (t.rename r s).2]
    rfl
  | error m type =>
    rw [skeleton, ← type.skeleton_rename r s]
    rfl
  | var m x => rfl
  | constant m c | builtin m b => rfl
  | prod m items ih =>
    rw [skeleton, ← Term.skeletons_renameAll r ih s]
    rfl

theorem Tree.skeleton_rename (r : Registrar σ) (t : Tree) (s : Rename.State σ) :
    (t.rename r s).1.skeleton = t.skeleton := by
  cases t with
  | kind k => exact congrArg Tree.kind k.skeleton_rename
  | type t => exact congrArg Tree.type (t.skeleton_rename r s)
  | term t => exact congrArg Tree.term (t.skeleton_rename r s)
  | program p =>
    rw [skeleton, Program.skeleton, ← p.term.skeleton_rename r s]
    rfl

/-! ## Renaming marks all other nodes as having no name -/

theorem Kind.marks_rename (k : Kind) : ∀ m ∈ k.rename.marks, m = .notAName := by
  induction k with
  | type m => exact List.forall_mem_singleton.mpr rfl
  | arrow m d c ihd ihc =>
    have hchildren := List.forall_mem_append.mpr ⟨ihd, ihc⟩
    exact List.forall_mem_cons.mpr ⟨rfl, hchildren⟩

theorem Ty.allPlainMarks_renameAll (r : Registrar σ) {ts : List Ty}
    (h : ∀ t ∈ ts, ∀ s, ∀ m ∈ (t.rename r s).1.plainMarks, m = .notAName) (s : Rename.State σ) :
    ∀ m ∈ Ty.allPlainMarks (Ty.renameAll r ts s).1, m = .notAName := by
  induction ts generalizing s with
  | nil => exact List.forall_mem_nil _
  | cons t ts ih =>
    have htail := ih (fun u hu => h u (List.mem_cons_of_mem t hu)) (t.rename r s).2
    exact List.forall_mem_append.mpr ⟨h t List.mem_cons_self s, htail⟩

theorem Ty.plainMarks_rename (r : Registrar σ) (t : Ty) (s : Rename.State σ) :
    ∀ m ∈ (t.rename r s).1.plainMarks, m = .notAName := by
  induction t generalizing s with
  | lam m x k body ih | all m x k body ih =>
    exact List.forall_mem_append.mpr ⟨k.marks_rename, ih _⟩
  | ifix m d e ihd ihe | app m d e ihd ihe | fn m d e ihd ihe =>
    have hchildren := List.forall_mem_append.mpr ⟨ihd s, ihe (d.rename r s).2⟩
    exact List.forall_mem_cons.mpr ⟨rfl, hchildren⟩
  | var m x => exact List.forall_mem_nil _
  | builtin m b => exact List.forall_mem_singleton.mpr rfl
  | prod m items ih =>
    have hitems := Ty.allPlainMarks_renameAll r ih s
    exact List.forall_mem_cons.mpr ⟨rfl, hitems⟩

theorem Term.allPlainMarks_renameAll (r : Registrar σ) {ts : List Term}
    (h : ∀ t ∈ ts, ∀ s, ∀ m ∈ (t.rename r s).1.plainMarks, m = .notAName) (s : Rename.State σ) :
    ∀ m ∈ Term.allPlainMarks (Term.renameAll r ts s).1, m = .notAName := by
  induction ts generalizing s with
  | nil => exact List.forall_mem_nil _
  | cons t ts ih =>
    have htail := ih (fun u hu => h u (List.mem_cons_of_mem t hu)) (t.rename r s).2
    exact List.forall_mem_append.mpr ⟨h t List.mem_cons_self s, htail⟩

theorem Term.plainMarks_rename (r : Registrar σ) (t : Term) (s : Rename.State σ) :
    ∀ m ∈ (t.rename r s).1.plainMarks, m = .notAName := by
  induction t generalizing s with
  | lam m x type body ih =>
    exact List.forall_mem_append.mpr ⟨type.plainMarks_rename r _, ih _⟩
  | abs m x k body ih => exact List.forall_mem_append.mpr ⟨k.marks_rename, ih _⟩
  | iwrap m pattern arg t ih =>
    have hpattern := pattern.plainMarks_rename r s
    have harg := arg.plainMarks_rename r (pattern.rename r s).2
    have htypes := List.forall_mem_append.mpr ⟨hpattern, harg⟩
    have hterm := ih (arg.rename r (pattern.rename r s).2).2
    have hchildren := List.forall_mem_append.mpr ⟨htypes, hterm⟩
    exact List.forall_mem_cons.mpr ⟨rfl, hchildren⟩
  | unwrap m t ih | proj m index t ih => exact List.forall_mem_cons.mpr ⟨rfl, ih s⟩
  | apply m f arg ihf iharg =>
    have hchildren := List.forall_mem_append.mpr ⟨ihf s, iharg (f.rename r s).2⟩
    exact List.forall_mem_cons.mpr ⟨rfl, hchildren⟩
  | inst m t type ih =>
    have htype := type.plainMarks_rename r (t.rename r s).2
    have hchildren := List.forall_mem_append.mpr ⟨ih s, htype⟩
    exact List.forall_mem_cons.mpr ⟨rfl, hchildren⟩
  | error m type => exact List.forall_mem_cons.mpr ⟨rfl, type.plainMarks_rename r s⟩
  | var m x => exact List.forall_mem_nil _
  | constant m c | builtin m b => exact List.forall_mem_singleton.mpr rfl
  | prod m items ih =>
    have hitems := Term.allPlainMarks_renameAll r ih s
    exact List.forall_mem_cons.mpr ⟨rfl, hitems⟩

theorem Tree.plainMarks_rename (r : Registrar σ) (t : Tree) (s : Rename.State σ) :
    ∀ m ∈ (t.rename r s).1.plainMarks, m = .notAName := by
  cases t with
  | kind k => exact k.marks_rename
  | type t => exact t.plainMarks_rename r s
  | term t => exact t.plainMarks_rename r s
  | program p =>
    have hterm := p.term.plainMarks_rename r s
    refine List.forall_mem_cons.mpr ⟨rfl, ?_⟩
    exact List.forall_mem_cons.mpr ⟨rfl, hterm⟩

/-! ## The whole of a renaming -/

theorem Tree.sites_renameWith (r : Registrar σ) (t : Tree) (n : Nat) (memory : σ) :
    (t.renameWith r ⟨n⟩ memory).tree.sites = (r.answer (Rename.calls n t.sites) memory).1 := by
  have hwalk := t.rename_walk r ⟨⟨n⟩, memory⟩
  exact congrArg Prod.fst hwalk

theorem Tree.memory_renameWith (r : Registrar σ) (t : Tree) (n : Nat) (memory : σ) :
    (t.renameWith r ⟨n⟩ memory).memory = (r.answer (Rename.calls n t.sites) memory).2 := by
  have hwalk := t.rename_walk r ⟨⟨n⟩, memory⟩
  exact congrArg (fun out => out.2.memory) hwalk

theorem Tree.supply_renameWith (r : Registrar σ) (t : Tree) (n : Nat) (memory : σ) :
    (t.renameWith r ⟨n⟩ memory).supply = ⟨n + t.sites.length⟩ := by
  have hwalk := t.rename_walk r ⟨⟨n⟩, memory⟩
  exact congrArg (fun out => out.2.supply) hwalk

/-- With uniques from `n` on, renaming gives the one tree that has the skeleton of the given one,
    whose sites are what the registrar's answers make of the calls for the given sites, numbered from
    `n` on, and whose other nodes are marked as having no name. The registrar has answered exactly
    these calls, and the supply has moved by the number of sites. -/
theorem Tree.renameWith_characterised (r : Registrar σ) (t : Tree) (n : Nat) (memory : σ) :
    let calls := Rename.calls n t.sites
    let out := t.renameWith r ⟨n⟩ memory
    (∀ u : Tree, u = out.tree ↔
        u.skeleton = t.skeleton ∧ u.sites = (r.answer calls memory).1 ∧
          ∀ m ∈ u.plainMarks, m = .notAName) ∧
      out.memory = (r.answer calls memory).2 ∧ out.supply = ⟨n + t.sites.length⟩ := by
  intro calls out
  have hshape : out.tree.skeleton = t.skeleton := t.skeleton_rename r _
  have hsites : out.tree.sites = (r.answer calls memory).1 := t.sites_renameWith r n memory
  have hmarks : ∀ m ∈ out.tree.plainMarks, m = .notAName := t.plainMarks_rename r _
  refine ⟨?_, t.memory_renameWith r n memory, t.supply_renameWith r n memory⟩
  intro u
  constructor
  · rintro rfl
    exact ⟨hshape, hsites, hmarks⟩
  · rintro ⟨hshape', hsites', hmarks'⟩
    have hlength : u.plainMarks.length = out.tree.plainMarks.length := by
      rw [← u.length_plainMarks_skeleton, ← out.tree.length_plainMarks_skeleton, hshape, hshape']
    refine Tree.eq_of_skeleton_eq (hshape'.trans hshape.symm) (hsites'.trans hsites.symm) ?_
    rw [List.eq_replicate_of_mem hmarks', List.eq_replicate_of_mem hmarks, hlength]

end FOmega
