import FOmega.Proofs.DepthLimit
import FOmega.Proofs.Excerpt
import FOmega.Proofs.Lockstep
import FOmega.Proofs.Nodes

/-!
# The source of a node

Where a node of a tree stands in the source, there is a source of this node alone: read on its own
by the rule for the node's sort, it gives the node again. Nothing around a phrase has an influence
on how it is read. Its tokens are the same on their own, its spans only count from another start,
and its names are numbered anew.
-/

namespace FOmega

open FOmega.Parser Grammar Interner

/-! ## Trees with other spans -/

section

variable {f g : Span → Span}

theorem Mark.mapSpans_mapSpans (m : Mark) : (m.mapSpans g).mapSpans f = m.mapSpans (f ∘ g) := by
  cases m <;> rfl

theorem Kind.mapSpans_mapSpans (k : Kind) : (k.mapSpans g).mapSpans f = k.mapSpans (f ∘ g) := by
  induction k with
  | type m => simp only [mapSpans, Mark.mapSpans_mapSpans]
  | arrow m domain codomain ihd ihc => simp only [mapSpans, Mark.mapSpans_mapSpans, ihd, ihc]

theorem Ty.mapSpans_mapSpans (t : Ty) : (t.mapSpans g).mapSpans f = t.mapSpans (f ∘ g) := by
  induction t with
  | prod m items ih =>
    have hitems : FOmega.mapSpans f (FOmega.mapSpans g items) = FOmega.mapSpans (f ∘ g) items :=
      List.map_map.trans (List.map_congr_left ih)
    simp only [mapSpans, Mark.mapSpans_mapSpans, mapSpansAll_eq, hitems]
  | _ => simp only [mapSpans, Mark.mapSpans_mapSpans, Kind.mapSpans_mapSpans, *]

theorem Term.mapSpans_mapSpans (t : Term) : (t.mapSpans g).mapSpans f = t.mapSpans (f ∘ g) := by
  induction t with
  | prod m items ih =>
    have hitems : FOmega.mapSpans f (FOmega.mapSpans g items) = FOmega.mapSpans (f ∘ g) items :=
      List.map_map.trans (List.map_congr_left ih)
    simp only [mapSpans, Mark.mapSpans_mapSpans, mapSpansAll_eq, hitems]
  | _ =>
    simp only [mapSpans, Mark.mapSpans_mapSpans, Kind.mapSpans_mapSpans, Ty.mapSpans_mapSpans, *]

theorem Program.mapSpans_mapSpans (p : Program) :
    (p.mapSpans g).mapSpans f = p.mapSpans (f ∘ g) := by
  simp only [mapSpans, Version.mapSpans, Mark.mapSpans_mapSpans, Term.mapSpans_mapSpans]

theorem Phrase.mapSpans_mapSpans {p : Phrase} (a : p.Answer) :
    p.mapSpans f (p.mapSpans g a) = p.mapSpans (f ∘ g) a := by
  cases p with
  | program => exact Program.mapSpans_mapSpans a
  | term => exact Term.mapSpans_mapSpans a
  | type => exact Ty.mapSpans_mapSpans a
  | kind => exact Kind.mapSpans_mapSpans a
  | constant => rfl

end

/-! ## Layouts further on -/

namespace Span

theorem stop_shift (n : Nat) (s : Span) : (s.shift n).stop = s.stop + n :=
  Nat.add_right_comm s.offset n s.len

theorem through_shift (n : Nat) (s s' : Span) :
    (s.shift n).through (s'.shift n) = (s.through s').shift n := by
  rw [through, through, stop_shift]
  simp only [shift, Nat.add_max_add_right, Nat.add_sub_add_right]

end Span

namespace Layout

/-- The layout so many bytes further on. -/
def shift (l : Layout) (n : Nat) : Layout where
  tokens := l.tokens.map (Token.shift n)
  size := l.size + n
  nonempty := List.forall_mem_map.mpr l.nonempty
  apart := by
    refine List.pairwise_map.mpr (l.apart.imp ?_)
    intro t t' h
    exact Nat.le_trans (Nat.le_of_eq (Span.stop_shift n t.span)) (Nat.add_le_add_right h n)
  inside := by
    refine List.forall_mem_map.mpr fun t ht => ?_
    exact Nat.le_trans (Nat.le_of_eq (Span.stop_shift n t.span))
      (Nat.add_le_add_right (l.inside t ht) n)

variable {l : Layout} {n : Nat}

theorem spanAt_shift (i : Nat) : (l.shift n).spanAt i = (l.spanAt i).shift n := by
  rw [spanAt, spanAt, shift, List.getElem?_map]
  cases l.tokens[i]? <;> rfl

theorem place_shift : (l.shift n).place = Span.shift n ∘ l.place := by
  funext s
  rw [place, range, spanAt_shift, spanAt_shift, Span.through_shift]
  rfl

end Layout

/-- Two parsers that have seen any names, of which something is compared that the spelling tells. -/
def Companions.spelled (c : Context) (f : Name → Name)
    (hf : ∀ {x y}, x.text = y.text → f x = f y) : Companions where
  left := c
  otherDepth := c.maxDepth
  Interners _ _ := True
  shown := f
  intern_shown _ _ := hf rfl
  intern_interners _ _ := trivial
  Lower := False

/-- A layout and the same one further on. -/
def Layout.twins (l : Layout) (n : Nat) : Twins where
  left := l.shift n
  right := l
  same := by
    rw [shift, List.map_map]
    rfl

namespace Phrase

variable {p : Phrase}

/-- Trees that are alike in a layout and in the same one further on differ by a shift of their
    spans. -/
theorem mapSpans_shift_eq {l : Layout} {n : Nat} {a a' : p.Answer}
    (h : Twins.Alike (l.twins n) (α := (StartRule.phrase p).Answer) a a') :
    p.mapSpans (Span.shift n) a' = a :=
  calc p.mapSpans (Span.shift n) a'
      = p.mapSpans (Span.shift n) (p.mapSpans l.place (p.mapSpans l.index a')) :=
        congrArg _ h.right_placed.symm
    _ = p.mapSpans (l.shift n).place (p.mapSpans l.index a') := by
        rw [mapSpans_mapSpans, Layout.place_shift]
    _ = p.mapSpans (l.shift n).place (p.mapSpans (l.shift n).index a) :=
        congrArg _ h.index_eq.symm
    _ = a := h.left_placed

/-- Tokens that make up a derivation further on are read as what is read off it, with spans counted
    from where they stand. -/
theorem whole_shift (d : p.Derivation) {l : Layout} {n maxDepth : Nat}
    (htokens : (l.shift n).tokens = p.tokens d) (hdepth : p.depth d ≤ maxDepth) (i : Interner) :
    ∃ a s, (p.rule maxDepth).whole (l.context maxDepth) (.start (l.context maxDepth) i) = .ok a s ∧
      p.mapSpans (Span.shift n) a = (p.read d i).1 := by
  let c := (l.shift n).context maxDepth
  have hread := rule_eq_read d hdepth c [] none i
  rw [List.append_nil, ← htokens] at hread
  have hwhole : ((StartRule.phrase p).rule maxDepth).whole c (.start c i) = _ :=
    whole_eq_ok_iff.mpr ⟨hread, rfl⟩
  have hstart : (l.twins n).States 0 (.start c i) (.start (l.context maxDepth) i) :=
    ⟨Nat.zero_le _, rfl, rfl, .none, rfl⟩
  have hreplies := ((StartRule.phrase p).lockstep (l.twins n) maxDepth maxDepth 0).whole _ _ hstart
  rw [show (l.twins n).left.context maxDepth = c from rfl, hwhole] at hreplies
  generalize hrun : ((StartRule.phrase p).rule maxDepth).whole _ _ = reply at hreplies
  cases hreplies with
  | ok _ halike _ => exact ⟨_, _, hrun, mapSpans_shift_eq halike⟩

/-- The names seen before have an influence on uniques alone. If the spellings tell the names that
    another interner gives, what is read is told by them from what is read with any interner. -/
theorem mapNames_read {f : Name → Name} (hf : ∀ {x y}, x.text = y.text → f x = f y)
    (d : p.Derivation) (i : Interner) {j : Interner}
    (hfix : ∀ x ∈ p.names (p.read d j).1, f x = x) :
    p.mapNames f (p.read d i).1 = (p.read d j).1 := by
  let C := Companions.spelled ⟨p.tokens d, 0, p.depth d⟩ f hf
  have hread := fun i => rule_eq_read d (Nat.le_refl _) C.left [] none i
  have hstates : C.States ⟨p.tokens d ++ [], none, i⟩ ⟨p.tokens d ++ [], none, j⟩ :=
    ⟨rfl, rfl, trivial, False.elim⟩
  have hrooms : C.Rooms (p.depth d) (p.depth d) := .refl rfl
  have hreplies := Companions.Agrees.phrase p hrooms _ _ hstates
  have hright : C.right = C.left := rfl
  rw [hright, hread, hread] at hreplies
  cases hreplies with
  | ok halike _ => exact halike.eq.trans (mapNames_eq_self _ hfix)

end Phrase

/-! ## The source of a node -/

/-- The name with the unique that its spelling gets when the given spellings are numbered by first
    occurrence. -/
def Name.renumber (first : Nat) (texts : List String) (x : Name) : Name :=
  ⟨x.text, first + texts.eraseDups.idxOf x.text⟩

theorem Name.renumber_unique_inj {first : Nat} {names : List Name} {x y : Name} (hx : x ∈ names) :
    (x.renumber first (names.map text)).unique = (y.renumber first (names.map text)).unique ↔
      x.text = y.text := by
  have hmem : x.text ∈ (names.map text).eraseDups := List.mem_eraseDups.mpr (List.mem_map_of_mem hx)
  exact Nat.add_left_cancel_iff.trans (List.idxOf_inj hmem)

namespace Phrase

variable {p : Phrase}

theorem tokens_ne_nil (d : p.Derivation) : p.tokens d ≠ [] := by
  cases p with
  | program => exact List.cons_ne_nil _ _
  | term => exact TermDerivation.tokens_ne_nil d
  | type => exact TypeDerivation.tokens_ne_nil d
  | kind => cases d <;> exact List.cons_ne_nil _ _
  | constant => cases d <;> exact List.cons_ne_nil _ _

theorem texts_read (d : p.Derivation) (i : Interner) :
    (p.names (p.read d i).1).map Name.text = (p.nameTokens d).map Token.text := by
  rw [names_read, Interner.texts_nameAll]

/-- Read with a supply of its own, a derivation has its names numbered by first occurrence. -/
theorem renumber_read (d : p.Derivation) (i : Interner) (first : Nat) :
    p.mapNames (Name.renumber first ((p.names (p.read d i).1).map Name.text)) (p.read d i).1 =
      (p.read d (.ofSupply ⟨first⟩)).1 := by
  rw [texts_read]
  refine mapNames_read (fun {x y} h => by rw [Name.renumber, Name.renumber, h]) d i ?_
  intro x hx
  rw [names_read, Interner.nameAll_ofSupply] at hx
  obtain ⟨text, -, rfl⟩ := List.mem_map.mp hx
  rfl

theorem unique_eq_iff {first : Nat} (d : p.Derivation) {i : Interner} (hi : Numbers first i)
    {x y : Name} (hx : x ∈ p.names (p.read d i).1) (hy : y ∈ p.names (p.read d i).1) :
    x.unique = y.unique ↔ x.text = y.text := by
  obtain ⟨before, rfl⟩ := hi
  rw [names_read] at hx hy
  exact Interner.nameAll_unique_inj hx hy

/-- Every node of what was read from a source is read off some of its tokens in a row. -/
theorem readOff_of_ok {maxDepth first : Nat} {label src : String} {a : p.Answer}
    (h : (parseWith maxDepth ⟨first⟩ p.rule label src).result = .ok a) :
    ∀ n ∈ p.nodes a, n.ReadOff first (lexSkippingComments src).tokens maxDepth := by
  obtain ⟨-, s, hwhole⟩ := parseWith_eq_ok_iff.mp h
  obtain ⟨hrule, hend⟩ := whole_eq_ok_iff.mp hwhole
  obtain ⟨d, hdepth, htokens⟩ := rule_derives hrule
  rw [hend, List.append_nil] at htokens
  have hsource : (lexSkippingComments src).tokens = p.tokens d := htokens
  have hread := rule_eq_read d hdepth (sourceContext maxDepth src) [] none (.ofSupply ⟨first⟩)
  rw [List.append_nil, ← htokens] at hread
  cases hrule.symm.trans hread
  rw [hsource]
  exact .within (nodes_readOff d ⟨[], rfl⟩) List.infix_rfl hdepth

/-- The part of a source at the span of a node is a source of that node. In a tree that was read
    from a source, every kind, type and term that is no inner node of an application or
    instantiation has a span; and the part of the source at this span, on its own, is read by the
    rule for the node's sort under the same limit. What is read is the node, with spans counted from
    the start of the part and names numbered by their first occurrence in it; this tells the names
    of the node apart as before. -/
theorem parse_reads_subphrases (p : Phrase) (maxDepth : Nat) (supply : Supply) (label src : String)
    {a : p.Answer} (h : (parseWith maxDepth supply p.rule label src).result = .ok a) :
    ∀ n ∈ p.nodes a, ∃ span, n.phrase.mark n.tree = .position span ∧
      ∀ (supply' : Supply) (label' : String),
        let part := String.Pos.Raw.extract src ⟨span.offset⟩ ⟨span.stop⟩
        let names := n.phrase.names n.tree
        let renumber := Name.renumber supply'.issued (names.map Name.text)
        ∃ b, (parseWith maxDepth supply' n.phrase.rule label' part).result = .ok b ∧
          n.phrase.mapSpans (Span.shift span.offset) b = n.phrase.mapNames renumber n.tree ∧
          ∀ x ∈ names, ∀ y ∈ names,
            x.unique = y.unique ↔ (renumber x).unique = (renumber y).unique := by
  intro n hn
  obtain ⟨hq, d, i, hi, htree, hinfix, hdepth⟩ := readOff_of_ok h n hn
  rw [htree]
  have herrors := (parseWith_eq_ok_iff.mp h).1
  have hmark := mark_read hq d i (l := .ofSource src) hinfix.sublist
  obtain ⟨hclean, htokens⟩ := lexSkippingComments_excerpt herrors hinfix (tokens_ne_nil d)
  refine ⟨spanOf (n.phrase.tokens d), hmark, ?_⟩
  intro supply' label' part names renumber
  obtain ⟨b, s, hwhole, hspans⟩ :=
    whole_shift d (l := .ofSource part) htokens hdepth (.ofSupply supply')
  refine ⟨b, parseWith_eq_ok_iff.mpr ⟨hclean, s, hwhole⟩, ?_, ?_⟩
  · exact hspans.trans (renumber_read d i supply'.issued).symm
  · intro x hx y hy
    exact (unique_eq_iff d hi hx hy).trans (Name.renumber_unique_inj hx).symm

/-- In `[f x {- of x -} (lam y t [x y])]` all nodes but the one of `[f x` are read again from the
    source at their spans, `[x y]` and what is around it included. -/
theorem application_reads_subphrases :
    let src := "[f x \x7b- of x -\x7d (lam y t [x y])]"
    ∃ t, (parseWith 4 .empty term.rule "t" src).result = .ok t ∧
      (term.nodes t).map (fun n => n.phrase.mark n.tree) =
        [.position ⟨0, 32⟩, .position ⟨1, 1⟩, .position ⟨3, 1⟩, .position ⟨16, 15⟩,
          .position ⟨23, 1⟩, .position ⟨25, 5⟩, .position ⟨26, 1⟩, .position ⟨28, 1⟩] ∧
      ∀ n ∈ term.nodes t, ∃ span b, n.phrase.mark n.tree = .position span ∧
        (parseWith 4 ⟨7⟩ n.phrase.rule "part"
          (String.Pos.Raw.extract src ⟨span.offset⟩ ⟨span.stop⟩)).result = .ok b ∧
        n.phrase.mapSpans (Span.shift span.offset) b =
          n.phrase.mapNames (Name.renumber 7 ((n.phrase.names n.tree).map Name.text)) n.tree := by
  intro src
  have hmarks : (parseWith 4 .empty term.rule "t" src).result.toOption.map (fun t =>
      (Term.nodes t).map fun n => n.phrase.mark n.tree) =
      some [.position ⟨0, 32⟩, .position ⟨1, 1⟩, .position ⟨3, 1⟩, .position ⟨16, 15⟩,
        .position ⟨23, 1⟩, .position ⟨25, 5⟩, .position ⟨26, 1⟩, .position ⟨28, 1⟩] := by
    decide +kernel
  cases hresult : (parseWith 4 .empty term.rule "t" src).result with
  | error report =>
    rw [hresult] at hmarks
    cases hmarks
  | ok t =>
    rw [hresult] at hmarks
    refine ⟨t, rfl, Option.some.inj hmarks, ?_⟩
    intro n hn
    obtain ⟨span, hmark, hpart⟩ := parse_reads_subphrases term 4 .empty "t" src hresult n hn
    obtain ⟨b, hread, hsame, -⟩ := hpart ⟨7⟩ "part"
    exact ⟨span, b, hmark, hread, hsame⟩

end Phrase

end FOmega
