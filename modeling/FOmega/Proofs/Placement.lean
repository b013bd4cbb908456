import FOmega.Proofs.ErrorReport
import FOmega.Proofs.Skeleton

/-!
# Spans counted in tokens

The tokens of a source are laid out one after the other. A span that runs from the start of one
token to the end of another can be counted in tokens instead of bytes, and placed in the source
again. For two sources with the same tokens, spans and trees are alike if they are equal when
counted in tokens.
-/

namespace FOmega

/-! ## Layouts -/

/-- Tokens that are laid out in a source of the given size: none is empty, and each ends before the
    next one starts. -/
structure Layout where
  tokens : List Token
  size : Nat
  nonempty : ∀ t ∈ tokens, 0 < t.span.len
  apart : tokens.Pairwise fun t t' => t.span.stop ≤ t'.span.offset
  inside : ∀ t ∈ tokens, t.span.stop ≤ size

namespace Layout

/-- The layout of the tokens that a parser is given. -/
def ofSource (src : String) : Layout where
  tokens := (lexSkippingComments src).tokens
  size := byteLength src.toList
  nonempty _ ht := (token_bounds (List.mem_filter.mp ht).1).1
  apart := (tokens_apart src).filter _
  inside _ ht := (token_bounds (List.mem_filter.mp ht).1).2

variable (l : Layout)

/-- The number of tokens. -/
def count : Nat :=
  l.tokens.length

/-- What stays fixed while the tokens are read. -/
def context (maxDepth : Nat) : Parser.Context :=
  ⟨l.tokens, l.size, maxDepth⟩

/-- The span of a token, or the empty span at the end. -/
def spanAt (i : Nat) : Span :=
  (l.tokens[i]?.map Token.span).getD ⟨l.size, 0⟩

/-- The span from one token through another. -/
def range (i j : Nat) : Span :=
  (l.spanAt i).through (l.spanAt j)

/-- A span counted in tokens: the index of the token at which it starts, and the number of tokens
    through the one at which it ends. -/
def index (s : Span) : Span :=
  let first := tokenIndex l.tokens s.offset
  let last := l.tokens.findIdx fun t => t.span.stop == s.stop
  ⟨first, last + 1 - first⟩

/-- The place of a span that is counted in tokens. -/
def place (s : Span) : Span :=
  l.range s.offset (s.stop - 1)

variable {l} {i j : Nat}

theorem spanAt_of_lt (h : i < l.count) : l.spanAt i = (l.tokens.get ⟨i, h⟩).span := by
  rw [spanAt, List.getElem?_eq_getElem h]
  rfl

theorem spanAt_of_ge (h : l.count ≤ i) : l.spanAt i = ⟨l.size, 0⟩ := by
  simp [spanAt, List.getElem?_eq_none h]

theorem len_spanAt_pos (h : i < l.count) : 0 < (l.spanAt i).len := by
  rw [spanAt_of_lt h]
  exact l.nonempty _ (List.get_mem _ _)

theorem stop_spanAt_le (hij : i < j) (hj : j ≤ l.count) :
    (l.spanAt i).stop ≤ (l.spanAt j).offset := by
  have hi : i < l.count := Nat.lt_of_lt_of_le hij hj
  rw [spanAt_of_lt hi]
  by_cases hlt : j < l.count
  · rw [spanAt_of_lt hlt]
    exact List.pairwise_iff_getElem.mp l.apart i j hi hlt hij
  · rw [spanAt_of_ge (Nat.le_of_not_lt hlt)]
    exact l.inside _ (List.get_mem _ _)

/-- A later token starts at a larger offset. -/
theorem offset_spanAt_lt (hij : i < j) (hj : j ≤ l.count) :
    (l.spanAt i).offset < (l.spanAt j).offset := by
  have hpos := len_spanAt_pos (Nat.lt_of_lt_of_le hij hj)
  have hstop := stop_spanAt_le hij hj
  rw [Span.stop] at hstop
  omega

theorem offset_spanAt_le (hij : i ≤ j) (hj : j ≤ l.count) :
    (l.spanAt i).offset ≤ (l.spanAt j).offset := by
  rcases Nat.lt_or_eq_of_le hij with hlt | rfl
  · exact Nat.le_of_lt (offset_spanAt_lt hlt hj)
  · exact Nat.le_refl _

theorem stop_spanAt_lt (hij : i < j) (hj : j < l.count) :
    (l.spanAt i).stop < (l.spanAt j).stop := by
  have hstop := stop_spanAt_le hij (Nat.le_of_lt hj)
  have hpos := len_spanAt_pos hj
  have hend : (l.spanAt j).stop = (l.spanAt j).offset + (l.spanAt j).len := rfl
  omega

theorem offset_range : (l.range i j).offset = (l.spanAt i).offset := rfl

theorem stop_range (hij : i ≤ j) (hj : j ≤ l.count) : (l.range i j).stop = (l.spanAt j).stop := by
  have hle := offset_spanAt_le hij hj
  have hstop : (l.spanAt j).offset ≤ (l.spanAt j).stop := Nat.le_add_right _ _
  simp only [range, Span.through, Span.stop] at hle hstop ⊢
  omega

theorem tokenIndex_spanAt (h : i ≤ l.count) : tokenIndex l.tokens (l.spanAt i).offset = i := by
  have hbefore : ∀ j (hj : j < i) (hcount : j < l.tokens.length),
      (l.tokens[j].span.offset == (l.spanAt i).offset) = false := by
    intro j hj hcount
    have hlt := offset_spanAt_lt hj h
    rw [spanAt_of_lt hcount] at hlt
    exact beq_eq_false_iff_ne.mpr (Nat.ne_of_lt hlt)
  rcases Nat.lt_or_eq_of_le h with hlt | rfl
  · refine (List.findIdx_eq hlt).mpr ⟨?_, fun j hj => hbefore j hj _⟩
    rw [spanAt_of_lt hlt]
    exact beq_self_eq_true _
  · refine List.findIdx_eq_length_of_false ?_
    intro t ht
    obtain ⟨j, hj, rfl⟩ := List.getElem_of_mem ht
    exact hbefore j hj hj

theorem findIdx_stop (h : j < l.count) :
    l.tokens.findIdx (fun t => t.span.stop == (l.spanAt j).stop) = j := by
  refine (List.findIdx_eq h).mpr ⟨?_, ?_⟩
  · rw [spanAt_of_lt h]
    exact beq_self_eq_true _
  · intro i hi
    have hlt := stop_spanAt_lt hi h
    rw [spanAt_of_lt (Nat.lt_trans hi h)] at hlt
    exact beq_eq_false_iff_ne.mpr (Nat.ne_of_lt hlt)

/-- Counted in tokens, a span from one token through another starts at the one and has all tokens up
    to the other. -/
theorem index_range (hij : i ≤ j) (hj : j < l.count) : l.index (l.range i j) = ⟨i, j + 1 - i⟩ := by
  have hi : i ≤ l.count := Nat.le_trans hij (Nat.le_of_lt hj)
  simp only [index, offset_range, tokenIndex_spanAt hi, stop_range hij (Nat.le_of_lt hj),
    findIdx_stop hj]

theorem place_index_range (hij : i ≤ j) (hj : j < l.count) :
    l.place (l.index (l.range i j)) = l.range i j := by
  have hlast : i + (j + 1 - i) - 1 = j := by omega
  rw [index_range hij hj, place, Span.stop, hlast]

theorem range_self : l.range i i = l.spanAt i := by
  have hle : (l.spanAt i).offset ≤ (l.spanAt i).stop := Nat.le_add_right _ _
  rw [range, Span.through, Nat.max_eq_left hle, Span.stop, Nat.add_sub_cancel_left]

/-- From the start of a token through a later span. -/
theorem through_range {k : Nat} {s : Span} (hs : s.offset = (l.spanAt k).offset) (hij : i ≤ j)
    (hj : j ≤ l.count) : s.through (l.range i j) = l.range k j := by
  rw [Span.through, stop_range hij hj, hs]
  rfl

end Layout

/-! ## Trees with other spans -/

/-- Values that hold spans. -/
class Spanned (α : Type) where
  /-- Changes every span. -/
  mapSpans : (Span → Span) → α → α

export Spanned (mapSpans)

/-- Changes the span of a mark. -/
def Mark.mapSpans (f : Span → Span) : Mark → Mark
  | position s => .position (f s)
  | m => m

/-- Changes the span of every node of a kind. -/
def Kind.mapSpans (f : Span → Span) : Kind → Kind
  | type m => .type (m.mapSpans f)
  | arrow m domain codomain => .arrow (m.mapSpans f) (domain.mapSpans f) (codomain.mapSpans f)

mutual

/-- Changes the span of every node of a type. -/
def Ty.mapSpans (f : Span → Span) : Ty → Ty
  | .lam m x k body => .lam (m.mapSpans f) x (k.mapSpans f) (body.mapSpans f)
  | .all m x k body => .all (m.mapSpans f) x (k.mapSpans f) (body.mapSpans f)
  | .ifix m pattern arg => .ifix (m.mapSpans f) (pattern.mapSpans f) (arg.mapSpans f)
  | .app m function arg => .app (m.mapSpans f) (function.mapSpans f) (arg.mapSpans f)
  | .fn m domain codomain => .fn (m.mapSpans f) (domain.mapSpans f) (codomain.mapSpans f)
  | .var m x => .var (m.mapSpans f) x
  | .builtin m b => .builtin (m.mapSpans f) b
  | .prod m items => .prod (m.mapSpans f) (Ty.mapSpansAll f items)

/-- Changes the span of every node of the types of a list. -/
def Ty.mapSpansAll (f : Span → Span) : List Ty → List Ty
  | [] => []
  | t :: ts => t.mapSpans f :: Ty.mapSpansAll f ts

end

mutual

/-- Changes the span of every node of a term. -/
def Term.mapSpans (f : Span → Span) : Term → Term
  | .lam m x type body => .lam (m.mapSpans f) x (type.mapSpans f) (body.mapSpans f)
  | .abs m x k body => .abs (m.mapSpans f) x (k.mapSpans f) (body.mapSpans f)
  | .iwrap m pattern arg t =>
    .iwrap (m.mapSpans f) (pattern.mapSpans f) (arg.mapSpans f) (t.mapSpans f)
  | .unwrap m t => .unwrap (m.mapSpans f) (t.mapSpans f)
  | .apply m function arg => .apply (m.mapSpans f) (function.mapSpans f) (arg.mapSpans f)
  | .inst m t type => .inst (m.mapSpans f) (t.mapSpans f) (type.mapSpans f)
  | .error m type => .error (m.mapSpans f) (type.mapSpans f)
  | .var m x => .var (m.mapSpans f) x
  | .constant m c => .constant (m.mapSpans f) c
  | .builtin m b => .builtin (m.mapSpans f) b
  | .prod m items => .prod (m.mapSpans f) (Term.mapSpansAll f items)
  | .proj m index t => .proj (m.mapSpans f) index (t.mapSpans f)

/-- Changes the span of every node of the terms of a list. -/
def Term.mapSpansAll (f : Span → Span) : List Term → List Term
  | [] => []
  | t :: ts => t.mapSpans f :: Term.mapSpansAll f ts

end

/-- Changes the span of a version. -/
def Version.mapSpans (f : Span → Span) (v : Version) : Version :=
  { v with mark := v.mark.mapSpans f }

/-- Changes the span of every node of a program. -/
def Program.mapSpans (f : Span → Span) (p : Program) : Program :=
  ⟨p.mark.mapSpans f, p.version.mapSpans f, p.term.mapSpans f⟩

instance : Spanned Mark := ⟨Mark.mapSpans⟩
instance : Spanned Kind := ⟨Kind.mapSpans⟩
instance : Spanned Ty := ⟨Ty.mapSpans⟩
instance : Spanned Term := ⟨Term.mapSpans⟩
instance : Spanned Version := ⟨Version.mapSpans⟩
instance : Spanned Program := ⟨Program.mapSpans⟩
instance {α : Type} [Spanned α] : Spanned (List α) := ⟨fun f => List.map (mapSpans f)⟩
instance {α β : Type} [Spanned α] [Spanned β] : Spanned (α × β) :=
  ⟨fun f p => (mapSpans f p.1, mapSpans f p.2)⟩

theorem Ty.mapSpansAll_eq (f : Span → Span) (ts : List Ty) :
    Ty.mapSpansAll f ts = FOmega.mapSpans f ts := by
  induction ts with
  | nil => rfl
  | cons t ts ih =>
    rw [Ty.mapSpansAll, ih]
    rfl

theorem Term.mapSpansAll_eq (f : Span → Span) (ts : List Term) :
    Term.mapSpansAll f ts = FOmega.mapSpans f ts := by
  induction ts with
  | nil => rfl
  | cons t ts ih =>
    rw [Term.mapSpansAll, ih]
    rfl

/-! ## Two sources with the same tokens -/

/-- Two sources with the same tokens, each laid out in its own way. -/
structure Twins where
  left : Layout
  right : Layout
  same : left.tokens.map Token.spelled = right.tokens.map Token.spelled

namespace Twins

variable (T : Twins)

/-- The number of tokens that each of the two has. -/
def count : Nat :=
  T.left.count

/-- Two spans that start at a token and run through one, the same tokens in each source. -/
def From (k : Nat) (s s' : Span) : Prop :=
  ∃ j, k ≤ j ∧ j < T.count ∧ s = T.left.range k j ∧ s' = T.right.range k j

/-- Two values that are equal when their spans are counted in tokens; and their spans are where
    these tokens stand. -/
structure Alike {α : Type} [Spanned α] (a a' : α) : Prop where
  index_eq : mapSpans T.left.index a = mapSpans T.right.index a'
  left_placed : mapSpans T.left.place (mapSpans T.left.index a) = a
  right_placed : mapSpans T.right.place (mapSpans T.right.index a') = a'

variable {T} {α β : Type} {k k' : Nat} {s s' r r' : Span}

theorem count_eq : T.right.count = T.count := by
  have hlength := congrArg List.length T.same
  rw [List.length_map, List.length_map] at hlength
  exact hlength.symm

theorem From.token (hk : k < T.count) : T.From k (T.left.spanAt k) (T.right.spanAt k) :=
  ⟨k, Nat.le_refl k, hk, Layout.range_self.symm, Layout.range_self.symm⟩

/-- A span that starts with another one and runs through a third that does not start before it. -/
theorem From.through (h : T.From k s s') (hr : T.From k' r r') (hle : k ≤ k') :
    T.From k (s.through r) (s'.through r') := by
  obtain ⟨-, -, -, rfl, rfl⟩ := h
  obtain ⟨j, hj, hcount, rfl, rfl⟩ := hr
  have hcount' : j < T.right.count := count_eq ▸ hcount
  refine ⟨j, Nat.le_trans hle hj, hcount, ?_, ?_⟩
  · exact Layout.through_range Layout.offset_range hj (Nat.le_of_lt hcount)
  · exact Layout.through_range Layout.offset_range hj (Nat.le_of_lt hcount')

theorem From.alike (h : T.From k s s') : T.Alike (Mark.position s) (Mark.position s') := by
  obtain ⟨j, hj, hcount, rfl, rfl⟩ := h
  have hcount' : j < T.right.count := count_eq ▸ hcount
  have hindex : T.left.index (T.left.range k j) = T.right.index (T.right.range k j) := by
    rw [Layout.index_range hj hcount, Layout.index_range hj hcount']
  exact ⟨congrArg Mark.position hindex, congrArg Mark.position (Layout.place_index_range hj hcount),
    congrArg Mark.position (Layout.place_index_range hj hcount')⟩

namespace Alike

variable [Spanned α] [Spanned β] {a a' : α} {b b' : β}

theorem pair (ha : T.Alike a a') (hb : T.Alike b b') : T.Alike (a, b) (a', b') where
  index_eq := congrArg₂ Prod.mk ha.index_eq hb.index_eq
  left_placed := congrArg₂ Prod.mk ha.left_placed hb.left_placed
  right_placed := congrArg₂ Prod.mk ha.right_placed hb.right_placed

theorem nil : T.Alike ([] : List α) [] :=
  ⟨rfl, rfl, rfl⟩

theorem cons {as as' : List α} (ha : T.Alike a a') (has : T.Alike as as') :
    T.Alike (a :: as) (a' :: as') where
  index_eq := congrArg₂ List.cons ha.index_eq has.index_eq
  left_placed := congrArg₂ List.cons ha.left_placed has.left_placed
  right_placed := congrArg₂ List.cons ha.right_placed has.right_placed

/-- A node that has no spans but those of its parts is alike if these are. -/
theorem node (build : α → β) (hbuild : ∀ f a, mapSpans f (build a) = build (mapSpans f a))
    (h : T.Alike a a') : T.Alike (build a) (build a') where
  index_eq := by rw [hbuild, hbuild, h.index_eq]
  left_placed := by rw [hbuild, hbuild, h.left_placed]
  right_placed := by rw [hbuild, hbuild, h.right_placed]

theorem of_forall₂ {R : α → α → Prop} (hR : ∀ {a a'}, R a a' → T.Alike a a') {as as' : List α}
    (h : List.Forall₂ R as as') : T.Alike as as' := by
  induction h with
  | nil => exact nil
  | cons ha _ ih => exact (hR ha).cons ih

end Alike

end Twins

end FOmega
