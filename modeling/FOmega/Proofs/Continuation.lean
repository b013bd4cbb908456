import Mathlib.Computability.Language
import FOmega.Token

/-!
# How a beginning can go on

A language of token lists is looked at from a beginning: which tokens can come next, and whether the
beginning is a sentence already. In a language without proper beginnings among its sentences these
two exclude each other, and then the beginnings of a concatenation are told by its parts: before the
end of the first part by the first, and after it by the second. The same holds of repetitions.
-/

namespace FOmega

open scoped Computability

variable {L M : Language Token} {P Q : Token → Prop} {u x : List Token} {t : Token}

/-- The token can come next after a beginning. -/
def Next (L : Language Token) (u : List Token) (t : Token) : Prop :=
  ∃ w, u ++ t :: w ∈ L

/-- No sentence is the beginning of another. -/
def PrefixFree (L : Language Token) : Prop :=
  ∀ u ∈ L, ∀ t, ¬ Next L u t

/-- No sentence goes on with a token of the given class. -/
def EndsBefore (Q : Token → Prop) (L : Language Token) : Prop :=
  ∀ u ∈ L, ∀ t, Q t → ¬ Next L u t

theorem PrefixFree.not_mem_of_next (h : PrefixFree L) (hnext : Next L u t) : u ∉ L :=
  fun hu => h u hu t hnext

theorem PrefixFree.endsBefore (h : PrefixFree L) : EndsBefore Q L :=
  fun u hu t _ => h u hu t

/-- Of two sentences that begin the same list, neither is longer. -/
theorem PrefixFree.append_inj (h : PrefixFree L) {v y : List Token} (hx : x ∈ L) (hu : u ∈ L)
    (heq : x ++ y = u ++ v) : x = u ∧ y = v := by
  rcases List.append_eq_append_iff.mp heq with ⟨w, hxu, hyv⟩ | ⟨w, hxu, hyv⟩
  · cases w with
    | nil =>
      simp only [List.append_nil, List.nil_append] at hxu hyv
      exact ⟨hxu.symm, hyv⟩
    | cons t w =>
      rw [hxu] at hu
      exact absurd ⟨w, hu⟩ (h x hx t)
  · cases w with
    | nil =>
      simp only [List.append_nil, List.nil_append] at hxu hyv
      exact ⟨hxu, hyv.symm⟩
    | cons t w =>
      rw [hxu] at hx
      exact absurd ⟨w, hx⟩ (h u hu t)

/-- A sentence is not the beginning of something that can still go on. -/
theorem PrefixFree.not_append_of_next (h : PrefixFree L) (hx : x ∈ L) {y : List Token}
    (hnext : Next L (x ++ y) t) : False := by
  rcases hnext with ⟨w, hw⟩
  rw [List.append_assoc] at hw
  cases y with
  | nil => exact h x hx t ⟨w, hw⟩
  | cons t' y => exact h x hx t' ⟨y ++ t :: w, hw⟩

/-- Where what follows a beginning makes up a language of its own, that language tells how the
    beginning goes on. -/
theorem next_append (h : ∀ v, x ++ v ∈ M ↔ v ∈ L) : Next M (x ++ u) t ↔ Next L u t := by
  unfold Next
  simp only [List.append_assoc, h]

/-! ## Single tokens and the empty list -/

/-- The lists of one token of a class. -/
def single (P : Token → Prop) : Language Token :=
  {ts | ∃ t, P t ∧ ts = [t]}

theorem singleton_mem (h : P t) : [t] ∈ single P :=
  ⟨t, h, rfl⟩

theorem next_single : Next (single P) u t ↔ u = [] ∧ P t := by
  constructor
  · rintro ⟨w, t', ht', heq⟩
    cases u with
    | nil =>
      cases heq
      exact ⟨rfl, ht'⟩
    | cons a u =>
      have hlength := congrArg List.length heq
      simp at hlength
  · rintro ⟨rfl, ht⟩
    exact ⟨[], singleton_mem ht⟩

theorem prefixFree_single : PrefixFree (single P) := by
  rintro u ⟨t', -, rfl⟩ t hnext
  cases (next_single.mp hnext).1

theorem prefixFree_one : PrefixFree (1 : Language Token) := by
  intro u hu t hnext
  rcases hnext with ⟨w, hw⟩
  have hnil : u ++ t :: w = [] := hw
  simp at hnil

/-! ## One language after another -/

theorem append_mem_mul (hx : x ∈ L) (hu : u ∈ M) : x ++ u ∈ L * M :=
  Language.mem_mul.mpr ⟨x, hx, u, hu, rfl⟩

theorem exists_mem_mul (hL : ∃ u, u ∈ L) (hM : ∃ u, u ∈ M) : ∃ u, u ∈ L * M := by
  rcases hL with ⟨x, hx⟩
  rcases hM with ⟨y, hy⟩
  exact ⟨x ++ y, append_mem_mul hx hy⟩

theorem append_mem_mul_iff (hL : PrefixFree L) (hx : x ∈ L) : x ++ u ∈ L * M ↔ u ∈ M := by
  constructor
  · intro h
    rcases Language.mem_mul.mp h with ⟨a, ha, b, hb, heq⟩
    rcases hL.append_inj ha hx heq with ⟨rfl, rfl⟩
    exact hb
  · exact append_mem_mul hx

/-- After a whole first part, a concatenation goes on as its second part does. -/
theorem next_mul_of_mem (hL : PrefixFree L) (hx : x ∈ L) :
    Next (L * M) (x ++ u) t ↔ Next M u t :=
  next_append fun _ => append_mem_mul_iff hL hx

/-- As long as the first part can go on, a concatenation goes on as its first part does. -/
theorem next_mul_of_next (hL : PrefixFree L) {t' : Token} (hopen : Next L u t')
    (hM : ∃ w, w ∈ M) : Next (L * M) u t ↔ Next L u t := by
  constructor
  · rintro ⟨w, hw⟩
    rcases Language.mem_mul.mp hw with ⟨a, ha, b, hb, heq⟩
    rcases List.append_eq_append_iff.mp heq with ⟨y, hu, -⟩ | ⟨y, ha', hb'⟩
    · rw [hu] at hopen
      exact (hL.not_append_of_next ha hopen).elim
    · cases y with
      | nil =>
        rw [List.append_nil] at ha'
        exact absurd hopen (hL u (ha' ▸ ha) t')
      | cons t'' y =>
        cases hb'
        exact ⟨y, ha' ▸ ha⟩
  · rintro ⟨w, hw⟩
    rcases hM with ⟨m, hm⟩
    have hmem := append_mem_mul hw hm
    rw [List.append_assoc] at hmem
    exact ⟨w ++ m, hmem⟩

theorem not_mem_mul_of_next (hL : PrefixFree L) {t' : Token} (hopen : Next L u t') :
    u ∉ L * M := by
  intro h
  rcases Language.mem_mul.mp h with ⟨a, ha, b, -, rfl⟩
  exact hL.not_append_of_next ha hopen

theorem EndsBefore.mul (hL : PrefixFree L) (hM : EndsBefore Q M) : EndsBefore Q (L * M) := by
  intro u hu t ht hnext
  rcases Language.mem_mul.mp hu with ⟨a, ha, b, hb, rfl⟩
  exact hM b hb t ht ((next_mul_of_mem hL ha).mp hnext)

theorem PrefixFree.mul (hL : PrefixFree L) (hM : PrefixFree M) : PrefixFree (L * M) := by
  intro u hu t
  exact EndsBefore.mul (Q := fun _ => True) hL hM.endsBefore u hu t trivial

/-! ## A closing token -/

/-- With a closing token after it, a language goes on as before, or closes. -/
theorem next_mul_single (hQ : ∃ q, Q q) :
    Next (L * single Q) u t ↔ Next L u t ∨ u ∈ L ∧ Q t := by
  constructor
  · rintro ⟨w, hw⟩
    rcases Language.mem_mul.mp hw with ⟨a, ha, b, ⟨q, hq, rfl⟩, heq⟩
    rcases List.append_eq_append_iff.mp heq with ⟨y, rfl, hy⟩ | ⟨y, rfl, hy⟩
    · cases y with
      | nil =>
        cases hy
        rw [List.append_nil]
        exact .inr ⟨ha, hq⟩
      | cons t' y =>
        have hlength := congrArg List.length hy
        simp at hlength
    · cases y with
      | nil =>
        cases hy
        rw [List.append_nil] at ha
        exact .inr ⟨ha, hq⟩
      | cons t' y =>
        cases hy
        exact .inl ⟨y, ha⟩
  · rintro (⟨w, hw⟩ | ⟨hu, ht⟩)
    · rcases hQ with ⟨q, hq⟩
      have hmem := append_mem_mul hw (singleton_mem hq)
      rw [List.append_assoc] at hmem
      exact ⟨w ++ [q], hmem⟩
    · exact ⟨[], append_mem_mul hu (singleton_mem ht)⟩

theorem not_mem_mul_single_of_next (hL : EndsBefore Q L) (hopen : Next L u t) :
    u ∉ L * single Q := by
  intro h
  rcases Language.mem_mul.mp h with ⟨a, ha, b, ⟨q, hq, rfl⟩, rfl⟩
  rcases hopen with ⟨w, hw⟩
  rw [List.append_assoc] at hw
  exact hL a ha q hq ⟨t :: w, hw⟩

theorem not_mem_mul_single_of_mem (hL : EndsBefore Q L) (hu : u ∈ L) : u ∉ L * single Q := by
  intro h
  rcases Language.mem_mul.mp h with ⟨a, ha, b, ⟨q, hq, rfl⟩, rfl⟩
  exact hL a ha q hq ⟨[], hu⟩

theorem EndsBefore.mul_single (hL : EndsBefore Q L) (hQ : ∃ q, Q q) :
    PrefixFree (L * single Q) := by
  intro u hu t hnext
  rcases (next_mul_single hQ).mp hnext with hopen | ⟨hmem, -⟩
  · exact not_mem_mul_single_of_next hL hopen hu
  · exact not_mem_mul_single_of_mem hL hmem hu

/-- The token is of the given kind. -/
def IsKind (kind : TokenKind) (t : Token) : Prop :=
  t.kind = kind

/-- What is in a language between two tokens of the given kinds. -/
def bracketed (opening closing : TokenKind) (L : Language Token) : Language Token :=
  single (IsKind opening) * (L * single (IsKind closing))

theorem exists_mem_closed (kind : TokenKind) (h : ∃ u, u ∈ L) :
    ∃ u, u ∈ L * single (IsKind kind) :=
  exists_mem_mul h ⟨[⟨kind, ⟨0, 0⟩, ""⟩], singleton_mem rfl⟩

theorem cons_mem_single : t :: u ∈ single P ↔ P t ∧ u = [] := by
  constructor
  · rintro ⟨t', ht', heq⟩
    cases heq
    exact ⟨ht', rfl⟩
  · rintro ⟨ht, rfl⟩
    exact singleton_mem ht

theorem cons_mem_single_mul : t :: u ∈ single P * L ↔ P t ∧ u ∈ L := by
  constructor
  · intro h
    rcases Language.mem_mul.mp h with ⟨a, ⟨t', ht', rfl⟩, b, hb, heq⟩
    cases heq
    exact ⟨ht', hb⟩
  · rintro ⟨ht, hu⟩
    exact append_mem_mul (singleton_mem ht) hu

theorem next_single_mul (hL : ∃ u, u ∈ L) : Next (single P * L) [] t ↔ P t := by
  constructor
  · rintro ⟨w, hw⟩
    exact (cons_mem_single_mul.mp hw).1
  · intro ht
    rcases hL with ⟨w, hw⟩
    exact ⟨w, cons_mem_single_mul.mpr ⟨ht, hw⟩⟩

/-! ## Repetition -/

theorem mem_kstar_iff : u ∈ L∗ ↔ u = [] ∨ u ∈ L * L∗ := by
  have hunfold := Language.one_add_self_mul_kstar_eq_kstar L
  constructor
  · intro h
    rw [← hunfold] at h
    exact h
  · intro h
    rw [← hunfold]
    exact h

theorem next_kstar : Next L∗ u t ↔ Next (L * L∗) u t := by
  constructor
  · rintro ⟨w, hw⟩
    rcases mem_kstar_iff.mp hw with hnil | hmem
    · simp at hnil
    · exact ⟨w, hmem⟩
  · rintro ⟨w, hw⟩
    exact ⟨w, mem_kstar_iff.mpr (.inr hw)⟩

theorem append_mem_kstar_iff (hL : PrefixFree L) (hx : x ∈ L) : x ++ u ∈ L∗ ↔ u ∈ L∗ := by
  constructor
  · intro h
    rcases mem_kstar_iff.mp h with hnil | hmem
    · rw [(List.append_eq_nil_iff.mp hnil).2]
      exact Language.nil_mem_kstar L
    · exact (append_mem_mul_iff hL hx).mp hmem
  · intro h
    exact mem_kstar_iff.mpr (.inr (append_mem_mul hx h))

theorem next_kstar_of_mem (hL : PrefixFree L) (hx : x ∈ L) :
    Next L∗ (x ++ u) t ↔ Next L∗ u t :=
  next_append fun _ => append_mem_kstar_iff hL hx

theorem next_kstar_of_next (hL : PrefixFree L) {t' : Token} (hopen : Next L u t') :
    Next L∗ u t ↔ Next L u t := by
  rw [next_kstar, next_mul_of_next hL hopen ⟨[], Language.nil_mem_kstar L⟩]

theorem not_mem_kstar_of_next (hL : PrefixFree L) {t' : Token} (hopen : Next L u t')
    (hne : u ≠ []) : u ∉ L∗ := by
  intro h
  rcases mem_kstar_iff.mp h with hnil | hmem
  · exact hne hnil
  · exact not_mem_mul_of_next hL hopen hmem

theorem exists_mem_items (hL : ∃ u, u ∈ L) (hM : ∃ u, u ∈ M) : ∃ u, u ∈ L * (M * M∗) :=
  exists_mem_mul hL (exists_mem_mul hM ⟨[], Language.nil_mem_kstar M⟩)

/-- A repetition ends before what starts no item. -/
theorem endsBefore_kstar (hL : PrefixFree L) (hopen : ∃ t, Next L [] t)
    (hQ : ∀ t, Q t → ¬ Next L [] t) : EndsBefore Q L∗ := by
  intro u hu t ht hnext
  rcases Language.mem_kstar.mp hu with ⟨items, rfl, hitems⟩
  rcases hopen with ⟨t', hopen⟩
  clear hu
  induction items with
  | nil => exact hQ t ht ((next_kstar_of_next hL hopen).mp hnext)
  | cons item items ih =>
    rcases List.forall_mem_cons.mp hitems with ⟨hitem, hitems⟩
    rw [List.flatten_cons, next_kstar_of_mem hL hitem] at hnext
    exact ih hitems hnext

/-! ## Forms told apart by their first word -/

/-- An identifier whose spelling is one of the words, and then what the word asks for. -/
def formsOf (words : List String) (body : String → Language Token) : Language Token :=
  {ts | ∃ t rest, (t.kind = .ident ∧ t.text ∈ words) ∧ rest ∈ body t.text ∧ ts = t :: rest}

variable {words : List String} {body : String → Language Token}

theorem cons_mem_formsOf :
    t :: u ∈ formsOf words body ↔ (t.kind = .ident ∧ t.text ∈ words) ∧ u ∈ body t.text := by
  constructor
  · rintro ⟨t', rest, hword, hbody, heq⟩
    cases heq
    exact ⟨hword, hbody⟩
  · rintro ⟨hword, hbody⟩
    exact ⟨t, u, hword, hbody, rfl⟩

theorem nil_not_mem_formsOf : [] ∉ formsOf words body := by
  rintro ⟨t, rest, -, -, heq⟩
  cases heq

theorem next_formsOf_nil (hbody : ∀ word ∈ words, ∃ u, u ∈ body word) :
    Next (formsOf words body) [] t ↔ t.kind = .ident ∧ t.text ∈ words := by
  constructor
  · rintro ⟨w, hw⟩
    exact (cons_mem_formsOf.mp hw).1
  · intro hword
    rcases hbody t.text hword.2 with ⟨w, hw⟩
    exact ⟨w, cons_mem_formsOf.mpr ⟨hword, hw⟩⟩

theorem endsBefore_formsOf (h : ∀ word ∈ words, EndsBefore Q (body word)) :
    EndsBefore Q (formsOf words body) := by
  rintro u ⟨t', rest, hword, hrest, rfl⟩ t ht ⟨w, hw⟩
  exact h t'.text hword.2 rest hrest t ht ⟨w, (cons_mem_formsOf.mp hw).2⟩

end FOmega
