import FOmega.Proofs.ErrorReport
import FOmega.Proofs.Raising
import FOmega.Proofs.RoundTrip

/-!
# How a report is rendered

A report is rendered with one line for each error: the label, the line and column of the error, and
its message. Nothing in a message is escaped, so the lines are right exactly if no message has a line
feed in it. The messages of lexical errors and the texts of the grammar have none. The one text of a
source that can bring a line feed into a message is a string or a character literal that is refused,
which is quoted as it is spelled.
-/

namespace FOmega

open FOmega.Parser

/-! ## The lines of a text -/

namespace Text

/-- The lines of a text, the first of which has begun already. A line is ended by a line feed, which
    a carriage return may precede, or by the end of the text. -/
def linesAfter (line : List Char) : List Char → List (List Char)
  | [] => if line.isEmpty then [] else [line]
  | '\r' :: '\n' :: cs => line :: linesAfter [] cs
  | '\n' :: cs => line :: linesAfter [] cs
  | c :: cs => linesAfter (line ++ [c]) cs

/-- The lines of a text. -/
def lines (s : String) : List String :=
  (linesAfter [] s.toList).map String.ofList

/-- There is no line feed in the text. -/
def OneLine (s : String) : Prop :=
  '\n' ∉ s.toList

instance : DecidablePred OneLine :=
  fun s => inferInstanceAs (Decidable ('\n' ∉ s.toList))

variable {line cs : List Char} {c : Char} {s t : String} {ls : List String}

theorem not_mem_of_mem_linesAfter (hline : '\n' ∉ line) :
    ∀ l ∈ linesAfter line cs, '\n' ∉ l := by
  fun_induction linesAfter line cs with
  | case1 => simp
  | case2 => simp [hline]
  | case3 line cs ih => exact List.forall_mem_cons.mpr ⟨hline, ih (by simp)⟩
  | case4 line cs ih => exact List.forall_mem_cons.mpr ⟨hline, ih (by simp)⟩
  | case5 line c cs _ hc ih =>
    refine ih ?_
    rw [List.mem_append, List.mem_singleton, not_or]
    exact ⟨hline, fun heq => hc heq.symm⟩

theorem linesAfter_cons (hc : c ≠ '\n') (hreturn : c = '\r' → cs.head? ≠ some '\n') :
    linesAfter line (c :: cs) = linesAfter (line ++ [c]) cs := by
  rw [linesAfter]
  · rintro cs' rfl rfl
    exact hreturn rfl rfl
  · exact hc

/-- What comes before the first line feed is the first line if no carriage return ends it. -/
theorem linesAfter_feed (rest : List Char) (hcs : '\n' ∉ cs)
    (hreturn : cs.getLast? ≠ some '\r') :
    linesAfter line (cs ++ '\n' :: rest) = (line ++ cs) :: linesAfter [] rest := by
  induction cs generalizing line with
  | nil => simp [linesAfter]
  | cons c cs ih =>
    obtain ⟨hc, hcs⟩ := List.ne_and_not_mem_of_not_mem_cons hcs
    -- Only right before the line feed would a carriage return be lost.
    cases cs with
    | nil =>
      have hne : c ≠ '\r' := by simpa using hreturn
      rw [List.cons_append, linesAfter_cons (Ne.symm hc) fun heq => absurd heq hne]
      simp [linesAfter]
    | cons d cs =>
      obtain ⟨hd, -⟩ := List.ne_and_not_mem_of_not_mem_cons hcs
      rw [List.cons_append, linesAfter_cons (Ne.symm hc) (by simp [Ne.symm hd])]
      rw [ih hcs (by simpa using hreturn)]
      simp

theorem linesAfter_of_not_mem (hcs : '\n' ∉ cs) (hne : line ++ cs ≠ []) :
    linesAfter line cs = [line ++ cs] := by
  induction cs generalizing line with
  | nil =>
    rw [List.append_nil] at hne ⊢
    simp [linesAfter, hne]
  | cons c cs ih =>
    obtain ⟨hc, hcs⟩ := List.ne_and_not_mem_of_not_mem_cons hcs
    have hhead : cs.head? ≠ some '\n' := fun heq => hcs (List.mem_of_mem_head? heq)
    rw [linesAfter_cons (Ne.symm hc) fun _ => hhead, ih hcs (by simp)]
    simp

/-- No line of a text has a line feed in it. -/
theorem oneLine_of_mem_lines (h : t ∈ lines s) : OneLine t := by
  obtain ⟨l, hl, rfl⟩ := List.mem_map.mp h
  rw [OneLine, String.toList_ofList]
  exact not_mem_of_mem_linesAfter (by simp) l hl

/-- A text put together from lines has these lines. A carriage return at the end of one would be
    taken for a part of the line feed after it. -/
theorem lines_intercalate (hls : ∀ l ∈ ls, l ≠ "" ∧ OneLine l)
    (hreturn : ∀ l ∈ ls.dropLast, l.toList.getLast? ≠ some '\r') :
    lines ("\n".intercalate ls) = ls := by
  have hchars : linesAfter [] ("\n".intercalate ls).toList = ls.map String.toList := by
    rw [String.toList_intercalate]
    induction ls with
    | nil => rfl
    | cons l ls ih =>
      obtain ⟨⟨hne, hl⟩, hls⟩ := List.forall_mem_cons.mp hls
      cases ls with
      | nil =>
        have hlast : linesAfter [] l.toList = [[] ++ l.toList] :=
          linesAfter_of_not_mem hl (by simpa using hne)
        simpa using hlast
      | cons l' ls =>
        rw [List.dropLast_cons_cons, List.forall_mem_cons] at hreturn
        have hjoin : "\n".toList.intercalate ((l :: l' :: ls).map String.toList) =
            l.toList ++ '\n' :: "\n".toList.intercalate ((l' :: ls).map String.toList) := by
          simp [List.intercalate_cons_cons]
        rw [hjoin, linesAfter_feed _ hl hreturn.1, ih hls hreturn.2]
        rfl
  rw [lines, hchars, List.map_map]
  simp

@[simp] theorem oneLine_append : OneLine (s ++ t) ↔ OneLine s ∧ OneLine t := by
  simp [OneLine]

theorem oneLine_intercalate (hs : OneLine s) :
    OneLine (s.intercalate ls) ↔ ∀ l ∈ ls, OneLine l := by
  induction ls with
  | nil => simp [OneLine]
  | cons l ls ih =>
    cases ls with
    | nil => simp
    | cons l' ls =>
      have hjoin : s.intercalate (l :: l' :: ls) = l ++ s ++ s.intercalate (l' :: ls) :=
        String.intercalate_cons_cons
      rw [hjoin, oneLine_append, oneLine_append, ih, List.forall_mem_cons]
      simp [hs]

theorem oneLine_decimal (n : Nat) : OneLine (Decimal.text n) := by
  rw [OneLine, Decimal.text, String.toList_ofList]
  intro hmem
  exact absurd (Lexer.isDigit_of_mem_digits hmem) (by decide)

end Text

open Text (OneLine oneLine_append)

/-! ## Messages -/

theorem Expected.oneLine_phrase {expected : List String} :
    OneLine (phrase expected) ↔ ∀ x ∈ expected, OneLine x := by
  have hwords : OneLine ", expected " ∧ OneLine ", " ∧ OneLine " or " := by decide
  match expected with
  | [] => simp [phrase, OneLine]
  | [s] => simp [phrase, hwords]
  | s :: t :: ss =>
    have hsplit := List.dropLast_concat_getLast (List.cons_ne_nil s (t :: ss))
    have hlast : (s :: t :: ss).getLastD "" = (s :: t :: ss).getLast (List.cons_ne_nil _ _) := by
      simp [List.getLastD]
    simp only [phrase, oneLine_append, hwords, true_and, and_true,
      Text.oneLine_intercalate hwords.2.1, hlast]
    rw [← List.forall_mem_singleton (p := OneLine), ← List.forall_mem_append, hsplit]

theorem Cause.oneLine_unexpected {found : String} {expected : List String} :
    OneLine (unexpected found expected).message ↔ OneLine found ∧ ∀ x ∈ expected, OneLine x := by
  have hword : OneLine "unexpected " := by decide
  unfold message
  rw [oneLine_append, oneLine_append, Expected.oneLine_phrase]
  simp only [hword, true_and]

theorem Cause.oneLine_unexpectedEnd {expected : List String} :
    OneLine (unexpectedEnd expected).message ↔ ∀ x ∈ expected, OneLine x := by
  have hwords : OneLine "unexpected end of input" := by decide
  unfold message
  rw [oneLine_append, Expected.oneLine_phrase]
  simp only [hwords, true_and]

theorem Cause.oneLine_tooDeep (limit : Nat) : OneLine (tooDeep limit).message := by
  have hwords : OneLine "nesting deeper than " ∧ OneLine " levels" := by decide
  unfold message
  rw [oneLine_append, oneLine_append]
  exact ⟨⟨hwords.1, Text.oneLine_decimal limit⟩, hwords.2⟩

theorem Cause.oneLine_outOfRange {text : String} (h : OneLine text) :
    OneLine (outOfRange text).message := by
  have hwords : OneLine "number `" ∧ OneLine "` is out of range" := by decide
  unfold message
  rw [oneLine_append, oneLine_append]
  exact ⟨⟨hwords.1, h⟩, hwords.2⟩

theorem grammarTexts_oneLine : ∀ x ∈ grammarTexts, OneLine x := by
  decide

theorem mem_lexSkippingComments {src : String} {t : Token} :
    t ∈ (lexSkippingComments src).tokens ↔
      t ∈ (lex src).tokens ∧ t.kind.isComment = false := by
  rw [lexSkippingComments, Lexed.withoutComments, List.mem_filter, Bool.not_eq_true']

theorem oneLine_describe {src : String} {t : Token} (ht : t ∈ (lexSkippingComments src).tokens) :
    OneLine t.describe ↔ OneLine t.text := by
  have hcomment := (mem_lexSkippingComments.mp ht).2
  have hwords : OneLine "integer `" ∧ OneLine "`" ∧ OneLine "string " ∧ OneLine "character " ∧
      OneLine "identifier `" := by decide
  rcases t with ⟨kind, span, text⟩
  cases kind with
  | lineComment | blockComment => cases hcomment
  | _ =>
    unfold Token.describe
    simp only [oneLine_append, hwords, true_and, and_true]

/-- The token is a string or a character literal. -/
def Token.IsQuoted (t : Token) : Prop :=
  (∃ value, t.kind = .string value) ∨ ∃ value, t.kind = .char value

/-- Nothing but quotes lets a line feed into a token, comments apart. -/
theorem isQuoted_of_feed {src : String} {t : Token} (ht : t ∈ (lexSkippingComments src).tokens)
    (hfeed : ¬ OneLine t.text) : t.IsQuoted := by
  obtain ⟨hlex, hcomment⟩ := mem_lexSkippingComments.mp ht
  have hkind : t.kind ≠ .blockComment := by
    intro heq
    simp [heq, TokenKind.isComment] at hcomment
  have hmem := (mem_pattern_of_token hlex hkind).1
  rw [OneLine, not_not] at hfeed
  unfold Token.IsQuoted
  generalize t.kind = kind, t.text.toList = w at *
  cases kind with
  | lineComment | blockComment => cases hcomment
  | string value => exact .inl ⟨value, rfl⟩
  | char value => exact .inr ⟨value, rfl⟩
  | int n =>
    obtain ⟨ds, -, hds, hw⟩ := Lexer.mem_int.mp hmem
    have hdigit : '\n' ∈ ds := by rcases hw with rfl | rfl <;> simpa using hfeed
    exact absurd (hds '\n' hdigit) (by decide)
  | ident =>
    obtain ⟨c, v, hc, hv, rfl⟩ := Lexer.mem_ident.mp hmem
    rcases List.mem_cons.mp hfeed with rfl | hfeed
    · exact absurd hc (by decide)
    · exact absurd (hv '\n' hfeed) (by decide)
  | _ =>
    obtain rfl : w = [_] := hmem
    simp at hfeed

/-! ## What breaks a message -/

/-- The error quotes a literal of the source that has a line feed in it. -/
def QuotesFeed (src : String) (e : ParseError) : Prop :=
  ∃ t ∈ (lexSkippingComments src).tokens, t.IsQuoted ∧ ¬ OneLine t.text ∧
    e.span = t.span ∧ ∃ expected, e.cause = .unexpected t.describe expected

/-- The error lists one of the given texts as expected that has a line feed in it. -/
def ListsFeed (texts : List String) (e : ParseError) : Prop :=
  ∃ expected, e.cause.expected? = some expected ∧ ∃ x ∈ expected, x ∈ texts ∧ ¬ OneLine x

variable {src label : String} {texts expected : List String} {maxDepth : Nat} {e : ParseError}

theorem oneLine_of_listed (hlisted : expected ⊆ grammarTexts ++ texts)
    (hlist : ¬ ∃ x ∈ expected, x ∈ texts ∧ ¬ OneLine x) : ∀ x ∈ expected, OneLine x := by
  intro x hx
  rcases List.mem_append.mp (hlisted hx) with hgrammar | htexts
  · exact grammarTexts_oneLine x hgrammar
  · by_contra hfeed
    exact hlist ⟨x, hx, htexts, hfeed⟩

/-- An error that a rule can raise has a message on one line, unless it quotes or lists something
    that is not. -/
theorem oneLine_of_raised (h : Raised (sourceContext maxDepth src) texts e)
    (hquotes : ¬ QuotesFeed src e) (hlists : ¬ ListsFeed texts e) :
    OneLine e.cause.message := by
  cases h with
  | @refused t expected hmem hlisted =>
    have htext : OneLine t.text := by
      by_contra hfeed
      exact hquotes ⟨t, hmem, isQuoted_of_feed hmem hfeed, hfeed, rfl, expected, rfl⟩
    have hexpected := oneLine_of_listed hlisted fun hlist => hlists ⟨expected, rfl, hlist⟩
    exact Cause.oneLine_unexpected.mpr ⟨(oneLine_describe hmem).mpr htext, hexpected⟩
  | ended hlisted =>
    exact Cause.oneLine_unexpectedEnd.mpr
      (oneLine_of_listed hlisted fun hlist => hlists ⟨_, rfl, hlist⟩)
  | zeroWidth =>
    show OneLine "rule succeeded without consuming input"
    decide
  | tooDeep => exact Cause.oneLine_tooDeep _
  | @outOfRange t n hmem hkind =>
    refine Cause.oneLine_outOfRange ?_
    by_contra hfeed
    -- An integer is not quoted.
    rcases isQuoted_of_feed hmem hfeed with ⟨_, hquoted⟩ | ⟨_, hquoted⟩
    · cases hkind.symm.trans hquoted
    · cases hkind.symm.trans hquoted

theorem QuotesFeed.not_oneLine (h : QuotesFeed src e) : ¬ OneLine e.cause.message := by
  obtain ⟨t, hmem, -, hfeed, -, expected, hcause⟩ := h
  intro hline
  rw [hcause, Cause.oneLine_unexpected] at hline
  exact hfeed ((oneLine_describe hmem).mp hline.1)

theorem ListsFeed.not_oneLine (h : ListsFeed texts e) : ¬ OneLine e.cause.message := by
  obtain ⟨expected, hexpected, x, hx, -, hfeed⟩ := h
  intro hline
  generalize e.cause = cause at hexpected hline
  cases cause with
  | unexpected =>
    cases hexpected
    exact hfeed ((Cause.oneLine_unexpected.mp hline).2 x hx)
  | unexpectedEnd =>
    cases hexpected
    exact hfeed (Cause.oneLine_unexpectedEnd.mp hline x hx)
  | _ => cases hexpected

/-! ## The lines of a report -/

namespace Report

/-- The line of an error: the label, the line and column of its offset, and its message. -/
def line (label src : String) (e : ParseError) : String :=
  let place := Position.ofOffset src e.span.offset
  label ++ ":" ++ Text.Decimal.text place.line ++ ":" ++ Text.Decimal.text place.column ++ ": " ++
    e.cause.message

/-- The report is rendered as the lines of its errors. -/
def LineByLine (label src : String) (r : Report) : Prop :=
  Text.lines r.text = r.errors.map fun e => line label src e.error

theorem oneLine_line (hlabel : OneLine label) :
    OneLine (line label src e) ↔ OneLine e.cause.message := by
  have hcolons : OneLine ":" ∧ OneLine ": " := by decide
  simp [line, hlabel, hcolons, Text.oneLine_decimal]

theorem text_eq (label src : String) (errors : List ParseError) :
    text ⟨label, errors.map (LocatedError.ofError src)⟩ =
      "\n".intercalate (errors.map (line label src)) := by
  simp only [text, List.map_map]
  congr 2
  funext e
  simp [LocatedError.ofError, LocatedError.text, Position.text, line, String.append_assoc]

theorem line_ne_empty : line label src e ≠ "" := by
  refine ne_of_apply_ne String.toList ?_
  simp [line]

/-- The line of a lexical error does not end with a carriage return. -/
theorem getLast?_line {kind : LexErrorKind} (h : e.cause = .lexical kind) :
    (line label src e).toList.getLast? ≠ some '\r' := by
  have hmessage : e.cause.message.toList = kind.message.toList := by
    rw [h]
    rfl
  have hlast : ∃ c, kind.message.toList.getLast? = some c ∧ c ≠ '\r' := by
    cases kind <;> exact ⟨_, rfl, by decide⟩
  obtain ⟨c, hc, hne⟩ := hlast
  rw [line, String.toList_append, List.getLast?_append, hmessage, hc]
  simpa using hne

/-- A single error, or any number of lexical ones, are rendered line by line exactly if no message
    has a line feed in it. -/
theorem lineByLine_iff {errors : List ParseError} (hlabel : OneLine label)
    (herrors : (∀ e ∈ errors, ∃ kind, e.cause = .lexical kind) ∨ ∃ e, errors = [e]) :
    LineByLine label src ⟨label, errors.map (LocatedError.ofError src)⟩ ↔
      ∀ e ∈ errors, OneLine e.cause.message := by
  have hmap : (errors.map (LocatedError.ofError src)).map (fun e => line label src e.error) =
      errors.map (line label src) := by
    rw [List.map_map]
    rfl
  rw [LineByLine, text_eq, hmap]
  constructor
  · intro hlines e he
    have hmem : line label src e ∈ Text.lines ("\n".intercalate (errors.map (line label src))) :=
      by
        rw [hlines]
        exact List.mem_map_of_mem he
    exact (oneLine_line hlabel).mp (Text.oneLine_of_mem_lines hmem)
  · intro hmessages
    refine Text.lines_intercalate ?_ ?_
    · intro l hl
      obtain ⟨e, he, rfl⟩ := List.mem_map.mp hl
      exact ⟨line_ne_empty, (oneLine_line hlabel).mpr (hmessages e he)⟩
    · rcases herrors with hlexical | ⟨e, rfl⟩
      · intro l hl
        obtain ⟨e, he, rfl⟩ := List.mem_map.mp (List.mem_of_mem_dropLast hl)
        obtain ⟨kind, hkind⟩ := hlexical e he
        exact getLast?_line hkind
      · simp

/-- A failed parse reports the lexical errors of the source, or one error. -/
theorem errors_of_result {α : Type} {maxDepth : Nat} {supply : Supply} {rule : Nat → Parser α}
    {report : Report} (h : (parseWith maxDepth supply rule label src).result = .error report) :
    ∃ errors : List ParseError, report = ⟨label, errors.map (LocatedError.ofError src)⟩ ∧
      ((∀ e ∈ errors, ∃ kind, e.cause = .lexical kind) ∨
        (lex src).errors = [] ∧ ∃ e, errors = [e]) := by
  by_cases hlex : (lexSkippingComments src).errors = []
  · cases hreply : (rule maxDepth).whole (sourceContext maxDepth src)
        (.start (sourceContext maxDepth src) (.ofSupply supply)) with
    | ok a s =>
      rw [parseWith_of_ok hlex hreply] at h
      cases h
    | error e s =>
      rw [parseWith_of_error hlex hreply] at h
      cases h
      exact ⟨[e], rfl, .inr ⟨hlex, e, rfl⟩⟩
  · rw [parseWith_of_lexErrors hlex] at h
    cases h
    refine ⟨(lexSkippingComments src).errors.map fun e => ⟨e.span, .lexical e.kind⟩, ?_, .inl ?_⟩
    · rw [List.map_map]
      rfl
    · intro e he
      obtain ⟨e, -, rfl⟩ := List.mem_map.mp he
      exact ⟨e.kind, rfl⟩

/-- The report of a failed parse is rendered line by line exactly if no message has a line feed in
    it, and the message of a lexical error has none. -/
theorem lineByLine_of_result {α : Type} {maxDepth : Nat} {supply : Supply}
    {rule : Nat → Parser α} {report : Report} (hlabel : OneLine label)
    (h : (parseWith maxDepth supply rule label src).result = .error report) :
    (report.LineByLine label src ↔ ∀ e ∈ report.errors, OneLine e.error.cause.message) ∧
      ((lex src).errors ≠ [] → report.LineByLine label src) := by
  obtain ⟨errors, rfl, herrors⟩ := errors_of_result h
  have hiff : LineByLine label src _ ↔ _ := lineByLine_iff hlabel (herrors.imp_right And.right)
  constructor
  · rw [hiff]
    simp [LocatedError.ofError]
  · intro hlex
    refine hiff.mpr fun e he => ?_
    rcases herrors with hlexical | ⟨hnone, -⟩
    · obtain ⟨kind, hkind⟩ := hlexical e he
      rw [hkind]
      cases kind <;> decide
    · exact absurd hnone hlex

end Report

/-- A failed parse, by whatever rule, is rendered line by line exactly if no message has a line feed
    in it, and always if its errors are lexical. Where a rule expression fails, that is not so exactly
    if the one error that is reported quotes a string or a character literal with a line feed in it,
    or lists a text with a line feed that is the rule expression's own. -/
theorem report_rendered_line_by_line (maxDepth : Nat) (supply : Supply) (label src : String)
    (hlabel : OneLine label) :
    (∀ (α : Type) (rule : Nat → Parser α) (report : Report),
      (parseWith maxDepth supply rule label src).result = .error report →
        (report.LineByLine label src ↔ ∀ e ∈ report.errors, OneLine e.error.cause.message) ∧
        ((lex src).errors ≠ [] → report.LineByLine label src)) ∧
    ∀ (r : Rule) (report : Report),
      (parseWith maxDepth supply (fun room => r.run room) label src).result = .error report →
        (¬ report.LineByLine label src ↔
          ∃ e, report = .single label src e ∧ (QuotesFeed src e ∨ ListsFeed r.texts e)) := by
  refine ⟨fun α rule report h => Report.lineByLine_of_result hlabel h, ?_⟩
  intro r report h
  obtain ⟨hiff, hlexical⟩ := Report.lineByLine_of_result hlabel h
  constructor
  · intro hbroken
    have hlex : (lexSkippingComments src).errors = [] := by
      by_contra hne
      exact hbroken (hlexical hne)
    obtain ⟨e, rfl, hraised⟩ := raised_of_error hlex h
    refine ⟨e, rfl, ?_⟩
    by_contra hquiet
    obtain ⟨hquotes, hlists⟩ := not_or.mp hquiet
    have hmessage := oneLine_of_raised hraised hquotes hlists
    exact hbroken (hiff.mpr (List.forall_mem_singleton.mpr hmessage))
  · rintro ⟨e, rfl, hfeed⟩ hrendered
    have hmessage : OneLine e.cause.message :=
      hiff.mp hrendered (.ofError src e) (List.mem_singleton_self _)
    rcases hfeed with hquotes | hlists
    · exact hquotes.not_oneLine hmessage
    · exact hlists.not_oneLine hmessage

/-- Two characters that start no token are reported on two lines, and a rule expression that refuses
    a string over two lines quotes it. -/
theorem stray_and_broken_rendered :
    let stray := "#\n  $"
    let broken := "\"a\nb\""
    (∃ report, (parseWith 1 .empty Grammar.term "t" stray).result = .error report ∧
      Text.lines report.text = ["t:1:1: invalid token", "t:2:3: invalid token"]) ∧
    ∃ report, (parseWith 1 .empty (fun room => Rule.name.run room) "t" broken).result =
      .error report ∧ ¬ report.LineByLine "t" broken := by
  intro stray broken
  have hlabel : OneLine "t" := by decide
  constructor
  · have hlex : (lexSkippingComments stray).errors ≠ [] := by decide +kernel
    have hfails : (parseWith 1 .empty Grammar.term "t" stray).result = .error _ :=
      congrArg Parsed.result (parseWith_of_lexErrors hlex)
    have hrendered := (report_rendered_line_by_line 1 .empty "t" stray hlabel).1 _ _ _ hfails
    refine ⟨_, hfails, (hrendered.2 hlex).trans ?_⟩
    decide +kernel
  · let t : Token := ⟨.string "a\nb", ⟨0, 5⟩, broken⟩
    let e : ParseError := ⟨t.span, .unexpected t.describe ["name"]⟩
    have hfails : (parseWith 1 .empty (fun room => Rule.name.run room) "t" broken).result =
        .error (.single "t" broken e) := by
      apply Phrase.eq_error_of_report
      decide +kernel
    have ht : t ∈ (lexSkippingComments broken).tokens := by decide +kernel
    have hquotes : QuotesFeed broken e :=
      ⟨t, ht, .inl ⟨_, rfl⟩, by decide, rfl, ["name"], rfl⟩
    refine ⟨_, hfails, ?_⟩
    exact ((report_rendered_line_by_line 1 .empty "t" broken hlabel).2 .name _ hfails).mpr
      ⟨e, rfl, .inl hquotes⟩

/-- A string that goes over two lines is refused with one error, which is rendered on two lines. -/
theorem stringOverTwoLines_rendered_on_two :
    OneLine "t" ∧ ∃ report,
      (parseWith 1 .empty Grammar.term "t" "\"a\nb\"").result = .error report ∧
        report.errors.length = 1 ∧ (Text.lines report.text).length = 2 := by
  let e : ParseError :=
    ⟨⟨0, 5⟩, .unexpected "string \"a\nb\"" ["`(`", "`[`", "`\x7b`", "variable"]⟩
  have hfails : (parseWith 1 .empty Grammar.term "t" "\"a\nb\"").result =
      .error (.single "t" "\"a\nb\"" e) := by
    apply Phrase.eq_error_of_report
    decide +kernel
  exact ⟨by decide, _, hfails, rfl, by decide +kernel⟩

end FOmega
