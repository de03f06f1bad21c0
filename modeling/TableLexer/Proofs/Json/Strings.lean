import TableLexer.Proofs.Json.Table
import TableLexer.Proofs.Lexer.Calls

/-!
# Reading string literals

A string is read in two parts: the main rule consumes the opening quote as a character, and a
subrule scans for the rest. The scan looks at the layout first, although a token is in progress,
so blanks right behind the opening quote are skipped as noise and are missing in the token.
-/
namespace TableLexer.Json

def quoted (body : List Char) : List Char := '"' :: (body ++ ['"'])

def onLine (input : List Char) (pos : Nat) (lineState : LineState) (lexeme : List Char)
    (recognition : RecognitionState) : Engine :=
  { pos, line := 1, lineStart := 0, lineState, lexeme, anchor := .origin, recognition
    config := { noise := blankPattern, indentation := none }
    input, snapshots := [] }

section Layout

variable {input rest : List Char} {pos k : Nat} {lineState : LineState} {lexeme : List Char}
  {recognition : RecognitionState}

theorem blank_taken {β : Type} : Regex.Takes (β := β) (Regex.run (.set blankSet)) [' '] :=
  Regex.takes_set (by decide)

def EndsBlanks (rest : List Char) : Prop := ∀ c ∈ rest.head?, c ≠ ' ' ∧ c ≠ '\t'

theorem EndsBlanks.refused {β : Type} (h : EndsBlanks rest) :
    Regex.Refuses (β := β) (Regex.run (.set blankSet)) rest := by
  cases rest with
  | nil =>
    intro k cur hrest
    simp [Regex.run, hrest]
  | cons c rest =>
    have hc := h c rfl
    exact Regex.refuses_set (by simp [blankSet, Regex.CharSet.mem, hc.1, hc.2])

theorem blanks_matched (hpos : pos ≤ input.length)
    (hrest : input.drop pos = List.replicate k ' ' ++ rest) (hend : EndsBlanks rest) :
    blankPattern.matchAt? input pos = if k = 0 then none else some k := by
  have hlen : ¬ input.length < pos := by omega
  simp only [blankPattern, Pattern.matchAt?, hlen, ↓reduceIte]
  change Regex.plus (Regex.run (.set blankSet)) true (fun cur => some (cur.offset - pos))
    (.ofText input pos) = _
  cases k with
  | zero => exact hend.refused _ (Regex.Cursor.ofText input pos) hrest
  | succ k =>
    rw [if_neg (by omega)]
    have hall : ∀ p ∈ List.replicate k [' '],
        p ≠ [] ∧ Regex.Takes (β := Nat) (Regex.run (.set blankSet)) p := by
      intro p hp
      rw [List.eq_of_mem_replicate hp]
      exact ⟨by simp, blank_taken⟩
    apply Regex.plus_takes ⟨by simp, blank_taken⟩ hall hend.refused
    · simpa [List.replicate_succ, Regex.Cursor.ofText] using hrest
    · intro next hoff _
      simp only [hoff, Regex.Cursor.ofText, List.length_singleton,
        List.flatten_replicate_singleton, List.length_replicate, Option.some.injEq]
      omega

theorem skipNoise_onLine (hpos : pos ≤ input.length)
    (hrest : input.drop pos = List.replicate k ' ' ++ rest) (hend : EndsBlanks rest) :
    (onLine input pos lineState lexeme recognition).skipNoise =
      onLine input (pos + k) lineState lexeme recognition := by
  have hmatch := blanks_matched hpos hrest hend
  unfold Engine.skipNoise
  cases k with
  | zero =>
    have hnone : blankPattern.consumedAt? input pos = none := by
      simp [Pattern.consumedAt?, hmatch]
    simp [onLine, hnone]
  | succ k =>
    have hsome : blankPattern.consumedAt? input pos = some (k + 1) := by
      simp [Pattern.consumedAt?, hmatch]
    have hnext := Engine.upcoming_eq (e := onLine input pos lineState lexeme recognition) hrest
    rw [List.length_replicate] at hnext
    have hbreak : Text.hasLineBreak (List.replicate (k + 1) ' ') = false := by
      simp [Text.hasLineBreak]
    simp only [onLine] at hnext ⊢
    simp [hsome, hnext, hbreak, Engine.advance]

theorem separator_refused {c : Char} (hn : c ≠ '\n') (hr : c ≠ '\r') :
    Regex.Refuses (β := Nat) (Regex.run (.alt (.seq (LayoutPattern.char '\r')
      (LayoutPattern.char '\n')) (.alt (LayoutPattern.char '\r') (LayoutPattern.char '\n'))))
      (c :: rest) := by
  have hset : ∀ d, c ≠ d →
      Regex.Refuses (β := Nat) (Regex.run (LayoutPattern.char d)) (c :: rest) := by
    intro d hd
    exact Regex.refuses_set (by simpa using hd)
  exact Regex.refuses_alt (Regex.refuses_seq (hset '\r' hr))
    (Regex.refuses_alt (hset '\r' hr) (hset '\n' hn))

theorem separator_onLine {c : Char} (hrest : input.drop pos = c :: rest) (hn : c ≠ '\n')
    (hr : c ≠ '\r') : (onLine input pos lineState lexeme recognition).separator? = none := by
  have hrefused : Regex.Refuses (β := Nat) _ (c :: rest) := separator_refused hn hr
  rw [← hrest] at hrefused
  have hmatch : LayoutPattern.lineSeparator.matchAt? input pos = none := by
    unfold Pattern.matchAt?
    split
    · rfl
    · exact hrefused.matchAt?
  simp [Engine.separator?, onLine, Pattern.consumedAt?, hmatch]

theorem opened_onLine (hr : recognition ≠ .recognized) (hl : lineState ≠ .atLineEnd) :
    (onLine input pos lineState lexeme recognition).opened =
      onLine input pos lineState lexeme recognition := by
  have hreleased : (onLine input pos lineState lexeme recognition).released =
      onLine input pos lineState lexeme recognition := by simp [Engine.released, onLine, hr]
  rw [Engine.opened, hreleased, Engine.lineBegun, if_neg]
  intro h
  exact hl h.1

theorem indentation_onLine :
    (onLine input pos lineState lexeme recognition).indentation? = none := by
  unfold Engine.indentation?
  split <;> rfl

/-- In the body of a line a layout step skips blanks. -/
theorem scanLayout_onLine {c : Char} (hr : recognition = .ready ∨ recognition = .tokenizing)
    (hl : lineState ≠ .atLineEnd) (hpos : pos + k < input.length)
    (hrest : input.drop pos = List.replicate k ' ' ++ c :: rest) (hend : EndsBlanks (c :: rest))
    (hn : c ≠ '\n') (hcr : c ≠ '\r') :
    Engine.scanLayout (onLine input pos lineState lexeme recognition) =
      .ok none (onLine input (pos + k) lineState lexeme recognition) := by
  have hopened : (onLine input pos lineState lexeme recognition).opened =
      onLine input pos lineState lexeme recognition := by
    apply opened_onLine _ hl
    rcases hr with rfl | rfl <;> simp
  have hskip : (onLine input pos lineState lexeme recognition).skipNoise =
      onLine input (pos + k) lineState lexeme recognition :=
    skipNoise_onLine (by omega) hrest hend
  have hdrop : input.drop (pos + k) = c :: rest := by
    rw [← List.drop_drop, hrest]
    simp
  rw [Engine.scanLayout_eq_ok_iff]
  refine ⟨hr.imp_right .inl, ?_⟩
  have hbody := Engine.LaidOut.body (e := onLine input pos lineState lexeme recognition)
  rw [hopened, hskip] at hbody
  apply hbody
  · exact indentation_onLine
  · exact decide_eq_false (Nat.not_le.mpr hpos)
  · exact separator_onLine hdrop hn hcr

end Layout

section Literal

variable {body text : List Char}

theorem Denotes.no_line_break (h : Denotes body text) :
    Text.hasLineBreak (body ++ ['"']) = false := by
  rw [Text.hasLineBreak, List.any_eq_false]
  intro c hc
  have hprint : 0x20 ≤ c.toNat := by
    rcases List.mem_append.mp hc with hc | hc
    · exact h.printable c hc
    · rw [List.mem_singleton.mp hc]
      decide
  have hn : c ≠ '\n' := by
    rintro rfl
    exact absurd hprint (by decide)
  have hr : c ≠ '\r' := by
    rintro rfl
    exact absurd hprint (by decide)
  simp [hn, hr]

theorem Denotes.scan_start (h : Denotes body text) :
    ∃ c rest, body.drop (blanks body) ++ ['"'] = c :: rest ∧ EndsBlanks (c :: rest) ∧
      c ≠ '\n' ∧ c ≠ '\r' := by
  have hhead := head_ne_blank body
  have hprint : ∀ c ∈ body.drop (blanks body), 0x20 ≤ c.toNat :=
    fun c hc => h.printable c (List.mem_of_mem_drop hc)
  cases hd : body.drop (blanks body) with
  | nil =>
    refine ⟨'"', [], rfl, ?_, by decide, by decide⟩
    simp [EndsBlanks]
  | cons c rest =>
    rw [hd] at hhead hprint
    have hc := hprint c List.mem_cons_self
    have hne : ∀ d : Char, d.toNat < 0x20 → c ≠ d := by
      rintro d hd rfl
      omega
    refine ⟨c, rest ++ ['"'], rfl, ?_, hne '\n' (by decide), hne '\r' (by decide)⟩
    simp only [EndsBlanks, List.head?_cons, Option.mem_def, Option.some.injEq]
    rintro d rfl
    exact ⟨by simpa using hhead, hne '\t' (by decide)⟩

theorem quoted_drop (body : List Char) : (quoted body).drop 1 =
    List.replicate (blanks body) ' ' ++ (body.drop (blanks body) ++ ['"']) := by
  rw [← List.append_assoc, ← blanks_split]
  rfl

theorem quoted_drop_blanks (body : List Char) :
    (quoted body).drop (1 + blanks body) = body.drop (blanks body) ++ ['"'] := by
  rw [← List.drop_drop, quoted_drop]
  simp

theorem blanks_le (body : List Char) : blanks body ≤ body.length := by
  have h := congrArg List.length (blanks_split body)
  simp only [List.length_append, List.length_replicate] at h
  omega

theorem nextChar_quote (body : List Char) :
    Engine.nextChar (onLine (quoted body) 0 .atLineStart [] .ready) =
      .ok (some '"') (onLine (quoted body) 1 .inLineBody ['"'] .tokenizing) := by
  have hrest : (quoted body).drop 0 = '"' :: (body ++ ['"']) := rfl
  have hsep : (onLine (quoted body) 0 .atLineStart [] .ready).separator? = none :=
    separator_onLine hrest (by decide) (by decide)
  rw [Engine.nextChar_eq (.inl rfl), hsep]
  rfl

theorem tokenTaken_string (h : Denotes body text) :
    (onLine (quoted body) (1 + blanks body) .inLineBody ['"'] .tokenizing).tokenTaken stringPattern
        ((body.drop (blanks body)).length + 1) =
      onLine (quoted body) (body.length + 2) .inLineBody (quoted (body.drop (blanks body)))
        .recognized := by
  have hdrop := (quoted_drop_blanks body).trans (List.append_nil _).symm
  have hnext := Engine.upcoming_eq
    (e := onLine (quoted body) (1 + blanks body) .inLineBody ['"'] .tokenizing) hdrop
  rw [List.length_append, List.length_singleton] at hnext
  have hbreak := h.drop_blanks.no_line_break
  have hlines : stringPattern.spansLines = false := rfl
  have hpos : 1 + blanks body + ((body.drop (blanks body)).length + 1) = body.length + 2 := by
    have := blanks_le body
    rw [List.length_drop]
    omega
  unfold Engine.tokenTaken Engine.takeMatch
  simp only [hnext, hbreak, hlines, Bool.or_self, Bool.false_eq_true, ↓reduceIte,
    Engine.takeChars]
  simp only [onLine, Engine.advance, Engine.pushLexeme, hpos, quoted]
  rfl

theorem scan_string (h : Denotes body text) :
    Engine.scan stringPattern (onLine (quoted body) 1 .inLineBody ['"'] .tokenizing) =
      .ok (some .token) (onLine (quoted body) (body.length + 2) .inLineBody
        (quoted (body.drop (blanks body))) .recognized) := by
  obtain ⟨c, rest, hstart, hend, hn, hr⟩ := h.scan_start
  have hrest := quoted_drop body
  rw [hstart] at hrest
  have hlen : 1 + blanks body < (quoted body).length := by
    have := blanks_le body
    simp only [quoted, List.length_cons, List.length_append, List.length_nil]
    omega
  have hlayout : Engine.scanLayout (onLine (quoted body) 1 .inLineBody ['"'] .tokenizing) =
      .ok none (onLine (quoted body) (1 + blanks body) .inLineBody ['"'] .tokenizing) :=
    scanLayout_onLine (.inr rfl) (by simp) hlen hrest hend hn hr
  have hmatch : stringPattern.matchAt? (quoted body) (1 + blanks body) =
      some ((body.drop (blanks body)).length + 1) :=
    h.drop_blanks.matched (quoted_drop_blanks body)
  rw [Engine.scan_eq stringPattern hlayout, Engine.tryPattern_eq _ (.inr rfl),
    ← tokenTaken_string h]
  simp only [onLine] at hmatch ⊢
  simp [hmatch]

end Literal

section Rules

variable {body text : List Char}

/-- The token that a literal becomes: what its body denotes without the blanks at its start. -/
def stringToken (body text : List Char) : Token :=
  { value := .text (String.ofList (text.drop (blanks body)))
    lexeme := String.ofList (quoted (body.drop (blanks body)))
    position := .origin }

theorem bodyOf_quoted (body : List Char) : bodyOf (quoted body) = body := by
  have hlast : (quoted body).getLast? = some '"' := by
    rw [quoted, ← List.cons_append, List.getLast?_append]
    rfl
  have hfirst : (quoted body).head? = some '"' := rfl
  simp only [bodyOf, hlast, hfirst, Option.all_some]
  simp [quoted]

theorem stringValue_quoted (h : Denotes body text) :
    stringValue? (String.ofList (quoted body)) = some (.text (String.ofList text)) := by
  simp [stringValue?, bodyOf_quoted, h.decoded]

theorem enqueue_string (h : Denotes body text) :
    Queue.enqueue ⟨[], [], settings.transforms⟩ (.token (.symbol "STRING")
        (.ofLexeme (String.ofList (quoted (body.drop (blanks body)))) .origin)) =
      .ok (some (.token (.symbol "STRING") (stringToken body text)),
        ⟨[], [.token (.symbol "STRING") (stringToken body text)], settings.transforms⟩) := by
  have htransform : Queue.transform? settings.transforms (.symbol "STRING") =
      some (valuing "STRING" stringValue?) := rfl
  have hvalue := stringValue_quoted h.drop_blanks
  rw [Queue.enqueue_eq, Queue.transformed_token]
  simp only [htransform, valuing, Token.ofLexeme, hvalue]
  rfl

theorem stringRule_run (h : Denotes body text) {l : Lexer}
    (he : l.engine = onLine (quoted body) 1 .inLineBody ['"'] .tokenizing)
    (hq : l.queue = ⟨[], [], settings.transforms⟩) (call : Call → LexerM Reply) :
    stringRule.run call l = .ok (some (.token (.symbol "STRING") (stringToken body text)))
      { l with
        engine := onLine (quoted body) (body.length + 2) .inLineBody [] .recognized
        queue := ⟨[], [.token (.symbol "STRING") (stringToken body text)], settings.transforms⟩
        stats := l.stats.recordQueued true } := by
  have hscan : Lexer.scanToken stringPattern l = .ok true { l with
      engine := onLine (quoted body) (body.length + 2) .inLineBody
        (quoted (body.drop (blanks body))) .recognized } := by
    rw [Lexer.scanToken, Program.bind_apply, Lexer.onEngine, he, scan_string h]
    rfl
  have hqueue := enqueue_string h
  rw [← hq] at hqueue
  simp only [Rule.run, stringRule, Action.runOption, Program.bind_apply, Program.pure_apply,
    Rule.dispatch, Rule.firstScanned, hscan, ↓reduceIte, Action.run]
  exact Lexer.enqueueToken_accepted rfl hqueue

def atPlace (rs : Ruleset) (engine : Engine) (queued : List Entry) (stats : Stats)
    (finished : Bool) : Lexer :=
  { engine, queue := ⟨[], queued, settings.transforms⟩, ruleset := rs, options := settings, stats,
    finished }

theorem restarted_eq (rs : Ruleset) (body : List Char) :
    (lexerWith rs).restarted (String.ofList (quoted body)) =
      atPlace rs (onLine (quoted body) 0 .atLineStart [] .ready) [] {} false := by
  simp only [Lexer.restarted, String.toList_ofList]
  rfl

variable {rs : Ruleset}

theorem mainRule_run (h : Denotes body text) (hstring : rs.rule? "string" = some stringRule)
    (stats : Stats) (n : Nat) :
    mainRule.run (Lexer.respond (n + 1))
        (atPlace rs (onLine (quoted body) 0 .atLineStart [] .ready) [] stats false) =
      .ok (some (.token (.symbol "STRING") (stringToken body text)))
        (atPlace rs (onLine (quoted body) (body.length + 2) .inLineBody [] .recognized)
          [.token (.symbol "STRING") (stringToken body text)] (stats.recordQueued true) false) := by
  have hread : Lexer.onEngine Engine.nextChar
      (atPlace rs (onLine (quoted body) 0 .atLineStart [] .ready) [] stats false) =
      .ok (some '"') (atPlace rs (onLine (quoted body) 1 .inLineBody ['"'] .tokenizing) [] stats
        false) := by
    have hn := nextChar_quote body
    simp only [Lexer.onEngine, atPlace, hn]
  have hhandler : mainRule.handlerFor? '"' = some ⟨.char '"', .subrule "string"⟩ := rfl
  have hbefore : mainRule.before = none := rfl
  have hkind : mainRule.kind = .standard := rfl
  have hrun := stringRule_run h (l := atPlace rs (onLine (quoted body) 1 .inLineBody ['"']
    .tokenizing) [] stats false) rfl rfl (Lexer.respond n)
  have hrule : (atPlace rs (onLine (quoted body) 1 .inLineBody ['"'] .tokenizing) [] stats
      false).ruleset.rule? "string" = some stringRule := hstring
  simp only [Rule.run, hbefore, Action.runOption, Program.bind_apply, Program.pure_apply,
    Rule.dispatch, hkind, hread, Option.bind_some, hhandler, Action.run, Lexer.respond,
    Program.get_apply, hrule]
  exact hrun

/-- One step of the driver reads the whole literal. -/
theorem fillStep_literal (h : Denotes body text) (hmain : rs.rule? "main" = some mainRule)
    (hstring : rs.rule? "string" = some stringRule) (n : Nat) :
    Lexer.fillStep (n + 1)
        (atPlace rs (onLine (quoted body) 0 .atLineStart [] .ready) [] {} false) =
      .ok () (atPlace rs (onLine (quoted body) (body.length + 2) .inLineBody [] .recognized)
        [.token (.symbol "STRING") (stringToken body text)]
        { rulesApplied := 1, tokensEmitted := 1 } false) := by
  have hlayout : Engine.scanLayout (onLine (quoted body) 0 .atLineStart [] .ready) =
      .ok none (onLine (quoted body) 0 .atLineStart [] .ready) := by
    apply scanLayout_onLine (k := 0) (c := '"') (.inl rfl)
    · simp
    · simp [quoted]
    · rfl
    · simp [EndsBlanks]
    · decide
    · decide
  have hrun := mainRule_run h hstring { rulesApplied := 1 } n
  rw [Lexer.fillStep_eq (n + 1) hlayout]
  apply Lexer.applyModeRule_succeeds rfl hmain hrun rfl
  simp [Lexer.stalled, atPlace, onLine]

theorem fillStep_end (rs : Ruleset) (body : List Char) (stats : Stats) (n : Nat) :
    Lexer.fillStep n
        (atPlace rs (onLine (quoted body) (body.length + 2) .inLineBody [] .recognized) [] stats
          false) =
      .ok () (atPlace rs (onLine (quoted body) (body.length + 2) .inLineBody [] .done)
        [.endOfStream (.endOfStream ⟨body.length + 2, 1, body.length + 2⟩)] stats false) := by
  have hlen : (quoted body).length = body.length + 2 := by simp [quoted]
  have hskip : (onLine (quoted body) (body.length + 2) .inLineBody [] .ready).skipNoise =
      onLine (quoted body) (body.length + 2) .inLineBody [] .ready := by
    have hrest : (quoted body).drop (body.length + 2) = List.replicate 0 ' ' ++ [] := by
      simp [hlen]
    exact skipNoise_onLine (by omega) hrest (by simp [EndsBlanks])
  have hopened : (onLine (quoted body) (body.length + 2) .inLineBody [] .recognized).opened =
      onLine (quoted body) (body.length + 2) .inLineBody [] .ready := rfl
  have hlayout : Engine.scanLayout
      (onLine (quoted body) (body.length + 2) .inLineBody [] .recognized) =
      .ok (some .endOfStream) (onLine (quoted body) (body.length + 2) .inLineBody [] .done) := by
    rw [Engine.scanLayout_eq_ok_iff]
    refine ⟨.inr (.inr rfl), ?_⟩
    have hend := Engine.LaidOut.endOfStream
      (e := onLine (quoted body) (body.length + 2) .inLineBody [] .recognized)
    rw [hopened, hskip] at hend
    apply hend indentation_onLine
    exact decide_eq_true (Nat.le_of_eq hlen)
  rw [Lexer.fillStep_eq n hlayout]
  rfl

theorem next_entry {n : Nat} {engine engine' : Engine} {stats stats' : Stats} {entry : Entry}
    (hr : engine.recognition = .ready ∨ engine.recognition = .recognized)
    (hfill : Lexer.fillStep (n + 2) (atPlace rs engine [] stats false) =
      .ok () (atPlace rs engine' [entry] stats' false)) :
    Lexer.next? (n + 2) (atPlace rs engine [] stats false) =
      .ok (some entry) (atPlace rs engine' [] stats' entry.isEnd) := by
  have hfull : Lexer.fillQueue (n + 2) (n + 1) (atPlace rs engine' [entry] stats' false) =
      .ok () (atPlace rs engine' [entry] stats' false) :=
    Lexer.fillQueue_full (by simp [atPlace, Queue.toList]) _ (by omega)
  have hnext : Lexer.nextToken (n + 2) (atPlace rs engine [] stats false) =
      .ok entry (atPlace rs engine' [] stats' false) := by
    rw [Lexer.nextToken_fills rfl hr, Lexer.fillQueue_empty rfl, hfill]
    simp only [hfull]
    rfl
  unfold Lexer.next?
  rw [if_neg (by simp [atPlace]), hnext]
  cases entry <;> rfl

end Rules

def Verbatim (body text : List Char) (entries : List Entry) : Prop :=
  ∃ stop, entries =
    [.token (.symbol "STRING")
      ⟨.text (String.ofList text), String.ofList (quoted body), .origin⟩, .endOfStream stop]

def stream (body text : List Char) : List Entry :=
  [.token (.symbol "STRING") (stringToken body text),
    .endOfStream (.endOfStream ⟨body.length + 2, 1, body.length + 2⟩)]

/-- Two calls deliver the stream, and the third finds it finished. -/
theorem drain_literal {body text : List Char} (h : Denotes body text) {rs : Ruleset}
    (hmain : rs.rule? "main" = some mainRule) (hstring : rs.rule? "string" = some stringRule)
    (n rounds : Nat) :
    ∃ l, Lexer.drain (n + 2) (rounds + 3)
        (atPlace rs (onLine (quoted body) 0 .atLineStart [] .ready) [] {} false) =
      .ok (stream body text) l := by
  have hfirst := next_entry (n := n) (.inl rfl) (fillStep_literal h hmain hstring (n + 1))
  have hsecond := next_entry (.inr rfl)
    (fillStep_end rs body { rulesApplied := 1, tokensEmitted := 1 } (n + 2))
  have hthird : Lexer.next? (n + 2)
      (atPlace rs (onLine (quoted body) (body.length + 2) .inLineBody [] .done) []
        { rulesApplied := 1, tokensEmitted := 1 } true) = .ok none _ := rfl
  exact ⟨_, Lexer.drain_cons hfirst (Lexer.drain_cons hsecond (Lexer.drain_done hthird rounds))⟩

theorem tokenize_literal {body text : List Char} (h : Denotes body text) :
    ∃ l t, lexer = .ok l ∧ l.tokenize (String.ofList (quoted body)) = .ok t ∧
      t.entries = stream body text := by
  obtain ⟨rs, hlexer, htable⟩ := lexer_spec
  have hset : Lexer.setInput (String.ofList (quoted body)) (lexerWith rs) =
      .ok () (atPlace rs (onLine (quoted body) 0 .atLineStart [] .ready) [] {} false) := by
    rw [Lexer.setInput_eq, restarted_eq]
    rfl
  obtain ⟨l, hdrain⟩ := drain_literal h htable.main htable.string 999998 999997
  refine ⟨lexerWith rs, ⟨String.ofList (quoted body), stream body text, l.stats⟩, hlexer, ?_, rfl⟩
  unfold Lexer.tokenize
  simp only [Program.bind_apply, hset]
  rw [show Lexer.drain Lexer.allowance Lexer.allowance _ = _ from hdrain]

theorem stream_verbatim_iff (body text : List Char) :
    Verbatim body text (stream body text) ↔ blanks body = 0 := by
  constructor
  · rintro ⟨stop, h⟩
    simp only [stream, stringToken, List.cons.injEq, Entry.token.injEq, Token.mk.injEq,
      String.ofList_inj] at h
    have hlen := congrArg List.length h.1.2.2.1
    simp only [quoted, List.length_cons, List.length_append, List.length_drop] at hlen
    have := blanks_le body
    omega
  · intro h
    refine ⟨.endOfStream ⟨body.length + 2, 1, body.length + 2⟩, ?_⟩
    simp [stream, stringToken, h]

/-- Every well-formed literal becomes one token and the end of the stream. The token lacks the
spaces that the body starts with, in its lexeme and in its value; so literals are read as they
are written if and only if their body does not start with a space. -/
theorem string_literals_read {body text : List Char} (h : Denotes body text) :
    ∃ l t, lexer = .ok l ∧ l.tokenize (String.ofList (quoted body)) = .ok t ∧
      t.entries = stream body text ∧
      (Verbatim body text t.entries ↔ body.head? ≠ some ' ') := by
  obtain ⟨l, t, hl, ht, hentries⟩ := tokenize_literal h
  refine ⟨l, t, hl, ht, hentries, ?_⟩
  rw [hentries, stream_verbatim_iff, blanks_eq_zero_iff]

/-- A literal that starts with a space is not read as it is written. -/
theorem leading_space_dropped :
    Denotes [' ', 'a'] [' ', 'a'] ∧ ∃ l t, lexer = .ok l ∧ l.tokenize "\" a\"" = .ok t ∧
      ¬ Verbatim [' ', 'a'] [' ', 'a'] t.entries := by
  have h : Denotes [' ', 'a'] [' ', 'a'] :=
    .plain ⟨by decide, by decide, by decide⟩ (.plain ⟨by decide, by decide, by decide⟩ .nil)
  obtain ⟨l, t, hl, ht, -, hverbatim⟩ := string_literals_read h
  refine ⟨h, l, t, hl, ht, ?_⟩
  rw [hverbatim]
  decide

end TableLexer.Json
