import TableLexer.Proofs.Counters
import TableLexer.Proofs.Json.Table

/-!
# Reading number tokens

Only the rule for numbers queues tokens of their type, behind a scan for the pattern that starts
without a lexeme. So every number that is delivered was cut out of the text by the pattern, and it
has the value that its lexeme is read as.
-/
namespace TableLexer.Json

open Program (Relates)

/-- The token is a number of the text: its lexeme is written there in the digits of any script, and
its value is what is read of it. -/
def NumberOf (text : List Char) (t : Token) : Prop :=
  ∃ n : NumberLiteral, n.WellFormed Text.isDecimalDigit ∧ n.text <:+: text ∧
    t.lexeme = String.ofList n.text ∧ t.value = n.reading

def NumbersOf (text : List Char) (entries : List Entry) : Prop :=
  ∀ t, .token (.symbol "NUMBER") t ∈ entries → NumberOf text t

section Entries

variable {text : List Char} {xs ys : List Entry}

theorem NumbersOf.nil : NumbersOf text [] := by simp [NumbersOf]

theorem numbersOf_append : NumbersOf text (xs ++ ys) ↔ NumbersOf text xs ∧ NumbersOf text ys := by
  simp only [NumbersOf, List.mem_append]
  exact ⟨fun h => ⟨fun t ht => h t (.inl ht), fun t ht => h t (.inr ht)⟩,
    fun h t ht => ht.elim (h.1 t) (h.2 t)⟩

theorem numbersOf_cons {e : Entry} :
    NumbersOf text (e :: xs) ↔ NumbersOf text [e] ∧ NumbersOf text xs := by
  rw [← numbersOf_append]
  exact Iff.rfl

/-- The transforms replace the values of tokens and nothing else. -/
theorem transformed_settings {q : Queue} (hq : q.transforms = settings.transforms)
    {type : TokenType} {token : Token} {e : Entry}
    (h : q.transformed (.token type token) = .ok (some e)) :
    ∃ value, e = .token type { token with value } ∧
      (type = .symbol "NUMBER" → value = (numberValue? token.lexeme).getD token.value) := by
  rw [Queue.transformed_token, hq] at h
  split at h
  · cases h
  · cases hfind : Queue.transform? settings.transforms type with
    | none =>
      rw [hfind] at h
      cases h
      refine ⟨token.value, rfl, ?_⟩
      rintro rfl
      cases hfind
    | some t =>
      have htype : t.type = type := by simpa using List.find?_some hfind
      have hmem := List.mem_of_find?_eq_some hfind
      subst htype
      simp only [settings, List.mem_cons, List.not_mem_nil, or_false] at hmem
      rw [hfind] at h
      rcases hmem with rfl | rfl | rfl | rfl | rfl
      all_goals
        cases h
        exact ⟨_, rfl, by simp [valuing]⟩

theorem numbersOf_transformed {q : Queue} (hq : q.transforms = settings.transforms)
    {type : TokenType} {lexeme : List Char} {position : Position}
    (hnumber : type = .symbol "NUMBER" →
      IsNumber Text.isDecimalDigit lexeme ∧ lexeme <:+: text)
    {reply : Option Entry}
    (h : q.transformed (.token type (.ofLexeme (String.ofList lexeme) position)) = .ok reply) :
    NumbersOf text reply.toList := by
  cases reply with
  | none => exact .nil
  | some e =>
    obtain ⟨value, rfl, hvalue⟩ := transformed_settings hq h
    intro t ht
    simp only [Option.toList_some, List.mem_singleton, Entry.token.injEq] at ht
    obtain ⟨rfl, rfl⟩ := ht
    obtain ⟨⟨n, hn, rfl⟩, hwithin⟩ := hnumber rfl
    exact ⟨n, hn, hwithin, rfl, (hvalue rfl).trans (reading_eq hn)⟩

end Entries

/-- A lexer with the table, its options and this text, whose queue has no other numbers than those
of the text. -/
structure Reading (rs : Ruleset) (text : List Char) (l : Lexer) : Prop where
  ruleset : l.ruleset = rs
  options : l.options = settings
  operations : l.operations = []
  transforms : l.queue.transforms = settings.transforms
  input : l.engine.input = text
  numbers : NumbersOf text l.queue.toList

section Steps

variable {rs : Ruleset} {text : List Char} {l l' : Lexer} {α : Type}

theorem Reading.framed (h : Reading rs text l) (hframe : Lexer.SameFrame l l')
    (hnumbers : NumbersOf text l'.queue.toList) : Reading rs text l' where
  ruleset := hframe.ruleset.trans h.ruleset
  options := hframe.options.trans h.options
  operations := hframe.operations.trans h.operations
  transforms := hframe.transforms.trans h.transforms
  input := hframe.text.input.trans h.input
  numbers := hnumbers

def Maintains (rs : Ruleset) (text : List Char) (m : LexerM α) : Prop :=
  ∀ l, Reading rs text l → Reading rs text (Program.final (m l))

theorem maintains_quiet {m : LexerM α} (hframe : Relates Lexer.SameFrame m)
    (hbooks : Relates Lexer.SameBooks m) : Maintains rs text m := by
  intro l h
  apply h.framed (hframe l)
  rw [(hbooks l).queue]
  exact h.numbers

theorem maintains_bind {β : Type} {m : LexerM α} {f : α → LexerM β} (hm : Maintains rs text m)
    (hf : ∀ a, Maintains rs text (f a)) : Maintains rs text (m >>= f) :=
  Relates.bind (R := fun a b => Reading rs text a → Reading rs text b)
    (fun _ _ _ hab hbc h => hbc (hab h)) hm hf

theorem nextChar_maintains : Maintains rs text (Lexer.onEngine Engine.nextChar) :=
  maintains_quiet Lexer.nextChar_frame (Lexer.onEngine_books _)

theorem scanToken_maintains (p : Pattern) : Maintains rs text (Lexer.scanToken p) :=
  maintains_quiet (Lexer.scanToken_frame p) (Lexer.scanToken_books p)

theorem unknownToken_maintains (call : Call → LexerM Reply) :
    Maintains rs text (Action.unknownToken.run call) := by
  intro l h
  rw [Action.unknownToken, Action.run, Lexer.sendMessage_eq h.operations]
  exact maintains_quiet Lexer.unknownToken_frame Lexer.unknownToken_books l h

theorem enqueueToken_reading (h : Reading rs text l) {type : TokenType}
    (hnumber : type = .symbol "NUMBER" →
      IsNumber Text.isDecimalDigit l.engine.lexeme ∧ l.engine.lexeme <:+: text) :
    Reading rs text (Program.final (Lexer.enqueueToken type l)) := by
  have hlexeme : l.engine.recognizedNow.lexeme = l.engine.lexeme := by
    unfold Engine.recognizedNow
    split <;> rfl
  apply h.framed (Lexer.enqueueToken_frame type l)
  rw [Lexer.enqueueToken_eq]
  split
  · exact h.numbers
  · dsimp only
    split
    · next hq =>
      obtain ⟨htransformed, hlist, -⟩ := Queue.enqueue_eq_ok hq
      rw [← hlexeme] at hnumber
      rw [Program.final_ok, hlist, numbersOf_append]
      exact ⟨h.numbers, numbersOf_transformed h.transforms hnumber htransformed⟩
    · exact h.numbers

theorem enqueue_maintains {type : TokenType} (ht : type ≠ .symbol "NUMBER")
    (call : Call → LexerM Reply) : Maintains rs text ((Action.enqueue type).run call) :=
  fun _ h => enqueueToken_reading h fun hn => absurd hn ht

theorem firstScanned_maintains (handlers : List Handler) :
    Maintains rs text (Rule.firstScanned handlers) := by
  induction handlers with
  | nil => exact fun l h => h
  | cons handler rest ih =>
    apply maintains_bind (scanToken_maintains handler.pattern)
    intro found
    cases found with
    | true => exact fun l h => h
    | false => exact ih

theorem dispatch_maintains (r : Rule) : Maintains rs text r.dispatch := by
  rw [Rule.dispatch]
  cases r.kind with
  | lookahead => exact firstScanned_maintains r.handlers
  | standard => exact maintains_bind nextChar_maintains fun _ l h => h

/-- What the actions of a rule maintain, the rule maintains. -/
theorem ruleRun_maintains {r : Rule} {call : Call → LexerM Reply} (hbefore : r.before = none)
    (hactions : ∀ a ∈ r.topActions, Maintains rs text (a.run call)) :
    Maintains rs text (r.run call) := by
  intro l h
  have hdispatch := dispatch_maintains r l h
  rw [Rule.run, hbefore, Action.runOption, Program.bind_apply, Program.pure_apply]
  dsimp only
  rw [Program.bind_apply]
  cases hd : r.dispatch l with
  | error stop l₁ =>
    rw [hd] at hdispatch
    exact hdispatch
  | ok found l₁ =>
    rw [hd] at hdispatch
    have haction := hactions _ (Rule.chosen_mem hd) l₁ hdispatch
    cases found with
    | none => exact haction
    | some handler => exact haction

theorem LiteralRule.maintains {name : String} {types : List String} {r : Rule}
    (h : LiteralRule name types r) (htypes : "NUMBER" ∉ types) (call : Call → LexerM Reply) :
    Maintains rs text (r.run call) := by
  apply ruleRun_maintains h.before
  intro a ha
  simp only [Rule.topActions, h.before, Option.toList_none, List.nil_append, List.mem_append,
    List.mem_map, List.mem_singleton] at ha
  rcases ha with ⟨handler, hmem, rfl⟩ | rfl
  · obtain ⟨type, htype, haction⟩ := h.handlers handler hmem
    rw [haction]
    apply enqueue_maintains
    rintro ⟨⟩
    exact htypes htype
  · rw [h.otherwise]
    exact unknownToken_maintains call

theorem laidOut_lexeme {e e' : Engine} (h : Engine.LaidOut e none e') (hx : e.lexeme = []) :
    e'.lexeme = [] := by
  cases h with
  | body =>
    have hreleased : e.released.lexeme = [] := by
      unfold Engine.released
      split
      · rfl
      · exact hx
    rw [show e.opened.skipNoise.lexeme = e.opened.lexeme by simp]
    unfold Engine.opened Engine.lineBegun
    split
    · rfl
    · exact hreleased

/-- A scan that starts without a lexeme leaves what the pattern took as the lexeme. -/
theorem scanned_number {e e' : Engine} (h : Engine.scan numberPattern e = .ok (some .token) e')
    (hx : e.lexeme = []) :
    IsNumber Text.isDecimalDigit e'.lexeme ∧ e'.lexeme <:+: e'.input := by
  have hscanned := (Engine.scan_cases h).2
  cases hscanned with
  | layout hlaid => cases hlaid
  | @token e₁ k hlaid hmatch hline =>
    obtain ⟨x, rest, hdrop, rfl, hx'⟩ := number_matched hmatch
    have htaken := Engine.takeMatch_text numberPattern x.length e₁
    have hlexeme : (e₁.tokenTaken numberPattern x.length).lexeme = x := by
      rw [Engine.tokenTaken, htaken.2.2.2.2.2.1, laidOut_lexeme hlaid hx, Engine.upcoming_eq hdrop]
      rfl
    have hinput : (e₁.tokenTaken numberPattern x.length).input = e₁.input := htaken.2.1
    rw [hlexeme, hinput]
    refine ⟨hx', e₁.input.take e₁.pos, rest, ?_⟩
    rw [List.append_assoc, ← hdrop, List.take_append_drop]

theorem numberRule_run (call : Call → LexerM Reply) (l : Lexer) :
    numberRule.run call l = match Lexer.scanToken numberPattern l with
      | .ok true l₁ => Lexer.enqueueToken (.symbol "NUMBER") l₁
      | .ok false l₁ => Action.unknownToken.run call l₁
      | .error stop l₁ => .error stop l₁ := by
  simp only [Rule.run, numberRule, Action.runOption, Rule.dispatch, Rule.firstScanned,
    Program.bind_apply, Program.pure_apply]
  cases Lexer.scanToken numberPattern l with
  | error stop l₁ => rfl
  | ok found l₁ => cases found <;> rfl

/-- The rule for numbers queues one only behind the scan that found it. -/
theorem numberRule_reading (h : Reading rs text l) (hx : l.engine.lexeme = [])
    (call : Call → LexerM Reply) :
    Reading rs text (Program.final (numberRule.run call l)) := by
  have hscan := scanToken_maintains numberPattern l h
  rw [numberRule_run]
  cases hr : Lexer.scanToken numberPattern l with
  | error stop l₁ =>
    rw [hr] at hscan
    exact hscan
  | ok found l₁ =>
    rw [hr, Program.final_ok] at hscan
    cases found with
    | false => exact unknownToken_maintains call l₁ hscan
    | true =>
      obtain ⟨o, hengine, ho⟩ := Lexer.scanToken_eq_ok hr
      rw [ho.mp rfl] at hengine
      have hnumber := scanned_number hengine hx
      rw [hscan.input] at hnumber
      exact enqueueToken_reading hscan fun _ => hnumber

theorem Reading.respond_subrule (h : Reading rs text l) {name : String} {r : Rule}
    (hr : rs.rule? name = some r) (n : Nat) :
    Lexer.respond (n + 1) (.subrule name) l = r.run (Lexer.respond n) l := by
  simp only [Lexer.respond, Program.bind_apply, Program.get_apply]
  rw [h.ruleset, hr]

theorem subrule_maintains (htable : Tabled rs) {name : String}
    (hname : name = "string" ∨ name = "literal_name") (n : Nat) :
    Maintains rs text (Lexer.respond n (.subrule name)) := by
  intro l h
  cases n with
  | zero => exact h
  | succ n =>
    rcases hname with rfl | rfl
    · rw [h.respond_subrule htable.string]
      exact stringRule_spec.maintains (by decide) _ l h
    · obtain ⟨r, hr, hliteral⟩ := htable.names
      rw [h.respond_subrule hr]
      exact hliteral.maintains (by decide) _ l h

theorem rescan_run (name : String) (call : Call → LexerM Reply) (l : Lexer) :
    (rescan name).run call l = call (.subrule name) { l with engine := l.engine.undone } := by
  simp only [rescan, Action.run, Action.runList, Program.bind_apply, Program.pure_apply,
    Lexer.onEngine, Engine.undoScan_eq]
  cases call (.subrule name) { l with engine := l.engine.undone } <;> rfl

theorem Reading.undone (h : Reading rs text l) :
    Reading rs text { l with engine := l.engine.undone } :=
  h.framed ⟨Engine.undone_sameText l.engine, rfl, rfl, rfl, rfl⟩ h.numbers

/-- The main rule has the rule for numbers start anew, without a lexeme. -/
theorem rescan_number_maintains (htable : Tabled rs) (n : Nat) :
    Maintains rs text ((rescan "number").run (Lexer.respond n)) := by
  intro l h
  have hundone := h.undone
  have hx : l.engine.undone.lexeme = [] := Engine.undone_lexeme l.engine
  rw [rescan_run]
  cases n with
  | zero => exact hundone
  | succ n =>
    rw [hundone.respond_subrule htable.number]
    exact numberRule_reading hundone hx _

theorem mainRule_actions : ∀ a ∈ mainRule.topActions,
    a = .subrule "string" ∨ a = rescan "literal_name" ∨ a = rescan "number" ∨
      (∃ c, a = .enqueue (.char c)) ∨ a = .unknownToken := by
  intro a ha
  have hactions : mainRule.topActions =
      .subrule "string" :: (List.replicate 3 (rescan "literal_name") ++
        List.replicate 11 (rescan "number") ++ punctuation.map (.enqueue ∘ .char) ++
        [.unknownToken]) := rfl
  simp only [hactions, List.mem_cons, List.mem_append, List.mem_replicate, List.mem_map,
    List.not_mem_nil, or_false] at ha
  rcases ha with rfl | ((⟨-, rfl⟩ | ⟨-, rfl⟩) | ⟨c, -, rfl⟩) | rfl
  · exact .inl rfl
  · exact .inr (.inl rfl)
  · exact .inr (.inr (.inl rfl))
  · exact .inr (.inr (.inr (.inl ⟨c, rfl⟩)))
  · exact .inr (.inr (.inr (.inr rfl)))

theorem mainRule_maintains (htable : Tabled rs) (n : Nat) :
    Maintains rs text (mainRule.run (Lexer.respond n)) := by
  apply ruleRun_maintains rfl
  intro a ha
  rcases mainRule_actions a ha with rfl | rfl | rfl | ⟨c, rfl⟩ | rfl
  · rw [Action.run]
    exact subrule_maintains htable (.inl rfl) n
  · intro l h
    rw [rescan_run]
    exact subrule_maintains htable (.inr rfl) n _ h.undone
  · exact rescan_number_maintains htable n
  · exact enqueue_maintains (by simp) _
  · exact unknownToken_maintains _

theorem skipChar_maintains : Maintains rs text Lexer.skipChar :=
  maintains_quiet Lexer.skipChar_frame Lexer.skipChar_books

theorem Reading.errorQueued (h : Reading rs text l) (e : LexError) :
    Reading rs text (l.errorQueued e) := by
  apply h.framed (Lexer.errorQueued_frame e l)
  rw [Lexer.errorQueued_toList, numbersOf_append]
  exact ⟨h.numbers, by simp [NumbersOf]⟩

theorem Reading.endQueued (h : Reading rs text l) : Reading rs text l.endQueued := by
  apply h.framed (Lexer.endQueued_frame l)
  rw [Lexer.endQueued_toList, numbersOf_append]
  exact ⟨h.numbers, by simp [NumbersOf]⟩

theorem Reading.complained (h : Reading rs text l) (e : LexError) (captured : Bool) :
    Reading rs text (l.complained e captured) := by
  cases captured with
  | true => exact h
  | false => exact h.errorQueued e

theorem settle_maintains (rule : String) (start : Mark) (captured : Bool) :
    Maintains rs text (Lexer.settle rule start captured) := by
  intro l h
  have hrested : Reading rs text { l with engine := l.engine.rested } :=
    h.framed (Lexer.rested_frame l) h.numbers
  rw [Lexer.settle_eq]
  split
  · exact hrested
  · exact hrested
  · exact h.endQueued
  · exact (h.complained _ captured).endQueued
  · split
    · exact skipChar_maintains _ (h.complained _ captured)
    · exact h
  · split
    · exact skipChar_maintains _ (h.complained _ captured)
    · exact h
  · exact h

theorem enqueueIndent_reading (h : Reading rs text l) (hr : l.engine.recognition = .recognized) :
    Reading rs text (Program.final (Lexer.enqueueIndent l)) := by
  have htype : l.options.indentType ≠ .symbol "NUMBER" := by
    rw [h.options]
    decide
  apply h.framed (Lexer.enqueueIndent_frame l)
  rw [Lexer.enqueueIndent_eq hr]
  split
  · next hq =>
    obtain ⟨htransformed, hlist, -⟩ := Queue.enqueue_eq_ok hq
    rw [Program.final_ok, hlist, numbersOf_append]
    exact ⟨h.numbers, numbersOf_transformed h.transforms (fun hn => absurd hn htype) htransformed⟩
  · exact h.numbers

/-- Whatever the mode, the main rule is applied. -/
theorem applyModeRule_maintains (htable : Tabled rs) (n : Nat) :
    Maintains rs text (Lexer.applyModeRule n) := by
  intro l h
  refine Lexer.applyModeRule_keeps h ?_ (fun e a ha => ha.errorQueued e)
    fun rule captured a ha => settle_maintains rule _ captured a ha
  intro name r hname hr
  obtain rfl : name = "main" := by
    rw [h.options, Options.ruleFor?] at hname
    split at hname
    · exact (Option.some.inj hname).symm
    · cases hname
  rw [h.ruleset, htable.main, Option.some.injEq] at hr
  subst hr
  exact mainRule_maintains htable n _ (h.framed (Lexer.counted_frame l) h.numbers)

theorem fillStep_maintains (htable : Tabled rs) (n : Nat) :
    Maintains rs text (Lexer.fillStep n) := by
  intro l h
  have hlaid : ∀ {o e}, Engine.scanLayout l.engine = .ok o e →
      Reading rs text { l with engine := e } :=
    fun he => h.framed (Lexer.layout_frame he) h.numbers
  refine Lexer.fillStep_keeps h ?_ ?_ (fun e he => (hlaid he).endQueued)
    fun e he => applyModeRule_maintains htable n _ (hlaid he)
  · exact fun e he => enqueueIndent_reading (hlaid he)
      (Engine.scanLayout_eq_ok_iff.mp he).2.indentation_recognized
  · intro e he
    have hl := hlaid he
    have hunreported : l.options.eolTokens = false := by
      rw [h.options]
      rfl
    rw [Lexer.enqueueLineEnd_eq, if_neg (by simp [hunreported])]
    exact hl

def Answers (text : List Char) (r : EStateM.Result Stop Lexer Entry) : Prop :=
  NumbersOf text (Lexer.entries [Lexer.answer r])

theorem dequeue_reading (h : Reading rs text l) :
    Answers text (Lexer.onQueue QueueM.dequeue l) ∧
      Reading rs text (Program.final (Lexer.onQueue QueueM.dequeue l)) := by
  rw [Lexer.onQueue_dequeue]
  cases hd : l.queue.dequeue with
  | error fault => exact ⟨.nil, h⟩
  | ok r =>
    obtain ⟨hlist, htransforms⟩ := Queue.dequeue_eq_ok hd
    have hnumbers := h.numbers
    rw [hlist, numbersOf_cons] at hnumbers
    exact ⟨hnumbers.1, h.framed ⟨⟨rfl, rfl⟩, rfl, rfl, rfl, htransforms⟩ hnumbers.2⟩

theorem nextToken_reading (htable : Tabled rs) (h : Reading rs text l) (n : Nat) :
    Answers text (Lexer.nextToken n l) ∧
      Reading rs text (Program.final (Lexer.nextToken n l)) := by
  rcases Lexer.nextToken_cases n l with ⟨-, -, hnext⟩ | ⟨-, hnext | ⟨stop, hnext⟩⟩
  · have hfill := Lexer.fillQueue_keeps (fillStep_maintains htable n) n h
    rw [hnext]
    cases hf : Lexer.fillQueue n n l with
    | error stop l' =>
      rw [hf] at hfill
      exact ⟨.nil, hfill⟩
    | ok _ l' =>
      rw [hf] at hfill
      exact dequeue_reading hfill
  · rw [hnext]
    exact dequeue_reading h
  · rw [hnext]
    exact ⟨.nil, h⟩

/-- By induction on the history: the lexer goes on with the text that was accepted last, and what
it has delivered since then are numbers of that text. -/
theorem driven_reading (htable : Tabled rs) (h : Reading rs text l) {ledger : Lexer.Ledger}
    (hdelivered : NumbersOf text ledger.delivered) (history : List Lexer.Request) :
    ∃ text', Reading rs text' (l.driven history) ∧
      NumbersOf text' (l.ledgerOf ledger history).delivered := by
  induction history generalizing l ledger text with
  | nil => exact ⟨text, h, hdelivered⟩
  | cons r history ih =>
    cases r with
    | entry n =>
      obtain ⟨hanswer, hnext⟩ := nextToken_reading htable h n
      exact ih hnext (numbersOf_append.mpr ⟨hdelivered, hanswer⟩)
    | input given =>
      rw [Lexer.driven, Lexer.ledgerOf, Lexer.served, Lexer.setInput_eq]
      split
      · exact ih h hdelivered
      · have hstart : Reading rs given.toList (l.restarted given) :=
          ⟨h.ruleset, h.options, h.operations, h.transforms, rfl, .nil⟩
        have hnone : NumbersOf given.toList ({} : Lexer.Ledger).delivered := .nil
        exact ih hstart hnone

end Steps

/-- The lexeme is a number of JSON, and the value is what it denotes. -/
def JsonNumber (t : Token) : Prop :=
  ∃ n : NumberLiteral, n.WellFormed Number.isDigit ∧ t.lexeme = String.ofList n.text ∧
    t.value = n.value

theorem NumberOf.jsonNumber_iff {text : List Char} {t : Token} (h : NumberOf text t) :
    JsonNumber t ↔ Ascii t.lexeme.toList := by
  obtain ⟨n, hn, -, hlexeme, hvalue⟩ := h
  constructor
  · rintro ⟨m, hm, hlexeme', -⟩
    rw [hlexeme', String.toList_ofList]
    exact hm.ascii
  · intro hascii
    rw [hlexeme, String.toList_ofList] at hascii
    refine ⟨n, hn.of_ascii hascii, hlexeme, ?_⟩
    rw [hvalue, NumberLiteral.reading, if_pos hascii]

theorem NumberOf.text_value {text : List Char} {t : Token} (h : NumberOf text t)
    (hforeign : ¬ Ascii t.lexeme.toList) : t.value = .text t.lexeme := by
  obtain ⟨n, -, -, hlexeme, hvalue⟩ := h
  rw [hlexeme, String.toList_ofList] at hforeign
  rw [hvalue, NumberLiteral.reading, if_neg hforeign, hlexeme]

theorem NumberOf.jsonNumber {text : List Char} {t : Token} (h : NumberOf text t)
    (hdigits : ∀ c ∈ text, Text.isDecimalDigit c = true → Number.isDigit c = true) :
    JsonNumber t := by
  obtain ⟨n, hn, hwithin, hlexeme, hvalue⟩ := h
  have hwell : n.WellFormed Number.isDigit := hn.change fun c hc => hdigits c (hwithin.subset hc)
  refine ⟨n, hwell, hlexeme, ?_⟩
  rw [hvalue, NumberLiteral.reading, if_pos hwell.ascii]

/-- After any history of requests, every number token delivered since the last input is a number of
that text in the digits of any script. It is a number of JSON, with the integer or the floating
point number it denotes, if and only if its lexeme is in ASCII; otherwise its value is only its
text. So all are numbers of JSON if the text has no other decimal digits than those of ASCII. -/
theorem number_tokens_read (history : List Lexer.Request) : ∃ l₀, lexer = .ok l₀ ∧
    let text := (l₀.driven history).engine.input
    (∀ t, .token (.symbol "NUMBER") t ∈ (l₀.ledgerOf {} history).delivered →
      NumberOf text t ∧ (JsonNumber t ↔ Ascii t.lexeme.toList) ∧
        (¬ Ascii t.lexeme.toList → t.value = .text t.lexeme)) ∧
    ((∀ c ∈ text, Text.isDecimalDigit c = true → Number.isDigit c = true) →
      ∀ t, .token (.symbol "NUMBER") t ∈ (l₀.ledgerOf {} history).delivered → JsonNumber t) := by
  obtain ⟨rs, hlexer, htable⟩ := lexer_spec
  have hnew : Reading rs [] (lexerWith rs) := ⟨rfl, rfl, rfl, rfl, rfl, .nil⟩
  have hnone : NumbersOf [] ({} : Lexer.Ledger).delivered := .nil
  obtain ⟨text, hreading, hnumbers⟩ := driven_reading htable hnew hnone history
  refine ⟨lexerWith rs, hlexer, ?_⟩
  dsimp only
  rw [hreading.input]
  refine ⟨fun t ht => ?_, fun hdigits t ht => (hnumbers t ht).jsonNumber hdigits⟩
  have ht := hnumbers t ht
  exact ⟨ht, ht.jsonNumber_iff, ht.text_value⟩

/-- A digit of another script behind an ASCII digit belongs to the number, which has no value. -/
theorem foreign_digit_read : ∃ l₀ t, lexer = .ok l₀ ∧
    .token (.symbol "NUMBER") t ∈ (l₀.ledgerOf {} [.input "1٣", .entry 9]).delivered ∧
      t.lexeme = "1٣" ∧ ¬ IsNumber Number.isDigit t.lexeme.toList ∧ t.value = .text "1٣" := by
  obtain ⟨l₀, hlexer, hread, -⟩ := number_tokens_read [.input "1٣", .entry 9]
  have hrun : (lexer.toOption.map fun l =>
      (l.ledgerOf {} [.input "1٣", .entry 9]).delivered.map fun e =>
        (e.type?, e.token?.map Token.lexeme)) =
      some [(some (.symbol "NUMBER"), some "1٣")] := by
    decide +kernel
  rw [hlexer] at hrun
  obtain ⟨e, he, hentry⟩ := List.map_eq_singleton_iff.mp (Option.some.inj hrun)
  cases e with
  | endOfStream | error => cases hentry
  | token type t =>
    simp only [Entry.type?, Entry.token?, Option.map_some, Prod.mk.injEq, Option.some.injEq]
      at hentry
    obtain ⟨rfl, hlexeme⟩ := hentry
    have hmem : Entry.token (.symbol "NUMBER") t ∈
        (l₀.ledgerOf {} [.input "1٣", .entry 9]).delivered := he ▸ List.mem_singleton_self _
    have hforeign : ¬ Ascii t.lexeme.toList := by
      rw [hlexeme]
      decide
    have htext := (hread t hmem).2.2 hforeign
    exact ⟨l₀, t, hlexer, hmem, hlexeme, mt IsNumber.ascii hforeign, hlexeme ▸ htext⟩

end TableLexer.Json
