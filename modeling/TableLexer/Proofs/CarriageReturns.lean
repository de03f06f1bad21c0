import TableLexer.Proofs.Lexer.Mirror
import TableLexer.Proofs.Lexer.Streams

/-!
# Streams of a text with two kinds of line ends

A text without carriage returns and the same text with a carriage return before each line feed
are tokenized alike, up to the offsets, by a main rule that keeps within lines. The lines differ:
a comment to the end of a line takes the carriage return with it, and the line is counted twice.
So every entry stands as many lines further down as such comments were skipped before it.
-/
namespace TableLexer

open Engine (Resting Between)

namespace Lexer

variable {k : Nat} {l₀ l l' : Lexer} {text : List Char} {engines : Engine → Engine → Prop}

def fillComments (n : Nat) : (rounds : Nat) → Lexer → Nat
  | 0, _ => 0
  | rounds + 1, l =>
    if l.queue.isEmpty then
      l.engine.comments + match fillStep n l with
        | .ok _ l' => fillComments n rounds l'
        | .error _ _ => 0
    else 0

theorem fillQueue_waiting (n rounds : Nat) (h : Mirrors engines k l₀ l l')
    (hfull : l.queue.isEmpty = false) :
    fillComments n rounds l = 0 ∧
      Alongside k (fun _ _ => Mirrors engines k l₀) (fun _ _ => True) (fillQueue n rounds l)
        (fillQueue n rounds l') := by
  cases rounds with
  | zero => exact ⟨rfl, .exhausted⟩
  | succ rounds =>
    have hwaits : ∀ l : Lexer, l.queue.isEmpty = false → l.queue.toList ≠ [] := by
      intro l hl hnil
      rw [(Queue.isEmpty_iff _).mpr hnil] at hl
      cases hl
    constructor
    · rw [fillComments, if_neg (by simp [hfull])]
    · rw [fillQueue_full (hwaits l hfull) n (Nat.le_add_left _ _),
        fillQueue_full (hwaits l' (h.isEmpty.trans hfull)) n (Nat.le_add_left _ _)]
      exact .ok h

/-- Filling the queue does the same in both texts. -/
theorem fillQueue_alongside (hr : '\r' ∉ text) (hflat : l₀.FlatMode) (n rounds : Nat)
    (h : Mirrors (Between text k) k l₀ l l') :
    Alongside (k + fillComments n rounds l)
      (fun _ _ =>
        Mirrors (Idle text (k + fillComments n rounds l)) (k + fillComments n rounds l) l₀)
      (fun _ _ => True) (fillQueue n rounds l) (fillQueue n rounds l') := by
  induction rounds generalizing k l l' with
  | zero => exact .exhausted
  | succ rounds ih =>
    cases hempty : l.queue.isEmpty with
    | false =>
      obtain ⟨hnone, hfill⟩ := fillQueue_waiting n (rounds + 1) h hempty
      rw [hnone]
      exact hfill.mono (fun _ _ _ _ h => h.widen fun _ _ => .inl) fun _ _ => id
    | true =>
      have hstep := fillStep_alongside hr hflat n h hempty
      rw [fillQueue_empty ((Queue.isEmpty_iff _).mp hempty),
        fillQueue_empty ((Queue.isEmpty_iff _).mp (h.isEmpty.trans hempty)), fillComments,
        if_pos hempty, ← Nat.add_assoc]
      generalize k + l.engine.comments = j at hstep
      generalize fillStep n l = r, fillStep n l' = r' at hstep
      cases hstep with
      | fault he h => exact .fault he h
      | exhausted => exact .exhausted
      | ok h =>
        rcases h with h | ⟨hfull, h⟩
        · exact ih h
        · -- the end of the stream is queued
          obtain ⟨hnone, hfill⟩ := fillQueue_waiting n rounds h hfull
          dsimp only
          rw [hnone]
          exact hfill.mono (fun _ _ _ _ h => h.widen fun _ _ => .inr) fun _ _ => id

theorem dequeue_alongside (h : Mirrors engines k l₀ l l') :
    Alongside k (fun entry entry' l₁ l₁' => entry.Below k entry' ∧ Mirrors engines k l₀ l₁ l₁')
      (fun _ _ => True) (onQueue QueueM.dequeue l) (onQueue QueueM.dequeue l') := by
  obtain ⟨stats, hengine, hqueue⟩ := h
  rename_i e e' q q'
  have hresult := hqueue.dequeue
  rw [onQueue_dequeue, onQueue_dequeue]
  dsimp only
  generalize q.dequeue = r, q'.dequeue = r' at hresult
  cases hresult with
  | failed he hkind => exact .fault he fun _ => trivial
  | done he hq => exact .ok ⟨he, .intro stats hengine hq⟩

theorem nextToken_waiting (n : Nat) (hfull : l.queue.isEmpty = false)
    (hr : l.engine.recognition ≠ .waitingForInput) : nextToken n l = onQueue QueueM.dequeue l := by
  simp [nextToken, hr, hfull]

theorem Mirrors.idle (h : Mirrors (Idle text k) k l₀ l l') :
    Mirrors (Between text k) k l₀ l l' ∧
        (l.engine.recognition = .ready ∨ l.engine.recognition = .recognized) ∨
      l.engine.recognition = .done := by
  obtain ⟨stats, hb | he, hqueue⟩ := h
  · exact .inl ⟨.intro stats hb hqueue, hb.scannable⟩
  · exact .inr he.done

theorem Mirrors.recognition (h : Mirrors (Idle text k) k l₀ l l') :
    l'.engine.recognition = l.engine.recognition := by
  obtain ⟨-, hb | he, -⟩ := h
  · exact hb.recognition
  · exact he.recognition

/-- The next entry is the same in both texts, as many lines further down as comments were skipped
before it. -/
theorem nextToken_alongside (hr : '\r' ∉ text) (hflat : l₀.FlatMode) (n : Nat)
    (h : Mirrors (Idle text k) k l₀ l l') :
    Alongside (k + fillComments n n l)
      (fun entry entry' l₁ l₁' => entry.Below (k + fillComments n n l) entry' ∧
        Mirrors (Idle text (k + fillComments n n l)) (k + fillComments n n l) l₀ l₁ l₁')
      (fun _ _ => True) (nextToken n l) (nextToken n l') := by
  have hsame := h.recognition
  have hinput : l.engine.recognition ≠ .waitingForInput := by
    rcases h.idle with ⟨-, hs | hs⟩ | hs <;> rw [hs] <;> simp
  cases hempty : l.queue.isEmpty with
  | false =>
    rw [(fillQueue_waiting n n h hempty).1, nextToken_waiting n hempty hinput,
      nextToken_waiting n (h.isEmpty.trans hempty) (hsame ▸ hinput)]
    exact dequeue_alongside h
  | true =>
    have hnil := (Queue.isEmpty_iff _).mp hempty
    have hnil' := (Queue.isEmpty_iff _).mp (h.isEmpty.trans hempty)
    rcases h.idle with ⟨hb, hs⟩ | hdone
    · have hfill := fillQueue_alongside hr hflat n n hb
      rw [nextToken_fills hnil hs, nextToken_fills hnil' (hsame ▸ hs)]
      generalize k + fillComments n n l = j at hfill
      generalize fillQueue n n l = r, fillQueue n n l' = r' at hfill
      cases hfill with
      | ok h => exact dequeue_alongside h
      | fault he h => exact .fault he h
      | exhausted => exact .exhausted
    · rw [nextToken_refuses hnil (.inl hdone), nextToken_refuses hnil' (.inl (hsame.trans hdone)),
        hsame]
      exact .fault rfl fun _ => trivial

/-- After the entry, the stream goes on unless that was the end marker. -/
theorem Mirrors.passed (h : Mirrors engines k l₀ l l') (hgoing : l₀.finished = false)
    (last : Bool) :
    Mirrors engines k { l₀ with finished := last } (if last then { l with finished := true } else l)
      (if last then { l' with finished := true } else l') := by
  obtain ⟨stats, hengine, hqueue⟩ := h
  cases last with
  | true => exact .intro stats hengine hqueue
  | false =>
    have hsame : { l₀ with finished := false } = l₀ := by rw [← hgoing]
    rw [hsame]
    exact .intro stats hengine hqueue

theorem next?_alongside (hr : '\r' ∉ text) (hflat : l₀.FlatMode) (n : Nat)
    (h : Mirrors (Idle text k) k l₀ l l') (hgoing : l₀.finished = false) :
    Alongside (k + fillComments n n l)
      (fun found found' l₁ l₁' => ∃ entry entry', found = some entry ∧ found' = some entry' ∧
        entry.Below (k + fillComments n n l) entry' ∧
        Mirrors (Idle text (k + fillComments n n l)) (k + fillComments n n l)
          { l₀ with finished := entry.isEnd } l₁ l₁')
      (fun _ _ => True) (next? n l) (next? n l') := by
  have hfinished : l.finished = false ∧ l'.finished = false := by
    obtain ⟨-, -, -⟩ := h
    exact ⟨hgoing, hgoing⟩
  have hnext := nextToken_alongside hr hflat n h
  unfold next?
  rw [hfinished.1, hfinished.2, if_neg Bool.false_ne_true, if_neg Bool.false_ne_true]
  generalize k + fillComments n n l = j at hnext ⊢
  generalize nextToken n l = r, nextToken n l' = r' at hnext
  cases hnext with
  | fault he h => exact .fault he fun _ => trivial
  | exhausted => exact .exhausted
  | @ok entry entry' l₁ l₁' h =>
    obtain ⟨hentry, hl⟩ := h
    refine .ok ⟨entry, entry', rfl, rfl, hentry, ?_⟩
    rw [hentry.isEnd]
    exact hl.passed hgoing entry.isEnd

def drainComments (n : Nat) : (rounds : Nat) → Nat → Lexer → List Nat
  | 0, _, _ => []
  | rounds + 1, k, l =>
    match next? n l with
    | .ok none _ => []
    | .ok (some _) l' =>
      (k + fillComments n n l) :: drainComments n rounds (k + fillComments n n l) l'
    | .error _ _ => [k + fillComments n n l]

/-- Two streams whose entries agree up to the offsets, each as many lines further down as the
number in its place says. -/
inductive Streams (k : Nat) (ks : List Nat) : EStateM.Result Stop Lexer (List Entry) →
    EStateM.Result Stop Lexer (List Entry) → Prop where
  | delivered {entries entries' : List Entry} {l l' : Lexer} (hlength : ks.length = entries.length)
      (hentries : entries'.map (Entry.down 0) = List.zipWith Entry.down ks entries)
      (hstats : l'.stats = l.stats) : Streams k ks (.ok entries l) (.ok entries' l')
  | stopped {s s' : Stop} {l l' : Lexer} (hstop : s.Below (ks.getLastD k) s') :
      Streams k ks (.error s l) (.error s' l')

theorem Streams.delivering {j : Nat} {ks : List Nat} {entry entry' : Entry}
    {r r' : EStateM.Result Stop Lexer (List Entry)} (he : entry.Below j entry')
    (h : Streams j ks r r') :
    Streams k (j :: ks) (delivering entry r) (delivering entry' r') := by
  cases h with
  | delivered hlength hentries hstats =>
    refine .delivered (by simp [hlength]) ?_ hstats
    rw [List.map_cons, List.zipWith_cons_cons, hentries, he]
  | stopped hstop =>
    refine .stopped ?_
    rw [List.getLastD_cons]
    exact hstop

/-- Streams of the two texts agree up to the offsets and the comments. -/
theorem drain_alongside (hr : '\r' ∉ text) (hflat : l₀.FlatMode) (n rounds : Nat)
    (h : Mirrors (Idle text k) k l₀ l l') :
    Streams k (drainComments n rounds k l) (drain n rounds l) (drain n rounds l') := by
  induction rounds generalizing k l₀ l l' with
  | zero => exact .stopped rfl
  | succ rounds ih =>
    rw [drain_succ, drain_succ, drainComments]
    cases hgoing : l₀.finished with
    | true =>
      have hstats : l'.stats = l.stats := by
        obtain ⟨-, -, -⟩ := h
        rfl
      have hfinished : l.finished = true ∧ l'.finished = true := by
        obtain ⟨-, -, -⟩ := h
        exact ⟨hgoing, hgoing⟩
      rw [next?_finished hfinished.1, next?_finished hfinished.2]
      exact .delivered rfl rfl hstats
    | false =>
      have hnext := next?_alongside hr hflat n h hgoing
      generalize k + fillComments n n l = j at hnext ⊢
      generalize next? n l = r, next? n l' = r' at hnext
      cases hnext with
      | fault he h => exact .stopped (congrArg Stop.fault he)
      | exhausted => exact .stopped rfl
      | ok h =>
        obtain ⟨entry, entry', rfl, rfl, hentry, hl⟩ := h
        have hflat : FlatMode { l₀ with finished := entry.isEnd } :=
          ⟨hflat.operations, hflat.rule, hflat.silent⟩
        exact (ih hflat hl).delivering hentry

def Hashless (l : Lexer) : Prop := '#' ∉ l.engine.input ∧ l.operations = []

theorem Hashless.comments (h : l.Hashless) : l.engine.comments = 0 := by
  have hline : '#' ∉ Text.lineAt l.engine.input l.engine.opened.pos := fun hmem =>
    h.1 (List.mem_of_mem_drop (List.takeWhile_subset _ hmem))
  simp [Engine.comments, Text.commentAt, LayoutPattern.noise_hashless hline]

theorem Hashless.of_frame (h : l.Hashless) (hframe : SameFrame l l') : l'.Hashless :=
  ⟨hframe.text.input ▸ h.1, hframe.operations.trans h.2⟩

theorem Hashless.fillStep (n : Nat) (h : l.Hashless) :
    (Program.final (fillStep n l)).Hashless := h.of_frame (fillStep_frame n h.2)

theorem Hashless.fillComments (h : l.Hashless) (n rounds : Nat) : fillComments n rounds l = 0 := by
  induction rounds generalizing l with
  | zero => rfl
  | succ rounds ih =>
    have hstep := h.fillStep n
    rw [Lexer.fillComments, h.comments]
    split
    · cases hf : Lexer.fillStep n l with
      | ok _ l' =>
        rw [hf] at hstep
        exact congrArg (0 + ·) (ih hstep)
      | error stop l' => rfl
    · rfl

theorem Hashless.next? (h : l.Hashless) (n : Nat) : (Program.final (next? n l)).Hashless := by
  have hkept : (Program.final (nextToken n l)).Hashless :=
    nextToken_keeps (fun _ => fillStep n) (fun _ _ _ ha _ => ha) h
  unfold Lexer.next?
  split
  · exact h
  · cases hf : nextToken n l with
    | ok entry l' =>
      rw [hf] at hkept
      dsimp only
      split <;> exact hkept
    | error stop l' =>
      rw [hf] at hkept
      exact hkept

theorem Hashless.drainComments (h : l.Hashless) (n rounds k : Nat) :
    ∀ j ∈ drainComments n rounds k l, j = k := by
  induction rounds generalizing l with
  | zero => simp [Lexer.drainComments]
  | succ rounds ih =>
    have hnext := h.next? n
    rw [Lexer.drainComments, h.fillComments]
    cases hf : Lexer.next? n l with
    | error stop l' => simp
    | ok found l' =>
      rw [hf] at hnext
      cases found with
      | none => simp
      | some entry => simpa using ih hnext

theorem restarted_mirrors (hconfig : l.engine.config = Engine.unindented)
    (hunplaced : ∀ t ∈ l.queue.transforms, t.Unplaced) (text : List Char) :
    Mirrors (Idle text 0) 0 (l.restarted (String.ofList text)) (l.restarted (String.ofList text))
      (l.restarted (String.ofList (Text.crlf text))) := by
  have hmark : Mark.origin.Mirrors text 0 Mark.origin :=
    ⟨Nat.zero_le _, rfl, rfl, rfl, Nat.le_refl _, Nat.le_refl _, rfl⟩
  have hengine : Resting text 0 (l.restarted (String.ofList text)).engine
      (l.restarted (String.ofList (Text.crlf text))).engine :=
    ⟨⟨hconfig, hconfig, String.toList_ofList, String.toList_ofList, hmark, rfl, rfl,
      fun hne => absurd rfl hne⟩, .inl rfl, rfl, by simp [restarted, Scan.initial, Mark.origin]⟩
  exact .intro {} (.inl (.inl hengine)) ⟨rfl, rfl, rfl, hunplaced⟩

end Lexer

theorem Rule.Flat.contained {r : Rule} (h : r.Flat) : r.Contained := by
  have queues : ∀ type : TokenType, ∀ a ∈ (Action.enqueue type).walk,
      (∀ name, a ≠ .subrule name) ∧ ∀ m, a.Sends m → m = "unknown_token" := by
    intro type a ha
    obtain rfl := List.mem_singleton.mp ha
    refine ⟨?_, fun m hm => hm.elim⟩
    intro name hsubrule
    cases hsubrule
  intro a ha
  simp only [Rule.allActions, Rule.topActions, List.mem_flatMap, List.mem_append,
    Option.mem_toList, List.mem_map, List.mem_singleton] at ha
  obtain ⟨top, (hbefore | ⟨handler, hhandler, rfl⟩) | rfl, ha⟩ := ha
  · rcases h.before with hnone | ⟨type, hsome⟩
    · rw [hnone] at hbefore
      cases hbefore
    · rw [hsome] at hbefore
      cases hbefore
      exact queues type a ha
  · obtain ⟨-, -, type, haction⟩ := h.handlers handler hhandler
    exact queues type a (haction ▸ ha)
  · rcases h.otherwise with hunknown | ⟨type, htype⟩
    · rw [hunknown] at ha
      obtain rfl := List.mem_singleton.mp ha
      refine ⟨?_, fun m hm => hm.symm⟩
      intro name hsubrule
      cases hsubrule
    · exact queues type a (htype ▸ ha)

/-- For each entry of the stream of a text, the comments to the end of a line that were skipped by
then; a call that fails is the last one. -/
def skippedComments (ruleset : Ruleset) (text : String) (options : Options) (allowance : Nat) :
    List Nat :=
  match Lexer.new ruleset options with
  | .ok l => Lexer.drainComments allowance allowance 0 (l.restarted text)
  | .error _ => []

/-- Two texts tokenized with the same types, lexemes, values and columns, the same messages of
errors and the same counters, where each entry of the second stands as many lines further down as
the number in its place says. -/
inductive Shifted (ks : List Nat) : Except Stop Tokenized → Except Stop Tokenized → Prop where
  | delivered {t t' : Tokenized} (hlength : ks.length = t.entries.length)
      (hentries : t'.entries.map (Entry.down 0) = List.zipWith Entry.down ks t.entries)
      (hstats : t'.stats = t.stats) : Shifted ks (.ok t) (.ok t')
  | stopped {s s' : Stop} (hstop : s.Below (ks.getLastD 0) s') : Shifted ks (.error s) (.error s')

/-- Whatever the allowance, a flat rule tokenizes the two texts alike. -/
theorem tokenize_shifted (ruleset : Ruleset) {options : Options} {text : String}
    (hr : '\r' ∉ text.toList) (hengine : options.engine = {})
    (hindent : options.indentTokens = false) (heol : options.eolTokens = false)
    (hunplaced : ∀ t ∈ options.transforms, t.Unplaced)
    (hflat : ∀ r, ruleset.rule? options.mainRule = some r → r.Flat) (n : Nat) :
    Shifted (skippedComments ruleset text options n) (tokenize ruleset text options n)
      (tokenize ruleset (String.ofList (Text.crlf text.toList)) options n) := by
  unfold skippedComments
  cases hnew : Lexer.new ruleset options with
  | error e =>
    rw [tokenize_of_rejected hnew, tokenize_of_rejected hnew]
    exact .stopped rfl
  | ok l =>
    obtain ⟨-, -, -, -, hl⟩ := Lexer.new_eq_ok_iff.mp hnew
    have hconfig : l.engine.config = Engine.unindented := by
      rw [hl]
      simp [Engine.new, Options.engineConfig, hengine, hindent, Engine.unindented]
    have hmode : (l.restarted text).FlatMode := by
      refine ⟨by rw [hl]; rfl, ?_, by rw [hl]; exact heol⟩
      rw [hl]
      rintro name r hname hrule
      cases hname
      exact hflat r hrule
    have hmirrors := Lexer.restarted_mirrors (l := l) hconfig (by rw [hl]; exact hunplaced)
      text.toList
    rw [String.ofList_toList] at hmirrors
    have hstreams := Lexer.drain_alongside hr hmode n n hmirrors
    rw [tokenize_of_new hnew, tokenize_of_new hnew]
    dsimp only
    generalize Lexer.drainComments _ _ _ _ = ks at hstreams ⊢
    generalize Lexer.drain _ _ (l.restarted text) = r,
      Lexer.drain _ _ (l.restarted (String.ofList _)) = r' at hstreams ⊢
    cases hstreams with
    | delivered hlength hentries hstats => exact .delivered hlength hentries hstats
    | stopped hstop => exact .stopped hstop

/-- Where there is no hash, no entry is moved. -/
theorem skippedComments_hashless (ruleset : Ruleset) (options : Options) {text : String}
    (h : '#' ∉ text.toList) (n : Nat) : ∀ k ∈ skippedComments ruleset text options n, k = 0 := by
  unfold skippedComments
  cases hnew : Lexer.new ruleset options with
  | error e => simp
  | ok l =>
    obtain ⟨-, -, -, -, hl⟩ := Lexer.new_eq_ok_iff.mp hnew
    have hhashless : (l.restarted text).Hashless := by
      refine ⟨h, ?_⟩
      rw [hl]
      rfl
    exact hhashless.drainComments _ _ 0

/-- Line ends written with carriage returns move nothing but offsets and, behind comments that run
to the end of a line, lines; without such comments the two streams agree up to the offsets. Both
texts are tokenized to something with every allowance that is large enough, and with each of these
the numbers of lines are those of the comments skipped. -/
theorem tokenize_carriageReturns (ruleset : Ruleset) {options : Options} {text : String}
    (hr : '\r' ∉ text.toList) (hengine : options.engine = {})
    (hindent : options.indentTokens = false) (heol : options.eolTokens = false)
    (hunplaced : ∀ t ∈ options.transforms, t.Unplaced)
    (hflat : ∀ r, ruleset.rule? options.mainRule = some r → r.Flat) :
    ∃ result result', TokenizedTo ruleset text options result ∧
      TokenizedTo ruleset (String.ofList (Text.crlf text.toList)) options result' ∧
      ∃ N, ∀ n ≥ N, Shifted (skippedComments ruleset text options n) result result' ∧
        ('#' ∉ text.toList → ∀ k ∈ skippedComments ruleset text options n, k = 0) := by
  have hcontained := fun r h => (hflat r h).contained
  obtain ⟨result, htext⟩ := exists_tokenizedTo hcontained text
  obtain ⟨result', hcrlf⟩ := exists_tokenizedTo hcontained
    (String.ofList (Text.crlf text.toList))
  refine ⟨result, result', htext, hcrlf, ?_⟩
  obtain ⟨-, N, hN⟩ := htext
  obtain ⟨-, N', hN'⟩ := hcrlf
  refine ⟨max N N', fun n hn => ⟨?_, fun h => skippedComments_hashless ruleset options h n⟩⟩
  rw [← hN n (by omega), ← hN' n (by omega)]
  exact tokenize_shifted ruleset hr hengine hindent heol hunplaced hflat n

def wordRules : Ruleset :=
  { types := some [(.symbol "A", "a letter")]
    rules := [{ name := "main", kind := .lookahead
                handlers := [⟨.char 'a', .enqueue (.symbol "A")⟩] }] }

def Tokenized.lines (t : Tokenized) : List (Option Nat) :=
  t.entries.map fun entry => entry.token?.map (·.position.line)

/-- Behind a comment all lines are counted one too many in the text with carriage returns. -/
theorem comment_moves_lines :
    '\r' ∉ "a#x\na".toList ∧ String.ofList (Text.crlf "a#x\na".toList) = "a#x\r\na" ∧
      (∀ r, wordRules.rule? "main" = some r → r.Flat) ∧
      ∃ result result', TokenizedTo wordRules "a#x\na" {} result ∧
        TokenizedTo wordRules "a#x\r\na" {} result' ∧
        result.toOption.map Tokenized.lines = some [some 1, some 2, some 2] ∧
        result'.toOption.map Tokenized.lines = some [some 1, some 3, some 3] ∧
        ∃ N, ∀ n ≥ N, Shifted (skippedComments wordRules "a#x\na" {} n) result result' := by
  have hr : '\r' ∉ "a#x\na".toList := by decide
  have htext : String.ofList (Text.crlf "a#x\na".toList) = "a#x\r\na" := by decide +kernel
  have hflat : ∀ r, wordRules.rule? "main" = some r → r.Flat := by
    rintro r hrule
    cases hrule
    refine ⟨rfl, .inl rfl, ?_, .inl rfl⟩
    intro h hh
    obtain rfl := List.mem_singleton.mp hh
    exact ⟨Pattern.char_plain rfl, trivial, _, rfl⟩
  obtain ⟨result, result', h, h', N, hshifted⟩ := @tokenize_carriageReturns wordRules {} "a#x\na"
    hr rfl rfl rfl (fun _ h => nomatch h) hflat
  rw [htext] at h'
  have hlines : (tokenize wordRules "a#x\na" {} 9).toOption.map Tokenized.lines =
      some [some 1, some 2, some 2] := by decide +kernel
  have hlines' : (tokenize wordRules "a#x\r\na" {} 9).toOption.map Tokenized.lines =
      some [some 1, some 3, some 3] := by decide +kernel
  have hresult : result = _ := h.unique (.of_eq (n := 9) rfl fun he => by
    rw [he] at hlines
    cases hlines)
  have hresult' : result' = _ := h'.unique (.of_eq (n := 9) rfl fun he => by
    rw [he] at hlines'
    cases hlines')
  exact ⟨hr, htext, hflat, result, result', h, h', hresult ▸ hlines, hresult' ▸ hlines', N,
    fun n hn => (hshifted n hn).1⟩

end TableLexer
