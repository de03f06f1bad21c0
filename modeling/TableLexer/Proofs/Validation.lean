import TableLexer.Proofs.EndOfStream
import TableLexer.Proofs.FreshInput
import TableLexer.Proofs.Lexer.Vetted
import TableLexer.Proofs.LineEnds

/-!
# What an accepted rule set guarantees

A lexer that was accepted for a rule set delivers tokens of registered types, apart from those it
makes of layout; it never misses a subrule; and it always knows the rule to apply. This holds for
whatever the rules do to the modes, and for every text.
-/
namespace TableLexer

namespace Modes

variable {m m' : Modes} {mode other : String}

theorem mem_replace (h : other ∈ (m.replace mode).toList) : other = mode ∨ other ∈ m.toList := by
  unfold replace toList at h
  unfold toList
  cases hp : m.pushed with
  | nil =>
    rw [hp] at h
    simp only [List.reverse_nil, List.mem_singleton] at h
    exact .inl h
  | cons top rest =>
    rw [hp] at h
    simp only [List.reverse_cons, List.mem_cons, List.mem_append] at h ⊢
    rcases h with h | h | h
    · exact .inr (.inl h)
    · exact .inr (.inr (.inl h))
    · exact .inl (h.resolve_right (by simp))

theorem mem_push (h : other ∈ (m.push mode).toList) : other = mode ∨ other ∈ m.toList := by
  simp only [push, toList, List.reverse_cons, List.mem_cons, List.mem_append,
    List.not_mem_nil, or_false] at h ⊢
  rcases h with h | h | h
  · exact .inr (.inl h)
  · exact .inr (.inr h)
  · exact .inl h

theorem mem_pop (hp : m.pop? = some m') (h : other ∈ m'.toList) : other ∈ m.toList := by
  unfold pop? at hp
  cases hpushed : m.pushed with
  | nil => simp [hpushed] at hp
  | cons top rest =>
    simp only [hpushed, Option.some.injEq] at hp
    subst hp
    simp only [toList, hpushed, List.mem_cons, List.reverse_cons, List.mem_append] at h ⊢
    rcases h with h | h
    · exact .inl h
    · exact .inr (.inl h)

theorem current_mem (m : Modes) : m.current ∈ m.toList := by
  unfold current toList
  cases m.pushed <;> simp

end Modes

namespace Lexer

open Program (Relates)

variable {l l' : Lexer} {type : TokenType}

def ModesKnown (l : Lexer) : Prop :=
  ∀ mode ∈ l.modes.toList, (l.options.ruleFor? mode).isSome = true

def KeepsModes (l l' : Lexer) : Prop := l.ModesKnown → l'.ModesKnown

theorem modes_inherited : Inherited (Relates KeepsModes) where
  pure _ := fun _ h => h
  throw _ := fun _ h => h
  bind hm hf := Relates.bind (R := KeepsModes) (fun _ _ _ h k hknown => k (h hknown)) hm hf
  get _ hf := fun l => hf l l
  modify _ hmodes hoptions _ l h := by
    unfold ModesKnown
    rw [Program.modify_apply, Program.final_ok, hmodes, hoptions]
    exact h
  onEngine m := by
    intro l
    unfold Lexer.onEngine
    cases m l.engine <;> exact fun h => h
  onQueue m := by
    intro l
    unfold Lexer.onQueue
    cases m l.queue <;> exact fun h => h

theorem changeMode_modes {f : Modes → Modes} {mode : String}
    (hf : ∀ m, ∀ other ∈ (f m).toList, other = mode ∨ other ∈ m.toList) :
    Relates KeepsModes
      (do checkMode mode; modify fun l => { l with modes := f l.modes } : LexerM Unit) := by
  intro l h
  simp only [checkMode, Program.bind_apply, Program.get_apply]
  cases hr : l.options.ruleFor? mode with
  | none => exact h
  | some rule =>
    intro other hother
    rcases hf l.modes other hother with rfl | hmem
    · exact Option.isSome_iff_exists.mpr ⟨rule, hr⟩
    · exact h other hmem

theorem setMode_modes (mode : String) : Relates KeepsModes (setMode mode) :=
  changeMode_modes fun _ _ => Modes.mem_replace

theorem pushMode_modes (mode : String) : Relates KeepsModes (pushMode mode) :=
  changeMode_modes (f := fun m => m.push mode) fun _ _ => Modes.mem_push

theorem popMode_modes : Relates KeepsModes popMode := by
  intro l h
  simp only [popMode, Program.bind_apply, Program.get_apply]
  cases hp : l.modes.pop? with
  | none => exact h
  | some modes => exact fun other hother => h other (Modes.mem_pop hp hother)

theorem Step.run_modes (s : Step) : Relates KeepsModes s.run :=
  modes_inherited.step (fun _ _ => setMode_modes) (fun _ _ => pushMode_modes)
    fun _ _ => popMode_modes

def Known (l : Lexer) (type : TokenType) : Prop :=
  l.ruleset.hasType type = true ∨ type = l.options.eolType ∨ type = l.options.indentType

/-- What holds of a lexer that was accepted, whatever it has done since. -/
structure Accepted (l : Lexer) : Prop where
  operations : l.operations = []
  transforms : l.queue.transforms = []
  vetted : l.ruleset.Vetted
  rules : ∀ mode name, l.options.ruleFor? mode = some name → ∃ r, l.ruleset.rule? name = some r
  modes : l.ModesKnown
  queue : ∀ type, ¬ l.Known type → l.queue.Lacks type

theorem Known.of_frame (h : SameFrame l l') : l'.Known type ↔ l.Known type := by
  unfold Known
  rw [h.ruleset, h.options]

theorem Accepted.of_frame (h : l.Accepted) (hframe : SameFrame l l') (hmodes : KeepsModes l l')
    (hqueue : ∀ type, ¬ l.Known type → l'.queue.Lacks type) : l'.Accepted where
  operations := hframe.operations.trans h.operations
  transforms := hframe.transforms.trans h.transforms
  vetted := hframe.ruleset ▸ h.vetted
  rules := by
    rw [hframe.ruleset, hframe.options]
    exact h.rules
  modes := hmodes h.modes
  queue type hunknown := hqueue type fun hk => hunknown ((Known.of_frame hframe).mpr hk)

theorem Accepted.spares (h : l.Accepted) (type : TokenType) :
    Queue.Spares l.queue.transforms type := by
  simp [Queue.Spares, h.transforms]

/-- An accepted lexer knows the rule to apply. -/
theorem Accepted.resolves (h : l.Accepted) :
    ∃ name r, modeRule l = .ok name l ∧ l.ruleset.rule? name = some r := by
  obtain ⟨name, hname⟩ := Option.isSome_iff_exists.mp (h.modes _ l.modes.current_mem)
  obtain ⟨r, hr⟩ := h.rules _ name hname
  refine ⟨name, r, ?_, hr⟩
  simp [modeRule, hname]

theorem accepted_of_new {calls : List Ruleset.Definition} {options : Options}
    (hnew : new (Ruleset.build calls) options = .ok l) (htransforms : options.transforms = []) :
    l.Accepted := by
  obtain ⟨hvalid, hmain, horphan, -, rfl⟩ := new_eq_ok_iff.mp hnew
  constructor
  · rfl
  · exact htransforms
  · exact (Ruleset.build_typed calls).vetted hvalid
  · intro mode name hname
    unfold Options.ruleFor? at hname
    split at hname
    · cases hname
      exact Option.isSome_iff_exists.mp hmain
    · obtain ⟨before, after, hmodes, -⟩ := List.lookup_eq_some_iff.mp hname
      have hmem : (mode, name) ∈ options.modeRules := hmodes ▸ List.mem_append_right _ (by simp)
      have hknown := List.find?_eq_none.mp horphan _ hmem
      simpa [Option.ne_none_iff_exists', Option.isSome_iff_exists] using hknown
  · intro mode hmode
    simp only [Modes.toList, List.reverse_nil, List.mem_singleton] at hmode
    subst hmode
    rfl
  · intro type _ e he
    cases he

theorem Step.Sound.accepted {s : Step} (hs : s.Sound l.ruleset) (h : l.Accepted) :
    (Program.final (s.run l)).Accepted := by
  refine h.of_frame (s.run_frame l) (s.run_modes l) ?_
  intro type hunknown
  refine hs.lacks ?_ (h.queue type hunknown) (h.spares type)
  rw [← Bool.not_eq_true]
  exact fun hk => hunknown (.inl hk)

theorem perform_accepted {xs : List Step} (hs : ∀ s ∈ xs, s.Sound l.ruleset) (h : l.Accepted) :
    (Program.final (perform xs l)).Accepted := by
  induction xs generalizing l with
  | nil => exact h
  | cons s rest ih =>
    rw [List.forall_mem_cons] at hs
    have hfirst := hs.1.accepted h
    have hframe := s.run_frame l
    rw [perform, Program.bind_apply]
    cases hr : s.run l with
    | error stop l' =>
      rw [hr] at hfirst
      exact hfirst
    | ok _ l' =>
      rw [hr] at hfirst hframe
      exact ih (hframe.ruleset ▸ hs.2) hfirst

variable {n : Nat}

theorem ruleSteps_eq (h : l.Accepted) (r : Rule) (n : Nat) :
    ending (r.run (respond n) l) = perform (r.steps (respondSteps n) l) l :=
  Rule.run_eq_perform (respond_answers n) r l h.operations

theorem ruleRun_accepted (h : l.Accepted) {r : Rule} (hr : r ∈ l.ruleset.rules) (n : Nat) :
    (Program.final (r.run (respond n) l)).Accepted := by
  rw [← final_ending, ruleSteps_eq h]
  exact perform_accepted (ruleSteps_sound h.vetted hr n rfl) h

/-- No rule misses a subrule. -/
theorem ruleRun_found (h : l.Accepted) {r : Rule} (hr : r ∈ l.ruleset.rules) (n : Nat) :
    Found (r.run (respond n) l) := by
  apply found_ending
  rw [ruleSteps_eq h]
  exact perform_found (ruleSteps_sound h.vetted hr n rfl) l

theorem Accepted.counted (h : l.Accepted) : l.counted.Accepted :=
  h.of_frame (counted_frame l) (fun hm => hm) h.queue

theorem Accepted.withEngine (h : l.Accepted) {e : Engine} (he : l.engine.SameText e) :
    Accepted { l with engine := e } :=
  h.of_frame ⟨he, rfl, rfl, rfl, rfl⟩ (fun hm => hm) h.queue

theorem settle_accepted (h : l.Accepted) (rule : String) (start : Mark) (captured : Bool) :
    (Program.final (settle rule start captured l)).Accepted :=
  h.of_frame (settle_frame rule start captured l) (modes_inherited.settle rule start captured l)
    fun type hunknown => settle_lacks (h.queue type hunknown) rule start captured

theorem capturing_accepted {α : Type} {m : LexerM α} (h : (Program.final (m l)).Accepted) :
    (Program.final (capturing m l)).Accepted := by
  refine capturing_relates (R := fun _ l' => l'.Accepted) h ?_
  intro e l' _ h
  exact h.of_frame (errorQueued_frame e l') (fun hm => hm) fun type hunknown =>
    errorQueued_lacks (h.queue type hunknown) e

theorem applyModeRule_accepted (h : l.Accepted) (n : Nat) :
    (Program.final (applyModeRule n l)).Accepted ∧ Found (applyModeRule n l) := by
  obtain ⟨name, r, hname, hr⟩ := h.resolves
  have hmem := Ruleset.mem_of_rule? hr
  have hrun := capturing_accepted (ruleRun_accepted h.counted hmem n)
  have hfound := capturing_found (ruleRun_found h.counted hmem n)
  have hrule : l.options.ruleFor? l.modes.current = some name := by
    simp only [modeRule, Program.bind_apply, Program.get_apply] at hname
    cases hf : l.options.ruleFor? l.modes.current with
    | none => simp [hf, fail] at hname
    | some rule => simpa [hf] using hname
  simp only [applyModeRule_eq, hrule, hr]
  cases hc : capturing (r.run (respond n)) l.counted with
  | ok captured l' =>
    rw [hc] at hrun
    exact ⟨settle_accepted hrun name l.engine.toMark captured, settle_found _ _ _ _⟩
  | error stop l' =>
    rw [hc] at hrun hfound
    refine ⟨hrun, ?_⟩
    intro e l₁ rule he
    cases he
    exact hfound e l' rule rfl

theorem enqueueIndent_accepted (h : l.Accepted) (hr : l.engine.recognition = .recognized) :
    (Program.final (enqueueIndent l)).Accepted := by
  refine h.of_frame (enqueueIndent_frame l) (modes_inherited.enqueueIndent l) ?_
  intro type hunknown
  have hlacks := h.queue type hunknown
  have hne : l.options.indentType ≠ type := by
    rintro rfl
    exact hunknown (.inr (.inr rfl))
  rw [enqueueIndent_eq hr]
  split
  · next hq => exact hlacks.enqueue (h.spares type) (by simpa [Entry.type?] using hne) hq
  · exact hlacks

theorem enqueueLineEnd_accepted (h : l.Accepted) :
    (Program.final (enqueueLineEnd l)).Accepted := by
  refine h.of_frame (enqueueLineEnd_frame l) (modes_inherited.enqueueLineEnd l) ?_
  intro type hunknown
  have hlacks := h.queue type hunknown
  have hne : l.options.eolType ≠ type := by
    rintro rfl
    exact hunknown (.inr (.inl rfl))
  rw [enqueueLineEnd_eq]
  split
  · split
    · next hq =>
      exact hlacks.pushAhead (h.spares type) (by simpa [lineEndToken, Entry.type?] using hne) hq
    · exact hlacks
  · exact hlacks

theorem endQueued_accepted (h : l.Accepted) : l.endQueued.Accepted :=
  h.of_frame (endQueued_frame l) (fun hm => hm) fun type hunknown =>
    endQueued_lacks (h.queue type hunknown)

theorem fillStep_accepted (h : l.Accepted) (n : Nat) :
    (Program.final (fillStep n l)).Accepted ∧ Found (fillStep n l) := by
  by_cases hs : l.engine.Scannable
  · obtain ⟨o, e, hlay⟩ := Engine.scanLayout_total hs
    have hlaid := (Engine.scanLayout_eq_ok_iff.mp hlay).2
    have he := h.withEngine hlaid.sameText
    rw [fillStep_eq n hlay]
    cases o with
    | none => exact applyModeRule_accepted he n
    | some outcome =>
      cases outcome with
      | indentation =>
        have hr := hlaid.indentation_recognized
        exact ⟨enqueueIndent_accepted he hr, enqueueIndent_found hr⟩
      | lineEnd => exact ⟨enqueueLineEnd_accepted he, enqueueLineEnd_found _⟩
      | endOfStream => exact ⟨endQueued_accepted he, found_ok _ _⟩
      | token => exact applyModeRule_accepted he n
  · obtain ⟨fault, hk, hf⟩ := fillStep_refuses n hs
    rw [hf]
    exact ⟨h, found_lexical hk l⟩

theorem fillQueue_accepted (h : l.Accepted) (n rounds : Nat) :
    (Program.final (fillQueue n rounds l)).Accepted ∧ Found (fillQueue n rounds l) := by
  induction rounds generalizing l with
  | zero => exact ⟨h, found_exhausted l⟩
  | succ rounds ih =>
    by_cases hq : l.queue.toList = []
    · obtain ⟨hstep, hfound⟩ := fillStep_accepted h n
      rw [fillQueue_empty hq]
      cases hf : fillStep n l with
      | ok _ l' =>
        rw [hf] at hstep
        exact ih hstep
      | error stop l' =>
        rw [hf] at hstep hfound
        exact ⟨hstep, hfound⟩
    · rw [fillQueue_full hq n (Nat.succ_pos rounds)]
      exact ⟨h, found_ok _ _⟩

theorem Accepted.dequeued (h : l.Accepted) {entry : Entry} {q : Queue}
    (hd : l.queue.dequeue = .ok (entry, q)) :
    Accepted { l with queue := q } ∧ ∀ type, entry.type? = some type → l.Known type := by
  obtain ⟨hlist, htransforms⟩ := Queue.dequeue_eq_ok hd
  constructor
  · refine h.of_frame ⟨⟨rfl, rfl⟩, rfl, rfl, rfl, htransforms⟩ (fun hm => hm) ?_
    intro type hunknown e he
    exact h.queue type hunknown e (by simp [hlist, he])
  · intro type htype
    by_cases hk : l.Known type
    · exact hk
    · exact absurd htype (h.queue type hk entry (by simp [hlist]))

/-- How a call can end: with an entry whose type is known, or with an error that is not for want
of a subrule. -/
def Served (l : Lexer) (r : EStateM.Result Stop Lexer Entry) : Prop :=
  (Program.final r).Accepted ∧ Found r ∧
    ∀ entry l', r = .ok entry l' → ∀ type, entry.type? = some type → l.Known type

theorem dequeue_served (h : l.Accepted) : Served l (onQueue QueueM.dequeue l) := by
  refine ⟨?_, dequeue_found l, ?_⟩
  · rw [onQueue_dequeue]
    cases hd : l.queue.dequeue with
    | ok r => exact (h.dequeued hd).1
    | error e => exact h
  · intro entry l' hok
    rw [onQueue_dequeue] at hok
    cases hd : l.queue.dequeue with
    | ok r =>
      rw [hd] at hok
      cases hok
      exact (h.dequeued hd).2
    | error e =>
      rw [hd] at hok
      cases hok

theorem Served.of_refusal (h : l.Accepted) {e : LexError}
    (he : ∀ name, e.cause ≠ .unknownSubrule name) : Served l (.error (.fault e) l) := by
  refine ⟨h, found_fault he l, ?_⟩
  intro entry l' hok
  cases hok

theorem nextToken_served (h : l.Accepted) (n : Nat) : Served l (nextToken n l) := by
  simp only [nextToken, Program.bind_apply, Program.get_apply]
  split
  · exact .of_refusal h (by simp [LexError.plain])
  split
  · split
    · obtain ⟨hfill, hfound⟩ := fillQueue_accepted h n n
      have hmake := fillQueue_make h.operations n n
      rw [Program.bind_apply]
      cases hf : fillQueue n n l with
      | error stop l₁ =>
        rw [hf] at hfill hfound
        refine ⟨hfill, ?_, ?_⟩
        · intro e l' name he
          cases he
          exact hfound e l₁ name rfl
        · intro entry l' hok
          cases hok
      | ok _ l₁ =>
        rw [hf] at hfill hmake
        obtain ⟨hafter, hfound, hknown⟩ := dequeue_served hfill
        refine ⟨hafter, hfound, ?_⟩
        intro entry l' hok type htype
        have hk := hknown entry l' hok type htype
        unfold Known at hk ⊢
        rwa [hmake.ruleset, hmake.options] at hk
    · exact .of_refusal h (by simp [LexError.plain])
  · exact dequeue_served h

theorem served_accepted (h : l.Accepted) (r : Request) : (l.served r).Accepted := by
  cases r with
  | entry n => exact (nextToken_served h n).1
  | input text =>
    rw [served, setInput_eq]
    split
    · exact h
    · refine ⟨h.operations, h.transforms, h.vetted, h.rules, ?_, ?_⟩
      · intro mode hmode
        apply h.modes
        simp only [Program.final_ok, restarted, Modes.toList, List.reverse_nil,
          List.mem_singleton] at hmode
        simp [Modes.toList, hmode]
      · intro type _ e he
        cases he

theorem driven_accepted (h : l.Accepted) (history : List Request) :
    (l.driven history).Accepted := by
  induction history generalizing l with
  | nil => exact h
  | cons r history ih => exact ih (served_accepted h r)

theorem Drives.accepted (hd : Drives l l') (h : l.Accepted) : l'.Accepted := by
  induction hd with
  | refl => exact h
  | @fill a b n _ _ hstep ih =>
    have hfill := (fillStep_accepted ih n).1
    rwa [hstep] at hfill
  | deliver _ hq ih => exact (ih.dequeued hq).1

/-- What a run comes through: the lexers between two steps of the driver, and those between two
steps of a rule that the driver applies. -/
inductive Passes (l : Lexer) : Lexer → Prop where
  | driver {a : Lexer} (h : Drives l a) : Passes l a
  | rule {a : Lexer} {e : Engine} {n : Nat} {done rest : List Step} (h : Drives l a)
      (hlay : Engine.scanLayout a.engine = .ok none e)
      (hsteps : modeSteps n { a with engine := e } = done ++ rest) :
      Passes l (Program.final (perform done { a with engine := e }.counted))

theorem Passes.accepted (hp : Passes l l') (h : l.Accepted) : l'.Accepted := by
  cases hp with
  | driver hd => exact hd.accepted h
  | @rule a e n done rest hd hlay hsteps =>
    have ha : Accepted { a with engine := e } :=
      (hd.accepted h).withEngine (Engine.scanLayout_eq_ok_iff.mp hlay).2.sameText
    have hsound : ∀ s ∈ modeSteps n { a with engine := e }, s.Sound a.ruleset := by
      unfold modeSteps
      split
      · next r hr =>
        obtain ⟨name, -, hname⟩ := Option.bind_eq_some_iff.mp hr
        exact ruleSteps_sound ha.vetted (Ruleset.mem_of_rule? hname) n rfl
      · simp
    rw [hsteps, List.forall_mem_append] at hsound
    exact perform_accepted hsound.1 ha.counted

theorem Passes.frame (hp : Passes l l') (hops : l.operations = []) : SameFrame l l' := by
  cases hp with
  | driver hd => exact hd.frame hops
  | @rule a e n done rest hd hlay hsteps =>
    have hlaid := (Engine.scanLayout_eq_ok_iff.mp hlay).2
    have he : SameFrame a { a with engine := e } := ⟨hlaid.sameText, rfl, rfl, rfl, rfl⟩
    exact ((hd.frame hops).trans he).trans ((counted_frame _).trans (perform_frame done _))

/-- The checks of a rule set are sound. Let calls, some of which may be refused, build a rule set,
and let a lexer without transforms be accepted for it. Whatever requests it has served: an entry
it delivers is of a registered type or one of layout, and no request fails for want of a subrule;
and wherever a run comes through from there on, the rule of the current mode exists, and applying
a rule of the set misses no subrule. -/
theorem validation_sound {calls : List Ruleset.Definition} {options : Options} {l₀ : Lexer}
    (hnew : new (Ruleset.build calls) options = .ok l₀) (htransforms : options.transforms = [])
    (history : List Request) :
    (∀ n entry l type, nextToken n (l₀.driven history) = .ok entry l →
      entry.type? = some type → (Ruleset.build calls).hasType type = true ∨
        type = options.eolType ∨ type = options.indentType) ∧
    (∀ n, Found (nextToken n (l₀.driven history))) ∧
    ∀ l, Passes (l₀.driven history) l →
      (∃ name r, modeRule l = .ok name l ∧ (Ruleset.build calls).rule? name = some r) ∧
      ∀ r ∈ (Ruleset.build calls).rules, ∀ n, Found (r.run (respond n) l) := by
  have h₀ := accepted_of_new hnew htransforms
  obtain ⟨-, -, -, -, hl₀⟩ := new_eq_ok_iff.mp hnew
  have hmake := driven_make h₀.operations history
  have hrules : (l₀.driven history).ruleset = Ruleset.build calls := by
    rw [hmake.ruleset, hl₀]
  have hoptions : (l₀.driven history).options = options := by
    rw [hmake.options, hl₀]
  have h := driven_accepted h₀ history
  refine ⟨?_, ?_, ?_⟩
  · intro n entry l type hok htype
    have hknown := (nextToken_served h n).2.2 entry l hok type htype
    rwa [Known, hrules, hoptions] at hknown
  · intro n
    exact (nextToken_served h n).2.1
  · intro l hp
    have hl := hp.accepted h
    have hset : l.ruleset = Ruleset.build calls := (hp.frame h.operations).ruleset.trans hrules
    rw [← hset]
    exact ⟨hl.resolves, fun r hr n => ruleRun_found hl hr n⟩

def bracketCalls : List Ruleset.Definition :=
  [.types [(.symbol "OPEN", "an opening bracket"), (.symbol "CLOSE", "a closing bracket"),
     (.symbol "WORD", "a letter between brackets")],
   .rule { name := "main", kind := .lookahead
           handlers := [⟨.char '(', .sequence [.enqueue (.symbol "OPEN"),
             .send "push_mode" [.text "inner"]]⟩] },
   .rule { name := "stray", kind := .lookahead, otherwise := .enqueue (.symbol "STRAY") },
   .rule { name := "inner", kind := .lookahead
           handlers := [⟨.char ')', .sequence [.enqueue (.symbol "CLOSE"),
             .send "pop_mode" []]⟩]
           otherwise := .subrule "word" },
   .rule { name := "word", kind := .standard, otherwise := .enqueue (.symbol "WORD") }]

def bracketOptions : Options := { eolTokens := true, modeRules := [("inner", "inner")] }

def bracketLexer : Lexer :=
  { engine := .new bracketOptions.engineConfig
    queue := ⟨[], [], []⟩
    ruleset := Ruleset.build bracketCalls
    options := bracketOptions }

/-- Between brackets the lexer always knows its rule, and misses no subrule. -/
theorem brackets_resolve :
    new (Ruleset.build bracketCalls) bracketOptions = .ok bracketLexer ∧
      bracketOptions.transforms = [] ∧
      ((bracketLexer.driven [.input "(a)\n", .entry 9]).answers 9 4).map
          (·.toOption.bind Entry.type?) =
        [some (.symbol "WORD"), some (.symbol "CLOSE"), some (.symbol "T_EOL"), none] ∧
      (bracketLexer.driven [.input "(a)\n", .entry 9]).modes.current = "inner" ∧
      Found (nextToken 9 (bracketLexer.driven [.input "(a)\n", .entry 9])) ∧
      ∀ l, Passes (bracketLexer.driven [.input "(a)\n", .entry 9]) l →
        ∃ name r, modeRule l = .ok name l ∧
          (Ruleset.build bracketCalls).rule? name = some r := by
  have hnew : new (Ruleset.build bracketCalls) bracketOptions = .ok bracketLexer := rfl
  have hsound := validation_sound hnew rfl [.input "(a)\n", .entry 9]
  refine ⟨hnew, rfl, by decide +kernel, by decide +kernel, hsound.2.1 9, ?_⟩
  intro l hl
  exact (hsound.2.2 l hl).1

end Lexer
end TableLexer
