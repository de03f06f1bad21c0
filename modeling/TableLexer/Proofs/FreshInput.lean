import TableLexer.Proofs.Lexer.Modes
import TableLexer.Proofs.Lexer.Progress
import TableLexer.Proofs.Rulesets

/-!
# Fresh input

New input puts a lexer back to where it started, with one exception: it stays in the base mode
that the runs before left. All else that they did is forgotten, so what the lexer answers depends
on its past through the rule of that mode only.
-/
namespace TableLexer.Lexer

open Program (Relates)

def SameBase (l l' : Lexer) : Prop := l'.modes.base = l.modes.base

theorem base_inherited : Inherited (Relates SameBase) where
  pure _ := fun _ => rfl
  throw _ := fun _ => rfl
  bind hm hf := Relates.bind (R := SameBase) (fun _ _ _ h k => Eq.trans k h) hm hf
  get _ hf := fun l => hf l l
  modify _ hmodes _ _ := fun l => congrArg Modes.base (hmodes l)
  onEngine m := by
    intro l
    unfold Lexer.onEngine
    cases m l.engine <;> rfl
  onQueue m := by
    intro l
    unfold Lexer.onQueue
    cases m l.queue <;> rfl

theorem pushMode_base (mode : String) : Relates SameBase (pushMode mode) :=
  base_inherited.bind (base_inherited.checkMode mode) fun _ _ => rfl

theorem popMode_base : Relates SameBase popMode := by
  intro l
  simp only [popMode, Program.bind_apply, Program.get_apply, Modes.pop?]
  cases l.modes.pushed <;> rfl

/-- The base mode is replaced by no step but a message to do so. -/
theorem Step.run_base {s : Step} (h : ∀ args, s ≠ .message "set_mode" args) :
    Relates SameBase s.run := by
  refine base_inherited.step ?_ (fun _ _ => pushMode_base) fun _ _ => popMode_base
  intro args he
  exact absurd he (h args)

theorem perform_base {steps : List Step}
    (h : ∀ s ∈ steps, ∀ args, s ≠ .message "set_mode" args) : Relates SameBase (perform steps) := by
  induction steps with
  | nil => exact base_inherited.pure ()
  | cons s rest ih =>
    rw [List.forall_mem_cons] at h
    exact base_inherited.bind (Step.run_base h.1) fun _ => ih h.2

variable {l l' : Lexer}

theorem ruleRun_base (hn : l.ruleset.NeverSends "set_mode") {r : Rule}
    (hr : r ∈ l.ruleset.rules) (hops : l.operations = []) (n : Nat) :
    SameBase l (Program.final (r.run (respond n) l)) := by
  have hp := perform_base (hn.allows.ruleSteps hr n rfl) l
  rwa [← Rule.run_eq_perform (respond_answers n) r l hops, final_ending] at hp

theorem applyModeRule_base (hn : l.ruleset.NeverSends "set_mode") (hops : l.operations = [])
    (n : Nat) : SameBase l (Program.final (applyModeRule n l)) :=
  applyModeRule_keeps rfl
    (fun _ _ _ hr => ruleRun_base (l := l.counted) hn (Ruleset.mem_of_rule? hr) hops n)
    (fun _ _ h => h)
    fun rule captured a h => (base_inherited.settle rule l.engine.toMark captured a).trans h

theorem fillStep_base (hn : l.ruleset.NeverSends "set_mode") (hops : l.operations = [])
    (n : Nat) : SameBase l (Program.final (fillStep n l)) :=
  fillStep_keeps rfl (fun _ _ => base_inherited.enqueueIndent _)
    (fun _ _ => base_inherited.enqueueLineEnd _) (fun _ _ => rfl)
    fun e _ => applyModeRule_base (l := { l with engine := e }) hn hops n

/-- The lexers are made of the same parts, and have the same base mode if no rule sets it. -/
structure SameMake (l l' : Lexer) : Prop where
  config : l'.engine.config = l.engine.config
  ruleset : l'.ruleset = l.ruleset
  options : l'.options = l.options
  operations : l'.operations = l.operations
  transforms : l'.queue.transforms = l.queue.transforms
  base : l.ruleset.NeverSends "set_mode" → l'.modes.base = l.modes.base

theorem SameMake.refl (l : Lexer) : SameMake l l := ⟨rfl, rfl, rfl, rfl, rfl, fun _ => rfl⟩

theorem SameMake.trans {a b c : Lexer} (h : SameMake a b) (k : SameMake b c) : SameMake a c where
  config := k.config.trans h.config
  ruleset := k.ruleset.trans h.ruleset
  options := k.options.trans h.options
  operations := k.operations.trans h.operations
  transforms := k.transforms.trans h.transforms
  base hn := (k.base (h.ruleset ▸ hn)).trans (h.base hn)

theorem fillStep_make (hops : l.operations = []) (n : Nat) :
    SameMake l (Program.final (fillStep n l)) := by
  have hframe := fillStep_frame n hops
  exact ⟨hframe.text.config, hframe.ruleset, hframe.options, hframe.operations,
    hframe.transforms, fun hn => fillStep_base hn hops n⟩

theorem fillQueue_make (hops : l.operations = []) (n rounds : Nat) :
    SameMake l (Program.final (fillQueue n rounds l)) :=
  fillQueue_keeps (fun _ ha => ha.trans (fillStep_make (ha.operations.trans hops) n)) rounds
    (.refl l)

theorem nextToken_make (hops : l.operations = []) (n : Nat) :
    SameMake l (Program.final (nextToken n l)) := by
  refine nextToken_keeps (fun _ ha => ha.trans (fillStep_make (ha.operations.trans hops) n)) ?_
    (.refl l)
  intro a entry q ha hd
  exact ha.trans ⟨rfl, rfl, rfl, rfl, (Queue.dequeue_eq_ok hd).2, fun _ => rfl⟩

/-- What is asked of a lexer: to take new input, or to deliver the next entry within an
allowance. -/
inductive Request where
  | input (text : String)
  | entry (allowance : Nat)
  deriving DecidableEq, Repr

def served (l : Lexer) : Request → Lexer
  | .input text => Program.final (setInput text l)
  | .entry n => Program.final (nextToken n l)

def driven (l : Lexer) : List Request → Lexer
  | [] => l
  | r :: rs => (l.served r).driven rs

theorem served_make (hops : l.operations = []) (r : Request) : SameMake l (l.served r) := by
  cases r with
  | entry n => exact nextToken_make hops n
  | input text =>
    simp only [served, setInput_eq]
    split
    · exact .refl l
    · exact ⟨rfl, rfl, rfl, rfl, rfl, fun _ => rfl⟩

theorem driven_make (hops : l.operations = []) (history : List Request) :
    SameMake l (l.driven history) := by
  induction history generalizing l with
  | nil => exact .refl l
  | cons r history ih =>
    have hstep := served_make hops r
    exact hstep.trans (ih (hstep.operations.trans hops))

theorem driven_alike (h : Alike l l') (history : List Request) :
    Alike (l.driven history) (l'.driven history) := by
  induction history generalizing l l' with
  | nil => exact h
  | cons r history ih =>
    apply ih
    cases r with
    | entry n => exact (nextToken_blind n).final h
    | input text => exact (setInput_blind text).final h

/-- Where a lexer starts over depends on its make and its base mode only. -/
theorem restarted_eq (h : SameMake l l') (text : String) :
    l'.restarted text = { l.restarted text with modes := { base := l'.modes.base } } := by
  obtain ⟨⟨scan, config, input, snapshots⟩, ⟨front, back, transforms⟩, ruleset, options, modes,
    operations, stats, finished⟩ := l'
  obtain ⟨hconfig, hruleset, hoptions, hoperations, htransforms, -⟩ := h
  simp only at hconfig hruleset hoptions hoperations htransforms
  subst hconfig hruleset hoptions hoperations htransforms
  rfl

/-- New input starts a lexer over in the base mode that the requests before have left, which is a
mode with a rule, and in this alone the lexer differs from a new one. If the rule is that of a
new lexer, its answers and counters are those of a new lexer; and it is as a new one if no rule
sets the mode. -/
theorem restart_keeps_base {rs : Ruleset} {options : Options} {l₀ l : Lexer} {text : String}
    {history : List Request} (hnew : new rs options = .ok l₀)
    (hset : setInput text (l₀.driven history) = .ok () l) :
    ∃ fresh, setInput text l₀ = .ok () fresh ∧
      l = { fresh with modes := { base := (l₀.driven history).modes.base } } ∧
      (options.ruleFor? (l₀.driven history).modes.base).isSome ∧
      (options.ruleFor? (l₀.driven history).modes.base = some options.mainRule →
        ∀ n k, l.answers n k = fresh.answers n k ∧
          (l.afterCalls n k).stats = (fresh.afterCalls n k).stats) ∧
      (rs.NeverSends "set_mode" → l = fresh) := by
  obtain ⟨hops, hmodes, hrules, hoptions, hwaits⟩ : l₀.operations = [] ∧ l₀.modes = {} ∧
      l₀.ruleset = rs ∧ l₀.options = options ∧
      l₀.engine.recognition = .waitingForInput := by
    obtain ⟨-, -, -, -, rfl⟩ := new_eq_ok_iff.mp hnew
    exact ⟨rfl, rfl, rfl, rfl, rfl⟩
  have hmain : options.ruleFor? defaultMode = some options.mainRule := if_pos rfl
  have hmake := driven_make hops history
  have hfresh : setInput text l₀ = .ok () (l₀.restarted text) := by
    rw [setInput_eq, hwaits, if_neg (by decide)]
  have hl : l = { l₀.restarted text with
      modes := { base := (l₀.driven history).modes.base } } := by
    rw [setInput_eq] at hset
    split at hset
    · cases hset
    · cases hset
      exact restarted_eq hmake text
  have hlike : ∀ mode, options.ruleFor? mode = some options.mainRule →
      l₀.modes.Like l₀.options { base := mode } := by
    intro mode hmode
    rw [hmodes, hoptions]
    exact ⟨rfl, options.mainRule, hmain, hmode⟩
  have hknown : (options.ruleFor? (l₀.driven history).modes.base).isSome := by
    have hself : Alike l₀ l₀ := ⟨{}, by rw [← hmodes], hlike _ hmain⟩
    obtain ⟨modes, -, -, rule, hrule, -⟩ := driven_alike hself history
    rw [hmake.options, hoptions] at hrule
    simp [hrule]
  refine ⟨l₀.restarted text, hfresh, hl, hknown, ?_, ?_⟩
  · intro hrule n k
    have halike : Alike (l₀.restarted text) l := ⟨_, hl, (hlike _ hrule).cleared⟩
    refine ⟨halike.answers n k, ?_⟩
    obtain ⟨modes, hafter, -⟩ := halike.afterCalls n k
    rw [hafter]
  · intro hn
    rw [hl, hmake.base (hrules ▸ hn), hmodes]
    simp only [restarted, hmodes]

def modeRules : Ruleset :=
  { types := some [(.symbol "A", "a letter"), (.symbol "B", "a letter behind another")]
    rules := [
      { name := "main", kind := .lookahead
        handlers := [⟨.char 'a', .sequence [.enqueue (.symbol "A"),
          .send "set_mode" [.text "later"]]⟩] },
      { name := "other", kind := .lookahead
        handlers := [⟨.char 'a', .enqueue (.symbol "B")⟩] }] }

def modeOptions : Options := { modeRules := [("later", "other")] }

def modeLexer : Lexer :=
  { engine := .new modeOptions.engineConfig
    queue := ⟨[], [], []⟩
    ruleset := modeRules
    options := modeOptions }

/-- The mode that was set outlasts new input, and the same text is read with another rule. -/
theorem mode_outlasts_input :
    ∃ l fresh, new modeRules modeOptions = .ok modeLexer ∧
      setInput "a" (modeLexer.driven [.input "a", .entry 3]) = .ok () l ∧
      setInput "a" modeLexer = .ok () fresh ∧ l = { fresh with modes := { base := "later" } } ∧
      (l.answers 3 1).map (·.toOption.bind Entry.type?) = [some (.symbol "B")] ∧
      (fresh.answers 3 1).map (·.toOption.bind Entry.type?) = [some (.symbol "A")] := by
  have hnew : new modeRules modeOptions = .ok modeLexer := rfl
  have hset := setInput_eq "a" (modeLexer.driven [.input "a", .entry 3])
  rw [if_neg (by decide +kernel)] at hset
  obtain ⟨fresh, hfresh, hl, -⟩ := restart_keeps_base hnew hset
  have hbase : (modeLexer.driven [.input "a", .entry 3]).modes.base = "later" := by
    decide +kernel
  rw [hbase] at hl
  refine ⟨_, fresh, hnew, hset, hfresh, hl, by decide +kernel, ?_⟩
  cases (setInput_eq "a" modeLexer).symm.trans hfresh
  decide +kernel

end TableLexer.Lexer
