import TableLexer.Proofs.EndOfStream

/-!
# Runs of the driver

A run is a sequence of driver steps and deliveries. Its log has the lexers at which steps were
made, in order, and the entries that were delivered. Calls for the next entry that succeed make
up a run, and one that fails breaks a run off in a driver step.
-/
namespace TableLexer.Lexer

def modeRule? (l : Lexer) : Option Rule :=
  (l.options.ruleFor? l.modes.current).bind l.ruleset.rule?

def ruleRun? (n : Nat) (l : Lexer) : Option (EStateM.Result Stop Lexer Reply) :=
  match Engine.scanLayout l.engine with
  | .ok none e => l.modeRule?.map fun r => r.run (respond n) { l with engine := e }.counted
  | _ => none

def raised? (n : Nat) (l : Lexer) : Option LexError :=
  match ruleRun? n l with
  | some (.error (.fault e) _) => some e
  | _ => none

/-- With the allowance `n` for rules, `l` comes to another lexer by steps that were made at the
lexers listed, and by delivering the entries listed. -/
inductive Runs (n : Nat) (l : Lexer) : List Lexer → List Entry → Lexer → Prop where
  | start : Runs n l [] [] l
  | fill {steps entries a b} (h : Runs n l steps entries a) (hq : a.queue.toList = [])
      (hstep : fillStep n a = .ok () b) : Runs n l (steps ++ [a]) entries b
  | deliver {steps entries a entry queue} (h : Runs n l steps entries a)
      (hq : a.queue.dequeue = .ok (entry, queue)) :
      Runs n l steps (entries ++ [entry]) { a with queue }

variable {n : Nat} {l a b : Lexer} {steps steps' : List Lexer} {entries entries' : List Entry}
  {fault : LexError}

theorem Runs.trans (h : Runs n l steps entries a) (k : Runs n a steps' entries' b) :
    Runs n l (steps ++ steps') (entries ++ entries') b := by
  induction k with
  | start => simpa using h
  | fill _ hq hstep ih => simpa using ih.fill hq hstep
  | deliver _ hq ih => simpa using ih.deliver hq

theorem Runs.drives (h : Runs n l steps entries a) : Drives l a := by
  induction h with
  | start => exact .refl
  | fill _ hq hstep ih => exact .fill ih hq hstep
  | deliver _ hq ih => exact .deliver ih hq

theorem Runs.frame (h : Runs n l steps entries a) (hops : l.operations = []) : SameFrame l a :=
  h.drives.frame hops

theorem fillStep_scannable (h : fillStep n l = .ok () b) : l.engine.Scannable := by
  by_cases hs : l.engine.Scannable
  · exact hs
  · obtain ⟨fault, -, hf⟩ := fillStep_refuses n hs
    simp [hf] at h

/-- In the body of a line a driver step settles the rule of the mode, unless the rule raised an
error that is not lexical. -/
theorem fillStep_rule {e : Engine} {r : Rule} (hlay : Engine.scanLayout l.engine = .ok none e)
    (hr : l.modeRule? = some r) :
    ∃ name, fillStep n l = match r.run (respond n) { l with engine := e }.counted with
      | .ok _ l' => settle name e.toMark false l'
      | .error (.fault e') l' =>
        if e'.kind = .lexical then settle name e.toMark true (l'.errorQueued e')
        else .error (.fault e') l'
      | .error .exhausted l' => .error .exhausted l' := by
  obtain ⟨name, hname, hrule⟩ := Option.bind_eq_some_iff.mp hr
  refine ⟨name, ?_⟩
  rw [fillStep_eq n hlay, afterLayout, applyModeRule_eq]
  simp only [hname, hrule, capturing_eq]
  cases r.run (respond n) { l with engine := e }.counted with
  | ok reply l' => rfl
  | error stop l' =>
    cases stop with
    | exhausted => rfl
    | fault fault => by_cases hk : fault.kind = .lexical <;> simp [hk]

theorem ruleRun?_eq_some {r : EStateM.Result Stop Lexer Reply} (h : ruleRun? n l = some r) :
    ∃ e rule, Engine.scanLayout l.engine = .ok none e ∧ l.modeRule? = some rule ∧
      rule.run (respond n) { l with engine := e }.counted = r := by
  unfold ruleRun? at h
  split at h
  · next e hlay =>
    obtain ⟨rule, hr, hrun⟩ := Option.map_eq_some_iff.mp h
    exact ⟨e, rule, hlay, hr, hrun⟩
  · cases h

theorem ruleRun?_scannable {r : EStateM.Result Stop Lexer Reply} (h : ruleRun? n l = some r) :
    l.engine.Scannable := by
  obtain ⟨e, rule, hlay, -, -⟩ := ruleRun?_eq_some h
  exact (Engine.scanLayout_eq_ok_iff.mp hlay).1

theorem fillStep_of_fault (h : ruleRun? n l = some (.error (.fault fault) b))
    (hk : fault.kind ≠ .lexical) : fillStep n l = .error (.fault fault) b := by
  obtain ⟨e, rule, hlay, hr, hrun⟩ := ruleRun?_eq_some h
  obtain ⟨name, hstep⟩ := fillStep_rule (n := n) hlay hr
  simpa [hrun, hk] using hstep

/-- Where a call for the next entry breaks off: a driver step with an empty queue ends in `r`. -/
def BreaksAt (n : Nat) (l : Lexer) (r : EStateM.Result Stop Lexer Unit) : Prop :=
  ∃ steps a, Runs n l steps [] a ∧ a.queue.toList = [] ∧ fillStep n a = r

theorem fillQueue_runs {rounds : Nat} (h : fillQueue n rounds l = .ok () a) :
    ∃ steps, Runs n l steps [] a ∧ a.queue.toList ≠ [] := by
  induction rounds generalizing l with
  | zero => cases h
  | succ rounds ih =>
    by_cases hq : l.queue.toList = []
    · rw [fillQueue_empty hq] at h
      cases hstep : fillStep n l with
      | error stop b => simp [hstep] at h
      | ok _ b =>
        rw [hstep] at h
        obtain ⟨steps, hrun, hne⟩ := ih h
        exact ⟨_, (Runs.start.fill hq hstep).trans hrun, hne⟩
    · rw [fillQueue_full hq n (by omega)] at h
      cases h
      exact ⟨[], .start, hq⟩

theorem fillQueue_breaks {rounds : Nat} (h : fillQueue n rounds l = .error (.fault fault) a) :
    BreaksAt n l (.error (.fault fault) a) := by
  induction rounds generalizing l with
  | zero => cases h
  | succ rounds ih =>
    by_cases hq : l.queue.toList = []
    · rw [fillQueue_empty hq] at h
      cases hstep : fillStep n l with
      | error stop b =>
        simp only [hstep] at h
        exact ⟨[], l, .start, hq, hstep.trans h⟩
      | ok _ b =>
        rw [hstep] at h
        obtain ⟨steps, c, hrun, hc⟩ := ih h
        exact ⟨_, c, (Runs.start.fill hq hstep).trans hrun, hc⟩
    · rw [fillQueue_full hq n (by omega)] at h
      cases h

/-- A call that delivers has filled an empty queue, if it was empty. -/
theorem nextToken_runs {entry : Entry} (h : nextToken n l = .ok entry a) :
    ∃ steps, Runs n l steps [entry] a := by
  have delivered : ∀ {steps b}, Runs n l steps [] b → onQueue QueueM.dequeue b = .ok entry a →
      ∃ steps, Runs n l steps [entry] a := by
    intro steps b hrun hd
    rw [onQueue_dequeue] at hd
    cases hq : b.queue.dequeue with
    | error fault => simp [hq] at hd
    | ok r =>
      simp only [hq, EStateM.Result.ok.injEq] at hd
      obtain ⟨rfl, rfl⟩ := hd
      exact ⟨steps, hrun.deliver hq⟩
  rcases nextToken_cases n l with ⟨-, -, hnext⟩ | ⟨-, hnext | ⟨stop, hnext⟩⟩
  · rw [hnext] at h
    cases hfill : fillQueue n n l with
    | error stop b => simp [hfill] at h
    | ok _ b =>
      rw [hfill] at h
      obtain ⟨steps, hrun, -⟩ := fillQueue_runs hfill
      exact delivered hrun h
  · exact delivered .start (hnext ▸ h)
  · simp [hnext] at h

/-- A call that fails is refused without an effect, or breaks off in a step of the driver. -/
theorem nextToken_breaks (h : nextToken n l = .error (.fault fault) a) :
    (l.engine.recognition ≠ .ready ∧ l.engine.recognition ≠ .recognized ∧ a = l) ∨
      BreaksAt n l (.error (.fault fault) a) := by
  have undelivered : ∀ {b : Lexer}, b.queue.toList ≠ [] →
      onQueue QueueM.dequeue b ≠ .error (.fault fault) a := by
    intro b hne hd
    obtain ⟨entry, rest, hq⟩ := List.exists_cons_of_ne_nil hne
    obtain ⟨q, hdeq, -⟩ := Queue.dequeue_of_toList hq
    simp [onQueue_dequeue, hdeq] at hd
  simp only [nextToken, Program.bind_apply, Program.get_apply] at h
  split at h
  · next hw =>
    cases h
    exact .inl (by simp [hw])
  split at h
  · split at h
    · rw [Program.bind_apply] at h
      cases hfill : fillQueue n n l with
      | error stop b =>
        simp only [hfill] at h
        cases h
        exact .inr (fillQueue_breaks hfill)
      | ok _ b =>
        rw [hfill] at h
        obtain ⟨-, -, hne⟩ := fillQueue_runs hfill
        exact absurd h (undelivered hne)
    · next hr =>
      cases h
      exact .inl ⟨fun hx => hr (.inl hx), fun hx => hr (.inr hx), rfl⟩
  · next hq =>
    refine absurd h (undelivered ?_)
    rwa [ne_eq, ← Queue.isEmpty_iff]

theorem delivered_of_all {p : Entry → Bool} {given : List (Except Stop Entry)}
    (h : given.all (fun a => a.toOption.any p) = true) :
    ∃ entries : List Entry, given = entries.map .ok ∧ ∀ e ∈ entries, p e = true := by
  induction given with
  | nil => exact ⟨[], rfl, by simp⟩
  | cons a given ih =>
    rw [List.all_cons, Bool.and_eq_true] at h
    obtain ⟨entries, rfl, hp⟩ := ih h.2
    cases a with
    | error stop => simp [Except.toOption] at h
    | ok e => exact ⟨e :: entries, rfl, List.forall_mem_cons.mpr ⟨h.1, hp⟩⟩

/-- Calls that deliver entries make up a run that delivers them. -/
theorem calls_run {k : Nat} (h : answers n k l = entries.map .ok) :
    ∃ steps, Runs n l steps entries (afterCalls n k l) := by
  induction k generalizing l entries with
  | zero =>
    have hnil : entries = [] := by simpa [answers] using h
    exact ⟨[], hnil ▸ .start⟩
  | succ k ih =>
    cases entries with
    | nil => simp [answers] at h
    | cons entry rest =>
      rw [answers, List.map_cons, List.cons.injEq] at h
      rw [afterCalls]
      cases hcall : nextToken n l with
      | error stop b => simp [hcall, answer] at h
      | ok e b =>
        simp only [hcall, answer, Program.final_ok, Except.ok.injEq] at h
        obtain ⟨rfl, hrest⟩ := h
        obtain ⟨steps, hrun⟩ := nextToken_runs hcall
        obtain ⟨steps', hrun'⟩ := ih hrest
        exact ⟨_, hrun.trans hrun'⟩

end TableLexer.Lexer
