import TableLexer.Proofs.EndOfStream
import TableLexer.Proofs.Rulesets

/-!
# What a text is tokenized to

In a mode whose rule keeps to itself a lexer delivers its whole stream within some allowance, and a
larger one changes nothing. So the texts of such a lexer are tokenized to something that does not
depend on the allowance.
-/
namespace TableLexer

namespace Lexer

variable {n : Nat} {l : Lexer}

structure Going (l : Lexer) : Prop where
  operations : l.operations = []
  contained : l.InContained
  finished : l.finished = false

theorem Going.fillStep (h : l.Going) (n : Nat) : (Program.final (fillStep n l)).Going := by
  have hframe := fillStep_frame n h.operations
  have hcourse := fillStep_course h.operations h.contained n
  exact ⟨hframe.operations.trans h.operations, h.contained.of_course hframe hcourse,
    hcourse.finished.trans h.finished⟩

theorem Going.nextToken (h : l.Going) (n : Nat) : (Program.final (nextToken n l)).Going :=
  nextToken_keeps (fun _ h => h.fillStep n)
    (fun _ _ _ h _ => ⟨h.operations, h.contained, h.finished⟩) h

theorem Going.next?_eq (h : l.Going) (n : Nat) :
    next? n l = match Lexer.nextToken n l with
      | .ok entry l' => .ok (some entry) (if entry.isEnd then { l' with finished := true } else l')
      | .error stop l' => .error stop { l' with finished := true } := by
  have hgoing : ¬ l.finished = true := by simp [h.finished]
  exact if_neg hgoing

theorem drain_finished (h : l.finished = true) (n rounds : Nat) :
    drain n (rounds + 1) l = .ok [] l := drain_done (next?_finished h n) rounds

theorem Returned.delivering {r : EStateM.Result Stop Lexer (List Entry)} (h : Returned r)
    (entry : Entry) : Returned (delivering entry r) := by
  cases r with
  | ok rest l' => exact returned_ok _ _
  | error stop l' =>
    rintro l'' he
    cases he
    exact h l' rfl

theorem Going.drain_last {last : Except Stop Entry} (h : l.Going)
    (hlast : (∃ e, last = .error (.fault e)) ∨ ∃ token, last = .ok (.endOfStream token))
    (hcall : answer (Lexer.nextToken n l) = last) (rounds : Nat) :
    Returned (drain n (rounds + 2) l) := by
  rw [drain_succ, h.next?_eq]
  cases hr : Lexer.nextToken n l with
  | error stop l' =>
    rw [hr, answer] at hcall
    rcases hlast with ⟨e, rfl⟩ | ⟨token, rfl⟩ <;> cases hcall
    exact returned_fault _ _
  | ok entry l' =>
    rw [hr, answer] at hcall
    rcases hlast with ⟨e, rfl⟩ | ⟨token, rfl⟩ <;> cases hcall
    simp only [Entry.isEnd, ↓reduceIte]
    rw [drain_finished rfl]
    exact returned_ok _ _

theorem Going.drain_goes_on {e : Entry} (h : l.Going) (hplain : e.Plain)
    (hcall : answer (Lexer.nextToken n l) = .ok e) (rounds : Nat) :
    drain n (rounds + 1) l =
      delivering e (drain n rounds (Program.final (Lexer.nextToken n l))) := by
  rw [drain_succ, h.next?_eq]
  cases hr : Lexer.nextToken n l with
  | error stop l' =>
    rw [hr, answer] at hcall
    cases hcall
  | ok entry l' =>
    rw [hr, answer] at hcall
    cases hcall
    have hmore : e.isEnd = false := by
      cases e with
      | endOfStream => exact hplain.elim
      | token | error => rfl
    simp only [hmore, Bool.false_eq_true, ↓reduceIte, Program.final_ok]

/-- The stream is drained once calls have come to its end, or to a failure. -/
theorem Going.drain_returned {entries : List Entry} {last : Except Stop Entry} (h : l.Going)
    (hplain : ∀ e ∈ entries, e.Plain)
    (hlast : (∃ e, last = .error (.fault e)) ∨ ∃ token, last = .ok (.endOfStream token))
    (hcalls : answers n (entries.length + 1) l = entries.map .ok ++ [last]) (rounds : Nat) :
    Returned (drain n (rounds + entries.length + 2) l) := by
  induction entries generalizing l with
  | nil =>
    rw [List.length_nil, answers, answers, List.map_nil, List.nil_append, List.cons.injEq] at hcalls
    exact h.drain_last hlast hcalls.1 rounds
  | cons e entries ih =>
    rw [List.forall_mem_cons] at hplain
    rw [List.length_cons, answers, List.map_cons, List.cons_append, List.cons.injEq] at hcalls
    rw [List.length_cons, ← Nat.add_assoc, Nat.add_right_comm _ 1 2,
      h.drain_goes_on hplain.1 hcalls.1]
    exact (ih (h.nextToken n) hplain.2 hcalls.2).delivering e

theorem Going.drain_returns (h : l.Going) (hends : l.Ends) : ∃ n, Returned (drain n n l) := by
  obtain ⟨N, entries, hplain,
    ⟨fault, -, hbreaks⟩ | ⟨token, refusal, last, -, -, hfinishes⟩⟩ := hends
  · refine ⟨N + entries.length + 2, h.drain_returned hplain (.inl ⟨fault, rfl⟩) ?_ N⟩
    exact hbreaks _ (by omega)
  · refine ⟨N + entries.length + 2, h.drain_returned hplain (.inr ⟨token, rfl⟩) ?_ N⟩
    exact (hfinishes _ (by omega) 0).1

theorem restarted_drains {text : String} (hops : l.operations = [])
    (h : (l.restarted text).InContained) : ∃ n, Returned (drain n n (l.restarted text)) := by
  have hopen : (l.restarted text).Open := restarted_open hops (.inr h)
  have hreturn : RulesReturn (l.restarted text) := rulesReturn_of_contained hops h
  exact Going.drain_returns ⟨hops, h, rfl⟩ (hopen.ends hreturn)

theorem tokenize_eq (h : l.engine.recognition ≠ .tokenizing) (text : String) (n : Nat) :
    l.tokenize text n =
      match drain n n (l.restarted text) with
      | .ok entries l => .ok ⟨text, entries, l.stats⟩
      | .error stop _ => .error stop := by
  have hset : setInput text l = .ok () (l.restarted text) := by rw [setInput_eq, if_neg h]
  cases hd : drain n n (l.restarted text) <;> simp [tokenize, hset, hd]

end Lexer

variable {ruleset : Ruleset} {text : String} {options : Options}
  {result result' : Except Stop Tokenized}

/-- What the text is tokenized to with every allowance that is large enough. -/
def TokenizedTo (ruleset : Ruleset) (text : String) (options : Options)
    (result : Except Stop Tokenized) : Prop :=
  result ≠ .error .exhausted ∧ ∃ N, ∀ n ≥ N, tokenize ruleset text options n = result

theorem tokenize_of_new {l : Lexer} (hnew : Lexer.new ruleset options = .ok l) (text : String)
    (n : Nat) :
    tokenize ruleset text options n =
      match Lexer.drain n n (l.restarted text) with
      | .ok entries l => .ok ⟨text, entries, l.stats⟩
      | .error stop _ => .error stop := by
  obtain ⟨-, -, -, -, rfl⟩ := Lexer.new_eq_ok_iff.mp hnew
  simp only [tokenize, hnew]
  exact Lexer.tokenize_eq (by simp [Engine.new, Scan.initial]) text n

theorem tokenize_of_rejected {e : LexError} (hnew : Lexer.new ruleset options = .error e)
    (text : String) (n : Nat) : tokenize ruleset text options n = .error (.fault e) := by
  simp only [tokenize, hnew]

/-- One allowance that is large enough tells what the text is tokenized to. -/
theorem TokenizedTo.of_eq {n : Nat} (h : tokenize ruleset text options n = result)
    (hr : result ≠ .error .exhausted) : TokenizedTo ruleset text options result := by
  refine ⟨hr, n, fun n' hn => ?_⟩
  cases hnew : Lexer.new ruleset options with
  | error e => rw [← h, tokenize_of_rejected hnew, tokenize_of_rejected hnew]
  | ok l =>
    rw [tokenize_of_new hnew] at h ⊢
    have hret : Lexer.Returned (Lexer.drain n n (l.restarted text)) := by
      intro l' he
      rw [he] at h
      exact hr h.symm
    rw [Lexer.drain_extends hn hn _ hret, h]

theorem TokenizedTo.unique (h : TokenizedTo ruleset text options result)
    (h' : TokenizedTo ruleset text options result') : result = result' := by
  obtain ⟨-, N, hN⟩ := h
  obtain ⟨-, N', hN'⟩ := h'
  rw [← hN (max N N') (by omega), hN' (max N N') (by omega)]

/-- With a main rule that keeps to itself every text is tokenized, whatever its length. -/
theorem exists_tokenizedTo (h : ∀ r, ruleset.rule? options.mainRule = some r → r.Contained)
    (text : String) : ∃ result, TokenizedTo ruleset text options result := by
  cases hnew : Lexer.new ruleset options with
  | error e => exact ⟨_, .of_eq (tokenize_of_rejected hnew text 0) (by simp)⟩
  | ok l =>
    obtain ⟨-, -, -, -, hl⟩ := Lexer.new_eq_ok_iff.mp hnew
    have hcontained : (l.restarted text).InContained := by
      rw [hl]
      rintro name r hname hrule
      cases hname
      exact h r hrule
    obtain ⟨n, hret⟩ := Lexer.restarted_drains (by rw [hl]) hcontained
    refine ⟨_, .of_eq (tokenize_of_new hnew text n) ?_⟩
    cases hd : Lexer.drain n n (l.restarted text) with
    | ok entries l' => simp
    | error stop l' =>
      rintro ⟨⟩
      exact hret l' hd

end TableLexer
