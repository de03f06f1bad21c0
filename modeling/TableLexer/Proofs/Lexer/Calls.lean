import TableLexer.Proofs.Lexer.Driver

/-!
# Calls for the next entry

A run of a lexer is a number of calls for the next entry, one after the other. A call delivers
what is queued; only with an empty queue does the driver get to work.
-/
namespace TableLexer

theorem Queue.dequeue_of_toList {q : Queue} {entry : Entry} {rest : List Entry}
    (h : q.toList = entry :: rest) : ∃ r, q.dequeue = .ok (entry, r) ∧ r.toList = rest := by
  cases hd : q.dequeue with
  | ok r =>
    obtain ⟨e, r⟩ := r
    have hl := (dequeue_eq_ok hd).1
    rw [h, List.cons.injEq] at hl
    exact ⟨r, by rw [hl.1], hl.2.symm⟩
  | error fault =>
    have hempty := (dequeue_eq_error hd).1
    simp [h] at hempty

namespace Lexer

def restarted (text : String) (l : Lexer) : Lexer :=
  { l with
    engine := { l.engine with toScan := .initial .ready, input := text.toList, snapshots := [] }
    queue := l.queue.clear
    modes := { l.modes with pushed := [] }
    stats := {}
    finished := false }

theorem setInput_eq (text : String) (l : Lexer) :
    setInput text l =
      if l.engine.recognition = .tokenizing then .error (.fault (.plain .inputDuringToken)) l
      else .ok () (l.restarted text) := by
  cases h : l.engine.recognition <;>
    simp [setInput, onEngine, Engine.setInput, h, Engine.fireRecognition, RecognitionState.on,
      Engine.enterRecognition, Engine.reset, restarted]

def answer : EStateM.Result Stop Lexer Entry → Except Stop Entry
  | .ok entry _ => .ok entry
  | .error stop _ => .error stop

def afterCalls (n : Nat) : (k : Nat) → Lexer → Lexer
  | 0, l => l
  | k + 1, l => afterCalls n k (Program.final (nextToken n l))

/-- The answers to `k` calls for the next entry. -/
def answers (n : Nat) : (k : Nat) → Lexer → List (Except Stop Entry)
  | 0, _ => []
  | k + 1, l => answer (nextToken n l) :: answers n k (Program.final (nextToken n l))

theorem fillQueue_full {l : Lexer} (hq : l.queue.toList ≠ []) (n : Nat) {rounds : Nat}
    (hr : 1 ≤ rounds) : fillQueue n rounds l = .ok () l := by
  obtain ⟨k, rfl⟩ : ∃ k, rounds = k + 1 := ⟨rounds - 1, by omega⟩
  have he : l.queue.isEmpty = false := by
    rw [Bool.eq_false_iff, ne_eq, Queue.isEmpty_iff]
    exact hq
  simp [fillQueue, he]

theorem fillQueue_empty {l : Lexer} (hq : l.queue.toList = []) (n rounds : Nat) :
    fillQueue n (rounds + 1) l = match fillStep n l with
      | .ok _ l' => fillQueue n rounds l'
      | .error stop l' => .error stop l' := by
  simp only [fillQueue, Program.bind_apply, Program.get_apply,
    (Queue.isEmpty_iff l.queue).mpr hq, ↓reduceIte]
  cases fillStep n l <;> rfl

theorem nextToken_queued {l : Lexer} {entry : Entry} {rest : List Entry}
    (hr : l.engine.recognition ≠ .waitingForInput) (hq : l.queue.toList = entry :: rest) :
    ∃ q, l.queue.dequeue = .ok (entry, q) ∧ q.toList = rest ∧
      ∀ n, nextToken n l = .ok entry { l with queue := q } := by
  obtain ⟨q, hd, hrest⟩ := Queue.dequeue_of_toList hq
  have he : l.queue.isEmpty = false := by
    rw [Bool.eq_false_iff, ne_eq, Queue.isEmpty_iff, hq]
    simp
  refine ⟨q, hd, hrest, ?_⟩
  intro n
  simp [nextToken, hr, he, onQueue_dequeue, hd]

theorem nextToken_fills {l : Lexer} (hq : l.queue.toList = [])
    (hr : l.engine.recognition = .ready ∨ l.engine.recognition = .recognized) (n : Nat) :
    nextToken n l = match fillQueue n n l with
      | .ok _ l' => onQueue QueueM.dequeue l'
      | .error stop l' => .error stop l' := by
  have he : l.queue.isEmpty = true := (Queue.isEmpty_iff _).mpr hq
  have hw : l.engine.recognition ≠ .waitingForInput := by
    rcases hr with h | h <;> simp [h]
  simp only [nextToken, Program.bind_apply, Program.get_apply, hw, ↓reduceIte, he, hr]
  cases fillQueue n n l <;> rfl

/-- A call is left to the driver only with an empty queue and between tokens. Otherwise it takes
what is first in the queue, or is refused and changes nothing. -/
theorem nextToken_cases (n : Nat) (l : Lexer) :
    (l.queue.isEmpty = true ∧
        (l.engine.recognition = .ready ∨ l.engine.recognition = .recognized) ∧
        nextToken n l = match fillQueue n n l with
          | .ok _ l' => onQueue QueueM.dequeue l'
          | .error stop l' => .error stop l') ∨
      ¬ (l.queue.isEmpty = true ∧
          (l.engine.recognition = .ready ∨ l.engine.recognition = .recognized)) ∧
        (nextToken n l = onQueue QueueM.dequeue l ∨ ∃ stop, nextToken n l = .error stop l) := by
  by_cases hw : l.engine.recognition = .waitingForInput
  · exact .inr ⟨by simp [hw], .inr ⟨.fault (.plain .noInput), by simp [nextToken, hw, fail]⟩⟩
  cases he : l.queue.isEmpty with
  | false => exact .inr ⟨by simp, .inl (by simp [nextToken, hw, he])⟩
  | true =>
    by_cases hr : l.engine.recognition = .ready ∨ l.engine.recognition = .recognized
    · exact .inl ⟨rfl, hr, nextToken_fills ((Queue.isEmpty_iff _).mp he) hr n⟩
    · exact .inr ⟨by simp [hr], .inr ⟨.fault (.plain (.notScanning l.engine.recognition)),
        by simp [nextToken, hw, he, hr, fail]⟩⟩

/-- After the end of the stream, calls are refused and change nothing. -/
theorem nextToken_refuses {l : Lexer} (hq : l.queue.toList = [])
    (hr : l.engine.recognition = .done ∨ l.engine.recognition = .aborted) (n : Nat) :
    nextToken n l = .error (.fault (.plain (.notScanning l.engine.recognition))) l := by
  have he : l.queue.isEmpty = true := (Queue.isEmpty_iff _).mpr hq
  rcases hr with h | h <;> simp [nextToken, h, he, fail]

/-- What the steps of the driver keep, filling the queue keeps. -/
theorem fillQueue_keeps {I : Lexer → Prop} {n : Nat}
    (hstep : ∀ l, I l → I (Program.final (fillStep n l))) (rounds : Nat) {l : Lexer} (h : I l) :
    I (Program.final (fillQueue n rounds l)) := by
  induction rounds generalizing l with
  | zero => exact h
  | succ rounds ih =>
    by_cases hq : l.queue.toList = []
    · have hkept := hstep l h
      rw [fillQueue_empty hq]
      cases hf : fillStep n l with
      | error stop l' =>
        rw [hf] at hkept
        exact hkept
      | ok _ l' =>
        rw [hf] at hkept
        exact ih hkept
    · rw [fillQueue_full hq n (Nat.succ_pos rounds)]
      exact h

/-- What the steps of the driver keep and taking an entry off the queue does not disturb, a call
keeps. -/
theorem nextToken_keeps {I : Lexer → Prop} {n : Nat}
    (hstep : ∀ l, I l → I (Program.final (fillStep n l)))
    (hqueue : ∀ l entry q, I l → l.queue.dequeue = .ok (entry, q) → I { l with queue := q })
    {l : Lexer} (h : I l) : I (Program.final (nextToken n l)) := by
  have hdequeue : ∀ l, I l → I (Program.final (onQueue QueueM.dequeue l)) := by
    intro l hl
    rw [onQueue_dequeue]
    cases hd : l.queue.dequeue with
    | error fault => exact hl
    | ok r => exact hqueue l r.1 r.2 hl hd
  rcases nextToken_cases n l with ⟨-, -, hnext⟩ | ⟨-, hnext | ⟨stop, hnext⟩⟩
  · have hfill := fillQueue_keeps hstep n h
    rw [hnext]
    cases hf : fillQueue n n l with
    | error stop l' =>
      rw [hf] at hfill
      exact hfill
    | ok _ l' =>
      rw [hf] at hfill
      exact hdequeue l' hfill
  · rw [hnext]
    exact hdequeue l h
  · rw [hnext]
    exact h

def delivering (entry : Entry) : EStateM.Result Stop Lexer (List Entry) →
    EStateM.Result Stop Lexer (List Entry)
  | .ok rest l => .ok (entry :: rest) l
  | .error s l => .error s l

theorem drain_succ (n rounds : Nat) (l : Lexer) :
    drain n (rounds + 1) l = match next? n l with
      | .ok none l' => .ok [] l'
      | .ok (some entry) l' => delivering entry (drain n rounds l')
      | .error s l' => .error s l' := by
  rw [drain, Program.bind_apply]
  cases next? n l with
  | error s l' => rfl
  | ok found l' =>
    cases found with
    | none => rfl
    | some entry =>
      dsimp only
      rw [Program.bind_apply]
      cases drain n rounds l' <;> rfl

theorem next?_finished {l : Lexer} (h : l.finished = true) (n : Nat) : next? n l = .ok none l := by
  rw [next?, if_pos h]

theorem drain_cons {n rounds : Nat} {l l' l'' : Lexer} {entry : Entry} {rest : List Entry}
    (h : next? n l = .ok (some entry) l') (hrest : drain n rounds l' = .ok rest l'') :
    drain n (rounds + 1) l = .ok (entry :: rest) l'' := by
  simp [drain, h, hrest]

theorem drain_done {n : Nat} {l l' : Lexer} (h : next? n l = .ok none l') (rounds : Nat) :
    drain n (rounds + 1) l = .ok [] l' := by
  simp [drain, h]

end Lexer
end TableLexer
