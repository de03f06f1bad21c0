import TableLexer.Lexer.Basic

/-!
# Running programs

A program over a queue, an engine or a lexer is a function of the state it starts in. The equations
below run it one operation at a time, so that later proofs never look into the monad.

For a queue this says what joins it. Tokens may be refused, dropped or changed on their way; the end
of the stream and errors join as they are. A refusal is an internal error and leaves the queue as it
was, so that a queue can be seen as what its programs give and leave.
-/
namespace TableLexer.Program

variable {ε σ α β : Type}

@[simp] theorem pure_apply (a : α) (s : σ) : (pure a : EStateM ε σ α) s = .ok a s := rfl

@[simp] theorem bind_apply (m : EStateM ε σ α) (f : α → EStateM ε σ β) (s : σ) :
    (m >>= f) s = match m s with
      | .ok a s => f a s
      | .error e s => .error e s := rfl

@[simp] theorem map_apply (f : α → β) (m : EStateM ε σ α) (s : σ) :
    (f <$> m) s = match m s with
      | .ok a s => .ok (f a) s
      | .error e s => .error e s := rfl

@[simp] theorem get_apply (s : σ) : (get : EStateM ε σ σ) s = .ok s s := rfl

@[simp] theorem set_apply (s t : σ) : (set t : EStateM ε σ PUnit) s = .ok ⟨⟩ t := rfl

@[simp] theorem modify_apply (f : σ → σ) (s : σ) :
    (modify f : EStateM ε σ PUnit) s = .ok ⟨⟩ (f s) := rfl

@[simp] theorem throw_apply (e : ε) (s : σ) : (throw e : EStateM ε σ α) s = .error e s := rfl

@[simp] theorem liftExcept_apply (x : Except ε α) (s : σ) :
    (liftExcept x : EStateM ε σ α) s = match x with
      | .ok a => .ok a s
      | .error e => .error e s := by
  cases x <;> rfl

def final : EStateM.Result ε σ α → σ
  | .ok _ s => s
  | .error _ s => s

@[simp] theorem final_ok (a : α) (s : σ) : final (.ok a s : EStateM.Result ε σ α) = s := rfl

@[simp] theorem final_error (e : ε) (s : σ) : final (.error e s : EStateM.Result ε σ α) = s := rfl

def value? : EStateM.Result ε σ α → Option α
  | .ok a _ => some a
  | .error _ _ => none

theorem eq_ok_of_value? {r : EStateM.Result ε σ α} {a : α} (h : value? r = some a) :
    r = .ok a (final r) := by
  cases r with
  | ok b s => rw [Option.some.inj h, final_ok]
  | error => cases h

/-- Every run of the program relates the state it starts in to the state it ends in. -/
def Relates (R : σ → σ → Prop) (m : EStateM ε σ α) : Prop := ∀ s, R s (final (m s))

theorem Relates.bind {R : σ → σ → Prop} (ht : ∀ a b c, R a b → R b c → R a c)
    {m : EStateM ε σ α} {f : α → EStateM ε σ β} (hm : Relates R m)
    (hf : ∀ a, Relates R (f a)) : Relates R (m >>= f) := by
  intro s
  have h := hm s
  rw [bind_apply]
  cases hr : m s with
  | ok a s' =>
    rw [hr] at h
    exact ht _ _ _ h (hf a s')
  | error e s' =>
    rw [hr] at h
    exact h

end TableLexer.Program

namespace TableLexer

def Entry.Plain : Entry → Prop
  | token _ _ => True
  | endOfStream _ => False
  | error e => e.kind = .lexical

namespace QueueM

theorem enqueue_apply (entry : Entry) (q : Queue) :
    enqueue entry q = match q.transformed entry with
      | .ok (some e) => .ok (some e) { q with back := e :: q.back }
      | .ok none => .ok none q
      | .error e => .error e q := by
  simp only [enqueue, Program.bind_apply, Program.get_apply, Program.liftExcept_apply]
  cases q.transformed entry with
  | error e => rfl
  | ok reply => cases reply <;> rfl

theorem pushAhead_apply (entry : Entry) (q : Queue) :
    pushAhead entry q = match q.transformed entry with
      | .ok (some e) => .ok (some e) { q with front := e :: q.front }
      | .ok none => .ok none q
      | .error e => .error e q := by
  simp only [pushAhead, Program.bind_apply, Program.get_apply, Program.liftExcept_apply]
  cases q.transformed entry with
  | error e => rfl
  | ok reply => cases reply <;> rfl

theorem dequeue_apply (q : Queue) :
    dequeue q = match q.front with
      | e :: front => .ok e { q with front }
      | [] => match q.back.reverse with
        | e :: front => .ok e { q with front, back := [] }
        | [] => .error (.plain .emptyQueue) q := by
  simp only [dequeue, Program.bind_apply, Program.get_apply]
  cases q.front with
  | cons => rfl
  | nil =>
    dsimp only
    cases q.back.reverse <;> rfl

theorem on_eq_ok {α : Type} {m : QueueM α} {q r : Queue} {a : α} (h : m q = .ok a r) :
    m.on q = .ok (a, r) := by
  rw [on, h]

theorem on_eq_error {α : Type} {m : QueueM α} {q r : Queue} {fault : LexError}
    (h : m q = .error fault r) : m.on q = .error fault := by
  rw [on, h]

/-- A run that fails leaves the queue as it was. -/
def Clean {α : Type} (m : QueueM α) : Prop :=
  ∀ ⦃q r : Queue⦄ ⦃fault : LexError⦄, m q = .error fault r → r = q

theorem enqueue_clean (entry : Entry) : Clean (enqueue entry) := by
  intro q r fault h
  rw [enqueue_apply] at h
  split at h <;> cases h
  rfl

theorem pushAhead_clean (entry : Entry) : Clean (pushAhead entry) := by
  intro q r fault h
  rw [pushAhead_apply] at h
  split at h <;> cases h
  rfl

theorem dequeue_clean : Clean dequeue := by
  intro q r fault h
  rw [dequeue_apply] at h
  split at h
  · cases h
  · split at h <;> cases h
    rfl

end QueueM

namespace Queue

theorem transformed_token (q : Queue) (type : TokenType) (token : Token) :
    q.transformed (.token type token) =
      if type.isBlankSymbol then .error (.located .blankEntry token.position)
      else match transform? q.transforms type with
        | none => .ok (some (.token type token))
        | some t => match t.apply token with
          | none => .ok none
          | some (type', token') =>
            if type'.isBlankSymbol then .error (.located .blankEntry token'.position)
            else .ok (some (.token type' token')) := by
  simp only [transformed, checkEntry, bind, Except.bind, pure, Except.pure]
  by_cases hb : type.isBlankSymbol = true
  · simp only [hb, ↓reduceIte]
  · simp only [hb, Bool.false_eq_true, ↓reduceIte]
    cases transform? q.transforms type with
    | none => rfl
    | some t =>
      cases ht : t.apply token with
      | none => simp [ht]
      | some r =>
        by_cases hr : r.1.isBlankSymbol = true <;> simp [ht, hr]

theorem transformed_fails {q : Queue} {entry : Entry} {e : LexError}
    (h : q.transformed entry = .error e) : e.kind = .internal := by
  cases entry with
  | endOfStream | error => cases h
  | token type token =>
    rw [transformed_token] at h
    split at h
    · cases h
      rfl
    · split at h
      · cases h
      · split at h
        · cases h
        · split at h <;> cases h
          rfl

/-- A token stays a token, and all else stays as it is. -/
theorem transformed_plain {q : Queue} {entry e : Entry}
    (h : q.transformed entry = .ok (some e)) (hp : entry.Plain) : e.Plain := by
  cases entry with
  | endOfStream => exact hp.elim
  | error err =>
    cases h
    exact hp
  | token type token =>
    rw [transformed_token] at h
    split at h
    · cases h
    · split at h
      · cases h
        trivial
      · split at h
        · cases h
        · split at h <;> cases h
          trivial

theorem enqueue_eq (q : Queue) (entry : Entry) :
    q.enqueue entry = match q.transformed entry with
      | .ok (some e) => .ok (some e, { q with back := e :: q.back })
      | .ok none => .ok (none, q)
      | .error e => .error e := by
  rw [enqueue, QueueM.on, QueueM.enqueue_apply]
  cases q.transformed entry with
  | error e => rfl
  | ok reply => cases reply <;> rfl

theorem pushAhead_eq (q : Queue) (entry : Entry) :
    q.pushAhead entry = match q.transformed entry with
      | .ok (some e) => .ok (some e, { q with front := e :: q.front })
      | .ok none => .ok (none, q)
      | .error e => .error e := by
  rw [pushAhead, QueueM.on, QueueM.pushAhead_apply]
  cases q.transformed entry with
  | error e => rfl
  | ok reply => cases reply <;> rfl

theorem dequeue_eq (q : Queue) :
    q.dequeue = match q.front with
      | e :: front => .ok (e, { q with front })
      | [] => match q.back.reverse with
        | e :: front => .ok (e, { q with front, back := [] })
        | [] => .error (.plain .emptyQueue) := by
  rw [dequeue, QueueM.on, QueueM.dequeue_apply]
  cases q.front with
  | cons => rfl
  | nil => cases q.back.reverse <;> rfl

/-- An entry that is not dropped joins at the end. -/
theorem enqueue_eq_ok {q r : Queue} {entry : Entry} {reply : Option Entry}
    (h : q.enqueue entry = .ok (reply, r)) :
    q.transformed entry = .ok reply ∧ r.toList = q.toList ++ reply.toList ∧
      r.transforms = q.transforms := by
  rw [enqueue_eq] at h
  cases ht : q.transformed entry with
  | error e => simp [ht] at h
  | ok t =>
    cases t <;> simp [ht] at h <;>
      obtain ⟨rfl, rfl⟩ := h <;> simp [toList]

theorem pushAhead_eq_ok {q r : Queue} {entry : Entry} {reply : Option Entry}
    (h : q.pushAhead entry = .ok (reply, r)) :
    q.transformed entry = .ok reply ∧ r.toList = reply.toList ++ q.toList ∧
      r.transforms = q.transforms := by
  rw [pushAhead_eq] at h
  cases ht : q.transformed entry with
  | error e => simp [ht] at h
  | ok t =>
    cases t <;> simp [ht] at h <;>
      obtain ⟨rfl, rfl⟩ := h <;> simp [toList]

theorem dequeue_eq_ok {q r : Queue} {entry : Entry} (h : q.dequeue = .ok (entry, r)) :
    q.toList = entry :: r.toList ∧ r.transforms = q.transforms := by
  rw [dequeue_eq] at h
  cases hf : q.front with
  | cons e front =>
    simp only [hf, Except.ok.injEq, Prod.mk.injEq] at h
    obtain ⟨rfl, rfl⟩ := h
    simp [toList, hf]
  | nil =>
    cases hb : q.back.reverse with
    | nil => simp [hf, hb] at h
    | cons e front =>
      simp only [hf, hb, Except.ok.injEq, Prod.mk.injEq] at h
      obtain ⟨rfl, rfl⟩ := h
      simp [toList, hf, hb]

theorem enqueue_eq_error {q : Queue} {entry : Entry} {e : LexError}
    (h : q.enqueue entry = .error e) : q.transformed entry = .error e := by
  rw [enqueue_eq] at h
  split at h
  · cases h
  · cases h
  · next ht =>
    cases h
    exact ht

theorem pushAhead_eq_error {q : Queue} {entry : Entry} {e : LexError}
    (h : q.pushAhead entry = .error e) : q.transformed entry = .error e := by
  rw [pushAhead_eq] at h
  split at h
  · cases h
  · cases h
  · next ht =>
    cases h
    exact ht

theorem enqueue_fails {q : Queue} {entry : Entry} {e : LexError}
    (h : q.enqueue entry = .error e) : e.kind = .internal :=
  transformed_fails (enqueue_eq_error h)

theorem pushAhead_fails {q : Queue} {entry : Entry} {e : LexError}
    (h : q.pushAhead entry = .error e) : e.kind = .internal :=
  transformed_fails (pushAhead_eq_error h)

theorem dequeue_eq_error {q : Queue} {fault : LexError} (h : q.dequeue = .error fault) :
    q.toList = [] ∧ fault = .plain .emptyQueue := by
  rw [dequeue_eq] at h
  cases hf : q.front with
  | cons e front => simp [hf] at h
  | nil =>
    cases hb : q.back.reverse with
    | cons e front => simp [hf, hb] at h
    | nil =>
      simp only [hf, hb, Except.error.injEq] at h
      exact ⟨by simp [toList, hf, hb], h.symm⟩

theorem enqueue_transforms {q : Queue} {entry : Entry} {reply : Option Entry × Queue}
    (h : q.enqueue entry = .ok reply) : reply.2.transforms = q.transforms :=
  (enqueue_eq_ok h).2.2

theorem pushAhead_transforms {q : Queue} {entry : Entry} {reply : Option Entry × Queue}
    (h : q.pushAhead entry = .ok reply) : reply.2.transforms = q.transforms :=
  (pushAhead_eq_ok h).2.2

theorem mapLast_transforms (q : Queue) (f : Entry → Entry) :
    (q.mapLast f).transforms = q.transforms := by
  unfold mapLast
  split
  · rfl
  · split <;> rfl

def AllPlain (q : Queue) : Prop := ∀ e ∈ q.toList, e.Plain

theorem AllPlain.enqueue {q r : Queue} {entry : Entry} {reply : Option Entry} (hq : q.AllPlain)
    (hp : entry.Plain) (h : q.enqueue entry = .ok (reply, r)) : r.AllPlain := by
  obtain ⟨ht, hl, -⟩ := enqueue_eq_ok h
  intro e he
  rw [hl, List.mem_append, Option.mem_toList] at he
  rcases he with he | he
  · exact hq e he
  · exact transformed_plain (he ▸ ht) hp

theorem AllPlain.pushAhead {q r : Queue} {entry : Entry} {reply : Option Entry}
    (hq : q.AllPlain) (hp : entry.Plain) (h : q.pushAhead entry = .ok (reply, r)) :
    r.AllPlain := by
  obtain ⟨ht, hl, -⟩ := pushAhead_eq_ok h
  intro e he
  rw [hl, List.mem_append, Option.mem_toList] at he
  rcases he with he | he
  · exact transformed_plain (he ▸ ht) hp
  · exact hq e he

theorem AllPlain.dequeue {q r : Queue} {entry : Entry} (hq : q.AllPlain)
    (h : q.dequeue = .ok (entry, r)) : entry.Plain ∧ r.AllPlain := by
  have hl := (dequeue_eq_ok h).1
  constructor
  · exact hq entry (by simp [hl])
  · intro e he
    exact hq e (by simp [hl, he])

theorem AllPlain.mapLast {q : Queue} (hq : q.AllPlain) {f : Entry → Entry}
    (hf : ∀ e, e.Plain → (f e).Plain) : (q.mapLast f).AllPlain := by
  intro e he
  rw [toList_mapLast, List.mem_append, last?_eq] at he
  rcases he with he | he
  · exact hq e (List.dropLast_subset _ he)
  · simp only [Option.toList_map, List.mem_map, Option.mem_toList] at he
    obtain ⟨last, hlast, rfl⟩ := he
    exact hf last (hq last (List.mem_of_getLast? hlast))

end Queue

theorem Entry.Plain.retypeFrom (old new : TokenType) {e : Entry} (h : e.Plain) :
    (Entry.retypeFrom old new e).Plain := by
  cases e with
  | token => trivial
  | endOfStream | error => exact h

namespace Lexer

/-- A program that fails cleanly does to the lexer what it gives on the queue. -/
theorem onQueue_of_clean {α : Type} {m : QueueM α} (hm : m.Clean) (l : Lexer) :
    onQueue m l = match m.on l.queue with
      | .ok (a, queue) => .ok a { l with queue }
      | .error e => .error (.fault e) l := by
  unfold onQueue QueueM.on
  cases hr : m l.queue with
  | ok => rfl
  | error e r =>
    obtain rfl := hm hr
    rfl

theorem onQueue_enqueue (entry : Entry) (l : Lexer) :
    onQueue (QueueM.enqueue entry) l = match l.queue.enqueue entry with
      | .ok (reply, queue) => .ok reply { l with queue }
      | .error e => .error (.fault e) l := by
  rw [onQueue_of_clean (QueueM.enqueue_clean entry), Queue.enqueue]
  cases (QueueM.enqueue entry).on l.queue <;> rfl

theorem onQueue_pushAhead (entry : Entry) (l : Lexer) :
    onQueue (QueueM.pushAhead entry) l = match l.queue.pushAhead entry with
      | .ok (reply, queue) => .ok reply { l with queue }
      | .error e => .error (.fault e) l := by
  rw [onQueue_of_clean (QueueM.pushAhead_clean entry), Queue.pushAhead]
  cases (QueueM.pushAhead entry).on l.queue <;> rfl

theorem onQueue_dequeue (l : Lexer) :
    onQueue QueueM.dequeue l = match l.queue.dequeue with
      | .ok (entry, queue) => .ok entry { l with queue }
      | .error e => .error (.fault e) l := by
  rw [onQueue_of_clean QueueM.dequeue_clean, Queue.dequeue]
  cases QueueM.dequeue.on l.queue <;> rfl

end Lexer

end TableLexer
