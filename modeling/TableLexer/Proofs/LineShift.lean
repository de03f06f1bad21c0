import TableLexer.Proofs.Programs
import TableLexer.Lexer.Basic

/-!
# Entries some lines further down

Two streams are compared up to the offsets of their entries, one of them with its lines counted
from further down. A queue whose transforms do not look at positions keeps entries comparable.
-/
namespace TableLexer

def Position.down (k : Nat) (p : Position) : Position := ⟨0, p.line + k, p.column⟩

def Token.down (k : Nat) (t : Token) : Token := { t with position := t.position.down k }

def LexError.down (k : Nat) (e : LexError) : LexError :=
  { e with position := e.position.map (Position.down k) }

def Entry.down (k : Nat) : Entry → Entry
  | .token type t => .token type (t.down k)
  | .endOfStream t => .endOfStream (t.down k)
  | .error e => .error (e.down k)

def Stop.down (k : Nat) : Stop → Stop
  | .fault e => .fault (e.down k)
  | .exhausted => .exhausted

/-- The second position is the first, `k` lines further down and at some offset. -/
def Position.Below (k : Nat) (p p' : Position) : Prop := p'.down 0 = p.down k

def Entry.Below (k : Nat) (e e' : Entry) : Prop := e'.down 0 = e.down k

def LexError.Below (k : Nat) (e e' : LexError) : Prop := e'.down 0 = e.down k

def Stop.Below (k : Nat) (s s' : Stop) : Prop := s'.down 0 = s.down k

variable {k : Nat}

theorem Position.below_iff {p p' : Position} :
    p.Below k p' ↔ p'.line = p.line + k ∧ p'.column = p.column := by
  simp [Below, down]

theorem LexError.below_located {p p' : Position} (h : p.Below k p') (cause : Cause) :
    (LexError.located cause p).Below k (.located cause p') := by
  simp only [Below, down, located, Option.map_some, LexError.mk.injEq, Option.some.injEq,
    true_and]
  exact h

theorem LexError.Below.kind {e e' : LexError} (h : e.Below k e') : e'.kind = e.kind := by
  have hcause := congrArg LexError.cause h
  exact congrArg Cause.kind hcause

theorem Entry.below_token {p p' : Position} (h : p.Below k p') (type : TokenType) (value : Value)
    (lexeme : String) :
    (Entry.token type ⟨value, lexeme, p⟩).Below k (.token type ⟨value, lexeme, p'⟩) := by
  simp only [Below, down, Token.down, Entry.token.injEq, Token.mk.injEq, true_and]
  exact h

theorem Entry.below_endOfStream {p p' : Position} (h : p.Below k p') :
    (Entry.endOfStream (.endOfStream p)).Below k (.endOfStream (.endOfStream p')) := by
  simp only [Below, down, Token.down, Token.endOfStream, Token.ofLexeme, Entry.endOfStream.injEq,
    Token.mk.injEq, true_and]
  exact h

/-- A token that lies below another one differs from it in the position only. -/
theorem Entry.Below.token {type : TokenType} {token : Token} {e' : Entry}
    (h : (Entry.token type token).Below k e') :
    ∃ p', token.position.Below k p' ∧ e' = .token type { token with position := p' } := by
  cases e' with
  | endOfStream | error => cases h
  | token type' token' =>
    simp only [Below, down, Token.down, Entry.token.injEq, Token.mk.injEq] at h
    obtain ⟨rfl, hvalue, hlexeme, hp⟩ := h
    refine ⟨token'.position, hp, ?_⟩
    rw [← hvalue, ← hlexeme]

theorem Entry.Below.isEnd {e e' : Entry} (h : e.Below k e') : e'.isEnd = e.isEnd := by
  cases e <;> cases e' <;> first | rfl | cases h

def Transform.Unplaced (t : Transform) : Prop :=
  ∀ token p, t.apply { token with position := p } =
    (t.apply token).map fun (type, token) => (type, { token with position := p })

namespace Queue

structure Below (k : Nat) (q q' : Queue) : Prop where
  front : q'.front.map (Entry.down 0) = q.front.map (Entry.down k)
  back : q'.back.map (Entry.down 0) = q.back.map (Entry.down k)
  transforms : q'.transforms = q.transforms
  unplaced : ∀ t ∈ q.transforms, t.Unplaced

variable {q q' : Queue} {entry entry' : Entry}

theorem Below.isEmpty (h : q.Below k q') : q'.isEmpty = q.isEmpty := by
  have hf := congrArg List.isEmpty h.front
  have hb := congrArg List.isEmpty h.back
  simp only [List.isEmpty_map] at hf hb
  rw [Queue.isEmpty, Queue.isEmpty, hf, hb]

/-- Entries that correspond meet the same fate, and what becomes of them corresponds. -/
inductive Fates (k : Nat) : Except LexError (Option Entry) → Except LexError (Option Entry) → Prop
    where
  | refused {e e' : LexError} (h : e.Below k e') : Fates k (.error e) (.error e')
  | dropped : Fates k (.ok none) (.ok none)
  | queued {e e' : Entry} (h : e.Below k e') : Fates k (.ok (some e)) (.ok (some e'))

theorem Below.transformed (h : q.Below k q') (he : entry.Below k entry') :
    Fates k (q.transformed entry) (q'.transformed entry') := by
  cases entry with
  | endOfStream t =>
    cases entry' with
    | endOfStream t' => exact .queued he
    | token | error => cases he
  | error e =>
    cases entry' with
    | error e' => exact .queued he
    | token | endOfStream => cases he
  | token type token =>
    obtain ⟨p', hp, rfl⟩ := he.token
    rw [transformed_token, transformed_token, h.transforms]
    split
    · exact .refused (LexError.below_located hp _)
    · cases ht : transform? q.transforms type with
      | none => exact .queued he
      | some t =>
        have hunplaced := h.unplaced t (List.mem_of_find?_eq_some ht) token
        have hsame := hunplaced token.position
        dsimp only
        rw [hunplaced p']
        cases hr : t.apply token with
        | none => exact .dropped
        | some r =>
          obtain ⟨type', token'⟩ := r
          have hsame : t.apply token = (t.apply token).map fun (type, tok) =>
            (type, { tok with position := token.position }) := hsame
          rw [hr] at hsame
          simp only [Option.map_some, Option.some.injEq, Prod.mk.injEq, true_and] at hsame
          have hpos : token'.position = token.position := by rw [hsame]
          dsimp only [Option.map_some]
          split
          · exact .refused (LexError.below_located (hpos ▸ hp) _)
          · exact .queued (Entry.below_token (hpos ▸ hp) _ _ _)

inductive Results {α : Type} (k : Nat) (same : α → α → Prop) :
    Except LexError (α × Queue) → Except LexError (α × Queue) → Prop where
  | failed {e e' : LexError} (h : e.Below k e') (hkind : e.kind = .internal) :
      Results k same (.error e) (.error e')
  | done {a a' : α} {q q' : Queue} (ha : same a a') (h : q.Below k q') :
      Results k same (.ok (a, q)) (.ok (a', q'))

theorem Below.joined (h : q.Below k q') (he : entry.Below k entry') :
    ({ q with back := entry :: q.back } : Queue).Below k { q' with back := entry' :: q'.back } := by
  refine ⟨h.front, ?_, h.transforms, h.unplaced⟩
  rw [List.map_cons, List.map_cons, h.back, he]

theorem Below.emptied (h : q.Below k q') (hempty : q.isEmpty = true) (j : Nat) : q.Below j q' := by
  have hempty' : q'.isEmpty = true := h.isEmpty.trans hempty
  simp only [Queue.isEmpty, Bool.and_eq_true, List.isEmpty_iff] at hempty hempty'
  refine ⟨?_, ?_, h.transforms, h.unplaced⟩
  · rw [hempty.1, hempty'.1, List.map_nil, List.map_nil]
  · rw [hempty.2, hempty'.2, List.map_nil, List.map_nil]

theorem Below.enqueue (h : q.Below k q') (he : entry.Below k entry') :
    Results k (fun r r' => r'.isSome = r.isSome) (q.enqueue entry) (q'.enqueue entry') := by
  have hfates := h.transformed he
  rw [enqueue_eq, enqueue_eq]
  generalize ht : q.transformed entry = fate, q'.transformed entry' = fate' at hfates
  cases hfates with
  | refused hbelow => exact .failed hbelow (transformed_fails ht)
  | dropped => exact .done rfl h
  | queued hbelow => exact .done rfl (h.joined hbelow)

theorem Below.dequeue (h : q.Below k q') :
    Results k (Entry.Below k) q.dequeue q'.dequeue := by
  have hfront := h.front
  have hback := congrArg List.reverse h.back
  rw [← List.map_reverse, ← List.map_reverse] at hback
  rw [Queue.dequeue_eq, Queue.dequeue_eq]
  cases hf : q.front with
  | cons e rest =>
    cases hf' : q'.front with
    | nil => simp [hf, hf'] at hfront
    | cons e' rest' =>
      rw [hf, hf', List.map_cons, List.map_cons, List.cons.injEq] at hfront
      exact .done hfront.1 ⟨hfront.2, h.back, h.transforms, h.unplaced⟩
  | nil =>
    have hf' : q'.front = [] := by simpa [hf] using hfront
    cases hb : q.back.reverse with
    | nil =>
      have hb' : q'.back.reverse = [] := by simpa [hb] using hback
      rw [hf', hb']
      exact .failed rfl rfl
    | cons e rest =>
      cases hb' : q'.back.reverse with
      | nil => simp [hb, hb'] at hback
      | cons e' rest' =>
        rw [hb, hb', List.map_cons, List.map_cons, List.cons.injEq] at hback
        rw [hf']
        exact .done hback.1 ⟨hback.2, rfl, h.transforms, h.unplaced⟩

end Queue
end TableLexer
