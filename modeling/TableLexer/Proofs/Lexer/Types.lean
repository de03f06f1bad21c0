import TableLexer.Proofs.Lexer.Driver
import TableLexer.Proofs.Lexer.Separators

/-!
# Types of the tokens that rules queue

A type that no action of the rules names and that no transform makes does not occur among the
tokens that basic rules queue.
-/
namespace TableLexer

def Action.makes : Action → List TokenType
  | enqueue type => [type]
  | retype _ new => [new]
  | _ => []

namespace Queue

/-- No transform turns tokens into tokens of the type. -/
def Spares (transforms : List Transform) (type : TokenType) : Prop :=
  ∀ t ∈ transforms, ∀ token made, t.apply token = some made → made.1 ≠ type

def Lacks (q : Queue) (type : TokenType) : Prop := ∀ e ∈ q.toList, e.type? ≠ some type

variable {q r : Queue} {type : TokenType}

theorem transformed_lacks {entry e : Entry} (ht : Spares q.transforms type)
    (he : entry.type? ≠ some type) (h : q.transformed entry = .ok (some e)) :
    e.type? ≠ some type := by
  cases entry with
  | endOfStream | error =>
    cases h
    simp [Entry.type?]
  | token t token =>
    rw [transformed_token] at h
    split at h
    · cases h
    · split at h
      · cases h
        exact he
      · next f hf =>
        split at h
        · cases h
        · next made hmade =>
          have hne := ht f (List.mem_of_find?_eq_some hf) token _ hmade
          split at h <;> cases h
          intro htype
          exact hne (Option.some.inj htype)

theorem Lacks.enqueue {entry : Entry} {reply : Option Entry} (h : q.Lacks type)
    (ht : Spares q.transforms type) (he : entry.type? ≠ some type)
    (hq : q.enqueue entry = .ok (reply, r)) : r.Lacks type := by
  obtain ⟨hreply, hlist, -⟩ := enqueue_eq_ok hq
  intro e hmem
  rw [hlist, List.mem_append, Option.mem_toList] at hmem
  rcases hmem with hmem | hmem
  · exact h e hmem
  · exact transformed_lacks ht he (hmem ▸ hreply)

theorem Lacks.pushAhead {entry : Entry} {reply : Option Entry} (h : q.Lacks type)
    (ht : Spares q.transforms type) (he : entry.type? ≠ some type)
    (hq : q.pushAhead entry = .ok (reply, r)) : r.Lacks type := by
  obtain ⟨hreply, hlist, -⟩ := pushAhead_eq_ok hq
  intro e hmem
  rw [hlist, List.mem_append, Option.mem_toList] at hmem
  rcases hmem with hmem | hmem
  · exact transformed_lacks ht he (hmem ▸ hreply)
  · exact h e hmem

theorem Lacks.retype (h : q.Lacks type) {old new : TokenType} (hn : new ≠ type) :
    (q.mapLast (Entry.retypeFrom old new)).Lacks type := by
  intro e he
  rw [toList_mapLast, List.mem_append, last?_eq] at he
  rcases he with he | he
  · exact h e (List.dropLast_subset _ he)
  · simp only [Option.toList_map, List.mem_map, Option.mem_toList] at he
    obtain ⟨last, hlast, rfl⟩ := he
    have hl := h last (List.mem_of_getLast? hlast)
    cases last with
    | endOfStream | error => exact hl
    | token t token =>
      by_cases ht : t = old
      · simpa [Entry.retypeFrom, Entry.type?, ht] using hn
      · simpa [Entry.retypeFrom, Entry.type?, ht] using hl

theorem Lacks.snoc (h : q.Lacks type) {e : Entry} (he : e.type? ≠ some type) :
    Lacks { q with back := e :: q.back } type := by
  intro x hx
  simp only [toList, List.reverse_cons, ← List.append_assoc, List.mem_append,
    List.mem_singleton] at hx
  rcases hx with hx | rfl
  · exact h x (List.mem_append.mpr hx)
  · exact he

end Queue

namespace Lexer

variable {type : TokenType} {l : Lexer}

def Step.Avoids (type : TokenType) : Step → Prop
  | .nextChar | .scan _ => True
  | .enqueue made | .retype _ made => made ≠ type
  | _ => False

theorem enqueueToken_lacks (h : l.queue.Lacks type) (ht : Queue.Spares l.queue.transforms type)
    {made : TokenType} (hm : made ≠ type) :
    (Program.final (enqueueToken made l)).queue.Lacks type := by
  rw [enqueueToken_eq]
  split
  · exact h
  · dsimp only
    split
    · next hq => exact h.enqueue ht (by simpa [Entry.type?] using hm) hq
    · exact h

theorem Step.Avoids.lacks {s : Step} (hs : s.Avoids type) (h : l.queue.Lacks type)
    (ht : Queue.Spares l.queue.transforms type) :
    (Program.final (s.run l)).queue.Lacks type := by
  cases s with
  | nextChar =>
    rw [Step.run_nextChar, final_ending, (onEngine_books _ l).queue]
    exact h
  | scan p =>
    rw [Step.run_scan, final_ending, (scanToken_books _ l).queue]
    exact h
  | enqueue made =>
    rw [Step.run_enqueue, final_ending]
    exact enqueueToken_lacks h ht hs
  | retype old new =>
    rw [Step.run_retype, final_ending]
    exact h.retype hs
  | _ => exact hs.elim

theorem perform_lacks {xs : List Step} (hs : ∀ s ∈ xs, s.Avoids type) (h : l.queue.Lacks type)
    (ht : Queue.Spares l.queue.transforms type) :
    (Program.final (perform xs l)).queue.Lacks type := by
  induction xs generalizing l with
  | nil => exact h
  | cons s rest ih =>
    rw [List.forall_mem_cons] at hs
    have hfirst := hs.1.lacks h ht
    have hframe := Step.run_frame s l
    rw [perform, Program.bind_apply]
    cases hr : s.run l with
    | error stop l' =>
      rw [hr] at hfirst
      exact hfirst
    | ok _ l' =>
      rw [hr] at hfirst hframe
      exact ih hs.2 hfirst (hframe.transforms ▸ ht)

theorem ruleRun_lacks {r : Rule} (hb : r.Basic) (hm : ∀ a ∈ r.allActions, type ∉ a.makes)
    (hops : l.operations = []) (h : l.queue.Lacks type)
    (ht : Queue.Spares l.queue.transforms type) (n : Nat) :
    (Program.final (r.run (respond n) l)).queue.Lacks type := by
  have hw : ∀ a ∈ r.allActions, a.Within (respondSteps n) l.ruleset (Step.Avoids type) := by
    intro a ha
    have hba := hb a ha
    have hma := hm a ha
    cases a with
    | enqueue | retype =>
      constructor
      · simpa [Action.own, Step.Avoids, Action.makes, eq_comm] using hma
      · simp
    | onScan | sequence =>
      constructor
      · simp [Action.own]
      · simp
    | _ => exact hba.elim
  have hsteps := Rule.steps_allowed (r := r) trivial (fun _ => trivial) hw rfl
  rw [← final_ending, Rule.run_eq_perform (respond_answers n) r l hops]
  exact perform_lacks hsteps h ht

theorem errorQueued_lacks (h : l.queue.Lacks type) (e : LexError) :
    (l.errorQueued e).queue.Lacks type := h.snoc (by simp [Entry.type?])

theorem complained_lacks (h : l.queue.Lacks type) (e : LexError) (captured : Bool) :
    (l.complained e captured).queue.Lacks type := by
  cases captured with
  | true => exact h
  | false => exact errorQueued_lacks h e

theorem endQueued_lacks (h : l.queue.Lacks type) : l.endQueued.queue.Lacks type :=
  h.snoc (by simp [Entry.type?])

theorem settle_lacks (h : l.queue.Lacks type) (rule : String) (mark : Mark) (captured : Bool) :
    (Program.final (settle rule mark captured l)).queue.Lacks type := by
  rw [settle_eq]
  split
  · exact h
  · exact h
  · exact endQueued_lacks h
  · exact endQueued_lacks (complained_lacks h _ captured)
  · split
    · rw [(skipChar_books _).queue]
      exact complained_lacks h _ captured
    · exact h
  · split
    · rw [(skipChar_books _).queue]
      exact complained_lacks h _ captured
    · exact h
  · exact h

theorem capturing_lacks {α : Type} {m : LexerM α} (h : (Program.final (m l)).queue.Lacks type) :
    (Program.final (capturing m l)).queue.Lacks type := by
  rw [capturing_eq]
  cases hr : m l with
  | ok a l' =>
    rw [hr] at h
    exact h
  | error stop l' =>
    rw [hr] at h
    cases stop with
    | exhausted => exact h
    | fault e =>
      by_cases hk : e.kind = .lexical
      · simp only [hk, ↓reduceIte]
        exact errorQueued_lacks h e
      · simp only [hk, ↓reduceIte]
        exact h

theorem applyModeRule_lacks (hops : l.operations = []) (hb : l.ruleset.Basic)
    (hm : ∀ r ∈ l.ruleset.rules, ∀ a ∈ r.allActions, type ∉ a.makes)
    (h : l.queue.Lacks type) (ht : Queue.Spares l.queue.transforms type) (n : Nat) :
    (Program.final (applyModeRule n l)).queue.Lacks type := by
  rw [applyModeRule_eq]
  cases l.options.ruleFor? l.modes.current with
  | none => exact h
  | some name =>
    dsimp only
    cases hr : l.ruleset.rule? name with
    | none => exact h
    | some r =>
      have hmem := Ruleset.mem_of_rule? hr
      have hrun := ruleRun_lacks (l := l.counted) (hb r hmem) (hm r hmem) hops h ht n
      have hrun := capturing_lacks hrun
      dsimp only
      cases hc : capturing (r.run (respond n)) l.counted with
      | error stop l' =>
        rw [hc] at hrun
        exact hrun
      | ok captured l' =>
        rw [hc] at hrun
        exact settle_lacks hrun name l.engine.toMark captured

end Lexer
end TableLexer
