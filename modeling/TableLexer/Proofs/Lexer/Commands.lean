import TableLexer.Proofs.Engine.Snapshots
import TableLexer.Proofs.FreshInput
import TableLexer.Proofs.Lexer.Runs

/-!
# The commands of a lexer to its engine

All that a lexer does to its engine it does by commands, one or several for each step of a rule
and of the driver. So what holds of every engine that commands lead to holds of the engine of
every lexer. Only messages about snapshots reach for the snapshots.
-/
namespace TableLexer

namespace Engine

def Command.Quiet (c : Command) : Prop := ∀ depth, c.depth? depth = some depth

theorem depth?_of_quiet {cs : List Command} (h : ∀ c ∈ cs, c.Quiet) (depth : Nat) :
    depth? depth cs = some depth := by
  induction cs with
  | nil => rfl
  | cons c cs ih =>
    obtain ⟨hc, hcs⟩ := List.forall_mem_cons.mp h
    rw [depth?, hc depth, Option.bind_some]
    exact ih hcs

theorem after_quiet (e : Engine) {cs : List Command} (h : ∀ c ∈ cs, c.Quiet) :
    (e.after cs).snapshots = e.snapshots := by
  have hstart : Above e 0 e := ⟨⟨rfl, rfl⟩, [], rfl, rfl⟩
  obtain ⟨-, own, hlen, hstack⟩ := hstart.after (depth?_of_quiet h 0)
  rw [hstack, List.eq_nil_of_length_eq_zero hlen, List.nil_append]

end Engine

namespace Lexer

open Program (Relates)
open Engine (Command)

/-- Commands of this kind lead from the engine of one lexer to that of the other. -/
def Leads (C : Command → Prop) (l l' : Lexer) : Prop :=
  ∃ cs, (∀ c ∈ cs, C c) ∧ l'.engine = l.engine.after cs

namespace Leads

variable {C D : Command → Prop} {a b c : Lexer}

theorem same (h : b.engine = a.engine) : Leads C a b := ⟨[], by simp, h⟩

theorem single {c : Command} (hc : C c) (h : b.engine = a.engine.next c) :
    Leads C a b := ⟨[c], by simpa using hc, h⟩

theorem trans (h : Leads C a b) (k : Leads C b c) : Leads C a c := by
  obtain ⟨cs, hcs, hb⟩ := h
  obtain ⟨ds, hds, hc⟩ := k
  refine ⟨cs ++ ds, List.forall_mem_append.mpr ⟨hcs, hds⟩, ?_⟩
  rw [hc, hb, Engine.after_append]

theorem mono (hcd : ∀ c, C c → D c) (h : Leads C a b) : Leads D a b := by
  obtain ⟨cs, hcs, hb⟩ := h
  exact ⟨cs, fun c hc => hcd c (hcs c hc), hb⟩

end Leads

variable {α β : Type} {C : Command → Prop}

theorem pure_leads (a : α) : Relates (Leads C) (pure a : LexerM α) := fun _ => .same rfl

theorem bind_leads {m : LexerM α} {f : α → LexerM β} (hm : Relates (Leads C) m)
    (hf : ∀ a, Relates (Leads C) (f a)) : Relates (Leads C) (m >>= f) :=
  Relates.bind (R := Leads C) (fun _ _ _ => Leads.trans) hm hf

theorem answered_leads {m : LexerM α} (hm : Relates (Leads C) m) (b : β) :
    Relates (Leads C) (m >>= fun _ => pure b) := bind_leads hm fun _ => pure_leads b

theorem onEngine_leads {m : EngineM α} {c : Command} (hc : C c)
    (hm : ∀ e, Program.final (m e) = e.next c) : Relates (Leads C) (onEngine m) := by
  intro l
  have h := hm l.engine
  unfold onEngine
  cases hr : m l.engine with
  | ok a e =>
    rw [hr] at h
    exact .single hc h
  | error fault e =>
    rw [hr] at h
    exact .single hc h

theorem nextChar_leads (h : C .nextChar) : Relates (Leads C) (onEngine Engine.nextChar) :=
  onEngine_leads h fun _ => rfl

theorem scanToken_leads {p : Pattern} (h : C (.scan p)) : Relates (Leads C) (scanToken p) :=
  bind_leads (onEngine_leads h fun _ => rfl) fun _ => pure_leads _

theorem undoScan_leads (h : C .undoScan) : Relates (Leads C) (onEngine Engine.undoScan) :=
  onEngine_leads h fun _ => rfl

theorem enqueueToken_leads (type : TokenType) (hmark : C .markRecognized) (htake : C .takeToken) :
    Relates (Leads C) (enqueueToken type) := by
  intro l
  have hlead : ∀ b : Lexer, b.engine = l.engine.recognizedNow.clearLexeme → Leads C l b := by
    intro b hb
    refine ⟨[.markRecognized, .takeToken], by simp [hmark, htake], ?_⟩
    simp [Engine.after, Engine.next, Engine.markRecognized_eq, Engine.takeToken, hb]
  rw [enqueueToken_eq]
  split
  · exact .same rfl
  · dsimp only
    split <;> exact hlead _ rfl

theorem unknownToken_leads (hnext : C .nextChar) (hmark : C .markFailed) :
    Relates (Leads C) unknownToken := by
  intro l
  have report : ∀ b : Lexer, Leads C l b →
      Leads C l { b with engine := b.engine.failedNow } := by
    intro b hb
    refine hb.trans (.single hmark ?_)
    simp [Engine.next, Engine.markFailed_eq]
  have hread : Leads C l { l with engine := Program.final (Engine.nextChar l.engine) } :=
    .single hnext rfl
  rw [unknownToken_eq]
  dsimp only
  split
  · exact .same rfl
  · exact .same rfl
  · split
    · split
      · next h => simpa [h] using hread
      · next h => exact report _ (by simpa [h] using hread)
      · next h => simpa [h] using hread
    · exact report l (.same rfl)

def messageCommands (message : String) : List Command :=
  match message with
  | "unknown_token" => [.nextChar, .markFailed]
  | "next_char" => [.nextChar]
  | "clear" => [.clearLexeme]
  | "undo_scan" => [.undoScan]
  | "add_snapshot" => [.addSnapshot]
  | "restore_snapshot" => [.restoreSnapshot]
  | "pop_snapshot" => [.popSnapshot]
  | _ => []

def Step.commands : Step → List Command
  | .nextChar => [.nextChar]
  | .scan p => [.scan p]
  | .enqueue _ => [.markRecognized, .takeToken]
  | .unknownToken => [.nextChar, .markFailed]
  | .putBack => [.undoScan]
  | .clear => [.clearLexeme]
  | .retype _ _ | .halt _ => []
  | .message name _ => messageCommands name

theorem builtIn_leads (message : String) (args : List Value) :
    Relates (Leads (· ∈ messageCommands message)) (builtIn message args) := by
  intro l
  by_cases hm : message ∈ ["set_mode", "push_mode", "pop_mode"]
  · have hmodes := modeMessage_modesOnly message args hm l
    exact .same (by rw [hmodes])
  · unfold builtIn
    split
    · exact unknownToken_leads (by simp [messageCommands]) (by simp [messageCommands]) l
    · exact answered_leads (nextChar_leads (by simp [messageCommands])) none l
    · exact .single (c := .clearLexeme) (by simp [messageCommands]) rfl
    · exact answered_leads (undoScan_leads (by simp [messageCommands])) none l
    · exact .single (c := .addSnapshot) (by simp [messageCommands]) rfl
    · exact answered_leads (onEngine_leads (c := .restoreSnapshot) (by simp [messageCommands])
        fun _ => rfl) none l
    · exact .single (c := .popSnapshot) (by simp [messageCommands]) rfl
    · exact absurd (by simp) hm
    · exact absurd (by simp) hm
    · exact absurd (by simp) hm
    · exact .same rfl

theorem Step.run_leads (s : Step) : Relates (Leads (· ∈ s.commands)) s.run := by
  cases s with
  | nextChar => exact answered_leads (nextChar_leads (by simp [commands])) ()
  | scan p => exact answered_leads (scanToken_leads (by simp [commands])) ()
  | enqueue type =>
    exact answered_leads (enqueueToken_leads type (by simp [commands]) (by simp [commands])) ()
  | unknownToken =>
    exact answered_leads (unknownToken_leads (by simp [commands]) (by simp [commands])) ()
  | putBack => exact undoScan_leads (by simp [commands])
  | clear => exact fun l => .single (c := .clearLexeme) (by simp [commands]) rfl
  | retype | halt => exact fun l => .same rfl
  | message name args => exact answered_leads (builtIn_leads name args) ()

def snapshotCommand? (message : String) : Option Command :=
  match message with
  | "add_snapshot" => some .addSnapshot
  | "restore_snapshot" => some .restoreSnapshot
  | "pop_snapshot" => some .popSnapshot
  | _ => none

def Step.snapshotCommand? : Step → Option Command
  | .message name _ => Lexer.snapshotCommand? name
  | _ => none

theorem Step.commands_quiet {s : Step} (h : s.snapshotCommand? = none) :
    ∀ c ∈ s.commands, c.Quiet := by
  cases s with
  | message name args =>
    change Lexer.snapshotCommand? name = none at h
    change ∀ c ∈ messageCommands name, c.Quiet
    unfold messageCommands
    split <;> simp_all [Lexer.snapshotCommand?, Command.Quiet, Command.depth?]
  | _ => simp [commands, Command.Quiet, Command.depth?]

/-- Any other step leaves the snapshots alone, whether it fails or not. -/
theorem Step.run_snapshots {s : Step} (h : s.snapshotCommand? = none) (l : Lexer) :
    (Program.final (s.run l)).engine.snapshots = l.engine.snapshots := by
  obtain ⟨cs, hcs, he⟩ := s.run_leads l
  rw [he]
  exact Engine.after_quiet _ fun c hc => Step.commands_quiet h c (hcs c hc)

abbrev LeadsOn : Lexer → Lexer → Prop := Leads fun _ => True

variable {l l' : Lexer}

theorem Leads.on (h : Leads C l l') : LeadsOn l l' := h.mono fun _ _ => trivial

theorem perform_leads (steps : List Step) : Relates LeadsOn (perform steps) := by
  induction steps with
  | nil => exact pure_leads ()
  | cons s rest ih => exact bind_leads (fun l => (s.run_leads l).on) fun _ => ih

theorem skipChar_leads (hnext : C .nextChar) (hreset : C .resetRecognition) :
    Relates (Leads C) skipChar :=
  bind_leads (nextChar_leads hnext) fun _ => onEngine_leads hreset fun _ => rfl

theorem settle_leads (rule : String) (start : Mark) (captured : Bool) :
    Relates LeadsOn (settle rule start captured) := by
  intro l
  have rest : LeadsOn l { l with engine := l.engine.rested } :=
    .single (c := .resetRecognition) trivial
      (by simp [Engine.next, Engine.resetRecognition_eq])
  have complain : ∀ e, LeadsOn l (l.complained e captured) :=
    fun e => .same (complained_engine e captured l)
  rw [settle_eq]
  split
  · exact rest
  · exact rest
  · exact .same rfl
  · exact (complain _).trans (.same rfl)
  · split
    · exact (complain _).trans (skipChar_leads trivial trivial _)
    · exact .same rfl
  · split
    · exact (complain _).trans (skipChar_leads trivial trivial _)
    · exact .same rfl
  · exact .same rfl

theorem ruleRun_leads (hops : l.operations = []) (r : Rule) (n : Nat) :
    LeadsOn l (Program.final (r.run (respond n) l)) := by
  rw [← final_ending, Rule.run_eq_perform (respond_answers n) r l hops]
  exact perform_leads _ l

theorem applyModeRule_leads (hops : l.operations = []) (n : Nat) :
    LeadsOn l (Program.final (applyModeRule n l)) :=
  applyModeRule_keeps (.same rfl) (fun _ r _ _ => ruleRun_leads (l := l.counted) hops r n)
    (fun _ _ h => h) fun rule captured a h => h.trans (settle_leads rule _ captured a)

theorem enqueueIndent_leads : Relates LeadsOn enqueueIndent := by
  intro l
  refine bind_leads (enqueueToken_leads _ trivial trivial) (fun _ => ?_) l
  split
  · exact fun _ => .same rfl
  · exact pure_leads _

theorem enqueueLineEnd_leads : Relates LeadsOn enqueueLineEnd := by
  intro l
  rw [enqueueLineEnd_eq]
  split
  · split <;> exact .same rfl
  · exact .same rfl

theorem fillStep_leads (hops : l.operations = []) (n : Nat) :
    LeadsOn l (Program.final (fillStep n l)) := by
  have layout : ∀ {o : Option Outcome} {e : Engine}, Engine.scanLayout l.engine = .ok o e →
      LeadsOn l { l with engine := e } := by
    intro o e he
    exact .single (c := .scanLayout) trivial (by simp [Engine.next, he])
  exact fillStep_keeps (.same rfl) (fun _ he => (layout he).trans (enqueueIndent_leads _))
    (fun _ he => (layout he).trans (enqueueLineEnd_leads _))
    (fun _ he => (layout he).trans (.same rfl))
    fun e he => (layout he).trans (applyModeRule_leads (l := { l with engine := e }) hops n)

theorem nextToken_leads (hops : l.operations = []) (n : Nat) :
    LeadsOn l (Program.final (nextToken n l)) := by
  have h : LeadsOn l (Program.final (nextToken n l)) ∧
      (Program.final (nextToken n l)).operations = [] := by
    refine nextToken_keeps (I := fun a => LeadsOn l a ∧ a.operations = []) ?_ ?_ ⟨.same rfl, hops⟩
    · intro a ha
      exact ⟨ha.1.trans (fillStep_leads ha.2 n), (fillStep_frame n ha.2).operations.trans ha.2⟩
    · intro a entry q ha _
      exact ⟨ha.1.trans (.same rfl), ha.2⟩
  exact h.1

theorem served_leads (hops : l.operations = []) (r : Request) : LeadsOn l (l.served r) := by
  cases r with
  | entry n => exact nextToken_leads hops n
  | input text =>
    rw [served, setInput_eq]
    split
    · exact .same rfl
    · next ht =>
      refine .single (c := .setInput text.toList) trivial ?_
      rw [Engine.next, Engine.setInput_eq, if_neg ht]
      rfl

theorem Runs.leads {n : Nat} {steps : List Lexer} {entries : List Entry}
    (h : Runs n l steps entries l') (hops : l.operations = []) : LeadsOn l l' := by
  induction h with
  | start => exact .same rfl
  | @fill _ _ a b h _ hstep ih =>
    have hfill := fillStep_leads ((h.frame hops).operations.trans hops) n
    rw [hstep] at hfill
    exact ih.trans hfill
  | deliver _ _ ih => exact ih.trans (.same rfl)

/-- What a lexer can become between requests, whether they succeed or fail. Modes may be changed
from outside as well, and the stream of its entries may be taken for finished. -/
inductive Reached (l : Lexer) : Lexer → Prop where
  | start : Reached l l
  | served {a : Lexer} (h : Reached l a) (r : Request) : Reached l (a.served r)
  | modes {a : Lexer} (h : Reached l a) (modes : Modes) : Reached l { a with modes }
  | finish {a : Lexer} (h : Reached l a) : Reached l { a with finished := true }

theorem Reached.leads (h : Reached l l') (hops : l.operations = []) :
    LeadsOn l l' ∧ l'.operations = [] := by
  induction h with
  | start => exact ⟨.same rfl, hops⟩
  | served _ r ih =>
    exact ⟨ih.1.trans (served_leads ih.2 r), (served_make ih.2 r).operations.trans ih.2⟩
  | modes _ _ ih => exact ⟨ih.1.trans (.same rfl), ih.2⟩
  | finish _ ih => exact ⟨ih.1.trans (.same rfl), ih.2⟩

/-- The engine of a lexer in use is one that commands to a new engine lead to. -/
theorem Reached.engine {rs : Ruleset} {options : Options} {l₀ : Lexer}
    (h : Reached l₀ l) (hnew : new rs options = .ok l₀) :
    ∃ cs, l.engine = (Engine.new options.engineConfig).after cs := by
  obtain ⟨-, -, -, -, rfl⟩ := new_eq_ok_iff.mp hnew
  obtain ⟨cs, -, he⟩ := (h.leads rfl).1
  exact ⟨cs, he⟩

end Lexer
end TableLexer
