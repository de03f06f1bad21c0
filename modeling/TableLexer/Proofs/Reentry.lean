import Mathlib.Logic.Relation
import TableLexer.Proofs.Cycles
import TableLexer.Proofs.Lexer.Guards
import TableLexer.Proofs.Rulesets

/-!
# Rules that re-enter themselves

While a rule is being applied it may be entered again, by itself or by the rules it calls for. A
rule set without a cycle of unguarded calls lets this happen only further on in the text, or once
the end of the text has been noticed, unless a rule gets behind the place where it was entered or
returns to a snapshot in a way the search for cycles does not see.

So as long as no rule rewinds, each call leaves less to do or leads to a rule of lower rank, and
the calls of a valid rule set nest to a depth that the rest of the text bounds.
-/
namespace TableLexer

namespace Ruleset

variable {rs : Ruleset}

theorem name_of_rule? {name : String} {r : Rule} (h : rs.rule? name = some r) : r.name = name := by
  have hname := List.find?_some h
  simpa using hname

/-- The rules of a valid rule set have ranks that fall along every unguarded call. -/
theorem exists_rank (hvalid : rs.validate = .ok ()) :
    ∃ (rank : String → Nat) (top : Nat), ∀ name r, rs.rule? name = some r →
      rank name ≤ top ∧ ∀ next ∈ r.unguardedSubrules, rank next < rank name := by
  have hfind := checkCycles_eq_ok_iff.mp (validate_eq_ok_iff.mp hvalid).2
  have hmem : ∀ name r, rs.rule? name = some r → name ∈ rs.rules.map Rule.name := by
    intro name r hr
    exact List.mem_map.mpr ⟨r, mem_of_rule? hr, name_of_rule? hr⟩
  obtain ⟨rank, top, hrank⟩ := Cycle.exists_rank (fun _ => entryGraph_eq_nil) hfind
  refine ⟨rank, top, ?_⟩
  intro name r hr
  obtain ⟨hle, hlt⟩ := hrank name (hmem name r hr)
  refine ⟨hle, ?_⟩
  intro next hnext
  apply hlt
  rwa [entryGraph, hr]

/-- The patterns its rules scan for consume whenever they match, unless they match the empty
text. -/
def Consuming (rs : Ruleset) : Prop := ∀ r ∈ rs.rules, ∀ p ∈ r.scanned, p.Consumes

end Ruleset

namespace Action

def Rewinds : Action → Prop
  | putBack => True
  | send message _ | changeState message _ _ => rewinds message = true
  | _ => False

instance : DecidablePred Rewinds
  | putBack => isTrue trivial
  | send message _ | changeState message _ _ =>
    inferInstanceAs (Decidable (rewinds message = true))
  | enqueue _ | subrule _ | onLexeme _ _ _ | onScan _ _ _ | patterns _ | sequence _ | clear
  | retype _ _ => isFalse id

end Action

namespace Ruleset

variable {rs : Ruleset}

def NeverRewinds (rs : Ruleset) : Prop :=
  ∀ r ∈ rs.rules, ∀ a ∈ r.allActions, ¬ a.Rewinds

instance (rs : Ruleset) : Decidable rs.NeverRewinds :=
  inferInstanceAs (Decidable (∀ r ∈ rs.rules, ∀ a ∈ r.allActions, ¬ a.Rewinds))

theorem NeverRewinds.allows (h : rs.NeverRewinds) :
    rs.Allows fun s => ¬ s.Rewinds := by
  constructor
  · exact id
  · exact fun _ => id
  · exact fun _ => id
  · intro r hr a ha s hs
    have hn := h r hr a ha
    cases a with
    | send | changeState | putBack =>
      rw [Action.own, List.mem_singleton] at hs
      subst hs
      exact hn
    | enqueue | patterns | clear | retype =>
      rw [Action.own, List.mem_singleton] at hs
      subst hs
      exact id
    | subrule | onLexeme | onScan | sequence => cases hs

end Ruleset

open Lexer

structure Application where
  allowance : Nat
  rule : Rule
  lexer : Lexer

namespace Application

/-- While the one is in progress it calls for a rule, and so the other is entered. -/
def Enters (x y : Application) : Prop :=
  x.allowance = y.allowance + 1 ∧
    ∃ name, (name, y.lexer) ∈ x.rule.calls (respond x.allowance) x.lexer ∧
      y.lexer.ruleset.rule? name = some y.rule

def StaysAhead (x : Application) : Prop :=
  Ahead x.lexer.engine.toGo (x.rule.steps (respondSteps x.allowance) x.lexer) x.lexer

/-- Neither the application nor any that is entered meanwhile gets behind its own place, or
returns to a snapshot hidden from the search for cycles. -/
def Steady (x : Application) : Prop :=
  ∀ u, Relation.ReflTransGen Enters x u →
    u.StaysAhead ∧ ∀ a ∈ u.rule.allActions, ¬ a.HidesRewind

structure Proper (rs : Ruleset) (x : Application) : Prop where
  ruleset : x.lexer.ruleset = rs
  operations : x.lexer.operations = []
  rule : rs.rule? x.rule.name = some x.rule

variable {x y z : Application} {rs : Ruleset}

theorem Enters.frame (h : Enters x y) (hx : x.Proper rs) : SameFrame x.lexer y.lexer := by
  obtain ⟨-, name, hmem, -⟩ := h
  exact (Rule.mem_calls (respond_answers x.allowance) x.rule hx.operations hmem).2

theorem Enters.proper (h : Enters x y) (hx : x.Proper rs) : y.Proper rs := by
  have hframe := h.frame hx
  have hset := hframe.ruleset.trans hx.ruleset
  obtain ⟨-, name, -, hr⟩ := h
  refine ⟨hset, hframe.operations.trans hx.operations, ?_⟩
  rw [hset] at hr
  rwa [Ruleset.name_of_rule? hr]

theorem Steady.entered (h : x.Steady) (he : Enters x y) : y.Steady :=
  fun u hu => h u (.head he hu)

theorem entered_of_ok {name : String} {l l' : Lexer} {reply : Reply}
    (hmem : (name, l) ∈ x.rule.calls (respond x.allowance) x.lexer)
    (hok : respond x.allowance (.subrule name) l = .ok reply l') :
    ∃ y, Enters x y ∧ y.lexer = l ∧ y.rule.run (respond y.allowance) l = .ok reply l' := by
  cases hn : x.allowance with
  | zero =>
    rw [hn] at hok
    cases hok
  | succ n =>
    rw [hn] at hok
    simp only [respond, Program.bind_apply, Program.get_apply] at hok
    cases hr : l.ruleset.rule? name with
    | none => simp [hr, fail] at hok
    | some r =>
      rw [hr] at hok
      exact ⟨⟨n, r, l⟩, ⟨hn, name, hmem, hr⟩, rfl, hok⟩

theorem StaysAhead.final (h : x.StaysAhead) (hops : x.lexer.operations = []) {reply : Reply}
    {l : Lexer} (hok : x.rule.run (respond x.allowance) x.lexer = .ok reply l) :
    l.engine.toGo ≤ x.lexer.engine.toGo := by
  have hend := Ahead.final h
  rw [← Rule.run_eq_perform (respond_answers x.allowance) x.rule x.lexer hops, hok] at hend
  exact hend

/-- A call that is answered by steady applications leaves no more to do. -/
theorem Steady.forward (h : x.Steady) (hx : x.Proper rs) :
    Forward (respond x.allowance) (x.rule.calls (respond x.allowance) x.lexer) := by
  rintro ⟨name, l⟩ hmem reply l' hok
  obtain ⟨y, he, rfl, hrun⟩ := entered_of_ok hmem hok
  exact (h y (.single he)).1.final (he.proper hx).operations hrun

/-- Entering a rule leaves less to do, or as much but at a lower rank. -/
def Below (rank : String → Nat) (y x : Application) : Prop :=
  y.lexer.engine.toGo < x.lexer.engine.toGo ∨
    y.lexer.engine.toGo = x.lexer.engine.toGo ∧ rank y.rule.name < rank x.rule.name

theorem Below.trans {rank : String → Nat} (h : Below rank z y) (k : Below rank y x) :
    Below rank z x := by
  unfold Below at *
  omega

theorem Enters.below {rank : String → Nat} {top : Nat}
    (hrank : ∀ name r, rs.rule? name = some r →
      rank name ≤ top ∧ ∀ next ∈ r.unguardedSubrules, rank next < rank name)
    (hconsume : rs.Consuming) (hx : x.Proper rs) (hs : x.Steady) (h : Enters x y) :
    Below rank y x := by
  obtain ⟨hahead, hhides⟩ := hs x .refl
  obtain ⟨-, name, hmem, hr⟩ := h
  have hguarded := Rule.calls_guarded (respond_answers x.allowance) hx.operations hhides
    (hconsume x.rule (Ruleset.mem_of_rule? hx.rule)) hahead (hs.forward hx) _ hmem
  have hle : y.lexer.engine.toGo ≤ x.lexer.engine.toGo := hguarded.1
  rcases hguarded.2 with hname | hlt
  · have hlower := (hrank _ _ hx.rule).2 name hname
    rw [← Ruleset.name_of_rule? hr] at hlower
    unfold Below
    omega
  · exact .inl hlt

/-- The applications in progress lie below each other. -/
theorem below_of_transGen {rank : String → Nat} {top : Nat}
    (hrank : ∀ name r, rs.rule? name = some r →
      rank name ≤ top ∧ ∀ next ∈ r.unguardedSubrules, rank next < rank name)
    (hconsume : rs.Consuming) (hx : x.Proper rs) (hs : x.Steady)
    (h : Relation.TransGen Enters x y) :
    Below rank y x ∧ y.lexer.engine.input = x.lexer.engine.input := by
  induction h using Relation.TransGen.head_induction_on with
  | single he => exact ⟨he.below hrank hconsume hx hs, (he.frame hx).text.input⟩
  | head he _ ih =>
    obtain ⟨hbelow, hinput⟩ := ih (he.proper hx) (hs.entered he)
    exact ⟨hbelow.trans (he.below hrank hconsume hx hs), hinput.trans (he.frame hx).text.input⟩

theorem Proper.of_reach (hx : x.Proper rs) (h : Relation.ReflTransGen Enters x y) :
    y.Proper rs := by
  induction h with
  | refl => exact hx
  | tail _ he ih => exact he.proper ih

/-- Without a put-back and without a return to a snapshot, applications are steady. -/
theorem Proper.steady (hx : x.Proper rs) (hn : rs.NeverRewinds) : x.Steady := by
  intro u hu
  have hp := hx.of_reach hu
  have hmem := Ruleset.mem_of_rule? hp.rule
  constructor
  · exact ahead_of_onward (hn.allows.ruleSteps hmem u.allowance hp.ruleset) (Nat.le_refl _)
  · intro a hmem' hh
    refine hn u.rule hmem a hmem' ?_
    cases a with
    | changeState message state next => exact hh
    | _ => exact hh.elim

/-- A rule of a valid rule set whose patterns consume, applied without registered operations to
any lexer, is entered again while the application is in progress only further on in the text, or
where scanning has ended meanwhile; provided that no application gets behind the place where it
was entered, and no rule returns to a snapshot or puts back by a message that carries a state. -/
theorem reentry_consumes (hvalid : x.lexer.ruleset.validate = .ok ())
    (hconsume : x.lexer.ruleset.Consuming) (hops : x.lexer.operations = [])
    (hrule : x.lexer.ruleset.rule? x.rule.name = some x.rule) (hsteady : x.Steady)
    (h : Relation.TransGen Enters x y) (hsame : y.rule.name = x.rule.name) :
    x.lexer.engine.pos < y.lexer.engine.pos ∨
      x.lexer.engine.recognition.isTerminal = false ∧
        y.lexer.engine.recognition.isTerminal = true := by
  obtain ⟨rank, top, hrank⟩ := Ruleset.exists_rank hvalid
  obtain ⟨hbelow, hinput⟩ := below_of_transGen hrank hconsume ⟨rfl, hops, hrule⟩ hsteady h
  unfold Below at hbelow
  rw [hsame] at hbelow
  exact Engine.pos_lt_of_toGo_lt hinput (by omega)

end Application

def Ruleset.reading (rs : Ruleset) (text : String) : Lexer :=
  Program.final (setInput text { engine := .new {}, queue := .empty, ruleset := rs, options := {} })

namespace Application

theorem exists_enters {n : Nat} {r r' : Rule} {l : Lexer} {α : Type} {a : α} (name : String)
    (view : Lexer → α) (hops : l.operations = []) (hr : l.ruleset.rule? name = some r')
    (hcalls : (name, a) ∈ (r.calls (respond (n + 1)) l).map fun entry =>
      (entry.1, view entry.2)) :
    ∃ y, Enters ⟨n + 1, r, l⟩ y ∧ y.rule = r' ∧ view y.lexer = a := by
  obtain ⟨⟨name', l'⟩, hcall, heq⟩ := List.mem_map.mp hcalls
  obtain ⟨rfl, hview⟩ : name' = name ∧ view l' = a := Prod.mk.inj heq
  have hframe := (Rule.mem_calls (respond_answers (n + 1)) r hops hcall).2
  exact ⟨⟨n, r', l'⟩, ⟨rfl, _, hcall, by rw [hframe.ruleset, hr]⟩, rfl, hview⟩

def listRule : Rule :=
  { name := "list", kind := .lookahead
    handlers := [⟨.char '(', .sequence [.enqueue (.symbol "OPEN"), .subrule "list"]⟩]
    otherwise := .enqueue (.symbol "WORD") }

def listRules : Ruleset := { types := some [], rules := [listRule] }

theorem inner_list_further_on :
    listRules.validate = .ok () ∧ listRules.Consuming ∧
      (⟨5, listRule, listRules.reading "((a"⟩ : Application).Steady ∧
      ∃ y, Relation.TransGen Enters ⟨5, listRule, listRules.reading "((a"⟩ y ∧
        y.rule = listRule ∧ 0 < y.lexer.engine.pos := by
  have hvalid : listRules.validate = .ok () := by decide +kernel
  have hconsume : listRules.Consuming := by
    intro r hr p hp
    obtain rfl := List.mem_singleton.mp hr
    obtain rfl : p = .char '(' := by simpa [Rule.scanned, listRule, Rule.allActions, Action.walk,
      Rule.topActions, Action.scanned, Action.walkList] using hp
    exact Pattern.char_consumes _
  have hsteady : (⟨5, listRule, listRules.reading "((a"⟩ : Application).Steady :=
    Proper.steady ⟨rfl, rfl, rfl⟩ (by decide)
  have hentered : ∃ y, Enters ⟨5, listRule, listRules.reading "((a"⟩ y ∧ y.rule = listRule ∧
      y.lexer.engine.recognition.isTerminal = false :=
    exists_enters "list" (fun l => l.engine.recognition.isTerminal) rfl rfl (by decide +kernel)
  obtain ⟨y, he, hy, hview⟩ := hentered
  refine ⟨hvalid, hconsume, hsteady, y, .single he, hy, ?_⟩
  rcases reentry_consumes hvalid hconsume rfl rfl hsteady (.single he) (by rw [hy]) with h | h
  · exact h
  · rw [hview] at h
    exact absurd h.2 (by decide)

def restartRule : Rule :=
  { name := "word", kind := .lookahead
    handlers := [⟨.char 'a', .changeState "restore_snapshot" "again" (.subrule "word")⟩]
    otherwise := .enqueue (.symbol "A") }

def restartRules : Ruleset := { types := some [], rules := [restartRule] }

theorem hidden_return_reenters :
    restartRules.validate = .ok () ∧
      ∃ l, builtIn "add_snapshot" [] (restartRules.reading "a") = .ok none l ∧
        ∃ y, Enters ⟨5, restartRule, l⟩ y ∧ y.rule = restartRule ∧
          (y.lexer.engine.pos, y.lexer.engine.recognition) =
            (l.engine.pos, l.engine.recognition) := by
  refine ⟨by decide +kernel, _, rfl, ?_⟩
  exact exists_enters "word" (fun l => (l.engine.pos, l.engine.recognition)) rfl rfl
    (by decide +kernel)

def takeRule : Rule :=
  { name := "take", kind := .lookahead
    handlers := [⟨.char 'a', .sequence [.subrule "undo", .subrule "take"]⟩] }

def undoRule : Rule := { name := "undo", kind := .lookahead, otherwise := .putBack }

def undoRules : Ruleset := { types := some [], rules := [takeRule, undoRule] }

theorem put_back_reenters :
    undoRules.validate = .ok () ∧
      ∃ y, Enters ⟨5, takeRule, undoRules.reading "a"⟩ y ∧ y.rule = takeRule ∧
        (y.lexer.engine.pos, y.lexer.engine.recognition) = (0, .ready) := by
  refine ⟨by decide +kernel, ?_⟩
  exact exists_enters "take" (fun l => (l.engine.pos, l.engine.recognition)) rfl rfl
    (by decide +kernel)

end Application

namespace Application

variable {x y : Application} {rs : Ruleset} {rank : String → Nat} {top : Nat}

/-- What is left to do counts first, the rank of the rule second. -/
def weight (rank : String → Nat) (top : Nat) (x : Application) : Nat :=
  x.lexer.engine.toGo * (top + 1) + rank x.rule.name

theorem Below.weight_lt (h : Below rank y x) (htop : rank y.rule.name ≤ top) :
    y.weight rank top < x.weight rank top := by
  unfold weight
  rcases h with hlt | ⟨heq, hlt⟩
  · have hmul := Nat.mul_le_mul_right (top + 1) (Nat.succ_le_of_lt hlt)
    rw [Nat.succ_mul] at hmul
    omega
  · rw [heq]
    omega

theorem weight_lt (htop : rank x.rule.name ≤ top) :
    x.weight rank top < (top + 1) * (x.lexer.engine.toGo + 1) := by
  unfold weight
  rw [Nat.mul_comm (top + 1) (x.lexer.engine.toGo + 1), Nat.succ_mul x.lexer.engine.toGo]
  omega

/-- An application whose weight its allowance exceeds comes to an end. -/
theorem returned_of_weight_lt
    (hrank : ∀ name r, rs.rule? name = some r →
      rank name ≤ top ∧ ∀ next ∈ r.unguardedSubrules, rank next < rank name)
    (hconsume : rs.Consuming) (hnever : rs.NeverRewinds) {n : Nat} {r : Rule} {l : Lexer}
    (hx : (⟨n, r, l⟩ : Application).Proper rs)
    (hw : (⟨n, r, l⟩ : Application).weight rank top < n) : Returned (r.run (respond n) l) := by
  -- by induction on the allowance: what is called has one less, and a lower weight
  induction n generalizing r l with
  | zero => omega
  | succ n ih =>
    refine Rule.run_returned (respond_answers (n + 1)) r hx.operations ?_
    rintro ⟨name, l'⟩ hcall
    simp only [respond, Program.bind_apply, Program.get_apply]
    cases hr : l'.ruleset.rule? name with
    | none => exact returned_fault _ _
    | some r' =>
      have henters : Enters ⟨n + 1, r, l⟩ ⟨n, r', l'⟩ := ⟨rfl, name, hcall, hr⟩
      have hy := henters.proper hx
      have hbelow := henters.below hrank hconsume hx (hx.steady hnever)
      have hlt := hbelow.weight_lt (hrank _ _ hy.rule).1
      apply ih hy
      unfold weight at hlt hw ⊢
      dsimp only at hlt hw ⊢
      omega

end Application

/-- Every rule of a valid rule set that never rewinds, and whose patterns consume, comes to an end
when it is applied without registered operations to any lexer, whatever state it is in: the depth
to which the calls for rules nest has a bound proportional to what is left to do. With a larger
allowance the outcome stays the same. -/
theorem Ruleset.applications_return {rs : Ruleset} (hvalid : rs.validate = .ok ())
    (hnever : rs.NeverRewinds) (hconsume : rs.Consuming) :
    ∃ depth, ∀ name r l, rs.rule? name = some r → l.ruleset = rs → l.operations = [] →
      Returned (r.run (respond (depth * (l.engine.toGo + 1))) l) ∧
        ∀ n, depth * (l.engine.toGo + 1) ≤ n →
          r.run (respond n) l = r.run (respond (depth * (l.engine.toGo + 1))) l := by
  obtain ⟨rank, top, hrank⟩ := exists_rank hvalid
  refine ⟨top + 1, ?_⟩
  intro name r l hr hset hops
  obtain rfl := name_of_rule? hr
  have hreturned : Returned (r.run (respond ((top + 1) * (l.engine.toGo + 1))) l) :=
    Application.returned_of_weight_lt hrank hconsume hnever ⟨hset, hops, hr⟩
      (Application.weight_lt (x := ⟨_, r, l⟩) (hrank _ _ hr).1)
  refine ⟨hreturned, ?_⟩
  intro n hn
  exact Rule.run_extends (fun c => respond_extends hn c) r l hreturned

def Ruleset.lists : Ruleset :=
  { types := some []
    rules := [
      { name := "items", kind := .standard
        handlers := [⟨.char ')', .enqueue (.symbol "CLOSE")⟩]
        otherwise := .subrule "list" },
      { name := "list", kind := .lookahead
        handlers := [⟨.char '(', .sequence [.enqueue (.symbol "OPEN"), .subrule "items"]⟩]
        otherwise := .enqueue (.symbol "WORD") }] }

/-- Lists are read to their end, whatever the text. -/
theorem Ruleset.lists_return :
    lists.validate = .ok () ∧ lists.NeverRewinds ∧ lists.Consuming ∧
      ∃ depth, ∀ text n, depth * ((lists.reading text).engine.toGo + 1) ≤ n →
        ∀ r, lists.rule? "items" = some r → Returned (r.run (respond n) (lists.reading text)) := by
  have hvalid : lists.validate = .ok () := by decide +kernel
  have hnever : lists.NeverRewinds := by decide
  have hconsume : lists.Consuming := by
    intro r hr p hp
    have hscanned : r.scanned = [.char ')'] ∨ r.scanned = [.char '('] := by
      simp only [lists, List.mem_cons, List.not_mem_nil, or_false] at hr
      rcases hr with rfl | rfl
      · exact .inl rfl
      · exact .inr rfl
    rcases hscanned with h | h <;> rw [h, List.mem_singleton] at hp <;>
      exact hp ▸ Pattern.char_consumes _
  refine ⟨hvalid, hnever, hconsume, ?_⟩
  obtain ⟨depth, hdepth⟩ := applications_return hvalid hnever hconsume
  refine ⟨depth, ?_⟩
  intro text n hn r hr
  obtain ⟨hreturned, hsame⟩ := hdepth "items" r (lists.reading text) hr rfl rfl
  rw [hsame n hn]
  exact hreturned

end TableLexer
