import Mathlib.Data.List.Pairwise
import TableLexer.Proofs.Programs

/-!
# The queue as a plain list

A list follows the calls to a queue: what is enqueued joins it at the end, what is pushed ahead at
the front, and delivery takes from the front. The list remembers how and when each entry came, so
that one can tell which of those enqueued is the newest.
-/
namespace TableLexer.Queue

def Distinct (transforms : List Transform) : Prop :=
  transforms.Pairwise fun t u => t.type ≠ u.type

structure Governs (transforms : List Transform) (type : TokenType) (t : Transform) : Prop where
  mem : t ∈ transforms
  type_eq : t.type = type
  only : ∀ u ∈ transforms, u.type = type → u = t

theorem distinct_of_secondTransform {seen transforms : List Transform}
    (h : secondTransform? seen transforms = none) :
    Distinct transforms ∧ ∀ u ∈ seen, ∀ t ∈ transforms, u.type ≠ t.type := by
  induction transforms generalizing seen with
  | nil => exact ⟨.nil, by simp⟩
  | cons t rest ih =>
    rw [secondTransform?] at h
    split at h
    · cases h
    · next hseen =>
      obtain ⟨hrest, happart⟩ := ih h
      have hfirst : ∀ u ∈ seen, u.type ≠ t.type := by
        simpa [transform?, List.find?_isSome] using hseen
      refine ⟨List.pairwise_cons.mpr ⟨happart t List.mem_cons_self, hrest⟩, ?_⟩
      intro u hu
      refine List.forall_mem_cons.mpr ⟨hfirst u hu, ?_⟩
      exact happart u (List.mem_cons_of_mem _ hu)

theorem withTransforms_eq_ok {transforms : List Transform} {q : Queue}
    (h : withTransforms transforms = .ok q) : q = ⟨[], [], transforms⟩ ∧ Distinct transforms := by
  unfold withTransforms at h
  split at h
  · cases h
  · next hnone =>
    cases h
    exact ⟨rfl, (distinct_of_secondTransform hnone).1⟩

theorem Distinct.governs {transforms : List Transform} (hd : Distinct transforms)
    {type : TokenType} {t : Transform} (h : transform? transforms type = some t) :
    Governs transforms type t := by
  have hmem : t ∈ transforms := List.mem_of_find?_eq_some h
  have htype : t.type = type := by simpa using List.find?_some h
  refine ⟨hmem, htype, ?_⟩
  intro u hu hutype
  have hsymm : Std.Symm fun t u : Transform => t.type ≠ u.type := ⟨fun _ _ h => h.symm⟩
  by_cases hne : u = t
  · exact hne
  · exact absurd (hutype.trans htype.symm) (hd.forall hu hmem hne)

/-- What becomes of an entry on its way into a queue. A token passes through the transform of its
type, and what comes out passes through no other. -/
inductive Joins (transforms : List Transform) : Entry → Except LexError (Option Entry) → Prop where
  | endOfStream (token : Token) :
      Joins transforms (.endOfStream token) (.ok (some (.endOfStream token)))
  | error (e : LexError) : Joins transforms (.error e) (.ok (some (.error e)))
  | unnamed {type : TokenType} {token : Token} (h : type.isBlankSymbol = true) :
      Joins transforms (.token type token) (.error (.located .blankEntry token.position))
  | unchanged {type : TokenType} {token : Token} (h : type.isBlankSymbol = false)
      (hno : ∀ t ∈ transforms, t.type ≠ type) :
      Joins transforms (.token type token) (.ok (some (.token type token)))
  | dropped {type : TokenType} {token : Token} {t : Transform} (h : type.isBlankSymbol = false)
      (ht : Governs transforms type t) (ha : t.apply token = none) :
      Joins transforms (.token type token) (.ok none)
  | changed {type type' : TokenType} {token token' : Token} {t : Transform}
      (h : type.isBlankSymbol = false) (ht : Governs transforms type t)
      (ha : t.apply token = some (type', token')) (h' : type'.isBlankSymbol = false) :
      Joins transforms (.token type token) (.ok (some (.token type' token')))
  | unnamedNow {type type' : TokenType} {token token' : Token} {t : Transform}
      (h : type.isBlankSymbol = false) (ht : Governs transforms type t)
      (ha : t.apply token = some (type', token')) (h' : type'.isBlankSymbol = true) :
      Joins transforms (.token type token) (.error (.located .blankEntry token'.position))

theorem transformed_joins {q : Queue} (hd : Distinct q.transforms) (entry : Entry) :
    Joins q.transforms entry (q.transformed entry) := by
  cases entry with
  | endOfStream token => exact .endOfStream token
  | error e => exact .error e
  | token type token =>
    rw [transformed_token]
    cases hb : type.isBlankSymbol with
    | true => exact .unnamed hb
    | false =>
      simp only [Bool.false_eq_true, ↓reduceIte]
      cases ht : transform? q.transforms type with
      | none => exact .unchanged hb (by simpa [transform?] using ht)
      | some t =>
        have hg := hd.governs ht
        dsimp only
        cases ha : t.apply token with
        | none => exact .dropped hb hg ha
        | some changed =>
          obtain ⟨type', token'⟩ := changed
          dsimp only
          cases hb' : type'.isBlankSymbol with
          | true => exact .unnamedNow hb hg ha hb'
          | false => exact .changed hb hg ha hb'

inductive Command where
  | enqueue (entry : Entry)
  | pushAhead (entry : Entry)
  | dequeue
  | clear
  | change (f : Entry → Entry)

abbrev Reply := Except LexError (Option Entry)

def Command.program : Command → QueueM (Option Entry)
  | enqueue entry => QueueM.enqueue entry
  | pushAhead entry => QueueM.pushAhead entry
  | dequeue => some <$> QueueM.dequeue
  | clear => do modify Queue.clear; return none
  | change f => do modify fun q => q.mapLast f; return (← get).last?

def obey (q : Queue) (c : Command) : Reply × Queue :=
  match c.program q with
  | .ok reply r => (.ok reply, r)
  | .error fault r => (.error fault, r)

def after (q : Queue) : List Command → Queue
  | [] => q
  | c :: cs => (q.obey c).2.after cs

def calls (q : Queue) : List Command → List (Command × Reply)
  | [] => []
  | c :: cs => (c, (q.obey c).1) :: (q.obey c).2.calls cs

/-- An entry that waits in the queue: whether it was pushed ahead, and by which call it came. -/
structure Pending where
  entry : Entry
  ahead : Bool
  serial : Nat

/-- What a call does to the list, and what it replies. The calls are counted by `clock`. -/
inductive Listed (transforms : List Transform) (clock : Nat) :
    List Pending → Command → Reply → List Pending → Prop where
  | enqueued {l : List Pending} {entry e : Entry} (h : Joins transforms entry (.ok (some e))) :
      Listed transforms clock l (.enqueue entry) (.ok (some e)) (l ++ [⟨e, false, clock⟩])
  | pushedAhead {l : List Pending} {entry e : Entry} (h : Joins transforms entry (.ok (some e))) :
      Listed transforms clock l (.pushAhead entry) (.ok (some e)) (⟨e, true, clock⟩ :: l)
  | dropped {l : List Pending} {c : Command} {entry : Entry}
      (hc : c = .enqueue entry ∨ c = .pushAhead entry) (h : Joins transforms entry (.ok none)) :
      Listed transforms clock l c (.ok none) l
  | refused {l : List Pending} {c : Command} {entry : Entry} {fault : LexError}
      (hc : c = .enqueue entry ∨ c = .pushAhead entry)
      (h : Joins transforms entry (.error fault)) : Listed transforms clock l c (.error fault) l
  | delivered (p : Pending) (l : List Pending) :
      Listed transforms clock (p :: l) .dequeue (.ok (some p.entry)) l
  | exhausted : Listed transforms clock [] .dequeue (.error (.plain .emptyQueue)) []
  | cleared (l : List Pending) : Listed transforms clock l .clear (.ok none) []
  | changed (l : List Pending) (p : Pending) (f : Entry → Entry) :
      Listed transforms clock (l ++ [p]) (.change f) (.ok (some (f p.entry)))
        (l ++ [{ p with entry := f p.entry }])
  | unchanged (f : Entry → Entry) : Listed transforms clock [] (.change f) (.ok none) []

inductive Follows (transforms : List Transform) :
    Nat → List Pending → List (Command × Reply) → List Pending → Prop where
  | done (clock : Nat) (l : List Pending) : Follows transforms clock l [] l
  | call {clock : Nat} {l l₁ l₂ : List Pending} {c : Command} {reply : Reply}
      {rest : List (Command × Reply)} (h : Listed transforms clock l c reply l₁)
      (hr : Follows transforms (clock + 1) l₁ rest l₂) :
      Follows transforms clock l ((c, reply) :: rest) l₂

def Holds (q : Queue) (l : List Pending) : Prop := q.toList = l.map Pending.entry

/-- Each call does to the entries of the queue what it does to the list. -/
theorem obey_listed {q : Queue} {l : List Pending} (hd : Distinct q.transforms)
    (h : q.Holds l) (clock : Nat) (c : Command) :
    ∃ l', Listed q.transforms clock l c (q.obey c).1 l' ∧ (q.obey c).2.Holds l' ∧
      (q.obey c).2.transforms = q.transforms := by
  unfold Holds at h
  cases c with
  | enqueue entry =>
    have hj := transformed_joins hd entry
    simp only [obey, Command.program, QueueM.enqueue_apply]
    cases ht : q.transformed entry with
    | error fault => exact ⟨l, .refused (.inl rfl) (ht ▸ hj), h, rfl⟩
    | ok reply =>
      cases reply with
      | none => exact ⟨l, .dropped (.inl rfl) (ht ▸ hj), h, rfl⟩
      | some e => exact ⟨_, .enqueued (ht ▸ hj), by simp [Holds, toList, ← h], rfl⟩
  | pushAhead entry =>
    have hj := transformed_joins hd entry
    simp only [obey, Command.program, QueueM.pushAhead_apply]
    cases ht : q.transformed entry with
    | error fault => exact ⟨l, .refused (.inr rfl) (ht ▸ hj), h, rfl⟩
    | ok reply =>
      cases reply with
      | none => exact ⟨l, .dropped (.inr rfl) (ht ▸ hj), h, rfl⟩
      | some e => exact ⟨_, .pushedAhead (ht ▸ hj), by simp [Holds, toList, ← h], rfl⟩
  | dequeue =>
    simp only [obey, Command.program, Program.map_apply]
    cases hq : QueueM.dequeue q with
    | error fault r =>
      obtain rfl := QueueM.dequeue_clean hq
      obtain ⟨hempty, rfl⟩ := dequeue_eq_error (QueueM.on_eq_error hq)
      obtain rfl : l = [] := by simpa [hempty] using h
      exact ⟨[], .exhausted, h, rfl⟩
    | ok e r =>
      obtain ⟨hlist, htransforms⟩ := dequeue_eq_ok (QueueM.on_eq_ok hq)
      rw [hlist] at h
      obtain ⟨p, l', rfl, rfl, hrest⟩ := List.map_eq_cons_iff.mp h.symm
      exact ⟨l', .delivered p l', hrest.symm, htransforms⟩
  | clear => exact ⟨[], .cleared l, rfl, rfl⟩
  | change f =>
    change ∃ l', Listed q.transforms clock l (.change f) (.ok (q.mapLast f).last?) l' ∧
      (q.mapLast f).Holds l' ∧ (q.mapLast f).transforms = q.transforms
    rw [last?_eq, toList_mapLast, last?_eq, h]
    rcases List.eq_nil_or_concat l with rfl | ⟨l', p, rfl⟩
    · refine ⟨[], .unchanged f, ?_, mapLast_transforms q f⟩
      simp [Holds, toList_mapLast, last?_eq, h]
    · rw [List.concat_eq_append] at h ⊢
      refine ⟨l' ++ [{ p with entry := f p.entry }], ?_, ?_, mapLast_transforms q f⟩
      · simpa using Listed.changed l' p f
      · simp [Holds, toList_mapLast, last?_eq, h]

/-- By induction on the calls: the list after the last one has the entries of the queue. -/
theorem after_follows {q : Queue} {l : List Pending} (hd : Distinct q.transforms)
    (h : q.Holds l) (clock : Nat) (commands : List Command) :
    ∃ l', Follows q.transforms clock l (q.calls commands) l' ∧ (q.after commands).Holds l' := by
  induction commands generalizing q l clock with
  | nil => exact ⟨l, .done clock l, h⟩
  | cons c commands ih =>
    obtain ⟨l₁, hlisted, hholds, htransforms⟩ := obey_listed hd h clock c
    obtain ⟨l₂, hfollows, hlast⟩ := ih (htransforms ▸ hd) hholds (clock + 1)
    rw [htransforms] at hfollows
    exact ⟨l₂, .call hlisted hfollows, hlast⟩

/-- Those pushed ahead stand before those enqueued, which stand in the order in which they came. -/
structure InOrder (clock : Nat) (l : List Pending) : Prop where
  sorted : l.Pairwise fun p later => p.ahead = false → later.ahead = false ∧ p.serial < later.serial
  past : ∀ p ∈ l, p.serial < clock

theorem InOrder.listed {transforms : List Transform} {clock : Nat} {l l' : List Pending}
    {c : Command} {reply : Reply} (h : InOrder clock l)
    (hl : Listed transforms clock l c reply l') : InOrder (clock + 1) l' := by
  have hpast : ∀ p ∈ l, p.serial < clock + 1 := fun p hp => Nat.lt_succ_of_lt (h.past p hp)
  cases hl with
  | enqueued =>
    constructor
    · rw [List.pairwise_append]
      refine ⟨h.sorted, List.pairwise_singleton _ _, ?_⟩
      intro p hp new hnew _
      obtain rfl := List.mem_singleton.mp hnew
      exact ⟨rfl, h.past p hp⟩
    · simpa [or_imp, forall_and] using hpast
  | pushedAhead => exact ⟨List.pairwise_cons.mpr ⟨by simp, h.sorted⟩, by simpa using hpast⟩
  | dropped | refused => exact ⟨h.sorted, hpast⟩
  | delivered =>
    exact ⟨(List.pairwise_cons.mp h.sorted).2, fun p hp => hpast p (List.mem_cons_of_mem _ hp)⟩
  | exhausted | unchanged | cleared => exact ⟨.nil, by simp⟩
  | changed before p f =>
    obtain ⟨hbefore, -, hlast⟩ := List.pairwise_append.mp h.sorted
    constructor
    · rw [List.pairwise_append]
      refine ⟨hbefore, List.pairwise_singleton _ _, ?_⟩
      intro r hr changed hchanged
      obtain rfl := List.mem_singleton.mp hchanged
      exact hlast r hr p (by simp)
    · simpa [or_imp, forall_and] using hpast

theorem InOrder.follows {transforms : List Transform} {clock : Nat} {l l' : List Pending}
    {history : List (Command × Reply)} (h : InOrder clock l)
    (hf : Follows transforms clock l history l') : ∃ now, InOrder now l' := by
  induction hf with
  | done clock l => exact ⟨clock, h⟩
  | call hl _ ih => exact ih (h.listed hl)

def Newest (l : List Pending) (p : Pending) : Prop :=
  p ∈ l ∧ p.ahead = false ∧ ∀ other ∈ l, other.ahead = false → other.serial ≤ p.serial

theorem InOrder.newest_last {clock : Nat} {l : List Pending} (h : InOrder clock l)
    (hex : ∃ p ∈ l, p.ahead = false) : ∃ before p, l = before ++ [p] ∧ Newest l p := by
  obtain ⟨p, hp, hahead⟩ := hex
  obtain ⟨before, last, hl⟩ := (List.eq_nil_or_concat l).resolve_left (List.ne_nil_of_mem hp)
  rw [List.concat_eq_append] at hl
  subst hl
  obtain ⟨-, -, hlast⟩ := List.pairwise_append.mp h.sorted
  have hbelow : ∀ r ∈ before, r.ahead = false → last.ahead = false ∧ r.serial < last.serial :=
    fun r hr => hlast r hr last (by simp)
  refine ⟨before, last, rfl, by simp, ?_, ?_⟩
  · rcases List.mem_append.mp hp with hp | hp
    · exact (hbelow p hp hahead).1
    · exact List.mem_singleton.mp hp ▸ hahead
  · intro other hother hfirst
    rcases List.mem_append.mp hother with hother | hother
    · exact Nat.le_of_lt (hbelow other hother hfirst).2
    · exact Nat.le_of_eq (congrArg Pending.serial (List.mem_singleton.mp hother))

/-- How a queue stands to a list after the calls that the list has followed. -/
structure Refines (q : Queue) (l : List Pending) : Prop where
  entries : q.toList = l.map Pending.entry
  newest : (∃ p ∈ l, p.ahead = false) →
    ∃ before p, l = before ++ [p] ∧ Newest l p ∧ q.last? = some p.entry
  failing : ∀ c fault, (q.obey c).1 = .error fault → (q.obey c).2 = q

theorem Command.program_clean (c : Command) : c.program.Clean := by
  cases c with
  | enqueue entry => exact QueueM.enqueue_clean entry
  | pushAhead entry => exact QueueM.pushAhead_clean entry
  | dequeue =>
    intro q r fault h
    rw [program, Program.map_apply] at h
    split at h
    · cases h
    · next hq =>
      cases h
      exact QueueM.dequeue_clean hq
  | clear | change =>
    intro q r fault h
    cases h

theorem obey_fails {q : Queue} {c : Command} {fault : LexError}
    (h : (q.obey c).1 = .error fault) : (q.obey c).2 = q := by
  unfold obey at h ⊢
  cases hr : c.program q with
  | ok reply r =>
    rw [hr] at h
    cases h
  | error e r => exact c.program_clean hr

/-- Whatever the calls to a new queue were, a plain list has followed them: it gave the same replies
and has the same entries in the order of delivery. -/
theorem calls_refine_list {transforms : List Transform} {q : Queue}
    (h : withTransforms transforms = .ok q) (commands : List Command) :
    ∃ l, Follows transforms 0 [] (q.calls commands) l ∧ (q.after commands).Refines l := by
  obtain ⟨rfl, hd⟩ := withTransforms_eq_ok h
  obtain ⟨l, hfollows, hholds⟩ :=
    after_follows (q := ⟨[], [], transforms⟩) (l := []) hd rfl 0 commands
  obtain ⟨now, horder⟩ := InOrder.follows ⟨.nil, by simp⟩ hfollows
  refine ⟨l, hfollows, hholds, ?_, fun _ _ => obey_fails⟩
  intro hex
  obtain ⟨before, p, hsplit, hnewest⟩ := horder.newest_last hex
  refine ⟨before, p, hsplit, hnewest, ?_⟩
  rw [last?_eq, hholds, hsplit]
  simp

/-- A token that is given the type of dropped tokens on its way in stays, one that comes with this
type is dropped, and one whose type has no name is refused. -/
theorem calls_refine_list_retyped :
    let transforms : List Transform :=
      [⟨.symbol "A", fun token => some (.symbol "B", token)⟩, ⟨.symbol "B", fun _ => none⟩]
    let token := Token.ofLexeme "a" ⟨0, 1, 0⟩
    let commands : List Command :=
      [.enqueue (.token (.symbol "A") token), .enqueue (.token (.symbol "B") token),
        .enqueue (.token (.symbol "") token), .pushAhead (.endOfStream token),
        .change (Entry.retypeFrom (.symbol "B") (.symbol "C"))]
    (Queue.after ⟨[], [], transforms⟩ commands).toList =
        [.endOfStream token, .token (.symbol "C") token] ∧
      ∃ l, Follows transforms 0 [] (Queue.calls ⟨[], [], transforms⟩ commands) l ∧
        (Queue.after ⟨[], [], transforms⟩ commands).Refines l :=
  ⟨by rfl, calls_refine_list (by rfl) _⟩

end TableLexer.Queue
