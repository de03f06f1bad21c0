import TableLexer.Proofs.Engine.Commands

/-!
# Returning to a snapshot

Commands that return to or drop as many snapshots as they take, and no others, leave the
snapshots below alone, whether they succeed or fail. So the return to a snapshot taken before
them undoes them altogether.
-/
namespace TableLexer.Engine

variable {e e' : Engine}

theorem scanLayout_snapshots (e : Engine) :
    (Program.final (scanLayout e)).snapshots = e.snapshots := by
  by_cases hs : e.Scannable
  · obtain ⟨o, e', h⟩ := scanLayout_total hs
    rw [h]
    exact (scanLayout_eq_ok_iff.mp h).2.snapshots
  · obtain ⟨fault, -, h⟩ := scanLayout_refuses hs
    rw [h]
    rfl

/-- A scan leaves the snapshots alone, even if it is broken off behind its match. -/
theorem scan_snapshots (p : Pattern) (e : Engine) :
    (Program.final (scan p e)).snapshots = e.snapshots := by
  have h := scan_left p e
  generalize Program.final (scan p e) = e' at h
  cases h with
  | refused => rfl
  | scanned _ h => exact h.snapshots
  | @brokenOff _ e' n h =>
    rw [← h.snapshots]
    exact tokenTaken_snapshots p n e'

theorem nextChar_snapshots (e : Engine) :
    (Program.final (nextChar e)).snapshots = e.snapshots := by
  have h := nextChar_left e
  generalize Program.final (nextChar e) = e' at h
  cases h with
  | refused => rfl
  | read _ h => exact h.snapshots
  | brokenOff => exact released_snapshots e

/-- How many snapshots of their own commands have taken and kept once this one is carried out, if
they had `depth` before; none if it reaches for a snapshot that is not theirs, or for another
text. -/
def Command.depth? (depth : Nat) : Command → Option Nat
  | .addSnapshot => some (depth + 1)
  | .restoreSnapshot | .popSnapshot => if depth = 0 then none else some (depth - 1)
  | .setInput _ => none
  | _ => some depth

def depth? (depth : Nat) : List Command → Option Nat
  | [] => some depth
  | c :: cs => (c.depth? depth).bind fun inner => depth? inner cs

def Balanced (cs : List Command) : Prop := depth? 0 cs = some 0

instance (cs : List Command) : Decidable (Balanced cs) := inferInstanceAs (Decidable (_ = _))

/-- The engine `e'` has the text of `e` and its snapshots, with `depth` others on top. -/
structure Above (e : Engine) (depth : Nat) (e' : Engine) : Prop where
  text : SameText e e'
  stack : ∃ own, own.length = depth ∧ e'.snapshots = own ++ e.snapshots

variable {a : Engine} {depth : Nat}

theorem Above.moved (h : Above e depth a) (ht : SameText a e') (hs : e'.snapshots = a.snapshots) :
    Above e depth e' := by
  refine ⟨h.text.trans ht, ?_⟩
  rw [hs]
  exact h.stack

/-- With a snapshot of its own on top, the stack loses that one first. -/
theorem Above.top (h : Above e (depth + 1) a) :
    ∃ s older, a.snapshots = s :: older ∧
      ∀ e', SameText a e' → e'.snapshots = older → Above e depth e' := by
  obtain ⟨own, hlen, hstack⟩ := h.stack
  obtain ⟨s, rest, rfl⟩ := List.exists_cons_of_length_eq_add_one hlen
  refine ⟨s, rest ++ e.snapshots, hstack, ?_⟩
  intro e' ht hs
  exact ⟨h.text.trans ht, rest, by simpa using hlen, hs⟩

theorem Above.next (h : Above e depth a) {c : Command} {inner : Nat}
    (hc : c.depth? depth = some inner) : Above e inner (a.next c) := by
  cases c with
  | setInput text => cases hc
  | addSnapshot =>
    obtain ⟨own, hlen, hstack⟩ := h.stack
    cases hc
    refine ⟨h.text.trans ⟨rfl, rfl⟩, a.toScan :: own, by simp [hlen], ?_⟩
    simp [Engine.next, addSnapshot, hstack]
  | restoreSnapshot | popSnapshot =>
    cases depth with
    | zero => cases hc
    | succ depth =>
      obtain rfl : depth = inner := by simpa [Command.depth?] using hc
      obtain ⟨s, older, hs, hbelow⟩ := h.top
      apply hbelow
      · simp only [Engine.next, restoreSnapshot, popSnapshot, hs]
        exact ⟨rfl, rfl⟩
      · simp [Engine.next, restoreSnapshot, popSnapshot, hs]
  | scan p =>
    cases hc
    exact h.moved (scan_sameText p a) (scan_snapshots p a)
  | scanLayout =>
    cases hc
    exact h.moved (scanLayout_sameText a) (scanLayout_snapshots a)
  | nextChar =>
    cases hc
    exact h.moved (nextChar_sameText a) (nextChar_snapshots a)
  | undoScan =>
    cases hc
    simp only [Engine.next, undoScan_eq, Program.final_ok]
    exact h.moved (undone_sameText a) (undone_snapshots a)
  | markRecognized =>
    cases hc
    simp only [Engine.next, markRecognized_eq, Program.final_ok]
    exact h.moved (recognizedNow_sameText a) (recognizedNow_snapshots a)
  | markFailed =>
    cases hc
    simp only [Engine.next, markFailed_eq, Program.final_ok]
    exact h.moved (failedNow_sameText a) (failedNow_snapshots a)
  | resetRecognition =>
    cases hc
    simp only [Engine.next, resetRecognition_eq, Program.final_ok]
    exact h.moved (rested_sameText a) (rested_snapshots a)
  | clearLexeme | takeToken =>
    cases hc
    exact h.moved ⟨rfl, rfl⟩ rfl

/-- By induction on the commands: what lies below their own snapshots stays. -/
theorem Above.after (h : Above e depth a) {cs : List Command} {inner : Nat}
    (hcs : depth? depth cs = some inner) : Above e inner (a.after cs) := by
  induction cs generalizing a depth with
  | nil =>
    cases hcs
    exact h
  | cons c cs ih =>
    obtain ⟨d, hc, hrest⟩ := Option.bind_eq_some_iff.mp hcs
    exact ih (h.next hc) hrest

theorem after_append (e : Engine) (cs ds : List Command) :
    e.after (cs ++ ds) = (e.after cs).after ds := by
  induction cs generalizing e with
  | nil => rfl
  | cons c cs ih => exact ih (e.next c)

/-- The return to a snapshot, after commands that are balanced among themselves, succeeds and
gives back the whole engine that took it, so all that follows goes as if neither had been. -/
theorem snapshot_undoes (e : Engine) {cs : List Command} (h : Balanced cs) :
    restoreSnapshot (e.addSnapshot.after cs) = .ok () e ∧
      ∀ later, e.after (.addSnapshot :: cs ++ .restoreSnapshot :: later) = e.after later := by
  have hstart : Above e.addSnapshot 0 e.addSnapshot := ⟨⟨rfl, rfl⟩, [], rfl, rfl⟩
  obtain ⟨htext, own, hlen, hstack⟩ := hstart.after h
  obtain rfl := List.eq_nil_of_length_eq_zero hlen
  have hrestore : restoreSnapshot (e.addSnapshot.after cs) = .ok () e := by
    have hs : (e.addSnapshot.after cs).snapshots = e.toScan :: e.snapshots := hstack
    simp only [restoreSnapshot, hs, htext.config, htext.input]
    rfl
  refine ⟨hrestore, ?_⟩
  intro later
  rw [List.cons_append, Engine.after, after_append, Engine.after]
  simp only [Engine.next, hrestore, Program.final_ok]

/-- In the middle of a token, commands that take a snapshot of their own, come to the end of the
text and fail there leave nothing behind for a put back that follows. -/
theorem scans_to_the_end_undone :
    let e := (new {}).after [.setInput ['a', 'b', '\n'], .nextChar]
    let cs : List Command := [.scan (.char 'b'), .addSnapshot, .clearLexeme, .nextChar, .scanLayout,
      .nextChar, .popSnapshot, .undoScan]
    ((e.addSnapshot.after cs).recognition = .aborted ∧ (e.addSnapshot.after cs).toMark ≠ e.toMark) ∧
      Balanced cs ∧ restoreSnapshot (e.addSnapshot.after cs) = .ok () e ∧
      e.after (.addSnapshot :: cs ++ [.restoreSnapshot, .undoScan]) = e.after [.undoScan] := by
  have hbalanced : Balanced [.scan (.char 'b'), .addSnapshot, .clearLexeme, .nextChar, .scanLayout,
      .nextChar, .popSnapshot, .undoScan] := by decide
  have h := snapshot_undoes ((new {}).after [.setInput ['a', 'b', '\n'], .nextChar]) hbalanced
  exact ⟨by decide +kernel, hbalanced, h.1, h.2 [.undoScan]⟩

end TableLexer.Engine
