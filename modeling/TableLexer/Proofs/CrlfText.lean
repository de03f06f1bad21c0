import TableLexer.Proofs.DefaultNoise
import TableLexer.Proofs.LineBreaks

/-!
# Texts with a carriage return before each line feed

A text without carriage returns and the text with one before each line feed have the same lines.
Places in the first correspond to places in the second, in the same order.
-/
namespace TableLexer

open LayoutPattern (LineOver noise)

namespace Text

def crlf (text : List Char) : List Char :=
  text.flatMap fun c => if c = '\n' then ['\r', '\n'] else [c]

/-- The place in the text with carriage returns that corresponds to the place `i`. -/
def crlfPlace (text : List Char) (i : Nat) : Nat := (crlf (text.take i)).length

def lineAt (text : List Char) (i : Nat) : List Char := (text.drop i).takeWhile (· ≠ '\n')

variable {text line rest : List Char} {i j n : Nat}

theorem crlf_append (a b : List Char) : crlf (a ++ b) = crlf a ++ crlf b := List.flatMap_append

theorem crlf_feed (rest : List Char) : crlf ('\n' :: rest) = '\r' :: '\n' :: crlf rest := rfl

theorem crlf_cons {c : Char} (h : c ≠ '\n') (rest : List Char) :
    crlf (c :: rest) = c :: crlf rest := by
  simp [crlf, h]

theorem crlf_line (h : '\n' ∉ line) : crlf line = line := by
  induction line with
  | nil => rfl
  | cons c rest ih =>
    rw [List.mem_cons, not_or] at h
    rw [crlf_cons (Ne.symm h.1), ih h.2]

theorem length_le_crlf (text : List Char) : text.length ≤ (crlf text).length := by
  induction text with
  | nil => exact Nat.le_refl _
  | cons c rest ih =>
    by_cases h : c = '\n'
    · subst h
      rw [crlf_feed]
      simp only [List.length_cons]
      omega
    · rw [crlf_cons h]
      simp only [List.length_cons]
      omega

theorem drop_crlf (text : List Char) (i : Nat) :
    (crlf text).drop (crlfPlace text i) = crlf (text.drop i) := by
  have hsplit := crlf_append (text.take i) (text.drop i)
  rw [List.take_append_drop] at hsplit
  rw [hsplit, crlfPlace, List.drop_left]

theorem crlfPlace_le (text : List Char) (i : Nat) : crlfPlace text i ≤ (crlf text).length := by
  have hsplit := crlf_append (text.take i) (text.drop i)
  rw [List.take_append_drop] at hsplit
  rw [hsplit, crlfPlace, List.length_append]
  exact Nat.le_add_right _ _

theorem crlfPlace_add (text : List Char) (i n : Nat) :
    crlfPlace text (i + n) = crlfPlace text i + (crlf (slice text i (i + n))).length := by
  rw [crlfPlace, take_add_slice, crlf_append, List.length_append, crlfPlace]

theorem length_slice (h : i + n ≤ text.length) : (slice text i (i + n)).length = n := by
  rw [slice_add, List.length_take, List.length_drop]
  omega

theorem crlfPlace_lt (h : i < j) (hj : j ≤ text.length) : crlfPlace text i < crlfPlace text j := by
  obtain ⟨n, rfl⟩ := Nat.exists_eq_add_of_lt h
  have hlen := length_le_crlf (slice text i (i + (n + 1)))
  rw [length_slice (by omega)] at hlen
  rw [Nat.add_assoc, crlfPlace_add]
  omega

theorem crlfPlace_eq_iff (hi : i ≤ text.length) (hj : j ≤ text.length) :
    crlfPlace text i = crlfPlace text j ↔ i = j := by
  constructor
  · intro h
    rcases Nat.lt_trichotomy i j with hlt | heq | hlt
    · have := crlfPlace_lt hlt hj
      omega
    · exact heq
    · have := crlfPlace_lt hlt hi
      omega
  · rintro rfl
    rfl

theorem lineAt_split (text : List Char) (i : Nat) :
    ∃ s, text.drop i = lineAt text i ++ s ∧ LineOver s ∧ '\n' ∉ lineAt text i := by
  refine ⟨(text.drop i).dropWhile (· ≠ '\n'), List.takeWhile_append_dropWhile.symm, ?_, ?_⟩
  · intro c hc
    have hhead := List.head?_dropWhile_not (· ≠ '\n') (text.drop i)
    rw [Option.mem_def.mp hc] at hhead
    simpa using hhead
  · intro hmem
    have hall := List.all_takeWhile (p := (· ≠ '\n')) (l := text.drop i)
    simpa using List.all_eq_true.mp hall _ hmem

theorem lineAt_add (h : n ≤ (lineAt text i).length) :
    lineAt text (i + n) = (lineAt text i).drop n := by
  obtain ⟨s, hsplit, hs, hline⟩ := lineAt_split text i
  have hinside : ∀ c ∈ (lineAt text i).drop n, decide (c ≠ '\n') = true := by
    intro c hc
    rw [decide_eq_true_iff]
    rintro rfl
    exact hline (List.mem_of_mem_drop hc)
  have hover : s.takeWhile (· ≠ '\n') = [] := by
    rcases hs.cases with rfl | ⟨rest, rfl⟩ <;> simp
  rw [lineAt, ← List.drop_drop, hsplit, List.drop_append_of_le_length h,
    List.takeWhile_append_of_pos hinside, hover, List.append_nil]

theorem plain_of_line (h : '\n' ∉ line) (hr : '\r' ∉ line) : hasLineBreak line = false := by
  rw [hasLineBreak, List.any_eq_false]
  intro c hc
  have hn : c ≠ '\n' := by
    rintro rfl
    exact h hc
  have hr' : c ≠ '\r' := by
    rintro rfl
    exact hr hc
  simp [hn, hr']

theorem no_feed (h : hasLineBreak line = false) : '\n' ∉ line := by
  intro hmem
  rw [hasLineBreak, List.any_eq_false] at h
  simpa using h _ hmem

theorem take_plain (h : hasLineBreak line = false) (n : Nat) :
    hasLineBreak (line.take n) = false := by
  rw [hasLineBreak, List.any_eq_false] at h ⊢
  exact fun c hc => h c (List.mem_of_mem_take hc)

/-- In a text without carriage returns, the rest of a line has no breaks. -/
theorem lineAt_plain (hr : '\r' ∉ text) (i : Nat) : hasLineBreak (lineAt text i) = false := by
  obtain ⟨s, hsplit, -, hline⟩ := lineAt_split text i
  refine plain_of_line hline fun hmem => hr ?_
  exact List.mem_of_mem_drop (hsplit ▸ List.mem_append_left s hmem)

/-- The noise at the place `i` ends in a comment with a line feed behind it. -/
def commentAt (text : List Char) (i : Nat) : Bool :=
  (noise (lineAt text i)).2 && decide (i + (lineAt text i).length < text.length)

theorem commentAt_feed (h : text.drop i = lineAt text i ++ '\n' :: rest) :
    commentAt text i = (noise (lineAt text i)).2 := by
  have hlength := congrArg List.length h
  rw [List.length_drop, List.length_append, List.length_cons] at hlength
  have hinside : i + (lineAt text i).length < text.length := by omega
  simp [commentAt, hinside]

theorem commentAt_end (h : text.drop i = lineAt text i) : commentAt text i = false := by
  have hlength := congrArg List.length h
  rw [List.length_drop] at hlength
  have hoff : ¬ i + (lineAt text i).length < text.length := by omega
  simp [commentAt, hoff]

end Text

end TableLexer
