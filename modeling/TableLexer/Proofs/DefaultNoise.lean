import TableLexer.Noise
import TableLexer.Proofs.Repetition

/-!
# What the default noise skips

A run of default noise is a run of blanks and closed comments within a line, which may end in a
comment to the end of that line. That comment takes whatever the line ends with except a line
feed, also a carriage return.
-/
namespace TableLexer.LayoutPattern

open Regex

def closing? : List Char → Option Nat
  | [] => none
  | c :: rest =>
    if c = '*' ∧ rest.head? = some '/' then some 2 else (closing? rest).map (· + 1)

/-- The length of one piece of noise at the start of a line, and whether it is a comment that runs
to the end of the line. -/
def piece? : List Char → Option (Nat × Bool)
  | [] => none
  | c :: rest =>
    if c = '#' then some (rest.length + 1, true)
    else if c = ' ' ∨ c = '\t' ∨ c = '\x0c' then some (1, false)
    else if c = '/' ∧ rest.head? = some '*' then (closing? rest.tail).map fun n => (n + 2, false)
    else none

/-- The pieces of noise at the start of a line, within `room` of them: their length altogether,
and whether they end in a comment that runs to the end of the line. -/
def pieces : (room : Nat) → List Char → Nat × Bool
  | 0, _ => (0, false)
  | room + 1, line =>
    match piece? line with
    | none => (0, false)
    | some (n, comment) =>
      (n + (pieces room (line.drop n)).1, comment || (pieces room (line.drop n)).2)

def noise (line : List Char) : Nat × Bool := pieces line.length line

variable {line s : List Char} {n : Nat} {comment : Bool}

theorem pieces_none (h : piece? line = none) (room : Nat) : pieces room line = (0, false) := by
  cases room with
  | zero => rfl
  | succ room => simp only [pieces, h]

theorem pieces_some (h : piece? line = some (n, comment)) (room : Nat) :
    pieces (room + 1) line =
      (n + (pieces room (line.drop n)).1, comment || (pieces room (line.drop n)).2) := by
  simp only [pieces, h]

theorem closing?_le (h : closing? line = some n) : 0 < n ∧ n ≤ line.length := by
  induction line generalizing n with
  | nil => cases h
  | cons c rest ih =>
    simp only [closing?] at h
    split at h
    · next hc =>
      obtain ⟨t, rfl⟩ := List.head?_eq_some_iff.mp hc.2
      cases h
      simp
    · obtain ⟨m, hm, rfl⟩ := Option.map_eq_some_iff.mp h
      have := ih hm
      simp only [List.length_cons]
      omega

/-- What a piece of noise can be. -/
theorem piece?_cases {c : Char} {rest : List Char} (h : piece? (c :: rest) = some (n, comment)) :
    c = '#' ∧ n = rest.length + 1 ∧ comment = true ∨
    c ≠ '#' ∧ (c = ' ' ∨ c = '\t' ∨ c = '\x0c') ∧ n = 1 ∧ comment = false ∨
    c = '/' ∧ ∃ body m, rest = '*' :: body ∧ closing? body = some m ∧ n = m + 2 ∧
      comment = false := by
  simp only [piece?] at h
  split at h
  · next hc =>
    cases h
    exact .inl ⟨hc, rfl, rfl⟩
  split at h
  · next hc hb =>
    cases h
    exact .inr (.inl ⟨hc, hb, rfl, rfl⟩)
  split at h
  · next hc =>
    obtain ⟨body, rfl⟩ := List.head?_eq_some_iff.mp hc.2
    obtain ⟨m, hm, he⟩ := Option.map_eq_some_iff.mp h
    cases he
    exact .inr (.inr ⟨hc.1, body, m, rfl, hm, rfl, rfl⟩)
  · cases h

theorem piece?_le (h : piece? line = some (n, comment)) :
    0 < n ∧ n ≤ line.length ∧ (comment = true → n = line.length) := by
  cases line with
  | nil => cases h
  | cons c rest =>
    rcases piece?_cases h with ⟨-, rfl, rfl⟩ | ⟨-, -, rfl, rfl⟩ | ⟨-, body, m, rfl, hm, rfl, rfl⟩
    · simp
    · simp
    · have := closing?_le hm
      simp only [List.length_cons, Bool.false_eq_true, false_implies, and_true]
      omega

/-- More room than the line has characters makes no difference. -/
theorem pieces_enough {room room' : Nat} (h : line.length ≤ room) (h' : line.length ≤ room') :
    pieces room line = pieces room' line := by
  induction room generalizing line room' with
  | zero =>
    obtain rfl : line = [] := List.length_eq_zero_iff.mp (by omega)
    rw [pieces_none rfl, pieces_none rfl]
  | succ room ih =>
    cases room' with
    | zero =>
      obtain rfl : line = [] := List.length_eq_zero_iff.mp (by omega)
      rw [pieces_none rfl, pieces_none rfl]
    | succ room' =>
      cases hp : piece? line with
      | none => rw [pieces_none hp, pieces_none hp]
      | some found =>
        have hn := piece?_le hp
        have hlen : (line.drop found.1).length = line.length - found.1 := List.length_drop
        have hrest : pieces room (line.drop found.1) = pieces room' (line.drop found.1) :=
          ih (by omega) (by omega)
        rw [pieces_some hp, pieces_some hp, hrest]

theorem noise_none (h : piece? line = none) : noise line = (0, false) := pieces_none h _

theorem noise_some (h : piece? line = some (n, comment)) :
    noise line = (n + (noise (line.drop n)).1, comment || (noise (line.drop n)).2) := by
  have hn := piece?_le h
  have hlen : (line.drop n).length = line.length - n := List.length_drop
  have hfull : noise line = pieces (line.length - 1 + 1) line :=
    pieces_enough (Nat.le_refl _) (by omega)
  have hrest : pieces (line.length - 1) (line.drop n) = noise (line.drop n) :=
    pieces_enough (by omega) (Nat.le_refl _)
  rw [hfull, pieces_some h, hrest]

theorem noise_nil : noise [] = (0, false) := rfl

/-- Behind a run of noise there is no more noise; the induction is on the length of the line. -/
theorem noise_drop (line : List Char) :
    (noise line).1 ≤ line.length ∧ piece? (line.drop (noise line).1) = none := by
  induction hlen : line.length using Nat.strongRecOn generalizing line with
  | _ length ih =>
    cases hp : piece? line with
    | none =>
      rw [noise_none hp]
      exact ⟨Nat.zero_le _, hp⟩
    | some found =>
      obtain ⟨n, comment⟩ := found
      have hn := piece?_le hp
      have hshort : (line.drop n).length = line.length - n := List.length_drop
      obtain ⟨hle, hnone⟩ := ih _ (by omega) (line.drop n) rfl
      rw [noise_some hp]
      dsimp only
      rw [← List.drop_drop]
      exact ⟨by omega, hnone⟩

/-- Without a hash there is no comment to the end of the line; the induction is on the length. -/
theorem noise_hashless (h : '#' ∉ line) : (noise line).2 = false := by
  induction hlen : line.length using Nat.strongRecOn generalizing line with
  | _ length ih =>
    cases hp : piece? line with
    | none => rw [noise_none hp]
    | some found =>
      obtain ⟨n, comment⟩ := found
      have hn := piece?_le hp
      have hshort : (line.drop n).length = line.length - n := List.length_drop
      have hhash : '#' ∉ line.drop n := fun hmem => h (List.mem_of_mem_drop hmem)
      have hrest := ih (line.drop n).length (by omega) hhash rfl
      have hcomment : comment = false := by
        cases line with
        | nil => cases hp
        | cons c rest =>
          rcases piece?_cases hp with ⟨rfl, -, -⟩ | ⟨-, -, -, hf⟩ | ⟨-, -, -, -, -, -, hf⟩
          · exact absurd List.mem_cons_self h
          · exact hf
          · exact hf
      rw [noise_some hp, hcomment, hrest]
      rfl

theorem closing?_concat (line : List Char) : closing? (line ++ ['\r']) = closing? line := by
  induction line with
  | nil => rfl
  | cons c rest ih =>
    have hhead : (rest ++ ['\r']).head? = some '/' ↔ rest.head? = some '/' := by
      cases rest <;> simp
    simp only [List.cons_append, closing?, hhead, ih]

theorem piece?_concat (line : List Char) :
    piece? (line ++ ['\r']) = (piece? line).map fun found =>
      (if found.2 then found.1 + 1 else found.1, found.2) := by
  cases line with
  | nil => rfl
  | cons c rest =>
    have hhead : (rest ++ ['\r']).head? = some '*' ↔ rest.head? = some '*' := by
      cases rest <;> simp
    simp only [List.cons_append, piece?, hhead, List.length_append, List.length_singleton]
    split
    · rfl
    split
    · rfl
    split
    · next hc =>
      obtain ⟨body, rfl⟩ := List.head?_eq_some_iff.mp hc.2
      simp only [List.cons_append, List.tail_cons, closing?_concat, Option.map_map]
      rfl
    · rfl

/-- A carriage return behind the line is noise if the line ends in a comment, and else is not; the
induction is on the length of the line. -/
theorem noise_concat (line : List Char) :
    (noise (line ++ ['\r'])).2 = (noise line).2 ∧
      (noise (line ++ ['\r'])).1 = (noise line).1 + (if (noise line).2 then 1 else 0) ∧
      ((noise line).2 = true → (noise line).1 = line.length) := by
  induction hlen : line.length using Nat.strongRecOn generalizing line with
  | _ length ih =>
    have hconcat := piece?_concat line
    cases hp : piece? line with
    | none =>
      rw [hp] at hconcat
      simp [noise_none hp, noise_none hconcat]
    | some found =>
      obtain ⟨n, comment⟩ := found
      rw [hp] at hconcat
      have hn := piece?_le hp
      cases comment with
      | true =>
        have hfull : n = line.length := hn.2.2 rfl
        have hnone : (line ++ ['\r']).drop (n + 1) = [] := by simp [hfull]
        have hnone' : line.drop n = [] := by simp [hfull]
        rw [noise_some hp, noise_some hconcat]
        simp only [↓reduceIte, hnone, hnone', noise_nil]
        simp [hfull, hlen]
      | false =>
        have hdrop : (line ++ ['\r']).drop n = line.drop n ++ ['\r'] :=
          List.drop_append_of_le_length hn.2.1
        have hshort : (line.drop n).length = line.length - n := List.length_drop
        obtain ⟨h₁, h₂, h₃⟩ := ih _ (by omega) (line.drop n) rfl
        rw [noise_some hp, noise_some hconcat]
        simp only [Bool.false_eq_true, ↓reduceIte, Bool.false_or, hdrop, h₁, h₂]
        refine ⟨trivial, by omega, ?_⟩
        intro hc
        have := h₃ hc
        omega

abbrev inLine : Regex := commentsAndBlanks.notNewline

def commentTail : Regex := .seq (.rep 0 none false inLine) (.seq (char '*') (char '/'))

def piece : Regex :=
  .alt (.seq (char '#') (.rep 0 none true inLine))
    (.alt (.seq (char '/') (.seq (char '*') commentTail))
      (.set (.union (.singleton ' ') (.union (.singleton '\t') (.singleton '\x0c')))))

theorem commentsAndBlanks_eq :
    commentsAndBlanks =
      .regex ⟨"(?:#.*|/\\*.*?\\*/|[ \\t\\f])+", .rep 1 none true piece, false⟩ := rfl

variable {β : Type} {k : Cursor → Option β} {cur : Cursor} {b : β}

def LineOver (s : List Char) : Prop := ∀ c ∈ s.head?, c = '\n'

theorem LineOver.cases (h : LineOver s) : s = [] ∨ ∃ t, s = '\n' :: t := by
  cases s with
  | nil => exact .inl rfl
  | cons c t =>
    obtain rfl := h c rfl
    exact .inr ⟨t, rfl⟩

theorem inLine_takes {c : Char} (h : c ≠ '\n') : Takes (β := β) inLine.run [c] :=
  takes_set (by simpa [CharSet.mem] using h)

theorem char_takes (c : Char) : Takes (β := β) (char c).run [c] := takes_set (by simp)

theorem char_refuses {c d : Char} (h : d ≠ c) (rest : List Char) :
    Refuses (β := β) (char c).run (d :: rest) := refuses_set (by simpa using h)

theorem refuses_nil (chars : CharSet) : Refuses (β := β) (run (.set chars)) [] := by
  intro k cur hrest
  simp [run, hrest]

theorem refuses_behind {c : Char} {r : Regex} {rest : List Char}
    (h : Refuses (β := β) r.run rest) : Refuses (β := β) (run (.seq (char c) r)) (c :: rest) := by
  intro k cur hrest
  have hnone := h k (cur.advance c rest) rfl
  simpa [run, char, hrest] using hnone

theorem char_refuses_over {c : Char} (hc : c ≠ '\n') (hs : LineOver s) :
    Refuses (β := β) (char c).run s := by
  rcases hs.cases with rfl | ⟨t, rfl⟩
  · exact refuses_nil _
  · exact char_refuses hc.symm t

theorem inLine_refuses (hs : LineOver s) : Refuses (β := β) inLine.run s := by
  rcases hs.cases with rfl | ⟨t, rfl⟩
  · exact refuses_nil _
  · exact refuses_set (by simp [CharSet.mem])

/-- The loop behind a lazy repetition of a set is the repetition itself. -/
theorem again_lazy (chars : CharSet) (k : Cursor → Option β) (cur : Cursor) :
    again (run (.set chars)) false k cur.rest.length cur =
      run (.rep 0 none false (.set chars)) k cur := by
  cases hrest : cur.rest with
  | nil => cases hk : k cur <;> simp [again, run, repeated, Regex.star, plus, choose, hrest, hk]
  | cons c rest => simp [again, run, repeated, Regex.star, plus, choose, hrest, Cursor.advance]

theorem lazy_none {chars : CharSet} (hk : k cur = none) (hrest : cur.rest = []) :
    run (.rep 0 none false (.set chars)) k cur = none := by
  simp [run, repeated, Regex.star, plus, choose, hrest, hk]

/-- A lazy repetition of a set goes on where what follows does not match. -/
theorem lazy_cons (chars : CharSet) {c : Char} {rest : List Char} (hk : k cur = none)
    (hrest : cur.rest = c :: rest) :
    run (.rep 0 none false (.set chars)) k cur =
      if chars.mem c then run (.rep 0 none false (.set chars)) k (cur.advance c rest)
      else none := by
  have hagain := again_lazy chars k (cur.advance c rest)
  have hnext : (cur.advance c rest).offset ≠ cur.offset := Nat.succ_ne_self _
  rw [← hagain]
  simp [run, repeated, Regex.star, plus, choose, hrest, hk, hnext]

theorem lazy_some {chars : CharSet} (hk : k cur = some b) :
    run (.rep 0 none false (.set chars)) k cur = some b := by
  simp [run, repeated, Regex.star, choose, hk]

abbrev close : Regex := .seq (char '*') (char '/')

theorem close_refuses (hs : LineOver s) {c : Char} {rest : List Char}
    (h : ¬ (c = '*' ∧ rest.head? = some '/')) :
    Refuses (β := β) close.run (c :: rest ++ s) := by
  by_cases hc : c = '*'
  · subst hc
    refine refuses_behind ?_
    cases rest with
    | nil => exact char_refuses_over (by decide) hs
    | cons d rest => exact char_refuses (by simpa using h) _
  · exact refuses_seq (char_refuses hc _)

/-- The induction is on the line: the comment goes on as long as it is not closed. -/
theorem commentTail_taken (hline : '\n' ∉ line) (hs : LineOver s) (h : closing? line = some n)
    (hrest : cur.rest = line ++ s)
    (hk : ∀ next, next.offset = cur.offset + n → next.rest = line.drop n ++ s →
      k next = some b) : commentTail.run k cur = some b := by
  induction line generalizing cur n with
  | nil => cases h
  | cons c rest ih =>
    simp only [closing?] at h
    split at h
    · next hc =>
      obtain ⟨rfl, hd⟩ := hc
      obtain ⟨rest, rfl⟩ := List.head?_eq_some_iff.mp hd
      cases h
      refine lazy_some ?_
      exact takes_seq (char_takes '*') (char_takes '/') k cur (rest ++ s) b hrest
        fun next hoff hnext => hk next hoff hnext
    · next hc =>
      obtain ⟨m, hm, rfl⟩ := Option.map_eq_some_iff.mp h
      rw [List.mem_cons, not_or] at hline
      have hnone : close.run k cur = none := close_refuses hs hc k cur hrest
      have hmem : (CharSet.compl (.singleton '\n')).mem c = true := by
        simpa [CharSet.mem] using Ne.symm hline.1
      have hstep := lazy_cons (.compl (.singleton '\n')) hnone hrest
      rw [if_pos hmem] at hstep
      refine hstep.trans (ih hline.2 hm rfl ?_)
      intro next hoff hnext
      refine hk next ?_ hnext
      rw [hoff]
      simp only [Cursor.advance]
      omega

theorem commentTail_refused (hline : '\n' ∉ line) (hs : LineOver s) (h : closing? line = none)
    (hrest : cur.rest = line ++ s) : commentTail.run k cur = none := by
  induction line generalizing cur with
  | nil =>
    have hnone : close.run k cur = none :=
      refuses_seq (char_refuses_over (by decide) hs) k cur hrest
    rcases hs.cases with rfl | ⟨t, rfl⟩
    · exact lazy_none hnone hrest
    · exact (lazy_cons _ hnone hrest).trans (by simp [CharSet.mem])
  | cons c rest ih =>
    simp only [closing?] at h
    split at h
    · cases h
    · next hc =>
      rw [List.mem_cons, not_or] at hline
      have hnone : close.run k cur = none := close_refuses hs hc k cur hrest
      have hmem : (CharSet.compl (.singleton '\n')).mem c = true := by
        simpa [CharSet.mem] using Ne.symm hline.1
      have hstep := lazy_cons (.compl (.singleton '\n')) hnone hrest
      rw [if_pos hmem] at hstep
      exact hstep.trans (ih hline.2 (Option.map_eq_none_iff.mp h) rfl)

theorem hash_taken {rest : List Char} (hline : '\n' ∉ rest) (hs : LineOver s)
    (hrest : cur.rest = '#' :: rest ++ s)
    (hk : ∀ next, next.offset = cur.offset + (rest.length + 1) → next.rest = s →
      k next = some b) :
    run (.seq (char '#') (.rep 0 none true inLine)) k cur = some b := by
  have hflat : (rest.map ([·])).flatten = rest := by
    rw [← List.flatMap_def]
    exact List.flatMap_singleton' rest
  have htakes : ∀ p ∈ rest.map ([·]), p ≠ [] ∧ Takes (β := β) inLine.run p := by
    intro p hp
    obtain ⟨d, hd, rfl⟩ := List.mem_map.mp hp
    refine ⟨by simp, inLine_takes ?_⟩
    rintro rfl
    exact hline hd
  refine char_takes '#' _ cur (rest ++ s) b hrest ?_
  intro mid hoff hmid
  refine star_takes htakes (inLine_refuses hs) (by rw [hflat, hmid]) ?_
  intro next hoff' hnext
  refine hk next ?_ hnext
  rw [hoff', hoff, hflat, List.length_singleton]
  omega

/-- A closed comment is taken up to its end. -/
theorem closed_taken {body : List Char} {m : Nat} (hline : '\n' ∉ body) (hs : LineOver s)
    (hm : closing? body = some m) (hrest : cur.rest = '/' :: '*' :: body ++ s)
    (hk : ∀ next, next.offset = cur.offset + (m + 2) → next.rest = body.drop m ++ s →
      k next = some b) :
    run (.seq (char '/') (.seq (char '*') commentTail)) k cur = some b := by
  refine char_takes '/' _ cur ('*' :: body ++ s) b hrest ?_
  intro mid hoff hmid
  refine char_takes '*' _ mid (body ++ s) b hmid ?_
  intro mid' hoff' hmid'
  refine commentTail_taken hline hs hm hmid' ?_
  intro next hoff'' hnext
  refine hk next ?_ hnext
  rw [hoff'', hoff', hoff, List.length_singleton, List.length_singleton]
  omega

theorem piece_taken (hline : '\n' ∉ line) (hs : LineOver s)
    (h : piece? line = some (n, comment)) (hrest : cur.rest = line ++ s)
    (hk : ∀ next, next.offset = cur.offset + n → next.rest = line.drop n ++ s →
      k next = some b) : piece.run k cur = some b := by
  cases line with
  | nil => cases h
  | cons c rest =>
    rw [List.mem_cons, not_or] at hline
    rcases piece?_cases h with
      ⟨rfl, rfl, -⟩ | ⟨hc, hblank, rfl, -⟩ | ⟨rfl, body, m, rfl, hm, rfl, -⟩
    · have hfound := hash_taken hline.2 hs hrest fun next hoff hnext => hk next hoff (by simpa)
      simp only [piece, run] at hfound ⊢
      rw [hfound]
      rfl
    · have hne : c ≠ '/' := by
        rintro rfl
        simp at hblank
      have htakes : Takes (β := β) piece.run [c] :=
        takes_alt_right (fun rest => refuses_seq (char_refuses hc rest))
          (takes_alt_right (fun rest => refuses_seq (char_refuses hne rest))
            (takes_set (by simpa [CharSet.mem] using hblank)))
      exact htakes k cur (rest ++ s) b hrest fun next hoff hnext => hk next hoff hnext
    · rw [List.mem_cons, not_or] at hline
      have hfound := closed_taken hline.2.2 hs hm hrest fun next hoff hnext => hk next hoff hnext
      have hnone : run (.seq (char '#') (.rep 0 none true inLine)) k cur = none :=
        refuses_seq (char_refuses (by decide) _) k cur hrest
      simp only [piece, run] at hfound hnone ⊢
      rw [hnone, hfound]
      rfl

theorem piece_refused (hline : '\n' ∉ line) (hs : LineOver s) (h : piece? line = none) :
    Refuses (β := β) piece.run (line ++ s) := by
  cases line with
  | nil =>
    rcases hs.cases with rfl | ⟨t, rfl⟩
    · exact refuses_alt (refuses_seq (refuses_nil _))
        (refuses_alt (refuses_seq (refuses_nil _)) (refuses_nil _))
    · exact refuses_alt (refuses_seq (char_refuses (by decide) _))
        (refuses_alt (refuses_seq (char_refuses (by decide) _)) (refuses_set (by decide)))
  | cons c rest =>
    rw [List.mem_cons, not_or] at hline
    simp only [piece?] at h
    split at h
    · cases h
    next hc =>
    split at h
    · cases h
    next hb =>
    refine refuses_alt (refuses_seq (char_refuses hc _))
      (refuses_alt ?_ (refuses_set (by simpa [CharSet.mem] using hb)))
    by_cases hslash : c = '/'
    · subst hslash
      refine refuses_behind ?_
      cases rest with
      | nil => exact refuses_seq (char_refuses_over (by decide) hs)
      | cons d body =>
        by_cases hstar : d = '*'
        · subst hstar
          rw [List.mem_cons, not_or] at hline
          simp only [List.head?_cons, and_self, ↓reduceIte, List.tail_cons,
            Option.map_eq_none_iff] at h
          refine refuses_behind ?_
          intro k cur hrest
          exact commentTail_refused hline.2.2 hs h hrest
        · exact refuses_seq (char_refuses hstar _)
    · exact refuses_seq (char_refuses hslash _)

/-- The loop over pieces takes the whole run; the induction is on its room. -/
theorem again_noise {room : Nat} (hline : '\n' ∉ line) (hs : LineOver s)
    (hroom : line.length ≤ room) (hrest : cur.rest = line ++ s)
    (hk : ∀ next, next.offset = cur.offset + (noise line).1 → k next = some b) :
    again piece.run true k room cur = some b := by
  have hstop : piece? line = none → k cur = some b := by
    intro hp
    apply hk
    rw [noise_none hp]
    rfl
  induction room generalizing line cur with
  | zero =>
    obtain rfl : line = [] := List.length_eq_zero_iff.mp (by omega)
    exact hstop rfl
  | succ room ih =>
    cases hp : piece? line with
    | none =>
      have hmore := piece_refused (β := β) hline hs hp (fun next =>
        if next.offset = cur.offset then none else again piece.run true k room next) cur hrest
      simp [again, choose, hmore, hstop hp]
    | some found =>
      obtain ⟨n, comment⟩ := found
      have hn := piece?_le hp
      have hshort : (line.drop n).length = line.length - n := List.length_drop
      have hmore : piece.run (fun next => if next.offset = cur.offset then none
          else again piece.run true k room next) cur = some b := by
        refine piece_taken hline hs hp hrest ?_
        intro next hoff hnext
        rw [if_neg (by omega)]
        have hk' : ∀ last, last.offset = next.offset + (noise (line.drop n)).1 →
            k last = some b := by
          intro last hlast
          apply hk
          rw [hlast, hoff, noise_some hp]
          dsimp only
          omega
        refine ih (fun hmem => hline (List.mem_of_mem_drop hmem)) (by omega) hnext hk' ?_
        intro hnone
        apply hk'
        rw [noise_none hnone]
        rfl
      simp [again, choose, hmore]

/-- The default noise skips the run of noise that the line starts with. -/
theorem noise_consumed {text : List Char} {i : Nat} (hi : i ≤ text.length) (hline : '\n' ∉ line)
    (hs : LineOver s) (h : text.drop i = line ++ s) :
    commentsAndBlanks.consumedAt? text i =
      if (noise line).1 = 0 then none else some (noise line).1 := by
  have hmatch : commentsAndBlanks.matchAt? text i =
      plus piece.run true (fun cur => some (cur.offset - i)) (Cursor.ofText text i) := by
    rw [commentsAndBlanks_eq]
    simp only [Pattern.matchAt?, if_neg (Nat.not_lt.mpr hi)]
    rfl
  have hrest : (Cursor.ofText text i).rest = line ++ s := h
  cases hp : piece? line with
  | none =>
    have hnone : plus piece.run true (fun cur => some (cur.offset - i)) (Cursor.ofText text i) =
        none := piece_refused hline hs hp _ _ hrest
    rw [noise_none hp, if_pos rfl, Pattern.consumedAt?, hmatch, hnone]
    rfl
  | some found =>
    obtain ⟨n, comment⟩ := found
    have hn := piece?_le hp
    have hnoise := noise_some hp
    have hshort : (line.drop n).length = line.length - n := List.length_drop
    have hfound : plus piece.run true (fun cur => some (cur.offset - i)) (Cursor.ofText text i) =
        some (noise line).1 := by
      refine piece_taken hline hs hp hrest ?_
      intro next hoff hnext
      have hoff : next.offset = i + n := hoff
      rw [if_neg (by rw [hoff]; simp only [Cursor.ofText]; omega)]
      have hlen : next.rest.length = (line.drop n).length + s.length := by
        rw [hnext, List.length_append]
      refine again_noise (fun hmem => hline (List.mem_of_mem_drop hmem)) hs (by omega) hnext ?_
      intro last hlast
      rw [hlast, hoff, hnoise, Option.some.injEq]
      dsimp only
      omega
    have hpos : (noise line).1 ≠ 0 := by
      rw [hnoise]
      dsimp only
      omega
    rw [if_neg hpos, Pattern.consumedAt?, hmatch, hfound, Option.filter_some,
      if_pos (by simpa using Nat.pos_of_ne_zero hpos)]

end TableLexer.LayoutPattern
