import TableLexer.CommandLine

/-!
# The two spellings of the input option

The text can be given as the argument behind the input option, or in one argument with it. Both
come to the same unless the text itself starts with the option: the longer spelling drops every
copy of the option from the front of the text.
-/
namespace TableLexer.CommandLine

/-- The outcome once the text is settled: given as an option, or else read from standard input. -/
def Request.settled (stdin : Option String) : Request → Request
  | .proceed s =>
    if s.declare then .proceed { s with input := some (s.input.getD "") }
    else
      match s.input.or stdin with
      | none => .refuse .unreadableInput
      | some text =>
        if Text.allBlank text then .refuse .noInput else .proceed { s with input := some text }
  | request => request

theorem tokenizeText_input (s : Settings) (input : Option String) (text : String) :
    tokenizeText { s with input } text = tokenizeText s text := by
  unfold tokenizeText
  generalize Json.ruleset = rules, Json.options = options
  rfl

/-- The answer depends on what the arguments come to, and on nothing else. -/
theorem answer_settled (stdin : Option String) (request : Request) :
    answer stdin (request.settled stdin) = answer stdin request := by
  cases request with
  | help | version | refuse => rfl
  | proceed s =>
    rw [answer.eq_4, Request.settled]
    by_cases hd : s.declare
    · rw [if_pos hd, if_pos hd, answer.eq_4]
      exact if_pos hd
    · rw [if_neg hd, if_neg hd]
      cases s.input.or stdin with
      | none => exact answer.eq_3 stdin _
      | some text =>
        dsimp only
        by_cases hb : Text.allBlank text
        · rw [if_pos hb, if_pos hb, answer.eq_3]
        · rw [if_neg hb, if_neg hb, answer.eq_4, if_neg hd, Option.some_or]
          dsimp only
          rw [if_neg hb, tokenizeText_input]

def configured (color : Bool) (stdin : Option String) (args : List String) : Request :=
  (parse { color } args).settled stdin

def switches : List String := ["--eol", "--declare", "--color", "--no-color"]

variable {s t : Settings} {xs ys : List String} {v w : String}

theorem parse_switch {x : String} (hx : x ∈ switches) (s : Settings) :
    ∃ t, t.input = s.input ∧ ∀ rest, parse s (x :: rest) = parse t rest := by
  simp only [switches, List.mem_cons, List.not_mem_nil, or_false] at hx
  rcases hx with rfl | rfl | rfl | rfl
  · exact ⟨{ s with eolTokens := true }, rfl, fun _ => rfl⟩
  · exact ⟨{ s with declare := true }, rfl, fun _ => rfl⟩
  · exact ⟨{ s with color := true }, rfl, fun _ => rfl⟩
  · exact ⟨{ s with color := false }, rfl, fun _ => rfl⟩

theorem parse_switches (hxs : ∀ x ∈ xs, x ∈ switches) (s : Settings) :
    ∃ t, t.input = s.input ∧ ∀ rest, parse s (xs ++ rest) = parse t rest := by
  induction xs generalizing s with
  | nil => exact ⟨s, rfl, fun _ => rfl⟩
  | cons x xs ih =>
    obtain ⟨hx, hxs⟩ := List.forall_mem_cons.mp hxs
    obtain ⟨t, ht, hparse⟩ := parse_switch hx s
    obtain ⟨u, hu, hparse'⟩ := ih hxs t
    exact ⟨u, hu.trans ht, fun rest => (hparse _).trans (hparse' rest)⟩

/-- The reading of the arguments fails in one way, whatever the input is. -/
def Fails (s : Settings) (args : List String) : Prop :=
  ∃ r : Request, (∀ t, r ≠ .proceed t) ∧ ∀ v, parse { s with input := some v } args = r

/-- Once there is an input, an argument is read without regard to it: it is passed over, makes the
reading fail, or ends it. -/
theorem parse_step (s : Settings) (y : String) (ys : List String) :
    (∃ t : Settings, ∀ v,
        parse { s with input := some v } (y :: ys) = parse { t with input := some v } ys) ∨
      Fails s (y :: ys) ∨
      ∀ v, parse { s with input := some v } (y :: ys) = .proceed { s with input := some v } := by
  have hread := fun v : String => parse.eq_def { s with input := some v } (y :: ys)
  cases hrole : Role.ofArg y <;>
    simp only [hrole, Settings.withInput, Settings.finish, Option.isSome_some, ↓reduceIte] at hread
  case help | version | inlineInput | unknown | text => exact .inr (.inl ⟨_, by simp, hread⟩)
  case color on => exact .inl ⟨{ s with color := on }, hread⟩
  case eolTokens => exact .inl ⟨{ s with eolTokens := true }, hread⟩
  case declare => exact .inl ⟨{ s with declare := true }, hread⟩
  case input => cases ys <;> exact .inr (.inl ⟨_, by simp, hread⟩)
  case separator =>
    split at hread
    · exact .inr (.inr hread)
    · exact .inr (.inl ⟨_, by simp, hread⟩)

/-- Once there is an input, the other arguments fail, whatever the input is, or leave it as it is.
The induction is on these arguments. -/
theorem parse_with_input (s : Settings) (ys : List String) :
    Fails s ys ∨ ∃ t : Settings, ∀ v,
      parse { s with input := some v } ys = .proceed { t with input := some v } := by
  induction ys generalizing s with
  | nil => exact .inr ⟨s, fun _ => rfl⟩
  | cons y ys ih =>
    rcases parse_step s y ys with ⟨t, hstep⟩ | hfails | hends
    · rcases ih t with ⟨r, hr, hfails⟩ | ⟨u, hends⟩
      · exact .inl ⟨r, hr, fun v => (hstep v).trans (hfails v)⟩
      · exact .inr ⟨u, fun v => (hstep v).trans (hends v)⟩
    · exact .inl hfails
    · exact .inr ⟨s, hends⟩

theorem stripRepeated_eq_self {word cs : List Char} (h : ¬ word <+: cs) (room : Nat) :
    stripRepeated word room cs = cs := by
  cases room with
  | zero => rfl
  | succ room => simp [stripRepeated, h]

/-- Enough room strips all copies; the induction is on the room, of which each copy takes at least
one. -/
theorem stripRepeated_spec {word : List Char} (hw : word ≠ []) {room : Nat} {cs : List Char}
    (hroom : cs.length ≤ room) :
    (∃ n, cs = (List.replicate n word).flatten ++ stripRepeated word room cs) ∧
      ¬ word <+: stripRepeated word room cs := by
  induction room generalizing cs with
  | zero =>
    obtain rfl : cs = [] := List.length_eq_zero_iff.mp (by omega)
    exact ⟨⟨0, rfl⟩, by simpa [stripRepeated] using hw⟩
  | succ room ih =>
    by_cases hp : word <+: cs
    · obtain ⟨rest, rfl⟩ := hp
      have hpos := List.length_pos_iff.mpr hw
      rw [List.length_append] at hroom
      have hrest : rest.length ≤ room := by omega
      obtain ⟨⟨n, hn⟩, hnot⟩ := ih hrest
      have hstep : stripRepeated word (room + 1) (word ++ rest) = stripRepeated word room rest := by
        simp [stripRepeated]
      rw [hstep]
      refine ⟨⟨n + 1, ?_⟩, hnot⟩
      rw [List.replicate_succ, List.flatten_cons, List.append_assoc, ← hn]
    · rw [stripRepeated_eq_self hp]
      exact ⟨⟨0, rfl⟩, hp⟩

def StartsWithOption (v : String) : Prop := inputOption.toList <+: v.toList

instance (v : String) : Decidable (StartsWithOption v) :=
  inferInstanceAs (Decidable (_ <+: _))

def Stripped (v w : String) : Prop :=
  (∃ n, v.toList = (List.replicate n inputOption.toList).flatten ++ w.toList) ∧
    ¬ StartsWithOption w

theorem inlineValue_stripped (v : String) : Stripped v (inlineValue (inputOption ++ v)) := by
  have hlen : (inputOption ++ v).length = v.length + 7 + 1 := by
    have hoption : inputOption.length = 8 := rfl
    rw [String.length_append, hoption]
    omega
  have hvalue : (inlineValue (inputOption ++ v)).toList =
      stripRepeated inputOption.toList (v.length + 7) v.toList := by
    rw [inlineValue, String.toList_ofList, hlen, String.toList_append]
    simp only [stripRepeated]
    simp
  have hroom : v.toList.length ≤ v.length + 7 := by
    rw [String.length_toList]
    exact Nat.le_add_right _ _
  unfold Stripped StartsWithOption
  rw [hvalue]
  exact stripRepeated_spec (by decide) hroom

theorem Stripped.eq_iff (h : Stripped v w) : w = v ↔ ¬ StartsWithOption v := by
  obtain ⟨⟨n, hn⟩, hnot⟩ := h
  constructor
  · rintro rfl
    exact hnot
  · intro hv
    cases n with
    | zero => exact String.toList_inj.mp hn.symm
    | succ n =>
      refine absurd ?_ hv
      rw [List.replicate_succ, List.flatten_cons, List.append_assoc] at hn
      exact ⟨_, hn.symm⟩

theorem Role.ofArg_inline (v : String) :
    ofArg (inputOption ++ v) = .inlineInput (inlineValue (inputOption ++ v)) := by
  have hprefix : inputOption.toList.isPrefixOf (inputOption ++ v).toList = true := by simp
  have hne : ∀ arg : String, '=' ∉ arg.toList → inputOption ++ v ≠ arg := by
    rintro arg hmem rfl
    rw [String.toList_append] at hmem
    exact hmem (List.mem_append_left _ (by decide))
  unfold ofArg
  split
  all_goals first
    | exact absurd ‹inputOption ++ v = _› (hne _ (by decide))
    | rw [if_pos hprefix]

theorem parse_apart (hs : s.input = none) (v : String) (ys : List String) :
    parse s (["--input", v] ++ ys) = parse { s with input := some v } ys := by
  have hrole : Role.ofArg "--input" = .input := rfl
  rw [parse.eq_def]
  simp only [List.cons_append, List.nil_append, hrole, Settings.withInput, hs,
    Option.isSome_none, Bool.false_eq_true, ↓reduceIte]

theorem parse_joined (hs : s.input = none) (v : String) (ys : List String) :
    parse s (["--input=" ++ v] ++ ys) =
      parse { s with input := some (inlineValue (inputOption ++ v)) } ys := by
  have hrole : Role.ofArg ("--input=" ++ v) = .inlineInput (inlineValue (inputOption ++ v)) :=
    Role.ofArg_inline v
  rw [parse.eq_def]
  simp only [List.cons_append, List.nil_append, hrole, Settings.withInput, hs,
    Option.isSome_none, Bool.false_eq_true, ↓reduceIte]

theorem settled_of_fails {r : Request} (hr : ∀ t, r ≠ .proceed t) (stdin : Option String) :
    r.settled stdin = r := by
  cases r with
  | help | version | refuse => rfl
  | proceed t => exact absurd rfl (hr t)

/-- An input that was given is used, unless it is blank and needed. -/
theorem settled_with_input (t : Settings) (v : String) (stdin : Option String) :
    (Request.proceed { t with input := some v }).settled stdin =
      if t.declare || !Text.allBlank v then .proceed { t with input := some v }
      else .refuse .noInput := by
  unfold Request.settled
  cases hd : t.declare <;> cases hb : Text.allBlank v <;> simp [hb]

theorem StartsWithOption.not_blank (h : StartsWithOption v) : Text.allBlank v = false := by
  have hmem : '-' ∈ v.toList := h.subset (by decide)
  rw [Text.allBlank, List.all_eq_false]
  exact ⟨'-', hmem, by decide⟩

/-- Where both texts are accepted as inputs, they lead to the same only if they are the same. -/
theorem settled_agree_iff (t : Settings) (h : Stripped v w) (stdin : Option String) :
    (Request.proceed { t with input := some w }).settled stdin =
        (Request.proceed { t with input := some v }).settled stdin ↔
      ¬ StartsWithOption v ∨
        ∀ u, (Request.proceed { t with input := some v }).settled stdin ≠ .proceed u := by
  by_cases hv : StartsWithOption v
  · have hne : w ≠ v := fun he => h.eq_iff.mp he hv
    have hsettled : (Request.proceed { t with input := some v }).settled stdin =
        .proceed { t with input := some v } := by
      rw [settled_with_input, hv.not_blank, Bool.not_false, Bool.or_true, if_pos rfl]
    rw [hsettled, settled_with_input]
    constructor
    · intro he
      split at he
      · exact absurd (by simpa using he) hne
      · cases he
    · rintro (hnot | hnone)
      · exact absurd hv hnot
      · exact absurd rfl (hnone _)
  · rw [h.eq_iff.mpr hv]
    exact iff_of_true rfl (.inl hv)

/-- Behind switches both spellings give an input; the longer one gives what is left of the text. -/
theorem configured_spellings (hxs : ∀ x ∈ xs, x ∈ switches) (color : Bool)
    (stdin : Option String) (ys : List String) :
    ∃ s : Settings, ∀ v,
      configured color stdin (xs ++ ["--input", v] ++ ys) =
        (parse { s with input := some v } ys).settled stdin ∧
      configured color stdin (xs ++ ["--input=" ++ v] ++ ys) =
        (parse { s with input := some (inlineValue (inputOption ++ v)) } ys).settled stdin := by
  obtain ⟨s, hs, hparse⟩ := parse_switches hxs { color }
  refine ⟨s, fun v => ⟨?_, ?_⟩⟩
  · rw [configured, List.append_assoc, hparse, parse_apart hs]
  · rw [configured, List.append_assoc, hparse, parse_joined hs]

theorem settled_before_switches (hys : ∀ y ∈ ys, y ∈ switches) (s : Settings) (v : String)
    (stdin : Option String) :
    ∃ t : Settings, t.input = some v ∧ (parse { s with input := some v } ys).settled stdin =
      if t.declare || !Text.allBlank v then .proceed t else .refuse .noInput := by
  obtain ⟨t, ht, hends⟩ := parse_switches hys { s with input := some v }
  have ht : t.input = some v := ht
  have hinput : { t with input := some v } = t := by rw [← ht]
  have hsettled := settled_with_input t v stdin
  rw [hinput] at hsettled
  refine ⟨t, ht, ?_⟩
  rw [← List.append_nil ys, hends, ← hsettled]
  rfl

/-- The two spellings of the input option come to the same if and only if the text does not start
with the option itself, or the reading fails anyway: in one argument with the option, a text
loses all copies of the option at its start. With nothing but switches around it, the text behind
the option is the input exactly as it was given. -/
theorem input_spellings_agree_iff (color : Bool) (stdin : Option String)
    (hxs : ∀ x ∈ xs, x ∈ switches) (v : String) (ys : List String) :
    let apart := configured color stdin (xs ++ ["--input", v] ++ ys)
    let joined := configured color stdin (xs ++ ["--input=" ++ v] ++ ys)
    (joined = apart ↔ ¬ StartsWithOption v ∨ ∀ s, apart ≠ .proceed s) ∧
    (∃ w, Stripped v w ∧ joined = configured color stdin (xs ++ ["--input", w] ++ ys)) ∧
    ((∀ y ∈ ys, y ∈ switches) →
      (Text.allBlank v = false → ∃ s, apart = .proceed s) ∧
      ∀ s, apart = .proceed s → s.input = some v) := by
  intro apart joined
  obtain ⟨s, hspelled⟩ := configured_spellings hxs color stdin ys
  have hapart : apart = _ := (hspelled v).1
  have hjoined : joined = _ := (hspelled v).2
  have hstripped := inlineValue_stripped v
  refine ⟨?_, ⟨_, hstripped, hjoined.trans (hspelled _).1.symm⟩, fun hys => ?_⟩
  · rw [hjoined, hapart]
    rcases parse_with_input s ys with ⟨r, hr, hfails⟩ | ⟨t, hends⟩
    · rw [hfails, hfails, settled_of_fails hr]
      exact iff_of_true rfl (.inr hr)
    · rw [hends, hends]
      exact settled_agree_iff t hstripped stdin
  · obtain ⟨t, ht, hsettled⟩ := settled_before_switches hys s v stdin
    rw [hapart, hsettled]
    constructor
    · intro hb
      exact ⟨t, if_pos (by simp [hb])⟩
    · intro u hu
      split at hu
      · cases hu
        exact ht
      · cases hu

/-- A text that starts with the option itself loses it. -/
theorem option_in_text_dropped :
    (∀ x ∈ ["--eol"], x ∈ switches) ∧ StartsWithOption "--input=1" ∧
      configured false none (["--eol"] ++ ["--input", "--input=1"] ++ []) =
        .proceed { input := some "--input=1", eolTokens := true } ∧
      configured false none (["--eol"] ++ ["--input=" ++ "--input=1"] ++ []) ≠
        configured false none (["--eol"] ++ ["--input", "--input=1"] ++ []) := by
  have hxs : ∀ x ∈ ["--eol"], x ∈ switches := by decide
  have hv : StartsWithOption "--input=1" := by decide
  have happart : configured false none (["--eol"] ++ ["--input", "--input=1"] ++ []) =
      .proceed { input := some "--input=1", eolTokens := true } := by decide +kernel
  refine ⟨hxs, hv, happart, fun he => ?_⟩
  obtain ⟨hagree, -⟩ := input_spellings_agree_iff false none hxs "--input=1" []
  rcases hagree.mp he with hnot | hnone
  · exact hnot hv
  · exact hnone _ happart

end TableLexer.CommandLine
