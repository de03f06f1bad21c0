import TableLexer.Proofs.Json.Literals
import TableLexer.Proofs.Json.Numbers
import TableLexer.Proofs.Rulesets

/-!
# The table of the lexer for JSON

Its rules, its patterns and its transforms once they are built: the lexer is always accepted.
-/
namespace TableLexer.Json

def blankSet : Regex.CharSet := .union (.singleton ' ') (.singleton '\t')

def blankPattern : Pattern :=
  .regex
    { source := "[ \\t]+"
      regex := .rep 1 none true (.set blankSet)
      spansLines := false }

theorem blankPattern_source : (Pattern.ofRegex "[ \\t]+").toOption = some blankPattern := by
  decide +kernel

def stringRule : Rule :=
  { name := "string", kind := .lookahead
    handlers := [⟨stringPattern, .enqueue (.symbol "STRING")⟩] }

def numberRule : Rule :=
  { name := "number", kind := .lookahead
    handlers := [⟨numberPattern, .enqueue (.symbol "NUMBER")⟩] }

def literalNames : List (String × String) :=
  [("true\\b", "TRUE"), ("false\\b", "FALSE"), ("null\\b", "NULL")]

def valuing (name : String) (value? : String → Option Value) : Transform :=
  ⟨.symbol name, fun t => some (.symbol name, { t with value := (value? t.lexeme).getD t.value })⟩

def settings : Options :=
  { engine := { noise := blankPattern }
    transforms := [valuing "STRING" stringValue?, valuing "NUMBER" numberValue?,
      valuing "TRUE" fun _ => some (.bool true), valuing "FALSE" fun _ => some (.bool false),
      valuing "NULL" fun _ => some .null] }

theorem options_eq : options = .ok settings := by
  have hnoise := Checked.of_toOption blankPattern_source
  rw [options, hnoise]
  rfl

theorem stringRule_eq : literalRule "string" [(stringSource, "STRING")] = .ok stringRule := by
  have h := Checked.of_toOption stringPattern_source
  simp only [literalRule, List.mapM_cons, h]
  rfl

theorem numberRule_eq : literalRule "number" [(numberSource, "NUMBER")] = .ok numberRule := by
  have h := Checked.of_toOption numberPattern_source
  simp only [literalRule, List.mapM_cons, h]
  rfl

theorem literalHandlers_eq_ok {table : List (String × String)} {handlers : List Handler}
    (h : (table.mapM fun (source, type) => do
      return (⟨← Pattern.ofRegex source, .enqueue (.symbol type)⟩ : Handler)) = .ok handlers) :
    ∀ handler ∈ handlers, ∃ type ∈ table.map Prod.snd,
      handler.action = .enqueue (.symbol type) := by
  induction table generalizing handlers with
  | nil =>
    cases h
    simp
  | cons entry table ih =>
    rw [List.mapM_cons] at h
    obtain ⟨first, hfirst, h⟩ := Checked.bind_eq_ok.mp h
    obtain ⟨rest, hrest, h⟩ := Checked.bind_eq_ok.mp h
    obtain ⟨p, -, hfirst⟩ := Checked.bind_eq_ok.mp hfirst
    cases hfirst
    cases h
    refine List.forall_mem_cons.mpr ⟨⟨entry.2, by simp, rfl⟩, ?_⟩
    intro handler hmem
    obtain ⟨type, htype, haction⟩ := ih hrest handler hmem
    exact ⟨type, List.mem_cons_of_mem _ htype, haction⟩

/-- A look-ahead rule that queues tokens of the types in its table, and nothing else. -/
structure LiteralRule (name : String) (types : List String) (r : Rule) : Prop where
  name : r.name = name
  before : r.before = none
  otherwise : r.otherwise = .unknownToken
  handlers : ∀ h ∈ r.handlers, ∃ type ∈ types, h.action = .enqueue (.symbol type)

theorem literalRule_spec {name : String} {table : List (String × String)} {r : Rule}
    (h : literalRule name table = .ok r) : LiteralRule name (table.map Prod.snd) r := by
  obtain ⟨handlers, hhandlers, h⟩ := Checked.bind_eq_ok.mp h
  cases h
  exact ⟨rfl, rfl, rfl, literalHandlers_eq_ok hhandlers⟩

theorem stringRule_spec : LiteralRule "string" ["STRING"] stringRule :=
  literalRule_spec stringRule_eq

structure Tabled (rs : Ruleset) : Prop where
  main : rs.rule? "main" = some mainRule
  string : rs.rule? "string" = some stringRule
  names : ∃ r, rs.rule? "literal_name" = some r ∧
    LiteralRule "literal_name" (literalNames.map Prod.snd) r
  number : rs.rule? "number" = some numberRule

theorem ruleset_spec : ∃ rs, ruleset = .ok rs ∧ rs.validate = .ok () ∧ Tabled rs := by
  have hsome : ruleset.toOption.isSome = true := by decide +kernel
  obtain ⟨rs, hrs⟩ := Option.isSome_iff_exists.mp hsome
  have hok := Checked.of_toOption hrs
  refine ⟨rs, hok, ?_⟩
  unfold ruleset at hok
  obtain ⟨rs₀, -, hok⟩ := Checked.bind_eq_ok.mp hok
  obtain ⟨rs₁, h₁, hok⟩ := Checked.bind_eq_ok.mp hok
  obtain ⟨strings, hstrings, hok⟩ := Checked.bind_eq_ok.mp hok
  obtain ⟨rs₂, h₂, hok⟩ := Checked.bind_eq_ok.mp hok
  obtain ⟨names, hnames, hok⟩ := Checked.bind_eq_ok.mp hok
  obtain ⟨rs₃, h₃, hok⟩ := Checked.bind_eq_ok.mp hok
  obtain ⟨numbers, hnumbers, hok⟩ := Checked.bind_eq_ok.mp hok
  obtain ⟨rs₄, h₄, hok⟩ := Checked.bind_eq_ok.mp hok
  obtain ⟨_, hvalid, hok⟩ := Checked.bind_eq_ok.mp hok
  cases hok
  rw [stringRule_eq] at hstrings
  cases hstrings
  rw [numberRule_eq] at hnumbers
  cases hnumbers
  have hliteral := literalRule_spec hnames
  have hmain : mainRule.name = "main" := rfl
  have hstring : stringRule.name = "string" := rfl
  have hnumber : numberRule.name = "number" := rfl
  refine ⟨hvalid, ?_, ?_, ⟨names, ?_, hliteral⟩, ?_⟩ <;>
    simp [Ruleset.rule?_addRule h₄, Ruleset.rule?_addRule h₃, Ruleset.rule?_addRule h₂,
      Ruleset.rule?_addRule h₁, hmain, hstring, hliteral.name, hnumber]

def lexerWith (rs : Ruleset) : Lexer :=
  { engine := .new { noise := blankPattern, indentation := none }
    queue := ⟨[], [], settings.transforms⟩
    ruleset := rs
    options := settings }

theorem lexer_spec : ∃ rs, lexer = .ok (lexerWith rs) ∧ Tabled rs := by
  obtain ⟨rs, hrs, hvalid, htable⟩ := ruleset_spec
  refine ⟨rs, ?_, htable⟩
  unfold lexer
  rw [hrs, options_eq]
  refine Lexer.new_eq_ok_iff.mpr ⟨hvalid, ?_, rfl, ?_, rfl⟩
  · exact Option.isSome_of_eq_some htable.main
  · rfl

end TableLexer.Json
