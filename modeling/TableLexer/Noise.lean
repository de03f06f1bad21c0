import TableLexer.Pattern

/-!
# What the engine looks for between tokens

Noise is skipped before every scan, line separators are reported, and so are the blanks at the
start of a line if there is a pattern for them. A noise rule joins named kinds of text that never
become tokens into one pattern that skips a run of any mix of them.
-/
namespace TableLexer

namespace LayoutPattern

def char (c : Char) : Regex := .set (.singleton c)

def lineSeparator : Pattern :=
  .regex
    { source := "\\r\\n|\\r|\\n"
      regex := .alt (.seq (char '\r') (char '\n')) (.alt (char '\r') (char '\n'))
      spansLines := false }

/-- Comments from `#` to the end of the line, comments between `/*` and `*/` within a line,
and blanks. -/
def commentsAndBlanks : Pattern :=
  .regex
    { source := "(?:#.*|/\\*.*?\\*/|[ \\t\\f])+"
      regex :=
        .rep 1 none true
          (.alt (.seq (char '#') (.rep 0 none true notNewline))
            (.alt
              (.seq (char '/') (.seq (char '*') (.seq (.rep 0 none false notNewline)
                (.seq (char '*') (char '/')))))
              (.set (.union (.singleton ' ') (.union (.singleton '\t') (.singleton '\x0c'))))))
      spansLines := false }
where
  notNewline : Regex := .set (.compl (.singleton '\n'))

def spacesAndTabs : Pattern :=
  .regex
    { source := "(?: |\\t)+"
      regex := .rep 1 none true (.alt (char ' ') (char '\t'))
      spansLines := false }

theorem lineSeparator_source :
    (Pattern.ofRegex "\\r\\n|\\r|\\n").toOption = some lineSeparator := by
  decide +kernel

theorem commentsAndBlanks_source :
    (Pattern.ofRegex "(?:#.*|/\\*.*?\\*/|[ \\t\\f])+").toOption = some commentsAndBlanks := by
  decide +kernel

theorem spacesAndTabs_source :
    (Pattern.ofRegex "(?: |\\t)+").toOption = some spacesAndTabs := by
  decide +kernel

end LayoutPattern

structure EngineConfig where
  eol : Pattern := LayoutPattern.lineSeparator
  noise : Pattern := LayoutPattern.commentsAndBlanks
  indentation : Option Pattern := some LayoutPattern.spacesAndTabs
  deriving Repr

structure NoiseCategory where
  name : String
  source : String
  deriving DecidableEq, Repr

structure NoiseRule where
  categories : List NoiseCategory
  pattern : Pattern
  deriving Repr

namespace NoiseRule

/-- Each category must be a well-formed expression of its own. -/
def check : List NoiseCategory → Except LexError Unit
  | [] => .ok ()
  | c :: rest =>
    match Regex.compile c.source with
    | .ok _ => check rest
    | .error fault => .error (.plain (.badCategory c.name c.source fault))

def joined (categories : List NoiseCategory) : String :=
  "(?:" ++ "|".intercalate (categories.map fun c => "(?:" ++ c.source ++ ")") ++ ")+"

def make (categories : List NoiseCategory) : Except LexError NoiseRule := do
  if categories.isEmpty then throw (.plain .noCategories)
  check categories
  return ⟨categories, ← Pattern.ofRegex (joined categories)⟩

end NoiseRule
end TableLexer
