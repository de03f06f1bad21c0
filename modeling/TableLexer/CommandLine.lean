import TableLexer.Json

/-!
# The command line

Arguments are read from left to right; the first one that settles the matter wins. The text
comes from an option, from the remaining arguments, or else from standard input.

The report of a run shows the token stream of a text and its counters to people, with or without
colors.
-/
namespace TableLexer.Report

inductive Ink where
  | dim
  | bold
  | red
  | green
  | yellow
  | blue
  | cyan
  | gray

def Ink.code : Ink → String
  | dim => "\x1b[2m"
  | bold => "\x1b[1m"
  | red => "\x1b[31m"
  | green => "\x1b[32m"
  | yellow => "\x1b[33m"
  | blue => "\x1b[34m"
  | cyan => "\x1b[36m"
  | gray => "\x1b[90m"

def paint (color : Bool) (ink : Ink) (text : String) : String :=
  if color then ink.code ++ text ++ "\x1b[0m" else text

/-- How much of the text the heading shows. -/
def preview (text : String) : String := String.ofList (text.toList.take 80)

def entryLine (color : Bool) : Entry → String
  | .token type token =>
    " ".intercalate
      [paint color .bold (paint color .blue type.text),
        paint color .green (Text.quoteText token.lexeme),
        paint color .dim ("= " ++ token.value.display),
        paint color .yellow ("@ " ++ token.position.text)]
  | .endOfStream token =>
    paint color .dim "end of stream" ++ " " ++
      paint color .yellow ("@ " ++ token.position.text)
  | .error e => paint color .red ("✗ " ++ e.text)

/-- A number of nanoseconds in the largest unit that leaves a whole part, without trailing
zeros. -/
def duration (nanos : Nat) : String :=
  let inUnit (unit places : Nat) (name : String) : String :=
    let digits := Nat.toDigits 10 (nanos % unit)
    let padded := List.replicate (places - digits.length) '0' ++ digits
    let fraction := (padded.reverse.dropWhile (· == '0')).reverse
    toString (nanos / unit) ++
      (if fraction.isEmpty then "" else "." ++ String.ofList fraction) ++ name
  if 1000000000 ≤ nanos then inUnit 1000000000 9 "s"
  else if 1000000 ≤ nanos then inUnit 1000000 6 "ms"
  else if 1000 ≤ nanos then inUnit 1000 3 "µs"
  else toString nanos ++ "ns"

def render (t : Tokenized) (color : Bool) (total scanning : Nat) : String :=
  let errors := t.errors.length
  let heading := "⚙  Tokenizing: " ++ Text.quoteText (preview t.text)
  let entries := t.entries.mapIdx fun i entry =>
    "  " ++ paint color .gray ("[" ++ toString i ++ "]") ++ " " ++ entryLine color entry ++ "\n"
  let s := t.stats
  String.join
    (["\n" ++ paint color .bold (paint color .cyan heading) ++ "\n",
      "\n" ++ paint color .gray "━━━ Tokens ━━━" ++ "\n"] ++
    entries ++
    (if errors = 0 then []
      else ["\n" ++ paint color .red (toString errors ++ " lexical error(s)") ++ "\n"]) ++
    ["\n" ++ paint color .gray "━━━ Stats ━━━" ++ "\n",
      "  Rules: " ++ paint color .blue (toString s.rulesApplied) ++
        "  │  Tokens: " ++ paint color .green (toString s.tokensEmitted) ++
        "  │  Dropped: " ++ paint color .dim (toString s.tokensDropped) ++
        "  │  Errors: " ++
        paint color (if errors = 0 then .green else .red) (toString s.errorsCaptured) ++ "\n",
      "  Total: " ++ paint color .green (duration total) ++
        "  │  Scanning: " ++ paint color .cyan (duration scanning) ++ "\n",
      "\n"])

end TableLexer.Report

namespace TableLexer.CommandLine

def version : String := "0.1.0"

def help : String :=
  "rulelex " ++ version ++ "\n" ++
  "\n" ++
  "Tokenizes JSON text with the demo rule table and prints the token stream.\n" ++
  "\n" ++
  "Usage:\n" ++
  "  rulelex [OPTIONS] [--] <input...>\n" ++
  "  rulelex [OPTIONS] --input <text>\n" ++
  "  rulelex --declare\n" ++
  "\n" ++
  "Options:\n" ++
  "  -i, --input <text>         Input text to tokenize. If omitted, reads remaining\n" ++
  "                             args or stdin when no args are provided.\n" ++
  "  --eol                      Report line ends as T_EOL tokens.\n" ++
  "  --declare                  Print the parser token declaration and exit.\n" ++
  "  --color                    Force ANSI color output.\n" ++
  "  --no-color                 Disable ANSI color output.\n" ++
  "  -h, --help                 Show this help message.\n" ++
  "  -V, --version              Print version information.\n" ++
  "\n" ++
  "Exit codes:\n" ++
  "  0  Success (lexical errors are part of the report).\n" ++
  "  1  Lexer setup or internal error.\n" ++
  "  2  Invalid arguments or missing input.\n"

structure Settings where
  input : Option String := none
  eolTokens : Bool := false
  declare : Bool := false
  color : Bool := false
  deriving DecidableEq, Repr

inductive UsageError where
  | valueMissing
  | secondInput
  | unknownOption (arg : String)
  | noInput
  | unreadableInput
  deriving DecidableEq, Repr

def UsageError.message : UsageError → String
  | valueMissing => "error: --input expects a value"
  | secondInput => "error: input provided multiple times"
  | unknownOption arg => "error: unknown option '" ++ arg ++ "'"
  | noInput => "error: no input provided\n\n" ++ help
  | unreadableInput => "error: failed to read stdin: stream did not contain valid UTF-8"

inductive Request where
  | help
  | version
  | refuse (e : UsageError)
  | proceed (s : Settings)
  deriving DecidableEq, Repr

/-- Removes a word from the front of a text as often as it stands there. -/
def stripRepeated (word : List Char) : Nat → List Char → List Char
  | 0, cs => cs
  | n + 1, cs => if word.isPrefixOf cs then stripRepeated word n (cs.drop word.length) else cs

def inputOption : String := "--input="

def inlineValue (arg : String) : String :=
  String.ofList (stripRepeated inputOption.toList arg.length arg.toList)

inductive Role where
  | help
  | version
  | color (on : Bool)
  | eolTokens
  | declare
  /-- The next argument is the text. -/
  | input
  | inlineInput (text : String)
  /-- All arguments after this one are the text. -/
  | separator
  | unknown
  | text
  deriving DecidableEq, Repr

def Role.ofArg (arg : String) : Role :=
  match arg with
  | "-h" | "--help" => .help
  | "-V" | "--version" => .version
  | "--color" => .color true
  | "--no-color" => .color false
  | "--eol" => .eolTokens
  | "--declare" => .declare
  | "--input" | "-i" => .input
  | "--" => .separator
  | _ =>
    if inputOption.toList.isPrefixOf arg.toList then .inlineInput (inlineValue arg)
    else if arg.toList.head? = some '-' then .unknown
    else .text

/-- Sets the input, which may be given only once. -/
def Settings.withInput (s : Settings) (text : String) : Except UsageError Settings :=
  if s.input.isSome then .error .secondInput else .ok { s with input := some text }

def Settings.finish (s : Settings) (text : String) : Request :=
  match s.withInput text with
  | .ok s => .proceed s
  | .error e => .refuse e

def parse (s : Settings) : List String → Request
  | [] => .proceed s
  | arg :: rest =>
    match Role.ofArg arg with
    | .help => .help
    | .version => .version
    | .color on => parse { s with color := on } rest
    | .eolTokens => parse { s with eolTokens := true } rest
    | .declare => parse { s with declare := true } rest
    | .input =>
      match rest with
      | [] => .refuse .valueMissing
      | value :: rest =>
        match s.withInput value with
        | .ok s => parse s rest
        | .error e => .refuse e
    | .inlineInput value =>
      match s.withInput value with
      | .ok s => parse s rest
      | .error e => .refuse e
    | .separator =>
      let text := " ".intercalate rest
      if Text.allBlank text then .proceed s else s.finish text
    | .unknown => .refuse (.unknownOption arg)
    | .text => s.finish (" ".intercalate (arg :: rest))

inductive Answer where
  | plain (exitCode : Nat) (out err : String)
  | report (result : Tokenized) (color : Bool)

namespace Answer

def usage (e : UsageError) : Answer := .plain 2 "" (e.message ++ "\n")

def exitCode : Answer → Nat
  | plain code _ _ => code
  | report _ _ => 0

/-- Standard output; `total` and `scanning` are the times of the run in nanoseconds. -/
def out (total scanning : Nat) : Answer → String
  | plain _ out _ => out
  | report result color => Report.render result color total scanning

def err : Answer → String
  | plain _ _ err => err
  | report _ _ => ""

end Answer

def failure : Stop → Answer
  | .fault e => .plain 1 "" ("error: " ++ e.text ++ "\n")
  | .exhausted => .plain 1 "" "error: the rules do not come to an end\n"

def declare : Answer :=
  match Json.ruleset with
  | .ok rules => .plain 0 rules.declaration ""
  | .error e => failure (.fault e)

def tokenizeText (s : Settings) (text : String) : Answer :=
  match Json.ruleset, Json.options with
  | .ok rules, .ok options =>
    match tokenize rules text { options with eolTokens := s.eolTokens } with
    | .ok result => .report result s.color
    | .error stop => failure stop
  | .error e, _ => failure (.fault e)
  | _, .error e => failure (.fault e)

def Request.wantsInput : Request → Bool
  | .proceed s => !s.declare && s.input.isNone
  | _ => false

def answer (stdin : Option String) : Request → Answer
  | .help => .plain 0 (help ++ "\n") ""
  | .version => .plain 0 ("rulelex " ++ version ++ "\n") ""
  | .refuse e => .usage e
  | .proceed s =>
    if s.declare then declare
    else
      match s.input.or stdin with
      | none => .usage .unreadableInput
      | some text => if Text.allBlank text then .usage .noInput else tokenizeText s text

end TableLexer.CommandLine
