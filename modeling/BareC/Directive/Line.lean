import BareC.Token

/-!
# Directives as lines of a source

The preprocessor reads a list of tokens as a sequence of items: single tokens of text, markers, and
whole directives. A `#` that starts a line makes a directive of the tokens up to the next line; a
marker ends it early, so that none is lost inside a directive. The first end of source ends the list
whatever follows.
-/

namespace BareC

/-- What a directive asks for, by its first word. -/
inductive Directive where
  /-- A `#` alone on its line. -/
  | null
  /-- Keeps the lines if the name's being a macro is as `wanted`. No name is no macro. -/
  | ifDefined (wanted : Bool) (name? : Option String)
  | ifHolds (condition : List Token)
  | elifHolds (condition : List Token)
  | otherwise
  | endIf
  | define (words : List Token)
  | undefine (name? : Option String)
  | includeHeader (words : List Token)
  | report (words : List Token)
  /-- A directive for other tools. -/
  | ignored
  | unknown (name : String)
  deriving DecidableEq, Repr

/-- The directive with these words behind its `#`. A word is taken by its spelling, whatever kind of
token it is. -/
def Directive.ofWords : List Token → Directive
  | [] => .null
  | name :: words =>
    let first? := words.head?.map (·.text)
    match name.text with
    | "ifdef" => .ifDefined true first?
    | "ifndef" => .ifDefined false first?
    | "if" => .ifHolds words
    | "elif" => .elifHolds words
    | "else" => .otherwise
    | "endif" => .endIf
    | "define" => .define words
    | "undef" => .undefine first?
    | "include" => .includeHeader words
    | "error" => .report words
    | "pragma" | "line" => .ignored
    | other => .unknown other

/-- An item of a source, with the line that it begins on. -/
inductive SourceItem where
  | text (t : Token)
  | marker (t : Token)
  | directive (d : Directive) (line : LineNumber)
  | endOfSource (line : LineNumber)
  deriving DecidableEq, Repr

namespace SourceItem

/-- The line that an item begins on. -/
def line : SourceItem → LineNumber
  | .text t | .marker t => t.line
  | .directive _ line | .endOfSource line => line

/-- The token begins a directive. -/
def startsDirective (t : Token) : Bool :=
  t.is "#" && t.startsLine

/-- The token belongs to the directive that the tokens before it are part of. -/
def continuesDirective (t : Token) : Bool :=
  !t.startsLine && t.kind != .eof && t.kind != .error

/-- The items of a source, `read` being the items so far. -/
def collect (read : Array SourceItem) (ts : List Token) : Array SourceItem :=
  match ts with
  | [] => read
  | t :: ts =>
    if t.kind = .eof then read.push (.endOfSource t.line)
    else if t.kind = .error then collect (read.push (.marker t)) ts
    else if startsDirective t then
      let words := ts.takeWhile continuesDirective
      collect (read.push (.directive (.ofWords words) t.line)) (ts.dropWhile continuesDirective)
    else collect (read.push (.text t)) ts
termination_by ts.length
decreasing_by
  all_goals
    have := (List.dropWhile_sublist continuesDirective (l := ts)).length_le
    simp only [List.length_cons]
    omega

/-- The items of a source up to its first end. -/
def ofTokens (ts : List Token) : List SourceItem :=
  (collect #[] ts).toList

end SourceItem

end BareC
