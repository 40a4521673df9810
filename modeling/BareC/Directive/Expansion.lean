import BareC.Directive.Branches
import BareC.Directive.Header
import BareC.Directive.Line

/-!
# The expanded source

Directives are carried out and macros replaced, in one pass over the items of a source. The pass
keeps the macros in force, the open conditionals and the state of the host, and a header is passed
over in the same state as the text around its include, one level deeper. A level too deep is not
opened, so the depth that is left bounds the recursion.

Nothing that goes wrong ends the pass. It leaves a marker among the tokens, and so does every fault
of the sources themselves.
-/

namespace BareC

/-- What can be wrong with a directive. -/
inductive DirectiveFault where
  | strayElif
  | strayElse
  | strayEndif
  | unterminated
  | unsupportedCondition
  | namelessMacro
  | functionLikeMacro
  | header (fault : Header.NameFault)
  | tooDeep
  | headerNotFound (name : String)
  /-- The source itself reports an error. -/
  | reported (words : List String)
  | unknown (name : String)
  deriving DecidableEq, Repr

/-- The wording of a fault. -/
def DirectiveFault.message : DirectiveFault → String
  | .strayElif => "stray #elif"
  | .strayElse => "stray #else"
  | .strayEndif => "stray #endif"
  | .unterminated => "unterminated conditional directive"
  | .unsupportedCondition => "unsupported #if expression"
  | .namelessMacro => "macro name must be an identifier"
  | .functionLikeMacro => "function-like macros are not supported"
  | .header .unclosed => "expected '>' in #include"
  | .header .missing => "expected a file name after #include"
  | .tooDeep => "#include nested too deeply"
  | .headerNotFound name => "cannot open include file " ++ name
  | .reported words => "#error " ++ " ".intercalate words
  | .unknown name => "unknown directive #" ++ name

/-- The truth of a condition: `defined` with a name, a number, or a name that is no macro and counts
as zero. Of any other condition nothing is said. -/
def Macros.holds? (m : Macros) (condition : List Token) : Option Bool :=
  match condition with
  | t :: words =>
    if t.is "defined" then
      let name? := match words with
        | u :: more => if u.is "(" then more.head? else some u
        | [] => none
      some (name?.any fun u => m.isDefined u.text)
    else number? (condition.flatMap m.expand)
  | [] => none
where
  /-- The truth of a condition after expansion. -/
  number? : List Token → Option Bool
    | [t] =>
      if t.kind = .num then some (t.value != 0)
      else if t.kind = .ident then some false
      else none
    | _ => none

/-- The state of the pass over hosts with states `σ`. -/
structure Expansion (σ : Type) where
  macros : Macros := .predefined
  branches : Branches := []
  /-- The line of the last item, which the end of the result is given. -/
  line : LineNumber := 1
  host : σ
  out : Array Token := #[]

namespace Expansion

variable {σ : Type}

/-- Leaves a marker. -/
def fault (cause : DirectiveFault) (line : LineNumber) (e : Expansion σ) : Expansion σ :=
  { e with out := e.out.push (.marker cause.message line) }

/-- The truth of a condition, with a marker and the answer `false` where it has none. -/
def judge (condition : List Token) (line : LineNumber) (e : Expansion σ) : Bool × Expansion σ :=
  match e.macros.holds? condition with
  | some holds => (holds, e)
  | none => (false, e.fault .unsupportedCondition line)

/-- Defines the macro named by the first word, the body being the others. A name directly followed
by a parenthesis would take arguments. -/
def define (line : LineNumber) (e : Expansion σ) : List Token → Expansion σ
  | [] => e.fault .namelessMacro line
  | name :: body =>
    if name.kind != .ident then e.fault .namelessMacro line
    else if body.head?.any fun t => t.is "(" && !t.spaced then e.fault .functionLikeMacro line
    else { e with macros := e.macros.define name.text body }

/-- Passes over the header named by the words of an include, by `deeper` if another level is
allowed. -/
def includeHeader (host : Host σ) (deeper : Option (List Token → Expansion σ → Expansion σ))
    (words : List Token) (line : LineNumber) (e : Expansion σ) : Expansion σ :=
  match Header.name words, deeper with
  | .error f, _ => e.fault (.header f) line
  | .ok _, none => e.fault .tooDeep line
  | .ok name, some deeper =>
    match Header.fetch host (Bytes.ofText name) e.host with
    | (none, s) => { e with host := s }.fault (.headerNotFound name) line
    | (some contents, s) => deeper (Token.ofSource contents) { e with host := s }

/-- A directive that has an effect where lines are read and none where they are skipped. -/
def obey (host : Host σ) (deeper : Option (List Token → Expansion σ → Expansion σ))
    (d : Directive) (line : LineNumber) (e : Expansion σ) : Expansion σ :=
  match d with
  | .define words => e.define line words
  | .undefine (some name) => { e with macros := e.macros.erase name }
  | .includeHeader words => e.includeHeader host deeper words line
  | .report words => e.fault (.reported (words.map (·.text))) line
  | .unknown name => e.fault (.unknown name) line
  | _ => e

/-- Carries out a directive. -/
def direct (host : Host σ) (deeper : Option (List Token → Expansion σ → Expansion σ))
    (d : Directive) (line : LineNumber) (e : Expansion σ) : Expansion σ :=
  match d with
  | .ifDefined wanted name? =>
    { e with branches := e.branches.enter (name?.any e.macros.isDefined == wanted) }
  | .ifHolds condition =>
    if e.branches.skipping then { e with branches := e.branches.enter false }
    else
      let (holds, e) := e.judge condition line
      { e with branches := e.branches.enter holds }
  | .elifHolds condition =>
    match e.branches.elifDecides? with
    | none => e.fault .strayElif line
    | some false => { e with branches := e.branches.elif false }
    | some true =>
      let (holds, e) := e.judge condition line
      { e with branches := e.branches.elif holds }
  | .otherwise =>
    match e.branches.otherwise? with
    | none => e.fault .strayElse line
    | some branches => { e with branches }
  | .endIf =>
    match e.branches.leave? with
    | none => e.fault .strayEndif line
    | some branches => { e with branches }
  | d => if e.branches.skipping then e else e.obey host deeper d line

/-- Passes over one item. Markers are kept even where lines are skipped. -/
def step (host : Host σ) (deeper : Option (List Token → Expansion σ → Expansion σ))
    (e : Expansion σ) (item : SourceItem) : Expansion σ :=
  let e := { e with line := item.line }
  match item with
  | .text t =>
    if e.branches.skipping then e else { e with out := e.out ++ (e.macros.expand t) }
  | .marker t => { e with out := e.out.push t }
  | .directive d line => e.direct host deeper d line
  | .endOfSource _ => e

/-- Passes over a source inside which headers may be nested `depth` deep. -/
def run (host : Host σ) : (depth : Nat) → List Token → Expansion σ → Expansion σ
  | 0, ts, e => (SourceItem.ofTokens ts).foldl (step host none) e
  | depth + 1, ts, e => (SourceItem.ofTokens ts).foldl (step host (some (run host depth))) e

/-- The tokens of a finished pass, with the end of the source behind them. -/
def finish (e : Expansion σ) : List Token :=
  let e := if e.branches.isEmpty then e else e.fault .unterminated e.line
  (e.out.push (.endOfSource e.line)).toList

end Expansion

/-- Carries out the directives of a source and replaces its macros, reading headers through the
host. -/
def Token.expandAll {σ : Type} (host : Host σ) (ts : List Token) : StateM σ (List Token) :=
  fun s =>
    let e := Expansion.run host maxHeaderDepth ts { host := s }
    (e.finish, e.host)

end BareC
