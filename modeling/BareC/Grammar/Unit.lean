import BareC.Grammar.Statement
import BareC.Syntax.Calls

/-!
# Compilation units

A unit is read declaration by declaration. Whatever is wrong with one costs that declaration only: a
diagnostic takes its place and reading goes on behind it, at the next semicolon or closing brace
outside of all braces. Prototypes declare how many parameters a name has and leave no item; a name
keeps the number it is given first, also if the body that followed was refused.
-/

namespace BareC.Grammar

/-- What is declared of a function in front of its body. -/
structure Signature where
  name : String
  params : Nat
  /-- The named parameters in scope, and the slots of all of them. -/
  scope : Scope
  line : LineNumber
  deriving Repr

/-! ## Signatures -/

/-- The words of a type and the stars behind them. -/
def typeName : Parser Unit := do
  if !isTypeWord (← Parser.peek) then Parser.fail .expectedType
  Parser.skipWhile isTypeWord
  Parser.skipWhile (·.is "*")

/-- One parameter. It need not have a name, but it has a slot. -/
def parameter : ScopedParser Unit := do
  typeName
  if (← Parser.peek).kind = .ident then
    let name ← Parser.name
    if ← Parser.accept "[" then Parser.expect "]"
    let _ ← declare name
  else modify fun scope => { scope with slots := scope.slots + 1 }

/-- Parameters of which `left` may still come. Returns how many they are. -/
def parameters (left : Nat) (read : Nat) : ScopedParser Nat := do
  parameter
  match left with
  | 0 => Parser.fail .tooManyParameters
  | left + 1 => if ← Parser.accept "," then parameters left (read + 1) else return read + 1

/-- The tokens ahead are those of an empty parameter list spelled with `void`. -/
def isVoidList : List Token → Bool
  | t :: u :: _ => t.is "void" && u.is ")"
  | _ => false

/-- The parameters between parentheses. -/
def parameterList : ScopedParser Nat := do
  Parser.expect "("
  let count ←
    if isVoidList (← getThe Cursor).ahead then
      let _ ← Parser.advance
      pure 0
    else if ← Parser.sees ")" then pure 0
    else parameters maxParameters 0
  Parser.expect ")"
  return count

/-- Everything in front of a body. -/
def signature : Parser Signature := do
  let line := (← Parser.peek).line
  Parser.refuseUnsupported
  typeName
  let name ← Parser.name
  if !(← Parser.sees "(") then Parser.fail .globalVariable
  let (params, scope) ← parameterList.run {}
  return { name := name.text, params, scope, line }

/-- A signature that agrees with what is declared already. -/
def agreeing (declared : Arities) (s : Signature) : Parser Unit := do
  if (declared.lookup s.name).any (· != s.params) then Parser.fail (.conflicting s.name)

/-- What stands behind a signature: nothing but a semicolon, or a body. -/
def definition? (s : Signature) : Parser (Option Function) := do
  if ← Parser.accept ";" then return none
  if !(← Parser.sees "\x7b") then Parser.fail .expectedBody
  let (body, scope) ← functionBody.run s.scope
  return some { name := s.name, params := s.params, locals := scope.slots, body, line := s.line }

/-! ## Units -/

/-- Skips the rest of a declaration that failed where `depth` braces were open. A marker on the way
ends it as well: it is what the declaration failed at, and has been reported. -/
def recover (depth : Nat) : List Token → List Token
  | [] => []
  | t :: ts =>
    if t.kind = .eof then t :: ts
    else if t.kind = .error then ts
    else
      let depth := Cursor.depthAfter depth t
      if depth = 0 && (t.is "\x7d" || t.is ";") then ts else recover depth ts

/-- A unit as far as it has been read. -/
structure Reading where
  cursor : Cursor
  /-- The numbers of parameters that are declared, latest first. -/
  declared : Arities := []
  items : Array Item := #[]

namespace Reading

/-- Leaves a diagnostic and goes on behind the declaration. -/
def refuse (r : Reading) (f : Failure) : Reading :=
  { r with
    cursor := ⟨recover f.cursor.depth f.cursor.ahead, 0⟩
    items := r.items.push (.error f.diagnostic) }

/-- Reads one declaration. -/
def declaration (r : Reading) : Reading :=
  match (do let s ← signature; agreeing r.declared s; return s : Parser Signature).run r.cursor with
  | .error f => r.refuse f
  | .ok (s, cursor) =>
    let r := { r with declared := (s.name, s.params) :: r.declared }
    match (definition? s).run cursor with
    | .error f => r.refuse f
    | .ok (none, cursor) => { r with cursor }
    | .ok (some f, cursor) => { r with cursor, items := r.items.push (.function f) }

/-- Reads a marker or a declaration. -/
def step (r : Reading) : Reading :=
  let t := r.cursor.next
  if t.kind = .error then
    { r with
      cursor := r.cursor.advance
      items := r.items.push (.error ⟨.marker t.text, t.line⟩) }
  else r.declaration

/-- Reads to the end of the source. Each step takes a token, so that the tokens bound the steps. -/
def finish (bound : List Token) (r : Reading) : Reading :=
  match bound with
  | [] => r
  | _ :: bound => if r.cursor.atEnd then r else finish bound r.step

end Reading

end BareC.Grammar

namespace BareC

/-- The items of a unit before its calls are checked. -/
def Program.read (ts : List Token) : Program :=
  let cursor := Grammar.Cursor.ofTokens ts
  ⟨(Grammar.Reading.finish cursor.ahead { cursor }).items.toList⟩

/-- The unit of some tokens. -/
def Program.ofTokens (ts : List Token) : Program :=
  (Program.read ts).link

end BareC
