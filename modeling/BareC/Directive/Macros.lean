import BareC.Bytes
import BareC.Token.Scan

/-!
# Object-like macros

A table gives each defined name the tokens it stands for. Expanding a token replaces the name by its
body and expands the body in turn, with one rule that keeps it finite: inside the expansion of a
name that name is an ordinary identifier. `expand` says this by handing the table *without* the name
down to the body, so that the table shrinks on the way and self-reference has nothing to look up.
-/

namespace BareC

/-- The macros in force: each name with its body, and no name twice. -/
abbrev Macros := List (String × List Token)

namespace Macros

/-- What the name stands for. -/
def body? (m : Macros) (name : String) : Option (List Token) :=
  m.lookup name

def isDefined (m : Macros) (name : String) : Bool :=
  (m.body? name).isSome

/-- Forgets the name. -/
def erase (m : Macros) (name : String) : Macros :=
  m.filter (·.1 != name)

/-- Gives the name a new body. -/
def define (m : Macros) (name : String) (body : List Token) : Macros :=
  (name, body) :: m.erase name

/-- The tokens of a source without its end. -/
private def bodyOfText (text : String) : List Token :=
  (Token.ofSource (Bytes.ofText text)).filter (·.kind != .eof)

/-- The macros in force before the first line: standard C, without a hosted library, for the 32-bit
target. -/
def predefined : Macros :=
  [("__STDC__", "1"), ("__STDC_HOSTED__", "0"), ("__riscv", "1"), ("__riscv_xlen", "32")].map
    fun (name, text) => (name, bodyOfText text)

/-- The body to put in place of a token: only an identifier is ever replaced. -/
def replacement? (m : Macros) (t : Token) : Option (List Token) :=
  if t.kind = .ident then m.body? t.text else none

/-- Without a macro that there is, there are fewer macros. -/
theorem length_erase_lt_of_body? {m : Macros} {name : String} {body : List Token}
    (h : m.body? name = some body) : (m.erase name).length < m.length := by
  induction m with
  | nil => simp [body?] at h
  | cons entry m ih =>
    obtain ⟨other, b⟩ := entry
    by_cases hn : name = other
    · have := List.length_filter_le (fun e : String × List Token => e.1 != name) m
      simp [erase, hn] at this ⊢
      omega
    · have hne : (name == other) = false := by simpa using hn
      have := ih (by simpa [body?, List.lookup_cons, hne] using h)
      simp [erase, Ne.symm hn] at this ⊢
      omega

/-- Replacing comes to an end: inside of what replaces a name there is one macro less. -/
theorem length_erase_lt_of_replacement? {m : Macros} {t : Token} {body : List Token}
    (h : m.replacement? t = some body) : (m.erase t.text).length < m.length := by
  unfold replacement? at h
  split at h
  · exact length_erase_lt_of_body? h
  · simp at h

/-- A body moved to the place of a token: on its line, and behind the space before it. -/
def place (t : Token) : List Token → List Token
  | [] => []
  | first :: others =>
    { first with line := t.line, startsLine := false, spaced := t.spaced } ::
      others.map fun u => { u with line := t.line, startsLine := false }

/-- A token with every macro in it replaced. No token of the result starts a line. -/
def expand (m : Macros) (t : Token) : List Token :=
  match _h : m.replacement? t with
  | some body => (place t body).flatMap (expand (m.erase t.text))
  | none => [{ t with startsLine := false }]
termination_by m.length
decreasing_by exact length_erase_lt_of_replacement? _h

end Macros

end BareC
