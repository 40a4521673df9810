import BareC.Proofs.Directives.Depths
import BareC.Proofs.Directives.Lines
import BareC.Proofs.Host.Headers
import Mathlib

/-!
# Including a header is writing it out

An include stands for the text of its header. Where the line of an include begins, nothing of a line
is left open, so the tokens of a source with the header written out are those of its parts
(`Lines`). The pass over the header shares its whole state with the pass around it, so it makes no
difference that the one runs inside the other, as long as there is room (`Depths`) and the host does
not change its mind (`steady`).

A comment or a joined line end may stand in front of the include and leave a blank there. So what is
said is said with the position that reading has come to (`Includes`): the first token of the header
may be marked as having space in front of it, which it would not be by itself.

Nothing is said of headers that the host does not serve, and nothing of a host that answers
differently the second time; `Host/Headers` shows that hosts which do serve them exist.
-/

namespace BareC

open SourceItem (ofTokens)

/-! ## A line that includes -/

namespace Token

open Expansion (run)

variable {σ : Type}

/-- Behind the lines `before`, where reading stands at `q`, the line of an include is carried out.
The header that its spelling names is served in full, whenever it is asked for, and it is a source
of its own: it has no fault, and no backslash joins its last line to another. -/
structure Includes (host : Host σ) (s : σ) (before spelling header : Bytes)
    (q : Position) : Prop where
  lines : before.map charOfByte = [] ∨ (before.map charOfByte).getLast? = some '\n'
  reads : ∃ ts, Reads {} (before.map charOfByte) ts q []
  startsLine : q.startsLine = true
  active : (run host maxHeaderDepth (ofSource before) { host := s }).branches.skipping = false
  served : ∃ name, SpellsString (spelling.map charOfByte) name ∧
    host.Serves (Bytes.ofText (String.ofList name)) header s
  steady : host.Steady s
  fits : header.length ≤ maxHeaderBytes
  clean : hasMarker (ofSource header) = false
  unjoined : (header.map charOfByte).getLast? ≠ some '\\'

end Token

namespace Expansion

variable {σ : Type} {host : Host σ} {e : Expansion σ}

/-- The end of a source only moves on to its line. -/
theorem pass_tokensFrom_of_reads {p q : Token.Position} {s : List Char} {ts : List Token}
    (h : Token.Reads p s ts q []) (depth : Nat) (e : Expansion σ) :
    pass host depth (ofTokens (Token.tokensFrom p s)) e =
      { pass host depth (ofTokens ts) e with line := q.line } := by
  have atEnd : Token.tokensFrom q [] = [Token.endOfSource q.line] := Token.tokensFrom_nil q
  have apart : SourceItem.Apart [Token.endOfSource q.line] := by
    intro t first
    obtain rfl := Option.some.inj first
    rfl
  rw [h.tokensFrom_eq, atEnd,
    SourceItem.ofTokens_append (fun t mem => (h.not_marker t mem).2) apart, pass_append,
    SourceItem.ofTokens_eof rfl]
  rfl

/-- If there is room, a header is passed over as if it stood a level higher. -/
theorem run_of_roomy {source : Bytes} {q : Token.Position} {ts : List Token}
    (h : Token.Reads {} (source.map Token.charOfByte) ts q []) {depth : Nat}
    (roomy : Tokens.Roomy (run host depth (Token.ofSource source) e).out.toList) :
    run host depth (Token.ofSource source) e =
      { pass host (depth + 1) (ofTokens ts) e with line := q.line } := by
  rw [run_eq_pass] at roomy
  rw [run_eq_pass, ← pass_succ_of_roomy roomy]
  exact pass_tokensFrom_of_reads h (depth + 1) e

/-- Where lines are read, an include passes over its header. -/
theorem step_include {depth : Nat} (active : e.branches.skipping = false) {t : Token}
    (isName : t.kind = .str) {header : Bytes}
    (found : (Header.fetch host (Bytes.ofText t.text) e.host).1 = some header) (line : LineNumber) :
    step host (deeperAt host (depth + 1)) e (.directive (.includeHeader [t]) line) =
      run host depth (Token.ofSource header)
        { e with line, host := (Header.fetch host (Bytes.ofText t.text) e.host).2 } := by
  have named : Header.name [t] = .ok t.text := by rw [Header.name, if_pos isName]
  simp only [step, direct, obey, SourceItem.line, active, Bool.false_eq_true, if_false]
  exact @includeHeader_found _ _ _ _ _ _ { e with line } named _ (Prod.ext found rfl) line

end Expansion

namespace Token

open Expansion

variable {σ : Type} {host : Host σ} {s : σ} {before spelling header : Bytes} {q : Position}

/-- The state of a pass behind the first tokens of a source. -/
def passed (host : Host σ) (s : σ) (ts : List Token) : Expansion σ :=
  pass host maxHeaderDepth (ofTokens ts) { host := s }

namespace Includes

variable {ts : List Token} (h : Includes host s before spelling header q)
  (reads : Reads {} (before.map charOfByte) ts q [])
include h reads

/-- The header is passed over one level deeper, from the line of its include. -/
theorem run_include (after : Bytes) : ∃ s', host.Fetched s s' ∧
    run host maxHeaderDepth (ofSource (before ++ includeLine spelling ++ after)) { host := s } =
      pass host maxHeaderDepth
        (ofTokens (tokensFrom ⟨q.line + 1, true, false⟩ (after.map charOfByte)))
          (run host (maxHeaderDepth - 1) (ofSource header)
            { passed host s ts with line := q.line, host := s' }) := by
  obtain ⟨name, spells, serves⟩ := h.served
  have fetched : host.Fetched s (passed host s ts).host := fetched_pass _ _ { host := s }
  have found : (Header.fetch host (Bytes.ofText (String.ofList name)) (passed host s ts).host).1 =
      some header := (h.steady _ _ fetched).trans (Header.fetch_of_serves serves h.fits)
  have active : (passed host s ts).branches.skipping = false := by
    have active := h.active
    rwa [run_eq_pass, ofSource_eq_tokensFrom, pass_tokensFrom_of_reads reads] at active
  refine ⟨_, fetched.fetch (Bytes.ofText (String.ofList name)), ?_⟩
  have front :=
    reads.append_of_lines h.lines ((includeLine spelling).map charOfByte ++ after.map charOfByte)
  rw [run_eq_pass, ofSource_eq_tokensFrom, List.map_append, List.map_append, List.append_assoc,
    front.ofTokens_tokensFrom h.startsLine, (reads_includeLine spells q _).ofTokens_tokensFrom rfl,
    ofTokens_includeTokens h.startsLine, pass_append, pass_append, pass_cons, pass_nil, ← passed]
  exact congrArg _ (@step_include _ host _ (maxHeaderDepth - 1) active
    ⟨.str, String.ofList name, 0, q.line, false, true⟩ rfl header found q.line)

omit reads in
/-- If nothing but blanks stands in front of it, an include begins with the state of the whole pass.
-/
theorem expandAll_of_first (first : Reads {} (before.map charOfByte) [] q [])
    (after : Bytes) : ∃ s',
    (expandAll host (ofSource (before ++ includeLine spelling ++ after)) s).1 =
      (pass host maxHeaderDepth
        (ofTokens (tokensFrom ⟨q.line + 1, true, false⟩ (after.map charOfByte)))
          (pass host (maxHeaderDepth - 1)
            (ofTokens (ofSource header)) { host := s', line := q.line })).finish := by
  obtain ⟨s', -, included⟩ := h.run_include first after
  rw [run_eq_pass host (maxHeaderDepth - 1), passed, SourceItem.ofTokens_nil, pass_nil] at included
  exact ⟨s', congrArg finish included⟩

omit reads in
/-- A header that is written out behind whole lines is passed over with the text around it. -/
theorem run_written {front : Bytes} {r : Position}
    (lines : front.map charOfByte = [] ∨ (front.map charOfByte).getLast? = some '\n')
    (frontReads : Reads {} (front.map charOfByte) ts r []) (startsLine : r.startsLine = true)
    (unspaced : r.spaced = false) (after : Bytes) : ∃ us q' us' line,
    Reads {} (header.map charOfByte) us q' [] ∧ Tokens.Like AnyLine us us' ∧
    run host maxHeaderDepth (ofSource (front ++ header ++ Bytes.ofText "\n" ++ after))
      { host := s } =
      pass host maxHeaderDepth (ofTokens (tokensFrom ⟨line, true, false⟩ (after.map charOfByte)))
        (pass host maxHeaderDepth (ofTokens us') (passed host s ts)) := by
  obtain ⟨us, q', alone⟩ := hasMarker_tokensFrom_eq_false_iff.mp h.clean
  obtain ⟨us', r', behind, like, -⟩ :=
    alone.like (L := AnyLine) (fun _ _ => trivial) ⟨trivial, startsLine.symm, unspaced.symm⟩
  refine ⟨us, q', us', r'.line + 1, alone, like, ?_⟩
  have written : Reads r (header.map charOfByte ++ '\n' :: after.map charOfByte) us'
      ⟨r'.line + 1, true, false⟩ (after.map charOfByte) := by
    have toEnd := behind.append_of_closed (b := '\n' :: after.map charOfByte) (.inr (.inr rfl))
      fun backslash => absurd backslash h.unjoined
    exact us'.append_nil ▸ toEnd.trans (.space rfl rfl rfl (.refl ..))
  have whole :=
    frontReads.append_of_lines lines (header.map charOfByte ++ '\n' :: after.map charOfByte)
  rw [run_eq_pass, ofSource_eq_tokensFrom, List.map_append, List.map_append, List.map_append,
    map_lineEnd, List.append_assoc, List.append_assoc, List.singleton_append,
    whole.ofTokens_tokensFrom startsLine,
    written.ofTokens_tokensFrom rfl, pass_append, pass_append, ← passed]

/-- An include is as good as its header behind whole lines that say the same as those in front of
it. -/
theorem like_written {front : Bytes} {r : Position}
    (lines : front.map charOfByte = [] ∨ (front.map charOfByte).getLast? = some '\n')
    (frontReads : Reads {} (front.map charOfByte) ts r []) (startsLine : r.startsLine = true)
    (unspaced : r.spaced = false) (after : Bytes)
    (roomy :
      Tokens.Roomy (expandAll host (ofSource (before ++ includeLine spelling ++ after)) s).1) :
    Tokens.Like AnyLine (expandAll host (ofSource (before ++ includeLine spelling ++ after)) s).1
      (expandAll host (ofSource (front ++ header ++ Bytes.ofText "\n" ++ after)) s).1 := by
  obtain ⟨s', fetched, included⟩ := h.run_include reads after
  obtain ⟨us, q', us', line, alone, like, written⟩ :=
    h.run_written lines frontReads startsLine unspaced after
  have refl : ∀ n, AnyLine n n := fun _ => trivial
  -- both passes go on from like states, in which the host serves the same
  let H : σ → σ → Prop := fun s₁ s₂ => host.Fetched s s₁ ∧ host.Fetched s s₂
  have served : ∀ path s₁ s₂, H s₁ s₂ →
    (Header.fetch host path s₁).1 = (Header.fetch host path s₂).1 ∧
      H (Header.fetch host path s₁).2 (Header.fetch host path s₂).2 := fun path s₁ s₂ ⟨h₁, h₂⟩ =>
    ⟨(h.steady _ _ h₁).trans (h.steady _ _ h₂).symm, h₁.fetch path, h₂.fetch path⟩
  have begun : ({ passed host s ts with line := q.line, host := s' } : Expansion σ).Like AnyLine H
      (passed host s ts) :=
    ⟨.refl refl _, rfl, trivial, ⟨fetched, fetched_pass _ _ { host := s }⟩, .refl refl _⟩
  have roomy :=
    (roomy.of_isPrefix (out_prefix_finish _)).of_isPrefix (included ▸ out_prefix_pass ..)
  have headers := begun.pass served refl maxHeaderDepth (SourceItem.like_ofTokens like)
  have ended : (run host (maxHeaderDepth - 1) (ofSource header)
      { passed host s ts with line := q.line, host := s' }).Like AnyLine H
        (pass host maxHeaderDepth (ofTokens us') (passed host s ts)) := by
    rw [run_of_roomy alone roomy]
    exact ⟨headers.macros, headers.branches, trivial, headers.host, headers.out⟩
  have others : Tokens.Like AnyLine (tokensFrom ⟨q.line + 1, true, false⟩ (after.map charOfByte))
      (tokensFrom ⟨line, true, false⟩ (after.map charOfByte)) :=
    like_tokensFrom (fun _ _ => trivial) ⟨trivial, by rfl, by rfl⟩ _
  have finished := (ended.pass served refl maxHeaderDepth (SourceItem.like_ofTokens others)).finish
  rw [← included, ← written] at finished
  exact finished

end Includes

/-- As long as there is room for all headers, an include gives the same tokens, up to their lines,
as its header written out: in the place of its line, if no blank stands in front of that, and on new
lines in any case. -/
theorem expandAll_include (h : Includes host s before spelling header q) (after : Bytes)
    (roomy :
      Tokens.Roomy (expandAll host (ofSource (before ++ includeLine spelling ++ after)) s).1) :
    (q.spaced = false →
      Tokens.Like AnyLine (expandAll host (ofSource (before ++ includeLine spelling ++ after)) s).1
        (expandAll host (ofSource (before ++ header ++ Bytes.ofText "\n" ++ after)) s).1) ∧
    Tokens.Like AnyLine (expandAll host (ofSource (before ++ includeLine spelling ++ after)) s).1
      (expandAll host
        (ofSource (before ++ Bytes.ofText "\n" ++ header ++ Bytes.ofText "\n" ++ after)) s).1 := by
  obtain ⟨ts, reads⟩ := h.reads
  refine ⟨fun unspaced => h.like_written reads h.lines reads h.startsLine unspaced after roomy, ?_⟩
  have front : (before ++ Bytes.ofText "\n").map charOfByte = before.map charOfByte ++ ['\n'] := by
    rw [List.map_append, map_lineEnd]
  have blankLine :
      Reads {} ((before ++ Bytes.ofText "\n").map charOfByte) ts ⟨q.line + 1, true, false⟩ [] := by
    rw [front]
    exact ts.append_nil ▸ (reads.append_of_lines h.lines ['\n']).trans
      (.space rfl rfl rfl (.refl ..))
  exact h.like_written reads (.inr (by rw [front, List.getLast?_concat])) blankLine rfl
    rfl after roomy

/-- A header with a macro and a header with a word. -/
def twoHeaders : Headers where
  contents :=
    [(Bytes.ofText "one", Bytes.ofText "#define N 1"), (Bytes.ofText "word", Bytes.ofText "x")]
  portion _ := readBuffer
  report count := count

/-- The store of the two headers brings something with every read and says how much. -/
theorem faithful_twoHeaders : twoHeaders.Faithful :=
  ⟨fun _ => (by decide : 0 < readBuffer), fun _ => rfl⟩

/-- A path has the same contents in it however often headers are fetched. -/
theorem steady_twoHeaders : twoHeaders.host.Steady {} :=
  (Headers.offers faithful_twoHeaders (by decide)).steady (by decide +kernel)

/-- Its header `one` is included in front of the text it stands before. -/
theorem includes_one :
    Includes twoHeaders.host {} [] (Bytes.ofText "one") (Bytes.ofText "#define N 1") {} where
  lines := .inl rfl
  reads := ⟨[], .refl ..⟩
  startsLine := rfl
  active := by cbv
  served := ⟨['o', 'n', 'e'], spellsString_of_eq (by cbv) (by cbv),
    Headers.serves faithful_twoHeaders (by cbv) (by decide)⟩
  steady := steady_twoHeaders
  fits := by cbv
  clean := by cbv
  unjoined := by decide +kernel

/-- Behind that inclusion the header's definition is in force. -/
theorem expandAll_one :
    (expandAll twoHeaders.host
      (ofSource ([] ++ includeLine (Bytes.ofText "one") ++ Bytes.ofText "N")) {}).1 =
      [⟨.num, "1", 1, 2, false, false⟩, endOfSource 2] := by
  have header : ofTokens (ofSource (Bytes.ofText "#define N 1")) =
      [.directive (.define [⟨.ident, "N", 0, 1, false, true⟩, ⟨.num, "1", 1, 1, false, true⟩]) 1,
        .endOfSource 1] := by cbv
  have after : ofTokens (tokensFrom ⟨2, true, false⟩ ((Bytes.ofText "N").map charOfByte)) =
      [.text ⟨.ident, "N", 0, 2, true, false⟩, .endOfSource 2] := by cbv
  have one : (Macros.predefined.define "N" [⟨.num, "1", 1, 1, false, true⟩]).expand
      ⟨.ident, "N", 0, 2, true, false⟩ = [⟨.num, "1", 1, 2, false, false⟩] := by cbv
  have second : ({} : Position).line + 1 = 2 := rfl
  obtain ⟨s', outcome⟩ := includes_one.expandAll_of_first (.refl ..) (Bytes.ofText "N")
  rw [outcome, header, second, after]
  exact congrArg (fun ts : List Token =>
    (((#[] : Array Token) ++ ts).push (endOfSource 2)).toList) one

/-- A macro of the header is replaced behind the include. -/
theorem expandAll_include_one :
    Includes twoHeaders.host {} [] (Bytes.ofText "one") (Bytes.ofText "#define N 1") {} ∧
      Tokens.Roomy (expandAll twoHeaders.host
        (ofSource ([] ++ includeLine (Bytes.ofText "one") ++ Bytes.ofText "N")) {}).1 ∧
      Tokens.Like AnyLine
        (expandAll twoHeaders.host
          (ofSource ([] ++ includeLine (Bytes.ofText "one") ++ Bytes.ofText "N")) {}).1
        (expandAll twoHeaders.host
          (ofSource ([] ++ Bytes.ofText "#define N 1" ++ Bytes.ofText "\n" ++ Bytes.ofText "N"))
            {}).1 ∧
      Tokens.Like AnyLine
        (expandAll twoHeaders.host
          (ofSource ([] ++ includeLine (Bytes.ofText "one") ++ Bytes.ofText "N")) {}).1
        (expandAll twoHeaders.host (ofSource
          ([] ++ Bytes.ofText "\n" ++ Bytes.ofText "#define N 1" ++ Bytes.ofText "\n" ++
            Bytes.ofText "N")) {}).1 := by
  have roomy : Tokens.Roomy (expandAll twoHeaders.host
      (ofSource ([] ++ includeLine (Bytes.ofText "one") ++ Bytes.ofText "N")) {}).1 := by
    rw [expandAll_one, Tokens.Roomy]
    decide +kernel
  have included := expandAll_include includes_one _ roomy
  exact ⟨includes_one, roomy, included.1 rfl, included.2⟩

/-! ## A blank in front of the include

A backslash joins a line of blanks to the line of an include, which is then carried out as on a line
of its own. A header is read from the start of a line whatever stands in front of its include, so
the blank is forgotten where the header is included, and counts where the header is written out in
its place. -/

/-- A blank and a joined line end read as no token. -/
theorem reads_blanks : Reads {} ((Bytes.ofText " \\\n").map charOfByte) [] ⟨2, true, true⟩ [] := by
  rw [show (Bytes.ofText " \\\n").map charOfByte = [' ', '\\', '\n'] by cbv]
  exact .space rfl rfl rfl (.space rfl rfl rfl (.refl ..))

/-- Its header `word` is included behind a joined line. -/
theorem includes_word : Includes twoHeaders.host {} (Bytes.ofText " \\\n") (Bytes.ofText "word")
    (Bytes.ofText "x") ⟨2, true, true⟩ where
  lines := .inr (by cbv)
  reads := ⟨[], reads_blanks⟩
  startsLine := rfl
  active := by cbv
  served := ⟨['w', 'o', 'r', 'd'], spellsString_of_eq (by cbv) (by cbv),
    Headers.serves faithful_twoHeaders (by cbv) (by decide)⟩
  steady := steady_twoHeaders
  fits := by cbv
  clean := by cbv
  unjoined := by decide +kernel

/-- The header's text stands where the line was, with the line number it has in the header. -/
theorem expandAll_word : (expandAll twoHeaders.host
    (ofSource (Bytes.ofText " \\\n" ++ includeLine (Bytes.ofText "word") ++ [])) {}).1 =
      [⟨.ident, "x", 0, 1, false, false⟩, endOfSource 3] := by
  have header : ofTokens (ofSource (Bytes.ofText "x")) =
      [.text ⟨.ident, "x", 0, 1, true, false⟩, .endOfSource 1] := by cbv
  have after : ofTokens (tokensFrom ⟨3, true, false⟩ []) = [.endOfSource 3] := by cbv
  have word : Macros.predefined.expand ⟨.ident, "x", 0, 1, true, false⟩ =
      [⟨.ident, "x", 0, 1, false, false⟩] := by cbv
  have third : (⟨2, true, true⟩ : Position).line + 1 = 3 := rfl
  obtain ⟨s', outcome⟩ := includes_word.expandAll_of_first reads_blanks []
  rw [outcome, header, List.map_nil, third, after]
  exact congrArg (fun ts : List Token =>
    (((#[] : Array Token) ++ ts).push (endOfSource 3)).toList) word

/-- So the first token of a header need not be the same: here a blank stands in front of it if the
header is written out, and none if it is included. -/
theorem not_like_behind_blank :
    Includes twoHeaders.host {} (Bytes.ofText " \\\n") (Bytes.ofText "word") (Bytes.ofText "x")
      ⟨2, true, true⟩ ∧ Tokens.Roomy (expandAll twoHeaders.host
        (ofSource (Bytes.ofText " \\\n" ++ includeLine (Bytes.ofText "word") ++ [])) {}).1 ∧
      Tokens.Roomy (expandAll twoHeaders.host
        (ofSource (Bytes.ofText " \\\n" ++ Bytes.ofText "x" ++ Bytes.ofText "\n" ++ [])) {}).1 ∧
      ¬ Tokens.Like AnyLine
        (expandAll twoHeaders.host
          (ofSource (Bytes.ofText " \\\n" ++ includeLine (Bytes.ofText "word") ++ [])) {}).1
        (expandAll twoHeaders.host
          (ofSource (Bytes.ofText " \\\n" ++ Bytes.ofText "x" ++ Bytes.ofText "\n" ++ []))
            {}).1 := by
  have written : (expandAll twoHeaders.host
      (ofSource (Bytes.ofText " \\\n" ++ Bytes.ofText "x" ++ Bytes.ofText "\n" ++ [])) {}).1 =
        [⟨.ident, "x", 0, 2, false, true⟩, endOfSource 3] := by cbv
  rw [expandAll_word, written]
  refine ⟨includes_word,
    by unfold Tokens.Roomy; decide +kernel, by unfold Tokens.Roomy; decide +kernel, ?_⟩
  intro like
  cases like with
  | cons first _ => exact Bool.false_ne_true first.spaced

end Token

end BareC
