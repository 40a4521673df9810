import BareC.Proofs.Lexing.Lexemes

/-!
# Reading a source item by item

The scanner collects tokens in an array while it moves through the source. Here the same is said of
lists: `tokensFrom` is what a source gives from some position on, and `Reads` is the way through it,
a step for each item. A source is read either to its end or to its first fault, and in both cases
the tokens on the way are followed by what stands there (`reads_to_end_or_fault`).

`Reads` may stop anywhere, which is what makes it fit for sources that are put together: two ways
through two texts are one way through both (`Reads.trans`). It says nothing of a fault; where the
source has one, the way ends in front of it and the rest is `tokensFrom_of_fault`.
-/

namespace BareC.Token

/-- The tokens of a source that is read from position `p` on. -/
def tokensFrom (p : Position) (s : List Char) : List Token :=
  (scanAll p s #[]).toList

/-- The tokens of a source are read from its first position. -/
theorem ofSource_eq_tokensFrom (source : Bytes) :
    ofSource source = tokensFrom {} (source.map charOfByte) := rfl

namespace Scan

/-- The item is a fault. -/
def isFault : Scan → Bool
  | .fault _ _ => true
  | _ => false

/-- The position behind an item. -/
def after (p : Position) : Scan → Position
  | .newline _ => ⟨p.line + 1, true, false⟩
  | .splice _ => { p with line := p.line + 1 }
  | .blank lines _ => { p with line := p.line + .ofNat lines, spaced := true }
  | .token _ _ _ _ => ⟨p.line, false, false⟩
  | .fault _ _ => p

/-- White space on one line leaves its position, but for being space. -/
@[simp]
theorem after_blank_zero (p : Position) (rest : List Char) :
    (blank 0 rest).after p = { p with spaced := true } := by
  show (⟨p.line + 0, p.startsLine, true⟩ : Position) = _
  rw [UInt32.add_zero]

/-- The token of an item at a position; only a token has one. -/
def tokens (p : Position) : Scan → List Token
  | .token kind text value _ =>
    [⟨kind, String.ofList text, value, p.line, p.startsLine, p.spaced⟩]
  | _ => []

end Scan

/-- The marker for a fault that is found at a position. -/
def faultMarker (p : Position) (cause : Fault) (lines : Nat) : Token :=
  { marker cause.message (p.line + .ofNat lines) with startsLine := p.startsLine }

/-- What is answered where a fault is found. -/
def faultTokens (p : Position) (cause : Fault) (lines : Nat) : List Token :=
  [faultMarker p cause lines, endOfSource (p.line + .ofNat lines)]

/-- Tokens without a marker are those of a source the lexer had nothing to report on. -/
theorem hasMarker_eq_false_iff {ts : List Token} :
    hasMarker ts = false ↔ ∀ t ∈ ts, t.kind ≠ .error := by
  simp [hasMarker, firstMarker?]

/-- A step of the scanner, whatever was read before. -/
theorem scanAll_cons (p : Position) (c : Char) (s : List Char) (read : Array Token) :
    scanAll p (c :: s) read =
      match scan c s with
      | .fault cause lines => read ++ (faultTokens p cause lines).toArray
      | item => scanAll (item.after p) item.rest (read ++ (item.tokens p).toArray) := by
  rw [scanAll]
  split
  case h_5 item =>
    rw [item]
    exact Array.ext' (by simp [faultTokens, faultMarker])
  all_goals simp [*, Scan.after, Scan.rest, Scan.tokens]

/-- Scanning behind tokens already read is reading behind them: what lets the accumulator be
general. -/
theorem toList_scanAll (p : Position) (s : List Char) (read : Array Token) :
    (scanAll p s read).toList = read.toList ++ tokensFrom p s := by
  match s with
  | [] => rw [tokensFrom, scanAll, scanAll, Array.toList_push]; rfl
  | c :: s =>
    have shorter := scan_rest_length_le c s
    rw [tokensFrom, scanAll_cons, scanAll_cons]
    cases item : scan c s with
    | fault cause lines => simp
    | newline | splice | blank | token =>
      have : _ ≤ s.length := item ▸ shorter
      simp only []
      rw [toList_scanAll, toList_scanAll _ _ (#[] ++ _)]
      simp
termination_by s.length
decreasing_by all_goals exact Nat.lt_succ_of_le this

/-- At its end a source has one token more. -/
theorem tokensFrom_nil (p : Position) : tokensFrom p [] = [endOfSource p.line] := by
  rw [tokensFrom, scanAll]
  rfl

/-- A fault ends the reading. -/
theorem tokensFrom_of_fault {c : Char} {s : List Char} {cause : Fault} {lines : Nat}
    (h : scan c s = .fault cause lines) (p : Position) :
    tokensFrom p (c :: s) = faultTokens p cause lines := by
  rw [tokensFrom, scanAll_cons, h]
  rfl

/-- Without a fault the reading goes on behind what was scanned. -/
theorem tokensFrom_cons {c : Char} {s : List Char} (h : (scan c s).isFault = false) (p : Position) :
    tokensFrom p (c :: s) = (scan c s).tokens p ++
    tokensFrom ((scan c s).after p) (scan c s).rest := by
  rw [tokensFrom, scanAll_cons]
  cases item : scan c s with
  | newline | splice | blank | token => exact toList_scanAll _ _ _
  | fault cause lines => rw [item] at h; cases h

/-! ## The way through a source -/

/-- From position `p` in front of `s`, the items up to position `q` in front of `r` give the tokens
`ts`. -/
inductive Reads : Position → (s : List Char) → (ts : List Token) → Position → (r : List Char) → Prop
  | refl (p s) : Reads p s [] p s
  | item {p c s ts q r} : (scan c s).isFault = false →
    Reads ((scan c s).after p) (scan c s).rest ts q r →
    Reads p (c :: s) ((scan c s).tokens p ++ ts) q r

namespace Reads

variable {p q q' : Position} {s r r' : List Char} {ts us : List Token}

/-- Readings follow one another. -/
theorem trans (h : Reads p s ts q r) (h' : Reads q r us q' r') : Reads p s (ts ++ us) q' r' := by
  induction h with
  | refl => exact h'
  | item ok _ ih =>
    rw [List.append_assoc]
    exact .item ok (ih h')

/-- A reading begins with a token. -/
theorem token {c : Char} {rest text : List Char} {kind : Kind} {value : Nat}
    (item : scan c s = .token kind text value rest)
    (h : Reads ⟨p.line, false, false⟩ rest ts q r) :
    Reads p (c :: s)
      (⟨kind, String.ofList text, value, p.line, p.startsLine, p.spaced⟩ :: ts) q r := by
  have reads : Reads p (c :: s) ((scan c s).tokens p ++ ts) q r :=
    .item (by rw [item]; rfl) (by rwa [item])
  rwa [item] at reads

/-- A reading begins with what yields no token. -/
theorem space {c : Char} {item : Scan} (eq : scan c s = item) (ok : item.isFault = false)
    (none : item.tokens p = []) (h : Reads (item.after p) item.rest ts q r) :
    Reads p (c :: s) ts q r := by
  have reads : Reads p (c :: s) ((scan c s).tokens p ++ ts) q r := .item (by rwa [eq]) (by rwa [eq])
  rwa [eq, none, List.nil_append] at reads

/-- White space on one line is passed over. -/
theorem blank {c : Char} {rest : List Char} (item : scan c s = .blank 0 rest)
    (h : Reads { p with spaced := true } rest ts q r) : Reads p (c :: s) ts q r :=
  .space item rfl rfl (by rwa [Scan.after_blank_zero])

/-- The tokens of a source begin with those of a reading. -/
theorem tokensFrom_eq (h : Reads p s ts q r) : tokensFrom p s = ts ++ tokensFrom q r := by
  induction h with
  | refl => rfl
  | item ok _ ih => rw [tokensFrom_cons ok, ih, List.append_assoc]

/-- No token on the way is a marker or the end of the source. -/
theorem not_marker (h : Reads p s ts q r) : ∀ t ∈ ts, t.kind ≠ .error ∧ t.kind ≠ .eof := by
  induction h with
  | refl => exact nofun
  | @item p c s ts q r ok _ ih =>
    intro t mem
    refine (List.mem_append.mp mem).elim (fun mem => ?_) (ih t)
    have sound := scan_sound c s
    generalize scan c s = item at sound mem
    cases item with
    | token kind text value rest =>
      obtain ⟨lexeme, -, spells, -⟩ := sound
      rw [List.mem_singleton.mp mem]
      exact spells.not_marker
    | newline | splice | blank | fault => cases mem

end Reads

/-- A source is read to its end or to its first fault. -/
theorem reads_to_end_or_fault (p : Position) (s : List Char) :
    ∃ ts q, Reads p s ts q [] ∨
      ∃ c r cause lines, Reads p s ts q (c :: r) ∧ scan c r = .fault cause lines := by
  match s with
  | [] => exact ⟨[], p, .inl (.refl p [])⟩
  | c :: s =>
    cases item : (scan c s).isFault with
    | true =>
      cases fault : scan c s with
      | fault cause lines => exact ⟨[], p, .inr ⟨c, s, cause, lines, .refl p _, fault⟩⟩
      | newline | splice | blank | token => rw [fault] at item; cases item
    | false =>
      have := scan_rest_length_le c s
      obtain ⟨ts, q, toEnd | ⟨d, r, cause, lines, toFault, fault⟩⟩ :=
        reads_to_end_or_fault ((scan c s).after p) (scan c s).rest
      · exact ⟨_, q, .inl (.item item toEnd)⟩
      · exact ⟨_, q, .inr ⟨d, r, cause, lines, .item item toFault, fault⟩⟩
termination_by s.length

/-- A fault leaves a marker. -/
theorem hasMarker_faultTokens (ts : List Token) (p : Position) (cause : Fault) (lines : Nat) :
    hasMarker (ts ++ faultTokens p cause lines) = true := by
  refine Bool.not_eq_false _ |>.mp fun clean => ?_
  have mem : faultMarker p cause lines ∈ ts ++ faultTokens p cause lines :=
    List.mem_append_right _ List.mem_cons_self
  exact hasMarker_eq_false_iff.mp clean _ mem rfl

/-- Exactly a source without a fault is read to its end. -/
theorem hasMarker_tokensFrom_eq_false_iff {p : Position} {s : List Char} :
    hasMarker (tokensFrom p s) = false ↔ ∃ ts q, Reads p s ts q [] := by
  constructor
  · intro clean
    obtain ⟨ts, q, toEnd | ⟨c, r, cause, lines, toFault, fault⟩⟩ := reads_to_end_or_fault p s
    · exact ⟨ts, q, toEnd⟩
    · rw [toFault.tokensFrom_eq, tokensFrom_of_fault fault, hasMarker_faultTokens] at clean
      cases clean
  · rintro ⟨ts, q, toEnd⟩
    rw [toEnd.tokensFrom_eq, tokensFrom_nil, hasMarker_eq_false_iff, List.forall_mem_append]
    exact ⟨fun t mem => (toEnd.not_marker t mem).1, by simp [endOfSource]⟩

end BareC.Token
