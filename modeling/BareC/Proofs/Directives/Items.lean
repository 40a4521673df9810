import BareC.Directive.Expansion

/-!
# The items of a token list

How a list of tokens falls into items, and how a pass runs over them. A directive takes the tokens
up to the next that starts a line, so a list can be cut wherever no directive continues
(`ofTokens_append`), and a pass over the whole is then the pass over the one part followed by the
pass over the other.

The equations of `includeHeader` stand at the end, one for each way in which an inclusion can go,
and with them no later module opens its definition. Which files are found is up to the host, and
what a header contains is not looked at: it is expanded by a function that is handed in, for the
next level.
-/

namespace BareC

namespace SourceItem

/-- The items so far only stand in front of those to come. -/
theorem collect_append (front read : Array SourceItem) (ts : List Token) :
    collect (front ++ read) ts = front ++ collect read ts := by
  fun_induction collect read ts with
  | case1 read => rw [collect]
  | case2 read t ts eof => rw [collect, if_pos eof, Array.append_push]
  | case3 read t ts notEof marker ih =>
    rw [collect, if_neg notEof, if_pos marker, ← ih, Array.append_push]
  | case4 read t ts notEof notMarker starts words ih =>
    rw [collect, if_neg notEof, if_neg notMarker, if_pos starts, ← ih, Array.append_push]
  | case5 read t ts notEof notMarker starts ih =>
    rw [collect, if_neg notEof, if_neg notMarker, if_neg starts, ← ih, Array.append_push]

/-- Collecting items behind those already read is the list reading behind them: what lets the
accumulator be general. -/
theorem toList_collect (read : Array SourceItem) (ts : List Token) :
    (collect read ts).toList = read.toList ++ ofTokens ts := by
  rw [ofTokens, ← Array.toList_append, ← collect_append, Array.append_empty]

/-- No tokens, no items. -/
@[simp]
theorem ofTokens_nil : ofTokens [] = [] := by
  rw [ofTokens, collect]

variable {t : Token}

/-- Nothing is read past the end of a source. -/
theorem ofTokens_eof (eof : t.kind = .eof) (ts : List Token) :
    ofTokens (t :: ts) = [.endOfSource t.line] := by
  rw [ofTokens, collect, if_pos eof]
  rfl

/-- A marker is an item of its own. -/
theorem ofTokens_marker (marker : t.kind = .error) (ts : List Token) :
    ofTokens (t :: ts) = .marker t :: ofTokens ts := by
  rw [ofTokens, collect, if_neg (by rw [marker]; decide), if_pos marker, toList_collect]
  rfl

/-- A directive starts at an ordinary token. -/
theorem kind_of_startsDirective (starts : startsDirective t = true) :
    t.kind ≠ .eof ∧ t.kind ≠ .error := by
  obtain ⟨isHash, -⟩ := Bool.and_eq_true_iff.mp starts
  rw [Token.is, Bool.and_eq_true, Bool.or_eq_true, beq_iff_eq, beq_iff_eq] at isHash
  rcases isHash.1 with kind | kind <;> rw [kind] <;> decide

/-- A directive takes the rest of its line, and reading goes on behind it. -/
theorem ofTokens_directive (starts : startsDirective t = true) (ts : List Token) :
    ofTokens (t :: ts) =
      .directive (.ofWords (ts.takeWhile continuesDirective)) t.line ::
        ofTokens (ts.dropWhile continuesDirective) := by
  obtain ⟨notEof, notMarker⟩ := kind_of_startsDirective starts
  rw [ofTokens, collect, if_neg notEof, if_neg notMarker, if_pos starts, toList_collect]
  rfl

/-- Any other token is an item of text. -/
theorem ofTokens_text (notEof : t.kind ≠ .eof) (notMarker : t.kind ≠ .error)
    (notDirective : startsDirective t = false) (ts : List Token) :
    ofTokens (t :: ts) = .text t :: ofTokens ts := by
  rw [ofTokens, collect, if_neg notEof, if_neg notMarker, notDirective, if_neg Bool.false_ne_true,
    toList_collect]
  rfl

/-- No directive in front of these tokens continues into them. -/
def Apart (ts : List Token) : Prop :=
  ∀ t ∈ ts.head?, continuesDirective t = false

/-- Tokens that no directive continues into leave the words of a directive in front of them as they
are. -/
theorem takeWhile_append_apart (ts : List Token) {us : List Token} (apart : Apart us) :
    (ts ++ us).takeWhile continuesDirective = ts.takeWhile continuesDirective ∧
      (ts ++ us).dropWhile continuesDirective = ts.dropWhile continuesDirective ++ us := by
  induction ts with
  | nil =>
    cases us with
    | nil => exact ⟨rfl, rfl⟩
    | cons u us =>
      have stops := apart u rfl
      simp [stops]
  | cons t ts ih =>
    rw [List.cons_append, List.takeWhile_cons, List.takeWhile_cons, List.dropWhile_cons,
      List.dropWhile_cons]
    split
    next => exact ⟨by rw [ih.1], ih.2⟩
    next => exact ⟨rfl, rfl⟩

/-- In front of the end of the source, tokens can be cut where no directive continues. -/
theorem ofTokens_append {ts us : List Token} (notEof : ∀ t ∈ ts, t.kind ≠ .eof) (apart : Apart us) :
    ofTokens (ts ++ us) = ofTokens ts ++ ofTokens us := by
  match ts with
  | [] => rw [ofTokens_nil]; rfl
  | t :: ts =>
    obtain ⟨here, behind⟩ := List.forall_mem_cons.mp notEof
    by_cases marker : t.kind = .error
    · rw [List.cons_append, ofTokens_marker marker, ofTokens_marker marker,
        ofTokens_append behind apart]
      rfl
    cases starts : startsDirective t with
    | true =>
      have shorter := (List.dropWhile_sublist continuesDirective (l := ts)).length_le
      have left : ∀ u ∈ ts.dropWhile continuesDirective, u.kind ≠ .eof := fun u mem =>
        behind u (List.dropWhile_sublist _ |>.subset mem)
      obtain ⟨words, rest⟩ := takeWhile_append_apart ts apart
      rw [List.cons_append, ofTokens_directive starts, ofTokens_directive starts, words, rest,
        ofTokens_append left apart]
      rfl
    | false =>
      rw [List.cons_append, ofTokens_text here marker starts, ofTokens_text here marker starts,
        ofTokens_append behind apart]
      rfl
termination_by ts.length
decreasing_by all_goals simp only [List.length_cons]; omega

end SourceItem

/-! ## Passes over items -/

namespace Expansion

variable {σ : Type} (host : Host σ)

/-- What becomes of a header at this depth. -/
def deeperAt : Nat → Option (List Token → Expansion σ → Expansion σ)
  | 0 => none
  | depth + 1 => some (run host depth)

/-- Passes over items inside which headers may be nested `depth` deep. -/
def pass (depth : Nat) (items : List SourceItem) (e : Expansion σ) : Expansion σ :=
  items.foldl (step host (deeperAt host depth)) e

/-- Expanding tokens is a pass over their items: the form every induction of this theory is on. -/
theorem run_eq_pass (depth : Nat) (ts : List Token) (e : Expansion σ) :
    run host depth ts e = pass host depth (SourceItem.ofTokens ts) e := by
  cases depth <;> rfl

variable {host}

/-- A pass over nothing changes nothing. -/
@[simp]
theorem pass_nil (depth : Nat) (e : Expansion σ) : pass host depth [] e = e := rfl

/-- A pass takes one step and goes on. -/
@[simp]
theorem pass_cons (depth : Nat) (item : SourceItem) (items : List SourceItem) (e : Expansion σ) :
    pass host depth (item :: items) e =
      pass host depth items (step host (deeperAt host depth) e item) := rfl

/-- A pass over two lists is one pass after the other. -/
@[simp]
theorem pass_append (depth : Nat) (items more : List SourceItem) (e : Expansion σ) :
    pass host depth (items ++ more) e = pass host depth more (pass host depth items e) :=
  List.foldl_append

/-! ## What an include comes to -/

section Include

variable {deeper : List Token → Expansion σ → Expansion σ} {words : List Token}
    {name : String} {s : σ}
  {e : Expansion σ}

/-- An inclusion that names no header is reported and reads nothing. -/
theorem includeHeader_unnamed {f : Header.NameFault} (unnamed : Header.name words = .error f)
    (deeper? : Option (List Token → Expansion σ → Expansion σ)) (line : LineNumber) :
    e.includeHeader host deeper? words line = e.fault (.header f) line := by
  unfold includeHeader
  rw [unnamed]

variable (named : Header.name words = .ok name)
include named

/-- A header that is named at the greatest depth is reported and not asked for. -/
theorem includeHeader_tooDeep (line : LineNumber) :
    e.includeHeader host none words line = e.fault .tooDeep line := by
  unfold includeHeader
  rw [named]

/-- An inclusion of a header the host does not offer is reported with the name asked for. -/
theorem includeHeader_missing (missing : Header.fetch host (Bytes.ofText name) e.host = (none, s))
    (line : LineNumber) :
    e.includeHeader host (some deeper) words line =
      { e with host := s }.fault (.headerNotFound name) line := by
  unfold includeHeader
  rw [named]
  simp only [missing]

/-- An inclusion of a header that is found expands its contents one level deeper. -/
theorem includeHeader_found {contents : Bytes}
    (found : Header.fetch host (Bytes.ofText name) e.host = (some contents, s))
    (line : LineNumber) :
    e.includeHeader host (some deeper) words line =
      deeper (Token.ofSource contents) { e with host := s } := by
  unfold includeHeader
  rw [named]
  simp only [found]

end Include

end Expansion

end BareC
