import BareC.Proofs.Directives.Bodies
import BareC.Proofs.Directives.Depths
import BareC.Proofs.Directives.Visits
import BareC.Proofs.Grammar.Markers

/-!
# What a pass lets through

A pass puts tokens together from the text, from the bodies of macros, from headers, and from faults
of its own. None of them ends the source, and none that is not a marker starts a line
(`Inline.run`). What it leaves out are directives and the lines of groups that are not kept, but
never a marker: a marker ends the directive it stands in, and is kept where lines are skipped. A
`Passage` has the markers that a pass meets and the headers it reads, in their order, each with the
passage through it; the pass says these markers in this order and adds what it likes in between
(`Passes.run`).

The markers of a passage are a list in the order in which they come out, and its own markers a part
of that list in the order in which they stood. That a header was read is told by its visit, which
holds the bytes that the host gave; so a passage says of each marker which source it came from.

It is not said where between two markers of the text those of a header come, beyond the order of the
lines. Nor is anything said of tokens that are no markers: what becomes of those is the subject of
the other modules.
-/

namespace BareC

variable {σ τ : Type}

/-! ## Items of a source -/

namespace SourceItem

/-- To prove something of all lists of tokens, item by item. -/
@[elab_as_elim]
theorem tokens_induction {motive : List Token → Prop} (nil : motive [])
    (eof : ∀ t ts, t.kind = .eof → motive (t :: ts))
    (marker : ∀ t ts, t.kind = .error → motive ts → motive (t :: ts))
    (directive : ∀ t ts, startsDirective t = true → motive (ts.dropWhile continuesDirective) →
      motive (t :: ts))
    (text : ∀ t ts, t.kind ≠ .eof → t.kind ≠ .error → startsDirective t = false → motive ts →
      motive (t :: ts))
    (ts : List Token) : motive ts := by
  match ts with
  | [] => exact nil
  | t :: ts =>
    have shorter := (List.dropWhile_sublist continuesDirective (l := ts)).length_le
    have behind := tokens_induction nil eof marker directive text ts
    have behindLine :=
      tokens_induction nil eof marker directive text (ts.dropWhile continuesDirective)
    by_cases isEof : t.kind = .eof
    · exact eof t ts isEof
    by_cases isMarker : t.kind = .error
    · exact marker t ts isMarker behind
    cases starts : startsDirective t with
    | true => exact directive t ts starts behindLine
    | false => exact text t ts isEof isMarker starts behind
termination_by ts.length
decreasing_by all_goals simp only [List.length_cons]; omega

/-- The marker that an item is, if it is one. -/
def marker? : SourceItem → Option Token
  | .marker t => some t
  | .text _ | .directive _ _ | .endOfSource _ => none

/-- The item has no end of a source in it. -/
def Endless : SourceItem → Prop
  | .text t => t.kind ≠ .eof
  | .marker t => t.kind = .error
  | .directive d _ => ∀ words, d = .define words → ∀ t ∈ words, t.kind ≠ .eof
  | .endOfSource _ => True

/-- A definition's words are words of its directive. -/
theorem mem_of_ofWords_eq_define {ts words : List Token}
    (h : Directive.ofWords ts = .define words) : ∀ t ∈ words, t ∈ ts := by
  cases ts with
  | nil => cases h
  | cons name body =>
    rw [Directive.ofWords] at h
    split at h
    case h_7 =>
      cases h
      exact fun t mem => List.mem_cons_of_mem name mem
    all_goals cases h

/-- No item holds the end of the source in a definition. -/
theorem endless_of_mem_ofTokens (ts : List Token) : ∀ item ∈ ofTokens ts, item.Endless := by
  induction ts using tokens_induction with
  | nil =>
    rw [ofTokens_nil]
    exact List.forall_mem_nil _
  | eof t ts eof =>
    rw [ofTokens_eof eof]
    exact List.forall_mem_singleton.mpr trivial
  | marker t ts marker ih =>
    rw [ofTokens_marker marker]
    exact List.forall_mem_cons.mpr ⟨marker, ih⟩
  | directive t ts starts ih =>
    rw [ofTokens_directive starts]
    refine List.forall_mem_cons.mpr ⟨?_, ih⟩
    intro words define u mem
    have inLine := List.mem_takeWhile_imp (mem_of_ofWords_eq_define define u mem)
    simp only [continuesDirective, Bool.and_eq_true, bne_iff_ne] at inLine
    exact inLine.1.2
  | text t ts notEof notMarker plain ih =>
    rw [ofTokens_text notEof notMarker plain]
    exact List.forall_mem_cons.mpr ⟨notEof, ih⟩

/-- No marker is part of a directive. -/
theorem markersOf_dropWhile (ts : List Token) :
    markersOf (ts.dropWhile continuesDirective) = markersOf ts := by
  induction ts with
  | nil => rfl
  | cons t ts ih =>
    rw [List.dropWhile_cons]
    split
    next inLine =>
      simp only [continuesDirective, Bool.and_eq_true, bne_iff_ne] at inLine
      rw [ih, markersOf, if_neg inLine.1.2, if_neg inLine.2]
    next => rfl

/-- The markers among the items are those the lexer left in the tokens. -/
theorem filterMap_marker? (ts : List Token) : (ofTokens ts).filterMap marker? = markersOf ts := by
  induction ts using tokens_induction with
  | nil => rw [ofTokens_nil]; rfl
  | eof t ts eof => rw [ofTokens_eof eof, markersOf, if_pos eof]; rfl
  | marker t ts marker ih =>
    have notEof : t.kind ≠ .eof := by
      rw [marker]
      decide
    rw [ofTokens_marker marker, markersOf, if_neg notEof, if_pos marker, ← ih]
    rfl
  | directive t ts starts ih =>
    obtain ⟨notEof, notMarker⟩ := kind_of_startsDirective starts
    rw [ofTokens_directive starts, markersOf, if_neg notEof, if_neg notMarker,
      ← markersOf_dropWhile ts, ← ih]
    rfl
  | text t ts notEof notMarker plain ih =>
    rw [ofTokens_text notEof notMarker plain, markersOf, if_neg notEof, if_neg notMarker, ← ih]
    rfl

end SourceItem

/-! ## Tokens in front of the end -/

/-- The token does not end the source, and starts a line only if it is a marker. -/
def Token.Inline (t : Token) : Prop :=
  t.kind ≠ .eof ∧ (t.kind ≠ .error → t.startsLine = false)

/-- A marker does not end a source. -/
theorem Token.inline_of_marker {t : Token} (marker : t.kind = .error) : t.Inline := by
  refine ⟨?_, fun other => absurd marker other⟩
  rw [marker]
  decide

namespace Expansion

/-- All that has been said can stand in front of the end, and what macros stand for will. -/
structure Inline (e : Expansion σ) : Prop where
  out : ∀ t ∈ e.out.toList, t.Inline
  macros : e.macros.OfKinds (· ≠ .eof)

namespace Inline

variable {host : Host σ} {deeper? : Option (List Token → Expansion σ → Expansion σ)}
    {e : Expansion σ}

/-- A new state of the host leaves the output as it was. -/
theorem withHost (h : e.Inline) (s : σ) : ({ e with host := s } : Expansion σ).Inline :=
  ⟨h.out, h.macros⟩

/-- A marker behind the output keeps it without an end. -/
theorem push (h : e.Inline) {t : Token} (marker : t.kind = .error) :
    ({ e with out := e.out.push t } : Expansion σ).Inline := by
  refine ⟨?_, h.macros⟩
  rw [Array.toList_push]
  exact List.forall_mem_append.mpr
    ⟨h.out, List.forall_mem_singleton.mpr (Token.inline_of_marker marker)⟩

/-- As `Inline.push`, for a fault. -/
theorem fault (h : e.Inline) (cause : DirectiveFault) (line : LineNumber) :
    (e.fault cause line).Inline :=
  h.push rfl

/-- As `Inline.push`, for the objection to a condition. -/
theorem judge (h : e.Inline) (condition : List Token) (line : LineNumber) :
    (e.judge condition line).2.Inline := by
  unfold Expansion.judge
  split
  next => exact h
  next => exact h.fault _ line

/-- A definition without an end keeps the table without one. -/
theorem define (h : e.Inline) {words : List Token} (endless : ∀ t ∈ words, t.kind ≠ .eof)
    (line : LineNumber) : (e.define line words).Inline := by
  cases words with
  | nil => exact h.fault .namelessMacro line
  | cons name body =>
    rw [Expansion.define]
    split
    next => exact h.fault .namelessMacro line
    next =>
      split
      next => exact h.fault .functionLikeMacro line
      next => exact ⟨h.out, h.macros.define name.text (List.forall_mem_cons.mp endless).2⟩

section Inside

variable (inside : ∀ deeper ∈ deeper?, ∀ ts e, e.Inline → (deeper ts e).Inline)
include inside

/-- An inclusion keeps the output without an end: the end of a header stays behind. -/
theorem includeHeader (h : e.Inline) (words : List Token) (line : LineNumber) :
    (e.includeHeader host deeper? words line).Inline := by
  unfold Expansion.includeHeader
  split
  next => exact h.fault _ line
  next => exact h.fault _ line
  next deeper _ =>
    split
    next => exact (h.withHost _).fault _ line
    next => exact inside deeper rfl _ _ (h.withHost _)

/-- A directive that is obeyed keeps the output without an end. -/
theorem obey (h : e.Inline) {d : Directive}
    (endless : ∀ words, d = .define words → ∀ t ∈ words, t.kind ≠ .eof) (line : LineNumber) :
    (e.obey host deeper? d line).Inline := by
  unfold Expansion.obey
  split
  next words => exact h.define (endless words rfl) line
  next name => exact ⟨h.out, h.macros.erase name⟩
  next words => exact h.includeHeader inside words line
  next => exact h.fault _ line
  next => exact h.fault _ line
  next => exact h

/-- As `Inline.obey`, with the conditionals. -/
theorem direct (h : e.Inline) {d : Directive}
    (endless : ∀ words, d = .define words → ∀ t ∈ words, t.kind ≠ .eof) (line : LineNumber) :
    (e.direct host deeper? d line).Inline := by
  unfold Expansion.direct
  split
  next => exact ⟨h.out, h.macros⟩
  next condition =>
    have judged := h.judge condition line
    split
    next => exact ⟨h.out, h.macros⟩
    next => exact ⟨judged.out, judged.macros⟩
  next condition =>
    have judged := h.judge condition line
    split
    next => exact h.fault _ line
    next => exact ⟨h.out, h.macros⟩
    next => exact ⟨judged.out, judged.macros⟩
  next =>
    split
    next => exact h.fault _ line
    next => exact ⟨h.out, h.macros⟩
  next =>
    split
    next => exact h.fault _ line
    next => exact ⟨h.out, h.macros⟩
  next =>
    split
    next => exact h
    next => exact h.obey inside endless line

/-- Every item keeps the output without an end. -/
theorem step (h : e.Inline) {item : SourceItem} (endless : item.Endless) :
    (Expansion.step host deeper? e item).Inline := by
  have begun : ({ e with line := item.line } : Expansion σ).Inline := ⟨h.out, h.macros⟩
  cases item with
  | text t =>
    rw [Expansion.step]
    split
    next => exact begun
    next =>
      refine ⟨?_, h.macros⟩
      rw [Array.toList_appendList]
      refine List.forall_mem_append.mpr ⟨h.out, ?_⟩
      intro u mem
      exact ⟨h.macros.expand endless u mem, fun _ => Macros.startsLine_of_mem_expand mem⟩
  | marker t => exact begun.push endless
  | directive d line => exact begun.direct inside endless line
  | endOfSource line => exact begun

/-- As `Inline.step`, for a pass. -/
theorem foldl_step (h : e.Inline) {items : List SourceItem}
    (endless : ∀ item ∈ items, item.Endless) :
    (items.foldl (Expansion.step host deeper?) e).Inline := by
  induction items generalizing e with
  | nil => exact h
  | cons item items ih =>
    obtain ⟨first, others⟩ := List.forall_mem_cons.mp endless
    exact ih (h.step inside first) others

end Inside

/-- The expansion of any tokens puts no end of a source into its output: the only one is put there
last. -/
theorem run (host : Host σ) (depth : Nat) (ts : List Token) {e : Expansion σ} (h : e.Inline) :
    (Expansion.run host depth ts e).Inline := by
  have endless := SourceItem.endless_of_mem_ofTokens
  induction depth generalizing ts e with
  | zero => exact h.foldl_step (fun _ none => absurd none (Option.not_mem_none _)) (endless ts)
  | succ depth ih =>
    refine h.foldl_step ?_ (endless ts)
    intro deeper same ts e h
    cases same
    exact ih ts h

/-- The end of the result is its only one. -/
theorem finish (h : e.Inline) :
    ∃ body, e.finish = body ++ [.endOfSource e.line] ∧ e.out.toList <+: body ∧
    ∀ t ∈ body, t.Inline := by
  unfold Expansion.finish
  split
  next => exact ⟨e.out.toList, Array.toList_push, List.prefix_rfl, h.out⟩
  next =>
    refine ⟨(e.fault .unterminated e.line).out.toList, Array.toList_push, ?_, (h.fault _ _).out⟩
    rw [Expansion.fault, Array.toList_push]
    exact List.prefix_append ..

end Inline

end Expansion

/-! ## The record of visits -/

/-- A recording host does what the host does. -/
theorem Host.recorded_follows (host : Host σ) : host.recorded.Follows Prod.fst host where
  openPath _ _ _ := rfl
  read _ _ _ := rfl
  close _ _ := rfl

/-- The reads of a header's portions are recorded in their order. -/
theorem Portions.recorded {host : Host σ} {fd : Descriptor} {buffer : Vector UInt8 readBuffer}
    {t t' : σ × Array HostCall} {ps : List Portion} (h : Portions host.recorded fd buffer t ps t') :
    t'.2.toList = t.2.toList ++ ps.map fun p => .read fd readBuffer p.answer := by
  induction h with
  | nil => rw [List.map_nil, List.append_nil]
  | cons read _ ih =>
    obtain rfl := congrArg Prod.snd read
    obtain rfl := congrArg (·.1.1) read
    rw [ih, List.map_cons, ← List.singleton_append, ← List.append_assoc]
    exact congrArg (· ++ _) Array.toList_push

/-- The calls of a visit are put on record. -/
theorem Visit.Happens.recorded {host : Host σ} {v : Visit} {t t' : σ × Array HostCall}
    (h : v.Happens host.recorded t t') : t'.2.toList = t.2.toList ++ v.calls := by
  cases h with
  | refused opened =>
    cases opened
    exact Array.toList_push
  | @readOut path fd ps closed _ t₁ t₂ _ opened portions close =>
    have first : t₁.2.toList = t.2.toList ++ [.openPath path .readOnly fd] := by
      cases opened
      exact Array.toList_push
    have last : t'.2.toList = t₂.2.toList ++ [.close fd closed] := by
      cases close
      exact Array.toList_push
    rw [last, portions.recorded, first, calls, List.append_assoc, List.append_assoc]
    rfl

/-- A header is fetched by a visit, which is put on record. -/
theorem Header.exists_recorded_visit (host : Host σ) (path : Bytes) (t : σ × Array HostCall) :
    ∃ v t', Header.fetch host.recorded path t = (v.contents?, t') ∧ Visits host [v] t.1 t'.1 ∧
      t'.2.toList = t.2.toList ++ v.calls := by
  obtain ⟨v, t', happens, orderly, rfl⟩ := Header.exists_visit host.recorded path t
  have seen := happens.follow host.recorded_follows
  have visited : Visits host [v] t.1 t'.1 :=
    .cons seen orderly (Header.fetch_of_visit seen orderly) .nil
  exact ⟨v, t', Header.fetch_of_visit happens orderly, visited, happens.recorded⟩

/-- The tokens of the header that a visit has brought home. -/
def Visit.header? (v : Visit) : Option (List Token) :=
  v.contents?.map Token.ofSource

/-- A host that follows another sees the same pass. -/
theorem Token.expandAll_follow {f : τ → σ} {outer : Host τ} {inner : Host σ}
    (follows : outer.Follows f inner) (ts : List Token) (t : τ) :
    Token.expandAll inner ts (f t) =
      ((Token.expandAll outer ts t).1, f (Token.expandAll outer ts t).2) := by
  have served : ∀ path t s, f t = s →
      (Header.fetch outer path t).1 = (Header.fetch inner path s).1 ∧
        f (Header.fetch outer path t).2 = (Header.fetch inner path s).2 := by
    rintro path t _ rfl
    rw [Header.fetch_follow follows]
    exact ⟨rfl, rfl⟩
  have begun : ({ host := t } : Expansion τ).Like Eq (fun t s => f t = s) { host := f t } :=
    ⟨.refl (fun _ => rfl) _, rfl, rfl, rfl, .nil⟩
  have same :=
    Expansion.Like.run served (fun _ => rfl) maxHeaderDepth (.refl (fun _ => rfl) ts) begun
  exact Prod.ext (Tokens.like_eq_iff.mp same.finish).symm same.host.symm

/-! ## Passages -/

/-- What a pass meets in a source: markers, and headers that are read, with the passage through
each. -/
inductive Passage where
  | nil
  | marker (t : Token) (rest : Passage)
  | header (tokens : List Token) (inside rest : Passage)

namespace Passage

/-- The markers of the source itself. -/
def own : Passage → List Token
  | nil => []
  | marker t rest => t :: rest.own
  | header _ _ rest => rest.own

/-- All the markers, those of a header where it is read. -/
def markers : Passage → List Token
  | nil => []
  | marker t rest => t :: rest.markers
  | header _ inside rest => inside.markers ++ rest.markers

/-- The headers, each in front of those that are read inside it. -/
def headers : Passage → List (List Token)
  | nil => []
  | marker _ rest => rest.headers
  | header tokens inside rest => tokens :: (inside.headers ++ rest.headers)

/-- No marker of a header is missing from the passage through it. -/
def Complete : Passage → Prop
  | nil => True
  | marker _ rest => rest.Complete
  | header tokens inside rest => inside.own = markersOf tokens ∧ inside.Complete ∧ rest.Complete

/-- The one passage and then the other. -/
def append : Passage → Passage → Passage
  | nil, q => q
  | marker t rest, q => marker t (rest.append q)
  | header tokens inside rest, q => header tokens inside (rest.append q)

variable (p q : Passage)

/-- A passage's own markers, of two passages in a row. -/
theorem own_append : (p.append q).own = p.own ++ q.own := by
  induction p with
  | nil => rfl
  | marker t rest ih => exact congrArg (t :: ·) ih
  | header tokens inside rest _ ih => exact ih

/-- As `own_append`, for all the markers that come out. -/
theorem markers_append : (p.append q).markers = p.markers ++ q.markers := by
  induction p with
  | nil => rfl
  | marker t rest ih => exact congrArg (t :: ·) ih
  | header tokens inside rest _ ih => rw [append, markers, markers, ih, List.append_assoc]

/-- As `own_append`, for the headers it reads. -/
theorem headers_append : (p.append q).headers = p.headers ++ q.headers := by
  induction p with
  | nil => rfl
  | marker t rest ih => exact ih
  | header tokens inside rest _ ih =>
    rw [append, headers, headers, ih, List.cons_append, List.append_assoc]

/-- A passage's own markers come out in their order, among those of the headers. -/
theorem own_sublist_markers : p.own.Sublist p.markers := by
  induction p with
  | nil => exact .slnil
  | marker t rest ih => exact ih.cons_cons t
  | header tokens inside rest _ ih => exact ih.trans (List.sublist_append_right ..)

variable {p q}

/-- Two complete passages in a row are one. -/
theorem Complete.append (h : p.Complete) (h' : q.Complete) : (p.append q).Complete := by
  induction p with
  | nil => exact h'
  | marker t rest ih => exact ih h
  | header tokens inside rest _ ih => exact ⟨h.1, h.2.1, ih h.2.2⟩

/-- The markers of every header are among all the markers. -/
theorem Complete.sublist_markers (h : p.Complete) :
    ∀ tokens ∈ p.headers, (markersOf tokens).Sublist p.markers := by
  induction p with
  | nil => exact nofun
  | marker t rest ih => exact fun tokens mem => (ih h tokens mem).cons t
  | header tokens inside rest ihInside ih =>
    obtain ⟨own, complete, behind⟩ := h
    rw [headers, markers]
    refine List.forall_mem_cons.mpr ⟨?_, List.forall_mem_append.mpr ⟨?_, ?_⟩⟩
    · rw [← own]
      exact inside.own_sublist_markers.trans (List.sublist_append_left ..)
    · exact fun other mem => (ihInside complete other mem).trans (List.sublist_append_left ..)
    · exact fun other mem => (ih behind other mem).trans (List.sublist_append_right ..)

end Passage

namespace Expansion

/-- Between these states the pass has taken the passage: it has visited the headers, and what it has
said has the markers in it. -/
structure Goes (host : Host σ) (p : Passage) (e e' : Expansion (σ × Array HostCall)) : Prop where
  visits : ∃ visits, Visits host visits e.host.1 e'.host.1 ∧
    e'.host.2.toList = e.host.2.toList ++ visits.flatMap (·.calls) ∧
    p.headers = visits.filterMap Visit.header?
  said : ∃ said, e'.out.toList = e.out.toList ++ said ∧ p.markers.Sublist said

/-- The pass takes a passage that has these markers of the source itself, and all of the headers in
it. -/
def Passes (host : Host σ) (own : List Token) (e e' : Expansion (σ × Array HostCall)) : Prop :=
  ∃ p : Passage, p.own = own ∧ p.Complete ∧ Goes host p e e'

variable {host : Host σ} {p q : Passage} {own own' : List Token}
    {e e' e'' : Expansion (σ × Array HostCall)}

/-- The goings of two passages in a row are the going of one. -/
theorem Goes.trans (h : Goes host p e e') (h' : Goes host q e' e'') :
    Goes host (p.append q) e e'' := by
  obtain ⟨⟨visits, made, noted, headers⟩, ⟨said, out, markers⟩⟩ := h
  obtain ⟨⟨visits', made', noted', headers'⟩, ⟨said', out', markers'⟩⟩ := h'
  refine ⟨⟨visits ++ visits', made.append made', ?_, ?_⟩, ⟨said ++ said', ?_, ?_⟩⟩
  · rw [noted', noted, List.flatMap_append, List.append_assoc]
  · rw [p.headers_append, headers, headers', List.filterMap_append]
  · rw [out', out, List.append_assoc]
  · rw [p.markers_append]
    exact markers.append markers'

/-- Where no header is asked for, anything may be said. -/
theorem Goes.of_host (same : e'.host = e.host) (said : e.out.toList <+: e'.out.toList) :
    Goes host .nil e e' := by
  obtain ⟨more, eq⟩ := said
  refine ⟨⟨[], ?_, ?_, rfl⟩, ⟨more, eq.symm, List.nil_sublist _⟩⟩
  · rw [same]
    exact .nil
  · rw [same]
    exact (List.append_nil _).symm

section Visit

variable {v : Visit} {t : σ × Array HostCall} (visited : Visits host [v] e.host.1 t.1)
  (noted : t.2.toList = e.host.2.toList ++ v.calls)
include visited noted

/-- A visit that brings nothing home. -/
theorem Goes.of_missing (brought : v.contents? = none) (cause : DirectiveFault)
    (line : LineNumber) : Goes host .nil e ({ e with host := t }.fault cause line) := by
  refine ⟨⟨[v], visited, ?_, ?_⟩, ⟨_, Array.toList_push, List.nil_sublist _⟩⟩
  · rw [List.flatMap_singleton]
    exact noted
  · rw [List.filterMap_cons_none (by rw [Visit.header?, brought]; rfl)]
    rfl

/-- A visit that brings a header home, and then the passage through the header. -/
theorem Goes.of_header {contents : Bytes} (brought : v.contents? = some contents)
    (goes : Goes host p { e with host := t } e') :
    Goes host (.header (Token.ofSource contents) p .nil) e e' := by
  obtain ⟨⟨visits, made, noted', headers⟩, ⟨said, out, markers⟩⟩ := goes
  refine ⟨⟨v :: visits, visited.append made, ?_, ?_⟩, ⟨said, out, ?_⟩⟩
  · rw [noted', noted, List.append_assoc, List.flatMap_cons]
  · rw [Passage.headers, Passage.headers, List.append_nil, headers,
      List.filterMap_cons_some (by rw [Visit.header?, brought]; rfl)]
  · rw [Passage.markers, Passage.markers, List.append_nil]
    exact markers

end Visit

namespace Passes

/-- A step that leaves the host alone passes with what it says. -/
theorem of_host (same : e'.host = e.host) (said : e.out.toList <+: e'.out.toList) :
    Passes host [] e e' :=
  ⟨.nil, rfl, trivial, .of_host same said⟩

/-- Two passes in a row are one, their own markers in order. -/
theorem trans (h : Passes host own e e') (h' : Passes host own' e' e'') :
    Passes host (own ++ own') e e'' := by
  obtain ⟨p, rfl, complete, goes⟩ := h
  obtain ⟨q, rfl, complete', goes'⟩ := h'
  exact ⟨p.append q, p.own_append q, complete.append complete', goes.trans goes'⟩

/-- A step that can read no header says what it likes. -/
theorem step_unread (e : Expansion (σ × Array HostCall)) (item : SourceItem) :
    Passes host [] e (Expansion.step host.recorded none e item) := by
  have adds : Keeps host.recorded none fun e e' => e.out.toList <+: e'.out.toList :=
    keeps_out fun _ none => absurd none (Option.not_mem_none _)
  exact .of_host ((keeps_host host.recorded).step e item).symm (adds.step e item)

section Inside

variable {deeper? :
    Option (List Token → Expansion (σ × Array HostCall) → Expansion (σ × Array HostCall))}
  (inside : ∀ deeper ∈ deeper?, ∀ ts e, Passes host (markersOf ts) e (deeper ts e))
include inside

/-- An inclusion has no marker of its own: all of them are the header's. -/
theorem includeHeader (words : List Token) (line : LineNumber)
    (e : Expansion (σ × Array HostCall)) :
    Passes host [] e (e.includeHeader host.recorded deeper? words line) := by
  have fault : ∀ cause, Passes host [] e (e.fault cause line) := by
    intro cause
    apply Passes.of_host
    · rfl
    · rw [Expansion.fault, Array.toList_push]
      exact List.prefix_append ..
  cases named : Header.name words with
  | error f =>
    rw [includeHeader_unnamed named]
    exact fault _
  | ok name =>
    cases deeper? with
    | none =>
      rw [includeHeader_tooDeep named]
      exact fault _
    | some deeper =>
      obtain ⟨v, t, fetched, visited, noted⟩ :=
        Header.exists_recorded_visit host (Bytes.ofText name) e.host
      cases brought : v.contents? with
      | none =>
        rw [brought] at fetched
        rw [includeHeader_missing named fetched]
        exact ⟨.nil, rfl, trivial, .of_missing visited noted brought _ line⟩
      | some contents =>
        rw [brought] at fetched
        rw [includeHeader_found named fetched]
        obtain ⟨p, own, complete, goes⟩ :=
          inside deeper rfl (Token.ofSource contents) { e with host := t }
        refine ⟨.header (Token.ofSource contents) p .nil, rfl, ⟨own, complete, trivial⟩, ?_⟩
        exact .of_header visited noted brought goes

/-- A step says the marker that its item is. -/
theorem step (e : Expansion (σ × Array HostCall)) (item : SourceItem) :
    Passes host item.marker?.toList e (Expansion.step host.recorded deeper? e item) := by
  have begun : Goes host .nil e { e with line := item.line } := .of_host rfl List.prefix_rfl
  cases item with
  | marker t =>
    refine ⟨.marker t .nil, rfl, trivial, begun.visits, ⟨[t], Array.toList_push, .refl _⟩⟩
  | directive d line =>
    by_cases isInclude : ∃ words, d = .includeHeader words ∧ e.branches.skipping = false
    · obtain ⟨words, rfl, active⟩ := isInclude
      obtain ⟨p, own, complete, goes⟩ := includeHeader inside words line { e with line }
      refine ⟨p, own, complete, ?_⟩
      simp only [Expansion.step, Expansion.direct, Expansion.obey, SourceItem.line, active,
        Bool.false_eq_true, if_false]
      exact begun.trans goes
    · have unread : Expansion.step host.recorded deeper? e (.directive d line) =
          Expansion.step host.recorded none e (.directive d line) := by
        refine step_congr ?_
        rintro words _ same active
        cases same
        exact absurd ⟨words, rfl, active⟩ isInclude
      rw [unread]
      exact step_unread e _
  | text t => exact step_unread e (.text t)
  | endOfSource line => exact .of_host rfl List.prefix_rfl

/-- A pass over items has the markers among them for its own, by induction on the items. -/
theorem foldl_step (items : List SourceItem) (e : Expansion (σ × Array HostCall)) :
    Passes host (items.filterMap SourceItem.marker?) e
      (items.foldl (Expansion.step host.recorded deeper?) e) := by
  induction items generalizing e with
  | nil => exact .of_host rfl List.prefix_rfl
  | cons item items ih =>
    have both := (step inside e item).trans (ih _)
    cases item <;> exact both

end Inside

/-- Nothing is missing from the passage of a pass. -/
theorem run (host : Host σ) (depth : Nat) (ts : List Token) (e : Expansion (σ × Array HostCall)) :
    Passes host (markersOf ts) e (Expansion.run host.recorded depth ts e) := by
  induction depth generalizing ts e with
  | zero =>
    rw [← SourceItem.filterMap_marker? ts]
    exact foldl_step (fun _ none => absurd none (Option.not_mem_none _)) _ e
  | succ depth ih =>
    rw [← SourceItem.filterMap_marker? ts]
    refine foldl_step ?_ _ e
    intro deeper same ts e
    cases same
    exact ih ts e

end Passes

end Expansion

/-! ## What is said of a source -/

/-- The expanded source has one end, behind all the rest, and of the rest only markers start lines.
The markers of the source are in it, as they are and in their order, and so are the markers of every
header that was read. They are there all together, once for each time that the header was read, in
the order of a passage. -/
theorem Token.expandAll_passage (host : Host σ) (ts : List Token) (s : σ) :
    ∃ (body : List Token) (line : LineNumber) (s' : σ) (visits : List Visit) (passage : Passage),
      Token.expandAll host ts s = (body ++ [.endOfSource line], s') ∧
      Token.expandAll host.recorded ts (s, #[]) =
        (body ++ [.endOfSource line], (s', (visits.flatMap (·.calls)).toArray)) ∧
      Visits host visits s s' ∧
      (∀ t ∈ body, t.kind ≠ .eof ∧ (t.kind ≠ .error → t.startsLine = false)) ∧
      (markersOf ts).Sublist body ∧
      (∀ v ∈ visits, ∀ contents ∈ v.contents?, (markersOf (Token.ofSource contents)).Sublist body) ∧
      passage.own = markersOf ts ∧ passage.Complete ∧
      passage.headers = visits.filterMap Visit.header? ∧ passage.markers.Sublist body := by
  let begun : Expansion (σ × Array HostCall) := { host := (s, #[]) }
  let ended := Expansion.run host.recorded maxHeaderDepth ts begun
  have inline : ended.Inline :=
    .run host.recorded maxHeaderDepth ts ⟨List.forall_mem_nil _, Macros.predefined_endless⟩
  obtain ⟨body, finished, said, plain⟩ := inline.finish
  obtain ⟨passage, own, complete, ⟨visits, made, noted, headers⟩, ⟨more, out, markers⟩⟩ :=
    Expansion.Passes.run host maxHeaderDepth ts begun
  have all : passage.markers.Sublist body := by
    refine .trans ?_ said.sublist
    rw [show ended.out.toList = more from out]
    exact markers
  have record : ended.host.2 = (visits.flatMap (·.calls)).toArray := Array.ext' noted
  have recorded : Token.expandAll host.recorded ts (s, #[]) =
      (body ++ [.endOfSource ended.line], (ended.host.1, (visits.flatMap (·.calls)).toArray)) := by
    rw [← finished, ← record]
    rfl
  refine ⟨body, ended.line, ended.host.1, visits, passage, ?_, recorded, made, plain, ?_, ?_,
    own, complete, headers, all⟩
  · have followed := Token.expandAll_follow host.recorded_follows ts (s, #[])
    rw [recorded] at followed
    exact followed
  · rw [← own]
    exact passage.own_sublist_markers.trans all
  · intro v mem contents brought
    refine (complete.sublist_markers _ ?_).trans all
    rw [headers]
    exact List.mem_filterMap.mpr ⟨v, mem, congrArg (Option.map Token.ofSource) brought⟩

end BareC
