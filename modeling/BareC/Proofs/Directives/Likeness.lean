import BareC.Proofs.Directives.Items
import Mathlib.Data.List.Forall2

/-!
# Passes that go alike

Two passes over like tokens, with like macros in force and hosts that serve the same headers, go
alike (`Like.run`). How like the tokens are is up to a relation of their lines: with equality the
tokens are the same, with the relation that always holds they are the same up to their lines. The
hosts may be two, and their states are in any relation that gives the same headers and lasts.

The rules follow the functions of the pass one by one, from the table of macros up to the pass
itself, and each says that like arguments give like results. None of them looks at a line, and that
is all that they have in common; where a line is written into a token, the relation of lines is
asked for.

Likeness never makes tokens appear or vanish. Two passes of which one reads a header that the other
does not are outside of this.
-/

namespace BareC

variable {L : LineNumber → LineNumber → Prop}

/-! ## Like tokens -/

/-- The tokens differ in their lines at most, which are in the relation `L`. -/
structure Token.Like (L : LineNumber → LineNumber → Prop) (t u : Token) : Prop where
  kind : t.kind = u.kind
  text : t.text = u.text
  value : t.value = u.value
  startsLine : t.startsLine = u.startsLine
  spaced : t.spaced = u.spaced
  line : L t.line u.line

namespace Token

/-- A token is like itself where every line is like itself. -/
theorem Like.refl (refl : ∀ n, L n n) (t : Token) : t.Like L t :=
  ⟨rfl, rfl, rfl, rfl, rfl, refl _⟩

/-- Tokens on equal lines that are alike are equal. -/
theorem like_eq_iff {t u : Token} : t.Like Eq u ↔ t = u := by
  constructor
  · rintro ⟨kind, text, value, startsLine, spaced, line⟩
    cases t
    cases u
    simp_all only
  · rintro rfl
    exact .refl (fun _ => rfl) t

/-- Tokens that are alike pass the same comparison with a spelling. -/
theorem Like.is {t u : Token} (h : t.Like L u) (s : String) : t.is s = u.is s := by
  rw [Token.is, Token.is, h.kind, h.text]

/-- Markers with one message are alike on lines that are. -/
theorem like_marker (message : String) {l l' : LineNumber} (h : L l l') :
    (marker message l).Like L (marker message l') :=
  ⟨rfl, rfl, rfl, rfl, rfl, h⟩

end Token

/-- The lists have like tokens. -/
abbrev Tokens.Like (L : LineNumber → LineNumber → Prop) : List Token → List Token → Prop :=
  List.Forall₂ (Token.Like L)

namespace Tokens

variable {ts us : List Token}

/-- As `Token.Like.refl`, for lists. -/
theorem Like.refl (refl : ∀ n, L n n) (ts : List Token) : Like L ts ts :=
  List.forall₂_same.mpr fun t _ => .refl refl t

/-- As `Token.like_eq_iff`, for lists. -/
theorem like_eq_iff : Like Eq ts us ↔ ts = us := by
  have same : Token.Like Eq = Eq := by
    ext t u
    exact Token.like_eq_iff
  rw [Like, same, List.forall₂_eq_eq_eq]

/-- Lists that are alike begin alike. -/
theorem Like.head? (h : Like L ts us) : Option.Rel (Token.Like L) ts.head? us.head? := by
  cases h with
  | nil => exact .none
  | cons first _ => exact .some first

/-- A test that does not look at the line answers the same on lists that are alike. -/
theorem Like.any {p : Token → Bool} (same : ∀ t u, t.Like L u → p t = p u) (h : Like L ts us) :
    ts.any p = us.any p := by
  induction h with
  | nil => rfl
  | cons first _ ih => rw [List.any_cons, List.any_cons, same _ _ first, ih]

/-- Lists that are alike spell the same words. -/
theorem Like.map_text (h : Like L ts us) : ts.map (·.text) = us.map (·.text) :=
  List.forall₂_eq_eq_eq ▸ List.rel_map (fun _ _ like => like.text) h

/-- What a test that does not look at the line takes off the front is alike. -/
theorem Like.takeWhile {p : Token → Bool} (same : ∀ t u, t.Like L u → p t = p u)
    (h : Like L ts us) : Like L (ts.takeWhile p) (us.takeWhile p) := by
  induction h with
  | nil => exact .nil
  | cons first _ ih =>
    rw [List.takeWhile_cons, List.takeWhile_cons, same _ _ first]
    split
    next => exact .cons first ih
    next => exact .nil

/-- As `Tokens.Like.takeWhile`, for what it leaves. -/
theorem Like.dropWhile {p : Token → Bool} (same : ∀ t u, t.Like L u → p t = p u)
    (h : Like L ts us) : Like L (ts.dropWhile p) (us.dropWhile p) := by
  induction h with
  | nil => exact .nil
  | cons first rest ih =>
    rw [List.dropWhile_cons, List.dropWhile_cons, same _ _ first]
    split
    next => exact ih
    next => exact .cons first rest

end Tokens

/-! ## Like macros -/

namespace Macros

/-- The same names have like bodies. -/
def Like (L : LineNumber → LineNumber → Prop) : Macros → Macros → Prop :=
  List.Forall₂ fun a b => a.1 = b.1 ∧ Tokens.Like L a.2 b.2

variable {m m' : Macros}

/-- A table is like itself where every line is like itself. -/
theorem Like.refl (refl : ∀ n, L n n) (m : Macros) : m.Like L m :=
  List.forall₂_same.mpr fun _ _ => ⟨rfl, .refl refl _⟩

/-- Tables that are alike have a body for the same names, and alike bodies. -/
theorem Like.body? (h : m.Like L m') (name : String) :
    Option.Rel (Tokens.Like L) (m.body? name) (m'.body? name) := by
  induction h with
  | nil => exact .none
  | @cons a b _ _ first _ ih =>
    obtain ⟨name', body⟩ := a
    obtain ⟨_, body'⟩ := b
    obtain ⟨rfl, bodies⟩ := first
    simp only [Macros.body?, List.lookup_cons]
    cases name == name' with
    | true => exact .some bodies
    | false => exact ih

/-- Tables that are alike define the same names. -/
theorem Like.isDefined (h : m.Like L m') (name : String) :
    m.isDefined name = m'.isDefined name := by
  have same := h.body? name
  rw [Macros.isDefined, Macros.isDefined]
  generalize m.body? name = body?, m'.body? name = body'? at same
  cases same <;> rfl

/-- As `Macros.Like.isDefined`, for the name a token may give. -/
theorem Like.any_isDefined (h : m.Like L m') {t? u? : Option Token}
    (like : Option.Rel (Token.Like L) t? u?) :
    (t?.any fun t => m.isDefined t.text) = u?.any fun u => m'.isDefined u.text := by
  cases like with
  | none => rfl
  | some like => rw [Option.any_some, Option.any_some, like.text, h.isDefined]

/-- Taking the same name out of two tables leaves them alike. -/
theorem Like.erase (h : m.Like L m') (name : String) : (m.erase name).Like L (m'.erase name) :=
  List.rel_filter (fun a b like => by simp only [like.1]) h

/-- Alike definitions of one name leave them alike. -/
theorem Like.define (h : m.Like L m') (name : String) {body body' : List Token}
    (bodies : Tokens.Like L body body') : (m.define name body).Like L (m'.define name body') :=
  .cons ⟨rfl, bodies⟩ (h.erase name)

/-- Tokens that are alike are replaced alike. -/
theorem Like.replacement? (h : m.Like L m') {t u : Token} (like : t.Like L u) :
    Option.Rel (Tokens.Like L) (m.replacement? t) (m'.replacement? u) := by
  rw [Macros.replacement?, Macros.replacement?, like.kind, like.text]
  split
  next => exact h.body? u.text
  next => exact .none

/-- Alike bodies placed at alike tokens are alike. -/
theorem like_place {t u : Token} (like : t.Like L u) {body body' : List Token}
    (bodies : Tokens.Like L body body') : Tokens.Like L (place t body) (place u body') := by
  cases bodies with
  | nil => exact .nil
  | cons first others =>
    refine .cons ⟨first.kind, first.text, first.value, rfl, like.spaced, like.line⟩
      (List.rel_map ?_ others)
    exact fun _ _ other => ⟨other.kind, other.text, other.value, rfl, other.spaced, like.line⟩

/-- Tokens that are alike expand alike. -/
theorem Like.expand {m m' : Macros} (h : m.Like L m') {t u : Token} (like : t.Like L u) :
    Tokens.Like L (m.expand t) (m'.expand u) := by
  rw [Macros.expand, Macros.expand]
  have same := h.replacement? like
  split
  next body replaced =>
    rw [replaced] at same
    split
    next body' replaced' =>
      rw [replaced'] at same
      cases same with
      | some bodies =>
        have shorter := length_erase_lt_of_replacement? replaced
        have erased : (m.erase t.text).Like L (m'.erase u.text) := like.text ▸ h.erase t.text
        exact List.rel_flatMap (like_place like bodies) fun _ _ inner => erased.expand inner
    next kept => rw [kept] at same; cases same
  next kept =>
    rw [kept] at same
    split
    next replaced => rw [replaced] at same; cases same
    next => exact .cons ⟨like.kind, like.text, like.value, rfl, like.spaced, like.line⟩ .nil
termination_by m.length
decreasing_by exact shorter

/-- A condition's number does not depend on its lines. -/
theorem Like.number? {ts us : List Token} (like : Tokens.Like L ts us) :
    holds?.number? ts = holds?.number? us := by
  cases like with
  | nil => rfl
  | cons first rest =>
    cases rest with
    | nil => simp only [holds?.number?, first.kind, first.value]
    | cons _ _ => rfl

/-- What a condition says does not depend on its lines. -/
theorem Like.holds? (h : m.Like L m') {ts us : List Token} (like : Tokens.Like L ts us) :
    m.holds? ts = m'.holds? us := by
  unfold Macros.holds?
  cases like with
  | nil => rfl
  | @cons t u ts us first rest =>
    simp only [first.is]
    split
    next =>
      cases rest with
      | nil => rfl
      | cons second more =>
        simp only [second.is]
        split
        next => exact congrArg some (h.any_isDefined (Tokens.Like.head? more))
        next => exact congrArg some (h.any_isDefined (.some second))
    next => exact Like.number? (List.rel_flatMap (.cons first rest) fun _ _ inner => h.expand inner)

end Macros

/-! ## Like items -/

/-- The directives have like words. -/
inductive Directive.Like (L : LineNumber → LineNumber → Prop) : Directive → Directive → Prop
  | null : Like L .null .null
  | ifDefined (wanted name?) : Like L (.ifDefined wanted name?) (.ifDefined wanted name?)
  | ifHolds {ts us} : Tokens.Like L ts us → Like L (.ifHolds ts) (.ifHolds us)
  | elifHolds {ts us} : Tokens.Like L ts us → Like L (.elifHolds ts) (.elifHolds us)
  | otherwise : Like L .otherwise .otherwise
  | endIf : Like L .endIf .endIf
  | define {ts us} : Tokens.Like L ts us → Like L (.define ts) (.define us)
  | undefine (name?) : Like L (.undefine name?) (.undefine name?)
  | includeHeader {ts us} : Tokens.Like L ts us → Like L (.includeHeader ts) (.includeHeader us)
  | report {ts us} : Tokens.Like L ts us → Like L (.report ts) (.report us)
  | ignored : Like L .ignored .ignored
  | unknown (name) : Like L (.unknown name) (.unknown name)

/-- Alike words make alike directives. -/
theorem Directive.like_ofWords {ts us : List Token} (like : Tokens.Like L ts us) :
    (ofWords ts).Like L (ofWords us) := by
  cases like with
  | nil => exact .null
  | @cons t u ts us first rest =>
    have word : ts.head?.map (·.text) = us.head?.map (·.text) := by
      cases rest with
      | nil => rfl
      | cons second _ => exact congrArg some second.text
    rw [ofWords, ofWords, first.text, word]
    split
    next => exact .ifDefined ..
    next => exact .ifDefined ..
    next => exact .ifHolds rest
    next => exact .elifHolds rest
    next => exact .otherwise
    next => exact .endIf
    next => exact .define rest
    next => exact .undefine ..
    next => exact .includeHeader rest
    next => exact .report rest
    next => exact .ignored
    next => exact .ignored
    next => exact .unknown ..

/-- A directive is like itself where every line is like itself. -/
theorem Directive.Like.refl (refl : ∀ n, L n n) (d : Directive) : d.Like L d := by
  cases d with
  | null => exact .null
  | ifDefined wanted name? => exact .ifDefined wanted name?
  | ifHolds ts => exact .ifHolds (.refl refl ts)
  | elifHolds ts => exact .elifHolds (.refl refl ts)
  | otherwise => exact .otherwise
  | endIf => exact .endIf
  | define ts => exact .define (.refl refl ts)
  | undefine name? => exact .undefine name?
  | includeHeader ts => exact .includeHeader (.refl refl ts)
  | report ts => exact .report (.refl refl ts)
  | ignored => exact .ignored
  | unknown name => exact .unknown name

/-- The items have like tokens. -/
inductive SourceItem.Like (L : LineNumber → LineNumber → Prop) : SourceItem → SourceItem → Prop
  | text {t u} : t.Like L u → Like L (.text t) (.text u)
  | marker {t u} : t.Like L u → Like L (.marker t) (.marker u)
  | directive {d d' l l'} : d.Like L d' → L l l' → Like L (.directive d l) (.directive d' l')
  | endOfSource {l l'} : L l l' → Like L (.endOfSource l) (.endOfSource l')

namespace SourceItem

/-- As `Directive.Like.refl`, for items. -/
theorem Like.refl (refl : ∀ n, L n n) (item : SourceItem) : item.Like L item := by
  cases item with
  | text t => exact .text (.refl refl t)
  | marker t => exact .marker (.refl refl t)
  | directive d line => exact .directive (.refl refl d) (refl line)
  | endOfSource line => exact .endOfSource (refl line)

/-- Items that are alike stand on lines that are. -/
theorem Like.line {item item' : SourceItem} (like : item.Like L item') :
    L item.line item'.line := by
  cases like with
  | text like => exact like.line
  | marker like => exact like.line
  | directive _ line => exact line
  | endOfSource line => exact line

/-- Token lists that are alike split into items that are. -/
theorem like_ofTokens {ts us : List Token} (like : Tokens.Like L ts us) :
    List.Forall₂ (Like L) (ofTokens ts) (ofTokens us) := by
  cases like with
  | nil => rw [ofTokens_nil]; exact .nil
  | @cons t u ts us first rest =>
    have continues : ∀ t u : Token, t.Like L u → continuesDirective t = continuesDirective u :=
      fun _ _ like => by rw [continuesDirective, continuesDirective, like.startsLine, like.kind]
    have starts : startsDirective t = startsDirective u := by
      rw [startsDirective, startsDirective, first.is, first.startsLine]
    by_cases eof : t.kind = .eof
    · rw [ofTokens_eof eof, ofTokens_eof (first.kind ▸ eof)]
      exact .cons (.endOfSource first.line) .nil
    by_cases marker : t.kind = .error
    · rw [ofTokens_marker marker, ofTokens_marker (first.kind ▸ marker)]
      exact .cons (.marker first) (like_ofTokens rest)
    cases directive : startsDirective t with
    | true =>
      have shorter := (List.dropWhile_sublist continuesDirective (l := ts)).length_le
      rw [ofTokens_directive directive, ofTokens_directive (starts ▸ directive)]
      exact .cons
        (.directive (Directive.like_ofWords (Tokens.Like.takeWhile continues rest)) first.line)
        (like_ofTokens (Tokens.Like.dropWhile continues rest))
    | false =>
      rw [ofTokens_text eof marker directive,
        ofTokens_text (first.kind ▸ eof) (first.kind ▸ marker) (starts ▸ directive)]
      exact .cons (.text first) (like_ofTokens rest)
termination_by ts.length
decreasing_by all_goals simp only [List.length_cons]; omega

end SourceItem

/-- The name of a header does not depend on its line, nor does the fault of a missing one. -/
theorem Header.name_like {ts us : List Token} (like : Tokens.Like L ts us) : name ts = name us := by
  cases like with
  | nil => rfl
  | cons first rest =>
    have closes : ∀ t u : Token, t.Like L u → t.is ">" = u.is ">" := fun _ _ like => like.is ">"
    have named := Tokens.Like.map_text
      (Tokens.Like.takeWhile (fun t u like => congrArg not (closes t u like)) rest)
    simp only [name, first.kind, first.text, first.is, Tokens.Like.any closes rest, named]

/-! ## Like passes -/

namespace Expansion

variable {σ τ : Type} {H : σ → τ → Prop}

/-- The states of two passes have like tokens, and host states in the relation `H`. -/
structure Like (L : LineNumber → LineNumber → Prop) (H : σ → τ → Prop) (e : Expansion σ)
    (e' : Expansion τ) : Prop where
  macros : e.macros.Like L e'.macros
  branches : e.branches = e'.branches
  line : L e.line e'.line
  host : H e.host e'.host
  out : Tokens.Like L e.out.toList e'.out.toList

variable {e : Expansion σ} {e' : Expansion τ}

/-- Related host states put into alike expansions leave them alike. -/
theorem Like.withHost (h : e.Like L H e') {s : σ} {s' : τ} (host : H s s') :
    ({ e with host := s } : Expansion σ).Like L H { e' with host := s' } :=
  ⟨h.macros, h.branches, h.line, host, h.out⟩

/-- A token put behind each output leaves them alike. -/
theorem Like.push (h : e.Like L H e') {t u : Token} (like : t.Like L u) :
    ({ e with out := e.out.push t } : Expansion σ).Like L H { e' with out := e'.out.push u } :=
  have out := List.rel_append h.out (.cons like .nil)
  { h with out := by rwa [Array.toList_push, Array.toList_push] }

/-- So does a fault reported on lines that are alike. -/
theorem Like.fault (h : e.Like L H e') (cause : DirectiveFault) {l l' : LineNumber}
    (line : L l l') : (e.fault cause l).Like L H (e'.fault cause l') :=
  h.push (Token.like_marker _ line)

/-- Alike expansions judge a condition the same and stay alike. -/
theorem Like.judge (h : e.Like L H e') {ts us : List Token} (like : Tokens.Like L ts us)
    {l l' : LineNumber} (line : L l l') :
    (e.judge ts l).1 = (e'.judge us l').1 ∧ (e.judge ts l).2.Like L H (e'.judge us l').2 := by
  rw [Expansion.judge, Expansion.judge, h.macros.holds? like]
  split
  next => exact ⟨rfl, h⟩
  next => exact ⟨rfl, h.fault _ line⟩

/-- They take a definition alike. -/
theorem Like.define (h : e.Like L H e') {ts us : List Token} (like : Tokens.Like L ts us)
    {l l' : LineNumber} (line : L l l') : (e.define l ts).Like L H (e'.define l' us) := by
  cases like with
  | nil => exact h.fault _ line
  | @cons t u ts us first rest =>
    have arguments : (ts.head?.any fun t => t.is "(" && !t.spaced) =
        us.head?.any fun t => t.is "(" && !t.spaced := by
      cases rest with
      | nil => rfl
      | cons second _ => simp only [List.head?_cons, Option.any_some, second.is, second.spaced]
    rw [Expansion.define, Expansion.define, first.kind, first.text, arguments]
    split
    next => exact h.fault _ line
    next =>
      split
      next => exact h.fault _ line
      next => exact { h with macros := h.macros.define u.text rest }

/-- What becomes of headers is alike. -/
def LikeInside (L : LineNumber → LineNumber → Prop) (H : σ → τ → Prop) :
    Option (List Token → Expansion σ → Expansion σ) →
    Option (List Token → Expansion τ → Expansion τ) → Prop :=
  Option.Rel fun deeper deeper' =>
    ∀ ts e e', e.Like L H e' → (deeper ts e).Like L H (deeper' ts e')

section Step

variable {host : Host σ} {host' : Host τ}
  {deeper? : Option (List Token → Expansion σ → Expansion σ)}
  {deeper?' : Option (List Token → Expansion τ → Expansion τ)}
  (served : deeper?.isSome → ∀ path s s', H s s' →
    (Header.fetch host path s).1 = (Header.fetch host' path s').1 ∧
      H (Header.fetch host path s).2 (Header.fetch host' path s').2)
  (inside : LikeInside L H deeper? deeper?')
include served inside

/-- They include a header alike, where the hosts answer alike and the expansions one level deeper
are. -/
theorem Like.includeHeader (h : e.Like L H e') {ts us : List Token} (like : Tokens.Like L ts us)
    {l l' : LineNumber} (line : L l l') :
    (e.includeHeader host deeper? ts l).Like L H (e'.includeHeader host' deeper?' us l') := by
  unfold Expansion.includeHeader
  rw [Header.name_like like]
  cases Header.name us with
  | error f => exact h.fault _ line
  | ok name =>
    cases inside with
    | none => exact h.fault _ line
    | some inside =>
      obtain ⟨contents, left⟩ := served rfl (Bytes.ofText name) e.host e'.host h.host
      dsimp only
      generalize Header.fetch host _ _ = fetched,
        Header.fetch host' _ _ = fetched' at contents left ⊢
      obtain ⟨contents?, s⟩ := fetched
      obtain ⟨_, s'⟩ := fetched'
      cases contents
      cases contents? with
      | none => exact (h.withHost left).fault _ line
      | some contents => exact inside (Token.ofSource contents) _ _ (h.withHost left)

/-- They obey a directive alike. -/
theorem Like.obey (h : e.Like L H e') {d d' : Directive} (like : d.Like L d') {l l' : LineNumber}
    (line : L l l') : (e.obey host deeper? d l).Like L H (e'.obey host' deeper?' d' l') := by
  cases like with
  | define like => exact h.define like line
  | undefine name? =>
    cases name? with
    | none => exact h
    | some name => exact { h with macros := h.macros.erase name }
  | includeHeader like => exact h.includeHeader served inside like line
  | report like =>
    rw [Expansion.obey, Expansion.obey, Tokens.Like.map_text like]
    exact h.fault _ line
  | unknown name => exact h.fault _ line
  | null => exact h
  | ifDefined => exact h
  | ifHolds => exact h
  | elifHolds => exact h
  | otherwise => exact h
  | endIf => exact h
  | ignored => exact h

/-- As `Like.obey`, with the conditionals. -/
theorem Like.direct (h : e.Like L H e') {d d' : Directive} (like : d.Like L d') {l l' : LineNumber}
    (line : L l l') : (e.direct host deeper? d l).Like L H (e'.direct host' deeper?' d' l') := by
  have others : (if e.branches.skipping then e else e.obey host deeper? d l).Like L H
      (if e'.branches.skipping then e' else e'.obey host' deeper?' d' l') := by
    rw [h.branches]
    split
    next => exact h
    next => exact h.obey served inside like line
  cases like with
  | ifDefined wanted name? =>
    have same : name?.any e.macros.isDefined = name?.any e'.macros.isDefined := by
      cases name? with
      | none => rfl
      | some name => exact h.macros.isDefined name
    rw [Expansion.direct, Expansion.direct, same, h.branches]
    exact { h with branches := rfl }
  | ifHolds like =>
    obtain ⟨holds, judged⟩ := h.judge like line
    rw [Expansion.direct, Expansion.direct, h.branches]
    split
    next => exact { h with branches := rfl }
    next => exact { judged with branches := by simp only [holds, judged.branches] }
  | elifHolds like =>
    obtain ⟨holds, judged⟩ := h.judge like line
    rw [Expansion.direct, Expansion.direct, h.branches]
    split
    next => exact h.fault _ line
    next => exact { h with branches := rfl }
    next => exact { judged with branches := by simp only [holds, judged.branches] }
  | otherwise =>
    rw [Expansion.direct, Expansion.direct, h.branches]
    split
    next => exact h.fault _ line
    next => exact { h with branches := rfl }
  | endIf =>
    rw [Expansion.direct, Expansion.direct, h.branches]
    split
    next => exact h.fault _ line
    next => exact { h with branches := rfl }
  | null => exact others
  | define like => exact others
  | undefine name? => exact others
  | includeHeader like => exact others
  | report like => exact others
  | ignored => exact others
  | unknown name => exact others

/-- One item taken by alike expansions leaves them alike: the step of the run below. -/
theorem Like.step (h : e.Like L H e') {item item' : SourceItem} (like : item.Like L item') :
    (step host deeper? e item).Like L H (step host' deeper?' e' item') := by
  have begun :
      ({ e with line := item.line } : Expansion σ).Like L H { e' with line := item'.line } :=
    { h with line := like.line }
  cases like with
  | text like =>
    have skips := congrArg Branches.skipping h.branches
    have out := List.rel_append h.out (h.macros.expand like)
    simp only [Expansion.step, skips]
    split
    next => exact begun
    next => exact { begun with out := by rwa [Array.toList_appendList, Array.toList_appendList] }
  | marker like => exact begun.push like
  | directive like line => exact begun.direct served inside like line
  | endOfSource => exact begun

/-- Alike expansions take alike items one after the other and stay alike. -/
theorem Like.foldl_step (h : e.Like L H e') {items items' : List SourceItem}
    (like : List.Forall₂ (SourceItem.Like L) items items') :
    (items.foldl (Expansion.step host deeper?) e).Like L H
      (items'.foldl (Expansion.step host' deeper?') e') := by
  induction like generalizing e e' with
  | nil => exact h
  | cons first _ ih => exact ih (h.step served inside first)

end Step

section Pass

variable {host : Host σ} {host' : Host τ}
  (served : ∀ path s s', H s s' →
    (Header.fetch host path s).1 = (Header.fetch host' path s').1 ∧
      H (Header.fetch host path s).2 (Header.fetch host' path s').2)
  (refl : ∀ n, L n n) (depth : Nat)
include served refl

/-- The expansions one level deeper are alike at every depth, by induction on the depth. -/
theorem likeInside_deeperAt : LikeInside L H (deeperAt host depth) (deeperAt host' depth) := by
  induction depth with
  | zero => exact .none
  | succ depth ih =>
    refine .some fun ts e e' h => ?_
    rw [run_eq_pass, run_eq_pass]
    exact h.foldl_step (fun _ => served) ih (SourceItem.like_ofTokens (.refl refl ts))

/-- Hosts that serve the same headers let like passes go alike. -/
theorem Like.pass {items items' : List SourceItem}
    (like : List.Forall₂ (SourceItem.Like L) items items') (h : e.Like L H e') :
    (pass host depth items e).Like L H (pass host' depth items' e') :=
  h.foldl_step (fun _ => served) (likeInside_deeperAt served refl depth) like

/-- Alike tokens expand alike. -/
theorem Like.run {ts us : List Token} (like : Tokens.Like L ts us) (h : e.Like L H e') :
    (run host depth ts e).Like L H (run host' depth us e') := by
  rw [run_eq_pass, run_eq_pass]
  exact h.pass served refl depth (SourceItem.like_ofTokens like)

end Pass

/-- So they do once the end of the source has been put behind them. -/
theorem Like.finish (h : e.Like L H e') : Tokens.Like L e.finish e'.finish := by
  have ended : ∀ {e : Expansion σ} {e' : Expansion τ}, e.Like L H e' →
      Tokens.Like L (e.out.push (.endOfSource e.line)).toList
        (e'.out.push (.endOfSource e'.line)).toList :=
    fun {e e'} h =>
      (h.push (t := .endOfSource e.line) (u := .endOfSource e'.line)
        ⟨rfl, rfl, rfl, rfl, rfl, h.line⟩).out
  unfold Expansion.finish
  rw [h.branches]
  split
  next => exact ended h
  next => exact ended (h.fault _ h.line)

end Expansion

end BareC
