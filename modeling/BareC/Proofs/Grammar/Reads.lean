import BareC.Grammar.Unit

/-!
# How parsers are put together

The parsers of the grammar are put together in few ways: they look at the next token, take it if
they know what it is, fail, do one thing after another, and read what stands between braces.
`Parser.Reads` is the relation that has one rule for each of them. What is to be shown of every
parser of the grammar is shown by induction on its rules; that the parsers obey them is shown once,
along the grammar.

The relation carries what the rules need to know and what the parsers promise:

* the tokens ahead may be assumed to have a property `Ahead`, and the value returned has one;
* `Next` is what is known of the next token from having looked at it before;
* a parser that has to take a token, if it succeeds, is marked by `takes`;
* braces are taken in pairs and, like semicolons, only in the body of a function.

A parser in a scope has rules of its own, because a scope may change on the way and the property of
the value depends on it. They are stated for a fixed scope in front, so that an induction on the
grammar can be made with the scope general.

The relation is about parsers that succeed and about the message of those that fail. It does not say
that any parser succeeds: for that one needs to know the tokens, as `Printing` does.
-/

namespace BareC

namespace Token

variable {t : Token} {s : String} {body : Bool}

/-- A token that passes the comparison has that text. -/
theorem text_of_is (h : t.is s = true) : t.text = s := by
  rw [is, Bool.and_eq_true, beq_iff_eq] at h
  exact h.2

/-- It passes no comparison with another. -/
theorem is_eq_false (h : t.is s = true) {s' : String} (ne : s ≠ s') : t.is s' = false :=
  Bool.eq_false_iff.mpr fun h' => ne ((text_of_is h).symm.trans (text_of_is h'))

/-- Only identifiers and punctuation are compared. -/
theorem kind_of_is (h : t.is s = true) : t.kind = .ident ∨ t.kind = .punct := by
  rw [is, Bool.and_eq_true, Bool.or_eq_true, beq_iff_eq, beq_iff_eq] at h
  exact h.1

/-- The spellings that are left to rules of their own: braces, and semicolons outside of bodies. -/
def reserved (body : Bool) : List String :=
  if body then ["\x7b", "\x7d"] else ["\x7b", "\x7d", ";"]

/-- A token that a parser may take by itself. -/
structure Takeable (body : Bool) (t : Token) : Prop where
  notEnd : t.kind ≠ .eof
  notMarker : t.kind ≠ .error
  spelling : Grammar.isName t = true ∨ ∀ s ∈ reserved body, t.is s = false

/-- A token with an unreserved text may be taken. -/
theorem takeable_of_is (h : t.is s = true) (free : s ∉ reserved body) : t.Takeable body where
  notEnd := by rcases kind_of_is h with kind | kind <;> rw [kind] <;> exact Kind.noConfusion
  notMarker := by rcases kind_of_is h with kind | kind <;> rw [kind] <;> exact Kind.noConfusion
  spelling := .inr fun _ mem => is_eq_false h fun eq => free (eq ▸ mem)

/-- A name is an identifier. -/
theorem kind_of_isName (h : Grammar.isName t = true) : t.kind = .ident := by
  rw [Grammar.isName, Bool.and_eq_true, decide_eq_true_eq] at h
  exact h.1

/-- A name may be taken. -/
theorem takeable_of_isName (h : Grammar.isName t = true) : t.Takeable body where
  notEnd := by rw [kind_of_isName h]; exact Kind.noConfusion
  notMarker := by rw [kind_of_isName h]; exact Kind.noConfusion
  spelling := .inl h

/-- A number may be taken. -/
theorem takeable_of_kind (h : t.kind = .num) : t.Takeable body where
  notEnd := by rw [h]; exact Kind.noConfusion
  notMarker := by rw [h]; exact Kind.noConfusion
  spelling := .inr fun s _ => by rw [is, h]; rfl

end Token

namespace Grammar

/-! ## The rules -/

namespace Parser

/-- What is done behind an optional token depends on its presence alone. -/
theorem run_accept_bind {α : Type} {s : String} (f : Bool → Parser α) (c : Cursor) :
    (accept s >>= f).run c = if c.next.is s then (f true).run c.advance else (f false).run c := by
  show (if c.next.is s then _ else _ : Parser Bool) c >>= _ = _
  split <;> rfl

/-- What a parser reads between braces. -/
def braces {α : Type} (p : Parser α) : Parser α := do
  expect "\x7b"
  let a ← p
  expect "\x7d"
  return a

/-- A loop that is given some tokens to bound its rounds takes all of its rounds, if there are as
many of them as are ahead. -/
def Bounded {α : Type} (Ahead : Token → Prop) (loop : List Token → Parser α) : Prop :=
  ∀ c bound bound', (∀ t ∈ c.ahead, Ahead t) → c.ahead.length ≤ bound.length →
    c.ahead.length ≤ bound'.length → (loop bound).run c = (loop bound').run c

/-- What follows a loop does not know its bound. -/
theorem Bounded.bind {α β : Type} {Ahead : Token → Prop} {loop : List Token → Parser β}
    (h : Bounded Ahead loop) (f : β → Parser α) :
    Bounded Ahead fun bound => loop bound >>= f := by
  intro c bound bound' all le le'
  rw [StateT.run_bind, StateT.run_bind, h c bound bound' all le le']

/-- How a parser is put together. -/
inductive Reads (Ahead : Token → Prop) (body : Bool) :
    {α : Type} → (takes : Bool) → (Next : Token → Prop) → (p : Parser α) → (P : α → Prop) → Prop
  | pure {α : Type} {Next} {P : α → Prop} {a : α} : P a →
      Reads Ahead body false Next (Pure.pure a) P
  | failOn {α : Type} {takes Next line fault} {P : α → Prop} :
    (∀ message, fault ≠ .marker message) →
      Reads Ahead body takes Next (Parser.failOn line fault) P
  | fail {α : Type} {takes Next fault} {P : α → Prop} :
    (∀ t, Next t → t.kind ≠ .error → ∀ message, fault ≠ .marker message) →
      Reads Ahead body takes Next (Parser.fail fault) P
  /-- The next token is looked at, and known from then on. -/
  | peek {α : Type} {takes Next} {f : Token → Parser α} {P : α → Prop} :
    (∀ t, Next t → (t.kind ≠ .eof → Ahead t) → Reads Ahead body takes (· = t) (f t) P) →
      Reads Ahead body takes Next (Parser.peek >>= f) P
  | advance {α : Type} {takes Next} {f : Token → Parser α} {P : α → Prop} :
    (∀ t, Next t → t.Takeable body) →
      (∀ t, Next t → Reads Ahead body false (fun _ => True) (f t) P) →
        Reads Ahead body takes Next (Parser.advance >>= f) P
  | skipWhile {Next p} : (∀ t, p t = true → t.Takeable body) →
    Reads Ahead body false Next (Parser.skipWhile p) (fun _ => True)
  | bind {α β : Type} {takes Next} {p : Parser β} {f : β → Parser α} {R : β → Prop} {P : α → Prop} :
    Reads Ahead body false Next p R →
      (∀ b, R b → Reads Ahead body takes (fun _ => True) (f b) P) →
        Reads Ahead body takes Next (p >>= f) P
  /-- After something that has taken a token, nothing has to be taken any more. -/
  | bindTaken {α β : Type} {takes Next} {p : Parser β} {f : β → Parser α} {R : β → Prop}
      {P : α → Prop} :
    Reads Ahead body true Next p R →
      (∀ b, R b → Reads Ahead body false (fun _ => True) (f b) P) →
        Reads Ahead body takes Next (p >>= f) P
  | bounded {α : Type} {takes Next} {loop : List Token → Parser α} {P : α → Prop} :
    Bounded Ahead loop → (∀ bound, Reads Ahead body takes Next (loop bound) P) →
      Reads Ahead body takes Next (get >>= fun c => loop c.ahead) P
  /-- A second token is looked at only to find an empty parameter list. -/
  | voidList {α : Type} {takes Next} {f : Bool → Parser α} {P : α → Prop} :
    (∀ t, t.is "void" = true → Reads Ahead body takes (· = t) (f true) P) →
      Reads Ahead body takes Next (f false) P →
        Reads Ahead body takes Next (get >>= fun c => f (isVoidList c.ahead)) P
  | braces {α : Type} {takes Next} {p : Parser α} {P : α → Prop} : body = true →
    Reads Ahead body false (fun _ => True) p P →
      Reads Ahead body takes Next (Parser.braces p) P
  | weaken {α : Type} {takes takes' Next Next'} {p : Parser α} {P P' : α → Prop} :
    (∀ t, Next' t → Next t) → (∀ a, P a → P' a) → (takes' = true → takes = true) →
      Reads Ahead body takes Next p P → Reads Ahead body takes' Next' p P'

namespace Reads

variable {Ahead : Token → Prop} {body takes : Bool} {Next : Token → Prop} {α β : Type}
  {P Q : α → Prop} {s : String}

/-- A reading with a stronger property is one with the weaker. -/
theorem mono {p : Parser α} (hp : p.Reads Ahead body takes Next Q) (h : ∀ a, Q a → P a) :
    p.Reads Ahead body takes Next P :=
  .weaken (fun _ next => next) h id hp

/-- It does no harm to have taken a token. -/
theorem lax {p : Parser α} (hp : p.Reads Ahead body takes Next P) :
    p.Reads Ahead body false Next P :=
  .weaken (fun _ => id) (fun _ => id) nofun hp

/-- What is known of the next token need not be used. -/
theorem anywhere {p : Parser α} (hp : p.Reads Ahead body takes (fun _ => True) P) :
    p.Reads Ahead body takes Next P :=
  .weaken (fun _ _ => trivial) (fun _ => id) id hp

/-- A choice reads as each of its branches does. -/
theorem ite {b : Prop} [Decidable b] {p q : Parser α} (hp : b → p.Reads Ahead body takes Next P)
    (hq : ¬b → q.Reads Ahead body takes Next P) :
    (if b then p else q).Reads Ahead body takes Next P := by
  split
  next h => exact hp h
  next h => exact hq h

/-- A function of the result reads with the property of its value. -/
theorem map {p : Parser β} {f : β → α} (hp : p.Reads Ahead body takes Next fun b => P (f b)) :
    (f <$> p).Reads Ahead body takes Next P := by
  rw [map_eq_pure_bind]
  cases takes with
  | true => exact .bindTaken hp fun b hb => .pure hb
  | false => exact .bind hp fun b hb => .pure hb

/-- Whatever stands behind a failure is never read. -/
theorem fail_bind {fault : SyntaxFault} {f : β → Parser α}
    (h : ∀ t, Next t → t.kind ≠ .error → ∀ message, fault ≠ .marker message) :
    (Parser.fail fault >>= f).Reads Ahead body takes Next P :=
  .bindTaken (R := fun _ => False) (.fail h) fun _ h => h.elim

/-! ### Single tokens -/

/-- Behind a look at the next token, that token is known. -/
theorem sees_bind {f : Bool → Parser α}
    (h : ∀ t, Next t → (f (t.is s)).Reads Ahead body takes (· = t) P) :
    (Parser.sees s >>= f).Reads Ahead body takes Next P :=
  peek (f := fun t => f (t.is s)) fun t next _ => h t next

/-- Behind an optional token that is not reserved, either branch reads. -/
theorem accept_bind {f : Bool → Parser α} (free : s ∉ Token.reserved body)
    (hyes : (f true).Reads Ahead body false (fun _ => True) P)
    (hno : (f false).Reads Ahead body takes Next P) :
    (Parser.accept s >>= f).Reads Ahead body takes Next P := by
  have eq : (Parser.accept s >>= f) = Parser.peek >>= fun t =>
      if t.is s then Parser.advance >>= fun _ => f true else f false := by
    funext c
    refine (run_accept_bind f c).trans ?_
    show _ = (if c.next.is s then _ else _ : Parser α) c
    split <;> rfl
  rw [eq]
  refine .peek fun t next _ => .ite (fun is => ?_) fun _ => ?_
  · refine .advance ?_ fun _ _ => hyes
    rintro t' rfl
    exact Token.takeable_of_is is free
  · refine .weaken ?_ (fun _ => id) id hno
    rintro t' rfl
    exact next

/-- Behind a token expected, something has been taken. -/
theorem expect_bind {f : Unit → Parser α} (free : s ∉ Token.reserved body)
    (h : (f ()).Reads Ahead body false (fun _ => True) P) :
    (Parser.expect s >>= f).Reads Ahead body takes Next P := by
  rw [Parser.expect, bind_assoc]
  exact accept_bind free h (fail_bind fun _ _ _ _ => nofun)

/-- As `Reads.accept_bind`, for the operators of a table. -/
theorem acceptOne_bind {γ : Type} {table : List (String × γ)} {f : Option γ → Parser α}
    (free : ∀ entry ∈ table, entry.1 ∉ Token.reserved body)
    (hyes : ∀ entry ∈ table, (f (some entry.2)).Reads Ahead body false (fun _ => True) P)
    (hno : (f none).Reads Ahead body takes Next P) :
    (Parser.acceptOne table >>= f).Reads Ahead body takes Next P := by
  rw [Parser.acceptOne, bind_assoc]
  refine .peek fun t next _ => ?_
  cases found : table.find? fun entry => t.is entry.1 with
  | none =>
    refine .weaken ?_ (fun _ => id) id hno
    rintro t' rfl
    exact next
  | some entry =>
    have mem := List.mem_of_find?_eq_some found
    refine .advance ?_ fun _ _ => hyes entry mem
    rintro t' rfl
    have is : t'.is entry.1 = true :=
      List.find?_some (p := fun entry : String × γ => t'.is entry.1) found
    exact Token.takeable_of_is is (free entry mem)

/-- What has been seen is still the next token. -/
theorem seesOne_bind {γ : Type} {table : List (String × γ)} {f : Option γ → Parser α}
    (hyes : ∀ entry ∈ table,
      (f (some entry.2)).Reads Ahead body takes (fun t => t.is entry.1 = true) P)
    (hno : (f none).Reads Ahead body takes Next P) :
    (Parser.seesOne table >>= f).Reads Ahead body takes Next P := by
  rw [Parser.seesOne, bind_assoc]
  refine .peek fun t next _ => ?_
  cases found : table.find? fun entry => t.is entry.1 with
  | none =>
    refine .weaken ?_ (fun _ => id) id hno
    rintro t' rfl
    exact next
  | some entry =>
    refine .weaken ?_ (fun _ => id) id (hyes entry (List.mem_of_find?_eq_some found))
    rintro t' rfl
    exact List.find?_some (p := fun entry : String × γ => t'.is entry.1) found

/-- Behind a name, the name was ahead. -/
theorem name_bind {f : Token → Parser α}
    (h : ∀ t, Ahead t → isName t = true → (f t).Reads Ahead body false (fun _ => True) P) :
    (Parser.name >>= f).Reads Ahead body takes Next P := by
  rw [Parser.name, bind_assoc]
  refine .peek fun t _ ahead => ?_
  split
  next is =>
    refine .advance ?_ ?_
    · rintro t' rfl
      exact Token.takeable_of_isName is
    · rintro t' rfl
      refine h t' (ahead ?_) is
      rw [Token.kind_of_isName is]
      exact Token.Kind.noConfusion
  next => exact fail_bind fun _ _ _ _ => nofun

/-- The refusal of an unsupported word takes nothing. -/
theorem refuseUnsupported_bind {f : Unit → Parser α}
    (h : (f ()).Reads Ahead body takes Next P) :
    (Parser.refuseUnsupported >>= f).Reads Ahead body takes Next P := by
  rw [Parser.refuseUnsupported, bind_assoc]
  refine .peek fun t next _ => ?_
  cases unsupportedWord? t with
  | none =>
    refine .weaken ?_ (fun _ => id) id h
    rintro t' rfl
    exact next
  | some word => exact fail_bind fun _ _ _ _ => nofun

end Reads

end Parser

/-! ## Parsers that declare variables -/

/-- How a parser that may declare variables is put together, if it starts from a scope. -/
def ScopedParser.Reads {α : Type} (Ahead : Token → Prop) (body takes : Bool) (Next : Token → Prop)
    (p : ScopedParser α) (scope : Scope) (P : α → Scope → Prop) : Prop :=
  (p.run scope).Reads Ahead body takes Next fun r => P r.1 r.2

/-- A parser that knows no scope leaves it as it is. -/
theorem ScopedParser.run_lift_bind {α β : Type} (p : Parser β) (f : β → ScopedParser α)
    (scope : Scope) : ((liftM p : ScopedParser β) >>= f).run scope = p >>=
      fun b => (f b).run scope := by
  show (p >>= fun b => pure (b, scope)) >>= (fun r => (f r.1).run r.2) = _
  simp only [bind_assoc, pure_bind]

namespace ScopedParser.Reads

variable {Ahead : Token → Prop} {body takes : Bool} {Next : Token → Prop} {α β : Type}
  {scope : Scope} {P Q : α → Scope → Prop} {s : String}

/-- A result without reading has the property in the scope it stands in. -/
theorem pure {a : α} (h : P a scope) :
    ScopedParser.Reads Ahead body false Next (Pure.pure a) scope P :=
  Parser.Reads.pure h

/-- As `Parser.Reads.mono`, with the scope it leads to. -/
theorem mono {p : ScopedParser α} (hp : p.Reads Ahead body takes Next scope Q)
    (h : ∀ a scope', Q a scope' → P a scope') : p.Reads Ahead body takes Next scope P :=
  Parser.Reads.mono hp fun r => h r.1 r.2

/-- A reading that takes a token is one that may. -/
theorem lax {p : ScopedParser α} (hp : p.Reads Ahead body takes Next scope P) :
    p.Reads Ahead body false Next scope P :=
  Parser.Reads.lax hp

/-- A reading before any token is one before those of a kind. -/
theorem anywhere {p : ScopedParser α} (hp : p.Reads Ahead body takes (fun _ => True) scope P) :
    p.Reads Ahead body takes Next scope P :=
  Parser.Reads.anywhere hp

/-- As `Parser.Reads.ite` -/
theorem ite {b : Prop} [Decidable b] {p q : ScopedParser α}
    (hp : b → p.Reads Ahead body takes Next scope P)
    (hq : ¬b → q.Reads Ahead body takes Next scope P) :
    (if b then p else q).Reads Ahead body takes Next scope P := by
  split
  next h => exact hp h
  next h => exact hq h

/-- Two parsers in a row, the second in the scope of the first: the first takes what has to be
taken. -/
theorem bind {R : β → Scope → Prop} {p : ScopedParser β} {f : β → ScopedParser α}
    (hp : p.Reads Ahead body false Next scope R)
    (hf : ∀ b scope', R b scope' → (f b).Reads Ahead body takes (fun _ => True) scope' P) :
    (p >>= f).Reads Ahead body takes Next scope P :=
  Parser.Reads.bind (p := p.run scope) hp fun b hb => hf b.1 b.2 hb

/-- As `Reads.bind`, where the first takes a token and the second need not. -/
theorem bindTaken {R : β → Scope → Prop} {p : ScopedParser β} {f : β → ScopedParser α}
    (hp : p.Reads Ahead body true Next scope R)
    (hf : ∀ b scope', R b scope' → (f b).Reads Ahead body false (fun _ => True) scope' P) :
    (p >>= f).Reads Ahead body takes Next scope P :=
  Parser.Reads.bindTaken (p := p.run scope) hp fun b hb => hf b.1 b.2 hb

/-- As `Parser.Reads.map` -/
theorem map {p : ScopedParser β} {f : β → α}
    (hp : p.Reads Ahead body takes Next scope fun b => P (f b)) :
    (f <$> p).Reads Ahead body takes Next scope P :=
  Parser.Reads.map (p := p.run scope) (f := fun r => (f r.1, r.2)) hp

/-- Looking at the scope takes nothing. -/
theorem get {f : Scope → ScopedParser α}
    (hf : (f scope).Reads Ahead body takes Next scope P) :
    ((MonadState.get : ScopedParser Scope) >>= f).Reads Ahead body takes Next scope P :=
  hf

/-- Setting the scope takes nothing. -/
theorem set {f : PUnit → ScopedParser α} {scope' : Scope}
    (hf : (f ⟨⟩).Reads Ahead body takes Next scope' P) :
    ((MonadStateOf.set scope' : ScopedParser PUnit) >>= f).Reads Ahead body takes Next scope P :=
  hf

/-- Changing the scope takes nothing. -/
theorem modify {g : Scope → Scope} {f : PUnit → ScopedParser α}
    (hf : (f ⟨⟩).Reads Ahead body takes Next (g scope) P) :
    ((modifyThe Scope g : ScopedParser PUnit) >>= f).Reads Ahead body takes Next scope P :=
  hf

/-- A parser that knows no scope. -/
theorem lifted {p : Parser α} {S : α → Prop} (hp : p.Reads Ahead body takes Next S)
    (h : ∀ a, S a → P a scope) :
    ScopedParser.Reads Ahead body takes Next (liftM p) scope P := by
  have eq : (liftM p : ScopedParser α).run scope = (fun a => (a, scope)) <$> p := by
    rw [map_eq_pure_bind]
    rfl
  rw [ScopedParser.Reads, eq]
  exact .map (hp.mono h)

/-- A parser without a scope leaves the scope as it is. -/
theorem lift_bind {p : Parser β} {S : β → Prop} {f : β → ScopedParser α}
    (hp : p.Reads Ahead body false Next S)
    (hf : ∀ b, S b → (f b).Reads Ahead body takes (fun _ => True) scope P) :
    ((liftM p : ScopedParser β) >>= f).Reads Ahead body takes Next scope P := by
  rw [ScopedParser.Reads, run_lift_bind]
  exact .bind hp hf

/-- As `Parser.Outcome.fail`, in a scope. -/
theorem fail {fault : SyntaxFault}
    (h : ∀ t, Next t → t.kind ≠ .error → ∀ message, fault ≠ .marker message) :
    ScopedParser.Reads Ahead body takes Next (liftM (Parser.fail fault : Parser α)) scope P :=
  lifted (S := fun _ => False) (.fail h) fun _ h => h.elim

/-- Nothing is read behind a failure. -/
theorem fail_bind {fault : SyntaxFault} {f : β → ScopedParser α}
    (h : ∀ t, Next t → t.kind ≠ .error → ∀ message, fault ≠ .marker message) :
    ((liftM (Parser.fail fault) : ScopedParser β) >>= f).Reads Ahead body takes Next scope P :=
  .bindTaken (R := fun _ _ => False) (fail h) fun _ _ h => h.elim

/-- As `Reads.fail_bind`, for a failure on a line of its own. -/
theorem failOn_bind {line : LineNumber} {fault : SyntaxFault} {f : β → ScopedParser α}
    (h : ∀ message, fault ≠ .marker message) :
    ((liftM (Parser.failOn line fault) : ScopedParser β) >>= f).Reads Ahead body takes
      Next scope P :=
  .bindTaken (R := fun _ _ => False)
    (lifted (S := fun _ => False) (.failOn h) fun _ h => h.elim) fun _ _ h => h.elim

/-- Behind a look at the next token, the token is known, and it is ahead unless it is the end. -/
theorem peek_bind {f : Token → ScopedParser α}
    (h : ∀ t, Next t → (t.kind ≠ .eof → Ahead t) →
      (f t).Reads Ahead body takes (· = t) scope P) :
    ((liftM Parser.peek : ScopedParser Token) >>= f).Reads Ahead body takes Next scope P := by
  rw [ScopedParser.Reads, run_lift_bind]
  exact .peek h

/-- Behind a token that may be taken, something has been. -/
theorem advance_bind {f : Token → ScopedParser α} (taken : ∀ t, Next t → t.Takeable body)
    (h : ∀ t, Next t → (f t).Reads Ahead body false (fun _ => True) scope P) :
    ((liftM Parser.advance : ScopedParser Token) >>= f).Reads Ahead body takes Next scope P := by
  rw [ScopedParser.Reads, run_lift_bind]
  exact .advance taken h

/-- As `Parser.Reads.sees_bind` -/
theorem sees_bind {f : Bool → ScopedParser α}
    (h : ∀ t, Next t → (f (t.is s)).Reads Ahead body takes (· = t) scope P) :
    ((liftM (Parser.sees s) : ScopedParser Bool) >>= f).Reads Ahead body takes Next scope P := by
  rw [ScopedParser.Reads, run_lift_bind]
  exact .sees_bind h

/-- As `Parser.Reads.accept_bind` -/
theorem accept_bind {f : Bool → ScopedParser α} (free : s ∉ Token.reserved body)
    (hyes : (f true).Reads Ahead body false (fun _ => True) scope P)
    (hno : (f false).Reads Ahead body takes Next scope P) :
    ((liftM (Parser.accept s) : ScopedParser Bool) >>= f).Reads Ahead body takes Next scope P := by
  rw [ScopedParser.Reads, run_lift_bind]
  exact .accept_bind free hyes hno

/-- As `Parser.Reads.expect_bind` -/
theorem expect_bind {f : Unit → ScopedParser α} (free : s ∉ Token.reserved body)
    (h : (f ()).Reads Ahead body false (fun _ => True) scope P) :
    ((liftM (Parser.expect s) : ScopedParser Unit) >>= f).Reads Ahead body takes Next scope P := by
  rw [ScopedParser.Reads, run_lift_bind]
  exact .expect_bind free h

/-- As `Parser.Reads.name_bind` -/
theorem name_bind {f : Token → ScopedParser α}
    (h : ∀ t, Ahead t → isName t = true → (f t).Reads Ahead body false (fun _ => True) scope P) :
    ((liftM Parser.name : ScopedParser Token) >>= f).Reads Ahead body takes Next scope P := by
  rw [ScopedParser.Reads, run_lift_bind]
  exact .name_bind h

/-- Tokens that may be taken may be skipped. -/
theorem skipWhile_bind {p : Token → Bool} {f : Unit → ScopedParser α}
    (taken : ∀ t, p t = true → t.Takeable body)
    (h : (f ()).Reads Ahead body takes (fun _ => True) scope P) :
    ((liftM (Parser.skipWhile p) : ScopedParser Unit) >>= f).Reads Ahead body takes
      Next scope P := by
  rw [ScopedParser.Reads, run_lift_bind]
  exact .bind (.skipWhile taken) fun _ _ => h

/-- A branch on the end of the source, where the next token is known on each side. -/
theorem atEnd_bind {p q : ScopedParser α}
    (hp : ∀ t, Next t → t.kind = .eof → p.Reads Ahead body takes (· = t) scope P)
    (hq : ∀ t, Next t → t.kind ≠ .eof → q.Reads Ahead body takes (· = t) scope P) :
    ((getThe Cursor : ScopedParser Cursor) >>= fun c => if c.atEnd then p else q).Reads
      Ahead body takes Next scope P := by
  have eq :
      ((getThe Cursor : ScopedParser Cursor) >>= fun c => if c.atEnd then p else q).run scope =
      Parser.peek >>= fun t => (if t.kind == .eof then p else q).run scope := rfl
  rw [ScopedParser.Reads, eq]
  refine .peek fun t next _ => ?_
  split
  next h => exact hp t next (beq_iff_eq.mp h)
  next h => exact hq t next fun eof => h (beq_iff_eq.mpr eof)

/-- A branch on an empty list of parameters, which begins with `void` -/
theorem voidList_bind {p : ScopedParser α} {q : Bool → ScopedParser α}
    (hp : ∀ t, t.is "void" = true → p.Reads Ahead body takes (· = t) scope P)
    (hq : ∀ t, Next t → (q (t.is s)).Reads Ahead body takes (· = t) scope P) :
    ((getThe Cursor : ScopedParser Cursor) >>= fun c =>
      (liftM (Parser.sees s) : ScopedParser Bool) >>= fun b =>
        if isVoidList c.ahead then p else q b).Reads Ahead body takes Next scope P := by
  refine Parser.Reads.voidList (f := fun void => ((liftM (Parser.sees s) : ScopedParser Bool) >>=
    fun b => if void then p else q b).run scope) (fun t is => ?_) ?_
  · refine sees_bind ?_
    rintro t' rfl
    exact hp t' is
  · exact sees_bind hq

/-- A loop bounded by the tokens ahead reads as it does under every bound that is long enough. -/
theorem bounded_bind {loop : List Token → ScopedParser β} {f : β → ScopedParser α}
    (bounded : Parser.Bounded Ahead fun bound => (loop bound).run scope)
    (h : ∀ bound, (loop bound >>= f).Reads Ahead body takes Next scope P) :
    ((getThe Cursor : ScopedParser Cursor) >>= fun c => loop c.ahead >>= f).Reads
      Ahead body takes Next scope P := by
  have eq : ((getThe Cursor : ScopedParser Cursor) >>= fun c => loop c.ahead >>= f).run scope =
      (MonadState.get : Parser Cursor) >>= fun c => (loop c.ahead >>= f).run scope := rfl
  rw [ScopedParser.Reads, eq]
  exact .bounded (bounded.bind fun r => (f r.1).run r.2) h

/-- As `Parser.Reads.refuseUnsupported_bind` -/
theorem refuseUnsupported_bind {f : Unit → ScopedParser α}
    (h : (f ()).Reads Ahead body takes Next scope P) :
    ((liftM Parser.refuseUnsupported : ScopedParser Unit) >>= f).Reads
      Ahead body takes Next scope P := by
  rw [ScopedParser.Reads, run_lift_bind]
  exact .refuseUnsupported_bind h

end ScopedParser.Reads

end Grammar

end BareC
