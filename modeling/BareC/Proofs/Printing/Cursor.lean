import BareC.Proofs.Printing.Resolving

/-!
# Readers of printed tokens

What a parser does with the tokens of something printed is known in full: if the limits allow it, it
takes exactly these tokens and returns what was printed, and otherwise it fails. Both are carried
along together, so that the limits that are asked for are the ones that are checked.

`Takes` has the limits as a proposition, and the rules conjoin the propositions of the parts. So
what is found at the end is an exact condition, from which a failure follows as well as a success.
Which diagnostic a failure gives is not part of it.
-/

namespace BareC

/-! ## Printed tokens ahead -/

namespace Grammar.Cursor

/-- The place in front of some more tokens. -/
def before (ts : List Token) (c : Cursor) : Cursor :=
  ⟨ts ++ c.ahead, c.depth⟩

@[simp]
theorem before_nil (c : Cursor) : c.before [] = c := rfl

/-- A cursor before two lists is before the first, before the second. -/
@[simp]
theorem before_append (ts us : List Token) (c : Cursor) :
    c.before (ts ++ us) = (c.before us).before ts := by
  simp only [before, List.append_assoc]

@[simp]
theorem next_before (t : Token) (ts : List Token) (c : Cursor) :
    (c.before (t :: ts)).next = t := rfl

/-- The place behind an opening brace. -/
def inside (c : Cursor) : Cursor :=
  { c with depth := c.depth + 1 }

end Grammar.Cursor

/-- A token that is neither a brace nor the end of the source. -/
structure Token.Plain (t : Token) : Prop where
  kind : t.kind ≠ .eof
  opening : t.is "\x7b" = false
  closing : t.is "\x7d" = false

namespace Grammar

/-- Moving on takes the first token. -/
theorem Cursor.advance_before {t : Token} (plain : t.Plain) (ts : List Token) (c : Cursor) :
    (c.before (t :: ts)).advance = c.before ts := by
  simp only [before, advance, List.cons_append, depthAfter, plain.kind, plain.opening,
    plain.closing, if_false, Bool.false_eq_true]

/-! ## Parsers -/

/-- If `fits` holds, a parser takes the tokens from one place to another and returns a value, and
otherwise it fails. -/
structure Parser.Takes {α : Type} (p : Parser α) (c : Cursor) (fits : Prop) (a : α) (c' : Cursor) :
    Prop where
  ok : fits → p.run c = .ok (a, c')
  error : ¬fits → ∃ f, p.run c = .error f

namespace Parser.Takes

variable {α β : Type} {p q : Parser α} {c c' c'' : Cursor} {fits fits' : Prop} {a : α} {b : β}

theorem pure : (Pure.pure a : Parser α).Takes c True a c :=
  ⟨fun _ => rfl, fun h => absurd trivial h⟩

/-- A failure takes what does not fit. -/
theorem fail {fault : SyntaxFault} (h : ¬fits) :
    (Parser.fail fault : Parser α).Takes c fits a c' :=
  ⟨fun f => absurd f h, fun _ => ⟨_, rfl⟩⟩

/-- What fits may be said in another way. -/
theorem congr (h : p.Takes c fits a c') (iff : fits' ↔ fits) : p.Takes c fits' a c' :=
  ⟨fun f => h.ok (iff.mp f), fun f => h.error fun g => f (iff.mpr g)⟩

/-- What follows is read only if what comes first fits. -/
theorem chained {r : Parser β} {f : β → Parser α} (hr : r.Takes c fits b c')
    (hf : fits → (f b).Takes c' fits' a c'') : (r >>= f).Takes c (fits ∧ fits') a c'' := by
  constructor
  · rintro ⟨first, second⟩
    rw [StateT.run_bind, hr.ok first]
    exact (hf first).ok second
  · intro unfit
    rw [StateT.run_bind]
    by_cases first : fits
    · rw [hr.ok first]
      exact (hf first).error fun second => unfit ⟨first, second⟩
    · obtain ⟨failure, failed⟩ := hr.error first
      exact ⟨failure, by rw [failed]; rfl⟩

/-- Two parsers in a row take what fits both. -/
theorem bind {r : Parser β} {f : β → Parser α} (hr : r.Takes c fits b c')
    (hf : (f b).Takes c' fits' a c'') : (r >>= f).Takes c (fits ∧ fits') a c'' :=
  chained hr fun _ => hf

/-- A step that always succeeds. -/
theorem step {r : Parser β} {f : β → Parser α} (hr : r.run c = .ok (b, c'))
    (hf : (f b).Takes c' fits a c'') : (r >>= f).Takes c fits a c'' := by
  have first : r.Takes c True b c' := ⟨fun _ => hr, fun h => absurd trivial h⟩
  refine (bind first hf).congr ?_
  rw [true_and]

/-- What follows always succeeds. -/
theorem followed {r : Parser β} {f : β → Parser α} (hr : r.Takes c fits b c')
    (hf : (f b).Takes c' True a c'') : (r >>= f).Takes c fits a c'' :=
  (bind hr hf).congr (iff_of_eq (and_true _)).symm

/-- A choice takes what its branch does. -/
theorem pos {d : Prop} [Decidable d] (h : d) (hp : p.Takes c fits a c') :
    (if d then p else q).Takes c fits a c' := by
  rwa [if_pos h]

/-- As `Takes.pos`, for the other branch. -/
theorem neg {d : Prop} [Decidable d] (h : ¬d) (hq : q.Takes c fits a c') :
    (if d then p else q).Takes c fits a c' := by
  rwa [if_neg h]

end Parser.Takes

/-- The same of a parser that may declare variables. -/
def ScopedParser.Takes {α : Type} (p : ScopedParser α) (scope : Scope) (c : Cursor) (fits : Prop)
    (a : α) (scope' : Scope) (c' : Cursor) : Prop :=
  (p.run scope).Takes c fits (a, scope') c'

namespace ScopedParser.Takes

variable {α β : Type} {p q : ScopedParser α} {c c' c'' : Cursor} {fits fits' : Prop} {a : α} {b : β}
  {scope scope' scope'' : Scope}

theorem pure : (Pure.pure a : ScopedParser α).Takes scope c True a scope c :=
  Parser.Takes.pure

/-- As `Parser.Takes.fail` -/
theorem fail {fault : SyntaxFault} (h : ¬fits) :
    (liftM (Parser.fail fault : Parser α) : ScopedParser α).Takes scope c fits a scope' c' :=
  ⟨fun f => absurd f h, fun _ => ⟨_, rfl⟩⟩

/-- As `Parser.Takes.congr` -/
theorem congr (h : p.Takes scope c fits a scope' c') (iff : fits' ↔ fits) :
    p.Takes scope c fits' a scope' c' :=
  Parser.Takes.congr h iff

/-- As `Parser.Takes.bind` -/
theorem chained {r : ScopedParser β} {f : β → ScopedParser α}
    (hr : r.Takes scope c fits b scope' c')
    (hf : fits → (f b).Takes scope' c' fits' a scope'' c'') :
    (r >>= f).Takes scope c (fits ∧ fits') a scope'' c'' :=
  Parser.Takes.chained (r := r.run scope) (f := fun r => (f r.1).run r.2) hr hf

/-- As `Takes.chained`, where the second always fits. -/
theorem followed {r : ScopedParser β} {f : β → ScopedParser α}
    (hr : r.Takes scope c fits b scope' c') (hf : (f b).Takes scope' c' True a scope'' c'') :
    (r >>= f).Takes scope c fits a scope'' c'' :=
  Parser.Takes.followed (r := r.run scope) (f := fun r => (f r.1).run r.2) hr hf

/-- A parser that knows no scope leaves it as it is. -/
theorem lifted {r : Parser α} (hr : r.Takes c fits a c') :
    (liftM r : ScopedParser α).Takes scope c fits a scope c' := by
  show Parser.Takes (r >>= fun a => Pure.pure (a, scope)) _ _ _ _
  exact .followed hr .pure

/-- A step on tokens alone that always succeeds. -/
theorem step {r : Parser β} {f : β → ScopedParser α} (hr : r.run c = .ok (b, c'))
    (hf : (f b).Takes scope c' fits a scope' c'') :
    ((liftM r : ScopedParser β) >>= f).Takes scope c fits a scope' c'' := by
  have first : (liftM r : ScopedParser β).Takes scope c True b scope c' :=
    lifted ⟨fun _ => hr, fun h => absurd trivial h⟩
  refine (chained first fun _ => hf).congr ?_
  rw [true_and]

/-- Looking at the scope takes nothing. -/
theorem get {f : Scope → ScopedParser α} (hf : (f scope).Takes scope c fits a scope' c') :
    ((MonadState.get : ScopedParser Scope) >>= f).Takes scope c fits a scope' c' :=
  hf

/-- A function of the result takes what the parser does. -/
theorem map {r : ScopedParser β} {f : β → α} (hr : r.Takes scope c fits b scope' c') :
    (f <$> r).Takes scope c fits (f b) scope' c' := by
  rw [map_eq_pure_bind]
  exact followed (f := fun b => Pure.pure (f b)) hr pure

/-- As `Parser.Takes.pos` -/
theorem pos {d : Prop} [Decidable d] (h : d) (hp : p.Takes scope c fits a scope' c') :
    (if d then p else q).Takes scope c fits a scope' c' := by
  rwa [if_pos h]

/-- As `Parser.Takes.neg` -/
theorem neg {d : Prop} [Decidable d] (h : ¬d) (hq : q.Takes scope c fits a scope' c') :
    (if d then p else q).Takes scope c fits a scope' c' := by
  rwa [if_neg h]

/-- The variables of a block are forgotten. -/
theorem inBlock (hp : p.Takes scope c fits a scope' c') :
    (Grammar.inBlock p).Takes scope c fits a { scope' with vars := scope.vars } c' := by
  refine get (followed hp ?_)
  exact ⟨fun _ => rfl, fun h => absurd trivial h⟩

end ScopedParser.Takes

/-! ## Single tokens -/

section Tokens

variable {c : Cursor} {t : Token} {ts : List Token} {s : String}

theorem run_peek : Parser.peek.run c = .ok (c.next, c) := rfl

theorem run_get : (get : Parser Cursor).run c = .ok (c, c) := rfl

theorem run_advance (plain : t.Plain) :
    Parser.advance.run (c.before (t :: ts)) = .ok (t, c.before ts) := by
  rw [← Cursor.advance_before plain ts c]
  rfl

theorem run_sees : (Parser.sees s).run c = .ok (c.next.is s, c) := rfl

/-- An optional token that is not there is not taken. -/
theorem run_accept_of_not (h : c.next.is s = false) : (Parser.accept s).run c = .ok (false, c) := by
  rw [Parser.accept, StateT.run_bind, run_sees, h]
  rfl

/-- An optional token that is there is taken. -/
theorem run_accept (h : t.is s = true) (plain : t.Plain) :
    (Parser.accept s).run (c.before (t :: ts)) = .ok (true, c.before ts) := by
  rw [Parser.accept, StateT.run_bind, run_sees, Cursor.next_before, h]
  show (Parser.advance >>= fun _ => Pure.pure true).run (c.before (t :: ts)) = _
  rw [StateT.run_bind, run_advance plain]
  rfl

/-- A token that is expected and there is taken. -/
theorem run_expect (h : t.is s = true) (plain : t.Plain) :
    (Parser.expect s).run (c.before (t :: ts)) = .ok ((), c.before ts) := by
  rw [Parser.expect, StateT.run_bind, run_accept h plain]
  rfl

/-- Nothing is skipped where the next token fails the test. -/
theorem run_skipWhile {p : Token → Bool} (h : p c.next = false) (some : c.ahead ≠ []) :
    (Parser.skipWhile p).run c = .ok ((), c) := by
  obtain ⟨ahead, depth⟩ := c
  cases ahead with
  | nil => exact absurd rfl some
  | cons t ts =>
    have stays : (t :: ts).dropWhile p = t :: ts :=
      List.dropWhile_cons_of_neg (Bool.eq_false_iff.mp h)
    show Except.ok ((), (⟨(t :: ts).dropWhile p, depth⟩ : Cursor)) = _
    rw [stays]

variable {α : Type} {table : List (String × α)}

theorem run_seesOne :
    (Parser.seesOne table).run c =
      .ok ((table.find? fun entry => c.next.is entry.1).map (·.2), c) := rfl

/-- No operator of a table is taken where none stands. -/
theorem run_acceptOne_of_none (h : (table.find? fun entry => c.next.is entry.1) = none) :
    (Parser.acceptOne table).run c = .ok (none, c) := by
  rw [Parser.acceptOne, StateT.run_bind, run_peek]
  dsimp only [bind, Except.bind]
  rw [h]
  rfl

/-- The operator that stands there is taken. -/
theorem run_acceptOne {entry : String × α}
    (h : (table.find? fun entry => t.is entry.1) = some entry) (plain : t.Plain) :
    (Parser.acceptOne table).run (c.before (t :: ts)) = .ok (some entry.2, c.before ts) := by
  rw [Parser.acceptOne, StateT.run_bind, run_peek, Cursor.next_before]
  dsimp only [bind, Except.bind]
  rw [h]
  show (Parser.advance >>= fun _ => Pure.pure (some entry.2)).run (c.before (t :: ts)) = _
  rw [StateT.run_bind, run_advance plain]
  rfl

end Tokens

/-! ## Signs and names -/

open Named (sign word literal)

/-- A sign that is no brace is plain. -/
theorem plain_sign {line : LineNumber} {s : String} (h : s ∉ ["\x7b", "\x7d"]) :
    (sign line s).Plain where
  kind := Token.Kind.noConfusion
  opening := by
    refine Bool.eq_false_iff.mpr fun eq => h ?_
    rw [show s = "\x7b" from eq_of_beq eq]
    exact List.mem_cons_self
  closing := by
    refine Bool.eq_false_iff.mpr fun eq => h ?_
    rw [show s = "\x7d" from eq_of_beq eq]
    exact List.mem_cons_of_mem _ List.mem_cons_self

/-- A word is plain. -/
theorem plain_word {line : LineNumber} {s : String} (h : s ∉ ["\x7b", "\x7d"]) :
    (word line s).Plain := by
  have same : (sign line s).Plain := plain_sign h
  exact ⟨Token.Kind.noConfusion, same.opening, same.closing⟩

variable (line : LineNumber) (name : Named.Name)

/-- A name is spelled like no operator and like no keyword. -/
theorem is_name {s : String} (h : Named.isNameText s = false) :
    (word line name.text).is s = false := by
  refine Bool.eq_false_iff.mpr fun eq => ?_
  have valid := name.valid
  rw [show name.text = s from eq_of_beq eq, h] at valid
  exact Bool.false_ne_true valid

/-- A name is plain. -/
theorem plain_name : (word line name.text).Plain :=
  ⟨Token.Kind.noConfusion, is_name line name (by decide),
    is_name line name (by decide)⟩

/-- A name is read as one. -/
theorem isName_name : isName (word line name.text) = true := by
  have valid := name.valid
  rw [Named.isNameText] at valid
  split at valid
  next => exact absurd valid Bool.false_ne_true
  next =>
    rw [Bool.and_eq_true] at valid
    exact valid.2

/-- A name is no keyword. -/
theorem find?_name {α : Type} {table : List (String × α)}
    (h : ∀ entry ∈ table, Named.isNameText entry.1 = false) :
    (table.find? fun entry => (word line name.text).is entry.1) = none :=
  List.find?_eq_none.mpr fun entry mem => by
    rw [is_name line name (h entry mem)]
    exact Bool.false_ne_true

/-- A name is taken as its token. -/
theorem run_name {ts : List Token} {c : Cursor} :
    Parser.name.run (c.before (word line name.text :: ts)) =
      .ok (word line name.text, c.before ts) := by
  rw [Parser.name, StateT.run_bind, run_peek, Cursor.next_before]
  dsimp only [bind, Except.bind]
  rw [isName_name]
  exact run_advance (plain_name line name)

end Grammar

end BareC
