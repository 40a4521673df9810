import BareC.Proofs.Renaming.Names

/-!
# Parsers that do not look at names

`Parser.Renames r m p q` relates two parsers across a renaming: in front of renamed tokens `q`
succeeds or fails as `p` does, at the same place, with its value mapped by `m` and the names of its
diagnostic renamed. The relation has a rule for every way in which parsers are put together, so that
a parser that only asks of a token what a renaming does not change is related to itself.

A parser that compares the text of a name with another text is not related to itself, except where
the other is a keyword or a sign. Names are looked up in the scope and among the declarations, and
those places have lemmas of their own, since the tables are renamed along with the tokens.
-/

namespace BareC.Grammar

/-! ## Places -/

/-- The place in front of the renamed tokens. -/
def Cursor.rename (r : Renaming) (c : Cursor) : Cursor :=
  ⟨c.ahead.map (Token.rename r), c.depth⟩

def Failure.rename (r : Renaming) (f : Failure) : Failure :=
  ⟨f.diagnostic.rename r, f.cursor.rename r⟩

/-- The variables under their new names. -/
def Variables.rename (r : Renaming) (vars : Variables) : Variables :=
  vars.map fun v => (r v.1, v.2)

def Scope.rename (r : Renaming) (scope : Scope) : Scope :=
  { scope with vars := scope.vars.rename r }

variable (r : Renaming)

namespace Cursor

variable (c : Cursor)

/-- The next token, renamed. -/
@[simp]
theorem next_rename : (c.rename r).next = c.next.rename r := by
  obtain ⟨_ | ⟨t, ts⟩, depth⟩ := c <;> rfl

@[simp]
theorem atEnd_rename : (c.rename r).atEnd = c.atEnd := by
  rw [atEnd, atEnd, next_rename, Token.kind_rename]

theorem depthAfter_rename (depth : Nat) (t : Token) :
    depthAfter depth (t.rename r) = depthAfter depth t := by
  rw [depthAfter, depthAfter, Token.is_rename r t (by decide), Token.is_rename r t (by decide)]

/-- Moving on may be done before the renaming or after it. -/
@[simp]
theorem advance_rename : (c.rename r).advance = c.advance.rename r := by
  obtain ⟨_ | ⟨t, ts⟩, depth⟩ := c
  · rfl
  · simp only [rename, advance, List.map_cons, Token.kind_rename, depthAfter_rename]
    split <;> rfl

/-- Cutting a source at its end may be done before the renaming or after it. -/
theorem cut_rename (line : LineNumber) (ts : List Token) :
    cut line (ts.map (Token.rename r)) = (cut line ts).map (Token.rename r) := by
  induction ts generalizing line with
  | nil => rfl
  | cons t ts ih =>
    simp only [List.map_cons, cut, Token.kind_rename, Token.line_rename, ih]
    split <;> rfl

@[simp]
theorem ofTokens_map_rename (ts : List Token) :
    ofTokens (ts.map (Token.rename r)) = (ofTokens ts).rename r := by
  rw [ofTokens, cut_rename]
  rfl

end Cursor

/-- A name is found under its new name. -/
theorem lookup_rename {α : Type} (l : List (String × α)) (s : String) :
    (l.map fun v => (r v.1, v.2)).lookup (r s) = l.lookup s := by
  induction l with
  | nil => rfl
  | cons v l ih =>
    obtain ⟨name, a⟩ := v
    rw [List.map_cons, List.lookup_cons, List.lookup_cons, r.apply_beq, ih]

/-! ## The relation -/

namespace Parser

variable {r} {α β γ δ : Type} {m : α → β} {n : γ → δ}

/-- What a parser answers, renamed. -/
def renamed (r : Renaming) (m : α → β) : Except Failure (α × Cursor) → Except Failure (β × Cursor)
  | .ok (a, c) => .ok (m a, c.rename r)
  | .error f => .error (f.rename r)

/-- In front of renamed tokens `q` does what `p` does. -/
def Renames (r : Renaming) (m : α → β) (p : Parser α) (q : Parser β) : Prop :=
  ∀ c : Cursor, q.run (c.rename r) = renamed r m (p.run c)

namespace Renames

theorem pure (a : α) : Renames r m (Pure.pure a) (Pure.pure (m a)) := fun _ => rfl

/-- Something is known of the values of the first parser. -/
theorem bind_of {V : γ → Prop} {p : Parser γ} {q : Parser δ} {f : γ → Parser α} {g : δ → Parser β}
    (hp : Renames r n p q) (value : ∀ c a, p.run c = .ok a → V a.1)
    (hf : ∀ a, V a → Renames r m (f a) (g (n a))) : Renames r m (p >>= f) (q >>= g) := by
  intro c
  rw [StateT.run_bind, StateT.run_bind, hp c]
  cases found : p.run c with
  | error => rfl
  | ok a => exact hf a.1 (value c a found) a.2

/-- Renaming parsers in a row rename. -/
theorem bind {p : Parser γ} {q : Parser δ} {f : γ → Parser α} {g : δ → Parser β}
    (hp : Renames r n p q) (hf : ∀ a, Renames r m (f a) (g (n a))) :
    Renames r m (p >>= f) (q >>= g) :=
  bind_of (V := fun _ => True) hp (fun _ _ _ => trivial) fun a _ => hf a

/-- So does a choice that does not look at names. -/
theorem ite {b b' : Prop} [Decidable b] [Decidable b'] {p p' : Parser α} {q q' : Parser β}
    (same : b' ↔ b) (hp : b → Renames r m p q) (hp' : ¬b → Renames r m p' q') :
    Renames r m (if b then p else p') (if b' then q else q') := by
  by_cases h : b
  · rw [if_pos h, if_pos (same.mpr h)]
    exact hp h
  · rw [if_neg h, if_neg fun h' => h (same.mp h')]
    exact hp' h

theorem get : Renames r (Cursor.rename r) MonadState.get MonadState.get := fun _ => rfl

theorem peek : Renames r (Token.rename r) Parser.peek Parser.peek := fun c =>
  congrArg (fun t => Except.ok (t, c.rename r)) (c.next_rename r)

theorem advance : Renames r (Token.rename r) Parser.advance Parser.advance := fun c => by
  show Except.ok ((c.rename r).next, (c.rename r).advance) =
    .ok (c.next.rename r, c.advance.rename r)
  rw [Cursor.next_rename, Cursor.advance_rename]

theorem failOn (line : LineNumber) (fault : SyntaxFault) :
    Renames r m (Parser.failOn line fault) (Parser.failOn line (fault.rename r)) := fun _ => rfl

/-- The fault of a failure is renamed with it. -/
theorem fail (fault : SyntaxFault) :
    Renames r m (Parser.fail fault) (Parser.fail (fault.rename r)) := by
  refine peek.bind fun t => ?_
  by_cases marker : t.kind = .error
  · have same : t.rename r = t :=
      Token.rename_of_ne r fun ident => by rw [ident] at marker; cases marker
    rw [same, if_pos marker, if_pos marker]
    exact failOn t.line (.marker t.text)
  · rw [Token.kind_rename, Token.line_rename, if_neg marker, if_neg marker]
    exact failOn t.line fault

/-- Where a failure quotes no name. -/
theorem fail_of_eq {fault : SyntaxFault} (same : fault.rename r = fault) :
    Renames r m (Parser.fail fault) (Parser.fail fault) := by
  have renames := fail (r := r) (m := m) fault
  rwa [same] at renames

/-- Nothing has to be renamed behind a failure that names nothing. -/
theorem fail_bind {fault : SyntaxFault} (same : fault.rename r = fault) {f : γ → Parser α}
    {g : δ → Parser β} :
    Renames r m (Parser.fail fault >>= f) (Parser.fail fault >>= g) := fun c => by
  have fails : ∀ {ε : Type} (c : Cursor), (Parser.fail fault : Parser ε).run c =
      .error ⟨⟨if c.next.kind = .error then .marker c.next.text else fault, c.next.line⟩, c⟩ :=
    fun _ => rfl
  have renames := fail_of_eq (r := r) (m := (id : PUnit → PUnit)) same c
  rw [StateT.run_bind, StateT.run_bind, fails, fails]
  rw [fails, fails] at renames
  exact congrArg Except.error (Except.error.inj renames)

/-- A look at the next token renames, where no name is asked for. -/
theorem sees {s : String} (h : NoName s) : Renames r id (Parser.sees s) (Parser.sees s) :=
  peek.bind fun t => by
    rw [Token.is_rename r t h]
    exact .pure _

/-- As `Renames.sees`, for an optional token. -/
theorem accept {s : String} (h : NoName s) : Renames r id (Parser.accept s) (Parser.accept s) :=
  (sees h).bind fun _ =>
    .ite Iff.rfl (fun _ => advance.bind fun _ => .pure true) fun _ => .pure false

/-- As `Renames.sees`, for a token expected. -/
theorem expect {s : String} (h : NoName s) : Renames r id (Parser.expect s) (Parser.expect s) :=
  (accept h).bind fun _ => .ite Iff.rfl (fun _ => .pure ()) fun _ => fail_of_eq rfl

/-- A test that does not look at names skips alike. -/
theorem skipWhile {p : Token → Bool} (h : ∀ t, p (t.rename r) = p t) :
    Renames r id (Parser.skipWhile p) (Parser.skipWhile p) := fun c => by
  show Except.ok ((), (⟨(c.rename r).ahead.dropWhile p, c.depth⟩ : Cursor)) =
    .ok ((), (⟨c.ahead.dropWhile p, c.depth⟩ : Cursor).rename r)
  have same : p ∘ Token.rename r = p := funext h
  simp only [Cursor.rename, List.dropWhile_map, same]

/-- A name is taken as the renamed one. -/
theorem name_bind {f : Token → Parser α} {g : Token → Parser β}
    (h : ∀ t, isName t = true → Renames r m (f t) (g (t.rename r))) :
    Renames r m (Parser.name >>= f) (Parser.name >>= g) := by
  have name : Renames r (Token.rename r) Parser.name Parser.name := peek.bind fun t =>
    .ite (by rw [Token.isName_rename]) (fun _ => advance) fun _ => fail_of_eq rfl
  refine bind_of name (fun c t found => ?_) h
  have run : Parser.name.run c =
    (if isName c.next then Parser.advance else Parser.fail .expectedIdentifier :
    Parser Token).run c := rfl
  rw [run] at found
  split at found
  next isName =>
    cases found
    exact isName
  next => cases found

/-- The refusal of an unsupported word looks at no name. -/
theorem refuseUnsupported : Renames r id Parser.refuseUnsupported Parser.refuseUnsupported :=
  peek.bind fun t => by
    rw [Token.unsupportedWord?_rename]
    cases unsupportedWord? t with
    | none => exact .pure ()
    | some word => exact fail_of_eq rfl

section

variable {ε : Type} {table : List (String × ε)}

/-- A table that holds no names accepts alike. -/
theorem acceptOne_bind {f : Option ε → Parser α} {g : Option ε → Parser β}
    (noNames : ∀ entry ∈ table, NoName entry.1)
    (yes : ∀ entry ∈ table, Renames r m (f (some entry.2)) (g (some entry.2)))
    (no : Renames r m (f none) (g none)) :
    Renames r m (Parser.acceptOne table >>= f) (Parser.acceptOne table >>= g) := by
  rw [Parser.acceptOne, bind_assoc, bind_assoc]
  refine peek.bind fun t => ?_
  rw [Token.find?_is_rename r t noNames]
  cases found : table.find? fun entry => t.is entry.1 with
  | none => exact no
  | some entry =>
    show Renames r m (Parser.advance >>= fun _ => f (some entry.2))
      (Parser.advance >>= fun _ => g (some entry.2))
    exact advance.bind fun _ => yes entry (List.mem_of_find?_eq_some found)

/-- As `Renames.acceptOne_bind`, the cursor staying where it is. -/
theorem seesOne_bind {f : Option ε → Parser α} {g : Option ε → Parser β}
    (noNames : ∀ entry ∈ table, NoName entry.1)
    (yes : ∀ entry ∈ table, Renames r m (f (some entry.2)) (g (some entry.2)))
    (no : Renames r m (f none) (g none)) :
    Renames r m (Parser.seesOne table >>= f) (Parser.seesOne table >>= g) := by
  rw [Parser.seesOne, bind_assoc, bind_assoc]
  refine peek.bind fun t => ?_
  rw [Token.find?_is_rename r t noNames]
  cases found : table.find? fun entry => t.is entry.1 with
  | none => exact no
  | some entry => exact yes entry (List.mem_of_find?_eq_some found)

end

end Renames

end Parser

/-! ## Parsers that declare variables -/

namespace ScopedParser

variable {r} {α β γ δ : Type} {m : α → β} {n : γ → δ}

/-- In front of renamed tokens, and with renamed variables, `q` does what `p` does. -/
def Renames (r : Renaming) (m : α → β) (p : ScopedParser α) (q : ScopedParser β) : Prop :=
  ∀ scope : Scope,
    Parser.Renames r (Prod.map m (Scope.rename r)) (p.run scope) (q.run (scope.rename r))

namespace Renames

theorem pure (a : α) : Renames r m (Pure.pure a) (Pure.pure (m a)) := fun _ _ => rfl

/-- As `Parser.Renames.bind` -/
theorem bind {p : ScopedParser γ} {q : ScopedParser δ} {f : γ → ScopedParser α}
    {g : δ → ScopedParser β} (hp : Renames r n p q) (hf : ∀ a, Renames r m (f a) (g (n a))) :
    Renames r m (p >>= f) (q >>= g) := by
  intro scope
  rw [StateT.run_bind, StateT.run_bind]
  exact (hp scope).bind fun a => hf a.1 a.2

/-- A function of the result renames, where it commutes with the renaming. -/
theorem map {f : γ → α} {g : δ → β} {p : ScopedParser γ} {q : ScopedParser δ} (hp : Renames r n p q)
    (same : ∀ a, g (n a) = m (f a)) : Renames r m (f <$> p) (g <$> q) := by
  rw [map_eq_pure_bind, map_eq_pure_bind]
  exact hp.bind fun a => same a ▸ .pure (f a)

/-- As `Parser.Renames.ite` -/
theorem ite {b b' : Prop} [Decidable b] [Decidable b'] {p p' : ScopedParser α}
    {q q' : ScopedParser β} (same : b' ↔ b) (hp : b → Renames r m p q)
    (hp' : ¬b → Renames r m p' q') :
    Renames r m (if b then p else p') (if b' then q else q') := by
  by_cases h : b
  · rw [if_pos h, if_pos (same.mpr h)]
    exact hp h
  · rw [if_neg h, if_neg fun h' => h (same.mp h')]
    exact hp' h

/-- A parser that knows no scope. -/
theorem lift {p : Parser α} {q : Parser β} (hp : p.Renames r m q) :
    Renames r m (liftM p) (liftM q) := by
  intro scope
  show Parser.Renames r _ (p >>= fun a => Pure.pure (a, scope)) (q >>= fun b =>
    Pure.pure (b, scope.rename r))
  exact hp.bind fun a => .pure (a, scope)

/-- As `Parser.Renames.fail_bind`, the fault being renamed with it. -/
theorem failOn_bind {line : LineNumber} {fault : SyntaxFault} {f : γ → ScopedParser α}
    {g : δ → ScopedParser β} :
    Renames r m ((liftM (Parser.failOn line fault) : ScopedParser γ) >>= f)
      ((liftM (Parser.failOn line (fault.rename r)) : ScopedParser δ) >>= g) := fun _ _ => rfl

/-- As `Parser.Renames.fail_bind` -/
theorem fail_bind {fault : SyntaxFault} (same : fault.rename r = fault) {f : γ → ScopedParser α}
    {g : δ → ScopedParser β} : Renames r m ((liftM (Parser.fail fault) : ScopedParser γ) >>= f)
      ((liftM (Parser.fail fault) : ScopedParser δ) >>= g) := by
  intro scope
  rw [run_lift_bind, run_lift_bind]
  exact .fail_bind same

theorem get : Renames r (Scope.rename r) MonadState.get MonadState.get := fun _ _ => rfl

/-- As `Parser.Renames.name_bind` -/
theorem name_bind {f : Token → ScopedParser α} {g : Token → ScopedParser β}
    (h : ∀ t, isName t = true → Renames r m (f t) (g (t.rename r))) :
    Renames r m ((liftM Parser.name : ScopedParser Token) >>= f)
      ((liftM Parser.name : ScopedParser Token) >>= g) := by
  intro scope
  rw [run_lift_bind, run_lift_bind]
  exact .name_bind fun t isName => h t isName scope

theorem getCursor : Renames r (Cursor.rename r) (getThe Cursor) (getThe Cursor) := fun _ _ => rfl

theorem set (scope : Scope) :
    Renames r (m := id) (MonadStateOf.set scope) (MonadStateOf.set (scope.rename r)) :=
  fun _ _ => rfl

/-- A change of the scope that commutes with the renaming. -/
theorem modify {f g : Scope → Scope} (same : ∀ scope, g (scope.rename r) = (f scope).rename r) :
    Renames r id (modifyThe Scope f) (modifyThe Scope g) := fun scope c =>
  congrArg (fun s => Except.ok (((), s), c.rename r)) (same scope)

end Renames

/-! ### Where the next token is known -/

/-- At one place, and in one scope, `q` does what `p` does. -/
def RenamesAt (r : Renaming) (m : α → β) (scope : Scope) (c : Cursor) (p : ScopedParser α)
    (q : ScopedParser β) : Prop :=
  (q.run (scope.rename r)).run (c.rename r) =
    Parser.renamed r (Prod.map m (Scope.rename r)) ((p.run scope).run c)

namespace RenamesAt

variable {scope : Scope} {c : Cursor}

/-- Parsers that rename everywhere do at each place. -/
theorem of_renames {p : ScopedParser α} {q : ScopedParser β} (h : Renames r m p q) :
    RenamesAt r m scope c p q :=
  h scope c

/-- As `Renames.ite`, at a place. -/
theorem ite {b b' : Prop} [Decidable b] [Decidable b'] {p p' : ScopedParser α}
    {q q' : ScopedParser β} (same : b' ↔ b) (hp : b → RenamesAt r m scope c p q)
    (hp' : ¬b → RenamesAt r m scope c p' q') :
    RenamesAt r m scope c (if b then p else p') (if b' then q else q') := by
  by_cases h : b
  · rw [if_pos h, if_pos (same.mpr h)]
    exact hp h
  · rw [if_neg h, if_neg fun h' => h (same.mp h')]
    exact hp' h

/-- Behind a look at the next token, the token is known. -/
theorem peek_bind {f : Token → ScopedParser α} {g : Token → ScopedParser β}
    (h : RenamesAt r m scope c (f c.next) (g (c.next.rename r))) :
    RenamesAt r m scope c ((liftM Parser.peek : ScopedParser Token) >>= f)
      ((liftM Parser.peek : ScopedParser Token) >>= g) := by
  show ((g (c.rename r).next).run (scope.rename r)).run (c.rename r) = _
  rw [Cursor.next_rename]
  exact h

/-- As `RenamesAt.peek_bind`, the token being taken. -/
theorem advance_bind {f : Token → ScopedParser α} {g : Token → ScopedParser β}
    (h : Renames r m (f c.next) (g (c.next.rename r))) :
    RenamesAt r m scope c ((liftM Parser.advance : ScopedParser Token) >>= f)
      ((liftM Parser.advance : ScopedParser Token) >>= g) := by
  show ((g (c.rename r).next).run (scope.rename r)).run (c.rename r).advance = _
  rw [Cursor.next_rename, Cursor.advance_rename]
  exact h scope c.advance

/-- A token that is not taken stays the next one. -/
theorem accept_bind {s : String} (noName : NoName s) {f : Bool → ScopedParser α}
    {g : Bool → ScopedParser β} (yes : Renames r m (f true) (g true))
    (no : RenamesAt r m scope c (f false) (g false)) :
    RenamesAt r m scope c ((liftM (Parser.accept s) : ScopedParser Bool) >>= f)
      ((liftM (Parser.accept s) : ScopedParser Bool) >>= g) := by
  rw [RenamesAt, run_lift_bind, run_lift_bind, Parser.run_accept_bind, Parser.run_accept_bind,
    Cursor.next_rename, Token.is_rename r _ noName, Cursor.advance_rename]
  split
  next => exact yes scope c.advance
  next => exact no

end RenamesAt

end ScopedParser

end BareC.Grammar
