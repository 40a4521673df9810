import BareC.Proofs.Grammar.Targets

/-!
# Parsers that keep a journal

The grammar is told how much is left of its limits. Here it is read in another way, with counters
that are raised where reading goes deeper and lowered where it comes back, whether with a result or
with a failure. They alone decide what is too deep. A journal holds them, with the most that they
have ever been, and it holds every operand that stood where something is assigned to.

`Journaled.Follows` says that a parser with a journal reads what one of the grammar reads, and
leaves the counters as it found them. It has a rule for each way in which parsers are put together.

The journal is an instrument. The parser of this library has no counters, and these parsers are not
run by it; they are shown to read the same, so that what the counters show can be said of it. Inside
a chain of operators the height stays raised until the chain ends, so it is up to each lemma whether
the height has come back (`back`); the nesting always has.
-/

namespace BareC.Grammar

/-! ## Journals -/

/-- What stood where something is assigned to. -/
structure Operand where
  /-- The variables in scope. -/
  vars : Variables
  tokens : List Token

/-- The operand is a variable, in parentheses or behind plus signs if at all. -/
def Operand.IsTarget (o : Operand) : Prop :=
  ∃ slot, Target true o.vars slot o.tokens

/-- What stands between two places. -/
def Operand.between (vars : Variables) (c c' : Cursor) : Operand :=
  ⟨vars, c.ahead.take (c.ahead.length - c'.ahead.length)⟩

/-- The tokens between two cursors are those that the second has passed. -/
theorem Operand.between_eq {vars : Variables} {c c' : Cursor} {ts : List Token}
    (ahead : c.ahead = ts ++ c'.ahead) : between vars c c' = ⟨vars, ts⟩ := by
  rw [between, ahead, List.length_append, Nat.add_sub_cancel, List.take_left]

/-- What is known of a reading besides its place. -/
structure Journal where
  /-- The parentheses, unary operators, arguments, right sides of assignments and statements that
  are being read inside each other. -/
  nesting : Nat := 0
  /-- The same, and the operators of the chains that are being read. -/
  height : Nat := 0
  /-- The most that the nesting has been. -/
  deepest : Nat := 0
  /-- The most that the height has been. -/
  tallest : Nat := 0
  /-- What was to be assigned to, latest first. -/
  operands : List Operand := []

namespace Journal

/-- One operator more in a chain. -/
def taller (j : Journal) : Journal :=
  { j with height := j.height + 1, tallest := max j.tallest (j.height + 1) }

/-- One level deeper. -/
def deeper (j : Journal) : Journal :=
  { j.taller with nesting := j.nesting + 1, deepest := max j.deepest (j.nesting + 1) }

/-- Back from there. -/
def shallower (j : Journal) : Journal :=
  { j with nesting := j.nesting - 1, height := j.height - 1 }

/-- Neither counter has ever been above its limit. -/
structure Within (j : Journal) : Prop where
  deepest : j.deepest ≤ maxNesting
  tallest : j.tallest ≤ maxHeight

/-- A journal within the limits still is after growing, where there is room. -/
theorem Within.taller {j : Journal} (within : j.Within) (room : j.height < maxHeight) :
    j.taller.Within :=
  ⟨within.deepest, Nat.max_le.mpr ⟨within.tallest, room⟩⟩

/-- As `Within.taller`, one level deeper. -/
theorem Within.deeper {j : Journal} (within : j.Within) (room : j.nesting < maxNesting)
    (room' : j.height < maxHeight) : j.deeper.Within :=
  ⟨Nat.max_le.mpr ⟨within.deepest, room⟩, (within.taller room').tallest⟩

/-- What reading does to a journal: at the end the nesting is what it was, the counters have kept to
their limits, and some operands have been noted, which are all targets if the reading succeeded. -/
structure Extends (succeeds : Prop) (j j' : Journal) : Prop where
  nesting : j'.nesting = j.nesting
  within : j.Within → j'.Within
  operands : ∃ new, j'.operands = new ++ j.operands ∧ (succeeds → ∀ o ∈ new, o.IsTarget)

namespace Extends

variable {succeeds succeeds' : Prop} {j j' j'' : Journal}

/-- A journal extends itself. -/
theorem refl (j : Journal) : Extends succeeds j j :=
  ⟨rfl, id, [], rfl, fun _ => List.forall_mem_nil _⟩

/-- Extensions follow one another. -/
theorem trans (first : Extends succeeds j j') (second : Extends succeeds' j' j'')
    (imp : succeeds' → succeeds) : Extends succeeds' j j'' := by
  refine ⟨second.nesting.trans first.nesting, fun within => second.within (first.within within), ?_⟩
  obtain ⟨new, operands, targets⟩ := first.operands
  obtain ⟨more, operands', targets'⟩ := second.operands
  refine ⟨more ++ new, ?_, ?_⟩
  · rw [operands', operands, List.append_assoc]
  · intro succeeded
    exact List.forall_mem_append.mpr ⟨targets' succeeded, targets (imp succeeded)⟩

/-- What is claimed of a success may be claimed of fewer. -/
theorem mono (h : Extends succeeds j j') (imp : succeeds' → succeeds) : Extends succeeds' j j' := by
  obtain ⟨new, operands, targets⟩ := h.operands
  exact ⟨h.nesting, h.within, new, operands, fun succeeded => targets (imp succeeded)⟩

/-- On the way there and back the journal is what it was, but for what was noted. -/
theorem back (h : Extends succeeds j.deeper j') (room : j.nesting < maxNesting)
    (room' : j.height < maxHeight) : Extends succeeds j j'.shallower := by
  refine ⟨?_, ?_, h.operands⟩
  · rw [shallower, h.nesting, deeper, Nat.add_sub_cancel]
  · intro within
    have inside := h.within (within.deeper room room')
    exact ⟨inside.deepest, inside.tallest⟩

end Extends

end Journal

/-! ## Parsers -/

/-- A parser that keeps a journal. What is written there stays, also if the parser fails. -/
def Journaled (α : Type) : Type :=
  Cursor → Journal → Except Failure (α × Cursor) × Journal

namespace Journaled

variable {α β : Type}

/-- Goes on behind a parser that has succeeded. -/
def andThen (f : β → Journaled α) :
    Except Failure (β × Cursor) × Journal → Except Failure (α × Cursor) × Journal
  | (.error e, j) => (.error e, j)
  | (.ok (b, c), j) => f b c j

instance : Monad Journaled where
  pure a := fun c j => (.ok (a, c), j)
  bind p f := fun c j => andThen f (p c j)

/-- A parser that has nothing to write. -/
instance : MonadLift Parser Journaled where
  monadLift p := fun c j => (p.run c, j)

/-- Two journaled parsers in a row. -/
theorem run_bind (p : Journaled β) (f : β → Journaled α) (c : Cursor) (j : Journal) :
    (p >>= f) c j = andThen f (p c j) := rfl

/-- Reads one level deeper, if neither counter has come to its limit. -/
def nested (what : Nesting) (p : Journaled α) : Journaled α := fun c j =>
  if maxNesting ≤ j.nesting ∨ maxHeight ≤ j.height then ((Parser.fail (.tooDeep what)).run c, j)
  else
    let (r, j) := p c j.deeper
    (r, j.shallower)

/-- Counts an operator of a chain, if the height has not come to its limit. -/
def grow : Journaled Unit := fun c j =>
  if maxHeight ≤ j.height then ((Parser.fail (.tooDeep .expression)).run c, j)
    else (.ok ((), c), j.taller)

/-- Gives back the height that a chain has taken. -/
def restoring (p : Journaled α) : Journaled α := fun c j =>
  let (r, j') := p c j
  (r, { j' with height := j.height })

/-- What is read, with the tokens that it was read from. -/
def withTokens (vars : Variables) (p : Journaled Expr) : Journaled (Expr × Operand) := fun c j =>
  match p c j with
  | (.error e, j) => (.error e, j)
  | (.ok (e, c'), j) => (.ok ((e, .between vars c c'), c'), j)

/-- A parser with its tokens noted is the parser with what stands between its cursors. -/
theorem run_withTokens_bind (vars : Variables) (p : Journaled Expr)
    (f : Expr × Operand → Journaled α) (c : Cursor) (j : Journal) :
    (withTokens vars p >>= f) c j =
      (p >>= fun e c' => f (e, .between vars c c') c' : Journaled α) c j := by
  show andThen f (withTokens vars p c j) =
    andThen (fun e c' => f (e, .between vars c c') c') (p c j)
  unfold withTokens
  obtain ⟨_ | _, j'⟩ := p c j <;> rfl

/-- Notes what is to be assigned to, and then finds out whether it can be. -/
def target (e : Expr) (o : Operand) : Journaled Nat := fun c j =>
  ((assignable e).run c, { j with operands := o :: j.operands })

/-! ### Following the grammar -/

/-- From this place and with so much left of the limits, `p` reads as `q` does. If it is to come
`back`, it leaves the height as it found it; the nesting it always does. -/
def FollowsAt (back : Bool) (nesting height : Nat) (p : Journaled α) (q : Parser α)
    (c : Cursor) : Prop :=
  ∀ j, j.nesting + nesting = maxNesting → j.height + height = maxHeight →
    ∃ j', p c j = (q.run c, j') ∧ j.Extends (∃ r, q.run c = .ok r) j' ∧
    (back = true → j'.height = j.height)

/-- The same from any place. -/
def Follows (back : Bool) (nesting height : Nat) (p : Journaled α) (q : Parser α) : Prop :=
  ∀ c, FollowsAt back nesting height p q c

variable {back : Bool} {nesting height : Nat}

/-- Behind a parser that has succeeded, the counters are what they were. -/
theorem FollowsAt.bind {p : Journaled β} {q : Parser β} {f : β → Journaled α} {g : β → Parser α}
    {c : Cursor} (first : FollowsAt true nesting height p q c)
    (second : ∀ b c', q.run c = .ok (b, c') → FollowsAt back nesting height (f b) (g b) c') :
    FollowsAt back nesting height (p >>= f) (q >>= g) c := by
  intro j deep tall
  obtain ⟨j', run, extends_, kept⟩ := first j deep tall
  rw [run_bind, run, StateT.run_bind]
  cases found : q.run c with
  | error e =>
    refine ⟨j', rfl, extends_.mono ?_, fun _ => kept rfl⟩
    rintro ⟨r, isOk⟩
    cases isOk
  | ok b =>
    have deep' : j'.nesting + nesting = maxNesting := by rw [extends_.nesting, deep]
    have tall' : j'.height + height = maxHeight := by rw [kept rfl, tall]
    obtain ⟨j'', run', extends', kept'⟩ := second b.1 b.2 found j' deep' tall'
    refine ⟨j'', run', extends_.trans extends' fun _ => ⟨b, found⟩, ?_⟩
    intro isBack
    exact (kept' isBack).trans (kept rfl)

namespace Follows

/-- A parser without a journal. -/
theorem lift (q : Parser α) : Follows back nesting height (liftM q) q :=
  fun _ j _ _ => ⟨j, rfl, .refl j, fun _ => rfl⟩

/-- A result follows itself. -/
theorem pure (a : α) : Follows back nesting height (Pure.pure a) (Pure.pure a) :=
  fun _ j _ _ => ⟨j, rfl, .refl j, fun _ => rfl⟩

/-- There is never more left of the height than the limit. -/
theorem of_le {p : Journaled α} {q : Parser α}
    (h : height ≤ maxHeight → Follows back nesting height p q) :
    Follows back nesting height p q := by
  intro c j deep tall
  have le : height ≤ maxHeight := by
    rw [← tall]
    exact Nat.le_add_left ..
  exact h le c j deep tall

/-- Parsers that follow others may be put in a row like them. -/
theorem bind {p : Journaled β} {q : Parser β} {f : β → Journaled α} {g : β → Parser α}
    (first : Follows true nesting height p q)
    (second : ∀ b, Follows back nesting height (f b) (g b)) :
    Follows back nesting height (p >>= f) (q >>= g) :=
  fun c => (first c).bind fun b c' _ => second b c'

/-- A parser that does not touch the journal follows itself. -/
theorem lift_bind {q : Parser β} {f : β → Journaled α} {g : β → Parser α}
    (second : ∀ b, Follows back nesting height (f b) (g b)) :
    Follows back nesting height ((liftM q : Journaled β) >>= f) (q >>= g) :=
  bind (lift q) second

/-- Whatever stands behind a failure is never read. -/
theorem fail_bind {fault : SyntaxFault} {f : β → Journaled α} {g : β → Parser α} :
    Follows back nesting height ((liftM (Parser.fail fault : Parser β) : Journaled β) >>= f)
      (Parser.fail fault >>= g) :=
  fun _ j _ _ => ⟨j, rfl, .refl j, fun _ => rfl⟩

/-- A choice follows a choice on the same condition. -/
theorem ite {b : Prop} [Decidable b] {p p' : Journaled α} {q q' : Parser α}
    (yes : b → Follows back nesting height p q) (no : ¬b → Follows back nesting height p' q') :
    Follows back nesting height (if b then p else p') (if b then q else q') := by
  by_cases h : b
  · rw [if_pos h, if_pos h]
    exact yes h
  · rw [if_neg h, if_neg h]
    exact no h

/-- Where the nesting is used up, whatever would be read deeper is not. -/
theorem nested_zero (what : Nesting) (p : Journaled α) :
    Follows back 0 height (nested what p) ((Limited.tooDeep what).nested what height) := by
  intro c j deep tall
  have full : maxNesting ≤ j.nesting := Nat.le_of_eq deep.symm
  have fails :
      (Limited.tooDeep what : Limited α).nested what height = Parser.fail (.tooDeep what) := by
    cases height <;> rfl
  rw [nested, if_pos (.inl full), fails]
  exact ⟨j, rfl, .refl j, fun _ => rfl⟩

/-- Otherwise it is the limits that are left which decide. -/
theorem nested_succ {what : Nesting} {p : Journaled α} {q : Limited α}
    (inner : ∀ height, Follows true nesting height p (q height)) :
    Follows back (nesting + 1) height (nested what p) (q.nested what height) := by
  intro c j deep tall
  have room : j.nesting < maxNesting := by omega
  cases height with
  | zero =>
    have full : maxHeight ≤ j.height := Nat.le_of_eq tall.symm
    rw [nested, if_pos (.inr full), Limited.nested]
    exact ⟨j, rfl, .refl j, fun _ => rfl⟩
  | succ height =>
    have room' : j.height < maxHeight := by omega
    have below : ¬(maxNesting ≤ j.nesting ∨ maxHeight ≤ j.height) := by omega
    have deep' : j.deeper.nesting + nesting = maxNesting := by
      rw [← deep]
      exact Nat.succ_add_eq_add_succ ..
    have tall' : j.deeper.height + height = maxHeight := by
      rw [← tall]
      exact Nat.succ_add_eq_add_succ ..
    obtain ⟨j', run, extends_, kept⟩ := inner height c j.deeper deep' tall'
    rw [nested, if_neg below, run, Limited.nested]
    refine ⟨j'.shallower, rfl, extends_.back room room', fun _ => ?_⟩
    have same : j'.height = j.height + 1 := kept rfl
    rw [Journal.shallower, same, Nat.add_sub_cancel]

/-- Growing without room fails as the parser does at the greatest height. -/
theorem grow_bind_zero (f : Unit → Journaled α) :
    Follows back nesting 0 (grow >>= f) (Parser.fail (.tooDeep .expression)) := by
  intro c j deep tall
  have full : maxHeight ≤ j.height := Nat.le_of_eq tall.symm
  refine ⟨j, ?_, .refl j, fun _ => rfl⟩
  rw [run_bind, grow, if_pos full]
  rfl

/-- Behind an operator there is one less left of the height, until the end of its chain. -/
theorem grow_bind_succ {f : Unit → Journaled α} {q : Parser α}
    (rest : Follows false nesting height (f ()) q) :
    Follows false nesting (height + 1) (grow >>= f) q := by
  intro c j deep tall
  have room : j.height < maxHeight := by omega
  have tall' : j.taller.height + height = maxHeight := by
    rw [← tall]
    exact Nat.succ_add_eq_add_succ ..
  obtain ⟨j', run, extends_, -⟩ := rest c j.taller deep tall'
  refine ⟨j', ?_, ⟨extends_.nesting, fun within =>
    extends_.within (within.taller room), extends_.operands⟩, nofun⟩
  rw [run_bind, grow, if_neg (Nat.not_le.mpr room)]
  exact run

/-- A parser that restores the height follows as it did, whatever it grew by. -/
theorem restoring {p : Journaled α} {q : Parser α} (h : Follows false nesting height p q) :
    Follows back nesting height (restoring p) q := by
  intro c j deep tall
  obtain ⟨j', run, extends_, -⟩ := h c j deep tall
  rw [Journaled.restoring, run]
  refine ⟨{ j' with height := j.height }, rfl, ⟨extends_.nesting, ?_, extends_.operands⟩,
    fun _ => rfl⟩
  intro within
  have inside := extends_.within within
  exact ⟨inside.deepest, inside.tallest⟩

/-- The operand is known to be a target where the tree is a variable. -/
theorem withTokens_bind {vars : Variables} {p : Journaled Expr} {q : Parser Expr}
    {f : Expr × Operand → Journaled α} {g : Expr → Parser α}
    (first : Follows true nesting height p q) (names : q.Names vars)
    (second : ∀ e o, (∀ slot, e = .var slot → o.IsTarget) →
      Follows back nesting height (f (e, o)) (g e)) :
    Follows back nesting height (withTokens vars p >>= f) (q >>= g) := by
  intro c
  have noted : FollowsAt back nesting height (p >>= fun e c' =>
    f (e, .between vars c c') c') (q >>= g) c := by
    apply FollowsAt.bind (first c)
    intro e c' found
    apply second e (.between vars c c')
    rintro slot rfl
    obtain ⟨ts, ahead, target⟩ := names c slot c' found
    rw [Operand.between_eq ahead]
    exact ⟨slot, target⟩
  intro j deep tall
  rw [run_withTokens_bind]
  exact noted j deep tall

/-- The journal refuses the targets that the parser refuses. -/
theorem target {e : Expr} {o : Operand} (isTarget : ∀ slot, e = .var slot → o.IsTarget) :
    Follows back nesting height (target e o) (assignable e) := by
  intro c j deep tall
  refine ⟨{ j with operands := o :: j.operands }, rfl,
    ⟨rfl, fun within => ⟨within.deepest, within.tallest⟩, ?_⟩, fun _ => rfl⟩
  refine ⟨[o], rfl, ?_⟩
  rintro ⟨r, run⟩
  cases e with
  | var slot => exact List.forall_mem_singleton.mpr (isTarget slot rfl)
  | _ => cases run

end Follows

end Journaled

/-! ## Parsers that declare variables -/

/-- A parser that may declare variables and keeps a journal. -/
abbrev ScopedJournaled := StateT Scope Journaled

namespace ScopedJournaled

variable {α β : Type} {nesting height : Nat}

/-- A parser without a journal that may declare variables. -/
def lift (q : ScopedParser α) : ScopedJournaled α := fun scope => liftM (q.run scope)

/-- Runs a parser and forgets the variables that it declares. -/
def inBlock (p : ScopedJournaled α) : ScopedJournaled α := do
  let outer := (← get).vars
  let a ← p
  modify fun scope => { scope with vars := outer }
  return a

/-- With so much left of the limits, `p` reads and declares as `q` does, and leaves the counters as
it found them. -/
def Follows (nesting height : Nat) (p : ScopedJournaled α) (q : ScopedParser α) : Prop :=
  ∀ scope : Scope, Journaled.Follows true nesting height (p.run scope) (q.run scope)

namespace Follows

/-- A parser in a scope follows itself. -/
theorem lift (q : ScopedParser α) : Follows nesting height (lift q) q :=
  fun scope => .lift (q.run scope)

/-- As `Journaled.Follows.pure`, in a scope. -/
theorem pure (a : α) : Follows nesting height (Pure.pure a) (Pure.pure a) :=
  fun scope => .pure (a, scope)

/-- As `Journaled.Follows.bind`, in a scope. -/
theorem bind {p : ScopedJournaled β} {q : ScopedParser β} {f : β → ScopedJournaled α}
    {g : β → ScopedParser α} (first : Follows nesting height p q)
    (second : ∀ b, Follows nesting height (f b) (g b)) :
    Follows nesting height (p >>= f) (q >>= g) := by
  intro scope
  rw [StateT.run_bind, StateT.run_bind]
  exact (first scope).bind fun r => second r.1 r.2

/-- A function of the result follows where the result does. -/
theorem map {p : ScopedJournaled β} {q : ScopedParser β} (f : β → α)
    (h : Follows nesting height p q) : Follows nesting height (f <$> p) (f <$> q) :=
  fun scope => (h scope).bind fun r => .pure (f r.1, r.2)

/-- As `Journaled.Follows.ite`, in a scope. -/
theorem ite {b : Prop} [Decidable b] {p p' : ScopedJournaled α} {q q' : ScopedParser α}
    (yes : b → Follows nesting height p q) (no : ¬b → Follows nesting height p' q') :
    Follows nesting height (if b then p else p') (if b then q else q') := by
  by_cases h : b
  · rw [if_pos h, if_pos h]
    exact yes h
  · rw [if_neg h, if_neg h]
    exact no h

/-- A parser that knows no scope. -/
theorem unscoped {p : Journaled α} {q : Parser α} (h : Journaled.Follows true nesting height p q) :
    Follows nesting height (liftM p) (liftM q) :=
  fun scope => h.bind fun a => .pure (a, scope)

/-- A parser that knows no scope and has nothing to write. -/
theorem silent (q : Parser α) : Follows nesting height (liftM q) (liftM q) :=
  unscoped (.lift q)

/-- As `Journaled.Follows.lift_bind`, in a scope. -/
theorem silent_bind {q : Parser β} {f : β → ScopedJournaled α} {g : β → ScopedParser α}
    (second : ∀ b, Follows nesting height (f b) (g b)) :
    Follows nesting height ((liftM q : ScopedJournaled β) >>= f)
    ((liftM q : ScopedParser β) >>= g) :=
  bind (silent q) second

/-- Nothing has to follow behind a failure. -/
theorem fail_bind {fault : SyntaxFault} {f : β → ScopedJournaled α} {g : β → ScopedParser α} :
    Follows nesting height ((liftM (Parser.fail fault : Parser β) : ScopedJournaled β) >>= f)
      ((liftM (Parser.fail fault : Parser β) : ScopedParser β) >>= g) :=
  fun _ _ j _ _ => ⟨j, rfl, .refl j, fun _ => rfl⟩

/-- Looking at the cursor follows itself. -/
theorem cursor : Follows nesting height (liftM (get : Parser Cursor)) (getThe Cursor) :=
  silent (MonadState.get : Parser Cursor)

/-- Looking at the scope follows itself. -/
theorem get : Follows nesting height MonadState.get MonadState.get :=
  fun scope => .pure (scope, scope)

/-- Changing the scope follows itself. -/
theorem modify (f : Scope → Scope) :
    Follows nesting height (modifyThe Scope f) (modifyThe Scope f) :=
  fun scope => .pure ((), f scope)

/-- A block follows where its contents do. -/
theorem inBlock {p : ScopedJournaled α} {q : ScopedParser α} (h : Follows nesting height p q) :
    Follows nesting height (inBlock p) (Grammar.inBlock q) := by
  apply bind get
  intro scope
  apply bind h
  intro a
  exact bind (modify _) fun _ => pure a

end Follows

end ScopedJournaled

end BareC.Grammar
