import BareC.Proofs.Grammar.Scopes

/-!
# Statements obey the rules

The walk through the grammar of statements. As with expressions it is made once: what is to be known
of the expressions is a parameter of it.

The parts of a statement one level deeper are a structure (`Parts`), and the walk is made with any
parts that have the property (`PartsProperty`). So the recursion on the nesting is one induction at
the end (`leadsOn_statement`), and no production is opened twice. Loops over a bound are shown to be
independent of the bound as long as it is long enough (`bounded_declarators`), which is what allows
the bound to be the tokens ahead.

What is shown is what any statement that is read is made of, and that a jump stands in a loop. It is
not shown here that a given token list is read, or as which statement; and where reading fails, only
the rules for failures in `Reads` say anything.
-/

namespace BareC

/-! ## Contents of statements -/

namespace Stmt

/-- A loop catches what its body breaks out of. -/
theorem contents_doWhile (body : Stmt) (cond : Expr) :
    (doWhile body cond).contents = body.contents.caught.append (.ofExpr cond) := by
  rw [contents, declared, Contents.append, ← List.append_nil body.declared]
  rfl

/-- As `contents_doWhile`, with the parts of the header in the order they are read. -/
theorem contents_forLoop (init : Option Stmt) (cond step : Option Expr) (body : Stmt) :
    (forLoop init cond step body).contents = (contentsOfStmt? init).append
      ((Contents.ofExpr? cond).append ((Contents.ofExpr? step).append body.contents.caught)) := by
  rw [contents, jumpsOut, Contents.append, ← Bool.or_false (jumpsOutOfStmt? init)]
  rfl

end Stmt

namespace Grammar

variable {Ahead : Token → Prop} {P : Nat → Expr → Prop}

/-- A word of a type may be taken. -/
theorem takeable_of_isTypeWord {t : Token} {body : Bool} (h : isTypeWord t = true) :
    t.Takeable body := by
  have free : ∀ s ∈ typeWords, s ∉ Token.reserved false := by decide
  obtain ⟨s, mem, is⟩ := List.any_eq_true.mp h
  exact Token.takeable_of_is is (free_of_reserved (free s mem))

/-- So may the star of a pointer. -/
theorem takeable_of_star {t : Token} {body : Bool} (h : t.is "*" = true) : t.Takeable body :=
  Token.takeable_of_is h (free_of_reserved (by decide))

/-! ## Declarations of variables -/

/-- A declared variable gets the next slot. -/
theorem reads_declare {body : Bool} {Next : Token → Prop} (name : Token) (scope : Scope) :
    (declare name).Reads Ahead body false Next scope fun slot scope' =>
      slot = scope.slots ∧ scope.slots < maxSlots ∧
        scope' = ⟨(name.text, scope.slots) :: scope.vars, scope.slots + 1⟩ := by
  refine .get (.ite (fun _ => .failOn_bind fun _ => nofun) fun room => ?_)
  exact .set (.pure ⟨rfl, Nat.lt_of_not_le room, rfl⟩)

/-- The variables stay below the slots when one more is declared. -/
theorem below_declare {scope : Scope} (below : ∀ v ∈ scope.vars, v.2 < scope.slots)
    (name : String) : ∀ v ∈ (name, scope.slots) :: scope.vars, v.2 < scope.slots + 1 := by
  intro v mem
  rcases List.mem_cons.mp mem with rfl | mem
  · exact Nat.lt_succ_self _
  · exact Nat.lt_succ_of_lt (below v mem)

/-- A declaration opens the next slot for its name. -/
theorem leadsOn_declare (P : Nat → Expr → Prop) (inLoop : Bool) (name : Token) :
    (declare name).LeadsOn Ahead P false inLoop fun slot => { declared := [slot] } := by
  intro scope sound
  refine .mono (reads_declare name scope) ?_
  rintro slot scope' ⟨rfl, room, rfl⟩
  refine ⟨Nat.le_succ _, ⟨room, below_declare sound.vars _⟩, List.forall_mem_nil _, ?_, nofun⟩
  rw [Nat.add_sub_cancel_left]
  rfl

/-! ## Blocks -/

/-- What a block reads stays; its variables do not. -/
theorem run_inBlock {α : Type} (p : ScopedParser α) (scope : Scope) :
    (inBlock p).run scope =
      (fun r : α × Scope => (r.1, ({ r.2 with vars := scope.vars } : Scope))) <$> p.run scope := by
  rw [map_eq_pure_bind]
  rfl

/-- A block leads on as its contents do, and its names end with it. -/
theorem leadsOn_inBlock {α : Type} {takes inLoop : Bool} {p : ScopedParser α}
    {contents : α → Contents} (hp : p.LeadsOn Ahead P takes inLoop contents) :
    (inBlock p).LeadsOn Ahead P takes inLoop contents := by
  intro scope sound
  rw [ScopedParser.Reads, run_inBlock]
  exact .map ((hp scope sound).mono fun a scope' leads => leads.forget sound)

namespace Parts

/-- The end of a block or one more statement, with what is read behind that statement. -/
def oneMore (parts : Parts) (inLoop : Bool) (read : List Stmt)
    (rest : Stmt → ScopedParser (List Stmt)) : ScopedParser (List Stmt) := do
  if ← Parser.sees "\x7d" then return read.reverse
  if (← getThe Cursor).atEnd then Parser.fail (.expected "\x7d")
  let s ← parts.inner inLoop
  rest s

/-- Where no bound is left, a closing brace has to follow. -/
theorem statements_nil (parts : Parts) (inLoop : Bool) (read : List Stmt) :
    parts.statements inLoop [] read =
      parts.oneMore inLoop read fun _ => Parser.fail (.expected "\x7d") := rfl

/-- One statement more, under a shorter bound. -/
theorem statements_cons (parts : Parts) (inLoop : Bool) (t : Token) (bound : List Token)
    (read : List Stmt) : parts.statements inLoop (t :: bound) read =
      parts.oneMore inLoop read fun s => parts.statements inLoop bound (s :: read) := rfl

/-- The run of one statement more: the closing brace, the end of the source, or a statement and the
rest. -/
theorem run_oneMore (parts : Parts) (inLoop : Bool) (read : List Stmt)
    (rest : Stmt → ScopedParser (List Stmt)) (scope : Scope) (c : Cursor) :
    ((parts.oneMore inLoop read rest).run scope).run c =
      if c.next.is "\x7d" then .ok ((read.reverse, scope), c)
      else if c.atEnd then (Parser.fail (.expected "\x7d")).run c
      else ((parts.inner inLoop).run scope >>= fun r => (rest r.1).run r.2).run c := by
  show ((if c.next.is "\x7d" then _ else _ : ScopedParser (List Stmt)).run scope).run c = _
  split
  next => rfl
  next =>
    show ((if c.atEnd then _ else _ : ScopedParser (List Stmt)).run scope).run c = _
    split <;> rfl

/-- A block is read between braces, and forgets its variables. -/
theorem run_block (parts : Parts) (inLoop : Bool) (scope : Scope) :
    (parts.block inLoop).run scope =
      (fun r : List Stmt × Scope => (r.1, ({ r.2 with vars := scope.vars } : Scope))) <$>
        Parser.braces (get >>= fun c => (parts.statements inLoop c.ahead []).run scope) := by
  have inside : (do
      let stmts ← parts.statements inLoop (← getThe Cursor).ahead []
      Parser.expect "\x7d"
      return stmts : ScopedParser (List Stmt)).run scope = (do
      let r ← (get >>= fun c => (parts.statements inLoop c.ahead []).run scope : Parser _)
      Parser.expect "\x7d"
      return r) := by
    rw [StateT.run_bind, bind_assoc]
    simp only [StateT.run_bind (parts.statements _ _ _), ScopedParser.run_lift_bind]
    rfl
  rw [Parts.block, ScopedParser.run_lift_bind, Parser.braces]
  simp only [run_inBlock, map_bind, inside]

end Parts

section Blocks

variable {parts : Parts} {inLoop : Bool}
  (inner : (parts.inner inLoop).LeadsOn Ahead P true inLoop Stmt.contents)

include inner

/-- One statement more reads as the statement and the rest do. -/
theorem reads_oneMore {rest : Stmt → ScopedParser (List Stmt)} {read : List Stmt} {scope : Scope}
    (sound : scope.Sound) {Q : List Stmt → Scope → Prop} (done : Q read.reverse scope)
    (more : ∀ s scope', Leads P inLoop scope s.contents scope' →
      (rest s).Reads Ahead true false (fun _ => True) scope' Q) :
    (parts.oneMore inLoop read rest).Reads Ahead true false (fun _ => True) scope Q := by
  refine .sees_bind fun t _ => .ite (fun _ => .pure done) fun _ => ?_
  refine .atEnd_bind (fun _ _ _ => .fail_bind fun _ _ _ _ => nofun) fun _ _ _ => ?_
  exact .bind (inner scope sound).lax.anywhere more

/-- The statements up to the closing brace. -/
theorem reads_statements (mono : SlotProperty P) (bound : List Token) (read : List Stmt)
    {scope : Scope} (sound : scope.Sound) :
    (parts.statements inLoop bound read).Reads Ahead true false (fun _ => True) scope
      fun ss scope' => ∃ more, ss = read.reverse ++ more ∧
        Leads P inLoop scope (contentsOfStmts more) scope' := by
  have none : ∃ more, read.reverse = read.reverse ++ more ∧
      Leads P inLoop scope (contentsOfStmts more) scope :=
    ⟨[], (List.append_nil _).symm, .refl sound⟩
  induction bound generalizing read scope with
  | nil => exact reads_oneMore inner sound none fun _ _ _ => .fail fun _ _ _ _ => nofun
  | cons t bound ih =>
    refine reads_oneMore inner sound none fun s scope' leads => ?_
    refine .mono (ih (s :: read) leads.sound ⟨[], (List.append_nil _).symm, .refl leads.sound⟩) ?_
    rintro ss scope'' ⟨more, rfl, after⟩
    exact ⟨s :: more, by simp, leads.trans mono after⟩

/-- Two blocks agree if they agree behind their first statement. -/
theorem run_oneMore_congr {rest rest' : Stmt → ScopedParser (List Stmt)} {read : List Stmt}
    {scope : Scope} (sound : scope.Sound) {c : Cursor} (all : ∀ t ∈ c.ahead, Ahead t)
    (same : ∀ s (scope' : Scope) (c' : Cursor), scope'.Sound → c'.ahead ⊆ c.ahead →
      c'.ahead.length < c.ahead.length →
        ((rest s).run scope').run c' = ((rest' s).run scope').run c') :
    ((parts.oneMore inLoop read rest).run scope).run c =
      ((parts.oneMore inLoop read rest').run scope).run c := by
  rw [Parts.run_oneMore, Parts.run_oneMore]
  split
  next => rfl
  next =>
    split
    next => rfl
    next =>
      refine (inner scope sound).run_bind_congr all fun s scope' c' leads subset less => ?_
      exact same s scope' c' leads.sound subset less

/-- Every statement takes a token, so the tokens ahead are enough for all of them. -/
theorem bounded_statements (read : List Stmt) {scope : Scope} (sound : scope.Sound) :
    Parser.Bounded Ahead fun bound => (parts.statements inLoop bound read).run scope := by
  refine Parser.bounded_of_shorter (σ := List Stmt × { scope : Scope // scope.Sound })
    (fun s bound => (parts.statements inLoop bound s.1).run s.2.1) ?_ (read, ⟨scope, sound⟩)
  rintro ⟨read, scope, sound⟩ c bound bound' all le le' same
  cases bound <;> cases bound' <;> refine run_oneMore_congr inner sound all ?_ <;>
    intro s scope' c' sound' subset less
  case nil.nil => rfl
  -- Where a bound is at its end, nothing is ahead that a statement could have taken.
  case nil.cons => exact absurd (Nat.lt_of_lt_of_le less le) (Nat.not_lt_zero _)
  case cons.nil => exact absurd (Nat.lt_of_lt_of_le less le') (Nat.not_lt_zero _)
  case cons.cons t bound t' bound' =>
    rw [List.length_cons] at le le'
    exact same (s :: read, ⟨scope', sound'⟩) c' subset less bound bound' (by omega) (by omega)

/-- What stands between the braces of a block. -/
theorem reads_insideBlock (mono : SlotProperty P) {scope : Scope} (sound : scope.Sound) :
    (get >>= fun c => (parts.statements inLoop c.ahead []).run scope : Parser _).Reads
      Ahead true false (fun _ => True) fun r => Leads P inLoop scope (contentsOfStmts r.1) r.2 := by
  refine .bounded (bounded_statements inner [] sound) fun bound => ?_
  refine .mono (reads_statements inner mono bound [] sound) ?_
  rintro ⟨ss, scope'⟩ ⟨_, rfl, leads⟩
  exact leads

/-- A block leads on with the contents of its statements. -/
theorem leadsOn_block (mono : SlotProperty P) {takes : Bool} :
    (parts.block inLoop).LeadsOn Ahead P takes inLoop contentsOfStmts := by
  intro scope sound
  rw [ScopedParser.Reads, Parts.run_block]
  exact .map ((Parser.Reads.braces rfl (reads_insideBlock inner mono sound)).mono
    fun r leads => leads.forget sound)

end Blocks

/-! ## Declarators -/

namespace Parts

/-- One variable with its initial value. -/
def declarator (parts : Parts) : ScopedParser Stmt := do
  Parser.skipWhile (·.is "*")
  let name ← Parser.name
  if ← Parser.sees "[" then Parser.fail .array
  let slot ← declare name
  let init ← if ← Parser.accept "=" then some <$> parts.value else pure none
  return .decl slot init

/-- A declarator with what follows it, as one sequence of parsers. -/
theorem declarator_bind {α : Type} (parts : Parts) (rest : Stmt → ScopedParser α) :
    parts.declarator >>= rest = (do
      Parser.skipWhile (·.is "*")
      let name ← Parser.name
      if ← Parser.sees "[" then Parser.fail .array
      let slot ← declare name
      let init ← if ← Parser.accept "=" then some <$> parts.value else pure none
      rest (.decl slot init)) := by
  rw [declarator]
  simp only [bind_assoc]
  refine bind_congr fun _ => bind_congr fun name => bind_congr fun array => ?_
  cases array
  · simp only [if_false, Bool.false_eq_true, bind_assoc]
    refine bind_congr fun slot => bind_congr fun init => ?_
    split <;> simp only [bind_assoc, pure_bind]
  · simp only [if_true, bind_assoc]
    refine bind_congr fun _ => bind_congr fun slot => bind_congr fun init => ?_
    split <;> simp only [bind_assoc, pure_bind]

/-- Where no bound is left, a semicolon has to follow. -/
theorem declarators_nil (parts : Parts) (read : List Stmt) :
    parts.declarators [] read = (do
      let _ ← parts.declarator
      Parser.fail (.expected ";")) := by
  rw [declarator_bind]
  rfl

/-- Behind a declarator there is a comma and another one, or the semicolon. -/
theorem declarators_cons (parts : Parts) (t : Token) (bound : List Token) (read : List Stmt) :
    parts.declarators (t :: bound) read = (do
      let d ← parts.declarator
      if ← Parser.accept "," then parts.declarators bound (d :: read)
      else
        Parser.expect ";"
        return (d :: read).reverse) := by
  rw [declarator_bind]
  rfl

end Parts

/-! ## Statements -/

/-- What has to be known of the parts of statements. -/
structure PartsProperty (Ahead : Token → Prop) (P : Nat → Expr → Prop) (parts : Parts) : Prop where
  mono : SlotProperty P
  expr : ∀ (vars : Variables) (slots : Nat), (∀ v ∈ vars, v.2 < slots) →
    (parts.expr vars).Reads Ahead true true (fun _ => True) (P slots)
  inner : ∀ inLoop, (parts.inner inLoop).LeadsOn Ahead P true inLoop Stmt.contents

/-- A jump leads on without contents but that it jumps out. -/
theorem leadsOn_jump (P : Nat → Expr → Prop) (inLoop : Bool) {s : Stmt}
    (contents : s.contents = { jumpsOut := true }) {Next : Token → Prop}
    (taken : ∀ t, Next t → t.Takeable true) {scope : Scope} (sound : scope.Sound) :
    (Parts.jump inLoop s).Reads Ahead true true Next scope fun s scope' =>
      Leads P inLoop scope s.contents scope' := by
  cases inLoop with
  | false => exact .advance_bind taken fun t _ => .failOn_bind fun _ => nofun
  | true =>
    refine .advance_bind taken fun t _ => .expect_bind (by decide) (.pure ?_)
    rw [contents]
    exact .jump sound

namespace PartsProperty

variable {parts : Parts} (h : PartsProperty Ahead P parts) (inLoop : Bool)

include h

/-- A value leads on with its expression. -/
theorem leadsOn_value : parts.value.LeadsOn Ahead P true inLoop .ofExpr := by
  intro scope sound
  refine .get (.lifted (h.expr scope.vars scope.slots sound.vars) fun e he => ?_)
  exact .ofExpr sound he

/-- A condition does too. -/
theorem leadsOn_condition : parts.condition.LeadsOn Ahead P true inLoop .ofExpr := by
  intro scope sound
  refine .expect_bind (by decide) ?_
  refine .bind (h.leadsOn_value inLoop scope sound).lax fun e scope' leads => ?_
  exact .expect_bind (by decide) (.pure leads)

/-- A declarator opens a slot, and its initial value is read with the name in scope. -/
theorem leadsOn_declarator : parts.declarator.LeadsOn Ahead P true inLoop Stmt.contents := by
  intro scope sound
  refine .skipWhile_bind (fun t => takeable_of_star) (.name_bind fun name _ _ => ?_)
  refine .sees_bind fun t _ => .ite (fun _ => .fail_bind fun _ _ _ _ => nofun) fun _ => ?_
  refine .bind (leadsOn_declare P inLoop name scope sound).anywhere fun slot a leads => ?_
  refine .accept_bind (by decide) ?_ ?_
  · refine .bind (R := fun init b => Leads P inLoop scope (Stmt.decl slot init).contents b)
      (.map ((h.leadsOn_value inLoop a leads.sound).lax.mono fun e b more => ?_))
      fun init b leads => .pure leads
    exact leads.trans h.mono more
  · exact .bind (.pure leads) fun init b leads => .pure leads

/-- Declarators lead on one after the other, behind those already read. -/
theorem reads_declarators (bound : List Token) (read : List Stmt) {scope : Scope}
    (sound : scope.Sound) :
    (parts.declarators bound read).Reads Ahead true true (fun _ => True) scope fun ds scope' =>
      ∃ more, ds = read.reverse ++ more ∧
        Leads P inLoop scope (contentsOfStmts more) scope' := by
  induction bound generalizing read scope with
  | nil =>
    rw [Parts.declarators_nil]
    exact .bindTaken (h.leadsOn_declarator inLoop scope sound) fun _ _ _ =>
      .fail fun _ _ _ _ => nofun
  | cons t bound ih =>
    rw [Parts.declarators_cons]
    refine .bindTaken (h.leadsOn_declarator inLoop scope sound) fun d a leads => ?_
    refine .accept_bind (by decide) ?_ (.expect_bind (by decide) (.pure ⟨[d], by simp, ?_⟩))
    · refine .mono (ih (d :: read) leads.sound).lax ?_
      rintro ds b ⟨more, rfl, after⟩
      exact ⟨d :: more, by simp, leads.trans h.mono after⟩
    · exact leads.trans h.mono (.refl leads.sound)

/-- Their bound is never met, since each takes a token. -/
theorem bounded_declarators (read : List Stmt) {scope : Scope} (sound : scope.Sound) :
    Parser.Bounded Ahead fun bound => (parts.declarators bound read).run scope := by
  refine Parser.bounded_of_shorter (σ := List Stmt × { scope : Scope // scope.Sound })
    (fun s bound => (parts.declarators bound s.1).run s.2.1) ?_ (read, ⟨scope, sound⟩)
  rintro ⟨read, scope, sound⟩ c bound bound' all le le' same
  have declarator := h.leadsOn_declarator false scope sound
  cases bound <;> cases bound' <;> simp only [Parts.declarators_nil, Parts.declarators_cons] <;>
    refine declarator.run_bind_congr all fun d scope' c' leads subset less => ?_ <;>
    rw [Bool.toNat_true] at less
  case nil.cons => exact absurd (Nat.lt_of_lt_of_le less le) (Nat.not_lt_zero _)
  case cons.nil => exact absurd (Nat.lt_of_lt_of_le less le') (Nat.not_lt_zero _)
  case cons.cons t bound t' bound' =>
    have inside : ∀ t ∈ c'.ahead, Ahead t := fun t mem => all t (subset mem)
    rw [ScopedParser.run_lift_bind, ScopedParser.run_lift_bind]
    refine (reads_accept true (by decide)).run_bind_congr inside fun found c'' _ subset' fewer => ?_
    cases found with
    | false => rfl
    | true =>
      simp only [List.length_cons, Bool.toNat_false] at le le' fewer
      exact same (d :: read, ⟨scope', leads.sound⟩) c'' (List.Subset.trans subset' subset)
        (by omega) bound bound' (by omega) (by omega)

/-- A declaration leads on with the contents of its declarators. -/
theorem leadsOn_declaration : parts.declaration.LeadsOn Ahead P true inLoop Stmt.contents := by
  intro scope sound
  refine .skipWhile_bind (fun t => takeable_of_isTypeWord) ?_
  refine .bounded_bind (h.bounded_declarators [] sound) fun bound => ?_
  refine .bindTaken (h.reads_declarators inLoop bound [] sound) ?_
  rintro ds scope' ⟨_, rfl, leads⟩
  match ds with
  | [] | _ :: _ :: _ => exact .pure leads
  | [d] => exact .pure (contentsOfStmts_singleton d ▸ leads)

/-- A value that may be left out leads on with what is there. -/
theorem leadsOn_valueUnless (s : String) :
    (parts.valueUnless s).LeadsOn Ahead P false inLoop .ofExpr? := by
  intro scope sound
  refine .sees_bind fun t _ => .ite (fun _ => .pure (.refl sound)) fun _ => ?_
  exact .map (h.leadsOn_value inLoop scope sound).lax.anywhere

/-- The first part of a loop's header leads on with the declaration or expression it is. -/
theorem leadsOn_forInit : parts.forInit.LeadsOn Ahead P true inLoop contentsOfStmt? := by
  intro scope sound
  refine .accept_bind (by decide) (.pure (.refl sound)) (.peek_bind fun t _ _ => .ite (fun _ => ?_)
    fun _ => ?_)
  · exact .map (h.leadsOn_declaration inLoop scope sound).anywhere
  · refine .bindTaken (h.leadsOn_value inLoop scope sound).anywhere fun e scope' leads => ?_
    exact .expect_bind (by decide) (.pure leads)

/-- A loop with a header leads on, its declarations in scope up to its end. -/
theorem leadsOn_forLoop : parts.forLoop.LeadsOn Ahead P true inLoop Stmt.contents := by
  intro scope sound
  refine .expect_bind (by decide) (leadsOn_inBlock ?_ scope sound)
  intro scope sound
  refine .bind (h.leadsOn_forInit inLoop scope sound).lax fun init a hinit => ?_
  refine .bind (h.leadsOn_valueUnless inLoop ";" a hinit.sound) fun cond b hcond => ?_
  refine .expect_bind (by decide) ?_
  refine .bind (h.leadsOn_valueUnless inLoop ")" b hcond.sound) fun step c hstep => ?_
  refine .expect_bind (by decide)
    (.bind (h.inner true c hstep.sound).lax fun body d hbody => .pure ?_)
  rw [Stmt.contents_forLoop]
  exact hinit.trans h.mono (hcond.trans h.mono (hstep.trans h.mono hbody.caught))

/-- A return leads on with its value. -/
theorem leadsOn_ret : parts.ret.LeadsOn Ahead P true inLoop Stmt.contents := by
  intro scope sound
  refine .accept_bind (by decide) (.pure (.refl sound)) ?_
  refine .bindTaken (h.leadsOn_value inLoop scope sound) fun e scope' leads => ?_
  exact .expect_bind (by decide) (.pure leads)

/-- A conditional leads on with both branches. -/
theorem leadsOn_ifElse : (parts.ifElse inLoop).LeadsOn Ahead P true inLoop Stmt.contents := by
  intro scope sound
  refine .bindTaken (h.leadsOn_condition inLoop scope sound) fun cond a hcond => ?_
  refine .bind (h.inner inLoop a hcond.sound).lax fun yes b hyes => ?_
  have done : ∀ no? c, Leads P inLoop b (contentsOfStmt? no?) c →
      Leads P inLoop scope (Stmt.ifElse cond yes no?).contents c := fun no? c hno =>
    hcond.trans h.mono (hyes.trans h.mono hno)
  refine .accept_bind (by decide) ?_ ?_
  · refine .bind (R := fun no? c => Leads P inLoop b (contentsOfStmt? no?) c)
      (.map (h.inner inLoop b hyes.sound).lax) fun no? c hno => .pure (done no? c hno)
  · exact .bind (.pure (Leads.refl hyes.sound)) fun no? c hno => .pure (done no? c hno)

/-- A loop leads on with its body, which may jump out. -/
theorem leadsOn_whileLoop : parts.whileLoop.LeadsOn Ahead P true inLoop Stmt.contents := by
  intro scope sound
  refine .bindTaken (h.leadsOn_condition inLoop scope sound) fun cond a hcond => ?_
  refine .bind (h.inner true a hcond.sound).lax fun body b hbody => .pure ?_
  exact hcond.trans h.mono hbody.caught

/-- As `leadsOn_whileLoop`, the condition being read last. -/
theorem leadsOn_doWhile : parts.doWhile.LeadsOn Ahead P true inLoop Stmt.contents := by
  intro scope sound
  refine .bindTaken (h.inner true scope sound) fun body a hbody => ?_
  refine .expect_bind (by decide) ?_
  refine .bind (h.leadsOn_condition inLoop a hbody.sound).lax fun cond b hcond => ?_
  refine .expect_bind (by decide) (.pure ?_)
  rw [Stmt.contents_doWhile]
  exact hbody.caught.trans h.mono hcond

/-- A statement leads on, one case for each word it can begin with. -/
theorem leadsOn_statement : (parts.statement inLoop).LeadsOn Ahead P true inLoop Stmt.contents := by
  intro scope sound
  refine .peek_bind fun t _ _ => .ite (fun kind => ?_) fun _ => ?_
  · refine .fail fun t' eq notMarker => ?_
    rw [eq] at notMarker
    exact absurd kind notMarker
  have block : (parts.block inLoop).LeadsOn Ahead P true inLoop contentsOfStmts :=
    leadsOn_block (h.inner inLoop) h.mono
  have word : ∀ {s : String}, t.is s = true → s ∉ Token.reserved true →
      ∀ t', t' = t → t'.Takeable true := by
    rintro s is free t' rfl
    exact Token.takeable_of_is is free
  refine .ite (fun _ => .bindTaken (block scope sound).anywhere fun _ _ leads => .pure leads)
    fun _ => ?_
  refine .ite (fun _ => (h.leadsOn_declaration inLoop scope sound).anywhere) fun _ => ?_
  refine .accept_bind (by decide) (.pure (.refl sound)) ?_
  refine .accept_bind (by decide) (h.leadsOn_ret inLoop scope sound).lax ?_
  refine .accept_bind (by decide) (h.leadsOn_ifElse inLoop scope sound).lax ?_
  refine .accept_bind (by decide) (h.leadsOn_whileLoop inLoop scope sound).lax ?_
  refine .accept_bind (by decide) (h.leadsOn_doWhile inLoop scope sound).lax ?_
  refine .accept_bind (by decide) (h.leadsOn_forLoop inLoop scope sound).lax ?_
  simp only [Bool.false_eq_true, if_false]
  refine .ite (fun is => leadsOn_jump P inLoop rfl (word is (by decide)) sound) fun _ => ?_
  refine .ite (fun is => leadsOn_jump P inLoop rfl (word is (by decide)) sound) fun _ => ?_
  refine .refuseUnsupported_bind ?_
  refine .bindTaken (h.leadsOn_value inLoop scope sound).anywhere fun e scope' leads => ?_
  exact .expect_bind (by decide) (.pure leads)

end PartsProperty

/-! ## Bodies of functions -/

/-- What has to be known of expressions read inside statements. -/
structure ExpressionProperty (Ahead : Token → Prop) (P : Nat → Expr → Prop) : Prop where
  mono : SlotProperty P
  expression : ∀ (vars : Variables) (slots nesting height : Nat), (∀ v ∈ vars, v.2 < slots) →
    nesting < maxNesting → height < maxHeight →
      (expression vars nesting height).Reads Ahead true true (fun _ => True) (P slots)

section Bodies

variable (h : ExpressionProperty Ahead P)

include h

/-- At every depth, by induction on what is left of it, where the parts are those one level deeper.
-/
theorem leadsOn_statement (nesting height : Nat) (hn : nesting ≤ maxNesting)
    (hh : height ≤ maxHeight) (inLoop : Bool) :
    (statement nesting height inLoop).LeadsOn Ahead P true inLoop Stmt.contents := by
  -- A statement inside of another one is read with less nesting and less height.
  induction nesting generalizing height inLoop with
  | zero => exact fun scope _ => .fail fun _ _ _ _ => nofun
  | succ nesting ih =>
    cases height with
    | zero => exact fun scope _ => .fail fun _ _ _ _ => nofun
    | succ height =>
      apply PartsProperty.leadsOn_statement
      exact ⟨h.mono, fun vars slots below => h.expression vars slots nesting height below hn hh,
        ih height (Nat.le_of_lt hn) (Nat.le_of_lt hh)⟩

/-- The body of a function leads on with its statements, outside every loop. -/
theorem leadsOn_functionBody {takes : Bool} :
    functionBody.LeadsOn Ahead P takes false contentsOfStmts :=
  leadsOn_block (leadsOn_statement h maxNesting maxHeight (Nat.le_refl _) (Nat.le_refl _) false)
    h.mono

/-- The body of a function is what obeys the rules inside the outermost braces. -/
theorem run_functionBody {scope : Scope} (sound : scope.Sound) :
    ∃ inside : Parser (List Stmt × Scope),
      functionBody.run scope = (fun r => (r.1, { r.2 with vars := scope.vars })) <$>
        Parser.braces inside ∧
      inside.Reads Ahead true false (fun _ => True) fun r =>
        Leads P false scope (contentsOfStmts r.1) r.2 := by
  have inner := leadsOn_statement h maxNesting maxHeight (Nat.le_refl _) (Nat.le_refl _) false
  exact ⟨_, Parts.run_block _ _ _, reads_insideBlock inner h.mono sound⟩

end Bodies

end Grammar

end BareC
