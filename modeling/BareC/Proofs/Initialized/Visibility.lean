import BareC.Proofs.Grammar.Slots

/-!
# Which slots a statement sees

A name stands for a slot only where it has been declared, and is forgotten at the end of the block
that declares it. On trees, where there are no names any more, this is a relation between a
statement and the slots that are seen in front of it and behind it (`Stmt.Sees`). A slot is seen in
the initial value of its own declaration. What stands under a condition passes on what it declares,
unless it has braces.

The relation holds of the body of every function of a unit, since the grammar keeps the names in
scope in the same way. As nothing is said here of parsers that fail, it is enough to look at what a
parser yields.

What is seen is a set that only grows inside a function, since slots are never handed out again. So
a slot that is seen behind a block stays in the relation although its name is gone, and it is the
names in scope that keep expressions from reading it.
-/

namespace BareC

/-! ## Slots that are read -/

mutual

/-- The slots that an expression reads, each as often as it is read. -/
def Expr.reads : Expr → List Nat
  | .num _ => []
  | .var slot => [slot]
  | .assign _ value => value.reads
  | .unary _ operand => operand.reads
  | .binary _ left right | .logicalAnd left right | .logicalOr left right =>
    left.reads ++ right.reads
  | .call _ args => readsOfArgs args

def readsOfArgs : List Expr → List Nat
  | [] => []
  | e :: es => e.reads ++ readsOfArgs es

end

/-- Arguments read what each of them reads. -/
theorem readsOfArgs_subset {args : List Expr} {seen : List Nat} (h : ∀ e ∈ args, e.reads ⊆ seen) :
    readsOfArgs args ⊆ seen := by
  induction args with
  | nil => exact List.nil_subset seen
  | cons e es ih =>
    obtain ⟨first, others⟩ := List.forall_mem_cons.mp h
    exact List.append_subset.mpr ⟨first, ih others⟩

/-! ## Slots that are seen -/

mutual

/-- The statement reads no other slots than it sees, and these are seen behind it. -/
inductive Stmt.Sees : (seen : List Nat) → Stmt → (behind : List Nat) → Prop
  | ret {seen value} : (∀ e ∈ value, e.reads ⊆ seen) → Stmt.Sees seen (.ret value) seen
  | expr {seen e} : e.reads ⊆ seen → Stmt.Sees seen (.expr e) seen
  | decl {seen slot init} : (∀ e ∈ init, e.reads ⊆ slot :: seen) →
    Stmt.Sees seen (.decl slot init) (slot :: seen)
  | ifElse {seen seen' behind cond yes no} : cond.reads ⊆ seen → Stmt.Sees seen yes seen' →
    SeesAll seen' no.toList behind → Stmt.Sees seen (.ifElse cond yes no) behind
  | whileLoop {seen behind cond body} : cond.reads ⊆ seen → Stmt.Sees seen body behind →
    Stmt.Sees seen (.whileLoop cond body) behind
  | doWhile {seen behind body cond} : Stmt.Sees seen body behind → cond.reads ⊆ behind →
    Stmt.Sees seen (.doWhile body cond) behind
  | forLoop {seen seen' behind init cond step body} : SeesAll seen init.toList seen' →
    (∀ e ∈ cond, e.reads ⊆ seen') → (∀ e ∈ step, e.reads ⊆ seen') → Stmt.Sees seen' body behind →
      Stmt.Sees seen (.forLoop init cond step body) seen
  | breakLoop {seen} : Stmt.Sees seen .breakLoop seen
  | continueLoop {seen} : Stmt.Sees seen .continueLoop seen
  | empty {seen} : Stmt.Sees seen .empty seen
  /-- A block with braces. -/
  | block {seen behind stmts} : SeesAll seen stmts behind → Stmt.Sees seen (.block stmts) seen
  /-- A declaration of several variables. -/
  | declaration {seen behind stmts} : (∀ s ∈ stmts, ∃ slot init, s = .decl slot init) →
    SeesAll seen stmts behind → Stmt.Sees seen (.block stmts) behind

/-- Statements one behind the other. -/
inductive SeesAll : (seen : List Nat) → List Stmt → (behind : List Nat) → Prop
  | nil {seen} : SeesAll seen [] seen
  | cons {seen seen' behind s ss} : Stmt.Sees seen s seen' → SeesAll seen' ss behind →
    SeesAll seen (s :: ss) behind

end

/-- One statement is in sight as a list. -/
theorem SeesAll.singleton {seen behind : List Nat} {s : Stmt} (h : s.Sees seen behind) :
    SeesAll seen [s] behind :=
  .cons h .nil

namespace Grammar

/-! ## Expressions -/

/-- The slots that can be named. -/
def Variables.slots (vars : Variables) : List Nat :=
  vars.map (·.2)

variable {Ahead : Token → Prop}

/-- Reading only variables in scope is a property of the grammar. -/
theorem grammarProperty_reads (vars : Variables) :
    GrammarProperty Ahead vars (fun _ _ e => e.reads ⊆ vars.slots) (fun _ _ e =>
      e.reads ⊆ vars.slots) where
  operand nesting height :=
    { inner := fun e ⟨_, _, _, _, he⟩ => he
      num := fun _ => List.nil_subset _
      var := fun _ _ found =>
        List.cons_subset.mpr ⟨List.mem_map_of_mem (mem_of_lookup found), List.nil_subset _⟩
      call := fun _ _ _ _ _ ha => readsOfArgs_subset fun e mem =>
        let ⟨_, _, _, _, he⟩ := ha e mem
        he
      unary := fun _ _ ⟨_, _, _, _, he⟩ => he
      stepped := fun _ _ ⟨_, _, _, _, hs⟩ => List.append_subset.mpr ⟨hs, List.nil_subset _⟩
      stepAfter := fun _ _ _ hs => by
        have stepped := List.append_subset.mpr ⟨hs, List.nil_subset _⟩
        exact List.append_subset.mpr ⟨stepped, List.nil_subset _⟩ }
  weaken _ _ _ he := he
  binary _ _ _ height ho :=
    reads_binary (fun _ _ hl hr =>
      have both := List.append_subset.mpr ⟨hl, hr⟩
      ⟨both, both, fun _ => both⟩) ho (fun _ mem => mem) height
  assign := by
    rintro _ _ stored mem slot e hs ⟨_, _, _, _, he⟩
    have all : ∀ stored ∈ assignments, (stored.2 slot e).reads ⊆ vars.slots := by
      have both : (Expr.var slot).reads ++ e.reads ⊆ vars.slots := List.append_subset.mpr ⟨hs, he⟩
      simp only [assignments, List.map_cons, List.map_nil, List.forall_mem_cons]
      exact ⟨he, both, both, both, both, both, both, both, both, both, both, List.forall_mem_nil _⟩
    exact all stored mem

/-! ## What parsers yield -/

/-- Whatever the parser reads and wherever, it has the property. -/
def Parser.Yields {α : Type} (p : Parser α) (P : α → Prop) : Prop :=
  ∀ c a c', p.run c = .ok (a, c') → P a

/-- The same for a parser that may declare variables, from a scope. -/
def ScopedParser.Yields {α : Type} (p : ScopedParser α) (scope : Scope)
    (P : α → Scope → Prop) : Prop :=
  Parser.Yields (p.run scope) fun r => P r.1 r.2

namespace Parser

variable {α β : Type} {P : α → Prop} {R : β → Prop}

/-- What two parsers in a row yield. -/
theorem Yields.bind {p : Parser β} {f : β → Parser α} (hp : p.Yields R)
    (hf : ∀ b, R b → (f b).Yields P) : (p >>= f).Yields P := by
  intro c a c'' run
  rw [StateT.run_bind] at run
  cases read : p.run c with
  | error failed =>
    rw [read] at run
    cases run
  | ok r =>
    rw [read] at run
    exact hf r.1 (hp c r.1 r.2 read) r.2 a c'' run

/-- A result yields itself. -/
theorem yields_pure {a : α} (h : P a) : (pure a : Parser α).Yields P := by
  intro c a' c' run
  cases run
  exact h

/-- Nothing is claimed of a parser's result. -/
theorem yields_any (p : Parser α) : p.Yields fun _ => True := fun _ _ _ _ => trivial

/-- A failure yields nothing. -/
theorem yields_failOn (line : LineNumber) (fault : SyntaxFault) :
    (failOn line fault : Parser α).Yields P := nofun

/-- As `yields_failOn` -/
theorem yields_fail (fault : SyntaxFault) : (fail fault : Parser α).Yields P :=
  (yields_any peek).bind fun _ _ => by
    split <;> exact yields_failOn _ _

end Parser

namespace ScopedParser

variable {α β : Type} {scope : Scope} {P : α → Scope → Prop} {R : β → Scope → Prop}

namespace Yields

/-- A result yields itself in its scope. -/
theorem pure {a : α} (h : P a scope) : Yields (Pure.pure a) scope P :=
  Parser.yields_pure h

/-- What two parsers in a row yield, the second in the scope of the first. -/
theorem bind {p : ScopedParser β} {f : β → ScopedParser α} (hp : p.Yields scope R)
    (hf : ∀ b scope', R b scope' → (f b).Yields scope' P) : (p >>= f).Yields scope P :=
  Parser.Yields.bind (p := p.run scope) hp fun r hr => hf r.1 r.2 hr

/-- What is yielded may be claimed in part. -/
theorem mono {p : ScopedParser α} {Q : α → Scope → Prop} (hp : p.Yields scope Q)
    (h : ∀ a scope', Q a scope' → P a scope') : p.Yields scope P := fun c r c' run =>
  h r.1 r.2 (hp c r c' run)

/-- A function of the result yields its value. -/
theorem map {p : ScopedParser β} {f : β → α} (hp : p.Yields scope fun b => P (f b)) :
    (f <$> p).Yields scope P := by
  rw [map_eq_pure_bind]
  exact hp.bind fun b scope' h => .pure h

/-- A choice yields what both its branches do. -/
theorem ite {b : Prop} [Decidable b] {p q : ScopedParser α} (hp : p.Yields scope P)
    (hq : q.Yields scope P) : (if b then p else q).Yields scope P := by
  split
  · exact hp
  · exact hq

/-- Looking at the scope, one sees it. -/
theorem get_bind {f : Scope → ScopedParser α} (hf : (f scope).Yields scope P) :
    ((MonadState.get : ScopedParser Scope) >>= f).Yields scope P :=
  hf

/-- Behind a change of the scope it is the new one. -/
theorem set_bind {f : PUnit → ScopedParser α} {scope' : Scope} (hf : (f ⟨⟩).Yields scope' P) :
    ((MonadStateOf.set scope' : ScopedParser PUnit) >>= f).Yields scope P :=
  hf

/-- Looking at the cursor says nothing of the scope. -/
theorem cursor_bind {f : Cursor → ScopedParser α} (hf : ∀ c, (f c).Yields scope P) :
    ((getThe Cursor : ScopedParser Cursor) >>= f).Yields scope P := fun c => hf c c

/-- A parser that knows no scope. -/
theorem lift_bind {S : β → Prop} {p : Parser β} {f : β → ScopedParser α} (hp : p.Yields S)
    (hf : ∀ b, S b → (f b).Yields scope P) : ((liftM p : ScopedParser β) >>= f).Yields scope P := by
  rw [Yields, run_lift_bind]
  exact hp.bind hf

/-- Nothing need be known of what it reads. -/
theorem skip_bind {p : Parser β} {f : β → ScopedParser α} (hf : ∀ b, (f b).Yields scope P) :
    ((liftM p : ScopedParser β) >>= f).Yields scope P :=
  lift_bind (Parser.yields_any p) fun b _ => hf b

/-- A parser without a scope yields its result and leaves the scope. -/
theorem lifted {S : α → Prop} {p : Parser α} (hp : p.Yields S) (h : ∀ a, S a → P a scope) :
    (liftM p : ScopedParser α).Yields scope P := by
  rw [← bind_pure (liftM p : ScopedParser α)]
  exact lift_bind hp fun a ha => .pure (h a ha)

/-- As `Parser.yields_fail` -/
theorem fail {fault : SyntaxFault} :
    (liftM (Parser.fail fault : Parser α) : ScopedParser α).Yields scope P :=
  lifted (S := fun _ => False) (Parser.yields_fail fault) nofun

/-- Nothing is yielded behind a failure. -/
theorem fail_bind {fault : SyntaxFault} {f : β → ScopedParser α} :
    ((liftM (Parser.fail fault) : ScopedParser β) >>= f).Yields scope P :=
  lift_bind (S := fun _ => False) (Parser.yields_fail fault) nofun

/-- As `Yields.fail_bind`, for a failure on a line of its own. -/
theorem failOn_bind {line : LineNumber} {fault : SyntaxFault} {f : β → ScopedParser α} :
    ((liftM (Parser.failOn line fault) : ScopedParser β) >>= f).Yields scope P :=
  lift_bind (S := fun _ => False) (Parser.yields_failOn line fault) nofun

end Yields

end ScopedParser

/-! ## Declarations of variables -/

/-- The slots that can be named in a scope. -/
def Scope.seen (scope : Scope) : List Nat :=
  scope.vars.slots

/-- A declaration brings its slot into sight. -/
theorem yields_declare (name : Token) (scope : Scope) :
    (declare name).Yields scope fun slot scope' => scope'.seen = slot :: scope.seen :=
  .get_bind (.ite .failOn_bind (.set_bind (.pure rfl)))

/-- A block takes its names out of scope at its end, and the slots stay seen. -/
theorem yields_inBlock {α : Type} {p : ScopedParser α} {scope : Scope} {P : α → Scope → Prop}
    (hp : p.Yields scope fun a scope' => P a { scope' with vars := scope.vars }) :
    (inBlock p).Yields scope P := by
  rw [ScopedParser.Yields, run_inBlock, map_eq_pure_bind]
  exact Parser.Yields.bind hp fun r hr => Parser.yields_pure hr

/-! ## Statements -/

/-- What has to be known of the parts of statements. -/
structure PartsSee (parts : Parts) : Prop where
  expr : ∀ vars, (parts.expr vars).Yields fun e => e.reads ⊆ vars.slots
  inner : ∀ inLoop scope, (parts.inner inLoop).Yields scope fun s scope' =>
    s.Sees scope.seen scope'.seen

/-- A jump reads what it says and brings nothing into sight. -/
theorem yields_jump (inLoop : Bool) {s : Stmt} {scope : Scope}
    (sees : s.Sees scope.seen scope.seen) :
    (Parts.jump inLoop s).Yields scope fun s scope' => s.Sees scope.seen scope'.seen :=
  .skip_bind fun _ => .ite .failOn_bind (.skip_bind fun _ => .pure sees)

namespace PartsSee

variable {parts : Parts} (h : PartsSee parts) (inLoop : Bool) (scope : Scope)

include h

/-- A value reads what is in sight. -/
theorem value : parts.value.Yields scope fun e scope' => e.reads ⊆ scope.seen ∧ scope' = scope :=
  .get_bind (.lifted (h.expr scope.vars) fun _ he => ⟨he, rfl⟩)

/-- As `PartsSee.value`, for one that may be missing. -/
theorem value? : (some <$> parts.value).Yields scope fun e? scope' =>
    (∀ e ∈ e?, e.reads ⊆ scope.seen) ∧ scope' = scope :=
  .map ((h.value scope).mono fun _ _ he => ⟨fun _ mem => Option.some.inj mem ▸ he.1, he.2⟩)

/-- As `PartsSee.value`, for a condition. -/
theorem condition : parts.condition.Yields scope fun e scope' =>
    e.reads ⊆ scope.seen ∧ scope' = scope :=
  .skip_bind fun _ => .bind (h.value scope) fun _ _ he => .skip_bind fun _ => .pure he

/-- As `PartsSee.value`, for one that may be left out. -/
theorem valueUnless (s : String) : (parts.valueUnless s).Yields scope fun e? scope' =>
    (∀ e ∈ e?, e.reads ⊆ scope.seen) ∧ scope' = scope :=
  .skip_bind fun _ => .ite (.pure ⟨nofun, rfl⟩) (h.value? scope)

/-- Statements see one another's declarations in order, behind those already read. -/
theorem statements (bound : List Token) (read : List Stmt) :
    (parts.statements inLoop bound read).Yields scope fun ss scope' =>
      ∃ more, ss = read.reverse ++ more ∧ SeesAll scope.seen more scope'.seen := by
  induction bound generalizing read scope with
  | nil =>
    rw [Parts.statements_nil]
    refine .skip_bind fun _ =>
      .ite (.pure ⟨[], (List.append_nil _).symm, .nil⟩) (.cursor_bind fun _ => ?_)
    exact .ite .fail_bind (.bind (h.inner inLoop scope) fun _ _ _ => .fail)
  | cons t bound ih =>
    rw [Parts.statements_cons]
    refine .skip_bind fun _ =>
      .ite (.pure ⟨[], (List.append_nil _).symm, .nil⟩) (.cursor_bind fun _ => ?_)
    refine .ite .fail_bind (.bind (h.inner inLoop scope) fun s scope' first => ?_)
    refine (ih scope' (s :: read)).mono ?_
    rintro _ _ ⟨more, rfl, others⟩
    exact ⟨s :: more, by simp, .cons first others⟩

/-- A block's declarations go out of sight at its end. -/
theorem block : (parts.block inLoop).Yields scope fun ss scope' =>
    (∃ behind, SeesAll scope.seen ss behind) ∧ scope'.seen = scope.seen := by
  refine .skip_bind fun _ => yields_inBlock ?_
  refine .cursor_bind fun c => .bind (h.statements inLoop scope c.ahead []) ?_
  rintro _ scope' ⟨ss, rfl, all⟩
  exact .skip_bind fun _ => .pure ⟨⟨_, all⟩, rfl⟩

/-- A declarator's initial value may already see its slot. -/
theorem declarator : parts.declarator.Yields scope fun s scope' =>
    (∃ slot init, s = .decl slot init) ∧ s.Sees scope.seen scope'.seen := by
  refine .skip_bind fun _ => .skip_bind fun name => .skip_bind fun _ => .ite .fail_bind ?_
  refine .bind (yields_declare name scope) fun slot scope' declared => .skip_bind fun _ => ?_
  have done : ∀ init, (∀ e ∈ init, e.reads ⊆ scope'.seen) →
      (∃ slot' init', Stmt.decl slot init = .decl slot' init') ∧
        (Stmt.decl slot init).Sees scope.seen scope'.seen := by
    intro init seen
    rw [declared] at seen ⊢
    exact ⟨⟨slot, init, rfl⟩, .decl seen⟩
  refine .ite ?_ (.bind (R := fun init s => init = none ∧ s = scope') (.pure ⟨rfl, rfl⟩) ?_)
  · refine .bind (h.value? scope') ?_
    rintro init _ ⟨seen, rfl⟩
    exact .pure (done init seen)
  · rintro _ _ ⟨rfl, rfl⟩
    exact .pure (done none nofun)

/-- Declarators see one another in order. -/
theorem declarators (bound : List Token) (read : List Stmt) :
    (parts.declarators bound read).Yields scope fun ds scope' => ∃ more, ds = read.reverse ++ more ∧
      (∀ s ∈ more, ∃ slot init, s = .decl slot init) ∧ SeesAll scope.seen more scope'.seen := by
  induction bound generalizing read scope with
  | nil =>
    rw [Parts.declarators_nil]
    exact .bind (h.declarator scope) fun _ _ _ => .fail
  | cons t bound ih =>
    rw [Parts.declarators_cons]
    refine .bind (h.declarator scope) fun d scope' ⟨isDecl, first⟩ => .skip_bind fun _ => .ite ?_ ?_
    · refine (ih scope' (d :: read)).mono ?_
      rintro _ _ ⟨more, rfl, areDecls, others⟩
      exact ⟨d :: more, by simp, List.forall_mem_cons.mpr ⟨isDecl, areDecls⟩, .cons first others⟩
    · exact .skip_bind fun _ =>
        .pure ⟨[d], by simp, List.forall_mem_singleton.mpr isDecl, .singleton first⟩

/-- A declaration sees what it reads. -/
theorem declaration : parts.declaration.Yields scope fun s scope' =>
    s.Sees scope.seen scope'.seen := by
  refine .skip_bind fun _ => .cursor_bind fun c => .bind (h.declarators scope c.ahead []) ?_
  rintro ds scope' ⟨_, rfl, areDecls, all⟩
  match ds, areDecls, all with
  | [], areDecls, all | _ :: _ :: _, areDecls, all => exact .pure (.declaration areDecls all)
  | [d], _, .cons first .nil => exact .pure first

/-- The first part of a loop's header sees what it reads. -/
theorem forInit : parts.forInit.Yields scope fun init scope' =>
    SeesAll scope.seen init.toList scope'.seen := by
  refine .skip_bind fun _ => .ite (.pure .nil) (.skip_bind fun _ => .ite ?_ ?_)
  · exact .map ((h.declaration scope).mono fun _ _ hs => .singleton hs)
  · refine .bind (h.value scope) ?_
    rintro e _ ⟨seen, rfl⟩
    exact .skip_bind fun _ => .pure (.singleton (.expr seen))

/-- A loop's header is in sight of its body. -/
theorem forLoop : parts.forLoop.Yields scope fun s scope' => s.Sees scope.seen scope'.seen := by
  refine .skip_bind fun _ => yields_inBlock (.bind (h.forInit scope) fun init scope' hinit => ?_)
  refine .bind (h.valueUnless scope' ";") ?_
  rintro cond _ ⟨hcond, rfl⟩
  refine .skip_bind fun _ => .bind (h.valueUnless _ ")") ?_
  rintro step _ ⟨hstep, rfl⟩
  refine .skip_bind fun _ => .bind (h.inner true _) fun body scope'' hbody => ?_
  exact .pure (.forLoop hinit hcond hstep hbody)

/-- A return sees what it reads. -/
theorem ret : parts.ret.Yields scope fun s scope' => s.Sees scope.seen scope'.seen := by
  refine .skip_bind fun _ => .ite (.pure (.ret nofun)) (.bind (h.value scope) ?_)
  rintro e _ ⟨seen, rfl⟩
  exact .skip_bind fun _ => .pure (.ret fun _ mem => Option.some.inj mem ▸ seen)

/-- A conditional and its branches see what they read. -/
theorem ifElse : (parts.ifElse inLoop).Yields scope fun s scope' =>
    s.Sees scope.seen scope'.seen := by
  refine .bind (h.condition scope) ?_
  rintro cond scope ⟨seen, rfl⟩
  refine .bind (h.inner inLoop _) fun yes scope' hyes => .skip_bind fun _ => ?_
  have done : ∀ (no : Option Stmt) (scope'' : Scope), SeesAll scope'.seen no.toList scope''.seen →
      (pure (Stmt.ifElse cond yes no) : ScopedParser Stmt).Yields scope'' fun s scope'' =>
        s.Sees scope.seen scope''.seen := fun no scope'' hno => .pure (.ifElse seen hyes hno)
  refine .ite (.bind (.map ?_) done) (.bind (.pure SeesAll.nil) done)
  exact (h.inner inLoop scope').mono fun _ _ hno => .singleton hno

/-- A loop and its body see what they read. -/
theorem whileLoop : parts.whileLoop.Yields scope fun s scope' => s.Sees scope.seen scope'.seen := by
  refine .bind (h.condition scope) ?_
  rintro cond _ ⟨seen, rfl⟩
  exact .bind (h.inner true _) fun body scope' hbody => .pure (.whileLoop seen hbody)

/-- As `PartsSee.whileLoop`, the condition being read last. -/
theorem doWhile : parts.doWhile.Yields scope fun s scope' => s.Sees scope.seen scope'.seen := by
  refine .bind (h.inner true scope) fun body scope' hbody => .skip_bind fun _ => ?_
  refine .bind (h.condition scope') ?_
  rintro cond _ ⟨seen, rfl⟩
  exact .skip_bind fun _ => .pure (.doWhile hbody seen)

/-- A statement sees what it reads, one case for each word it can begin with. -/
theorem statement : (parts.statement inLoop).Yields scope fun s scope' =>
    s.Sees scope.seen scope'.seen := by
  have block : (Stmt.block <$> parts.block inLoop).Yields scope fun s scope' =>
      s.Sees scope.seen scope'.seen := by
    refine .map ((h.block inLoop scope).mono ?_)
    rintro ss scope' ⟨⟨behind, all⟩, forgotten⟩
    rw [forgotten]
    exact .block all
  rw [map_eq_pure_bind] at block
  refine .skip_bind fun t => .ite .fail (.ite block (.ite (h.declaration scope) ?_))
  refine .skip_bind fun _ => .ite (.pure .empty) (.skip_bind fun _ => .ite (h.ret scope) ?_)
  refine .skip_bind fun _ =>
    .ite (h.ifElse inLoop scope) (.skip_bind fun _ => .ite (h.whileLoop scope) ?_)
  refine .skip_bind fun _ => .ite (h.doWhile scope) (.skip_bind fun _ => .ite (h.forLoop scope) ?_)
  refine .ite (yields_jump inLoop .breakLoop) (.ite (yields_jump inLoop .continueLoop) ?_)
  refine .skip_bind fun _ => .bind (h.value scope) ?_
  rintro e _ ⟨seen, rfl⟩
  exact .skip_bind fun _ => .pure (.expr seen)

end PartsSee

/-- An expression reads only the slots in scope. -/
theorem yields_expression (vars : Variables) (nesting height : Nat) :
    (expression vars nesting height).Yields fun e => e.reads ⊆ vars.slots := fun _ _ _ run =>
  have reads : (expression vars nesting height).Reads (fun _ => True) true true (fun _ => True) _ :=
    (grammarProperty_reads vars).reads_expression nesting height
  reads.value (fun _ _ => trivial) trivial run

/-- A statement sees what it reads at every depth, by induction on what is left of it. -/
theorem yields_statement (nesting height : Nat) (inLoop : Bool) (scope : Scope) :
    (statement nesting height inLoop).Yields scope fun s scope' =>
    s.Sees scope.seen scope'.seen := by
  induction nesting generalizing height inLoop scope with
  | zero => exact .fail
  | succ nesting ih =>
    cases height with
    | zero => exact .fail
    | succ height =>
      exact PartsSee.statement ⟨fun vars => yields_expression vars nesting height, ih height⟩
        inLoop scope

/-- The body of a function sees what it reads, its parameters being in sight. -/
theorem yields_functionBody (scope : Scope) :
    functionBody.Yields scope fun body _ => ∃ behind, SeesAll scope.seen body behind :=
  (PartsSee.block ⟨fun vars => yields_expression vars maxNesting maxHeight,
    yields_statement maxNesting maxHeight⟩ false scope).mono fun _ _ hs => hs.1

end Grammar

/-! ## Functions of a unit -/

/-- What the body of a function sees at first are parameters. -/
def Function.Sees (f : Function) : Prop :=
  ∃ seen behind, (∀ slot ∈ seen, slot < f.params) ∧ SeesAll seen f.body behind

namespace Grammar

/-- The function that is read from a definition sees what it reads. -/
theorem sees_of_definition? {s : Signature} (sound : s.Sound fun _ => True) {c c' : Cursor}
    {f : Function} (run : (definition? s).run c = .ok (some f, c')) : f.Sees := by
  have body :
      ((fun r => some (s.define r)) <$> functionBody.run s.scope : Parser (Option Function)).Yields
      fun f? => ∀ f ∈ f?, f.Sees := by
    rw [map_eq_pure_bind]
    refine Parser.Yields.bind (yields_functionBody s.scope)
      fun r ⟨behind, all⟩ => Parser.yields_pure ?_
    rintro f ⟨⟩
    refine ⟨s.scope.seen, behind, fun slot mem => ?_, all⟩
    obtain ⟨v, known, rfl⟩ := List.mem_map.mp mem
    exact sound.vars v known
  rw [run_definition?] at run
  split at run
  next => cases run
  next =>
    split at run
    next => exact body c (some f) c' run f rfl
    next =>
      exact absurd rfl (Parser.yields_fail (P := fun _ => (none : Option Unit) ≠ none) _ c _ c' run)

/-- Every step keeps this of the functions that were read. -/
theorem Reading.Step.sees {u u' : Reading} (step : u.Step u')
    (h : ∀ f, .function f ∈ u.items → f.Sees) (f : Function)
    (mem : .function f ∈ u'.items) : f.Sees := by
  have refused : ∀ d, .function f ∈ u.items.push (.error d) → f.Sees := by
    intro d mem
    rcases Array.mem_push.mp mem with mem | new
    · exact h f mem
    · cases new
  cases step with
  | marker | headerRefused | bodyRefused => exact refused _ mem
  | prototype => exact h f mem
  | function run run' =>
    have reads : (header u.declared).Reads (fun _ => True) false true (fun _ => True) _ :=
      reads_header u.declared
    have signature := reads.value (fun _ _ => trivial) trivial run
    rcases Array.mem_push.mp mem with mem | new
    · exact h f mem
    · cases new
      exact sees_of_definition? signature.1 run'

end Grammar

/-- Every function of a program sees what it reads. -/
theorem Program.sees_of_mem_functions {ts : List Token} {f : Function}
    (h : f ∈ (ofTokens ts).functions) : f.Sees := by
  let cursor := Grammar.Cursor.ofTokens ts
  have start : ∀ f, .function f ∈ ({ cursor } : Grammar.Reading).items → f.Sees := fun f mem =>
    absurd mem (Array.not_mem_empty _)
  have sees : ∀ f, .function f ∈ (Grammar.Reading.finish cursor.ahead { cursor }).items → f.Sees :=
    Grammar.Reading.finish_induction start fun u hu => u.step_cases.sees hu
  exact sees f (Array.mem_toList_iff.mp (mem_functions.mp (mem_functions_of_link h)))

end BareC
