import BareC.Proofs.Grammar.Expressions
import Mathlib.Data.List.Basic

/-!
# What the statements of a unit are made of

A statement hands out slots one after the other and never takes one back, also where the names of a
block are forgotten. So every slot from the first to the last is declared once, and what is known of
the expressions read with some variables in scope is known of the statements around them. A jump
that no loop around it catches is only read where the statement itself stands in a loop.

`Contents` is the summary of a statement: its expressions, the slots it declares and whether it
jumps out. `Leads` says how a scope goes on behind something with these contents, and it splits over
`append`, so that a list of statements needs no induction of its own in the proofs that use it.

A slot is not said to be used. And what stands in a slot at run time is not a matter of scopes; see
`Initialized`.
-/

namespace BareC

/-! ## Parts of statements -/

mutual

/-- The expressions that stand in a statement, in the order in which they are written. -/
def Stmt.exprs : Stmt → List Expr
  | .ret value => value.toList
  | .expr e => [e]
  | .decl _ init => init.toList
  | .ifElse cond yes no => cond :: (yes.exprs ++ exprsOfStmt? no)
  | .whileLoop cond body => cond :: body.exprs
  | .doWhile body cond => body.exprs ++ [cond]
  | .forLoop init cond step body =>
    exprsOfStmt? init ++ (cond.toList ++ (step.toList ++ body.exprs))
  | .block stmts => exprsOfStmts stmts
  | .breakLoop | .continueLoop | .empty => []

def exprsOfStmt? : Option Stmt → List Expr
  | none => []
  | some s => s.exprs

def exprsOfStmts : List Stmt → List Expr
  | [] => []
  | s :: ss => s.exprs ++ exprsOfStmts ss

end

mutual

/-- The slots that a statement declares. -/
def Stmt.declared : Stmt → List Nat
  | .decl slot _ => [slot]
  | .ifElse _ yes no => yes.declared ++ declaredByStmt? no
  | .whileLoop _ body | .doWhile body _ => body.declared
  | .forLoop init _ _ body => declaredByStmt? init ++ body.declared
  | .block stmts => declaredByStmts stmts
  | .ret _ | .expr _ | .breakLoop | .continueLoop | .empty => []

def declaredByStmt? : Option Stmt → List Nat
  | none => []
  | some s => s.declared

def declaredByStmts : List Stmt → List Nat
  | [] => []
  | s :: ss => s.declared ++ declaredByStmts ss

end

mutual

/-- A jump of the statement leaves it: it does not stand in the body of a loop of the statement. -/
def Stmt.jumpsOut : Stmt → Bool
  | .breakLoop | .continueLoop => true
  | .ifElse _ yes no => yes.jumpsOut || jumpsOutOfStmt? no
  | .forLoop init _ _ _ => jumpsOutOfStmt? init
  | .block stmts => jumpsOutOfStmts stmts
  | .ret _ | .expr _ | .decl _ _ | .whileLoop _ _ | .doWhile _ _ | .empty => false

def jumpsOutOfStmt? : Option Stmt → Bool
  | none => false
  | some s => s.jumpsOut

def jumpsOutOfStmts : List Stmt → Bool
  | [] => false
  | s :: ss => s.jumpsOut || jumpsOutOfStmts ss

end

/-- What has to be known of a part of a statement: its expressions, the slots that it declares, and
whether a jump leaves it. -/
structure Contents where
  exprs : List Expr := []
  declared : List Nat := []
  jumpsOut : Bool := false

namespace Contents

def append (a b : Contents) : Contents :=
  ⟨a.exprs ++ b.exprs, a.declared ++ b.declared, a.jumpsOut || b.jumpsOut⟩

def ofExpr (e : Expr) : Contents :=
  { exprs := [e] }

def ofExpr? (e? : Option Expr) : Contents :=
  { exprs := e?.toList }

/-- The contents of the body of a loop, seen from outside of the loop. -/
def caught (a : Contents) : Contents :=
  { a with jumpsOut := false }

end Contents

def Stmt.contents (s : Stmt) : Contents :=
  ⟨s.exprs, s.declared, s.jumpsOut⟩

def contentsOfStmt? (s? : Option Stmt) : Contents :=
  ⟨exprsOfStmt? s?, declaredByStmt? s?, jumpsOutOfStmt? s?⟩

def contentsOfStmts (ss : List Stmt) : Contents :=
  ⟨exprsOfStmts ss, declaredByStmts ss, jumpsOutOfStmts ss⟩

/-- The contents of statements are those of the first and of the others. -/
theorem contentsOfStmts_cons (s : Stmt) (ss : List Stmt) :
    contentsOfStmts (s :: ss) = s.contents.append (contentsOfStmts ss) := rfl

/-- One statement has its own contents. -/
theorem contentsOfStmts_singleton (s : Stmt) : contentsOfStmts [s] = s.contents := by
  rw [contentsOfStmts_cons, Contents.append]
  simp only [contentsOfStmts, exprsOfStmts, declaredByStmts, jumpsOutOfStmts, List.append_nil,
    Bool.or_false]

/-- What is known of every function of a unit: its parameters have the first of its slots, all of
its slots fit in a frame, every other slot is declared once, its statements use no others, and no
jump leaves it. -/
structure Function.Sound (P : Nat → Expr → Prop) (f : Function) : Prop where
  params_le : f.params ≤ Grammar.maxParameters
  params_le_locals : f.params ≤ f.locals
  locals_le : f.locals ≤ Grammar.maxSlots
  exprs : ∀ e ∈ exprsOfStmts f.body, P f.locals e
  slots : declaredByStmts f.body = List.range' f.params (f.locals - f.params)
  jumps : jumpsOutOfStmts f.body = false

/-- Every slot a sound function declares is among its locals. -/
theorem Function.Sound.declared {P : Nat → Expr → Prop} {f : Function} (h : f.Sound P) :
    ∀ d ∈ declaredByStmts f.body, d < f.locals := by
  intro d mem
  rw [h.slots, List.mem_range'_1] at mem
  have := h.params_le_locals
  omega

namespace Grammar

/-! ## Scopes -/

/-- The variables in scope have slots that were given out, and not too many were. -/
structure Scope.Sound (scope : Scope) : Prop where
  slots : scope.slots ≤ maxSlots
  vars : ∀ v ∈ scope.vars, v.2 < scope.slots

/-- What may be known of an expression in a function with so many slots. More slots do no harm. -/
structure SlotProperty (P : Nat → Expr → Prop) : Prop where
  mono : ∀ {slots slots' e}, slots ≤ slots' → P slots e → P slots' e

/-- Reading something with these contents led from one scope to another. -/
structure Leads (P : Nat → Expr → Prop) (inLoop : Bool) (scope : Scope) (contents : Contents)
    (scope' : Scope) : Prop where
  grows : scope.slots ≤ scope'.slots
  sound : scope'.Sound
  exprs : ∀ e ∈ contents.exprs, P scope'.slots e
  declared : contents.declared = List.range' scope.slots (scope'.slots - scope.slots)
  jumps : contents.jumpsOut = true → inLoop = true

namespace Leads

variable {P : Nat → Expr → Prop} {inLoop : Bool} {a b c : Scope} {x y : Contents}

/-- Nothing read leads nowhere. -/
theorem refl (h : a.Sound) : Leads P inLoop a {} a :=
  ⟨Nat.le_refl _, h, List.forall_mem_nil _, by rw [Nat.sub_self]; rfl, nofun⟩

/-- An expression leaves the scope as it is. -/
theorem ofExpr (h : a.Sound) {e : Expr} (he : P a.slots e) : Leads P inLoop a (.ofExpr e) a :=
  ⟨Nat.le_refl _, h, List.forall_mem_singleton.mpr he, by rw [Nat.sub_self]; rfl, nofun⟩

/-- In a loop there can be a jump. -/
theorem jump (h : a.Sound) : Leads P true a { jumpsOut := true } a :=
  ⟨Nat.le_refl _, h, List.forall_mem_nil _, by rw [Nat.sub_self]; rfl, fun _ => rfl⟩

/-- What is read in two steps leads through both scopes. -/
theorem trans (mono : SlotProperty P) (h : Leads P inLoop a x b) (h' : Leads P inLoop b y c) :
    Leads P inLoop a (x.append y) c where
  grows := Nat.le_trans h.grows h'.grows
  sound := h'.sound
  exprs e mem := by
    rcases List.mem_append.mp mem with mem | mem
    · exact mono.mono h'.grows (h.exprs e mem)
    · exact h'.exprs e mem
  declared := by
    have first := h.grows
    have second := h'.grows
    rw [Contents.append, h.declared, h'.declared]
    have split : c.slots - a.slots = (b.slots - a.slots) + (c.slots - b.slots) := by omega
    have start : b.slots = a.slots + (b.slots - a.slots) := by omega
    rw [split]
    nth_rewrite 2 [start]
    rw [List.range'_append_1]
  jumps out := (Bool.or_eq_true_iff.mp out).elim h.jumps h'.jumps

/-- Around a loop nothing is left of its jumps. -/
theorem caught {inner : Bool} (h : Leads P inner a x b) : Leads P inLoop a x.caught b :=
  ⟨h.grows, h.sound, h.exprs, h.declared, nofun⟩

/-- Forgetting the variables of a block. -/
theorem forget (ha : a.Sound) (h : Leads P inLoop a x b) :
    Leads P inLoop a x { b with vars := a.vars } :=
  ⟨h.grows, ⟨h.sound.slots, fun v mem => Nat.lt_of_lt_of_le (ha.vars v mem) h.grows⟩, h.exprs,
    h.declared, h.jumps⟩

end Leads

/-- A parser of statements, or of parts of them, leads on from any sound scope. -/
def ScopedParser.LeadsOn {α : Type} (Ahead : Token → Prop) (P : Nat → Expr → Prop) (takes : Bool)
    (inLoop : Bool) (p : ScopedParser α) (contents : α → Contents) : Prop :=
  ∀ scope : Scope, scope.Sound →
    p.Reads Ahead true takes (fun _ => True) scope fun a scope' =>
    Leads P inLoop scope (contents a) scope'

end Grammar

end BareC
