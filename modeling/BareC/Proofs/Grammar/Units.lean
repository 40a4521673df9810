import BareC.Proofs.Grammar.Statements
import BareC.Proofs.Linking.Rounds

/-!
# Declarations obey the rules

In front of the body of a function there are no braces and no semicolons, and nothing is read that
needs them. Behind it stands what the rules do not cover: the semicolon of a prototype, or the
braces of a body. What is known of a function that is read this way is known of every function of
the unit, since reading on only adds to the items and linking only takes functions away.

`Reading.Step` is what one step of reading can do, and the induction on the steps is made once, in
`Program.sound_read`, for any property of expressions that obeys the rules. The arities of names are
kept beside it: a name keeps the arity it was declared with first, and a definition that disagrees
is refused.

Whether two definitions of one name should both be kept is not asked: they are, and
`Assembly/Entries` says what comes of it.
-/

namespace BareC

namespace Grammar

variable {Ahead : Token → Prop} {P : Nat → Expr → Prop}

/-! ## Signatures -/

/-- What is known of a signature: the parameters have the first slots, and nothing else has one. -/
structure Signature.Sound (Ahead : Token → Prop) (s : Signature) : Prop where
  name : ∃ t, Ahead t ∧ isName t = true ∧ t.text = s.name
  params_le : s.params ≤ maxParameters
  slots : s.scope.slots = s.params
  vars : ∀ v ∈ s.scope.vars, v.2 < s.params

/-- What is known of the scope when so many parameters have been read. -/
def Parameters (count : Nat) (scope : Scope) : Prop :=
  scope.slots = count ∧ ∀ v ∈ scope.vars, v.2 < scope.slots

/-- The name of a type reads as words that may be taken. -/
theorem reads_typeName {body : Bool} :
    typeName.Reads Ahead body false (fun _ => True) fun _ => True := by
  refine .peek fun t _ _ => .ite (fun _ => .fail_bind fun _ _ _ _ => nofun) fun _ => ?_
  refine .bind (.skipWhile fun t => takeable_of_isTypeWord) fun _ _ => ?_
  exact .skipWhile fun t => takeable_of_star

/-- A parameter has the next slot, also if it has no name. -/
theorem reads_parameter {count : Nat} {scope : Scope} (h : Parameters count scope) :
    parameter.Reads Ahead false false (fun _ => True) scope fun _ scope' =>
      Parameters (count + 1) scope' := by
  obtain ⟨rfl, below⟩ := h
  have named : ∀ name, (declare name).Reads Ahead false false (fun _ => True) scope fun _ scope' =>
      Parameters (scope.slots + 1) scope' := by
    intro name
    refine .mono (reads_declare name scope) ?_
    rintro slot scope' ⟨-, -, rfl⟩
    exact ⟨rfl, below_declare below _⟩
  refine .lift_bind reads_typeName fun _ _ => .peek_bind fun t _ _ => .ite (fun _ => ?_) fun _ => ?_
  · refine .name_bind fun name _ _ => .accept_bind (by decide) (.expect_bind (by decide) ?_) ?_
    all_goals exact .bind (named name) fun _ _ h => .pure h
  · exact .modify (.pure ⟨rfl, fun v mem => Nat.lt_succ_of_lt (below v mem)⟩)

/-- Parameters are counted as they are declared, up to the number left. -/
theorem reads_parameters (left read : Nat) {scope : Scope} (h : Parameters read scope) :
    (parameters left read).Reads Ahead false false (fun _ => True) scope fun count scope' =>
      count ≤ read + left ∧ Parameters count scope' := by
  induction left generalizing read scope with
  | zero =>
    rw [parameters]
    exact .bind (reads_parameter h) fun _ _ _ => .fail fun _ _ _ _ => nofun
  | succ left ih =>
    rw [parameters]
    refine .bind (reads_parameter h) fun _ a ha =>
      .accept_bind (by decide) ?_ (.pure ⟨by omega, ha⟩)
    exact .mono (ih (read + 1) ha) fun count b hb => ⟨by omega, hb.2⟩

/-- A list of parameters declares them in the first slots. -/
theorem reads_parameterList :
    parameterList.Reads Ahead false false (fun _ => True) {} fun count scope =>
      count ≤ maxParameters ∧ Parameters count scope := by
  have none : 0 ≤ maxParameters ∧ Parameters 0 {} := ⟨Nat.zero_le _, rfl, List.forall_mem_nil _⟩
  refine .expect_bind (by decide) (.voidList_bind (fun t void => ?_) fun t _ => .ite (fun _ => ?_)
    fun _ => ?_)
  · refine .advance_bind ?_ fun _ _ => ?_
    · rintro t' rfl
      exact Token.takeable_of_is void (by decide)
    · exact .bind (.pure none) fun _ _ h => .expect_bind (by decide) (.pure h)
  · exact .bind (.pure none) fun _ _ h => .expect_bind (by decide) (.pure h)
  · refine .bind (reads_parameters maxParameters 0 none.2).anywhere fun count scope h => ?_
    rw [Nat.zero_add] at h
    exact .expect_bind (by decide) (.pure h)

/-- A signature is sound: its parameters are its scope. -/
theorem reads_signature :
    signature.Reads Ahead false true (fun _ => True) (Signature.Sound Ahead) := by
  refine .peek fun t _ _ => .refuseUnsupported_bind (.bind reads_typeName.anywhere fun _ _ => ?_)
  refine .name_bind fun name known isName => .sees_bind fun t' _ => .ite
    (fun _ => .fail_bind fun _ _ _ _ => nofun) fun _ => ?_
  have list : (parameterList.run {}).Reads Ahead false false (fun _ => True) _ :=
    reads_parameterList
  refine .bind list.anywhere ?_
  rintro ⟨count, scope⟩ ⟨few, slots, below⟩
  exact .pure ⟨⟨name, known, isName, rfl⟩, few, slots,
    fun v mem => Nat.lt_of_lt_of_eq (below v mem) slots⟩

/-! ## Definitions -/

/-- A signature that agrees with what is declared. -/
def header (declared : Arities) : Parser Signature := do
  let s ← signature
  agreeing declared s
  return s

/-- A signature passes if its name was declared with its number of parameters or not at all. -/
theorem reads_agreeing (declared : Arities) (s : Signature) :
    (agreeing declared s).Reads Ahead false false (fun _ => True) fun _ =>
      ∀ n, declared.lookup s.name = some n → n = s.params := by
  refine .ite (fun _ => .fail fun _ _ _ _ => nofun) fun agrees => .pure fun n found => ?_
  rw [found, Option.any_some, bne_iff_ne, not_not] at agrees
  exact agrees

/-- A header is a sound signature that agrees with the earlier ones. -/
theorem reads_header (declared : Arities) :
    (header declared).Reads Ahead false true (fun _ => True) fun s =>
      s.Sound Ahead ∧ ∀ n, declared.lookup s.name = some n → n = s.params :=
  .bindTaken reads_signature fun s sound => .bind (reads_agreeing declared s) fun _ agrees =>
    .pure ⟨sound, agrees⟩

/-- The function of a signature and what was read for its body. -/
def Signature.define (s : Signature) (r : List Stmt × Scope) : Function :=
  { name := s.name, params := s.params, locals := r.2.slots, body := r.1, line := s.line }

/-- Behind a signature there is a semicolon or a body. -/
theorem run_definition? (s : Signature) (c : Cursor) :
    (definition? s).run c =
      if c.next.is ";" then .ok (none, c.advance)
      else if c.next.is "\x7b" then
        ((fun r => some (s.define r)) <$> functionBody.run s.scope : Parser (Option Function)).run c
      else (Parser.fail .expectedBody).run c := by
  rw [definition?, Parser.run_accept_bind]
  split
  next => rfl
  next =>
    show ((if !c.next.is "\x7b" then _ else _ : Parser (Option Function)).run c) = _
    rw [map_eq_pure_bind]
    cases c.next.is "\x7b" <;> rfl

/-- The scope of a sound signature is sound. -/
theorem Signature.Sound.scope {s : Signature} (h : s.Sound Ahead) : s.scope.Sound where
  slots := by
    rw [h.slots]
    exact Nat.le_trans h.params_le (by decide)
  vars v mem := Nat.lt_of_lt_of_eq (h.vars v mem) h.slots.symm

/-- A body that leads on from a sound signature makes a sound function. -/
theorem Signature.Sound.define {s : Signature} (h : s.Sound Ahead) {r : List Stmt × Scope}
    (leads : Leads P false s.scope (contentsOfStmts r.1) r.2) : (s.define r).Sound P where
  params_le := h.params_le
  params_le_locals := Nat.le_trans (Nat.le_of_eq h.slots.symm) leads.grows
  locals_le := leads.sound.slots
  exprs := leads.exprs
  slots := by
    have slots := leads.declared
    rw [h.slots] at slots
    exact slots
  jumps := Bool.eq_false_iff.mpr fun out => Bool.false_ne_true (leads.jumps out)

/-- What becomes of reading behind a signature. -/
theorem outcome_definition? (h : ExpressionProperty Ahead P) {s : Signature} (sound : s.Sound Ahead)
    {c : Cursor} (all : ∀ t ∈ c.ahead, Ahead t) :
    Parser.Outcome true (fun f? => ∀ f ∈ f?, f.Sound P ∧ f.name = s.name ∧ f.params = s.params) c
      ((definition? s).run c) := by
  rw [run_definition?]
  split
  next semicolon =>
    have taken : c.next.Takeable true := Token.takeable_of_is semicolon (by decide)
    refine .ok nofun (.advance taken.notEnd taken.notMarker) fun _ => List.cons_ne_nil _ _
  next =>
    split
    next =>
      have body : (functionBody.run s.scope).Reads Ahead true true (fun _ => True) _ :=
        leadsOn_functionBody h s.scope sound.scope
      refine (Parser.Reads.map (body.mono ?_)).outcome c trivial all
      rintro r leads f ⟨⟩
      exact ⟨sound.define leads, rfl, rfl⟩
    next => exact .fail fun _ _ => nofun

/-- What is known behind a signature that could be read. -/
theorem behind_header (h : ExpressionProperty Ahead P) {declared : Arities} {c c' : Cursor}
    (all : ∀ t ∈ c.ahead, Ahead t) {s : Signature} (run : (header declared).run c = .ok (s, c')) :
    ∃ ts, c.Passes ts c' ∧ (∀ n, declared.lookup s.name = some n → n = s.params) ∧
      Parser.Outcome true (fun f? => ∀ f ∈ f?, f.Sound P ∧ f.name = s.name ∧ f.params = s.params) c'
        ((definition? s).run c') := by
  have header := (reads_header declared).outcome c trivial all
  rw [run] at header
  cases header with
  | @ok _ _ ts signature passes _ =>
    exact ⟨ts, passes, signature.2,
      outcome_definition? h signature.1 fun t mem => all t (passes.subset mem)⟩

namespace Reading

/-! ## Steps -/

/-- What a step of reading can do. -/
inductive Step (r : Reading) : (r' : Reading) → Prop
  | marker : r.cursor.next.kind = .error →
    Step r { r with
      cursor := r.cursor.advance
      items := r.items.push (.error ⟨.marker r.cursor.next.text, r.cursor.next.line⟩) }
  | headerRefused {f} : (header r.declared).run r.cursor = .error f → Step r (r.refuse f)
  | bodyRefused {s c f} : (header r.declared).run r.cursor = .ok (s, c) →
    (definition? s).run c = .error f →
      Step r (refuse { r with declared := (s.name, s.params) :: r.declared } f)
  | prototype {s c cursor} : (header r.declared).run r.cursor = .ok (s, c) →
    (definition? s).run c = .ok (none, cursor) →
      Step r { r with cursor, declared := (s.name, s.params) :: r.declared }
  | function {s c f cursor} : (header r.declared).run r.cursor = .ok (s, c) →
    (definition? s).run c = .ok (some f, cursor) →
      Step r { cursor, declared := (s.name, s.params) :: r.declared, items :=
        r.items.push (.function f) }

/-- What one step of the reading can do. -/
theorem step_cases (r : Reading) : r.Step r.step := by
  unfold step
  simp only
  split
  next kind => exact .marker kind
  next =>
    unfold declaration
    split
    next f run => exact .headerRefused run
    next s c run =>
      simp only
      split
      next f run' => exact .bodyRefused run run'
      next cursor run' => exact .prototype run run'
      next f cursor run' => exact .function run run'

/-- What every step keeps is kept to the end of the source. -/
theorem finish_induction {motive : Reading → Prop} {bound : List Token} {r : Reading}
    (start : motive r) (step : ∀ r, motive r → motive r.step) : motive (finish bound r) := by
  induction bound generalizing r with
  | nil => exact start
  | cons t bound ih =>
    rw [finish]
    split
    next => exact start
    next => exact ih (step r start)

/-- Skipping goes forward. -/
theorem recover_suffix (depth : Nat) (ts : List Token) : recover depth ts <:+ ts := by
  induction ts generalizing depth with
  | nil => exact List.suffix_refl []
  | cons t ts ih =>
    simp only [recover]
    repeat' split
    · exact List.suffix_refl _
    · exact List.suffix_cons t ts
    · exact List.suffix_cons t ts
    · exact (ih _).trans (List.suffix_cons t ts)

/-! ## What is known of a unit -/

/-- What is known of a unit as far as it has been read: its functions are as they should be, and
each has as many parameters as its name is declared with. -/
structure Sound (Ahead : Token → Prop) (P : Nat → Expr → Prop) (r : Reading) : Prop where
  ahead : ∀ t ∈ r.cursor.ahead, Ahead t
  functions : ∀ f, .function f ∈ r.items → f.Sound P ∧ r.declared.lookup f.name = some f.params

namespace Sound

/-- A name keeps the number of parameters that it is declared with first. -/
theorem declare {r : Reading} (hr : r.Sound Ahead P) {s : Signature}
    (agrees : ∀ n, r.declared.lookup s.name = some n → n = s.params) (f : Function)
    (mem : .function f ∈ r.items) :
    f.Sound P ∧ ((s.name, s.params) :: r.declared).lookup f.name = some f.params := by
  obtain ⟨sound, found⟩ := hr.functions f mem
  refine ⟨sound, ?_⟩
  rw [List.lookup_cons]
  split
  next same => rw [agrees f.params (beq_iff_eq.mp same ▸ found)]
  next => exact found

/-- Recovery keeps the reading sound, as it adds no function. -/
theorem refuse {r : Reading} {f : Failure} (ahead : ∀ t ∈ f.cursor.ahead, Ahead t)
    (functions : ∀ g, .function g ∈ r.items →
      g.Sound P ∧ r.declared.lookup g.name = some g.params) :
    (r.refuse f).Sound Ahead P where
  ahead t mem := ahead t ((recover_suffix _ _).subset mem)
  functions g mem := by
    rcases Array.mem_push.mp mem with mem | eq
    · exact functions g mem
    · cases eq

/-- So does every step. -/
theorem step (h : ExpressionProperty Ahead P) {r r' : Reading} (hr : r.Sound Ahead P)
    (step : r.Step r') : r'.Sound Ahead P := by
  have header := (reads_header r.declared).outcome r.cursor trivial hr.ahead
  cases step with
  | marker kind =>
    refine ⟨fun t mem => hr.ahead t (Cursor.ahead_advance_subset _ mem), fun f mem => ?_⟩
    rcases Array.mem_push.mp mem with mem | eq
    · exact hr.functions f mem
    · cases eq
  | headerRefused run =>
    rw [run] at header
    cases header with
    | error passes _ => exact refuse (fun t mem => hr.ahead t (passes.subset mem)) hr.functions
  | bodyRefused run run' =>
    obtain ⟨ts, passes, agrees, body⟩ := behind_header h hr.ahead run
    rw [run'] at body
    cases body with
    | error passes' _ =>
      exact refuse (fun t mem => hr.ahead t ((passes.trans passes').subset mem)) (hr.declare agrees)
  | prototype run run' =>
    obtain ⟨ts, passes, agrees, body⟩ := behind_header h hr.ahead run
    rw [run'] at body
    cases body with
    | ok _ passes' _ =>
      exact ⟨fun t mem => hr.ahead t ((passes.trans passes').subset mem), hr.declare agrees⟩
  | @function _ _ f _ run run' =>
    obtain ⟨ts, passes, agrees, body⟩ := behind_header h hr.ahead run
    rw [run'] at body
    cases body with
    | ok function passes' _ =>
      obtain ⟨sound, name, params⟩ := function f rfl
      refine ⟨fun t mem => hr.ahead t ((passes.trans passes').subset mem), fun g mem => ?_⟩
      rcases Array.mem_push.mp mem with mem | eq
      · exact hr.declare agrees g mem
      · cases eq
        refine ⟨sound, ?_⟩
        rw [name, params, List.lookup_cons_self]

end Sound

end Reading

end Grammar

namespace Program

variable {Ahead : Token → Prop} {P : Nat → Expr → Prop} {ts : List Token}

/-- Every function of a program is sound and has the arity of its name, by induction on the steps of
the reading. -/
theorem sound_read (h : Grammar.ExpressionProperty Ahead P)
    (all : ∀ t ∈ (Grammar.Cursor.ofTokens ts).ahead, Ahead t) :
    ∃ declared : Arities, ∀ f ∈ (read ts).functions,
      f.Sound P ∧ declared.lookup f.name = some f.params := by
  let cursor := Grammar.Cursor.ofTokens ts
  have start : Grammar.Reading.Sound Ahead P { cursor } := ⟨all, nofun⟩
  have sound : (Grammar.Reading.finish cursor.ahead { cursor }).Sound Ahead P :=
    Grammar.Reading.finish_induction start fun r hr => hr.step h r.step_cases
  refine ⟨_, fun f mem => sound.functions f ?_⟩
  exact Array.mem_toList_iff.mp (mem_functions.mp mem)

/-- What is known of every function that is read is known of every function of the unit. -/
theorem sound_of_mem_functions (h : Grammar.ExpressionProperty (fun _ => True) P) {f : Function}
    (mem : f ∈ (ofTokens ts).functions) : f.Sound P := by
  obtain ⟨_, sound⟩ := sound_read h fun _ _ => trivial
  exact (sound f (mem_functions_of_link mem)).1

end Program

end BareC
