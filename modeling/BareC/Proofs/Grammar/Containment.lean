import BareC.Assembly.Program
import BareC.Proofs.Grammar.Declarations
import BareC.Proofs.Linking.Insertion
import BareC.Proofs.Linking.Places

/-!
# A broken definition does no harm

Among complete declarations, whatever is wrong with a definition costs its own item and nothing
else: the unit is linked as it is without the definition, and the same code is generated. All that a
definition could leave behind is its name, which is declared before its body is read. So the one
thing to ask for is that the name does not occur in the rest.

The proof puts two facts side by side. Among complete declarations each is read for itself
(`Declarations`), so the items of the others are the same with the broken definition and without it;
and linking two units that differ in one item that nobody calls keeps them so (`Linking/Insertion`).

A definition that leaves a brace open is not complete and takes what follows with it; that is why
`Broken` asks for balanced braces. The diagnostics of the broken definition itself are not
described, only that they are its own item.
-/

namespace BareC

/-! ## Names that do not occur -/

/-- The token is not this name. -/
def Token.Other (name : String) (t : Token) : Prop :=
  t.kind = .ident → t.text ≠ name

/-- The expression calls nothing of this name. -/
def Expr.Avoids (name : String) (e : Expr) : Prop :=
  ∀ call ∈ e.calls, call.1 ≠ name

namespace Grammar

variable {name : String}

/-- Two lists of calls without a name make one without it. -/
theorem avoids_append {calls calls' : List (String × Nat)} (h : ∀ call ∈ calls, call.1 ≠ name)
    (h' : ∀ call ∈ calls', call.1 ≠ name) : ∀ call ∈ calls ++ calls', call.1 ≠ name :=
  List.forall_mem_append.mpr ⟨h, h'⟩

/-- A name that does not occur is not called. -/
theorem grammarProperty_avoids (name : String) (vars : Variables) :
    GrammarProperty (Token.Other name) vars (fun _ _ => Expr.Avoids name)
      (fun _ _ => Expr.Avoids name) where
  operand nesting height :=
    { inner := fun e ⟨_, _, _, _, he⟩ => he
      num := fun _ => List.forall_mem_nil _
      var := fun _ _ _ => List.forall_mem_nil _
      call := by
        intro t args other isName _ ha
        refine List.forall_mem_cons.mpr ⟨other (Token.kind_of_isName isName), fun call mem => ?_⟩
        obtain ⟨e, he, mem⟩ := mem_callsOfArgs.mp mem
        obtain ⟨_, _, _, _, avoids⟩ := ha e he
        exact avoids call mem
      unary := fun _ _ ⟨_, _, _, _, he⟩ => he
      stepped := fun _ _ _ => List.forall_mem_nil _
      stepAfter := fun _ _ _ _ => List.forall_mem_nil _ }
  weaken _ _ _ he := he
  binary _ _ _ height ho := by
    refine reads_binary (Q := Expr.Avoids name) (fun l r hl hr => ?_) ho (fun _ mem => mem) height
    exact ⟨avoids_append hl hr, avoids_append hl hr, fun _ => avoids_append hl hr⟩
  assign := by
    rintro _ _ stored mem slot e - ⟨_, _, _, _, he⟩
    have all : ∀ stored ∈ assignments, (stored.2 slot e).Avoids name := by
      have calls : ∀ stored ∈ assignments, (stored.2 slot e).calls = e.calls := by
        simp [assignments, Expr.calls]
      intro stored mem
      rw [Expr.Avoids, calls stored mem]
      exact he
    exact all stored mem

/-- Expressions read from tokens other than a name do not call it. -/
theorem expressionProperty_avoids (name : String) :
    ExpressionProperty (Token.Other name) fun _ => Expr.Avoids name where
  mono := ⟨fun _ he => he⟩
  expression vars _ nesting height _ _ _ :=
    (grammarProperty_avoids name vars).reads_expression nesting height

end Grammar

/-- Neither does a function whose expressions do not. -/
theorem Function.Sound.avoids {name : String} {f : Function}
    (h : f.Sound fun _ => Expr.Avoids name) : ∀ call ∈ f.calls, call.1 ≠ name := by
  rintro ⟨callee, n⟩ mem
  obtain ⟨args, rfl, s, hs, has⟩ := Function.mem_calls.mp mem
  obtain ⟨e, he, inside⟩ := has.exists_mem_exprs
  exact h.exprs e (subset_exprsOfStmts hs he) _ (mem_calls_of_in inside)

namespace Grammar

variable {name : String}

/-! ## What is declared under another name -/

/-- These declare the same, except under one name. -/
def AgreeBut (name : String) (a a' : Arities) : Prop :=
  ∀ other, other ≠ name → a.lookup other = a'.lookup other

/-- Arities that agree but on a name still do behind further declarations. -/
theorem AgreeBut.append {a a' : Arities} (h : AgreeBut name a a') (b : Arities) :
    AgreeBut name (b ++ a) (b ++ a') := by
  intro other ne
  rw [List.lookup_append, List.lookup_append, h other ne]

/-- What a declaration leaves does not depend on a name that does not occur in it. -/
theorem trace_congr {g : List Token} (fresh : ∀ t ∈ g, t.Other name) {a a' : Arities}
    (agree : AgreeBut name a a') : trace a g = trace a' g := by
  have same : (header a).run ⟨g, 0⟩ = (header a').run ⟨g, 0⟩ := by
    refine reads_signature.run_bind_congr (c := ⟨g, 0⟩) fresh fun s c sound _ _ => ?_
    obtain ⟨t, other, isName, text⟩ := sound.name
    have lookup := agree s.name (text ▸ other (Token.kind_of_isName isName))
    rw [agreeing, agreeing, lookup]
  rw [trace, trace, same]

/-- Declarations that never spell a name leave the same traces whatever its arity is taken to be. -/
theorem traces_congr {gs : List (List Token)} (fresh : ∀ t ∈ gs.flatten, t.Other name)
    {a a' : Arities} (agree : AgreeBut name a a') : (traces a gs).2 = (traces a' gs).2 := by
  induction gs generalizing a a' with
  | nil => rfl
  | cons g gs ih =>
    obtain ⟨here, fresh⟩ := List.forall_mem_append.mp fresh
    rw [traces, traces, trace_congr here agree]
    simp only [ih fresh (agree.append _)]

/-- In a unit without a name nothing of that name is called. -/
theorem uncalled_read {ts last : List Token} (notEnd : ∀ t ∈ ts, t.kind ≠ .eof)
    (ends : ∀ t ∈ last.head?, t.kind = .eof) (fresh : ∀ t ∈ ts, t.Other name) :
    Program.Uncalled name (Program.read (ts ++ last)).items := by
  obtain ⟨t, isEnd, cut⟩ := cut_append notEnd ends 1
  have all : ∀ t ∈ (Cursor.ofTokens (ts ++ last)).ahead, t.Other name := by
    rw [Cursor.ofTokens, cut]
    refine List.forall_mem_append.mpr ⟨fresh, List.forall_mem_singleton.mpr fun ident => ?_⟩
    rw [isEnd] at ident
    cases ident
  obtain ⟨_, sound⟩ := Program.sound_read (expressionProperty_avoids name) all
  exact fun f mem => (sound f (Program.mem_functions.mpr mem)).1.avoids

end Grammar

namespace Program

open Grammar

/-- The code of a unit is that of its functions. -/
theorem generate_congr {p q : Program} (h : p.functions = q.functions) (region : Array UInt8) :
    p.generate region = q.generate region := by
  simp only [generate, code, words, assembly, h]

section Broken

variable {pre post : List (List Token)} {broken last : List Token}

/-- As it is read, the unit without a definition lacks the item of the definition. -/
theorem without_read (closes : ∀ g ∈ pre ++ post, Closes 0 g) (body : Complete true broken)
    (ends : ∀ t ∈ last.head?, t.kind = .eof)
    (fresh : ∀ call, declarations (pre.flatten ++ broken) = call :: declarations pre.flatten →
      ∀ t ∈ (pre ++ post).flatten, t.Other call.1) :
    ∃ item, Without (read pre.flatten).items.length item
      (read ((pre ++ broken :: post).flatten ++ last)) (read ((pre ++ post).flatten ++ last)) := by
  obtain ⟨closesPre, closesPost⟩ := List.forall_mem_append.mp closes
  have closesAll : ∀ g ∈ pre ++ broken :: post, Closes 0 g :=
    List.forall_mem_append.mpr ⟨closesPre, List.forall_mem_cons.mpr ⟨body.closes, closesPost⟩⟩
  have closesBroken : ∀ g ∈ pre ++ [broken], Closes 0 g :=
    List.forall_mem_append.mpr ⟨closesPre, List.forall_mem_singleton.mpr body.closes⟩
  have noLast : ∀ t ∈ ([] : List Token).head?, t.kind = .eof := nofun
  have itemsPre := read_flatten closesPre noLast
  have declaredPre := declarations_flatten closesPre noLast
  have declaredBroken := declarations_flatten closesBroken noLast
  rw [List.flatten_append, List.flatten_singleton, traces_append, List.append_nil] at declaredBroken
  rw [List.append_nil] at itemsPre declaredPre
  generalize declaredAre : (traces [] pre).1 = a at declaredPre declaredBroken
  obtain ⟨item, leaves⟩ := body.exists_item a
  have fresh' : ∀ call, (trace a broken).declares = some call →
      ∀ t ∈ (pre ++ post).flatten, t.Other call.1 := by
    intro call declares
    refine fresh call ?_
    rw [declaredBroken, declaredPre, traces, declares]
    rfl
  -- All that can be seen of the definition behind it is the name that it declares.
  have samePost : (traces ((trace a broken).declares.toList ++ a) post).2 = (traces a post).2 := by
    cases declares : (trace a broken).declares with
    | none => rfl
    | some call =>
      have fresh := fresh' call declares
      rw [List.flatten_append] at fresh
      refine traces_congr (List.forall_mem_append.mp fresh).2 fun other ne => ?_
      show (call :: a).lookup other = a.lookup other
      rw [List.lookup_cons, beq_eq_false_iff_ne.mpr ne]
  have itemsAll : read ((pre ++ broken :: post).flatten ++ last) =
      ⟨(traces [] pre).2 ++ item :: (traces a post).2⟩ := by
    refine congrArg Program.mk ((read_flatten closesAll ends).trans ?_)
    rw [traces_append, traces, declaredAre, leaves]
    simp only [samePost]
    rfl
  have itemsRest : read ((pre ++ post).flatten ++ last) =
      ⟨(traces [] pre).2 ++ (traces a post).2⟩ := by
    refine congrArg Program.mk ((read_flatten closes ends).trans ?_)
    rw [traces_append, declaredAre]
  refine ⟨item, ?_⟩
  rw [itemsAll, itemsRest, itemsPre]
  -- A definition that fails only when it is linked is a function until then.
  refine .intro rfl fun f isFunction => ?_
  have declares := declares_of_function (isFunction ▸ leaves)
  have uncalled := uncalled_read (notEnd_of_closes closes) ends (fresh' _ declares)
  rw [itemsRest] at uncalled
  exact uncalled

/-- One broken definition among complete declarations leaves one diagnostic in its place. All other
items are those of the unit without it, in the same order, and the machine code is the same. -/
theorem broken_definition_is_contained
    (complete : ∀ g ∈ pre ++ post, ∃ hasBody, Complete hasBody g) (body : Complete true broken)
    (ends : ∀ t ∈ last.head?, t.kind = .eof) {d : Diagnostic}
    (fails : (ofTokens (pre.flatten ++ broken ++ post.flatten ++ last)).items[
      (ofTokens pre.flatten).items.length]? = some (.error d))
    (fresh : ∀ call, declarations (pre.flatten ++ broken) = call :: declarations pre.flatten →
      ∀ t ∈ pre.flatten ++ post.flatten, t.kind = .ident → t.text ≠ call.1) :
    (∃ front behind, front.length = (ofTokens pre.flatten).items.length ∧
      (ofTokens (pre.flatten ++ broken ++ post.flatten ++ last)).items =
        front ++ .error d :: behind ∧
      (ofTokens (pre.flatten ++ post.flatten ++ last)).items = front ++ behind) ∧
    ∀ region, (ofTokens (pre.flatten ++ broken ++ post.flatten ++ last)).generate region =
      (ofTokens (pre.flatten ++ post.flatten ++ last)).generate region := by
  have closes : ∀ g ∈ pre ++ post, Closes 0 g :=
    fun g mem => (complete g mem).elim fun _ h => h.closes
  have all : pre.flatten ++ broken ++ post.flatten = (pre ++ broken :: post).flatten := by
    rw [List.flatten_append, List.flatten_cons, List.append_assoc]
  have others : pre.flatten ++ post.flatten = (pre ++ post).flatten := List.flatten_append.symm
  rw [all] at fails ⊢
  rw [others] at fresh ⊢
  obtain ⟨item, without⟩ := without_read closes body ends fresh
  obtain ⟨left, without⟩ := without.link
  have place : (ofTokens pre.flatten).items.length = (read pre.flatten).items.length :=
    length_items_link _
  rw [place] at fails ⊢
  obtain rfl : left = .error d := Option.some.inj (without.getElem?.symm.trans fails)
  exact ⟨without.items, generate_congr without.functions_eq⟩

end Broken

namespace Broken

def word (text : String) : Token :=
  { kind := .ident, text, line := 1 }

def sign (text : String) : Token :=
  { kind := .punct, text, line := 1 }

/-- A function of this name without parameters, with something for its body. -/
def function (name : String) (body : List Token) : List Token :=
  [word "int", word name, sign "(", sign ")"] ++ sign "\x7b" :: (body ++ [sign "\x7d"])

/-- A prototype, and a function that is called behind the broken one. -/
def before : List (List Token) :=
  [[word "int", word "two", sign "(", word "int", sign ")"] ++ [sign ";"],
    function "one" [word "return", sign ";"]]

/-- A definition that fails in an inner block, in which nothing makes sense. -/
def broken : List Token :=
  function "three" [sign "\x7b", word "return", sign ")", sign "\x7d", word "int", sign "("]

def behind : List (List Token) :=
  [function "four" [word "one", sign "(", sign ")", sign ";"]]

/-- A function whose braces balance is complete: reading ends at its closing brace. -/
theorem complete_function {name : String} {body : List Token} (h : Balanced body)
    (inside : ∀ t ∈ function name body, Inside t)
    (header : IsHeader [word "int", word name, sign "(", sign ")"]) :
    Complete true (function name body) :=
  ⟨inside, .body header rfl h rfl⟩

end Broken

/-- The item of the broken function is the second one, and the code is that of the two others. -/
theorem contained_between_functions :
    (∃ front behind, front.length = (ofTokens Broken.before.flatten).items.length ∧
      (ofTokens (Broken.before.flatten ++ Broken.broken ++ Broken.behind.flatten ++
        [.endOfSource 2])).items = front ++ .error ⟨.expectedExpression, 1⟩ :: behind ∧
      (ofTokens (Broken.before.flatten ++ Broken.behind.flatten ++ [.endOfSource 2])).items =
        front ++ behind) ∧
    ∀ region, (ofTokens (Broken.before.flatten ++ Broken.broken ++ Broken.behind.flatten ++
      [.endOfSource 2])).generate region =
        (ofTokens (Broken.before.flatten ++ Broken.behind.flatten ++ [.endOfSource 2])).generate
          region := by
  have complete : ∀ g ∈ Broken.before ++ Broken.behind, ∃ hasBody, Complete hasBody g := by
    refine List.forall_mem_cons.mpr ⟨⟨false, by decide, .semicolon (by decide) rfl⟩, ?_⟩
    refine List.forall_mem_cons.mpr
      ⟨⟨true, Broken.complete_function ?_ (by decide) (by decide)⟩, ?_⟩
    · exact .token rfl rfl (.token rfl rfl .nil)
    refine List.forall_mem_singleton.mpr ⟨true, Broken.complete_function ?_ (by decide) (by decide)⟩
    exact .token rfl rfl (.token rfl rfl (.token rfl rfl (.token rfl rfl .nil)))
  have body : Complete true Broken.broken := by
    refine Broken.complete_function ?_ (by decide) (by decide)
    have inner : Balanced [Broken.word "return", Broken.sign ")"] :=
      .token rfl rfl (.token rfl rfl .nil)
    exact .braces rfl rfl inner (.token rfl rfl (.token rfl rfl .nil))
  have found : ((ofTokens (Broken.before.flatten ++ Broken.broken ++ Broken.behind.flatten ++
      [.endOfSource 2])).items[(ofTokens Broken.before.flatten).items.length]?.bind Item.error?) =
        some ⟨.expectedExpression, 1⟩ := by decide +kernel
  obtain ⟨item, place, isError⟩ := Option.bind_eq_some_iff.mp found
  have declared : declarations (Broken.before.flatten ++ Broken.broken) =
      ("three", 0) :: declarations Broken.before.flatten := by decide +kernel
  refine broken_definition_is_contained complete body (by decide) ?_ fun call eq => ?_
  · rw [place, Item.error?_eq_some.mp isError]
  · obtain ⟨rfl, -⟩ := List.cons.inj (declared.symm.trans eq)
    decide

/-- A definition that calls something unknown. A name that is spelled like a brace stands where its
variable is declared, so that its body ends a brace too early. -/
def misspelled : List Token :=
  Broken.function "f" [Broken.word "int", Broken.word "\x7b", Broken.sign ";",
    Broken.word "g", Broken.sign "(", Broken.sign ")", Broken.sign ";", Broken.word "\x7d"]

/-- If names could be spelled like braces, a broken definition could leave a second item. -/
theorem not_contained_misspelled :
    (∀ t ∈ misspelled, t.kind ≠ .eof ∧ t.kind ≠ .error) ∧ Shape true misspelled ∧
      (∃ d, (ofTokens misspelled).items[(ofTokens []).items.length]? = some (.error d)) ∧
      ¬∃ d, (ofTokens misspelled).items = (ofTokens []).items ++ [.error d] := by
  have found : ((ofTokens misspelled).items[(ofTokens []).items.length]?.bind Item.error?) =
      some ⟨.undefinedCallee "g", 1⟩ := by decide +kernel
  have two : (ofTokens misspelled).items.length = (ofTokens []).items.length + 2 := by
    decide +kernel
  have inner : Balanced [Broken.sign ";", Broken.word "g", Broken.sign "(", Broken.sign ")",
      Broken.sign ";"] :=
    .token rfl rfl (.token rfl rfl (.token rfl rfl (.token rfl rfl (.token rfl rfl .nil))))
  refine ⟨by decide,
    .body (by decide) rfl (.token rfl rfl (.braces rfl rfl inner .nil)) rfl, ?_, ?_⟩
  · obtain ⟨item, place, isError⟩ := Option.bind_eq_some_iff.mp found
    exact ⟨_, Item.error?_eq_some.mp isError ▸ place⟩
  · rintro ⟨d, items⟩
    rw [items, List.length_append] at two
    exact absurd two (by simp)

end Program

end BareC
