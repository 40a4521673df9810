import BareC.Proofs.Grammar.Reads
import BareC.Proofs.Lexing.Lexemes
import Mathlib.Logic.Equiv.Basic

/-!
# Other names

A renaming gives every word of C another one, different words different ones, and leaves the
keywords alone. It acts on everything that names stand in: on tokens, where only words are names and
all other spellings stay; on trees, where the functions that are called have kept their names; and
on diagnostics, some of which quote a name.

What the grammar asks of a token is not changed by a renaming: whether it is spelled like a keyword
or like an operator (`Token.is_rename`), and whether it can be a name (`Token.isName_rename`).

A renaming carries that it tells words apart and leaves the keywords, so that what is not a word is
never touched and no word becomes a keyword. Names that the source reserves for itself, like `main`,
are words like others here; where one of them matters, the statement asks for it.
-/

namespace BareC

namespace Token

instance (w : List Char) : Decidable (IsWord w) :=
  match w with
  | [] => isFalse fun ⟨_, _, eq, _⟩ => nomatch eq
  | c :: cs => decidable_of_iff (isWordStart c = true ∧ cs.all isWordPart = true)
      ⟨fun ⟨start, parts⟩ => ⟨c, cs, rfl, start, List.all_eq_true.mp parts⟩,
        fun ⟨_, _, eq, start, parts⟩ => by
        obtain ⟨rfl, rfl⟩ := List.cons.inj eq
        exact ⟨start, List.all_eq_true.mpr parts⟩⟩

end Token

/-- A text that is spelled like a name or a keyword. -/
def IsWord (s : String) : Prop :=
  Token.IsWord s.toList

instance (s : String) : Decidable (IsWord s) :=
  inferInstanceAs (Decidable (Token.IsWord s.toList))

/-- A text that cannot be a name. -/
def NoName (s : String) : Prop :=
  Grammar.isKeyword s = true ∨ ¬IsWord s

instance (s : String) : Decidable (NoName s) :=
  inferInstanceAs (Decidable (_ ∨ _))

/-! ## Renamings -/

/-- A map of words to words that keeps different ones apart and leaves the keywords alone. -/
structure Renaming where
  word : String → String
  isWord : ∀ s, IsWord s → IsWord (word s)
  injective : ∀ s t, IsWord s → IsWord t → word s = word t → s = t
  keyword : ∀ s, Grammar.isKeyword s = true → word s = s

namespace Renaming

/-- What a text becomes. Only words are renamed. -/
def apply (r : Renaming) (s : String) : String :=
  if IsWord s then r.word s else s

instance : CoeFun Renaming fun _ => String → String :=
  ⟨apply⟩

variable (r : Renaming) {s t : String}

theorem apply_of_isWord (h : IsWord s) : r s = r.word s := if_pos h

/-- What is no name stays. -/
theorem apply_of_noName (h : NoName s) : r s = s := by
  by_cases isWord : IsWord s
  · rw [r.apply_of_isWord isWord, r.keyword s (h.resolve_right (not_not_intro isWord))]
  · exact if_neg isWord

/-- A name stays a name, and nothing else becomes one. -/
theorem isWord_apply : IsWord (r s) ↔ IsWord s := by
  by_cases h : IsWord s
  · rw [r.apply_of_isWord h]
    exact iff_of_true (r.isWord s h) h
  · rw [r.apply_of_noName (.inr h)]

/-- Names are told by their new ones. -/
theorem apply_inj : r s = r t ↔ s = t := by
  refine ⟨fun same => ?_, fun same => congrArg r same⟩
  by_cases h : IsWord s
  · have h' : IsWord t := r.isWord_apply.mp (same ▸ r.isWord_apply.mpr h)
    rw [r.apply_of_isWord h, r.apply_of_isWord h'] at same
    exact r.injective s t h h' same
  · have h' : ¬IsWord t := fun isWord => h (r.isWord_apply.mp (same ▸ r.isWord_apply.mpr isWord))
    rwa [r.apply_of_noName (.inr h), r.apply_of_noName (.inr h')] at same

theorem apply_injective : Function.Injective r.apply := fun _ _ => r.apply_inj.mp

theorem apply_beq (s t : String) : (r s == r t) = (s == t) := by
  rw [Bool.eq_iff_iff, beq_iff_eq, beq_iff_eq, apply_inj]

/-- Nothing else becomes a text that cannot be a name. -/
theorem apply_eq_iff (h : NoName t) : r s = t ↔ s = t := by
  have same : r s = r t ↔ s = t := r.apply_inj
  rwa [r.apply_of_noName h] at same

/-- No name becomes a keyword, and no keyword is renamed. -/
theorem isKeyword_apply (s : String) : Grammar.isKeyword (r s) = Grammar.isKeyword s := by
  rw [Bool.eq_iff_iff]
  constructor
  · intro h
    rwa [(r.apply_eq_iff (.inl h)).mp rfl]
  · intro h
    rwa [r.apply_of_noName (.inl h)]

/-- Two names change places. -/
def swap (a b : String) (ha : IsWord a) (hb : IsWord b) (freeA : Grammar.isKeyword a = false)
    (freeB : Grammar.isKeyword b = false) : Renaming where
  word := Equiv.swap a b
  isWord s h := by
    rw [Equiv.swap_apply_def]
    split
    · exact hb
    · split
      · exact ha
      · exact h
  injective _ _ _ _ same := (Equiv.swap a b).injective same
  keyword s h := by
    refine Equiv.swap_apply_of_ne_of_ne ?_ ?_
    · rintro rfl
      exact Bool.noConfusion (h.symm.trans freeA)
    · rintro rfl
      exact Bool.noConfusion (h.symm.trans freeB)

end Renaming

/-! ## Tokens -/

namespace Token

/-- The token with its name renamed. -/
def rename (r : Renaming) (t : Token) : Token :=
  if t.kind = .ident then { t with text := r t.text } else t

variable (r : Renaming) (t : Token)

/-- An identifier is renamed. -/
theorem rename_of_ident {t : Token} (h : t.kind = .ident) :
    t.rename r = { t with text := r t.text } :=
  if_pos h

/-- Any other token stays. -/
theorem rename_of_ne {t : Token} (h : t.kind ≠ .ident) : t.rename r = t :=
  if_neg h

@[simp]
theorem kind_rename : (t.rename r).kind = t.kind := by
  rw [rename]
  split <;> rfl

@[simp]
theorem line_rename : (t.rename r).line = t.line := by
  rw [rename]
  split <;> rfl

@[simp]
theorem value_rename : (t.rename r).value = t.value := by
  rw [rename]
  split <;> rfl

/-- A token is spelled like something that is no name as before. -/
@[simp]
theorem is_rename {s : String} (h : NoName s) : (t.rename r).is s = t.is s := by
  by_cases ident : t.kind = .ident
  · have same : (r t.text == s) = (t.text == s) := by
      rw [Bool.eq_iff_iff, beq_iff_eq, beq_iff_eq, r.apply_eq_iff h]
    rw [rename_of_ident r ident, is, is, same]
  · rw [rename_of_ne r ident]

/-- Such a token keeps its text. -/
theorem text_rename_of_is {t : Token} {s : String} (h : NoName s) (is : t.is s = true) :
    (t.rename r).text = t.text := by
  rw [text_of_is is, text_of_is ((t.is_rename r h).trans is)]

/-- A name is read as one. -/
@[simp]
theorem isName_rename : Grammar.isName (t.rename r) = Grammar.isName t := by
  by_cases ident : t.kind = .ident
  · rw [rename_of_ident r ident, Grammar.isName, Grammar.isName, r.isKeyword_apply]
  · rw [rename_of_ne r ident]

/-- A renamed name has the new text. -/
theorem text_rename_of_isName {t : Token} (h : Grammar.isName t = true) :
    (t.rename r).text = r t.text := by
  rw [rename_of_ident r (kind_of_isName h)]

/-- A table of spellings that are no names is searched as before. -/
theorem find?_is_rename {α : Type} {spelling : α → String} {table : List α}
    (noNames : ∀ entry ∈ table, NoName (spelling entry)) :
    (table.find? fun entry => (t.rename r).is (spelling entry)) =
      table.find? fun entry => t.is (spelling entry) := by
  induction table with
  | nil => rfl
  | cons entry table ih =>
    obtain ⟨first, others⟩ := List.forall_mem_cons.mp noNames
    rw [List.find?_cons, List.find?_cons, is_rename r t first, ih others]

/-- Words of a type are no names. -/
@[simp]
theorem isTypeWord_rename : Grammar.isTypeWord (t.rename r) = Grammar.isTypeWord t := by
  have noNames : ∀ word ∈ Grammar.typeWords, NoName word := by decide
  rw [Grammar.isTypeWord, Grammar.isTypeWord, Bool.eq_iff_iff, List.any_eq_true, List.any_eq_true]
  exact exists_congr fun word => and_congr_right fun mem => by rw [is_rename r t (noNames word mem)]

/-- Words that are not supported are no names. -/
@[simp]
theorem unsupportedWord?_rename :
    Grammar.unsupportedWord? (t.rename r) = Grammar.unsupportedWord? t := by
  have noNames : ∀ word ∈ Grammar.unsupportedWords, NoName word := by decide
  exact t.find?_is_rename r noNames

end Token

/-! ## Trees -/

mutual

/-- The expression with the functions renamed that it calls. -/
def Expr.rename (r : Renaming) : Expr → Expr
  | .num v => .num v
  | .var slot => .var slot
  | .assign slot value => .assign slot (value.rename r)
  | .unary op operand => .unary op (operand.rename r)
  | .binary op left right => .binary op (left.rename r) (right.rename r)
  | .logicalAnd left right => .logicalAnd (left.rename r) (right.rename r)
  | .logicalOr left right => .logicalOr (left.rename r) (right.rename r)
  | .call name args => .call (r name) (renameArgs r args)

def renameArgs (r : Renaming) : List Expr → List Expr
  | [] => []
  | e :: es => e.rename r :: renameArgs r es

end

theorem renameArgs_eq_map (r : Renaming) (es : List Expr) :
    renameArgs r es = es.map (Expr.rename r) := by
  induction es with
  | nil => rfl
  | cons e es ih => rw [renameArgs, ih, List.map_cons]

theorem Expr.rename_call (r : Renaming) (name : String) (args : List Expr) :
    (Expr.call name args).rename r = .call (r name) (args.map (Expr.rename r)) := by
  rw [Expr.rename, renameArgs_eq_map]

mutual

/-- The statement with the functions renamed that it calls. -/
def Stmt.rename (r : Renaming) : Stmt → Stmt
  | .ret value => .ret (value.map (Expr.rename r))
  | .expr e => .expr (e.rename r)
  | .decl slot init => .decl slot (init.map (Expr.rename r))
  | .ifElse cond yes no => .ifElse (cond.rename r) (yes.rename r) (renameStmt? r no)
  | .whileLoop cond body => .whileLoop (cond.rename r) (body.rename r)
  | .doWhile body cond => .doWhile (body.rename r) (cond.rename r)
  | .forLoop init cond step body =>
    .forLoop (renameStmt? r init) (cond.map (Expr.rename r)) (step.map (Expr.rename r))
      (body.rename r)
  | .breakLoop => .breakLoop
  | .continueLoop => .continueLoop
  | .block stmts => .block (renameStmts r stmts)
  | .empty => .empty

def renameStmt? (r : Renaming) : Option Stmt → Option Stmt
  | none => none
  | some s => some (s.rename r)

def renameStmts (r : Renaming) : List Stmt → List Stmt
  | [] => []
  | s :: ss => s.rename r :: renameStmts r ss

end

theorem renameStmt?_eq_map (r : Renaming) (s? : Option Stmt) :
    renameStmt? r s? = s?.map (Stmt.rename r) := by
  cases s? <;> rfl

theorem renameStmts_eq_map (r : Renaming) (ss : List Stmt) :
    renameStmts r ss = ss.map (Stmt.rename r) := by
  induction ss with
  | nil => rfl
  | cons s ss ih => rw [renameStmts, ih, List.map_cons]

namespace Stmt

variable (r : Renaming)

theorem rename_ifElse (cond : Expr) (yes : Stmt) (no : Option Stmt) :
    (ifElse cond yes no).rename r =
      .ifElse (cond.rename r) (yes.rename r) (no.map (Stmt.rename r)) := by
  rw [Stmt.rename, renameStmt?_eq_map]

theorem rename_forLoop (init : Option Stmt) (cond step : Option Expr) (body : Stmt) :
    (forLoop init cond step body).rename r =
      .forLoop (init.map (Stmt.rename r)) (cond.map (Expr.rename r))
      (step.map (Expr.rename r)) (body.rename r) := by
  rw [Stmt.rename, renameStmt?_eq_map]

theorem rename_block (stmts : List Stmt) :
    (block stmts).rename r = .block (stmts.map (Stmt.rename r)) := by
  rw [Stmt.rename, renameStmts_eq_map]

end Stmt

/-- The function with another name and other names for those that it calls. The rest stays as it is.
-/
def Function.rename (r : Renaming) (f : Function) : Function :=
  { f with name := r f.name, body := f.body.map (Stmt.rename r) }

/-! ## Diagnostics and units -/

/-- The fault with the name in it renamed, if there is one. -/
def SyntaxFault.rename (r : Renaming) : SyntaxFault → SyntaxFault
  | .conflicting name => .conflicting (r name)
  | .undeclared name => .undeclared (r name)
  | .undefinedCallee name => .undefinedCallee (r name)
  | .wrongArity name => .wrongArity (r name)
  | fault => fault

/-- The diagnostic for the same line. -/
def Diagnostic.rename (r : Renaming) (d : Diagnostic) : Diagnostic :=
  ⟨d.fault.rename r, d.line⟩

def Item.rename (r : Renaming) : Item → Item
  | .function f => .function (f.rename r)
  | .error d => .error (d.rename r)

/-- The unit with every item renamed in its place. -/
def Program.rename (r : Renaming) (p : Program) : Program :=
  ⟨p.items.map (Item.rename r)⟩

end BareC
