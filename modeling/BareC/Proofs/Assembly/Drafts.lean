import BareC.Assembly.Program

/-!
# Drafts, encoded

The generator writes drafts, and what is placed, linked and run are the items they become. Here
every sequence and every tree gets a name for its encoded code, which is the encoding of its draft
by definition: the generator is written once. Encoding goes item by item, so it commutes with
putting pieces one behind the other (`Draft.encode_append`), and all that later modules know of
encoded code comes from that.

Whether a draft loses anything when it is encoded is another matter, and not settled here.

The names that are given here are the ones by which the equations of `Equations` speak of a tree's
code, and by which `Placement` finds it again. They add nothing to the generator: a change of a
draft is a change of its encoding, and what has to follow is the equation of that one construct.

That a draft comes back from its words undamaged is `Ranges`; where the words lie, what they jump to
and what a machine does with them are left to the modules behind this one.
-/

namespace BareC

namespace Draft

@[simp]
theorem encode_nil : encode [] = [] :=
  rfl

@[simp]
theorem encode_cons (d : Draft) (ds : List Draft) : encode (d :: ds) = d.item :: encode ds :=
  rfl

/-- Drafts are encoded one by one, so what stands behind others is encoded behind them. -/
@[simp]
theorem encode_append (ds ds' : List Draft) : encode (ds ++ ds') = encode ds ++ encode ds' :=
  List.map_append

/-- A choice between drafts is a choice between their code. -/
theorem encode_ite (c : Prop) [Decidable c] (ds ds' : List Draft) :
    encode (if c then ds else ds') = if c then encode ds else encode ds' :=
  apply_ite encode c ds ds'

end Draft

/-! ## Sequences -/

namespace Assembly

def loadConst (rd v : Word) : Assembly :=
  Draft.encode (Draft.loadConst rd v)

def push : Assembly :=
  Draft.encode Draft.push

def pop (rd : Word) : Assembly :=
  Draft.encode (Draft.pop rd)

def popArguments (count : Nat) : Assembly :=
  Draft.encode (Draft.popArguments count)

def goto (target : Label) : AsmItem :=
  (Draft.goto target).item

def gotoIfZero (target : Label) : Assembly :=
  Draft.encode (Draft.gotoIfZero target)

def gotoIfNonzero (target : Label) : Assembly :=
  Draft.encode (Draft.gotoIfNonzero target)

def operate (op : BinaryOp) : Assembly :=
  Draft.encode (Draft.operate op)

def operateUnary (op : UnaryOp) : AsmItem :=
  (Draft.operateUnary op).item

def saveFrame : Assembly :=
  Draft.encode Draft.saveFrame

def openFrame (locals : Nat) : Assembly :=
  Draft.encode (Draft.openFrame locals)

def storeParams (params : Nat) : Assembly :=
  Draft.encode (Draft.storeParams params)

def prologue (params locals : Nat) : Assembly :=
  Draft.encode (Draft.prologue params locals)

def closeFrame : Assembly :=
  Draft.encode Draft.closeFrame

def epilogue : Assembly :=
  Draft.encode Draft.epilogue

/-- Either one item or the upper part and, unless it is zero, the lower part. -/
theorem loadConst_eq (rd v : Word) :
    loadConst rd v =
      if Encode.isImm12 v then [aluImm .addi rd zero v]
      else
        .word (Encode.lui rd (Encode.upperLower v).1) ::
          if (Encode.upperLower v).2 = 0 then []
            else [aluImm .addi rd rd (Encode.upperLower v).2] := by
  rw [loadConst, Draft.loadConst, Draft.encode_ite]
  simp only [Draft.encode_cons, Draft.encode_ite, Draft.encode_nil, Draft.item]

/-- A jump that leaves nothing behind has the register that is always zero for the way back. -/
theorem goto_eq (target : Label) : goto target = .jump zero target :=
  rfl

/-- The registers that pass arguments are popped from the last one on. -/
theorem popArguments_eq (count : Nat) :
    popArguments count = (List.range count).reverse.flatMap fun i => pop (argument i) :=
  List.map_flatMap

/-- A frame of no slots, and one of too many for a word, is not opened. -/
theorem openFrame_eq_ite (locals : Nat) :
    openFrame locals =
      if 0 < (BitVec.ofNat 32 (frameSize locals)).toInt then
        [aluImm .addi sp sp (-BitVec.ofNat 32 (frameSize locals))]
      else [] :=
  Draft.encode_ite _ _ _

/-- Every parameter has a word of its own that stores it. -/
theorem storeParams_eq (params : Nat) :
    storeParams params = (List.range params).map fun i => storeWord (argument i) s0 (slotPlace i) :=
  List.map_map

/-- A prologue saves, opens and stores, in this order. -/
theorem prologue_eq (params locals : Nat) :
    prologue params locals = saveFrame ++ openFrame locals ++ storeParams params := by
  rw [prologue, Draft.prologue, Draft.encode_append, Draft.encode_append]
  rfl

/-- Behind what closes the frame there is nothing but the return. -/
theorem epilogue_eq : epilogue = closeFrame ++ [.word (Encode.jalr zero ra 0)] :=
  rfl

end Assembly

/-! ## Trees -/

/-- The code of an expression. -/
def Expr.code (known : List String) (e : Expr) : Fresh Assembly :=
  Draft.encode <$> e.draft known

def codeOfArgs (known : List String) (es : List Expr) : Fresh Assembly :=
  Draft.encode <$> draftOfArgs known es

def codeOfExpr? (known : List String) (e? : Option Expr) : Fresh Assembly :=
  Draft.encode <$> draftOfExpr? known e?

/-- The jump to one of the exits of a loop. -/
def Exits.gotoLoop (exits : Exits) (side : Label × Label → Label) : Assembly :=
  Draft.encode (exits.draft side)

/-- The code of a statement. -/
def Stmt.code (known : List String) (exits : Exits) (s : Stmt) : Fresh Assembly :=
  Draft.encode <$> s.draft known exits

def codeOfStmt? (known : List String) (exits : Exits) (s? : Option Stmt) : Fresh Assembly :=
  Draft.encode <$> draftOfStmt? known exits s?

def codeOfStmts (known : List String) (exits : Exits) (ss : List Stmt) : Fresh Assembly :=
  Draft.encode <$> draftOfStmts known exits ss

end BareC
