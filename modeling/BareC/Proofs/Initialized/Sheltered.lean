import BareC.Proofs.Initialized.Guards

/-!
# Slots that are written before they are read

Where a slot can be named is settled by the text of a function, and where it has been written by the
way that control takes. The two agree but for declarations that control can pass over, `if (c) int
x;`, and for initial values that name the variable they belong to, `int x = x;`. A slot is sheltered
if neither is used to read it: what its declaration could be passed over with holds all of its
readings, and its initial value holds none (`Function.Shelters`). Then no activation ever reads it
before writing it.

The proof follows the slots that are seen (`Stmt.Sees`). A slot that is seen behind a statement, and
not in front of it, has been written there if it is read anywhere else: this is what `Stmt.Guarded`
says. It counts readings to tell whether any are left. Where a slot has been written once, nothing
more is to be shown (`Stmt.guards`).

The condition can be decided from the text and is not the weakest one: a slot may be passed over by
control and written by an assignment before anything reads it, and such a slot is not sheltered. No
claim is made of it.
-/

namespace BareC

/-! ## Parts of statements -/

mutual

/-- The statement and all that stand inside of it. -/
def Stmt.parts : Stmt → List Stmt
  | .ifElse cond yes no => .ifElse cond yes no :: (yes.parts ++ partsOfStmt? no)
  | .whileLoop cond body => .whileLoop cond body :: body.parts
  | .doWhile body cond => .doWhile body cond :: body.parts
  | .forLoop init cond step body =>
    .forLoop init cond step body :: (partsOfStmt? init ++ body.parts)
  | .block stmts => .block stmts :: partsOfStmts stmts
  | s => [s]

def partsOfStmt? : Option Stmt → List Stmt
  | none => []
  | some s => s.parts

def partsOfStmts : List Stmt → List Stmt
  | [] => []
  | s :: ss => s.parts ++ partsOfStmts ss

end

/-- What a statement may pass over: the branches of an `if`, and the body of a `while`. -/
def Stmt.branches : Stmt → List Stmt
  | .ifElse _ yes no => yes :: no.toList
  | .whileLoop _ body => [body]
  | _ => []

/-- How often the slot is read in some expressions. -/
def timesRead (slot : Nat) (es : List Expr) : Nat :=
  (es.flatMap Expr.reads).count slot

section TimesRead

variable {slot : Nat} {e : Expr} {es es' : List Expr}

@[simp]
theorem timesRead_nil : timesRead slot [] = 0 := rfl

@[simp]
theorem timesRead_cons : timesRead slot (e :: es) = e.reads.count slot + timesRead slot es := by
  rw [timesRead, List.flatMap_cons, List.count_append, timesRead]

/-- Readings are counted side by side. -/
@[simp]
theorem timesRead_append : timesRead slot (es ++ es') = timesRead slot es + timesRead slot es' := by
  rw [timesRead, List.flatMap_append, List.count_append, timesRead, timesRead]

end TimesRead

/-! ## Shelter -/

/-- The statement declares the slot with an initial value that reads it. -/
def Stmt.readsOwn (slot : Nat) : Stmt → Bool
  | .decl s (some e) => s == slot && e.reads.contains slot
  | _ => false

/-- Among some parts of a function that reads the slot so many times, no initial value of the slot
reads it, and what control may pass over with a declaration of the slot has all of the readings
inside. -/
structure Shelters (slot total : Nat) (parts : List Stmt) : Prop where
  initial : ∀ s ∈ parts, s.readsOwn slot = false
  branch : ∀ s ∈ parts, ∀ b ∈ s.branches, slot ∈ b.declared → timesRead slot b.exprs = total

instance (slot total : Nat) (parts : List Stmt) : Decidable (Shelters slot total parts) :=
  decidable_of_iff ((∀ s ∈ parts, s.readsOwn slot = false) ∧
      ∀ s ∈ parts, ∀ b ∈ s.branches, slot ∈ b.declared → timesRead slot b.exprs = total)
    ⟨fun h => ⟨h.1, h.2⟩, fun h => ⟨h.initial, h.branch⟩⟩

/-- The slot is not read where its declaration has been passed over, nor in its own initial value.
-/
def Function.Shelters (f : Function) (slot : Nat) : Prop :=
  BareC.Shelters slot (timesRead slot (exprsOfStmts f.body)) (partsOfStmts f.body)

instance (f : Function) (slot : Nat) : Decidable (f.Shelters slot) :=
  inferInstanceAs (Decidable (BareC.Shelters _ _ _))

/-- A slot that is sheltered in some statements is in fewer of them. -/
theorem Shelters.subset {slot total : Nat} {parts parts' : List Stmt}
    (h : Shelters slot total parts) (le : parts' ⊆ parts) : Shelters slot total parts' :=
  ⟨fun s mem => h.initial s (le mem), fun s mem => h.branch s (le mem)⟩

/-! ## Optional parts -/

section Lists

variable (s? : Option Stmt)

/-- A statement that may be missing has the expressions of the list of what is there. -/
theorem exprsOfStmts_toList : exprsOfStmts s?.toList = exprsOfStmt? s? := by
  cases s? with
  | none => rfl
  | some s => exact List.append_nil _

/-- As `exprsOfStmts_toList`, for the slots declared. -/
theorem declaredByStmts_toList : declaredByStmts s?.toList = declaredByStmt? s? := by
  cases s? with
  | none => rfl
  | some s => exact List.append_nil _

/-- As `exprsOfStmts_toList`, for the parts. -/
theorem partsOfStmts_toList : partsOfStmts s?.toList = partsOfStmt? s? := by
  cases s? with
  | none => rfl
  | some s => exact List.append_nil _

end Lists

section Counts

variable (slot : Nat)

/-- A conditional reads in its condition and in its branches. -/
theorem timesRead_ifElse (cond : Expr) (yes : Stmt) (no : Option Stmt) :
    timesRead slot (Stmt.ifElse cond yes no).exprs =
      cond.reads.count slot +
        (timesRead slot yes.exprs + timesRead slot (exprsOfStmts no.toList)) := by
  rw [Stmt.exprs, timesRead_cons, timesRead_append, exprsOfStmts_toList]

/-- A loop reads in the parts of its header and in its body. -/
theorem timesRead_forLoop (init : Option Stmt) (cond step : Option Expr) (body : Stmt) :
    timesRead slot (Stmt.forLoop init cond step body).exprs =
      timesRead slot (exprsOfStmts init.toList) +
      (timesRead slot cond.toList + (timesRead slot step.toList + timesRead slot body.exprs)) := by
  rw [Stmt.exprs, timesRead_append, timesRead_append, timesRead_append, exprsOfStmts_toList]

end Counts

/-! ## Where a slot is declared -/

section Declared

variable {slot : Nat}

mutual

/-- What is seen behind a statement and not in front of it, it declares. -/
theorem Stmt.Sees.declares : {seen behind : List Nat} → {s : Stmt} → s.Sees seen behind →
    slot ∉ seen → slot ∈ behind → slot ∈ s.declared
  | _, _, _, .decl _, unseen, mem =>
    (List.mem_cons.mp mem).elim (fun same => same ▸ List.mem_singleton_self _)
    fun mem => absurd mem unseen
  | _, _, _, @Stmt.Sees.ifElse _ seen' _ _ _ no _ hyes hno, unseen, mem => by
    by_cases inYes : slot ∈ seen'
    · exact List.mem_append_left _ (hyes.declares unseen inYes)
    · exact List.mem_append_right _ (declaredByStmts_toList no ▸ hno.declares inYes mem)
  | _, _, _, .whileLoop _ hbody, unseen, mem => hbody.declares unseen mem
  | _, _, _, .doWhile hbody _, unseen, mem => hbody.declares unseen mem
  | _, _, _, .declaration _ hall, unseen, mem => hall.declares unseen mem
  | _, _, _, .ret _, unseen, mem | _, _, _, .expr _, unseen, mem | _, _, _, .forLoop .., unseen, mem
  | _, _, _, .breakLoop, unseen, mem | _, _, _, .continueLoop, unseen, mem | _, _, _,
      .empty, unseen, mem
  | _, _, _, .block _, unseen, mem => absurd mem unseen

/-- A slot that comes into sight in some statements is declared by them. -/
theorem SeesAll.declares : {seen behind : List Nat} → {ss : List Stmt} → SeesAll seen ss behind →
    slot ∉ seen → slot ∈ behind → slot ∈ declaredByStmts ss
  | _, _, _, .nil, unseen, mem => absurd mem unseen
  | _, _, _, @SeesAll.cons _ seen' _ _ _ hs hss, unseen, mem => by
    by_cases inFirst : slot ∈ seen'
    · exact List.mem_append_left _ (hs.declares unseen inFirst)
    · exact List.mem_append_right _ (hss.declares inFirst mem)

end

end Declared

/-! ## Sheltered slots -/

section Sheltered

variable {slot total : Nat} {replies : Replies} {fuel : Nat}

/-- The slot is seen behind some expressions, and is read anywhere else. -/
def Needed (slot total : Nat) (behind : List Nat) (es : List Expr) : Prop :=
  slot ∈ behind ∧ timesRead slot es < total

/-- A slot that is read in one of the expressions is counted. -/
theorem timesRead_pos {e : Expr} {es : List Expr} (mem : e ∈ es) (reads : slot ∈ e.reads) :
    0 < timesRead slot es :=
  List.count_pos_iff.mpr (List.mem_flatMap.mpr ⟨e, mem, reads⟩)

/-- A statement is a part of itself. -/
theorem Stmt.self_mem_parts (s : Stmt) : s ∈ s.parts := by
  cases s <;> simp [Stmt.parts]

/-- Behind statements that declare the slot where control may pass them over it is not needed. -/
theorem Shelters.not_needed {s b : Stmt} (h : Shelters slot total s.parts) (branch : b ∈ s.branches)
    (declares : slot ∈ b.declared) (inside : timesRead slot b.exprs ≤ timesRead slot s.exprs)
    (behind : List Nat) : ¬Needed slot total behind s.exprs := fun needed =>
  absurd needed.2 (by
    rw [← h.branch s s.self_mem_parts b branch declares]
    exact Nat.not_lt_of_le inside)

/-- A slot needed behind many readings is needed behind fewer. -/
theorem Needed.of_le {behind : List Nat} {es es' : List Expr} (h : Needed slot total behind es)
    (le : timesRead slot es' ≤ timesRead slot es) : Needed slot total behind es' :=
  ⟨h.1, Nat.lt_of_le_of_lt le h.2⟩

/-- If these statements read the slot at all, it has been written before. -/
theorem guards_of_timesRead {Before : Prop} (ss : List Stmt)
    (h : 0 < timesRead slot (exprsOfStmts ss) → Before) :
    Guards slot Before (observeStmts replies fuel ss) fun _ => False :=
  guards_stmts fuel ss fun _ mem reads => h (timesRead_pos mem reads)

variable (slot total replies fuel) in
/-- The statement never is the first to read the slot. Where it goes on within the function, the
slot has been written if it is needed behind. -/
def Stmt.Guarded (s : Stmt) (behind : List Nat) : Prop :=
  Guards slot False (s.observe replies fuel) fun flow =>
    Needed slot total behind s.exprs ∧ ∀ v, flow ≠ .returned v

variable (slot total replies fuel) in
/-- The same for statements one behind the other. -/
def GuardedAll (ss : List Stmt) (behind : List Nat) : Prop :=
  Guards slot False (observeStmts replies fuel ss) fun flow =>
    Needed slot total behind (exprsOfStmts ss) ∧ flow = .next

section Cases

variable {seen seen' behind : List Nat}

/-- A declaration whose initial value does not read the slot guards it, and writes it if it is its
own. -/
theorem guards_decl {s : Nat} {init : Option Expr} (unread : ∀ e ∈ init, slot ∉ e.reads) :
    Guards slot False ((Stmt.decl s init).observe replies fuel) fun flow =>
    s = slot ∨ flow ≠ .next := by
  have post : Flow.next ≠ Flow.next → False := absurd rfl
  cases init with
  | none =>
    rw [Stmt.observe]
    exact .bind (.write s 0) fun _ => .pure fun known => .inr (known.resolve_right post)
  | some e =>
    rw [Stmt.observe]
    refine .andThen (e.guards (unread e rfl)) fun v => .bind (.write s v) fun _ => ?_
    exact .pure fun known => .inr (known.resolve_right post)

/-- The initial value of a declaration does not read a sheltered slot that was not yet seen. -/
theorem Shelters.unread {s : Nat} {init : Option Expr}
    (h : Shelters slot total (Stmt.decl s init).parts) (unseen : slot ∉ seen)
    (sees : ∀ e ∈ init, e.reads ⊆ s :: seen) (e : Expr) (isInit : e ∈ init) :
    slot ∉ e.reads := by
  intro mem
  rcases List.mem_cons.mp (sees e isInit mem) with rfl | inSeen
  · cases isInit
    have own := h.initial _ (Stmt.self_mem_parts _)
    simp [Stmt.readsOwn, mem] at own
  · exact unseen inSeen

/-- What a branch declares is not needed behind the branches. -/
theorem Shelters.guarded_ifElse {cond : Expr} {yes : Stmt} {no : Option Stmt}
    (h : Shelters slot total (Stmt.ifElse cond yes no).parts) (unread : slot ∉ cond.reads)
    (hyes : Guards slot False (yes.observe replies fuel) fun _ => False)
    (hno : Guards slot False (observeStmts replies fuel no.toList) fun _ => False)
    (declares : slot ∈ behind → slot ∈ (Stmt.ifElse cond yes no).declared) :
    (Stmt.ifElse cond yes no).Guarded slot total replies fuel behind := by
  have times := timesRead_ifElse slot cond yes no
  have never : ¬Needed slot total behind (Stmt.ifElse cond yes no).exprs := by
    intro needed
    rcases List.mem_append.mp (declares needed.1) with inYes | inNo
    · exact h.not_needed List.mem_cons_self inYes (by omega) behind needed
    · cases no with
      | none => cases inNo
      | some no =>
        have same : timesRead slot (exprsOfStmts (some no).toList) = timesRead slot no.exprs := by
          rw [exprsOfStmts_toList, exprsOfStmt?]
        exact h.not_needed (List.mem_cons_of_mem _ List.mem_cons_self) inNo (by omega) behind needed
  rw [Stmt.Guarded, Stmt.observe, ← observeStmts_toList]
  exact .of_never (.andThen (cond.guards unread) fun c => .ite (fun _ => hyes) fun _ => hno)
    fun _ post => never post.1

/-- The condition is looked at where the body goes on in the loop. -/
theorem guarded_doWhile {body : Stmt} {cond : Expr}
    (hbody : body.Guarded slot total replies fuel behind) (hcond : cond.reads ⊆ behind)
    (few : timesRead slot (Stmt.doWhile body cond).exprs ≤ total) :
    (Stmt.doWhile body cond).Guarded slot total replies fuel behind := by
  have times : timesRead slot (Stmt.doWhile body cond).exprs =
      timesRead slot body.exprs + cond.reads.count slot := by
    rw [Stmt.exprs, timesRead_append, timesRead_cons, timesRead_nil, Nat.add_zero]
  rw [Stmt.Guarded, Stmt.observe]
  refine .loop (hbody.bind fun flow => .unlessLeft (fun stays => ?_) ?_) fuel
  · have notReturned : ∀ v, flow ≠ .returned v := by
      rintro v rfl
      cases stays
    refine .bind (Expr.guards cond fun mem => .inr ⟨⟨hcond mem, ?_⟩, notReturned⟩) fun c => .pure ?_
    · have := List.count_pos_iff.mpr mem
      omega
    · rintro ⟨_, -, needed, -⟩
      exact .inl (.inr ⟨needed.of_le (by omega), notReturned⟩)
  · rintro left leaves ⟨_, same, needed, left'⟩
    refine .inr ⟨needed.of_le (by omega), ?_⟩
    rintro v rfl
    cases leaves
    exact left' v (Option.some.inj same).symm

/-- What the first part of a `for` declares has been written in every round. -/
theorem guarded_forLoop {init : Option Stmt} {cond step : Option Expr} {body : Stmt}
    (unseen : slot ∉ seen) (hinit : GuardedAll slot total replies fuel init.toList seen')
    (hcond : ∀ e ∈ cond, e.reads ⊆ seen') (hstep : ∀ e ∈ step, e.reads ⊆ seen')
    (hbody : slot ∉ seen' → body.Guarded slot total replies fuel behind)
    (few : timesRead slot (Stmt.forLoop init cond step body).exprs ≤ total) :
    (Stmt.forLoop init cond step body).Guarded slot total replies fuel seen := by
  have times := timesRead_forLoop slot init cond step body
  rw [Stmt.Guarded, Stmt.observe, ← observeStmts_toList]
  refine .of_never (.bind hinit fun flow => .ite (fun _ => .pure False.elim) fun isNext => ?_)
    fun _ post => unseen post.1.1
  -- What the first part has written is known in every round.
  generalize known : (False ∨ _) = Before
  have ahead : slot ∈ seen' → timesRead slot (exprsOfStmts init.toList) < total → Before :=
    fun inInit less =>
    known ▸ .inr ⟨⟨inInit, less⟩, not_not.mp isNext⟩
  have hcond : ∀ e ∈ cond, slot ∈ e.reads → Before :=
    fun e mem reads => ahead (hcond e mem reads) (by
    have := timesRead_pos (Option.mem_toList.mpr mem) reads
    omega)
  have hstep : ∀ e ∈ step, slot ∈ e.reads → Before :=
    fun e mem reads => ahead (hstep e mem reads) (by
    have := timesRead_pos (Option.mem_toList.mpr mem) reads
    omega)
  have hbody : Guards slot Before (body.observe replies fuel) fun _ => False := by
    by_cases inInit : slot ∈ seen'
    · exact body.guards fuel fun e mem reads => ahead inInit (by
        have := timesRead_pos mem reads
        omega)
    · exact (hbody inInit).weaken False.elim fun _ => False.elim
  refine .rounds (.andThen (guards_cond hcond) fun c =>
    .ite (fun _ => .pure False.elim) fun _ => ?_) fuel
  refine .andThen hbody fun flow => .unlessLeft (fun _ => ?_) fun _ _ => False.elim
  exact .andThen (guards_step hstep) fun _ => .pure False.elim

/-- A declaration of several variables never goes on elsewhere. -/
theorem guarded_declaration {ss : List Stmt} (areDecls : ∀ s ∈ ss, ∃ slot init, s = .decl slot init)
    (hall : SeesAll seen ss behind) (unseen : slot ∉ seen)
    (few : timesRead slot (exprsOfStmts ss) ≤ total)
    (sheltered : Shelters slot total (partsOfStmts ss)) :
    Guards slot False (observeStmts replies fuel ss) fun _ =>
    Needed slot total behind (exprsOfStmts ss) := by
  induction ss generalizing seen with
  | nil =>
    cases hall
    rw [observeStmts]
    exact .pure fun needed => unseen needed.1
  | cons s ss ih =>
    obtain ⟨⟨s, init, rfl⟩, others⟩ := List.forall_mem_cons.mp areDecls
    have times : timesRead slot (exprsOfStmts (.decl s init :: ss)) =
        timesRead slot init.toList + timesRead slot (exprsOfStmts ss) := timesRead_append
    cases hall with
    | cons hs hss =>
    cases hs with
    | decl he =>
    have unread := (sheltered.subset (List.subset_append_left _ _)).unread unseen he
    rw [observeStmts]
    refine .bind (guards_decl unread) fun flow => .ite (fun _ => ?_) fun notNext =>
      .pure fun _ => .inr (.inr notNext)
    by_cases same : s = slot
    · exact (guards_of_timesRead ss fun _ => .inr (.inl same)).weaken id
        fun _ _ => .inl (.inr (.inl same))
    · have rest :=
        ih others hss (List.not_mem_cons_of_ne_of_not_mem (Ne.symm same) unseen) (by omega)
        (sheltered.subset (List.subset_append_right _ _))
      exact rest.weaken False.elim fun _ needed => .inr (needed.of_le (by omega))

end Cases

mutual

/-- A statement whose reads are in sight guards every sheltered slot it brings into sight, one case
for each kind. -/
theorem Stmt.Sees.guarded : {seen behind : List Nat} → {s : Stmt} → s.Sees seen behind →
    slot ∉ seen →
    timesRead slot s.exprs ≤ total → Shelters slot total s.parts →
    s.Guarded slot total replies fuel behind
  | _, _, .ret none, .ret _, _, _, _ => by
    rw [Stmt.Guarded, Stmt.observe]
    exact .pure fun post => absurd rfl (post.2 _)
  | _, _, .ret (some e), .ret he, unseen, _, _ => by
    rw [Stmt.Guarded, Stmt.observe]
    refine .andThen (e.guards fun mem => unseen (he e rfl mem)) fun v => ?_
    exact .pure fun post => absurd rfl (post.2 _)
  | _, _, .expr e, .expr he, unseen, _, _ => by
    rw [Stmt.Guarded, Stmt.observe]
    exact .andThen (e.guards fun mem => unseen (he mem)) fun v => .pure fun post => unseen post.1.1
  | _, _, .decl s init, .decl he, unseen, _, sheltered => by
    refine (guards_decl (sheltered.unread unseen he)).weaken id fun flow post => .inr (.inl ?_)
    exact (List.mem_cons.mp post.1.1).elim Eq.symm fun mem => absurd mem unseen
  | _, _, .ifElse cond yes no, @Stmt.Sees.ifElse _ seen' _ _ _ _ hcond hyes hno, unseen, few,
      sheltered => by
    have times := timesRead_ifElse slot cond yes no
    have inside : yes.parts ++ partsOfStmts no.toList ⊆ (Stmt.ifElse cond yes no).parts := by
      rw [partsOfStmts_toList, Stmt.parts]
      exact List.subset_cons_self ..
    obtain ⟨insideYes, insideNo⟩ := List.append_subset.mp inside
    have first : yes.Guarded slot total replies fuel _ :=
      hyes.guarded unseen (by omega) (sheltered.subset insideYes)
    refine sheltered.guarded_ifElse (fun mem => unseen (hcond mem))
      (first.weaken id fun _ => False.elim) ?_ ((Stmt.Sees.ifElse hcond hyes hno).declares unseen)
    -- If the first branch declares the slot, it has all of the readings, and the second has none.
    by_cases inYes : slot ∈ seen'
    · have declares := hyes.declares unseen inYes
      have all := sheltered.branch _ (Stmt.self_mem_parts _) yes List.mem_cons_self declares
      exact guards_of_timesRead no.toList fun reads => absurd reads (by omega)
    · have second : GuardedAll slot total replies fuel no.toList _ :=
        hno.guarded inYes (by omega) (sheltered.subset insideNo)
      exact second.weaken id fun _ => False.elim
  | _, _, .whileLoop cond body, .whileLoop hcond hbody, unseen, few, sheltered => by
    have times : timesRead slot (Stmt.whileLoop cond body).exprs =
        cond.reads.count slot + timesRead slot body.exprs := timesRead_cons
    have inside : body.Guarded slot total replies fuel _ :=
      hbody.guarded unseen (by omega) (sheltered.subset (List.subset_cons_self ..))
    rw [Stmt.Guarded, Stmt.observe]
    refine .of_never (.rounds (.andThen (cond.guards fun mem => unseen (hcond mem)) fun c =>
      .ite (fun _ => .pure False.elim) fun _ => ?_) fuel) fun _ post => ?_
    · exact .andThen (inside.weaken id fun _ => False.elim) fun flow => .pure False.elim
    · have declares := hbody.declares unseen post.1.1
      exact sheltered.not_needed List.mem_cons_self declares (by omega) _ post.1
  | _, _, .doWhile body cond, .doWhile hbody hcond, unseen, few, sheltered => by
    refine guarded_doWhile (hbody.guarded unseen (Nat.le_trans ?_ few) ?_) hcond few
    · rw [Stmt.exprs, timesRead_append]
      exact Nat.le_add_right ..
    · exact sheltered.subset (List.subset_cons_self ..)
  | _, _, .forLoop init cond step body, .forLoop hinit hcond hstep hbody, unseen, few,
      sheltered => by
    have times := timesRead_forLoop slot init cond step body
    have inside :
        partsOfStmts init.toList ++ body.parts ⊆ (Stmt.forLoop init cond step body).parts := by
      rw [partsOfStmts_toList, Stmt.parts]
      exact List.subset_cons_self ..
    obtain ⟨insideInit, insideBody⟩ := List.append_subset.mp inside
    refine guarded_forLoop unseen (hinit.guarded unseen (by omega) (sheltered.subset insideInit))
      hcond hstep
      (fun unseen' => hbody.guarded unseen' (by omega) (sheltered.subset insideBody)) few
  | _, _, _, .breakLoop, unseen, _, _ | _, _, _, .continueLoop, unseen, _, _
  | _, _, _, .empty, unseen, _, _ => by
    rw [Stmt.Guarded, Stmt.observe]
    exact .pure fun post => unseen post.1.1
  | _, _, .block ss, .block hall, unseen, few, sheltered => by
    have all : GuardedAll slot total replies fuel ss _ :=
      hall.guarded unseen few (sheltered.subset (List.subset_cons_self ..))
    rw [Stmt.Guarded, Stmt.observe]
    exact all.weaken id fun flow post => absurd post.1.1 unseen
  | _, _, _, .declaration areDecls hall, unseen, few, sheltered => by
    rw [Stmt.Guarded, Stmt.observe]
    exact (guarded_declaration areDecls hall unseen few
      (sheltered.subset (List.subset_cons_self ..))).weaken id fun flow post => .inr post.1

/-- As `Stmt.Sees.guarded`, for a list. -/
theorem SeesAll.guarded : {seen behind : List Nat} → {ss : List Stmt} → SeesAll seen ss behind →
    slot ∉ seen → timesRead slot (exprsOfStmts ss) ≤ total → Shelters slot total (partsOfStmts ss) →
      GuardedAll slot total replies fuel ss behind
  | _, _, [], .nil, unseen, _, _ => by
    rw [GuardedAll, observeStmts]
    exact .pure fun post => unseen post.1.1
  | _, _, s :: ss, @SeesAll.cons _ seen' _ _ _ hs hss, unseen, few, sheltered => by
    have times : timesRead slot (exprsOfStmts (s :: ss)) =
        timesRead slot s.exprs + timesRead slot (exprsOfStmts ss) := timesRead_append
    have first : s.Guarded slot total replies fuel seen' :=
      hs.guarded unseen (by omega) (sheltered.subset (List.subset_append_left _ _))
    rw [GuardedAll, observeStmts]
    refine first.bind fun flow => .ite (fun next => ?_) fun notNext =>
      .pure fun post => absurd post.2 notNext
    have notReturned : ∀ v, flow ≠ .returned v := next ▸ nofun
    by_cases inFirst : slot ∈ seen'
    · -- Either it has been written or nothing behind reads it.
      have known : timesRead slot s.exprs < total →
          False ∨ Needed slot total seen' s.exprs ∧ ∀ v, flow ≠ .returned v :=
        fun less => .inr ⟨⟨inFirst, less⟩, notReturned⟩
      refine (guards_of_timesRead ss fun reads => known (by omega)).weaken id
        fun _ post => .inl (known ?_)
      have := post.1.2
      omega
    · have rest : GuardedAll slot total replies fuel ss _ :=
        hss.guarded inFirst (by omega) (sheltered.subset (List.subset_append_right _ _))
      exact rest.weaken False.elim fun _ post => .inr ⟨post.1.of_le (by omega), post.2⟩

end

end Sheltered

end BareC
