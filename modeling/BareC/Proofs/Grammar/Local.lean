import BareC.Proofs.Grammar.Outcome

/-!
# Reading does not look ahead

Where a declaration ends can be seen without reading it: at the first semicolon outside of all
braces or at the closing brace of the first ones. A parser never takes the token that the
declaration ends with, and what stands behind that token makes no difference to it. That is so for
every parser that obeys the rules, since braces are taken in pairs only and semicolons only between
them.

In the end that token is taken, by the declaration itself and as the last thing it does
(`Declarations`); while reading goes on inside, one more token is always there. `Closes` says that
of the tokens ahead, with the number of braces that are open, and is kept by every token that may be
taken.

Tokens that end a source or mark an error are not inside of declarations here. A marker stops the
reading where it stands, and what is skipped behind it is the subject of `Markers`.
-/

namespace BareC

/-- No name is spelled like a brace or a semicolon. -/
def Token.WellSpelled (t : Token) : Prop :=
  ∀ s ∈ reserved false, t.is s = true → t.kind = .punct

instance (t : Token) : Decidable t.WellSpelled :=
  inferInstanceAs (Decidable (∀ s ∈ Token.reserved false, t.is s = true → t.kind = .punct))

namespace Grammar

/-! ## The end of a declaration -/

/-- A token that can stand inside a declaration. -/
structure Inside (t : Token) : Prop where
  notEnd : t.kind ≠ .eof
  notMarker : t.kind ≠ .error
  spelling : t.WellSpelled

instance (t : Token) : Decidable (Inside t) :=
  decidable_of_iff (t.kind ≠ .eof ∧ t.kind ≠ .error ∧ t.WellSpelled)
    ⟨fun ⟨notEnd, notMarker, spelling⟩ => ⟨notEnd, notMarker, spelling⟩,
      fun ⟨notEnd, notMarker, spelling⟩ => ⟨notEnd, notMarker, spelling⟩⟩

/-- A declaration ends with this token, if so many braces are open in front of it. -/
def endsAt (depth : Nat) (t : Token) : Bool :=
  Cursor.depthAfter depth t = 0 && (t.is "\x7d" || t.is ";")

/-- The tokens are the rest of a declaration in which so many braces are open. -/
def Closes : (depth : Nat) → List Token → Prop
  | _, [] => False
  | depth, t :: ts =>
    Inside t ∧ if endsAt depth t then ts = [] else Closes (Cursor.depthAfter depth t) ts

/-- An opening brace is one level deeper. -/
theorem Cursor.depthAfter_of_opening {t : Token} (h : t.is "\x7b" = true) (depth : Nat) :
    depthAfter depth t = depth + 1 := by
  rw [depthAfter, if_pos h]

/-- A closing brace is one level up. -/
theorem Cursor.depthAfter_of_closing {t : Token} (h : t.is "\x7d" = true) (depth : Nat) :
    depthAfter depth t = depth - 1 := by
  rw [depthAfter, if_neg (Bool.eq_false_iff.mp (Token.is_eq_false h (by decide))), if_pos h]

/-- An opening brace ends nothing, and a closing brace ends nothing if it is not the outermost one.
-/
theorem endsAt_eq_false {depth : Nat} {t : Token} (h : Cursor.depthAfter depth t ≠ 0) :
    endsAt depth t = false := by
  rw [endsAt, decide_eq_false h, Bool.false_and]

/-- Recovery takes a token and ends behind it, or goes on at the depth behind it. -/
theorem recover_cons {depth : Nat} {t : Token} (inside : Inside t) (ts : List Token) :
    recover depth (t :: ts) =
      if endsAt depth t then ts else recover (Cursor.depthAfter depth t) ts := by
  rw [recover, if_neg inside.notEnd, if_neg inside.notMarker]
  rfl

/-- Skipping the rest of a declaration ends behind it. -/
theorem recover_append {depth : Nat} {ts : List Token} (h : Closes depth ts) (rest : List Token) :
    recover depth (ts ++ rest) = rest := by
  induction ts generalizing depth with
  | nil => exact h.elim
  | cons t ts ih =>
    obtain ⟨inside, h⟩ := h
    rw [List.cons_append, recover_cons inside]
    by_cases ends : endsAt depth t = true
    · rw [if_pos ends] at h ⊢
      rw [h]
      rfl
    · rw [if_neg ends] at h ⊢
      exact ih h

namespace Closes

variable {depth : Nat} {t : Token} {ts : List Token} {body : Bool}

/-- A token that a parser takes by itself neither opens nor closes anything, and does not end the
declaration. -/
theorem take (h : Closes depth (t :: ts)) (taken : t.Takeable body)
    (inBody : body = true → 0 < depth) :
    Cursor.depthAfter depth t = depth ∧ Closes depth ts := by
  obtain ⟨inside, h⟩ := h
  have free : ∀ s ∈ Token.reserved body, t.is s = false := by
    rcases taken.spelling with name | free
    · intro s mem
      have general : s ∈ Token.reserved false := by
        cases body with
        | false => exact mem
        | true => exact List.mem_append_left [";"] mem
      refine Bool.eq_false_iff.mpr fun is => ?_
      have kind := inside.spelling s general is
      rw [Token.kind_of_isName name] at kind
      cases kind
    · exact free
  have opening : t.is "\x7b" = false := free _ (by cases body <;> decide)
  have closing : t.is "\x7d" = false := free _ (by cases body <;> decide)
  have same : Cursor.depthAfter depth t = depth := by
    simp only [Cursor.depthAfter, opening, closing, Bool.false_eq_true, if_false]
  have goes : endsAt depth t = false := by
    rw [endsAt, same, closing, Bool.false_or, Bool.and_eq_false_iff]
    cases body with
    | false => exact .inr (free ";" (by decide))
    | true => exact .inl (decide_eq_false (Nat.pos_iff_ne_zero.mp (inBody rfl)))
  rw [goes, if_neg Bool.false_ne_true, same] at h
  exact ⟨same, h⟩

end Closes

/-! ## What follows makes no difference -/

/-- The same place with more tokens behind. -/
def Cursor.followed (c : Cursor) (rest : List Token) : Cursor :=
  ⟨c.ahead ++ rest, c.depth⟩

/-- The same failure with more tokens behind. -/
def Failure.followed (f : Failure) (rest : List Token) : Failure :=
  { f with cursor := f.cursor.followed rest }

/-- What reading gives inside a declaration, and what it gives with more tokens behind. If it
succeeds, so many braces are open. -/
inductive Stays {α : Type} (rest : List Token) (depth : Nat) :
    (alone followed : Except Failure (α × Cursor)) → Prop
  | ok {a c} : c.depth = depth → Closes depth c.ahead →
    Stays rest depth (.ok (a, c)) (.ok (a, c.followed rest))
  | error {f} : Closes f.cursor.depth f.cursor.ahead →
    Stays rest depth (.error f) (.error (f.followed rest))

variable {α β : Type} {rest : List Token} {depth depth' : Nat} {c : Cursor}

namespace Stays

/-- A parser that stays within its declaration may be followed by one that does. -/
theorem bind {p : Parser β} {f : β → Parser α}
    (hp : Stays rest depth (p.run c) (p.run (c.followed rest)))
    (hf : ∀ b c', p.run c = .ok (b, c') → c'.depth = depth → Closes depth c'.ahead →
      Stays rest depth' ((f b).run c') ((f b).run (c'.followed rest))) :
    Stays rest depth' ((p >>= f).run c) ((p >>= f).run (c.followed rest)) := by
  rw [StateT.run_bind, StateT.run_bind]
  generalize alone : p.run c = x at hp
  generalize p.run (c.followed rest) = y at hp
  cases hp with
  | error closes => exact .error closes
  | ok same closes => exact hf _ _ alone same closes

end Stays

/-- What follows a declaration is not seen while the declaration is open. -/
theorem Cursor.next_followed (h : Closes depth c.ahead) (rest : List Token) :
    (c.followed rest).next = c.next := by
  obtain ⟨_ | ⟨t, ts⟩, depth⟩ := c
  · exact h.elim
  · rfl

/-- Inside a declaration there is a token to take. -/
theorem Cursor.advance_followed (h : Closes depth c.ahead) (rest : List Token) :
    (c.followed rest).advance = c.advance.followed rest := by
  obtain ⟨_ | ⟨t, ts⟩, depth⟩ := c
  · exact h.elim
  · simp only [Cursor.followed, Cursor.advance, List.cons_append, if_neg h.1.notEnd]

/-- Taking a token that does not end the declaration. -/
theorem Closes.advance (h : Closes c.depth c.ahead) (goes : endsAt c.depth c.next = false) :
    c.advance.depth = Cursor.depthAfter c.depth c.next ∧
    Closes c.advance.depth c.advance.ahead := by
  obtain ⟨_ | ⟨t, ts⟩, depth⟩ := c
  · exact h.elim
  · obtain ⟨inside, h⟩ := h
    have goes : endsAt depth t = false := goes
    rw [if_neg (Bool.eq_false_iff.mp goes)] at h
    simp only [Cursor.advance, if_neg inside.notEnd]
    exact ⟨rfl, h⟩

/-- Taking a token that is not reserved keeps the depth and leaves the declaration open. -/
theorem Closes.takeNext {body : Bool} (h : Closes c.depth c.ahead) (taken : c.next.Takeable body)
    (inBody : body = true → 0 < c.depth) :
    c.advance.depth = c.depth ∧ Closes c.depth c.advance.ahead := by
  obtain ⟨_ | ⟨t, ts⟩, depth⟩ := c
  · exact h.elim
  · have next := h.take taken inBody
    simp only [Cursor.advance, if_neg h.1.notEnd]
    exact next

/-- An empty parameter list does not begin with the end of a declaration. -/
theorem isVoidList_append {ts : List Token} (h : Closes depth ts) (rest : List Token) :
    isVoidList (ts ++ rest) = isVoidList ts := by
  match ts, h with
  | [t], ⟨_, h⟩ =>
    by_cases ends : endsAt depth t = true
    · have void : t.is "void" = false := by
        rcases Bool.or_eq_true_iff.mp (Bool.and_eq_true_iff.mp ends).2 with is | is <;>
          exact Token.is_eq_false is (by decide)
      cases rest with
      | nil => rfl
      | cons u us =>
        show (t.is "void" && u.is ")") = false
        rw [void, Bool.false_and]
    · rw [if_neg ends] at h
      exact h.elim
  | t :: u :: ts, _ => rfl

/-- An empty list of parameters begins with `void` -/
theorem next_of_isVoidList (h : isVoidList c.ahead = true) : c.next.is "void" = true := by
  obtain ⟨ahead, depth⟩ := c
  match ahead with
  | [] | [_] => exact absurd h Bool.false_ne_true
  | t :: u :: _ => exact (Bool.and_eq_true_iff.mp h).1

namespace Parser

/-- What is wrong is seen from the next token, so it is the same with more tokens behind. -/
theorem fail_followed (α : Type) (fault : SyntaxFault) (h : Closes c.depth c.ahead)
    (rest : List Token) : ∃ f : Failure, f.cursor = c ∧ (fail fault : Parser α).run c = .error f ∧
      (fail fault : Parser α).run (c.followed rest) = .error (f.followed rest) := by
  refine ⟨⟨⟨if c.next.kind = .error then .marker c.next.text else fault, c.next.line⟩, c⟩,
    rfl, rfl, ?_⟩
  have next := Cursor.next_followed h rest
  rw [← next]
  rfl

/-- A failure stays within its declaration. -/
theorem stays_fail {fault : SyntaxFault} (h : Closes c.depth c.ahead) :
    Stays rest depth ((fail fault : Parser α).run c) ((fail fault).run (c.followed rest)) := by
  obtain ⟨f, rfl, alone, followed⟩ := fail_followed α fault h rest
  rw [alone, followed]
  exact .error h

/-- As `stays_fail`, for a token expected that does not end it. -/
theorem stays_expect {s : String} (h : Closes c.depth c.ahead)
    (goes : c.next.is s = true →
      endsAt c.depth c.next = false ∧ Cursor.depthAfter c.depth c.next = depth) :
    Stays rest depth ((expect s).run c) ((expect s).run (c.followed rest)) := by
  rw [Parser.expect, run_accept_bind, run_accept_bind, Cursor.next_followed h]
  by_cases is : c.next.is s = true
  · rw [if_pos is, if_pos is, Cursor.advance_followed h]
    obtain ⟨goes, deeper⟩ := goes is
    obtain ⟨same, closes⟩ := h.advance goes
    rw [deeper] at same
    exact .ok same (same ▸ closes)
  · rw [if_neg is, if_neg is]
    exact stays_fail h

/-- Tokens are passed over inside the declaration only. -/
theorem closes_dropWhile {p : Token → Bool} {body : Bool}
    (taken : ∀ t, p t = true → t.Takeable body) (inBody : body = true → 0 < depth) {ts : List Token}
    (h : Closes depth ts) :
    (ts ++ rest).dropWhile p = ts.dropWhile p ++ rest ∧ Closes depth (ts.dropWhile p) := by
  induction ts with
  | nil => exact h.elim
  | cons t ts ih =>
    rw [List.cons_append, List.dropWhile_cons, List.dropWhile_cons]
    split
    next pt => exact ih (h.take (taken t pt) inBody).2
    next => exact ⟨rfl, h⟩

/-- What is between braces is read one level deeper, and behind it as many are open as before. -/
theorem stays_braces {p : Parser α} (inBody : 0 < c.depth) (h : Closes c.depth c.ahead)
    (hp : ∀ c' : Cursor, c'.depth = c.depth + 1 → Closes c'.depth c'.ahead →
      Stays rest c'.depth (p.run c') (p.run (c'.followed rest))) :
    Stays rest c.depth ((braces p).run c) ((braces p).run (c.followed rest)) := by
  have opening : c.next.is "\x7b" = true →
      endsAt c.depth c.next = false ∧ Cursor.depthAfter c.depth c.next = c.depth + 1 := by
    intro is
    have deeper := Cursor.depthAfter_of_opening is c.depth
    exact ⟨endsAt_eq_false (deeper ▸ Nat.succ_ne_zero _), deeper⟩
  refine .bind (stays_expect h opening) fun _ c₁ _ depth₁ closes₁ => ?_
  refine .bind (hp c₁ depth₁ (depth₁ ▸ closes₁)) fun a c₂ _ depth₂ closes₂ => ?_
  have closing : c₂.next.is "\x7d" = true →
      endsAt c₂.depth c₂.next = false ∧ Cursor.depthAfter c₂.depth c₂.next = c.depth := by
    intro is
    have outer : Cursor.depthAfter c₂.depth c₂.next = c.depth := by
      rw [Cursor.depthAfter_of_closing is, depth₂, depth₁, Nat.add_sub_cancel]
    exact ⟨endsAt_eq_false (outer ▸ Nat.pos_iff_ne_zero.mp inBody), outer⟩
  refine .bind (stays_expect (depth₂ ▸ closes₂) closing) fun _ c₃ _ depth₃ closes₃ => ?_
  exact .ok depth₃ closes₃

variable {Ahead : Token → Prop} {body takes : Bool} {Next : Token → Prop} {P : α → Prop}

/-- Every parser that obeys the rules stays inside the declaration, and what stands behind it makes
no difference. In a body some brace is open, so that a semicolon is not the end. -/
theorem Reads.stays {p : Parser α} (h : p.Reads Ahead body takes Next P) (all : ∀ t, Ahead t)
    (c : Cursor) (next : Next c.next) (closes : Closes c.depth c.ahead)
    (inBody : body = true → 0 < c.depth) :
    Stays rest c.depth (p.run c) (p.run (c.followed rest)) := by
  induction h generalizing c with
  | pure ha => exact .ok rfl closes
  | failOn => exact .error closes
  | fail => exact stays_fail closes
  | @peek _ _ _ f _ _ ih =>
    show Stays rest c.depth ((f c.next).run c) ((f (c.followed rest).next).run (c.followed rest))
    rw [Cursor.next_followed closes]
    exact ih c.next next (fun _ => all _) c rfl closes inBody
  | @advance _ _ _ f _ takeable _ ih =>
    show Stays rest c.depth ((f c.next).run c.advance)
      ((f (c.followed rest).next).run (c.followed rest).advance)
    rw [Cursor.next_followed closes, Cursor.advance_followed closes]
    obtain ⟨same, closes⟩ := closes.takeNext (takeable c.next next) inBody
    rw [← same] at closes ⊢
    exact ih c.next next c.advance trivial closes fun body => same ▸ inBody body
  | @skipWhile _ p takeable =>
    obtain ⟨same, closes⟩ := closes_dropWhile takeable inBody closes
    show Stays rest c.depth _ (.ok ((), ⟨(c.ahead ++ rest).dropWhile p, c.depth⟩))
    rw [same]
    exact .ok rfl closes
  | bind hp _ ihp ihf =>
    refine .bind (ihp c next closes inBody) fun b c' alone depth closes => ?_
    have value := hp.value (fun t _ => all t) next alone
    rw [← depth] at closes inBody ⊢
    exact ihf b value c' trivial closes inBody
  | bindTaken hp _ ihp ihf =>
    refine .bind (ihp c next closes inBody) fun b c' alone depth closes => ?_
    have value := hp.value (fun t _ => all t) next alone
    rw [← depth] at closes inBody ⊢
    exact ihf b value c' trivial closes inBody
  | @bounded _ _ _ loop _ bounded _ ih =>
    -- More of a bound than is needed does no harm, so both runs can be given the same one.
    have same : (loop (c.ahead ++ rest)).run c = (loop c.ahead).run c :=
      bounded c _ _ (fun t _ => all t) (by simp) (Nat.le_refl _)
    show Stays rest c.depth ((loop c.ahead).run c) ((loop (c.ahead ++ rest)).run (c.followed rest))
    rw [← same]
    exact ih _ c next closes inBody
  | @voidList _ _ _ f _ _ _ ihyes ihno =>
    show Stays rest c.depth ((f (isVoidList c.ahead)).run c)
      ((f (isVoidList (c.ahead ++ rest))).run (c.followed rest))
    rw [isVoidList_append closes]
    cases found : isVoidList c.ahead with
    | true => exact ihyes c.next (next_of_isVoidList found) c rfl closes inBody
    | false => exact ihno c next closes inBody
  | braces body _ ih =>
    refine stays_braces (inBody body) closes fun c' depth closes => ih c' trivial closes fun _ => ?_
    rw [depth]
    exact Nat.succ_pos _
  | weaken toNext _ _ _ ih => exact ih c (toNext _ next) closes inBody

end Parser

end Grammar

end BareC
