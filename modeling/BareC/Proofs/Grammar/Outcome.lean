import BareC.Proofs.Grammar.Reads
import Mathlib.Data.List.TakeWhile
import Mathlib.Order.Basic

/-!
# What becomes of reading

A parser of the grammar goes forward: what it leaves ahead is the end of what was ahead before, and
neither a marker nor the end of the source is among the tokens that it takes. If it fails with the
message of a marker, then it stands in front of that marker. That much holds of any tokens; whatever
is wrong with them, it is the failure that is reported and the place of the failure that tell.

Nothing is asked of the tokens, and therefore nothing is known of the value: that is what `Reads` is
for, which takes these facts over and adds to them. `Passes` is kept apart from the parsers, as the
relation between two cursors with the tokens in between, since the bounds of the loops and the
accounting for markers are both read off it.
-/

namespace BareC.Grammar

/-- A token that is not the end of the source is ahead, and behind it reading goes on. -/
theorem Cursor.ahead_eq_cons {c : Cursor} (notEnd : c.next.kind ≠ .eof) :
    c.ahead = c.next :: c.advance.ahead := by
  obtain ⟨ahead, depth⟩ := c
  cases ahead with
  | nil => exact absurd rfl notEnd
  | cons t ts =>
    have kind : t.kind ≠ .eof := notEnd
    simp only [Cursor.advance, kind, if_false]
    rfl

/-- The end of a source is spelled as no token. -/
theorem notEnd_of_is {t : Token} {s : String} (is : t.is s = true) : t.kind ≠ .eof := by
  rcases Token.kind_of_is is with kind | kind <;> rw [kind] <;> exact Token.Kind.noConfusion

/-- A cursor that is not at the end has a token before it. -/
theorem Cursor.notEnd_of_atEnd {c : Cursor} (goesOn : c.atEnd = false) : c.next.kind ≠ .eof := by
  intro eof
  rw [atEnd, eof] at goesOn
  cases goesOn

/-- A token that is spelled somehow can be taken. -/
theorem Cursor.ahead_of_is {c : Cursor} {s : String} (is : c.next.is s = true) :
    c.ahead = c.next :: c.advance.ahead :=
  ahead_eq_cons (notEnd_of_is is)

/-- Moving on leaves only tokens that were ahead. -/
theorem Cursor.ahead_advance_subset (c : Cursor) : c.advance.ahead ⊆ c.ahead := by
  by_cases eof : c.next.kind = .eof
  · obtain ⟨_ | ⟨t, ts⟩, depth⟩ := c
    · exact List.Subset.refl _
    · have eof : t.kind = .eof := eof
      simp only [Cursor.advance, eof, if_true]
      exact List.Subset.refl _
  · rw [Cursor.ahead_eq_cons eof]
    exact List.subset_cons_self _ _

/-- From one place to another, with these tokens between them. -/
structure Cursor.Passes (c : Cursor) (ts : List Token) (c' : Cursor) : Prop where
  ahead : c.ahead = ts ++ c'.ahead
  notEnd : ∀ t ∈ ts, t.kind ≠ .eof
  notMarker : ∀ t ∈ ts, t.kind ≠ .error

namespace Cursor.Passes

variable {c c' c'' : Cursor} {ts us : List Token}

/-- A cursor passes nothing where it stays. -/
theorem refl (c : Cursor) : c.Passes [] c :=
  ⟨rfl, nofun, nofun⟩

/-- What is passed in two moves is passed in one. -/
theorem trans (h : c.Passes ts c') (h' : c'.Passes us c'') : c.Passes (ts ++ us) c'' where
  ahead := by rw [h.ahead, h'.ahead, List.append_assoc]
  notEnd t mem := (List.mem_append.mp mem).elim (h.notEnd t) (h'.notEnd t)
  notMarker t mem := (List.mem_append.mp mem).elim (h.notMarker t) (h'.notMarker t)

/-- Tokens behind a passage were ahead of it. -/
theorem subset (h : c.Passes ts c') : c'.ahead ⊆ c.ahead := by
  rw [h.ahead]
  exact List.subset_append_right _ _

/-- No passage leads backwards. -/
theorem length_le (h : c.Passes ts c') : c'.ahead.length ≤ c.ahead.length := by
  rw [h.ahead, List.length_append]
  exact Nat.le_add_left _ _

/-- A passage over some token leaves less ahead: what the loops' bounds count. -/
theorem length_lt (h : c.Passes ts c') (some : ts ≠ []) : c'.ahead.length < c.ahead.length := by
  have := List.length_pos_iff.mpr some
  rw [h.ahead, List.length_append]
  omega

/-- Moving on passes one token, unless it is the end or a marker. -/
theorem advance (notEnd : c.next.kind ≠ .eof) (notMarker : c.next.kind ≠ .error) :
    c.Passes [c.next] c.advance :=
  ⟨ahead_eq_cons notEnd, List.forall_mem_singleton.mpr notEnd,
    List.forall_mem_singleton.mpr notMarker⟩

end Cursor.Passes

/-- A failure that reports a marker stands in front of it. -/
def Failure.Reported (f : Failure) : Prop :=
  ∀ message, f.diagnostic.fault = .marker message →
    f.cursor.next.kind = .error ∧ f.cursor.next.text = message ∧
      f.cursor.next.line = f.diagnostic.line

/-- What becomes of reading from a place on. -/
inductive Parser.Outcome {α : Type} (takes : Bool) (P : α → Prop) (c : Cursor) :
    Except Failure (α × Cursor) → Prop
  | ok {a c' ts} : P a → c.Passes ts c' → (takes = true → ts ≠ []) → Outcome takes P c (.ok (a, c'))
  | error {f ts} : c.Passes ts f.cursor → f.Reported → Outcome takes P c (.error f)

namespace Parser

variable {α β : Type} {takes : Bool} {P : α → Prop} {R : β → Prop} {c : Cursor}

namespace Outcome

/-- The outcome of two parsers in a row, a token being taken if either takes one. -/
theorem bind {takes' : Bool} {p : Parser β} {f : β → Parser α} (hp : Outcome takes' R c (p.run c))
    (hf : ∀ b c' ts, R b → c.Passes ts c' → Outcome (takes && !takes') P c' ((f b).run c')) :
    Outcome takes P c ((p >>= f).run c) := by
  rw [StateT.run_bind]
  generalize p.run c = r at hp
  cases hp with
  | error passes reported => exact .error passes reported
  | @ok b c' ts hb passes some =>
    show Outcome takes P c ((f b).run c')
    have rest := hf b c' ts hb passes
    generalize (f b).run c' = r at rest
    cases rest with
    | error passes' reported => exact .error (passes.trans passes') reported
    | ok ha passes' some' =>
      refine .ok ha (passes.trans passes') fun ht => ?_
      rw [ht] at some'
      cases takes' with
      | true => exact List.append_ne_nil_of_left_ne_nil (some rfl) _
      | false => exact List.append_ne_nil_of_right_ne_nil _ (some' rfl)

/-- A failure reports a marker's message only at a marker. -/
theorem fail {fault : SyntaxFault} (h : c.next.kind ≠ .error → ∀ message, fault ≠ .marker message) :
    Outcome takes P c ((Parser.fail fault).run c) := by
  refine .error (.refl c) ?_
  intro message eq
  have eq : (if c.next.kind = .error then SyntaxFault.marker c.next.text else fault) =
      .marker message := eq
  by_cases kind : c.next.kind = .error
  · rw [if_pos kind] at eq
    exact ⟨kind, SyntaxFault.marker.inj eq, rfl⟩
  · rw [if_neg kind] at eq
    exact absurd eq (h kind message)

/-- A token expected is taken, or the failure is at it. -/
theorem expect {s : String} : Outcome true (fun _ => True) c ((Parser.expect s).run c) := by
  rw [Parser.expect, run_accept_bind]
  split
  next is =>
    have kind := Token.kind_of_is is
    refine .ok trivial (.advance ?_ ?_) fun _ => List.cons_ne_nil _ _
    all_goals rcases kind with kind | kind <;> rw [kind] <;> exact Token.Kind.noConfusion
  next => exact .fail fun _ _ => SyntaxFault.noConfusion

end Outcome

variable {Ahead : Token → Prop} {body : Bool} {Next : Token → Prop}

/-- What the rules promise holds of every run. -/
theorem Reads.outcome {p : Parser α} (h : p.Reads Ahead body takes Next P) :
    ∀ c : Cursor, Next c.next → (∀ t ∈ c.ahead, Ahead t) → Outcome takes P c (p.run c) := by
  have ofNext : ∀ c : Cursor, (∀ t ∈ c.ahead, Ahead t) → c.next.kind ≠ .eof → Ahead c.next := by
    rintro ⟨ahead, depth⟩ all notEnd
    cases ahead with
    | nil => exact absurd rfl notEnd
    | cons t ts => exact all t List.mem_cons_self
  induction h with
  | pure ha => exact fun c _ _ => .ok ha (.refl c) nofun
  | failOn notMarker => exact fun c _ _ => .error (.refl c) fun m eq => absurd eq (notMarker m)
  | fail notMarker => exact fun c next _ => .fail (notMarker c.next next)
  | peek _ ih => exact fun c next all => ih c.next next (ofNext c all) c rfl all
  | @advance _ takes _ f P takeable _ ih =>
    intro c next all
    have taken := takeable c.next next
    have passes := Cursor.Passes.advance taken.notEnd taken.notMarker
    have first : Outcome true (fun t => t = c.next) c (Parser.advance.run c) :=
      .ok rfl passes fun _ => List.cons_ne_nil _ _
    refine .bind first ?_
    rintro _ c' ts rfl passes
    rw [Bool.not_true, Bool.and_false]
    exact ih c.next next c' trivial fun t mem => all t (passes.subset mem)
  | @skipWhile _ p takeable =>
    intro c _ _
    have all : c.ahead = c.ahead.takeWhile p ++ c.ahead.dropWhile p :=
      List.takeWhile_append_dropWhile.symm
    refine .ok trivial ⟨all, ?_, ?_⟩ nofun
    · exact fun t mem => (takeable t (List.mem_takeWhile_imp mem)).notEnd
    · exact fun t mem => (takeable t (List.mem_takeWhile_imp mem)).notMarker
  | bind _ _ ihp ihf =>
    intro c next all
    refine .bind (ihp c next all) fun b c' ts hb passes => ?_
    rw [Bool.not_false, Bool.and_true]
    exact ihf b hb c' trivial fun t mem => all t (passes.subset mem)
  | bindTaken _ _ ihp ihf =>
    intro c next all
    refine .bind (ihp c next all) fun b c' ts hb passes => ?_
    rw [Bool.not_true, Bool.and_false]
    exact ihf b hb c' trivial fun t mem => all t (passes.subset mem)
  | bounded _ _ ih => exact fun c next all => ih c.ahead c next all
  | @voidList _ takes Next f P _ _ ihyes ihno =>
    rintro ⟨ahead, depth⟩ next all
    show Outcome takes P _ ((f (isVoidList ahead)).run ⟨ahead, depth⟩)
    match ahead with
    | [] | [t] => exact ihno _ next all
    | t :: u :: ts =>
      cases found : isVoidList (t :: u :: ts) with
      | false => exact ihno _ next all
      | true => exact ihyes t (Bool.and_eq_true_iff.mp found).1 _ rfl all
  | @braces _ takes _ p P _ _ ih =>
    intro c _ all
    refine .bind .expect fun _ c' ts _ passes => ?_
    have inside : ∀ t ∈ c'.ahead, Ahead t := fun t mem => all t (passes.subset mem)
    rw [Bool.not_true, Bool.and_false]
    refine .bind (ih c' trivial inside) fun a c'' us ha _ => ?_
    exact .bind .expect fun _ c''' vs _ _ => .ok ha (.refl c''') nofun
  | weaken next value taken _ ih =>
    intro c hc all
    have outcome := ih c (next _ hc) all
    generalize StateT.run _ c = r at outcome ⊢
    cases outcome with
    | error passes reported => exact .error passes reported
    | ok ha passes some => exact .ok (value _ ha) passes fun h => some (taken h)

/-- What is read has the property that is promised. -/
theorem Reads.value {p : Parser α} (h : p.Reads Ahead body takes Next P)
    (all : ∀ t ∈ c.ahead, Ahead t) (next : Next c.next) {a : α} {c' : Cursor}
    (run : p.run c = .ok (a, c')) : P a := by
  have outcome := h.outcome c next all
  rw [run] at outcome
  cases outcome with
  | ok ha _ _ => exact ha

/-- Behind it nothing new is ahead. -/
theorem Reads.subset {p : Parser α} (h : p.Reads Ahead body takes Next P)
    (all : ∀ t ∈ c.ahead, Ahead t) (next : Next c.next) {a : α} {c' : Cursor}
    (run : p.run c = .ok (a, c')) : c'.ahead ⊆ c.ahead := by
  have outcome := h.outcome c next all
  rw [run] at outcome
  cases outcome with
  | ok _ passes _ => exact passes.subset

/-! ## Runs that succeed -/

/-- What a run of two parsers that succeeds has made of the first one. -/
theorem exists_of_run_bind {p : Parser β} {f : β → Parser α} {c : Cursor} {r : α × Cursor}
    (run : (p >>= f).run c = .ok r) : ∃ b c', p.run c = .ok (b, c') ∧ (f b).run c' = .ok r := by
  rw [StateT.run_bind] at run
  cases first : p.run c with
  | error f =>
    rw [first] at run
    cases run
  | ok b =>
    rw [first] at run
    exact ⟨b.1, b.2, rfl, run⟩

/-- A failure yields no result. -/
theorem run_fail_ne_ok {fault : SyntaxFault} {c : Cursor} {r : α × Cursor} :
    (fail fault : Parser α).run c ≠ .ok r := nofun

/-- A token that was expected and found stands next, and the cursor has moved past it. -/
theorem of_run_expect {s : String} {c : Cursor} {r : Unit × Cursor}
    (run : (expect s).run c = .ok r) : c.next.is s = true ∧ r.2 = c.advance := by
  rw [expect, run_accept_bind] at run
  by_cases is : c.next.is s = true
  · rw [if_pos is] at run
    cases run
    exact ⟨is, rfl⟩
  · rw [if_neg is] at run
    exact absurd run run_fail_ne_ok

/-- An operator of a table is accepted at its first entry. -/
theorem run_acceptOne_bind {γ : Type} (table : List (String × γ)) (f : Option γ → Parser α)
    (c : Cursor) : (acceptOne table >>= f).run c =
      match table.find? fun entry => c.next.is entry.1 with
      | none => (f none).run c
      | some (_, a) => (f (some a)).run c.advance := by
  rw [acceptOne, bind_assoc]
  show ((match table.find? fun entry => c.next.is entry.1 with
    | none => pure none
    | some (_, a) => _) >>= f : Parser α).run c = _
  split <;> rfl

/-- As `run_acceptOne_bind`, the cursor staying where it is. -/
theorem run_seesOne_bind {γ : Type} (table : List (String × γ)) (f : Option γ → Parser α)
    (c : Cursor) :
    (seesOne table >>= f).run c =
      (f ((table.find? fun entry => c.next.is entry.1).map (·.2))).run c := rfl

/-! ## Loops with a bound -/

/-- Two parsers that begin alike agree if they agree on what follows. There nothing new is ahead,
and less if a token was taken. -/
theorem Reads.run_bind_congr {p : Parser β} (hp : p.Reads Ahead body takes (fun _ => True) R)
    (all : ∀ t ∈ c.ahead, Ahead t) {f g : β → Parser α}
    (h : ∀ b c', R b → c'.ahead ⊆ c.ahead → c'.ahead.length + takes.toNat ≤ c.ahead.length →
      (f b).run c' = (g b).run c') :
    (p >>= f).run c = (p >>= g).run c := by
  rw [StateT.run_bind, StateT.run_bind]
  have outcome := hp.outcome c trivial all
  generalize p.run c = r at outcome
  cases outcome with
  | error => rfl
  | @ok b c' ts hb passes some =>
    refine h b c' hb passes.subset ?_
    cases takes with
    | true => exact passes.length_lt (some rfl)
    | false => exact passes.length_le

/-- A loop takes all of its rounds if it goes on only where less is ahead. -/
theorem bounded_of_shorter {σ : Type} (loop : σ → List Token → Parser α)
    (step : ∀ s c bound bound', (∀ t ∈ c.ahead, Ahead t) → c.ahead.length ≤ bound.length →
      c.ahead.length ≤ bound'.length →
        (∀ s' c', c'.ahead ⊆ c.ahead → c'.ahead.length < c.ahead.length → ∀ bound bound',
          c'.ahead.length ≤ bound.length → c'.ahead.length ≤ bound'.length →
            (loop s' bound).run c' = (loop s' bound').run c') →
          (loop s bound).run c = (loop s bound').run c) (s : σ) :
    Bounded Ahead (loop s) := by
  intro c
  induction ahead : c.ahead.length using Nat.strong_induction_on generalizing s c with
  | _ n ih =>
    intro bound bound' all le le'
    subst ahead
    refine step s c bound bound' all le le' fun s' c' subset less bound bound' le le' => ?_
    exact ih _ less s' c' rfl bound bound' (fun t mem => all t (subset mem)) le le'

end Parser

/-- The same if variables may be declared. -/
theorem ScopedParser.Reads.run_bind_congr {α β : Type} {Ahead : Token → Prop} {body takes : Bool}
    {scope : Scope} {R : β → Scope → Prop} {p : ScopedParser β} {c : Cursor}
    (hp : p.Reads Ahead body takes (fun _ => True) scope R) (all : ∀ t ∈ c.ahead, Ahead t)
    {f g : β → ScopedParser α}
    (h : ∀ b scope' c', R b scope' → c'.ahead ⊆ c.ahead →
      c'.ahead.length + takes.toNat ≤ c.ahead.length →
        ((f b).run scope').run c' = ((g b).run scope').run c') :
    ((p >>= f).run scope).run c = ((p >>= g).run scope).run c :=
  Parser.Reads.run_bind_congr (p := p.run scope) hp all fun r c' => h r.1 r.2 c'

end BareC.Grammar
