import BareC.Proofs.Grammar.Groups
import BareC.Proofs.Grammar.Slots
import Mathlib.Algebra.BigOperators.Group.List.Basic

/-!
# Units of complete declarations

Reading a complete declaration ends where the declaration ends, and what it leaves depends on its
own tokens and on what is declared before it, on nothing that follows. That holds of a declaration
that can be read as of one that is refused, at whatever place: skipping ends at the same token as
reading. So a unit of complete declarations is what these leave, one after the other.

`Ends` and `Stays` carry the proof. Each compares one parser on the declaration alone and on the
declaration with more behind it, and both succeed, or fail at the same place with the same message.
The rules for putting parsers together are those of `Reads`, and the walk through the grammar is not
made again.

What is declared in front is handed on as the arities of the names, and nothing else is. So no claim
is made about what a declaration would have left if it had not been complete.
-/

namespace BareC

namespace Grammar

/-! ## To the end of a declaration -/

/-- What reading gives that goes to the end of a declaration, and what it gives with more tokens
behind. -/
inductive Ends {α : Type} (rest : List Token) :
    (alone followed : Except Failure (α × Cursor)) → Prop
  | ok {a} : Ends rest (.ok (a, ⟨[], 0⟩)) (.ok (a, ⟨rest, 0⟩))
  | error {f} : Closes f.cursor.depth f.cursor.ahead →
      Ends rest (.error f) (.error (f.followed rest))

section Ends

variable {α β : Type} {rest : List Token} {depth : Nat} {c : Cursor}

/-- A parser that ends within its declaration does so under a function of its result. -/
theorem Ends.map {p : Parser β} {f : β → α} (h : Ends rest (p.run c) (p.run (c.followed rest))) :
    Ends rest ((f <$> p).run c) ((f <$> p).run (c.followed rest)) := by
  rw [StateT.run_map, StateT.run_map]
  generalize p.run c = x at h
  generalize p.run (c.followed rest) = y at h
  cases h with
  | error closes => exact .error closes
  | ok => exact .ok

/-- After something inside of a declaration comes its end. -/
theorem Stays.bind_ends {p : Parser β} {f : β → Parser α}
    (hp : Stays rest depth (p.run c) (p.run (c.followed rest)))
    (hf : ∀ b c', c'.depth = depth → Closes depth c'.ahead →
      Ends rest ((f b).run c') ((f b).run (c'.followed rest))) :
    Ends rest ((p >>= f).run c) ((p >>= f).run (c.followed rest)) := by
  rw [StateT.run_bind, StateT.run_bind]
  generalize p.run c = x at hp
  generalize p.run (c.followed rest) = y at hp
  cases hp with
  | error closes => exact .error closes
  | ok same closes => exact hf _ _ same closes

/-- The token that ends a declaration is its last one. -/
theorem Closes.ahead_eq (h : Closes c.depth c.ahead) (ends : endsAt c.depth c.next = true) :
    c.ahead = [c.next] := by
  obtain ⟨_ | ⟨t, ts⟩, depth⟩ := c
  · exact h.elim
  · obtain ⟨-, h⟩ := h
    have ends : endsAt depth t = true := ends
    rw [if_pos ends] at h
    rw [h]
    rfl

/-- Taking the token that ends a declaration leaves nothing of it, whatever stands behind. -/
theorem Closes.advance_last (h : Closes c.depth c.ahead) (ends : endsAt c.depth c.next = true)
    (rest : List Token) : c.advance = ⟨[], 0⟩ ∧ (c.followed rest).advance = ⟨rest, 0⟩ := by
  have last := h.ahead_eq ends
  obtain ⟨ahead, depth⟩ := c
  generalize (⟨ahead, depth⟩ : Cursor).next = t at last ends
  have last : ahead = [t] := last
  subst last
  have outside : Cursor.depthAfter depth t = 0 :=
    of_decide_eq_true (Bool.and_eq_true_iff.mp ends).1
  simp only [Cursor.followed, Cursor.advance, List.cons_append, List.nil_append, if_neg h.1.notEnd,
    outside, and_self]

namespace Parser

/-- A failure ends within its declaration: recovery skips to the end of it. -/
theorem ends_fail {fault : SyntaxFault} (h : Closes c.depth c.ahead) :
    Ends rest ((fail fault : Parser α).run c) ((fail fault).run (c.followed rest)) := by
  obtain ⟨f, rfl, alone, followed⟩ := fail_followed α fault h rest
  rw [alone, followed]
  exact .error h

/-- As `ends_fail`, for a token expected, which may be the last. -/
theorem ends_expect {s : String} (h : Closes c.depth c.ahead)
    (last : c.next.is s = true → endsAt c.depth c.next = true) :
    Ends rest ((expect s).run c) ((expect s).run (c.followed rest)) := by
  rw [expect, run_accept_bind, run_accept_bind, Cursor.next_followed h]
  by_cases is : c.next.is s = true
  · rw [if_pos is, if_pos is]
    obtain ⟨alone, followed⟩ := h.advance_last (last is) rest
    rw [alone, followed]
    exact .ok
  · rw [if_neg is, if_neg is]
    exact ends_fail h

/-- The outermost braces end a declaration. -/
theorem ends_braces {p : Parser α} (outside : c.depth = 0) (h : Closes c.depth c.ahead)
    (hp : ∀ c' : Cursor, c'.depth = 1 → Closes c'.depth c'.ahead →
      Stays rest c'.depth (p.run c') (p.run (c'.followed rest))) :
    Ends rest ((braces p).run c) ((braces p).run (c.followed rest)) := by
  have opening : c.next.is "\x7b" = true →
      endsAt c.depth c.next = false ∧ Cursor.depthAfter c.depth c.next = 1 := by
    intro is
    have deeper := Cursor.depthAfter_of_opening is c.depth
    rw [outside] at deeper ⊢
    exact ⟨endsAt_eq_false (deeper ▸ Nat.succ_ne_zero _), deeper⟩
  refine (stays_expect h opening).bind_ends fun _ c₁ depth₁ closes₁ => ?_
  refine (hp c₁ depth₁ (depth₁ ▸ closes₁)).bind_ends fun a c₂ depth₂ closes₂ => ?_
  rw [depth₁] at depth₂ closes₂
  refine .map (f := fun _ => a) (ends_expect (depth₂ ▸ closes₂) fun is => ?_)
  rw [depth₂]
  exact endsAt_of_closing is

end Parser

/-- Behind a signature comes the end of the declaration, if it can be read. -/
theorem ends_definition? {s : Signature} (sound : s.Sound fun _ => True) (outside : c.depth = 0)
    (h : Closes c.depth c.ahead) :
    Ends rest ((definition? s).run c) ((definition? s).run (c.followed rest)) := by
  rw [run_definition?, run_definition?, Cursor.next_followed h]
  split
  next semicolon =>
    obtain ⟨alone, followed⟩ := h.advance_last (outside ▸ endsAt_of_semicolon semicolon) rest
    rw [alone, followed]
    exact .ok
  next =>
    split
    next =>
      obtain ⟨inside, body, reads⟩ := run_functionBody expressionProperty_within sound.scope
      rw [body]
      refine .map (.map (Parser.ends_braces outside h fun c' deeper closes => ?_))
      exact reads.stays (fun _ => trivial) c' trivial closes fun _ => deeper ▸ Nat.succ_pos 0
    next => exact Parser.ends_fail h

end Ends

/-! ## What a declaration leaves -/

/-- The name that a declaration declares, with its number of parameters, and the item it leaves. -/
structure Trace where
  declares : Option (String × Nat)
  item : Option Item

/-- What is left of a declaration by itself. -/
def trace (declared : Arities) (ts : List Token) : Trace :=
  match (header declared).run ⟨ts, 0⟩ with
  | .error f => ⟨none, some (.error f.diagnostic)⟩
  | .ok (s, c) =>
    ⟨some (s.name, s.params), match (definition? s).run c with
      | .error f => some (.error f.diagnostic)
      | .ok (f?, _) => f?.map .function⟩

/-- What is left of declarations one after the other: all that is declared, and the items. -/
def traces (declared : Arities) : List (List Token) → Arities × List Item
  | [] => (declared, [])
  | g :: gs =>
    let t := trace declared g
    let others := traces (t.declares.toList ++ declared) gs
    (others.1, t.item.toList ++ others.2)

/-- A failure inside of a declaration costs the declaration and nothing behind it. -/
theorem refuse_followed (r : Reading) {f : Failure} (h : Closes f.cursor.depth f.cursor.ahead)
    (rest : List Token) : r.refuse (f.followed rest) =
      ⟨⟨rest, 0⟩, r.declared, r.items ++ #[.error f.diagnostic]⟩ := by
  simp only [Reading.refuse, Failure.followed, Cursor.followed, recover_append h,
    Array.push_eq_append]

/-- Declarations are traced one after the other, the later under the arities of the earlier. -/
theorem traces_append (declared : Arities) (gs hs : List (List Token)) :
    traces declared (gs ++ hs) =
      ((traces (traces declared gs).1 hs).1,
        (traces declared gs).2 ++ (traces (traces declared gs).1 hs).2) := by
  induction gs generalizing declared with
  | nil => rfl
  | cons g gs ih =>
    rw [List.cons_append, traces, ih, traces]
    simp only [List.append_assoc]

/-- One step reads one declaration. -/
theorem step_append {g : List Token} (h : Closes 0 g) (rest : List Token) (declared : Arities)
    (items : Array Item) :
    Reading.step ⟨⟨g ++ rest, 0⟩, declared, items⟩ =
      ⟨⟨rest, 0⟩, (trace declared g).declares.toList ++ declared,
        items ++ (trace declared g).item.toList.toArray⟩ := by
  have notMarker : ¬(⟨⟨g ++ rest, 0⟩, declared, items⟩ : Reading).cursor.next.kind = .error := by
    cases g with
    | nil => exact h.elim
    | cons t ts => exact h.1.notMarker
  have reads : (header declared).Reads (fun _ => True) false true _ _ := reads_header declared
  have stays : Stays rest 0 ((header declared).run ⟨g, 0⟩) ((header declared).run ⟨g ++ rest, 0⟩) :=
    reads.stays (fun _ => trivial) ⟨g, 0⟩ trivial h nofun
  have value : ∀ s c, (header declared).run ⟨g, 0⟩ = .ok (s, c) → _ := fun s c =>
    reads.value (fun _ _ => trivial) trivial
  rw [Reading.step, if_neg notMarker, Reading.declaration, trace]
  show (match (header declared).run ⟨g ++ rest, 0⟩ with | .error f => _ | .ok (s, c) => _) = _
  generalize (header declared).run ⟨g, 0⟩ = alone at stays value
  generalize (header declared).run ⟨g ++ rest, 0⟩ = followed at stays
  cases stays with
  | error closes => exact refuse_followed _ closes rest
  | @ok s c outside closes =>
    -- The header has left the end of the declaration to what is read behind it.
    have ends : Ends rest ((definition? s).run c) ((definition? s).run (c.followed rest)) :=
      ends_definition? (value s c rfl).1 outside (outside ▸ closes)
    simp only
    generalize (definition? s).run c = alone at ends
    generalize (definition? s).run (c.followed rest) = followed at ends
    cases ends with
    | error closes => exact refuse_followed _ closes rest
    | @ok f? =>
      cases f? with
      | none => simp
      | some f =>
        simp only [Array.push_eq_append]
        rfl

/-- So many steps read as many declarations. -/
theorem finish_append {gs : List (List Token)} (h : ∀ g ∈ gs, Closes 0 g) {last : Token}
    (isEnd : last.kind = .eof) {bound : List Token} (enough : gs.length ≤ bound.length)
    (declared : Arities) (items : Array Item) :
    Reading.finish bound ⟨⟨gs.flatten ++ [last], 0⟩, declared, items⟩ =
      ⟨⟨[last], 0⟩, (traces declared gs).1, items ++ (traces declared gs).2.toArray⟩ := by
  -- Every step takes one declaration; how much of the bound is left then makes no difference.
  induction gs generalizing bound declared items with
  | nil =>
    have atEnd : (⟨[last], 0⟩ : Cursor).atEnd = true := by
      rw [Cursor.atEnd, beq_iff_eq]
      exact isEnd
    cases bound with
    | nil => simp [Reading.finish, traces]
    | cons t bound => simp [Reading.finish, traces, atEnd]
  | cons g gs ih =>
    obtain ⟨hg, h⟩ := List.forall_mem_cons.mp h
    obtain ⟨t, bound, rfl⟩ :=
      List.exists_cons_of_length_pos (Nat.lt_of_lt_of_le (Nat.succ_pos _) enough)
    have goesOn : (⟨g ++ (gs.flatten ++ [last]), 0⟩ : Cursor).atEnd = false := by
      cases g with
      | nil => exact hg.elim
      | cons t ts => exact beq_eq_false_iff_ne.mpr hg.1.notEnd
    rw [List.flatten_cons, List.append_assoc, Reading.finish, goesOn, if_neg Bool.false_ne_true,
      step_append hg, ih h (Nat.le_of_succ_le_succ enough)]
    simp only [traces, Array.append_assoc, List.append_toArray]

/-! ## What a body leaves -/

/-- Only a semicolon leaves nothing. -/
theorem next_of_definition?_none {s : Signature} {c c' : Cursor}
    (run : (definition? s).run c = .ok (none, c')) : c.next.is ";" = true := by
  by_contra semicolon
  rw [run_definition?, if_neg semicolon] at run
  split at run
  next =>
    rw [StateT.run_map] at run
    generalize (functionBody.run s.scope).run c = body at run
    cases body with
    | error f => cases run
    | ok r => cases run
  next => cases run

/-- A declaration with a body leaves an item, whatever is wrong with it. -/
theorem Complete.exists_item {g : List Token} (h : Complete true g) (declared : Arities) :
    ∃ item, (trace declared g).item = some item := by
  have reads : (header declared).Reads (fun _ => True) false true _ _ := reads_header declared
  have outcome := reads.outcome ⟨g, 0⟩ trivial fun _ _ => trivial
  have stays : Stays [] 0 ((header declared).run ⟨g, 0⟩) _ :=
    reads.stays (fun _ => trivial) ⟨g, 0⟩ trivial h.closes nofun
  rw [trace]
  generalize (header declared).run ⟨g, 0⟩ = run at outcome stays
  generalize (header declared).run _ = followed at stays
  cases stays with
  | error => exact ⟨_, rfl⟩
  | @ok s c outside closes =>
    simp only
    cases run' : (definition? s).run c with
    | error f => exact ⟨_, rfl⟩
    | ok r =>
      obtain ⟨_ | f, c'⟩ := r
      · -- Then a semicolon is next, and so it is the last token of the declaration.
        have semicolon := next_of_definition?_none run'
        cases outcome with
        | @ok _ _ ts _ passes _ =>
          have last : c.ahead = [c.next] := by
            rw [← outside] at closes
            exact closes.ahead_eq (outside ▸ endsAt_of_semicolon semicolon)
          have suffix : [c.next] <:+ g := ⟨ts, last ▸ passes.ahead.symm⟩
          rw [h.not_semicolon_of_suffix suffix] at semicolon
          cases semicolon
      · exact ⟨_, rfl⟩

/-- A function is declared with its own name and parameters. -/
theorem declares_of_function {declared : Arities} {g : List Token} {f : Function}
    (h : (trace declared g).item = some (.function f)) :
    (trace declared g).declares = some (f.name, f.params) := by
  rw [trace] at h ⊢
  cases run : (header declared).run ⟨g, 0⟩ with
  | error f =>
    rw [run] at h
    cases h
  | ok r =>
    obtain ⟨s, c⟩ := r
    obtain ⟨ts, -, -, outcome⟩ := behind_header expressionProperty_within (fun _ _ => trivial) run
    rw [run] at h
    simp only at h ⊢
    generalize (definition? s).run c = run' at h outcome
    cases outcome with
    | error => cases h
    | @ok f? _ _ sound _ _ =>
      obtain ⟨f', rfl, eq⟩ := Option.map_eq_some_iff.mp h
      cases eq
      obtain ⟨-, name, params⟩ := sound f rfl
      rw [name, params]

/-! ## Whole units -/

/-- What closes a declaration holds no end of the source and no marker of one. -/
theorem Closes.inside {depth : Nat} {ts : List Token} (h : Closes depth ts) :
    ∀ t ∈ ts, Inside t := by
  induction ts generalizing depth with
  | nil => exact h.elim
  | cons t ts ih =>
    refine List.forall_mem_cons.mpr ⟨h.1, ?_⟩
    by_cases ends : endsAt depth t = true
    · have h := h.2
      rw [if_pos ends] at h
      rw [h]
      exact List.forall_mem_nil _
    · have h := h.2
      rw [if_neg ends] at h
      exact ih h

/-- No token of a list of declarations is the end of the source. -/
theorem notEnd_of_closes {gs : List (List Token)} (h : ∀ g ∈ gs, Closes 0 g) :
    ∀ t ∈ gs.flatten, t.kind ≠ .eof := by
  intro t mem
  obtain ⟨g, hg, mem⟩ := List.mem_flatten.mp mem
  exact ((h g hg).inside t mem).notEnd

/-- A source is cut where its end stands, in front of which are the declarations. -/
theorem cut_append {ts last : List Token} (notEnd : ∀ t ∈ ts, t.kind ≠ .eof)
    (ends : ∀ t ∈ last.head?, t.kind = .eof) (line : LineNumber) :
    ∃ t : Token, t.kind = .eof ∧ Cursor.cut line (ts ++ last) = ts ++ [t] := by
  induction ts generalizing line with
  | nil =>
    cases last with
    | nil => exact ⟨_, rfl, rfl⟩
    | cons t _ =>
      have isEnd := ends t rfl
      exact ⟨t, isEnd, if_pos isEnd⟩
  | cons t ts ih =>
    obtain ⟨here, notEnd⟩ := List.forall_mem_cons.mp notEnd
    obtain ⟨e, isEnd, cut⟩ := ih notEnd t.line
    refine ⟨e, isEnd, ?_⟩
    rw [List.cons_append, Cursor.cut, if_neg here, cut]
    rfl

/-- The names that a unit declares with their numbers of parameters, latest first. -/
def declarations (ts : List Token) : Arities :=
  let cursor := Cursor.ofTokens ts
  (Reading.finish cursor.ahead { cursor }).declared

section Units

variable {gs : List (List Token)} (h : ∀ g ∈ gs, Closes 0 g) {last : List Token}
  (ends : ∀ t ∈ last.head?, t.kind = .eof)

include h ends

/-- A cursor on the declarations of a source is finished behind the last of them. -/
theorem finish_ofTokens : ∃ t, (let cursor := Cursor.ofTokens (gs.flatten ++ last)
    Reading.finish cursor.ahead { cursor }) =
      ⟨⟨[t], 0⟩, (traces [] gs).1, (traces [] gs).2.toArray⟩ := by
  obtain ⟨t, isEnd, cut⟩ := cut_append (notEnd_of_closes h) ends 1
  have enough : gs.length ≤ (gs.flatten ++ [t]).length := by
    have some : ∀ n ∈ gs.map List.length, 1 ≤ n := by
      intro n mem
      obtain ⟨g, hg, rfl⟩ := List.mem_map.mp mem
      cases g with
      | nil => exact (h [] hg).elim
      | cons => exact Nat.succ_pos _
    have := List.length_le_sum_of_one_le _ some
    rw [List.length_map] at this
    rw [List.length_append, List.length_flatten]
    omega
  refine ⟨t, ?_⟩
  simp only [Cursor.ofTokens, cut]
  rw [finish_append h isEnd enough, Array.empty_append]

/-- A source of declarations reads as their traces. -/
theorem read_flatten : (Program.read (gs.flatten ++ last)).items = (traces [] gs).2 := by
  obtain ⟨t, finish⟩ := finish_ofTokens h ends
  exact congrArg (·.items.toList) finish

/-- Its arities are those the traces end with. -/
theorem declarations_flatten : declarations (gs.flatten ++ last) = (traces [] gs).1 := by
  obtain ⟨t, finish⟩ := finish_ofTokens h ends
  exact congrArg (·.declared) finish

end Units

end Grammar

end BareC
