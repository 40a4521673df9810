import BareC.Proofs.Grammar.Slots

/-!
# What becomes of markers

A marker stands where an earlier stage found something wrong, and its message should reach the
reader. At the beginning of a declaration and wherever a declaration fails in front of it, it does.
But when a declaration fails at some other token, what is skipped behind that token ends at a marker
too, in the belief that the failure was about it. That marker is swallowed.

`Accounts` is the whole truth about this: the diagnostics of a unit, in their order, answer for all
the markers in theirs, and a diagnostic that reports no marker swallows one at most.

One step of reading answers for the markers that it passes (`Reading.Step.adds`), and the unit for
all of them, by induction on the steps. What is swallowed is at most one marker for each diagnostic
that reports none, and then it is the next one behind the place of that diagnostic.

That no marker should be swallowed is what the comment beside the skipping intends. This module says
what happens instead, and leaves open which of the two ways out should be taken.
-/

namespace BareC

/-! ## Accounts -/

/-- The markers in front of the end of the source. -/
def markersOf : List Token → List Token
  | [] => []
  | t :: ts =>
    if t.kind = .eof then []
    else if t.kind = .error then t :: markersOf ts
    else markersOf ts

/-- The report that a marker should get. -/
def Token.report (m : Token) : Diagnostic :=
  ⟨.marker m.text, m.line⟩

/-- The diagnostic reports a marker. -/
def Diagnostic.isReport (d : Diagnostic) : Bool :=
  match d.fault with
  | .marker _ => true
  | _ => false

/-- A diagnostic that is no marker's message is no report of a marker. -/
theorem Diagnostic.isReport_eq_false {d : Diagnostic} (h : ∀ message, d.fault ≠ .marker message) :
    d.isReport = false := by
  obtain ⟨fault, line⟩ := d
  cases fault with
  | marker message => exact absurd rfl (h message)
  | _ => rfl

/-- Every marker is reported with its message and on its line, in the order of the markers. -/
def Program.ReportsMarkers (p : Program) (ts : List Token) : Prop :=
  ((markersOf ts).map fun m => (m.text, m.line)).Sublist
    (p.errors.map fun d => (d.fault.message, d.line))

/-- How diagnostics answer for markers. -/
inductive Accounts : (diagnostics : List Diagnostic) → (markers : List Token) → Prop
  | none : Accounts [] []
  | reported (m) {ds ms} : Accounts ds ms → Accounts (m.report :: ds) (m :: ms)
  | own {d ds ms} : d.isReport = false → Accounts ds ms → Accounts (d :: ds) ms
  | swallowed (m) {d ds ms} : d.isReport = false → Accounts ds ms → Accounts (d :: ds) (m :: ms)

namespace Accounts

variable {ds : List Diagnostic} {ms : List Token}

/-- Every marker costs a diagnostic. -/
theorem length_le (h : Accounts ds ms) : ms.length ≤ ds.length := by
  induction h with
  | none => exact Nat.le_refl _
  | reported m _ ih => exact Nat.succ_le_succ ih
  | own _ _ ih => exact Nat.le_succ_of_le ih
  | swallowed m _ _ ih => exact Nat.succ_le_succ ih

/-- The reports are reports of markers, in the order of the markers. -/
theorem reports_sublist (h : Accounts ds ms) :
    (ds.filter Diagnostic.isReport).Sublist (ms.map Token.report) := by
  induction h with
  | none => exact .slnil
  | reported m _ ih => exact ih.cons_cons m.report
  | own own _ ih => rwa [List.filter_cons_of_neg (Bool.eq_false_iff.mp own)]
  | swallowed m own _ ih =>
    rw [List.filter_cons_of_neg (Bool.eq_false_iff.mp own)]
    exact ih.cons _

/-- Where nothing else is wrong, every marker is reported. -/
theorem eq_reports (h : Accounts ds ms) (all : ∀ d ∈ ds, d.isReport = true) :
    ds = ms.map Token.report := by
  induction h with
  | none => rfl
  | reported m _ ih => rw [List.map_cons, ih fun d mem => all d (List.mem_cons_of_mem _ mem)]
  | own own _ _ => exact absurd (all _ List.mem_cons_self) (Bool.eq_false_iff.mp own)
  | swallowed _ own _ _ => exact absurd (all _ List.mem_cons_self) (Bool.eq_false_iff.mp own)

end Accounts

/-! ## Markers on the way -/

/-- Cutting a source behind its end keeps its markers. -/
theorem markersOf_cut (line : LineNumber) (ts : List Token) :
    markersOf (Grammar.Cursor.cut line ts) = markersOf ts := by
  induction ts generalizing line with
  | nil => rfl
  | cons t ts ih =>
    rw [Grammar.Cursor.cut]
    split
    next eof => simp only [markersOf, if_pos eof]
    next => rw [markersOf, markersOf, ih]

namespace Grammar

/-- Passing tokens passes no marker. -/
theorem Cursor.Passes.markersOf_eq {c c' : Cursor} {ts : List Token} (h : c.Passes ts c') :
    markersOf c.ahead = markersOf c'.ahead := by
  obtain ⟨ahead, notEnd, notMarker⟩ := h
  rw [ahead]
  clear ahead
  induction ts with
  | nil => rfl
  | cons t ts ih =>
    rw [List.forall_mem_cons] at notEnd notMarker
    rw [List.cons_append, markersOf, if_neg notEnd.1, if_neg notMarker.1]
    exact ih notEnd.2 notMarker.2

/-- Skipping ends behind the first marker, if not before. -/
theorem markersOf_recover (depth : Nat) (ts : List Token) :
    markersOf (recover depth ts) = markersOf ts ∨
      ∃ m, markersOf ts = m :: markersOf (recover depth ts) := by
  induction ts generalizing depth with
  | nil => exact .inl rfl
  | cons t ts ih =>
    rw [recover, markersOf]
    split
    next eof => exact .inl (by rw [markersOf, if_pos eof])
    next =>
      split
      next => exact .inr ⟨t, rfl⟩
      next =>
        simp only
        split
        next => exact .inl rfl
        next => exact ih _

/-- Skipping takes a token, unless it starts at the end of the source. -/
theorem length_recover_lt (depth : Nat) {t : Token} (notEnd : t.kind ≠ .eof) (ts : List Token) :
    (recover depth (t :: ts)).length < (t :: ts).length := by
  simp only [recover, if_neg notEnd]
  repeat' split
  · exact Nat.lt_succ_self _
  · exact Nat.lt_succ_self _
  · exact Nat.lt_succ_of_le (Reading.recover_suffix _ ts).length_le

/-- A declaration that fails has taken a token when the rest of it is skipped. -/
theorem Cursor.Passes.length_recover_lt {c c' : Cursor} {ts : List Token} (h : c.Passes ts c')
    (notEnd : c.next.kind ≠ .eof) (depth : Nat) :
    (recover depth c'.ahead).length < c.ahead.length := by
  cases ahead : c'.ahead with
  | nil =>
    obtain ⟨ahead, _⟩ := c
    cases ahead with
    | nil => exact absurd rfl notEnd
    | cons t ts => exact Nat.zero_lt_succ _
  | cons t us =>
    by_cases eof : t.kind = .eof
    · rw [recover, if_pos eof, ← ahead]
      refine h.length_lt fun none => notEnd ?_
      rw [Cursor.next, h.ahead, none, List.nil_append, ahead]
      exact eof
    · have := Grammar.length_recover_lt depth eof us
      have := h.length_le
      rw [ahead] at this
      omega

namespace Reading

/-- What a step of reading adds to the items, and that it goes on. -/
structure Adds (r r' : Reading) (new : List Item) : Prop where
  items : r'.items.toList = r.items.toList ++ new
  shorter : r'.cursor.ahead.length < r.cursor.ahead.length
  accounts : ∀ ds, Accounts ds (markersOf r'.cursor.ahead) →
    Accounts (new.filterMap Item.error? ++ ds) (markersOf r.cursor.ahead)

/-- Behind a failure, a report takes the marker at hand with it, and any other diagnostic at most
the next one. -/
theorem accounts_refuse {f : Failure} (reported : f.Reported) {ds : List Diagnostic}
    (h : Accounts ds (markersOf (recover f.cursor.depth f.cursor.ahead))) :
    Accounts (f.diagnostic :: ds) (markersOf f.cursor.ahead) := by
  by_cases report : ∃ message, f.diagnostic.fault = .marker message
  · obtain ⟨message, fault⟩ := report
    obtain ⟨kind, rfl, line⟩ := reported message fault
    have notEnd : f.cursor.next.kind ≠ .eof := by rw [kind]; exact Token.Kind.noConfusion
    have diagnostic : f.diagnostic = f.cursor.next.report := by
      rw [Token.report, ← fault, line]
    rw [Cursor.ahead_eq_cons notEnd, recover, if_neg notEnd, if_pos kind] at h
    rw [Cursor.ahead_eq_cons notEnd, markersOf, if_neg notEnd, if_pos kind, diagnostic]
    exact .reported _ h
  · -- The marker that skipping ends at, if it does, goes with this diagnostic.
    have own := Diagnostic.isReport_eq_false fun message eq => report ⟨message, eq⟩
    rcases markersOf_recover f.cursor.depth f.cursor.ahead with same | ⟨m, eq⟩
    · exact .own own (same ▸ h)
    · rw [eq]
      exact .swallowed m own h

/-- Recovery reports the failure and skips the tokens up to the end of the declaration, their
markers among them. -/
theorem adds_refuse {r r' : Reading} {ts : List Token} {f : Failure}
    (passes : r.cursor.Passes ts f.cursor) (reported : f.Reported)
    (notEnd : r.cursor.next.kind ≠ .eof) (same : r'.items = r.items) :
    r.Adds (r'.refuse f) [.error f.diagnostic] where
  items := by
    rw [refuse, same]
    exact Array.toList_push
  shorter := passes.length_recover_lt notEnd _
  accounts ds h := by
    rw [passes.markersOf_eq]
    exact accounts_refuse reported h

/-- Every step of the reading adds the reports of what it passes. -/
theorem Step.adds {r r' : Reading} (h : r.Step r') (notEnd : r.cursor.next.kind ≠ .eof) :
    ∃ new, r.Adds r' new := by
  have all : ∀ t ∈ r.cursor.ahead, (fun _ => True) t := fun _ _ => trivial
  have header := (reads_header r.declared).outcome r.cursor trivial all
  cases h with
  | marker kind =>
    have ahead := Cursor.ahead_eq_cons notEnd
    refine ⟨_, Array.toList_push, ?_, fun ds h => ?_⟩
    · rw [ahead]
      exact Nat.lt_succ_self _
    · rw [ahead, markersOf, if_neg notEnd, if_pos kind]
      exact .reported _ h
  | headerRefused run =>
    rw [run] at header
    cases header with
    | error passes reported => exact ⟨_, adds_refuse passes reported notEnd rfl⟩
  | bodyRefused run run' =>
    obtain ⟨ts, passes, _, body⟩ := behind_header expressionProperty_within all run
    rw [run'] at body
    cases body with
    | error passes' reported => exact ⟨_, adds_refuse (passes.trans passes') reported notEnd rfl⟩
  | prototype run run' =>
    obtain ⟨ts, passes, _, body⟩ := behind_header expressionProperty_within all run
    rw [run'] at body
    cases body with
    | @ok _ _ us _ passes' some =>
      have both := passes.trans passes'
      refine ⟨[], (List.append_nil _).symm, both.length_lt ?_, fun ds h => both.markersOf_eq ▸ h⟩
      exact List.append_ne_nil_of_right_ne_nil _ (some rfl)
  | function run run' =>
    obtain ⟨ts, passes, _, body⟩ := behind_header expressionProperty_within all run
    rw [run'] at body
    cases body with
    | @ok _ _ us _ passes' some =>
      have both := passes.trans passes'
      refine ⟨_, Array.toList_push, both.length_lt ?_, fun ds h => both.markersOf_eq ▸ h⟩
      exact List.append_ne_nil_of_right_ne_nil _ (some rfl)

/-- In front of the end each step takes a token. -/
theorem step_shorter {r : Reading} (goesOn : r.cursor.atEnd = false) :
    r.step.cursor.ahead.length < r.cursor.ahead.length := by
  obtain ⟨_, adds⟩ := r.step_cases.adds (Cursor.notEnd_of_atEnd goesOn)
  exact adds.shorter

/-- No marker stands at the end of the source. -/
theorem markersOf_of_atEnd {c : Cursor} (h : c.next.kind = .eof) : markersOf c.ahead = [] := by
  obtain ⟨_ | ⟨t, ts⟩, depth⟩ := c
  · rfl
  · exact if_pos h

/-- To the end of the source, everything that is added answers for all the markers ahead. -/
theorem accounts_finish (bound : List Token) (r : Reading)
    (enough : r.cursor.ahead.length ≤ bound.length) :
    ∃ new, (finish bound r).items.toList = r.items.toList ++ new ∧
      Accounts (new.filterMap Item.error?) (markersOf r.cursor.ahead) := by
  induction bound generalizing r with
  | nil =>
    have none : r.cursor.ahead = [] := List.eq_nil_of_length_eq_zero (Nat.le_zero.mp enough)
    refine ⟨[], (List.append_nil _).symm, ?_⟩
    rw [none]
    exact .none
  | cons t bound ih =>
    rw [finish, Cursor.atEnd]
    split
    next atEnd =>
      refine ⟨[], (List.append_nil _).symm, ?_⟩
      rw [markersOf_of_atEnd (beq_iff_eq.mp atEnd)]
      exact .none
    next notEnd =>
      -- The bound is as long as what is ahead, and a step makes that shorter.
      obtain ⟨new, adds⟩ := r.step_cases.adds fun eof => notEnd (beq_iff_eq.mpr eof)
      have fewer : r.step.cursor.ahead.length ≤ bound.length :=
        Nat.le_of_lt_succ (Nat.lt_of_lt_of_le adds.shorter enough)
      obtain ⟨more, items, accounts⟩ := ih r.step fewer
      refine ⟨new ++ more, ?_, ?_⟩
      · rw [items, adds.items, List.append_assoc]
      · rw [List.filterMap_append]
        exact adds.accounts _ accounts

end Reading

end Grammar

namespace Program

/-- The errors of a program account for the markers of its tokens, by induction on the steps of the
reading. -/
theorem accounts_read (ts : List Token) : Accounts (read ts).errors (markersOf ts) := by
  obtain ⟨new, items, accounts⟩ := Grammar.Reading.accounts_finish
    (Grammar.Cursor.ofTokens ts).ahead { cursor := .ofTokens ts } (Nat.le_refl _)
  rw [← markersOf_cut 1 ts, errors, read, items]
  exact accounts

/-- What is wrong with a call is not a marker. -/
theorem isReport_of_checkItem {a : Arities} {f : Function} {d : Diagnostic}
    (h : checkItem a (.function f) = .error d) : d.isReport = false := by
  rw [checkItem] at h
  cases found : f.calls.findSome? a.fault? with
  | none =>
    rw [found] at h
    cases h
  | some fault =>
    rw [found] at h
    obtain ⟨call, -, eq⟩ := List.exists_of_findSome?_eq_some found
    cases h
    rw [Arities.fault?] at eq
    split at eq
    · cases eq
      rfl
    · split at eq <;> cases eq
      rfl

/-- A call without a target adds a diagnostic of its own. -/
theorem accounts_checkItem (a : Arities) (items : List Item) {ms : List Token}
    (h : Accounts (items.filterMap Item.error?) ms) :
    Accounts ((items.map (checkItem a)).filterMap Item.error?) ms := by
  induction items generalizing ms with
  | nil => exact h
  | cons item items ih =>
    cases item with
    | error d =>
      cases h with
      | reported m h => exact .reported m (ih h)
      | own own h => exact .own own (ih h)
      | swallowed m own h => exact .swallowed m own (ih h)
    | function f =>
      rw [List.map_cons]
      cases checked : checkItem a (.function f) with
      | function g => exact ih h
      | error d => exact .own (isReport_of_checkItem checked) (ih h)

/-- The diagnostics of a unit answer for all of its markers. -/
theorem accounts_ofTokens (ts : List Token) : Accounts (ofTokens ts).errors (markersOf ts) :=
  link_induction (motive := fun p => Accounts p.errors (markersOf ts)) (accounts_read ts)
    fun p => accounts_checkItem p.arities p.items

/-- What is true of the markers of a unit: its diagnostics answer for them; those that are reports
are reports of some of them, in order; every one that is not reported has a diagnostic to itself
that is about something else; and if nothing else is wrong with the unit, all of them are reported.
-/
theorem errors_answer_for_markers (ts : List Token) :
    Accounts (ofTokens ts).errors (markersOf ts) ∧
      ((ofTokens ts).errors.filter Diagnostic.isReport).Sublist ((markersOf ts).map Token.report) ∧
      (markersOf ts).length ≤ (ofTokens ts).errors.length ∧
      ((∀ d ∈ (ofTokens ts).errors, d.isReport = true) → (ofTokens ts).ReportsMarkers ts) := by
  have accounts := accounts_ofTokens ts
  refine ⟨accounts, accounts.reports_sublist, accounts.length_le, fun all => ?_⟩
  rw [ReportsMarkers, accounts.eq_reports all, List.map_map]
  exact List.Sublist.refl _

/-- A declaration that fails at its first token, with a marker behind that. -/
def failedAlready : List Token :=
  [{ kind := .ident, text := "x", line := 1 }, .marker "#error no" 2, .endOfSource 3]

/-- The marker is skipped with the rest of the declaration, and not reported. -/
theorem not_reportsMarkers_failedAlready :
    ¬(ofTokens failedAlready).ReportsMarkers failedAlready := by
  have read : read failedAlready = ⟨[.error ⟨.expectedType, 1⟩]⟩ := by rfl
  rw [ReportsMarkers, ofTokens, read, link_eq_of_checkCalls_eq rfl]
  decide

end Program

end BareC
