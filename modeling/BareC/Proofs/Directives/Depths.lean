import BareC.Proofs.Directives.Steps

/-!
# Room for headers

A pass asks how deep headers may be nested only where it meets an include, and then it leaves a
marker if there is no room for the header. So a pass that leaves no such marker does the same with
more room (`pass_succ_of_roomy`).

Whether a marker is one that says so can be told by its message (`message_eq_tooDeep_iff`): no other
fault of a directive and no fault of the lexer is worded like it. `Roomy` is the absence of such
markers, and what is said of it is decided by the tokens that came out, not by how deep the pass has
been.

The converse is not claimed. A pass that does leave such a marker may come to the same with more
room: a header that includes itself leaves the marker at whatever depth there is.
-/

namespace BareC

/-- No header has been turned down for being nested too deeply. -/
def Tokens.Roomy (ts : List Token) : Prop :=
  ∀ t ∈ ts, t.kind = .error → t.text ≠ DirectiveFault.tooDeep.message

/-- No other fault of a directive is worded like it. -/
theorem DirectiveFault.message_eq_tooDeep_iff {f : DirectiveFault} :
    f.message = DirectiveFault.tooDeep.message ↔ f = .tooDeep := by
  refine ⟨fun same => ?_, fun eq => eq ▸ rfl⟩
  have opening := DirectiveFault.opening_eq_of_message_eq same
  cases f with
  | tooDeep => rfl
  | strayElif | strayElse | strayEndif | unterminated | unsupportedCondition | namelessMacro
  | functionLikeMacro | header | headerNotFound | reported | unknown =>
    rw [DirectiveFault.opening, DirectiveFault.opening] at opening
    exact absurd opening (by decide)

namespace Tokens.Roomy

variable {ts us : List Token}

/-- The front of a roomy list is roomy. -/
theorem of_isPrefix (h : Roomy us) (isPrefix : ts <+: us) : Roomy ts :=
  fun t mem => h t (isPrefix.subset mem)

end Tokens.Roomy

namespace Expansion

variable {σ : Type} {host : Host σ} {e : Expansion σ}

/-- Of all the faults that a directive leaves a marker for, only this one takes the room away. -/
theorem roomy_fault_iff {f : DirectiveFault} {line : LineNumber} :
    Tokens.Roomy (e.fault f line).out.toList ↔ Tokens.Roomy e.out.toList ∧ f ≠ .tooDeep := by
  have marked : (Token.marker f.message line).kind = .error := rfl
  rw [fault, Array.toList_push, Tokens.Roomy, List.forall_mem_append, List.forall_mem_singleton]
  refine and_congr_right fun _ => (imp_iff_right marked).trans ?_
  exact not_congr DirectiveFault.message_eq_tooDeep_iff

/-- A finished pass has left what it had left. -/
theorem out_prefix_finish (e : Expansion σ) : e.out.toList <+: e.finish := by
  unfold finish
  split
  next =>
    rw [Array.toList_push]
    exact List.prefix_append ..
  next =>
    rw [Array.toList_push, fault, Array.toList_push, List.append_assoc]
    exact List.prefix_append ..

/-- Only at an include that is carried out does a step ask what becomes of headers. -/
theorem step_congr {deeper? deeper?' : Option (List Token → Expansion σ → Expansion σ)}
    {item : SourceItem}
    (same : ∀ words line, item = .directive (.includeHeader words) line →
      e.branches.skipping = false →
      ({ e with line } : Expansion σ).includeHeader host deeper? words line =
        ({ e with line } : Expansion σ).includeHeader host deeper?' words line) :
    step host deeper? e item = step host deeper?' e item := by
  cases item with
  | text | marker | endOfSource => rfl
  | directive d line =>
    cases d with
    | includeHeader words =>
      cases skips : e.branches.skipping with
      | true => simp only [step, direct, SourceItem.line, skips, if_true]
      | false =>
        simp only [step, direct, obey, SourceItem.line, skips, Bool.false_eq_true, if_false]
        exact same words line rfl skips
    | undefine name? => cases name? <;> rfl
    | null | ifDefined | ifHolds | elifHolds | otherwise | endIf | define | report | ignored
    | unknown => rfl

/-- With the same inside headers, an include for which there is room makes no use of more. -/
theorem includeHeader_succ_of_roomy {depth : Nat} {words : List Token} {line : LineNumber}
    (inside : ∀ d, depth = d + 1 → ∀ ts (e : Expansion σ),
      Tokens.Roomy (run host d ts e).out.toList → run host (d + 1) ts e = run host d ts e)
    (roomy : Tokens.Roomy (e.includeHeader host (deeperAt host depth) words line).out.toList) :
    e.includeHeader host (deeperAt host (depth + 1)) words line =
      e.includeHeader host (deeperAt host depth) words line := by
  cases named : Header.name words with
  | error f => rw [includeHeader_unnamed named, includeHeader_unnamed named]
  | ok name =>
    cases depth with
    | zero =>
      rw [deeperAt, includeHeader_tooDeep named] at roomy
      exact absurd rfl (roomy_fault_iff.mp roomy).2
    | succ depth =>
      rcases fetched : Header.fetch host (Bytes.ofText name) e.host with ⟨_ | contents, s⟩
      · rw [deeperAt, deeperAt, includeHeader_missing named fetched,
          includeHeader_missing named fetched]
      · rw [deeperAt, includeHeader_found named fetched] at roomy
        rw [deeperAt, deeperAt, includeHeader_found named fetched,
          includeHeader_found named fetched]
        exact inside depth rfl _ _ roomy

/-- A pass with room for all its headers makes no use of more. -/
theorem pass_succ_of_roomy {depth : Nat} {items : List SourceItem} {e : Expansion σ}
    (roomy : Tokens.Roomy (pass host depth items e).out.toList) :
    pass host (depth + 1) items e = pass host depth items e := by
  -- inside headers by induction on the depth, and from item to item by induction on the items
  induction depth using Nat.strongRecOn generalizing items e with
  | ind depth shallower =>
    have inside : ∀ d, depth = d + 1 →
      ∀ ts (e : Expansion σ), Tokens.Roomy (run host d ts e).out.toList →
        run host (d + 1) ts e = run host d ts e := by
      rintro d rfl ts e roomy
      rw [run_eq_pass] at roomy
      rw [run_eq_pass, run_eq_pass, shallower d (Nat.lt_succ_self d) roomy]
    induction items generalizing e with
    | nil => rfl
    | cons item items ih =>
      rw [pass_cons] at roomy
      have first := roomy.of_isPrefix (out_prefix_pass ..)
      have same : step host (deeperAt host (depth + 1)) e item =
        step host (deeperAt host depth) e item := by
        refine step_congr fun words line isInclude active => includeHeader_succ_of_roomy inside ?_
        subst isInclude
        simpa only [step, direct, obey, SourceItem.line, active, Bool.false_eq_true,
          if_false] using first
      rw [pass_cons, pass_cons, same, ih roomy]

end Expansion

end BareC
