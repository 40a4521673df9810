import BareC.Proofs.Directives.Items
import BareC.Proofs.Host.Fetching

/-!
# What a step can do

A step of the pass goes on to a line, changes the open conditionals or the macros, adds tokens to
what has been said, fetches headers and passes over them, and that is all. A relation of states that
each of these keeps to is kept to by a step (`Keeps.step`), and by a pass. What it leaves where a
directive is at fault is told from other faults by the first characters of the wording
(`DirectiveFault.take_message`).

This is where the pass is taken apart once. A module that wants an invariant states the relation and
shows the elementary steps of `Keeps`; it never unfolds the pass. The invariants that need to know
which kind of item was read, or what a header held, have their own inductions on the items.
-/

namespace BareC

/-! ## How faults are worded -/

namespace DirectiveFault

/-- The first characters of the wording. Whatever a message takes from the source comes behind them.
-/
def opening : DirectiveFault → List Char
  | strayElif | strayElse | strayEndif => ['s', 't', 'r', 'a']
  | unterminated => ['u', 'n', 't', 'e']
  | unsupportedCondition => ['u', 'n', 's', 'u']
  | namelessMacro => ['m', 'a', 'c', 'r']
  | functionLikeMacro => ['f', 'u', 'n', 'c']
  | header _ => ['e', 'x', 'p', 'e']
  | tooDeep => ['#', 'i', 'n', 'c']
  | headerNotFound _ => ['c', 'a', 'n', 'n']
  | reported _ => ['#', 'e', 'r', 'r']
  | unknown _ => ['u', 'n', 'k', 'n']

/-- Four characters tell the messages of the directives' faults apart. -/
theorem take_message (f : DirectiveFault) : f.message.toList.take 4 = f.opening := by
  have fixed : ∀ start rest : String, 4 ≤ start.toList.length →
      (start ++ rest).toList.take 4 = start.toList.take 4 := fun start rest long => by
    rw [String.toList_append, List.take_append_of_le_length long]
  cases f with
  | headerNotFound | reported | unknown =>
    refine (fixed _ _ (by decide +kernel)).trans ?_
    rw [opening]
    decide +kernel
  | header f => cases f <;> decide +kernel
  | strayElif | strayElse | strayEndif | unterminated | unsupportedCondition | namelessMacro
  | functionLikeMacro | tooDeep => decide +kernel

/-- Equal messages open alike. -/
theorem opening_eq_of_message_eq {f g : DirectiveFault} (same : f.message = g.message) :
    f.opening = g.opening := by
  rw [← take_message, same, take_message]

end DirectiveFault

/-! ## What steps keep to -/

namespace Expansion

variable {σ : Type}

/-- Whatever a step does, it keeps to the relation. -/
structure Keeps (host : Host σ) (deeper? : Option (List Token → Expansion σ → Expansion σ))
    (R : Expansion σ → Expansion σ → Prop) : Prop where
  refl : ∀ e, R e e
  trans : ∀ {e e' e''}, R e e' → R e' e'' → R e e''
  moves : ∀ e line, R e { e with line }
  turns : ∀ e branches, R e { e with branches }
  defines : ∀ e macros, R e { e with macros }
  adds : ∀ e (ts : List Token), R e { e with out := e.out ++ ts }
  fetches : ∀ e path, deeper?.isSome → R e { e with host := (Header.fetch host path e.host).2 }
  inside : ∀ deeper ∈ deeper?, ∀ ts e, R e (deeper ts e)

namespace Keeps

variable {host : Host σ} {deeper? : Option (List Token → Expansion σ → Expansion σ)}
  {R : Expansion σ → Expansion σ → Prop} (h : Keeps host deeper? R)
include h

/-- What the elementary steps keep, a fault keeps. -/
theorem fault (cause : DirectiveFault) (line : LineNumber) (e : Expansion σ) :
    R e (e.fault cause line) :=
  h.adds e [.marker cause.message line]

/-- As `Keeps.fault`, for a condition. -/
theorem judge (condition : List Token) (line : LineNumber) (e : Expansion σ) :
    R e (e.judge condition line).2 := by
  unfold Expansion.judge
  split
  next => exact h.refl e
  next => exact h.fault _ line e

/-- As `Keeps.fault`, for a definition. -/
theorem define (line : LineNumber) (words : List Token) (e : Expansion σ) :
    R e (e.define line words) := by
  unfold Expansion.define
  split
  next => exact h.fault _ line e
  next =>
    split
    next => exact h.fault _ line e
    next =>
      split
      next => exact h.fault _ line e
      next => exact h.defines e _

/-- As `Keeps.fault`, for an inclusion, where it is kept one level deeper. -/
theorem includeHeader (words : List Token) (line : LineNumber) (e : Expansion σ) :
    R e (e.includeHeader host deeper? words line) := by
  unfold Expansion.includeHeader
  split
  next => exact h.fault _ line e
  next => exact h.fault _ line e
  next name deeper _ =>
    have fetched := h.fetches e (Bytes.ofText name) rfl
    split
    next missing =>
      rw [missing] at fetched
      exact h.trans fetched (h.fault _ line _)
    next found =>
      rw [found] at fetched
      exact h.trans fetched (h.inside deeper rfl _ _)

/-- As `Keeps.fault`, for a directive outside the conditionals. -/
theorem obey (d : Directive) (line : LineNumber) (e : Expansion σ) :
    R e (e.obey host deeper? d line) := by
  unfold Expansion.obey
  split
  next => exact h.define line _ e
  next => exact h.defines e _
  next => exact h.includeHeader _ line e
  next => exact h.fault _ line e
  next => exact h.fault _ line e
  next => exact h.refl e

/-- As `Keeps.fault`, for every directive. -/
theorem direct (d : Directive) (line : LineNumber) (e : Expansion σ) :
    R e (e.direct host deeper? d line) := by
  unfold Expansion.direct
  split
  next => exact h.turns e _
  next condition =>
    split
    next => exact h.turns e _
    next => exact h.trans (h.judge condition line e) (h.turns _ _)
  next condition =>
    split
    next => exact h.fault _ line e
    next => exact h.turns e _
    next => exact h.trans (h.judge condition line e) (h.turns _ _)
  next =>
    split
    next => exact h.fault _ line e
    next => exact h.turns e _
  next =>
    split
    next => exact h.fault _ line e
    next => exact h.turns e _
  next =>
    split
    next => exact h.refl e
    next => exact h.obey _ line e

/-- One item keeps it. -/
theorem step (e : Expansion σ) (item : SourceItem) : R e (step host deeper? e item) := by
  refine h.trans (h.moves e item.line) ?_
  cases item with
  | text t =>
    rw [Expansion.step]
    split
    next => exact h.refl _
    next => exact h.adds _ _
  | marker t => exact h.adds _ [t]
  | directive d line => exact h.direct d line _
  | endOfSource line => exact h.refl _

/-- A pass keeps it, by induction on the items. -/
theorem foldl_step (items : List SourceItem) (e : Expansion σ) :
    R e (items.foldl (Expansion.step host deeper?) e) := by
  induction items generalizing e with
  | nil => exact h.refl e
  | cons item items ih => exact h.trans (h.step e item) (ih _)

end Keeps

variable {host : Host σ} {deeper? : Option (List Token → Expansion σ → Expansion σ)}

/-- A relation of host states that fetching a header keeps to. -/
theorem keeps_of_host {R : σ → σ → Prop} (refl : ∀ s, R s s)
    (trans : ∀ {s s' s''}, R s s' → R s' s'' → R s s'')
    (fetched : ∀ path s, deeper?.isSome → R s (Header.fetch host path s).2)
    (inside : ∀ deeper ∈ deeper?, ∀ ts e, R e.host (deeper ts e).host) :
    Keeps host deeper? fun e e' => R e.host e'.host where
  refl e := refl e.host
  trans := trans
  moves e _ := refl e.host
  turns e _ := refl e.host
  defines e _ := refl e.host
  adds e _ := refl e.host
  fetches e path := fetched path e.host
  inside := inside

/-- Where no header is opened, the host is left alone. -/
theorem keeps_host (host : Host σ) : Keeps host none fun e e' => e.host = e'.host :=
  keeps_of_host (fun _ => rfl) Eq.trans (fun _ _ => nofun) fun _ none =>
    absurd none (Option.not_mem_none _)

/-- What has been said stays. -/
theorem keeps_out (inside : ∀ deeper ∈ deeper?, ∀ ts e, e.out.toList <+: (deeper ts e).out.toList) :
    Keeps host deeper? fun e e' => e.out.toList <+: e'.out.toList where
  refl _ := List.prefix_rfl
  trans := List.IsPrefix.trans
  moves _ _ := List.prefix_rfl
  turns _ _ := List.prefix_rfl
  defines _ _ := List.prefix_rfl
  adds e ts := by
    rw [Array.toList_appendList]
    exact List.prefix_append ..
  fetches _ _ _ := List.prefix_rfl
  inside := inside

/-- What steps keep to if the passes inside them do, steps at any depth keep to. -/
theorem keeps_deeperAt (R : Expansion σ → Expansion σ → Prop)
    (keeps : ∀ {deeper? : Option (List Token → Expansion σ → Expansion σ)},
      (∀ deeper ∈ deeper?, ∀ ts e, R e (deeper ts e)) → Keeps host deeper? R) (depth : Nat) :
    Keeps host (deeperAt host depth) R := by
  induction depth with
  | zero => exact keeps fun _ none => absurd none (Option.not_mem_none _)
  | succ depth ih =>
    refine keeps fun deeper mem ts e => ?_
    cases mem
    rw [run_eq_pass]
    exact ih.foldl_step _ e

/-- A pass only adds to the output. -/
theorem out_prefix_pass (depth : Nat) (items : List SourceItem) (e : Expansion σ) :
    e.out.toList <+: (pass host depth items e).out.toList :=
  (keeps_deeperAt (fun e e' => e.out.toList <+: e'.out.toList) keeps_out depth).foldl_step items e

/-- Headers that were fetched have brought the host to where a pass leaves it. -/
theorem fetched_pass (depth : Nat) (items : List SourceItem) (e : Expansion σ) :
    host.Fetched e.host (pass host depth items e).host := by
  refine (keeps_deeperAt (fun e e' => host.Fetched e.host e'.host) ?_ depth).foldl_step items e
  exact keeps_of_host (fun _ => .refl) .trans fun path _ _ => Host.Fetched.fetch .refl path

end Expansion

end BareC
