import BareC.Proofs.Directives.Likeness
import BareC.Proofs.Directives.Steps

/-!
# All that a pass asks of its host

The calls of a pass, taken together, are visits to headers one after another, each of which is over
before the next begins. How deep in headers a visit is made is nothing the host is told. So the pass
is run once more with a chart beside the host's state, which has every call with the level it was
made at; what the pass does otherwise is the same (`like_runCharted`).

The chart is an addition of this module and no part of the host. So first the charted pass is shown
to be the pass, with a state that nothing else reads, and then the calls of the chart are shown to
be visits that begin and end at the levels the depth allows.

What a visit returns is not judged: the host may answer anything, and the bound on the bytes that
are taken is a bound for every answer. From a host that never comes to an end of a header no more is
asked than the bound on its bytes allows.
-/

namespace BareC

variable {σ τ : Type}

/-! ## Descriptors -/

namespace HostCall

/-- The descriptors held open behind a call, `held` being those before it. -/
def track (held : List Descriptor) : HostCall → List Descriptor
  | .openPath _ _ answer => if answer < 0 then held else answer :: held
  | .close fd _ => held.erase fd
  | _ => held

/-- The descriptors held open when the calls are over. -/
def held (calls : List HostCall) : List Descriptor :=
  calls.foldl track []

/-- At no time is more than one descriptor held, and in the end none is. -/
def Balanced (calls : List HostCall) : Prop :=
  held calls = [] ∧ ∀ front, front <+: calls → (held front).length ≤ 1

variable {calls more : List HostCall}

/-- No calls at all are balanced. -/
theorem balanced_nil : Balanced [] :=
  ⟨rfl, fun front le => by rw [List.prefix_nil.mp le]; exact Nat.zero_le 1⟩

/-- Balanced calls stand one behind the other. -/
theorem Balanced.append (h : Balanced calls) (h' : Balanced more) : Balanced (calls ++ more) := by
  have behind : ∀ front, held (calls ++ front) = held front := fun front => by
    rw [held, List.foldl_append, ← held, h.1, ← held]
  refine ⟨(behind more).trans h'.1, fun front le => ?_⟩
  obtain ⟨rest, all⟩ := le
  obtain ⟨left, inFirst, -⟩ | ⟨left, rfl, inSecond⟩ := List.append_eq_append_iff.mp all
  · exact h.2 front (inFirst ▸ List.prefix_append front left)
  · rw [behind]
    exact h'.2 left (inSecond ▸ List.prefix_append left rest)

/-- As `Balanced.append`, for any number of them. -/
theorem Balanced.flatMap {α : Type} {f : α → List HostCall} {xs : List α}
    (h : ∀ x ∈ xs, Balanced (f x)) : Balanced (xs.flatMap f) := by
  induction xs with
  | nil => exact balanced_nil
  | cons x xs ih =>
    obtain ⟨first, others⟩ := List.forall_mem_cons.mp h
    rw [List.flatMap_cons]
    exact first.append (ih others)

/-- Reads leave the descriptors alone. -/
theorem foldl_track_reads {held : List Descriptor}
    (reads : ∀ c ∈ calls, ∃ fd room answer, c = .read fd room answer) :
    calls.foldl track held = held := by
  induction calls with
  | nil => rfl
  | cons c calls ih =>
    obtain ⟨⟨fd, room, answer, eq⟩, others⟩ := List.forall_mem_cons.mp reads
    subst eq
    exact ih others

end HostCall

open HostCall in
/-- The calls of an orderly visit open and close one descriptor. -/
theorem Visit.Orderly.balanced {v : Visit} (h : v.Orderly) : Balanced v.calls := by
  cases v with
  | refused path answer =>
    rw [Visit.Orderly] at h
    rw [calls]
    refine ⟨if_pos h, fun front le => ?_⟩
    obtain rfl | ⟨front, rfl, within⟩ := List.prefix_cons_iff.mp le
    · exact Nat.zero_le 1
    · rw [List.prefix_nil.mp within, held, List.foldl_cons, track, if_pos h]
      exact Nat.zero_le 1
  | readOut path fd portions closed =>
    have reads : ∀ c ∈ portions.map (fun p => HostCall.read fd readBuffer p.answer),
        ∃ fd room answer, c = .read fd room answer := by
      intro c mem
      obtain ⟨p, -, rfl⟩ := List.mem_map.mp mem
      exact ⟨_, _, _, rfl⟩
    have opened : track [] (.openPath path .readOnly fd) = [fd] := if_neg (Int.not_lt.mpr h.1)
    have closedAgain : held (Visit.readOut path fd portions closed).calls = [] := by
      rw [held, calls, List.foldl_cons, opened, List.foldl_append, foldl_track_reads reads]
      exact List.erase_cons_head ..
    refine ⟨closedAgain, fun front le => ?_⟩
    obtain rfl | ⟨front, rfl, within⟩ := List.prefix_cons_iff.mp le
    · exact Nat.zero_le 1
    obtain rfl | within := List.prefix_concat_iff.mp within
    · exact closedAgain ▸ Nat.zero_le 1
    · rw [held, List.foldl_cons, opened, foldl_track_reads fun c mem => reads c (within.subset mem)]
      exact Nat.le_refl 1

/-! ## Visits one after another -/

/-- The visits happen one after another, as they should, and each fetches a header. -/
inductive Visits (host : Host σ) : List Visit → σ → σ → Prop
  | nil {s} : Visits host [] s s
  | cons {v vs s s' s''} : v.Happens host s s' → v.Orderly →
    Header.fetch host v.path s = (v.contents?, s') → Visits host vs s' s'' →
    Visits host (v :: vs) s s''

namespace Visits

variable {host : Host σ} {vs ws : List Visit} {s s' s'' : σ}

/-- Visits follow one another. -/
theorem append (h : Visits host vs s s') (h' : Visits host ws s' s'') :
    Visits host (vs ++ ws) s s'' := by
  induction h with
  | nil => exact h'
  | cons happens orderly fetched _ ih => exact .cons happens orderly fetched (ih h')

/-- Every visit the host goes through is orderly. -/
theorem orderly (h : Visits host vs s s') : ∀ v ∈ vs, v.Orderly := by
  induction h with
  | nil => exact nofun
  | cons _ orderly _ _ ih => exact List.forall_mem_cons.mpr ⟨orderly, ih⟩

end Visits

/-! ## The chart of a pass -/

/-- What has been noted of a pass. -/
structure Chart where
  /-- The depth that a header would have which is opened next. -/
  level : Nat := 1
  /-- The calls so far, each with the level it was made at. -/
  calls : List (Nat × HostCall) := []

/-- The same host with a chart beside its state. -/
def Host.charted (host : Host σ) : Host (σ × Chart) :=
  host.wrap
    (fun call op (s, chart) =>
      let (a, s) := op.run s
      (a, (s, { chart with calls := chart.calls ++ [(chart.level, call a)] })))
    (·.1)

/-- A charting host does what the host does. -/
theorem Host.charted_follows (host : Host σ) : host.charted.Follows Prod.fst host where
  openPath _ _ _ := rfl
  read _ _ _ := rfl
  close _ _ := rfl

/-- Noting a call with its level records it as the recording host does. -/
theorem Chart.record_note (calls : List (Nat × HostCall)) (level : Nat) (call : HostCall) :
    (calls.map (·.2)).toArray.push call = ((calls ++ [(level, call)]).map (·.2)).toArray := by
  rw [List.push_toArray, List.map_append, List.map_singleton]

/-- A record of the calls leaves out the levels they were made at. -/
theorem Host.charted_follows_recorded (host : Host σ) :
    host.charted.Follows (fun t => (t.1, (t.2.calls.map (·.2)).toArray)) host.recorded where
  openPath _ _ _ := Prod.ext rfl (Prod.ext rfl (Chart.record_note ..))
  read _ _ _ := Prod.ext rfl (Prod.ext rfl (Chart.record_note ..))
  close _ _ := Prod.ext rfl (Prod.ext rfl (Chart.record_note ..))

/-- The reads of a header's portions are noted at the level of its visit. -/
theorem Portions.charted {host : Host σ} {fd : Descriptor} {buffer : Vector UInt8 readBuffer}
    {t t' : σ × Chart} {ps : List Portion} (h : Portions host.charted fd buffer t ps t') :
    t'.2 = { t.2 with
      calls := t.2.calls ++ ps.map fun p => (t.2.level, .read fd readBuffer p.answer) } := by
  induction h with
  | nil => rw [List.map_nil, List.append_nil]
  | cons read _ ih =>
    obtain rfl := congrArg Prod.snd read
    obtain rfl := congrArg (·.1.1) read
    rw [ih, List.map_cons]
    exact congrArg _ (List.append_assoc ..)

/-- The calls of a visit are noted at the level of the chart. -/
theorem Visit.Happens.charted {host : Host σ} {v : Visit} {t t' : σ × Chart}
    (h : v.Happens host.charted t t') :
    t'.2 = { t.2 with calls := t.2.calls ++ v.calls.map (t.2.level, ·) } := by
  cases h with
  | refused opened =>
    cases opened
    rfl
  | @readOut path fd ps closed _ t₁ t₂ _ opened portions close =>
    have first :
        t₁.2 = { t.2 with calls := t.2.calls ++ [(t.2.level, .openPath path .readOnly fd)] } := by
      cases opened
      rfl
    have last : t'.2 = { t₂.2 with calls := t₂.2.calls ++ [(t₂.2.level, .close fd closed)] } := by
      cases close
      rfl
    rw [last, portions.charted, first, calls, List.map_cons, List.map_append, List.map_map]
    exact congrArg (Chart.mk t.2.level) (by rw [List.append_assoc, List.append_assoc]; rfl)

namespace Expansion

/-- The chart is told that the pass has gone so many levels down. -/
def atLevel (level : Nat) (e : Expansion (σ × Chart)) : Expansion (σ × Chart) :=
  { e with host := (e.host.1, { e.host.2 with level }) }

/-- What becomes of a header in a pass with a chart: a pass one level deeper. -/
def charting (inner : List Token → Expansion (σ × Chart) → Expansion (σ × Chart)) (ts : List Token)
    (e : Expansion (σ × Chart)) : Expansion (σ × Chart) :=
  (inner ts (e.atLevel (e.host.2.level + 1))).atLevel e.host.2.level

/-- `run` with a chart. -/
def runCharted (host : Host σ) :
    (depth : Nat) → List Token → Expansion (σ × Chart) → Expansion (σ × Chart)
  | 0, ts, e => (SourceItem.ofTokens ts).foldl (step host.charted none) e
  | depth + 1, ts, e =>
    (SourceItem.ofTokens ts).foldl (step host.charted (some (charting (runCharted host depth)))) e

variable {host : Host σ}

/-- A host that follows the one with the chart, whatever level the chart is at, sees the same pass.
-/
theorem like_runCharted {inner : Host τ} {f : σ × Chart → τ}
    (follows : host.charted.Follows f inner)
    (blind : ∀ s chart level, f (s, { chart with level }) = f (s, chart)) (depth : Nat)
    (ts : List Token) {e : Expansion (σ × Chart)} {e' : Expansion τ}
    (h : e.Like Eq (fun t s => f t = s) e') :
    (runCharted host depth ts e).Like Eq (fun t s => f t = s) (run inner depth ts e') := by
  have served : ∀ path t s, f t = s →
      (Header.fetch host.charted path t).1 = (Header.fetch inner path s).1 ∧
        f (Header.fetch host.charted path t).2 = (Header.fetch inner path s).2 := by
    rintro path t _ rfl
    rw [Header.fetch_follow follows]
    exact ⟨rfl, rfl⟩
  have same :
      ∀ ts, List.Forall₂ (SourceItem.Like Eq) (SourceItem.ofTokens ts) (SourceItem.ofTokens ts) :=
    fun ts => SourceItem.like_ofTokens (.refl (fun _ => rfl) ts)
  induction depth generalizing ts e e' with
  | zero => exact h.foldl_step (fun _ => served) .none (same ts)
  | succ depth ih =>
    refine h.foldl_step (fun _ => served) (.some fun ts e e' h => ?_) (same ts)
    have inside :=
      ih ts (e := e.atLevel (e.host.2.level + 1)) (h.withHost ((blind ..).trans h.host))
    exact inside.withHost ((blind ..).trans inside.host)

/-- Between these states of a host with a chart, visits have been made and noted, at the level of
the chart and up to `depth` levels down. -/
def Charted (host : Host σ) (depth : Nat) (t t' : σ × Chart) : Prop :=
  t'.2.level = t.2.level ∧
    ∃ visits : List (Nat × Visit), Visits host (visits.map (·.2)) t.1 t'.1 ∧
      t'.2.calls = t.2.calls ++ visits.flatMap (fun (level, v) => v.calls.map (level, ·)) ∧
      ∀ visit ∈ visits, t.2.level ≤ visit.1 ∧ visit.1 < t.2.level + depth

namespace Charted

variable {depth : Nat} {t t' t'' : σ × Chart}

/-- Nothing is charted where the host is left alone. -/
theorem refl (host : Host σ) (depth : Nat) (t : σ × Chart) : Charted host depth t t :=
  ⟨rfl, [], .nil, (List.append_nil _).symm, nofun⟩

/-- Charts follow one another. -/
theorem trans (h : Charted host depth t t') (h' : Charted host depth t' t'') :
    Charted host depth t t'' := by
  obtain ⟨level, visits, made, noted, levels⟩ := h
  obtain ⟨level', visits', made', noted', levels'⟩ := h'
  refine ⟨level'.trans level, visits ++ visits', ?_, ?_, ?_⟩
  · rw [List.map_append]
    exact made.append made'
  · rw [noted', noted, List.flatMap_append, List.append_assoc]
  · rw [level] at levels'
    exact List.forall_mem_append.mpr ⟨levels, levels'⟩

/-- One level down, a level less is left. -/
theorem deeper (h : Charted host depth (t.1, { t.2 with level := t.2.level + 1 }) t') :
    Charted host (depth + 1) t (t'.1, { t'.2 with level := t.2.level }) := by
  obtain ⟨-, visits, made, noted, levels⟩ := h
  refine ⟨rfl, visits, made, noted, fun visit mem => ?_⟩
  obtain ⟨least, most⟩ := levels visit mem
  dsimp only at least most
  constructor <;> omega

end Charted

/-- The expansion of any tokens charts its visits at every depth, by induction on the depth and then
on the items. -/
theorem charted_run (host : Host σ) (depth : Nat) (ts : List Token) (e : Expansion (σ × Chart)) :
    Charted host depth e.host (runCharted host depth ts e).host := by
  induction depth generalizing ts e with
  | zero =>
    have keeps : Keeps host.charted none fun e e' => Charted host 0 e.host e'.host :=
      keeps_of_host (.refl host 0) .trans (fun _ _ => nofun) fun _ none =>
        absurd none (Option.not_mem_none _)
    exact keeps.foldl_step _ e
  | succ depth ih =>
    refine (keeps_of_host (.refl host (depth + 1)) .trans (fun path t _ => ?_) ?_).foldl_step _ e
    · obtain ⟨v, t', happens, orderly, rfl⟩ := Header.exists_visit host.charted path t
      have happens' := happens.follow host.charted_follows
      rw [Header.fetch_of_visit happens orderly]
      refine ⟨by rw [happens.charted], [(t.2.level, v)],
        .cons happens' orderly (Header.fetch_of_visit happens' orderly) .nil, ?_, ?_⟩
      · rw [happens.charted, List.flatMap_singleton]
      · exact List.forall_mem_singleton.mpr
          ⟨Nat.le_refl _, Nat.lt_add_of_pos_right (Nat.succ_pos depth)⟩
    · intro deeper same ts e
      cases same
      exact (ih ts _).deeper

end Expansion

/-- Whatever the host answers, the calls of a pass are visits to headers, each over before the next
begins and each in order: it has at most one descriptor open and closes it, it takes the bytes of
full buffers at most, and it stops in time. No header is opened more than `maxHeaderDepth` levels
deep. -/
theorem Token.expandAll_visits (host : Host σ) (ts : List Token) (s : σ) :
    ∃ visits : List (Nat × Visit),
      let (out, s') := Token.expandAll host ts s
      let calls := visits.flatMap (·.2.calls)
      let charted := Expansion.runCharted host maxHeaderDepth ts { host := (s, {}) }
      Token.expandAll host.recorded ts (s, #[]) = (out, (s', calls.toArray)) ∧
        Visits host (visits.map (·.2)) s s' ∧
        HostCall.Balanced calls ∧
        (charted.finish, charted.host.1) = (out, s') ∧
        charted.host.2.calls = visits.flatMap (fun (level, v) => v.calls.map (level, ·)) ∧
        ∀ visit ∈ visits, 1 ≤ visit.1 ∧ visit.1 ≤ maxHeaderDepth ∧ visit.2.Orderly ∧
          visit.2.calls.length ≤ maxHeaderBytes + 2 ∧
          ∀ contents ∈ visit.2.contents?, contents.length < maxHeaderBytes + readBuffer := by
  let e : Expansion (σ × Chart) := { host := (s, {}) }
  have begins :
      ∀ {τ : Type} (f : σ × Chart → τ), e.Like Eq (fun t s' => f t = s') { host := f (s, {}) } :=
    fun f => ⟨.refl (fun _ => rfl) _, rfl, rfl, rfl, .nil⟩
  have plain :=
    Expansion.like_runCharted host.charted_follows (fun _ _ _ => rfl) maxHeaderDepth ts (begins _)
  have recorded :=
    Expansion.like_runCharted host.charted_follows_recorded (fun _ _ _ => rfl) maxHeaderDepth
      ts (begins _)
  obtain ⟨-, visits, made, noted, levels⟩ := Expansion.charted_run host maxHeaderDepth ts e
  have out := Tokens.like_eq_iff.mp plain.finish
  have out' := Tokens.like_eq_iff.mp recorded.finish
  have forgotten : (visits.flatMap fun (level, v) => v.calls.map (level, ·)).map (·.2) =
      visits.flatMap (·.2.calls) := by
    rw [List.map_flatMap]
    exact List.flatMap_congr fun visit _ => by rw [List.map_map]; exact List.map_id _
  have orderly : ∀ visit ∈ visits, visit.2.Orderly := fun visit mem =>
    made.orderly _ (List.mem_map_of_mem mem)
  refine ⟨visits, ?_, plain.host ▸ made, .flatMap fun visit mem =>
    (orderly visit mem).balanced, ?_, noted, ?_⟩
  · refine Prod.ext (out'.symm.trans out) (recorded.host.symm.trans (Prod.ext plain.host ?_))
    exact congrArg List.toArray ((congrArg _ noted).trans forgotten)
  · exact Prod.ext out plain.host
  · intro visit mem
    obtain ⟨least, most⟩ := levels visit mem
    have keeps := orderly visit mem
    have deepest : visit.1 ≤ maxHeaderDepth := Nat.lt_one_add_iff.mp most
    exact ⟨least, deepest, keeps, keeps.length_calls, keeps.length_contents⟩

end BareC
