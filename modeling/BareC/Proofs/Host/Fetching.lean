import BareC.Directive.Header
import BareC.Host.Recorded
import Mathlib.Logic.Relation

/-!
# Fetching a header, call by call

`Header.fetch` talks to any host at all, so what it does is stated over what the host happens to
answer. A `Visit` is one attempt to read a header with every answer in it. `Visit.Happens` says that
the answers are those of the host, and `Visit.Orderly` that the visit keeps to the rules whatever
they are: it reads the descriptor it was given, stops when it has to, and closes what it opened.

A host that only adds something to the state of another, as one that keeps a record does, is said to
follow it; the same is then fetched from both.

The bound on the bytes is a bound on what is kept asking for: reading stops when enough is there,
and the portion that is read last may reach beyond it by less than a buffer
(`Orderly.length_contents`). For a header that is longer than the bound nothing is said of where it
is cut; what is fetched of one that is not is all of it.
-/

namespace BareC

/-! ## Visits -/

/-- What one read brought: the answer, and the buffer that the host left. -/
structure Portion where
  answer : Int
  buffer : Vector UInt8 readBuffer

/-- The bytes that count as read, whatever the answer claims. -/
def Portion.bytes (p : Portion) : Bytes :=
  p.buffer.toList.take (min p.answer.toNat readBuffer)

namespace Portion

/-- A portion holds what its answer counts, up to the size of the buffer. -/
theorem length_bytes (p : Portion) : p.bytes.length = min p.answer.toNat readBuffer := by
  rw [bytes, List.length_take, Vector.length_toList, Nat.min_assoc, Nat.min_self]

/-- A portion that brings something is not empty. -/
theorem length_bytes_pos (p : Portion) (brings : 0 < p.answer) : 0 < p.bytes.length := by
  rw [length_bytes]
  exact Nat.lt_min.mpr ⟨Int.lt_toNat.mpr brings, by decide⟩

/-- A portion that failed brings nothing. -/
theorem bytes_of_nonpos {p : Portion} (failed : p.answer ≤ 0) : p.bytes = [] := by
  rw [← List.length_eq_zero_iff, length_bytes, Int.toNat_of_nonpos failed, Nat.zero_min]

end Portion

/-- The bytes of reads one after another. -/
def portionBytes (ps : List Portion) : Bytes :=
  ps.flatMap Portion.bytes

/-- An attempt to read a header. -/
inductive Visit where
  | refused (path : Bytes) (answer : Descriptor)
  | readOut (path : Bytes) (fd : Descriptor) (portions : List Portion) (closed : Int)

namespace Visit

def path : Visit → Bytes
  | refused path _ => path
  | readOut path _ _ _ => path

/-- The calls of a visit, with their answers. -/
def calls : Visit → List HostCall
  | refused path answer => [.openPath path .readOnly answer]
  | readOut path fd portions closed =>
    .openPath path .readOnly fd ::
      (portions.map (fun p => .read fd readBuffer p.answer) ++ [.close fd closed])

/-- What the visit brings home. -/
def contents? : Visit → Option Bytes
  | refused _ _ => none
  | readOut _ _ portions _ => some (portionBytes portions)

end Visit

variable {σ τ : Type}

/-- Reads of a descriptor one after another, into the same buffer, have these answers. -/
inductive Portions (host : Host σ) (fd : Descriptor) :
    Vector UInt8 readBuffer → σ → List Portion → σ → Prop
  | nil {buffer s} : Portions host fd buffer s [] s
  | cons {buffer s answer buffer' s' ps s''} : host.read fd buffer s = ((answer, buffer'), s') →
    Portions host fd buffer' s' ps s'' → Portions host fd buffer s (⟨answer, buffer'⟩ :: ps) s''

/-- In the state `s` the host answers the calls of the visit so, and is left in the state `s'`. -/
inductive Visit.Happens (host : Host σ) : Visit → σ → σ → Prop
  | refused {path answer s s'} : host.openPath path .readOnly s = (answer, s') →
    Happens host (.refused path answer) s s'
  | readOut {path fd portions closed s s₁ s₂ s'} : host.openPath path .readOnly s = (fd, s₁) →
    Portions host fd (.replicate readBuffer 0) s₁ portions s₂ → host.close fd s₂ = (closed, s') →
    Happens host (.readOut path fd portions closed) s s'

/-- Reading goes on as long as it brings something and the header, of which `got` bytes are known
already, is not too long; it does not stop before. -/
def Exhausted (got : Nat) : List Portion → Prop
  | [] => False
  | p :: ps =>
    if 0 < p.answer ∧ got + p.bytes.length < maxHeaderBytes then Exhausted (got + p.bytes.length) ps
    else ps = []

/-- The visit ends at once where the header is not opened, and otherwise reads as much as it should.
-/
def Visit.Orderly : Visit → Prop
  | .refused _ answer => answer < 0
  | .readOut _ fd portions _ => 0 ≤ fd ∧ Exhausted 0 portions

namespace Exhausted

variable {got : Nat} {ps : List Portion}

/-- All portions of a header are less than one buffer over the bound: the last may reach behind it.
-/
theorem length_portionBytes_lt (h : Exhausted got ps) (short : got < maxHeaderBytes) :
    got + (portionBytes ps).length < maxHeaderBytes + readBuffer := by
  induction ps generalizing got with
  | nil => exact h.elim
  | cons p ps ih =>
    have brought : p.bytes.length ≤ readBuffer := p.length_bytes ▸ Nat.min_le_right ..
    rw [portionBytes, List.flatMap_cons, List.length_append, ← portionBytes]
    rw [Exhausted] at h
    split at h
    next goesOn =>
      have := ih h goesOn.2
      omega
    next =>
      subst h
      rw [portionBytes, List.flatMap_nil, List.length_nil]
      omega

/-- Each read but the last brings a byte. -/
theorem length_le (h : Exhausted got ps) (short : got < maxHeaderBytes) :
    got + ps.length ≤ maxHeaderBytes := by
  induction ps generalizing got with
  | nil => exact h.elim
  | cons p ps ih =>
    rw [Exhausted] at h
    rw [List.length_cons]
    split at h
    next goesOn =>
      have some := p.length_bytes_pos goesOn.1
      have := ih h goesOn.2
      omega
    next =>
      subst h
      exact short

end Exhausted

namespace Visit.Orderly

variable {v : Visit}

/-- The contents of an orderly visit are less than one buffer over the bound. -/
theorem length_contents (h : v.Orderly) :
    ∀ contents ∈ v.contents?, contents.length < maxHeaderBytes + readBuffer := by
  cases v with
  | refused path answer => exact nofun
  | readOut path fd ps closed =>
    rintro _ ⟨⟩
    have := h.2.length_portionBytes_lt (by decide)
    omega

/-- The header is opened and closed, and read a byte at a time at worst. -/
theorem length_calls (h : v.Orderly) : v.calls.length ≤ maxHeaderBytes + 2 := by
  cases v with
  | refused path answer => exact Nat.le_add_left ..
  | readOut path fd ps closed =>
    have := h.2.length_le (by decide)
    rw [calls, List.length_cons, List.length_append, List.length_map, List.length_singleton]
    omega

end Visit.Orderly

/-! ## Fetching makes visits -/

namespace Header

/-- One round of reading, as an equation. -/
theorem readRest_eq (host : Host σ) (fd : Descriptor) (buffer : Vector UInt8 readBuffer)
    (got : Array UInt8) (s : σ) :
    readRest host fd buffer got s =
      let r := host.read fd buffer s
      let p : Portion := ⟨r.1.1, r.1.2⟩
      if 0 < p.answer then
        let got' := got ++ p.bytes.toArray
        if maxHeaderBytes ≤ got'.size then (got', r.2) else readRest host fd p.buffer got' r.2
      else (got, r.2) := by
  have bytes : ∀ p : Portion, p.bytes.toArray =
      p.buffer.toArray.extract 0 (min p.answer.toNat readBuffer) := fun p =>
    Array.ext' (by rw [Portion.bytes, Array.toList_extract, List.extract_eq_take_drop]; rfl)
  simp only [bytes]
  rw [readRest]
  rfl

variable {host : Host σ} {fd : Descriptor}

/-- Reading a header ends with the bytes of all its portions, by induction on them. -/
theorem readRest_of_portions {buffer : Vector UInt8 readBuffer} {s s' : σ} {ps : List Portion}
    (h : Portions host fd buffer s ps s') (got : Array UInt8) (exhausted : Exhausted got.size ps) :
    readRest host fd buffer got s = (got ++ (portionBytes ps).toArray, s') := by
  induction h generalizing got with
  | nil => exact exhausted.elim
  | @cons buffer s answer buffer' s' ps s'' read portions ih =>
    have gotAndFirst : (got ++ (Portion.bytes ⟨answer, buffer'⟩).toArray).size =
        got.size + (Portion.bytes ⟨answer, buffer'⟩).length := by
      rw [Array.size_append]
      rfl
    rw [readRest_eq, read]
    simp only [gotAndFirst]
    rw [Exhausted] at exhausted
    split at exhausted
    next goesOn =>
      rw [if_pos goesOn.1, if_neg (Nat.not_le.mpr goesOn.2), ih _ (gotAndFirst ▸ exhausted)]
      simp [portionBytes]
    next stops =>
      subst exhausted
      cases portions
      by_cases brings : 0 < answer
      · rw [if_pos brings, if_pos (Nat.not_lt.mp fun more => stops ⟨brings, more⟩)]
        simp [portionBytes]
      · rw [if_neg brings]
        simp [portionBytes, Portion.bytes_of_nonpos (p := ⟨answer, buffer'⟩) (Int.not_lt.mp brings)]

/-- Whatever the host answers, reading comes to its end. -/
theorem exists_portions (host : Host σ) (fd : Descriptor) (buffer : Vector UInt8 readBuffer) (s : σ)
    (got : Nat) :
    ∃ ps s', Portions host fd buffer s ps s' ∧ Exhausted got ps := by
  let p : Portion := ⟨(host.read fd buffer s).1.1, (host.read fd buffer s).1.2⟩
  if goesOn : 0 < p.answer ∧ got + p.bytes.length < maxHeaderBytes then
    have some := p.length_bytes_pos goesOn.1
    obtain ⟨ps, s', portions, exhausted⟩ :=
      exists_portions host fd p.buffer (host.read fd buffer s).2 (got + p.bytes.length)
    refine ⟨p :: ps, s', .cons rfl portions, ?_⟩
    rw [Exhausted, if_pos goesOn]
    exact exhausted
  else
    exact ⟨[p], _, .cons rfl .nil, by rw [Exhausted, if_neg goesOn]⟩
termination_by maxHeaderBytes - got
decreasing_by
  exact Nat.sub_lt_sub_left (Nat.lt_of_le_of_lt (Nat.le_add_right ..) goesOn.2)
    (Nat.lt_add_of_pos_right some)

/-- A header is fetched by an orderly visit. -/
theorem exists_visit (host : Host σ) (path : Bytes) (s : σ) :
    ∃ (v : Visit) (s' : σ), v.Happens host s s' ∧ v.Orderly ∧ v.path = path := by
  cases opened : host.openPath path .readOnly s with
  | mk fd s₁ =>
    by_cases refused : fd < 0
    · exact ⟨.refused path fd, s₁, .refused opened, refused, rfl⟩
    · obtain ⟨ps, s₂, portions, exhausted⟩ :=
        exists_portions host fd (.replicate readBuffer 0) s₁ 0
      exact ⟨.readOut path fd ps (host.close fd s₂).1, _, .readOut opened portions rfl,
        ⟨Int.not_lt.mp refused, exhausted⟩, rfl⟩

/-- Fetching a header ends as its visit does. -/
theorem fetch_of_visit {s s' : σ} {v : Visit} (h : v.Happens host s s') (orderly : v.Orderly) :
    fetch host v.path s = (v.contents?, s') := by
  cases h with
  | refused opened =>
    rw [Visit.Orderly] at orderly
    rw [fetch, Visit.path]
    simp only [StateT.run, opened, if_pos orderly]
    rfl
  | readOut opened portions close =>
    obtain ⟨valid, exhausted⟩ := orderly
    have all := readRest_of_portions portions #[] exhausted
    rw [fetch, Visit.path]
    simp only [StateT.run, opened, if_neg (Int.not_lt.mpr valid), all, close, Array.toList_append]
    rfl

end Header

/-! ## What a host serves -/

namespace Host

/-- Opened in this state, the path is read out to its end, and has these contents. -/
def Serves (host : Host σ) (path contents : Bytes) (s : σ) : Prop :=
  ∃ fd s₁ portions last s₂, host.openPath path .readOnly s = (fd, s₁) ∧ 0 ≤ fd ∧
    Portions host fd (.replicate readBuffer 0) s₁ (portions ++ [last]) s₂ ∧
    (∀ p ∈ portions, 0 < p.answer) ∧ last.answer ≤ 0 ∧ portionBytes portions = contents

/-- Headers that were fetched have brought the host from one state to the other. -/
def Fetched (host : Host σ) : σ → σ → Prop :=
  Relation.ReflTransGen fun s s' => ∃ path, (Header.fetch host path s).2 = s'

/-- From this state on, a path has the same contents however often headers are fetched. -/
def Steady (host : Host σ) (s : σ) : Prop :=
  ∀ path s', host.Fetched s s' → (Header.fetch host path s').1 = (Header.fetch host path s).1

/-- A state reached by fetching headers is one of those still after another. -/
theorem Fetched.fetch {host : Host σ} {s s' : σ} (h : host.Fetched s s') (path : Bytes) :
    host.Fetched s (Header.fetch host path s').2 :=
  h.tail ⟨path, rfl⟩

/-- However often headers are fetched from this state on, those of the library are served in full,
and no others are opened. How much a read brings is the host's affair, as long as it brings
something. -/
def Offers (host : Host σ) (library : List (Bytes × Bytes)) (s : σ) : Prop :=
  ∀ s', host.Fetched s s' → ∀ path,
    match library.lookup path with
    | some contents => host.Serves path contents s'
    | none => (host.openPath path .readOnly s').1 < 0

end Host

/-- Of contents that are not too long, reading leaves nothing out. -/
theorem Portions.exhausted_of_served {host : Host σ} {fd : Descriptor}
    {buffer : Vector UInt8 readBuffer} {s s' : σ} {ps : List Portion} {last : Portion}
    (h : Portions host fd buffer s (ps ++ [last]) s') (bring : ∀ p ∈ ps, 0 < p.answer)
    (ends : last.answer ≤ 0) (got : Nat) (fits : got + (portionBytes ps).length ≤ maxHeaderBytes) :
    ∃ qs s'', Portions host fd buffer s qs s'' ∧ Exhausted got qs ∧
    portionBytes qs = portionBytes ps := by
  induction ps generalizing buffer s got with
  | nil =>
    cases h with
    | cons read rest =>
      refine ⟨[⟨_, _⟩], _, .cons read .nil, ?_, ?_⟩
      · rw [Exhausted, if_neg fun goesOn => Int.not_le.mpr goesOn.1 ends]
      · rw [portionBytes, List.flatMap_singleton, Portion.bytes_of_nonpos ends]
        rfl
  | cons p ps ih =>
    rw [portionBytes, List.flatMap_cons, List.length_append, ← portionBytes] at fits
    cases h with
    | @cons _ _ answer buffer' s₁ _ _ read rest =>
      obtain ⟨brings, bring⟩ := List.forall_mem_cons.mp bring
      by_cases goesOn : got + (Portion.bytes ⟨answer, buffer'⟩).length < maxHeaderBytes
      · obtain ⟨qs, s'', portions, exhausted, same⟩ := ih rest bring _ (Nat.add_assoc .. ▸ fits)
        refine ⟨⟨answer, buffer'⟩ :: qs, s'', .cons read portions, ?_, ?_⟩
        · rw [Exhausted, if_pos ⟨brings, goesOn⟩]
          exact exhausted
        · rw [portionBytes, List.flatMap_cons, ← portionBytes, same]
          rfl
      · have nothing : portionBytes ps = [] := List.length_eq_zero_iff.mp (by omega)
        refine ⟨[⟨answer, buffer'⟩], s₁, .cons read .nil, ?_, ?_⟩
        · rw [Exhausted, if_neg fun more => goesOn more.2]
        · rw [portionBytes, List.flatMap_singleton, portionBytes, List.flatMap_cons,
            ← portionBytes, nothing, List.append_nil]

/-- A header that is served, and is not too long, is fetched whole. -/
theorem Header.fetch_of_serves {host : Host σ} {path contents : Bytes} {s : σ}
    (h : host.Serves path contents s) (fits : contents.length ≤ maxHeaderBytes) :
    (fetch host path s).1 = some contents := by
  obtain ⟨fd, s₁, ps, last, s₂, opened, valid, portions, bring, ends, rfl⟩ := h
  obtain ⟨qs, s₃, portions, exhausted, same⟩ :=
    portions.exhausted_of_served bring ends 0 (by omega)
  have visit := fetch_of_visit (.readOut opened portions rfl) ⟨valid, exhausted⟩
  exact (congrArg Prod.fst visit).trans (congrArg some same)

/-- A header whose opening is refused is not fetched. -/
theorem Header.fetch_of_refused {host : Host σ} {path : Bytes} {s : σ}
    (refused : (host.openPath path .readOnly s).1 < 0) : (fetch host path s).1 = none := by
  have happens : (Visit.refused path (host.openPath path .readOnly s).1).Happens host s _ :=
    .refused rfl
  exact congrArg Prod.fst (fetch_of_visit happens refused)

namespace Host.Offers

variable {host : Host σ} {library : List (Bytes × Bytes)} {s : σ} (h : host.Offers library s)
  (fits : ∀ header ∈ library, header.2.length ≤ maxHeaderBytes)
include h fits

/-- In however many portions a header is read, what is fetched is the header of the library. -/
theorem fetch_eq_lookup {s' : σ} (fetched : host.Fetched s s') (path : Bytes) :
    (Header.fetch host path s').1 = library.lookup path := by
  have offered := h s' fetched path
  cases held : library.lookup path with
  | some contents =>
    rw [held] at offered
    obtain ⟨front, behind, eq, -⟩ := List.lookup_eq_some_iff.mp held
    have mem : (path, contents) ∈ library := by
      rw [eq]; exact List.mem_append_right _ List.mem_cons_self
    exact Header.fetch_of_serves offered (fits _ mem)
  | none =>
    rw [held] at offered
    exact Header.fetch_of_refused offered

/-- A host that offers the headers of a library answers steadily, whatever was fetched before. -/
theorem steady : host.Steady s := fun path _ fetched =>
  (h.fetch_eq_lookup fits fetched path).trans (h.fetch_eq_lookup fits .refl path).symm

end Host.Offers

/-! ## Hosts that follow others -/

/-- Seen through `f`, the one host reads headers as the other does. -/
structure Host.Follows (f : τ → σ) (outer : Host τ) (inner : Host σ) : Prop where
  openPath : ∀ path flags t,
    inner.openPath path flags (f t) = (outer.openPath path flags t).map id f
  read : ∀ fd (buffer : Vector UInt8 readBuffer) t,
    inner.read fd buffer (f t) = (outer.read fd buffer t).map id f
  close : ∀ fd t, inner.close fd (f t) = (outer.close fd t).map id f

section Follows

variable {f : τ → σ} {outer : Host τ} {inner : Host σ} (follows : outer.Follows f inner)
include follows

/-- What a host that follows another hands over, the other does. -/
theorem Portions.follow {fd : Descriptor} {buffer : Vector UInt8 readBuffer} {t t' : τ}
    {ps : List Portion} (h : Portions outer fd buffer t ps t') :
    Portions inner fd buffer (f t) ps (f t') := by
  induction h with
  | nil => exact .nil
  | cons read rest ih => exact .cons (by rw [follows.read, read]; rfl) ih

/-- As `Portions.follow`, for a whole visit. -/
theorem Visit.Happens.follow {t t' : τ} {v : Visit} (h : v.Happens outer t t') :
    v.Happens inner (f t) (f t') := by
  cases h with
  | refused opened => exact .refused (by rw [follows.openPath, opened]; rfl)
  | readOut opened portions closed =>
    exact .readOut (by rw [follows.openPath, opened]; rfl) (portions.follow follows)
      (by rw [follows.close, closed]; rfl)

/-- As `Portions.follow`, for fetching. -/
theorem Header.fetch_follow (path : Bytes) (t : τ) :
    fetch inner path (f t) = (fetch outer path t).map id f := by
  obtain ⟨v, t', happens, orderly, rfl⟩ := exists_visit outer path t
  rw [fetch_of_visit happens orderly, fetch_of_visit (happens.follow follows) orderly]
  rfl

end Follows

end BareC
