import BareC.Proofs.Lexing.Readings

/-!
# Sources joined at the end of a line

Nothing that is read in front of the end of a line looks beyond it. So where two sources are joined
at the end of a line, the first is read as if it were alone (`Reads.append_of_closed`), and the
second as if it began there. A line can only be joined to the next by a backslash at its end.

There is one lemma for each function of the scanner, and the condition is the same in all of them:
the test that decides where a run of characters ends fails at a line end. A comment that is left
open, and a string that is, are faults and not covered; behind those nothing is read.
-/

namespace BareC.Token

/-- Where `s` is followed by `b`, a line ends: with the last character of `s` or the first of `b`.
-/
def Closed (s b : List Char) : Prop :=
  s.getLast? = some '\n' ∨ b.head? = some '\n'

namespace Closed

variable {s b : List Char} {d : Char}

/-- What is closed by a line end is so behind a character that is none. -/
theorem tail (h : Closed (d :: s) b) (notEnd : d ≠ '\n') : Closed s b := by
  cases s with
  | nil => exact h.imp_left fun last => absurd (Option.some.inj last) notEnd
  | cons => rwa [Closed, List.getLast?_cons_cons] at h

/-- Nothing in front of it, the line end stands next. -/
theorem eq_cons (h : Closed [] b) : ∃ b', b = '\n' :: b' := by
  rcases h with last | first
  · cases last
  · exact List.head?_eq_some_iff.mp first

/-- What is at the head is the first character of `s`, unless it is the end of a line. -/
theorem exists_eq_cons {x : Char} {rest : List Char} (h : Closed s b) (eq : s ++ b = x :: rest)
    (notEnd : x ≠ '\n') : ∃ rest', s = x :: rest' := by
  cases s with
  | nil =>
    obtain ⟨b, rfl⟩ := h.eq_cons
    exact absurd (List.cons.inj eq).1.symm notEnd
  | cons d s => exact ⟨s, by rw [(List.cons.inj eq).1]⟩

variable {p : Char → Bool}

/-- A test that line ends fail takes nothing behind one. -/
theorem takeWhile_append (h : Closed s b) (stops : p '\n' = false) :
    (s ++ b).takeWhile p = s.takeWhile p := by
  induction s with
  | nil =>
    obtain ⟨b, rfl⟩ := h.eq_cons
    rw [List.nil_append, List.takeWhile_cons, stops]
    rfl
  | cons d s ih =>
    rw [List.cons_append, List.takeWhile_cons, List.takeWhile_cons]
    split
    next goesOn => rw [ih (h.tail fun eq => by rw [eq, stops] at goesOn; cases goesOn)]
    next => rfl

/-- As `Closed.takeWhile_append`, for what it leaves. -/
theorem dropWhile_append (h : Closed s b) (stops : p '\n' = false) :
    (s ++ b).dropWhile p = s.dropWhile p ++ b := by
  induction s with
  | nil =>
    obtain ⟨b, rfl⟩ := h.eq_cons
    rw [List.nil_append, List.dropWhile_cons, stops]
    rfl
  | cons d s ih =>
    rw [List.cons_append, List.dropWhile_cons, List.dropWhile_cons]
    split
    next goesOn => exact ih (h.tail fun eq => by rw [eq, stops] at goesOn; cases goesOn)
    next => rfl

/-- What such a test leaves is closed. -/
theorem dropWhile (h : Closed s b) (stops : p '\n' = false) : Closed (s.dropWhile p) b := by
  induction s with
  | nil => exact h
  | cons d s ih =>
    rw [List.dropWhile_cons]
    split
    next goesOn => exact ih (h.tail fun eq => by rw [eq, stops] at goesOn; cases goesOn)
    next => exact h

/-- What is on one line cannot reach over the end of it. -/
theorem prefix_append_iff (h : Closed s b) {op : List Char} (oneLine : '\n' ∉ op) :
    op <+: s ++ b ↔ op <+: s := by
  refine ⟨fun atHead => ?_, fun atHead => atHead.trans (List.prefix_append s b)⟩
  induction op generalizing s with
  | nil => exact List.nil_prefix
  | cons o op ih =>
    rw [List.mem_cons, not_or] at oneLine
    cases s with
    | nil =>
      obtain ⟨b, rfl⟩ := h.eq_cons
      exact absurd (List.cons_prefix_cons.mp atHead).1.symm oneLine.1
    | cons d s =>
      obtain ⟨rfl, behind⟩ := List.cons_prefix_cons.mp atHead
      exact List.cons_prefix_cons.mpr ⟨rfl, ih (h.tail (Ne.symm oneLine.1)) oneLine.2 behind⟩

/-- A look at the next character does not reach behind the line end. -/
theorem any_head?_append (h : Closed s b) (stops : p '\n' = false) :
    (s ++ b).head?.any p = s.head?.any p := by
  cases s with
  | nil =>
    obtain ⟨b, rfl⟩ := h.eq_cons
    exact stops
  | cons => rfl

end Closed

/-! ## Items -/

/-- The item with more of the source behind it. -/
def Scan.append (b : List Char) : Scan → Scan
  | .newline rest => .newline (rest ++ b)
  | .splice rest => .splice (rest ++ b)
  | .blank lines rest => .blank lines (rest ++ b)
  | .token kind text value rest => .token kind text value (rest ++ b)
  | .fault cause lines => .fault cause lines

section

variable {s b : List Char} {c : Char}

/-- A closed comment is scanned alike whatever follows. -/
theorem scanComment_append {lines : Nat} (ok : (scanComment lines s).isFault = false) :
    scanComment lines (s ++ b) = (scanComment lines s).append b := by
  fun_induction scanComment lines s with
  | case1 => rfl
  | case2 lines c d rest notClosed ih =>
    rw [List.cons_append, List.cons_append, scanComment.eq_2 _ _ _ _ notClosed]
    exact ih ok
  | case3 => cases ok

/-- As `scanComment_append`, for digits in front of a line end. -/
theorem scanDigits_append {radix start : Nat} {lead : List Char} (small : radix ≤ 16)
    (closed : Closed s b) :
    scanDigits radix lead start (s ++ b) = (scanDigits radix lead start s).append b := by
  have noDigit : isDigitOf radix '\n' = false :=
    decide_eq_false (Nat.not_lt.mpr (show radix ≤ digitValue '\n' from small))
  have noSuffix : isIntegerSuffix '\n' = false := by decide
  have behind := closed.dropWhile noDigit
  have behindAll := behind.dropWhile noSuffix
  simp only [scanDigits, closed.takeWhile_append noDigit, closed.dropWhile_append noDigit,
    behind.takeWhile_append noSuffix, behind.dropWhile_append noSuffix,
    behindAll.any_head?_append (by decide : continuesNumber '\n' = false)]
  repeat' split
  all_goals rfl

/-- As `scanDigits_append`, with the prefix of the radix. -/
theorem scanNumber_append (closed : Closed s b) :
    scanNumber c (s ++ b) = (scanNumber c s).append b := by
  rw [scanNumber.eq_def c s]
  split
  next rest => exact scanDigits_append (by decide) (closed.tail (by decide))
  next rest => exact scanDigits_append (by decide) (closed.tail (by decide))
  next no no' =>
    rw [scanNumber.eq_3]
    · exact scanDigits_append (by decide) closed
    · exact fun _ eq => (closed.exists_eq_cons eq (by decide)).elim no
    · exact fun _ eq => (closed.exists_eq_cons eq (by decide)).elim no'
  next notZero _ _ =>
    rw [scanNumber.eq_4 _ _ notZero (fun _ zero => (notZero zero).elim) fun _ zero =>
      (notZero zero).elim]
    exact scanDigits_append (by decide) closed

/-- As `scanComment_append`, for a string. -/
theorem scanString_append {read : List Char} (ok : (scanString read s).isFault = false) :
    scanString read (s ++ b) = (scanString read s).append b := by
  fun_induction scanString read s with
  | case1 => rfl
  | case2 read e rest d escape ih =>
    rw [List.cons_append, List.cons_append, scanString, escape]
    exact ih ok
  | case3 | case4 | case6 => cases ok
  | case5 read c rest notQuote notEscape plain ih =>
    have noBackslash : c ≠ '\\' := fun eq => plain (by simp [eq])
    rw [List.cons_append, scanString.eq_3 _ _ _ notQuote fun _ _ eq => (noBackslash eq).elim,
      if_neg plain]
    exact ih ok

/-- As `scanComment_append`, for the quote behind a character. -/
theorem closeCharacter_append {text : List Char} (ok : (closeCharacter text c s).isFault = false) :
    closeCharacter text c (s ++ b) = (closeCharacter text c s).append b := by
  unfold closeCharacter at ok ⊢
  split at ok
  next => rfl
  next => cases ok

/-- As `scanComment_append`, for a character. -/
theorem scanCharacter_append (ok : (scanCharacter s).isFault = false) :
    scanCharacter (s ++ b) = (scanCharacter s).append b := by
  unfold scanCharacter at ok
  split at ok
  next e rest =>
    rw [List.cons_append, List.cons_append, scanCharacter, scanCharacter]
    split at ok
    next => exact closeCharacter_append ok
    next => cases ok
  next d rest notEscape =>
    split at ok
    next => cases ok
    next plain =>
      have noBackslash : d ≠ '\\' := fun eq => plain (by simp [eq])
      have same : ∀ rest, scanCharacter (d :: rest) = closeCharacter ['\'', d, '\''] d rest := by
        intro rest
        rw [scanCharacter.eq_2 _ _ fun _ _ eq => (noBackslash eq).elim, if_neg plain]
      rw [List.cons_append, same, same]
      exact closeCharacter_append ok
  next => cases ok

/-- As `scanDigits_append`, for the length of an operator. -/
theorem operatorLength_append (closed : Closed s b) :
    operatorLength (s ++ b) = operatorLength s := by
  have same : ∀ ops : List (List Char), (∀ op ∈ ops, '\n' ∉ op) →
      ops.any (·.isPrefixOf (s ++ b)) = ops.any (·.isPrefixOf s) := by
    intro ops oneLine
    rw [Bool.eq_iff_iff, List.any_eq_true, List.any_eq_true]
    simp only [List.isPrefixOf_iff_prefix]
    exact exists_congr fun op => and_congr_right fun mem =>
      closed.prefix_append_iff (oneLine op mem)
  rw [operatorLength, operatorLength, same _ (by decide), same _ (by decide)]

/-- As `scanDigits_append`, for an operator. -/
theorem scanOperator_append (closed : Closed (c :: s) b) :
    scanOperator c (s ++ b) = (scanOperator c s).append b := by
  have fits := operatorLength_le_length c s
  have enough : operatorLength (c :: s) - 1 ≤ s.length := Nat.sub_le_of_le_add fits
  rw [scanOperator, ← List.cons_append, operatorLength_append closed, scanOperator, Scan.append,
    List.take_append_of_le_length enough, List.drop_append_of_le_length enough]

/-- At the end of a line an item is read as if nothing came behind it, except for a backslash. -/
theorem scan_append (closed : Closed (c :: s) b) (apart : c = '\\' → s = [] → b.head? ≠ some '\n')
    (ok : (scan c s).isFault = false) : scan c (s ++ b) = (scan c s).append b := by
  unfold scan at ok
  split at ok
  case h_1 => rfl
  case h_2 => rfl
  case h_3 rest =>
    have behind : Closed rest b := (closed.tail (by decide)).tail (by decide)
    rw [List.cons_append, scan, scan, behind.dropWhile_append (by decide)]
    rfl
  case h_4 rest => exact scanComment_append ok
  case h_5 => exact scanString_append ok
  case h_6 => exact scanCharacter_append ok
  case h_7 notNewline notString notCharacter notSplice notLine notBlock =>
    have behind : Closed s b := closed.tail notNewline
    have notSplice' : ∀ rest, c = '\\' → s ++ b = '\n' :: rest → False := by
      intro rest backslash eq
      cases s with
      | nil => exact apart backslash rfl (by rw [← List.nil_append b, eq]; rfl)
      | cons d s => exact notSplice s backslash (by rw [(List.cons.inj eq).1])
    rw [scan.eq_7 c s notNewline notString notCharacter notSplice notLine notBlock,
      scan.eq_7 c (s ++ b) notNewline notString notCharacter notSplice'
        (fun _ slash eq => (behind.exists_eq_cons eq (by decide)).elim (notLine · slash))
        (fun _ slash eq => (behind.exists_eq_cons eq (by decide)).elim (notBlock · slash)),
      scanNumber_append behind, scanOperator_append closed, scanWord, scanWord,
      behind.takeWhile_append (by decide), behind.dropWhile_append (by decide)]
    repeat' split
    all_goals rfl

end

/-! ## Readings -/

namespace Scan

variable (b : List Char) (item : Scan)

theorem isFault_append : (item.append b).isFault = item.isFault := by cases item <;> rfl

/-- What follows does not move the position. -/
theorem after_append (p : Position) : (item.append b).after p = item.after p := by
  cases item <;> rfl

/-- What follows does not change the tokens. -/
theorem tokens_append (p : Position) : (item.append b).tokens p = item.tokens p := by
  cases item <;> rfl

/-- What follows stands behind the rest. -/
theorem rest_append (ok : item.isFault = false) : (item.append b).rest = item.rest ++ b := by
  cases item with
  | fault => cases ok
  | _ => rfl

end Scan

/-- The last character behind an item is the last of all. -/
theorem getLast?_rest {c : Char} {s : List Char} (some : (scan c s).rest ≠ []) :
    (scan c s).rest.getLast? = (c :: s).getLast? := by
  obtain ⟨taken, eq⟩ := scan_rest_suffix c s
  rw [← eq, List.getLast?_append, List.getLast?_eq_some_getLast some]
  rfl

/-- A source that is read to its end is read alike in front of another, if a line ends between them
and no backslash joins them. -/
theorem Reads.append_of_closed {p q : Position} {s : List Char} {ts : List Token}
    (h : Reads p s ts q []) {b : List Char} (closed : s = [] ∨ Closed s b)
    (apart : s.getLast? = some '\\' → b.head? ≠ some '\n') : Reads p (s ++ b) ts q b := by
  generalize atEnd : ([] : List Char) = r at h
  induction h with
  | refl p s => rw [← atEnd]; exact .refl p b
  | @item p c s ts q r ok _ ih =>
    have closed : Closed (c :: s) b := closed.resolve_left (List.cons_ne_nil c s)
    have append :=
      scan_append closed (fun backslash alone => apart (by rw [backslash, alone]; rfl)) ok
    have reads : Reads ((scan c s).after p) ((scan c s).rest ++ b) ts q b := by
      by_cases none : (scan c s).rest = []
      · exact ih (.inl none) (fun last => by rw [none] at last; cases last) atEnd
      · have last := getLast?_rest none
        exact ih (.inr (closed.imp_left fun h => last.trans h)) (fun h => apart (last ▸ h)) atEnd
    rw [List.cons_append, ← (scan c s).tokens_append b]
    rw [← (scan c s).after_append b, ← Scan.rest_append b _ ok] at reads
    rw [← append] at reads ⊢
    refine .item ?_ reads
    rw [append, Scan.isFault_append, ok]

end BareC.Token
