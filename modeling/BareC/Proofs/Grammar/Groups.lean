import BareC.Proofs.Grammar.Local
import BareC.Token.Scan

/-!
# Complete declarations

A declaration is complete if it is well delimited, whatever else is wrong with it: a header and a
semicolon, or a header and a body in which the braces are balanced. Such a declaration is closed
where its last token stands, and nowhere before.

Braces and semicolons are punctuation here. A token could also be a name that is spelled like one of
them; that the tokens of a source never are is shown last.

Completeness is a property of tokens that can be decided without the grammar, by counting braces. It
does not say that the declaration is any good: a body may be full of mistakes, and the header may
declare what cannot be declared.

A declaration that is not complete, with a brace or a parenthesis that is never closed, can take the
next ones with it. There is nothing about those in this module or behind it.
-/

namespace BareC.Grammar

/-- In these tokens every brace that is opened is closed. -/
inductive Balanced : List Token → Prop
  | nil : Balanced []
  | token {t ts} : t.is "\x7b" = false → t.is "\x7d" = false → Balanced ts → Balanced (t :: ts)
  | braces {opening closing ts us} : opening.is "\x7b" = true → closing.is "\x7d" = true →
    Balanced ts → Balanced us → Balanced (opening :: ts ++ closing :: us)

/-- What stands in front of a body or of the semicolon of a prototype. -/
def IsHeader (ts : List Token) : Prop :=
  ∀ t ∈ ts, ∀ s ∈ Token.reserved false, t.is s = false

instance (ts : List Token) : Decidable (IsHeader ts) :=
  inferInstanceAs (Decidable (∀ t ∈ ts, ∀ s ∈ Token.reserved false, t.is s = false))

/-- Where a declaration ends: at a semicolon, or at the end of its body. -/
inductive Shape : (hasBody : Bool) → List Token → Prop
  | semicolon {header t} : IsHeader header → t.is ";" = true → Shape false (header ++ [t])
  | body {header opening ts closing} : IsHeader header → opening.is "\x7b" = true → Balanced ts →
    closing.is "\x7d" = true → Shape true (header ++ opening :: (ts ++ [closing]))

/-- A well delimited declaration without markers. -/
structure Complete (hasBody : Bool) (ts : List Token) : Prop where
  inside : ∀ t ∈ ts, Inside t
  shape : Shape hasBody ts

/-! ## The end is the last token -/

/-- A closing brace at depth one ends its declaration. -/
theorem endsAt_of_closing {t : Token} (h : t.is "\x7d" = true) : endsAt 1 t = true := by
  rw [endsAt, Cursor.depthAfter_of_closing h, h]
  rfl

/-- A semicolon leaves the depth as it is. -/
theorem Cursor.depthAfter_of_semicolon {t : Token} (h : t.is ";" = true) (depth : Nat) :
    Cursor.depthAfter depth t = depth := by
  simp only [Cursor.depthAfter, Token.is_eq_false h (by decide : ";" ≠ "\x7b"),
    Token.is_eq_false h (by decide : ";" ≠ "\x7d"), Bool.false_eq_true, if_false]

/-- A semicolon outside every brace ends its declaration. -/
theorem endsAt_of_semicolon {t : Token} (h : t.is ";" = true) : endsAt 0 t = true := by
  rw [endsAt, Cursor.depthAfter_of_semicolon h, h, Bool.or_true]
  rfl

/-- A header in front of what closes a declaration closes it too. -/
theorem IsHeader.closes {ts rest : List Token} (h : IsHeader ts) (inside : ∀ t ∈ ts, Inside t)
    (closes : Closes 0 rest) : Closes 0 (ts ++ rest) := by
  induction ts with
  | nil => exact closes
  | cons t ts ih =>
    obtain ⟨free, h⟩ := List.forall_mem_cons.mp h
    obtain ⟨here, inside⟩ := List.forall_mem_cons.mp inside
    have opening := free "\x7b" (by decide)
    have closing := free "\x7d" (by decide)
    have semicolon := free ";" (by decide)
    refine ⟨here, ?_⟩
    simp only [endsAt, Cursor.depthAfter, opening, closing, semicolon, Bool.false_eq_true, if_false,
      Bool.or_false, Bool.and_false]
    exact ih h inside

/-- Between balanced braces nothing ends while the brace around them is open. -/
theorem Balanced.closes {ts rest : List Token} (h : Balanced ts) (inside : ∀ t ∈ ts, Inside t)
    {depth : Nat} (closes : Closes (depth + 1) rest) : Closes (depth + 1) (ts ++ rest) := by
  have goesOn : ∀ {t us d d'}, Inside t → Cursor.depthAfter d t = d' + 1 → Closes (d' + 1) us →
      Closes d (t :: us) := by
    intro t us d d' here same closes
    refine ⟨here, ?_⟩
    rw [endsAt_eq_false (same ▸ Nat.succ_ne_zero d'), if_neg Bool.false_ne_true, same]
    exact closes
  induction h generalizing depth rest with
  | nil => exact closes
  | @token t ts opening closing _ ih =>
    obtain ⟨here, inside⟩ := List.forall_mem_cons.mp inside
    refine goesOn here ?_ (ih inside closes)
    rw [Cursor.depthAfter, opening, closing]
    rfl
  | @braces o c ts us opening closing _ _ ihts ihus =>
    rw [List.cons_append, List.cons_append, List.append_assoc, List.cons_append]
    obtain ⟨first, inside⟩ := List.forall_mem_cons.mp inside
    obtain ⟨insideTs, inside⟩ := List.forall_mem_append.mp inside
    obtain ⟨last, insideUs⟩ := List.forall_mem_cons.mp inside
    refine goesOn first (Cursor.depthAfter_of_opening opening _) (ihts insideTs ?_)
    exact goesOn last (Cursor.depthAfter_of_closing closing _) (ihus insideUs closes)

namespace Complete

variable {hasBody : Bool} {ts : List Token}

/-- A complete declaration is closed by its last token. -/
theorem closes (h : Complete hasBody ts) : Closes 0 ts := by
  obtain ⟨inside, shape⟩ := h
  cases shape with
  | @semicolon header t isHeader semicolon =>
    obtain ⟨insideHeader, last⟩ := List.forall_mem_append.mp inside
    refine isHeader.closes insideHeader ⟨List.forall_mem_singleton.mp last, ?_⟩
    rw [if_pos (endsAt_of_semicolon semicolon)]
  | @body header o ts c isHeader opening balanced closing =>
    obtain ⟨insideHeader, inside⟩ := List.forall_mem_append.mp inside
    obtain ⟨first, inside⟩ := List.forall_mem_cons.mp inside
    obtain ⟨insideBody, last⟩ := List.forall_mem_append.mp inside
    have deeper := Cursor.depthAfter_of_opening opening 0
    refine isHeader.closes insideHeader ⟨first, ?_⟩
    rw [endsAt_eq_false (deeper ▸ Nat.succ_ne_zero 0), if_neg Bool.false_ne_true, deeper]
    refine balanced.closes insideBody ⟨List.forall_mem_singleton.mp last, ?_⟩
    rw [if_pos (endsAt_of_closing closing)]

/-- A declaration with a body does not end in a semicolon. -/
theorem not_semicolon_of_suffix (h : Complete true ts) {t : Token} (last : [t] <:+ ts) :
    t.is ";" = false := by
  obtain ⟨-, shape⟩ := h
  cases shape with
  | @body header o ts c isHeader opening balanced closing =>
    have same : t = c := by
      obtain ⟨front, eq⟩ := last
      rw [← List.cons_append, ← List.append_assoc] at eq
      exact List.singleton_inj.mp (List.append_inj_right' eq rfl)
    exact Token.is_eq_false (same ▸ closing) (by decide)

end Complete

end BareC.Grammar

/-! ## Names are not spelled like punctuation -/

namespace BareC.Token

/-- If the item is a word, it begins with a letter or an underscore. -/
def Scan.WellSpelled : Scan → Prop
  | .token .ident text _ _ => ∃ w ws, text = w :: ws ∧ isWordStart w = true
  | _ => True

/-- A comment is no token. -/
theorem wellSpelled_scanComment (lines : Nat) (s : List Char) :
    (scanComment lines s).WellSpelled := by
  fun_induction scanComment lines s with
  | case1 | case3 => trivial
  | case2 _ _ _ _ _ ih => exact ih

/-- Digits are spelled as no identifier. -/
theorem wellSpelled_scanDigits (radix : Nat) (lead : List Char) (start : Nat) (s : List Char) :
    (scanDigits radix lead start s).WellSpelled := by
  simp only [scanDigits]
  repeat' split
  all_goals trivial

/-- As `wellSpelled_scanDigits`, with the prefix of the radix. -/
theorem wellSpelled_scanNumber (c : Char) (s : List Char) : (scanNumber c s).WellSpelled := by
  unfold scanNumber
  split <;> exact wellSpelled_scanDigits _ _ _ _

/-- A string is no identifier, and neither is the marker of an unclosed one. -/
theorem wellSpelled_scanString (read s : List Char) : (scanString read s).WellSpelled := by
  fun_induction scanString read s <;> first | assumption | trivial

/-- As `wellSpelled_scanString`, for the end of a character. -/
theorem wellSpelled_closeCharacter (text : List Char) (c : Char) (s : List Char) :
    (closeCharacter text c s).WellSpelled := by
  unfold closeCharacter
  split <;> trivial

/-- As `wellSpelled_scanString`, for a character. -/
theorem wellSpelled_scanCharacter (s : List Char) : (scanCharacter s).WellSpelled := by
  unfold scanCharacter
  repeat' split
  all_goals first | exact wellSpelled_closeCharacter _ _ _ | trivial

/-- Whatever is scanned is well spelled, one case for each kind of lexeme. -/
theorem wellSpelled_scan (c : Char) (s : List Char) : (scan c s).WellSpelled := by
  unfold scan
  split
  case h_4 => exact wellSpelled_scanComment _ _
  case h_5 => exact wellSpelled_scanString _ _
  case h_6 => exact wellSpelled_scanCharacter _
  case h_7 =>
    split
    next => trivial
    next =>
      split
      next => exact wellSpelled_scanNumber _ _
      next =>
        split
        next isWord => exact ⟨_, _, rfl, isWord⟩
        next => split <;> trivial
  all_goals trivial

/-- Only identifiers can be ill spelled. -/
theorem wellSpelled_of_not_ident {t : Token} (h : t.kind ≠ .ident) : t.WellSpelled :=
  fun _ _ is => (kind_of_is is).resolve_left h

/-- A token that begins as a word is well spelled. -/
theorem wellSpelled_of_word {t : Token} {w : Char} {ws : List Char}
    (text : t.text = String.ofList (w :: ws)) (isWord : isWordStart w = true) : t.WellSpelled := by
  intro s mem is
  have first : s.toList.head? = some w := by rw [← text_of_is is, text, String.toList_ofList]; rfl
  have reserved : ∀ s ∈ reserved false, s.toList.head?.all (!isWordStart ·) = true := by decide
  have noWord := reserved s mem
  rw [first, Option.all_some, isWord] at noWord
  cases noWord

/-- So are all tokens of a source, by induction on what is left of it. -/
theorem wellSpelled_scanAll (p : Position) (s : List Char) (read : Array Token)
    (h : ∀ t ∈ read, t.WellSpelled) : ∀ t ∈ scanAll p s read, t.WellSpelled := by
  have push : ∀ {read : Array Token} {u : Token}, (∀ t ∈ read, t.WellSpelled) → u.WellSpelled →
      ∀ t ∈ read.push u, t.WellSpelled := by
    intro read u h last t mem
    exact (Array.mem_push.mp mem).elim (h t) fun same => same ▸ last
  have other : ∀ {u : Token}, u.kind ≠ .ident → u.WellSpelled := wellSpelled_of_not_ident
  fun_induction scanAll p s read with
  | case1 p read => exact push h (other Kind.noConfusion)
  | case2 _ _ _ _ _ _ ih | case3 _ _ _ _ _ _ ih | case4 _ _ _ _ _ _ _ ih => exact ih h
  | case5 p read c s kind text value rest item t ih =>
    refine ih (push h ?_)
    have spelled := wellSpelled_scan c s
    rw [item] at spelled
    by_cases word : kind = .ident
    · subst word
      obtain ⟨w, ws, rfl, isWord⟩ := spelled
      exact wellSpelled_of_word rfl isWord
    · exact other word
  | case6 => exact push (push h (other Kind.noConfusion)) (other Kind.noConfusion)

/-- In a source the names are spelled like names. -/
theorem wellSpelled_of_mem_ofSource {source : Bytes} {t : Token} (mem : t ∈ ofSource source) :
    t.WellSpelled :=
  wellSpelled_scanAll {} _ #[] nofun t (Array.mem_toList_iff.mp mem)

end BareC.Token
