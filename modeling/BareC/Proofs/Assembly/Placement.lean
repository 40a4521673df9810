import BareC.Assembly

/-!
# Where assembly lies

Linked code is read back piece by piece: `Placed whole i a` says that `a` lies at word `i` of the
code linked from `whole`, every word of it where it belongs, every jump aimed at the place of its
label, and every mark at the place that its label stands for. The predicate splits over `++`, so
that the pieces of a construct are found where the construct was put together.

A mark holds its label only if the label is not marked again behind it. So a piece is placed if no
label of it is marked twice in it or once more behind it.

The last part is for examples. Reading the words of a unit from a memory and comparing them one by
one takes the evaluation of a check (`wordsAt`, `link_eq_wordsAt`), and no more.

Nothing in this module depends on what a word means. That an instruction comes back from its word as
it was generated, and what a machine does at it, are other matters.
-/

namespace BareC.Assembly

/-! ## Sizes and marks -/

@[simp]
theorem size_nil : size [] = 0 :=
  rfl

@[simp]
theorem size_cons (item : AsmItem) (a : Assembly) : size (item :: a) = item.size + size a :=
  rfl

/-- Sizes add up. -/
@[simp]
theorem size_append (a b : Assembly) : size (a ++ b) = size a + size b := by
  induction a with
  | nil => exact (Nat.zero_add _).symm
  | cons item a ih => rw [List.cons_append, size_cons, size_cons, ih, Nat.add_assoc]

/-- The labels marked in a piece of code. -/
def marks : Assembly → List Label
  | [] => []
  | .mark l :: a => l :: marks a
  | .word _ :: a | .jump _ _ :: a => marks a

@[simp]
theorem marks_nil : marks [] = [] :=
  rfl

@[simp]
theorem marks_mark (l : Label) (a : Assembly) : marks (.mark l :: a) = l :: marks a :=
  rfl

@[simp]
theorem marks_word (w : Word) (a : Assembly) : marks (.word w :: a) = marks a :=
  rfl

@[simp]
theorem marks_jump (rd : Word) (l : Label) (a : Assembly) : marks (.jump rd l :: a) = marks a :=
  rfl

/-- A piece has the marks of its parts, in their order. -/
@[simp]
theorem marks_append (a b : Assembly) : marks (a ++ b) = marks a ++ marks b := by
  induction a with
  | nil => rfl
  | cons item a ih => cases item <;> simp [ih]

/-! ## Places of labels -/

/-- The places of a second part are counted from where the first one ends. -/
theorem places_append (a b : Assembly) (start : Nat) (known : Std.HashMap Label Nat) :
    places (a ++ b) start known = places b (start + size a) (places a start known) := by
  induction a generalizing start known with
  | nil => rfl
  | cons item a ih =>
    rw [size_cons, ← Nat.add_assoc]
    cases item with
    | word w => exact ih (start + 1) known
    | jump rd l => exact ih (start + 1) known
    | mark l => exact ih start (known.insert l start)

/-- Code that does not mark a label leaves its place alone. -/
theorem getElem?_places_of_not_mem {a : Assembly} {l : Label} (h : l ∉ a.marks) (start : Nat)
    (known : Std.HashMap Label Nat) : (places a start known)[l]? = known[l]? := by
  induction a generalizing start known with
  | nil => rfl
  | cons item a ih =>
    cases item with
    | word w => exact ih h (start + 1) known
    | jump rd l' => exact ih h (start + 1) known
    | mark l' =>
      rw [marks_mark, List.mem_cons, not_or] at h
      rw [places, ih h.2, Std.HashMap.getElem?_insert, if_neg]
      simpa using Ne.symm h.1

/-- A label stands for the place of its last mark. -/
theorem getElem?_places_mark {pre post : Assembly} {l : Label} (h : l ∉ post.marks) :
    (places (pre ++ .mark l :: post) 0 ∅)[l]? = some pre.size := by
  rw [places_append, places, getElem?_places_of_not_mem h, Std.HashMap.getElem?_insert_self,
    Nat.zero_add]

/-- A label is marked between the two ends of the code. -/
theorem le_of_getElem?_places {a : Assembly} {l : Label} {start i : Nat}
    {known : Std.HashMap Label Nat} (h : (places a start known)[l]? = some i) :
    known[l]? = some i ∨ i ≤ start + a.size := by
  induction a generalizing start known with
  | nil => exact .inl h
  | cons item a ih =>
    rw [size_cons, ← Nat.add_assoc]
    cases item with
    | word w => exact ih h
    | jump rd l' => exact ih h
    | mark l' =>
      rcases ih h with before | le
      · rw [Std.HashMap.getElem?_insert] at before
        split at before
        next =>
          cases before
          exact .inr (Nat.le_add_right ..)
        next => exact .inl before
      · exact .inr le

/-! ## Words of linked code -/

/-- The words of code that begins at word `i`. -/
def wordsFrom (places : Std.HashMap Label Nat) : (i : Nat) → Assembly → List Word
  | _, [] => []
  | i, .word w :: a => w :: wordsFrom places (i + 1) a
  | i, .jump rd l :: a =>
    Encode.jal rd (offset i (places[l]?.getD i)) :: wordsFrom places (i + 1) a
  | i, .mark _ :: a => wordsFrom places i a

/-- Emitting appends words, and looks at those that are there for nothing but their number. -/
theorem toList_emit (places : Std.HashMap Label Nat) (a : Assembly) (out : Array Word) :
    (emit places a out).toList = out.toList ++ wordsFrom places out.size a := by
  induction a generalizing out with
  | nil => simp [emit, wordsFrom]
  | cons item a ih => cases item <;> simp [emit, wordAt?, wordsFrom, ih]

/-- Linked code is the words of its items, every jump with the place of its label. -/
theorem link_eq_wordsFrom (a : Assembly) : a.link = wordsFrom (a.places 0 ∅) 0 a := by
  rw [link, toList_emit]
  rfl

/-! ### Without a table

A table of places cannot be computed with in a proof, since the hash of a name says nothing. The
last mark of a label can be looked for instead. -/

/-- The place of the last mark of a label in code that begins at word `i`. -/
def lastMark? (l : Label) : (i : Nat) → Assembly → Option Nat
  | _, [] => none
  | i, .mark l' :: a => (lastMark? l i a).or (if l' = l then some i else none)
  | i, .word _ :: a | i, .jump _ _ :: a => lastMark? l (i + 1) a

/-- The table of places has the last mark of every label, or what it had before. -/
theorem getElem?_places (a : Assembly) (start : Nat) (known : Std.HashMap Label Nat) (l : Label) :
    (places a start known)[l]? = (lastMark? l start a).or known[l]? := by
  induction a generalizing start known with
  | nil => rfl
  | cons item a ih =>
    cases item with
    | word w => exact ih (start + 1) known
    | jump rd l' => exact ih (start + 1) known
    | mark l' =>
      rw [places, ih, Std.HashMap.getElem?_insert, lastMark?, Option.or_assoc]
      by_cases same : l' = l <;> simp [same]

/-- The words of code that begins at word `i`, with its labels at these places. -/
def wordsAt (place? : Label → Option Nat) : (i : Nat) → Assembly → List Word
  | _, [] => []
  | i, .word w :: a => w :: wordsAt place? (i + 1) a
  | i, .jump rd l :: a => Encode.jal rd (offset i ((place? l).getD i)) :: wordsAt place? (i + 1) a
  | i, .mark _ :: a => wordsAt place? i a

/-- Of a table of places nothing matters but what it says of labels. -/
theorem wordsFrom_eq_wordsAt {places : Std.HashMap Label Nat} {place? : Label → Option Nat}
    (same : ∀ l, places[l]? = place? l) (i : Nat) (a : Assembly) :
    wordsFrom places i a = wordsAt place? i a := by
  induction a generalizing i with
  | nil => rfl
  | cons item a ih => cases item <;> simp [wordsFrom, wordsAt, same, ih]

/-- Linking is the same when the last mark of each label is looked for. -/
theorem link_eq_wordsAt (a : Assembly) : a.link = wordsAt (lastMark? · 0 a) 0 a := by
  rw [link_eq_wordsFrom]
  exact wordsFrom_eq_wordsAt (fun l => by simp [getElem?_places]) 0 a

/-- Code has as many words as its size says. -/
theorem length_wordsFrom (places : Std.HashMap Label Nat) (i : Nat) (a : Assembly) :
    (wordsFrom places i a).length = a.size := by
  induction a generalizing i with
  | nil => rfl
  | cons item a ih => cases item <;> simp [wordsFrom, ih, AsmItem.size, Nat.add_comm]

/-- Linked code has as many words as its size says, whatever its labels are. -/
@[simp]
theorem length_link (a : Assembly) : a.link.length = a.size := by
  rw [link_eq_wordsFrom, length_wordsFrom]

/-- The words of a second part begin behind those of the first. -/
theorem wordsFrom_append (places : Std.HashMap Label Nat) (i : Nat) (a b : Assembly) :
    wordsFrom places i (a ++ b) = wordsFrom places i a ++ wordsFrom places (i + a.size) b := by
  induction a generalizing i with
  | nil => rfl
  | cons item a ih =>
    cases item <;> simp [wordsFrom, ih, AsmItem.size, Nat.add_assoc]

/-- The words of a piece are found behind those in front of it. -/
theorem getElem?_link_append (pre a : Assembly) (j : Nat) :
    (pre ++ a).link[pre.size + j]? = (wordsFrom ((pre ++ a).places 0 ∅) pre.size a)[j]? := by
  rw [link_eq_wordsFrom, wordsFrom_append, List.getElem?_append_right, length_wordsFrom,
    Nat.zero_add, Nat.add_sub_cancel_left]
  rw [length_wordsFrom]
  exact Nat.le_add_right ..

/-! ## Placement -/

/-- The place of a label in linked code. -/
def placeOf? (whole : Assembly) (l : Label) : Option Nat :=
  (whole.places 0 ∅)[l]?

/-- In front of a last instruction there are all labels. -/
theorem lt_size_of_placeOf?_concat {a : Assembly} {w : Word} {l : Label} {i : Nat}
    (h : placeOf? (a ++ [.word w]) l = some i) : i < size (a ++ [.word w]) := by
  rw [placeOf?, places_append] at h
  rcases le_of_getElem?_places (a := a) h with none | le
  · simp at none
  · rw [size_append]
    exact Nat.lt_succ_of_le (Nat.zero_add a.size ▸ le)

/-- The piece of code lies at word `i` of the linked code. -/
def Placed (whole : Assembly) : (i : Nat) → Assembly → Prop
  | _, [] => True
  | i, .word w :: a => whole.link[i]? = some w ∧ Placed whole (i + 1) a
  | i, .jump rd l :: a =>
    whole.link[i]? = some (Encode.jal rd (offset i ((whole.placeOf? l).getD i))) ∧
      Placed whole (i + 1) a
  | i, .mark l :: a => whole.placeOf? l = some i ∧ Placed whole i a

@[simp]
theorem placed_nil (whole : Assembly) (i : Nat) : Placed whole i [] :=
  trivial

/-- A word lies where the linked code has it. -/
@[simp]
theorem placed_word {whole a : Assembly} {i : Nat} {w : Word} :
    Placed whole i (.word w :: a) ↔ whole.link[i]? = some w ∧ Placed whole (i + 1) a :=
  Iff.rfl

/-- A jump lies where the linked code has the jump to the place of its label. -/
@[simp]
theorem placed_jump {whole a : Assembly} {i : Nat} {rd : Word} {l : Label} :
    Placed whole i (.jump rd l :: a) ↔
      whole.link[i]? = some (Encode.jal rd (offset i ((whole.placeOf? l).getD i))) ∧
        Placed whole (i + 1) a :=
  Iff.rfl

/-- A mark lies where its label stands for. -/
@[simp]
theorem placed_mark {whole a : Assembly} {i : Nat} {l : Label} :
    Placed whole i (.mark l :: a) ↔ whole.placeOf? l = some i ∧ Placed whole i a :=
  Iff.rfl

/-- Pieces lie one behind the other. -/
@[simp]
theorem placed_append {whole a b : Assembly} {i : Nat} :
    Placed whole i (a ++ b) ↔ Placed whole i a ∧ Placed whole (i + a.size) b := by
  induction a generalizing i with
  | nil => simp
  | cons item a ih =>
    cases item <;> simp [ih, AsmItem.size, and_assoc, Nat.add_assoc]

/-- A piece lies where it was put, if no label of it is marked again. -/
theorem placed_of_append {pre a post : Assembly} (once : a.marks.Nodup)
    (last : ∀ l ∈ a.marks, l ∉ post.marks) : Placed (pre ++ a ++ post) pre.size a := by
  induction a generalizing pre with
  | nil => trivial
  | cons item a ih =>
    have split : pre ++ item :: a ++ post = (pre ++ [item]) ++ a ++ post := by simp
    have first := getElem?_link_append pre (item :: a ++ post) 0
    rw [Nat.add_zero, ← List.append_assoc] at first
    cases item with
    | word w =>
      refine ⟨first.trans rfl, ?_⟩
      have rest :
          Placed (pre ++ [AsmItem.word w] ++ a ++ post) (size (pre ++ [AsmItem.word w])) a :=
        ih once last
      rwa [← split, size_append] at rest
    | jump rd l =>
      refine ⟨first.trans rfl, ?_⟩
      have rest :
          Placed (pre ++ [AsmItem.jump rd l] ++ a ++ post) (size (pre ++ [AsmItem.jump rd l])) a :=
        ih once last
      rwa [← split, size_append] at rest
    | mark l =>
      rw [marks_mark, List.nodup_cons] at once
      simp only [marks_mark, List.mem_cons, forall_eq_or_imp] at last
      have here : l ∉ marks (a ++ post) := by
        rw [marks_append, List.mem_append, not_or]
        exact ⟨once.1, last.1⟩
      refine ⟨?_, ?_⟩
      · rw [placeOf?, List.append_assoc]
        exact getElem?_places_mark here
      · have rest :
            Placed (pre ++ [AsmItem.mark l] ++ a ++ post) (size (pre ++ [AsmItem.mark l])) a :=
          ih once.2 last.2
        rwa [← split, size_append] at rest

end BareC.Assembly
