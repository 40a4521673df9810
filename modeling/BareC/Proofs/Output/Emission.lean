import BareC.Proofs.Machine.Step
import BareC.Proofs.Output.Capacity

/-!
# Writing until there is no more room

Code is written word by word, and of a word that does not fit as much is written as there is room
for. Each piece goes into a part of the region that begins where the last one ended, so nothing
would be written if that part were not there. It always is: what has been written is at every time
the code so far, clipped to the region (`Region.append?_emitInto`). So in the end the code itself
has been clipped, wherever in a word the region ends, and the rest of the region has not been
touched (`Program.generate_clips`).

That the checks on the parts never fail is the content of the induction: each of them is one that
the program would otherwise stop at. The bytes of a word are not looked at, and neither is whether
clipped code is of any use; it is reported as too long elsewhere.
-/

namespace BareC

/-! ## Pieces one behind the other -/

namespace Region

/-- The region with some bytes copied over its part from `start` up to `stop`, if there is such a
part and it is as long as they are. -/
def copy? (bytes : Bytes) (start stop : Nat) (region : Array UInt8) : Option (Array UInt8) :=
  if start ≤ stop ∧ stop ≤ region.size ∧ bytes.length = stop - start then
    some (region.extract 0 start ++ bytes.toArray ++ region.extract stop region.size)
  else none

/-- Writes as much of a piece as there is room for behind the bytes written already. Returns how
many there are now and the region, unless there are more than the region has. -/
def append? (written : Nat) (region : Array UInt8) (piece : Bytes) : Option (Nat × Array UInt8) :=
  if region.size < written then none
  else
    let count := min piece.length (region.size - written)
    (copy? (piece.take count) written (written + count) region).map fun region =>
    (written + count, region)

/-- Writes pieces one after the other behind the bytes written already. -/
def appendAll? (pieces : List Bytes) (written : Nat) (region : Array UInt8) :
    Option (Nat × Array UInt8) :=
  pieces.foldlM (fun front piece => append? front.1 front.2 piece) (written, region)

end Region

section Clipped

variable {front piece : Bytes} {region : Array UInt8}

/-- The bytes of a region that is overwritten in front. -/
theorem getElem?_overwritten_eq (i : Nat) :
    (overwritten front region)[i]? = if i < front.length then front[i]? else region[i]? := by
  split
  next inside =>
    rw [overwritten, Array.getElem?_append_left (by rwa [List.size_toArray]), List.getElem?_toArray]
  next behind => exact getElem?_overwritten (Nat.le_of_not_lt behind)

/-- Behind its overwritten front a region is what it was. -/
theorem extract_overwritten_behind {start : Nat} (behind : front.length ≤ start)
    (fits : front.length ≤ region.size) :
    (overwritten front region).extract start region.size = region.extract start region.size := by
  have gone : front.toArray.extract start region.size = #[] :=
    Array.extract_empty_of_size_le_start (by rwa [List.size_toArray])
  rw [overwritten, Array.extract_append, gone, Array.empty_append, Array.extract_extract,
    List.size_toArray, Nat.add_sub_cancel' behind, Nat.add_sub_cancel' fits, Nat.min_self]

/-- What is written in a part in front is written in the whole. -/
theorem overwritten_extract_append {stop : Nat} (fits : front.length ≤ stop)
    (inside : stop ≤ region.size) :
    overwritten front (region.extract 0 stop) ++ region.extract stop region.size =
      overwritten front region := by
  rw [overwritten, Array.size_extract, Nat.min_eq_left inside, Array.extract_extract,
    Array.append_assoc, Nat.sub_zero, Nat.zero_add, Nat.zero_add, Nat.min_self,
    Array.extract_append_extract, Nat.min_eq_left fits, Nat.max_eq_right inside, overwritten]

/-- Bytes that are copied behind others are written together with them. -/
theorem Region.copy?_overwritten (fits : front.length + piece.length ≤ region.size) :
    copy? piece front.length (front.length + piece.length) (overwritten front region) =
      some (overwritten (front ++ piece) region) := by
  have size : (overwritten front region).size = region.size := size_overwritten (by omega)
  have before : (overwritten front region).extract 0 front.length = front.toArray := by
    rw [← Array.toList_inj, extract_overwritten]
  rw [copy?, size, if_pos (by omega), before, extract_overwritten_behind (by omega) (by omega),
    List.append_toArray front, ← List.length_append, overwritten]

/-- Of what is written, piece by piece, it is the whole that is clipped. -/
theorem Region.append?_emitInto (code piece : Bytes) (region : Array UInt8) :
    append? (emitInto code region).1 (emitInto code region).2 piece =
      some (emitInto (code ++ piece) region) := by
  let front := code.take region.size
  let more := piece.take (min piece.length (region.size - front.length))
  change append? front.length (overwritten front region) piece = _
  have front_le : front.length ≤ region.size := List.length_take_le ..
  have more_length : more.length = min piece.length (region.size - front.length) := by
    rw [List.length_take]
    omega
  have clipped : (code ++ piece).take region.size = front ++ more := by
    rw [List.take_append]
    congr 1
    rw [List.take_eq_take_iff, List.length_take]
    omega
  have copied :
      copy? more front.length (front.length + min piece.length (region.size - front.length))
      (overwritten front region) = some (overwritten (front ++ more) region) := by
    rw [← more_length]
    exact copy?_overwritten (by omega)
  rw [append?, size_overwritten front_le, if_neg (by omega)]
  dsimp only
  rw [copied, Option.map_some, ← more_length, ← List.length_append, ← clipped]
  rfl

/-- Pieces appended behind code that is in place, by induction on them. -/
theorem Region.appendAll?_emitInto (pieces : List Bytes) (code : Bytes) (region : Array UInt8) :
    appendAll? pieces (emitInto code region).1 (emitInto code region).2 =
      some (emitInto (code ++ pieces.flatten) region) := by
  induction pieces generalizing code with
  | nil => simp [appendAll?]
  | cons piece pieces ih =>
    rw [appendAll?, List.foldlM_cons, append?_emitInto, List.flatten_cons, ← List.append_assoc]
    exact ih _

/-- Code is put in place up to the size of the region. -/
theorem emitInto_eq (code : Bytes) (region : Array UInt8) :
    emitInto code region =
      ((code.take region.size).length, overwritten (code.take region.size) region) :=
  rfl

/-- No code leaves the region. -/
theorem emitInto_nil (region : Array UInt8) : emitInto [] region = (0, region) := by
  simp [emitInto]

/-- Putting code in place keeps the size of the region. -/
theorem size_emitInto (code : Bytes) (region : Array UInt8) :
    (emitInto code region).2.size = region.size :=
  size_overwritten (List.length_take_le ..)

/-- In front there are the bytes of the code, and behind them those that were there. -/
theorem getElem?_emitInto (code : Bytes) (region : Array UInt8) (i : Nat) :
    (emitInto code region).2[i]? = if i < (emitInto code region).1 then code[i]?
    else region[i]? := by
  rw [emitInto_eq]
  dsimp only
  rw [getElem?_overwritten_eq]
  split
  next inside => rw [List.getElem?_take_of_lt (by rw [List.length_take] at inside; omega)]
  next => rfl

end Clipped

/-! ## Word by word -/

/-- Writes words behind the bytes written already, up to the end of the region. -/
def emitWords? : List Word → Nat → Array UInt8 → Option (Nat × Array UInt8)
  | [], written, region => some (written, region)
  | w :: words, written, region => do
    let (written, region) ← Region.append? written region w.toBytes
    if written = region.size then some (written, region) else emitWords? words written region

/-- Behind code that fills the region no more is written. -/
theorem emitInto_append_of_full {code : Bytes} {region : Array UInt8}
    (full : (emitInto code region).1 = region.size) (more : Bytes) :
    emitInto (code ++ more) region = emitInto code region := by
  have long : region.size ≤ code.length := by
    rw [← full]
    exact List.length_take_le' ..
  rw [emitInto, emitInto, List.take_append_of_le_length long]

/-- Words written behind some code are the code that goes on with them, clipped. -/
theorem emitWords?_emitInto (words : List Word) (code : Bytes) (region : Array UInt8) :
    emitWords? words (emitInto code region).1 (emitInto code region).2 =
      some (emitInto (code ++ words.flatMap Word.toBytes) region) := by
  induction words generalizing code with
  | nil => rw [List.flatMap_nil, List.append_nil, emitWords?]
  | cons w words ih =>
    rw [emitWords?, Region.append?_emitInto, List.flatMap_cons, ← List.append_assoc]
    change (if (emitInto (code ++ w.toBytes) region).1 =
      (emitInto (code ++ w.toBytes) region).2.size then _ else _) = _
    rw [size_emitInto]
    split
    next full => exact congrArg some (emitInto_append_of_full full _).symm
    next => exact ih _

-- The region ends inside the second word.
example : emitWords? [0x04030201, 0x08070605, 0x0c0b0a09] 0 #[0, 0, 0, 0, 0, 0] =
    some (6, #[1, 2, 3, 4, 5, 6]) := by decide

namespace Program

/-- The words of a program are written one by one, each into a part that the region has. As many
bytes are written as the code and the region both have. They are the first ones of the code,
whatever the region was and however long, and behind them the region is as it was. In the code there
are four bytes to a word, the lowest first. -/
theorem generate_clips (p : Program) (region : Array UInt8) :
    emitWords? p.words 0 region = some (p.generate region) ∧
      (p.generate region).1 = min p.codeLength region.size ∧
      (p.generate region).2.size = region.size ∧
      (∀ i, (p.generate region).2[i]? = if i < (p.generate region).1 then p.code[i]?
        else region[i]?) ∧
      p.code.length = p.codeLength ∧
      ∀ k w, p.words[k]? = some w → ∀ j < 4, p.code[4 * k + j]? =
        some (UInt8.ofNat (w.toNat / 256 ^ j)) := by
  refine ⟨?words, ?length, size_emitInto .., getElem?_emitInto _ _, p.length_code, ?bytes⟩
  case words =>
    have run := emitWords?_emitInto p.words [] region
    rwa [emitInto_nil, List.nil_append] at run
  case length =>
    change (p.code.take region.size).length = _
    rw [List.length_take, p.length_code, Nat.min_comm]
  case bytes =>
    intro k w found j small
    rw [code, getElem?_flatMap_toBytes found small, Word.toBytes, Bytes.getElem?_ofNat small]

end Program

end BareC
