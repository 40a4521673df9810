/-!
# Open conditionals

Between a `#if` and its `#endif` one group of lines at most is kept. The conditionals that are open
at a place form a stack, innermost first; lines are read only where every one of them is in the
group it keeps.
-/

namespace BareC

/-- An open conditional. -/
structure Branch where
  /-- The group being read is the one that is kept. -/
  kept : Bool
  /-- No later group can be kept: one has been already, or the else group has begun. -/
  settled : Bool
  /-- The else group has begun. -/
  inElse : Bool := false
  deriving DecidableEq, Repr

/-- The open conditionals, innermost first. -/
abbrev Branches := List Branch

namespace Branches

/-- The lines at this place are passed over. -/
def skipping (bs : Branches) : Bool :=
  bs.any (!·.kept)

/-- Opens a conditional whose first condition is `holds`. Inside skipped lines no group is kept. -/
def enter (bs : Branches) (holds : Bool) : Branches :=
  let kept := holds && !bs.skipping
  { kept, settled := kept } :: bs

/-- Whether an `#elif` here has to look at its condition; `none` if it has no place here. -/
def elifDecides? : Branches → Option Bool
  | [] => none
  | b :: outer => if b.inElse then none else some (!skipping outer && !b.settled)

/-- The group behind an `#elif`, kept as said. -/
def elif (kept : Bool) : Branches → Branches
  | [] => []
  | b :: outer => { b with kept, settled := b.settled || kept } :: outer

/-- The group behind an `#else`; `none` if it has no place here. -/
def otherwise? : Branches → Option Branches
  | [] => none
  | b :: outer =>
    if b.inElse then none
    else some ({ kept := !skipping outer && !b.settled, settled := true, inElse := true } :: outer)

/-- Closes the innermost conditional; `none` if none is open. -/
def leave? : Branches → Option Branches
  | [] => none
  | _ :: outer => some outer

end Branches

end BareC
