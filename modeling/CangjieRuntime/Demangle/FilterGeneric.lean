/-
  Collapsed generic arguments (`RtFilterGeneric`).

  A rendered name is made of characters, of arrows `->` and of groups in angle brackets.
  `RtFilterGeneric` counts the brackets and takes the arrow for a closing one, so that it replaces the
  outer groups by `<...>` if and only if there is no arrow in them (`rtFilterGeneric_iff`).
-/
import CangjieRuntime.Demangle.Units

set_option linter.unusedVariables false

namespace CangjieRuntime.Demangle

/-- The first loop of `RtFilterGeneric`, that measures what the second one writes. -/
def filterLengthFrom : Nat → RtString → Nat
  | depth, [] => 0
  | 0, ch :: rest => 1 + filterLengthFrom (if ch = 60 then 1 else 0) rest
  | depth + 1, ch :: rest =>
    if ch = 60 then filterLengthFrom (depth + 2) rest
    else if ch = 62 then
      if depth = 0 then 4 + filterLengthFrom 0 rest else filterLengthFrom depth rest
    else filterLengthFrom (depth + 1) rest

/-- The length that `RtFilterGeneric` allocates. -/
def filterGenericLength (inputValue : RtString) : Nat := filterLengthFrom 0 inputValue

/-! ## Names with brackets -/

/-- A part of a rendered name.  A group may hold groups to any depth, and an arrow may be in or out
    of one; a name that is rendered is a list of these. -/
inductive Piece
  | char (ch : UInt8)
  /-- The `->` of a function type. -/
  | arrow
  /-- A group in angle brackets. -/
  | group (body : List Piece)

namespace Piece

mutual

/-- The text of a part. -/
def render : Piece → RtString
  | .char ch => [ch]
  | .arrow => ascii "->"
  | .group body => 60 :: (renderAll body ++ [62])

/-- The text of parts one behind the other. -/
def renderAll : List Piece → RtString
  | [] => []
  | p :: ps => p.render ++ renderAll ps

end

mutual

/-- A character is no bracket. -/
def WellFormed : Piece → Prop
  | .char ch => ch ≠ 60 ∧ ch ≠ 62
  | .arrow => True
  | .group body => AllWellFormed body

/-- Parts that are all well-formed. -/
def AllWellFormed : List Piece → Prop
  | [] => True
  | p :: ps => p.WellFormed ∧ AllWellFormed ps

end

mutual

/-- The number of arrows. -/
def arrows : Piece → Nat
  | .char _ => 0
  | .arrow => 1
  | .group body => arrowsAll body

/-- The number of arrows in all parts, those inside of groups with them. -/
def arrowsAll : List Piece → Nat
  | [] => 0
  | p :: ps => p.arrows + arrowsAll ps

end

/-- A part with its group collapsed. -/
def collapse : Piece → RtString
  | .char ch => [ch]
  | .arrow => ascii "->"
  | .group _ => ascii "<...>"

/-- The text with the outer groups collapsed. -/
def collapseAll (ps : List Piece) : RtString := ps.flatMap collapse

end Piece

open Piece

/-! ## The measuring loop -/

/-- The pass that measures counts what the pass that writes will write. -/
theorem filterLengthFrom_eq : ∀ (depth : Nat) (inputValue : RtString),
    filterLengthFrom depth inputValue = (filterGenericFrom depth inputValue).length := by
  intro depth inputValue
  induction inputValue generalizing depth with
  | nil => cases depth <;> rfl
  | cons ch rest ih =>
    cases depth with
    | zero =>
      rw [filterLengthFrom, filterGenericFrom, ih, List.length_cons, Nat.add_comm]
    | succ depth =>
      rw [filterLengthFrom, filterGenericFrom]
      split
      · exact ih _
      · split
        · split
          · rw [ih, List.length_append]
            rfl
          · exact ih _
        · exact ih _

/-! ## Groups without arrows -/

mutual

/-- Nothing of a part without arrows is written inside a group. -/
theorem filter_inside : ∀ (p : Piece), p.WellFormed → p.arrows = 0 → ∀ (depth : Nat)
    (rest : RtString),
    filterGenericFrom (depth + 1) (p.render ++ rest) = filterGenericFrom (depth + 1) rest
  | .char ch, hwf, harrows, depth, rest => by
    rw [render, List.singleton_append, filterGenericFrom, if_neg hwf.1, if_neg hwf.2]
  | .arrow, hwf, harrows, depth, rest => by
    rw [arrows] at harrows
    cases harrows
  | .group body, hwf, harrows, depth, rest => by
    rw [render, List.cons_append, filterGenericFrom, if_pos rfl, List.append_assoc,
      filter_insideAll body hwf harrows (depth + 1), List.singleton_append, filterGenericFrom,
      if_neg (by decide), if_pos rfl, if_neg (Nat.succ_ne_zero depth)]

/-- Inside of a group the filter passes all parts. -/
theorem filter_insideAll : ∀ (ps : List Piece), AllWellFormed ps → arrowsAll ps = 0 →
    ∀ (depth : Nat) (rest : RtString),
    filterGenericFrom (depth + 1) (renderAll ps ++ rest) = filterGenericFrom (depth + 1) rest
  | [], hwf, harrows, depth, rest => rfl
  | p :: ps, hwf, harrows, depth, rest => by
    rw [arrowsAll] at harrows
    rw [renderAll, List.append_assoc, filter_inside p hwf.1 (by omega),
      filter_insideAll ps hwf.2 (by omega)]

end

/-- The outer groups are collapsed if there is no arrow in them. -/
theorem filter_outside (ps : List Piece) (hwf : AllWellFormed ps)
    (harrows : ∀ body, Piece.group body ∈ ps → arrowsAll body = 0) :
    rtFilterGeneric (renderAll ps) = collapseAll ps := by
  show filterGenericFrom 0 (renderAll ps) = _
  induction ps with
  | nil => rfl
  | cons p ps ih =>
    have hrest := ih hwf.2 fun body hbody => harrows body (List.mem_cons_of_mem p hbody)
    rw [renderAll, collapseAll, List.flatMap_cons]
    rw [collapseAll] at hrest
    cases p with
    | char ch =>
      rw [render, collapse, List.singleton_append, filterGenericFrom, if_neg hwf.1.1, hrest]
      rfl
    | arrow => exact congrArg (ascii "->" ++ ·) hrest
    | group body =>
      rw [render, collapse, List.cons_append, filterGenericFrom, if_pos rfl, List.append_assoc,
        filter_insideAll body hwf.1 (harrows body List.mem_cons_self), List.singleton_append,
        filterGenericFrom, if_neg (by decide), if_pos rfl, if_pos rfl, hrest]
      rfl

/-! ## Brackets -/

/-- How many more brackets are opened than closed, where an arrow closes one. -/
def balance : RtString → Int
  | [] => 0
  | ch :: rest => (if ch = 60 then 1 else if ch = 62 then -1 else 0) + balance rest

/-- No part at the end opens more brackets than it closes. -/
def EndsClosed : RtString → Prop
  | [] => True
  | ch :: rest => balance (ch :: rest) ≤ 0 ∧ EndsClosed rest

/-- The balance of a text is that of its two parts together. -/
theorem balance_append (xs ys : RtString) : balance (xs ++ ys) = balance xs + balance ys := by
  induction xs with
  | nil => exact (Int.zero_add _).symm
  | cons ch xs ih => rw [List.cons_append, balance, ih, balance, Int.add_assoc]

/-- A character that is no bracket does not count. -/
theorem balance_other {ch : UInt8} (hopen : ch ≠ 60) (hclose : ch ≠ 62) (rest : RtString) :
    balance (ch :: rest) = balance rest := by
  rw [balance, if_neg hopen, if_neg hclose, Int.zero_add]

/-- An opening bracket counts one. -/
theorem balance_open (rest : RtString) : balance (60 :: rest) = 1 + balance rest := rfl

/-- A closing bracket takes one off. -/
theorem balance_close (rest : RtString) : balance (62 :: rest) = -1 + balance rest := rfl

/-- A text whose ends are all closed opens no more brackets than it closes. -/
theorem EndsClosed.balance_nonpos {s : RtString} (h : EndsClosed s) : balance s ≤ 0 := by
  cases s with
  | nil => exact Int.le_refl 0
  | cons ch rest => exact h.1

/-- The output opens as many brackets more than it closes as the input, inside a group without the
    ones around. -/
theorem balance_filter : ∀ (s : RtString), EndsClosed s →
    balance (filterGenericFrom 0 s) = balance s ∧
    ∀ depth : Nat, depth + 1 + balance s ≤ 0 →
      balance (filterGenericFrom (depth + 1) s) = balance s + depth := by
  intro s
  induction s with
  | nil =>
    intro hclosed
    refine ⟨rfl, fun depth hdepth => ?_⟩
    rw [balance] at hdepth
    omega
  | cons ch rest ih =>
    intro hclosed
    obtain ⟨hnonpos, hrest⟩ := hclosed
    obtain ⟨hout, hin⟩ := ih hrest
    -- an opening bracket, a closing one, or another character
    by_cases hopen : ch = 60
    · subst hopen
      rw [balance_open] at hnonpos ⊢
      refine ⟨?_, fun depth hdepth => ?_⟩
      · rw [filterGenericFrom, if_pos rfl, balance_open, hin 0 (by omega)]
        omega
      · rw [filterGenericFrom, if_pos rfl, hin (depth + 1) (by omega)]
        omega
    by_cases hclose : ch = 62
    · subst hclose
      rw [balance_close] at hnonpos ⊢
      refine ⟨?_, fun depth hdepth => ?_⟩
      · rw [filterGenericFrom, if_neg (by decide), balance_close, hout]
      · rw [filterGenericFrom, if_neg (by decide), if_pos rfl]
        cases depth with
        | zero =>
          have hdots : balance (ascii "...>") = -1 := rfl
          rw [if_pos rfl, balance_append, hout, hdots]
          omega
        | succ depth =>
          rw [if_neg (Nat.succ_ne_zero depth), hin depth (by omega)]
          omega
    · rw [balance_other hopen hclose] at hnonpos ⊢
      refine ⟨?_, fun depth hdepth => ?_⟩
      · rw [filterGenericFrom, if_neg hopen, balance_other hopen hclose, hout]
      · rw [filterGenericFrom, if_neg hopen, if_neg hclose, hin depth hdepth]

mutual

/-- Each arrow of a part closes one bracket too many. -/
theorem balance_render : ∀ (p : Piece), p.WellFormed → balance p.render = -p.arrows
  | .char ch, hwf => by
    rw [render, balance_other hwf.1 hwf.2]
    rfl
  | .arrow, hwf => rfl
  | .group body, hwf => by
    rw [render, balance_open, balance_append, balance_renderAll body hwf, balance_close, arrows,
      balance]
    omega

/-- Each arrow of well-formed parts closes one bracket too many. -/
theorem balance_renderAll : ∀ (ps : List Piece), AllWellFormed ps →
    balance (renderAll ps) = -arrowsAll ps
  | [], hwf => rfl
  | p :: ps, hwf => by
    rw [renderAll, balance_append, balance_render p hwf.1, balance_renderAll ps hwf.2, arrowsAll]
    omega

end

mutual

/-- A part in front of a text whose ends are closed leaves them closed. -/
theorem endsClosed_render : ∀ (p : Piece), p.WellFormed → ∀ (rest : RtString), EndsClosed rest →
    EndsClosed (p.render ++ rest)
  | .char ch, hwf, rest, hrest => by
    refine ⟨?_, hrest⟩
    rw [balance_other hwf.1 hwf.2]
    exact hrest.balance_nonpos
  | .arrow, hwf, rest, hrest => by
    have hnonpos := hrest.balance_nonpos
    have hclose : balance (62 :: rest) ≤ 0 := by
      rw [balance_close]
      omega
    exact ⟨by rw [balance_other (by decide) (by decide)]; exact hclose, hclose, hrest⟩
  | .group body, hwf, rest, hrest => by
    have hnonpos := hrest.balance_nonpos
    have hclose : EndsClosed (62 :: rest) := ⟨by rw [balance_close]; omega, hrest⟩
    have hbody := endsClosed_renderAll body hwf (62 :: rest) hclose
    rw [render, List.cons_append, List.append_assoc]
    refine ⟨?_, hbody⟩
    rw [balance_open, balance_append, balance_renderAll body hwf, List.singleton_append,
      balance_close]
    omega

/-- So do all parts. -/
theorem endsClosed_renderAll : ∀ (ps : List Piece), AllWellFormed ps → ∀ (rest : RtString),
    EndsClosed rest → EndsClosed (renderAll ps ++ rest)
  | [], hwf, rest, hrest => hrest
  | p :: ps, hwf, rest, hrest => by
    rw [renderAll, List.append_assoc]
    exact endsClosed_render p hwf.1 _ (endsClosed_renderAll ps hwf.2 rest hrest)

end

/-- The arrows in the outer groups are missing in the collapsed text. -/
theorem balance_collapseAll (ps : List Piece) (hwf : AllWellFormed ps) :
    0 ≤ balance (collapseAll ps) + arrowsAll ps ∧ (balance (collapseAll ps) + arrowsAll ps = 0 →
      ∀ body, Piece.group body ∈ ps → arrowsAll body = 0) := by
  induction ps with
  | nil => exact ⟨Int.le_refl 0, fun _ => nofun⟩
  | cons p ps ih =>
    obtain ⟨hnonneg, hgroups⟩ := ih hwf.2
    have hcollapse : collapseAll (p :: ps) = p.collapse ++ collapseAll ps := List.flatMap_cons
    rw [hcollapse, balance_append, arrowsAll]
    have hmem : ∀ body, Piece.group body ∈ p :: ps → Piece.group body = p ∨ Piece.group body ∈ ps :=
      fun body hbody => List.mem_cons.mp hbody
    cases p with
    | char ch =>
      have hzero : balance (Piece.char ch).collapse = 0 := balance_other hwf.1.1 hwf.1.2 []
      rw [hzero, arrows]
      refine ⟨by omega, fun hsum body hbody => hgroups (by omega) body ?_⟩
      rcases hmem body hbody with hc | hrest
      · cases hc
      · exact hrest
    | arrow =>
      have hone : balance Piece.arrow.collapse = -1 := rfl
      rw [hone, arrows]
      refine ⟨by omega, fun hsum body hbody => hgroups (by omega) body ?_⟩
      rcases hmem body hbody with hc | hrest
      · cases hc
      · exact hrest
    | group body =>
      have hzero : balance (Piece.group body).collapse = 0 := rfl
      rw [hzero, arrows]
      refine ⟨by omega, fun hsum body' hbody => ?_⟩
      rcases hmem body' hbody with hc | hrest
      · cases hc
        omega
      · exact hgroups (by omega) body' hrest

/-- **The outer groups are collapsed if and only if there is no arrow in them**, and the first loop
    measures what the second one writes.  The loops count angle brackets, and the `>` of an arrow
    counts as one that closes a group: with an arrow inside, the level returns to 0 before the group
    is over, and the rest of it is kept. -/
theorem rtFilterGeneric_iff (inputValue : RtString) (ps : List Piece) (hwf : AllWellFormed ps) :
    filterGenericLength inputValue = (rtFilterGeneric inputValue).length ∧
    (rtFilterGeneric (renderAll ps) = collapseAll ps ↔
      ∀ body, Piece.group body ∈ ps → arrowsAll body = 0) := by
  refine ⟨filterLengthFrom_eq 0 inputValue, fun heq => ?_, filter_outside ps hwf⟩
  have hclosed := endsClosed_renderAll ps hwf [] trivial
  rw [List.append_nil] at hclosed
  have hbalance : balance (rtFilterGeneric (renderAll ps)) = balance (renderAll ps) :=
    (balance_filter (renderAll ps) hclosed).1
  rw [heq, balance_renderAll ps hwf] at hbalance
  exact (balance_collapseAll ps hwf).2 (by omega)

/-- The parts of a text without brackets. -/
def chars (s : String) : List Piece := (ascii s).map .char

/-- Well-formed parts behind well-formed ones are well-formed. -/
theorem allWellFormed_append {ps ps' : List Piece} (h : AllWellFormed ps) (h' : AllWellFormed ps') :
    AllWellFormed (ps ++ ps') := by
  induction ps with
  | nil => exact h'
  | cons p ps ih => exact ⟨h.1, ih h.2⟩

/-- Characters that are no brackets are well-formed parts. -/
theorem allWellFormed_map {xs : RtString} (h : ∀ ch ∈ xs, ch ≠ 60 ∧ ch ≠ 62) :
    AllWellFormed (xs.map .char) := by
  induction xs with
  | nil => exact trivial
  | cons ch xs ih =>
    exact ⟨h ch List.mem_cons_self, ih fun ch' hch' => h ch' (List.mem_cons_of_mem ch hch')⟩

/-- `<A,Set<B>>`. -/
def nestedPieces : List Piece := [.group (chars "A,Set" ++ [.group (chars "B")])]

/-- A group with another one in it is collapsed as a whole. -/
theorem rtFilterGeneric_nested : rtFilterGeneric (renderAll nestedPieces) = ascii "<...>" := by
  have hwf : AllWellFormed nestedPieces :=
    ⟨allWellFormed_append (allWellFormed_map (forall_chars (by decide)))
      ⟨allWellFormed_map (forall_chars (by decide)), trivial⟩, trivial⟩
  refine (rtFilterGeneric_iff [] nestedPieces hwf).2.mpr fun body hbody => ?_
  cases List.mem_singleton.mp hbody
  rfl

/-- `<(Int64) -> Unit>`. -/
def functionPieces : List Piece := [.group (chars "(Int64) " ++ .arrow :: chars " Unit")]

/-- The demangler renders a pointer to a function with a part of the function. -/
theorem rtFilterGeneric_arrow : AllWellFormed functionPieces ∧
    rtFilterGeneric (renderAll functionPieces) = ascii "<...> Unit>" ∧
    collapseAll functionPieces = ascii "<...>" ∧
    (demangleNextUnit 10 (Demangler.init (ascii "PF0ulE") false (ascii "::"))).map
      (fun r => r.1.genericTypes) = some (rtFilterGeneric (renderAll functionPieces)) := by
  refine ⟨⟨?_, trivial⟩, by decide +kernel, by decide +kernel, by decide +kernel⟩
  exact allWellFormed_append (allWellFormed_map (forall_chars (by decide)))
    ⟨trivial, allWellFormed_map (forall_chars (by decide))⟩

end CangjieRuntime.Demangle
