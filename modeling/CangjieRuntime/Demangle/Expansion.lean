/-
  The expansion of back-references (`UpdateCompressedName`, both of them) ends.

  An expansion may lengthen the text, and the bound `endId` follows the length.  The loops end all the
  same when no entry of the table has a negative length: the cursor is set behind what was put in, so
  that the distance from the cursor to the end of the text gets smaller by the reference that went
  away (`splice_length`).  This holds of entries that no longer lie within the text too: what is put
  in is then shorter than the step of the cursor.  What is before the first index stays as it is.
-/
import CangjieRuntime.Demangle.DeCompression
import CangjieRuntime.Lib.Outcomes

set_option linter.unusedVariables false

namespace CangjieRuntime.Demangle.DeCompression

open CangjieRuntime.Computation

/-! ## Indices that are not negative -/

section Indices

variable {s : RtString} {i : Nat}

/-- On an index that is not negative the two forms of an access agree. -/
@[simp] theorem byteAt_natCast : byteAt s i = s.byte i := by
  rw [byteAt, if_neg (by omega), Int.toNat_natCast]

@[simp] theorem subStr_natCast {count : Nat} : subStr s i count = RtString.subStr s i count := by
  rw [subStr, if_neg (by omega), Int.toNat_natCast, Int.toNat_natCast]

@[simp] theorem forwardNumber_natCast : forwardNumber s i = (Demangle.forwardNumber s i : Int) := by
  rw [forwardNumber, if_neg (by omega), Int.toNat_natCast]

@[simp] theorem forwardName_natCast : forwardName s i = (Demangle.forwardName s i : Int) := by
  rw [forwardName, if_neg (by omega), Int.toNat_natCast]

@[simp] theorem isStdPkgName_natCast : isStdPkgName s i = Demangle.isStdPkgName s i := by
  rw [isStdPkgName, if_neg (by omega), Int.toNat_natCast]

end Indices

/-- A number is not empty, and ends within the text. -/
theorem le_forwardNumber (mangled : RtString) (idx : Nat) :
    Demangle.forwardNumber mangled idx = idx ∨
      idx < Demangle.forwardNumber mangled idx ∧ Demangle.forwardNumber mangled idx ≤ mangled.length := by
  rw [Demangle.forwardNumber]
  split
  case isTrue h => right; omega
  case isFalse h => left; rfl

/-! ## Tables without negative lengths -/

/-- No entry has a negative start or length.  The entries that the scanner pushes are so; the loops
    of the expansion only ask for this. -/
def Spanned (t : TreeMapState) : Prop := ∀ e ∈ t.entries, 0 ≤ e.start ∧ 0 ≤ e.length

/-- An entry of such a table, or the empty span that stands for a missing one, is not negative. -/
theorem Spanned.get {t : TreeMapState} (h : Spanned t) (index : Int) :
    0 ≤ (t.get index).start ∧ 0 ≤ (t.get index).length := by
  rw [TreeMapState.get]
  split
  · exact ⟨Int.le_refl 0, Int.le_refl 0⟩
  · rw [List.getD_eq_getElem?_getD]
    rcases hget : t.entries[index.toNat]? with _ | e
    · exact ⟨Int.le_refl 0, Int.le_refl 0⟩
    · exact h e (List.mem_of_getElem? hget)

/-! ## A splice -/

section Splice

variable {mangled : RtString} {idx : Nat} {mapped : TreePos} {curIdx : Int}

/-- An expansion leaves what is before the reference. -/
theorem splice_take (hidx : idx ≤ mangled.length) :
    (splice mangled idx mapped curIdx).take idx = mangled.take idx := by
  have hhead : subStr mangled 0 idx = mangled.take idx := by
    rw [subStr, if_neg (by omega), RtString.subStr]
    rfl
  rw [splice, hhead, List.append_assoc,
    List.take_append_of_le_length (by rw [List.length_take]; omega), List.take_take, Nat.min_self]

/-- A part of a text has at most the length it was asked for. -/
theorem subStr_length_le (s : RtString) (start count : Int) :
    (subStr s start count).length ≤ count.toNat := by
  rw [subStr]
  split
  · exact Nat.zero_le _
  · rw [RtString.subStr]
    exact List.length_take_le _ _

/-- Behind what was put in, there is what was behind the reference, or less. -/
theorem splice_length (hmapped : 0 ≤ mapped.length) (hcur : idx < curIdx) :
    ((splice mangled idx mapped curIdx).length : Int) - (idx + mapped.length) ≤
      max 0 (mangled.length - curIdx) := by
  have hhead := subStr_length_le mangled 0 idx
  have hput := subStr_length_le mangled mapped.start mapped.length
  have hrest : ((if curIdx < mangled.length then subStrFrom mangled curIdx else []).length : Int) ≤
      max 0 (mangled.length - curIdx) := by
    split
    · have := subStr_length_le mangled curIdx (mangled.length - curIdx)
      rw [← subStrFrom] at this
      omega
    · rw [List.length_nil]
      omega
  rw [splice, List.length_append, List.length_append]
  omega

end Splice

/-! ## The loops -/

/-- What an expansion from `idx` on does: the text before `idx` stays, and so does all but the text. -/
structure Expanded (idx : Int) (s s' : State) : Prop where
  before : s'.mangled.take idx.toNat = s.mangled.take idx.toNat
  rest : s' = { s with mangled := s'.mangled }

/-- No expansion at all. -/
theorem Expanded.refl (idx : Int) (s : State) : Expanded idx s s := ⟨rfl, rfl⟩

/-- An expansion leaves the table. -/
theorem Expanded.treeIdMap {idx : Int} {s s' : State} (h : Expanded idx s s') :
    s'.treeIdMap = s.treeIdMap := by rw [h.rest]

/-- Texts that agree up to a place agree up to an earlier one. -/
theorem take_of_le {xs ys : RtString} {i j : Nat} (h : xs.take j = ys.take j) (hij : i ≤ j) :
    xs.take i = ys.take i := by
  have := congrArg (List.take i) h
  rwa [List.take_take, List.take_take, Nat.min_eq_left hij] at this

/-- Expansions one behind the other leave what is before the first. -/
theorem Expanded.trans {idx idx' : Int} {s s' s'' : State} (h : Expanded idx s s')
    (h' : Expanded idx' s' s'') (hle : idx ≤ idx') : Expanded idx s s'' where
  before := by rw [take_of_le h'.before (Int.toNat_le_toNat hle), h.before]
  rest := by
    rw [h'.rest]
    conv_lhs => rw [h.rest]

/-- A splice at `idx`, of an entry of the table. -/
theorem Expanded.splice {idx curIdx : Int} {s : State} {mapped : TreePos} (h0 : 0 ≤ idx)
    (hidx : idx < s.mangled.length) :
    Expanded idx s { s with mangled := splice s.mangled idx mapped curIdx } where
  before := by
    obtain ⟨i, rfl⟩ := Int.eq_ofNat_of_zero_le h0
    exact splice_take (by omega)
  rest := rfl

/-- The end of a reference lies behind its `Y`. -/
theorem reference_end {s : State} {idx : Int} (h0 : 0 ≤ idx)
    (hne : (reference s idx).2 ≠ idx + 1) : idx + 1 < (reference s idx).2 := by
  obtain ⟨i, rfl⟩ := Int.eq_ofNat_of_zero_le h0
  have heq : (reference s i).2 = (Demangle.forwardNumber s.mangled (i + 1) : Int) :=
    forwardNumber_natCast (i := i + 1)
  rcases le_forwardNumber s.mangled (i + 1) with h | ⟨h, -⟩ <;> omega

/-- What a round that goes on leaves: the cursor is nearer to the end. -/
structure Progressed (s : State) (idx : Int) (s' : State) (idx' : Int) : Prop where
  le : idx ≤ idx'
  expanded : Expanded idx s s'
  less : (s'.mangled.length - idx').toNat < (s.mangled.length - idx).toNat

/-- A round that expands nothing goes on by one byte. -/
theorem Progressed.next {s : State} {idx : Int} (hidx : idx < s.mangled.length) :
    Progressed s idx s (idx + 1) := ⟨by omega, Expanded.refl idx s, by omega⟩

/-- A round that expands a reference goes on behind what it put there, and less is left behind
    it. -/
theorem Progressed.splice {s : State} {idx : Int} (h0 : 0 ≤ idx) (hidx : idx < s.mangled.length)
    (hspans : Spanned s.treeIdMap) (hne : (reference s idx).2 ≠ idx + 1) :
    Progressed s idx
      { s with mangled := splice s.mangled idx (s.treeIdMap.get (reference s idx).1) (reference s idx).2 }
      (idx + (s.treeIdMap.get (reference s idx).1).length) := by
  have hcur := reference_end h0 hne
  have hmapped := (hspans.get (reference s idx).1).2
  obtain ⟨i, rfl⟩ := Int.eq_ofNat_of_zero_le h0
  have hlength := @splice_length s.mangled i _ _ hmapped (Int.lt_trans (Int.lt_succ _) hcur)
  refine ⟨by omega, Expanded.splice h0 hidx, ?_⟩
  show ((DeCompression.splice s.mangled i _ _).length -
    ((i : Int) + (s.treeIdMap.get (reference s i).1).length)).toNat < _
  omega

/-- A round at an index either goes on nearer to the end, or stops where it is. -/
theorem updateStep_run {s : State} {change idx : Int} (h0 : 0 ≤ idx) (hspans : Spanned s.treeIdMap) :
    Run (updateStep (change, idx)) s fun r s' =>
      (∀ v, r = .inl v → v.1 = change + 1 ∧ Progressed s idx s' v.2) ∧
      ∀ v, r = .inr v → v = (change, idx) ∧ s' = s := by
  have hstop : Run (pure (.inr (change, idx)) : Scan (Int × Int ⊕ Int × Int)) s fun r s' =>
      (∀ v, r = .inl v → v.1 = change + 1 ∧ Progressed s idx s' v.2) ∧
      ∀ v, r = .inr v → v = (change, idx) ∧ s' = s := by
    refine run_pure ⟨fun v hv => (by cases hv), fun v hv => ?_⟩
    cases hv
    exact ⟨rfl, rfl⟩
  refine run_get (run_ite (fun _ => hstop) fun hc => run_ite (fun _ => hstop) fun hne => ?_)
  rw [not_not] at hc
  rw [not_or] at hne
  refine ⟨.inl _, _, rfl, fun v hv => ?_, fun v hv => by cases hv⟩
  cases hv
  exact ⟨rfl, Progressed.splice h0 hc.1 hspans hne.1⟩

/-- A round between two indices goes on nearer to the end, or stops. -/
theorem updateAllStep_run {s : State} {idx endId : Int} (h0 : 0 ≤ idx)
    (hspans : Spanned s.treeIdMap) :
    Run (updateAllStep (idx, endId)) s fun r s' =>
      (∀ v, r = .inl v → Progressed s idx s' v.1) ∧ ∀ v, r = .inr v → s' = s := by
  have hnext : idx < s.mangled.length →
      Run (pure (.inl (idx + 1, endId)) : Scan (Int × Int ⊕ Unit)) s fun r s' =>
        (∀ v, r = .inl v → Progressed s idx s' v.1) ∧ ∀ v, r = .inr v → s' = s := by
    intro hidx
    refine run_pure ⟨fun v hv => ?_, fun v hv => rfl⟩
    cases hv
    exact Progressed.next hidx
  have hstop : Run (pure (.inr ()) : Scan (Int × Int ⊕ Unit)) s fun r s' =>
      (∀ v, r = .inl v → Progressed s idx s' v.1) ∧ ∀ v, r = .inr v → s' = s :=
    run_pure ⟨fun v hv => (by cases hv), fun v hv => rfl⟩
  refine run_get (run_ite (fun _ => hstop) fun hc => ?_)
  rw [not_not] at hc
  refine run_ite (fun hY => ?_) fun _ => hnext hc.2
  -- a number, an entry of the table, an entry with a length
  refine run_ite (fun _ => hnext hc.2) fun hne => run_ite (fun _ => hstop) fun _ =>
    run_ite (fun _ => hnext hc.2) fun _ => ?_
  refine ⟨.inl _, _, rfl, fun v hv => ?_, fun v hv => by cases hv⟩
  cases hv
  exact Progressed.splice h0 hc.2 hspans hne

/-! ## The runs -/

/-- What the expansion at `idx` returns: no reference, or an end behind `idx`. -/
structure ExpandedTo (idx : Int) (s : State) (v : Int × Int) (s' : State) : Prop where
  expanded : Expanded idx s s'
  change : 0 ≤ v.1
  le : idx ≤ v.2
  none : v.1 = 0 → v.2 = idx ∧ s' = s

/-- How far it is from the cursor to the end of the text. -/
def left (idx : Int) (s : State) : Nat := (s.mangled.length - idx).toNat

section Runs

variable {s : State} {idx sid eid : Int} {fuel : Nat}

/-- A round of the loop at an index: it goes on with less left, or it ends, and the text before the
    index stays. -/
theorem updateLoop_round (h0 : 0 ≤ idx) (hspans : Spanned s.treeIdMap) :
    ∀ v t, ExpandedTo idx s v t → Run (updateStep v) t fun r t' =>
      (∀ v', r = .inl v' → ExpandedTo idx s v' t' ∧ left v'.2 t' < left v.2 t) ∧
      ∀ v', r = .inr v' → ExpandedTo idx s v' t' := by
  rintro ⟨change, cur⟩ t ⟨hexp, hchange, hle, hnone⟩
  have hspans' : Spanned t.treeIdMap := by rwa [hexp.treeIdMap]
  refine (updateStep_run (Int.le_trans h0 hle) hspans').mono ?_
  rintro r t' ⟨hinl, hinr⟩
  constructor
  · intro v hv
    obtain ⟨hv1, hprog⟩ := hinl v hv
    refine ⟨⟨hexp.trans hprog.expanded hle, ?_, Int.le_trans hle hprog.le, ?_⟩, hprog.less⟩
    · rw [hv1]
      exact Int.le_add_one hchange
    · intro hzero
      rw [hv1] at hzero
      omega
  · intro v hv
    obtain ⟨rfl, rfl⟩ := hinr v hv
    exact ⟨hexp, hchange, hle, hnone⟩

/-- A round of the loop between two indices, with the same measure. -/
theorem updateAllLoop_round (h0 : 0 ≤ sid) (hspans : Spanned s.treeIdMap) :
    ∀ (v : Int × Int) t, sid ≤ v.1 ∧ Expanded sid s t → Run (updateAllStep v) t fun r t' =>
      (∀ v', r = .inl v' → (sid ≤ v'.1 ∧ Expanded sid s t') ∧ left v'.1 t' < left v.1 t) ∧
      ∀ v', r = .inr v' → Expanded sid s t' := by
  rintro ⟨cur, endId⟩ t ⟨hle, hexp⟩
  have hspans' : Spanned t.treeIdMap := by rwa [hexp.treeIdMap]
  refine (updateAllStep_run (Int.le_trans h0 hle) hspans').mono ?_
  rintro r t' ⟨hinl, hinr⟩
  constructor
  · intro v hv
    have hprog := hinl v hv
    exact ⟨⟨Int.le_trans hle hprog.le, hexp.trans hprog.expanded hle⟩, hprog.less⟩
  · intro v hv
    rw [hinr v hv]
    exact hexp

/-- Where the loop starts nothing is expanded yet. -/
theorem ExpandedTo.refl (idx : Int) (s : State) : ExpandedTo idx s (0, idx) s :=
  ⟨Expanded.refl idx s, Int.le_refl 0, Int.le_refl idx, fun _ => ⟨rfl, rfl⟩⟩

/-- The expansion at an index, with any fuel. -/
theorem updateCompressedName_ifReturns (h0 : 0 ≤ idx) (hspans : Spanned s.treeIdMap) :
    IfReturns (updateCompressedName fuel idx) s (ExpandedTo idx s) :=
  ifReturns_iterate_measure _ _ (updateLoop_round h0 hspans) fuel (0, idx) s (ExpandedTo.refl idx s)

/-- The expansion between two indices, with any fuel. -/
theorem updateCompressedNames_ifReturns (h0 : 0 ≤ sid) (hspans : Spanned s.treeIdMap) :
    IfReturns (updateCompressedNames fuel sid eid) s fun _ => Expanded sid s :=
  ifReturns_iterate_measure _ _ (updateAllLoop_round h0 hspans) fuel (sid, eid) s
    ⟨Int.le_refl sid, Expanded.refl sid s⟩

/-- **Expansion ends.**  For every text and every table without negative lengths, both loops end
    within as many rounds as the text has characters behind the index, and one more; they change
    nothing but the text, and nothing of the text before the index. -/
theorem updateCompressedName_ends (h0 : 0 ≤ idx) (hspans : Spanned s.treeIdMap)
    (hfuel : (s.mangled.length - idx).toNat < fuel) :
    Run (updateCompressedName fuel idx) s (ExpandedTo idx s) ∧
      ∀ eid, Run (updateCompressedNames fuel idx eid) s fun _ => Expanded idx s :=
  ⟨run_iterate_measure _ _ (updateLoop_round h0 hspans) fuel (0, idx) s (ExpandedTo.refl idx s) hfuel,
    fun eid => run_iterate_measure _ _ (updateAllLoop_round h0 hspans) fuel (idx, eid) s
      ⟨Int.le_refl idx, Expanded.refl idx s⟩ hfuel⟩

end Runs

/-- `Y_` names `2ab` here, and stands for it once. -/
theorem updateCompressedName_ends_name :
    Run (updateCompressedName 8 3) ⟨ascii "2abY_C", 0, true, ⟨[⟨0, 3⟩], 7⟩⟩
      (ExpandedTo 3 ⟨ascii "2abY_C", 0, true, ⟨[⟨0, 3⟩], 7⟩⟩) :=
  (updateCompressedName_ends (by decide) (by unfold Spanned; decide) (by decide +kernel)).1

end CangjieRuntime.Demangle.DeCompression
