/-
  The recording scanner on a text without back-references.

  A text that `IsCompressed` turns down may hold a `Y`, but none with a number behind it.  Nothing is
  expanded in it, and the scanner that records then does what the one of `ForwardType.lean` does that
  does not: the table fills and shrinks, but the text stays, and the cursor goes the same way.  It
  also ends: a nested scan starts behind the outer one, so that the fuel that is left covers what is
  left of the text, also in the loop over the whole rest of it (`TreeIdMapErase`).

  Every function of the one scanner is compared with its counterpart, by `Ends`.
-/
import CangjieRuntime.Demangle.Recording
import CangjieRuntime.Demangle.TypeGrammar

set_option linter.unusedVariables false

namespace CangjieRuntime.Demangle.DeCompression

open CangjieRuntime.Computation

/-- A scan that ends where the scan `p` of the same text does, behind `idx`, and keeps the text. -/
structure Ends (p : Demangle.Scan Nat) (text : RtString) (idx : Nat) (r : Int) (s' : State) : Prop where
  still : s'.mangled = text
  eq : ∃ i : Nat, r = i ∧ idx ≤ i ∧ p text = some (i, text)

/-- What ends behind a place ends behind an earlier one. -/
theorem Ends.mono {p q : Demangle.Scan Nat} {text : RtString} {idx idx' : Nat} {r : Int} {s' : State}
    (h : Ends p text idx r s') (hle : idx' ≤ idx) (heq : q text = p text) :
    Ends q text idx' r s' := by
  obtain ⟨hstill, i, hr, hi, hp⟩ := h
  exact ⟨hstill, i, hr, Nat.le_trans hle hi, heq.trans hp⟩

/-! ## Expansion does nothing -/

section Plain

variable {text : RtString} {s : State} {fuel : Nat} {treeIdMap : TreeIdMap}

/-- A `Y` of such a text has no number behind it. -/
theorem plain_number (hplain : isCompressed text = false) {pos : Nat} (hpos : pos < text.length)
    (hY : text.byte pos = 89) : Demangle.forwardNumber text (pos + 1) = pos + 1 := by
  by_contra hne
  have hfound : isCompressed text = true :=
    List.any_eq_true.mpr ⟨pos, List.mem_range.mpr hpos, decide_eq_true ⟨hY, hne⟩⟩
  rw [hplain] at hfound
  exact Bool.false_ne_true hfound

/-- In a name that is not compressed a `Y` is no reference: its scan ends right behind it. -/
theorem plain_reference (hplain : isCompressed text = false) (hs : s.mangled = text) {pos : Nat}
    (hpos : pos < text.length) (hY : text.byte pos = 89) :
    (reference s pos).2 = (pos : Int) + 1 := by
  show forwardNumber s.mangled ((pos : Int) + 1) = (pos : Int) + 1
  rw [hs, show (pos : Int) + 1 = ((pos + 1 : Nat) : Int) from rfl, forwardNumber_natCast,
    plain_number hplain hpos hY]

/-- In such a name no reference is resolved, and the text stays. -/
theorem updateCompressedName_plain (hplain : isCompressed text = false) (hs : s.mangled = text)
    (idx : Nat) : updateCompressedName (fuel + 1) idx s = some ((0, (idx : Int)), s) := by
  refine iterate_inr ?_
  rw [updateStep, get_bind]
  dsimp only
  by_cases hY : (idx : Int) < s.mangled.length ∧ byteAt s.mangled idx = 89 ∧ ¬ s.treeIdMap.isEmpty
  · rw [if_neg (not_not.mpr hY)]
    have hpos : idx < text.length := by rw [← hs]; omega
    have hbyte : text.byte idx = 89 := by
      rw [← hs, ← byteAt_natCast]
      exact hY.2.1
    exact congrFun (if_pos (Or.inl (plain_reference hplain hs hpos hbyte))) s
  · rw [if_pos hY]
    rfl

/-- The same for the scan without a table. -/
theorem updateCompressedName_plain' (hplain : isCompressed text = false) (idx : Nat) :
    Demangle.updateCompressedName treeIdMap (fuel + 1) idx text = some ((0, idx), text) := by
  refine iterate_inr ?_
  rw [Demangle.updateStep, get_bind]
  dsimp only
  by_cases hY : idx < text.length ∧ text.byte idx = 89 ∧ ¬ treeIdMap.isEmpty
  · rw [if_neg (not_not.mpr hY)]
    exact congrFun (if_pos (plain_number hplain hY.1 hY.2.1)) text
  · rw [if_pos hY]
    rfl

/-- The loop over the rest of the text passes over all of it. -/
theorem updateCompressedNames_plain (hplain : isCompressed text = false) (hs : s.mangled = text)
    {sid : Nat} {eid : Int} (hfuel : text.length - sid < fuel) :
    Run (updateCompressedNames fuel sid eid) s fun _ s' => s' = s := by
  refine run_iterate_measure (fun v t => 0 ≤ v.1 ∧ t = s) (fun v t => left v.1 t) ?_ fuel
    ((sid : Int), eid) s ⟨Int.natCast_nonneg sid, rfl⟩ (by rw [left, hs]; omega)
  rintro ⟨idx, endId⟩ t ⟨h0, rfl⟩
  have h0 : 0 ≤ idx := h0
  obtain ⟨i, rfl⟩ := Int.eq_ofNat_of_zero_le h0
  have hnext : (i : Int) < t.mangled.length →
      Run (pure (.inl ((i : Int) + 1, endId)) : Scan (Int × Int ⊕ Unit)) t fun r s' =>
        (∀ v, r = .inl v → (0 ≤ v.1 ∧ s' = t) ∧ left v.1 s' < left i t) ∧
          ∀ v, r = .inr v → s' = t := by
    intro hlt
    refine run_pure ⟨fun v hv => ?_, fun v hv => by cases hv⟩
    cases hv
    exact ⟨⟨by omega, rfl⟩, (Progressed.next hlt).less⟩
  refine run_get (run_ite (fun _ => run_pure ⟨fun v hv => (by cases hv), fun v hv => rfl⟩)
    fun hc => ?_)
  rw [not_not] at hc
  refine run_ite (fun hY => ?_) fun _ => hnext hc.2
  have hpos : i < text.length := by rw [← hs]; omega
  have hbyte : text.byte i = 89 := by
    rw [← hs, ← byteAt_natCast]
    exact hY.1
  exact run_ite (fun _ => hnext hc.2) fun hne => absurd (plain_reference hplain hs hpos hbyte) hne

end Plain

/-! ## The table -/

section Table

variable {text : RtString} {s : State} {fuel : Nat}

/-- The text is still the one the scan started with. -/
def Still (text : RtString) (s : State) : Prop := s.mangled = text

/-- A step under a condition is done or not. -/
theorem run_onlyIf {c : Prop} [Decidable c] {m : Scan Unit} {Q : Unit → State → Prop}
    (ht : c → Run m s Q) (hf : ¬ c → Q () s) : Run (onlyIf c m) s Q :=
  run_ite ht fun h => run_pure (hf h)

/-- To record a type changes the table, and no text. -/
theorem pushRecorded_still {c : Prop} [Decidable c] (hs : Still text s) (idx nextIdx : Int) :
    Run (pushRecorded c idx nextIdx) s fun _ => Still text := by
  refine run_get (run_onlyIf (fun _ => ⟨(), _, pushCounted_eq s _, ?_⟩) fun _ => hs)
  rw [pushed]
  split <;> exact hs

/-- Nor does it change the text to take an entry off the table. -/
theorem popStep_still (hs : Still text s) (n : Nat) : Still text (Nat.iterate popStep n s) := by
  induction n generalizing s with
  | zero => exact hs
  | succ n ih =>
    refine ih ?_
    exact hs

/-- So the end of a type leaves the text. -/
theorem popRecorded_still (hs : Still text s) (curCnt : Int) :
    Run (popRecorded curCnt) s fun _ => Still text :=
  run_get (run_onlyIf (fun _ => run_modify (popStep_still hs _)) fun _ => hs)

/-- The assignment after a reference scans for more of them and finds none, and so the text
    stays. -/
theorem treeIdMapAssign_still (hplain : isCompressed text = false) (hs : Still text s) {idx : Nat}
    (hfuel : text.length - idx < fuel) (mapId nextIdx : Int) :
    Run (treeIdMapAssign fuel text mapId idx nextIdx) s fun _ => Still text := by
  refine run_get (run_ite (fun _ => run_pure hs) fun _ => ?_)
  refine Run.bind (run_modify rfl) (P := fun _ t => t = assigned s mapId (nextIdx - idx)) ?_
  rintro - t rfl
  refine run_get (run_onlyIf (fun _ => ?_) fun _ => hs)
  refine Run.bind (run_modify rfl) (P := fun _ t =>
    t = { assigned s mapId (nextIdx - idx) with mangled := text }) ?_
  rintro - t rfl
  refine Run.bind (run_modify rfl) (P := fun _ t => t = ⟨text, s.cnt, s.isRecord,
    (assigned s mapId (nextIdx - idx)).treeIdMap.removeAt mapId⟩) ?_
  rintro - t rfl
  refine run_get ((updateCompressedNames_plain hplain rfl hfuel).bind ?_)
  rintro - t rfl
  exact run_modify rfl

end Table

/-! ## The scanners -/

section Scanner

variable {text : RtString} {s : State} {fuel idx lo : Nat} {treeIdMap : TreeIdMap}
  {next : Int → Scan Int} {next' : Nat → Demangle.Scan Nat}

/-- On a cursor from 0 on both scans over the number of a file agree. -/
theorem forwardFileNameNumber_natCast {mangled : RtString} (i : Nat) :
    forwardFileNameNumber mangled i = (Demangle.forwardFileNameNumber mangled i : Int) := by
  rw [forwardFileNameNumber, if_neg (by omega), Int.toNat_natCast]

/-- Both scans return the cursor where they are. -/
theorem run_ends {p : Demangle.Scan Nat} {i : Nat} (hs : Still text s) (hle : idx ≤ i)
    (hp : p text = some (i, text)) : Run (pure (i : Int)) s (Ends p text idx) :=
  run_pure ⟨hs, i, rfl, hle, hp⟩

/-- Both scans pass a package in the same way. -/
theorem forwardPackageName_ends (hs : Still text s) :
    Run (forwardPackageName idx) s (Ends (Demangle.forwardPackageName idx) text idx) := by
  have hcast : (if isStdPkgName s.mangled idx then (idx : Int) + 2 else forwardName s.mangled idx) =
      ((if Demangle.isStdPkgName text idx then idx + 2 else Demangle.forwardName text idx : Nat) :
        Int) := by
    rw [hs, isStdPkgName_natCast, forwardName_natCast]
    split <;> rfl
  have hcur : (idx : Int) ≤ (if Demangle.isStdPkgName text idx then idx + 2
      else Demangle.forwardName text idx : Nat) := by
    rw [← hcast]
    have := le_forwardName s.mangled (Int.natCast_nonneg idx)
    split <;> omega
  refine run_get ?_
  rw [hcast]
  generalize hdef : (if Demangle.isStdPkgName text idx then idx + 2
    else Demangle.forwardName text idx) = cur at hcur
  have hplain : Demangle.forwardPackageName idx text =
      (if cur < text.length ∧ text.byte cur = 85 then
        some (Demangle.forwardFileNameNumber text (cur + 1), text) else some (cur, text)) := by
    rw [Demangle.forwardPackageName, get_bind, hdef]
    split <;> rfl
  refine (pushRecorded_still hs idx cur).bind ?_
  rintro - s₁ h₁
  refine run_get (run_ite (fun hc => ?_) fun hc => ?_)
  · rw [h₁, byteAt_natCast] at hc
    have hfid := le_forwardFileNameNumber text (show (0 : Int) ≤ (cur : Int) + 1 by omega)
    rw [h₁]
    rw [show (cur : Int) + 1 = ((cur + 1 : Nat) : Int) from rfl, forwardFileNameNumber_natCast] at *
    refine (pushRecorded_still h₁ _ _).bind ?_
    rintro - s₂ h₂
    exact run_ends h₂ (by omega) (by rw [hplain, if_pos ⟨by omega, hc.2⟩])
  · rw [h₁, byteAt_natCast] at hc
    exact run_ends h₁ (by omega) (by rw [hplain, if_neg fun hc' => hc ⟨by omega, hc'.2⟩])

/-- The cursors of two loops that go side by side. -/
def Beside (text : RtString) (lo : Nat) (r : Int) (s : State) (i : Nat) (t : RtString) : Prop :=
  r = i ∧ lo ≤ i ∧ Still text s ∧ t = text

/-- Scans that go on beside each other end with the same cursor and the same text. -/
theorem Beside.ends {p : Demangle.Scan Nat} {r : Int} {s' : State}
    (h : ∃ i t, p text = some (i, t) ∧ Beside text idx r s' i t) : Ends p text idx r s' := by
  obtain ⟨i, t, hp, hr, hle, hstill, rfl⟩ := h
  exact ⟨hstill, i, hr, hle, hp⟩

/-- A list of types. -/
theorem forwardTypes_ends (hnext : ∀ (i : Nat) s, lo ≤ i → Still text s →
    Run (next i) s (Ends (next' i) text i)) (cur : Nat) (hlo : lo ≤ cur) (hs : Still text s)
    (hfuel : text.length - cur < fuel) :
    Run (forwardTypes fuel next cur) s (Ends (Demangle.forwardTypes fuel next' cur) text cur) := by
  refine (run_iterate_beside (fun i t => text.length - i) ?_ fuel (cur : Int) s cur text
    (show Beside text cur (cur : Int) s cur text from ⟨rfl, Nat.le_refl _, hs, rfl⟩) hfuel).mono
    fun r s' h => Beside.ends h
  rintro r t i text ⟨rfl, hle, ht, rfl⟩
  refine run_get (run_ite (fun hend => ?_) fun hend => ?_)
  · rw [ht, byteAt_natCast] at hend
    refine run_pure (Or.inr ⟨i, i, _, rfl, ?_, rfl, hle, ht, rfl⟩)
    rw [Demangle.forwardTypesStep, get_bind, if_pos fun hc => hend ⟨by omega, hc.2⟩]
    rfl
  · rw [not_not, ht, byteAt_natCast] at hend
    refine (hnext i t (by omega) ht).bind ?_
    rintro _ t' ⟨hstill, j, rfl, hj, hp⟩
    have hround : ∀ r, (if j = i then pure (.inr j) else pure (.inl j) : Demangle.Scan (Nat ⊕ Nat))
        text = some r → Demangle.forwardTypesStep next' i text = some r := by
      intro r hr
      rw [Demangle.forwardTypesStep, get_bind, if_neg (not_not.mpr ⟨by omega, hend.2⟩), bind_of_eq hp]
      exact hr
    refine run_ite (fun hsame => run_pure (Or.inr ⟨j, j, _, rfl, ?_, rfl, by omega, hstill, rfl⟩))
      fun hmore => run_pure (Or.inl ⟨j, j, _, rfl, ?_, ⟨rfl, by omega, hstill, rfl⟩, by omega⟩)
    · exact hround _ (by rw [if_pos (by omega)]; rfl)
    · exact hround _ (by rw [if_neg (by omega)]; rfl)

/-- The recorder takes its entries off before it returns; the plain scan has none. -/
theorem popped_ends {p : Demangle.Scan Nat} {curCnt : Int} (hs : Still text s)
    (hp : p text = some (idx, text)) :
    Run (do popRecorded curCnt; return (idx : Int)) s (Ends p text idx) :=
  (popRecorded_still hs curCnt).bind fun _ t ht => run_ends ht (Nat.le_refl idx) hp

/-- The loops over types agree if the scans of a type do, by induction on the fuel. -/
theorem forwardTypesEnd_ends (hnext : ∀ (i : Nat) s, lo ≤ i → Still text s →
    Run (next i) s (Ends (next' i) text i)) (startId : Nat) (hlo : lo ≤ startId)
    (hle : idx ≤ startId) (hs : Still text s) (hfuel : text.length - startId < fuel) (curCnt : Int) :
    Run (forwardTypesEnd fuel next idx startId curCnt) s
      (Ends (Demangle.forwardTypesEnd fuel next' idx startId) text idx) := by
  refine (forwardTypes_ends hnext startId hlo hs hfuel).bind ?_
  rintro _ t ⟨hstill, i, rfl, hi, hp⟩
  have hplain : Demangle.forwardTypesEnd fuel next' idx startId text =
      (if i < text.length ∧ text.byte i = 69 then pure (i + 1) else pure idx : Demangle.Scan Nat)
        text := by
    rw [Demangle.forwardTypesEnd, bind_of_eq hp, get_bind]
  refine run_get (run_ite (fun hend => ?_) fun hend => ?_)
  · rw [hstill, byteAt_natCast] at hend
    refine run_ends (i := i + 1) hstill (by omega) ?_
    rw [hplain, if_pos ⟨by omega, hend.2⟩]
    rfl
  · rw [hstill, byteAt_natCast] at hend
    refine popped_ends hstill ?_
    rw [hplain, if_neg fun hc => hend ⟨by omega, hc.2⟩]
    rfl

/-- The scans over a class agree if those over its arguments do. -/
theorem forwardClassType_ends (hplain : isCompressed text = false)
    (hnext : ∀ (i : Nat) s, idx + 1 ≤ i → Still text s → Run (next i) s (Ends (next' i) text i))
    (hs : Still text s) (hfuel : text.length - idx < fuel + 1) :
    Run (forwardClassType (fuel + 1) next idx) s
      (Ends (Demangle.forwardClassType treeIdMap (fuel + 1) next' idx) text idx) := by
  refine run_get (run_ite (fun hc => ?_) fun hc => ?_)
  · -- no class begins here
    refine run_ends hs (Nat.le_refl idx) ?_
    rw [Demangle.forwardClassType, get_bind, if_pos]
    · rfl
    · rw [hs, show (idx : Int) + 1 = ((idx + 1 : Nat) : Int) from rfl, byteAt_natCast,
        byteAt_natCast] at hc
      exact fun hc' => hc ⟨by omega, hc'.2⟩
  · rw [not_not, hs, show (idx : Int) + 1 = ((idx + 1 : Nat) : Int) from rfl, byteAt_natCast,
      byteAt_natCast] at hc
    refine Run.bind ⟨_, s, updateCompressedName_plain hplain hs (idx + 2), rfl⟩
      (P := fun _ t => t = s) ?_
    rintro - t rfl
    have hrun : Run (forwardPackageName ((idx + 2 : Nat) : Int)) t
        (Ends (Demangle.forwardPackageName (idx + 2)) text (idx + 2)) := forwardPackageName_ends hs
    refine hrun.bind ?_
    rintro _ s₁ ⟨h₁, fid, rfl, hfid, hpackage⟩
    refine Run.bind ⟨_, s₁, updateCompressedName_plain hplain h₁ fid, rfl⟩
      (P := fun _ t => t = s₁) ?_
    rintro - t rfl
    have hcur : (fid : Int) ≤ (Demangle.forwardName text fid : Int) := by
      rw [← forwardName_natCast]
      exact le_forwardName text (Int.natCast_nonneg fid)
    have hclass : Demangle.forwardClassType treeIdMap (fuel + 1) next' idx text =
        (if Demangle.forwardName text fid < text.length ∧
            text.byte (Demangle.forwardName text fid) = 73 then do
          let genericIdx ← Demangle.forwardGenericTypes (fuel + 1) next'
            (Demangle.forwardName text fid)
          if Demangle.forwardName text fid ≠ genericIdx then return genericIdx else return idx
        else if Demangle.forwardName text fid < text.length ∧
            text.byte (Demangle.forwardName text fid) = 69 then
          return Demangle.forwardName text fid + 1
        else return idx : Demangle.Scan Nat) text := by
      rw [Demangle.forwardClassType, get_bind, if_neg (not_not.mpr ⟨by omega, hc.2⟩),
        bind_of_eq (updateCompressedName_plain' hplain _), bind_of_eq hpackage,
        bind_of_eq (updateCompressedName_plain' hplain _), get_bind]
    refine run_get ?_
    rw [h₁, forwardName_natCast]
    generalize Demangle.forwardName text fid = cur at hcur hclass
    refine (pushRecorded_still h₁ _ _).bind ?_
    rintro - s₂ h₂
    refine run_get ?_
    rw [h₂, byteAt_natCast]
    refine run_ite (fun hI => ?_) fun hI => run_ite (fun hE => ?_) fun hE => ?_
    · -- the generic arguments
      rw [if_pos ⟨by omega, hI.2⟩] at hclass
      refine Run.bind (run_get (forwardTypesEnd_ends hnext (cur + 1) (by omega)
        (show cur ≤ cur + 1 by omega) h₂ (by omega) _)) ?_
      rintro _ s₃ ⟨h₃, j, rfl, hj, hgeneric⟩
      rw [bind_of_eq (show Demangle.forwardGenericTypes (fuel + 1) next' cur text = _ from hgeneric)]
        at hclass
      refine run_ite (fun hne => ?_) fun heq => ?_
      · rw [if_pos (by omega)] at hclass
        exact run_ends h₃ (by omega) hclass
      · rw [if_neg (by omega)] at hclass
        exact popped_ends h₃ hclass
    · -- no arguments, and the `E` is there
      rw [if_neg fun hc' => hI ⟨by omega, hc'.2⟩, if_pos ⟨by omega, hE.2⟩] at hclass
      exact run_ends (i := cur + 1) h₂ (by omega) hclass
    · -- neither: what was recorded is popped
      rw [if_neg fun hc' => hI ⟨by omega, hc'.2⟩, if_neg fun hc' => hE ⟨by omega, hc'.2⟩] at hclass
      exact popped_ends h₂ hclass

/-- The scans over a function type agree. -/
theorem forwardFunctionType_ends
    (hnext : ∀ (i : Nat) s, idx + 1 ≤ i → Still text s → Run (next i) s (Ends (next' i) text i))
    (hs : Still text s) (hlt : idx < text.length) (hfuel : text.length - idx < fuel + 1) :
    Run (forwardFunctionType (fuel + 1) next idx) s
      (Ends (Demangle.forwardFunctionType (fuel + 1) next' idx) text idx) := by
  refine run_get ((hnext (idx + 2) s (by omega) hs).bind ?_)
  rintro _ t ⟨ht, i, rfl, hi, hp⟩
  refine (forwardTypesEnd_ends hnext i (by omega) (show idx ≤ i by omega) ht (by omega) _).mono ?_
  intro r t' h
  refine h.mono (Nat.le_refl idx) ?_
  rw [Demangle.forwardFunctionType, bind_of_eq hp]

/-- The scans over a tuple agree. -/
theorem forwardTupleType_ends
    (hnext : ∀ (i : Nat) s, idx + 1 ≤ i → Still text s → Run (next i) s (Ends (next' i) text i))
    (hs : Still text s) (hfuel : text.length - idx < fuel + 1) :
    Run (forwardTupleType (fuel + 1) next idx) s
      (Ends (Demangle.forwardTupleType (fuel + 1) next' idx) text idx) := by
  have hcur : ((idx + 1 : Nat) : Int) ≤ (Demangle.forwardNumber text (idx + 1) : Int) := by
    rw [← forwardNumber_natCast]
    exact le_forwardNumber_int text (Int.natCast_nonneg _)
  refine run_get ?_
  rw [hs, show (idx : Int) + 1 = ((idx + 1 : Nat) : Int) from rfl, forwardNumber_natCast]
  refine run_ite (fun hc => ?_) fun hc => ?_
  · refine run_ends hs (Nat.le_refl idx) ?_
    rw [Demangle.forwardTupleType, get_bind, if_pos (by omega)]
    rfl
  · generalize hnumber : Demangle.forwardNumber text (idx + 1) = cur at hcur hc
    have hsub : subStr text ((idx + 1 : Nat) : Int) ((cur : Int) - idx - 1) =
        RtString.subStr text (idx + 1) (cur - idx - 1) := by
      rw [show (cur : Int) - idx - 1 = ((cur - idx - 1 : Nat) : Int) by omega, subStr_natCast]
    rw [hsub]
    generalize htyCnt : getNumber (RtString.subStr text (idx + 1) (cur - idx - 1)) = tyCnt
    -- the types of the tuple, one by one
    have hloop : Run (iterate (tupleStep next) (fuel + 1) (tyCnt, (cur : Int))) s
        (Ends (fun text => iterate (Demangle.tupleStep next') (fuel + 1) (tyCnt, cur) text) text
          cur) := by
      refine (run_iterate_beside (I := fun (v : BitVec 64 × Int) t (v' : BitVec 64 × Nat) t' =>
        v.1 = v'.1 ∧ Beside text cur v.2 t v'.2 t') (fun v' t => text.length - v'.2) ?_ (fuel + 1)
        (tyCnt, (cur : Int)) s (tyCnt, cur) text ⟨rfl, rfl, Nat.le_refl _, hs, rfl⟩
        (show text.length - cur < fuel + 1 by omega)).mono fun r s' h => Beside.ends h
      rintro ⟨cnt, r⟩ t ⟨cnt', i⟩ text ⟨hcnt, hr, hle, ht, rfl⟩
      obtain rfl : cnt = cnt' := hcnt
      obtain rfl : r = (i : Int) := hr
      have hle : cur ≤ i := hle
      refine run_get (run_ite (fun hend => ?_) fun hend => ?_)
      · rw [ht, byteAt_natCast] at hend
        refine run_pure (Or.inr ⟨i, i, _, rfl, ?_, rfl, hle, ht, rfl⟩)
        rw [Demangle.tupleStep, get_bind, if_pos fun hc => hend ⟨by omega, hc.2⟩]
        rfl
      · rw [not_not, ht, byteAt_natCast] at hend
        refine (hnext i t (by omega) ht).bind ?_
        rintro _ t' ⟨hstill, j, rfl, hj, hp⟩
        have hround : ∀ r, (if j = i then pure (.inr i) else pure (.inl (cnt - 1, j)) :
            Demangle.Scan (BitVec 64 × Nat ⊕ Nat)) text = some r →
            Demangle.tupleStep next' (cnt, i) text = some r := by
          intro r hr
          rw [Demangle.tupleStep, get_bind, if_neg (not_not.mpr ⟨by omega, hend.2⟩), bind_of_eq hp]
          exact hr
        refine run_ite (fun hsame => run_pure (Or.inr ⟨_, i, _, rfl, ?_, rfl, hle, hstill, rfl⟩))
          fun hmore => run_pure (Or.inl ⟨_, (cnt - 1, j), _, rfl, ?_,
            ⟨rfl, rfl, show cur ≤ j by omega, hstill, rfl⟩, ?_⟩)
        · exact hround _ (by rw [if_pos (by omega)]; rfl)
        · exact hround _ (by rw [if_neg (by omega)]; rfl)
        · show text.length - j < text.length - i
          omega
    refine hloop.bind ?_
    rintro _ t ⟨ht, j, rfl, hj, hp⟩
    have htuple : Demangle.forwardTupleType (fuel + 1) next' idx text =
        (if cur ≠ j ∧ j < text.length ∧ text.byte j = 69 then pure (j + 1) else pure idx :
          Demangle.Scan Nat) text := by
      rw [Demangle.forwardTupleType, get_bind, hnumber, if_neg (by omega), htyCnt, bind_of_eq hp,
        get_bind]
    refine run_get (run_ite (fun hend => ?_) fun hend => ?_)
    · rw [ht, byteAt_natCast] at hend
      rw [if_pos ⟨by omega, by omega, hend.2.2⟩] at htuple
      exact run_ends (i := j + 1) ht (by omega) htuple
    · rw [ht, byteAt_natCast] at hend
      rw [if_neg fun hc' => hend ⟨by omega, by omega, hc'.2.2⟩] at htuple
      exact popped_ends ht htuple

/-- The scans over a pointer agree. -/
theorem forwardCPointer_ends
    (hnext : ∀ (i : Nat) s, idx + 1 ≤ i → Still text s → Run (next i) s (Ends (next' i) text i))
    (hs : Still text s) :
    Run (forwardCPointer next idx) s (Ends (next' (idx + 1)) text idx) :=
  (hnext (idx + 1) s (Nat.le_refl _) hs).mono fun r t h => h.mono (Nat.le_succ idx) rfl

/-- The scans over an array agree. -/
theorem forwardArrayType_ends
    (hnext : ∀ (i : Nat) s, idx + 1 ≤ i → Still text s → Run (next i) s (Ends (next' i) text i))
    (hs : Still text s) :
    Run (forwardArrayType next idx) s (Ends (Demangle.forwardArrayType next' idx) text idx) := by
  have hcur : ((idx + 1 : Nat) : Int) ≤ (Demangle.forwardNumber text (idx + 1) : Int) := by
    rw [← forwardNumber_natCast]
    exact le_forwardNumber_int text (Int.natCast_nonneg _)
  -- the type of the elements
  have helement : Run (forwardElement next idx) s fun r t => Still text t ∧
      ((∃ i : Nat, r = some (i : Int) ∧ idx ≤ i ∧
        Demangle.forwardArrayType next' idx text = some (i, text)) ∨
      r = none ∧ Demangle.forwardArrayType next' idx text = some (idx, text)) := by
    refine run_get ?_
    rw [hs, show (idx : Int) + 1 = ((idx + 1 : Nat) : Int) from rfl, forwardNumber_natCast]
    generalize hnumber : Demangle.forwardNumber text (idx + 1) = cur at hcur
    refine run_ite (fun hc => ?_) fun hc => run_pure ⟨hs, Or.inr ⟨rfl, ?_⟩⟩
    · refine (hnext cur s (by omega) hs).bind ?_
      rintro _ t ⟨ht, j, rfl, hj, hp⟩
      have harray : Demangle.forwardArrayType next' idx text =
          (if j ≠ cur then pure j else pure idx : Demangle.Scan Nat) text := by
        rw [Demangle.forwardArrayType, get_bind, if_pos (by omega), hnumber, if_pos (by omega),
          bind_of_eq hp]
      by_cases hsame : j = cur
      · rw [if_neg (not_not.mpr hsame)] at harray
        refine run_pure ⟨ht, Or.inr ⟨?_, harray⟩⟩
        rw [if_neg (by omega)]
      · rw [if_pos hsame] at harray
        refine run_pure ⟨ht, Or.inl ⟨j, ?_, by omega, harray⟩⟩
        rw [if_pos (by omega)]
    · rw [Demangle.forwardArrayType, get_bind, hnumber]
      split
      · rw [if_neg (by omega)]
        rfl
      · rfl
  refine run_get (helement.bind ?_)
  rintro _ t ⟨ht, ⟨i, rfl, hi, hp⟩ | ⟨rfl, hp⟩⟩
  · exact run_ends ht hi hp
  · exact popped_ends ht hp

/-- The characters of the cases. -/
theorem toNat_of_char {ch : UInt8} {c : Char} (h : Char.ofNat ch.toNat = c) : ch.toNat = c.toNat := by
  have hlt := ch.toNat_lt
  rw [← h, Char.ofNat, dif_pos (Or.inl (by omega))]
  rfl

/-- The types with an entry in the table, as the plain scan selects them. -/
theorem forwardTypeBy_entry {ch : UInt8} (hk : ch ≠ 107) (hY : ch ≠ 89)
    (hprimitive : ¬ isPrimitiveType ch = true) :
    forwardTypeBy treeIdMap fuel next' text ch idx =
      if ch = 67 ∨ ch = 82 ∨ ch = 78 then Demangle.forwardClassType treeIdMap fuel next' idx
      else if ch = 70 then
        if idx + 1 < text.length ∧ (text.byte (idx + 1) = 48 ∨ text.byte (idx + 1) = 67) then
          Demangle.forwardFunctionType fuel next' idx
        else return idx
      else if ch = 84 then Demangle.forwardTupleType fuel next' idx
      else if ch = 80 then next' (idx + 1)
      else if ch = 65 ∨ ch = 86 then Demangle.forwardArrayType next' idx
      else if ch = 71 then return Demangle.forwardGenericType text idx
      else return idx := by
  have hch : ∀ {n : UInt8} {c : Char}, Char.ofNat ch.toNat = c → c.toNat = n.toNat → ch = n :=
    fun h hn => UInt8.toNat_inj.mp ((toNat_of_char h).trans hn)
  rw [forwardTypeBy]
  split
  case h_1 h => rw [if_pos (Or.inl (hch h rfl))]
  case h_2 h => rw [if_pos (Or.inr (Or.inl (hch h rfl)))]
  case h_3 h => rw [if_pos (Or.inr (Or.inr (hch h rfl)))]
  case h_4 h =>
    obtain rfl : ch = 70 := hch h rfl
    rfl
  case h_5 h =>
    obtain rfl : ch = 84 := hch h rfl
    rfl
  case h_6 h =>
    obtain rfl : ch = 80 := hch h rfl
    rfl
  case h_7 h =>
    obtain rfl : ch = 65 := hch h rfl
    rfl
  case h_8 h =>
    obtain rfl : ch = 86 := hch h rfl
    rfl
  case h_9 h => exact absurd (hch h rfl) hk
  case h_10 h =>
    obtain rfl : ch = 71 := hch h rfl
    rfl
  case h_11 h => exact absurd (hch h rfl) hY
  case h_12 hC hR hN hF hT hP hA hV _ hG _ =>
    have hne : ∀ {n : UInt8} {c : Char}, (Char.ofNat ch.toNat = c → False) →
        Char.ofNat n.toNat = c → ch ≠ n := fun hc hn heq => hc (by rw [heq, hn])
    rw [if_neg hprimitive, if_neg, if_neg (hne hF rfl), if_neg (hne hT rfl), if_neg (hne hP rfl),
      if_neg, if_neg (hne hG rfl)]
    · rintro (h | h)
      · exact hne hA rfl h
      · exact hne hV rfl h
    · rintro (h | h | h)
      · exact hne hC rfl h
      · exact hne hR rfl h
      · exact hne hN rfl h

/-- No other case has the letter of a primitive type. -/
theorem forwardTypeBy_primitive {ch : UInt8} (h : isPrimitiveType ch = true) :
    forwardTypeBy treeIdMap fuel next' text ch idx =
      pure (Demangle.forwardPrimitiveType text idx) := by
  have hmem : ch.toNat ∈ (ascii "nucbfdasilqhtjmrDv").map UInt8.toNat :=
    List.mem_map_of_mem (of_decide_eq_true h)
  rw [forwardTypeBy]
  split
  case h_12 => rw [if_pos h]
  all_goals
    rw [toNat_of_char ‹_›] at hmem
    exact absurd hmem (by decide +kernel)

/-- The scans over such a type agree, whichever of the five it is. -/
theorem forwardEntryType_ends (hplain : isCompressed text = false)
    (hnext : ∀ (i : Nat) s, idx + 1 ≤ i → Still text s → Run (next i) s (Ends (next' i) text i))
    (hs : Still text s) (hlt : idx < text.length) (hfuel : text.length - idx < fuel + 1) {ch : UInt8}
    (hk : ch ≠ 107) (hY : ch ≠ 89) (hprimitive : ¬ isPrimitiveType ch = true) :
    Run (forwardEntryType (fuel + 1) next text ch idx) s
      (Ends (forwardTypeBy treeIdMap (fuel + 1) next' text ch idx) text idx) := by
  rw [forwardTypeBy_entry hk hY hprimitive]
  have hnone : Run (pure (idx : Int)) s (Ends (pure idx) text idx) := run_ends hs (Nat.le_refl idx) rfl
  refine run_ite (fun h => ?_) fun h => ?_
  · rw [if_pos h]
    exact forwardClassType_ends hplain hnext hs hfuel
  rw [if_neg h]
  refine run_ite (fun h => ?_) fun h => ?_
  · rw [if_pos h, show (idx : Int) + 1 = ((idx + 1 : Nat) : Int) from rfl, byteAt_natCast]
    refine run_ite (fun hkind => ?_) fun hkind => ?_
    · rw [if_pos ⟨by omega, hkind.2⟩]
      exact forwardFunctionType_ends hnext hs hlt hfuel
    · rw [if_neg fun hc => hkind ⟨by omega, hc.2⟩]
      exact hnone
  rw [if_neg h]
  refine run_ite (fun h => ?_) fun h => ?_
  · rw [if_pos h]
    exact forwardTupleType_ends hnext hs hfuel
  rw [if_neg h]
  refine run_ite (fun h => ?_) fun h => ?_
  · rw [if_pos h]
    exact forwardCPointer_ends hnext hs
  rw [if_neg h]
  refine run_ite (fun h => ?_) fun h => ?_
  · rw [if_pos h]
    exact forwardArrayType_ends hnext hs
  rw [if_neg h]
  refine run_ite (fun h => ?_) fun h => ?_
  · rw [if_pos h]
    have hgeneric : forwardGenericType text idx = (Demangle.forwardGenericType text idx : Int) := by
      rw [forwardGenericType, show (idx : Int) + 1 = ((idx + 1 : Nat) : Int) from rfl,
        forwardNumber_natCast, Demangle.forwardGenericType]
      split
      · rw [if_pos (by omega)]
      · rw [if_neg (by omega)]
    have hle := le_forwardGenericType text (Int.natCast_nonneg idx)
    rw [hgeneric] at hle ⊢
    exact run_ends hs (by omega) rfl
  · rw [if_neg h]
    exact hnone

/-- The scan of a type, with recursive calls that end as those of the other scanner. -/
theorem forwardTypeAt_ends (hplain : isCompressed text = false)
    (hnext : ∀ (i : Nat) s, idx + 1 ≤ i → Still text s → Run (next i) s (Ends (next' i) text i))
    (hs : Still text s) (hlt : idx < text.length) (hfuel : text.length - idx < fuel + 1) :
    Run (forwardTypeAt (fuel + 1) next idx) s
      (Ends (Demangle.forwardTypeAt treeIdMap (fuel + 1) next' idx) text idx) := by
  have hby : Demangle.forwardTypeAt treeIdMap (fuel + 1) next' idx text =
      forwardTypeBy treeIdMap (fuel + 1) next' text (text.byte idx) idx text := by
    rw [Demangle.forwardTypeAt, get_bind, if_neg (by omega)]
  refine run_get (run_ite (fun hc => absurd hc (by rw [hs]; omega)) fun _ => ?_)
  rw [hs, byteAt_natCast]
  generalize text.byte idx = ch at hby
  have hopen : Run (onlyIf s.isRecord (pushCounted ⟨idx, 0⟩)) s fun _ => Still text := by
    refine run_onlyIf (fun _ => ⟨(), _, pushCounted_eq s _, ?_⟩) fun _ => hs
    rw [pushed]
    split <;> exact hs
  refine hopen.bind ?_
  rintro - s₁ h₁
  have hpop : ∀ {i : Nat}, idx ≤ i →
      forwardTypeBy treeIdMap (fuel + 1) next' text ch idx text = some (i, text) →
      Run (do popRecorded s.cnt; return (i : Int)) s₁
        (Ends (Demangle.forwardTypeAt treeIdMap (fuel + 1) next' idx) text idx) := by
    intro i hi hp
    exact (popRecorded_still h₁ s.cnt).bind fun _ t ht => run_ends ht hi (hby.trans hp)
  refine run_ite (fun hk => ?_) fun hk => run_ite (fun hY => ?_) fun hY =>
    run_ite (fun hprimitive => ?_) fun hprimitive => ?_
  · obtain rfl := hk
    exact hpop (Nat.le_succ idx) rfl
  · -- a reference that names nothing
    obtain rfl := hY
    have hnumber := le_forwardNumber_int text (Int.natCast_nonneg (idx + 1))
    rw [forwardNumber_natCast] at hnumber
    have hupdate : referenceUpdate (fuel + 1) text idx s₁ = some ((0, (idx : Int)), s₁) := by
      rw [referenceUpdate, show (idx : Int) + 1 = ((idx + 1 : Nat) : Int) from rfl,
        forwardNumber_natCast]
      exact (congrFun (if_pos (by omega)) s₁).trans (updateCompressedName_plain hplain h₁ idx)
    refine Run.bind ⟨_, s₁, hupdate, rfl, rfl⟩ (P := fun v t => v = (0, (idx : Int)) ∧ t = s₁) ?_
    rintro _ t ⟨rfl, rfl⟩
    refine hpop (Nat.le_refl idx) ?_
    show (if Demangle.forwardNumber text (idx + 1) ≠ idx then _ else _ : Demangle.Scan Nat) text = _
    rw [if_pos (by omega), bind_of_eq (updateCompressedName_plain' hplain idx)]
    rfl
  · have hcast : forwardPrimitiveType text idx = (Demangle.forwardPrimitiveType text idx : Int) := by
      rw [forwardPrimitiveType, if_neg (by omega), Int.toNat_natCast]
    have hle := le_forwardPrimitiveType text (Int.natCast_nonneg idx)
    rw [hcast] at hle ⊢
    refine hpop (by omega) ?_
    rw [forwardTypeBy_primitive hprimitive]
    rfl
  · refine Run.bind (@forwardEntryType_ends text s₁ fuel idx treeIdMap next next' hplain hnext h₁ hlt
      hfuel ch hk hY hprimitive) ?_
    rintro _ t ⟨ht, i, rfl, hi, hp⟩
    have hclose : Run (closeEntry (fuel + 1) text s.treeIdMap.size idx i s.cnt) t fun _ => Still text := by
      refine run_get (run_onlyIf (fun _ => run_ite (fun _ => ?_) fun _ => ?_) fun _ => ht)
      · exact treeIdMapAssign_still hplain ht hfuel _ _
      · exact run_modify (popStep_still ht _)
    exact hclose.bind fun _ t' ht' => run_ends ht' hi (hby.trans hp)

end Scanner

/-! ## The runs -/

/-- The scan of a type with enough fuel for the rest of the text. -/
theorem forwardType_ends (treeIdMap : TreeIdMap) {text : RtString}
    (hplain : isCompressed text = false) : ∀ (fuel idx : Nat) (s : State), Still text s →
      text.length - idx < fuel →
      Run (forwardType fuel idx) s (Ends (Demangle.forwardType treeIdMap fuel idx) text idx) := by
  intro fuel
  induction fuel with
  | zero =>
    intro idx s hs hfuel
    exact absurd hfuel (Nat.not_lt_zero _)
  | succ fuel ih =>
    intro idx s hs hfuel
    by_cases hlt : idx < text.length
    · exact forwardTypeAt_ends hplain (fun i t hi ht => ih i t ht (by omega)) hs hlt hfuel
    · refine ⟨idx, s, ?_, hs, idx, rfl, Nat.le_refl idx, ?_⟩
      · rw [forwardType, forwardTypeAt, get_bind, if_pos (by rw [hs]; omega)]
        rfl
      · rw [Demangle.forwardType, Demangle.forwardTypeAt, get_bind, if_pos (by omega)]
        rfl

/-- **Without a back-reference, recording changes nothing.**  For every text without one and every
    table, the scan of a list of types ends, and it ends where the scan ends that does not record; the
    text is as it was. -/
theorem forwardTypes_uncompressed {fuel idx : Nat} {s : State} (treeIdMap : TreeIdMap)
    (hplain : isCompressed s.mangled = false) (hfuel : s.mangled.length - idx < fuel) :
    ∃ (i : Nat) (s' : State), forwardTypesOf fuel idx s = some ((i : Int), s') ∧ idx ≤ i ∧
      s'.mangled = s.mangled ∧
      Demangle.forwardTypes fuel (Demangle.forwardType treeIdMap fuel) idx s.mangled =
        some (i, s.mangled) := by
  have hnext : ∀ (i : Nat) t, idx ≤ i → Still s.mangled t →
      Run (forwardType fuel i) t (Ends (Demangle.forwardType treeIdMap fuel i) s.mangled i) :=
    fun i t hi ht => forwardType_ends treeIdMap hplain fuel i t ht (by omega)
  obtain ⟨r, s', hrun, hstill, i, rfl, hi, hp⟩ :=
    forwardTypes_ends hnext idx (Nat.le_refl idx) rfl hfuel
  exact ⟨i, s', hrun, hi, hstill, hp⟩

/-- `T0_` is no tuple here, and `Y` without a number is no reference. -/
theorem forwardTypes_uncompressed_tuple :
    ∃ (i : Nat) (s' : State), forwardTypesOf 20 0 ⟨ascii "CN03Y$bET0_aY", 0, true, ⟨[], 14⟩⟩ =
      some ((i : Int), s') := by
  obtain ⟨i, s', h, -⟩ := @forwardTypes_uncompressed 20 0
    ⟨ascii "CN03Y$bET0_aY", 0, true, ⟨[], 14⟩⟩ [] (by decide +kernel) (by decide +kernel)
  exact ⟨i, s', h⟩

/-- **A recorded type ends where its text ends.**  For every type of the grammar in a text without a
    back-reference, the scan ends right behind the type. -/
theorem forwardType_uncompressed_mangle {fuel idx : Nat} {s : State} {t : Ty} {rest : RtString}
    (hplain : isCompressed s.mangled = false) (hwf : t.WellFormed) (hacc : t.Accepted)
    (h : Rest s.mangled idx (t.mangle ++ rest)) (hfuel : s.mangled.length - idx < fuel) :
    ∃ s', forwardType fuel idx s = some (((idx + t.mangle.length : Nat) : Int), s') ∧
      s'.mangled = s.mangled := by
  have hlen := h.length
  rw [List.length_append] at hlen
  obtain ⟨r, s', hrun, hstill, i, rfl, hi, hp⟩ :=
    forwardType_ends [] hplain fuel idx s rfl hfuel
  have hmangle := forwardType_mangle [] t hwf hacc fuel (by omega) s.mangled idx rest h
  rw [hp] at hmangle
  cases hmangle
  exact ⟨s', hrun, hstill⟩

/-- A tuple of the two types `G0_` and `c`, in front of an `E`. -/
theorem forwardType_uncompressed_mangle_tuple :
    ∃ s', forwardType 12 0 ⟨ascii "T1_G0_cEE", 0, true, ⟨[], 10⟩⟩ =
      some (((8 : Nat) : Int), s') := by
  have hlength : (Ty.tuple [49] [.generic [48], .primitive 99]).mangle.length = 8 := by
    decide +kernel
  have hwf : (Ty.tuple [49] [.generic [48], .primitive 99]).WellFormed := by
    rw [Ty.WellFormed]
    refine ⟨forall_chars (by decide), by simp, by decide +kernel, ?_⟩
    simp only [Ty.AllWellFormed, Ty.WellFormed, and_true]
    exact ⟨forall_chars (by decide), by decide +kernel⟩
  obtain ⟨s', h, -⟩ := @forwardType_uncompressed_mangle 12 0
    ⟨ascii "T1_G0_cEE", 0, true, ⟨[], 10⟩⟩ (.tuple [49] [.generic [48], .primitive 99]) [69]
    (by decide +kernel) hwf (by simp [Ty.Accepted, Ty.AllAccepted])
    ⟨Nat.zero_le _, by decide +kernel⟩ (by decide +kernel)
  rw [Nat.zero_add, hlength] at h
  exact ⟨s', h⟩

end CangjieRuntime.Demangle.DeCompression
