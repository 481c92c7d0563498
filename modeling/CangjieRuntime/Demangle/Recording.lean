/-
  What the recording scanner leaves alone (`ForwardType`, with `isRecord` on).

  A scan of a type at `idx` changes the text and the table.  `Kept idx s s'` says what it keeps,
  whatever the text is and however the scan ends:

  * the text before `idx`,
  * the entries that were there before, at their places, so that their back-references stay right,
  * the counter: it grows by as much as the table does, which is what lets `TreeIdMapPop` find the
    entries of a type that does not parse.

  Each function of the scanner gets one lemma about it, with the recursive calls as a parameter that
  has the property already; the induction on the fuel ties the knot.
-/
import CangjieRuntime.Demangle.Expansion

set_option linter.unusedVariables false

namespace CangjieRuntime.Demangle.DeCompression

open CangjieRuntime.Computation

/-- The states a recording scan is in.  The scan fills the table, and no entry has a negative start
    or length. -/
structure Recording (s : State) : Prop where
  record : s.isRecord = true
  spanned : Spanned s.treeIdMap

/-- What a scan from `idx` on keeps. -/
structure Kept (idx : Int) (s s' : State) : Prop where
  before : s'.mangled.take idx.toNat = s.mangled.take idx.toNat
  entries : s.treeIdMap.entries <+: s'.treeIdMap.entries
  balance : s'.cnt - s.cnt = s'.treeIdMap.size - s.treeIdMap.size
  capacity : s'.treeIdMap.capacity = s.treeIdMap.capacity
  recording : Recording s'

section Kept

variable {idx idx' : Int} {s s' s'' : State}

/-- A run that does nothing keeps all. -/
theorem Kept.refl (idx : Int) (h : Recording s) : Kept idx s s :=
  ⟨rfl, List.prefix_refl _, by omega, rfl, h⟩

/-- Two runs keep what lies before the place where the first one began. -/
theorem Kept.trans (h : Kept idx s s') (h' : Kept idx' s' s'') (hle : idx ≤ idx') :
    Kept idx s s'' where
  before := by rw [take_of_le h'.before (Int.toNat_le_toNat hle), h.before]
  entries := h.entries.trans h'.entries
  balance := by
    have := h.balance
    have := h'.balance
    omega
  capacity := by rw [h'.capacity, h.capacity]
  recording := h'.recording

/-- What is kept before a place is kept before an earlier one. -/
theorem Kept.mono (h : Kept idx' s s') (hle : idx ≤ idx') (hs : Recording s) : Kept idx s s' :=
  (Kept.refl idx hs).trans h hle

/-- An expansion keeps what a scan keeps. -/
theorem Expanded.kept (h : Expanded idx s s') (hs : Recording s) : Kept idx s s' := by
  have htable := h.treeIdMap
  obtain ⟨hbefore, hrest⟩ := h
  refine ⟨hbefore, htable ▸ List.prefix_refl _, ?_, ?_, ?_, ?_⟩
  · rw [hrest]
    show s.cnt - s.cnt = s.treeIdMap.size - s.treeIdMap.size
    omega
  · rw [hrest]
  · rw [hrest]
    exact hs.record
  · rw [hrest]
    exact hs.spanned

end Kept

/-! ## The table -/

section Table

variable {idx nextIdx : Int} {s s₀ : State} {pos : TreePos} {curCnt : Int}

/-- One more span with a start and a length from 0 on. -/
theorem Spanned.append {t : TreeMapState} (h : Spanned t) (hpos : 0 ≤ pos.start ∧ 0 ≤ pos.length) :
    Spanned { t with entries := t.entries ++ [pos] } := by
  intro e he
  rcases List.mem_append.mp he with he | he
  · exact h e he
  · rw [List.mem_singleton.mp he]
    exact hpos

/-- The state after a push that `cnt` counts. -/
def pushed (s : State) (pos : TreePos) : State :=
  if (pos.length = 0 ∨ ¬ hasDuplicates s pos) ∧ s.treeIdMap.entries.length < s.treeIdMap.capacity then
    { s with
      cnt := s.cnt + 1,
      treeIdMap := { s.treeIdMap with entries := s.treeIdMap.entries ++ [pos] } }
  else s

/-- The recorder's push always returns, with the state named `pushed`. -/
theorem pushCounted_eq (s : State) (pos : TreePos) : pushCounted pos s = some ((), pushed s pos) := by
  rw [pushCounted, pushed]
  by_cases hnew : pos.length = 0 ∨ ¬ hasDuplicates s pos
  · by_cases hroom : s.treeIdMap.entries.length < s.treeIdMap.capacity
    · have hpush : treeIdMapPushBack pos s = some (true,
          { s with treeIdMap := { s.treeIdMap with entries := s.treeIdMap.entries ++ [pos] } }) := by
        rw [treeIdMapPushBack, get_bind, if_pos hnew, TreeMapState.add, if_neg (by omega)]
        rfl
      rw [bind_of_eq hpush, if_pos ⟨hnew, hroom⟩]
      rfl
    · have hpush : treeIdMapPushBack pos s = some (false, s) := by
        rw [treeIdMapPushBack, get_bind, if_pos hnew, TreeMapState.add, if_pos (by omega)]
        rfl
      rw [bind_of_eq hpush, if_neg fun h => hroom h.2]
      rfl
  · have hpush : treeIdMapPushBack pos s = some (false, s) := by
      rw [treeIdMapPushBack, get_bind, if_neg hnew]
      rfl
    rw [bind_of_eq hpush, if_neg fun h => hnew h.1]
    rfl

/-- It changes no text, and the table stays without negative spans. -/
theorem pushed_kept (hs : Recording s) (hpos : 0 ≤ pos.start ∧ 0 ≤ pos.length) :
    Kept idx s (pushed s pos) := by
  rw [pushed]
  split
  · refine ⟨rfl, List.prefix_append _ _, ?_, rfl, hs.record, hs.spanned.append hpos⟩
    show s.cnt + 1 - s.cnt = ((s.treeIdMap.entries ++ [pos]).length : Int) - s.treeIdMap.entries.length
    rw [List.length_append, List.length_singleton]
    omega
  · exact Kept.refl idx hs

/-- A step under a condition is done or not. -/
theorem ifReturns_onlyIf {c : Prop} [Decidable c] {m : Scan Unit} {Q : Unit → State → Prop}
    (ht : c → IfReturns m s Q) (hf : ¬ c → Q () s) : IfReturns (onlyIf c m) s Q :=
  ifReturns_ite ht fun h => ifReturns_pure (hf h)

/-- The push of a type that is recorded, if it is one, keeps the text. -/
theorem pushRecorded_kept {c : Prop} [Decidable c] (hs : Recording s) (h0 : 0 ≤ idx)
    (hle : idx ≤ nextIdx) (j : Int) : IfReturns (pushRecorded c idx nextIdx) s fun _ => Kept j s :=
  ifReturns_get (ifReturns_onlyIf
    (fun _ => ifReturns_of_eq (pushCounted_eq s _) (pushed_kept hs ⟨h0, Int.sub_nonneg_of_le hle⟩))
    fun _ => Kept.refl j hs)

/-- Pops take entries from the end. -/
theorem popStep_iterate : ∀ (n : Nat) (s : State), n ≤ s.treeIdMap.entries.length →
    Nat.iterate popStep n s = { s with
      cnt := s.cnt - n,
      treeIdMap := { s.treeIdMap with
        entries := s.treeIdMap.entries.take (s.treeIdMap.entries.length - n) } } := by
  intro n
  induction n with
  | zero =>
    intro s hn
    show s = _
    rw [Nat.sub_zero, List.take_length, Int.natCast_zero, Int.sub_zero]
  | succ n ih =>
    intro s hn
    have hlast : s.treeIdMap.removeAt (s.treeIdMap.size - 1) =
        { s.treeIdMap with entries := s.treeIdMap.entries.take (s.treeIdMap.entries.length - 1) } := by
      rw [TreeMapState.removeAt, TreeMapState.size, if_neg (by omega),
        show ((s.treeIdMap.entries.length : Int) - 1).toNat = s.treeIdMap.entries.length - 1 by omega,
        List.eraseIdx_length_sub_one, List.dropLast_eq_take]
    have hstep : popStep s = { s with
        cnt := s.cnt - 1,
        treeIdMap := { s.treeIdMap with
          entries := s.treeIdMap.entries.take (s.treeIdMap.entries.length - 1) } } := by
      rw [popStep, hlast]
    show Nat.iterate popStep n (popStep s) = _
    have hlen : (s.treeIdMap.entries.take (s.treeIdMap.entries.length - 1)).length =
        s.treeIdMap.entries.length - 1 := by
      rw [List.length_take]
      omega
    rw [hstep, ih _ (by rw [hlen]; omega)]
    show State.mk _ (s.cnt - 1 - n) _ ⟨List.take _ _, _⟩ = State.mk _ _ _ ⟨_, _⟩
    rw [hlen, List.take_take, Nat.min_eq_left (by omega),
      show s.cnt - 1 - (n : Int) = s.cnt - ((n + 1 : Nat) : Int) by omega,
      show s.treeIdMap.entries.length - 1 - n = s.treeIdMap.entries.length - (n + 1) by omega]

/-- A pop back to the counter of `s₀` gives the table of `s₀` back. -/
theorem treeIdMapPop_kept (h : Kept idx s₀ s) (hs₀ : Recording s₀) :
    IfReturns (treeIdMapPop s₀.cnt) s fun _ s' =>
      Kept idx s₀ s' ∧ s'.treeIdMap = s₀.treeIdMap ∧ s'.mangled = s.mangled := by
  obtain ⟨more, hmore⟩ := h.entries
  have hbalance := h.balance
  rw [TreeMapState.size, TreeMapState.size, ← hmore, List.length_append] at hbalance
  have hn : (s.cnt - s₀.cnt).toNat = more.length := by omega
  have hpop := popStep_iterate more.length s (by rw [← hmore, List.length_append]; omega)
  have hentries : s.treeIdMap.entries.take (s.treeIdMap.entries.length - more.length) =
      s₀.treeIdMap.entries := by
    rw [← hmore, List.length_append, Nat.add_sub_cancel, List.take_left]
  have htable : TreeMapState.mk s₀.treeIdMap.entries s.treeIdMap.capacity = s₀.treeIdMap := by
    rw [h.capacity]
  refine ifReturns_modify ?_
  rw [hn, hpop, hentries, htable]
  refine ⟨⟨h.before, List.prefix_refl _, ?_, rfl, h.recording.record, hs₀.spanned⟩, rfl, rfl⟩
  show s.cnt - more.length - s₀.cnt = s₀.treeIdMap.size - s₀.treeIdMap.size
  omega

/-- The pop brings the counter back to where it was, and leaves the table and the text. -/
theorem popRecorded_kept (h : Kept idx s₀ s) (hs₀ : Recording s₀) :
    IfReturns (popRecorded s₀.cnt) s fun _ s' =>
      Kept idx s₀ s' ∧ s'.treeIdMap = s₀.treeIdMap ∧ s'.mangled = s.mangled :=
  ifReturns_get (ifReturns_onlyIf (fun _ => treeIdMapPop_kept h hs₀)
    fun hoff => absurd h.recording.record hoff)

/-- The state after the entry `mapId` got its length. -/
def assigned (s : State) (mapId length : Int) : State :=
  { s with treeIdMap := s.treeIdMap.set mapId ⟨(s.treeIdMap.get mapId).start, length⟩ }

/-- An assignment of an entry changes no number of entries. -/
theorem assigned_size (s : State) (mapId length : Int) :
    (assigned s mapId length).treeIdMap.size = s.treeIdMap.size := by
  rw [assigned, TreeMapState.set]
  split
  · rfl
  · rw [TreeMapState.size, TreeMapState.size, List.length_set]

/-- An entry behind the ones that were there when the run began may be assigned. -/
theorem assigned_kept (h : Kept idx s₀ s) {mapId length : Int} (hmap : s₀.treeIdMap.size ≤ mapId)
    (hlength : 0 ≤ length) : Kept idx s₀ (assigned s mapId length) := by
  obtain ⟨more, hmore⟩ := h.entries
  rw [TreeMapState.size] at hmap
  rw [assigned, TreeMapState.set, if_neg (by omega)]
  refine ⟨h.before, ?_, ?_, h.capacity, h.recording.record, ?_⟩
  · show s₀.treeIdMap.entries <+: s.treeIdMap.entries.set mapId.toNat _
    rw [← hmore, List.set_append_right _ _ (by omega)]
    exact List.prefix_append _ _
  · show s.cnt - s₀.cnt = ((s.treeIdMap.entries.set mapId.toNat _).length : Int) - _
    rw [List.length_set]
    exact h.balance
  · intro e he
    rcases List.mem_or_eq_of_mem_set he with he | rfl
    · exact h.recording.spanned e he
    · exact ⟨(h.recording.spanned.get mapId).1, hlength⟩

/-- An entry behind those of `s₀` is erased, and `cnt` is lowered; the text is expanded from a copy
    that agrees with that of `s₀` before `idx`. -/
theorem treeIdMapErase_kept {fuel : Nat} {mapId : Int} {mangledCopy : RtString} (h : Kept idx s₀ s)
    (h0 : 0 ≤ idx) (hcopy : mangledCopy.take idx.toNat = s₀.mangled.take idx.toNat)
    (hmap : s₀.treeIdMap.size ≤ mapId) (hlt : mapId < s.treeIdMap.size) :
    IfReturns (treeIdMapErase fuel mapId idx) { s with mangled := mangledCopy } fun _ =>
      Kept idx s₀ := by
  obtain ⟨more, hmore⟩ := h.entries
  rw [TreeMapState.size] at hmap hlt
  have herase : s.treeIdMap.removeAt mapId =
      { s.treeIdMap with entries := s.treeIdMap.entries.eraseIdx mapId.toNat } := by
    rw [TreeMapState.removeAt, if_neg (by omega)]
  have hspans : Spanned (s.treeIdMap.removeAt mapId) := by
    rw [herase]
    intro e he
    exact h.recording.spanned e (List.mem_of_mem_eraseIdx he)
  refine IfReturns.bind (ifReturns_modify rfl) (P := fun _ t =>
    t = ⟨mangledCopy, s.cnt, s.isRecord, s.treeIdMap.removeAt mapId⟩) ?_
  rintro - t rfl
  refine ifReturns_get ((updateCompressedNames_ifReturns h0 hspans).bind ?_)
  intro _ t' hexp
  refine ifReturns_modify ?_
  rw [hexp.rest, herase]
  refine ⟨hexp.before.trans hcopy, ?_, ?_, h.capacity, h.recording.record, herase ▸ hspans⟩
  · show s₀.treeIdMap.entries <+: s.treeIdMap.entries.eraseIdx mapId.toNat
    rw [← hmore, List.eraseIdx_append_of_length_le (by omega)]
    exact List.prefix_append _ _
  · show s.cnt - 1 - s₀.cnt =
      ((s.treeIdMap.entries.eraseIdx mapId.toNat).length : Int) - s₀.treeIdMap.entries.length
    have hbalance := h.balance
    rw [TreeMapState.size, TreeMapState.size] at hbalance
    rw [List.length_eraseIdx_of_lt (by omega)]
    omega

/-- The assignment of the entries of a type that was replaced keeps the entries that were there
    before it. -/
theorem treeIdMapAssign_kept {fuel : Nat} {mapId : Int} {mangledCopy : RtString}
    (h : Kept idx s₀ s) (h0 : 0 ≤ idx) (hle : idx ≤ nextIdx)
    (hcopy : mangledCopy.take idx.toNat = s₀.mangled.take idx.toNat)
    (hmap : s₀.treeIdMap.size ≤ mapId) :
    IfReturns (treeIdMapAssign fuel mangledCopy mapId idx nextIdx) s fun _ => Kept idx s₀ := by
  refine ifReturns_get (ifReturns_ite (fun _ => ifReturns_pure h) fun hlt => ?_)
  have hkept : Kept idx s₀ (assigned s mapId (nextIdx - idx)) :=
    assigned_kept h hmap (Int.sub_nonneg_of_le hle)
  refine IfReturns.bind (ifReturns_modify rfl) (P := fun _ t =>
    t = assigned s mapId (nextIdx - idx)) ?_
  rintro - t rfl
  refine ifReturns_get (ifReturns_onlyIf (fun _ => ?_) fun _ => hkept)
  refine IfReturns.bind (ifReturns_modify rfl) (P := fun _ t =>
    t = { assigned s mapId (nextIdx - idx) with mangled := mangledCopy }) ?_
  rintro - t rfl
  exact treeIdMapErase_kept hkept h0 hcopy hmap (by rw [assigned_size]; omega)

end Table

/-! ## The cursor -/

section Cursor

variable (mangled : RtString) {idx : Int}

/-- The scan over a number does not go back. -/
theorem le_forwardNumber_int (h0 : 0 ≤ idx) : idx ≤ forwardNumber mangled idx := by
  obtain ⟨i, rfl⟩ := Int.eq_ofNat_of_zero_le h0
  rw [forwardNumber_natCast]
  rcases le_forwardNumber mangled i with h | ⟨h, -⟩ <;> omega

/-- The scan over a name does not go back, as its length is not negative. -/
theorem le_forwardName (h0 : 0 ≤ idx) : idx ≤ forwardName mangled idx := by
  obtain ⟨i, rfl⟩ := Int.eq_ofNat_of_zero_le h0
  rw [forwardName_natCast, Demangle.forwardName]
  split
  · omega
  · split
    · omega
    · split
      · omega
      · split
        · omega
        · dsimp only
          split
          · omega
          · split <;> omega

/-- The scan over the number of a file does not go back. -/
theorem le_forwardFileNameNumber (h0 : 0 ≤ idx) : idx ≤ forwardFileNameNumber mangled idx := by
  rw [forwardFileNameNumber, if_neg (by omega), Demangle.forwardFileNameNumber]
  split
  · omega
  · split <;> omega

/-- The scan over a primitive type does not go back. -/
theorem le_forwardPrimitiveType (h0 : 0 ≤ idx) : idx ≤ forwardPrimitiveType mangled idx := by
  rw [forwardPrimitiveType, if_neg (by omega), Demangle.forwardPrimitiveType]
  split
  · omega
  · split <;> omega

/-- The scan over a generic parameter does not go back. -/
theorem le_forwardGenericType (h0 : 0 ≤ idx) : idx ≤ forwardGenericType mangled idx := by
  have := le_forwardNumber_int mangled (Int.le_add_one h0)
  rw [forwardGenericType]
  split <;> omega

end Cursor

/-! ## The scanner -/

/-- What the scan of a type leaves: the cursor is behind the type, or there is none, and then the
    table is as it was. -/
structure Parsed (idx : Int) (s : State) (r : Int) (s' : State) : Prop where
  le : idx ≤ r
  kept : Kept idx s s'
  restored : r = idx → s'.treeIdMap = s.treeIdMap

section Scanner

variable {fuel : Nat} {next : Int → Scan Int} {idx : Int} {s s₀ : State}

/-- A package is passed, and if it is recorded the text is kept. -/
theorem forwardPackageName_kept (h0 : 0 ≤ idx) (hs : Recording s) :
    IfReturns (forwardPackageName idx) s fun r s' => idx ≤ r ∧ Kept idx s s' := by
  refine ifReturns_get ?_
  have hcur : idx ≤ (if isStdPkgName s.mangled idx then idx + 2 else forwardName s.mangled idx) := by
    have := le_forwardName s.mangled h0
    split <;> omega
  refine (pushRecorded_kept hs h0 hcur idx).bind ?_
  intro _ s₁ h₁
  refine ifReturns_get (ifReturns_ite (fun _ => ?_) fun _ => ifReturns_pure ⟨hcur, h₁⟩)
  have hfid := le_forwardFileNameNumber s₁.mangled
    (Int.le_trans h0 (Int.le_trans hcur (Int.le_add_one (Int.le_refl _))))
  refine (pushRecorded_kept h₁.recording (Int.le_trans h0 hcur) (by omega) idx).bind ?_
  intro _ s₂ h₂
  exact ifReturns_pure ⟨by omega, h₁.trans h₂ (Int.le_refl idx)⟩

/-- The loop over types keeps what each type keeps, by induction on the fuel. -/
theorem forwardTypes_kept
    (hnext : ∀ idx s, 0 ≤ idx → Recording s → IfReturns (next idx) s (Parsed idx s))
    (h0 : 0 ≤ idx) (hs : Recording s) :
    IfReturns (forwardTypes fuel next idx) s fun r s' => idx ≤ r ∧ Kept idx s s' := by
  refine ifReturns_iterate (fun cur t => idx ≤ cur ∧ Kept idx s t) ?_ fuel idx s
    ⟨Int.le_refl idx, Kept.refl idx hs⟩
  rintro cur t ⟨hle, hkept⟩
  refine ifReturns_get (ifReturns_ite (fun _ => ifReturns_last ⟨hle, hkept⟩) fun _ => ?_)
  refine (hnext cur t (Int.le_trans h0 hle) hkept.recording).bind ?_
  intro cur' t' hparsed
  have hcur' : idx ≤ cur' ∧ Kept idx s t' :=
    ⟨Int.le_trans hle hparsed.le, hkept.trans hparsed.kept hle⟩
  exact ifReturns_ite (fun _ => ifReturns_last hcur') fun _ => ifReturns_next hcur'

/-- A list of types from `startId` on, in a type that started in the state `s₀`. -/
theorem forwardTypesEnd_kept {startId ret : Int}
    (hnext : ∀ idx s, 0 ≤ idx → Recording s → IfReturns (next idx) s (Parsed idx s))
    (h : Kept idx s₀ s) (hs₀ : Recording s₀) (h0 : 0 ≤ idx) (hle : idx ≤ startId) :
    IfReturns (forwardTypesEnd fuel next ret startId s₀.cnt) s fun r s' =>
      Kept idx s₀ s' ∧ (startId < r ∨ r = ret ∧ s'.treeIdMap = s₀.treeIdMap) := by
  refine (forwardTypes_kept hnext (Int.le_trans h0 hle) h.recording).bind ?_
  rintro cur t ⟨hcur, hkept⟩
  have hkept' := h.trans hkept hle
  refine ifReturns_get (ifReturns_ite (fun _ => ifReturns_pure ⟨hkept', Or.inl (by omega)⟩)
    fun _ => ?_)
  refine (popRecorded_kept hkept' hs₀).bind ?_
  rintro - t' ⟨hpop, hrestored, -⟩
  exact ifReturns_pure ⟨hpop, Or.inr ⟨rfl, hrestored⟩⟩

/-- What does not parse gives the table back. -/
theorem popped_parsed (h : Kept idx s₀ s) (hs₀ : Recording s₀) :
    IfReturns (do popRecorded s₀.cnt; return idx) s (Parsed idx s₀) := by
  refine (popRecorded_kept h hs₀).bind ?_
  rintro - t ⟨hpop, hrestored, -⟩
  exact ifReturns_pure ⟨Int.le_refl idx, hpop, fun _ => hrestored⟩

/-- A class is parsed: its package, its name and its generic arguments. -/
theorem forwardClassType_parsed
    (hnext : ∀ idx s, 0 ≤ idx → Recording s → IfReturns (next idx) s (Parsed idx s))
    (h0 : 0 ≤ idx) (hs : Recording s) :
    IfReturns (forwardClassType fuel next idx) s (Parsed idx s) := by
  refine ifReturns_get (ifReturns_ite
    (fun _ => ifReturns_pure ⟨Int.le_refl idx, Kept.refl idx hs, fun _ => rfl⟩) fun _ => ?_)
  -- the package, and the name at `fid`
  refine (updateCompressedName_ifReturns (by omega) hs.spanned).bind ?_
  intro v₁ s₁ hv₁
  have h₁ := hv₁.expanded.kept hs
  refine (forwardPackageName_kept (by omega) h₁.recording).bind ?_
  rintro fid s₂ ⟨hfid, h₂⟩
  refine (updateCompressedName_ifReturns (by omega) h₂.recording.spanned).bind ?_
  intro v₃ s₃ hv₃
  have h₃ := hv₃.expanded.kept h₂.recording
  have hcur := @le_forwardName s₃.mangled fid (by omega)
  refine ifReturns_get ((pushRecorded_kept h₃.recording (by omega) hcur (idx + 2)).bind ?_)
  intro _ s₄ h₄
  have hkept : Kept idx s s₄ :=
    (((h₁.trans h₂ (Int.le_refl _)).trans h₃ (by omega)).trans h₄ (Int.le_refl _)).mono (by omega) hs
  refine ifReturns_get (ifReturns_ite (fun _ => ?_) fun _ => ifReturns_ite (fun _ => ?_) fun _ => ?_)
  · -- the generic arguments
    refine IfReturns.bind (ifReturns_get (forwardTypesEnd_kept hnext
      (Kept.refl (forwardName s₃.mangled fid) h₄.recording) h₄.recording (by omega) (by omega))) ?_
    rintro genericIdx s₅ ⟨h₅, hend⟩
    have hkept' := hkept.trans h₅ (by omega)
    refine ifReturns_ite (fun hne => ifReturns_pure ⟨by omega, hkept', by omega⟩) fun _ => ?_
    exact popped_parsed hkept' hs
  · exact ifReturns_pure ⟨by omega, hkept, by omega⟩
  · exact popped_parsed hkept hs

/-- A function type is parsed. -/
theorem forwardFunctionType_parsed
    (hnext : ∀ idx s, 0 ≤ idx → Recording s → IfReturns (next idx) s (Parsed idx s))
    (h0 : 0 ≤ idx) (hs : Recording s) :
    IfReturns (forwardFunctionType fuel next idx) s (Parsed idx s) := by
  refine ifReturns_get ((hnext (idx + 2) s (by omega) hs).bind ?_)
  intro cur t hparsed
  have hle := hparsed.le
  refine (forwardTypesEnd_kept hnext (hparsed.kept.mono (by omega) hs) hs h0 (by omega)).mono ?_
  rintro r t' ⟨hkept, hend⟩
  refine ⟨by omega, hkept, fun hr => ?_⟩
  rcases hend with hlt | ⟨-, hrestored⟩
  · omega
  · exact hrestored

/-- A tuple is parsed. -/
theorem forwardTupleType_parsed
    (hnext : ∀ idx s, 0 ≤ idx → Recording s → IfReturns (next idx) s (Parsed idx s))
    (h0 : 0 ≤ idx) (hs : Recording s) :
    IfReturns (forwardTupleType fuel next idx) s (Parsed idx s) := by
  have hcur := le_forwardNumber_int s.mangled (Int.le_add_one h0)
  refine ifReturns_get (ifReturns_ite
    (fun _ => ifReturns_pure ⟨Int.le_refl idx, Kept.refl idx hs, fun _ => rfl⟩) fun _ => ?_)
  have hloop : ∀ tyCnt, IfReturns
      (iterate (tupleStep next) fuel (tyCnt, forwardNumber s.mangled (idx + 1))) s
      fun endIdx t => idx + 1 ≤ endIdx ∧ Kept idx s t := by
    intro tyCnt
    refine ifReturns_iterate (fun v t => idx + 1 ≤ v.2 ∧ Kept idx s t) ?_ fuel _ s
      ⟨hcur, Kept.refl idx hs⟩
    rintro ⟨cnt, cur⟩ t ⟨hle, hkept⟩
    refine ifReturns_get (ifReturns_ite (fun _ => ifReturns_last ⟨hle, hkept⟩) fun _ => ?_)
    have hle' : idx + 1 ≤ cur := hle
    refine (hnext cur t (by omega) hkept.recording).bind ?_
    intro tyIdx t' hparsed
    have hkept' := hkept.trans hparsed.kept (by omega)
    exact ifReturns_ite (fun _ => ifReturns_last ⟨hle, hkept'⟩)
      fun _ => ifReturns_next ⟨Int.le_trans hle hparsed.le, hkept'⟩
  refine (hloop _).bind ?_
  rintro endIdx t ⟨hend, hkept⟩
  exact ifReturns_get (ifReturns_ite
    (fun _ => ifReturns_pure ⟨by omega, hkept, by omega⟩) fun _ => popped_parsed hkept hs)

/-- A pointer is parsed with the type behind it. -/
theorem forwardCPointer_parsed
    (hnext : ∀ idx s, 0 ≤ idx → Recording s → IfReturns (next idx) s (Parsed idx s))
    (h0 : 0 ≤ idx) (hs : Recording s) : IfReturns (forwardCPointer next idx) s (Parsed idx s) := by
  refine (hnext (idx + 1) s (by omega) hs).mono ?_
  intro r t hparsed
  have hle := hparsed.le
  exact ⟨by omega, hparsed.kept.mono (by omega) hs, by omega⟩

/-- The element of an array keeps the text, and its end lies behind its start if it has one. -/
theorem forwardElement_kept
    (hnext : ∀ idx s, 0 ≤ idx → Recording s → IfReturns (next idx) s (Parsed idx s))
    (h0 : 0 ≤ idx) (hs : Recording s) :
    IfReturns (forwardElement next idx) s fun r t => (∀ endIdx ∈ r, idx < endIdx) ∧ Kept idx s t := by
  have hcur := le_forwardNumber_int s.mangled (Int.le_add_one h0)
  refine ifReturns_get (ifReturns_ite (fun _ => ?_)
    fun _ => ifReturns_pure ⟨fun e he => (by cases he), Kept.refl idx hs⟩)
  refine (hnext _ s (by omega) hs).bind ?_
  intro endIdx t hparsed
  have hle := hparsed.le
  refine ifReturns_pure ⟨fun e he => ?_, hparsed.kept.mono (by omega) hs⟩
  split at he
  · cases he
    omega
  · cases he

/-- An array is parsed. -/
theorem forwardArrayType_parsed
    (hnext : ∀ idx s, 0 ≤ idx → Recording s → IfReturns (next idx) s (Parsed idx s))
    (h0 : 0 ≤ idx) (hs : Recording s) : IfReturns (forwardArrayType next idx) s (Parsed idx s) := by
  refine ifReturns_get ((forwardElement_kept hnext h0 hs).bind ?_)
  rintro (_ | endIdx) t ⟨hlt, hkept⟩
  · exact popped_parsed hkept hs
  · have := hlt endIdx rfl
    exact ifReturns_pure ⟨by omega, hkept, by omega⟩

/-- A type with an entry in the table is parsed, whichever of the five it is. -/
theorem forwardEntryType_parsed {mangled : RtString} {ch : UInt8}
    (hnext : ∀ idx s, 0 ≤ idx → Recording s → IfReturns (next idx) s (Parsed idx s))
    (h0 : 0 ≤ idx) (hs : Recording s) :
    IfReturns (forwardEntryType fuel next mangled ch idx) s (Parsed idx s) := by
  have hnone : IfReturns (pure idx) s (Parsed idx s) :=
    ifReturns_pure ⟨Int.le_refl idx, Kept.refl idx hs, fun _ => rfl⟩
  refine ifReturns_ite (fun _ => forwardClassType_parsed hnext h0 hs) fun _ => ?_
  refine ifReturns_ite (fun _ => ifReturns_ite (fun _ => forwardFunctionType_parsed hnext h0 hs)
    fun _ => hnone) fun _ => ?_
  refine ifReturns_ite (fun _ => forwardTupleType_parsed hnext h0 hs) fun _ => ?_
  refine ifReturns_ite (fun _ => forwardCPointer_parsed hnext h0 hs) fun _ => ?_
  refine ifReturns_ite (fun _ => forwardArrayType_parsed hnext h0 hs) fun _ => ?_
  refine ifReturns_ite (fun _ => ifReturns_pure ?_) fun _ => hnone
  exact ⟨le_forwardGenericType mangled h0, Kept.refl idx hs, fun _ => rfl⟩

/-- A back-reference: its own entry goes again. -/
theorem forwardReference_parsed {mangled : RtString} (h : Kept idx s₀ s) (hs₀ : Recording s₀)
    (h0 : 0 ≤ idx) : IfReturns (forwardReference fuel mangled idx s₀.cnt) s (Parsed idx s₀) := by
  have hupdate : IfReturns (referenceUpdate fuel mangled idx) s fun v t =>
      Kept idx s t ∧ (v.1 ≠ 0 → idx ≤ v.2) :=
    ifReturns_ite
      (fun _ => (updateCompressedName_ifReturns h0 h.recording.spanned).mono
        fun v t hv => ⟨hv.expanded.kept h.recording, fun _ => hv.le⟩)
      fun _ => ifReturns_pure ⟨Kept.refl idx h.recording, fun hv => absurd rfl hv⟩
  refine hupdate.bind ?_
  rintro v t ⟨ht, hle⟩
  refine (popRecorded_kept (h.trans ht (Int.le_refl idx)) hs₀).bind ?_
  rintro - t' ⟨hpop, hrestored, -⟩
  refine ifReturns_pure ⟨?_, hpop, fun _ => hrestored⟩
  split
  · exact Int.le_refl idx
  · exact hle ‹_›

/-- The end of a type: with the entry that was pushed for it, or back to the table of `s₀`. -/
theorem closeEntry_parsed {nextIdx : Int} (h : Kept idx s₀ s) (hs₀ : Recording s₀) (h0 : 0 ≤ idx)
    (hle : idx ≤ nextIdx) :
    IfReturns (closeEntry fuel s₀.mangled s₀.treeIdMap.size idx nextIdx s₀.cnt) s fun _ t =>
      Parsed idx s₀ nextIdx t := by
  refine ifReturns_get (ifReturns_onlyIf (fun _ => ifReturns_ite (fun hne => ?_) fun heq => ?_)
    fun hoff => absurd h.recording.record hoff)
  · refine (treeIdMapAssign_kept h h0 hle rfl (Int.le_refl _)).mono ?_
    intro _ t ht
    exact ⟨hle, ht, fun hr => absurd hr hne⟩
  · refine (treeIdMapPop_kept h hs₀).mono ?_
    rintro - t ⟨ht, hrestored, -⟩
    exact ⟨hle, ht, fun _ => hrestored⟩

/-- A type is parsed, with an entry or without. -/
theorem forwardTypeAt_parsed
    (hnext : ∀ idx s, 0 ≤ idx → Recording s → IfReturns (next idx) s (Parsed idx s))
    (h0 : 0 ≤ idx) (hs : Recording s) : IfReturns (forwardTypeAt fuel next idx) s (Parsed idx s) := by
  refine ifReturns_get (ifReturns_ite
    (fun _ => ifReturns_pure ⟨Int.le_refl idx, Kept.refl idx hs, fun _ => rfl⟩) fun _ => ?_)
  -- the entry of the type, of length 0
  have hopen : IfReturns (onlyIf s.isRecord (pushCounted ⟨idx, 0⟩)) s fun _ t => Kept idx s t :=
    ifReturns_onlyIf
      (fun _ => ifReturns_of_eq (pushCounted_eq s _) (pushed_kept hs ⟨h0, Int.le_refl 0⟩))
      fun _ => Kept.refl idx hs
  refine hopen.bind ?_
  intro _ s₁ h₁
  have hpop : ∀ r, idx ≤ r →
      IfReturns (do popRecorded s.cnt; return r) s₁ (Parsed idx s) := by
    intro r hr
    refine (popRecorded_kept h₁ hs).bind ?_
    rintro - t ⟨ht, hrestored, -⟩
    exact ifReturns_pure ⟨hr, ht, fun _ => hrestored⟩
  refine ifReturns_ite (fun _ => hpop _ (Int.le_add_one (Int.le_refl idx))) fun _ => ?_
  refine ifReturns_ite (fun _ => forwardReference_parsed h₁ hs h0) fun _ => ?_
  refine ifReturns_ite (fun _ => hpop _ (le_forwardPrimitiveType s.mangled h0)) fun _ => ?_
  refine (forwardEntryType_parsed hnext h0 h₁.recording).bind ?_
  intro nextIdx s₂ h₂
  refine (closeEntry_parsed (h₁.trans h₂.kept (Int.le_refl idx)) hs h0 h₂.le).bind ?_
  intro _ s₃ h₃
  exact ifReturns_pure h₃

end Scanner

/-- The scan of a type, whatever the fuel. -/
theorem forwardType_parsed : ∀ fuel idx s, 0 ≤ idx → Recording s →
    IfReturns (forwardType fuel idx) s (Parsed idx s) := by
  intro fuel
  induction fuel with
  | zero =>
    intro idx s h0 hs
    exact ifReturns_of_none rfl
  | succ fuel ih =>
    intro idx s h0 hs
    exact forwardTypeAt_parsed ih h0 hs

/-! ## What a maintainer relies on -/

/-- An entry that lies before `idx` is kept, and so is its text. -/
theorem Kept.get {idx : Int} {s s' : State} (h : Kept idx s s') {n : Nat}
    (hn : n < s.treeIdMap.entries.length)
    (hend : (s.treeIdMap.get n).start + (s.treeIdMap.get n).length ≤ idx) :
    s'.treeIdMap.get n = s.treeIdMap.get n ∧
      subStr s'.mangled (s'.treeIdMap.get n).start (s'.treeIdMap.get n).length =
        subStr s.mangled (s.treeIdMap.get n).start (s.treeIdMap.get n).length := by
  obtain ⟨more, hmore⟩ := h.entries
  have hget : s'.treeIdMap.get n = s.treeIdMap.get n := by
    rw [TreeMapState.get, TreeMapState.get, if_neg (by omega), if_neg (by omega), Int.toNat_natCast,
      List.getD_eq_getElem?_getD, List.getD_eq_getElem?_getD, ← hmore, List.getElem?_append_left hn]
  refine ⟨hget, ?_⟩
  rw [hget, subStr, subStr]
  split
  · rfl
  · rename_i hstart
    have hle : (s.treeIdMap.get n).start.toNat + (s.treeIdMap.get n).length.toNat ≤ idx.toNat ∨
        (s.treeIdMap.get n).length.toNat = 0 := by omega
    rcases hle with hle | hzero
    · have hbefore := congrArg (List.drop (s.treeIdMap.get n).start.toNat)
        (take_of_le h.before hle)
      rw [List.drop_take, List.drop_take, Nat.add_sub_cancel_left] at hbefore
      rw [RtString.subStr, RtString.subStr, hbefore]
    · rw [hzero]
      rfl

/-- **A back-reference keeps its meaning.**  While a list of types is scanned, the text grows and
    entries come and go; when the scan is over, every number that named an entry before the list
    still names it, and the entry still has the same text. -/
theorem forwardTypes_references {fuel : Nat} {startId r : Int} {s s' : State} (h0 : 0 ≤ startId)
    (hs : Recording s) (h : forwardTypesOf fuel startId s = some (r, s')) (n : Nat)
    (hn : n < s.treeIdMap.entries.length)
    (hend : (s.treeIdMap.get n).start + (s.treeIdMap.get n).length ≤ startId) :
    n < s'.treeIdMap.entries.length ∧ s'.treeIdMap.get n = s.treeIdMap.get n ∧
      subStr s'.mangled (s'.treeIdMap.get n).start (s'.treeIdMap.get n).length =
        subStr s.mangled (s.treeIdMap.get n).start (s.treeIdMap.get n).length := by
  obtain ⟨-, hkept⟩ := forwardTypes_kept (forwardType_parsed fuel) h0 hs r s' h
  exact ⟨Nat.lt_of_lt_of_le hn hkept.entries.length_le, hkept.get hn hend⟩

/-- `CN0Y1_E` behind `CN01aE`: the name `1a` is put in, the type is a duplicate and goes, and `Y1_`
    still names `1a`. -/
theorem forwardTypes_references_class :
    ∃ s' : State, subStr s'.mangled (s'.treeIdMap.get (2 : Nat)).start
      (s'.treeIdMap.get (2 : Nat)).length = ascii "1a" := by
  have hs : Recording ⟨ascii "CN01aECN0Y1_E", 3, true, ⟨[⟨0, 6⟩, ⟨2, 1⟩, ⟨3, 2⟩], 14⟩⟩ :=
    ⟨rfl, by unfold Spanned; decide⟩
  have h : forwardTypesOf 8 6 ⟨ascii "CN01aECN0Y1_E", 3, true, ⟨[⟨0, 6⟩, ⟨2, 1⟩, ⟨3, 2⟩], 14⟩⟩ =
      some (12, ⟨ascii "CN01aECN01aE", 3, true, ⟨[⟨0, 6⟩, ⟨2, 1⟩, ⟨3, 2⟩], 14⟩⟩) := by
    decide +kernel
  exact ⟨_, (forwardTypes_references (by decide) hs h 2 (by decide) (by decide)).2.2.trans
    (by decide +kernel)⟩

/-- **A type that does not parse leaves no trace in the table.**  Whatever it pushed is popped, and
    the counter is as it was; so the numbers of the entries before it, which a reference counts
    from, do not shift.  The text in front of it is as it was, too. -/
theorem forwardType_rejected {fuel : Nat} {idx : Int} {s s' : State} (h0 : 0 ≤ idx)
    (hs : Recording s) (h : forwardType fuel idx s = some (idx, s')) :
    s'.treeIdMap = s.treeIdMap ∧ s'.cnt = s.cnt ∧
      s'.mangled.take idx.toNat = s.mangled.take idx.toNat := by
  have hparsed := forwardType_parsed fuel idx s h0 hs idx s' h
  have htable := hparsed.restored rfl
  have hbalance := hparsed.kept.balance
  rw [htable] at hbalance
  exact ⟨htable, by omega, hparsed.kept.before⟩

/-- The arguments of `CN02bcI` have no end: the entries of the type and of its name `2bc` are popped. -/
theorem forwardType_rejected_class :
    ∃ s s' : State, forwardType 8 6 s = some (6, s') ∧ s'.mangled ≠ s.mangled ∧
      s'.treeIdMap = s.treeIdMap := by
  have hs : Recording ⟨ascii "CN01aECN02bcIY1_X", 3, true, ⟨[⟨0, 6⟩, ⟨2, 1⟩, ⟨3, 2⟩], 18⟩⟩ :=
    ⟨rfl, by unfold Spanned; decide⟩
  have h : forwardType 8 6 ⟨ascii "CN01aECN02bcIY1_X", 3, true, ⟨[⟨0, 6⟩, ⟨2, 1⟩, ⟨3, 2⟩], 18⟩⟩ =
      some (6, ⟨ascii "CN01aECN02bcI1aX", 3, true, ⟨[⟨0, 6⟩, ⟨2, 1⟩, ⟨3, 2⟩], 18⟩⟩) := by
    decide +kernel
  exact ⟨_, _, h, by decide +kernel, (forwardType_rejected (by decide) hs h).1⟩

end CangjieRuntime.Demangle.DeCompression
