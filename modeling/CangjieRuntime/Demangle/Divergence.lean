/-
  A name that the decompressor never finishes (`TryParsePath`, `TreeIdMapErase`).

  When a type turns out to be a duplicate, its entry is erased, and the text from its start on is
  expanded again: all of it, the types that are not scanned yet, and the names inside them.  The
  cursor stays where it was, although what is behind it may have moved.  With a class `E` that has a
  reference to itself in its name,

      E = C N 0 6G0_Y2_ E,   the entry 3, to which Y2_ refers,

  this goes on for ever.  Write `G` for the generic type `G0_`, an entry too:

  * at `G Y2_ S` the type `G` is a duplicate, `Y2_` is expanded, and the cursor is at `E S'`;
  * at `E S` the type `E` is a duplicate.  It begins with `CN06G0_Y2_`, whose reference is expanded to
    `CN06G0_CN06G0_Y2_E`, and the cursor, eleven characters on, is at `G Y2_ S'` again.

  The entries that were pushed on the way are duplicates too, so that the table stays as it is and
  only the text grows.  `S` is arbitrary.
-/
import CangjieRuntime.Demangle.Recording
import CangjieRuntime.Demangle.TypeGrammar

set_option linter.unusedVariables false

namespace CangjieRuntime.Demangle.DeCompression

open CangjieRuntime.Computation

/-! ## Parts of a text -/

section Rest

variable {text xs ys rest : RtString} {idx : Nat}

/-- A part of what is ahead is passed. -/
theorem Rest.drop (h : Rest text idx (xs ++ rest)) (k : Nat) (hk : k ≤ xs.length) :
    Rest text (idx + k) (xs.drop k ++ rest) := by
  have h' : Rest text idx (xs.take k ++ (xs.drop k ++ rest)) := by
    rwa [← List.append_assoc, List.take_append_drop]
  have := h'.append
  rwa [List.length_take, Nat.min_eq_left hk] at this

/-- The character `k` places behind `idx`. -/
theorem Rest.byteAt (h : Rest text idx (xs ++ rest)) (k : Nat) (hk : k < xs.length) :
    (idx : Int) + k < text.length ∧ DeCompression.byteAt text (idx + k) = xs.byte k := by
  have h' := Rest.drop h k (Nat.le_of_lt hk)
  rw [List.drop_eq_getElem_cons hk, List.cons_append] at h'
  obtain ⟨hlt, hbyte⟩ := h'.byte
  refine ⟨by omega, ?_⟩
  rw [← Int.natCast_add, byteAt_natCast, hbyte, RtString.byte, List.getD_eq_getElem?_getD,
    List.getElem?_eq_getElem hk]
  rfl

/-- The part of the text behind what is ahead first. -/
theorem Rest.subStr_eq (h : Rest text idx (xs ++ (ys ++ rest))) :
    DeCompression.subStr text (idx + xs.length) ys.length = ys := by
  rw [← Int.natCast_add, subStr_natCast]
  exact h.append.subStr

/-- The part of the text that is ahead. -/
theorem Rest.subStr_int (h : Rest text idx (xs ++ rest)) :
    DeCompression.subStr text idx xs.length = xs := by
  rw [subStr_natCast]
  exact h.subStr

/-- A part within the first `n` characters. -/
theorem subStr_take {n : Nat} {pos : TreePos} (h0 : 0 ≤ pos.start)
    (hle : pos.start + pos.length ≤ n) :
    subStr (text.take n) pos.start pos.length = subStr text pos.start pos.length := by
  rw [subStr, subStr, if_neg (by omega), if_neg (by omega), RtString.subStr, RtString.subStr,
    List.drop_take, List.take_take, Nat.min_eq_left (by omega)]

/-- What follows `pre` in a text that starts with `pre ++ ys`. -/
theorem Rest.of_take {pre : RtString} (hpre : pre.length = idx)
    (h : text.take (idx + ys.length) = pre ++ ys) :
    Rest text idx (ys ++ text.drop (idx + ys.length)) := by
  have heq : text = pre ++ (ys ++ text.drop (idx + ys.length)) := by
    rw [← List.append_assoc, ← h, List.take_append_drop]
  constructor
  · rw [heq, List.length_append]
    omega
  · conv_lhs => rw [heq, ← hpre, List.drop_left]
    rw [hpre]

/-- The text up to the end of what is ahead. -/
theorem Rest.take (h : Rest text idx (xs ++ rest)) :
    text.take (idx + xs.length) = text.take idx ++ xs := by
  rw [List.take_add, h.2, List.take_left]

end Rest

/-! ## Duplicates -/

section Duplicates

variable {s : State} {pos item : TreePos} {n : Nat}

/-- All entries are within the first `n` characters.  So what is expanded behind these characters
    does not change what an entry stands for. -/
def Within (entries : List TreePos) (n : Nat) : Prop :=
  ∀ e ∈ entries, 0 ≤ e.start ∧ e.start + e.length ≤ n

instance (entries : List TreePos) (n : Nat) : Decidable (Within entries n) :=
  inferInstanceAs (Decidable (∀ e ∈ entries, _))

/-- Only the first `n` characters matter for duplicates within them. -/
theorem hasDuplicates_take (ht : Within s.treeIdMap.entries n) (h0 : 0 ≤ pos.start)
    (hle : pos.start + pos.length ≤ n) :
    hasDuplicates s pos = hasDuplicates { s with mangled := s.mangled.take n } pos := by
  rw [hasDuplicates, hasDuplicates, subStr_take h0 hle, Bool.eq_iff_iff, List.any_eq_true,
    List.any_eq_true]
  refine exists_congr fun item => and_congr_right fun hitem => ?_
  rw [subStr_take (ht item hitem).1 (ht item hitem).2]

/-- An entry of the table, or the span that stands for a missing one, lies within the text. -/
theorem Within.get (ht : Within s.treeIdMap.entries n) (index : Int) :
    0 ≤ (s.treeIdMap.get index).start ∧
      (s.treeIdMap.get index).start + (s.treeIdMap.get index).length ≤ n := by
  rw [TreeMapState.get]
  split
  · exact ⟨Int.le_refl 0, Int.natCast_nonneg n⟩
  · rw [List.getD_eq_getElem?_getD]
    rcases hget : s.treeIdMap.entries[index.toNat]? with _ | e
    · exact ⟨Int.le_refl 0, Int.natCast_nonneg n⟩
    · exact ht e (List.mem_of_getElem? hget)

/-- The search for duplicates looks at the text of the spans alone, and so it does not see what
    follows. -/
theorem hasDuplicatesOf_take (ht : Within s.treeIdMap.entries n) (mid : Int) :
    hasDuplicatesOf s mid = hasDuplicatesOf { s with mangled := s.mangled.take n } mid := by
  rw [hasDuplicatesOf, hasDuplicatesOf]
  refine if_congr Iff.rfl rfl ?_
  dsimp only
  rw [subStr_take (ht.get mid).1 (ht.get mid).2]
  refine List.any_congr rfl fun tid => ?_
  rw [subStr_take (ht.get tid).1 (ht.get tid).2]

/-- A position whose text is that of an entry. -/
theorem hasDuplicates_of (hitem : item ∈ s.treeIdMap.entries)
    (hne : subStr s.mangled item.start item.length ≠ [])
    (heq : subStr s.mangled item.start item.length = subStr s.mangled pos.start pos.length) :
    hasDuplicates s pos = true := by
  refine List.any_eq_true.mpr ⟨item, hitem, decide_eq_true ⟨?_, heq⟩⟩
  rwa [List.isEmpty_iff]

/-- An entry whose text is that of another one. -/
theorem hasDuplicatesOf_of {mid tid : Nat} (hmid : mid < s.treeIdMap.entries.length)
    (htid : tid < s.treeIdMap.entries.length) (hdistinct : tid ≠ mid)
    (hne : subStr s.mangled (s.treeIdMap.get tid).start (s.treeIdMap.get tid).length ≠ [])
    (heq : subStr s.mangled (s.treeIdMap.get tid).start (s.treeIdMap.get tid).length =
      subStr s.mangled (s.treeIdMap.get mid).start (s.treeIdMap.get mid).length) :
    hasDuplicatesOf s mid = true := by
  rw [hasDuplicatesOf, if_neg (by rw [TreeMapState.size]; omega)]
  refine List.any_eq_true.mpr ⟨tid, List.mem_range.mpr htid, decide_eq_true ⟨?_, ?_, heq⟩⟩
  · omega
  · rwa [List.isEmpty_iff]

end Duplicates

/-! ## Single functions -/

section Functions

variable {s : State} {fuel : Nat}

/-- A push to the table leaves the text. -/
@[simp] theorem pushed_mangled (s : State) (pos : TreePos) : (pushed s pos).mangled = s.mangled := by
  rw [pushed]
  split <;> rfl

/-- It leaves the mode, too. -/
@[simp] theorem pushed_isRecord (s : State) (pos : TreePos) :
    (pushed s pos).isRecord = s.isRecord := by
  rw [pushed]
  split <;> rfl

/-- A type that is recorded is pushed with its span. -/
theorem pushRecorded_eq {c : Prop} [Decidable c] (hrec : s.isRecord = true) (hc : c)
    (idx nextIdx : Int) :
    pushRecorded c idx nextIdx s = some ((), pushed s ⟨idx, nextIdx - idx⟩) := by
  rw [pushRecorded, get_bind, onlyIf, if_pos ⟨hrec, hc⟩, pushCounted_eq]

/-- Without a `Y` nothing is resolved. -/
theorem updateCompressedName_skip {idx : Int} (h : byteAt s.mangled idx ≠ 89) :
    updateCompressedName (fuel + 1) idx s = some ((0, idx), s) := by
  refine iterate_inr ?_
  rw [updateStep, get_bind]
  exact congrFun (if_pos fun hc => h hc.2.1) s

/-- The scan of a type that becomes an entry. -/
theorem forwardType_entry {idx nextIdx : Int} {s₁ : State} {ch : UInt8} (hrec : s.isRecord = true)
    (hlt : idx < s.mangled.length) (hch : byteAt s.mangled idx = ch)
    (hkind : ch ≠ 107 ∧ ch ≠ 89 ∧ ¬ isPrimitiveType ch = true)
    (hentry : forwardEntryType (fuel + 1) (forwardType fuel) s.mangled ch idx (pushed s ⟨idx, 0⟩) =
      some (nextIdx, s₁)) (hrec₁ : s₁.isRecord = true) (hne : nextIdx ≠ idx) :
    forwardType (fuel + 1) idx s =
      (do treeIdMapAssign (fuel + 1) s.mangled s.treeIdMap.size idx nextIdx; return nextIdx) s₁ := by
  have hclose : ∀ copy mapId curCnt, closeEntry (fuel + 1) copy mapId idx nextIdx curCnt s₁ =
      treeIdMapAssign (fuel + 1) copy mapId idx nextIdx s₁ := by
    intro copy mapId curCnt
    rw [closeEntry, get_bind, onlyIf, if_pos hrec₁, if_pos hne]
  have hopen : onlyIf s.isRecord (pushCounted ⟨idx, 0⟩) s = some ((), pushed s ⟨idx, 0⟩) := by
    rw [onlyIf, if_pos hrec, pushCounted_eq]
  rw [forwardType, forwardTypeAt, get_bind, if_neg (by omega)]
  rw [bind_of_eq hopen, hch, if_neg hkind.1, if_neg hkind.2.1, if_neg hkind.2.2, bind_of_eq hentry]
  show StateT.bind _ _ s₁ = StateT.bind _ _ s₁
  rw [StateT.bind, StateT.bind, hclose]

/-- The parameter `G0_` is passed. -/
theorem forwardGenericType_eq {text rest : RtString} {idx : Nat}
    (h : Rest text idx ([71, 48, 95] ++ rest)) : forwardGenericType text idx = idx + 3 := by
  have hnumber : Demangle.forwardNumber text (idx + 1) = idx + 3 :=
    forwardNumber_eq (show IsNumber [48] from forall_chars (by decide)) (Rest.drop h 1 (by decide))
  rw [forwardGenericType, ← Int.natCast_one, ← Int.natCast_add, forwardNumber_natCast, hnumber]
  exact if_pos (by omega)

/-- The package `0`, in front of a name that starts with a 6. -/
theorem forwardPackageName_none {idx : Nat} {rest : RtString} (hrec : s.isRecord = true)
    (h : Rest s.mangled idx ([48, 54] ++ rest)) :
    forwardPackageName idx s = some ((idx : Int) + 1, pushed s ⟨idx, 1⟩) := by
  obtain ⟨hlt, hbyte⟩ := @Rest.byte s.mangled _ idx 48 h
  have hdigit : isCurrentCharDigit (s.mangled.byte idx) = true := by rw [hbyte]; decide
  have hstd : Demangle.isStdPkgName s.mangled idx = false := by
    rw [Demangle.isStdPkgName]
    split
    · rfl
    · have hsub : s.mangled.subStr idx 2 = [48, 54] := @Rest.subStr s.mangled [48, 54] _ idx h
      rw [hsub, mangleStdpkgMap_digit (by decide)]
      rfl
  have hname : Demangle.forwardName s.mangled idx = idx + 1 := by
    rw [Demangle.forwardName, isOperatorNameAt_digit hdigit, isPropNameAt_digit hdigit,
      if_neg (by omega), if_neg (by decide), if_neg (by simp [hdigit]), if_pos hbyte]
  have hcur : (if isStdPkgName s.mangled idx then (idx : Int) + 2 else forwardName s.mangled idx) =
      idx + 1 := by
    rw [isStdPkgName_natCast, hstd, forwardName_natCast, hname]
    rfl
  have hnext : byteAt s.mangled (idx + 1) = 54 := (Rest.byteAt h 1 (by decide)).2
  have hpush := pushRecorded_eq hrec (show (idx : Int) + 1 ≠ idx by omega) idx (idx + 1)
  rw [show (idx : Int) + 1 - idx = 1 by omega] at hpush
  rw [forwardPackageName, get_bind, hcur, bind_of_eq hpush, get_bind, pushed_mangled, hnext,
    if_neg fun hc => absurd hc.2 (by decide)]
  rfl

/-- `CN06G0_Y2_E`, whose name is `G0_Y2_`. -/
def group : RtString := [67, 78, 48, 54, 71, 48, 95, 89, 50, 95, 69]

/-- The name in the middle of the group is passed. -/
theorem forwardName_group {idx : Nat} {rest : RtString} (h : Rest s.mangled idx (group ++ rest)) :
    forwardName s.mangled (idx + 3) = idx + 10 := by
  have hname : Name.WellFormed ⟨[54], [71, 48, 95, 89, 50, 95]⟩ :=
    ⟨forall_chars (by decide), ⟨54, [], rfl, by decide⟩, ⟨71, [48, 95, 89, 50, 95], rfl, by decide⟩,
      by decide⟩
  have heq := forwardName_eq hname (show 6 ≤ 4294967295 by decide) (Rest.drop h 3 (by decide))
  rw [show (idx : Int) + 3 = ((idx + 3 : Nat) : Int) from rfl, forwardName_natCast, heq]
  rfl

/-- The class `CN06G0_Y2_E`: its package and its name are pushed. -/
theorem forwardClassType_group {next : Int → Scan Int} {idx : Nat} {rest : RtString}
    (hrec : s.isRecord = true) (h : Rest s.mangled idx (group ++ rest)) :
    forwardClassType (fuel + 1) next idx s =
      some ((idx : Int) + 11, pushed (pushed s ⟨idx + 2, 1⟩) ⟨idx + 3, 7⟩) := by
  have h0 : byteAt s.mangled (idx + 0) = 67 := (Rest.byteAt h 0 (by decide)).2
  have h1 : byteAt s.mangled (idx + 1) = 78 := (Rest.byteAt h 1 (by decide)).2
  have h2 : byteAt s.mangled (idx + 2) = 48 := (Rest.byteAt h 2 (by decide)).2
  have h3 : byteAt s.mangled (idx + 3) = 54 := (Rest.byteAt h 3 (by decide)).2
  have h10 : (idx : Int) + 10 < s.mangled.length ∧ byteAt s.mangled (idx + 10) = 69 :=
    Rest.byteAt h 10 (by decide)
  rw [Int.add_zero] at h0
  have hpackage : forwardPackageName (idx + 2) s =
      some ((idx : Int) + 3, pushed s ⟨idx + 2, 1⟩) :=
    forwardPackageName_none hrec (Rest.drop h 2 (by decide))
  have hpush := @pushRecorded_eq (pushed s ⟨idx + 2, 1⟩) ((idx : Int) + 10 ≠ idx + 3) _
    (by rw [pushed_isRecord, hrec]) (by omega) (idx + 3) (idx + 10)
  rw [show (idx : Int) + 10 - (idx + 3) = 7 by omega] at hpush
  rw [forwardClassType, get_bind, if_neg (not_not.mpr ⟨by omega, Or.inl h0, h1⟩),
    bind_of_eq (updateCompressedName_skip (by rw [h2]; decide)), bind_of_eq hpackage,
    bind_of_eq (updateCompressedName_skip (by rw [pushed_mangled, h3]; decide)), get_bind,
    pushed_mangled, forwardName_group h, bind_of_eq hpush, get_bind, pushed_mangled, pushed_mangled,
    h10.2, if_neg (fun hc => absurd hc.2 (by decide)), if_pos ⟨h10.1, rfl⟩]
  show some _ = some _
  rw [Int.add_assoc]
  rfl

/-- An entry whose text is new gets its length. -/
theorem treeIdMapAssign_fresh {mangledCopy : RtString} {mapId idx nextIdx : Int}
    (hlt : mapId < s.treeIdMap.size)
    (hdup : hasDuplicatesOf (assigned s mapId (nextIdx - idx)) mapId = false) :
    treeIdMapAssign fuel mangledCopy mapId idx nextIdx s =
      some ((), assigned s mapId (nextIdx - idx)) := by
  have hassign : (modify fun t : State => ⟨t.mangled, t.cnt, t.isRecord,
      t.treeIdMap.set mapId ⟨(s.treeIdMap.get mapId).start, nextIdx - idx⟩⟩ : Scan Unit) s =
      some ((), assigned s mapId (nextIdx - idx)) := rfl
  rw [treeIdMapAssign, get_bind, if_neg (by omega)]
  show ((modify _ : Scan Unit) >>= _) s = _
  rw [bind_of_eq hassign, get_bind, onlyIf, if_neg (by rw [hdup]; decide)]
  rfl

/-- An entry whose text is not new goes, and the copy is expanded. -/
theorem treeIdMapAssign_duplicate {mangledCopy : RtString} {mapId idx nextIdx : Int}
    {Q : Unit → State → Prop} (hlt : mapId < s.treeIdMap.size)
    (hdup : hasDuplicatesOf (assigned s mapId (nextIdx - idx)) mapId = true)
    (hexpand : IfReturns (updateCompressedNames fuel idx mangledCopy.length)
      ⟨mangledCopy, s.cnt, s.isRecord,
        (assigned s mapId (nextIdx - idx)).treeIdMap.removeAt mapId⟩
      fun _ t => Q () { t with cnt := t.cnt - 1 }) :
    IfReturns (treeIdMapAssign fuel mangledCopy mapId idx nextIdx) s Q := by
  refine ifReturns_get (ifReturns_ite (fun hge => absurd hlt (by omega)) fun _ => ?_)
  refine IfReturns.bind (ifReturns_modify rfl) (P := fun _ t =>
    t = assigned s mapId (nextIdx - idx)) ?_
  rintro - t rfl
  refine ifReturns_get (ifReturns_onlyIf (fun _ => ?_) fun hno => absurd hdup hno)
  refine IfReturns.bind (ifReturns_modify rfl) (P := fun _ t =>
    t = { assigned s mapId (nextIdx - idx) with mangled := mangledCopy }) ?_
  rintro - t rfl
  refine IfReturns.bind (ifReturns_modify rfl) (P := fun _ t => t = ⟨mangledCopy, s.cnt, s.isRecord,
    (assigned s mapId (nextIdx - idx)).treeIdMap.removeAt mapId⟩) ?_
  rintro - t rfl
  refine ifReturns_get (hexpand.bind ?_)
  intro _ t ht
  exact ifReturns_modify ht

end Functions

/-! ## The parts of the name -/

/-- `G0_`. -/
def generic : RtString := [71, 48, 95]

/-- `CN06G0_`, the part of `group` before its reference. -/
def groupHead : RtString := [67, 78, 48, 54, 71, 48, 95]

/-- `Y2_`, which refers to the entry 3. -/
def groupRef : RtString := [89, 50, 95]

/-- `1aHG0_CN06G0_Y2_E`. -/
def head : RtString := [49, 97, 72] ++ (generic ++ group)

/-- What is recorded of `head`: the path, `1a`, `G0_`, the class, `0` and `6G0_Y2_`. -/
def headEntries : List TreePos := [⟨0, 0⟩, ⟨0, 2⟩, ⟨3, 3⟩, ⟨6, 11⟩, ⟨8, 1⟩, ⟨9, 7⟩]

/-- The state while the types behind `head` are scanned. -/
def looping (text : RtString) (cnt : Int) (capacity : Nat) : State :=
  ⟨text, cnt, true, ⟨headEntries, capacity⟩⟩

/-! ## The expansion behind `head` -/

section Expansion

variable {text xs rest : RtString} {idx : Nat} {fuel capacity : Nat} {cnt : Int}

/-- Characters that are no `Y` are skipped. -/
theorem updateAll_skip {s : State} {endId : Int} {Q : Unit → State → Prop} :
    ∀ (xs : RtString) (idx : Nat), (∀ ch ∈ xs, ch ≠ 89) → Rest s.mangled idx (xs ++ rest) →
      (idx : Int) + xs.length ≤ endId →
      (∀ fuel, IfReturns (iterate updateAllStep fuel (((idx + xs.length : Nat) : Int), endId)) s Q) →
      ∀ fuel, IfReturns (iterate updateAllStep fuel ((idx : Int), endId)) s Q := by
  intro xs
  induction xs with
  | nil =>
    intro idx hxs h hend hrest
    exact hrest
  | cons x xs ih =>
    intro idx hxs h hend hrest
    rw [List.length_cons] at hend hrest
    obtain ⟨hlt, hbyte⟩ := h.byte
    have hstep : updateAllStep ((idx : Int), endId) s = some (.inl ((idx : Int) + 1, endId), s) := by
      rw [updateAllStep, get_bind]
      dsimp only
      rw [if_neg (not_not.mpr ⟨by omega, by omega⟩), byteAt_natCast, hbyte,
        if_neg fun hc => hxs x List.mem_cons_self hc.1]
      rfl
    refine ifReturns_iterate_inl hstep ?_
    refine ih (idx + 1) (fun ch hch => hxs ch (List.mem_cons_of_mem x hch)) h.cons (by omega) ?_
    rwa [show idx + 1 + xs.length = idx + (xs.length + 1) by omega]

/-- The reference of the class is expanded to the class. -/
theorem updateAll_ref {endId : Int} (hhead : text.take 17 = head)
    (h : Rest text idx (groupRef ++ rest)) (hend : (idx : Int) < endId) :
    ∃ endId', updateAllStep ((idx : Int), endId) (looping text cnt capacity) =
      some (.inl ((idx : Int) + 11, endId'),
        looping (text.take idx ++ (group ++ rest)) cnt capacity) := by
  have hlen := h.length
  have h0 : (idx : Int) + 0 < text.length ∧ byteAt text (idx + 0) = 89 := Rest.byteAt h 0 (by decide)
  have h1 : (idx : Int) + 1 < text.length ∧ byteAt text (idx + 1) = 50 := Rest.byteAt h 1 (by decide)
  rw [Int.add_zero] at h0
  have hnumber : Demangle.forwardNumber text (idx + 1) = idx + 3 :=
    forwardNumber_eq (show IsNumber [50] from forall_chars (by decide)) (Rest.drop h 1 (by decide))
  have hcur : forwardNumber text ((idx : Int) + 1) = idx + 3 := by
    rw [show (idx : Int) + 1 = ((idx + 1 : Nat) : Int) from rfl, forwardNumber_natCast, hnumber]
    rfl
  have hsub : subStr text ((idx : Int) + 1) (idx + 3 - idx - 1) = [50, 95] := by
    rw [show (idx : Int) + 3 - idx - 1 = ([50, 95] : RtString).length by
      show (idx : Int) + 3 - idx - 1 = 2
      omega]
    exact Rest.subStr_eq (show Rest text idx ([89] ++ ([50, 95] ++ rest)) from h)
  have hreference : reference (looping text cnt capacity) idx = (3, (idx : Int) + 3) := by
    rw [reference]
    show ((getNumber (subStr text ((idx : Int) + 1) (forwardNumber text ((idx : Int) + 1) - idx - 1))).toInt,
      forwardNumber text ((idx : Int) + 1)) = _
    rw [hcur, hsub, show (getNumber [50, 95]).toInt = 3 by decide +kernel]
  have hgroup : subStr text 6 11 = group := by
    rw [← @subStr_take text 17 ⟨6, 11⟩ (by decide) (by decide), hhead]
    decide
  have hsplice : splice text idx ⟨6, 11⟩ (idx + 3) = text.take idx ++ (group ++ rest) := by
    have hhead' : subStr text 0 idx = text.take idx := by
      rw [subStr, if_neg (by omega), RtString.subStr]
      rfl
    have hrest : (if (idx : Int) + 3 < text.length then subStrFrom text (idx + 3) else []) = rest := by
      have hdrop : Rest text (idx + 3) rest := h.append
      split
      · rw [subStrFrom, show (idx : Int) + 3 = ((idx + 3 : Nat) : Int) from rfl,
          ← Int.natCast_sub hdrop.1, subStr_natCast, RtString.subStr, hdrop.2,
          List.take_of_length_le]
        have := hdrop.length
        omega
      · have := hdrop.length
        exact (List.eq_nil_of_length_eq_zero (by omega)).symm
    rw [splice, hhead', hgroup, hrest, List.append_assoc]
  have hsize : (looping text cnt capacity).treeIdMap.size = 6 := rfl
  have hget : (looping text cnt capacity).treeIdMap.get 3 = ⟨6, 11⟩ := rfl
  refine ⟨((text.take idx ++ (group ++ rest)).length : Int), ?_⟩
  rw [updateAllStep, get_bind]
  dsimp only
  rw [if_neg (not_not.mpr ⟨hend, h0.1⟩), if_pos ⟨h0.2, fun hc => Bool.false_ne_true hc, h1.1⟩,
    hreference]
  dsimp only
  rw [if_neg (by omega), hsize, hget, if_neg (by decide), if_neg (by decide)]
  show some (Sum.inl ((idx : Int) + 11, ((splice text idx ⟨6, 11⟩ (idx + 3)).length : Int)),
    looping (splice text idx ⟨6, 11⟩ (idx + 3)) cnt capacity) = _
  rw [hsplice]

/-- The expansion from `idx` on, of a text that goes on with `xs` and a reference to the class. -/
theorem updateAll_group (hhead : text.take 17 = head) (hidx : 17 ≤ idx) (hxs : ∀ ch ∈ xs, ch ≠ 89)
    (h : Rest text idx (xs ++ (groupRef ++ rest))) :
    IfReturns (updateCompressedNames fuel idx text.length) (looping text cnt capacity) fun _ t =>
      ∃ text', t = looping text' cnt capacity ∧ text'.take 17 = head ∧
        ∃ rest', Rest text' idx (xs ++ (group ++ rest')) := by
  have hlen := h.length
  rw [List.length_append, List.length_append, show groupRef.length = 3 from rfl] at hlen
  refine updateAll_skip xs idx hxs h (by omega) ?_ fuel
  obtain ⟨endId', hstep⟩ := @updateAll_ref text rest (idx + xs.length) capacity cnt text.length hhead
    h.append (by omega)
  refine ifReturns_iterate_inl hstep fun fuel => ?_
  have hspans : Spanned (looping (text.take (idx + xs.length) ++ (group ++ rest)) cnt
      capacity).treeIdMap := by
    show ∀ e ∈ headEntries, 0 ≤ e.start ∧ 0 ≤ e.length
    decide
  -- from here on, only what is behind the class changes
  refine (updateCompressedNames_ifReturns (by omega) hspans).mono ?_
  intro _ t ht
  have hlength : (text.take (idx + xs.length)).length = idx + xs.length := by
    rw [List.length_take]
    omega
  have hbefore : t.mangled.take (idx + (xs ++ group).length) = text.take idx ++ (xs ++ group) := by
    have := ht.before
    rw [show (((idx + xs.length : Nat) : Int) + 11).toNat = idx + xs.length + 11 by omega] at this
    rw [List.length_append, show group.length = 11 from rfl, ← Nat.add_assoc, this]
    show (text.take (idx + xs.length) ++ (group ++ rest)).take (idx + xs.length + 11) = _
    rw [← List.append_assoc, List.take_left' (by rw [List.length_append, hlength]; rfl), Rest.take h,
      List.append_assoc]
  refine ⟨t.mangled, ht.rest, ?_, t.mangled.drop (idx + (xs ++ group).length), ?_⟩
  · have := congrArg (List.take 17) hbefore
    rwa [List.take_take, Nat.min_eq_left (by omega),
      List.take_append_of_le_length (by rw [List.length_take]; omega), List.take_take,
      Nat.min_eq_left hidx, hhead] at this
  · rw [← List.append_assoc]
    exact Rest.of_take (by rw [List.length_take]; omega) hbefore

end Expansion

/-! ## The rounds -/

section Rounds

variable {text rest : RtString} {idx fuel capacity : Nat} {cnt : Int} {s : State}

/-- A span within the head is read from the head, whatever follows. -/
theorem head_subStr {pos : TreePos} (hhead : text.take 17 = head) (h0 : 0 ≤ pos.start)
    (hle : pos.start + pos.length ≤ 17) :
    subStr text pos.start pos.length = subStr head pos.start pos.length := by
  rw [← @subStr_take text 17 pos h0 hle, hhead]

/-- An empty span is pushed without a look for duplicates. -/
theorem pushed_zero (hroom : s.treeIdMap.entries.length < s.treeIdMap.capacity) (idx : Int) :
    pushed s ⟨idx, 0⟩ = { s with
      cnt := s.cnt + 1,
      treeIdMap := { s.treeIdMap with entries := s.treeIdMap.entries ++ [⟨idx, 0⟩] } } := by
  rw [pushed, if_pos ⟨Or.inl rfl, hroom⟩]

/-- A span that is there already is not pushed. -/
theorem pushed_duplicate {pos : TreePos} (hne : pos.length ≠ 0) (hdup : hasDuplicates s pos = true) :
    pushed s pos = s := by
  rw [pushed, if_neg]
  rintro ⟨hzero | hnew, -⟩
  · exact hne hzero
  · exact hnew hdup

/-- The state with the entry of the type that starts at `idx`. -/
def opened (text : RtString) (cnt : Int) (capacity : Nat) (idx : Int) : State :=
  ⟨text, cnt + 1, true, ⟨headEntries ++ [⟨idx, 0⟩], capacity⟩⟩

/-- The first push of a round: its span is still empty. -/
theorem pushed_looping (hroom : 6 < capacity) (idx : Int) :
    pushed (looping text cnt capacity) ⟨idx, 0⟩ = opened text cnt capacity idx :=
  @pushed_zero (looping text cnt capacity) hroom idx

/-- The end of a duplicate type `xs`: its entry goes, and what is behind it is expanded. -/
theorem assign_duplicate {xs ys : RtString} {tid : Nat} {pos : TreePos} (hhead : text.take 17 = head)
    (hidx : 17 ≤ idx) (hys : ∀ ch ∈ ys, ch ≠ 89) (h : Rest text idx (ys ++ (groupRef ++ rest)))
    (hxs : subStr text idx xs.length = xs) (hne : xs ≠ [])
    (htid : headEntries[tid]? = some pos) (hpos : subStr head pos.start pos.length = xs)
    (hle : 0 ≤ pos.start ∧ pos.start + pos.length ≤ 17) {nextIdx : Int}
    (hnext : nextIdx - idx = xs.length) :
    IfReturns (treeIdMapAssign fuel text 6 idx nextIdx) (opened text cnt capacity idx) fun _ t =>
      ∃ text', t = looping text' cnt capacity ∧ text'.take 17 = head ∧
        ∃ rest', Rest text' idx (ys ++ (group ++ rest')) := by
  have hlt : tid < 6 := (List.getElem?_eq_some_iff.mp htid).1
  refine treeIdMapAssign_duplicate (show (6 : Int) < 7 by decide) ?_ ?_
  · have hget : (assigned (opened text cnt capacity idx) 6 (nextIdx - idx)).treeIdMap.get tid =
        pos := by
      show (List.getD (headEntries ++ [⟨idx, nextIdx - idx⟩]) tid ⟨0, 0⟩) = pos
      rw [List.getD_eq_getElem?_getD, List.getElem?_append_left hlt, htid]
      rfl
    have htext : subStr text pos.start pos.length = xs := (head_subStr hhead hle.1 hle.2).trans hpos
    refine @hasDuplicatesOf_of _ 6 tid (show 6 < 7 by decide) (show tid < 7 by omega) (by omega) ?_ ?_
    · rw [hget]
      show subStr text pos.start pos.length ≠ []
      rwa [htext]
    · rw [hget]
      show subStr text pos.start pos.length = subStr text idx (nextIdx - idx)
      rw [htext, hnext, hxs]
  · refine (@updateAll_group text ys rest idx fuel capacity (cnt + 1) hhead hidx hys h).mono ?_
    rintro - t ⟨text', rfl, hhead', rest', hrest'⟩
    refine ⟨text', ?_, hhead', rest', hrest'⟩
    show State.mk text' (cnt + 1 - 1) true ⟨headEntries, capacity⟩ = looping text' cnt capacity
    rw [Int.add_sub_cancel]
    rfl

/-- At `G Y2_ S`: the generic type is a duplicate, and the class is behind it then. -/
theorem generic_round (hhead : text.take 17 = head) (hidx : 17 ≤ idx) (hroom : 6 < capacity)
    (h : Rest text idx (generic ++ (groupRef ++ rest))) :
    IfReturns (forwardType fuel idx) (looping text cnt capacity) fun r t =>
      r = ((idx + 3 : Nat) : Int) ∧ ∃ text', t = looping text' cnt capacity ∧
        text'.take 17 = head ∧ ∃ rest', Rest text' (idx + 3) (group ++ rest') := by
  cases fuel with
  | zero => exact ifReturns_of_none rfl
  | succ fuel =>
    have h0 : (idx : Int) + 0 < text.length ∧ byteAt text (idx + 0) = 71 :=
      Rest.byteAt h 0 (by decide)
    rw [Int.add_zero] at h0
    have hentry : forwardEntryType (fuel + 1) (forwardType fuel) text 71 idx
        (pushed (looping text cnt capacity) ⟨idx, 0⟩) =
        some ((idx : Int) + 3, opened text cnt capacity idx) := by
      rw [pushed_looping hroom]
      show some (forwardGenericType text idx, _) = _
      rw [forwardGenericType_eq h]
    have hscan := @forwardType_entry (looping text cnt capacity) fuel idx (idx + 3) _ 71 rfl h0.1 h0.2
      (by decide) hentry rfl (by omega)
    rw [IfReturns, hscan]
    refine (@assign_duplicate text rest idx _ capacity cnt generic generic 2 _ hhead hidx
      (forall_chars (by decide)) h (Rest.subStr_int h) (by decide) rfl (by decide) (by decide) _
      (show (idx : Int) + 3 - idx = 3 by omega)).bind ?_
    rintro - t ⟨text', rfl, hhead', rest', hrest'⟩
    exact ifReturns_pure ⟨rfl, text', rfl, hhead', rest', hrest'.append⟩

/-- A part of the text that an entry of `head` has already. -/
theorem pushed_opened {xs : RtString} {pos item : TreePos} {start : Int}
    (hhead : text.take 17 = head) (hitem : item ∈ headEntries)
    (hle : 0 ≤ item.start ∧ item.start + item.length ≤ 17)
    (htext : subStr head item.start item.length = xs) (hne : xs ≠ [])
    (hpos : subStr text pos.start pos.length = xs) (hlength : pos.length ≠ 0) :
    pushed (opened text cnt capacity start) pos = opened text cnt capacity start := by
  have hold : subStr text item.start item.length = xs := (head_subStr hhead hle.1 hle.2).trans htext
  refine pushed_duplicate hlength (hasDuplicates_of (List.mem_append_left _ hitem) ?_ ?_)
  · show subStr text item.start item.length ≠ []
    rwa [hold]
  · show subStr text item.start item.length = subStr text pos.start pos.length
    rw [hold, hpos]

/-- At `E S`: the class is a duplicate.  What is put in the place of its reference begins with the
    rest of `CN06G0_CN06`, and the generic type with the reference is behind it then. -/
theorem group_round (hhead : text.take 17 = head) (hidx : 17 ≤ idx) (hroom : 6 < capacity)
    (h : Rest text idx (group ++ rest)) :
    IfReturns (forwardType fuel idx) (looping text cnt capacity) fun r t =>
      r = ((idx + 11 : Nat) : Int) ∧ ∃ text', t = looping text' cnt capacity ∧
        text'.take 17 = head ∧ ∃ rest', Rest text' (idx + 11) (generic ++ (groupRef ++ rest')) := by
  cases fuel with
  | zero => exact ifReturns_of_none rfl
  | succ fuel =>
    have h0 : (idx : Int) + 0 < text.length ∧ byteAt text (idx + 0) = 67 :=
      Rest.byteAt h 0 (by decide)
    rw [Int.add_zero] at h0
    have hzero : subStr text ((idx : Int) + 2) 1 = [48] :=
      @Rest.subStr_int text [48] _ (idx + 2) (Rest.drop h 2 (by decide))
    have hname : subStr text ((idx : Int) + 3) 7 = [54, 71, 48, 95, 89, 50, 95] :=
      @Rest.subStr_int text [54, 71, 48, 95, 89, 50, 95] _ (idx + 3) (Rest.drop h 3 (by decide))
    have hentry : forwardEntryType (fuel + 1) (forwardType fuel) text 67 idx
        (pushed (looping text cnt capacity) ⟨idx, 0⟩) =
        some ((idx : Int) + 11, opened text cnt capacity idx) := by
      rw [pushed_looping hroom, forwardEntryType, if_pos (Or.inl rfl),
        @forwardClassType_group (opened text cnt capacity idx) fuel _ idx rest rfl h,
        @pushed_opened text capacity cnt [48] ⟨idx + 2, 1⟩ ⟨8, 1⟩ idx hhead (by decide) (by decide)
          (by decide) (by decide) hzero (show (1 : Int) ≠ 0 by decide),
        @pushed_opened text capacity cnt [54, 71, 48, 95, 89, 50, 95] ⟨idx + 3, 7⟩ ⟨9, 7⟩ idx hhead
          (by decide) (by decide) (by decide) (by decide) hname (show (7 : Int) ≠ 0 by decide)]
    have hscan := @forwardType_entry (looping text cnt capacity) fuel idx (idx + 11) _ 67 rfl h0.1 h0.2
      (by decide) hentry rfl (by omega)
    rw [IfReturns, hscan]
    refine (@assign_duplicate text _ idx _ capacity cnt group groupHead 3 _ hhead hidx
      (forall_chars (by decide)) h (Rest.subStr_int h) (by decide) rfl (by decide) (by decide) _
      (show (idx : Int) + 11 - idx = 11 by omega)).bind ?_
    rintro - t ⟨text', rfl, hhead', rest', hrest'⟩
    refine ifReturns_pure ⟨rfl, text', rfl, hhead', 69 :: rest', ?_⟩
    -- the eleven characters of `CN06G0_CN06`
    exact @Rest.append text' [67, 78, 48, 54, 71, 48, 95, 67, 78, 48, 54] _ idx hrest'

/-- **The types behind `head` never end.**  Where `G Y2_` is, or the class, one of them is again after
    one more type. -/
theorem forwardTypes_never_ends (hhead : text.take 17 = head) (hidx : 17 ≤ idx)
    (hroom : 6 < capacity) (h : Rest text idx (generic ++ (groupRef ++ rest))) :
    ∀ rounds, iterate (forwardTypesStep (forwardType fuel)) rounds (idx : Int)
      (looping text cnt capacity) = none := by
  intro rounds
  refine iterate_eq_none (fun (cur : Int) t => ∃ i : Nat, cur = i ∧ 17 ≤ i ∧ ∃ text,
    t = looping text cnt capacity ∧ text.take 17 = head ∧ ∃ rest,
      Rest text i (generic ++ (groupRef ++ rest)) ∨ Rest text i (group ++ rest)) ?_ rounds idx _
    ⟨idx, rfl, hidx, text, rfl, hhead, rest, Or.inl h⟩
  rintro cur t ⟨i, rfl, hi, text, rfl, hhead, rest, hrest⟩
  have hstart : (i : Int) < text.length ∧ byteAt text i ≠ 69 := by
    rcases hrest with hrest | hrest
    · obtain ⟨hlt, hbyte⟩ := @Rest.byte text _ i 71 hrest
      rw [byteAt_natCast, hbyte]
      exact ⟨by omega, by decide⟩
    · obtain ⟨hlt, hbyte⟩ := @Rest.byte text _ i 67 hrest
      rw [byteAt_natCast, hbyte]
      exact ⟨by omega, by decide⟩
  refine ifReturns_get (ifReturns_ite (fun hc => absurd hstart hc) fun _ => ?_)
  have hround : IfReturns (forwardType fuel i) (looping text cnt capacity) fun r t =>
      r ≠ i ∧ ∃ j : Nat, r = j ∧ 17 ≤ j ∧ ∃ text, t = looping text cnt capacity ∧
        text.take 17 = head ∧ ∃ rest,
          Rest text j (generic ++ (groupRef ++ rest)) ∨ Rest text j (group ++ rest) := by
    rcases hrest with hrest | hrest
    · refine (generic_round hhead hi hroom hrest).mono ?_
      rintro r t ⟨rfl, text', rfl, hhead', rest', hrest'⟩
      exact ⟨by omega, i + 3, rfl, by omega, text', rfl, hhead', rest', Or.inr hrest'⟩
    · refine (group_round hhead hi hroom hrest).mono ?_
      rintro r t ⟨rfl, text', rfl, hhead', rest', hrest'⟩
      exact ⟨by omega, i + 11, rfl, by omega, text', rfl, hhead', rest', Or.inl hrest'⟩
  refine hround.bind ?_
  rintro r t ⟨hne, hnext⟩
  rw [if_neg hne]
  exact ifReturns_pure ⟨r, rfl, hnext⟩

end Rounds

/-! ## The name -/

section Name

variable {rest : RtString} {fuel capacity : Nat}

/-- The text behind `_CN`. -/
def loopingText (rest : RtString) : RtString := head ++ (generic ++ (groupRef ++ rest))

/-- The text begins with the head, whatever follows. -/
theorem loopingText_take (rest : RtString) : (loopingText rest).take 17 = head :=
  List.take_left' rfl

/-- A span that is not there yet is pushed, if the table has room. -/
theorem pushed_fresh {s : State} {pos : TreePos} (hdup : hasDuplicates s pos = false)
    (hroom : s.treeIdMap.entries.length < s.treeIdMap.capacity) :
    pushed s pos = { s with
      cnt := s.cnt + 1,
      treeIdMap := { s.treeIdMap with entries := s.treeIdMap.entries ++ [pos] } } := by
  rw [pushed, if_pos ⟨Or.inr (by rw [hdup]; decide), hroom⟩]

/-- The state with the path and `1a`, and what the types up to the end of `head` add. -/
def started (rest : RtString) (capacity n : Nat) : State :=
  ⟨loopingText rest, n, true, ⟨headEntries.take n, capacity⟩⟩

/-- A new part of `head` is pushed. -/
theorem pushed_first {entries : List TreePos} {cnt : Int} {pos : TreePos}
    (hwithin : Within entries 17) (hpos : 0 ≤ pos.start ∧ pos.start + pos.length ≤ 17)
    (hroom : entries.length < capacity)
    (hdup : hasDuplicates ⟨head, cnt, true, ⟨entries, capacity⟩⟩ pos = false) :
    pushed ⟨loopingText rest, cnt, true, ⟨entries, capacity⟩⟩ pos =
      ⟨loopingText rest, cnt + 1, true, ⟨entries ++ [pos], capacity⟩⟩ := by
  refine pushed_fresh ?_ hroom
  rw [@hasDuplicates_take ⟨loopingText rest, cnt, true, ⟨entries, capacity⟩⟩ pos 17 hwithin hpos.1
    hpos.2]
  show hasDuplicates ⟨(loopingText rest).take 17, cnt, true, _⟩ pos = false
  rw [loopingText_take, hdup]

/-- A new part of `head` gets its length. -/
theorem assign_first {entries : List TreePos} {cnt : Int} {mapId : Nat} {idx nextIdx : Int}
    {mangledCopy : RtString} (hlt : mapId < entries.length) {entries' : List TreePos}
    (hentries : (assigned ⟨head, cnt, true, ⟨entries, capacity⟩⟩ mapId (nextIdx - idx)).treeIdMap =
      ⟨entries', capacity⟩) (hwithin : Within entries' 17)
    (hdup : hasDuplicatesOf ⟨head, cnt, true, ⟨entries', capacity⟩⟩ mapId = false) :
    treeIdMapAssign fuel mangledCopy mapId idx nextIdx
      ⟨loopingText rest, cnt, true, ⟨entries, capacity⟩⟩ =
      some ((), ⟨loopingText rest, cnt, true, ⟨entries', capacity⟩⟩) := by
  have hassigned : assigned ⟨loopingText rest, cnt, true, ⟨entries, capacity⟩⟩ mapId (nextIdx - idx) =
      ⟨loopingText rest, cnt, true, ⟨entries', capacity⟩⟩ :=
    congrArg (State.mk (loopingText rest) cnt true) hentries
  rw [treeIdMapAssign_fresh (show (mapId : Int) < entries.length by omega), hassigned]
  rw [hassigned, @hasDuplicatesOf_take ⟨loopingText rest, cnt, true, ⟨entries', capacity⟩⟩ 17 hwithin]
  show hasDuplicatesOf ⟨(loopingText rest).take 17, cnt, true, _⟩ mapId = false
  rw [loopingText_take, hdup]

/-- The first `G0_` is new. -/
theorem generic_first (hroom : 6 < capacity) :
    forwardType (fuel + 1) 3 (started rest capacity 2) = some (6, started rest capacity 3) := by
  have h : Rest (loopingText rest) 3 (generic ++ (group ++ (generic ++ (groupRef ++ rest)))) := by
    refine ⟨?_, rfl⟩
    rw [loopingText, List.length_append, show head.length = 17 from rfl]
    omega
  have h0 : (3 : Int) + 0 < (loopingText rest).length ∧ byteAt (loopingText rest) (3 + 0) = 71 :=
    Rest.byteAt h 0 (by decide)
  have hopen : pushed (started rest capacity 2) ⟨3, 0⟩ =
      ⟨loopingText rest, 3, true, ⟨[⟨0, 0⟩, ⟨0, 2⟩, ⟨3, 0⟩], capacity⟩⟩ :=
    @pushed_zero (started rest capacity 2) (show 2 < capacity by omega) 3
  have hentry : forwardEntryType (fuel + 1) (forwardType fuel) (loopingText rest) 71 3
      (pushed (started rest capacity 2) ⟨3, 0⟩) =
      some (6, ⟨loopingText rest, 3, true, ⟨[⟨0, 0⟩, ⟨0, 2⟩, ⟨3, 0⟩], capacity⟩⟩) := by
    rw [hopen]
    show some (forwardGenericType (loopingText rest) (3 : Nat), _) = _
    rw [forwardGenericType_eq h]
    rfl
  have hassign : treeIdMapAssign (fuel + 1) (loopingText rest) (2 : Nat) 3 6 ⟨loopingText rest, 3,
      true, ⟨[⟨0, 0⟩, ⟨0, 2⟩, ⟨3, 0⟩], capacity⟩⟩ = some ((), started rest capacity 3) :=
    assign_first (show 2 < 3 by decide) rfl (by decide) rfl
  rw [forwardType_entry rfl h0.1 h0.2 (by decide) hentry rfl (by decide)]
  exact bind_of_eq hassign

/-- The first `CN06G0_Y2_E` is new, and so are its package and its name. -/
theorem group_first (hroom : 6 < capacity) :
    forwardType (fuel + 1) 6 (started rest capacity 3) = some (17, started rest capacity 6) := by
  have h : Rest (loopingText rest) 6 (group ++ (generic ++ (groupRef ++ rest))) := by
    refine ⟨?_, rfl⟩
    rw [loopingText, List.length_append, show head.length = 17 from rfl]
    omega
  have h0 : (6 : Int) + 0 < (loopingText rest).length ∧ byteAt (loopingText rest) (6 + 0) = 67 :=
    Rest.byteAt h 0 (by decide)
  have hopen : pushed (started rest capacity 3) ⟨6, 0⟩ =
      ⟨loopingText rest, 4, true, ⟨[⟨0, 0⟩, ⟨0, 2⟩, ⟨3, 3⟩, ⟨6, 0⟩], capacity⟩⟩ :=
    @pushed_zero (started rest capacity 3) (show 3 < capacity by omega) 6
  have hentry : forwardEntryType (fuel + 1) (forwardType fuel) (loopingText rest) 67 6
      (pushed (started rest capacity 3) ⟨6, 0⟩) =
      some (17, ⟨loopingText rest, 6, true,
        ⟨[⟨0, 0⟩, ⟨0, 2⟩, ⟨3, 3⟩, ⟨6, 0⟩, ⟨8, 1⟩, ⟨9, 7⟩], capacity⟩⟩) := by
    rw [hopen, forwardEntryType, if_pos (Or.inl rfl)]
    refine (@forwardClassType_group ⟨loopingText rest, 4, true,
      ⟨[⟨0, 0⟩, ⟨0, 2⟩, ⟨3, 3⟩, ⟨6, 0⟩], capacity⟩⟩ fuel _ 6 _ rfl h).trans ?_
    show some ((17 : Int), pushed (pushed _ ⟨8, 1⟩) ⟨9, 7⟩) = _
    rw [pushed_first (by decide) (by decide) (show 4 < capacity by omega) rfl,
      pushed_first (by decide) (by decide) (show 5 < capacity by omega) rfl]
    rfl
  have hassign : treeIdMapAssign (fuel + 1) (loopingText rest) (3 : Nat) 6 17 ⟨loopingText rest, 6,
      true, ⟨[⟨0, 0⟩, ⟨0, 2⟩, ⟨3, 3⟩, ⟨6, 0⟩, ⟨8, 1⟩, ⟨9, 7⟩], capacity⟩⟩ =
      some ((), started rest capacity 6) :=
    assign_first (show 3 < 6 by decide) rfl (by decide) rfl
  rw [forwardType_entry rfl h0.1 h0.2 (by decide) hentry rfl (by decide)]
  exact bind_of_eq hassign

/-- The types behind `1aH` never end. -/
theorem forwardTypesOf_started (hroom : 6 < capacity) :
    forwardTypesOf fuel 3 (started rest capacity 2) = none := by
  have hlength : (loopingText rest).length = 17 + (generic ++ (groupRef ++ rest)).length := by
    rw [loopingText, List.length_append]
    rfl
  have hrest : Rest (loopingText rest) 17 (generic ++ (groupRef ++ rest)) := ⟨by omega, rfl⟩
  cases fuel with
  | zero => rfl
  | succ fuel =>
    have hloop := fun rounds => @forwardTypes_never_ends (loopingText rest) rest 17 (fuel + 1) capacity 6
      (loopingText_take rest) (Nat.le_refl 17) hroom hrest rounds
    have hround : ∀ (idx nextIdx : Int) (s s' : State), idx < s.mangled.length →
        byteAt s.mangled idx ≠ 69 → forwardType (fuel + 1) idx s = some (nextIdx, s') →
        nextIdx ≠ idx →
        forwardTypesStep (forwardType (fuel + 1)) idx s = some (.inl nextIdx, s') := by
      intro idx nextIdx s s' hlt hbyte hscan hne
      rw [forwardTypesStep, get_bind, if_neg (not_not.mpr ⟨hlt, hbyte⟩), bind_of_eq hscan,
        if_neg hne]
      rfl
    have h3 := hround 3 6 (started rest capacity 2) _ (show (3 : Int) < (loopingText rest).length by omega)
      (show (71 : UInt8) ≠ 69 by decide) (generic_first hroom) (by decide)
    have h6 := hround 6 17 (started rest capacity 3) _ (show (6 : Int) < (loopingText rest).length by omega)
      (show (67 : UInt8) ≠ 69 by decide) (group_first hroom) (by decide)
    rw [forwardTypesOf, forwardTypes, iterate_inl h3]
    cases fuel with
    | zero => rfl
    | succ fuel =>
      rw [iterate_inl h6]
      exact hloop fuel

/-- A byte of the head is a byte of the text. -/
theorem loopingText_byte {n : Nat} (hn : n < 17) :
    (n : Int) < (loopingText rest).length ∧ byteAt (loopingText rest) n = head.byte n := by
  have h : Rest (loopingText rest) 0 (head ++ (generic ++ (groupRef ++ rest))) :=
    ⟨Nat.zero_le _, rfl⟩
  have := Rest.byteAt h n hn
  rwa [Int.natCast_zero, Int.zero_add] at this

/-- The state with the path, which starts at 0 and has no length yet. -/
def pathState (rest : RtString) (capacity : Nat) : State :=
  ⟨loopingText rest, 1, true, ⟨[⟨0, 0⟩], capacity⟩⟩

/-- The name `1a`, and what is behind its `H`. -/
theorem tryNamePrefixPath_loops (hroom : 6 < capacity) :
    tryNamePrefixPath (fuel + 1) 0 0 0 (pathState rest capacity) = none := by
  have h : Rest (loopingText rest) 0 ([49, 97] ++
      ([72] ++ (generic ++ group) ++ (generic ++ (groupRef ++ rest)))) := ⟨Nat.zero_le _, rfl⟩
  have hH : (2 : Int) < (loopingText rest).length ∧ byteAt (loopingText rest) 2 = 72 :=
    loopingText_byte (n := 2) (by decide)
  have hname : forwardName (loopingText rest) 0 = 2 := by
    have hwell : Name.WellFormed ⟨[49], [97]⟩ :=
      ⟨forall_chars (by decide), ⟨49, [], rfl, by decide⟩, ⟨97, [], rfl, by decide⟩, by decide⟩
    have := forwardName_eq hwell (show 1 ≤ 4294967295 by decide) h
    rw [show (0 : Int) = ((0 : Nat) : Int) from rfl, forwardName_natCast, this]
    rfl
  have hpush : onlyIf ((2 : Int) ≠ 0 ∧ (0 : Int) = 0) (pushCounted ⟨0, 2 - 0⟩)
      (pathState rest capacity) = some ((), started rest capacity 2) := by
    rw [onlyIf, if_pos (by decide), pushCounted_eq]
    exact congrArg (fun s => some ((), s))
      (pushed_first (by decide) (by decide) (show 1 < capacity by omega) rfl)
  have hparams : tryParameters (fuel + 1) (loopingText rest) 0 0 3 (started rest capacity 2) = none :=
    bind_none (forwardTypesOf_started hroom)
  have hsuffix : trySuffix (fuel + 1) (loopingText rest) 0 0 2 2 (started rest capacity 2) = none := by
    have hupdate : updateCompressedName (fuel + 1) 2 (started rest capacity 2) =
        some ((0, 2), started rest capacity 2) :=
      updateCompressedName_skip (show byteAt (loopingText rest) 2 ≠ 89 by rw [hH.2]; decide)
    have hlt : (2 : Int) < (started rest capacity 2).mangled.length := hH.1
    rw [trySuffix, get_bind, if_pos hlt, bind_of_eq hupdate]
    have hbyte : byteAt (started rest capacity 2).mangled 2 = 72 := hH.2
    dsimp only
    rw [get_bind, hbyte, if_neg (by decide), if_neg (by decide), if_pos rfl]
    exact hparams
  rw [tryNamePrefixPath, get_bind]
  dsimp only
  rw [show (pathState rest capacity).mangled = loopingText rest from rfl, hname, hH.2,
    if_neg fun hc => absurd hc.2 (by decide), bind_of_eq hpush, bind_none hsuffix]

/-- The path has no end. -/
theorem tryParsePath_loops (hroom : 6 < capacity) :
    tryParsePath fuel ⟨loopingText rest, 0, false, TreeMapState.init capacity⟩ = none := by
  have hloop : iterate (parsePathStep fuel) fuel 0
      ⟨loopingText rest, 0, true, TreeMapState.init capacity⟩ = none := by
    cases fuel with
    | zero => rfl
    | succ fuel =>
      have hstart := @loopingText_byte rest 0 (by decide)
      have hupdate : updateCompressedName (fuel + 1) 0
          ⟨loopingText rest, 0, true, TreeMapState.init capacity⟩ =
          some ((0, 0), ⟨loopingText rest, 0, true, TreeMapState.init capacity⟩) :=
        updateCompressedName_skip (show byteAt (loopingText rest) (0 : Nat) ≠ 89 by
          rw [hstart.2]; decide)
      have hpush : treeIdMapPushBack ⟨0, 0⟩ ⟨loopingText rest, 0, true, TreeMapState.init capacity⟩ =
          some (true, ⟨loopingText rest, 0, true, ⟨[⟨0, 0⟩], capacity⟩⟩) := by
        have hadd : (TreeMapState.init capacity).add ⟨0, 0⟩ = (true, ⟨[⟨0, 0⟩], capacity⟩) :=
          if_neg (Nat.not_le_of_lt (show 0 < capacity by omega))
        rw [treeIdMapPushBack, get_bind, if_pos (Or.inl rfl), hadd]
        rfl
      have hpart : tryPart (fuel + 1) 49 0 0 0 (pathState rest capacity) = none := by
        rw [tryPart, get_bind, if_neg (by decide), if_pos (Or.inl (by decide))]
        exact tryNamePrefixPath_loops hroom
      refine bind_none ?_
      have hlt : (0 : Int) < (loopingText rest).length := hstart.1
      rw [parsePathStep, get_bind]
      dsimp only
      rw [if_neg (not_not.mpr hlt), bind_of_eq hupdate]
      dsimp only
      rw [bind_of_eq hpush, bind_of_eq (modify_eq _), get_bind]
      exact bind_none hpart
  rw [tryParsePath, bind_of_eq (modify_eq _)]
  exact bind_none hloop

end Name

/-! ## The run -/

/-- The name, with any characters behind it. -/
def loopingName (rest : RtString) : RtString := [95, 67, 78] ++ loopingText rest

/-- The name is compressed, whatever follows: the mark stands in its head. -/
theorem isCompressed_loopingName (rest : RtString) : isCompressed (loopingName rest) = true := by
  have h : Rest (loopingName rest) 16 ([89, 50, 95] ++ ([69] ++ (generic ++ (groupRef ++ rest)))) := by
    refine ⟨?_, rfl⟩
    rw [loopingName, loopingText, List.length_append, List.length_append]
    show 16 ≤ 3 + (17 + _)
    omega
  have hnumber : Demangle.forwardNumber (loopingName rest) (16 + 1) = 16 + 3 :=
    forwardNumber_eq (show IsNumber [50] from forall_chars (by decide)) (Rest.drop h 1 (by decide))
  refine List.any_eq_true.mpr ⟨16, List.mem_range.mpr ?_, decide_eq_true ⟨rfl, ?_⟩⟩
  · have := h.length
    rw [List.length_append] at this
    exact this ▸ Nat.lt_add_of_pos_right (Nat.add_pos_left (by decide) _)
  · rw [hnumber]
    decide

/-- **Decompression does not end** for `_CN1aHG0_CN06G0_Y2_EG0_Y2_` with any characters behind it:
    no number of rounds is enough.  The first rounds push what the table needs; from then on every
    round leads from a text with the looping head to another one, with the table as it was
    (`forwardTypes_never_ends`). -/
theorem cjMangledDeCompression_never_ends (rest : RtString) (fuel : Nat) :
    cjMangledDeCompression fuel (ascii "_CN1aHG0_CN06G0_Y2_EG0_Y2_" ++ rest) false = none := by
  have hname : ascii "_CN1aHG0_CN06G0_Y2_EG0_Y2_" ++ rest = loopingName rest := by
    rw [show ascii "_CN1aHG0_CN06G0_Y2_EG0_Y2_" =
      [95, 67, 78] ++ (head ++ (generic ++ groupRef)) by decide +kernel]
    rfl
  have hlength : (loopingName rest).length = 26 + rest.length := by
    rw [loopingName, loopingText, List.length_append, List.length_append, List.length_append,
      List.length_append]
    show 3 + (17 + (3 + (3 + rest.length))) = _
    omega
  have hparse : parseName fuel (loopingName rest) (loopingText rest) = none := by
    rw [parseName, tryParsePath_loops (by omega)]
    rfl
  have hbyte : ∀ n : Nat, byteAt (loopingName rest) n = (loopingName rest).byte n :=
    fun n => byteAt_natCast
  have hat : stripCangjieAt (loopingName rest) 0 = 0 :=
    if_neg fun hc => absurd ((hbyte 0).symm.trans hc.2) (by show ¬ (95 : UInt8) = 64; decide)
  have hprefix : stripCangjiePrefix (loopingName rest) 0 = 2 := by
    rw [stripCangjiePrefix, if_pos ⟨by rw [hlength]; omega, hbyte 0, hbyte 1⟩, if_neg]
    · rfl
    · exact fun hc => absurd ((hbyte 2).symm.trans hc.2) (by show ¬ (78 : UInt8) = 86; decide)
  have hdrop : ∀ n : Nat, subStrFrom (loopingName rest) n = (loopingName rest).drop n := by
    intro n
    rw [subStrFrom, subStr, if_neg (by omega), RtString.subStr, Int.toNat_natCast,
      List.take_of_length_le (by rw [List.length_drop]; omega)]
  have hN : subStrFrom (loopingName rest) 2 = [78] ++ loopingText rest := hdrop 2
  have hbehind : subStrFrom ([78] ++ loopingText rest) 1 = loopingText rest := by
    rw [subStrFrom, subStr, if_neg (by decide), RtString.subStr, List.take_of_length_le]
    · rfl
    · rw [List.length_drop]
      omega
  have hsame : isSamePrefix (loopingName rest) (ascii "_C") (0 : Int).toNat = true := by
    rw [show ascii "_C" = [95, 67] by decide +kernel]
    refine List.all_eq_true.mpr fun i hi => decide_eq_true fun hc => hc.2.2 ?_
    have hi := List.mem_range'_1.mp hi
    obtain rfl | rfl : i = 0 ∨ i = 1 := by omega
    · rfl
    · rfl
  -- `N` is the first character of none of `GV`, `GP`, `GF` and `PI`
  have hdiffer : ∀ second : RtString, 0 < second.length → second.byte 0 ≠ 78 →
      isSamePrefix ([78] ++ loopingText rest) second 0 = false := by
    intro second hlen hne
    refine Bool.eq_false_iff.mpr fun hall => ?_
    have := of_decide_eq_true (List.all_eq_true.mp hall 0 (by decide))
    exact this ⟨Nat.succ_pos _, hlen, Ne.symm hne⟩
  have hglobal : isGlobalEncode ([78] ++ loopingText rest) = false := by
    rw [isGlobalEncode, hdiffer _ (by decide +kernel) (by decide +kernel),
      hdiffer _ (by decide +kernel) (by decide +kernel),
      hdiffer _ (by decide +kernel) (by decide +kernel)]
    rfl
  have hdefault : isDefaultParamFuncEncode ([78] ++ loopingText rest) = false :=
    hdiffer _ (by decide +kernel) (by decide +kernel)
  rw [hname, cjMangledDeCompression, isCompressed_loopingName, if_neg (by simp [loopingName])]
  dsimp only
  rw [hat, hsame, hprefix, hN, hglobal, hdefault, if_neg (by simp [loopingName]), if_neg (by decide),
    if_neg (by decide), if_pos ⟨Bool.false_ne_true, rfl⟩, hbehind, hparse]
  rfl

end CangjieRuntime.Demangle.DeCompression
