/-
  Progress of the demangler.

  Every function of the demangler moves the cursor forward, inside the text, and keeps the text
  (`Moves`); from a cursor inside the text every unit moves it by at least one byte.  The trace is
  ordered: what was done later is at a larger index, and nothing after a `Reject` makes the parse
  valid again (`Inv`).  Each function has one lemma, `f_moves` or `f_steps`; the loops end because
  each of their rounds moves the cursor (`run_loop`).
-/
import CangjieRuntime.Demangle.Units

set_option linter.unusedVariables false

namespace CangjieRuntime.Demangle

open CangjieRuntime.Computation

/-! ## The invariant -/

/-- After a `Reject` the parse is not valid and the cursor at the end. -/
def Demangler.Dead (d : Demangler) : Prop :=
  d.isValid = false ∧ d.currentIndex = d.mangledName.length

/-- What may be done after an event: the cursor does not go back, and after a `Reject` the parse is
    not valid. -/
def Event.Before : Event → Event → Prop
  | .state _ index _, .state _ index' _ => index ≤ index'
  | .rejected, .state _ _ isValid => isValid = false
  | _, _ => True

/-- The cursor is inside the text, and a valid unit has at least one byte. -/
def Event.Fine : Event → Prop
  | .state size index _ => index ≤ size
  | .unit start stop isValid => isValid = true → start < stop
  | .rejected => True

/-- The invariant of all runs.  The cursor is inside the text, every event of the trace is fine and
    may follow those before it, and once there was a `Reject` the parse is dead. -/
structure Inv (d : Demangler) : Prop where
  le_size : d.currentIndex ≤ d.mangledName.length
  fine : ∀ e ∈ d.trace, e.Fine
  ordered : d.trace.Pairwise fun newer older => older.Before newer
  now : ∀ e ∈ d.trace, e.Before (.state d.mangledName.length d.currentIndex d.isValid)
  dead : .rejected ∈ d.trace → d.Dead

/-- What every function does to the state.  It keeps the invariant, the text and the delimiter, and
    the cursor does not go back; so the functions of the demangler compose, in whatever order the
    input makes them be called. -/
structure Moves (d d' : Demangler) : Prop where
  inv : Inv d'
  text : d'.mangledName = d.mangledName
  scope : d'.scopeResolution = d.scopeResolution
  le : d.currentIndex ≤ d'.currentIndex

/-- The bytes after the cursor. -/
def Demangler.room (d : Demangler) : Nat := d.mangledName.length - d.currentIndex

section Moves

variable {d d' d'' : Demangler} {α β : Type}

/-- The cursor is at the end if no byte is left. -/
theorem Demangler.atEnd_iff : d.atEnd = true ↔ d.mangledName.length ≤ d.currentIndex := by
  simp [Demangler.atEnd]

/-- To do nothing is a move. -/
theorem Moves.refl (h : Inv d) : Moves d d := ⟨h, rfl, rfl, Nat.le_refl _⟩

/-- Moves are put together: the text and the delimiter stay, and the cursor goes on. -/
theorem Moves.trans (h : Moves d d') (h' : Moves d' d'') : Moves d d'' :=
  ⟨h'.inv, h'.text.trans h.text, h'.scope.trans h.scope, Nat.le_trans h.le h'.le⟩

/-- A move leaves no more bytes behind the cursor than there were. -/
theorem Moves.room_le (h : Moves d d') : d'.room ≤ d.room := by
  have := h.le
  rw [Demangler.room, Demangler.room, h.text]
  omega

/-- A move that gains a byte leaves fewer, and so a loop of such rounds ends. -/
theorem Moves.room_lt (h : Moves d d') (hlt : d.currentIndex < d'.currentIndex) :
    d'.room < d.room := by
  have := h.inv.le_size
  rw [h.text] at this
  rw [Demangler.room, Demangler.room, h.text]
  omega

/-- What moves and is followed by a move is a move. -/
theorem moves_then {m : Dem α} {f : α → Dem β}
    (h : Run m d fun _ => Moves d) (hrest : ∀ a d', Moves d d' → Run (f a) d' fun _ => Moves d') :
    Run (m >>= f) d fun _ => Moves d :=
  h.bind fun a d' hd => (hrest a d' hd).mono fun _ _ hd' => hd.trans hd'

/-- A step: the cursor moves by at least one byte. -/
def Steps (d d' : Demangler) : Prop := Moves d d' ∧ d.currentIndex < d'.currentIndex

/-- What steps and is followed by a move is a step; the rest has less room than the whole. -/
theorem steps_then {m : Dem α} {f : α → Dem β} (h : Run m d fun _ => Steps d)
    (hrest : ∀ a d', Moves d d' → d'.room < d.room → Run (f a) d' fun _ => Moves d') :
    Run (m >>= f) d fun _ => Steps d :=
  h.bind fun a d' hd => (hrest a d' hd.1 (hd.1.room_lt hd.2)).mono fun _ _ hd' =>
    ⟨hd.1.trans hd', Nat.lt_of_lt_of_le hd.2 hd'.le⟩

/-- A step is a move. -/
theorem steps_moves {m : Dem α} (h : Run m d fun _ => Steps d) : Run m d fun _ => Moves d :=
  h.mono fun _ _ hd => hd.1

/-- A result without an operation is a move. -/
theorem run_pure_moves {a : α} (h : Inv d) : Run (pure a) d fun _ => Moves d :=
  run_pure (Moves.refl h)

end Moves

/-! ## Setting the fields -/

section Fields

variable {d : Demangler}

/-- The fields are set, the cursor not back, and after a `Reject` the parser stays dead. -/
theorem Inv.set (h : Inv d) {index : Nat} {isValid : Bool} (hle : d.currentIndex ≤ index)
    (hsize : index ≤ d.mangledName.length)
    (hdead : .rejected ∈ d.trace → isValid = false ∧ index = d.mangledName.length) :
    Moves d { d with currentIndex := index, isValid := isValid }.record := by
  have hbefore : ∀ e ∈ d.trace, e.Before (.state d.mangledName.length index isValid) := by
    intro e he
    have hnow := h.now e he
    cases e with
    | state size index' isValid' => exact Nat.le_trans hnow hle
    | rejected => exact (hdead he).1
    | unit start stop isValid' => exact trivial
  refine ⟨⟨hsize, ?_, ?_, ?_, ?_⟩, rfl, rfl, hle⟩
  · intro e he
    rcases List.mem_cons.mp he with rfl | he
    · exact hsize
    · exact h.fine e he
  · exact List.pairwise_cons.mpr ⟨hbefore, h.ordered⟩
  · intro e he
    rcases List.mem_cons.mp he with rfl | he
    · exact Nat.le_refl _
    · exact hbefore e he
  · intro he
    rcases List.mem_cons.mp he with he | he
    · cases he
    · exact hdead he

/-- To go `n` bytes on is a step, if there are so many. -/
theorem advance_steps (h : Inv d) {n : Nat} (hpos : 0 < n)
    (hle : d.currentIndex + n ≤ d.mangledName.length) :
    Run (advance n) d fun _ d' => Steps d d' ∧ d'.currentIndex = d.currentIndex + n := by
  refine run_get (run_modify ⟨⟨?_, ?_⟩, rfl⟩)
  · refine h.set (Nat.le_add_right _ n) hle ?_
    intro hrejected
    have := (h.dead hrejected).2
    omega
  · exact Nat.lt_add_of_pos_right hpos

/-- To go one byte on is a step in front of the end. -/
theorem advance_one (h : Inv d) (hend : ¬ d.atEnd) :
    Run (advance 1) d fun _ => Steps d := by
  rw [Demangler.atEnd_iff] at hend
  exact (advance_steps h Nat.one_pos (by omega)).mono fun _ _ hd => hd.1

/-- To become invalid is a move, and the cursor stays. -/
theorem setValid_false (h : Inv d) :
    Run (setValid false) d fun _ d' => Moves d d' ∧ d'.currentIndex = d.currentIndex ∧
      d'.isValid = false :=
  run_modify ⟨h.set (Nat.le_refl _) h.le_size fun hrejected => ⟨rfl, (h.dead hrejected).2⟩, rfl, rfl⟩

/-- To set the cursor is a move if it does not go back nor leave the text; after a `Reject` it may
    only stay at the end. -/
theorem setIndex_moves (h : Inv d) {index : Nat} (hle : d.currentIndex ≤ index)
    (hsize : index ≤ d.mangledName.length)
    (hdead : .rejected ∈ d.trace → index = d.mangledName.length) :
    Run (setIndex index) d fun _ d' =>
      Moves d d' ∧ d'.currentIndex = index ∧ d'.isValid = d.isValid :=
  run_modify ⟨h.set hle hsize fun hd => ⟨(h.dead hd).1, hdead hd⟩, rfl, rfl⟩

/-- A dead parser may be marked as rejected. -/
theorem Moves.rejected {d' : Demangler} (hmoves : Moves d d') (hdead : d'.Dead) :
    Moves d { d' with trace := .rejected :: d'.trace } := by
  refine ⟨⟨hmoves.inv.le_size, ?_, ?_, ?_, fun _ => hdead⟩, hmoves.text, hmoves.scope, hmoves.le⟩
  · intro e he
    rcases List.mem_cons.mp he with rfl | he
    · exact trivial
    · exact hmoves.inv.fine e he
  · refine List.pairwise_cons.mpr ⟨fun e he => ?_, hmoves.inv.ordered⟩
    cases e <;> exact trivial
  · intro e he
    rcases List.mem_cons.mp he with rfl | he
    · exact hdead.1
    · exact hmoves.inv.now e he

/-- `Reject` leaves a dead parser. -/
theorem reject_dead (h : Inv d) : Run reject d fun _ d' => Moves d d' ∧ d'.Dead := by
  have hmark : ∀ (d' : Demangler), Moves d d' → d'.Dead →
      Run (do
        modify fun d => { d with trace := .rejected :: d.trace }
        return d.dumpDi : Dem DemangleInfo) d' fun _ d'' => Moves d d'' ∧ d''.Dead := by
    intro d' hmoves hdead
    exact (run_modify (Q := fun _ d'' => Moves d d'' ∧ d''.Dead)
      ⟨hmoves.rejected hdead, hdead⟩).bind fun _ d'' hd => run_pure hd
  refine run_get (run_ite (fun hlive => ?_) fun hdead => ?_)
  · refine (setValid_false h).bind fun _ d' hd => ?_
    obtain ⟨hmoves, hindex, hvalid⟩ := hd
    refine (setIndex_moves hmoves.inv (hindex ▸ h.le_size) (hmoves.text ▸ Nat.le_refl _)
      fun hd' => hmoves.text ▸ rfl).bind fun _ d'' hd' => ?_
    obtain ⟨hmoves', hindex', hvalid'⟩ := hd'
    have htext := (hmoves.trans hmoves').text
    exact hmark d'' (hmoves.trans hmoves') ⟨hvalid'.trans hvalid, by rw [hindex', htext]⟩
  · rw [not_not] at hdead
    exact hmark d (Moves.refl h) ⟨by simpa using hdead.2, hdead.1⟩

/-- `Reject` is a move: it goes to the end of the text. -/
theorem reject_moves (h : Inv d) : Run reject d fun _ => Moves d :=
  (reject_dead h).mono fun _ _ hd => hd.1

/-- Inside the text `Reject` is a step. -/
theorem reject_steps (h : Inv d) (hend : ¬ d.atEnd) : Run reject d fun _ => Steps d := by
  refine (reject_dead h).mono fun _ d' hd => ⟨hd.1, ?_⟩
  rw [Demangler.atEnd_iff] at hend
  rw [hd.2.2, hd.1.text]
  omega

end Fields

/-! ## Lexical functions -/

section Lexical

variable {d : Demangler} {fuel : Nat}

/-- An expected byte is skipped, or the rest is rejected. -/
theorem skipChar_moves (h : Inv d) (ch : UInt8) : Run (skipChar ch) d fun _ => Moves d := by
  refine run_get (run_ite (fun hend => ?_) fun hend => run_ite (fun hch => ?_) fun hch => ?_)
  · exact moves_then (reject_moves h) fun _ _ hd => run_pure_moves hd.inv
  · exact moves_then (reject_moves h) fun _ _ hd => run_pure_moves hd.inv
  · exact steps_moves (advance_one h hend)

/-- In front of the end both gain a byte. -/
theorem skipChar_steps (h : Inv d) (hend : ¬ d.atEnd) (ch : UInt8) :
    Run (skipChar ch) d fun _ => Steps d := by
  refine run_get (run_ite (fun hend' => absurd hend' hend) fun _ => ?_)
  refine run_ite (fun hch => ?_) fun hch => ?_
  · exact steps_then (reject_steps h hend) fun _ _ hd _ => run_pure_moves hd.inv
  · exact advance_one h hend

/-- A byte is skipped if it is the one that may be there. -/
theorem skipOptionalChar_moves (h : Inv d) (ch : UInt8) :
    Run (skipOptionalChar ch) d fun _ => Moves d := by
  refine run_get (run_ite (fun hend => run_pure_moves h) fun hend => run_ite (fun hch => ?_) fun _ =>
    run_pure_moves h)
  exact steps_moves (advance_one h hend)

/-- An expected string is skipped byte by byte, up to the first that is wrong. -/
theorem skipString_moves (h : Inv d) (pattern : RtString) :
    Run (skipString pattern) d fun _ => Moves d := by
  induction pattern generalizing d with
  | nil => exact run_pure_moves h
  | cons ch pattern ih =>
    refine moves_then (skipChar_moves h ch) fun _ d' hd => ?_
    exact run_get (run_ite (fun _ => ih hd.inv) fun _ => run_pure_moves hd.inv)

/-- A string that is not empty gains a byte in front of the end, be it by its first byte or by a
    `Reject`. -/
theorem skipString_steps (h : Inv d) (hend : ¬ d.atEnd) (ch : UInt8) (pattern : RtString) :
    Run (skipString (ch :: pattern)) d fun _ => Steps d := by
  refine steps_then (skipChar_steps h hend ch) fun _ d' hd _ => ?_
  exact run_get (run_ite (fun _ => skipString_moves hd.inv pattern) fun _ => run_pure_moves hd.inv)

/-- Before the end of the text nothing was rejected. -/
theorem Inv.not_rejected (h : Inv d) (hend : ¬ d.atEnd) : .rejected ∉ d.trace := by
  intro hmem
  rw [Demangler.atEnd_iff] at hend
  have := (h.dead hmem).2
  omega

/-- The digits of a length. -/
theorem digits_moves (numStr : List UInt8) (h : Inv d) (hlive : .rejected ∉ d.trace)
    (hlen : d.currentIndex + numStr.length ≤ d.mangledName.length) :
    Run (numStr.forM fun _ => do
        advance 1
        setValid true) d fun _ d' =>
      Moves d d' ∧ d'.currentIndex = d.currentIndex + numStr.length := by
  induction numStr generalizing d with
  | nil => exact run_pure ⟨Moves.refl h, rfl⟩
  | cons ch numStr ih =>
    rw [List.length_cons] at hlen
    have hindex : Moves d { d with currentIndex := d.currentIndex + 1 }.record :=
      h.set (Nat.le_succ _) (by omega) fun hmem => absurd hmem hlive
    have hlive' : .rejected ∉ ({ d with currentIndex := d.currentIndex + 1 }.record).trace := by
      simp [Demangler.record, hlive]
    have hvalid := hindex.trans (@Inv.set _ hindex.inv _ true (Nat.le_refl _)
      hindex.inv.le_size fun hmem => absurd hmem hlive')
    obtain ⟨_, d', heq, hmoves, hcursor⟩ := ih hvalid.inv
      (by simp [Demangler.record, hlive]) (by simp [Demangler.record]; omega)
    refine ⟨(), d', heq, hvalid.trans hmoves, ?_⟩
    rw [hcursor, List.length_cons]
    simp only [Demangler.record]
    omega

/-- A length has a digit, or is 0. -/
theorem demangleLength_moves (h : Inv d) :
    Run demangleLength d fun num d' => Moves d d' ∧
      (¬ d.atEnd → d.currentIndex < d'.currentIndex ∨
        num = 0 ∧ d'.currentIndex = d.currentIndex) := by
  refine run_get (run_ite (fun hend => ?_) fun hend => run_ite (fun hzero => ?_) fun hzero => ?_)
  · exact (reject_moves h).bind fun _ _ hd => run_pure ⟨hd, fun hend' => absurd hend hend'⟩
  · exact (advance_one h hend).bind fun _ _ hd => run_pure ⟨hd.1, fun _ => Or.inl hd.2⟩
  · have hlen : d.currentIndex +
        ((d.mangledName.drop d.currentIndex).takeWhile isCurrentCharDigit).length ≤
          d.mangledName.length := by
      have hprefix := (List.takeWhile_prefix isCurrentCharDigit
        (l := d.mangledName.drop d.currentIndex)).length_le
      have := h.le_size
      rw [List.length_drop] at hprefix
      omega
    generalize hdigits : (d.mangledName.drop d.currentIndex).takeWhile isCurrentCharDigit = digits
      at hlen
    have hset : Moves d { d with isValid := false }.record :=
      h.set (Nat.le_refl _) h.le_size fun hmem => absurd hmem (h.not_rejected hend)
    refine Run.bind (P := fun _ d' => d' = { d with isValid := false }.record)
      (run_modify rfl) fun _ d1 hd1 => ?_
    subst hd1
    refine (digits_moves digits hset.inv (by simp [Demangler.record, h.not_rejected hend])
      hlen).bind fun _ d' hd => ?_
    obtain ⟨hmoves, hcursor⟩ := hd
    refine run_ite (fun hempty => run_pure ⟨hset.trans hmoves, fun _ => Or.inr ⟨rfl, ?_⟩⟩)
      fun hempty => run_pure ⟨hset.trans hmoves, fun _ => Or.inl ?_⟩
    · rw [hcursor, List.isEmpty_iff.mp hempty]
      rfl
    · rw [hcursor]
      have := List.length_pos_iff.mpr fun hnil => hempty (List.isEmpty_iff.mpr hnil)
      simp only [Demangler.record]
      omega

/-- A name is read, or the rest is rejected; in front of the end both gain a byte, since a length
    has at least one digit. -/
theorem demangleStringName_moves (h : Inv d) :
    Run demangleStringName d fun _ d' => Moves d d' ∧
      (¬ d.atEnd → d.currentIndex < d'.currentIndex) := by
  refine (demangleLength_moves h).bind fun num d1 hd1 => ?_
  obtain ⟨hmoves, hcursor⟩ := hd1
  refine run_get (run_ite (fun hzero => ?_) fun hpos => run_ite (fun hlong => ?_) fun hfits => ?_)
  · refine (reject_dead hmoves.inv).bind fun _ d' hd => run_pure ⟨hmoves.trans hd.1, fun hend => ?_⟩
    rw [Demangler.atEnd_iff] at hend
    rw [hd.2.2, hd.1.text, hmoves.text]
    omega
  · refine (reject_dead hmoves.inv).bind fun _ d' hd => run_pure ⟨hmoves.trans hd.1, fun hend => ?_⟩
    rw [Demangler.atEnd_iff] at hend
    rw [hd.2.2, hd.1.text, hmoves.text]
    omega
  · have hsize := hmoves.inv.le_size
    refine (advance_steps hmoves.inv (Nat.pos_iff_ne_zero.mpr hpos) (by omega)).bind
      fun _ d' hd => run_pure ⟨hmoves.trans hd.1.1, fun _ => ?_⟩
    exact Nat.lt_of_le_of_lt hmoves.le hd.1.2

/-- A byte that is read is gained, and none is read at the end. -/
theorem getChar_moves (h : Inv d) :
    Run getChar d fun c d' => Moves d d' ∧ (c ≠ 0 → d.currentIndex < d'.currentIndex) := by
  refine run_get (run_ite (fun hch => ?_) fun hch => run_pure ⟨Moves.refl h, nofun⟩)
  have hend : ¬ d.atEnd := by
    intro hend
    exact hch (by rw [Demangler.peekChar, if_pos hend])
  exact (advance_one h hend).bind fun _ _ hd => run_pure ⟨hd.1, fun _ => hd.2⟩

/-- A loop whose rounds move the cursor ends. -/
theorem run_loop {α β : Type} {body : α → Dem (α ⊕ β)} (h : Inv d) (hfuel : d.room < fuel)
    (hbody : ∀ a d', Moves d d' → Run (body a) d' fun r d'' => Moves d' d'' ∧
      ∀ a', r = .inl a' → d'.currentIndex < d''.currentIndex) (a : α) :
    Run (iterate body fuel a) d fun _ => Moves d := by
  refine run_iterate (fun _ => Moves d) Demangler.room (fun a d' hd => ?_) fuel a d
    (Moves.refl h) hfuel
  refine (hbody a d' hd).mono fun r d'' hd' => ⟨fun a' hr => ?_, fun b hr => hd.trans hd'.1⟩
  exact ⟨hd.trans hd'.1, hd'.1.room_lt (hd'.2 a' hr)⟩

/-- A number is read up to its `_`; every round of the loop gains a byte. -/
theorem demangleManglingNumber_moves (h : Inv d) (hfuel : d.room < fuel) :
    Run (demangleManglingNumber fuel) d fun _ => Moves d := by
  have hloop : Run (iterate manglingNumberStep fuel []) d fun _ => Moves d := by
    refine run_loop h hfuel (fun content d' hd => ?_) []
    refine (getChar_moves hd.inv).bind fun c d1 hd1 => ?_
    refine run_ite (fun hc => run_ite (fun hstop => ?_) fun hstop => ?_) fun hc => ?_
    · exact run_pure ⟨hd1.1, nofun⟩
    · exact run_pure ⟨hd1.1, fun _ _ => hd1.2 hc⟩
    · exact (reject_moves hd1.1.inv).bind fun _ _ hd2 => run_pure ⟨hd1.1.trans hd2, nofun⟩
  refine moves_then hloop fun content d' hd => ?_
  cases content with
  | none => exact run_pure_moves hd.inv
  | some content =>
    cases content with
    | nil => exact run_pure_moves hd.inv
    | cons ch content =>
      simp only
      cases base62 (ch :: content).reverse with
      | none => exact moves_then (reject_moves hd.inv) fun _ _ hd' => run_pure_moves hd'.inv
      | some value => exact run_pure_moves hd.inv

/-- The name of a file is 13 bytes, or it ends with a `$`. -/
theorem demangleFileName_moves (h : Inv d) (hfuel : d.room < fuel) :
    Run (demangleFileName fuel) d fun _ => Moves d := by
  refine moves_then (skipChar_moves h 85) fun _ d1 hd1 => ?_
  have hloop : Run (iterate fileNameNumberStep fuel []) d1 fun _ => Moves d1 := by
    refine run_loop hd1.inv (Nat.lt_of_le_of_lt hd1.room_le hfuel) (fun content d' hd => ?_) []
    refine run_ite (fun hfull => run_pure ⟨Moves.refl hd.inv, nofun⟩) fun _ => ?_
    refine (getChar_moves hd.inv).bind fun c d2 hd2 => ?_
    refine run_ite (fun hc => run_ite (fun hstop => ?_) fun hstop => ?_) fun hc => ?_
    · exact run_pure ⟨hd2.1, nofun⟩
    · exact run_pure ⟨hd2.1, fun _ _ => hd2.2 hc⟩
    · exact (reject_moves hd2.1.inv).bind fun _ _ hd3 => run_pure ⟨hd2.1.trans hd3, nofun⟩
  refine moves_then hloop fun content d' hd => ?_
  cases content with
  | none => exact run_pure_moves hd.inv
  | some content =>
    refine run_ite (fun _ => run_pure_moves hd.inv) fun _ => ?_
    exact moves_then (reject_moves hd.inv) fun _ _ hd' => run_pure_moves hd'.inv

/-- A local counter is a `K` and a number, if it is there. -/
theorem skipLocalCounter_moves (h : Inv d) (hfuel : d.room < fuel) :
    Run (skipLocalCounter fuel) d fun _ => Moves d := by
  refine run_get (run_ite (fun _ => run_pure_moves h) fun _ => ?_)
  refine moves_then (skipChar_moves h 75) fun _ d1 hd1 => ?_
  refine moves_then (demangleManglingNumber_moves hd1.inv
    (Nat.lt_of_le_of_lt hd1.room_le hfuel)) fun _ d2 hd2 => run_pure_moves hd2.inv

/-- There is no byte at the end. -/
theorem current_of_atEnd (hend : d.atEnd) : d.current = 0 := by
  rw [Demangler.atEnd_iff] at hend
  rw [Demangler.current, RtString.byte, List.getD_eq_getElem?_getD, List.getElem?_eq_none hend]
  rfl

/-- A byte that is not 0 is not read at the end. -/
theorem not_atEnd_of_current {ch : UInt8} (hch : d.current = ch) (hne : ch ≠ 0) : ¬ d.atEnd :=
  fun hend => hne (hch ▸ current_of_atEnd hend)

/-- A package after its two letters, or without them: none, a name, and the file of a private
    one. -/
theorem demanglePackageRest_moves (h : Inv d) (hfuel : d.room < fuel) (pkg : RtString) :
    Run (demanglePackageRest fuel pkg) d fun _ => Moves d := by
  refine run_get (run_ite (fun hzero => ?_) fun _ => ?_)
  · refine moves_then (steps_moves (advance_one h (not_atEnd_of_current hzero (by decide)))) ?_
    exact fun _ _ hd => run_pure_moves hd.inv
  · have hname : Run (if pkg.isEmpty then do return packageString (← demangleStringName)
        else return pkg : Dem RtString) d fun _ => Moves d := by
      refine run_ite (fun _ => ?_) fun _ => run_pure_moves h
      exact (demangleStringName_moves h).bind fun _ _ hd => run_pure hd.1
    refine moves_then hname fun pkg' d1 hd1 => run_get (run_ite (fun _ => ?_) fun _ => ?_)
    · refine moves_then (demangleFileName_moves hd1.inv
        (Nat.lt_of_le_of_lt hd1.room_le hfuel)) fun _ _ hd2 => run_pure_moves hd2.inv
    · exact run_pure_moves hd1.inv

/-- A package of any kind, or a `Reject`. -/
theorem demanglePackageName_moves (h : Inv d) (hfuel : d.room < fuel) :
    Run (demanglePackageName fuel) d fun _ => Moves d := by
  refine run_get (run_ite (fun hend => ?_) fun hend => run_ite (fun hstd => ?_) fun _ =>
    run_ite (fun hdigit => ?_) fun _ => demanglePackageRest_moves h hfuel [])
  · exact moves_then (reject_moves h) fun _ _ hd => run_pure_moves hd.inv
  · have hfits : d.currentIndex + 2 ≤ d.mangledName.length := by
      by_contra hshort
      exact hstd (by rw [if_neg hshort]; rfl)
    refine moves_then ((advance_steps h Nat.two_pos hfits).mono fun _ _ hd => hd.1.1)
      fun _ d1 hd1 => ?_
    exact demanglePackageRest_moves hd1.inv (Nat.lt_of_le_of_lt hd1.room_le hfuel) _
  · exact moves_then (reject_moves h) fun _ _ hd => run_pure_moves hd.inv

end Lexical

/-! ## Units -/

/-- What a unit does: inside the text it is a step, and at the end it is not valid. -/
def Forward (d d' : Demangler) : Prop :=
  Moves d d' ∧ (¬ d.atEnd → d.currentIndex < d'.currentIndex) ∧ (d.atEnd → d'.isValid = false)

section Units

variable {d : Demangler} {fuel depth : Nat} {next : Dem DemangleInfo}

/-- The recursive calls with less than `depth` bytes after the cursor are units. -/
def Recursive (depth : Nat) (next : Dem DemangleInfo) : Prop :=
  ∀ d, Inv d → d.room < depth → Run next d fun _ => Forward d

/-- A recursive call is a move. -/
theorem next_moves (hnext : Recursive depth next) (h : Inv d) (hroom : d.room < depth) :
    Run next d fun _ => Moves d :=
  (hnext d h hroom).mono fun _ _ hd => hd.1

/-- A valid unit is a step. -/
theorem Forward.lt {d' : Demangler} (h : Forward d d') (hvalid : d'.isValid = true) :
    d.currentIndex < d'.currentIndex := by
  by_cases hend : d.atEnd
  · rw [h.2.2 hend] at hvalid
    cases hvalid
  · exact h.2.1 hend

/-- The parameters of a function: every round of the loop reads a valid unit, and so gains a
    byte. -/
theorem demangleArgTypes_moves (hnext : Recursive depth next) (h : Inv d) (hroom : d.room < depth)
    (hfuel : d.room < fuel) (delimiter : RtString) :
    Run (demangleArgTypes fuel next delimiter) d fun _ => Moves d := by
  have hloop : Run (iterate (argTypesStep next delimiter) fuel (Batch.start, false)) d
      fun _ => Moves d := by
    refine run_loop h hfuel (fun v d1 hd1 => ?_) (Batch.start, false)
    refine run_get (run_ite (fun _ => run_pure ⟨Moves.refl hd1.inv, nofun⟩) fun _ => run_get ?_)
    have hrest : ∀ d2, Moves d1 d2 → Run (do
        if (← get).isMaybeDefaultFuncParamFunction then return .inr (some v)
        else
          let curDi ← next
          let d ← get
          if ¬ d.isValid then return .inr none
          else
            let name : Text := ⟨curDi.getFullName d.scopeResolution, true⟩
            if v.1.i % 16 = 0 ∧ v.1.i ≠ 0 then
              let b : Batch := ⟨v.1.i, flushSlots v.1.argsArr delimiter v.1.result, rtStringSlots⟩
              return .inl (b.push name, true)
            else return .inl (v.1.push name, v.2) : Dem (Batch × Bool ⊕ Option (Batch × Bool))) d2
        fun r d3 => Moves d1 d3 ∧ ∀ a', r = .inl a' → d1.currentIndex < d3.currentIndex := by
      intro d2 hd2
      refine run_get (run_ite (fun _ => run_pure ⟨hd2, nofun⟩) fun _ => ?_)
      refine (hnext d2 hd2.inv (by have := hd1.room_le; have := hd2.room_le; omega)).bind
        fun curDi d3 hd3 => run_get (run_ite (fun _ => run_pure ⟨hd2.trans hd3.1, nofun⟩)
          fun hvalid => ?_)
      have hlt := Nat.lt_of_le_of_lt hd2.le (hd3.lt (by simpa using hvalid))
      exact run_ite (fun _ => run_pure ⟨hd2.trans hd3.1, fun _ _ => hlt⟩)
        fun _ => run_pure ⟨hd2.trans hd3.1, fun _ _ => hlt⟩
    refine run_ite (fun _ => ?_) fun _ => hrest d1 (Moves.refl hd1.inv)
    exact (skipChar_moves hd1.inv 95).bind fun _ d2 hd2 => hrest d2 hd2
  refine run_get (run_ite (fun _ => ?_) fun _ => moves_then hloop fun r d1 hd1 => ?_)
  · exact moves_then (skipChar_moves h 118) fun _ _ hd => run_pure_moves hd.inv
  · cases r with
    | none => exact run_pure_moves hd1.inv
    | some v => exact run_ite (fun _ => run_pure_moves hd1.inv) fun _ => run_pure_moves hd1.inv

/-- The loops of `DemangleGenericTypes` and of `DemangleFunctionParameterTypes`. -/
theorem typesStep_moves (hnext : Recursive depth next) (h : Inv d) (hroom : d.room < depth)
    (delimiter : RtString) (v : RtString × Bool) (c : Demangler → Prop) [DecidablePred c] :
    Run (do
      let d ← get
      if c d then return .inr v.1
      else
        let curDi ← next
        let d ← get
        if ¬ d.isValid then return .inr v.1
        else
          let argTypesFullName := if v.2 then v.1 else v.1 ++ delimiter
          return .inl (argTypesFullName ++ curDi.getFullName d.scopeResolution, false) :
        Dem (RtString × Bool ⊕ RtString)) d
      fun r d' => Moves d d' ∧ ∀ a', r = .inl a' → d.currentIndex < d'.currentIndex := by
  refine run_get (run_ite (fun _ => run_pure ⟨Moves.refl h, nofun⟩) fun _ => ?_)
  refine (hnext d h hroom).bind fun curDi d1 hd1 => run_get (run_ite (fun _ => ?_) fun hvalid => ?_)
  · exact run_pure ⟨hd1.1, nofun⟩
  · exact run_pure ⟨hd1.1, fun _ _ => hd1.lt (by simpa using hvalid)⟩

/-- Generic arguments: the loop is that of `typesStep_moves`. -/
theorem demangleGenericTypes_moves (hnext : Recursive depth next) (h : Inv d)
    (hroom : d.room < depth) (hfuel : d.room < fuel) :
    Run (demangleGenericTypes fuel next) d fun _ => Moves d := by
  refine moves_then (run_loop h hfuel (fun v d1 hd1 => ?_) ([], true))
    fun _ _ hd => run_pure_moves hd.inv
  exact typesStep_moves hnext hd1.inv (Nat.lt_of_le_of_lt hd1.room_le hroom) (ascii ",") v _

/-- The parameters of a component: none, or the loop of `typesStep_moves`. -/
theorem demangleFunctionParameterTypes_moves (hnext : Recursive depth next) (h : Inv d)
    (hroom : d.room < depth) (hfuel : d.room < fuel) :
    Run (demangleFunctionParameterTypes fuel next) d fun _ => Moves d := by
  refine run_get (run_ite (fun hv => ?_) fun _ => ?_)
  · refine moves_then (steps_moves (advance_one h (not_atEnd_of_current hv.2 (by decide)))) ?_
    exact fun _ _ hd => run_pure_moves hd.inv
  · refine moves_then (run_loop h hfuel (fun v d1 hd1 => ?_) ([], true))
      fun _ _ hd => run_pure_moves hd.inv
    exact typesStep_moves hnext hd1.inv (Nat.lt_of_le_of_lt hd1.room_le hroom) (ascii ", ") v _

/-! ## Nested declarations -/

/-- An operator has two bytes before the end. -/
theorem operator_steps (h : Inv d) (hop : d.isOperatorName) : Run (advance 2) d fun _ => Steps d := by
  have hid : d.currentIndex + 2 < d.mangledName.length := by
    simp only [Demangler.isOperatorName, decide_eq_true_eq] at hop
    exact hop.1
  exact (advance_steps h Nat.two_pos (by omega)).mono fun _ _ hd => hd.1

/-- The name of a component gains a byte: an operator has two, and a length has a digit. -/
theorem nestedName_steps (h : Inv d) (hend : ¬ d.atEnd) : Run nestedName d fun _ => Steps d := by
  refine run_get (run_ite (fun hop => ?_) fun _ => ?_)
  · exact steps_then (operator_steps h hop) fun _ _ hd _ => run_pure_moves hd.inv
  · refine steps_then ((demangleStringName_moves h).mono fun _ _ hd => ⟨hd.1, hd.2 hend⟩)
      fun name d1 hd1 _ => run_get (moves_then ?_ fun _ _ hd => run_pure_moves hd.inv)
    refine run_ite (fun hprop => ?_) fun _ => run_pure_moves hd1.inv
    have hfits : d1.currentIndex + 1 < d1.mangledName.length := by
      by_contra hshort
      rw [Demangler.isProp, if_neg hshort] at hprop
      cases hprop
    have hread : Run demangleProp d1 fun _ => Moves d1 := by
      refine run_get (moves_then ((advance_steps hd1.inv Nat.two_pos (by omega)).mono
        fun _ _ hd => hd.1.1) fun _ _ hd => run_pure_moves hd.inv)
    exact moves_then hread fun _ _ hd => run_pure_moves hd.inv

/-- The generic suffix of a component, with the `E` behind it or without. -/
theorem nestedGeneric_moves (hnext : Recursive depth next) (h : Inv d) (hroom : d.room < depth)
    (hfuel : d.room < fuel) (isClass : Bool) (curDi : DemangleInfo) :
    Run (nestedGeneric fuel next isClass curDi) d fun _ => Moves d := by
  refine run_get (run_ite (fun _ => ?_) fun _ => run_pure_moves h)
  refine moves_then (skipChar_moves h 73) fun _ d1 hd1 => ?_
  have hle := hd1.room_le
  refine moves_then (demangleGenericTypes_moves hnext hd1.inv (by omega) (by omega))
    fun generic d2 hd2 => run_ite (fun _ => ?_) fun _ => run_pure_moves hd2.inv
  exact moves_then (skipOptionalChar_moves hd2.inv 69) fun _ _ hd => run_pure_moves hd.inv

/-- The parameter suffix of a component. -/
theorem nestedFunction_moves (hnext : Recursive depth next) (h : Inv d) (hroom : d.room < depth)
    (hfuel : d.room < fuel) (curDi : DemangleInfo) :
    Run (nestedFunction fuel next curDi) d fun _ => Moves d := by
  refine run_get (run_ite (fun _ => ?_) fun _ => run_pure_moves h)
  refine moves_then (skipChar_moves h 72) fun _ d1 hd1 => ?_
  have hle := hd1.room_le
  refine moves_then (demangleFunctionParameterTypes_moves hnext hd1.inv (by omega) (by omega))
    fun _ d2 hd2 => ?_
  exact moves_then (skipOptionalChar_moves hd2.inv 69) fun _ _ hd => run_pure_moves hd.inv

/-- The suffixes of an extension component: the file and the counter. -/
theorem extensionSuffix_moves {α : Type} (h : Inv d) (hfuel : d.room < fuel) (r : α) :
    Run (do
      if (← get).isFileName then demangleFileName fuel
      skipLocalCounter fuel
      return r : Dem α) d fun _ => Moves d := by
  have hrest : ∀ d1, Moves d d1 → Run (do
      skipLocalCounter fuel
      return r : Dem α) d1 fun _ => Moves d1 := by
    intro d1 hd1
    exact moves_then (skipLocalCounter_moves hd1.inv (Nat.lt_of_le_of_lt hd1.room_le hfuel))
      fun _ _ hd => run_pure_moves hd.inv
  refine run_get (run_ite (fun _ => ?_) fun _ => hrest d (Moves.refl h))
  exact moves_then (demangleFileName_moves h hfuel) fun _ d1 hd1 => hrest d1 hd1

/-- A round of the loop over a path gains a byte if there is another one after it. -/
theorem nestedStep_moves (hnext : Recursive depth next) (h : Inv d) (hroom : d.room ≤ depth)
    (hfuel : d.room < fuel) (isClass isParamInit : Bool) (v : Nested) :
    Run (nestedStep fuel next isClass isParamInit v) d fun r d' => Moves d d' ∧
      ∀ v', r = .inl v' → d.currentIndex < d'.currentIndex := by
  have hstep : ∀ {m : Dem (Nested ⊕ Except DemangleInfo Nested)}, Run m d (fun _ => Steps d) →
      Run m d fun r d' => Moves d d' ∧ ∀ v', r = .inl v' → d.currentIndex < d'.currentIndex :=
    fun hm => hm.mono fun _ _ hd => ⟨hd.1, fun _ _ => hd.2⟩
  refine run_get (run_ite (fun _ => run_pure ⟨Moves.refl h, nofun⟩) fun hmore => ?_)
  have hend : ¬ d.atEnd := by
    intro hend
    simp [Demangler.isNotEndOfMangledName, hend] at hmore
  refine hstep (run_ite (fun _ => ?_) fun _ => run_ite (fun _ => ?_) fun _ => ?_)
  · refine steps_then (advance_one h hend) fun _ d1 hd1 hlt => ?_
    exact moves_then (demangleManglingNumber_moves hd1.inv (by omega))
      fun _ _ hd => run_pure_moves hd.inv
  · refine steps_then (advance_one h hend) fun _ d1 hd1 hlt => run_get ?_
    refine run_ite (fun _ => ?_) fun _ => ?_
    · exact moves_then (reject_moves hd1.inv) fun _ _ hd => run_pure_moves hd.inv
    · refine moves_then (next_moves hnext hd1.inv (by omega)) fun curDi d2 hd2 => ?_
      have hle := hd2.room_le
      exact extensionSuffix_moves hd2.inv (by omega) _
  · refine steps_then (nestedName_steps h hend) fun curDi d1 hd1 hlt => run_get ?_
    refine run_ite (fun _ => run_pure_moves hd1.inv) fun _ => ?_
    refine moves_then (skipLocalCounter_moves hd1.inv (by omega)) fun _ d2 hd2 => run_get ?_
    have hle2 := hd2.room_le
    refine run_ite (fun _ => ?_) fun _ => ?_
    · exact moves_then (reject_moves hd2.inv) fun _ _ hd => run_pure_moves hd.inv
    · refine moves_then (nestedGeneric_moves hnext hd2.inv (by omega) (by omega) isClass curDi)
        fun curDi d3 hd3 => ?_
      have hle3 := hd3.room_le
      refine moves_then (nestedFunction_moves hnext hd3.inv (by omega) (by omega) curDi)
        fun curDi d4 hd4 => ?_
      exact run_get (run_ite (fun _ => run_pure_moves hd4.inv) fun _ => run_pure_moves hd4.inv)

/-- A path ends: the loop needs no more rounds than there are bytes. -/
theorem demangleNestedDecls_moves (hnext : Recursive depth next) (h : Inv d)
    (hroom : d.room ≤ depth) (hfuel : d.room < fuel) (isClass isParamInit : Bool) :
    Run (demangleNestedDecls fuel next isClass isParamInit) d fun _ => Moves d := by
  refine moves_then (run_loop h hfuel (fun v d1 hd1 => ?_)
      (⟨Batch.start, .commonDecl, {}⟩ : Nested))
    fun r d2 hd2 => ?_
  · have hle := hd1.room_le
    exact nestedStep_moves hnext hd1.inv (by omega) (by omega) isClass isParamInit v
  · cases r with
    | error info => exact run_pure_moves hd2.inv
    | ok v => exact run_get (run_pure_moves hd2.inv)

/-! ## Units by their prefix -/

/-- A package and a path. -/
theorem nestedDecl_moves (hnext : Recursive depth next) (h : Inv d) (hroom : d.room ≤ depth)
    (hfuel : d.room < fuel) (isClass isParamInit : Bool) :
    Run (nestedDecl fuel next isClass isParamInit) d fun _ => Moves d := by
  refine moves_then (demanglePackageName_moves h hfuel) fun pkgDi d1 hd1 => ?_
  have hle := hd1.room_le
  refine moves_then (demangleNestedDecls_moves hnext hd1.inv (by omega) (by omega) isClass
    isParamInit) fun nestedDi d2 hd2 => run_get ?_
  exact run_ite (fun _ => reject_moves hd2.inv) fun _ => run_pure_moves hd2.inv

/-- A declaration behind its `N`, or a global variable behind its `GV`. -/
theorem demangleCommonDecl_moves (hnext : Recursive depth next) (h : Inv d)
    (hroom : d.room ≤ depth) (hfuel : d.room < fuel) (isClass : Bool) :
    Run (demangleCommonDecl fuel next isClass) d fun _ => Moves d := by
  have hrest : ∀ d1, Moves d d1 → Run (do
      if ¬ (← get).isValid then reject
      else
        let di ← nestedDecl fuel next isClass false
        if d.current ≠ 78 ∧ (← get).isValid then return { di with type := .commonDecl }
        else return di : Dem DemangleInfo) d1 fun _ => Moves d1 := by
    intro d1 hd1
    have hle := hd1.room_le
    refine run_get (run_ite (fun _ => reject_moves hd1.inv) fun _ => ?_)
    refine moves_then (nestedDecl_moves hnext hd1.inv (by omega) (by omega) isClass false)
      fun di d2 hd2 => run_get ?_
    exact run_ite (fun _ => run_pure_moves hd2.inv) fun _ => run_pure_moves hd2.inv
  refine run_get (run_ite (fun _ => ?_) fun _ => ?_)
  · exact moves_then (skipString_moves h (ascii "GV")) fun _ d1 hd1 => hrest d1 hd1
  · exact moves_then (skipString_moves h (ascii "N")) fun _ d1 hd1 => hrest d1 hd1

/-- A class, a struct or an enum gains its letter. -/
theorem demangleClass_steps (hnext : Recursive depth next) (h : Inv d) (hend : ¬ d.atEnd)
    (hroom : d.room ≤ depth) (hfuel : d.room < fuel) (typeKind : DemanglerTypeKind) :
    Run (demangleClass fuel next typeKind) d fun _ => Steps d := by
  refine steps_then (advance_one h hend) fun _ d1 hd1 hlt => ?_
  refine moves_then (demangleCommonDecl_moves hnext hd1.inv (by omega) (by omega) true)
    fun di d2 hd2 => run_get (run_ite (fun _ => ?_) fun _ => run_pure_moves hd2.inv)
  exact moves_then (skipChar_moves hd2.inv 69) fun _ _ hd => run_pure_moves hd.inv

/-- A function type gains its first letter, also if its second is wrong. -/
theorem demangleFunctionType_steps (hnext : Recursive depth next) (h : Inv d) (hend : ¬ d.atEnd)
    (hroom : d.room ≤ depth) (hfuel : d.room < fuel) (ch : UInt8) (pattern : RtString) :
    Run (demangleFunctionType fuel next (ch :: pattern)) d fun _ => Steps d := by
  refine steps_then (skipString_steps h hend ch pattern) fun _ d1 hd1 hlt => ?_
  refine moves_then (next_moves hnext hd1.inv (by omega)) fun di d2 hd2 => run_get ?_
  have hle := hd2.room_le
  refine moves_then (demangleArgTypes_moves hnext hd2.inv (by omega) (by omega) (ascii ", "))
    fun args d3 hd3 => ?_
  exact moves_then (skipChar_moves hd3.inv 69) fun _ _ hd => run_pure_moves hd.inv

/-- A tuple gains its `T`. -/
theorem demangleTuple_steps (hnext : Recursive depth next) (h : Inv d) (hend : ¬ d.atEnd)
    (hroom : d.room ≤ depth) (hfuel : d.room < fuel) :
    Run (demangleTuple fuel next) d fun _ => Steps d := by
  refine steps_then (skipChar_steps h hend 84) fun _ d1 hd1 hlt => ?_
  refine moves_then (demangleManglingNumber_moves hd1.inv (by omega)) fun _ d2 hd2 => ?_
  have hle := hd2.room_le
  refine moves_then (demangleGenericTypes_moves hnext hd2.inv (by omega) (by omega))
    fun _ d3 hd3 => run_get ?_
  exact moves_then (skipChar_moves hd3.inv 69) fun _ _ hd => run_pure_moves hd.inv

/-- An array gains its `A`. -/
theorem demangleRawArray_steps (hnext : Recursive depth next) (h : Inv d) (hend : ¬ d.atEnd)
    (hroom : d.room ≤ depth) (hfuel : d.room < fuel) :
    Run (demangleRawArray fuel next) d fun _ => Steps d := by
  refine steps_then (skipChar_steps h hend 65) fun _ d1 hd1 hlt => ?_
  refine moves_then (demangleManglingNumber_moves hd1.inv (by omega)) fun _ d2 hd2 => ?_
  have hle := hd2.room_le
  exact moves_then (next_moves hnext hd2.inv (by omega)) fun _ d3 hd3 =>
    run_get (run_pure_moves hd3.inv)

/-- A VArray gains its `V`; its element is read as a list. -/
theorem demangleVArray_steps (hnext : Recursive depth next) (h : Inv d) (hend : ¬ d.atEnd)
    (hroom : d.room ≤ depth) (hfuel : d.room < fuel) :
    Run (demangleVArray fuel next) d fun _ => Steps d := by
  refine steps_then (skipChar_steps h hend 86) fun _ d1 hd1 hlt => ?_
  refine moves_then (demangleManglingNumber_moves hd1.inv (by omega)) fun _ d2 hd2 => ?_
  have hle := hd2.room_le
  exact moves_then (demangleGenericTypes_moves hnext hd2.inv (by omega) (by omega))
    fun _ d3 hd3 => run_get (run_pure_moves hd3.inv)

/-- The type behind a pointer, if one is there. -/
theorem demangleType_moves (hnext : Recursive depth next) (h : Inv d) (hroom : d.room < depth) :
    Run (demangleType next) d fun _ => Moves d := by
  have hclear : ∀ d1, Moves d d1 → Run (do
      setValid false
      return { type := .genericTypes } : Dem DemangleInfo) d1 fun _ => Moves d1 := by
    intro d1 hd1
    exact moves_then ((setValid_false hd1.inv).mono fun _ _ hd => hd.1)
      fun _ _ hd => run_pure_moves hd.inv
  refine run_get (run_ite (fun _ => ?_) fun _ => hclear d (Moves.refl h))
  refine moves_then (next_moves hnext h hroom) fun curDi d1 hd1 => run_get ?_
  exact run_ite (fun _ => run_pure_moves hd1.inv) fun _ => hclear d1 hd1

/-- A pointer gains its `P`. -/
theorem demangleCPointer_steps (hnext : Recursive depth next) (h : Inv d) (hend : ¬ d.atEnd)
    (hroom : d.room ≤ depth) : Run (demangleCPointer next) d fun _ => Steps d := by
  refine steps_then (skipChar_steps h hend 80) fun _ d1 hd1 hlt => ?_
  exact moves_then (demangleType_moves hnext hd1.inv (by omega)) fun _ _ hd =>
    run_get (run_pure_moves hd.inv)

/-- A primitive type gains its letter, and `Dh` two. -/
theorem demanglePrimitive_steps (h : Inv d) (hend : ¬ d.atEnd) :
    Run demanglePrimitive d fun _ => Steps d := by
  refine run_get (run_ite (fun hend' => absurd hend' hend) fun _ => run_ite (fun _ => ?_) fun _ => ?_)
  · exact steps_then (skipString_steps h hend 68 [104]) fun _ _ hd _ => run_pure_moves hd.inv
  · exact steps_then (skipChar_steps h hend d.current) fun _ _ hd _ => run_pure_moves hd.inv

/-- A string of C gains its `k`. -/
theorem demangleCStringType_steps (h : Inv d) (hend : ¬ d.atEnd) :
    Run demangleCStringType d fun _ => Steps d :=
  steps_then (skipChar_steps h hend 107) fun _ _ hd _ => run_get (run_pure_moves hd.inv)

/-- A type parameter gains its `G`. -/
theorem demangleGenericType_steps (h : Inv d) (hend : ¬ d.atEnd) (hfuel : d.room < fuel) :
    Run (demangleGenericType fuel) d fun _ => Steps d := by
  refine steps_then (skipChar_steps h hend 71) fun _ d1 hd1 hlt => ?_
  exact moves_then (demangleManglingNumber_moves hd1.inv (by omega)) fun _ _ hd =>
    run_get (run_pure_moves hd.inv)

/-- Inside the text every unit is a step. -/
theorem demangleByPrefix_steps (hnext : Recursive depth next) (h : Inv d) (hend : ¬ d.atEnd)
    (hroom : d.room ≤ depth) (hfuel : d.room < fuel) :
    Run (demangleByPrefix fuel next) d fun _ => Steps d := by
  refine run_get (run_ite (fun hend' => absurd hend' hend) fun _ => ?_)
  split
  · exact demangleClass_steps hnext h hend hroom hfuel .classType
  · exact demangleClass_steps hnext h hend hroom hfuel .struct
  · refine run_ite (fun _ => ?_) fun _ => run_ite (fun _ => ?_) fun _ => reject_steps h hend
    · exact demangleFunctionType_steps hnext h hend hroom hfuel 70 [48]
    · exact demangleFunctionType_steps hnext h hend hroom hfuel 70 [67]
  · exact demangleClass_steps hnext h hend hroom hfuel .enum
  · exact demangleTuple_steps hnext h hend hroom hfuel
  · exact demangleCPointer_steps hnext h hend hroom
  · exact reject_steps h hend
  · exact demangleRawArray_steps hnext h hend hroom hfuel
  · exact demangleVArray_steps hnext h hend hroom hfuel
  · exact demangleCStringType_steps h hend
  · exact demangleGenericType_steps h hend hfuel
  · refine run_ite (fun _ => ?_) fun _ => run_ite (fun _ => ?_) fun _ => run_ite (fun hop => ?_)
      fun _ => reject_steps h hend
    · exact steps_then ((demangleStringName_moves h).mono fun _ _ hd => ⟨hd.1, hd.2 hend⟩)
        fun _ _ hd _ => run_get (run_pure_moves hd.inv)
    · exact demanglePrimitive_steps h hend
    · exact steps_then (operator_steps h hop) fun _ _ hd _ => run_pure_moves hd.inv

/-- The end of a unit notes the unit. -/
theorem finishUnit_forward {d' : Demangler} (h : Forward d d') (di : DemangleInfo) :
    Run (finishUnit d.currentIndex di) d' fun _ => Forward d := by
  have hnote : ∀ {d2 : Demangler} (di : DemangleInfo), Forward d d2 → Run (do
      modify fun d' => { d' with trace := .unit d.currentIndex d'.currentIndex d'.isValid :: d'.trace }
      return di : Dem DemangleInfo) d2 fun _ => Forward d := by
    intro d2 di hd2
    refine (run_modify ?_).bind fun _ _ hd => run_pure hd
    obtain ⟨hmoves, hstep, hstop⟩ := hd2
    refine ⟨⟨⟨hmoves.inv.le_size, ?_, ?_, ?_, ?_⟩, hmoves.text, hmoves.scope, hmoves.le⟩, hstep,
      hstop⟩
    · intro e he
      rcases List.mem_cons.mp he with rfl | he
      · exact Forward.lt ⟨hmoves, hstep, hstop⟩
      · exact hmoves.inv.fine e he
    · refine List.pairwise_cons.mpr ⟨fun e he => ?_, hmoves.inv.ordered⟩
      cases e <;> exact trivial
    · intro e he
      rcases List.mem_cons.mp he with rfl | he
      · exact trivial
      · exact hmoves.inv.now e he
    · intro he
      rcases List.mem_cons.mp he with he | he
      · cases he
      · exact hmoves.inv.dead he
  refine run_get ?_
  refine Run.bind (P := fun _ => Forward d) (run_ite (fun hinvalid => ?_) fun _ => run_pure h)
    fun di d2 hd2 => hnote di hd2
  refine (reject_dead h.1.inv).mono fun _ d2 hd2 => ⟨h.1.trans hd2.1, fun hend => ?_, fun _ => hd2.2.1⟩
  exact Nat.lt_of_lt_of_le (h.2.1 hend) hd2.1.le

end Units

/-- **The recursive calls end**, and each of them is a unit.  By induction on the fuel: what the
    units ask of the calls inside them is what they are for the unit around them. -/
theorem demangleNextUnit_recursive : ∀ fuel, Recursive fuel (demangleNextUnit fuel) := by
  intro fuel
  induction fuel with
  | zero =>
    intro d h hroom
    exact absurd hroom (Nat.not_lt_zero _)
  | succ fuel ih =>
    intro d h hroom
    refine run_get (Run.bind (P := fun _ => Forward d) ?_ fun di d' hd => finishUnit_forward hd di)
    by_cases hend : d.atEnd
    · refine run_get (run_ite (fun _ => ?_) fun hend' => absurd hend hend')
      exact (reject_dead h).mono fun _ d' hd =>
        ⟨hd.1, fun hend' => absurd hend hend', fun _ => hd.2.1⟩
    · refine (demangleByPrefix_steps ih h hend (by omega) hroom).mono fun _ d' hd => ?_
      exact ⟨hd.1, fun _ => hd.2, fun hend' => absurd hend' hend⟩

end CangjieRuntime.Demangle
