/-
  Counting, bounded and unbounded decoding agree.

  A decoder looks at the event buffer only to write an event, and what it emits does not depend on
  the buffer.  So each of its functions is an `Emission`: there is a list of events, and an outcome
  after the last of them, such that with any buffer the function writes these events one by one, up
  to the first that has no room (`replay`).  This is closed under the sequencing of functions
  (`emission_bind`), and holds of the whole decoder (`decodeBody_emission`); what the three modes
  have in common is then a property of `replay` alone.

  The outcome of an emission is an error in the data or none (`IsError`), since every read of a byte
  is inside the data (`readBits_code`).  So a run ends with one of the codes of the decoder, and
  never with a fault (`stackMapDecode_noFault`).
-/
import CangjieRuntime.Stackmap.VarInt
import CangjieRuntime.Stackmap.Decode

set_option linter.unusedVariables false

namespace CangjieRuntime.Stackmap

/-! ## Emissions -/

/-- What an outcome looks like to the caller: the roots of a failed decoder are not looked at. -/
def view : Except Stop Emitted → Except (Nat × Nat × Events) (Events × Nat × Nat)
  | .ok s => .ok (s.events, s.eventIndex, s.roots)
  | .error (result, events) => .error (result.code, result.nextEvent, events)

/-- The events are written one by one; the outcome is an error code, or the number of roots. -/
def replay (capacity : Nat) :
    List StackMapEvent → Events → Nat → Except Nat Nat →
      Except (Nat × Nat × Events) (Events × Nat × Nat)
  | [], events, eventIndex, .ok roots => .ok (events, eventIndex, roots)
  | [], events, eventIndex, .error code => .error (code, eventIndex, events)
  | event :: rest, events, eventIndex, outcome =>
    let (emitted, events) := emitEvent events capacity eventIndex event
    if emitted.code ≠ STACKMAP_OK then .error (emitted.code, emitted.nextEvent, events)
    else replay capacity rest events emitted.nextEvent outcome

/-- The code of an error in the data.  These two and no others are what reading ends in, whatever
    the mode: want of room belongs to the writer of events. -/
def IsError (code : Nat) : Prop := code = STACKMAP_TRUNCATED ∨ code = STACKMAP_MALFORMED

/-- An error in the data is no success. -/
theorem IsError.ne_ok {code : Nat} (h : IsError code) : code ≠ STACKMAP_OK := by
  rcases h with rfl | rfl
  · decide
  · decide

/-- An error in the data is a code that the decoder returns, and no read outside of the data. -/
theorem IsError.ne_fault {code : Nat} (h : IsError code) : code ≠ FAULT := by
  rcases h with rfl | rfl
  · decide
  · decide

/-- An error in the data is not the want of room, which depends on the buffer. -/
theorem IsError.ne_noSpace {code : Nat} (h : IsError code) : code ≠ STACKMAP_NO_SPACE := by
  rcases h with rfl | rfl
  · decide
  · decide

/-- An error is one in the data.  So a computation that fails does so because of the bytes, and the
    modes of the decoder fail alike. -/
def Sane {α : Type} (a : Except Nat α) : Prop := ∀ code, a = .error code → IsError code

/-- The events and the outcome are the same for all buffers. -/
def Emission (g : Nat → Events → Nat → Except Stop Emitted) : Prop :=
  ∃ emitted outcome, Sane outcome ∧ ∀ capacity events start,
    view (g capacity events start) = replay capacity emitted events start outcome

section Rules

variable {g g' : Nat → Events → Nat → Except Stop Emitted} {roots : Nat}

/-- What has the same result for every buffer as an emission is one. -/
theorem Emission.congr (h : Emission g) (heq : ∀ capacity events start,
    g' capacity events start = g capacity events start) : Emission g' := by
  obtain ⟨emitted, outcome, hsane, hview⟩ := h
  exact ⟨emitted, outcome, hsane, fun capacity events start => by rw [heq, hview]⟩

/-- To go on without an event is an emission: no events, and the roots so far. -/
theorem emission_ok (roots : Nat) : Emission fun _ events start => .ok ⟨events, start, roots⟩ :=
  ⟨[], .ok roots, nofun, fun _ _ _ => rfl⟩

/-- To stop with an error in the data is an emission: no events, and the code. -/
theorem emission_error {code : Nat} (hcode : IsError code) (roots : Nat) :
    Emission fun _ events start => .error (⟨code, start, roots⟩, events) :=
  ⟨[], .error code, fun _ h => by cases h; exact hcode, fun _ _ _ => rfl⟩

/-- An event is written, or it has no room; there is no third code. -/
theorem emitEvent_code (events : Events) (capacity index : Nat) (event : StackMapEvent) :
    (emitEvent events capacity index event).1.code = STACKMAP_OK ∨
      (emitEvent events capacity index event).1.code = STACKMAP_NO_SPACE := by
  unfold emitEvent
  split
  · exact Or.inl rfl
  · split
    · exact Or.inr rfl
    · exact Or.inl rfl

/-- To write one event is an emission of this event. -/
theorem emission_emitOne (event : StackMapEvent) (roots : Nat) :
    Emission fun capacity events start => emitOne capacity ⟨events, start, roots⟩ event := by
  refine ⟨[event], .ok roots, nofun, fun capacity events start => ?_⟩
  simp only [emitOne, replay]
  split
  · rfl
  · rfl

/-- A choice that does not look at the buffer is an emission if both branches are. -/
theorem emission_ite {c : Prop} [Decidable c] (ht : c → Emission g) (hf : ¬ c → Emission g') :
    Emission fun capacity events start =>
      if c then g capacity events start else g' capacity events start := by
  by_cases hc : c
  · exact (ht hc).congr fun _ _ _ => if_pos hc
  · exact (hf hc).congr fun _ _ _ => if_neg hc

/-- The caller sees of two steps what it sees of the first, and then of the second. -/
theorem view_bind (x : Except Stop Emitted) (f : Emitted → Except Stop Emitted) :
    view (x >>= f) = (view x >>= fun v => view (f ⟨v.1, v.2.1, v.2.2⟩)) := by
  cases x with
  | error stop => rfl
  | ok s => rfl

/-- A list of events is replayed in two parts: the second goes on where the first one stopped. -/
theorem replay_append (capacity : Nat) (emitted emitted' : List StackMapEvent) (events : Events)
    (start roots : Nat) (outcome : Except Nat Nat) :
    replay capacity (emitted ++ emitted') events start outcome =
      (replay capacity emitted events start (.ok roots) >>= fun v =>
        replay capacity emitted' v.1 v.2.1 outcome) := by
  induction emitted generalizing events start with
  | nil => rfl
  | cons event emitted ih =>
    simp only [List.cons_append, replay]
    split
    · rfl
    · exact ih _ _

/-- Nothing follows on a replay that ends with an error. -/
theorem replay_error_bind {β : Type} (capacity : Nat) (emitted : List StackMapEvent)
    (events : Events) (start code : Nat)
    (f : Events × Nat × Nat → Except (Nat × Nat × Events) (Events × Nat × Nat)) :
    (replay capacity emitted events start (.error code) >>= f) =
      replay capacity emitted events start (.error code) := by
  induction emitted generalizing events start with
  | nil => rfl
  | cons event emitted ih =>
    simp only [replay]
    split
    · rfl
    · exact ih _ _

/-- A replay that ends well returns the number of roots it was given. -/
theorem replay_ok_roots {capacity : Nat} {emitted : List StackMapEvent} {events : Events}
    {start : Nat} {v : Events × Nat × Nat}
    (h : replay capacity emitted events start (.ok roots) = .ok v) : v.2.2 = roots := by
  induction emitted generalizing events start with
  | nil =>
    cases h
    rfl
  | cons event emitted ih =>
    simp only [replay] at h
    split at h
    · cases h
    · exact ih h

/-- Emissions one after the other; the second may depend on the roots of the first. -/
theorem emission_bind {f : Nat → Emitted → Except Stop Emitted} (hg : Emission g)
    (hf : ∀ roots, Emission fun capacity events start => f capacity ⟨events, start, roots⟩) :
    Emission fun capacity events start => g capacity events start >>= f capacity := by
  obtain ⟨emitted, outcome, hsane, hview⟩ := hg
  cases outcome with
  | error code =>
    refine ⟨emitted, .error code, hsane, fun capacity events start => ?_⟩
    rw [view_bind, hview, @replay_error_bind Unit]
  | ok roots =>
    obtain ⟨emitted', outcome, hsane', hview'⟩ := hf roots
    refine ⟨emitted ++ emitted', outcome, hsane', fun capacity events start => ?_⟩
    rw [view_bind, hview, replay_append capacity emitted emitted' events start roots outcome]
    cases hfirst : replay capacity emitted events start (.ok roots) with
    | error stop => rfl
    | ok v =>
      obtain ⟨events', start', roots'⟩ := v
      obtain rfl : roots' = roots := replay_ok_roots hfirst
      exact hview' capacity events' start'

/-- A reading in a decoder. -/
theorem emission_read {α : Type} {a : Except Nat α} (ha : Sane a)
    {f : α → Nat → Events → Nat → Except Stop Emitted} (hf : ∀ x, Emission (f x)) :
    Emission fun capacity events start =>
      (Emitted.read ⟨events, start, roots⟩ a >>= fun x => f x capacity events start) := by
  cases a with
  | error code => exact (emission_error (ha code rfl) roots).congr fun _ _ _ => rfl
  | ok x => exact (hf x).congr fun _ _ _ => rfl

/-- A replay never fails with the code of success: it fails for want of room or with the code of its
    outcome. -/
theorem replay_error_ne {capacity : Nat} {emitted : List StackMapEvent} {events events' : Events}
    {start code index : Nat} {outcome : Except Nat Nat} (hsane : Sane outcome)
    (h : replay capacity emitted events start outcome = .error (code, index, events')) :
    code ≠ STACKMAP_OK := by
  induction emitted generalizing events start with
  | nil =>
    cases outcome with
    | error code' =>
      cases h
      exact (hsane _ rfl).ne_ok
    | ok roots => cases h
  | cons event emitted ih =>
    simp only [replay] at h
    split at h
    case isTrue hcode =>
      cases h
      exact hcode
    case isFalse => exact ih h

/-- A decoder of roots that is a loop, as its caller sees it. -/
theorem emission_call (hg : Emission g) :
    Emission fun capacity events start => call (finish (g capacity events start)) := by
  obtain ⟨emitted, outcome, hsane, hview⟩ := hg
  refine ⟨emitted, outcome, hsane, fun capacity events start => ?_⟩
  have hview' := hview capacity events start
  rw [← hview']
  show view (call (finish (g capacity events start))) = view (g capacity events start)
  cases hrun : g capacity events start with
  | ok s => rfl
  | error stop =>
    obtain ⟨result, events'⟩ := stop
    rw [hrun] at hview'
    have hcode := replay_error_ne hsane hview'.symm
    show view (call (result, events')) = view (.error (result, events'))
    rw [call, if_pos hcode]

/-- The call of a decoder that has nothing to decode. -/
theorem emission_call_ok : Emission fun _ events start => call (⟨STACKMAP_OK, start, 0⟩, events) :=
  (emission_ok 0).congr fun _ _ _ => rfl

/-- The call of a decoder that finds an error in the data before its first event. -/
theorem emission_call_error {code : Nat} (hcode : IsError code) :
    Emission fun _ events start => call (⟨code, start, 0⟩, events) :=
  (emission_error hcode 0).congr fun _ _ _ => if_pos hcode.ne_ok

end Rules

/-! ## Readings -/

section Readings

variable {α β : Type}

/-- A result is no error. -/
theorem sane_ok (a : α) : Sane (.ok a) := nofun

/-- An error in the data, as an outcome. -/
theorem sane_error {code : Nat} (h : IsError code) : Sane (.error code : Except Nat α) := by
  intro code' heq
  cases heq
  exact h

/-- Two steps that fail only with errors in the data fail only with these. -/
theorem Sane.bind {a : Except Nat α} {f : α → Except Nat β} (ha : Sane a) (hf : ∀ x, Sane (f x)) :
    Sane (a >>= f) := by
  cases a with
  | error code => exact sane_error (ha code rfl)
  | ok x => exact hf x

/-- A choice between two such steps is one. -/
theorem sane_ite {c : Prop} [Decidable c] {a b : Except Nat α} (ha : Sane a) (hb : Sane b) :
    Sane (if c then a else b) := by
  split
  · exact ha
  · exact hb

/-- The code of data that has the wrong form. -/
theorem isError_malformed : IsError STACKMAP_MALFORMED := Or.inr rfl

/-- The code of data that ends too early. -/
theorem isError_truncated : IsError STACKMAP_TRUNCATED := Or.inl rfl

/-- A check of the data that fails. -/
theorem sane_malformed : Sane (.error STACKMAP_MALFORMED : Except Nat α) :=
  sane_error isError_malformed

/-- A reading is no emission: it ends well or with an error in the data. -/
theorem sane_check {r : WordResult} (h : r.code = STACKMAP_OK ∨ IsError r.code) : Sane r.check := by
  rw [WordResult.check]
  split
  case isTrue hcode => exact sane_error (h.resolve_left hcode)
  case isFalse hcode => exact sane_ok r

variable (data : Nat → UInt8) (size : Nat)

/-- Every byte that is read is there. -/
theorem readBits_code (bit bitLen : Nat) : (readBits data size bit bitLen).code = STACKMAP_OK ∨
    IsError (readBits data size bit bitLen).code := by
  rw [readBits_eq]
  split
  · exact Or.inr isError_malformed
  · split
    · exact Or.inr isError_truncated
    · exact Or.inl rfl

/-- No read of bits touches a byte behind the data: the guards of `readBits` come before its
    loop. -/
theorem readBits_noFault (bit bitLen : Nat) : (readBits data size bit bitLen).code ≠ FAULT := by
  rcases readBits_code data size bit bitLen with hok | herror
  · rw [hok]
    decide
  · exact herror.ne_fault

/-- A variable-length number is read, or there is an error in the data. -/
theorem readVarInt_code (bit : Nat) : (readVarInt data size bit).code = STACKMAP_OK ∨
    IsError (readVarInt data size bit).code := by
  rw [readVarInt]
  split
  · exact readBits_code data size bit 4
  · split
    · exact readBits_code data size bit 4
    · exact readBits_code data size _ _

/-- The end of a table is inside the data, or there is an error in the data. -/
theorem checkedEnd_code (start rows rowBits : Nat) :
    (checkedEnd start rows rowBits size).code = STACKMAP_OK ∨
      IsError (checkedEnd start rows rowBits size).code := by
  rw [checkedEnd]
  split
  · exact Or.inr isError_malformed
  · dsimp only
    split
    · exact Or.inr isError_truncated
    · exact Or.inl rfl

/-- A row is read, or there is an error in the data: an index without a row, or a row behind the
    end. -/
theorem readTableRow_code (tableData recordCount rowBits oneBasedIndex : Nat) :
    (readTableRow data size tableData recordCount rowBits oneBasedIndex).code = STACKMAP_OK ∨
      IsError (readTableRow data size tableData recordCount rowBits oneBasedIndex).code := by
  rw [readTableRow]
  split
  · exact Or.inl rfl
  · split
    · exact Or.inr isError_malformed
    · exact readBits_code data size _ _

/-- The check after a read of bits. -/
theorem sane_readBits (bit bitLen : Nat) : Sane (readBits data size bit bitLen).check :=
  sane_check (readBits_code data size bit bitLen)

/-- The check after a read of a number. -/
theorem sane_readVarInt (bit : Nat) : Sane (readVarInt data size bit).check :=
  sane_check (readVarInt_code data size bit)

/-- The check after the end of a table was computed. -/
theorem sane_checkedEnd (start rows rowBits : Nat) :
    Sane (checkedEnd start rows rowBits size).check :=
  sane_check (checkedEnd_code size start rows rowBits)

/-- The head of the layout fails only with errors in the data. -/
theorem sane_parseRows (bitStart : Nat) (stackGrow : Bool) :
    Sane (parseRows data size bitStart stackGrow) := by
  refine (sane_readVarInt data size _).bind fun smRecords => sane_ite (sane_ok _) ?_
  refine (sane_readVarInt data size _).bind fun regIndexBits => ?_
  refine (sane_readVarInt data size _).bind fun slotIndexBits => ?_
  refine (sane_readVarInt data size _).bind fun lineIndexBits => ?_
  refine (sane_readVarInt data size _).bind fun derivedIndexBits => ?_
  refine Sane.bind (sane_ite ?_ (sane_ok _)) fun stackBits => ?_
  · refine (sane_readVarInt data size _).bind fun stackReg => ?_
    exact (sane_readVarInt data size _).bind fun stackSlot => sane_ok _
  · refine (sane_readVarInt data size _).bind fun padding => ?_
    refine sane_ite sane_malformed (sane_ite sane_malformed (sane_ite sane_malformed ?_))
    exact (sane_checkedEnd size _ _ _).bind fun smEnd => sane_ok _

/-- So does a table with its count and its row size. -/
theorem sane_parseTable (cursor : Nat) : Sane (parseTable data size cursor) := by
  refine (sane_readVarInt data size _).bind fun records => ?_
  refine (sane_readVarInt data size _).bind fun bits => sane_ite sane_malformed ?_
  exact (sane_checkedEnd size _ _ _).bind fun tableEnd => sane_ok _

/-- So does the table of slots, whose rows have a base and a bitmap. -/
theorem sane_parseSlots (cursor : Nat) : Sane (parseSlots data size cursor) := by
  refine (sane_readVarInt data size _).bind fun slotRecords => ?_
  refine (sane_readVarInt data size _).bind fun slotBaseBits => ?_
  refine (sane_readVarInt data size _).bind fun slotBitmapBits => ?_
  refine sane_ite sane_malformed (sane_ite sane_malformed ?_)
  exact (sane_checkedEnd size _ _ _).bind fun slotEnd => sane_ok _

/-- So does the layout as a whole, its tables one after the other. -/
theorem sane_parseLayout (bitStart : Nat) (stackGrow : Bool) :
    Sane (parseLayout data size bitStart stackGrow) := by
  refine (sane_parseRows data size bitStart stackGrow).bind fun rows => sane_ite (sane_ok _) ?_
  refine (sane_parseTable data size _).bind fun regs => ?_
  refine (sane_parseSlots data size _).bind fun slots => ?_
  refine (sane_parseTable data size _).bind fun lines => ?_
  refine (sane_readVarInt data size _).bind fun derivedRecords => sane_ite sane_malformed ?_
  exact (sane_checkedEnd size _ _ _).bind fun derivedEnd => sane_ok _

/-- So do the indices of a row, which are read one after the other. -/
theorem sane_readIndexSet (layout : Layout) (row : Nat) :
    Sane (readIndexSet data size layout row) := by
  refine (sane_readBits data size _ _).bind fun pc => ?_
  refine (sane_readBits data size _ _).bind fun reg => ?_
  refine (sane_readBits data size _ _).bind fun slot => ?_
  refine (sane_readBits data size _ _).bind fun line => ?_
  refine (sane_readBits data size _ _).bind fun derived => ?_
  refine (sane_readBits data size _ _).bind fun stackReg => ?_
  exact (sane_readBits data size _ _).bind fun stackSlot => sane_ok _

end Readings

/-- The return of a decoder when a reading failed. -/
theorem emission_failed {r : WordResult} (h : r.code = STACKMAP_OK ∨ IsError r.code) (roots : Nat)
    {g : Nat → Events → Nat → Except Stop Emitted} (hg : Emission g) :
    Emission fun capacity events start =>
      if r.code ≠ STACKMAP_OK then .error (⟨r.code, start, roots⟩, events)
      else g capacity events start :=
  emission_ite (fun hcode => emission_error (h.resolve_left hcode) roots) fun _ => hg

/-! ## Slot roots -/

section Slots

variable (env : Env) (kind row derivedBase : Nat) (data : Nat → UInt8) (size : Nat)

/-- A slot root is one event, and one more root. -/
theorem emission_emitRoot (bias : BitVec 64) (roots : Nat) :
    Emission fun capacity events start =>
      emitRoot ⟨kind, row, derivedBase, capacity⟩ ⟨events, start, roots⟩ bias := by
  refine ⟨[(⟨kind, row, derivedBase, 0⟩ : Target).event bias], .ok (Words.add 64 roots 1), nofun,
    fun capacity events start => ?_⟩
  have hevent : (⟨kind, row, derivedBase, capacity⟩ : Target).event bias =
      (⟨kind, row, derivedBase, 0⟩ : Target).event bias := rfl
  simp only [emitRoot, emitSlot, replay, hevent]
  by_cases hcode : (emitEvent events capacity start
      ((⟨kind, row, derivedBase, 0⟩ : Target).event bias)).1.code ≠ STACKMAP_OK
  · simp only [if_pos hcode]
    rfl
  · simp only [if_neg hcode]
    rfl

/-- The set bits of a chunk are emitted in ascending order, whatever the buffer. -/
theorem emission_emitBits (baseBias : BitVec 64) (logicalSlot : Nat) : ∀ remaining chunk bit roots,
    Emission fun capacity events start => emitBits env ⟨kind, row, derivedBase, capacity⟩ baseBias
      logicalSlot remaining chunk bit ⟨events, start, roots⟩ := by
  intro remaining
  induction remaining with
  | zero =>
    intro chunk bit roots
    exact emission_ok roots
  | succ remaining ih =>
    intro chunk bit roots
    refine emission_ite (fun _ => emission_ok roots) fun _ => ?_
    refine emission_ite (fun _ => ?_) fun _ => ?_
    · exact emission_bind (emission_emitRoot kind row derivedBase _ roots) fun roots' => ih _ _ _
    · exact emission_bind (emission_ok roots) fun roots' => ih _ _ _

/-- The slots of a fill are emitted in ascending order, whatever the buffer. -/
theorem emission_emitFill (baseBias : BitVec 64) : ∀ remaining bit roots,
    Emission fun capacity events start => emitFill env ⟨kind, row, derivedBase, capacity⟩ baseBias
      remaining bit ⟨events, start, roots⟩ := by
  intro remaining
  induction remaining with
  | zero =>
    intro bit roots
    exact emission_ok roots
  | succ remaining ih =>
    intro bit roots
    exact emission_bind (emission_emitRoot kind row derivedBase _ roots) fun roots' => ih _ _

/-- The chunks of a plain bitmap; the cursor and the number of bits that remain do not depend on the
    buffer. -/
theorem emission_pureLoop (baseBias : BitVec 64) (remain : Nat) : ∀ cursor logicalSlot roots,
    Emission fun capacity events start => pureLoop env ⟨kind, row, derivedBase, capacity⟩ data size
      baseBias remain cursor logicalSlot ⟨events, start, roots⟩ := by
  induction remain using Nat.strong_induction_on with
  | _ remain ih =>
    intro cursor logicalSlot roots
    by_cases hzero : remain = 0
    · exact (emission_ok roots).congr fun capacity events start => by rw [pureLoop, dif_pos hzero]
    · refine Emission.congr ?_ fun capacity events start => by rw [pureLoop, dif_neg hzero]
      refine emission_failed (readBits_code data size _ _) roots ?_
      refine emission_bind (emission_emitBits env kind row derivedBase _ _ _ _ _ roots) fun roots' => ?_
      refine ih _ ?_ _ _ roots'
      split <;> omega

/-- The groups of a compressed bitmap, literal ones and fills. -/
theorem emission_groupLoop (remain : Nat) : ∀ (baseBias : BitVec 64) cursor roots,
    Emission fun capacity events start => groupLoop env ⟨kind, row, derivedBase, capacity⟩ data size
      baseBias remain cursor ⟨events, start, roots⟩ := by
  induction remain using Nat.strong_induction_on with
  | _ remain ih =>
    intro baseBias cursor roots
    by_cases hzero : remain = 0
    · exact (emission_ok roots).congr fun capacity events start => by rw [groupLoop, dif_pos hzero]
    · refine Emission.congr ?_ fun capacity events start => by rw [groupLoop, dif_neg hzero]
      refine emission_failed (readBits_code data size _ _) roots ?_
      refine emission_ite (fun _ => ?_) fun _ => ?_
      · refine emission_failed (readBits_code data size _ _) roots ?_
        refine emission_bind (emission_emitBits env kind row derivedBase _ _ _ _ _ roots)
          fun roots' => ih _ (by omega) _ _ roots'
      · refine emission_ite (fun _ => emission_ok roots) fun _ => ?_
        refine emission_failed (readBits_code data size _ _) roots ?_
        refine emission_failed (readVarInt_code data size _) roots ?_
        refine emission_ite (fun _ => emission_error isError_malformed roots) fun _ => ?_
        refine emission_ite (fun _ => emission_ok roots) fun _ => ?_
        refine emission_ite (fun _ => ?_) fun _ => ?_
        · refine emission_bind (emission_emitFill env kind row derivedBase _ _ _ roots)
            fun roots' => ih _ ?_ _ _ roots'
          omega
        · refine emission_bind (emission_ok roots) fun roots' => ih _ ?_ _ _ roots'
          omega

/-- The slot roots of a row, for either format: the base is read, and then the bitmap. -/
theorem emission_decodeSlotRoots (layout : SlotLayout) (slotIndex format : Nat) :
    Emission fun capacity events start => call (decodeSlotRoots env
      ⟨kind, row, derivedBase, capacity⟩ data size layout slotIndex format events start) := by
  by_cases hzero : slotIndex = 0
  · exact emission_call_ok.congr fun capacity events start => by rw [decodeSlotRoots, if_pos hzero]
  by_cases hrecords : slotIndex > layout.slotRecords
  · exact (emission_call_error isError_malformed).congr
      fun capacity events start => by rw [decodeSlotRoots, if_neg hzero, if_pos hrecords]
  by_cases hcode : (readBits data size (layout.rowStart slotIndex) layout.slotBaseBits).code ≠
      STACKMAP_OK
  · refine (emission_call_error ((readBits_code data size _ _).resolve_left hcode)).congr ?_
    exact fun capacity events start => by
      rw [decodeSlotRoots, if_neg hzero, if_neg hrecords, if_pos hcode]
  by_cases hformat : format = PURE_COMPRESSED_STACKMAP
  · exact (emission_call (emission_pureLoop env kind row derivedBase data size _ _ _ _ 0)).congr
      fun capacity events start => by
        rw [decodeSlotRoots, if_neg hzero, if_neg hrecords, if_neg hcode, if_pos hformat]
  · exact (emission_call (emission_groupLoop env kind row derivedBase data size _ _ _ 0)).congr
      fun capacity events start => by
        rw [decodeSlotRoots, if_neg hzero, if_neg hrecords, if_neg hcode, if_neg hformat]

end Slots

/-! ## Register roots and derived roots -/

section Roots

variable (arch : Arch) (kind row derivedBase : Nat) (data : Nat → UInt8) (size : Nat)
  (layout : Layout) (format pc : Nat)

/-- A part of a register is one event. -/
theorem emission_regEvent (reg subSlot roots : Nat) :
    Emission fun capacity events start => emitOne capacity ⟨events, start, roots⟩
      ((⟨kind, row, derivedBase, capacity⟩ : Target).regEvent reg subSlot) :=
  (emission_emitOne ((⟨kind, row, derivedBase, 0⟩ : Target).regEvent reg subSlot) roots).congr
    fun _ _ _ => rfl

/-- The parts of a register, one by one. -/
theorem emission_emitSubSlots (reg : Nat) : ∀ remaining subSlot roots,
    Emission fun capacity events start => emitSubSlots ⟨kind, row, derivedBase, capacity⟩ reg
      remaining subSlot ⟨events, start, roots⟩ := by
  intro remaining
  induction remaining with
  | zero =>
    intro subSlot roots
    exact emission_ok roots
  | succ remaining ih =>
    intro subSlot roots
    exact emission_bind (emission_regEvent kind row derivedBase reg subSlot roots)
      fun roots' => ih _ _

/-- The registers of a bitmap, from the lowest bit on. -/
theorem emission_emitRegs : ∀ remaining bitMap bit roots,
    Emission fun capacity events start => emitRegs arch ⟨kind, row, derivedBase, capacity⟩ remaining
      bitMap bit ⟨events, start, roots⟩ := by
  intro remaining
  induction remaining with
  | zero =>
    intro bitMap bit roots
    exact emission_ok roots
  | succ remaining ih =>
    intro bitMap bit roots
    refine emission_ite (fun _ => emission_ok roots) fun _ => emission_ite (fun _ => ?_) fun _ => ?_
    · refine emission_bind (emission_emitSubSlots kind row derivedBase _ _ _ roots) fun roots' => ?_
      dsimp only
      exact emission_ite (fun _ => emission_bind (emission_ok _) fun _ => ih _ _ _)
        fun _ => emission_bind (emission_ok roots') fun _ => ih _ _ _
    · exact emission_bind (emission_ok roots) fun roots' => ih _ _ _

/-- The register roots of a row. -/
theorem emission_decodeRegRoots (regIndex : Nat) :
    Emission fun capacity events start => call (decodeRegRoots data size arch
      ⟨kind, row, derivedBase, capacity⟩ layout regIndex events start) := by
  by_cases hzero : regIndex = 0
  · exact emission_call_ok.congr fun capacity events start => by rw [decodeRegRoots, if_pos hzero]
  by_cases hcode : (readTableRow data size layout.regData layout.regRecords layout.regBits
      regIndex).code ≠ STACKMAP_OK
  · refine (emission_call_error ((readTableRow_code data size _ _ _ _).resolve_left hcode)).congr ?_
    exact fun capacity events start => by
      rw [decodeRegRoots, if_neg hzero, if_pos hcode]
  · exact (emission_call (emission_emitRegs arch kind row derivedBase _ _ _ 0)).congr
      fun capacity events start => by rw [decodeRegRoots, if_neg hzero, if_neg hcode]

/-- The derived roots of a row, one base after the other. -/
theorem emission_derivedLoop (derivedIndex : Nat) : ∀ remaining baseOrdinal roots,
    Emission fun capacity events start => derivedLoop data size arch layout format pc capacity
      derivedIndex remaining baseOrdinal ⟨events, start, roots⟩ := by
  intro remaining
  induction remaining with
  | zero =>
    intro baseOrdinal roots
    exact emission_ok roots
  | succ remaining ih =>
    intro baseOrdinal roots
    refine emission_read (sane_readBits data size _ _) fun regIndex => emission_read
      (sane_readBits data size _ _) fun slotIndex => ?_
    refine emission_bind (emission_decodeRegRoots arch _ _ _ data size layout _) fun roots' => ?_
    exact emission_bind (emission_decodeSlotRoots arch.toEnv _ _ _ data size _ _ _)
      fun roots' => ih _ _

/-- The derived roots of a row, with the checks in front of them. -/
theorem emission_decodeDerived (derivedIndex baseRoots : Nat) :
    Emission fun capacity events start => call (decodeDerived data size arch layout format pc
      capacity derivedIndex baseRoots events start) := by
  by_cases hnone : derivedIndex = 0 ∨ baseRoots = 0
  · exact emission_call_ok.congr fun capacity events start => by rw [decodeDerived, if_pos hnone]
  by_cases hrecords : derivedIndex > layout.derivedRecords ∨
      baseRoots > Words.add 32 (Words.sub 32 layout.derivedRecords derivedIndex) 1
  · exact (emission_call_error isError_malformed).congr
      fun capacity events start => by rw [decodeDerived, if_neg hnone, if_pos hrecords]
  · exact (emission_call (emission_derivedLoop arch data size layout format pc _ _ _ 0)).congr
      fun capacity events start => by rw [decodeDerived, if_neg hnone, if_neg hrecords]

/-! ## Rows and the prologue -/

/-- A row with all its events, in the order of the source. -/
theorem emission_decodeRow (indices : IndexSet) (roots : Nat) :
    Emission fun capacity events start => decodeRow data size arch layout format pc capacity indices
      ⟨events, start, roots⟩ := by
  have hrest : ∀ lineNumber, Emission fun capacity events start => (do
      let s ← emitOne capacity ⟨events, start, roots⟩
        ⟨STACKMAP_EVENT_ROW, pc, BitVec.ofNat 64 pc, BitVec.ofNat 64 lineNumber⟩
      let regs ← call (decodeRegRoots data size arch ⟨STACKMAP_EVENT_REG_ROOT, pc, 0, capacity⟩ layout
        indices.reg s.events s.eventIndex)
      let slots ← call (decodeSlotRoots arch.toEnv ⟨STACKMAP_EVENT_SLOT_ROOT, pc, 0, capacity⟩ data
        size layout.slots indices.slot format regs.events regs.eventIndex)
      let derived ← call (decodeDerived data size arch layout format pc capacity indices.derived
        (Words.add 64 regs.roots slots.roots) slots.events slots.eventIndex)
      let stackRegs ← call (decodeRegRoots data size arch
        ⟨STACKMAP_EVENT_STACK_REG_ROOT, pc, 0, capacity⟩ layout indices.stackReg derived.events
        derived.eventIndex)
      call (decodeSlotRoots arch.toEnv ⟨STACKMAP_EVENT_STACK_SLOT_ROOT, pc, 0, capacity⟩ data size
        layout.slots indices.stackSlot format stackRegs.events stackRegs.eventIndex) :
        Except Stop Emitted) := by
    intro lineNumber
    refine emission_bind (emission_emitOne _ roots) fun _ => ?_
    refine emission_bind (emission_decodeRegRoots arch _ _ _ data size layout _) fun regs => ?_
    dsimp only
    refine emission_bind (emission_decodeSlotRoots arch.toEnv _ _ _ data size _ _ _) fun slots => ?_
    dsimp only
    refine emission_bind (emission_decodeDerived arch data size layout format pc _ _) fun _ => ?_
    refine emission_bind (emission_decodeRegRoots arch _ _ _ data size layout _) fun _ => ?_
    exact emission_decodeSlotRoots arch.toEnv _ _ _ data size _ _ _
  by_cases hline : indices.line ≠ 0
  · refine (@emission_read roots _ _ (sane_check (readTableRow_code data size layout.lineData
      layout.lineRecords layout.lineBits indices.line)) _ fun lineResult =>
        hrest lineResult.value).congr fun capacity events start => ?_
    rw [decodeRow, if_pos hline]
    cases (readTableRow data size layout.lineData layout.lineRecords layout.lineBits
      indices.line).check with
    | error code => rfl
    | ok lineResult => rfl
  · refine (hrest 0).congr fun capacity events start => ?_
    rw [decodeRow, if_neg hline]
    rfl

/-- All rows of a table, one by one. -/
theorem emission_decodeRows : ∀ remaining row roots,
    Emission fun capacity events start => decodeRows data size arch layout format capacity remaining
      row ⟨events, start, roots⟩ := by
  intro remaining
  induction remaining with
  | zero =>
    intro row roots
    exact emission_ok roots
  | succ remaining ih =>
    intro row roots
    refine emission_read (sane_readIndexSet data size layout row) fun r => ?_
    refine emission_ite (fun _ => emission_bind (emission_ok roots) fun _ => ih _ _) fun _ => ?_
    exact emission_bind (emission_decodeRow arch data size layout format _ _ roots) fun _ => ih _ _

/-- The prologue, with what is done after it. -/
theorem emission_prologueLoop {k : Nat → Nat → Emitted → Except Stop Emitted}
    (hk : ∀ cursor roots, Emission fun capacity events start =>
      k cursor capacity ⟨events, start, roots⟩) (bits : Nat) : ∀ reg cursor roots,
    Emission fun capacity events start =>
      (prologueLoop data size capacity bits reg cursor ⟨events, start, roots⟩ >>= fun r =>
        k r.1 capacity r.2) := by
  induction bits using Nat.strong_induction_on with
  | _ bits ih =>
    intro reg cursor roots
    by_cases hzero : bits = 0
    · refine (hk cursor roots).congr fun capacity events start => ?_
      rw [prologueLoop, dif_pos hzero]
      rfl
    · have hlt : bits >>> 1 < bits := by
        rw [Nat.shiftRight_eq_div_pow]
        omega
      by_cases hbit : bits &&& 1 ≠ 0
      · refine (@emission_read roots _ _ (sane_readVarInt data size cursor) _
          fun offset => emission_bind (f := fun capacity s =>
              prologueLoop data size capacity (bits >>> 1) (reg + 1) offset.nextBit s >>= fun r =>
                k r.1 capacity r.2)
            (emission_emitOne ⟨STACKMAP_EVENT_PROLOGUE, 0, BitVec.ofNat 64 reg,
              BitVec.ofNat 64 offset.value⟩ roots) fun roots' =>
            ih (bits >>> 1) hlt (reg + 1) offset.nextBit roots').congr fun capacity events start => ?_
        rw [prologueLoop, dif_neg hzero, if_pos hbit, bind_assoc]
        refine bind_congr fun offset => ?_
        rw [bind_assoc]
      · refine (ih (bits >>> 1) hlt (reg + 1) cursor roots).congr fun capacity events start => ?_
        rw [prologueLoop, dif_neg hzero, if_neg hbit]

/-- **The whole decoder is an emission.**  It is put together from emissions by the rules for
    sequences and loops, and the modes of an emission agree. -/
theorem decodeBody_emission (stackGrow : Bool) :
    Emission fun capacity events start =>
      decodeBody data size arch capacity stackGrow ⟨events, start, 0⟩ := by
  refine emission_read (sane_readVarInt data size _) fun stackSize => emission_read
    (sane_readVarInt data size _) fun format => ?_
  refine emission_bind (emission_emitOne _ 0) fun roots => ?_
  refine emission_read (sane_readVarInt data size _) fun prologueMap => ?_
  refine emission_prologueLoop data size (k := fun cursor capacity s => do
    let layout ← s.read (parseLayout data size cursor stackGrow)
    decodeRows data size arch layout format.value capacity layout.stackMapRecords 0 s)
    (fun cursor roots' => ?_) _ _ _ roots
  exact emission_read (sane_parseLayout data size cursor stackGrow) fun layout =>
    emission_decodeRows arch data size layout _ _ _ roots'

end Roots

/-! ## The modes -/

/-- The index from which a buffer has no room. -/
def limit (capacity : Nat) : Nat := min capacity (2 ^ 63)

/-- Without a buffer the events are counted. -/
theorem replay_none {capacity : Nat} {emitted : List StackMapEvent} {start : Nat}
    {outcome : Except Nat Nat} (h : start + emitted.length < 2 ^ 64) :
    replay capacity emitted none start outcome =
      replay capacity [] none (start + emitted.length) outcome := by
  induction emitted generalizing start with
  | nil => rfl
  | cons event emitted ih =>
    rw [List.length_cons] at h ⊢
    have hstep : replay capacity (event :: emitted) none start outcome =
        replay capacity emitted none (Words.add 64 start 1) outcome := rfl
    rw [hstep, Words.add_eq (by omega), ih (by omega), Nat.add_assoc, Nat.add_comm 1]

/-- The first events are written into a buffer, as many as have room. -/
def Writes (emitted : List StackMapEvent) (start stop : Nat) (buffer after : Nat → StackMapEvent) :
    Prop :=
  (∀ k, start ≤ k → k < stop → emitted[k - start]? = some (after k)) ∧
    ∀ k, k < start ∨ stop ≤ k → after k = buffer k

/-- With a buffer all events are written, or those that have room. -/
theorem replay_some {capacity : Nat} {emitted : List StackMapEvent} {start : Nat}
    {outcome : Except Nat Nat} {buffer : Nat → StackMapEvent} (hstart : start ≤ limit capacity) :
    ∃ after, Writes emitted start (min (start + emitted.length) (limit capacity)) buffer after ∧
      replay capacity emitted (some buffer) start outcome =
        if start + emitted.length ≤ limit capacity then
          replay capacity [] (some after) (start + emitted.length) outcome
        else .error (STACKMAP_NO_SPACE, limit capacity, some after) := by
  induction emitted generalizing start buffer with
  | nil =>
    refine ⟨buffer, ⟨fun k hle hlt => ?_, fun k _ => rfl⟩, ?_⟩
    · rw [List.length_nil] at hlt
      omega
    · rw [List.length_nil, Nat.add_zero, if_pos hstart]
  | cons event emitted ih =>
    -- the buffer is full, or the first event is written
    by_cases hfull : start = limit capacity
    · have hcond : start ≥ capacity ∨ start > 2 ^ 63 - 1 := by
        rw [hfull, limit]
        omega
      refine ⟨buffer, ⟨fun k hle hlt => ?_, fun k _ => rfl⟩, ?_⟩
      · rw [List.length_cons] at hlt
        omega
      · rw [if_neg (by rw [List.length_cons]; omega), ← hfull]
        simp only [replay, emitEvent, if_pos hcond]
        rfl
    · have hlt : start < limit capacity := by omega
      have hsmall : start < 2 ^ 63 := Nat.lt_of_lt_of_le hlt (Nat.min_le_right _ _)
      have hcond : ¬ (start ≥ capacity ∨ start > 2 ^ 63 - 1) := by
        have := Nat.lt_of_lt_of_le hlt (Nat.min_le_left _ _)
        omega
      have hadd : Words.add 64 start 1 = start + 1 := Words.add_eq (by omega)
      have hstep : replay capacity (event :: emitted) (some buffer) start outcome =
          replay capacity emitted (some (Function.update buffer start event)) (start + 1)
            outcome := by
        simp only [replay, emitEvent, if_neg hcond, hadd]
        rfl
      obtain ⟨after, ⟨hin, hout⟩, hreplay⟩ := @ih (start + 1) (Function.update buffer start event) hlt
      have hlen : start + 1 + emitted.length = start + (event :: emitted).length := by
        rw [List.length_cons]
        omega
      rw [hlen] at hin hout hreplay
      refine ⟨after, ⟨fun k hle hk => ?_, fun k hk => ?_⟩, hstep.trans hreplay⟩
      · by_cases heq : k = start
        · rw [heq, Nat.sub_self, hout start (Or.inl (Nat.lt_succ_self start)), Function.update_self]
          rfl
        · have := hin k (by omega) hk
          rw [show k - start = (k - (start + 1)) + 1 by omega]
          exact this
      · rw [hout k (by omega), Function.update_of_ne (by omega)]

/-- The result of a run, from what its outcome looks like. -/
def decodedOf : Except (Nat × Nat × Events) (Events × Nat × Nat) → Decoded
  | .ok (events, eventIndex, _) => ⟨STACKMAP_OK, eventIndex, events⟩
  | .error (code, eventIndex, events) => ⟨code, eventIndex, events⟩

/-- The entry point looks at no more of the decoder's result than `view` shows. -/
theorem stackMapDecode_eq {data : Nat → UInt8} {size : Nat} {arch : Arch} {capacity flag : Nat}
    (hflag : flag = 0 ∨ flag = 1) (events : Events) (count : Nat) :
    stackMapDecode data size arch capacity flag events count =
      decodedOf (view (decodeBody data size arch capacity (flag = 1) ⟨events, 0, 0⟩)) := by
  rw [stackMapDecode, if_neg (by omega)]
  cases decodeBody data size arch capacity (flag = 1) ⟨events, 0, 0⟩ with
  | ok s => rfl
  | error stop => rfl

/-- The codes a run may end with: no fault. -/
theorem replay_error_code {capacity : Nat} {emitted : List StackMapEvent} {events events' : Events}
    {start code index : Nat} {outcome : Except Nat Nat} (hsane : Sane outcome)
    (h : replay capacity emitted events start outcome = .error (code, index, events')) :
    IsError code ∨ code = STACKMAP_NO_SPACE := by
  induction emitted generalizing events start with
  | nil =>
    cases outcome with
    | error code' =>
      cases h
      exact Or.inl (hsane _ rfl)
    | ok roots => cases h
  | cons event emitted ih =>
    simp only [replay] at h
    split at h
    case isTrue hcode =>
      cases h
      exact Or.inr ((emitEvent_code events capacity start event).resolve_left hcode)
    case isFalse => exact ih h

/-- **No run faults**: it ends with a code of the decoder, whatever the data. -/
theorem stackMapDecode_noFault (data : Nat → UInt8) (size : Nat) (arch : Arch)
    (capacity flag : Nat) (events : Events) (count : Nat) :
    (stackMapDecode data size arch capacity flag events count).code ≠ FAULT := by
  by_cases hflag : flag = 0 ∨ flag = 1
  · obtain ⟨emitted, outcome, hsane, hview⟩ := decodeBody_emission arch data size (flag = 1)
    rw [stackMapDecode_eq hflag, hview]
    cases hrun : replay capacity emitted events 0 outcome with
    | ok v => exact nofun
    | error stop =>
      obtain ⟨code, index, events'⟩ := stop
      show code ≠ FAULT
      rcases replay_error_code hsane hrun with herror | rfl
      · exact herror.ne_fault
      · decide
  · rw [stackMapDecode, if_pos (by omega)]
    exact nofun

/-- The code of an outcome. -/
def codeOf : Except Nat Nat → Nat
  | .ok _ => STACKMAP_OK
  | .error code => code

/-- What is returned once all events are emitted, whatever the buffer. -/
theorem decodedOf_replay_nil (capacity eventIndex : Nat) (events : Events)
    (outcome : Except Nat Nat) :
    decodedOf (replay capacity [] events eventIndex outcome) =
      ⟨codeOf outcome, eventIndex, events⟩ := by
  cases outcome with
  | ok roots => rfl
  | error code => rfl

/-- **The three modes agree.**  Take a run with a buffer that is larger than all events it emits.
    The run without a buffer has its code and its count; and a run with any buffer writes the same
    events, as many as have room, and nothing else, and has no space exactly if some have none. -/
theorem stackMapDecode_modes_agree {data : Nat → UInt8} {size : Nat} {arch : Arch} {flag : Nat}
    (hflag : flag = 0 ∨ flag = 1) {capacity : Nat} {buffer : Nat → StackMapEvent} {count : Nat}
    {full : Decoded}
    (hfull : stackMapDecode data size arch capacity flag (some buffer) count = full)
    (hroom : full.eventCount < capacity) (hfew : full.eventCount < 2 ^ 63) :
    ∃ written, full.events = some written ∧
      (∀ capacity' count', stackMapDecode data size arch capacity' flag none count' =
        ⟨full.code, full.eventCount, none⟩) ∧
      ∀ capacity' buffer' count', ∃ code after,
        stackMapDecode data size arch capacity' flag (some buffer') count' =
          ⟨code, min capacity' full.eventCount, some after⟩ ∧
        (∀ k, after k = if k < min capacity' full.eventCount then written k else buffer' k) ∧
        (code = STACKMAP_NO_SPACE ↔ capacity' < full.eventCount) ∧
        (full.eventCount ≤ capacity' → code = full.code) := by
  obtain ⟨emitted, outcome, hsane, hview⟩ := decodeBody_emission arch data size (flag = 1)
  -- the big buffer has room for all events
  obtain ⟨written, ⟨hin, hout⟩, hreplay⟩ :=
    @replay_some capacity emitted 0 outcome buffer (Nat.zero_le _)
  rw [stackMapDecode_eq hflag, hview, hreplay, Nat.zero_add] at hfull
  have hall : emitted.length ≤ limit capacity := by
    by_contra hlong
    rw [if_neg hlong] at hfull
    subst hfull
    simp only [decodedOf, limit] at hroom hfew
    omega
  rw [if_pos hall, decodedOf_replay_nil] at hfull
  rw [Nat.zero_add, Nat.min_eq_left hall] at hin hout
  have hcount : full.eventCount = emitted.length := by rw [← hfull]
  have hcode : full.code ≠ STACKMAP_NO_SPACE := by
    rw [← hfull]
    cases outcome with
    | ok roots => exact nofun
    | error code => exact (hsane code rfl).ne_noSpace
  have hother : ∀ capacity' events, decodedOf (replay capacity' [] events emitted.length outcome) =
      ⟨full.code, full.eventCount, events⟩ := by
    intro capacity' events
    rw [decodedOf_replay_nil, ← hfull]
  refine ⟨written, by rw [← hfull], fun capacity' count' => ?_,
    fun capacity' buffer' count' => ?_⟩
  · rw [stackMapDecode_eq hflag, hview, replay_none (by omega), Nat.zero_add, hother]
  · obtain ⟨after, ⟨hin', hout'⟩, hreplay'⟩ :=
      @replay_some capacity' emitted 0 outcome buffer' (Nat.zero_le _)
    rw [Nat.zero_add] at hin' hout' hreplay'
    have hlimit : min emitted.length (limit capacity') = min capacity' full.eventCount := by
      rw [hcount, limit]
      omega
    rw [hlimit] at hin' hout'
    have hafter : ∀ k, after k = if k < min capacity' full.eventCount then written k
        else buffer' k := by
      intro k
      split
      case isTrue hk =>
        have hevent := hin' k (Nat.zero_le k) hk
        rw [hin k (Nat.zero_le k) (by omega)] at hevent
        exact (Option.some.inj hevent).symm
      case isFalse hk => exact hout' k (Or.inr (Nat.not_lt.mp hk))
    by_cases hfits : emitted.length ≤ limit capacity'
    · have hle : full.eventCount ≤ capacity' := by
        rw [limit] at hfits
        omega
      refine ⟨full.code, after, ?_, hafter, ?_, fun _ => rfl⟩
      · rw [stackMapDecode_eq hflag, hview, hreplay', if_pos hfits, hother, Nat.min_eq_right hle]
      · exact ⟨fun h => absurd h hcode, fun h => absurd h (Nat.not_lt.mpr hle)⟩
    · have hlt : capacity' < full.eventCount := by
        rw [limit] at hfits
        omega
      refine ⟨STACKMAP_NO_SPACE, after, ?_, hafter, ⟨fun _ => hlt, fun _ => rfl⟩,
        fun h => absurd h (Nat.not_le.mpr hlt)⟩
      have hlimit' : limit capacity' = capacity' := by
        rw [limit]
        omega
      rw [stackMapDecode_eq hflag, hview, hreplay', if_neg hfits, hlimit',
        Nat.min_eq_left (Nat.le_of_lt hlt)]
      rfl

/-- A header and two registers of the prologue, counted and then decoded into three slots. -/
theorem stackMapDecode_modes_agree_prologue :
    let data : Nat → UInt8 := fun k => [0x03, 0x15, 0x02].getD k 0
    let full := stackMapDecode data 3 ⟨⟨false⟩, true⟩ 4 0 (some fun _ => ⟨0, 0, 0, 0⟩) 0
    full.eventCount = 3 ∧ ∃ written, full.events = some written ∧
      stackMapDecode data 3 ⟨⟨false⟩, true⟩ 0 0 none 0 = ⟨full.code, full.eventCount, none⟩ ∧
      ∃ code after, stackMapDecode data 3 ⟨⟨false⟩, true⟩ 3 0 (some fun _ => ⟨0, 0, 0, 0⟩) 0 =
        ⟨code, min 3 full.eventCount, some after⟩ ∧ code = full.code := by
  intro data full
  have hcount : full.eventCount = 3 := by decide +kernel
  obtain ⟨written, hwritten, hnone, hsome⟩ := @stackMapDecode_modes_agree data 3 ⟨⟨false⟩, true⟩ 0
    (Or.inl rfl) 4 (fun _ => ⟨0, 0, 0, 0⟩) 0 full rfl (by rw [hcount]; decide)
    (by rw [hcount]; decide)
  obtain ⟨code, after, hrun, _, _, hcode⟩ := hsome 3 (fun _ => ⟨0, 0, 0, 0⟩) 0
  exact ⟨hcount, written, hwritten, hnone 0 0, code, after, hrun, hcode (by rw [hcount])⟩

end CangjieRuntime.Stackmap
