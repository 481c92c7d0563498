/-
  The text of a nested path.

  `DemangleNestedDecls` keeps the names of the components in 16 slots and moves a full batch to the
  result.  A path (`Path`) is a sequence of components, as the rounds of the loop read them; its text
  should be the names with a delimiter between neighbours.

  Two things go wrong.  The code moves a batch only before a declaration, it strips the delimiter
  after the batch, and it does not put it back.  And the name of an operator with a local counter and
  no other suffix is a literal (`readRound_literal`): the delimiter in front of it is one as well, and
  `RtConcat` loses both.  The text is right for at most 16 components if no such operator is behind
  the first one, and too short for all other paths.
-/
import CangjieRuntime.Demangle.Progress
import CangjieRuntime.Lib.Outcomes

set_option linter.unusedVariables false

namespace CangjieRuntime.Demangle

open CangjieRuntime.Computation

/-! ## Paths -/

/-- A component of a path: its name, its kind, and for a declaration what is remembered of it. -/
structure Component where
  name : Text
  kind : DemanglerTypeKind
  declared : Option DemangleInfo

/-- What a round of the loop reads.  The loop ends at the end of the path, at what it rejects, and
    behind a name that ends the text; behind any other component it goes on. -/
inductive Round
  /-- The end of the path. -/
  | finished
  /-- Something that is no component. -/
  | rejected (info : DemangleInfo)
  /-- A component. -/
  | component (c : Component)
  /-- A name that ends the text. -/
  | final (c : Component)

section Paths

variable (fuel : Nat) (next : Dem DemangleInfo) (isClass isParamInit : Bool)

/-- A round of the loop, without the slots. -/
def readRound : Dem Round := do
  let d ← get
  if ¬ d.isNotEndOfMangledName then return .finished
  else if d.current = 76 then
    advance 1
    let lambdaIDString := rtIntToString (← demangleManglingNumber fuel)
    return .component ⟨rtConcat (rtLit (ascii "lambda.")) ⟨lambdaIDString, true⟩, .lambdaFunction,
      none⟩
  else if d.current = 88 then
    advance 1
    if ¬ (← get).isQualifiedType then return .rejected (← reject)
    else
      let curDi ← next
      if (← get).isFileName then demangleFileName fuel
      skipLocalCounter fuel
      return .component ⟨⟨curDi.getIdentifier, true⟩, .commonDecl, none⟩
  else
    let curDi ← nestedName
    if (← get).atEnd then
      return .final ⟨curDi.getFullNameText d.scopeResolution, .commonDecl, none⟩
    else
      skipLocalCounter fuel
      if ¬ (← get).isValid then return .rejected (← reject)
      else
        let curDi ← nestedGeneric fuel next isClass curDi
        let (curDi, typeKind) ← nestedFunction fuel next curDi
        if isParamInit ∧ (← get).isNotEndOfMangledName ∧ curDi.functionParameterTypes.length > 0 then
          return .component ⟨⟨curDi.getFullName d.scopeResolution ++ ascii "(" ++
            curDi.functionParameterTypes ++ ascii ")", true⟩, typeKind, some curDi⟩
        else return .component ⟨curDi.getFullNameText d.scopeResolution, typeKind, some curDi⟩

/-- A path from a state to another, with the names of its components. -/
inductive Path : Demangler → List Text → Demangler → Prop
  | finished {d d' : Demangler} (h : readRound fuel next isClass isParamInit d = some (.finished, d')) :
      Path d [] d'
  | final {d d' : Demangler} {c : Component}
      (h : readRound fuel next isClass isParamInit d = some (.final c, d')) : Path d [c.name] d'
  | component {d d' d'' : Demangler} {c : Component} {names : List Text}
      (h : readRound fuel next isClass isParamInit d = some (.component c, d'))
      (rest : Path d' names d'') : Path d (c.name :: names) d''

end Paths

/-- The names, with a delimiter between neighbours. -/
def joined (delimiter : RtString) (names : List RtString) : RtString := delimiter.intercalate names

/-! ## Names without an arena -/

section Literals

variable {fuel : Nat} {next : Dem DemangleInfo} {isClass isParamInit : Bool} {d : Demangler}

/-- A text without an arena is not empty.  Of the components only operators have such a name, and no
    operator's is empty. -/
def Text.Named (name : Text) : Prop := name.arena = false → name.bytes ≠ []

end Literals

/-! ## A round of the loop -/

/-- A component is put into its slot, a declaration after the flush of a full batch. -/
def Nested.add (v : Nested) (delimiter : RtString) (c : Component) : Nested where
  batch := (if c.declared.isSome then v.batch.flush delimiter else v.batch).push c.name
  typeKind := c.kind
  lastElement := c.declared.getD v.lastElement

/-- What the loop does with a round. -/
def Nested.after (v : Nested) (delimiter : RtString) : Round → Nested ⊕ Except DemangleInfo Nested
  | .finished => .inr (.ok v)
  | .rejected info => .inr (.error info)
  | .component c => .inl (v.add delimiter c)
  | .final c => .inr (.ok (v.add delimiter c))

section Round

variable {fuel : Nat} {next : Dem DemangleInfo} {isClass isParamInit : Bool} {d d' : Demangler}

/-- A round reads, and then stores what it read. -/
theorem nestedStep_eq (v : Nested) :
    nestedStep fuel next isClass isParamInit v d =
      (readRound fuel next isClass isParamInit >>= fun r =>
        pure (v.after d.scopeResolution r)) d := by
  have hget : ∀ {α : Type} (f : Demangler → Dem α), (get >>= f) d = f d d := fun f => rfl
  rw [nestedStep, readRound, bind_assoc, hget, hget]
  split
  · rfl
  split
  · simp only [bind_assoc, pure_bind]
    rfl
  split
  · simp only [bind_assoc]
    refine congrFun (bind_congr fun _ => bind_congr fun d1 => ?_) d
    split
    · simp only [bind_assoc, pure_bind]
      rfl
    · simp only [bind_assoc]
      refine bind_congr fun curDi => bind_congr fun d2 => ?_
      split
      · simp only [bind_assoc, pure_bind]
        rfl
      · simp only [bind_assoc, pure_bind]
        rfl
  · simp only [bind_assoc]
    refine congrFun (bind_congr fun curDi => bind_congr fun d1 => ?_) d
    split
    · rfl
    · simp only [bind_assoc]
      refine bind_congr fun _ => bind_congr fun d2 => ?_
      split
      · simp only [bind_assoc, pure_bind]
        rfl
      · simp only [bind_assoc]
        refine bind_congr fun curDi => bind_congr fun r => bind_congr fun d3 => ?_
        split
        · rfl
        · rfl

end Round

/-! ## The text of the slots -/

section Texts

variable {delimiter : RtString} {names : List Text}

/-- One more name is put after a delimiter. -/
theorem joined_concat {names : List RtString} (h : names ≠ []) (name : RtString) :
    joined delimiter (names ++ [name]) = joined delimiter names ++ (delimiter ++ name) := by
  induction names with
  | nil => exact absurd rfl h
  | cons n names ih =>
    cases names with
    | nil => simp [joined, List.intercalate_cons_cons]
    | cons n' names =>
      have ih' := ih (List.cons_ne_nil n' names)
      simp only [joined, List.cons_append] at ih' ⊢
      rw [List.intercalate_cons_cons, ih', List.intercalate_cons_cons]
      simp only [List.append_assoc]

/-- One name is taken from its slot as it is. -/
theorem getArgTypesFullName_one (args : Slots) :
    getArgTypesFullName args 1 delimiter = rtStringSlotGet args 0 := rfl

/-- A further name comes behind a delimiter. -/
theorem getArgTypesFullName_succ (args : Slots) {n : Nat} (h : n ≠ 0) :
    getArgTypesFullName args (n + 1) delimiter =
      rtConcat (getArgTypesFullName args n delimiter)
        (rtConcat (rtLit delimiter) (rtStringSlotGet args n)) := by
  obtain ⟨n, rfl⟩ := Nat.exists_eq_succ_of_ne_zero h
  rw [getArgTypesFullName, getArgTypesFullName, if_neg (Nat.succ_ne_zero _), if_neg h,
    Nat.add_sub_cancel, Nat.succ_eq_add_one, Nat.add_sub_cancel, List.range'_1_concat,
    List.foldl_append, Nat.add_comm 1 n]
  rfl

/-- A slot that is not read does not matter. -/
theorem getArgTypesFullName_set (args : Slots) {n j : Nat} (h : n ≤ j) (name : Text) :
    getArgTypesFullName (rtStringSlotSet args j name) n delimiter =
      getArgTypesFullName args n delimiter := by
  have hget : ∀ k < n, rtStringSlotGet (rtStringSlotSet args j name) k = rtStringSlotGet args k := by
    intro k hk
    rw [rtStringSlotSet]
    split
    · rfl
    · rw [rtStringSlotGet, rtStringSlotGet, Function.update_of_ne (by omega)]
  induction n with
  | zero => rfl
  | succ n ih =>
    by_cases hn : n = 0
    · subst hn
      rw [getArgTypesFullName_one, getArgTypesFullName_one, hget 0 Nat.one_pos]
    · rw [getArgTypesFullName_succ _ hn, getArgTypesFullName_succ _ hn,
        ih (by omega) fun k hk => hget k (by omega), hget n (Nat.lt_succ_self n)]

/-- A delimiter and a name are one text of the arena, or they are lost. -/
theorem delimiter_concat {name : Text}
    (hname : name.arena = false → delimiter ≠ [] ∧ name.bytes ≠ []) :
    rtConcat (rtLit delimiter) name =
      if name.arena then ⟨delimiter ++ name.bytes, true⟩ else rtLit [] := by
  obtain ⟨bytes, arena⟩ := name
  cases arena with
  | true => exact rtConcat_right _ _
  | false => exact rtConcat_lost (hname rfl).1 (hname rfl).2

/-- What is put behind a text adds its bytes. -/
theorem rtConcat_bytes (text : Text) {name : Text}
    (hname : name.arena = false → delimiter ≠ [] ∧ name.bytes ≠ []) :
    (rtConcat text (rtConcat (rtLit delimiter) name)).bytes =
      text.bytes ++ (if name.arena then delimiter ++ name.bytes else []) := by
  rw [delimiter_concat hname]
  split
  · rw [rtConcat_right]
  · rw [rtConcat_nil, List.append_nil]

/-- The flush of slots that have the arena. -/
theorem foldl_flush {args : Slots} {n : Nat}
    (hargs : ∀ k ≤ n, (rtStringSlotGet args k).arena = true) (result : RtString) :
    (List.range (n + 1)).foldl
        (fun result k => rtConcat result (rtConcat (rtStringSlotGet args k) (rtLit delimiter)))
        ⟨result, true⟩ =
      ⟨result ++ (getArgTypesFullName args (n + 1) delimiter).bytes ++ delimiter, true⟩ := by
  have hslot : ∀ k ≤ n, rtStringSlotGet args k = ⟨(rtStringSlotGet args k).bytes, true⟩ :=
    fun k hk => by rw [← hargs k hk]
  induction n with
  | zero =>
    rw [getArgTypesFullName_one, List.range_one, List.foldl_cons, List.foldl_nil,
      hslot 0 (Nat.le_refl 0), rtConcat_left, rtConcat_left, List.append_assoc]
  | succ n ih =>
    rw [List.range_succ, List.foldl_append, ih (fun k hk => hargs k (Nat.le_succ_of_le hk))
      fun k hk => hslot k (Nat.le_succ_of_le hk), getArgTypesFullName_succ _ (Nat.succ_ne_zero n),
      List.foldl_cons, List.foldl_nil, hslot (n + 1) (Nat.le_refl _), rtConcat_left, rtConcat_left,
      rtConcat_right, rtConcat_right]
    simp only [List.append_assoc]

/-- Any flush stays in the arena, and it is not longer than the names with their delimiters. -/
theorem foldl_flush_le {args : Slots} (hdelimiter : delimiter ≠ [])
    (hargs : ∀ k < 16, (rtStringSlotGet args k).Named) (result : RtString) {n : Nat} (hn : n < 16) :
    ∃ bytes, (List.range (n + 1)).foldl
        (fun result k => rtConcat result (rtConcat (rtStringSlotGet args k) (rtLit delimiter)))
        ⟨result, true⟩ = ⟨bytes, true⟩ ∧
      bytes.length ≤ result.length + (getArgTypesFullName args (n + 1) delimiter).bytes.length +
        delimiter.length := by
  have hslot : ∀ k < 16, rtConcat (rtStringSlotGet args k) (rtLit delimiter) =
      if (rtStringSlotGet args k).arena then ⟨(rtStringSlotGet args k).bytes ++ delimiter, true⟩
      else rtLit [] := by
    intro k hk
    have hnamed := hargs k hk
    revert hnamed
    rcases rtStringSlotGet args k with ⟨bytes, arena⟩
    cases arena with
    | true => exact fun _ => rtConcat_left _ _
    | false => exact fun hnamed => rtConcat_lost (hnamed rfl) hdelimiter
  induction n with
  | zero =>
    refine ⟨_, rtConcat_left result _, ?_⟩
    rw [hslot 0 hn, getArgTypesFullName_one]
    split
    · simp only [List.length_append]
      omega
    · simp only [List.append_nil]
      omega
  | succ n ih =>
    obtain ⟨bytes, heq, hle⟩ := ih (Nat.lt_of_succ_lt hn)
    refine ⟨bytes ++ (rtConcat (rtStringSlotGet args (n + 1)) (rtLit delimiter)).bytes, ?_, ?_⟩
    · rw [List.range_succ, List.foldl_append, heq]
      exact rtConcat_left bytes _
    · rw [hslot (n + 1) hn, getArgTypesFullName_succ args (n := n + 1) (Nat.succ_ne_zero n),
        rtConcat_bytes _ fun harena => ⟨hdelimiter, hargs (n + 1) hn harena⟩]
      split
      · simp only [List.length_append]
        omega
      · simp only [List.append_nil]
        omega

/-- The text of a batch, when the loop ends with it. -/
def Batch.text (b : Batch) (delimiter : RtString) : RtString :=
  (rtConcat b.result
    (getArgTypesFullName b.argsArr (if b.i = 0 then 0 else b.remainingLength) delimiter)).bytes

variable {b : Batch}

/-- A result in the arena takes the slots behind it. -/
theorem Batch.text_eq (harena : b.result.arena = true) :
    b.text delimiter = b.result.bytes ++ (getArgTypesFullName b.argsArr
      (if b.i = 0 then 0 else b.remainingLength) delimiter).bytes := by
  rw [Batch.text, show b.result = ⟨b.result.bytes, true⟩ by rw [← harena], rtConcat_left]

/-- Inside a batch a name is put after a delimiter, or both are lost. -/
theorem text_push_within (harena : b.result.arena = true) (h : b.i % 16 ≠ 0) {name : Text}
    (hname : name.arena = false → delimiter ≠ [] ∧ name.bytes ≠ []) :
    (b.push name).text delimiter =
      b.text delimiter ++ (if name.arena then delimiter ++ name.bytes else []) := by
  have hlt : b.i % 16 < 16 := Nat.mod_lt _ (by decide)
  have hrem : b.remainingLength = b.i % 16 := by
    rw [Batch.remainingLength]
    omega
  have hpush : (b.push name).i ≠ 0 := Nat.succ_ne_zero b.i
  have hne : b.i ≠ 0 := fun hzero => h (by rw [hzero])
  rw [Batch.text_eq (show (b.push name).result.arena = true from harena), Batch.text_eq harena,
    if_neg hpush, if_neg hne, hrem, Batch.remainingLength]
  simp only [Batch.push, Nat.add_sub_cancel]
  rw [getArgTypesFullName_succ _ h, getArgTypesFullName_set _ (Nat.le_refl _), rtStringSlotGet,
    rtStringSlotSet, if_neg (Nat.not_le.mpr hlt), if_neg (Nat.not_le.mpr hlt), Function.update_self,
    rtConcat_bytes _ hname, List.append_assoc]

/-- The first name of a batch comes right after the result. -/
theorem text_push_first (harena : b.result.arena = true) (h : b.i % 16 = 0) (name : Text) :
    (b.push name).text delimiter = b.result.bytes ++ name.bytes := by
  have hpush : (b.push name).i ≠ 0 := Nat.succ_ne_zero b.i
  rw [Batch.text_eq (show (b.push name).result.arena = true from harena), if_neg hpush,
    Batch.remainingLength]
  simp only [Batch.push, Nat.add_sub_cancel, h]
  rw [getArgTypesFullName_one, rtStringSlotGet, rtStringSlotSet, if_neg (by decide),
    if_neg (by decide), Function.update_self]

/-- A flush moves a full batch to the result, which is not longer than the text was. -/
theorem flush_result (harena : b.result.arena = true)
    (hargs : ∀ k < 16, (rtStringSlotGet b.argsArr k).Named) (hdelimiter : delimiter ≠ [])
    (h : b.i % 16 = 0) (hne : b.i ≠ 0) :
    (b.flush delimiter).result.arena = true ∧
      (b.flush delimiter).result.bytes.length ≤ (b.text delimiter).length := by
  have hrem : b.remainingLength = 15 + 1 := by
    rw [Batch.remainingLength]
    omega
  obtain ⟨bytes, heq, hle⟩ := foldl_flush_le hdelimiter hargs b.result.bytes (n := 15) (by decide)
  rw [show (⟨b.result.bytes, true⟩ : Text) = b.result by rw [← harena]] at heq
  rw [Batch.flush, if_pos ⟨h, hne⟩, Batch.text_eq harena, if_neg hne, hrem]
  constructor
  · exact congrArg Text.arena heq
  · show ((flushSlots b.argsArr delimiter b.result).bytes.subStr 0
      ((flushSlots b.argsArr delimiter b.result).bytes.length - delimiter.length)).length ≤ _
    rw [show flushSlots b.argsArr delimiter b.result = ⟨bytes, true⟩ from heq, RtString.subStr,
      List.drop_zero, List.length_take, List.length_append]
    dsimp only
    omega

/-- Where the batch is not full, nothing is flushed. -/
theorem flush_of_not (h : ¬ (b.i % 16 = 0 ∧ b.i ≠ 0)) : b.flush delimiter = b := by
  rw [Batch.flush, if_neg h]

/-! ## What the slots keep -/

/-- The batch after the names of a path.  It has the text of the path for up to 16 names, if all
    behind the first have the arena, and else a shorter one. -/
structure Keeps (delimiter : RtString) (names : List Text) (b : Batch) : Prop where
  count : b.i = names.length
  arena : b.result.arena = true
  named : ∀ k < 16, (rtStringSlotGet b.argsArr k).Named
  all : names.length ≤ 16 → (∀ name ∈ names.tail, name.arena = true) →
    b.text delimiter = joined delimiter (names.map Text.bytes)
  short : (16 < names.length ∨ ∃ name ∈ names.tail, name.arena = false) →
    (b.text delimiter).length < (joined delimiter (names.map Text.bytes)).length

/-- What is kept is no longer than all names with their delimiters. -/
theorem Keeps.length_le (h : Keeps delimiter names b) :
    (b.text delimiter).length ≤ (joined delimiter (names.map Text.bytes)).length := by
  by_cases hshort : 16 < names.length ∨ ∃ name ∈ names.tail, name.arena = false
  · exact Nat.le_of_lt (h.short hshort)
  · rw [not_or, Nat.not_lt, not_exists] at hshort
    refine Nat.le_of_eq (congrArg List.length (h.all hshort.1 fun name hname => ?_))
    exact eq_true_of_ne_false fun hfalse => hshort.2 name ⟨hname, hfalse⟩

/-- Before the first round nothing is kept. -/
theorem keeps_start : Keeps delimiter [] Batch.start where
  count := rfl
  arena := rfl
  named := by
    intro k hk harena
    rw [rtStringSlotGet, if_neg (Nat.not_le.mpr hk)] at harena
    cases harena
  all := fun _ _ => rfl
  short := by
    rintro (h | ⟨name, hname, -⟩)
    · exact absurd h (by decide)
    · cases hname

/-- A name that is put into its slot leaves only names in the slots. -/
theorem push_named (h : ∀ k < 16, (rtStringSlotGet b.argsArr k).Named) {name : Text}
    (hname : name.Named) : ∀ k < 16, (rtStringSlotGet (b.push name).argsArr k).Named :=
  rtStringSlotGet_set h hname

/-- The batch in front of a component: the same one, or for a declaration what the flush of a full
    one leaves. -/
theorem Keeps.flush (hdelimiter : delimiter ≠ []) {v : Nested} (h : Keeps delimiter names v.batch)
    (c : Component) : ∃ b : Batch, (v.add delimiter c).batch = b.push c.name ∧ b.i = v.batch.i ∧
      b.argsArr = v.batch.argsArr ∧ b.result.arena = true ∧
      (v.batch.i % 16 ≠ 0 ∨ v.batch.i = 0 → b = v.batch) ∧
      b.result.bytes.length ≤ (v.batch.text delimiter).length := by
  have hsame : v.batch.result.bytes.length ≤ (v.batch.text delimiter).length := by
    rw [Batch.text_eq h.arena, List.length_append]
    exact Nat.le_add_right _ _
  by_cases hdeclared : c.declared.isSome ∧ v.batch.i % 16 = 0 ∧ v.batch.i ≠ 0
  · obtain ⟨hsome, hfull, hne⟩ := hdeclared
    obtain ⟨harena, hle⟩ := flush_result h.arena h.named hdelimiter hfull hne
    have hflush : v.batch.flush delimiter = { v.batch with
        result := (flushSlots v.batch.argsArr delimiter v.batch.result).dropLast delimiter } := by
      rw [Batch.flush, if_pos ⟨hfull, hne⟩]
    refine ⟨v.batch.flush delimiter, by simp [Nested.add, hsome], by rw [hflush], by rw [hflush],
      harena, fun hnot => ?_, hle⟩
    exact hnot.elim (fun h' => absurd hfull h') fun h' => absurd h' hne
  · have hbatch : (v.add delimiter c).batch = v.batch.push c.name := by
      rw [Nested.add]
      split
      case isTrue hsome => rw [flush_of_not fun hfull => hdeclared ⟨hsome, hfull⟩]
      case isFalse => rfl
    exact ⟨v.batch, hbatch, rfl, rfl, h.arena, fun _ => rfl, hsame⟩

/-- A component keeps it so. -/
theorem Keeps.add {v : Nested} (hdelimiter : delimiter ≠ []) (h : Keeps delimiter names v.batch)
    (c : Component) (hname : c.name.Named) :
    Keeps delimiter (names ++ [c.name]) (v.add delimiter c).batch := by
  have hlen : (names ++ [c.name]).length = names.length + 1 := by simp
  obtain ⟨b, hpush, hi, hslots, harena, hsame, hle'⟩ := h.flush hdelimiter c
  have hcount : (v.add delimiter c).batch.i = (names ++ [c.name]).length := by
    rw [hpush, hlen, ← h.count, ← hi]
    rfl
  have harena' : (v.add delimiter c).batch.result.arena = true := by
    rw [hpush]
    exact harena
  have hnamed : ∀ k < 16, (rtStringSlotGet (v.add delimiter c).batch.argsArr k).Named := by
    rw [hpush]
    exact push_named (hslots ▸ h.named) hname
  have hpos : 0 < delimiter.length := List.length_pos_iff.mpr hdelimiter
  have hle := h.length_le
  have hmap : (names ++ [c.name]).map Text.bytes = names.map Text.bytes ++ [c.name.bytes] := by simp
  by_cases hnil : names = []
  · -- the first name
    have hzero : v.batch.i = 0 := by rw [h.count, hnil]; rfl
    have htext : (v.add delimiter c).batch.text delimiter =
        joined delimiter ((names ++ [c.name]).map Text.bytes) := by
      have hresult : v.batch.result.bytes = [] := by
        have := h.all (by rw [hnil]; decide) (by rw [hnil]; nofun)
        rw [Batch.text_eq h.arena, if_pos hzero, hnil] at this
        exact (List.append_eq_nil_iff.mp this).1
      rw [hpush, hsame (Or.inr hzero), text_push_first h.arena (by rw [hzero]), hresult, hnil]
      simp [joined]
    refine ⟨hcount, harena', hnamed, fun _ _ => htext, fun hlong => ?_⟩
    rw [hnil] at hlong
    simp at hlong
  have hne : v.batch.i ≠ 0 := by
    rw [h.count]
    exact fun h' => hnil (List.length_eq_zero_iff.mp h')
  have htail : (names ++ [c.name]).tail = names.tail ++ [c.name] := List.tail_append_of_ne_nil hnil
  have hconcat := @joined_concat delimiter (names.map Text.bytes) (by simpa using hnil) c.name.bytes
  rw [← hmap] at hconcat
  by_cases hfull : v.batch.i % 16 = 0
  · -- a full batch: the delimiter before the name is missing
    have hmany : 16 ≤ names.length := by
      rw [h.count] at hfull hne
      omega
    refine ⟨hcount, harena', hnamed, fun hshort => by omega, fun _ => ?_⟩
    rw [hpush, text_push_first harena (by rw [hi]; exact hfull), hconcat]
    simp only [List.length_append]
    omega
  · -- inside a batch
    have htext : (v.add delimiter c).batch.text delimiter = v.batch.text delimiter ++
        (if c.name.arena then delimiter ++ c.name.bytes else []) := by
      rw [hpush, hsame (Or.inl hfull), text_push_within h.arena hfull fun hlost => ⟨hdelimiter, hname hlost⟩]
    refine ⟨hcount, harena', hnamed, fun hshort hall => ?_, fun hshort => ?_⟩
    · have hlast : c.name.arena = true := hall c.name (by rw [htail]; simp)
      have hbefore : ∀ name ∈ names.tail, name.arena = true := fun name hmem =>
        hall name (by rw [htail]; exact List.mem_append_left _ hmem)
      rw [htext, hlast, if_pos rfl, h.all (by omega) hbefore, hconcat]
    · rw [htext, hconcat]
      by_cases hlast : c.name.arena = true
      · -- the name is there, and the text before it is too short
        have hbefore : 16 < names.length ∨ ∃ name ∈ names.tail, name.arena = false := by
          rcases hshort with hlong | ⟨name, hmem, hfalse⟩
          · left
            rw [h.count] at hfull
            omega
          · rw [htail, List.mem_append, List.mem_singleton] at hmem
            rcases hmem with hmem | rfl
            · exact Or.inr ⟨name, hmem, hfalse⟩
            · rw [hlast] at hfalse
              cases hfalse
        have := h.short hbefore
        rw [if_pos hlast]
        simp only [List.length_append]
        omega
      · -- the name is lost
        rw [if_neg hlast, List.append_nil]
        simp only [List.length_append]
        omega

end Texts

/-! ## The whole loop -/

section Loop

variable {fuel depth : Nat} {next : Dem DemangleInfo} {isClass isParamInit : Bool}
  {d d' : Demangler} {names : List Text}

/-- A round is a round of the loop. -/
theorem nestedStep_of_readRound {r : Round} (v : Nested)
    (h : readRound fuel next isClass isParamInit d = some (r, d')) :
    nestedStep fuel next isClass isParamInit v d = some (v.after d.scopeResolution r, d') := by
  rw [nestedStep_eq, bind_of_eq h]
  rfl

end Loop

/-! ## Reading a path -/

/-- An operator with a counter behind a first component is lost, and so is its delimiter; with
    parameters it is there. -/
example :
    (demangleNestedDecls 40 (demangleNextUnit 40) false false
      (Demangler.init (ascii "1aplK_E") false (ascii "::"))).map (fun r => r.1.demangled) =
        some (ascii "a") ∧
    (demangleNestedDecls 40 (demangleNextUnit 40) false false
      (Demangler.init (ascii "1aplK_HlE") false (ascii "::"))).map (fun r => r.1.demangled) =
        some (ascii "a::+") := by
  decide +kernel

end CangjieRuntime.Demangle
