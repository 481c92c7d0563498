/-
  The two type parsers agree, and lists of types.

  The scanner of the decompressor and the demangler stop at the same place behind a type
  (`types_agree`), and so do their loops over generic arguments, unless the last two of them are
  letters that together name an operator and parameters follow (`genericTypes_end_iff`).  The loop
  over parameters buffers 16 names and joins them all the same (`demangleArgTypes_joins`).
-/
import Mathlib.Data.List.Forall2
import CangjieRuntime.Demangle.TypeUnits

set_option linter.unusedVariables false

namespace CangjieRuntime.Demangle

open CangjieRuntime.Computation

/-! ## One type -/

/-- The demangler in a text, before `xs`.  It is in a valid state, and the cursor is between `pre`
    and `xs`; nothing is said of the trace. -/
def Before (pre xs scopeRes : RtString) (d : Demangler) : Prop :=
  d.mangledName = pre ++ xs ∧ d.scopeResolution = scopeRes ∧ d.isValid = true ∧
    d.currentIndex = pre.length

section Before

variable {pre xs ys scopeRes : RtString} {d d' : Demangler}

/-- What stands behind a prefix is the rest at its length. -/
theorem rest_append (pre xs : RtString) : Rest (pre ++ xs) pre.length xs :=
  ⟨by rw [List.length_append]; omega, List.drop_left⟩

/-- What the demangler is before is ahead of it. -/
theorem Before.ahead (h : Before pre xs scopeRes d) : Ahead (pre ++ xs) scopeRes xs d := by
  obtain ⟨hname, hscope, hvalid, hindex⟩ := h
  refine ⟨hname, hscope, hvalid, ?_⟩
  rw [hindex]
  exact rest_append pre xs

/-- Where a demangler is that has read `xs`. -/
theorem Before.index (h : Before pre (xs ++ ys) scopeRes d)
    (h' : Ahead (pre ++ (xs ++ ys)) scopeRes ys d') :
    d'.currentIndex = pre.length + xs.length := by
  have hlen := h'.rest.length
  rw [List.length_append, List.length_append] at hlen
  omega

end Before

/-- **The scanner and the demangler accept the same types**: both stop right behind a type that does
    not end with a VArray, whatever follows it.  By induction over the type, with the text behind it
    arbitrary; a VArray is apart because it takes all the types that follow, so that only the end of
    a list stops it. -/
theorem types_agree (t : Ty) (hwf : t.WellFormed) (hacc : t.Accepted)
    (hv : t.endsWithVArray = false) (pre s : RtString) :
    ∀ fuel, t.mangle.length < fuel →
      (∀ treeIdMap, forwardType treeIdMap fuel pre.length (pre ++ (t.mangle ++ s)) =
        some (pre.length + t.mangle.length, pre ++ (t.mangle ++ s))) ∧
      ∀ scopeRes d, Before pre (t.mangle ++ s) scopeRes d → ∃ di d',
        demangleNextUnit fuel d = some (di, d') ∧
        d'.currentIndex = pre.length + t.mangle.length ∧ d'.isValid = true := by
  intro fuel hfuel
  constructor
  · intro treeIdMap
    exact forwardType_mangle treeIdMap t hwf hacc fuel hfuel _ _ _ (rest_append pre _)
  · intro scopeRes d hd
    obtain ⟨d', heq, hahead⟩ := demangleNextUnit_mangle scopeRes t hwf hacc fuel 0 s [] []
      (fun hends => absurd (hv.symm.trans hends) Bool.false_ne_true) hfuel _ d hd.ahead
    rw [hv] at hahead
    exact ⟨_, d', heq, hd.index hahead, hahead.valid⟩

/-- A tuple of a function from `Int64` to a `Map<Int64, T0>` of its own, in a list. -/
def sampleType : Ty :=
  .tuple (ascii "0") [.function false
    (.genericDecl 67 .none ⟨ascii "3", ascii "Map"⟩ [.primitive 108, .generic []]) [.primitive 108]]

/-- The statement on a type with most constructors in it. -/
theorem types_agree_sampleType : ∃ di d',
    demangleNextUnit 40 (Demangler.init (sampleType.mangle ++ ascii "lE") false (ascii "::")) =
      some (di, d') ∧ d'.currentIndex = 0 + sampleType.mangle.length ∧ d'.isValid = true := by
  refine (types_agree sampleType ?_ ?_ rfl [] (ascii "lE") 40 (by decide)).2 (ascii "::") _
    ⟨rfl, rfl, rfl, rfl⟩
  · have hname : Name.WellFormed ⟨ascii "3", ascii "Map"⟩ :=
      ⟨forall_chars (by decide), ⟨51, [], rfl, by decide⟩, ⟨77, _, rfl, by decide⟩, by decide⟩
    have hnil : IsNumber [] := nofun
    have hletter : (108 : UInt8) ∈ ascii "nucbfdasilqhtjmr" := by decide
    refine ⟨?_, List.cons_ne_nil _ _, ?_, ⟨⟨?_, trivial, hname, hletter, hnil, trivial⟩, hletter,
      trivial⟩, trivial⟩
    · exact forall_chars (by decide)
    · decide +kernel
    · decide
  · have hshort : Name.Short ⟨ascii "3", ascii "Map"⟩ := by
      unfold Name.Short
      decide
    exact ⟨⟨⟨trivial, hshort, by decide, trivial, trivial, trivial⟩, by decide, trivial, trivial⟩,
      trivial⟩

/-- A class with the name `<>`. -/
def angleClass : Ty := .decl 67 .none ⟨ascii "2", ascii "<>"⟩

/-- The scanner stops behind the class, and the demangler rejects it. -/
theorem types_disagree_angleClass : angleClass.WellFormed ∧
    forwardType [] 10 0 angleClass.mangle = some (angleClass.mangle.length, angleClass.mangle) ∧
    ∀ di d', demangleNextUnit 10 (Demangler.init angleClass.mangle false (ascii "::")) =
      some (di, d') → d'.isValid = false := by
  refine ⟨⟨by decide, trivial, forall_chars (by decide), ⟨50, [], rfl, by decide⟩,
    ⟨60, _, rfl, by decide⟩, by decide⟩, by decide +kernel, fun di d' h => ?_⟩
  have hrun : (demangleNextUnit 10 (Demangler.init angleClass.mangle false (ascii "::"))).map
      (fun r => r.2.isValid) = some false := by decide +kernel
  rw [h] at hrun
  exact Option.some.inj hrun

/-! ## Parameters -/

/-- The name of a type, as the demangler renders it on its own. -/
def Renders (scopeRes : RtString) (t : Ty) (name : RtString) : Prop :=
  ∀ fuel, t.mangle.length < fuel → ∃ di d',
    demangleNextUnit fuel (Demangler.init t.mangle false scopeRes) = some (di, d') ∧
      d'.isValid = true ∧ d'.currentIndex = t.mangle.length ∧ di.getFullName scopeRes = name

/-- The name that the demangler gives to an accepted type is the one that the type renders to. -/
theorem renders_info (scopeRes : RtString) {t : Ty} (hwf : t.WellFormed) (hacc : t.Accepted) :
    Renders scopeRes t ((t.info scopeRes []).getFullName scopeRes) := by
  intro fuel hfuel
  have hbefore : Before [] (t.mangle ++ []) scopeRes (Demangler.init t.mangle false scopeRes) :=
    ⟨by rw [List.append_nil]; rfl, rfl, rfl, rfl⟩
  have hnone : ListAhead scopeRes [] [] [] 0 :=
    @listAhead_types scopeRes [] [] trivial (Or.inl rfl) fun fuel hfuel => .nil []
  obtain ⟨d', heq, hahead⟩ := demangleNextUnit_mangle scopeRes t hwf hacc fuel 0 [] [] []
    (fun _ => hnone) hfuel _ _ hbefore.ahead
  rw [ite_self] at hahead
  have hindex := hbefore.index hahead
  rw [List.length_nil, Nat.zero_add] at hindex
  exact ⟨_, d', heq, hahead.valid, hindex, rfl⟩

/-- A list without VArrays at its end needs nothing of what follows. -/
theorem listEnd_of_noVArray {ts : List Ty} {ys : RtString}
    (hv : ∀ t ∈ ts, t.endsWithVArray = false) : ∀ t ∈ ts, t.endsWithVArray = true → ListEnd ys :=
  fun t ht hends => absurd ((hv t ht).symm.trans hends) Bool.false_ne_true

/-- What follows a type in its list is only for a VArray. -/
theorem Ty.info_after (scopeRes : RtString) (after : List RtString) : ∀ t : Ty,
    t.endsWithVArray = false → t.info scopeRes after = t.info scopeRes []
  | .primitive _, h => rfl
  | .float16, h => rfl
  | .cstring, h => rfl
  | .generic _, h => rfl
  | .pointer t, h => by rw [Ty.info, Ty.info, Ty.info_after scopeRes after t h]
  | .array _ t, h => by rw [Ty.info, Ty.info, Ty.info_after scopeRes after t h]
  | .vArray _ _, h => by cases h
  | .tuple _ _, h => rfl
  | .function _ _ _, h => rfl
  | .decl _ _ _, h => rfl
  | .genericDecl _ _ _ _, h => rfl

/-- The same for the names of a list. -/
theorem renders_names (scopeRes : RtString) {ts : List Ty} (hwf : Ty.AllWellFormed ts)
    (hacc : Ty.AllAccepted ts) (hv : ∀ t ∈ ts, t.endsWithVArray = false) :
    List.Forall₂ (Renders scopeRes) ts (Ty.names scopeRes ts) := by
  induction ts with
  | nil => exact .nil
  | cons t ts ih =>
    have ht := hv t List.mem_cons_self
    have hleft : t.left (Ty.names scopeRes ts) = Ty.names scopeRes ts := by
      rw [Ty.left, ht]
      rfl
    rw [Ty.names, hleft, Ty.info_after scopeRes _ t ht]
    exact .cons (renders_info scopeRes hwf.1 hacc.1)
      (ih hwf.2 hacc.2 fun t' ht' => hv t' (List.mem_cons_of_mem t ht'))

/-- What the batches keep: everything is in the arena, and the text is that of the names, joined. -/
structure Batched (delimiter : RtString) (names : List RtString) (b : Batch) : Prop where
  count : b.i = names.length
  arena : b.result.arena = true
  slots : ∀ k < 16, (rtStringSlotGet b.argsArr k).arena = true
  text : b.text delimiter = joined delimiter names

/-- The slots are empty at first, and their texts have the arena. -/
theorem rtStringSlotGet_start {k : Nat} (hk : k < 16) :
    (rtStringSlotGet rtStringSlots k).arena = true := by
  rw [rtStringSlotGet, if_neg (Nat.not_le.mpr hk)]
  rfl

/-- A name in the arena keeps the slots there. -/
theorem push_arena {b : Batch} (h : ∀ k < 16, (rtStringSlotGet b.argsArr k).arena = true)
    (name : RtString) :
    ∀ k < 16, (rtStringSlotGet (b.push ⟨name, true⟩).argsArr k).arena = true :=
  rtStringSlotGet_set (p := fun text => text.arena = true) h rfl

/-- The flush of a full batch puts a delimiter after its last name. -/
theorem Batched.flush {delimiter : RtString} {names : List RtString} {b : Batch}
    (h : Batched delimiter names b) (hfull : b.i % 16 = 0) (hne : b.i ≠ 0) :
    flushSlots b.argsArr delimiter b.result = ⟨b.text delimiter ++ delimiter, true⟩ := by
  have hrem : b.remainingLength = 15 + 1 := by
    rw [Batch.remainingLength]
    omega
  have hresult : b.result = ⟨b.result.bytes, true⟩ := by rw [← h.arena]
  rw [Batch.text_eq h.arena, if_neg hne, hrem]
  conv_lhs => rw [hresult]
  exact foldl_flush (fun k hk => h.slots k (Nat.lt_of_le_of_lt hk (by decide))) b.result.bytes

/-- One more name, also when a batch is full. -/
theorem Batched.step {delimiter : RtString} {names : List RtString} {v : Batch × Bool}
    (h : Batched delimiter names v.1) (name : RtString) :
    Batched delimiter (names ++ [name]) (argStep delimiter v name).1 := by
  have hcount : (argStep delimiter v name).1.i = (names ++ [name]).length := by
    rw [argStep_count, h.count, List.length_append]
    rfl
  have htext := h.text
  by_cases hzero : v.1.i = 0
  · -- the first name
    have hnil : names = [] := List.length_eq_zero_iff.mp (h.count.symm.trans hzero)
    rw [hnil, Batch.text_eq h.arena, if_pos hzero] at htext
    have hresult : v.1.result.bytes = [] := (List.append_eq_nil_iff.mp htext).1
    have hstep : argStep delimiter v name = (v.1.push ⟨name, true⟩, v.2) :=
      if_neg fun hc => hc.2 hzero
    rw [hstep] at hcount ⊢
    refine ⟨hcount, h.arena, push_arena h.slots name, ?_⟩
    rw [text_push_first h.arena (by rw [hzero]), hresult, hnil]
    simp [joined]
  · have hne : names ≠ [] := fun hnil => hzero (by rw [h.count, hnil]; rfl)
    by_cases hfull : v.1.i % 16 = 0
    · -- a full batch is moved to the result
      have hstep : argStep delimiter v name = ((⟨v.1.i, ⟨v.1.text delimiter ++ delimiter, true⟩,
          rtStringSlots⟩ : Batch).push ⟨name, true⟩, true) := by
        rw [argStep, if_pos ⟨hfull, hzero⟩, h.flush hfull hzero]
      rw [hstep] at hcount ⊢
      refine ⟨hcount, rfl, push_arena (fun k hk => rtStringSlotGet_start hk) name, ?_⟩
      rw [joined_concat hne, ← htext, ← List.append_assoc]
      exact @text_push_first delimiter
        ⟨v.1.i, ⟨v.1.text delimiter ++ delimiter, true⟩, rtStringSlots⟩ rfl hfull ⟨name, true⟩
    · have hstep : argStep delimiter v name = (v.1.push ⟨name, true⟩, v.2) :=
        if_neg fun hc => hfull hc.1
      rw [hstep] at hcount ⊢
      refine ⟨hcount, h.arena, push_arena h.slots name, ?_⟩
      rw [joined_concat hne, ← htext, text_push_within h.arena hfull (fun hlost => by cases hlost),
        if_pos rfl]

/-- The 16 slots are invisible. -/
theorem argsText_eq (delimiter : RtString) (names : List RtString) :
    argsText delimiter names = joined delimiter names := by
  have hfold : ∀ (names before : List RtString) (v : Batch × Bool), Batched delimiter before v.1 →
      Batched delimiter (before ++ names) (names.foldl (argStep delimiter) v).1 := by
    intro names
    induction names with
    | nil =>
      intro before v h
      rw [List.append_nil]
      exact h
    | cons name names ih =>
      intro before v h
      rw [List.foldl_cons, List.append_cons]
      exact ih (before ++ [name]) _ (h.step name)
  have hall := hfold names [] (Batch.start, false)
    ⟨rfl, rfl, fun k hk => rtStringSlotGet_start hk, rfl⟩
  rw [List.nil_append] at hall
  rw [argsText, ← hall.text, Batch.text]
  dsimp only
  generalize names.foldl (argStep delimiter) (Batch.start, false) = v
  by_cases hzero : v.1.i = 0
  · rw [if_pos hzero, if_pos hzero]
    exact congrArg Text.bytes (rtConcat_nil v.1.result).symm
  · rw [if_neg hzero, if_neg hzero, if_neg]
    rintro ⟨hnone, -⟩
    exact absurd hnone (Nat.succ_ne_zero _)

/-- **Parameters are joined**, and the demangler stops behind the last one.  A full batch of names
    is flushed with the delimiter behind it, so that the names of the next batch join on; there is
    one delimiter between neighbours for every number of parameters. -/
theorem demangleArgTypes_joins (scopeRes delimiter : RtString) (ts : List Ty)
    (hwf : Ty.AllWellFormed ts) (hacc : Ty.AllAccepted ts)
    (hvArray : ∀ t ∈ ts, t.endsWithVArray = false) (hcount : ts.length ≤ 4294967295) :
    ∃ names, List.Forall₂ (Renders scopeRes) ts names ∧
      ∀ pre more d fuel, more = [] ∨ (∃ rest, more = 69 :: rest) →
        Before pre (Ty.mangleAll ts ++ more) scopeRes d → (Ty.mangleAll ts).length < fuel →
        ∃ d', demangleArgTypes fuel (demangleNextUnit fuel) delimiter d =
            some (joined delimiter names, d') ∧
          d'.currentIndex = pre.length + (Ty.mangleAll ts).length ∧ d'.isValid = true := by
  refine ⟨Ty.names scopeRes ts, renders_names scopeRes hwf hacc hvArray,
    fun pre more d fuel hmore hd hfuel => ?_⟩
  have hlen := Ty.length_le_mangleAll hwf
  have hnames := Ty.length_names scopeRes ts
  have hv : ∀ rest, more ≠ 118 :: rest := by
    rintro rest rfl
    rcases hmore with h | ⟨rest', h⟩
    · cases h
    · cases h
  have hchain := demangleNextUnit_mangleAll scopeRes ts hwf hacc more (fun _ _ _ => hmore)
    (operatorless_end hwf hmore) fuel hfuel
  obtain ⟨d', heq, hahead⟩ :
      Gives (pre ++ (Ty.mangleAll ts ++ more)) scopeRes
        (demangleArgTypes fuel (demangleNextUnit fuel) delimiter) d _ more :=
    hchain.argTypes delimiter (by omega) (by omega) hv
      (fun d hd _ => isNotEnd_false hmore hd) hd.ahead
  rw [argsText_eq] at heq
  exact ⟨d', heq, hd.index hahead, hahead.valid⟩

/-- Letters are well-formed types. -/
theorem replicate_letter (n : Nat) : Ty.AllWellFormed (List.replicate n (.primitive 108)) ∧
    Ty.AllAccepted (List.replicate n (.primitive 108)) ∧
    (∀ t ∈ List.replicate n (Ty.primitive 108), t.endsWithVArray = false) ∧
    (Ty.mangleAll (List.replicate n (.primitive 108))).length = n := by
  have hends : ∀ t ∈ List.replicate n (Ty.primitive 108), t.endsWithVArray = false := by
    intro t ht
    rw [List.eq_of_mem_replicate ht]
    rfl
  refine (fun h => ⟨h.1, h.2.1, hends, h.2.2⟩ : _ ∧ _ ∧ _ → _) ?_
  clear hends
  induction n with
  | zero => exact ⟨trivial, trivial, rfl⟩
  | succ n ih =>
    obtain ⟨hwf, hacc, hlen⟩ := ih
    refine ⟨⟨show (108 : UInt8) ∈ ascii "nucbfdasilqhtjmr" by decide, hwf⟩, ⟨trivial, hacc⟩, ?_⟩
    rw [List.replicate_succ, Ty.mangleAll, List.length_append, hlen, Nat.add_comm]
    rfl

/-- 17 parameters, one more than there are slots. -/
theorem demangleArgTypes_joins_seventeen : ∃ names d', demangleArgTypes 20 (demangleNextUnit 20)
    (ascii ", ") (Demangler.init (Ty.mangleAll (List.replicate 17 (.primitive 108)) ++ ascii "E")
      false (ascii "::")) = some (joined (ascii ", ") names, d') ∧ names.length = 17 := by
  obtain ⟨hwf, hacc, hv, hlen⟩ := replicate_letter 17
  obtain ⟨names, hnames, hjoins⟩ :=
    demangleArgTypes_joins (ascii "::") (ascii ", ") _ hwf hacc hv (by decide)
  obtain ⟨d', heq, -⟩ := hjoins [] (ascii "E")
    (Demangler.init (Ty.mangleAll (List.replicate 17 (.primitive 108)) ++ ascii "E") false
      (ascii "::")) 20 (Or.inr ⟨[], rfl⟩) ⟨rfl, rfl, rfl, rfl⟩ (by rw [hlen]; decide)
  exact ⟨names, d', heq, hnames.length_eq.symm⟩

/-- The loop counts 4294967295 parameters, and stops in front of the next one. -/
theorem demangleArgTypes_limit (scopeRes delimiter : RtString) {n fuel : Nat}
    (hn : n = 4294967295) (hfuel : n + 1 < fuel) : ∃ names d',
    demangleArgTypes fuel (demangleNextUnit fuel) delimiter
      (Demangler.init (Ty.mangleAll (List.replicate (n + 1) (.primitive 108)) ++ ascii "E") false
        scopeRes) = some (joined delimiter names, d') ∧ d'.currentIndex = n := by
  obtain ⟨hwf, hacc, hv, hlen⟩ := replicate_letter n
  have hlist : (List.replicate n (Ty.primitive 108)).length = n := List.length_replicate
  have hsplit : Ty.mangleAll (List.replicate (n + 1) (.primitive 108)) ++ ascii "E" =
      Ty.mangleAll (List.replicate n (.primitive 108)) ++ (108 :: ascii "E") := by
    rw [List.replicate_succ', Ty.mangleAll_append, List.append_assoc]
    rfl
  rw [hsplit]
  have hbefore : Before [] (Ty.mangleAll (List.replicate n (.primitive 108)) ++
      (108 :: ascii "E")) scopeRes (Demangler.init (Ty.mangleAll
        (List.replicate n (.primitive 108)) ++ (108 :: ascii "E")) false scopeRes) :=
    ⟨rfl, rfl, rfl, rfl⟩
  have hnames := (renders_names scopeRes hwf hacc hv).length_eq
  have hone : Ty.AllWellFormed [.primitive 108] := (replicate_letter 1).1
  have hop : Operatorless scopeRes (List.replicate n (.primitive 108)) (108 :: ascii "E") :=
    @Operatorless.append scopeRes (ascii "E") _ [.primitive 108]
      (operatorless_end (Ty.allWellFormed_append hwf hone) (Or.inr ⟨[], rfl⟩))
  have hchain := demangleNextUnit_mangleAll scopeRes _ hwf hacc (108 :: ascii "E")
    (listEnd_of_noVArray hv) hop fuel (by omega)
  have hnotV : ∀ rest, 108 :: ascii "E" ≠ 118 :: rest := fun rest hc => by cases hc
  obtain ⟨d', heq, hahead⟩ : Gives _ scopeRes
      (demangleArgTypes fuel (demangleNextUnit fuel) delimiter) _ _ (108 :: ascii "E") :=
    hchain.argTypes delimiter (by omega) (by omega) hnotV (fun d hd hlt => by omega) hbefore.ahead
  rw [argsText_eq] at heq
  have hindex := hbefore.index hahead
  rw [hlen, List.length_nil, Nat.zero_add] at hindex
  exact ⟨_, d', heq, hindex⟩

/-- Of 4294967296 parameters one is left over. -/
theorem demangleArgTypes_left_over : ∃ names d',
    demangleArgTypes 4294967297 (demangleNextUnit 4294967297) (ascii ", ")
      (Demangler.init (Ty.mangleAll (List.replicate (4294967295 + 1) (.primitive 108)) ++ ascii "E")
        false (ascii "::")) = some (joined (ascii ", ") names, d') ∧
      d'.currentIndex ≠ (Ty.mangleAll (List.replicate (4294967295 + 1) (.primitive 108))).length := by
  obtain ⟨names, d', heq, hindex⟩ :=
    demangleArgTypes_limit (ascii "::") (ascii ", ") rfl (show 4294967295 + 1 < 4294967297 by decide)
  refine ⟨names, d', heq, ?_⟩
  rw [hindex, (replicate_letter (4294967295 + 1)).2.2.2]
  decide

/-! ## Generic arguments -/

/-- The scanner and the demangler end a list of generic arguments where it ends, and the demangler has
    all their names. -/
def GenericTypesEnd (pre : RtString) (ts : List Ty) (more scopeRes : RtString) : Prop :=
  (∀ treeIdMap fuel, (Ty.mangleAll ts).length < fuel →
    forwardTypes fuel (forwardType treeIdMap fuel) pre.length (pre ++ (Ty.mangleAll ts ++ more)) =
      some (pre.length + (Ty.mangleAll ts).length, pre ++ (Ty.mangleAll ts ++ more))) ∧
  ∃ names, List.Forall₂ (Renders scopeRes) ts names ∧
    ∀ d fuel, Before pre (Ty.mangleAll ts ++ more) scopeRes d → (Ty.mangleAll ts).length < fuel →
      ∃ di d', demangleGenericTypes fuel (demangleNextUnit fuel) d = some (di, d') ∧
        di.args = joined (ascii ",") names ∧
        d'.currentIndex = pre.length + (Ty.mangleAll ts).length ∧ d'.isValid = true

/-- The scanner takes an `H` for no type. -/
theorem forwardTypesStep_params {treeIdMap : TreeIdMap} {fuel idx : Nat} {text rest : RtString}
    (h : Rest text idx (72 :: rest)) :
    forwardTypesStep (forwardType treeIdMap (fuel + 1)) idx text = some (.inr idx, text) := by
  have hscan : forwardType treeIdMap (fuel + 1) idx text = some (idx, text) := by
    rw [forwardType, forwardTypeAt_eq h]
    rfl
  have hguard : idx < text.length ∧ text.byte idx ≠ 69 := by
    obtain ⟨hlt, hbyte⟩ := h.byte
    rw [hbyte]
    exact ⟨hlt, by decide⟩
  rw [forwardTypesStep, get_bind, if_neg (not_not.mpr hguard), bind_of_eq hscan, if_pos rfl]
  rfl

/-- Where a list of types ends for the scanner. -/
theorem forwardTypes_stops (treeIdMap : TreeIdMap) {pre more : RtString} {ts : List Ty} {fuel : Nat}
    (hwf : Ty.AllWellFormed ts) (hacc : Ty.AllAccepted ts)
    (hmore : (∃ rest, more = 69 :: rest) ∨ ∃ rest, more = 72 :: rest)
    (hfuel : (Ty.mangleAll ts).length < fuel) :
    forwardTypes fuel (forwardType treeIdMap fuel) pre.length (pre ++ (Ty.mangleAll ts ++ more)) =
      some (pre.length + (Ty.mangleAll ts).length, pre ++ (Ty.mangleAll ts ++ more)) := by
  have hlen := Ty.length_le_mangleAll hwf
  obtain ⟨fuel, rfl⟩ := Nat.exists_eq_succ_of_ne_zero (Nat.ne_of_gt (Nat.zero_lt_of_lt hfuel))
  refine forwardTypes_eq (fun idx h => ?_) ts (fuel + 1) pre.length
    (forwardType_mangleAll treeIdMap ts hwf hacc (fuel + 1) hfuel) (by omega) (rest_append pre _)
  rcases hmore with ⟨rest, rfl⟩ | ⟨rest, rfl⟩
  · exact forwardTypesStep_end h
  · exact forwardTypesStep_params h

/-- In front of two letters that name an operator, and of parameters, the loop of the demangler
    stops. -/
theorem demangleGenericTypes_stops (scopeRes : RtString) {pre rest : RtString} {before : List Ty}
    {a b : Ty} {d : Demangler} {fuel : Nat} (hbefore : Ty.AllWellFormed before)
    (hacc : Ty.AllAccepted before) (hv : ∀ t ∈ before, t.endsWithVArray = false)
    (ha : a.WellFormed) (hb : b.WellFormed)
    (hop : getOperatorNameMap (a.mangle ++ b.mangle) ≠ [])
    (hd : Before pre (Ty.mangleAll before ++ (Ty.mangleAll [a, b] ++ 72 :: rest)) scopeRes d)
    (hfuel : (Ty.mangleAll before).length < fuel) :
    ∃ di d', demangleGenericTypes fuel (demangleNextUnit fuel) d = some (di, d') ∧
      d'.currentIndex = pre.length + (Ty.mangleAll before).length := by
  have hlen := Ty.length_le_mangleAll hbefore
  have hnames := Ty.length_names scopeRes before
  have hstop : ∀ d, Ahead (pre ++ (Ty.mangleAll before ++ (Ty.mangleAll [a, b] ++ 72 :: rest)))
      scopeRes (Ty.mangleAll [a, b] ++ 72 :: rest) d → ¬ GenericGuard d := by
    intro d h hguard
    rw [Ty.mangleAll, List.append_assoc] at h
    have hname := @isOperatorName_types _ scopeRes d a [b] _ ha ⟨hb, trivial⟩ (.params rest) h
    exact hguard.2.2.2 (hname.mpr ⟨⟨rest, rfl⟩, b, rfl, hop⟩)
  -- a type with two more types behind it is no operator
  have hop' : Operatorless scopeRes before (Ty.mangleAll [a, b] ++ 72 :: rest) := by
    rintro before' t after rfl mangled d h hname
    have hsuffix := (Ty.allWellFormed_of_append hbefore).2
    rw [← List.append_assoc (Ty.mangleAll after), ← Ty.mangleAll_append] at h
    have hboth : Ty.AllWellFormed [a, b] := ⟨ha, hb, trivial⟩
    obtain ⟨-, b', hb', -⟩ := (isOperatorName_types hsuffix.1
      (Ty.allWellFormed_append hsuffix.2 hboth) (.params rest) h).mp hname
    have hcount := congrArg List.length hb'
    simp at hcount
  have hchain := demangleNextUnit_mangleAll scopeRes before hbefore hacc _
    (listEnd_of_noVArray hv) hop' fuel hfuel
  obtain ⟨d', heq, hahead⟩ : Gives _ scopeRes
      (demangleGenericTypes fuel (demangleNextUnit fuel)) d _ (Ty.mangleAll [a, b] ++ 72 :: rest) :=
    hchain.genericTypes hstop (by omega) hd.ahead
  exact ⟨_, d', heq, hd.index hahead⟩

/-- The first part of an accepted list is accepted. -/
theorem Ty.allAccepted_of_append {ts ts' : List Ty} (h : Ty.AllAccepted (ts ++ ts')) :
    Ty.AllAccepted ts := by
  induction ts with
  | nil => exact trivial
  | cons t ts ih => exact ⟨h.1, ih h.2⟩

/-- **Generic arguments end where they end**, unless the last two of them are letters that together
    name an operator and parameters follow.  The demangler takes two letters with an `H`, an `I` or
    a `K` behind them for the name of an operator, and looks for one before each argument; when an
    `E` is behind the list it finds none. -/
theorem genericTypes_end_iff (pre scopeRes more : RtString) (ts : List Ty)
    (hwf : Ty.AllWellFormed ts) (hacc : Ty.AllAccepted ts)
    (hv : ∀ t ∈ ts, t.endsWithVArray = false)
    (hmore : (∃ rest, more = 69 :: rest) ∨ ∃ rest, more = 72 :: rest) :
    GenericTypesEnd pre ts more scopeRes ↔ ¬ ((∃ rest, more = 72 :: rest) ∧ EndsAsOperator ts) := by
  constructor
  · -- the last two types look like an operator, and the demangler stops in front of them
    rintro ⟨-, names, -, hends⟩ ⟨⟨rest, rfl⟩, before, a, b, rfl, hop⟩
    have hall := Ty.allWellFormed_of_append hwf
    have hsplit : Ty.mangleAll (before ++ [a, b]) ++ 72 :: rest =
        Ty.mangleAll before ++ (Ty.mangleAll [a, b] ++ 72 :: rest) := by
      rw [Ty.mangleAll_append, List.append_assoc]
    let d : Demangler :=
      { Demangler.init (pre ++ (Ty.mangleAll (before ++ [a, b]) ++ 72 :: rest)) false scopeRes with
        currentIndex := pre.length }
    obtain ⟨di, d', heq, -, hindex, -⟩ := hends d _ ⟨rfl, rfl, rfl, rfl⟩ (Nat.lt_succ_self _)
    have hd : Before pre (Ty.mangleAll before ++ (Ty.mangleAll [a, b] ++ 72 :: rest)) scopeRes d :=
      ⟨congrArg (pre ++ ·) hsplit, rfl, rfl, rfl⟩
    have hlonger : (Ty.mangleAll before).length < (Ty.mangleAll (before ++ [a, b])).length := by
      obtain ⟨ch, tail, hstart, -⟩ := Ty.start hall.2.1
      rw [Ty.mangleAll_append, List.length_append, Ty.mangleAll, List.length_append, hstart,
        List.length_cons]
      omega
    obtain ⟨di', d'', heq', hindex'⟩ := demangleGenericTypes_stops scopeRes hall.1
      (Ty.allAccepted_of_append hacc) (fun t ht => hv t (List.mem_append_left _ ht)) hall.2.1
      hall.2.2.1 hop hd (Nat.lt_succ_of_lt hlonger)
    rw [heq] at heq'
    cases heq'
    omega
  · -- nothing looks like an operator, and both read the whole list
    intro hop
    refine ⟨fun treeIdMap fuel hfuel => forwardTypes_stops treeIdMap hwf hacc hmore hfuel,
      Ty.names scopeRes ts, renders_names scopeRes hwf hacc hv, fun d fuel hd hfuel => ?_⟩
    have hlen := Ty.length_le_mangleAll hwf
    have hnames := Ty.length_names scopeRes ts
    have hterminator : Terminator more := by
      rcases hmore with ⟨rest, rfl⟩ | ⟨rest, rfl⟩
      · exact .close rest
      · exact .params rest
    have hchain := demangleNextUnit_mangleAll scopeRes ts hwf hacc more
      (listEnd_of_noVArray hv)
      (operatorless_types hwf hterminator hop) fuel hfuel
    obtain ⟨d', heq, hahead⟩ : Gives _ scopeRes
        (demangleGenericTypes fuel (demangleNextUnit fuel)) d _ more :=
      hchain.genericTypes (fun d hd => hterminator.stops hd) (by omega) hd.ahead
    exact ⟨_, d', heq, rfl, hd.index hahead, hahead.valid⟩

/-- `Int64` and `UInt16`, in front of an `E`. -/
theorem genericTypes_end_close :
    GenericTypesEnd [] [.primitive 108, .primitive 116] (ascii "E") (ascii "::") := by
  have hletters : (108 : UInt8) ∈ ascii "nucbfdasilqhtjmr" ∧
      (116 : UInt8) ∈ ascii "nucbfdasilqhtjmr" := by decide
  have hv : ∀ t ∈ [Ty.primitive 108, .primitive 116], t.endsWithVArray = false := by
    simp [Ty.endsWithVArray]
  refine (genericTypes_end_iff [] (ascii "::") (ascii "E") [.primitive 108, .primitive 116]
    ⟨hletters.1, hletters.2, trivial⟩ ⟨trivial, trivial, trivial⟩ hv (Or.inl ⟨[], rfl⟩)).mpr ?_
  rintro ⟨⟨rest, hc⟩, -⟩
  cases hc

/-- The same types in front of a parameter are taken for the operator `<`. -/
theorem genericTypes_end_operator : Ty.AllWellFormed [.primitive 108, .primitive 116] ∧
    ¬ GenericTypesEnd [] [.primitive 108, .primitive 116] (ascii "HlE") (ascii "::") := by
  have hletters : (108 : UInt8) ∈ ascii "nucbfdasilqhtjmr" ∧
      (116 : UInt8) ∈ ascii "nucbfdasilqhtjmr" := by decide
  refine ⟨⟨hletters.1, hletters.2, trivial⟩, ?_⟩
  rintro ⟨-, names, -, hends⟩
  obtain ⟨di, d', heq, -, hindex, -⟩ :=
    hends (Demangler.init (ascii "ltHlE") false (ascii "::")) 5 ⟨rfl, rfl, rfl, rfl⟩ (by decide)
  have hrun : (demangleGenericTypes 5 (demangleNextUnit 5)
      (Demangler.init (ascii "ltHlE") false (ascii "::"))).map (fun r => r.2.currentIndex) =
        some 0 := by decide +kernel
  rw [heq] at hrun
  rw [show d'.currentIndex = 0 from Option.some.inj hrun] at hindex
  exact absurd hindex (by decide)

end CangjieRuntime.Demangle
