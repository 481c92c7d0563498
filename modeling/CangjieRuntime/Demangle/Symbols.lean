/-
  The symbols of functions and types, from the C string to the text.

  `Function.mangle` is the symbol of a function without back-references: its package, the types and
  extensions that it is declared in, its name with its generic arguments, and its parameters.
  `CJRT_Demangle` gives `Function.text`, the declaration as a reader writes it
  (`cjrtDemangle_function`).  The parts of the path are read round by round (`Parts`), and the slots
  keep their names (`Keeps`); the types in them are read as in `Ty.info`.  A type by itself has a
  qualified name (`demangleQualifiedName_type`).
-/
import CangjieRuntime.Demangle.TypeUnits
import CangjieRuntime.Demangle.Api

set_option linter.unusedVariables false

namespace CangjieRuntime.Demangle

open CangjieRuntime.Computation

/-! ## Symbols -/

/-- What a function is declared in.  A named one has generic arguments of its own; an extension is
    given by the type that it extends. -/
inductive Scope
  /-- A type with generic arguments. -/
  | named (name : Name) (args : List Ty)
  /-- An extension of a type. -/
  | extension (t : Ty)

/-- The name of a function: an identifier or an operator. -/
inductive FunctionName
  | ident (name : Name)
  /-- Two letters. -/
  | operator (code : RtString)

/-- A function. -/
structure Function where
  pkg : Package
  scopes : List Scope
  name : FunctionName
  args : List Ty
  params : List Ty

/-- Generic arguments, up to what ends them. -/
def mangleArgs (args : List Ty) (more : RtString) : RtString :=
  if args.isEmpty then [] else 73 :: (Ty.mangleAll args ++ more)

/-- An extension is an `X` and the type it extends; an enclosing type ends its arguments with an
    `E`. -/
def Scope.mangle : Scope → RtString
  | .named name args => name.mangle ++ mangleArgs args [69]
  | .extension t => 88 :: t.mangle

/-- An operator is written by its code, without a length. -/
def FunctionName.mangle : FunctionName → RtString
  | .ident name => name.mangle
  | .operator code => code

/-- A `v` stands for no parameters. -/
def mangleParams (params : List Ty) : RtString :=
  if params.isEmpty then ascii "v" else Ty.mangleAll params

/-- The text of the path: the scopes, and the function. -/
def Function.path (f : Function) : RtString :=
  f.scopes.flatMap Scope.mangle ++
    (f.name.mangle ++ (mangleArgs f.args [] ++ 72 :: mangleParams f.params))

/-- The symbol. -/
def Function.mangle (f : Function) : RtString := ascii "_CN" ++ (f.pkg.mangle ++ f.path)

/-! ## Their limits -/

/-- The generic arguments of a scope end with an `E`. -/
def Scope.Accepted : Scope → Prop
  | .named name args => name.WellFormed ∧ name.Short ∧ Ty.AllWellFormed args ∧ Ty.AllAccepted args
  | .extension t => t.WellFormed ∧ t.Accepted ∧ t.endsWithVArray = false

/-- The name `<>` is the one that the demangler takes for something else. -/
def FunctionName.Accepted : FunctionName → Prop
  | .ident name => name.WellFormed ∧ name.Short ∧ name.bytes ≠ ascii "<>"
  | .operator code => code.length = 2 ∧ getOperatorNameMap code ≠ []

/-- The functions that the parser reads: all parts are accepted, the path fits into the slots, and
    no `E` ends the generic arguments of the function, so that they neither look like an operator
    nor leave a VArray open. -/
structure Function.Accepted (f : Function) : Prop where
  pkg : f.pkg.WellFormed ∧ f.pkg.Short
  scopes : ∀ scope ∈ f.scopes, scope.Accepted
  slots : f.scopes.length < MAX_ARGS_SIZE
  name : f.name.Accepted
  args : Ty.AllWellFormed f.args ∧ Ty.AllAccepted f.args
  closed : ¬ EndsAsOperator f.args ∧ ∀ t ∈ f.args, t.endsWithVArray = false
  params : Ty.AllWellFormed f.params ∧ Ty.AllAccepted f.params

/-- No other parser takes the symbol, and it is not compressed. -/
structure Plain (symbol : RtString) : Prop where
  compressed : DeCompression.isCompressed symbol = false
  typeInfo : endsWith symbol (ascii "$withoutTI") = false
  lambda : symbol.find (ascii "$lambda.") 0 = none
  wrapper : symbol.find (ascii "$real") 0 = none

/-! ## Texts -/

/-- A name in angle brackets stands for the name. -/
def bare (name : RtString) : RtString := ({ demangled := name } : DemangleInfo).getIdentifier

/-- The text of generic arguments. -/
def argsName (scopeRes : RtString) (args : List Ty) : RtString :=
  if args.isEmpty then []
  else rtFilterGeneric ((genericInfo (Ty.names scopeRes args)).getFullName scopeRes)

/-- What a component of the path shows: its bare name with the arguments, or the type that is
    extended. -/
def Scope.text (scopeRes : RtString) : Scope → RtString
  | .named name args => bare name.bytes ++ argsName scopeRes args
  | .extension t => (t.info scopeRes []).getIdentifier

/-- What the name of a function shows: an operator as its sign. -/
def FunctionName.bytes : FunctionName → RtString
  | .ident name => name.bytes
  | .operator code => getOperatorNameMap code

/-- The path as a reader writes it. -/
def Function.pathText (scopeRes : RtString) (f : Function) : RtString :=
  joined scopeRes (f.scopes.map (Scope.text scopeRes) ++
    [bare f.name.bytes ++ argsName scopeRes f.args])

/-- The function as a reader writes it. -/
def Function.text (f : Function) : RtString :=
  qualified f.pkg.info.pkgName (bare (f.pathText (ascii "::")) ++
    ascii "(" ++ joined (ascii ", ") (Ty.names (ascii "::") f.params) ++ ascii ")")

/-! ## A part of the path -/

/-- A part of a path starts here. -/
def PartAhead (xs : RtString) : Prop :=
  ∃ ch more, xs = ch :: more ∧ ch ∉ ascii "0EHIKLU" ∧ (ch :: more.take 1) ∉ [ascii "ps", ascii "pg"]

/-- A round of the loop reads `xs` up to `ys` as the components, in every text. -/
inductive Parts (scopeRes : RtString) (fuel : Nat) (next : Dem DemangleInfo) :
    RtString → List Component → RtString → Prop
  | nil (xs : RtString) : Parts scopeRes fuel next xs [] xs
  | cons {xs ys zs : RtString} {c : Component} {cs : List Component}
    (hreads : ∀ mangled d, Ahead mangled scopeRes xs d →
      Gives mangled scopeRes (readRound fuel next false false) d (.component c) ys)
    (hrest : Parts scopeRes fuel next ys cs zs) : Parts scopeRes fuel next xs (c :: cs) zs

section Rounds

variable {mangled scopeRes xs ys zs rest : RtString} {d : Demangler} {fuel : Nat}
  {next : Dem DemangleInfo} {name : Name}

/-- A part does not begin with one of the letters that the loop over the path looks for first. -/
theorem PartAhead.ne (h : PartAhead xs) {c : UInt8} (hc : c ∈ ascii "0EHIKLU") :
    ∀ more, xs ≠ c :: more := by
  obtain ⟨ch, more, rfl, hnot, -⟩ := h
  rintro more' heq
  rw [(List.cons.inj heq).1] at hnot
  exact hnot hc

/-- No property suffix is ahead. -/
theorem PartAhead.not_prop (h : PartAhead xs) (hd : Ahead mangled scopeRes xs d) :
    d.isProp = false := by
  obtain ⟨ch, more, rfl, -, hnot⟩ := h
  rw [Demangler.isProp]
  split
  · have hsub : d.mangledName.subStr d.currentIndex 2 = ch :: more.take 1 := by
      rw [RtString.subStr, hd.name, hd.rest.2]
      rfl
    rw [hsub]
    simp only [List.mem_cons, List.not_mem_nil, or_false, not_or] at hnot
    simp only [Bool.or_eq_false_iff, beq_eq_false_iff_ne]
    exact hnot
  · rfl

/-- A round that reads a name with its suffixes. -/
theorem readRound_gives {di di' di'' : DemangleInfo} {kind : DemanglerTypeKind}
    (hend : d.isNotEndOfMangledName = true) (hlambda : d.current ≠ 76) (hextend : d.current ≠ 88)
    (hscope : d.scopeResolution = scopeRes)
    (hname : Gives mangled scopeRes nestedName d di xs) (hne : xs ≠ [])
    (hcounter : ∀ more, xs ≠ 75 :: more)
    (hgeneric : ∀ d', Ahead mangled scopeRes xs d' →
      Gives mangled scopeRes (nestedGeneric fuel next false di) d' di' ys)
    (hfunction : ∀ d', Ahead mangled scopeRes ys d' →
      Gives mangled scopeRes (nestedFunction fuel next di') d' (di'', kind) zs) :
    Gives mangled scopeRes (readRound fuel next false false) d
      (.component ⟨di''.getFullNameText scopeRes, kind, some di''⟩) zs := by
  obtain ⟨ch, more, rfl⟩ := List.exists_cons_of_ne_nil hne
  refine gives_get (gives_neg (not_not.mpr hend) (gives_neg hlambda (gives_neg hextend ?_)))
  refine hname.bind fun d1 h1 => gives_get (gives_neg h1.not_atEnd ?_)
  refine (skipLocalCounter_gives h1 fun hc => hcounter more (by rw [hc])).bind fun d2 h2 =>
    gives_get (gives_neg (not_not.mpr h2.valid) ?_)
  refine (hgeneric d2 h2).bind fun d3 h3 => ?_
  refine (hfunction d3 h3).bind fun d4 h4 => gives_get (gives_neg (fun hc => ?_) ?_)
  · exact absurd hc.1 Bool.false_ne_true
  · rw [hscope]
    exact gives_pure h4

/-- A character that is there is skipped. -/
theorem skipOptionalChar_gives {ch : UInt8} (h : Ahead mangled scopeRes (ch :: rest) d) :
    Gives mangled scopeRes (skipOptionalChar ch) d () rest :=
  gives_get (gives_neg h.not_atEnd (gives_pos h.cons.2.1
    (@advance_gives mangled scopeRes [ch] rest d 1 h rfl)))

/-- If another one is there, or none, nothing happens. -/
theorem skipOptionalChar_none {ch : UInt8} (hne : ∀ more, xs ≠ ch :: more)
    (h : Ahead mangled scopeRes xs d) : Gives mangled scopeRes (skipOptionalChar ch) d () xs := by
  cases xs with
  | nil => exact gives_get (gives_pos h.atEnd (gives_pure h))
  | cons x xs =>
    refine gives_get (gives_neg h.not_atEnd (gives_neg (fun hc => ?_) (gives_pure h)))
    rw [h.cons.2.1] at hc
    exact hne xs (by rw [hc])

/-- The generic arguments of a part, and the `E` behind them if there is one.  A part that has them
    has the arena. -/
theorem nestedGeneric_mangleArgs {args : List Ty} {more : RtString} (bytes : RtString) (arena : Bool)
    (hwf : Ty.AllWellFormed args) (hacc : Ty.AllAccepted args)
    (hend : ∀ t ∈ args, t.endsWithVArray = true → ListEnd (more ++ rest))
    (hop : Operatorless scopeRes args (more ++ rest)) (hterm : Terminator (more ++ rest))
    (hskip : ∀ d', Ahead mangled scopeRes (more ++ rest) d' →
      Gives mangled scopeRes (skipOptionalChar 69) d' () rest)
    (hne : rest ≠ []) (hnot : ∀ more', rest ≠ 73 :: more')
    (hfuel : (Ty.mangleAll args).length < fuel)
    (h : Ahead mangled scopeRes (mangleArgs args more ++ rest) d) :
    Gives mangled scopeRes
      (nestedGeneric fuel (demangleNextUnit fuel) false
        { type := .name, demangled := bytes, ownerArena := arena }) d
      { type := .name
        demangled := bytes
        genericTypes := argsName scopeRes args
        ownerArena := arena || !args.isEmpty } rest := by
  rw [mangleArgs] at h
  -- without arguments no `I` is written
  cases args with
  | nil =>
    rw [List.isEmpty_nil, Bool.not_true, Bool.or_false]
    obtain ⟨ch, tail, rfl⟩ := List.exists_cons_of_ne_nil hne
    refine gives_get (gives_neg (fun hc => ?_) (gives_pure h))
    have hcurrent : d.current = ch := (@Ahead.cons mangled scopeRes tail d ch h).2.1
    exact hnot tail (by rw [← hcurrent, hc])
  | cons t ts =>
    have h' : Ahead mangled scopeRes (73 :: (Ty.mangleAll (t :: ts) ++ (more ++ rest))) d := by
      rw [← List.append_assoc]
      exact h
    have hchain := demangleNextUnit_mangleAll scopeRes (t :: ts) hwf hacc (more ++ rest) hend hop
      fuel hfuel
    have hcount : (Ty.names scopeRes (t :: ts)).length < fuel :=
      Nat.lt_of_le_of_lt (Nat.le_trans (Ty.length_names scopeRes (t :: ts))
        (Ty.length_le_mangleAll hwf)) hfuel
    refine gives_get (gives_pos h'.cons.2.1 ?_)
    refine (skipChar_gives h').bind fun d1 h1 => ?_
    refine (hchain.genericTypes (fun d hd => hterm.stops hd) hcount h1).bind fun d2 h2 => ?_
    rw [h'.scopeRes, List.isEmpty_cons, Bool.not_false, Bool.or_true]
    exact gives_pos (fun hc => Bool.false_ne_true hc)
      ((hskip d2 h2).bind fun d3 h3 => gives_pure h3)

/-! ### Parameters -/

/-- No parameters are ahead. -/
theorem nestedFunction_none (di : DemangleInfo) (hne : ∀ more, xs ≠ 72 :: more)
    (h : Ahead mangled scopeRes xs d) :
    Gives mangled scopeRes (nestedFunction fuel next di) d (di, .commonDecl) xs := by
  refine gives_get (gives_neg (fun hc => ?_) (gives_pure h))
  cases xs with
  | nil =>
    rw [Demangler.peekChar, h.atEnd, if_pos rfl] at hc
    exact absurd hc (by decide)
  | cons ch more =>
    rw [h.cons.2.2] at hc
    exact hne more (by rw [hc])

/-- The loop over parameters reads a chain up to the end of the text. -/
theorem Chain.parameterLoop {names : List RtString} (hchain : Chain scopeRes next xs names ys) :
    ys = [] → ∀ (before : List RtString) fuel d, names.length < fuel →
    Ahead mangled scopeRes xs d →
    Gives mangled scopeRes
      (iterate (functionParameterTypesStep next) fuel
        (joined (ascii ", ") before, before.isEmpty)) d
      (joined (ascii ", ") (before ++ names)) ys := by
  induction hchain with
  | nil xs =>
    rintro rfl before fuel d hfuel h
    obtain ⟨fuel, rfl⟩ := Nat.exists_eq_succ_of_ne_zero (Nat.ne_of_gt hfuel)
    have hend := isNotEnd_false (Or.inl rfl) h
    refine ⟨d, iterate_inr ?_, h⟩
    rw [functionParameterTypesStep, get_bind, if_pos, List.append_nil]
    · rfl
    · rintro ⟨hgo, -⟩
      rw [hend] at hgo
      cases hgo
  | @cons xs ys zs di names hstart hop hreads hrest ih =>
    intro hys before fuel d hfuel h
    obtain ⟨fuel, rfl⟩ := Nat.exists_eq_succ_of_ne_zero (Nat.ne_of_gt (Nat.zero_lt_of_lt hfuel))
    rw [List.length_cons] at hfuel
    obtain ⟨hend, -, hdigit, -⟩ := h.type hstart
    have hgo : d.isNotEndOfMangledName = true ∧ ¬ isCurrentCharDigit d.current = true :=
      ⟨hend, by rw [hdigit]; exact Bool.false_ne_true⟩
    obtain ⟨d1, heq, h1⟩ := hreads mangled d h
    have hstep : functionParameterTypesStep next (joined (ascii ", ") before, before.isEmpty) d =
        some (.inl (joined (ascii ", ") (before ++ [di.getFullName scopeRes]),
          (before ++ [di.getFullName scopeRes]).isEmpty), d1) := by
      rw [functionParameterTypesStep, get_bind, if_neg (not_not.mpr hgo), bind_of_eq heq, get_bind,
        if_neg (not_not.mpr h1.valid), h1.scopeRes]
      dsimp only
      rw [joined_snoc]
      simp [pure_eq]
    obtain ⟨d2, heq2, h2⟩ := ih hys (before ++ [di.getFullName scopeRes]) fuel d1 (by omega) h1
    refine ⟨d2, ?_, h2⟩
    rw [iterate_inl hstep, heq2, List.append_assoc]
    rfl

/-- The parameters of a function, up to the end of the text. -/
theorem nestedFunction_gives {params : List Ty} (di : DemangleInfo)
    (hwf : Ty.AllWellFormed params) (hacc : Ty.AllAccepted params)
    (hfuel : (Ty.mangleAll params).length < fuel)
    (h : Ahead mangled scopeRes (72 :: mangleParams params) d) :
    Gives mangled scopeRes (nestedFunction fuel (demangleNextUnit fuel) di) d
      ({ di with
          functionParameterTypes := joined (ascii ", ") (Ty.names scopeRes params)
          ownerArena := true }, .functionDecl) [] := by
  refine gives_get (gives_pos h.cons.2.2 ?_)
  refine (skipChar_gives h).bind fun d1 h1 => ?_
  have htypes : Gives mangled scopeRes
      (demangleFunctionParameterTypes fuel (demangleNextUnit fuel)) d1
      { type := .functionParameterTypes
        args := joined (ascii ", ") (Ty.names scopeRes params) } [] := by
    rw [mangleParams] at h1
    -- no parameters are written as `v`
    cases params with
    | nil =>
      have hv : Ahead mangled scopeRes [118] d1 := h1
      have hend : d1.isNotEndOfMangledName = true := by
        rw [Demangler.isNotEndOfMangledName, hv.cons.1, hv.cons.2.1]
        rfl
      refine gives_get (gives_pos ⟨hend, hv.cons.2.1⟩ ?_)
      exact (@advance_gives mangled scopeRes [118] [] d1 1 hv rfl).bind fun d2 h2 => gives_pure h2
    | cons t ts =>
      have hchain := demangleNextUnit_mangleAll scopeRes (t :: ts) hwf hacc []
        (fun _ _ _ => Or.inl rfl) (operatorless_end hwf (Or.inl rfl)) fuel hfuel
      have hcount : (Ty.names scopeRes (t :: ts)).length < fuel :=
        Nat.lt_of_le_of_lt (Nat.le_trans (Ty.length_names scopeRes (t :: ts))
          (Ty.length_le_mangleAll hwf)) hfuel
      have h2 : Ahead mangled scopeRes (Ty.mangleAll (t :: ts) ++ []) d1 := by
        rw [List.append_nil]
        exact h1
      refine gives_get (gives_neg ?_ ?_)
      · rintro ⟨-, hc⟩
        exact (h2.type (by rw [List.append_nil]; exact Ty.typeAhead hwf.1 _)).2.2.2.2.2.2 hc
      · exact (hchain.parameterLoop rfl [] fuel d1 hcount h2).bind fun d3 h3 => gives_pure h3
  refine htypes.bind fun d2 h2 => ?_
  exact (skipOptionalChar_none (fun more hc => List.cons_ne_nil _ _ hc.symm) h2).bind
    fun d3 h3 => gives_pure h3

end Rounds

/-! ## The parts of a function -/

/-- What is remembered of a name with generic arguments. -/
def partInfo (scopeRes bytes : RtString) (args : List Ty) : DemangleInfo :=
  { type := .name, demangled := bytes, genericTypes := argsName scopeRes args }

/-- What the loop over the path makes of a scope: an info with the generic arguments, or the
    identifier of the type that is extended. -/
def Scope.component (scopeRes : RtString) : Scope → Component
  | .named name args =>
    let info := partInfo scopeRes name.bytes args
    ⟨info.getFullNameText scopeRes, .commonDecl, some info⟩
  | .extension t => ⟨⟨(t.info scopeRes []).getIdentifier, true⟩, .commonDecl, none⟩

/-- What is remembered of a function. -/
def Function.info (scopeRes : RtString) (f : Function) : DemangleInfo :=
  { partInfo scopeRes f.name.bytes f.args with
    functionParameterTypes := joined (ascii ", ") (Ty.names scopeRes f.params) }

/-- What it makes of the function itself, with its generic arguments and without the parameters. -/
def Function.component (scopeRes : RtString) (f : Function) : Component :=
  ⟨(f.info scopeRes).getFullNameText scopeRes, .functionDecl, some (f.info scopeRes)⟩

section PartStarts

variable {mangled scopeRes xs ys zs rest tail : RtString} {d : Demangler} {fuel : Nat}
  {next : Dem DemangleInfo} {name : Name}

/-- A name is a part: it begins with a digit other than 0. -/
theorem partAhead_name (hname : name.WellFormed) (more : RtString) :
    PartAhead (name.mangle ++ more) := by
  obtain ⟨ch, tail, heq, hdigit, hne⟩ := hname.start
  refine ⟨ch, tail ++ more, by rw [heq]; rfl, fun hmem => ?_, fun hmem => ?_⟩
  · have hother : ∀ c ∈ ascii "EHIKLU", isCurrentCharDigit c = false := forall_chars (by decide)
    rcases List.mem_cons.mp (show ch ∈ 48 :: ascii "EHIKLU" from hmem) with hzero | hmem
    · exact hne hzero
    · rw [hother ch hmem] at hdigit
      cases hdigit
  · have hp : ch = 112 := by
      rcases List.mem_cons.mp hmem with h | h
      · exact (List.cons.inj h).1
      · exact (List.cons.inj (List.mem_singleton.mp h)).1
    rw [hp] at hdigit
    exact absurd hdigit (by decide)

/-- A scope is a part, be it a name or the `X` of an extension. -/
theorem partAhead_scope {scope : Scope} (hscope : scope.Accepted) (more : RtString) :
    PartAhead (scope.mangle ++ more) := by
  cases scope with
  | named name args =>
    rw [Scope.mangle, List.append_assoc]
    exact partAhead_name hscope.1 _
  | extension t =>
    refine ⟨88, t.mangle ++ more, rfl, by decide, fun hmem => ?_⟩
    rcases List.mem_cons.mp hmem with h | h
    · exact absurd (List.cons.inj h).1 (by decide)
    · exact absurd (List.cons.inj (List.mem_singleton.mp h)).1 (by decide)

/-- The code of an operator is two lower-case letters. -/
theorem operator_letters {code : RtString} (hlen : code.length = 2)
    (hop : getOperatorNameMap code ≠ []) :
    ∃ c c', code = [c, c'] ∧ (c ≥ 97 ∧ c ≤ 122) ∧ getOperatorNameMap [c, c'] ≠ [] := by
  obtain ⟨c, c', rfl⟩ := List.length_eq_two.mp hlen
  exact ⟨c, c', rfl, (getOperatorNameMap_lower hop).1, hop⟩

/-- The name of a function is one as well, and so is the code of an operator. -/
theorem partAhead_functionName {name : FunctionName} (hname : name.Accepted) (more : RtString) :
    PartAhead (name.mangle ++ more) := by
  cases name with
  | ident name => exact partAhead_name hname.1 more
  | operator code =>
    obtain ⟨c, c', rfl, hlower, hop⟩ := operator_letters hname.1 hname.2
    have hupper : ∀ ch ∈ ascii "0EHIKLU", ¬ (ch ≥ 97 ∧ ch ≤ 122) := forall_chars (by decide)
    refine ⟨c, c' :: more, rfl, fun hmem => hupper c hmem hlower, fun hmem => ?_⟩
    have hcode : [c, c'] = ascii "ps" ∨ [c, c'] = ascii "pg" := by
      rcases List.mem_cons.mp hmem with h | h
      · exact Or.inl h
      · exact Or.inr (List.mem_singleton.mp h)
    rcases hcode with h | h
    · rw [h] at hop
      exact hop (by decide)
    · rw [h] at hop
      exact hop (by decide)

/-- A round with a part goes on to its name. -/
theorem PartAhead.round (h : PartAhead xs) (hd : Ahead mangled scopeRes xs d) :
    d.isNotEndOfMangledName = true ∧ d.current ≠ 76 := by
  have hE := h.ne (c := 69) (by decide)
  have hL := h.ne (c := 76) (by decide)
  obtain ⟨ch, more, rfl, -⟩ := h
  rw [Demangler.isNotEndOfMangledName, hd.cons.1, hd.cons.2.1]
  exact ⟨decide_eq_true ⟨by simp, fun hc => hE more (by rw [hc])⟩, fun hc => hL more (by rw [hc])⟩

/-- What is behind the name of a part: its arguments, the next part, or the parameters. -/
theorem behind_name {args : List Ty} {more : RtString}
    (hrest : PartAhead rest ∨ ∃ more', rest = 72 :: more') :
    mangleArgs args more ++ rest ≠ [] ∧ (∀ more', mangleArgs args more ++ rest ≠ 75 :: more') ∧
      ∀ d', Ahead mangled scopeRes (mangleArgs args more ++ rest) d' → d'.isProp = false := by
  rw [mangleArgs]
  split
  · rcases hrest with hrest | ⟨more', rfl⟩
    · refine ⟨fun hnil => ?_, hrest.ne (by decide), fun d' h => hrest.not_prop h⟩
      obtain ⟨ch, tail, rfl, -⟩ := hrest
      cases hnil
    · exact ⟨List.cons_ne_nil 72 more', fun m hc => absurd (List.cons.inj hc).1 (by decide),
        fun d' h => isProp_eq (show Ahead mangled scopeRes (72 :: more') d' from h) (by decide)⟩
  · exact ⟨List.cons_ne_nil _ _, fun m hc => absurd (List.cons.inj hc).1 (by decide),
      fun d' h => isProp_eq (show Ahead mangled scopeRes (73 :: _) d' from h) (by decide)⟩

/-- A scope is read by a round. -/
theorem readRound_scope {scope : Scope} (hscope : scope.Accepted) (hrest : PartAhead rest)
    (hfuel : scope.mangle.length < fuel) (h : Ahead mangled scopeRes (scope.mangle ++ rest) d) :
    Gives mangled scopeRes (readRound fuel (demangleNextUnit fuel) false false) d
      (.component (scope.component scopeRes)) rest := by
  obtain ⟨hend, hlambda⟩ := (partAhead_scope hscope rest).round h
  have hne : rest ≠ [] := by
    obtain ⟨ch, more, rfl, -⟩ := hrest
    exact List.cons_ne_nil ch more
  cases scope with
  | named name args =>
    -- an enclosing type: its name, and its arguments up to the `E`
    obtain ⟨hname, hshort, hwf, hacc⟩ := hscope
    rw [Scope.mangle, List.append_assoc] at h
    rw [Scope.mangle, List.length_append] at hfuel
    have hextend : d.current ≠ 88 := by
      obtain ⟨first, more, hfirst, hdigit, -⟩ := hname.start
      rw [hfirst] at h
      rw [h.cons.2.1]
      rintro rfl
      exact absurd hdigit (by decide)
    obtain ⟨hbehind, hcounter, hprop⟩ :=
      @behind_name mangled scopeRes rest args [69] (Or.inl hrest)
    refine readRound_gives hend hlambda hextend h.scopeRes
      (nestedName_before hname hshort hprop h) hbehind hcounter (fun d' h' => ?_)
      fun d' h' => nestedFunction_none _ (hrest.ne (by decide)) h'
    have hlist : ListEnd ([69] ++ rest) := Or.inr ⟨rest, rfl⟩
    refine nestedGeneric_mangleArgs name.bytes true hwf hacc (fun _ _ _ => hlist)
      (operatorless_end hwf hlist) hlist.terminator (fun d' h' => skipOptionalChar_gives h') hne
      (hrest.ne (by decide)) ?_ h'
    rw [mangleArgs] at hfuel
    split at hfuel
    case isTrue hnil =>
      rw [List.isEmpty_iff.mp hnil]
      exact Nat.zero_lt_of_lt hfuel
    case isFalse =>
      simp only [List.length_cons, List.length_append] at hfuel
      omega
  | extension t =>
    -- an extension: the type that it extends, with no file number and no counter behind it
    obtain ⟨hwf, hacc, hvarray⟩ := hscope
    have hcons : Ahead mangled scopeRes (88 :: (t.mangle ++ rest)) d := h
    refine gives_get (gives_neg (not_not.mpr hend) (gives_neg hlambda
      (gives_pos hcons.cons.2.1 ?_)))
    refine (@advance_gives mangled scopeRes [88] (t.mangle ++ rest) d 1 hcons rfl).bind
      fun d1 h1 => gives_get ?_
    refine gives_neg (not_not.mpr (isQualifiedType_type (Ty.typeAhead hwf rest) h1)) ?_
    have hunit := demangleNextUnit_mangle scopeRes t hwf hacc fuel 0 rest [] []
      (fun hv => by rw [hvarray] at hv; cases hv)
      (by rw [Scope.mangle, List.length_cons] at hfuel; omega) mangled d1 h1
    rw [hvarray] at hunit
    have hfile : ∀ d', Ahead mangled scopeRes rest d' → d'.isFileName = false := by
      intro d' h'
      have hU := hrest.ne (c := 85) (by decide)
      obtain ⟨ch, more, rfl⟩ := List.exists_cons_of_ne_nil hne
      rw [isFileName_eq h']
      exact decide_eq_false fun hc => hU more (by rw [hc])
    refine hunit.bind fun d2 h2 => gives_get ?_
    rw [hfile d2 h2]
    refine gives_neg Bool.false_ne_true ?_
    have hK := hrest.ne (c := 75) (by decide)
    obtain ⟨ch, more, rfl⟩ := List.exists_cons_of_ne_nil hne
    exact (skipLocalCounter_gives h2 fun hc => hK more (by rw [hc])).bind
      fun d3 h3 => gives_pure h3

/-- The name of a function in its path has the arena, but for an operator. -/
def FunctionName.arena : FunctionName → Bool
  | .ident name => true
  | .operator code => false

/-- The name of a function, in front of its arguments or its parameters. -/
theorem nestedName_function {name : FunctionName} {args : List Ty} {params : RtString}
    (hname : name.Accepted)
    (h : Ahead mangled scopeRes (name.mangle ++ (mangleArgs args [] ++ 72 :: params)) d) :
    d.current ≠ 88 ∧ Gives mangled scopeRes nestedName d
      { type := .name, demangled := name.bytes, ownerArena := name.arena }
      (mangleArgs args [] ++ 72 :: params) := by
  obtain ⟨-, -, hprop⟩ := @behind_name mangled scopeRes (72 :: params) args []
    (Or.inr ⟨params, rfl⟩)
  cases name with
  | ident name =>
    refine ⟨?_, nestedName_before hname.1 hname.2.1 hprop h⟩
    obtain ⟨first, more, hfirst, hdigit, -⟩ := hname.1.start
    rw [FunctionName.mangle, hfirst] at h
    rw [h.cons.2.1]
    rintro rfl
    exact absurd hdigit (by decide)
  | operator code =>
    obtain ⟨c, c', rfl, hlower, hop⟩ := operator_letters hname.1 hname.2
    have hcode : Ahead mangled scopeRes ([c, c'] ++ (mangleArgs args [] ++ 72 :: params)) d := h
    have hcons : Ahead mangled scopeRes (c :: c' :: (mangleArgs args [] ++ 72 :: params)) d := h
    constructor
    · rw [hcons.cons.2.1]
      rintro rfl
      exact absurd hlower (by decide)
    · have his : d.isOperatorName = true := by
        rw [isOperatorName_iff h, mangleArgs]
        split
        · exact ⟨c, c', 72, params, rfl, hop, Or.inr (Or.inl rfl)⟩
        · exact ⟨c, c', 73, _, rfl, hop, Or.inl rfl⟩
      have hsub : d.mangledName.subStr d.currentIndex 2 = [c, c'] := by
        rw [RtString.subStr, hcons.name, hcons.rest.2]
        rfl
      refine gives_get (gives_pos his ?_)
      refine (advance_gives hcode rfl).bind fun d1 h1 => ?_
      rw [hsub, h.valid]
      exact gives_pure h1

/-- The function is read by a round, up to the end of the text. -/
theorem readRound_function {f : Function} (hf : f.Accepted) (hfuel : f.mangle.length < fuel)
    (h : Ahead mangled scopeRes
      (f.name.mangle ++ (mangleArgs f.args [] ++ 72 :: mangleParams f.params)) d) :
    Gives mangled scopeRes (readRound fuel (demangleNextUnit fuel) false false) d
      (.component (f.component scopeRes)) [] := by
  obtain ⟨hend, hlambda⟩ := (partAhead_functionName hf.name _).round h
  obtain ⟨hextend, hname⟩ := nestedName_function hf.name h
  obtain ⟨hbehind, hcounter, -⟩ := @behind_name mangled scopeRes
    (72 :: mangleParams f.params) f.args [] (Or.inr ⟨_, rfl⟩)
  have hlen : (Ty.mangleAll f.args).length < fuel ∧ (Ty.mangleAll f.params).length < fuel := by
    have hargs : (Ty.mangleAll f.args).length ≤ (mangleArgs f.args []).length := by
      rw [mangleArgs]
      split
      case isTrue hnil =>
        rw [List.isEmpty_iff.mp hnil]
        exact Nat.le_refl 0
      case isFalse => simp
    have hparams : (Ty.mangleAll f.params).length ≤ (mangleParams f.params).length := by
      rw [mangleParams]
      split
      case isTrue hnil =>
        rw [List.isEmpty_iff.mp hnil]
        exact Nat.zero_le _
      case isFalse => exact Nat.le_refl _
    simp only [Function.mangle, Function.path, List.length_append, List.length_cons] at hfuel
    omega
  refine readRound_gives hend hlambda hextend h.scopeRes hname hbehind hcounter (fun d' h' => ?_)
    fun d' h' => nestedFunction_gives { partInfo scopeRes f.name.bytes f.args with
      ownerArena := f.name.arena || !f.args.isEmpty } hf.params.1 hf.params.2 hlen.2 h'
  have hterm : Terminator (72 :: mangleParams f.params) := .params _
  refine nestedGeneric_mangleArgs f.name.bytes f.name.arena hf.args.1 hf.args.2 (fun t ht hv => ?_)
    (operatorless_types hf.args.1 hterm fun hc => hf.closed.1 hc.2) hterm
    (fun d' h' => skipOptionalChar_none (fun more hc => absurd (List.cons.inj hc).1 (by decide)) h')
    (List.cons_ne_nil _ _) (fun more hc => absurd (List.cons.inj hc).1 (by decide)) hlen.1 h'
  rw [hf.closed.2 t ht] at hv
  cases hv

/-- The parts of the path of a function. -/
theorem parts_scopes {cs : List Component} {scopes : List Scope}
    (hscopes : ∀ scope ∈ scopes, scope.Accepted)
    (hfuel : (scopes.flatMap Scope.mangle).length < fuel) (htail : PartAhead tail)
    (hparts : Parts scopeRes fuel (demangleNextUnit fuel) tail cs zs) :
    PartAhead (scopes.flatMap Scope.mangle ++ tail) ∧
      Parts scopeRes fuel (demangleNextUnit fuel) (scopes.flatMap Scope.mangle ++ tail)
        (scopes.map (Scope.component scopeRes) ++ cs) zs := by
  induction scopes with
  | nil => exact ⟨htail, hparts⟩
  | cons scope scopes ih =>
    rw [List.flatMap_cons, List.length_append] at hfuel
    obtain ⟨hahead, hrest⟩ := ih (fun s hs => hscopes s (List.mem_cons_of_mem scope hs)) (by omega)
    have hscope := hscopes scope List.mem_cons_self
    rw [List.flatMap_cons, List.append_assoc]
    exact ⟨partAhead_scope hscope _,
      .cons (fun mangled d h => readRound_scope hscope hahead (by omega) h) hrest⟩

/-- **The path of a function is read part by part**: the scopes from the outermost on, and the
    function. -/
theorem Function.parts (scopeRes : RtString) {f : Function} (hf : f.Accepted)
    (hfuel : f.mangle.length < fuel) :
    PartAhead f.path ∧ Parts scopeRes fuel (demangleNextUnit fuel) f.path
      (f.scopes.map (Scope.component scopeRes) ++ [f.component scopeRes]) [] := by
  have hlen : (f.scopes.flatMap Scope.mangle).length < fuel := by
    simp only [Function.mangle, Function.path, List.length_append] at hfuel
    omega
  exact parts_scopes hf.scopes hlen (partAhead_functionName hf.name _)
    (.cons (fun mangled d h => readRound_function hf hfuel h) (.nil []))

end PartStarts

/-! ## The path -/

section Path

variable {mangled scopeRes xs ys : RtString} {d : Demangler} {fuel : Nat}
  {next : Dem DemangleInfo} {cs : List Component}

/-- The parts are added one by one. -/
def Nested.addAll (v : Nested) (scopeRes : RtString) (cs : List Component) : Nested :=
  cs.foldl (fun v c => v.add scopeRes c) v

/-- The loop adds the parts, and stops at the end. -/
theorem Parts.loop (hparts : Parts scopeRes fuel next xs cs ys) :
    ys = [] → ∀ (v : Nested) rounds d, cs.length < rounds → Ahead mangled scopeRes xs d →
    Gives mangled scopeRes (iterate (nestedStep fuel next false false) rounds v) d
      (.ok (v.addAll scopeRes cs)) ys := by
  induction hparts with
  | nil xs =>
    rintro rfl v rounds d hrounds h
    obtain ⟨rounds, rfl⟩ := Nat.exists_eq_succ_of_ne_zero (Nat.ne_of_gt hrounds)
    have hend := isNotEnd_false (Or.inl rfl) h
    refine ⟨d, iterate_inr ?_, h⟩
    rw [nestedStep, get_bind, if_pos]
    · rfl
    · rw [hend]
      exact Bool.false_ne_true
  | @cons xs ys zs c cs hreads hrest ih =>
    intro hys v rounds d hrounds h
    obtain ⟨rounds, rfl⟩ := Nat.exists_eq_succ_of_ne_zero (Nat.ne_of_gt (Nat.zero_lt_of_lt hrounds))
    rw [List.length_cons] at hrounds
    obtain ⟨d1, hround, h1⟩ := hreads mangled d h
    have hstep := nestedStep_of_readRound v hround
    rw [h.scopeRes] at hstep
    obtain ⟨d2, heq, h2⟩ := ih hys (v.add scopeRes c) rounds d1 (by omega) h1
    refine ⟨d2, ?_, h2⟩
    rw [iterate_inl hstep, heq]
    rfl

/-- The slots keep the names of the parts. -/
theorem keeps_foldl (hscopeRes : scopeRes ≠ []) : ∀ (cs : List Component) (names : List Text)
    (v : Nested), (∀ c ∈ cs, c.name.arena = true) → Keeps scopeRes names v.batch →
    Keeps scopeRes (names ++ cs.map Component.name) (v.addAll scopeRes cs).batch := by
  intro cs
  induction cs with
  | nil =>
    intro names v harena h
    rw [List.map_nil, List.append_nil]
    exact h
  | cons c cs ih =>
    intro names v harena h
    have hname : c.name.Named := fun hfalse =>
      absurd ((harena c List.mem_cons_self).symm.trans hfalse) Bool.noConfusion
    have hstep := ih (names ++ [c.name]) (v.add scopeRes c)
      (fun c' hc' => harena c' (List.mem_cons_of_mem c hc')) (h.add hscopeRes c hname)
    rw [List.append_assoc] at hstep
    exact hstep

/-- The full name of a part is its name and its generic arguments. -/
theorem partInfo_fullName (bytes : RtString) (args : List Ty) :
    (partInfo scopeRes bytes args).getFullName scopeRes = bare bytes ++ argsName scopeRes args :=
  getFullName_name bytes (argsName scopeRes args)

/-- The text of a scope has the arena, whichever of the two it is, so that nothing is lost when it
    is joined. -/
theorem Scope.component_name (scope : Scope) :
    (scope.component scopeRes).name = ⟨scope.text scopeRes, true⟩ := by
  cases scope with
  | named name args =>
    exact congrArg (fun bytes => (⟨bytes, true⟩ : Text)) (partInfo_fullName name.bytes args)
  | extension t => rfl

/-- So has the text of the function, also of an operator, since the generic arguments or the
    parameters make an info of it. -/
theorem Function.component_name (f : Function) :
    (f.component scopeRes).name = ⟨bare f.name.bytes ++ argsName scopeRes f.args, true⟩ :=
  congrArg (fun bytes => (⟨bytes, true⟩ : Text)) (partInfo_fullName f.name.bytes f.args)

/-- The names of the parts are those of the path, and all of them have the arena. -/
theorem Function.parts_names (f : Function) :
    (f.scopes.map (Scope.component scopeRes) ++ [f.component scopeRes]).map Component.name =
      (f.scopes.map (Scope.text scopeRes) ++ [bare f.name.bytes ++ argsName scopeRes f.args]).map
        fun bytes => ⟨bytes, true⟩ := by
  rw [List.map_append, List.map_append, List.map_map, List.map_map, List.map_singleton,
    List.map_singleton, f.component_name]
  congr 1
  exact List.map_congr_left fun scope _ => scope.component_name

/-- The path of a function, up to the end of the text. -/
theorem nestedDecls_function {f : Function} (hf : f.Accepted) (hscopeRes : scopeRes ≠ [])
    (hfuel : f.mangle.length < fuel) (hslots : MAX_ARGS_SIZE < fuel)
    (h : Ahead mangled scopeRes f.path d) :
    Gives mangled scopeRes (demangleNestedDecls fuel (demangleNextUnit fuel) false false) d
      { type := .functionDecl
        demangled := f.pathText scopeRes
        functionParameterTypes := joined (ascii ", ") (Ty.names scopeRes f.params) } [] := by
  have hparts := (f.parts scopeRes hf hfuel).2
  let cs := f.scopes.map (Scope.component scopeRes) ++ [f.component scopeRes]
  have hcount : cs.length = f.scopes.length + 1 := by simp [cs]
  have hsixteen : f.scopes.length < 16 := hf.slots
  have hslots' : 16 < fuel := hslots
  obtain ⟨d1, hloop, h1⟩ := hparts.loop rfl ⟨Batch.start, .commonDecl, {}⟩ fuel d
    (show cs.length < fuel by omega) h
  -- the names have the arena and fit into one batch
  have hnames := @Function.parts_names scopeRes f
  have harena : ∀ name ∈ cs.map Component.name, name.arena = true := by
    intro name hname
    rw [hnames] at hname
    obtain ⟨bytes, -, rfl⟩ := List.mem_map.mp hname
    rfl
  have hkeeps := keeps_foldl hscopeRes cs [] ⟨Batch.start, .commonDecl, {}⟩
    (fun c hc => harena c.name (List.mem_map_of_mem hc)) keeps_start
  rw [List.nil_append] at hkeeps
  have htext := hkeeps.all (by rw [List.length_map, hcount]; omega)
    fun name hname => harena name (List.mem_of_mem_tail hname)
  rw [hnames, List.map_map, show (Text.bytes ∘ fun bytes => (⟨bytes, true⟩ : Text)) = id from rfl,
    List.map_id] at htext
  -- the last part is the function
  obtain ⟨batch, hbatch⟩ : ∃ batch, (⟨Batch.start, .commonDecl, {}⟩ : Nested).addAll scopeRes cs =
      ⟨batch, .functionDecl, f.info scopeRes⟩ :=
    ⟨_, by rw [Nested.addAll, List.foldl_append]; rfl⟩
  rw [hbatch] at htext
  rw [show f.scopes.map (Scope.component scopeRes) ++ [f.component scopeRes] = cs from rfl, hbatch]
    at hloop
  refine ⟨d1, ?_, h1⟩
  rw [demangleNestedDecls, bind_of_eq hloop, Function.pathText, ← htext]
  show some (({
      type := .functionDecl
      demangled := batch.text d1.scopeResolution
      isValid := d1.isValid
      functionParameterTypes := (f.info scopeRes).functionParameterTypes } : DemangleInfo), d1) = _
  rw [h1.scopeRes, h1.valid]
  rfl

/-- What a function stands for. -/
def Function.declInfo (scopeRes : RtString) (f : Function) : DemangleInfo where
  type := .functionDecl
  pkgName := f.pkg.info.pkgName
  pkgArena := f.pkg.info.pkgArena
  isPrivateDeclaration := f.pkg.info.isPrivateDeclaration
  demangled := f.pathText scopeRes
  args := joined (ascii ", ") (Ty.names scopeRes f.params)

/-- The text of a path is not empty. -/
theorem Function.pathText_ne_nil {f : Function} (hf : f.Accepted) (hscopeRes : scopeRes ≠ []) :
    f.pathText scopeRes ≠ [] := by
  have hname : bare f.name.bytes ≠ [] := by
    cases hkind : f.name with
    | ident name =>
      have hacc := hf.name
      rw [hkind] at hacc
      obtain ⟨c, more, hbytes, -⟩ := hacc.1.bytes
      exact getIdentifier_ne_nil (by
        show name.bytes ≠ []
        rw [hbytes]
        exact List.cons_ne_nil c more) hacc.2.2
    | operator code =>
      have hacc := hf.name
      rw [hkind] at hacc
      exact getIdentifier_ne_nil hacc.2 (getOperatorNameMap_ne_angle code)
  rw [Function.pathText]
  by_cases hnil : f.scopes.map (Scope.text scopeRes) = []
  · rw [hnil, List.nil_append]
    simp [joined, hname]
  · rw [joined_concat hnil]
    simp [hscopeRes]

end Path

/-! ## The call -/

section Call

variable {mangled scopeRes : RtString} {d : Demangler} {fuel : Nat} {f : Function}

/-- The declaration of a function is read up to the end of the text. -/
theorem demangleDecl_function (hf : f.Accepted) (hscopeRes : scopeRes ≠ [])
    (hfuel : f.mangle.length < fuel) (hslots : MAX_ARGS_SIZE < fuel)
    (h : Ahead mangled scopeRes f.mangle d) :
    Gives mangled scopeRes (demangleDecl fuel) d (f.declInfo scopeRes) [] := by
  refine (@skipString_gives mangled scopeRes (78 :: (f.pkg.mangle ++ f.path)) (ascii "_C") d h).bind
    fun d1 h1 => gives_get (gives_neg (not_not.mpr h1.valid) ?_)
  have hcommon : Gives mangled scopeRes (demangleCommonDecl fuel (demangleNextUnit fuel) false) d1
      (f.declInfo scopeRes) [] := by
    have hglobal : ¬ d1.current ≠ 78 := not_not.mpr h1.cons.2.1
    refine gives_get (gives_neg hglobal ?_)
    refine (@skipString_gives mangled scopeRes (f.pkg.mangle ++ f.path) (ascii "N") d1 h1).bind
      fun d2 h2 => gives_get (gives_neg (not_not.mpr h2.valid) ?_)
    refine Gives.bind (a := f.declInfo scopeRes) ?_ fun d3 h3 =>
      gives_get (gives_neg (fun hc => hglobal hc.1) (gives_pure h3))
    have hpath := (f.parts scopeRes hf hfuel).1
    have hzero := hpath.ne (c := 48) (by decide)
    have hfile := hpath.ne (c := 85) (by decide)
    have hpkg : Gives mangled scopeRes (demanglePackageName fuel) d2 f.pkg.info f.path := by
      obtain ⟨ch, more, heq, -⟩ := hpath
      rw [heq] at h2 hzero hfile ⊢
      exact demanglePackageName_before hf.pkg.1 hf.pkg.2 (fun hc => hzero more (by rw [hc]))
        (fun hc => hfile more (by rw [hc])) h2
    refine hpkg.bind fun d3 h3 => (nestedDecls_function hf hscopeRes hfuel hslots h3).bind
      fun d4 h4 => gives_get (gives_neg ?_ (gives_pure h4))
    rintro (hinvalid | hempty)
    · exact hinvalid h4.valid
    · exact f.pathText_ne_nil hf hscopeRes (List.isEmpty_iff.mp hempty)
  refine hcommon.bind fun d2 h2 => gives_get ?_
  refine gives_neg (fun hc => by cases hc) (gives_pos (Or.inr h2.atEnd) (gives_pure h2))

/-- The third byte of a symbol tells a declaration from the others. -/
theorem take_ne {more pattern : RtString} {c : UInt8} (hc : c ≠ 78) (n : Nat) :
    (95 :: 67 :: 78 :: more : RtString).take n ≠ 95 :: 67 :: c :: pattern := by
  intro heq
  match n with
  | 0 => cases heq
  | 1 => cases heq
  | 2 => cases heq
  | n + 3 =>
    simp only [List.take_succ_cons, List.cons.injEq, true_and] at heq
    exact hc heq.1.symm

/-- A declaration goes to `DemangleDecl`. -/
theorem demangleBy_decl {more : RtString} (hname : d.mangledName = 95 :: 67 :: 78 :: more)
    (hindex : d.currentIndex = 0) (hlambda : d.mangledName.find (ascii "$lambda.") 0 = none)
    (hwrapper : d.mangledName.find (ascii "$real") 0 = none) :
    demangleBy fuel d = demangleDecl fuel d := by
  have hforward : ∀ (c : UInt8) (pattern : RtString), c ≠ 78 →
      d.matchForward (95 :: 67 :: c :: pattern) = false := by
    intro c pattern hc
    have hstart : d.atEnd = false := by
      rw [Demangler.atEnd, hname, hindex]
      rfl
    rw [Demangler.matchForward, hstart, if_neg Bool.false_ne_true]
    dsimp only
    rw [beq_eq_false_iff_ne, RtString.subStr, hindex, hname]
    exact take_ne hc _
  have hwrapped : d.isWrappedFunction = false := by
    rw [Demangler.isWrappedFunction]
    refine decide_eq_false fun hfind => ?_
    rw [RtString.find] at hfind
    split at hfind
    · cases hfind
    · rw [if_neg (by decide)] at hfind
      have hat := List.find?_some hfind
      rw [beq_iff_eq, RtString.subStr, hname] at hat
      exact take_ne (by decide) _ (show _ = 95 :: 67 :: 86 :: [] from hat)
  have hinner : d.isInnerFunction = false := by
    rw [Demangler.isInnerFunction, hlambda]
    split <;> rfl
  have hreal : d.isCFunctionWrapper = false := by
    rw [Demangler.isCFunctionWrapper, hwrapper]
    split <;> rfl
  have hglobal : d.isGlobalInit = false := by
    rw [Demangler.isGlobalInit, Bool.or_eq_false_iff]
    exact ⟨hforward 71 [80] (by decide), hforward 71 [70] (by decide)⟩
  have hparam : d.isParamInit = false := hforward 80 [73] (by decide)
  rw [demangleBy, get_bind, hglobal, hparam, hinner, hreal, hwrapped]
  rfl

/-- The info of the whole declaration is rendered as the path and the parameters in parentheses. -/
theorem Function.declInfo_fullName (f : Function) (scopeRes : RtString) :
    (f.declInfo scopeRes).getFullName scopeRes = bare (f.pathText scopeRes) ++
      (ascii "(" ++ joined (ascii ", ") (Ty.names scopeRes f.params) ++ ascii ")") := by
  have hargs : (f.declInfo scopeRes).getArgTypesName 0 =
      ascii "(" ++ joined (ascii ", ") (Ty.names scopeRes f.params) ++ ascii ")" := by
    show (if (joined (ascii ", ") (Ty.names scopeRes f.params)).isEmpty then ascii "()"
      else ascii "(" ++ joined (ascii ", ") (Ty.names scopeRes f.params) ++ ascii ")") = _
    split
    case isTrue hnil =>
      rw [List.isEmpty_iff.mp hnil]
      rfl
    case isFalse => rfl
  rw [← hargs]
  show bare (f.pathText scopeRes) ++ [] ++ (f.declInfo scopeRes).getArgTypesName 0 ++ [] = _
  rw [List.append_nil, List.append_nil]

/-- The text of what a function stands for. -/
theorem Function.declInfo_text (f : Function) :
    qualified (f.declInfo (ascii "::")).pkgName
      ((f.declInfo (ascii "::")).getFullName (ascii "::")) = f.text := by
  rw [f.declInfo_fullName, Function.text, ← List.append_assoc, ← List.append_assoc]
  rfl

/-- **A call gives the function as a reader writes it**: its package, the path with `::` between the
    parts, and the parameters.  A name without back-references is not changed by the expansion, and
    behind that each part of the name is read by the lemma about its own unit. -/
theorem cjrtDemangle_function (hf : f.Accepted) (hplain : Plain f.mangle)
    (hfuel : f.mangle.length + MAX_ARGS_SIZE < fuel) :
    cjrtDemangle fuel f.mangle = some f.text := by
  have hstrip : withoutTypeInfo f.mangle = f.mangle := by
    rw [withoutTypeInfo, hplain.typeInfo, if_neg Bool.false_ne_true]
  let d := Demangler.init f.mangle false (ascii "::")
  have hexpand : expand fuel d = some ((), d) :=
    expand_eq (cjMangledDeCompression_plain false hplain.compressed)
  have hby : demangleBy fuel d = demangleDecl fuel d :=
    @demangleBy_decl d fuel (f.pkg.mangle ++ f.path) rfl rfl hplain.lambda hplain.wrapper
  have hahead : Ahead f.mangle (ascii "::") f.mangle d := ⟨rfl, rfl, rfl, Nat.zero_le _, rfl⟩
  obtain ⟨d1, heq, h1⟩ := demangleDecl_function hf
    (show ascii "::" ≠ [] by decide) (show f.mangle.length < fuel by omega) (by omega) hahead
  have hrun : demangle fuel d = some (f.declInfo (ascii "::"), d1) := by
    have hcons : ¬ d.mangledName.isEmpty = true := Bool.false_ne_true
    rw [demangle, get_bind, if_neg hcons, bind_of_eq hexpand, hby, heq]
  rw [cjrtDemangle, hstrip, hrun]
  show some (qualified _ ((f.declInfo (ascii "::")).getFullName d1.scopeResolution)) = _
  rw [h1.scopeRes, f.declInfo_text]

/-- `_CN3pkg3FooIlEXPG_plIG_Hlb`: an operator of an extension in a type of a package. -/
def plusOfFoo : Function where
  pkg := .named ⟨ascii "3", ascii "pkg"⟩
  scopes := [.named ⟨ascii "3", ascii "Foo"⟩ [.primitive 108], .extension (.pointer (.generic []))]
  name := .operator (ascii "pl")
  args := [.generic []]
  params := [.primitive 108, .primitive 98]

theorem int64 : (Ty.primitive 108).WellFormed :=
  show (108 : UInt8) ∈ ascii "nucbfdasilqhtjmr" by decide

theorem plusOfFoo_accepted : plusOfFoo.Accepted where
  pkg := ⟨⟨forall_chars (by decide), ⟨_, _, rfl, by decide⟩, ⟨_, _, rfl, by decide⟩, by decide⟩,
    show (ascii "pkg").length ≤ 4294967295 by decide⟩
  scopes := by
    intro scope hscope
    rcases List.mem_cons.mp hscope with rfl | hscope
    · exact ⟨⟨forall_chars (by decide), ⟨_, _, rfl, by decide⟩, ⟨_, _, rfl, by decide⟩, by decide⟩,
        show (ascii "Foo").length ≤ 4294967295 by decide, ⟨int64, trivial⟩, trivial, trivial⟩
    · rw [List.mem_singleton.mp hscope]
      exact ⟨nofun, trivial, rfl⟩
  slots := by decide
  name := ⟨rfl, by decide⟩
  args := ⟨⟨nofun, trivial⟩, trivial, trivial⟩
  closed := by
    refine ⟨?_, fun t ht => ?_⟩
    · rintro ⟨before, a, b, heq, -⟩
      have hlen := congrArg List.length heq
      simp [plusOfFoo] at hlen
    · rw [List.mem_singleton.mp ht]
      rfl
  params := ⟨⟨int64, show (98 : UInt8) ∈ ascii "nucbfdasilqhtjmr" by decide, trivial⟩, trivial,
    trivial, trivial⟩

theorem cjrtDemangle_function_plusOfFoo :
    plusOfFoo.mangle = ascii "_CN3pkg3FooIlEXPG_plIG_Hlb" ∧
    cjrtDemangle 60 plusOfFoo.mangle = some plusOfFoo.text ∧
    plusOfFoo.text = ascii "pkg.Foo<...>::CPointer::+<...>(Int64, Bool)" := by
  have hmangle : plusOfFoo.mangle = ascii "_CN3pkg3FooIlEXPG_plIG_Hlb" := by decide
  refine ⟨hmangle, cjrtDemangle_function plusOfFoo_accepted ?_ (by decide +kernel),
    by decide⟩
  rw [hmangle]
  exact ⟨by decide +kernel, by decide, by decide, by decide⟩

end Call

/-! ## Types -/

/-- The qualified name of a type: its package, and what it is called. -/
def Ty.qualifiedName (t : Ty) : RtString :=
  qualified (t.info (ascii "::") []).pkgName (t.info (ascii "::") []).getIdentifier

/-- **The qualified name of a type** is that of its info, whatever the type.  The call ends in a
    valid state, behind the last character of the type. -/
theorem demangleQualifiedName_type {t : Ty} {fuel : Nat} (hwf : t.WellFormed) (hacc : t.Accepted)
    (hfuel : t.mangle.length < fuel) :
    ∃ d, demangleQualifiedName fuel (Demangler.init t.mangle false (ascii "::")) =
      some (t.qualifiedName, d) ∧ d.isValid = true ∧ d.currentIndex = t.mangle.length := by
  let d := Demangler.init t.mangle false (ascii "::")
  have hahead : Ahead t.mangle (ascii "::") (t.mangle ++ []) d := by
    rw [List.append_nil]
    exact ⟨rfl, rfl, rfl, Nat.zero_le _, rfl⟩
  have hlist : ListAhead (ascii "::") [] [] [] 0 :=
    @listAhead_types (ascii "::") [] [] trivial (Or.inl rfl) fun fuel _ => .nil []
  obtain ⟨d1, heq, h1⟩ := demangleNextUnit_mangle (ascii "::") t hwf hacc fuel 0 [] [] []
    (fun _ => hlist) hfuel t.mangle d hahead
  rw [ite_self] at h1
  have htype : demangleAsType fuel d = some (t.info (ascii "::") [], d1) := by
    rw [demangleAsType, get_bind,
      if_neg (not_not.mpr (isQualifiedType_type (Ty.typeAhead hwf []) hahead)), heq]
  refine ⟨d1, ?_, h1.valid, ?_⟩
  · rw [demangleQualifiedName, bind_of_eq htype]
    rfl
  · have hlen := h1.rest.length
    rw [List.length_nil, Nat.add_zero] at hlen
    exact hlen.symm

theorem demangleQualifiedName_type_string : ∃ d,
    demangleQualifiedName 20 (Demangler.init (ascii "CNat6StringE") false (ascii "::")) =
      some (ascii "std.core.String", d) ∧ d.isValid = true ∧ d.currentIndex = 12 :=
  @demangleQualifiedName_type (.decl 67 (.std (ascii "at")) ⟨ascii "6", ascii "String"⟩) 20
    ⟨by decide, show mangleStdpkgMap (ascii "at") ≠ [] by decide, forall_chars (by decide),
      ⟨_, _, rfl, by decide⟩, ⟨_, _, rfl, by decide⟩, by decide⟩
    ⟨trivial, show (ascii "String").length ≤ 4294967295 by decide, by decide⟩ (by decide)

end CangjieRuntime.Demangle
