/-
  The demangler on the grammar of types.

  `Ty.info` says what a type stands for, and `DemangleNextUnit` gives it and stops right behind the
  type (`demangleNextUnit_mangle`).  `Ahead` says what is before the cursor of a demangler that is
  valid, and `Gives` that a function reads a part of it; every function of the parser has a lemma
  with what it reads.
-/
import CangjieRuntime.Demangle.TypeGrammar
import CangjieRuntime.Demangle.NestedDecls

set_option linter.unusedVariables false

namespace CangjieRuntime.Demangle

open CangjieRuntime.Computation

/-! ## What a type stands for -/

/-- The value of a number, 0 if it has no digits. -/
def numberValue (number : RtString) : BitVec 64 :=
  if number = [] then 0 else ((base62 number.reverse).getD (0, 0)).1 + 1

/-- The info of a package. -/
def Package.info : Package → DemangleInfo
  | .none => { type := .commonDecl }
  | .std code => {
      type := .commonDecl
      pkgName := replaceString (mangleStdpkgMap code) (ascii "$") (ascii "/")
      pkgArena := true }
  | .named name => {
      type := .commonDecl
      pkgName := replaceString (packageString name.bytes) (ascii "$") (ascii "/")
      pkgArena := true }

/-- The info of a list of generic arguments with these names. -/
def genericInfo (names : List RtString) : DemangleInfo :=
  { type := .genericTypes, args := joined (ascii ",") names }

/-- A name is added by the loop of `DemangleArgTypes`. -/
def argStep (delimiter : RtString) (v : Batch × Bool) (name : RtString) : Batch × Bool :=
  if v.1.i % 16 = 0 ∧ v.1.i ≠ 0 then
    ((⟨v.1.i, flushSlots v.1.argsArr delimiter v.1.result, rtStringSlots⟩ : Batch).push ⟨name, true⟩,
      true)
  else (v.1.push ⟨name, true⟩, v.2)

/-- The text of the parameters of a function type. -/
def argsText (delimiter : RtString) (names : List RtString) : RtString :=
  let v := names.foldl (argStep delimiter) (Batch.start, false)
  if v.1.i = 0 then v.1.result.bytes
  else
    let result :=
      if v.1.remainingLength = 0 ∧ v.2 then v.1.result.dropLast delimiter else v.1.result
    (rtConcat result (getArgTypesFullName v.1.argsArr v.1.remainingLength delimiter)).bytes

/-- The kind of a declaration. -/
def declKind (kind : UInt8) : DemanglerTypeKind :=
  if kind = 67 then .classType else if kind = 82 then .struct else .enum

/-- The info of a declaration whose only component has this name and these generic arguments. -/
def declInfo (scopeRes : RtString) (kind : UInt8) (pkg : Package) (name : Name)
    (genericTypes : RtString) : DemangleInfo where
  type := declKind kind
  pkgName := pkg.info.pkgName
  pkgArena := pkg.info.pkgArena
  isPrivateDeclaration := pkg.info.isPrivateDeclaration
  demangled :=
    ({ type := .name, demangled := name.bytes, genericTypes := genericTypes } :
      DemangleInfo).getFullName scopeRes

/-- The info of a VArray of types with these names. -/
def vArrayInfo (scopeRes number : RtString) (names : List RtString) : DemangleInfo where
  type := .tuple
  demangled := ascii "VArray"
  genericTypes := (genericInfo names).getFullNameOf scopeRes (numberValue number)

/-- What the demangler leaves of the list behind a type. -/
def Ty.left {α : Type} (t : Ty) (after : List α) : List α := if t.endsWithVArray then [] else after

mutual

/-- What a type stands for.  The names are those of the types that follow it in its list: a VArray
    takes them all. -/
def Ty.info (scopeRes : RtString) : Ty → List RtString → DemangleInfo
  | .primitive ch, _ => { type := .primitive, demangled := getPrimitiveDemangleMap ch }
  | .float16, _ => { type := .primitive, demangled := getPrimitiveDemangleMap 68 }
  | .cstring, _ => { type := .cstring, demangled := ascii "CString" }
  | .generic number, _ =>
    { type := .genericTypes, demangled := ascii "T" ++ rtIntToString (numberValue number) }
  | .pointer t, after => {
      type := .cpointer
      demangled := ascii "CPointer"
      genericTypes := rtFilterGeneric (({
        type := .genericTypes
        args := (t.info scopeRes after).getFullName scopeRes } : DemangleInfo).getFullName
          scopeRes) }
  | .array number t, after => {
      type := .rawArray
      demangled := ascii "RawArray"
      genericConstraints :=
        (List.replicate (numberValue number).toInt.toNat (ascii "[]")).flatten
      args := (t.info scopeRes after).getFullName scopeRes }
  | .vArray number t, after =>
    vArrayInfo scopeRes number ((t.info scopeRes after).getFullName scopeRes :: t.left after)
  | .tuple number ts, _ => {
      type := .tuple
      demangled := ascii "Tuple"
      genericTypes :=
        rtFilterGeneric ((genericInfo (Ty.names scopeRes ts)).getFullName scopeRes) }
  | .function isC result params, _ => {
      type := .function
      demangled := (result.info scopeRes (Ty.names scopeRes params)).getFullName scopeRes
      args := argsText (ascii ", ") (result.left (Ty.names scopeRes params)) }
  | .decl kind pkg name, _ => declInfo scopeRes kind pkg name []
  | .genericDecl kind pkg name args, _ =>
    declInfo scopeRes kind pkg name
      (rtFilterGeneric ((genericInfo (Ty.names scopeRes args)).getFullName scopeRes))

/-- The names of the types of a list, as the demangler reads it. -/
def Ty.names (scopeRes : RtString) : List Ty → List RtString
  | [] => []
  | t :: ts =>
    (t.info scopeRes (Ty.names scopeRes ts)).getFullName scopeRes :: t.left (Ty.names scopeRes ts)

end

/-- A type that ends with a VArray takes the names behind it; no type adds one to them. -/
theorem Ty.length_left {α : Type} (t : Ty) (after : List α) :
    (t.left after).length ≤ after.length := by
  rw [Ty.left]
  split
  · exact Nat.zero_le _
  · exact Nat.le_refl _

/-- A list of types has at most one name for each of its types, as a VArray swallows what
    follows. -/
theorem Ty.length_names (scopeRes : RtString) (ts : List Ty) :
    (Ty.names scopeRes ts).length ≤ ts.length := by
  induction ts with
  | nil => exact Nat.le_refl 0
  | cons t ts ih =>
    have hleft := t.length_left (Ty.names scopeRes ts)
    rw [Ty.names, List.length_cons, List.length_cons]
    omega

/-! ## Reading -/

/-- The demangler is valid, and `xs` is ahead. -/
structure Ahead (mangled scopeRes xs : RtString) (d : Demangler) : Prop where
  name : d.mangledName = mangled
  scopeRes : d.scopeResolution = scopeRes
  valid : d.isValid = true
  rest : Rest mangled d.currentIndex xs

/-- The run ends with `a`, and `xs` is ahead then. -/
def Gives {α : Type} (mangled scopeRes : RtString) (m : Dem α) (d : Demangler) (a : α)
    (xs : RtString) : Prop := ∃ d', m d = some (a, d') ∧ Ahead mangled scopeRes xs d'

section Reading

variable {mangled scopeRes xs ys rest : RtString} {d : Demangler} {α β : Type} {a : α} {b : β}
  {m m' : Dem α} {f : α → Dem β}

/-- The second step reads on where the first one stopped. -/
theorem Gives.bind (h : Gives mangled scopeRes m d a xs)
    (hf : ∀ d', Ahead mangled scopeRes xs d' → Gives mangled scopeRes (f a) d' b ys) :
    Gives mangled scopeRes (m >>= f) d b ys := by
  obtain ⟨d', heq, hd'⟩ := h
  obtain ⟨d'', heq', hd''⟩ := hf d' hd'
  exact ⟨d'', by rw [bind_of_eq heq, heq'], hd''⟩

/-- To return reads nothing: what was ahead is still ahead. -/
theorem gives_pure (h : Ahead mangled scopeRes xs d) : Gives mangled scopeRes (pure a) d a xs :=
  ⟨d, rfl, h⟩

/-- A step may look at the demangler before it decides what to do. -/
theorem gives_get {f : Demangler → Dem β} (h : Gives mangled scopeRes (f d) d b xs) :
    Gives mangled scopeRes (get >>= f) d b xs := h

/-- A choice whose condition holds is its first branch. -/
theorem gives_pos {c : Prop} [Decidable c] (hc : c) (h : Gives mangled scopeRes m d a xs) :
    Gives mangled scopeRes (if c then m else m') d a xs := by
  rw [if_pos hc]
  exact h

/-- A choice whose condition fails is its second branch. -/
theorem gives_neg {c : Prop} [Decidable c] (hc : ¬ c) (h : Gives mangled scopeRes m' d a xs) :
    Gives mangled scopeRes (if c then m else m') d a xs := by
  rw [if_neg hc]
  exact h

variable {ch : UInt8}

/-- With a byte ahead the cursor is not at the end, and both ways of looking at it show this
    byte. -/
theorem Ahead.cons (h : Ahead mangled scopeRes (ch :: rest) d) :
    d.atEnd = false ∧ d.current = ch ∧ d.peekChar = ch := by
  obtain ⟨hlt, hbyte⟩ := h.rest.byte
  have hend : d.atEnd = false := by
    rw [Demangler.atEnd, h.name]
    exact decide_eq_false (by omega)
  have hcurrent : d.current = ch := by
    rw [Demangler.current, h.name]
    exact hbyte
  refine ⟨hend, hcurrent, ?_⟩
  rw [Demangler.peekChar, hend, hcurrent]
  rfl

/-- With nothing ahead the cursor is at the end. -/
theorem Ahead.atEnd (h : Ahead mangled scopeRes [] d) : d.atEnd = true := by
  have hlen := h.rest.length
  rw [Demangler.atEnd, h.name]
  exact decide_eq_true (by simp only [List.length_nil] at hlen; omega)

/-- The form in which the guards of the source ask for a byte. -/
theorem Ahead.not_atEnd (h : Ahead mangled scopeRes (ch :: rest) d) : ¬ d.atEnd = true := by
  rw [h.cons.1]
  exact Bool.false_ne_true

/-- The byte after the next one. -/
theorem Ahead.second {ch' : UInt8} (h : Ahead mangled scopeRes (ch :: ch' :: rest) d) :
    d.currentIndex + 1 < d.mangledName.length ∧ d.mangledName.byte (d.currentIndex + 1) = ch' := by
  rw [h.name]
  exact h.rest.cons.byte

/-- `Advance` by the length of a prefix leaves what stands behind the prefix. -/
theorem advance_gives {n : Nat} (h : Ahead mangled scopeRes (xs ++ rest) d) (hn : xs.length = n) :
    Gives mangled scopeRes (advance n) d () rest := by
  subst hn
  exact ⟨_, rfl, h.name, h.scopeRes, h.valid, h.rest.append⟩

/-- `SkipChar` of the byte that is ahead passes it, and the demangler stays valid. -/
theorem skipChar_gives (h : Ahead mangled scopeRes (ch :: rest) d) :
    Gives mangled scopeRes (skipChar ch) d () rest := by
  refine gives_get (gives_neg h.not_atEnd (gives_neg ?_ ?_))
  · exact not_not.mpr h.cons.2.1
  · exact @advance_gives mangled scopeRes [ch] rest d 1 h rfl

/-- `SkipString` of what is ahead passes it, byte by byte. -/
theorem skipString_gives : ∀ (pattern : RtString) (d : Demangler),
    Ahead mangled scopeRes (pattern ++ rest) d →
      Gives mangled scopeRes (skipString pattern) d () rest := by
  intro pattern
  induction pattern with
  | nil => exact fun d h => gives_pure h
  | cons ch pattern ih =>
    intro d h
    refine (skipChar_gives h).bind fun d1 h1 => gives_get (gives_pos h1.valid ?_)
    exact ih d1 h1

/-- `GetChar` returns the byte ahead; a zero byte is the one it does not pass. -/
theorem getChar_gives (h : Ahead mangled scopeRes (ch :: rest) d) (hne : ch ≠ 0) :
    Gives mangled scopeRes getChar d ch rest := by
  refine gives_get ?_
  rw [h.cons.2.2]
  refine gives_pos hne ?_
  exact (@advance_gives mangled scopeRes [ch] rest d 1 h rfl).bind fun d1 h1 => gives_pure h1

/-! ### Numbers -/

/-- An alphanumeric byte is no end of text, no `_`, and a digit in base 62. -/
theorem isAlnum_cases : ∀ ch : UInt8, isAlnum ch = true →
    ch ≠ 0 ∧ ch ≠ 95 ∧ (BASE62_CHARS.idxOf? ch).isSome = true := by
  have hall : ∀ n < 256, isAlnum (UInt8.ofNat n) = true → UInt8.ofNat n ≠ 0 ∧ UInt8.ofNat n ≠ 95 ∧
      (BASE62_CHARS.idxOf? (UInt8.ofNat n)).isSome = true := by decide +kernel
  intro ch
  have := hall ch.toNat ch.toNat_lt
  rwa [UInt8.ofNat_toNat] at this

/-- The digits of a number are alphanumeric, and so its value in base 62 exists. -/
theorem base62_isSome (hnumber : IsNumber xs) : (base62 xs).isSome = true := by
  have hfold : ∀ (xs : RtString) (v : BitVec 64 × BitVec 64), IsNumber xs →
      (xs.foldlM (fun (value, power) ch =>
        (BASE62_CHARS.idxOf? ch).map fun i => (value + BitVec.ofNat 64 i * power, power * 62))
          v).isSome = true := by
    intro xs
    induction xs with
    | nil => exact fun v _ => rfl
    | cons ch xs ih =>
      intro v h
      obtain ⟨i, hi⟩ := Option.isSome_iff_exists.mp
        (isAlnum_cases ch (h ch List.mem_cons_self)).2.2
      rw [List.foldlM_cons, hi]
      exact ih _ fun ch' hch' => h ch' (List.mem_cons_of_mem ch hch')
  exact hfold xs (0, 1) hnumber

/-- The loop collects the digits up to the `_`, by induction on the digits that are left. -/
theorem numberLoop_gives : ∀ (number content : RtString) fuel (d : Demangler), IsNumber number →
    number.length < fuel → Ahead mangled scopeRes (number ++ 95 :: rest) d →
    Gives mangled scopeRes (iterate manglingNumberStep fuel content) d (some (content ++ number))
      rest := by
  intro number
  induction number with
  | nil =>
    intro content fuel d hnumber hfuel h
    obtain ⟨fuel, rfl⟩ := Nat.exists_eq_succ_of_ne_zero (Nat.ne_of_gt hfuel)
    obtain ⟨d1, heq, h1⟩ := getChar_gives h (by decide)
    refine ⟨d1, iterate_inr ?_, h1⟩
    rw [manglingNumberStep, bind_of_eq heq, if_pos (by decide), if_pos rfl, List.append_nil]
    rfl
  | cons ch number ih =>
    intro content fuel d hnumber hfuel h
    obtain ⟨fuel, rfl⟩ := Nat.exists_eq_succ_of_ne_zero (Nat.ne_of_gt (Nat.zero_lt_of_lt hfuel))
    obtain ⟨hne, hne', -⟩ := isAlnum_cases ch (hnumber ch List.mem_cons_self)
    obtain ⟨d1, heq, h1⟩ := getChar_gives h hne
    rw [List.length_cons] at hfuel
    obtain ⟨d2, heq2, h2⟩ := ih (content ++ [ch]) fuel d1
      (fun ch' hch' => hnumber ch' (List.mem_cons_of_mem ch hch')) (by omega) h1
    have hstep : manglingNumberStep content d = some (.inl (content ++ [ch]), d1) := by
      rw [manglingNumberStep, bind_of_eq heq, if_pos hne, if_neg hne']
      rfl
    refine ⟨d2, ?_, h2⟩
    rw [iterate_inl hstep, heq2, List.append_assoc]
    rfl

/-- A number in base 62 and its `_` are read, and the result is the value of its digits. -/
theorem demangleManglingNumber_gives {number : RtString} {fuel : Nat} (hnumber : IsNumber number)
    (hfuel : number.length < fuel) (h : Ahead mangled scopeRes (number ++ 95 :: rest) d) :
    Gives mangled scopeRes (demangleManglingNumber fuel) d (numberValue number) rest := by
  refine (numberLoop_gives number [] fuel d hnumber hfuel h).bind fun d1 h1 => ?_
  rw [List.nil_append]
  cases number with
  | nil => exact gives_pure h1
  | cons ch number =>
    obtain ⟨v, hv⟩ := Option.isSome_iff_exists.mp (@base62_isSome (ch :: number).reverse
      fun ch' hch' => hnumber ch' (List.mem_reverse.mp hch'))
    have hvalue : numberValue (ch :: number) = v.1 + 1 := by
      rw [numberValue, if_neg (List.cons_ne_nil ch number), hv]
      rfl
    rw [hvalue]
    dsimp only
    rw [hv]
    exact gives_pure h1

/-! ### Names -/

/-- The digits of a length are skipped; the fields are valid after the last one. -/
theorem digits_forM : ∀ (digits : RtString) (d : Demangler), digits ≠ [] → ∃ d',
    (digits.forM fun _ => do
      advance 1
      setValid true) d = some ((), d') ∧ d'.mangledName = d.mangledName ∧
      d'.scopeResolution = d.scopeResolution ∧ d'.isValid = true ∧
      d'.currentIndex = d.currentIndex + digits.length := by
  intro digits
  induction digits with
  | nil => exact fun d hne => absurd rfl hne
  | cons ch digits ih =>
    intro d hne
    by_cases hnil : digits = []
    · subst hnil
      exact ⟨_, rfl, rfl, rfl, rfl, rfl⟩
    · obtain ⟨d', heq, hname, hscope, hvalid, hindex⟩ := ih
        ({ ({ d with currentIndex := d.currentIndex + 1 } : Demangler).record with
          isValid := true } : Demangler).record hnil
      refine ⟨d', heq, hname, hscope, hvalid, ?_⟩
      rw [hindex, List.length_cons]
      simp only [Demangler.record]
      omega

variable {name : Name} {fuel : Nat}

/-- The length in front of a name is read: its digits have no leading zero and fit into 32 bits. -/
theorem demangleLength_gives (hname : name.WellFormed) (hshort : name.Short)
    (h : Ahead mangled scopeRes (name.mangle ++ rest) d) :
    Gives mangled scopeRes demangleLength d name.bytes.length (name.bytes ++ rest) := by
  obtain ⟨ch, more, hstart, hdigit, hne⟩ := hname.start
  have hcons := h
  rw [hstart] at hcons
  have htake : (d.mangledName.drop d.currentIndex).takeWhile isCurrentCharDigit = name.digits := by
    rw [h.name, h.rest.2]
    exact hname.takeWhile rest
  have hdigits : name.digits ≠ [] := by
    obtain ⟨ch', more', heq, -⟩ := hname.head
    rw [heq]
    exact List.cons_ne_nil ch' more'
  refine gives_get (gives_neg hcons.not_atEnd (gives_neg (by rw [hcons.cons.2.1]; exact hne) ?_))
  rw [htake]
  obtain ⟨d', heq, hname', hscope', hvalid', hindex'⟩ := digits_forM name.digits
    ({ d with isValid := false } : Demangler).record hdigits
  have hvalue : lengthValue name.digits = name.bytes.length := by
    show (nameLength name.digits).getD 0 = _
    rw [nameLength_eq (by rw [hname.length]; exact hshort), hname.length]
    rfl
  refine ⟨d', ?_, ?_⟩
  · show ((name.digits.forM fun _ => do
        advance 1
        setValid true) >>= fun _ =>
      if name.digits.isEmpty = true then pure 0 else pure (lengthValue name.digits))
        ({ d with isValid := false } : Demangler).record = _
    rw [bind_of_eq heq, if_neg (by simpa [List.isEmpty_iff] using hdigits), hvalue]
    rfl
  · have hrest := h.rest
    rw [Name.mangle, List.append_assoc] at hrest
    refine ⟨hname'.trans h.name, hscope'.trans h.scopeRes, hvalid', ?_⟩
    rw [hindex']
    exact hrest.append

/-- A name with its length is read, and the result is its bytes. -/
theorem demangleStringName_gives (hname : name.WellFormed) (hshort : name.Short)
    (h : Ahead mangled scopeRes (name.mangle ++ rest) d) :
    Gives mangled scopeRes demangleStringName d name.bytes rest := by
  obtain ⟨ch, more, hbytes, -⟩ := hname.bytes
  refine (demangleLength_gives hname hshort h).bind fun d1 h1 => gives_get ?_
  have hlen := h1.rest.length
  rw [List.length_append] at hlen
  refine gives_neg (by rw [hbytes]; exact Nat.succ_ne_zero _) (gives_neg ?_ ?_)
  · rw [h1.name]
    omega
  · refine (advance_gives h1 rfl).bind fun d2 h2 => ?_
    rw [h1.name, h1.rest.subStr]
    exact gives_pure h2

/-- In front of a digit there is no operator. -/
theorem isOperatorName_upper (h : Ahead mangled scopeRes (ch :: rest) d)
    (hch : ¬ (ch ≥ 97 ∧ ch ≤ 122)) : d.isOperatorName = false := by
  have hmap : getOperatorNameMap (d.mangledName.subStr d.currentIndex 2) = [] := by
    have hsub : d.mangledName.subStr d.currentIndex 2 = ch :: rest.take 1 := by
      rw [RtString.subStr, h.name, h.rest.2]
      rfl
    rw [hsub, getOperatorNameMap]
    exact if_pos fun hc => hch hc.1
  rw [Demangler.isOperatorName]
  refine decide_eq_false fun hc => hc.2.1 hmap

/-- A digit is no small letter, so a name does not look like an operator. -/
theorem not_lower_of_digit (h : isCurrentCharDigit ch = true) : ¬ (ch ≥ 97 ∧ ch ≤ 122) := by
  simp only [isCurrentCharDigit, Bool.decide_and, Bool.and_eq_true, decide_eq_true_eq] at h
  intro hc
  have h1 := UInt8.le_iff_toNat_le.mp h.2
  have h2 := UInt8.le_iff_toNat_le.mp hc.1
  simp at h1 h2
  omega

/-- A name of a file is told from the others by its `U` alone. -/
theorem isFileName_eq (h : Ahead mangled scopeRes (ch :: rest) d) :
    d.isFileName = decide (ch = 85) := by
  rw [Demangler.isFileName, h.cons.2.2]

/-- A package, in front of what is neither a `0` nor a file name. -/
theorem demanglePackageName_before {pkg : Package} (hpkg : pkg.WellFormed)
    (hpkgShort : pkg.Short) (hne : ch ≠ 48) (hfile : ch ≠ 85)
    (h : Ahead mangled scopeRes (pkg.mangle ++ ch :: rest) d) :
    Gives mangled scopeRes (demanglePackageName fuel) d pkg.info (ch :: rest) := by
  have hafter : ∀ d', Ahead mangled scopeRes (ch :: rest) d' → d'.isFileName = false ∧
      d'.current = ch := by
    intro d' h'
    refine ⟨?_, h'.cons.2.1⟩
    rw [isFileName_eq h']
    exact decide_eq_false hfile
  -- a package that starts with a digit is no standard one
  have hother : ∀ {ch : UInt8} {more : RtString}, Ahead mangled scopeRes (ch :: more) d →
      isCurrentCharDigit ch = true → ∀ {info : DemangleInfo} {xs : RtString},
      Gives mangled scopeRes (demanglePackageRest fuel []) d info xs →
      Gives mangled scopeRes (demanglePackageName fuel) d info xs := by
    intro ch more h' hch info xs hgives
    have hstd : (if d.currentIndex + 2 ≤ d.mangledName.length then
        mangleStdpkgMap (d.mangledName.subStr d.currentIndex 2) else []) = [] := by
      split
      · have hsub : d.mangledName.subStr d.currentIndex 2 = ch :: more.take 1 := by
          rw [RtString.subStr, h'.name, h'.rest.2]
          rfl
        rw [hsub, mangleStdpkgMap_digit hch]
      · rfl
    refine gives_get (gives_neg h'.not_atEnd ?_)
    rw [hstd]
    refine gives_neg (by simp) (gives_neg ?_ hgives)
    rw [h'.cons.2.1]
    simp [hch]
  cases pkg with
  | none =>
    refine hother h (by decide) (gives_get (gives_pos ?_ ?_))
    · exact (@Ahead.cons mangled scopeRes _ d 48 h).2.1
    · exact (@advance_gives mangled scopeRes [48] _ d 1 h rfl).bind fun d1 h1 => gives_pure h1
  | std code =>
    have hlen : code.length = 2 := by
      by_contra hne
      exact hpkg (if_pos hne)
    have hlong := h.rest.length
    rw [List.length_append] at hlong
    have hcodeLen : (Package.std code).mangle.length = 2 := hlen
    have hcode : (if d.currentIndex + 2 ≤ d.mangledName.length then
        mangleStdpkgMap (d.mangledName.subStr d.currentIndex 2) else []) = mangleStdpkgMap code := by
      rw [if_pos (by rw [h.name]; omega), h.name, ← hcodeLen, h.rest.subStr]
      rfl
    have hknown : mangleStdpkgMap code ≠ [] := hpkg
    have hend : d.atEnd = false := by
      rw [Demangler.atEnd, h.name]
      exact decide_eq_false (by omega)
    refine gives_get (gives_neg (by rw [hend]; exact Bool.false_ne_true) ?_)
    rw [hcode]
    refine gives_pos (by simpa [List.isEmpty_iff] using hknown) ?_
    refine (advance_gives h hlen).bind fun d1 h1 => ?_
    obtain ⟨hfile, hcurrent⟩ := hafter d1 h1
    refine gives_get (gives_neg (by rw [hcurrent]; exact hne) ?_)
    rw [if_neg (by simpa [List.isEmpty_iff] using hknown), pure_bind]
    refine gives_get ?_
    rw [hfile]
    exact gives_pure h1
  | named pkgName =>
    obtain ⟨ch, tail, hstart, hch, hne'⟩ := Name.WellFormed.start hpkg
    have hcons := h
    rw [show (Package.named pkgName).mangle = pkgName.mangle from rfl, hstart] at hcons
    refine hother hcons hch (gives_get (gives_neg (by rw [hcons.cons.2.1]; exact hne') ?_))
    rw [if_pos (show ([] : RtString).isEmpty = true from rfl), bind_assoc]
    refine (demangleStringName_gives hpkg hpkgShort h).bind fun d1 h1 => ?_
    rw [pure_bind]
    refine gives_get ?_
    rw [(hafter d1 h1).1]
    exact gives_pure h1

/-- A package, in front of a name. -/
theorem demanglePackageName_gives {pkg : Package} (hpkg : pkg.WellFormed) (hpkgShort : pkg.Short)
    (hname : name.WellFormed) (h : Ahead mangled scopeRes (pkg.mangle ++ (name.mangle ++ rest)) d) :
    Gives mangled scopeRes (demanglePackageName fuel) d pkg.info (name.mangle ++ rest) := by
  obtain ⟨first, more, hfirst, hdigit, hne⟩ := hname.start
  rw [hfirst, List.cons_append] at h ⊢
  refine demanglePackageName_before hpkg hpkgShort hne (fun hc => ?_) h
  rw [hc] at hdigit
  exact absurd hdigit (by decide)

end Reading

/-! ## Lists of types -/

/-- What ends a list of types: the end of the name, an `E`, or the `H` of a parameter list. -/
inductive Terminator : RtString → Prop
  | none : Terminator []
  | close (rest : RtString) : Terminator (69 :: rest)
  | params (rest : RtString) : Terminator (72 :: rest)

/-- The last two types are letters that together name an operator. -/
def EndsAsOperator (ts : List Ty) : Prop :=
  ∃ before a b, ts = before ++ [a, b] ∧ getOperatorNameMap (a.mangle ++ b.mangle) ≠ []

/-- The code of an operator begins with two small letters. -/
theorem getOperatorNameMap_lower {r0 r1 : UInt8} {more : RtString}
    (h : getOperatorNameMap (r0 :: r1 :: more) ≠ []) :
    (r0 ≥ 97 ∧ r0 ≤ 122) ∧ (r1 ≥ 97 ∧ r1 ≤ 122) := by
  by_contra hnot
  exact h (if_pos hnot)

/-- A single letter is the code of no operator. -/
theorem getOperatorNameMap_singleton (r0 : UInt8) : getOperatorNameMap [r0] = [] :=
  if_pos fun h => absurd (show (0 : UInt8) ≥ 97 from h.2.1) (by decide)

/-- Nor is the empty text. -/
theorem getOperatorNameMap_nil : getOperatorNameMap [] = [] := by decide

/-- A type that starts with a lower-case letter is that letter. -/
theorem Ty.mangle_lower {t : Ty} {ch : UInt8} {more : RtString} (h : t.WellFormed)
    (heq : t.mangle = ch :: more) (hlower : ch ≥ 97 ∧ ch ≤ 122) : t.mangle = [ch] := by
  have hkind : ∀ kind ∈ ascii "CRN", ¬ (kind ≥ 97 ∧ kind ≤ 122) := forall_chars (by decide)
  cases t with
  | primitive ch' =>
    rw [Ty.mangle] at heq ⊢
    cases heq
    rfl
  | cstring =>
    rw [Ty.mangle] at heq ⊢
    cases heq
    rfl
  | decl kind pkg name =>
    rw [Ty.mangle] at heq
    cases heq
    exact absurd hlower (hkind _ h.1)
  | genericDecl kind pkg name args =>
    rw [Ty.mangle] at heq
    cases heq
    exact absurd hlower (hkind _ h.1)
  | _ =>
    rw [Ty.mangle] at heq
    cases heq
    exact absurd hlower (by decide)

section Lists

variable {mangled scopeRes rest : RtString} {d : Demangler} {x : UInt8} {fuel : Nat}
  {next : Dem DemangleInfo}

/-- Two types that together start with an operator are two letters. -/
theorem mangle_operator {a b : Ty} {c d : UInt8} {more : RtString} (ha : a.WellFormed)
    (hb : b.WellFormed) (heq : a.mangle ++ b.mangle = c :: d :: more)
    (hop : getOperatorNameMap (c :: d :: more) ≠ []) : a.mangle = [c] ∧ b.mangle = [d] := by
  obtain ⟨c0, m0, heq0, -⟩ := Ty.start ha
  obtain ⟨c1, m1, heq1, -⟩ := Ty.start hb
  obtain ⟨hc, hd⟩ := getOperatorNameMap_lower hop
  rw [heq0] at heq
  obtain rfl : c0 = c := (List.cons.inj heq).1
  have hsingle := Ty.mangle_lower ha heq0 hc
  rw [heq0] at hsingle
  obtain rfl : m0 = [] := (List.cons.inj hsingle).2
  rw [heq1] at heq
  obtain rfl : c1 = d := (List.cons.inj (List.cons.inj heq).2).1
  exact ⟨heq0, Ty.mangle_lower hb heq1 hd⟩

/-- The three bytes that `IsOperatorName` looks at. -/
theorem isOperatorName_iff {xs : RtString} (h : Ahead mangled scopeRes xs d) :
    d.isOperatorName = true ↔ ∃ c c' ch more, xs = c :: c' :: ch :: more ∧
      getOperatorNameMap [c, c'] ≠ [] ∧ (ch = 73 ∨ ch = 72 ∨ ch = 75) := by
  have hsub : d.mangledName.subStr d.currentIndex 2 = xs.take 2 := by
    rw [RtString.subStr, h.name, h.rest.2]
  have hlen := h.rest.length
  rw [Demangler.isOperatorName, decide_eq_true_eq, hsub, h.name]
  constructor
  · rintro ⟨hlt, hop, hthird⟩
    rcases xs with _ | ⟨c, _ | ⟨c', _ | ⟨ch, more⟩⟩⟩
    · exact absurd getOperatorNameMap_nil hop
    · exact absurd (getOperatorNameMap_singleton c) hop
    · simp only [List.length_cons, List.length_nil] at hlen
      omega
    · refine ⟨c, c', ch, more, rfl, hop, ?_⟩
      rwa [show d.currentIndex + 2 = d.currentIndex + 1 + 1 from rfl, h.rest.cons.cons.byte.2]
        at hthird
  · rintro ⟨c, c', ch, more, rfl, hop, hthird⟩
    have hbyte := h.rest.cons.cons.byte
    refine ⟨hbyte.1, hop, ?_⟩
    rwa [show d.currentIndex + 2 = d.currentIndex + 1 + 1 from rfl, hbyte.2]

/-- A type in a list is taken for an operator only if it is the last but one, and parameters follow. -/
theorem isOperatorName_types {t : Ty} {ts : List Ty} {more : RtString} (ht : t.WellFormed)
    (hts : Ty.AllWellFormed ts) (hmore : Terminator more)
    (h : Ahead mangled scopeRes (t.mangle ++ (Ty.mangleAll ts ++ more)) d) :
    d.isOperatorName = true ↔ (∃ rest, more = 72 :: rest) ∧
      ∃ b, ts = [b] ∧ getOperatorNameMap (t.mangle ++ b.mangle) ≠ [] := by
  rw [isOperatorName_iff h]
  constructor
  · rintro ⟨c, c', ch, after, heq, hop, hthird⟩
    obtain ⟨hc, hc'⟩ := getOperatorNameMap_lower hop
    obtain ⟨c0, m0, heq0, -⟩ := Ty.start ht
    obtain rfl : c0 = c := by
      rw [heq0] at heq
      exact (List.cons.inj heq).1
    have hsingle := Ty.mangle_lower ht heq0 hc
    rw [hsingle] at heq
    have hrest : Ty.mangleAll ts ++ more = c' :: ch :: after := (List.cons.inj heq).2
    cases ts with
    | nil =>
      -- the second byte is that of the terminator
      have hterminator : more = c' :: ch :: after := hrest
      cases hmore with
      | none => cases hterminator
      | close rest =>
        cases hterminator
        exact absurd hc' (by decide)
      | params rest =>
        cases hterminator
        exact absurd hc' (by decide)
    | cons b ts =>
      obtain ⟨c1, m1, heq1, -⟩ := Ty.start hts.1
      rw [Ty.mangleAll, List.append_assoc] at hrest
      obtain rfl : c1 = c' := by
        rw [heq1] at hrest
        exact (List.cons.inj hrest).1
      have hsingle' := Ty.mangle_lower hts.1 heq1 hc'
      rw [hsingle'] at hrest
      have hlast : Ty.mangleAll ts ++ more = ch :: after := (List.cons.inj hrest).2
      cases ts with
      | nil =>
        have hterminator : more = ch :: after := hlast
        refine ⟨?_, b, rfl, by rw [hsingle, hsingle']; exact hop⟩
        cases hmore with
        | none => cases hterminator
        | close rest =>
          cases hterminator
          exact absurd hthird (by decide)
        | params rest => exact ⟨rest, rfl⟩
      | cons b' ts =>
        obtain ⟨c2, m2, heq2, hmem2⟩ := Ty.start hts.2.1
        have hno : ∀ ch ∈ typeStarts, ¬ (ch = 73 ∨ ch = 72 ∨ ch = 75) := forall_chars (by decide)
        rw [Ty.mangleAll, heq2] at hlast
        obtain rfl : c2 = ch := (List.cons.inj hlast).1
        exact absurd hthird (hno c2 hmem2)
  · rintro ⟨⟨rest, rfl⟩, b, rfl, hop⟩
    obtain ⟨c0, m0, heq0, -⟩ := Ty.start ht
    obtain ⟨c1, m1, heq1, -⟩ := Ty.start hts.1
    obtain ⟨c, c', more, heq⟩ : ∃ c c' more, t.mangle ++ b.mangle = c :: c' :: more := by
      rw [heq0, heq1]
      cases m0 with
      | nil => exact ⟨_, _, _, rfl⟩
      | cons x m0 => exact ⟨_, _, _, rfl⟩
    rw [heq] at hop
    obtain ⟨hfirst, hsecond⟩ := mangle_operator ht hts.1 heq hop
    refine ⟨c, c', 72, rest, ?_, hop, Or.inr (Or.inl rfl)⟩
    rw [hfirst, Ty.mangleAll, hsecond, Ty.mangleAll]
    rfl

/-- Two lists of types are written one behind the other. -/
theorem Ty.mangleAll_append (ts ts' : List Ty) :
    Ty.mangleAll (ts ++ ts') = Ty.mangleAll ts ++ Ty.mangleAll ts' := by
  induction ts with
  | nil => rfl
  | cons t ts ih => rw [List.cons_append, Ty.mangleAll, Ty.mangleAll, ih, List.append_assoc]

/-- Two well-formed lists of types are a well-formed one. -/
theorem Ty.allWellFormed_append {ts ts' : List Ty} (h : Ty.AllWellFormed ts)
    (h' : Ty.AllWellFormed ts') : Ty.AllWellFormed (ts ++ ts') := by
  induction ts with
  | nil => exact h'
  | cons t ts ih => exact ⟨h.1, ih h.2⟩

/-- Both parts of a well-formed list of types are well-formed. -/
theorem Ty.allWellFormed_of_append {ts ts' : List Ty} (h : Ty.AllWellFormed (ts ++ ts')) :
    Ty.AllWellFormed ts ∧ Ty.AllWellFormed ts' := by
  induction ts with
  | nil => exact ⟨trivial, h⟩
  | cons t ts ih => exact ⟨⟨h.1, (ih h.2).1⟩, (ih h.2).2⟩

/-- A type starts here.  The first byte decides, and so a list of types goes on exactly if this
    holds of what is left. -/
def TypeAhead (xs : RtString) : Prop := ∃ ch more, xs = ch :: more ∧ ch ∈ typeStarts

/-- The first byte of a well-formed type tells that a type begins. -/
theorem Ty.typeAhead {t : Ty} (ht : t.WellFormed) (more : RtString) :
    TypeAhead (t.mangle ++ more) := by
  obtain ⟨ch, tail, heq, hmem⟩ := Ty.start ht
  exact ⟨ch, tail ++ more, by rw [heq]; rfl, hmem⟩

/-- No type begins with a byte that ends a list, or with a digit. -/
theorem typeStarts_ne : ∀ ch ∈ typeStarts, ch ≠ 69 ∧ ch ≠ 72 ∧ ch ≠ 95 ∧ ch ≠ 36 ∧ ch ≠ 118 ∧
    isCurrentCharDigit ch = false := forall_chars (by decide)

/-- A type is ahead: the loops over types go on. -/
theorem Ahead.type {xs : RtString} (h : Ahead mangled scopeRes xs d)
    (hx : TypeAhead xs) : d.isNotEndOfMangledName = true ∧ d.atEnd = false ∧
      isCurrentCharDigit d.current = false ∧ d.current ≠ 72 ∧ d.current ≠ 95 ∧ d.current ≠ 36 ∧
        d.current ≠ 118 := by
  obtain ⟨ch, tail, rfl, hmem⟩ := hx
  obtain ⟨hE, hH, hunder, hdollar, hv, hdigit⟩ := typeStarts_ne ch hmem
  obtain ⟨hend, hcurrent, -⟩ := h.cons
  rw [Demangler.isNotEndOfMangledName, hcurrent, hend]
  exact ⟨decide_eq_true ⟨by simp, hE⟩, rfl, hdigit, hH, hunder, hdollar, hv⟩

/-- No operator starts here.  The loop over generic arguments stops at an operator, so this is what
    each further argument needs. -/
def NoOperator (scopeRes xs : RtString) : Prop :=
  ∀ mangled d, Ahead mangled scopeRes xs d → ¬ d.isOperatorName = true

/-- The unit reads `xs` up to `ys`, in every text. -/
def ReadsInto (scopeRes : RtString) (next : Dem DemangleInfo) (xs : RtString) (di : DemangleInfo)
    (ys : RtString) : Prop :=
  ∀ mangled d, Ahead mangled scopeRes xs d → Gives mangled scopeRes next d di ys

/-- The unit reads `xs` up to `ys` as types with these names. -/
inductive Chain (scopeRes : RtString) (next : Dem DemangleInfo) :
    RtString → List RtString → RtString → Prop
  | nil (xs : RtString) : Chain scopeRes next xs [] xs
  | cons {xs ys zs : RtString} {di : DemangleInfo} {names : List RtString} (hstart : TypeAhead xs)
    (hop : NoOperator scopeRes xs) (hreads : ReadsInto scopeRes next xs di ys)
    (hrest : Chain scopeRes next ys names zs) :
    Chain scopeRes next xs (di.getFullName scopeRes :: names) zs

/-- One more name. -/
theorem joined_snoc (delimiter : RtString) (names : List RtString) (name : RtString) :
    (if names.isEmpty = true then joined delimiter names else joined delimiter names ++ delimiter) ++
      name = joined delimiter (names ++ [name]) := by
  cases names with
  | nil => simp [joined]
  | cons n names =>
    rw [if_neg (by simp), joined_concat (List.cons_ne_nil n names), List.append_assoc]

/-- The guard of the loop over generic arguments.  The loop goes on while it holds: a byte is ahead
    which is no `E`, no digit and no `H`, nor the first of an operator. -/
abbrev GenericGuard (d : Demangler) : Prop :=
  d.isNotEndOfMangledName = true ∧ ¬ isCurrentCharDigit d.current = true ∧ d.current ≠ 72 ∧
    ¬ d.isOperatorName = true

/-- The loop reads a type. -/
theorem genericTypesStep_reads {xs ys : RtString} {di : DemangleInfo} {before : List RtString}
    (hreads : ReadsInto scopeRes next xs di ys) (hgo : GenericGuard d)
    (h : Ahead mangled scopeRes xs d) :
    Gives mangled scopeRes
      (genericTypesStep next (joined (ascii ",") before, before.isEmpty)) d
      (.inl (joined (ascii ",") (before ++ [di.getFullName scopeRes]),
        (before ++ [di.getFullName scopeRes]).isEmpty)) ys := by
  obtain ⟨d1, heq, h1⟩ := hreads mangled d h
  refine ⟨d1, ?_, h1⟩
  rw [genericTypesStep, get_bind, if_neg (not_not.mpr hgo), bind_of_eq heq, get_bind,
    if_neg (not_not.mpr h1.valid), h1.scopeRes]
  dsimp only
  rw [joined_snoc]
  simp [pure_eq]

/-- The loop over generic arguments reads a chain, and stops where it has to. -/
theorem Chain.genericLoop {xs ys : RtString} {names : List RtString}
    (hchain : Chain scopeRes next xs names ys) :
    (∀ d, Ahead mangled scopeRes ys d → ¬ GenericGuard d) →
    ∀ (before : List RtString) fuel d, names.length < fuel → Ahead mangled scopeRes xs d →
    Gives mangled scopeRes
      (iterate (genericTypesStep next) fuel (joined (ascii ",") before, before.isEmpty)) d
      (joined (ascii ",") (before ++ names)) ys := by
  induction hchain with
  | nil xs =>
    intro hstop before fuel d hfuel h
    obtain ⟨fuel, rfl⟩ := Nat.exists_eq_succ_of_ne_zero (Nat.ne_of_gt hfuel)
    refine ⟨d, iterate_inr ?_, h⟩
    rw [genericTypesStep, get_bind, if_pos (hstop d h), List.append_nil]
    rfl
  | @cons xs ys zs di names hstart hop hreads hrest ih =>
    intro hstop before fuel d hfuel h
    obtain ⟨fuel, rfl⟩ := Nat.exists_eq_succ_of_ne_zero (Nat.ne_of_gt (Nat.zero_lt_of_lt hfuel))
    rw [List.length_cons] at hfuel
    have hgo : GenericGuard d := by
      obtain ⟨hend, -, hdigit, hH, -⟩ := h.type hstart
      exact ⟨hend, by rw [hdigit]; exact Bool.false_ne_true, hH, hop mangled d h⟩
    obtain ⟨d1, hstep, h1⟩ := genericTypesStep_reads hreads hgo h
    obtain ⟨d2, heq, h2⟩ := ih hstop (before ++ [di.getFullName scopeRes]) fuel d1 (by omega) h1
    refine ⟨d2, ?_, h2⟩
    rw [iterate_inl hstep, heq, List.append_assoc]
    rfl

/-- The loop stops at a terminator. -/
theorem Terminator.stops {more : RtString} (hmore : Terminator more)
    (h : Ahead mangled scopeRes more d) : ¬ GenericGuard d := by
  rintro ⟨hend, -, hH, -⟩
  rw [Demangler.isNotEndOfMangledName, decide_eq_true_eq] at hend
  cases hmore with
  | none => exact hend.1 h.atEnd
  | close rest => exact hend.2 h.cons.2.1
  | params rest => exact hH h.cons.2.1

/-- The loop over generic types reads a chain of types up to the point where its guard fails. -/
theorem Chain.genericTypes {xs ys : RtString} {names : List RtString}
    (hchain : Chain scopeRes next xs names ys)
    (hstop : ∀ d, Ahead mangled scopeRes ys d → ¬ GenericGuard d) (hfuel : names.length < fuel)
    (h : Ahead mangled scopeRes xs d) :
    Gives mangled scopeRes (demangleGenericTypes fuel next) d (genericInfo names) ys :=
  (hchain.genericLoop hstop [] fuel d hfuel h).bind fun d1 h1 => gives_pure h1

/-- Each argument counts, whatever the delimiter. -/
theorem argStep_count (delimiter : RtString) (v : Batch × Bool) (name : RtString) :
    (argStep delimiter v name).1.i = v.1.i + 1 := by
  rw [argStep]
  split
  · rfl
  · rfl

/-- The loop over the parameters of a function type reads a chain, if there is no more after it, or
    if its types are the last that the loop counts. -/
theorem Chain.argLoop (delimiter : RtString) {xs ys : RtString} {names : List RtString}
    (hchain : Chain scopeRes next xs names ys) :
    ∀ (v : Batch × Bool) fuel d, names.length < fuel → v.1.i + names.length ≤ 4294967295 →
    (∀ d, Ahead mangled scopeRes ys d → v.1.i + names.length < 4294967295 →
      d.isNotEndOfMangledName = false) → Ahead mangled scopeRes xs d →
    Gives mangled scopeRes (iterate (argTypesStep next delimiter) fuel v) d
      (some (names.foldl (argStep delimiter) v)) ys := by
  -- a type a round; the batch goes along with `argStep`
  induction hchain with
  | nil xs =>
    intro v fuel d hfuel hcount hstop h
    obtain ⟨fuel, rfl⟩ := Nat.exists_eq_succ_of_ne_zero (Nat.ne_of_gt hfuel)
    refine ⟨d, iterate_inr ?_, h⟩
    have hnot : ¬ (d.isNotEndOfMangledName = true ∧ v.1.i < 4294967295) := by
      rintro ⟨hend, hlt⟩
      rw [hstop d h hlt] at hend
      cases hend
    rw [argTypesStep, get_bind, if_pos hnot]
    rfl
  | @cons xs ys zs di names hstart hop hreads hrest ih =>
    intro v fuel d hfuel hcount hstop h
    obtain ⟨fuel, rfl⟩ := Nat.exists_eq_succ_of_ne_zero (Nat.ne_of_gt (Nat.zero_lt_of_lt hfuel))
    rw [List.length_cons] at hfuel hcount hstop
    obtain ⟨hend, hatEnd, -, -, hunder, hdollar, -⟩ := h.type hstart
    have hdefault : d.isMaybeDefaultFuncParamFunction = false := by
      rw [Demangler.isMaybeDefaultFuncParamFunction]
      exact decide_eq_false fun hc => hdollar hc.2
    obtain ⟨d1, heq, h1⟩ := hreads mangled d h
    have hstep : argTypesStep next delimiter v d =
        some (.inl (argStep delimiter v (di.getFullName scopeRes)), d1) := by
      rw [argTypesStep, get_bind, if_neg (not_not.mpr ⟨hend, by omega⟩), get_bind, if_neg hunder]
      dsimp only
      rw [get_bind, hdefault, if_neg Bool.false_ne_true, bind_of_eq heq, get_bind,
        if_neg (not_not.mpr h1.valid), h1.scopeRes, argStep]
      split
      · rfl
      · rfl
    have hcount' := argStep_count delimiter v (di.getFullName scopeRes)
    obtain ⟨d2, heq2, h2⟩ := ih (argStep delimiter v (di.getFullName scopeRes)) fuel d1
      (by omega) (by omega) (fun d hd hlt => hstop d hd (by omega)) h1
    refine ⟨d2, ?_, h2⟩
    rw [iterate_inl hstep, heq2, List.foldl_cons]

/-- The loop over parameters reads a chain of types and joins their names with the delimiter, as
    long as their number fits into the 32 bits of its counter. -/
theorem Chain.argTypes (delimiter : RtString) {xs ys : RtString} {names : List RtString}
    (hchain : Chain scopeRes next xs names ys) (hfuel : names.length < fuel)
    (hcount : names.length ≤ 4294967295) (hv : ∀ rest, ys ≠ 118 :: rest)
    (hstop : ∀ d, Ahead mangled scopeRes ys d → names.length < 4294967295 →
      d.isNotEndOfMangledName = false) (h : Ahead mangled scopeRes xs d) :
    Gives mangled scopeRes (demangleArgTypes fuel next delimiter) d (argsText delimiter names) ys := by
  have hnotV : ¬ (d.currentIndex + 1 = d.mangledName.length ∧ d.current = 118) := by
    rintro ⟨hone, hcurrent⟩
    cases hchain with
    | nil =>
      cases xs with
      | nil =>
        have hlen := h.rest.length
        rw [h.name] at hone
        simp only [List.length_nil] at hlen
        omega
      | cons ch rest =>
        rw [h.cons.2.1] at hcurrent
        exact hv rest (by rw [hcurrent])
    | cons hstart hop hreads hrest => exact (h.type hstart).2.2.2.2.2.2 hcurrent
  have hzero : (Batch.start : Batch).i = 0 := rfl
  refine gives_get (gives_neg hnotV ?_)
  refine (hchain.argLoop delimiter (Batch.start, false) fuel d hfuel (by dsimp only; omega)
    (fun d hd hlt => hstop d hd (by dsimp only at hlt; omega)) h).bind fun d1 h1 => ?_
  dsimp only
  rw [argsText]
  split
  · exact gives_pure h1
  · exact gives_pure h1

/-- What ends a list with an `E`, or with the name. -/
def ListEnd (more : RtString) : Prop := more = [] ∨ ∃ rest, more = 69 :: rest

/-- What ends a list of types ends a type. -/
theorem ListEnd.terminator {more : RtString} (hmore : ListEnd more) : Terminator more := by
  rcases hmore with rfl | ⟨rest, rfl⟩
  · exact .none
  · exact .close rest

/-- The `H` of parameters does not end a list inside of a type. -/
theorem ListEnd.not_params {more : RtString} (hmore : ListEnd more) :
    ¬ ∃ rest, more = 72 :: rest := by
  rintro ⟨rest, rfl⟩
  rcases hmore with h | ⟨rest', h⟩
  · cases h
  · cases h

/-- At the end of a list the loop over parameters stops. -/
theorem isNotEnd_false {more : RtString} (hmore : ListEnd more)
    (h : Ahead mangled scopeRes more d) : d.isNotEndOfMangledName = false := by
  rw [Demangler.isNotEndOfMangledName]
  refine decide_eq_false fun hc => ?_
  rcases hmore with rfl | ⟨rest, rfl⟩
  · exact hc.1 h.atEnd
  · exact hc.2 h.cons.2.1

end Lists

/-! ## Declarations -/

section Declarations

variable {mangled scopeRes rest tail : RtString} {d : Demangler} {ch : UInt8} {fuel : Nat}
  {next : Dem DemangleInfo} {name : Name}

/-- No local counter is ahead. -/
theorem skipLocalCounter_gives (h : Ahead mangled scopeRes (ch :: rest) d) (hne : ch ≠ 75) :
    Gives mangled scopeRes (skipLocalCounter fuel) d () (ch :: rest) :=
  gives_get (gives_pos (by rw [h.cons.2.2]; exact hne) (gives_pure h))

/-- Without a `p` ahead nothing looks like a property. -/
theorem isProp_eq (h : Ahead mangled scopeRes (ch :: rest) d) (hne : ch ≠ 112) :
    d.isProp = false := by
  rw [Demangler.isProp]
  split
  · have hsub : d.mangledName.subStr d.currentIndex 2 = ch :: rest.take 1 := by
      rw [RtString.subStr, h.name, h.rest.2]
      rfl
    have hps : (ch :: rest.take 1 == ascii "ps") = false :=
      beq_eq_false_iff_ne.mpr fun hc => hne (List.cons.inj hc).1
    have hpg : (ch :: rest.take 1 == ascii "pg") = false :=
      beq_eq_false_iff_ne.mpr fun hc => hne (List.cons.inj hc).1
    dsimp only
    rw [hsub, hps, hpg]
    rfl
  · rfl

/-- The name of a component, in front of what is no `ps` or `pg`. -/
theorem nestedName_before {xs : RtString} (hname : name.WellFormed) (hshort : name.Short)
    (hprop : ∀ d', Ahead mangled scopeRes xs d' → d'.isProp = false)
    (h : Ahead mangled scopeRes (name.mangle ++ xs) d) :
    Gives mangled scopeRes nestedName d { type := .name, demangled := name.bytes } xs := by
  obtain ⟨first, more, hfirst, hdigit, -⟩ := hname.start
  have hstart := h
  rw [hfirst] at hstart
  refine gives_get (gives_neg ?_ ?_)
  · rw [isOperatorName_upper hstart (not_lower_of_digit hdigit)]
    exact Bool.false_ne_true
  refine (demangleStringName_gives hname hshort h).bind fun d1 h1 => gives_get ?_
  rw [hprop d1 h1, if_neg Bool.false_ne_true, pure_bind, h1.valid]
  exact gives_pure h1

/-- The name of a component, in front of its generic arguments or of the end. -/
theorem nestedName_gives (hname : name.WellFormed) (hshort : name.Short) (hch : ch = 69 ∨ ch = 73)
    (h : Ahead mangled scopeRes (name.mangle ++ ch :: rest) d) :
    Gives mangled scopeRes nestedName d { type := .name, demangled := name.bytes } (ch :: rest) := by
  refine nestedName_before hname hshort (fun d' h' => isProp_eq h' ?_) h
  rcases hch with rfl | rfl
  · decide
  · decide

/-- The declaration of a class: one component, and the end. -/
theorem demangleNestedDecls_gives {genericTypes : RtString} (hname : name.WellFormed)
    (hshort : name.Short) (hch : ch = 69 ∨ ch = 73)
    (hgeneric : ∀ d', Ahead mangled scopeRes (ch :: tail) d' →
      Gives mangled scopeRes
        (nestedGeneric fuel next true { type := .name, demangled := name.bytes }) d'
        { type := .name, demangled := name.bytes, genericTypes := genericTypes } (69 :: rest))
    (hfuel : 1 < fuel) (h : Ahead mangled scopeRes (name.mangle ++ ch :: tail) d) :
    Gives mangled scopeRes (demangleNestedDecls fuel next true false) d
      { type := .commonDecl
        demangled := ({ type := .name, demangled := name.bytes, genericTypes := genericTypes } :
          DemangleInfo).getFullName scopeRes } (69 :: rest) := by
  obtain ⟨fuel', rfl⟩ : ∃ fuel', fuel = fuel' + 1 + 1 := ⟨fuel - 2, by omega⟩
  obtain ⟨first, more, hfirst, hdigit, -⟩ := hname.start
  have hstart := h
  rw [hfirst] at hstart
  have hend : d.isNotEndOfMangledName = true := by
    rw [Demangler.isNotEndOfMangledName, hstart.cons.1, hstart.cons.2.1]
    refine decide_eq_true ⟨by simp, fun hc => ?_⟩
    rw [hc] at hdigit
    exact absurd hdigit (by decide)
  have hnot : ∀ c, isCurrentCharDigit c = false → d.current ≠ c := by
    intro c hc hcurrent
    rw [hstart.cons.2.1] at hcurrent
    rw [hcurrent, hc] at hdigit
    cases hdigit
  have hcounter : ch ≠ 75 := by
    rcases hch with rfl | rfl
    · decide
    · decide
  let curDi : DemangleInfo :=
    { type := .name, demangled := name.bytes, genericTypes := genericTypes }
  let batch : Batch := Batch.start.push ⟨curDi.getFullName scopeRes, true⟩
  -- the round with the component
  obtain ⟨d3, hround, h3⟩ : Gives mangled scopeRes
      (nestedStep (fuel' + 1 + 1) next true false ⟨Batch.start, .commonDecl, {}⟩) d
      (.inl ⟨batch, .commonDecl, curDi⟩) (69 :: rest) := by
    refine gives_get (gives_neg (not_not.mpr hend) (gives_neg (hnot 76 (by decide))
      (gives_neg (hnot 88 (by decide)) ?_)))
    refine (nestedName_gives hname hshort hch h).bind fun d1 h1 => gives_get ?_
    refine gives_neg h1.not_atEnd ?_
    refine (skipLocalCounter_gives h1 hcounter).bind fun d2 h2 => gives_get ?_
    refine gives_neg (not_not.mpr h2.valid) ?_
    refine (hgeneric d2 h2).bind fun d3 h3 => ?_
    have hfunction : Gives mangled scopeRes (nestedFunction (fuel' + 1 + 1) next curDi) d3
        (curDi, .commonDecl) (69 :: rest) := by
      refine gives_get (gives_neg ?_ (gives_pure h3))
      rw [h3.cons.2.2]
      decide
    refine hfunction.bind fun d4 h4 => gives_get (gives_neg (fun hc => ?_) ?_)
    · exact absurd hc.1 Bool.false_ne_true
    · rw [h.scopeRes]
      exact gives_pure h4
  -- the round at the end
  have hlast : nestedStep (fuel' + 1 + 1) next true false ⟨batch, .commonDecl, curDi⟩ d3 =
      some (.inr (.ok ⟨batch, .commonDecl, curDi⟩), d3) := by
    rw [nestedStep, get_bind, if_pos]
    · rfl
    · rw [Demangler.isNotEndOfMangledName, h3.cons.2.1, decide_eq_true_eq]
      exact fun hc => hc.2 rfl
  have hloop : iterate (nestedStep (fuel' + 1 + 1) next true false) (fuel' + 1 + 1)
      ⟨Batch.start, .commonDecl, {}⟩ d = some (.ok ⟨batch, .commonDecl, curDi⟩, d3) := by
    rw [iterate_inl hround, iterate_inr hlast]
  refine ⟨d3, ?_, h3⟩
  have htext : batch.text scopeRes = curDi.getFullName scopeRes :=
    @text_push_first scopeRes Batch.start rfl rfl ⟨curDi.getFullName scopeRes, true⟩
  rw [demangleNestedDecls, bind_of_eq hloop]
  show some (({
      type := DemanglerTypeKind.commonDecl
      demangled := batch.text d3.scopeResolution
      isValid := d3.isValid } : DemangleInfo), d3) = _
  rw [h3.scopeRes, htext, h3.valid]

/-- A class, struct, enum or interface is read: its package, its name, and then the generic
    arguments, which are given by `hgeneric`. -/
theorem demangleClass_gives {kind : UInt8} {pkg : Package} {genericTypes : RtString}
    (hpkg : pkg.WellFormed) (hpkgShort : pkg.Short) (hname : name.WellFormed)
    (hshort : name.Short) (hangle : name.bytes ≠ ascii "<>") (hch : ch = 69 ∨ ch = 73)
    (hgeneric : ∀ d', Ahead mangled scopeRes (ch :: tail) d' →
      Gives mangled scopeRes
        (nestedGeneric fuel next true { type := .name, demangled := name.bytes }) d'
        { type := .name, demangled := name.bytes, genericTypes := genericTypes } (69 :: rest))
    (hfuel : 1 < fuel)
    (h : Ahead mangled scopeRes (kind :: 78 :: (pkg.mangle ++ (name.mangle ++ ch :: tail))) d) :
    Gives mangled scopeRes (demangleClass fuel next (declKind kind)) d
      (declInfo scopeRes kind pkg name genericTypes) rest := by
  refine (@advance_gives mangled scopeRes [kind] _ d 1 h rfl).bind fun d1 h1 => ?_
  -- the declaration, up to its end
  have hcommon : Gives mangled scopeRes (demangleCommonDecl fuel next true) d1
      { declInfo scopeRes kind pkg name genericTypes with type := .commonDecl } (69 :: rest) := by
    have hglobal : ¬ d1.current ≠ 78 := not_not.mpr h1.cons.2.1
    refine gives_get (gives_neg hglobal ?_)
    refine (skipString_gives (ascii "N") d1 h1).bind fun d2 h2 => gives_get ?_
    refine gives_neg (not_not.mpr h2.valid) ?_
    refine Gives.bind (a := { declInfo scopeRes kind pkg name genericTypes with
      type := .commonDecl }) ?_ fun d3 h3 => gives_get (gives_neg (fun hc => ?_) (gives_pure h3))
    · refine (demanglePackageName_gives hpkg hpkgShort hname h2).bind fun d3 h3 => ?_
      refine (demangleNestedDecls_gives hname hshort hch hgeneric hfuel h3).bind
        fun d4 h4 => gives_get (gives_neg ?_ (gives_pure h4))
      rintro (hinvalid | hempty)
      · exact hinvalid h4.valid
      · rw [getFullName_name] at hempty
        obtain ⟨c, more, hbytes, -⟩ := hname.bytes
        have hidentifier := @getIdentifier_ne_nil { type := .name, demangled := name.bytes }
          (by rw [hbytes]; exact List.cons_ne_nil c more) hangle
        exact hidentifier (List.append_eq_nil_iff.mp (List.isEmpty_iff.mp hempty)).1
    · exact hglobal hc.1
  refine hcommon.bind fun d2 h2 => gives_get (gives_pos h2.cons.2.2 ?_)
  exact (skipChar_gives h2).bind fun d3 h3 => gives_pure h3

/-- No generic arguments are ahead. -/
theorem nestedGeneric_none (di : DemangleInfo) (h : Ahead mangled scopeRes (69 :: rest) d) :
    Gives mangled scopeRes (nestedGeneric fuel next true di) d di (69 :: rest) := by
  refine gives_get (gives_neg ?_ (gives_pure h))
  rw [h.cons.2.1]
  decide

/-- The generic arguments between `I` and `E` are read, and their text goes through the filter. -/
theorem nestedGeneric_gives {xs : RtString} {names : List RtString} (di : DemangleInfo)
    (hchain : Chain scopeRes next xs names (69 :: rest)) (hfuel : names.length < fuel)
    (h : Ahead mangled scopeRes (73 :: xs) d) :
    Gives mangled scopeRes (nestedGeneric fuel next true di) d
      { di with
        genericTypes := rtFilterGeneric ((genericInfo names).getFullName scopeRes)
        ownerArena := true } (69 :: rest) := by
  refine gives_get (gives_pos h.cons.2.1 ?_)
  refine (skipChar_gives h).bind fun d1 h1 => ?_
  refine (hchain.genericTypes (fun d hd => (Terminator.close rest).stops hd) hfuel h1).bind
    fun d2 h2 => ?_
  rw [h.scopeRes]
  exact gives_neg (fun hc => hc rfl) (gives_pure h2)

end Declarations

/-! ## The other types -/

section Units

variable {mangled scopeRes rest : RtString} {d : Demangler} {ch : UInt8} {fuel : Nat}
  {next : Dem DemangleInfo}

/-- A function type is read: the result first, and then the parameters up to the `E`. -/
theorem demangleFunctionType_gives {isC : Bool} {xs ys : RtString} {di : DemangleInfo}
    {names : List RtString} (hresult : ReadsInto scopeRes next xs di ys)
    (hparams : Chain scopeRes next ys names (69 :: rest)) (hfuel : names.length < fuel)
    (hcount : names.length ≤ 4294967295)
    (h : Ahead mangled scopeRes (70 :: (if isC then 67 else 48) :: xs) d) :
    Gives mangled scopeRes
      (demangleFunctionType fuel next (70 :: (if isC then 67 else 48) :: [])) d
      { type := .function
        demangled := di.getFullName scopeRes
        args := argsText (ascii ", ") names } rest := by
  refine (skipString_gives (70 :: (if isC then 67 else 48) :: []) d h).bind fun d1 h1 => ?_
  refine (hresult mangled d1 h1).bind fun d2 h2 => gives_get ?_
  refine (hparams.argTypes (ascii ", ") hfuel hcount (fun rest' heq => by cases heq)
    (fun d' h' hlt => isNotEnd_false (Or.inr ⟨rest, rfl⟩) h') h2).bind fun d3 h3 => ?_
  refine (skipChar_gives h3).bind fun d4 h4 => ?_
  rw [h2.scopeRes]
  exact gives_pure h4

section Numbered

variable {number xs ys : RtString} {names : List RtString} {di : DemangleInfo}

/-- A tuple is read: a number, which is dropped, and the types up to the `E`. -/
theorem demangleTuple_gives (hnumber : IsNumber number)
    (hchain : Chain scopeRes next xs names (69 :: rest)) (hfuel : names.length < fuel)
    (hlong : number.length < fuel)
    (h : Ahead mangled scopeRes (84 :: (number ++ 95 :: xs)) d) :
    Gives mangled scopeRes (demangleTuple fuel next) d
      { type := .tuple
        demangled := ascii "Tuple"
        genericTypes := rtFilterGeneric ((genericInfo names).getFullName scopeRes) } rest := by
  refine (skipChar_gives h).bind fun d1 h1 => ?_
  refine (demangleManglingNumber_gives hnumber hlong h1).bind fun d2 h2 => ?_
  refine (hchain.genericTypes (fun d hd => (Terminator.close rest).stops hd) hfuel h2).bind
    fun d3 h3 => gives_get ?_
  refine (skipChar_gives h3).bind fun d4 h4 => ?_
  rw [h3.scopeRes]
  exact gives_pure h4

/-- An array is read: the number of its dimensions, which decides the brackets, and its element. -/
theorem demangleRawArray_gives (hnumber : IsNumber number)
    (hreads : ReadsInto scopeRes next xs di ys) (hlong : number.length < fuel)
    (h : Ahead mangled scopeRes (65 :: (number ++ 95 :: xs)) d) :
    Gives mangled scopeRes (demangleRawArray fuel next) d
      { type := .rawArray
        demangled := ascii "RawArray"
        genericConstraints :=
          (List.replicate (numberValue number).toInt.toNat (ascii "[]")).flatten
        args := di.getFullName scopeRes } ys := by
  refine (skipChar_gives h).bind fun d1 h1 => ?_
  refine (demangleManglingNumber_gives hnumber hlong h1).bind fun d2 h2 => ?_
  refine (hreads mangled d2 h2).bind fun d3 h3 => gives_get ?_
  rw [h3.scopeRes]
  exact gives_pure h3

/-- A VArray takes the whole list. -/
theorem demangleVArray_gives (hnumber : IsNumber number)
    (hchain : Chain scopeRes next xs names ys) (hend : ListEnd ys) (hfuel : names.length < fuel)
    (hlong : number.length < fuel)
    (h : Ahead mangled scopeRes (86 :: (number ++ 95 :: xs)) d) :
    Gives mangled scopeRes (demangleVArray fuel next) d (vArrayInfo scopeRes number names) ys := by
  refine (skipChar_gives h).bind fun d1 h1 => ?_
  refine (demangleManglingNumber_gives hnumber hlong h1).bind fun d2 h2 => ?_
  refine (hchain.genericTypes (fun d hd => hend.terminator.stops hd) hfuel h2).bind
    fun d3 h3 => gives_get ?_
  rw [h3.scopeRes]
  exact gives_pure h3

end Numbered

/-- Where a type begins, the demangler sees one. -/
theorem isQualifiedType_type {xs : RtString} (hx : TypeAhead xs)
    (h : Ahead mangled scopeRes xs d) : d.isQualifiedType = true := by
  obtain ⟨ch, tail, rfl, hmem⟩ := hx
  have hstarts : ∀ ch ∈ typeStarts, isPrimitive ch = true ∨ ch ∈ ascii "CRFNTPAkVG" :=
    forall_chars (by decide)
  rw [Demangler.isQualifiedType, h.cons.1, if_neg Bool.false_ne_true, h.cons.2.1]
  split
  · rfl
  · split
    · rfl
    case isFalse hprimitive =>
      rcases hstarts ch hmem with hc | hc
      · exact absurd hc hprimitive
      · exact decide_eq_true hc

/-- A pointer is read: its `P`, and the type behind it. -/
theorem demangleCPointer_gives {xs ys : RtString} {di : DemangleInfo} (hx : TypeAhead xs)
    (hreads : ReadsInto scopeRes next xs di ys)
    (h : Ahead mangled scopeRes (80 :: xs) d) :
    Gives mangled scopeRes (demangleCPointer next) d
      { type := .cpointer
        demangled := ascii "CPointer"
        genericTypes := rtFilterGeneric (({
          type := .genericTypes
          args := di.getFullName scopeRes } : DemangleInfo).getFullName scopeRes) } ys := by
  refine (skipChar_gives h).bind fun d1 h1 => ?_
  have htype : Gives mangled scopeRes (demangleType next) d1
      { type := .genericTypes, args := di.getFullName scopeRes } ys := by
    refine gives_get (gives_pos (isQualifiedType_type hx h1) ?_)
    refine (hreads mangled d1 h1).bind fun d2 h2 => gives_get (gives_pos h2.valid ?_)
    rw [h2.scopeRes]
    exact gives_pure h2
  refine htype.bind fun d2 h2 => gives_get ?_
  rw [h2.scopeRes]
  exact gives_pure h2

/-- A primitive type is read by its one letter. -/
theorem demanglePrimitive_gives (h : Ahead mangled scopeRes (ch :: rest) d) (hne : ch ≠ 68) :
    Gives mangled scopeRes demanglePrimitive d
      { type := .primitive, demangled := getPrimitiveDemangleMap ch } rest := by
  have hmatch : d.matchForward (ascii "Dh") = false := by
    rw [Demangler.matchForward, h.cons.1, if_neg Bool.false_ne_true]
    dsimp only
    rw [RtString.subStr, h.name, h.rest.2]
    refine beq_eq_false_iff_ne.mpr fun hc => ?_
    generalize (if (ascii "Dh").length > mangled.length - d.currentIndex then
      mangled.length - d.currentIndex else (ascii "Dh").length) = len at hc
    cases len with
    | zero => exact absurd hc (by rw [List.take_zero]; decide)
    | succ len => exact hne (List.cons.inj hc).1
  refine gives_get (gives_neg h.not_atEnd ?_)
  rw [hmatch, h.cons.2.1]
  exact (skipChar_gives h).bind fun d1 h1 => gives_pure h1

/-- `Float16` is the primitive type of two letters. -/
theorem demangleFloat16_gives (h : Ahead mangled scopeRes (68 :: 104 :: rest) d) :
    Gives mangled scopeRes demanglePrimitive d
      { type := .primitive, demangled := getPrimitiveDemangleMap 68 } rest := by
  have hmatch : d.matchForward (ascii "Dh") = true := by
    have hlen := h.rest.length
    rw [List.length_cons, List.length_cons] at hlen
    rw [Demangler.matchForward, h.cons.1, if_neg Bool.false_ne_true]
    dsimp only
    rw [if_neg (by rw [h.name]; show ¬ 2 > _; omega), RtString.subStr, h.name, h.rest.2]
    rfl
  refine gives_get (gives_neg h.not_atEnd ?_)
  rw [hmatch, h.cons.2.1]
  exact (skipString_gives (ascii "Dh") d h).bind fun d1 h1 => gives_pure h1

/-- A C string is read by its one letter. -/
theorem demangleCStringType_gives (h : Ahead mangled scopeRes (107 :: rest) d) :
    Gives mangled scopeRes demangleCStringType d
      { type := .cstring, demangled := ascii "CString" } rest := by
  refine (skipChar_gives h).bind fun d1 h1 => gives_get ?_
  rw [h1.valid]
  exact gives_pure h1

/-- A generic parameter is read: a `G` and its number, which its name shows. -/
theorem demangleGenericType_gives {number : RtString} (hnumber : IsNumber number)
    (hlong : number.length < fuel) (h : Ahead mangled scopeRes (71 :: (number ++ 95 :: rest)) d) :
    Gives mangled scopeRes (demangleGenericType fuel) d
      { type := .genericTypes, demangled := ascii "T" ++ rtIntToString (numberValue number) }
      rest := by
  refine (skipChar_gives h).bind fun d1 h1 => ?_
  refine (demangleManglingNumber_gives hnumber hlong h1).bind fun d2 h2 => gives_get ?_
  rw [h2.valid]
  exact gives_pure h2

/-! ## A unit -/

/-- The end of a unit only resets the field that says where it began. -/
theorem finishUnit_gives {start : Nat} {di : DemangleInfo} {xs : RtString}
    (h : Ahead mangled scopeRes xs d) : Gives mangled scopeRes (finishUnit start di) d di xs := by
  refine gives_get ?_
  rw [if_neg (not_not.mpr h.valid), pure_bind]
  exact ⟨_, rfl, h.name, h.scopeRes, h.valid, h.rest⟩

/-- A unit without decompression is what its first byte selects. -/
theorem unit_gives {di : DemangleInfo}
    (h : Gives mangled scopeRes (demangleByPrefix (fuel + 1) (demangleNextUnit fuel)) d di rest) :
    Gives mangled scopeRes (demangleNextUnit (fuel + 1)) d di rest :=
  gives_get (h.bind fun d1 h1 => finishUnit_gives h1)

/-- The three kinds of declarations are read as classes. -/
theorem class_gives {kind : UInt8} {di : DemangleInfo} {more : RtString}
    (hkind : kind ∈ ascii "CRN") (h : Ahead mangled scopeRes (kind :: more) d)
    (hgives : Gives mangled scopeRes
      (demangleClass (fuel + 1) (demangleNextUnit fuel) (declKind kind)) d di rest) :
    Gives mangled scopeRes (demangleNextUnit (fuel + 1)) d di rest := by
  refine unit_gives (gives_get (gives_neg h.not_atEnd ?_))
  rw [h.cons.2.1]
  rcases declKinds kind hkind with rfl | rfl | rfl
  · exact hgives
  · exact hgives
  · exact hgives

end Units

section Types

variable (scopeRes : RtString)

/-- Types with these names are ahead in `xs`, up to the end `ys` of their list. -/
structure ListAhead (xs : RtString) (names : List RtString) (ys : RtString) (n : Nat) : Prop where
  ends : ListEnd ys
  count : names.length ≤ n
  operator : ∀ t : Ty, t.WellFormed → NoOperator scopeRes (t.mangle ++ xs)
  chain : ∀ fuel, n < fuel → Chain scopeRes (demangleNextUnit fuel) xs names ys

/-- No type of the list is taken for an operator. -/
def Operatorless (ts : List Ty) (ys : RtString) : Prop :=
  ∀ before t after, ts = before ++ t :: after →
    NoOperator scopeRes (t.mangle ++ (Ty.mangleAll after ++ ys))

variable {scopeRes} {xs ys : RtString} {names : List RtString} {t : Ty} {ts : List Ty}
  {next : Dem DemangleInfo}

/-- A list without a type that looks like an operator has none behind its head. -/
theorem Operatorless.tail (h : Operatorless scopeRes (t :: ts) ys) : Operatorless scopeRes ts ys :=
  fun before t' after heq => h (t :: before) t' after (by rw [heq, List.cons_append])

/-- The first part of such a list is one, with the second part behind it. -/
theorem Operatorless.append {ts' : List Ty} (h : Operatorless scopeRes (ts ++ ts') ys) :
    Operatorless scopeRes ts (Ty.mangleAll ts' ++ ys) := by
  rintro before t after rfl
  have hop := h before t (after ++ ts') (by rw [List.append_assoc, List.cons_append])
  rwa [Ty.mangleAll_append, List.append_assoc] at hop

/-- Well-formed types look like no operator, except at the end of the generic arguments of a
    function, where an `H` may follow. -/
theorem operatorless_types (hwf : Ty.AllWellFormed ts) (hys : Terminator ys)
    (hop : ¬ ((∃ rest, ys = 72 :: rest) ∧ EndsAsOperator ts)) : Operatorless scopeRes ts ys := by
  rintro before t after rfl mangled d h hname
  have hsuffix := (Ty.allWellFormed_of_append hwf).2
  obtain ⟨hparams, b, rfl, hmap⟩ := (isOperatorName_types hsuffix.1 hsuffix.2 hys h).mp hname
  exact hop ⟨hparams, before, t, b, rfl, hmap⟩

/-- Inside of a type no `H` follows, and so the exception does not apply. -/
theorem operatorless_end (hwf : Ty.AllWellFormed ts) (hys : ListEnd ys) :
    Operatorless scopeRes ts ys :=
  operatorless_types hwf hys.terminator fun hc => hys.not_params hc.1

/-- A list of types that is read as a chain is what the loops of the demangler expect ahead. -/
theorem listAhead_types (hwf : Ty.AllWellFormed ts) (hys : ListEnd ys)
    (hchain : ∀ fuel, (Ty.mangleAll ts).length < fuel →
      Chain scopeRes (demangleNextUnit fuel) (Ty.mangleAll ts ++ ys) (Ty.names scopeRes ts) ys) :
    ListAhead scopeRes (Ty.mangleAll ts ++ ys) (Ty.names scopeRes ts) ys
      (Ty.mangleAll ts).length where
  ends := hys
  count := Nat.le_trans (Ty.length_names scopeRes ts) (Ty.length_le_mangleAll hwf)
  operator := fun t ht =>
    @operatorless_end scopeRes ys (t :: ts) ⟨ht, hwf⟩ hys [] t ts rfl
  chain := hchain

/-- The rest of a chain behind a type. -/
theorem Chain.left (t : Ty) (h : Chain scopeRes next xs names ys) :
    Chain scopeRes next (if t.endsWithVArray then ys else xs) (t.left names) ys := by
  rw [Ty.left]
  split
  · exact .nil ys
  · exact h

/-- A type is put before a chain. The rest of the chain is what the type leaves of it. -/
theorem Chain.type (ht : t.WellFormed) (hop : NoOperator scopeRes (t.mangle ++ xs))
    (hreads : ReadsInto scopeRes next (t.mangle ++ xs) (t.info scopeRes names)
      (if t.endsWithVArray then ys else xs)) (h : Chain scopeRes next xs names ys) :
    Chain scopeRes next (t.mangle ++ xs)
      ((t.info scopeRes names).getFullName scopeRes :: t.left names) ys :=
  .cons (Ty.typeAhead ht xs) hop hreads (h.left t)

variable (scopeRes)

mutual

/-- **The demangler reads a type and stops right behind it.**  By induction over the type.  A type
    that ends with a VArray reads on to the end of the list it is in; so the statement has the names
    of the types behind it, and where they end. -/
theorem demangleNextUnit_mangle : ∀ (t : Ty), t.WellFormed → t.Accepted →
    ∀ (fuel n : Nat) (xs : RtString) (names : List RtString) (ys : RtString),
    (t.endsWithVArray = true → ListAhead scopeRes xs names ys n) → t.mangle.length + n < fuel →
    ReadsInto scopeRes (demangleNextUnit fuel) (t.mangle ++ xs) (t.info scopeRes names)
      (if t.endsWithVArray then ys else xs)
  | t, hwf, hacc, 0, n, xs, names, ys, hlist, hfuel => absurd hfuel (Nat.not_lt_zero _)
  | .primitive ch, hwf, hacc, fuel + 1, n, xs, names, ys, hlist, hfuel => by
    intro mangled d h
    have hrest : Ahead mangled scopeRes (ch :: xs) d := h
    have hne : ∀ ch ∈ ascii "nucbfdasilqhtjmr", ch ≠ 68 := forall_chars (by decide)
    have hgives := demanglePrimitive_gives hrest (hne ch hwf)
    refine unit_gives (gives_get (gives_neg hrest.not_atEnd ?_))
    rw [hrest.cons.2.1]
    rcases primitiveLetters ch hwf with rfl | rfl | rfl | rfl | rfl | rfl | rfl | rfl | rfl | rfl |
      rfl | rfl | rfl | rfl | rfl | rfl
    all_goals exact hgives
  | .float16, hwf, hacc, fuel + 1, n, xs, names, ys, hlist, hfuel => by
    intro mangled d h
    have hrest : Ahead mangled scopeRes (68 :: 104 :: xs) d := h
    refine unit_gives (gives_get (gives_neg hrest.not_atEnd ?_))
    rw [hrest.cons.2.1]
    exact demangleFloat16_gives hrest
  | .cstring, hwf, hacc, fuel + 1, n, xs, names, ys, hlist, hfuel => by
    intro mangled d h
    have hrest : Ahead mangled scopeRes (107 :: xs) d := h
    refine unit_gives (gives_get (gives_neg hrest.not_atEnd ?_))
    rw [hrest.cons.2.1]
    exact demangleCStringType_gives hrest
  | .generic number, hwf, hacc, fuel + 1, n, xs, names, ys, hlist, hfuel => by
    intro mangled d h
    have hrest : Ahead mangled scopeRes (71 :: (number ++ 95 :: xs)) d := by
      simpa [Ty.mangle] using h
    simp only [Ty.mangle, List.length_cons, List.length_append] at hfuel
    refine unit_gives (gives_get (gives_neg hrest.not_atEnd ?_))
    rw [hrest.cons.2.1]
    exact demangleGenericType_gives hwf (by omega) hrest
  | .pointer t, hwf, hacc, fuel + 1, n, xs, names, ys, hlist, hfuel => by
    intro mangled d h
    have hrest : Ahead mangled scopeRes (80 :: (t.mangle ++ xs)) d := h
    simp only [Ty.mangle, List.length_cons] at hfuel
    refine unit_gives (gives_get (gives_neg hrest.not_atEnd ?_))
    rw [hrest.cons.2.1]
    have hreads := demangleNextUnit_mangle t hwf hacc fuel n xs names ys hlist (by omega)
    exact demangleCPointer_gives (@Ty.typeAhead t hwf xs) hreads hrest
  | .array number t, hwf, hacc, fuel + 1, n, xs, names, ys, hlist, hfuel => by
    intro mangled d h
    have hrest : Ahead mangled scopeRes (65 :: (number ++ 95 :: (t.mangle ++ xs))) d := by
      simpa [Ty.mangle] using h
    simp only [Ty.mangle, List.length_cons, List.length_append] at hfuel
    refine unit_gives (gives_get (gives_neg hrest.not_atEnd ?_))
    rw [hrest.cons.2.1]
    have hreads := demangleNextUnit_mangle t hwf.2 hacc fuel n xs names ys hlist (by omega)
    exact demangleRawArray_gives hwf.1 hreads (by omega) hrest
  | .vArray number t, hwf, hacc, fuel + 1, n, xs, names, ys, hlist, hfuel => by
    intro mangled d h
    have hrest : Ahead mangled scopeRes (86 :: (number ++ 95 :: (t.mangle ++ xs))) d := by
      simpa [Ty.mangle] using h
    have hafter := hlist rfl
    simp only [Ty.mangle, List.length_cons, List.length_append] at hfuel
    -- the element, and all that follows it in the list
    have hchain := (hafter.chain fuel (by omega)).type hwf.2 (hafter.operator t hwf.2)
      (demangleNextUnit_mangle t hwf.2 hacc fuel n xs names ys (fun _ => hafter) (by omega))
    have hcount := Nat.le_trans (t.length_left names) hafter.count
    refine unit_gives (gives_get (gives_neg hrest.not_atEnd ?_))
    rw [hrest.cons.2.1]
    exact demangleVArray_gives hwf.1 hchain hafter.ends (by rw [List.length_cons]; omega) (by omega)
      hrest
  | .tuple number ts, hwf, hacc, fuel + 1, n, xs, names, ys, hlist, hfuel => by
    intro mangled d h
    have hrest : Ahead mangled scopeRes
        (84 :: (number ++ 95 :: (Ty.mangleAll ts ++ 69 :: xs))) d := by
      simpa [Ty.mangle] using h
    obtain ⟨hnumber, -, -, hts⟩ := hwf
    simp only [Ty.mangle, List.length_cons, List.length_append] at hfuel
    have hlen := Nat.le_trans (Ty.length_names scopeRes ts) (Ty.length_le_mangleAll hts)
    have hend : ListEnd (69 :: xs) := Or.inr ⟨xs, rfl⟩
    refine unit_gives (gives_get (gives_neg hrest.not_atEnd ?_))
    rw [hrest.cons.2.1]
    exact demangleTuple_gives hnumber (demangleNextUnit_mangleAll ts hts hacc _ (fun _ _ _ => hend)
      (operatorless_end hts hend) fuel (by omega)) (by omega) (by omega) hrest
  | .function isC result params, hwf, hacc, fuel + 1, n, xs, names, ys, hlist, hfuel => by
    intro mangled d h
    have hrest : Ahead mangled scopeRes (70 :: (if isC then 67 else 48) ::
        (result.mangle ++ (Ty.mangleAll params ++ 69 :: xs))) d := by simpa [Ty.mangle] using h
    simp only [Ty.mangle, List.length_cons, List.length_append] at hfuel
    have hcount := Ty.length_names scopeRes params
    have hlen := Ty.length_le_mangleAll hwf.2
    have hleft := result.length_left (Ty.names scopeRes params)
    have hparams : params.length ≤ 4294967295 := hacc.2.1
    have hend : ListEnd (69 :: xs) := Or.inr ⟨xs, rfl⟩
    have hchain := demangleNextUnit_mangleAll params hwf.2 hacc.2.2 _ (fun _ _ _ => hend)
      (operatorless_end hwf.2 hend)
    have hgives : Gives mangled scopeRes
        (demangleFunctionType (fuel + 1) (demangleNextUnit fuel)
          (70 :: (if isC then 67 else 48) :: []))
        d ((Ty.function isC result params).info scopeRes names) xs :=
      demangleFunctionType_gives
        (demangleNextUnit_mangle result hwf.1 hacc.1 fuel _ _ _ _
          (fun _ => listAhead_types hwf.2 hend hchain) (by omega))
        ((hchain fuel (by omega)).left result) (by omega) (by omega) hrest
    refine unit_gives (gives_get (gives_neg hrest.not_atEnd ?_))
    rw [hrest.cons.2.1]
    cases isC with
    | false => exact gives_pos hrest.second hgives
    | true =>
      refine gives_neg (fun hc => ?_) (gives_pos hrest.second hgives)
      rw [hrest.second.2] at hc
      exact absurd hc.2 (by decide)
  | .decl kind pkg name, hwf, hacc, fuel + 1, n, xs, names, ys, hlist, hfuel => by
    intro mangled d h
    have hrest : Ahead mangled scopeRes
        (kind :: 78 :: (pkg.mangle ++ (name.mangle ++ 69 :: xs))) d := by
      simpa [Ty.mangle] using h
    obtain ⟨hkind, hpkg, hname⟩ := hwf
    simp only [Ty.mangle, List.length_cons] at hfuel
    have hgives : Gives mangled scopeRes
        (demangleClass (fuel + 1) (demangleNextUnit fuel) (declKind kind)) d
        ((Ty.decl kind pkg name).info scopeRes names) xs :=
      demangleClass_gives hpkg hacc.1 hname hacc.2.1 hacc.2.2 (Or.inl rfl)
        (fun d' h' => nestedGeneric_none _ h') (by omega) hrest
    exact class_gives hkind hrest hgives
  | .genericDecl kind pkg name args, hwf, hacc, fuel + 1, n, xs, names, ys, hlist, hfuel => by
    intro mangled d h
    have hrest : Ahead mangled scopeRes
        (kind :: 78 :: (pkg.mangle ++ (name.mangle ++ 73 :: (Ty.mangleAll args ++ 69 :: xs)))) d := by
      simpa [Ty.mangle] using h
    obtain ⟨hkind, hpkg, hname, hargs⟩ := hwf
    obtain ⟨hpkgShort, hshort, hangle, haccArgs⟩ := hacc
    simp only [Ty.mangle, List.length_cons, List.length_append] at hfuel
    have hlen := Nat.le_trans (Ty.length_names scopeRes args) (Ty.length_le_mangleAll hargs)
    have hend : ListEnd (69 :: xs) := Or.inr ⟨xs, rfl⟩
    have hchain := demangleNextUnit_mangleAll args hargs haccArgs _ (fun _ _ _ => hend)
      (operatorless_end hargs hend) fuel (by omega)
    have hgives : Gives mangled scopeRes
        (demangleClass (fuel + 1) (demangleNextUnit fuel) (declKind kind)) d
        ((Ty.genericDecl kind pkg name args).info scopeRes names) xs :=
      demangleClass_gives hpkg hpkgShort hname hshort hangle (Or.inr rfl)
        (fun d' h' => nestedGeneric_gives _ hchain (by omega) h') (by omega) hrest
    exact class_gives hkind hrest hgives

/-- A list of types is read type by type; the induction is mutual with the one on a type. -/
theorem demangleNextUnit_mangleAll : ∀ (ts : List Ty), Ty.AllWellFormed ts → Ty.AllAccepted ts →
    ∀ ys, (∀ t ∈ ts, t.endsWithVArray = true → ListEnd ys) → Operatorless scopeRes ts ys →
    ∀ fuel, (Ty.mangleAll ts).length < fuel →
    Chain scopeRes (demangleNextUnit fuel) (Ty.mangleAll ts ++ ys) (Ty.names scopeRes ts) ys
  | [], hwf, hacc, ys, hend, hop, fuel, hfuel => .nil ys
  | t :: ts, hwf, hacc, ys, hend, hop, fuel, hfuel => by
    rw [Ty.mangleAll, List.length_append] at hfuel
    have hrest := demangleNextUnit_mangleAll ts hwf.2 hacc.2 ys
      (fun t' ht' => hend t' (List.mem_cons_of_mem t ht')) hop.tail
    have hreads := demangleNextUnit_mangle t hwf.1 hacc.1 fuel _ (Ty.mangleAll ts ++ ys)
      (Ty.names scopeRes ts) ys
      (fun hv => listAhead_types hwf.2 (hend t List.mem_cons_self hv) hrest) hfuel
    rw [Ty.mangleAll, List.append_assoc, Ty.names]
    exact (hrest fuel (by omega)).type hwf.1 (hop [] t ts rfl) hreads

end

end Types

end CangjieRuntime.Demangle
