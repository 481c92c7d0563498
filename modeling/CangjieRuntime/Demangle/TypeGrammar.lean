/-
  The grammar of mangled types, and the scanner on it.

  A type is a tree (`Ty`), and `mangle` its text.  The scanner stops right behind a type, whatever
  follows it (`forwardType_mangle`): a list of types ends with an `E`, a number with a `_`, and a
  name has its length in front of it.
-/
import CangjieRuntime.Demangle.ForwardType

set_option linter.unusedVariables false

namespace CangjieRuntime.Demangle

open CangjieRuntime.Computation

/-! ## Types -/

/-- A name with the digits of its length. -/
structure Name where
  digits : RtString
  bytes : RtString
  deriving DecidableEq, Repr

/-- A name is written as its length in decimal and its bytes. -/
def Name.mangle (name : Name) : RtString := name.digits ++ name.bytes

/-- The value of a decimal number. -/
def decimal (digits : RtString) : Nat :=
  digits.foldl (fun number ch => number * 10 + (ch.toNat - 48)) 0

/-- The digits do not start with a 0, and the name does not start with a digit. -/
structure Name.WellFormed (name : Name) : Prop where
  digits : ∀ ch ∈ name.digits, isCurrentCharDigit ch = true
  head : ∃ ch rest, name.digits = ch :: rest ∧ ch ≠ 48
  bytes : ∃ ch rest, name.bytes = ch :: rest ∧ isCurrentCharDigit ch = false
  length : decimal name.digits = name.bytes.length

/-- A package of a declaration: none, a standard one by its code, or one with its name. -/
inductive Package
  /-- `0`. -/
  | none
  /-- A standard package. -/
  | std (code : RtString)
  | named (name : Name)
  deriving DecidableEq, Repr

/-- A named package is written as its name; the others have a code. -/
def Package.mangle : Package → RtString
  | .none => [48]
  | .std code => code
  | .named name => name.mangle

/-- The code of a standard package is one that the map knows. -/
def Package.WellFormed : Package → Prop
  | .none => True
  | .std code => mangleStdpkgMap code ≠ []
  | .named name => name.WellFormed

/-- A type without back-references.  Numbers are without their `_`. -/
inductive Ty
  | primitive (ch : UInt8)
  /-- `Dh`. -/
  | float16
  | cstring
  | generic (number : RtString)
  | pointer (t : Ty)
  | array (number : RtString) (t : Ty)
  | vArray (number : RtString) (t : Ty)
  | tuple (number : RtString) (ts : List Ty)
  /-- A function, or a C function. -/
  | function (isC : Bool) (result : Ty) (params : List Ty)
  | decl (kind : UInt8) (pkg : Package) (name : Name)
  | genericDecl (kind : UInt8) (pkg : Package) (name : Name) (args : List Ty)

mutual

/-- The text of a type. -/
def Ty.mangle : Ty → RtString
  | .primitive ch => [ch]
  | .float16 => [68, 104]
  | .cstring => [107]
  | .generic number => 71 :: (number ++ [95])
  | .pointer t => 80 :: t.mangle
  | .array number t => 65 :: (number ++ 95 :: t.mangle)
  | .vArray number t => 86 :: (number ++ 95 :: t.mangle)
  | .tuple number ts => 84 :: (number ++ 95 :: (Ty.mangleAll ts ++ [69]))
  | .function isC result params =>
    70 :: (if isC then 67 else 48) :: (result.mangle ++ (Ty.mangleAll params ++ [69]))
  | .decl kind pkg name => kind :: 78 :: (pkg.mangle ++ (name.mangle ++ [69]))
  | .genericDecl kind pkg name args =>
    kind :: 78 :: (pkg.mangle ++ (name.mangle ++ 73 :: (Ty.mangleAll args ++ [69])))

/-- The text of a list of types. -/
def Ty.mangleAll : List Ty → RtString
  | [] => []
  | t :: ts => t.mangle ++ Ty.mangleAll ts

end

/-- Base-62 digits. -/
def IsNumber (number : RtString) : Prop := ∀ ch ∈ number, isAlnum ch = true

mutual

/-- The types of the grammar. -/
def Ty.WellFormed : Ty → Prop
  | .primitive ch => ch ∈ ascii "nucbfdasilqhtjmr"
  | .float16 => True
  | .cstring => True
  | .generic number => IsNumber number
  | .pointer t => t.WellFormed
  | .array number t => IsNumber number ∧ t.WellFormed
  | .vArray number t => IsNumber number ∧ t.WellFormed
  | .tuple number ts => IsNumber number ∧ ts ≠ [] ∧
      ts.length ≤ (getNumber (number ++ [95])).toNat ∧ Ty.AllWellFormed ts
  | .function isC result params => result.WellFormed ∧ Ty.AllWellFormed params
  | .decl kind pkg name => kind ∈ ascii "CRN" ∧ pkg.WellFormed ∧ name.WellFormed
  | .genericDecl kind pkg name args =>
    kind ∈ ascii "CRN" ∧ pkg.WellFormed ∧ name.WellFormed ∧ Ty.AllWellFormed args

/-- All types of a list are well-formed. -/
def Ty.AllWellFormed : List Ty → Prop
  | [] => True
  | t :: ts => t.WellFormed ∧ Ty.AllWellFormed ts

end

/-- A length of at most 32 bits. -/
def Name.Short (name : Name) : Prop := name.bytes.length ≤ 4294967295

/-- The name of a package has at most 32 bits of length. -/
def Package.Short : Package → Prop
  | .named name => name.Short
  | _ => True

mutual

/-- The types of the grammar within the limits of both parsers: no name has more than 32 bits of
    length, no function has more than 4294967295 parameters, and no declaration has the name `<>`,
    which is nothing without its brackets. -/
def Ty.Accepted : Ty → Prop
  | .primitive _ => True
  | .float16 => True
  | .cstring => True
  | .generic _ => True
  | .pointer t => t.Accepted
  | .array _ t => t.Accepted
  | .vArray _ t => t.Accepted
  | .tuple _ ts => Ty.AllAccepted ts
  | .function _ result params =>
    result.Accepted ∧ params.length ≤ 4294967295 ∧ Ty.AllAccepted params
  | .decl _ pkg name => pkg.Short ∧ name.Short ∧ name.bytes ≠ ascii "<>"
  | .genericDecl _ pkg name args =>
    pkg.Short ∧ name.Short ∧ name.bytes ≠ ascii "<>" ∧ Ty.AllAccepted args

/-- All types of a list are accepted. -/
def Ty.AllAccepted : List Ty → Prop
  | [] => True
  | t :: ts => t.Accepted ∧ Ty.AllAccepted ts

end

/-- The text of the type ends with the text of a VArray. -/
def Ty.endsWithVArray : Ty → Bool
  | .pointer t => t.endsWithVArray
  | .array _ t => t.endsWithVArray
  | .vArray _ _ => true
  | _ => false

/-! ## The rest of a text -/

section Rest

variable {text xs ys : RtString} {idx : Nat}

/-- `xs` is in the text from `idx` on.  What is in front of `idx` is left open, so that the same
    statement holds at every place of a text. -/
def Rest (text : RtString) (idx : Nat) (xs : RtString) : Prop :=
  idx ≤ text.length ∧ text.drop idx = xs

/-- The text is as long as the index and what is behind it. -/
theorem Rest.length (h : Rest text idx xs) : text.length = idx + xs.length := by
  have hlen := congrArg List.length h.2
  rw [List.length_drop] at hlen
  have hle := h.1
  omega

/-- Behind the first part of the rest is the second one. -/
theorem Rest.append (h : Rest text idx (xs ++ ys)) : Rest text (idx + xs.length) ys := by
  have hlen := h.length
  rw [List.length_append] at hlen
  refine ⟨by omega, ?_⟩
  rw [← List.drop_drop, h.2, List.drop_left]

/-- The same for a first character. -/
theorem Rest.cons {x : UInt8} (h : Rest text idx (x :: xs)) : Rest text (idx + 1) xs :=
  @Rest.append text [x] xs idx h

/-- The first character of the rest is the one at the index, which is inside the text. -/
theorem Rest.byte {x : UInt8} (h : Rest text idx (x :: xs)) :
    idx < text.length ∧ text.byte idx = x := by
  have hlen := h.length
  rw [List.length_cons] at hlen
  refine ⟨by omega, ?_⟩
  have hget : text[idx]? = some x := by
    rw [← List.head?_drop, h.2]
    rfl
  rw [RtString.byte, List.getD_eq_getElem?_getD, hget]
  rfl

/-- The first part of the rest is a substring. -/
theorem Rest.subStr (h : Rest text idx (xs ++ ys)) : text.subStr idx xs.length = xs := by
  rw [RtString.subStr, h.2, List.take_left]

end Rest

/-! ## Numbers and names -/

section Lexical

variable {text xs ys rest : RtString} {idx : Nat}

/-- A stretch of such characters ends in front of one that is none. -/
theorem takeWhile_append_of {p : UInt8 → Bool} (h : ∀ ch ∈ xs, p ch = true) {y : UInt8}
    (hy : p y = false) : (xs ++ y :: ys).takeWhile p = xs := by
  rw [List.takeWhile_append_of_pos h, List.takeWhile_cons, hy]
  simp

/-- A number is scanned up to its `_` and with it. -/
theorem forwardNumber_eq (hnumber : IsNumber xs) (h : Rest text idx (xs ++ 95 :: rest)) :
    forwardNumber text idx = idx + xs.length + 1 := by
  rw [forwardNumber, h.2, takeWhile_append_of hnumber (by decide)]
  exact if_pos h.append.byte

/-- A text that starts with a digit starts with no operator. -/
theorem isOperatorNameAt_digit (h : isCurrentCharDigit (text.byte idx) = true) :
    isOperatorNameAt text idx = false := by
  have hle : (text.byte idx).toNat ≤ 57 := by
    simp only [isCurrentCharDigit, Bool.decide_and, Bool.and_eq_true, decide_eq_true_eq] at h
    exact UInt8.le_iff_toNat_le.mp h.2
  rw [isOperatorNameAt]
  split
  · rfl
  · refine if_pos fun hlower => ?_
    have := UInt8.le_iff_toNat_le.mp hlower.1.1
    simp at this
    omega

/-- The name of a property does not begin with a digit. -/
theorem isPropNameAt_digit (h : isCurrentCharDigit (text.byte idx) = true) :
    isPropNameAt text idx = false := by
  rw [isPropNameAt]
  split
  · rfl
  · refine decide_eq_false fun hprop => ?_
    rw [hprop.1] at h
    exact absurd h (by decide)

/-- A standard package does not start with a digit. -/
theorem mangleStdpkgMap_digit {ch : UInt8} (h : isCurrentCharDigit ch = true) :
    mangleStdpkgMap (ch :: xs) = [] := by
  have hle : ch.toNat ≤ 57 := by
    simp only [isCurrentCharDigit, Bool.decide_and, Bool.and_eq_true, decide_eq_true_eq] at h
    exact UInt8.le_iff_toNat_le.mp h.2
  have hkey : (RtString.byte (ch :: xs) 0).toNat * 256 + (RtString.byte (ch :: xs) 1).toNat <
      24930 := by
    have := (RtString.byte (ch :: xs) 1).toNat_lt
    show ch.toNat * 256 + _ < _
    omega
  rw [mangleStdpkgMap]
  split
  · rfl
  · generalize (RtString.byte (ch :: xs) 0).toNat * 256 + (RtString.byte (ch :: xs) 1).toNat =
      key at hkey
    split
    all_goals first | omega | rfl

/-- The loop over the digits of a length gives up as soon as it is over the limit; since the value
    only grows, this is the same as a look at the value of all digits. -/
theorem foldlM_length (limit : Nat) : ∀ (digits : RtString) (number : Nat), number ≤ limit →
    digits.foldlM (fun number ch =>
      let number := number * 10 + (ch.toNat - 48)
      if number > limit then none else some number) number =
      if digits.foldl (fun number ch => number * 10 + (ch.toNat - 48)) number > limit then none
      else some (digits.foldl (fun number ch => number * 10 + (ch.toNat - 48)) number) := by
  have hmono : ∀ (digits : RtString) (number : Nat),
      number ≤ digits.foldl (fun number ch => number * 10 + (ch.toNat - 48)) number := by
    intro digits
    induction digits with
    | nil => exact fun number => Nat.le_refl number
    | cons ch digits ih =>
      intro number
      exact Nat.le_trans (show number ≤ number * 10 + (ch.toNat - 48) by omega) (ih _)
  intro digits
  induction digits with
  | nil =>
    intro number hle
    rw [List.foldl_nil, if_neg (by omega)]
    rfl
  | cons ch digits ih =>
    intro number hle
    rw [List.foldlM_cons, List.foldl_cons]
    dsimp only
    split
    case isTrue hlarge =>
      have := hmono digits (number * 10 + (ch.toNat - 48))
      rw [if_pos (by omega)]
      rfl
    case isFalse hsmall => exact ih _ (by omega)

/-- A length of at most 32 bits is what its digits say. -/
theorem nameLength_eq {digits : RtString} (h : decimal digits ≤ 4294967295) :
    nameLength digits = some (decimal digits) := by
  refine (foldlM_length 4294967295 digits 0 (by decide)).trans (if_neg ?_)
  exact Nat.not_lt.mpr h

variable {name : Name}

/-- A name starts with a digit that is not 0. -/
theorem Name.WellFormed.start (h : name.WellFormed) : ∃ ch more, name.mangle = ch :: more ∧
    isCurrentCharDigit ch = true ∧ ch ≠ 48 := by
  obtain ⟨ch, more, heq, hne⟩ := h.head
  exact ⟨ch, more ++ name.bytes, by rw [Name.mangle, heq, List.cons_append],
    h.digits ch (by rw [heq]; exact List.mem_cons_self), hne⟩

/-- The digits of a name end where its bytes start. -/
theorem Name.WellFormed.takeWhile (h : name.WellFormed) (rest : RtString) :
    (name.mangle ++ rest).takeWhile isCurrentCharDigit = name.digits := by
  obtain ⟨ch, more, heq, hdigit⟩ := h.bytes
  rw [Name.mangle, List.append_assoc, heq, List.cons_append]
  exact takeWhile_append_of h.digits hdigit

/-- A name is scanned as a whole, digits and bytes. -/
theorem forwardName_eq (h : name.WellFormed) (hshort : name.Short)
    (hrest : Rest text idx (name.mangle ++ rest)) :
    forwardName text idx = idx + name.mangle.length := by
  obtain ⟨ch, more, heq, hdigit, hne⟩ := h.start
  have htake := h.takeWhile rest
  have hlen := hrest.length
  rw [← hrest.2] at htake
  rw [heq, List.cons_append] at hrest
  obtain ⟨hlt, hbyte⟩ := hrest.byte
  have hmangle : name.mangle.length = name.digits.length + name.bytes.length := by
    rw [Name.mangle, List.length_append]
  rw [List.length_append] at hlen
  rw [forwardName, if_neg (by omega), hbyte, if_neg, if_neg (by simp [hdigit]), if_neg hne, htake]
  · dsimp only
    rw [nameLength_eq (by rw [h.length]; exact hshort), h.length]
    dsimp only
    rw [if_neg (by omega)]
    omega
  · rw [isOperatorNameAt_digit (by rw [hbyte]; exact hdigit),
      isPropNameAt_digit (by rw [hbyte]; exact hdigit)]
    simp

end Lexical

/-- The letters of the primitive types. -/
theorem primitiveLetters : ∀ ch ∈ ascii "nucbfdasilqhtjmr",
    ch = 110 ∨ ch = 117 ∨ ch = 99 ∨ ch = 98 ∨ ch = 102 ∨ ch = 100 ∨ ch = 97 ∨ ch = 115 ∨
      ch = 105 ∨ ch = 108 ∨ ch = 113 ∨ ch = 104 ∨ ch = 116 ∨ ch = 106 ∨ ch = 109 ∨ ch = 114 :=
  forall_chars (by decide)

/-- A class, a struct or an enum. -/
theorem declKinds : ∀ kind ∈ ascii "CRN", kind = 67 ∨ kind = 82 ∨ kind = 78 :=
  forall_chars (by decide)

/-- The first character of a type. -/
def typeStarts : RtString := ascii "nucbfdasilqhtjmrDkGPAVTFCRN"

/-- The first character of a type is one that a type begins with. -/
theorem Ty.start {t : Ty} (h : t.WellFormed) :
    ∃ ch more, t.mangle = ch :: more ∧ ch ∈ typeStarts := by
  have hkind : ∀ kind ∈ ascii "CRN", kind ∈ typeStarts := forall_chars (by decide)
  cases t with
  | primitive ch => exact ⟨ch, _, rfl, List.mem_append_left (ascii "DkGPAVTFCRN") h⟩
  | decl kind pkg name => exact ⟨kind, _, by rw [Ty.mangle], hkind kind h.1⟩
  | genericDecl kind pkg name args => exact ⟨kind, _, by rw [Ty.mangle], hkind kind h.1⟩
  | _ => exact ⟨_, _, by rw [Ty.mangle], by decide⟩

/-! ## The scanner on a type -/

section Scanner

variable {treeIdMap : TreeIdMap} {fuel : Nat} {next : Nat → Scan Nat} {text rest : RtString}
  {idx : Nat}

/-- A scan that stops right behind `xs`.  It starts anywhere in a text and changes nothing: this is
    what a part of the grammar gives to the part that it is in. -/
def Scans (next : Nat → Scan Nat) (xs : RtString) : Prop :=
  ∀ text idx rest, Rest text idx (xs ++ rest) → next idx text = some (idx + xs.length, text)

/-- No back-reference is expanded at another character. -/
theorem updateCompressedName_skip (hfuel : 0 < fuel) (h : text.byte idx ≠ 89) :
    updateCompressedName treeIdMap fuel idx text = some ((0, idx), text) := by
  obtain ⟨fuel, rfl⟩ := Nat.exists_eq_succ_of_ne_zero (Nat.ne_of_gt hfuel)
  refine iterate_inr ?_
  rw [updateStep, get_bind]
  exact congrFun (if_pos fun hc => h hc.2.1) text

/-- The types of a list are scanned one by one. -/
def ScansAll (next : Nat → Scan Nat) (ts : List Ty) : Prop :=
  ∀ t ∈ ts, t.WellFormed ∧ Scans next t.mangle

/-- So the loop over a list of types takes it neither for the end of the list nor for a reference.
    -/
theorem scan_first {t : Ty} {more : RtString} (ht : t.WellFormed)
    (h : Rest text idx (t.mangle ++ more)) :
    idx < text.length ∧ text.byte idx ≠ 69 ∧ text.byte idx ≠ 89 ∧ 0 < t.mangle.length := by
  obtain ⟨ch, tail, heq, hmem⟩ := Ty.start ht
  rw [heq] at h
  obtain ⟨hlt, hbyte⟩ := h.byte
  have hne : ∀ ch ∈ typeStarts, ch ≠ 69 ∧ ch ≠ 89 := forall_chars (by decide)
  rw [hbyte]
  exact ⟨hlt, (hne ch hmem).1, (hne ch hmem).2, by rw [heq]; exact Nat.succ_pos _⟩

/-- **A list of types is scanned**, if each of its types is and the loop stops at what is behind
    them; one round for each type. -/
theorem forwardTypes_eq {more : RtString} (hstop : ∀ idx, Rest text idx more →
    forwardTypesStep next idx text = some (.inr idx, text)) :
    ∀ (ts : List Ty) fuel idx, ScansAll next ts → ts.length < fuel →
      Rest text idx (Ty.mangleAll ts ++ more) →
      forwardTypes fuel next idx text = some (idx + (Ty.mangleAll ts).length, text) := by
  intro ts
  induction ts with
  | nil =>
    intro fuel idx hscan hfuel h
    obtain ⟨fuel, rfl⟩ := Nat.exists_eq_succ_of_ne_zero (Nat.ne_of_gt hfuel)
    exact iterate_inr (hstop idx h)
  | cons t ts ih =>
    intro fuel idx hscan hfuel h
    obtain ⟨fuel, rfl⟩ := Nat.exists_eq_succ_of_ne_zero (Nat.ne_of_gt (Nat.zero_lt_of_lt hfuel))
    obtain ⟨ht, hnext⟩ := hscan t List.mem_cons_self
    rw [Ty.mangleAll, List.append_assoc] at h
    obtain ⟨hlt, hend, -, hpos⟩ := scan_first ht h
    have hstep : forwardTypesStep next idx text = some (.inl (idx + t.mangle.length), text) := by
      rw [forwardTypesStep, get_bind, if_neg (not_not.mpr ⟨hlt, hend⟩),
        bind_of_eq (hnext text idx _ h), if_neg (by omega)]
      rfl
    rw [List.length_cons] at hfuel
    have hrest := ih fuel (idx + t.mangle.length)
      (fun t' ht' => hscan t' (List.mem_cons_of_mem t ht')) (by omega) h.append
    rw [forwardTypes] at hrest ⊢
    rw [iterate_inl hstep, hrest, Ty.mangleAll, List.length_append, Nat.add_assoc]

/-- The loop over types stops at an `E`. -/
theorem forwardTypesStep_end (h : Rest text idx (69 :: rest)) :
    forwardTypesStep next idx text = some (.inr idx, text) := by
  rw [forwardTypesStep, get_bind, if_pos (fun hc => hc.2 h.byte.2)]
  rfl

/-- The same for a list with an `E` behind it, which is scanned as well. -/
theorem forwardTypesEnd_eq {ts : List Ty} {start : Nat} (hscan : ScansAll next ts)
    (hfuel : ts.length < fuel) (h : Rest text idx (Ty.mangleAll ts ++ 69 :: rest)) :
    forwardTypesEnd fuel next start idx text =
      some (idx + (Ty.mangleAll ts).length + 1, text) := by
  have hloop := forwardTypes_eq (fun idx h => forwardTypesStep_end h) ts fuel idx hscan hfuel h
  rw [forwardTypesEnd, bind_of_eq hloop, get_bind,
    if_pos h.append.byte]
  rfl

/-- A package, in front of a name. -/
theorem forwardPackageName_eq {pkg : Package} {name : Name} (hpkg : pkg.WellFormed)
    (hshort : pkg.Short) (hname : name.WellFormed)
    (h : Rest text idx (pkg.mangle ++ (name.mangle ++ rest))) :
    forwardPackageName idx text = some (idx + pkg.mangle.length, text) ∧ text.byte idx ≠ 89 := by
  obtain ⟨first, more, hfirst, hdigit, -⟩ := hname.start
  -- what follows the package is no file name
  have hend : ¬ (idx + pkg.mangle.length < text.length ∧
      text.byte (idx + pkg.mangle.length) = 85) := by
    have hnext := h.append
    rw [hfirst] at hnext
    intro hc
    rw [hnext.byte.2] at hc
    rw [hc.2] at hdigit
    exact absurd hdigit (by decide)
  have hscan : (if isStdPkgName text idx then idx + 2 else forwardName text idx) =
      idx + pkg.mangle.length ∧ text.byte idx ≠ 89 := by
    have hdigits : ∀ ch more, Rest text idx (ch :: more) → isCurrentCharDigit ch = true →
        isStdPkgName text idx = false ∧ text.byte idx ≠ 89 := by
      intro ch more hr hch
      constructor
      · rw [isStdPkgName]
        split
        · rfl
        · have hsub : text.subStr idx 2 = ch :: more.take 1 := by
            rw [RtString.subStr, hr.2]
            rfl
          rw [hsub, mangleStdpkgMap_digit hch]
          rfl
      · rw [hr.byte.2]
        intro hc
        rw [hc] at hch
        exact absurd hch (by decide)
    cases pkg with
    | none =>
      obtain ⟨hstd, hne⟩ := hdigits 48 _ h (by decide)
      obtain ⟨hlt, hbyte⟩ := @Rest.byte text _ idx 48 h
      have hdigit48 : isCurrentCharDigit (text.byte idx) = true := by rw [hbyte]; decide
      refine ⟨?_, hne⟩
      rw [hstd, forwardName, isOperatorNameAt_digit hdigit48, isPropNameAt_digit hdigit48]
      rw [if_neg (by decide), if_neg (by omega), if_neg (by decide), if_neg (by simp [hdigit48]),
        if_pos hbyte]
      rfl
    | std code =>
      have hlen : code.length = 2 := by
        by_contra hne
        exact hpkg (if_pos hne)
      have hcode : text.subStr idx 2 = code := by
        rw [← hlen]
        exact h.subStr
      have hlong := h.length
      rw [List.length_append] at hlong
      have hcodeLen : (Package.std code).mangle.length = 2 := hlen
      have hpos : 0 < (name.mangle ++ rest).length := by
        rw [hfirst]
        exact Nat.succ_pos _
      constructor
      · have hstd : isStdPkgName text idx = true := by
          have hknown : mangleStdpkgMap code ≠ [] := hpkg
          rw [isStdPkgName, if_neg (by omega), hcode]
          simpa [List.isEmpty_iff] using hknown
        rw [hstd, if_pos rfl, hcodeLen]
      · intro hc
        refine hpkg ?_
        have hbyte : code.byte 0 = 89 := by
          cases code with
          | nil => simp at hlen
          | cons c more =>
            exact (@Rest.byte text _ idx c h).2.symm.trans hc
        rw [mangleStdpkgMap, if_neg (not_not.mpr hlen), hbyte]
        have hkey : (89 : UInt8).toNat * 256 + (code.byte 1).toNat < 24930 := by
          have := (code.byte 1).toNat_lt
          show 89 * 256 + _ < _
          omega
        generalize (89 : UInt8).toNat * 256 + (code.byte 1).toNat = key at hkey
        split
        all_goals first | omega | rfl
    | named pkgName =>
      obtain ⟨ch, more, heq, hch, -⟩ := Name.WellFormed.start hpkg
      have hstart := h
      rw [show (Package.named pkgName).mangle = pkgName.mangle from rfl, heq] at hstart
      obtain ⟨hstd, hne⟩ := hdigits ch _ hstart hch
      refine ⟨?_, hne⟩
      rw [hstd, if_neg (by decide)]
      exact forwardName_eq hpkg hshort h
  refine ⟨?_, hscan.2⟩
  rw [forwardPackageName, get_bind, hscan.1, if_neg hend]
  rfl

/-! ### One constructor at a time -/

/-- The head of a declaration, its package and its name, is scanned, and what follows decides if
    there are generic arguments. -/
theorem forwardClassType_head {kind : UInt8} {pkg : Package} {name : Name} {tail : RtString}
    (hkind : kind ∈ ascii "CRN") (hpkg : pkg.WellFormed) (hpkgShort : pkg.Short)
    (hname : name.WellFormed) (hshort : name.Short) (hfuel : 0 < fuel)
    (h : Rest text idx (kind :: 78 :: (pkg.mangle ++ (name.mangle ++ tail)))) :
    forwardClassType treeIdMap fuel next idx text =
      (do
        let mangled ← get
        let curIdx := idx + 2 + pkg.mangle.length + name.mangle.length
        if curIdx < mangled.length ∧ mangled.byte curIdx = 73 then
          let genericIdx ← forwardGenericTypes fuel next curIdx
          if curIdx ≠ genericIdx then return genericIdx else return idx
        else if curIdx < mangled.length ∧ mangled.byte curIdx = 69 then return curIdx + 1
        else return idx : Scan Nat) text := by
  have hafter := h.cons.cons
  obtain ⟨hpackage, hnotY⟩ := forwardPackageName_eq hpkg hpkgShort hname hafter
  have hnameRest := hafter.append
  obtain ⟨first, more, hfirst, hdigit, -⟩ := hname.start
  have hnotY' : text.byte (idx + 1 + 1 + pkg.mangle.length) ≠ 89 := by
    have hstart := hnameRest
    rw [hfirst] at hstart
    rw [hstart.byte.2]
    intro hc
    rw [hc] at hdigit
    exact absurd hdigit (by decide)
  have hlen := hafter.length
  have hpos : 0 < (pkg.mangle ++ (name.mangle ++ tail)).length := by
    rw [List.length_append, hfirst, List.cons_append, List.length_cons]
    omega
  rw [forwardClassType, get_bind, if_neg (not_not.mpr ⟨by omega, by
      rw [h.byte.2]
      exact declKinds kind hkind, h.cons.byte.2⟩),
    bind_of_eq (updateCompressedName_skip hfuel hnotY), bind_of_eq hpackage,
    bind_of_eq (updateCompressedName_skip hfuel hnotY'), get_bind, get_bind,
    forwardName_eq hname hshort hnameRest]

/-- A declaration without generic arguments is scanned. -/
theorem scans_decl {kind : UInt8} {pkg : Package} {name : Name} (hkind : kind ∈ ascii "CRN")
    (hpkg : pkg.WellFormed) (hpkgShort : pkg.Short) (hname : name.WellFormed)
    (hshort : name.Short) (hfuel : 0 < fuel) :
    Scans (forwardClassType treeIdMap fuel next) (Ty.decl kind pkg name).mangle := by
  intro text idx rest h
  have hmangle : (Ty.decl kind pkg name).mangle ++ rest =
      kind :: 78 :: (pkg.mangle ++ (name.mangle ++ 69 :: rest)) := by simp [Ty.mangle]
  rw [hmangle] at h
  have hend := h.cons.cons.append.append
  rw [forwardClassType_head hkind hpkg hpkgShort hname hshort hfuel h, get_bind, if_neg (fun hc => by
      rw [hend.byte.2] at hc
      exact absurd hc.2 (by decide)), if_pos hend.byte]
  simp only [pure_eq, Ty.mangle, List.length_cons, List.length_append, List.length_nil]
  congr 2
  omega

/-- One with generic arguments is, if the arguments are. -/
theorem scans_genericDecl {kind : UInt8} {pkg : Package} {name : Name} {args : List Ty}
    (hkind : kind ∈ ascii "CRN") (hpkg : pkg.WellFormed) (hpkgShort : pkg.Short)
    (hname : name.WellFormed) (hshort : name.Short) (hscan : ScansAll next args)
    (hfuel : args.length < fuel) :
    Scans (forwardClassType treeIdMap fuel next) (Ty.genericDecl kind pkg name args).mangle := by
  intro text idx rest h
  have hmangle : (Ty.genericDecl kind pkg name args).mangle ++ rest =
      kind :: 78 :: (pkg.mangle ++ (name.mangle ++ 73 :: (Ty.mangleAll args ++ 69 :: rest))) := by
    simp [Ty.mangle]
  rw [hmangle] at h
  have hgeneric := h.cons.cons.append.append
  have hargs : forwardGenericTypes fuel next (idx + 2 + pkg.mangle.length + name.mangle.length) text =
      some (idx + 2 + pkg.mangle.length + name.mangle.length + 1 + (Ty.mangleAll args).length + 1,
        text) := forwardTypesEnd_eq hscan hfuel hgeneric.cons
  rw [forwardClassType_head hkind hpkg hpkgShort hname hshort (Nat.zero_lt_of_lt hfuel) h, get_bind,
    if_pos hgeneric.byte, bind_of_eq hargs, if_pos (by omega)]
  simp only [pure_eq, Ty.mangle, List.length_cons, List.length_append, List.length_nil]
  congr 2
  omega

/-- A function type is scanned if its result and its parameters are. -/
theorem scans_function {isC : Bool} {result : Ty} {params : List Ty}
    (hresult : Scans next result.mangle) (hscan : ScansAll next params)
    (hfuel : params.length < fuel) :
    Scans (forwardFunctionType fuel next) (Ty.function isC result params).mangle := by
  intro text idx rest h
  have hmangle : (Ty.function isC result params).mangle ++ rest =
      70 :: (if isC then 67 else 48) :: (result.mangle ++ (Ty.mangleAll params ++ 69 :: rest)) := by
    simp [Ty.mangle]
  rw [hmangle] at h
  have hafter := h.cons.cons
  rw [forwardFunctionType, bind_of_eq (hresult text _ _ hafter),
    forwardTypesEnd_eq hscan hfuel hafter.append]
  simp only [Ty.mangle, List.length_cons, List.length_append, List.length_nil]
  congr 2
  omega

/-- The loop over the types of a tuple: they are not more than the count. -/
theorem tupleLoop_eq : ∀ (ts : List Ty) fuel (tyCnt : BitVec 64) idx, ScansAll next ts →
    ts.length < fuel → ts.length ≤ tyCnt.toNat → Rest text idx (Ty.mangleAll ts ++ 69 :: rest) →
    iterate (tupleStep next) fuel (tyCnt, idx) text =
      some (idx + (Ty.mangleAll ts).length, text) := by
  intro ts
  induction ts with
  | nil =>
    intro fuel tyCnt idx hscan hfuel hcount h
    obtain ⟨fuel, rfl⟩ := Nat.exists_eq_succ_of_ne_zero (Nat.ne_of_gt hfuel)
    refine iterate_inr ?_
    rw [tupleStep, get_bind, if_pos (fun hc => hc.2.1 h.byte.2)]
    rfl
  | cons t ts ih =>
    intro fuel tyCnt idx hscan hfuel hcount h
    obtain ⟨fuel, rfl⟩ := Nat.exists_eq_succ_of_ne_zero (Nat.ne_of_gt (Nat.zero_lt_of_lt hfuel))
    obtain ⟨ht, hnext⟩ := hscan t List.mem_cons_self
    rw [Ty.mangleAll, List.append_assoc] at h
    rw [List.length_cons] at hfuel hcount
    obtain ⟨hlt, hend, -, hpos⟩ := scan_first ht h
    have hsome : tyCnt ≠ 0 := by
      rintro rfl
      simp at hcount
    have hstep : tupleStep next (tyCnt, idx) text =
        some (.inl (tyCnt - 1, idx + t.mangle.length), text) := by
      rw [tupleStep, get_bind, if_neg (not_not.mpr ⟨hlt, hend, hsome⟩),
        bind_of_eq (hnext text idx _ h), if_neg (by omega)]
      rfl
    have hless : ts.length ≤ (tyCnt - 1).toNat := by bv_omega
    rw [iterate_inl hstep, ih fuel (tyCnt - 1) (idx + t.mangle.length)
      (fun t' ht' => hscan t' (List.mem_cons_of_mem t ht')) (by omega) hless h.append,
      Ty.mangleAll, List.length_append, Nat.add_assoc]

/-- A tuple is scanned if its elements are, and the number in front of them is large enough. -/
theorem scans_tuple {number : RtString} {ts : List Ty} (hnumber : IsNumber number) (hne : ts ≠ [])
    (hcount : ts.length ≤ (getNumber (number ++ [95])).toNat) (hscan : ScansAll next ts)
    (hfuel : ts.length < fuel) :
    Scans (forwardTupleType fuel next) (Ty.tuple number ts).mangle := by
  intro text idx rest h
  have hmangle : (Ty.tuple number ts).mangle ++ rest =
      84 :: (number ++ 95 :: (Ty.mangleAll ts ++ 69 :: rest)) := by simp [Ty.mangle]
  rw [hmangle] at h
  have hforward := forwardNumber_eq hnumber h.cons
  have hnumberRest : Rest text (idx + 1) ((number ++ [95]) ++ (Ty.mangleAll ts ++ 69 :: rest)) := by
    simpa using h.cons
  have htypes := h.cons.append.cons
  have hlen := htypes.length
  rw [List.length_append, List.length_cons] at hlen
  have hsub : text.subStr (idx + 1) (idx + 1 + number.length + 1 - idx - 1) = number ++ [95] := by
    have hsame := hnumberRest.subStr
    rw [List.length_append] at hsame
    rw [show idx + 1 + number.length + 1 - idx - 1 = number.length + [95].length by
      rw [List.length_singleton]; omega]
    exact hsame
  have hpos : 0 < (Ty.mangleAll ts).length := by
    cases ts with
    | nil => exact absurd rfl hne
    | cons t ts =>
      obtain ⟨ch, more, heq, -⟩ := Ty.start (hscan t List.mem_cons_self).1
      rw [Ty.mangleAll, heq]
      exact Nat.succ_pos _
  rw [forwardTupleType, get_bind, hforward, if_neg (by omega), hsub,
    bind_of_eq (tupleLoop_eq ts fuel _ _ hscan hfuel hcount htypes), get_bind,
    if_pos ⟨by omega, htypes.append.byte⟩]
  simp only [pure_eq, Ty.mangle, List.length_cons, List.length_append, List.length_nil]
  congr 2
  omega

/-- An array or a VArray: the first character was looked at. -/
theorem scans_array {ch : UInt8} {number : RtString} {t : Ty} (hnumber : IsNumber number)
    (ht : t.WellFormed) (hnext : Scans next t.mangle) :
    Scans (forwardArrayType next) (ch :: (number ++ 95 :: t.mangle)) := by
  intro text idx rest h
  have htext : ch :: (number ++ 95 :: t.mangle) ++ rest =
      ch :: (number ++ 95 :: (t.mangle ++ rest)) := by simp
  rw [htext] at h
  have hforward := forwardNumber_eq hnumber h.cons
  have hafter := h.cons.append.cons
  obtain ⟨hlt, -, -, hpos⟩ := scan_first ht hafter
  rw [forwardArrayType, get_bind, if_pos (by omega), hforward, if_pos hlt,
    bind_of_eq (hnext text _ _ hafter), if_pos (by omega)]
  simp only [pure_eq, List.length_cons, List.length_append]
  congr 2
  omega

/-- The first character decides. -/
theorem forwardTypeAt_eq {ch : UInt8} {more : RtString} (h : Rest text idx (ch :: more)) :
    forwardTypeAt treeIdMap fuel next idx text =
      forwardTypeBy treeIdMap fuel next text ch idx text := by
  obtain ⟨hlt, hbyte⟩ := h.byte
  rw [forwardTypeAt, get_bind, if_neg (by omega), hbyte]

/-- The letter of a kind leads to the scan of a declaration. -/
theorem scans_kind {kind : UInt8} {xs : RtString} (hkind : kind ∈ ascii "CRN")
    (hstart : ∃ more, xs = kind :: more)
    (h : Scans (forwardClassType treeIdMap fuel next) xs) :
    Scans (forwardTypeAt treeIdMap fuel next) xs := by
  intro text idx rest hrest
  have hscan := h text idx rest hrest
  obtain ⟨more, rfl⟩ := hstart
  rw [forwardTypeAt_eq hrest]
  obtain rfl | rfl | rfl := declKinds kind hkind
  · exact hscan
  · exact hscan
  · exact hscan

end Scanner

/-- There are no more types than characters, and so fuel for the characters is enough for the
    rounds. -/
theorem Ty.length_le_mangleAll {ts : List Ty} (h : Ty.AllWellFormed ts) :
    ts.length ≤ (Ty.mangleAll ts).length := by
  induction ts with
  | nil => exact Nat.zero_le _
  | cons t ts ih =>
    obtain ⟨ch, more, heq, -⟩ := Ty.start h.1
    have := ih h.2
    rw [Ty.mangleAll, List.length_append, heq, List.length_cons, List.length_cons]
    omega

section Types

variable (treeIdMap : TreeIdMap)

mutual

/-- **The scanner stops right behind a type.**  By induction over the type, one lemma for each
    constructor, and with the lists of types at the same time. -/
theorem forwardType_mangle : ∀ (t : Ty), t.WellFormed → t.Accepted → ∀ fuel,
    t.mangle.length < fuel → Scans (forwardType treeIdMap fuel) t.mangle
  | t, hwf, hacc, 0, hfuel => absurd hfuel (Nat.not_lt_zero _)
  | .primitive ch, hwf, hacc, fuel + 1, hfuel => by
    -- a letter: all but `D`, which begins `Float16`
    intro text idx rest h
    have hmem : ∀ ch ∈ ascii "nucbfdasilqhtjmr", ch ≠ 68 ∧ isPrimitiveType ch = true :=
      forall_chars (by decide)
    obtain ⟨hD, hprimitive⟩ := hmem ch hwf
    have hscan : forwardPrimitiveType text idx = idx + 1 := by
      rw [forwardPrimitiveType, (@Rest.byte text _ idx ch h).2, if_pos ⟨hD, hprimitive⟩]
    have hrest : Rest text idx (ch :: rest) := h
    rw [forwardType, forwardTypeAt_eq hrest]
    rcases primitiveLetters ch hwf with rfl | rfl | rfl | rfl | rfl | rfl | rfl | rfl | rfl | rfl |
      rfl | rfl | rfl | rfl | rfl | rfl
    all_goals
      show some (if isPrimitiveType _ = true then forwardPrimitiveType text idx else idx, text) = _
      rw [if_pos hprimitive, hscan]
      rfl
  | .float16, hwf, hacc, fuel + 1, hfuel => by
    intro text idx rest h
    have hrest : Rest text idx (68 :: 104 :: rest) := h
    have hscan : forwardPrimitiveType text idx = idx + 2 := by
      rw [forwardPrimitiveType, hrest.byte.2, if_neg (by decide),
        if_pos ⟨hrest.cons.byte.1, rfl, hrest.cons.byte.2⟩]
    rw [forwardType, forwardTypeAt_eq hrest]
    show some (if isPrimitiveType 68 then forwardPrimitiveType text idx else idx, text) = _
    rw [if_pos (by decide), hscan]
    rfl
  | .cstring, hwf, hacc, fuel + 1, hfuel => by
    intro text idx rest h
    have hrest : Rest text idx (107 :: rest) := h
    rw [forwardType, forwardTypeAt_eq hrest]
    rfl
  | .generic number, hwf, hacc, fuel + 1, hfuel => by
    intro text idx rest h
    have hrest : Rest text idx (71 :: (number ++ 95 :: rest)) := by simpa [Ty.mangle] using h
    have hnumber := forwardNumber_eq hwf hrest.cons
    rw [forwardType, forwardTypeAt_eq hrest]
    show some (forwardGenericType text idx, text) = _
    rw [forwardGenericType, hnumber, if_pos (by omega)]
    simp only [Ty.mangle, List.length_cons, List.length_append, List.length_nil]
    congr 2
    omega
  | .pointer t, hwf, hacc, fuel + 1, hfuel => by
    -- the types with types inside of them, by the induction on these
    intro text idx rest h
    have hrest : Rest text idx (80 :: (t.mangle ++ rest)) := h
    simp only [Ty.mangle, List.length_cons] at hfuel
    rw [forwardType, forwardTypeAt_eq hrest]
    show forwardType treeIdMap fuel (idx + 1) text = _
    rw [forwardType_mangle t hwf hacc fuel (by omega) text _ _ hrest.cons]
    simp only [Ty.mangle, List.length_cons]
    congr 2
    omega
  | .array number t, hwf, hacc, fuel + 1, hfuel => by
    intro text idx rest h
    have hrest : Rest text idx (65 :: (number ++ 95 :: (t.mangle ++ rest))) := by
      simpa [Ty.mangle] using h
    simp only [Ty.mangle, List.length_cons, List.length_append] at hfuel
    rw [forwardType, forwardTypeAt_eq hrest]
    have hscan := @scans_array _ 65 number t hwf.1 hwf.2
      (forwardType_mangle t hwf.2 hacc fuel (by omega)) text idx rest (by simpa [Ty.mangle] using h)
    rw [Ty.mangle]
    exact hscan
  | .vArray number t, hwf, hacc, fuel + 1, hfuel => by
    intro text idx rest h
    have hrest : Rest text idx (86 :: (number ++ 95 :: (t.mangle ++ rest))) := by
      simpa [Ty.mangle] using h
    simp only [Ty.mangle, List.length_cons, List.length_append] at hfuel
    rw [forwardType, forwardTypeAt_eq hrest]
    have hscan := @scans_array _ 86 number t hwf.1 hwf.2
      (forwardType_mangle t hwf.2 hacc fuel (by omega)) text idx rest (by simpa [Ty.mangle] using h)
    rw [Ty.mangle]
    exact hscan
  | .tuple number ts, hwf, hacc, fuel + 1, hfuel => by
    intro text idx rest h
    have hrest : Rest text idx (84 :: (number ++ 95 :: (Ty.mangleAll ts ++ 69 :: rest))) := by
      simpa [Ty.mangle] using h
    obtain ⟨hnumber, hne, hcount, hts⟩ := hwf
    simp only [Ty.mangle, List.length_cons, List.length_append] at hfuel
    have hlen := Ty.length_le_mangleAll hts
    rw [forwardType, forwardTypeAt_eq hrest]
    exact scans_tuple hnumber hne hcount (forwardType_mangleAll ts hts hacc fuel (by omega))
      (by omega) text idx rest h
  | .function isC result params, hwf, hacc, fuel + 1, hfuel => by
    intro text idx rest h
    have hrest : Rest text idx (70 :: (if isC then 67 else 48) ::
        (result.mangle ++ (Ty.mangleAll params ++ 69 :: rest))) := by
      simpa [Ty.mangle] using h
    simp only [Ty.mangle, List.length_cons, List.length_append] at hfuel
    have hlen := Ty.length_le_mangleAll hwf.2
    have hkind : text.byte (idx + 1) = 48 ∨ text.byte (idx + 1) = 67 := by
      rw [hrest.cons.byte.2]
      cases isC with
      | true => exact Or.inr rfl
      | false => exact Or.inl rfl
    rw [forwardType, forwardTypeAt_eq hrest]
    show (if idx + 1 < text.length ∧ (text.byte (idx + 1) = 48 ∨ text.byte (idx + 1) = 67) then
      forwardFunctionType (fuel + 1) (forwardType treeIdMap fuel) idx else pure idx) text = _
    rw [if_pos ⟨hrest.cons.byte.1, hkind⟩]
    exact scans_function (forwardType_mangle result hwf.1 hacc.1 fuel (by omega))
      (forwardType_mangleAll params hwf.2 hacc.2.2 fuel (by omega)) (by omega) text idx rest h
  | .decl kind pkg name, hwf, hacc, fuel + 1, hfuel => by
    -- the declarations share one scan
    obtain ⟨hkind, hpkg, hname⟩ := hwf
    exact scans_kind hkind ⟨_, by rw [Ty.mangle]⟩
      (scans_decl hkind hpkg hacc.1 hname hacc.2.1 (Nat.succ_pos fuel))
  | .genericDecl kind pkg name args, hwf, hacc, fuel + 1, hfuel => by
    obtain ⟨hkind, hpkg, hname, hargs⟩ := hwf
    simp only [Ty.mangle, List.length_cons, List.length_append] at hfuel
    have hlen := Ty.length_le_mangleAll hargs
    exact scans_kind hkind ⟨_, by rw [Ty.mangle]⟩
      (scans_genericDecl hkind hpkg hacc.1 hname hacc.2.1
        (forwardType_mangleAll args hargs hacc.2.2.2 fuel (by omega)) (by omega))

/-- All types of a list are scanned; by induction over the list, together with that over the type.
    -/
theorem forwardType_mangleAll : ∀ (ts : List Ty), Ty.AllWellFormed ts → Ty.AllAccepted ts →
    ∀ fuel, (Ty.mangleAll ts).length < fuel → ScansAll (forwardType treeIdMap fuel) ts
  | [], hwf, hacc, fuel, hfuel => nofun
  | t :: ts, hwf, hacc, fuel, hfuel => by
    rw [Ty.mangleAll, List.length_append] at hfuel
    intro t' ht'
    cases ht' with
    | head => exact ⟨hwf.1, forwardType_mangle t hwf.1 hacc.1 fuel (by omega)⟩
    | tail _ ht' => exact forwardType_mangleAll ts hwf.2 hacc.2 fuel (by omega) t' ht'

end

end Types

end CangjieRuntime.Demangle
