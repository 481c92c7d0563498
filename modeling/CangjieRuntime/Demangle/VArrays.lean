/-
  VArrays.

  A VArray has one element type.  The scanner takes one type for it; the demangler takes all types up
  to the end of the list (`vArray_run`), and writes no length if it is 0 or if nothing is rendered
  for the types.  So it reads a VArray only at the end of a list (`vArray_reads_iff`).  Nothing is
  rendered for a declaration with the name `<<>>` only, which loses its angle brackets twice
  (`nameless_iff`).
-/
import CangjieRuntime.Demangle.TypeLists

set_option linter.unusedVariables false

namespace CangjieRuntime.Demangle

open CangjieRuntime.Computation

/-! ## Types without a name -/

mutual

/-- The type is a declaration `<<>>` without a package, and its arguments have no name. -/
def Ty.nameless : Ty → Bool
  | .decl _ .none name => name.bytes == ascii "<<>>"
  | .genericDecl _ .none name args => name.bytes == ascii "<<>>" && Ty.noNames args
  | _ => false

/-- There are no types, or there is one without a name. -/
def Ty.noNames : List Ty → Bool
  | [] => true
  | t :: ts => t.nameless && ts.isEmpty

end

section Identifiers

variable {scopeRes : RtString}

/-- A text with an identifier is not empty. -/
theorem getFullName_ne_nil {di : DemangleInfo} (hid : di.getIdentifier ≠ []) :
    di.getFullName scopeRes ≠ [] := by
  rw [DemangleInfo.getFullName, DemangleInfo.getFullNameOf]
  split
  · simp [DemangleInfo.getFunctionName, ascii]
  · simp [DemangleInfo.getGenericConstraintsName, ascii]
  · dsimp only
    split
    · split
      · simp [hid]
      · simp [hid]
    · simp [hid]

/-- The text of a declaration that has its generic arguments in its name. -/
theorem getFullName_decl {di : DemangleInfo}
    (hkind : di.type = .classType ∨ di.type = .struct ∨ di.type = .enum)
    (hgeneric : di.genericTypes = []) (hargs : di.args = [])
    (hconstraints : di.genericConstraints = []) :
    di.getFullName scopeRes = [] ↔ di.pkgName = [] ∧ di.getIdentifier = [] := by
  have hfull : di.getFullName scopeRes =
      if di.pkgName ≠ [] ∧ di.getIdentifier ≠ [] then di.pkgName ++ scopeRes ++ di.getIdentifier
      else di.pkgName ++ di.getIdentifier := by
    rw [DemangleInfo.getFullName, DemangleInfo.getFullNameOf]
    rcases hkind with hk | hk | hk
    all_goals
      rw [hk]
      simp [DemangleInfo.isFunctionLike, DemangleInfo.getArgTypesName, hk, hgeneric, hargs,
        hconstraints]
  rw [hfull]
  split
  case isTrue hboth => simp [hboth.1]
  case isFalse => exact List.append_eq_nil_iff

/-- What is left of `<<>>` without its angle brackets. -/
theorem getIdentifier_eq_angles {di : DemangleInfo} :
    di.getIdentifier = ascii "<>" ↔ di.demangled = ascii "<<>>" := by
  constructor
  · intro h
    rw [DemangleInfo.getIdentifier] at h
    split at h
    case isFalse hnot =>
      refine absurd ?_ hnot
      rw [h]
      decide
    case isTrue hstrip =>
      obtain ⟨-, hfirst, hends⟩ := hstrip
      rcases hbytes : di.demangled with _ | ⟨a, _ | ⟨b, _ | ⟨c, _ | ⟨d, _ | ⟨e, more⟩⟩⟩⟩⟩
      · simp [hbytes, RtString.subStr, ascii] at h
      · simp [hbytes, RtString.subStr, ascii] at h
      · simp [hbytes, RtString.subStr, ascii] at h
      · simp [hbytes, RtString.subStr, ascii] at h
      · rw [hbytes] at h hfirst hends
        have hmiddle : [b, c] = ascii "<>" := h
        have hlast : ([d] == ascii ">") = true := hends
        obtain rfl : a = 60 := hfirst
        have hd : [d] = ascii ">" := by simpa using hlast
        have hb : b = 60 := (List.cons.inj hmiddle).1
        have hc : [c] = ascii ">" := (List.cons.inj hmiddle).2
        rw [hb, (List.cons.inj hc).1, (List.cons.inj hd).1]
        rfl
      · rw [hbytes] at h
        have hlen := congrArg List.length h
        simp [RtString.subStr, ascii] at hlen
  · intro h
    rw [DemangleInfo.getIdentifier, h]
    decide

/-- A replacement by a text that is not empty leaves no empty text. -/
theorem replaceFrom_ne_nil {pattern : RtString} : ∀ (fuel : Nat) (out : RtString), out ≠ [] →
    replaceFrom pattern (ascii "/") fuel out ≠ []
  | 0, out, h => h
  | fuel + 1, out, h => by
    rw [replaceFrom]
    split
    · exact h
    · split
      · exact h
      · exact replaceFrom_ne_nil fuel _ (by simp [ascii])

/-- So the name of a package does not get lost. -/
theorem replaceString_ne_nil {str pattern : RtString} (h : str ≠ []) :
    replaceString str pattern (ascii "/") ≠ [] := by
  rw [replaceString]
  split
  · exact h
  · exact replaceFrom_ne_nil _ _ h

/-- Nor does it in the rewriting of its colon. -/
theorem packageString_ne_nil {pkg : RtString} (h : pkg ≠ []) : packageString pkg ≠ [] := by
  rw [packageString]
  split
  · exact h
  · split
    · simp [ascii]
    · exact h

/-- Only no package has no name. -/
theorem pkgName_eq_nil {pkg : Package} (h : pkg.WellFormed) :
    pkg.info.pkgName = [] ↔ pkg = .none := by
  cases pkg with
  | none => exact ⟨fun _ => rfl, fun _ => rfl⟩
  | std code => exact ⟨fun hnil => absurd hnil (replaceString_ne_nil h), fun hc => by cases hc⟩
  | named name =>
    obtain ⟨ch, more, hbytes, -⟩ := h.bytes
    have hne : name.bytes ≠ [] := by rw [hbytes]; exact List.cons_ne_nil ch more
    exact ⟨fun hnil => absurd hnil (replaceString_ne_nil (packageString_ne_nil hne)),
      fun hc => by cases hc⟩

/-- The text of generic arguments is empty, or starts with a bracket. -/
theorem genericText_start (names : List RtString) :
    (joined (ascii ",") names = [] ∧
      rtFilterGeneric ((genericInfo names).getFullName scopeRes) = []) ∨
    joined (ascii ",") names ≠ [] ∧
      ∃ more, rtFilterGeneric ((genericInfo names).getFullName scopeRes) = 60 :: more := by
  have hname : (genericInfo names).getFullName scopeRes =
      if joined (ascii ",") names = [] then []
      else ascii "<" ++ joined (ascii ",") names ++ ascii ">" := by
    simp [DemangleInfo.getFullName, DemangleInfo.getFullNameOf, genericInfo,
      DemangleInfo.getIdentifier, DemangleInfo.isFunctionLike, DemangleInfo.getArgTypesName,
      List.isEmpty_iff]
  rw [hname]
  by_cases hnil : joined (ascii ",") names = []
  · rw [if_pos hnil]
    exact Or.inl ⟨hnil, rfl⟩
  · rw [if_neg hnil]
    exact Or.inr ⟨hnil, _, rfl⟩

/-- When nothing is rendered for a declaration. -/
theorem declInfo_eq_nil {kind : UInt8} {pkg : Package} {name : Name} {names : List RtString}
    (hpkg : pkg.WellFormed) (hname : name.WellFormed) (hangle : name.bytes ≠ ascii "<>") :
    (declInfo scopeRes kind pkg name
      (rtFilterGeneric ((genericInfo names).getFullName scopeRes))).getFullName scopeRes = [] ↔
      pkg = .none ∧ name.bytes = ascii "<<>>" ∧ joined (ascii ",") names = [] := by
  generalize hgeneric : rtFilterGeneric ((genericInfo names).getFullName scopeRes) = generic
  let inner : DemangleInfo := { type := .name, demangled := name.bytes }
  obtain ⟨c, more, hbytes, -⟩ := hname.bytes
  have hinner : inner.getIdentifier ≠ [] :=
    getIdentifier_ne_nil (by show name.bytes ≠ []; rw [hbytes]; exact List.cons_ne_nil c more) hangle
  have hdemangled : (declInfo scopeRes kind pkg name generic).demangled =
      inner.getIdentifier ++ generic := getFullName_name name.bytes generic
  have hfull : (declInfo scopeRes kind pkg name generic).getFullName scopeRes = [] ↔
      pkg.info.pkgName = [] ∧ (declInfo scopeRes kind pkg name generic).getIdentifier = [] := by
    refine getFullName_decl ?_ rfl rfl rfl
    show declKind kind = _ ∨ declKind kind = _ ∨ declKind kind = _
    rw [declKind]
    split
    · exact Or.inl rfl
    · split
      · exact Or.inr (Or.inl rfl)
      · exact Or.inr (Or.inr rfl)
  have hidentifier : (declInfo scopeRes kind pkg name generic).getIdentifier = [] ↔
      inner.getIdentifier ++ generic = ascii "<>" := by
    rw [← hdemangled]
    constructor
    · intro h
      by_contra hne
      refine getIdentifier_ne_nil ?_ hne h
      rw [hdemangled]
      exact fun hnil => hinner (List.append_eq_nil_iff.mp hnil).1
    · intro h
      rw [DemangleInfo.getIdentifier, h]
      decide
  have hempty := @genericText_start scopeRes names
  rw [hgeneric] at hempty
  rw [hfull, pkgName_eq_nil hpkg, hidentifier, ← @getIdentifier_eq_angles inner]
  refine and_congr_right fun _ => ?_
  rcases hempty with ⟨hnames, rfl⟩ | ⟨hnames, more, rfl⟩
  · rw [List.append_nil]
    exact ⟨fun h => ⟨h, hnames⟩, fun h => h.1⟩
  · refine ⟨fun h => absurd h ?_, fun h => absurd h.2 hnames⟩
    -- the bracket of the arguments is not the first character
    rcases hident : inner.getIdentifier with _ | ⟨a, _ | ⟨b, tail⟩⟩
    · exact absurd hident hinner
    · simp [ascii]
    · simp [ascii]

end Identifiers

section Names

variable {scopeRes : RtString}

/-- Joined names are empty if there is one name, and it is empty. -/
theorem joined_cons_eq_nil {name : RtString} {names : List RtString} :
    joined (ascii ",") (name :: names) = [] ↔ name = [] ∧ names = [] := by
  cases names with
  | nil => simp [joined]
  | cons n names => simp [joined, List.intercalate_cons_cons, ascii]

/-- A text other than `<>` is rendered. -/
theorem rendered {di : DemangleInfo} {text : RtString} (h : text ≠ [] ∧ text ≠ ascii "<>")
    (hdi : di.demangled = text) : ¬ di.getFullName scopeRes = [] :=
  getFullName_ne_nil (getIdentifier_ne_nil (by rw [hdi]; exact h.1) (by rw [hdi]; exact h.2))

/-- A type without a name takes none of the names behind it. -/
theorem Ty.nameless_left {α : Type} {t : Ty} (h : t.nameless = true) (after : List α) :
    t.left after = after := by
  cases t with
  | pointer t => cases h
  | array number t => cases h
  | vArray number t => cases h
  | _ => rfl

variable (scopeRes)

mutual

/-- The types for which nothing is rendered. -/
theorem nameless_iff : ∀ (t : Ty) (after : List RtString), t.WellFormed → t.Accepted →
    ((t.info scopeRes after).getFullName scopeRes = [] ↔ t.nameless = true)
  | .primitive ch, after, hwf, hacc => by
    -- no letter that the grammar has is without a name
    have hletters : ∀ ch ∈ ascii "nucbfdasilqhtjmr",
        getPrimitiveDemangleMap ch ≠ [] ∧ getPrimitiveDemangleMap ch ≠ ascii "<>" :=
      forall_chars (by decide)
    exact iff_of_false (rendered (hletters ch hwf) rfl) Bool.false_ne_true
  | .float16, after, hwf, hacc =>
    iff_of_false (rendered (show getPrimitiveDemangleMap 68 ≠ [] ∧ _ by decide) rfl)
      Bool.false_ne_true
  | .cstring, after, hwf, hacc =>
    iff_of_false (rendered (show ascii "CString" ≠ [] ∧ _ by decide) rfl) Bool.false_ne_true
  | .generic number, after, hwf, hacc => by
    have htext : ascii "T" ++ rtIntToString (numberValue number) ≠ [] ∧
        ascii "T" ++ rtIntToString (numberValue number) ≠ ascii "<>" := by simp [ascii]
    exact iff_of_false (rendered htext rfl) Bool.false_ne_true
  | .pointer t, after, hwf, hacc =>
    iff_of_false (rendered (show ascii "CPointer" ≠ [] ∧ _ by decide) rfl) Bool.false_ne_true
  | .array number t, after, hwf, hacc =>
    iff_of_false (rendered (show ascii "RawArray" ≠ [] ∧ _ by decide) rfl) Bool.false_ne_true
  | .vArray number t, after, hwf, hacc =>
    iff_of_false (rendered (show ascii "VArray" ≠ [] ∧ _ by decide) rfl) Bool.false_ne_true
  | .tuple number ts, after, hwf, hacc =>
    iff_of_false (rendered (show ascii "Tuple" ≠ [] ∧ _ by decide) rfl) Bool.false_ne_true
  | .function isC result params, after, hwf, hacc => by
    refine iff_of_false ?_ Bool.false_ne_true
    simp [Ty.info, DemangleInfo.getFullName, DemangleInfo.getFullNameOf,
      DemangleInfo.getFunctionName, ascii]
  | .decl kind pkg name, after, hwf, hacc => by
    -- a declaration is without a name if its package and its identifier are
    have hnil := @declInfo_eq_nil scopeRes kind pkg name [] hwf.2.1 hwf.2.2 hacc.2.2
    refine hnil.trans ?_
    cases pkg with
    | none => simp [Ty.nameless, joined]
    | std code => simp [Ty.nameless]
    | named pkgName => simp [Ty.nameless]
  | .genericDecl kind pkg name args, after, hwf, hacc => by
    have hnil := @declInfo_eq_nil scopeRes kind pkg name (Ty.names scopeRes args) hwf.2.1 hwf.2.2.1
      hacc.2.2.1
    refine hnil.trans ?_
    rw [noNames_iff args hwf.2.2.2 hacc.2.2.2]
    cases pkg with
    | none => simp [Ty.nameless]
    | std code => simp [Ty.nameless]
    | named pkgName => simp [Ty.nameless]

/-- Types without names are the ones whose joined names are empty. -/
theorem noNames_iff : ∀ ts : List Ty, Ty.AllWellFormed ts → Ty.AllAccepted ts →
    (joined (ascii ",") (Ty.names scopeRes ts) = [] ↔ Ty.noNames ts = true)
  | [], hwf, hacc => ⟨fun _ => rfl, fun _ => rfl⟩
  | t :: ts, hwf, hacc => by
    rw [Ty.names, joined_cons_eq_nil, nameless_iff t _ hwf.1 hacc.1, Ty.noNames, Bool.and_eq_true]
    refine and_congr_right fun hnameless => ?_
    rw [Ty.nameless_left hnameless]
    cases ts with
    | nil => exact ⟨fun _ => rfl, fun _ => rfl⟩
    | cons t' ts =>
      rw [Ty.names]
      exact ⟨fun h => absurd h (List.cons_ne_nil _ _), fun h => by cases h⟩

end

end Names

/-! ## One element -/

/-- The scanner and the demangler stop right behind a VArray, and the demangler has the name of its
    element and its length. -/
def VArrayReads (pre number : RtString) (t : Ty) (s scopeRes : RtString) : Prop :=
  (∀ treeIdMap fuel, (Ty.vArray number t).mangle.length < fuel →
    forwardType treeIdMap fuel pre.length (pre ++ ((Ty.vArray number t).mangle ++ s)) =
      some (pre.length + (Ty.vArray number t).mangle.length,
        pre ++ ((Ty.vArray number t).mangle ++ s))) ∧
  ∃ name, Renders scopeRes t name ∧
    ∀ d fuel, Before pre ((Ty.vArray number t).mangle ++ s) scopeRes d →
      ((Ty.vArray number t).mangle ++ s).length < fuel → ∃ di d',
        demangleNextUnit fuel d = some (di, d') ∧
        d'.currentIndex = pre.length + (Ty.vArray number t).mangle.length ∧ d'.isValid = true ∧
        di.getFullName scopeRes = ascii "VArray<" ++ name ++ ascii ",$" ++
          rtIntToString (numberValue number) ++ ascii ">"

/-- What the demangler shows of a VArray: without names the length gets lost. -/
theorem vArrayInfo_getFullName (scopeRes number : RtString) (names : List RtString) :
    (vArrayInfo scopeRes number names).getFullName scopeRes = ascii "VArray" ++
      (if joined (ascii ",") names = [] then []
      else if numberValue number ≠ 0 then
        ascii "<" ++ joined (ascii ",") names ++ ascii ",$" ++ rtIntToString (numberValue number) ++
          ascii ">"
      else ascii "<" ++ joined (ascii ",") names ++ ascii ">") := by
  have hgeneric : (genericInfo names).getFullNameOf scopeRes (numberValue number) =
      (genericInfo names).getArgTypesName (numberValue number) := by
    simp [DemangleInfo.getFullNameOf, genericInfo, DemangleInfo.getIdentifier,
      DemangleInfo.isFunctionLike]
  have hvarray : (vArrayInfo scopeRes number names).getFullName scopeRes =
      ascii "VArray" ++ (genericInfo names).getFullNameOf scopeRes (numberValue number) := by
    simp [DemangleInfo.getFullName, DemangleInfo.getFullNameOf, vArrayInfo,
      DemangleInfo.getIdentifier, DemangleInfo.isFunctionLike, DemangleInfo.getArgTypesName]
    decide
  rw [hvarray, hgeneric]
  simp [DemangleInfo.getArgTypesName, genericInfo, DemangleInfo.isFunctionLike, List.isEmpty_iff]

/-- A type has one name. -/
theorem Renders.unique {scopeRes name name' : RtString} {t : Ty} (h : Renders scopeRes t name)
    (h' : Renders scopeRes t name') : name = name' := by
  obtain ⟨di, d', heq, -, -, hname⟩ := h _ (Nat.lt_succ_self _)
  obtain ⟨di', d'', heq', -, -, hname'⟩ := h' _ (Nat.lt_succ_self _)
  rw [heq] at heq'
  cases heq'
  exact hname.symm.trans hname'

section VArrays

variable {pre number scopeRes more : RtString} {t : Ty} {ts : List Ty}

/-- The types that follow a VArray are read with its element. -/
theorem vArray_run (hnumber : IsNumber number) (hwf : Ty.AllWellFormed (t :: ts))
    (hacc : Ty.AllAccepted (t :: ts)) (hmore : ListEnd more) {d : Demangler} {fuel : Nat}
    (hd : Before pre ((Ty.vArray number t).mangle ++ (Ty.mangleAll ts ++ more)) scopeRes d)
    (hfuel : ((Ty.vArray number t).mangle ++ (Ty.mangleAll ts ++ more)).length < fuel) : ∃ d',
      demangleNextUnit fuel d =
          some (vArrayInfo scopeRes number (Ty.names scopeRes (t :: ts)), d') ∧
        d'.isValid = true ∧ d'.currentIndex =
          pre.length + (Ty.vArray number t).mangle.length + (Ty.mangleAll ts).length := by
  rw [List.length_append, List.length_append] at hfuel
  have hchain := demangleNextUnit_mangleAll scopeRes ts hwf.2 hacc.2 more (fun _ _ _ => hmore)
    (operatorless_end hwf.2 hmore)
  obtain ⟨d', heq, hahead⟩ := demangleNextUnit_mangle scopeRes (.vArray number t) ⟨hnumber, hwf.1⟩
    hacc.1 fuel _ _ _ _ (fun _ => listAhead_types hwf.2 hmore hchain) (by omega) _ d hd.ahead
  refine ⟨d', heq, hahead.valid, ?_⟩
  have hindex := (show Ahead _ scopeRes more d' from hahead).rest.length
  rw [List.length_append, List.length_append, List.length_append] at hindex
  omega

/-- The name of a single type. -/
theorem names_one : Ty.names scopeRes [t] = [(t.info scopeRes []).getFullName scopeRes] := by
  rw [Ty.names, Ty.names, Ty.left, ite_self]

end VArrays

/-- A single name is joined with nothing. -/
theorem joined_name (name : RtString) : joined (ascii ",") [name] = name := by
  simp [joined]

/-- **A VArray takes one type**, if no type follows it, it has a length other than 0, and its
    element has a name.  The demangler takes the types up to the end of the enclosing list for
    elements, and writes no length if it is 0 or if nothing is rendered for them. -/
theorem vArray_reads_iff (pre number scopeRes more : RtString) (t : Ty) (ts : List Ty)
    (hnumber : IsNumber number) (ht : t.WellFormed) (htAcc : t.Accepted) (hwf : Ty.AllWellFormed ts)
    (hacc : Ty.AllAccepted ts) (hmore : more = [] ∨ ∃ rest, more = 69 :: rest) :
    VArrayReads pre number t (Ty.mangleAll ts ++ more) scopeRes ↔
      ts = [] ∧ numberValue number ≠ 0 ∧ t.nameless = false := by
  have hname := renders_info scopeRes ht htAcc
  have hnameless := nameless_iff scopeRes t [] ht htAcc
  have hall : Ty.AllWellFormed (t :: ts) := ⟨ht, hwf⟩
  have haccAll : Ty.AllAccepted (t :: ts) := ⟨htAcc, hacc⟩
  constructor
  · -- from the text that is read: no types behind the first, and a length that is shown
    rintro ⟨-, name, hrenders, hreads⟩
    let d : Demangler :=
      { Demangler.init (pre ++ ((Ty.vArray number t).mangle ++ (Ty.mangleAll ts ++ more))) false
          scopeRes with currentIndex := pre.length }
    have hd : Before pre ((Ty.vArray number t).mangle ++ (Ty.mangleAll ts ++ more)) scopeRes d :=
      ⟨rfl, rfl, rfl, rfl⟩
    obtain ⟨di, d', heq, hindex, -, hfull⟩ := hreads d _ hd (Nat.lt_succ_self _)
    obtain ⟨d'', heq', -, hindex'⟩ := vArray_run hnumber hall haccAll hmore hd (Nat.lt_succ_self _)
    rw [heq] at heq'
    cases heq'
    have hnil : ts = [] := by
      cases ts with
      | nil => rfl
      | cons t' ts =>
        obtain ⟨ch, tail, hstart, -⟩ := Ty.start hwf.1
        rw [Ty.mangleAll, List.length_append, hstart, List.length_cons] at hindex'
        omega
    subst hnil
    obtain rfl := hname.unique hrenders
    rw [vArrayInfo_getFullName, names_one, joined_name] at hfull
    generalize (t.info scopeRes []).getFullName scopeRes = name at hfull hnameless
    have hlen := congrArg List.length hfull
    refine ⟨rfl, fun hzero => ?_, Bool.eq_false_iff.mpr fun hempty => ?_⟩
    · -- the length 0 is not written
      rw [if_neg (not_not.mpr hzero)] at hlen
      split at hlen
      · simp [ascii] at hlen
      · simp [ascii] at hlen
    · rw [if_pos (hnameless.mpr hempty)] at hlen
      simp [ascii] at hlen
  · -- and back: the demangler reads the one type, and shows its name and the length
    rintro ⟨rfl, hvalue, hnamed⟩
    refine ⟨fun treeIdMap fuel hfuel => ?_, _, hname, fun d fuel hd hfuel => ?_⟩
    · have hvArray : (Ty.vArray number t).WellFormed := ⟨hnumber, ht⟩
      exact forwardType_mangle treeIdMap (.vArray number t) hvArray htAcc fuel hfuel _ _ _
        (rest_append pre _)
    · obtain ⟨d', heq, hvalid, hindex⟩ := vArray_run hnumber hall haccAll hmore hd hfuel
      refine ⟨_, d', heq, hindex, hvalid, ?_⟩
      have hne : (t.info scopeRes []).getFullName scopeRes ≠ [] := fun hnil =>
        Bool.false_ne_true (hnamed.symm.trans (hnameless.mp hnil))
      rw [vArrayInfo_getFullName, names_one, joined_name, if_neg hne, if_pos hvalue]
      simp [ascii]

/-- A VArray with three elements that are VArrays of two `Int64`. -/
theorem vArray_reads_nested : VArrayReads [] (ascii "2") (.vArray (ascii "1") (.primitive 108))
    (Ty.mangleAll [] ++ []) (ascii "::") := by
  have hnumbers : IsNumber (ascii "2") ∧ IsNumber (ascii "1") :=
    ⟨forall_chars (by decide), forall_chars (by decide)⟩
  have hletter : (108 : UInt8) ∈ ascii "nucbfdasilqhtjmr" := by decide
  exact (vArray_reads_iff [] (ascii "2") (ascii "::") [] (.vArray (ascii "1") (.primitive 108)) []
    hnumbers.1 ⟨hnumbers.2, hletter⟩ trivial trivial trivial (Or.inl rfl)).mpr
    ⟨rfl, by decide +kernel, rfl⟩

/-- The `Int64` after a VArray is taken for a part of it. -/
theorem vArray_absorbs_int64 :
    ¬ VArrayReads [] (ascii "2") (.primitive 108) (Ty.mangleAll [.primitive 108] ++ [])
      (ascii "::") := by
  rintro ⟨-, name, -, hreads⟩
  obtain ⟨di, d', heq, hindex, -⟩ :=
    hreads (Demangler.init (ascii "V2_ll") false (ascii "::")) 6 ⟨rfl, rfl, rfl, rfl⟩ (by decide)
  have hrun : (demangleNextUnit 6 (Demangler.init (ascii "V2_ll") false (ascii "::"))).map
      (fun r => r.2.currentIndex) = some 5 := by decide +kernel
  rw [heq] at hrun
  rw [show d'.currentIndex = 5 from Option.some.inj hrun] at hindex
  exact absurd hindex (by decide)

end CangjieRuntime.Demangle
