/-
  The demangler as it is called from outside (`CJRT_Demangle`).

  A call strips the suffix of a symbol without type information, expands the back-references, lets
  the first bytes of the name choose the parser, and puts the package in front of the text.  Every
  parser ends, so that a call hangs on a name if and only if the expansion of the name does
  (`cjrtDemangle_ends_iff`).
-/
import CangjieRuntime.Demangle.EntryPoints
import CangjieRuntime.Demangle.DeCompression

set_option linter.unusedVariables false

namespace CangjieRuntime.Demangle

open CangjieRuntime.Computation

/-! ## The dispatch -/

namespace Demangler

/-- `IsGlobalInit`: the prefix of an initializer of a package or of a file. -/
def isGlobalInit (d : Demangler) : Bool :=
  d.matchForward (ascii "_CGP") || d.matchForward (ascii "_CGF")

/-- `IsParamInit`: the prefix of an initializer of a parameter. -/
def isParamInit (d : Demangler) : Bool := d.matchForward (ascii "_CPI")

/-- `IsInnerFunction`: the mark of a lambda anywhere in the name. -/
def isInnerFunction (d : Demangler) : Bool :=
  if d.mangledName.length > (ascii "$lambda.").length + 1 then
    (d.mangledName.find (ascii "$lambda.") 0).isSome
  else false

/-- `IsCFunctionWrapper`: the mark of the wrapper of a C function anywhere in the name. -/
def isCFunctionWrapper (d : Demangler) : Bool :=
  if d.mangledName.length > (ascii "$real").length then
    (d.mangledName.find (ascii "$real") 0).isSome
  else false

/-- `IsWrappedFunction`: the prefix of a wrapped name. -/
def isWrappedFunction (d : Demangler) : Bool := d.mangledName.find (ascii "_CV") 0 = some 0

end Demangler

/-- The name of a C function is its wrapper's without the suffix. -/
def demangleCFunctionWrapper : Dem DemangleInfo := do
  let d ← get
  return {
    type := .name
    demangled := d.mangledName.subStr 0 (d.mangledName.length - (ascii "$real").length)
    isValid := d.isValid }

/-- `Demangle`, behind the expansion: the parser of a name. -/
def demangleBy (fuel : Nat) : Dem DemangleInfo := do
  let d ← get
  if d.isGlobalInit then demangleGlobalInit fuel
  else if d.isParamInit then demangleParamInit fuel
  else if d.isInnerFunction then demangleInnerFunction
  else if d.isCFunctionWrapper then demangleCFunctionWrapper
  else if d.isWrappedFunction then demangleWrappedFunction fuel
  else demangleDecl fuel

/-- The text that the parser works on. -/
def expand (fuel : Nat) : Dem Unit := fun d =>
  (DeCompression.cjMangledDeCompression fuel d.mangledName false).map fun text =>
    ((), { d with mangledName := text })

/-- `Demangle(isType: false)`: a name is expanded first, and then read by its prefix. -/
def demangle (fuel : Nat) : Dem DemangleInfo := do
  if (← get).mangledName.isEmpty then reject
  else
    expand fuel
    demangleBy fuel

/-- A symbol without type information has a suffix. -/
def withoutTypeInfo (mangled : RtString) : RtString :=
  if endsWith mangled (ascii "$withoutTI") then
    mangled.subStr 0 (mangled.length - (ascii "$withoutTI").length)
  else mangled

/-- The package and the name. -/
def qualified (packageName methodName : RtString) : RtString :=
  if packageName.isEmpty then methodName else packageName ++ ascii "." ++ methodName

/-- `DemangleQualifiedName`: the package and the identifier of a type. -/
def demangleQualifiedName (fuel : Nat) : Dem RtString := do
  let info ← demangleAsType fuel
  return qualified info.pkgName info.getIdentifier

/-- `CJRT_Demangle`, on the bytes of a C string. -/
def cjrtDemangle (fuel : Nat) (functionName : RtString) : Option RtString :=
  (demangle fuel (Demangler.init (withoutTypeInfo functionName) false (ascii "::"))).map
    fun (info, d) => qualified info.pkgName (info.getFullName d.scopeResolution)

/-! ## Calls end -/

section Ends

variable {fuel : Nat} {text : RtString} {d : Demangler}

/-- Whatever the first bytes choose, it ends. -/
theorem demangleBy_ends (h : Inv d) (hindex : d.currentIndex = 0) (htrace : d.trace = [])
    (hfuel : d.mangledName.length + 2 < fuel) : Run (demangleBy fuel) d fun _ => Inv := by
  have hroom : d.room < fuel := by
    rw [Demangler.room]
    omega
  refine run_get ?_
  refine run_ite (fun _ => (demangleGlobalInit_moves h hroom).mono fun _ _ hd => hd.inv) fun _ => ?_
  refine run_ite (fun _ => (demangleParamInit_moves h hroom).mono fun _ _ hd => hd.inv) fun _ => ?_
  refine run_ite (fun _ => (demangleInnerFunction_moves h).mono fun _ _ hd => hd.inv) fun _ => ?_
  refine run_ite (fun _ => run_get (run_pure h)) fun _ => ?_
  refine run_ite (fun _ => demangleWrappedFunction_inv h hindex htrace hfuel) fun _ => ?_
  exact (demangleDecl_moves h hroom).mono fun _ _ hd => hd.inv

theorem expand_eq (htext : DeCompression.cjMangledDeCompression fuel d.mangledName false =
    some text) : expand fuel d = some ((), { d with mangledName := text }) := by
  rw [expand, htext]
  rfl

theorem expand_none
    (htext : DeCompression.cjMangledDeCompression fuel d.mangledName false = none) :
    expand fuel d = none := by
  rw [expand, htext]
  rfl

/-- A name without a back-reference is its own expansion. -/
theorem cjMangledDeCompression_plain {mangled : RtString} (isType : Bool)
    (hplain : DeCompression.isCompressed mangled = false) :
    DeCompression.cjMangledDeCompression fuel mangled isType = some mangled := by
  rw [DeCompression.cjMangledDeCompression, hplain]
  exact if_pos (Or.inl Bool.false_ne_true)

/-- **A call ends if and only if the expansion of the name does**, where the fuel is enough to read
    the expanded text once. -/
theorem cjrtDemangle_ends_iff (functionName : RtString)
    (hfuel : ∀ text,
      DeCompression.cjMangledDeCompression fuel (withoutTypeInfo functionName) false = some text →
        text.length + 2 < fuel) :
    (∃ demangled, cjrtDemangle fuel functionName = some demangled) ↔
      ∃ text, DeCompression.cjMangledDeCompression fuel (withoutTypeInfo functionName) false =
        some text := by
  have hcall : (∃ demangled, cjrtDemangle fuel functionName = some demangled) ↔
      ∃ r, demangle fuel (Demangler.init (withoutTypeInfo functionName) false (ascii "::")) =
        some r := by
    rw [cjrtDemangle]
    constructor
    · rintro ⟨demangled, h⟩
      obtain ⟨r, hr, -⟩ := Option.map_eq_some_iff.mp h
      exact ⟨r, hr⟩
    · rintro ⟨r, hr⟩
      rw [hr]
      exact ⟨_, rfl⟩
  rw [hcall]
  generalize withoutTypeInfo functionName = mangled at hfuel ⊢
  have hinv := init_inv mangled false (ascii "::")
  by_cases hempty : mangled = []
  · subst hempty
    refine ⟨fun _ => ⟨[], cjMangledDeCompression_plain false rfl⟩, fun _ => ?_⟩
    obtain ⟨info, d', heq, -⟩ := reject_moves hinv
    exact ⟨_, heq⟩
  · have hstart : demangle fuel (Demangler.init mangled false (ascii "::")) =
        (expand fuel >>= fun _ => demangleBy fuel)
          (Demangler.init mangled false (ascii "::")) := by
      rw [demangle, get_bind, if_neg]
      show ¬ mangled.isEmpty = true
      rwa [List.isEmpty_iff]
    rw [hstart]
    cases htext : DeCompression.cjMangledDeCompression fuel mangled false with
    | none =>
      -- the parser is not reached
      have hnone : (expand fuel >>= fun _ => demangleBy fuel)
          (Demangler.init mangled false (ascii "::")) = none := by
        show StateT.bind _ _ _ = none
        rw [StateT.bind, expand_none htext]
        rfl
      rw [hnone]
      constructor
      · rintro ⟨r, hr⟩
        cases hr
      · rintro ⟨text, h⟩
        cases h
    | some text =>
      refine ⟨fun _ => ⟨text, rfl⟩, fun _ => ?_⟩
      rw [bind_of_eq (expand_eq htext)]
      obtain ⟨info, d', heq, -⟩ := @demangleBy_ends fuel
        { Demangler.init mangled false (ascii "::") with mangledName := text }
        ⟨Nat.zero_le _, nofun, List.Pairwise.nil, nofun, nofun⟩ rfl rfl (hfuel text htext)
      exact ⟨_, heq⟩

/-- A wrapper of a C function, with the suffix of a symbol without type information. -/
theorem cjrtDemangle_ends_iff_wrapper :
    (∃ demangled, cjrtDemangle 40 (ascii "_CN3pkg4pushHl$real$withoutTI") = some demangled) ↔
      ∃ text, DeCompression.cjMangledDeCompression 40
        (withoutTypeInfo (ascii "_CN3pkg4pushHl$real$withoutTI")) false = some text := by
  have hplain : DeCompression.isCompressed
      (withoutTypeInfo (ascii "_CN3pkg4pushHl$real$withoutTI")) = false := by decide +kernel
  refine cjrtDemangle_ends_iff _ fun text h => ?_
  rw [cjMangledDeCompression_plain false hplain] at h
  cases h
  decide +kernel

end Ends

end CangjieRuntime.Demangle
