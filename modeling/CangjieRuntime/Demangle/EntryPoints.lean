/-
  The entry points of the demangler, and that their runs end.

  An entry point parses a whole mangled name, which is already decompressed.  It ends for any bytes
  (`entryPoint_ends`), and its trace has the order that `Inv` says: within the text the cursor never
  goes back, valid units have at least one byte, and after a `Reject` the parse is never valid again.
-/
import CangjieRuntime.Demangle.Progress

set_option linter.unusedVariables false

namespace CangjieRuntime.Demangle

open CangjieRuntime.Computation

/-! ## Entry points -/

/-- `DemangleDefaultParamFunction`: a `$`, the name of the parameter up to the first `_`, a number,
    and types as arguments. -/
def demangleDefaultParamFunction (fuel : Nat) : Dem DemangleInfo := do
  let d ← get
  match d.mangledName.find (ascii "_") d.currentIndex with
  | none => reject
  | some pos =>
    if pos + 1 = d.mangledName.length ∨ ¬ isCurrentCharDigit (d.mangledName.byte (pos + 1)) then
      reject
    else
      skipChar 36
      let d ← get
      let identifier := d.mangledName.subStr d.currentIndex (pos - d.currentIndex)
      skipString identifier
      skipChar 95
      let _ ← demangleLength
      if ¬ (← get).isNotEndOfMangledName then reject
      else
        let args ← demangleArgTypes fuel (demangleNextUnit fuel) (ascii ", ")
        return { type := .functionDecl, demangled := identifier, args := args }

/-- `DemangleDecl`, after the arguments. -/
def demangleDeclDefault (fuel : Nat) (di : DemangleInfo) : Dem DemangleInfo := do
  let d ← get
  if ¬ d.isValid then reject
  else if d.isMaybeDefaultFuncParamFunction then
    let dpf ← demangleDefaultParamFunction fuel
    if ¬ (← get).isValid then reject
    else return {
      di with
      demangled := di.getFullName d.scopeResolution ++ d.scopeResolution ++ dpf.demangled
      args := dpf.args }
  else return di

/-- `DemangleDecl`: a declaration behind `_C`. -/
def demangleDecl (fuel : Nat) : Dem DemangleInfo := do
  skipString (ascii "_C")
  if ¬ (← get).isValid then reject
  else
    let di ← demangleCommonDecl fuel (demangleNextUnit fuel) false
    let d ← get
    if di.type = .lambdaFunction then return di
    else if ¬ d.isValid ∨ d.atEnd then return di
    else if d.current = 69 then return di
    else
      let args ← demangleArgTypes fuel (demangleNextUnit fuel) (ascii ", ")
      demangleDeclDefault fuel { di with type := .functionDecl, args := args }

/-- The suffixes of a global initializer, and what they stand for. -/
def globalInitSuffixes : List (RtString × RtString) :=
  [(ascii "irHv", ascii "_global_reset"), (ascii "ifHv", ascii "_global_flag_reset"),
    (ascii "ilHv", ascii "_global_init_literal"), (ascii "fiHv", ascii "_global_init_imports"),
    (ascii "flHv", ascii "_global_init_import_literal"), (ascii "iiHv", ascii "_global_init")]

/-- The end of `DemangleGlobalInit`: the first suffix that the name ends with.  A prefix without an
    arena and the literal suffix are both lost. -/
def globalInitName (pkgPrefix : Text) : Dem DemangleInfo := do
  let d ← get
  match globalInitSuffixes.find? fun suffix => endsWith d.mangledName suffix.1 with
  | none => reject
  | some suffix =>
    let demangled := rtConcat pkgPrefix (rtLit suffix.2)
    return {
      type := .name
      demangled := demangled.bytes
      ownerArena := demangled.arena
      isValid := d.isValid }

/-- `DemangleGlobalInit`: the initializer of a package, or the one of a file. -/
def demangleGlobalInit (fuel : Nat) : Dem DemangleInfo := do
  let d ← get
  if d.matchForward (ascii "_CGP") then
    skipString (ascii "_CGP")
    let pkgDi ← demanglePackageName fuel
    globalInitName (rtConcat ⟨pkgDi.pkgName, pkgDi.pkgArena⟩ (rtLit (ascii "::package")))
  else if d.matchForward (ascii "_CGF") then
    skipString (ascii "_CGF")
    let pkgDi ← demanglePackageName fuel
    globalInitName (rtConcat ⟨pkgDi.pkgName, pkgDi.pkgArena⟩ (rtLit (ascii "::file")))
  else reject

/-- `DemangleParamInit`: the initializer of a parameter, a path behind `_CPI`. -/
def demangleParamInit (fuel : Nat) : Dem DemangleInfo := do
  skipString (ascii "_CPI")
  nestedDecl fuel (demangleNextUnit fuel) false true

/-- `DemangleInnerFunction`: a lambda, and what is in front of it shown as its package. -/
def demangleInnerFunction : Dem DemangleInfo := do
  let d ← get
  let prefixIndex := (d.mangledName.find (ascii "$lambda.") 0).getD 0
  if ¬ d.isValid then reject
  else
    setIndex d.mangledName.length
    return {
      type := .lambdaFunction
      pkgName := d.mangledName.subStr d.currentIndex (prefixIndex - d.currentIndex)
      demangled := d.mangledName.subStr (prefixIndex + 1) (d.mangledName.length - (prefixIndex + 1)) }

/-- Sets `mangledName`. -/
def setText (mangledName : RtString) : Dem Unit :=
  modify fun d => { d with mangledName := mangledName }.record

/-- `DemangleWrappedFunction`: the name inside of `_CV` and `$` is that of a declaration. -/
def demangleWrappedFunction (fuel : Nat) : Dem DemangleInfo := do
  let d ← get
  let endIndex := (d.mangledName.find (ascii "$") d.currentIndex).getD d.mangledName.length
  let prefixIndex := d.currentIndex + (ascii "_CV").length
  setText (ascii "_C" ++ d.mangledName.subStr prefixIndex (endIndex - prefixIndex))
  let di ← demangleDecl fuel
  return {
    di with
    demangled := di.demangled ++ ascii "<compiler generated>"
    type := .wrappedFunction }

/-- `Demangle(isType: true)`: one unit, if a type begins at the start. -/
def demangleAsType (fuel : Nat) : Dem DemangleInfo := do
  if ¬ (← get).isQualifiedType then reject
  else demangleNextUnit fuel

/-- The entry points.  Each of them is a method of the demangler that is called on a fresh state. -/
inductive EntryPoint
  | decl | globalInit | paramInit | innerFunction | wrappedFunction | type
  deriving DecidableEq, Repr

/-- The run of an entry point. -/
def EntryPoint.run (fuel : Nat) : EntryPoint → Dem DemangleInfo
  | .decl => demangleDecl fuel
  | .globalInit => demangleGlobalInit fuel
  | .paramInit => demangleParamInit fuel
  | .innerFunction => demangleInnerFunction
  | .wrappedFunction => demangleWrappedFunction fuel
  | .type => demangleAsType fuel

/-! ## Their runs -/

section Runs

variable {d : Demangler} {fuel : Nat}

/-- The function of a default parameter only moves on. -/
theorem demangleDefaultParamFunction_moves (h : Inv d) (hfuel : d.room < fuel) :
    Run (demangleDefaultParamFunction fuel) d fun _ => Moves d := by
  refine run_get ?_
  split
  · exact reject_moves h
  · refine run_ite (fun _ => reject_moves h) fun _ => ?_
    refine moves_then (skipChar_moves h 36) fun _ d1 hd1 => run_get ?_
    refine moves_then (skipString_moves hd1.inv _) fun _ d2 hd2 => ?_
    refine moves_then (skipChar_moves hd2.inv 95) fun _ d3 hd3 => ?_
    refine moves_then ((demangleLength_moves hd3.inv).mono fun _ _ hd => hd.1) fun _ d4 hd4 => ?_
    refine run_get (run_ite (fun _ => reject_moves hd4.inv) fun _ => ?_)
    have hle := (((hd1.trans hd2).trans hd3).trans hd4).room_le
    exact moves_then (demangleArgTypes_moves (demangleNextUnit_recursive fuel) hd4.inv (by omega)
      (by omega) (ascii ", ")) fun _ _ hd => run_pure_moves hd.inv

/-- So does what follows the arguments of a declaration. -/
theorem demangleDeclDefault_moves (h : Inv d) (hfuel : d.room < fuel) (di : DemangleInfo) :
    Run (demangleDeclDefault fuel di) d fun _ => Moves d := by
  refine run_get (run_ite (fun _ => reject_moves h) fun _ => run_ite (fun _ => ?_) fun _ =>
    run_pure_moves h)
  refine moves_then (demangleDefaultParamFunction_moves h hfuel) fun dpf d1 hd1 => ?_
  exact run_get (run_ite (fun _ => reject_moves hd1.inv) fun _ => run_pure_moves hd1.inv)

/-- A declaration as a whole moves on. -/
theorem demangleDecl_moves (h : Inv d) (hfuel : d.room < fuel) :
    Run (demangleDecl fuel) d fun _ => Moves d := by
  refine moves_then (skipString_moves h _) fun _ d1 hd1 => run_get ?_
  have hle1 := hd1.room_le
  refine run_ite (fun _ => reject_moves hd1.inv) fun _ => ?_
  refine moves_then (demangleCommonDecl_moves (demangleNextUnit_recursive fuel) hd1.inv (by omega)
    (by omega) false) fun di d2 hd2 => run_get ?_
  have hle2 := hd2.room_le
  refine run_ite (fun _ => run_pure_moves hd2.inv) fun _ => run_ite (fun _ => run_pure_moves hd2.inv)
    fun _ => run_ite (fun _ => run_pure_moves hd2.inv) fun _ => ?_
  refine moves_then (demangleArgTypes_moves (demangleNextUnit_recursive fuel) hd2.inv (by omega)
    (by omega) (ascii ", ")) fun args d3 hd3 => ?_
  have hle3 := hd3.room_le
  exact demangleDeclDefault_moves hd3.inv (by omega) _

/-- The name of an initializer reads nothing more. -/
theorem globalInitName_moves (h : Inv d) (pkgPrefix : Text) :
    Run (globalInitName pkgPrefix) d fun _ => Moves d := by
  refine run_get ?_
  split
  · exact reject_moves h
  · exact run_pure_moves h

/-- An initializer moves on. -/
theorem demangleGlobalInit_moves (h : Inv d) (hfuel : d.room < fuel) :
    Run (demangleGlobalInit fuel) d fun _ => Moves d := by
  have hrest : ∀ pattern suffix : RtString, Run (do
      skipString pattern
      let pkgDi ← demanglePackageName fuel
      globalInitName (rtConcat ⟨pkgDi.pkgName, pkgDi.pkgArena⟩ (rtLit suffix)) :
        Dem DemangleInfo) d fun _ => Moves d := by
    intro pattern suffix
    refine moves_then (skipString_moves h pattern) fun _ d1 hd1 => ?_
    have hle := hd1.room_le
    exact moves_then (demanglePackageName_moves hd1.inv (by omega)) fun _ d2 hd2 =>
      globalInitName_moves hd2.inv _
  exact run_get (run_ite (fun _ => hrest _ _) fun _ => run_ite (fun _ => hrest _ _) fun _ =>
    reject_moves h)

/-- So does the initializer of a parameter. -/
theorem demangleParamInit_moves (h : Inv d) (hfuel : d.room < fuel) :
    Run (demangleParamInit fuel) d fun _ => Moves d := by
  refine moves_then (skipString_moves h _) fun _ d1 hd1 => ?_
  have hle := hd1.room_le
  exact nestedDecl_moves (demangleNextUnit_recursive fuel) hd1.inv (by omega) (by omega) false true

/-- A lambda moves to the end. -/
theorem demangleInnerFunction_moves (h : Inv d) : Run demangleInnerFunction d fun _ => Moves d := by
  refine run_get (run_ite (fun _ => reject_moves h) fun _ => ?_)
  exact moves_then ((setIndex_moves h h.le_size (Nat.le_refl _) fun _ => rfl).mono
    fun _ _ hd => hd.1) fun _ _ hd => run_pure_moves hd.inv

/-- A type is one unit, and moves on as units do. -/
theorem demangleAsType_moves (h : Inv d) (hfuel : d.room < fuel) :
    Run (demangleAsType fuel) d fun _ => Moves d :=
  run_get (run_ite (fun _ => reject_moves h) fun _ =>
    next_moves (demangleNextUnit_recursive fuel) h hfuel)

/-- The text of a wrapped function is that of a declaration. -/
theorem demangleWrappedFunction_inv (h : Inv d) (hindex : d.currentIndex = 0) (htrace : d.trace = [])
    (hfuel : d.mangledName.length + 2 < fuel) :
    Run (demangleWrappedFunction fuel) d fun _ => Inv := by
  refine run_get ?_
  generalize (d.mangledName.find (ascii "$") d.currentIndex).getD d.mangledName.length = endIndex
  refine Run.bind (P := fun _ d1 => Inv d1 ∧ d1.room ≤ d.mangledName.length + 2)
    (run_modify ⟨?_, ?_⟩) fun _ d1 hd1 => ?_
  · refine ⟨?_, ?_, ?_, ?_, ?_⟩
    · simp only [Demangler.record, hindex]
      exact Nat.zero_le _
    · intro e he
      simp only [Demangler.record, htrace, List.mem_singleton] at he
      subst he
      simp only [Event.Fine, hindex]
      exact Nat.zero_le _
    · simp [Demangler.record, htrace]
    · intro e he
      simp only [Demangler.record, htrace, List.mem_singleton] at he
      subst he
      exact Nat.le_refl _
    · intro he
      simp [Demangler.record, htrace] at he
  · have hlen : (ascii "_C").length = 2 := by decide
    simp only [Demangler.room, Demangler.record, RtString.subStr, List.length_append,
      List.length_take, List.length_drop, hlen]
    omega
  · exact Run.bind (demangleDecl_moves hd1.1 (by omega)) fun _ _ hd2 => run_pure hd2.inv

end Runs

/-! ## All runs -/

/-- A new demangler satisfies the invariant. -/
theorem init_inv (mangled : RtString) (stripUnderscore : Bool) (scopeRes : RtString) :
    Inv (Demangler.init mangled stripUnderscore scopeRes) :=
  ⟨Nat.zero_le _, nofun, List.Pairwise.nil, nofun, nofun⟩

/-- What a trace says: cursors inside their text that never go back, valid units of at least one
    byte, and no valid state after a `Reject`. -/
structure Proper (trace : List Event) : Prop where
  inside : ∀ size index isValid, .state size index isValid ∈ trace → index ≤ size
  units : ∀ start stop, .unit start stop true ∈ trace → start < stop
  ordered : trace.Pairwise fun newer older => older.Before newer

/-- **Every run of every entry point ends**, for any bytes, and is proper.  A unit reads at least
    one byte before it calls itself, so that the bytes left are a measure; and after a `Reject`
    nothing sets the state back to valid. -/
theorem entryPoint_ends (entry : EntryPoint) (mangled : RtString) (stripUnderscore : Bool)
    (scopeRes : RtString) {fuel : Nat} (hfuel : mangled.length + 2 < fuel) :
    ∃ di d', entry.run fuel (Demangler.init mangled stripUnderscore scopeRes) = some (di, d') ∧
      Proper d'.trace ∧ d'.currentIndex ≤ d'.mangledName.length ∧
      (.rejected ∈ d'.trace → d'.isValid = false) := by
  have hlen : (Demangler.init mangled stripUnderscore scopeRes).mangledName.length ≤
      mangled.length := by
    simp only [Demangler.init]
    split
    · simp only [RtString.subStr, List.length_take, List.length_drop]
      omega
    · exact Nat.le_refl _
  have h := init_inv mangled stripUnderscore scopeRes
  have hroom : (Demangler.init mangled stripUnderscore scopeRes).room < fuel := by
    rw [Demangler.room]
    omega
  have hrun : Run (entry.run fuel) (Demangler.init mangled stripUnderscore scopeRes)
      fun _ => Inv := by
    cases entry with
    | decl => exact (demangleDecl_moves h hroom).mono fun _ _ hd => hd.inv
    | globalInit => exact (demangleGlobalInit_moves h hroom).mono fun _ _ hd => hd.inv
    | paramInit => exact (demangleParamInit_moves h hroom).mono fun _ _ hd => hd.inv
    | innerFunction => exact (demangleInnerFunction_moves h).mono fun _ _ hd => hd.inv
    | wrappedFunction => exact demangleWrappedFunction_inv h rfl rfl (by omega)
    | type => exact (demangleAsType_moves h hroom).mono fun _ _ hd => hd.inv
  obtain ⟨di, d', heq, hinv⟩ := hrun
  refine ⟨di, d', heq, ⟨fun size index isValid hmem => hinv.fine _ hmem, fun start stop hmem =>
    hinv.fine _ hmem rfl, hinv.ordered⟩, hinv.le_size, fun hmem => (hinv.dead hmem).1⟩

/-- A package that ends the text, and a digit that is no length, as a declaration. -/
theorem entryPoint_ends_truncated :
    ∃ di d', EntryPoint.decl.run 9 (Demangler.init (ascii "_CN0_9") false (ascii "::")) =
        some (di, d') ∧ Proper d'.trace ∧ d'.currentIndex ≤ d'.mangledName.length ∧
      (.rejected ∈ d'.trace → d'.isValid = false) :=
  entryPoint_ends .decl (ascii "_CN0_9") false (ascii "::") (by decide)

end CangjieRuntime.Demangle
