/-
  Whole runs over any number of region lists.

  Next to the lists stands a model that knows nothing of links: a sequence of regions for each
  list, the type each region was last placed with, and which regions a delete or a take has removed
  and no prepend has placed again.  `reachable_refines` is the refinement: after every finite
  sequence of operations the lists represent the model, and the next operation returns what the
  model returns.
-/
import CangjieRuntime.Heap.RegionListLinks

set_option linter.unusedVariables false

namespace CangjieRuntime.Heap

open Runs Linked

namespace RegionList

/-! ## The operations and the model -/

/-- An operation on the lists `ι`; `setUnitCount` is what becomes of a region that is in none. -/
inductive Op (ι : Type)
  | prepend (list : ι) (region : Nat) (regionType : RegionType)
  | delete (list : ι) (del : Nat)
  | tryDelete (list : ι) (del : Nat) (oldType newType : RegionType)
  | takeHead (list : ι) (newType : Option RegionType)
  | merge (list srcList : ι) (regionType : RegionType)
  | moveTo (list targetList : ι)
  | clear (list : ι)
  | setUnitCount (region unitCount : Nat)
  deriving DecidableEq, Repr

/-- What an operation returns. -/
inductive Result
  | done
  | deleted (ok : Bool)
  | taken (region : Option Nat)
  deriving DecidableEq, Repr

/-- The lists and the regions that they are linked through; a region may be in any list or in none.
    -/
structure State (ι : Type) where
  lists : ι → RegionList
  regions : Regions

/-- The sequences, the types of the last placements, and the regions that were removed. -/
structure Model (ι : Type) where
  lists : ι → List Nat
  placed : Nat → RegionType
  removed : Set Nat

section Exec

variable {ι : Type} [DecidableEq ι]

def State.setList (s : State ι) (i : ι) (x : RegionList × Regions) : State ι :=
  { lists := Function.update s.lists i x.1, regions := x.2 }

/-- Run one operation. -/
def Op.exec (s : State ι) : Op ι → Except Fault (State ι × Result)
  | .prepend i region regionType => do
    let x ← (s.lists i).prependRegion s.regions (some region) regionType
    .ok (s.setList i x, .done)
  | .delete i del => do
    let x ← (s.lists i).deleteRegion s.regions (some del)
    .ok (s.setList i x, .done)
  | .tryDelete i del oldType newType => do
    let (list, regions, ok) ← (s.lists i).tryDeleteRegion s.regions (some del) oldType newType
    .ok (s.setList i (list, regions), .deleted ok)
  | .takeHead i newType => do
    let (list, regions, region) ← (s.lists i).takeHeadRegion s.regions newType
    .ok (s.setList i (list, regions), .taken region)
  | .merge i j regionType => do
    let (list, srcList, regions) ← (s.lists i).mergeRegionList (s.lists j) s.regions regionType
    .ok ({ lists := Function.update (Function.update s.lists j srcList) i list, regions }, .done)
  | .moveTo i j =>
    let (list, targetList) := (s.lists i).moveTo (s.lists j)
    .ok ({ s with lists := Function.update (Function.update s.lists j targetList) i list }, .done)
  | .clear i => .ok ({ s with lists := Function.update s.lists i (s.lists i).clearList }, .done)
  | .setUnitCount region unitCount =>
    let value := { s.regions region with unitCount := unitCount }
    .ok ({ s with regions := Function.update s.regions region value }, .done)

/-- A region leaves its list. -/
def Model.remove (m : Model ι) (i : ι) (del : Nat) : Model ι :=
  { m with
    lists := Function.update m.lists i ((m.lists i).erase del)
    removed := insert del m.removed }

/-- What the operation does to the model. -/
def Op.apply (m : Model ι) : Op ι → Model ι × Result
  | .prepend i region regionType =>
    ({ lists := Function.update m.lists i (region :: m.lists i)
       placed := Function.update m.placed region regionType
       removed := m.removed \ {region} }, .done)
  | .delete i del => (m.remove i del, .done)
  | .tryDelete i del oldType newType =>
    if m.placed del = oldType then (m.remove i del, .deleted true) else (m, .deleted false)
  | .takeHead i newType =>
    match m.lists i with
    | [] => (m, .taken none)
    | head :: _ => (m.remove i head, .taken (some head))
  | .merge i j regionType =>
    ({ m with
       lists := Function.update (Function.update m.lists j []) i (m.lists j ++ m.lists i)
       placed := fun r => if r ∈ m.lists j then regionType else m.placed r }, .done)
  | .moveTo i j =>
    ({ m with lists := Function.update (Function.update m.lists j (m.lists i)) i [] }, .done)
  | .clear i => ({ m with lists := Function.update m.lists i [] }, .done)
  | .setUnitCount _ _ => (m, .done)

/-- The precondition: a region to prepend is in no list, one to delete is a member; a merge and a
    move have two different lists, and a move an empty target.  Units are counted in 32 bits. -/
def Op.Allowed (m : Model ι) : Op ι → Prop
  | .prepend _ region _ => region < INVALID_IDX ∧ ∀ i, region ∉ m.lists i
  | .delete i del => del ∈ m.lists i
  | .tryDelete i del _ _ => del ∈ m.lists i
  | .takeHead _ _ => True
  | .merge i j _ => i ≠ j
  | .moveTo i j => i ≠ j ∧ m.lists j = []
  | .clear _ => True
  | .setUnitCount region unitCount => (∀ i, region ∉ m.lists i) ∧ unitCount < 2 ^ 32

/-- The lists next to the model; at first every list is empty. -/
def machine (ι : Type) [DecidableEq ι] : System (State ι × Model ι) (Op ι) where
  init s := (∀ i, s.1.lists i = empty) ∧ (∀ r, (s.1.regions r).unitCount < 2 ^ 32) ∧
    (∀ i, s.2.lists i = []) ∧ s.2.removed = ∅
  step s op s' := op.Allowed s.2 ∧ ∃ r, op.exec s.1 = .ok (s'.1, r) ∧ s'.2 = (op.apply s.2).1

end Exec

/-! ## The invariant -/

section Invariant

variable {ι : Type}

/-- Every list represents its sequence, no region is in two places, and what the regions remember of
    their placement is what the model has; regions that were removed have no links and are in no
    list. -/
structure Inv (s : State ι) (m : Model ι) : Prop where
  rep : ∀ i, Rep (s.lists i) s.regions (m.lists i)
  nodup : ∀ i, (m.lists i).Nodup
  apart : ∀ i j, i ≠ j → (m.lists i).Disjoint (m.lists j)
  valid : ∀ i, ∀ r ∈ m.lists i, r < INVALID_IDX
  units : ∀ r, (s.regions r).unitCount < 2 ^ 32
  placed : ∀ i, ∀ r ∈ m.lists i, (s.regions r).regionType = m.placed r
  removed : ∀ r ∈ m.removed, getNextRegion s.regions r = none ∧
    getPrevRegion s.regions r = none ∧ ∀ i, r ∉ m.lists i

variable {s : State ι} {m : Model ι}

theorem Inv.listable (h : Inv s m) (i : ι) : Listable s.regions (m.lists i) :=
  ⟨h.nodup i, h.valid i, h.units⟩

theorem Inv.listable_append (h : Inv s m) {i j : ι} (hij : i ≠ j) :
    Listable s.regions (m.lists j ++ m.lists i) where
  nodup := List.nodup_append'.mpr ⟨h.nodup j, h.nodup i, h.apart j i hij.symm⟩
  valid := fun r hr => (List.mem_append.mp hr).elim (h.valid j r) (h.valid i r)
  units := h.units

variable [DecidableEq ι]

/-- One list and its regions are replaced; the other lists are not among the regions touched. -/
theorem Inv.replace (h : Inv s m) (i : ι) {list' : RegionList} {regions' : Regions}
    {l' : List Nat} (touched : List Nat) {placed' : Nat → RegionType} {removed' : Set Nat}
    (hrep : Rep list' regions' l') (hframe : Frame s.regions regions' touched)
    (htouched : ∀ j, j ≠ i → (m.lists j).Disjoint touched) (hnodup : l'.Nodup)
    (hapart : ∀ j, j ≠ i → l'.Disjoint (m.lists j)) (hvalid : ∀ r ∈ l', r < INVALID_IDX)
    (hplaced : ∀ r ∈ l', (regions' r).regionType = placed' r)
    (hothers : ∀ j, j ≠ i → ∀ r ∈ m.lists j, (regions' r).regionType = placed' r)
    (hremoved : ∀ r ∈ removed', getNextRegion regions' r = none ∧
      getPrevRegion regions' r = none ∧ r ∉ l' ∧ ∀ j, j ≠ i → r ∉ m.lists j) :
    Inv (s.setList i (list', regions')) ⟨Function.update m.lists i l', placed', removed'⟩ where
  rep := fun j => by
    show Rep (Function.update s.lists i list' j) regions' (Function.update m.lists i l' j)
    by_cases hj : j = i
    · subst hj
      rw [Function.update_self, Function.update_self]
      exact hrep
    · rw [Function.update_of_ne hj, Function.update_of_ne hj]
      exact (h.rep j).frame hframe (htouched j hj)
  nodup := fun j => by
    by_cases hj : j = i
    · subst hj
      simpa using hnodup
    · simpa [Function.update_of_ne hj] using h.nodup j
  apart := fun j k hjk => by
    by_cases hj : j = i
    · subst hj
      simpa [Function.update_of_ne (Ne.symm hjk)] using hapart k (Ne.symm hjk)
    · by_cases hk : k = i
      · subst hk
        simpa [Function.update_of_ne hj] using (hapart j hj).symm
      · simpa [Function.update_of_ne hj, Function.update_of_ne hk] using h.apart j k hjk
  valid := fun j r hr => by
    by_cases hj : j = i
    · subst hj
      exact hvalid r (by simpa using hr)
    · exact h.valid j r (by simpa [Function.update_of_ne hj] using hr)
  units := fun r => by
    rw [show (s.setList i (list', regions')).regions = regions' from rfl, hframe.units r]
    exact h.units r
  placed := fun j r hr => by
    by_cases hj : j = i
    · subst hj
      exact hplaced r (by simpa using hr)
    · exact hothers j hj r (by simpa [Function.update_of_ne hj] using hr)
  removed := fun r hr => by
    obtain ⟨hnext, hprev, hl, hj⟩ := hremoved r hr
    refine ⟨hnext, hprev, fun j => ?_⟩
    by_cases hji : j = i
    · subst hji
      simpa using hl
    · simpa [Function.update_of_ne hji] using hj j hji

/-! ## One operation -/

/-- A prepend. -/
theorem Inv.prepend (h : Inv s m) {i : ι} {region : Nat} (hvalid : region < INVALID_IDX)
    (hfree : ∀ j, region ∉ m.lists j) (regionType : RegionType) : ∃ list' regions',
      (s.lists i).prependRegion s.regions (some region) regionType = .ok (list', regions') ∧
      Inv (s.setList i (list', regions'))
        { lists := Function.update m.lists i (region :: m.lists i)
          placed := Function.update m.placed region regionType
          removed := m.removed \ {region} } := by
  have hlist : Listable s.regions (region :: m.lists i) :=
    ⟨List.nodup_cons.mpr ⟨hfree i, h.nodup i⟩, fun r hr => by
      rcases List.mem_cons.mp hr with rfl | hr
      · exact hvalid
      · exact h.valid i r hr, h.units⟩
  obtain ⟨list', regions', hres, hrep, hframe, htype⟩ :=
    prependRegion_spec (h.rep i) hlist regionType
  have hother : ∀ j, j ≠ i → (m.lists j).Disjoint (region :: m.lists i) := fun j hj r hr hr' => by
    rcases List.mem_cons.mp hr' with rfl | hr'
    · exact hfree j hr
    · exact h.apart j i hj hr hr'
  have hkeep : ∀ j, ∀ r ∈ m.lists j,
      (regions' r).regionType = Function.update m.placed region regionType r := fun j r hr => by
    have hne : r ≠ region := fun heq => hfree j (heq ▸ hr)
    rw [htype, if_neg hne, Function.update_of_ne hne]
    exact h.placed j r hr
  refine ⟨list', regions', hres, h.replace i _ hrep hframe hother hlist.nodup
    (fun j hj => (hother j hj).symm) hlist.valid (fun r hr => ?_) (fun j _ => hkeep j)
    fun r hr => ?_⟩
  · rcases List.mem_cons.mp hr with rfl | hr
    · rw [htype, if_pos rfl, Function.update_self]
    · exact hkeep i r hr
  · obtain ⟨hnext, hprev, hnot⟩ := h.removed r hr.1
    have hne : r ≠ region := hr.2
    have hmem : r ∉ region :: m.lists i := fun hr' =>
      (List.mem_cons.mp hr').elim hne (hnot i)
    obtain ⟨hn, hp⟩ := hframe.links r hmem
    exact ⟨hn.trans hnext, hp.trans hprev, hmem, fun j _ => hnot j⟩

/-- A removal. -/
theorem Inv.remove (h : Inv s m) {i : ι} {del : Nat} (hdel : del ∈ m.lists i) :
    ∃ list' regions', (s.lists i).deleteRegionLocked s.regions del = .ok (list', regions') ∧
      Inv (s.setList i (list', regions')) (m.remove i del) := by
  have hlist := h.listable i
  have hrep := h.rep i
  obtain ⟨l, l', hsplit⟩ := List.append_of_mem hdel
  have hdisj := fun j hj => h.apart j i hj
  rw [hsplit] at hlist hrep
  obtain ⟨list', regions', hres, hrep', hframe, hnext, hprev, htype⟩ :=
    deleteRegionLocked_spec hrep hlist
  have hnodup := hlist.nodup
  have hdl : del ∉ l := fun hl => (List.nodup_append'.mp hnodup).2.2 hl List.mem_cons_self
  have herase : (m.lists i).erase del = l ++ l' := by
    rw [hsplit, List.erase_append_right _ hdl, List.erase_cons_head]
  have hsub : (l ++ l').Sublist (m.lists i) := by
    rw [← herase]
    exact List.erase_sublist
  refine ⟨list', regions', hres, ?_⟩
  rw [Model.remove, herase]
  refine h.replace i _ hrep' hframe (fun j hj => by rw [← hsplit]; exact hdisj j hj)
    ((h.nodup i).sublist hsub) (fun j hj r hr hr' => hdisj j hj hr' (hsub.subset hr))
    (fun r hr => h.valid i r (hsub.subset hr))
    (fun r hr => (htype r).trans (h.placed i r (hsub.subset hr)))
    (fun j _ r hr => (htype r).trans (h.placed j r hr)) fun r hr => ?_
  rcases Set.mem_insert_iff.mp hr with rfl | hr
  · exact ⟨hnext, hprev, by rw [← herase]; exact (h.nodup i).not_mem_erase,
      fun j hj hmem => hdisj j hj hmem hdel⟩
  · obtain ⟨hn, hp, hnot⟩ := h.removed r hr
    obtain ⟨hn', hp'⟩ := hframe.links r (by rw [← hsplit]; exact hnot i)
    exact ⟨hn'.trans hn, hp'.trans hp, fun hmem => hnot i (hsub.subset hmem), fun j _ => hnot j⟩

omit [DecidableEq ι] in
/-- A region in no list gets a type. -/
theorem Inv.retype (h : Inv s m) {r : Nat} (hr : ∀ i, r ∉ m.lists i) (regionType : RegionType) :
    Inv { s with regions := setRegionType s.regions r regionType } m where
  rep := fun i => by
    rw [setRegionType_eq]
    exact (h.rep i).congr (fun a _ => by simp) fun a _ => by simp
  nodup := h.nodup
  apart := h.apart
  valid := h.valid
  units := fun a => by
    rw [setRegionType_eq]
    simpa using h.units a
  placed := fun i a ha => by
    have hne : a ≠ r := fun heq => hr i (heq ▸ ha)
    rw [setRegionType_eq, regionType_retype, if_neg (by simpa using hne)]
    exact h.placed i a ha
  removed := fun a ha => by
    rw [setRegionType_eq]
    simpa using h.removed a ha

theorem Model.not_mem_remove (h : Inv s m) {i : ι} {del : Nat} (hdel : del ∈ m.lists i) (j : ι) :
    del ∉ (m.remove i del).lists j := by
  show del ∉ Function.update m.lists i ((m.lists i).erase del) j
  by_cases hj : j = i
  · subst hj
    rw [Function.update_self]
    exact (h.nodup j).not_mem_erase
  · rw [Function.update_of_ne hj]
    exact fun hmem => h.apart j i hj hmem hdel

/-- A clear. -/
theorem Inv.clear (h : Inv s m) (i : ι) :
    Inv (s.setList i ((s.lists i).clearList, s.regions))
      { m with lists := Function.update m.lists i [] } :=
  h.replace i [] (rep_clearList _ _) ⟨fun _ _ => ⟨rfl, rfl⟩, fun _ => rfl⟩
    (fun j _ => List.disjoint_nil_right _) List.nodup_nil (fun j _ => List.disjoint_nil_left _)
    (fun r hr => absurd hr List.not_mem_nil) (fun r hr => absurd hr List.not_mem_nil)
    (fun j _ => h.placed j) fun r hr =>
      ⟨(h.removed r hr).1, (h.removed r hr).2.1, List.not_mem_nil, fun j _ => (h.removed r hr).2.2 j⟩

/-- A merge: the source is cleared first, so that its regions are in no list. -/
theorem Inv.merge (h : Inv s m) {i j : ι} (hij : i ≠ j) (regionType : RegionType) :
    ∃ list' regions', (s.lists i).mergeRegionList (s.lists j) s.regions regionType =
        .ok (list', (s.lists j).clearList, regions') ∧
      Inv { lists := Function.update (Function.update s.lists j (s.lists j).clearList) i list'
            regions := regions' }
        { m with
          lists := Function.update (Function.update m.lists j []) i (m.lists j ++ m.lists i)
          placed := fun r => if r ∈ m.lists j then regionType else m.placed r } := by
  have hlist := h.listable_append hij
  obtain ⟨list', regions', hres, hrep, hframe, htype⟩ :=
    mergeRegionList_spec (h.rep i) (h.rep j) hlist regionType
  -- the other lists are as they were, and none of them shares a region with the two
  have hlists : ∀ k, k ≠ i → ∀ r ∈ Function.update m.lists j [] k, k ≠ j ∧ r ∈ m.lists k := by
    intro k hk r hr
    by_cases hkj : k = j
    · subst hkj
      rw [Function.update_self] at hr
      exact absurd hr List.not_mem_nil
    · rw [Function.update_of_ne hkj] at hr
      exact ⟨hkj, hr⟩
  have hdisj : ∀ k, k ≠ i →
      (Function.update m.lists j [] k).Disjoint (m.lists j ++ m.lists i) := by
    intro k hk r hr hr'
    obtain ⟨hkj, hr⟩ := hlists k hk r hr
    exact (List.mem_append.mp hr').elim (h.apart k j hkj hr) (h.apart k i hk hr)
  refine ⟨list', regions', hres, (h.clear j).replace i _ hrep hframe hdisj hlist.nodup
    (fun k hk => (hdisj k hk).symm) hlist.valid (fun r hr => ?_) (fun k hk r hr => ?_)
    fun r hr => ?_⟩
  · rw [htype]
    split
    case isTrue => rfl
    case isFalse hrj => exact h.placed i r ((List.mem_append.mp hr).resolve_left hrj)
  · obtain ⟨hkj, hr⟩ := hlists k hk r hr
    rw [htype, if_neg (h.apart k j hkj hr), if_neg (h.apart k j hkj hr)]
    exact h.placed k r hr
  · obtain ⟨hnext, hprev, hnot⟩ := h.removed r hr
    have hmem : r ∉ m.lists j ++ m.lists i := fun hr' =>
      (List.mem_append.mp hr').elim (hnot j) (hnot i)
    obtain ⟨hn, hp⟩ := hframe.links r hmem
    exact ⟨hn.trans hnext, hp.trans hprev, hmem, fun k hk hr' => hnot k (hlists k hk r hr').2⟩

/-- A move to an empty list. -/
theorem Inv.moveTo (h : Inv s m) {i j : ι} (hij : i ≠ j) (hj : m.lists j = []) :
    Inv { s with lists := Function.update (Function.update s.lists j
            ((s.lists i).moveTo (s.lists j)).2) i ((s.lists i).moveTo (s.lists j)).1 }
      { m with lists := Function.update (Function.update m.lists j (m.lists i)) i [] } := by
  rw [Function.update_comm hij.symm, Function.update_comm hij.symm]
  have hrep : Rep ((s.lists i).moveTo (s.lists j)).2 s.regions (m.lists i) := by
    obtain ⟨hhead, htail, hlinked, hcount, hunits⟩ := h.rep i
    exact ⟨hhead, htail, hlinked, hcount, hunits⟩
  have hlists : ∀ k, k ≠ j → ∀ r ∈ Function.update m.lists i [] k, k ≠ i ∧ r ∈ m.lists k := by
    intro k hk r hr
    by_cases hki : k = i
    · subst hki
      rw [Function.update_self] at hr
      exact absurd hr List.not_mem_nil
    · rw [Function.update_of_ne hki] at hr
      exact ⟨hki, hr⟩
  refine (h.clear i).replace j [] hrep ⟨fun _ _ => ⟨rfl, rfl⟩, fun _ => rfl⟩
    (fun k _ => List.disjoint_nil_right _) (h.nodup i) (fun k hk r hr hr' => ?_) (h.valid i)
    (h.placed i) (fun k hk r hr => h.placed k r (hlists k hk r hr).2) fun r hr => ?_
  · obtain ⟨hki, hr'⟩ := hlists k hk r hr'
    exact h.apart k i hki hr' hr
  · obtain ⟨hnext, hprev, hnot⟩ := h.removed r hr
    exact ⟨hnext, hprev, hnot i, fun k hk hr' => hnot k (hlists k hk r hr').2⟩

omit [DecidableEq ι] in
/-- The unit count of a region in no list changes. -/
theorem Inv.setUnitCount (h : Inv s m) {region unitCount : Nat} (hr : ∀ i, region ∉ m.lists i)
    (hcount : unitCount < 2 ^ 32) {value : ListedRegion}
    (hvalue : value = { s.regions region with unitCount := unitCount }) :
    Inv { s with regions := Function.update s.regions region value } m := by
  have hnext : ∀ a, getNextRegion (Function.update s.regions region value) a =
      getNextRegion s.regions a := fun a => by
    by_cases ha : a = region
    · subst ha
      rw [getNextRegion, Function.update_self, hvalue]
      rfl
    · rw [getNextRegion, Function.update_of_ne ha]
      rfl
  have hprev : ∀ a, getPrevRegion (Function.update s.regions region value) a =
      getPrevRegion s.regions a := fun a => by
    by_cases ha : a = region
    · subst ha
      rw [getPrevRegion, Function.update_self, hvalue]
      rfl
    · rw [getPrevRegion, Function.update_of_ne ha]
      rfl
  have hmember : ∀ i, ∀ a ∈ m.lists i,
      Function.update s.regions region value a = s.regions a := fun i a ha => by
    have hne : a ≠ region := fun heq => hr i (heq ▸ ha)
    rw [Function.update_of_ne hne]
  exact
    { rep := fun i => (h.rep i).congr (fun a _ => ⟨hnext a, hprev a⟩) fun a ha =>
        congrArg ListedRegion.unitCount (hmember i a ha)
      nodup := h.nodup
      apart := h.apart
      valid := h.valid
      units := fun a => by
        show (Function.update s.regions region value a).unitCount < _
        by_cases ha : a = region
        · rw [ha, Function.update_self, hvalue]
          exact hcount
        · rw [Function.update_of_ne ha]
          exact h.units a
      placed := fun i a ha => by
        show (Function.update s.regions region value a).regionType = _
        rw [hmember i a ha]
        exact h.placed i a ha
      removed := fun a ha => by
        show getNextRegion (Function.update s.regions region value) a = _ ∧
          getPrevRegion (Function.update s.regions region value) a = _ ∧ _
        rw [hnext, hprev]
        exact h.removed a ha }

/-- **One operation.**  It returns what the model returns and represents the model again; only a
    `TryDeleteRegion` between equal types stops the program. -/
theorem Inv.exec (h : Inv s m) {op : Op ι} (hop : op.Allowed m) :
    (∃ s', op.exec s = .ok (s', (op.apply m).2) ∧ Inv s' (op.apply m).1) ∨
    ∃ i del t, op = .tryDelete i del t t ∧ op.exec s = .error .fatal := by
  cases op with
  | prepend i region regionType =>
    obtain ⟨list', regions', hres, hinv⟩ := h.prepend hop.1 hop.2 regionType
    exact Or.inl ⟨_, by simp only [Op.exec, hres, bind, Except.bind]; rfl, hinv⟩
  | delete i del =>
    obtain ⟨list', regions', hres, hinv⟩ := h.remove hop
    exact Or.inl ⟨_, by simp only [Op.exec, deleteRegion, hres, bind, Except.bind]; rfl, hinv⟩
  | tryDelete i del oldType newType =>
    -- equal types are fatal
    by_cases htypes : oldType = newType
    · subst htypes
      refine Or.inr ⟨i, del, oldType, rfl, ?_⟩
      simp only [Op.exec, tryDeleteRegion, bind, Except.bind, if_pos]
    left
    have htype := h.placed i del hop
    simp only [Op.exec, tryDeleteRegion, Op.apply, bind, Except.bind, if_neg htypes, htype]
    -- the region has the old type, or the list stays as it is
    by_cases hold : m.placed del = oldType
    · obtain ⟨list', regions', hres, hinv⟩ := h.remove hop
      simp only [if_pos hold, hres]
      exact ⟨_, rfl, hinv.retype (Model.not_mem_remove h hop) newType⟩
    · simp only [if_neg hold]
      refine ⟨_, rfl, ?_⟩
      have hsame : s.setList i (s.lists i, s.regions) = s := by
        rw [State.setList, Function.update_eq_self]
      rw [hsame]
      exact h
  | takeHead i newType =>
    left
    have hhead := (h.rep i).head
    cases hl : m.lists i with
    | nil =>
      rw [hl] at hhead
      simp only [Op.exec, takeHeadRegion, Op.apply, hhead, hl, List.head?_nil, bind, Except.bind]
      refine ⟨_, rfl, ?_⟩
      have hsame : s.setList i (s.lists i, s.regions) = s := by
        rw [State.setList, Function.update_eq_self]
      rw [hsame]
      exact h
    | cons d l =>
      have hmem : d ∈ m.lists i := by
        rw [hl]
        exact List.mem_cons_self
      obtain ⟨list', regions', hres, hinv⟩ := h.remove hmem
      rw [hl] at hhead
      simp only [Op.exec, takeHeadRegion, Op.apply, hhead, hl, List.head?_cons, bind, Except.bind,
        hres]
      cases newType with
      | none => exact ⟨_, rfl, hinv⟩
      | some newType => exact ⟨_, rfl, hinv.retype (Model.not_mem_remove h hmem) newType⟩
  | merge i j regionType =>
    obtain ⟨list', regions', hres, hinv⟩ := h.merge hop regionType
    exact Or.inl ⟨_, by simp only [Op.exec, hres, bind, Except.bind]; rfl, hinv⟩
  | moveTo i j => exact Or.inl ⟨_, rfl, h.moveTo hop.1 hop.2⟩
  | clear i => exact Or.inl ⟨_, rfl, h.clear i⟩
  | setUnitCount region unitCount =>
    exact Or.inl ⟨_, rfl, h.setUnitCount hop.1 hop.2 rfl⟩

/-! ## Every run -/

theorem machine_invariant (ι : Type) [DecidableEq ι] :
    (machine ι).Invariant fun s => Inv s.1 s.2 where
  init := by
    rintro ⟨s, m⟩ ⟨hlists, hunits, hnil, hremoved⟩
    simp only at hlists hunits hnil hremoved
    exact
      { rep := fun i => by
          rw [hlists i, hnil i]
          exact rep_empty s.regions
        nodup := fun i => by rw [hnil i]; exact List.nodup_nil
        apart := fun i j _ => by rw [hnil i]; exact List.disjoint_nil_left _
        valid := fun i r hr => by rw [hnil i] at hr; exact absurd hr List.not_mem_nil
        units := hunits
        placed := fun i r hr => by rw [hnil i] at hr; exact absurd hr List.not_mem_nil
        removed := fun r hr => by rw [hremoved] at hr; exact absurd hr (Set.notMem_empty r) }
  step := by
    rintro ⟨s, m⟩ op ⟨s', m'⟩ hinv ⟨hop, r, hres, hm⟩
    simp only at hinv hop hres hm
    rcases hinv.exec hop with ⟨s'', hs'', hinv'⟩ | ⟨i, del, t, -, herr⟩
    · rw [hs''] at hres
      obtain rfl := (Prod.mk.inj (Except.ok.inj hres)).1
      rw [hm]
      exact hinv'
    · rw [herr] at hres
      exact absurd hres nofun

/-- The lists represent the model, and can go on doing so. -/
structure Refines (s : State ι) (m : Model ι) : Prop where
  /-- Head, tail, mutually inverse links, and exact counts. -/
  rep : ∀ i, Rep (s.lists i) s.regions (m.lists i)
  inverse : ∀ i, ∀ a ∈ m.lists i, ∀ b ∈ m.lists i,
    getNextRegion s.regions a = some b ↔ getPrevRegion s.regions b = some a
  /-- Every region is in one list at most, once. -/
  once : ∀ i, (m.lists i).Nodup ∧ ∀ j, i ≠ j → (m.lists i).Disjoint (m.lists j)
  /-- Every member has the type it was last placed with. -/
  placed : ∀ i, ∀ r ∈ m.lists i, (s.regions r).regionType = m.placed r
  /-- A removed region has no links. -/
  removed : ∀ r ∈ m.removed, getNextRegion s.regions r = none ∧ getPrevRegion s.regions r = none
  /-- An operation within its precondition returns what the model returns; the counts never abort,
      nor is a null pointer written through. -/
  returns : ∀ op : Op ι, op.Allowed m → (∃ s', op.exec s = .ok (s', (op.apply m).2)) ∨
    ∃ i del t, op = .tryDelete i del t t

/-- **Region lists refine lists with exact counts**, after every finite sequence of operations on
    any number of lists.  An operation writes links of members and of the region it places only,
    which no other list has; so the step lemmas speak of one list, and the frame keeps the rest. -/
theorem reachable_refines {s : State ι} {m : Model ι} (h : (machine ι).Reachable (s, m)) :
    Refines s m := by
  have hinv := (machine_invariant ι).reachable h
  refine ⟨hinv.rep, fun i a ha b hb => (hinv.rep i).linked.inverse ha hb,
    fun i => ⟨hinv.nodup i, fun j => hinv.apart i j⟩, hinv.placed,
    fun r hr => ⟨(hinv.removed r hr).1, (hinv.removed r hr).2.1⟩, fun op hop => ?_⟩
  rcases hinv.exec hop with ⟨s', hs', -⟩ | ⟨i, del, t, heq, -⟩
  · exact Or.inl ⟨s', hs'⟩
  · exact Or.inr ⟨i, del, t, heq⟩

/-- The regions 7 and 9 are put into one list, 5 into another, and the one is merged into the
    other. -/
theorem reachable_refines_merged : ∃ (s : State Bool) (m : Model Bool),
    (machine Bool).Reachable (s, m) ∧ Refines s m ∧ m.lists true = [9, 7, 5] ∧
    m.lists false = [] ∧ s.lists true = ⟨3, 6, some 9, some 5⟩ := by
  have step : ∀ {s s' : State Bool} {m : Model Bool} {r : Result} (op : Op Bool),
      (machine Bool).Reachable (s, m) → op.Allowed m → op.exec s = .ok (s', r) →
      (machine Bool).Reachable (s', (op.apply m).1) :=
    fun op h hop hexec => h.step (e := op) ⟨hop, _, hexec, rfl⟩
  have h₀ : (machine Bool).Reachable
      ((⟨fun _ => empty, fun _ => ⟨INVALID_IDX, INVALID_IDX, .FREE_REGION, 2⟩⟩ : State Bool),
        (⟨fun _ => [], fun _ => .FREE_REGION, ∅⟩ : Model Bool)) :=
    .init ⟨fun _ => rfl, fun _ => (by decide : 2 < 2 ^ 32), fun _ => rfl, rfl⟩
  have h₁ := step (.prepend false 7 .FROM_REGION) h₀ ⟨by decide, by decide⟩ rfl
  have h₂ := step (.prepend false 9 .FROM_REGION) h₁ ⟨by decide, by decide⟩ rfl
  have h₃ := step (.prepend true 5 .TO_REGION) h₂ ⟨by decide, by decide⟩ rfl
  have h₄ := step (.merge true false .TO_REGION) h₃ (by decide : true ≠ false) rfl
  exact ⟨_, _, h₄, reachable_refines h₄, rfl, rfl, rfl⟩

end Invariant

end RegionList

end CangjieRuntime.Heap
