/-
  What each operation of a region list does.

  `Rep` ties a list to the sequence of its regions: head, tail, links and both counts.  The links
  an operation writes are the two ends of a splice (`splice`), so that every specification is one of
  the splicing facts of doubly linked sequences plus arithmetic on the counts; the counts cannot
  overflow, because a list has fewer than 2^32 regions of fewer than 2^32 units each
  (`sum_units_lt`).
-/
import CangjieRuntime.Heap.RegionList

set_option linter.unusedVariables false

namespace CangjieRuntime.Heap

open Linked

namespace RegionList

/-! ## Writing links -/

/-- A pointer a link can hold.  The links are 32-bit indices, and one index is kept for null. -/
def Valid (p : Option Nat) : Prop := ∀ r, p = some r → r < INVALID_IDX

/-- A link that is a valid index is read back as it was written. -/
theorem decode_encode {p : Option Nat} (h : Valid p) : decode (encode p) = p := by
  cases p with
  | none => rfl
  | some r =>
    have hr := h r rfl
    simp only [INVALID_IDX] at hr
    rw [encode, decode, Nat.mod_eq_of_lt (by omega), if_neg]
    simp only [INVALID_IDX]
    omega

/-- `setNextRegion`, which leaves everything alone at a null pointer. -/
def linkNext (regions : Regions) (p q : Option Nat) : Regions := fun a =>
  if p = some a then { regions a with nextRegionIdx := encode q } else regions a

/-- `setPrevRegion`, which leaves everything alone at a null pointer. -/
def linkPrev (regions : Regions) (p q : Option Nat) : Regions := fun a =>
  if p = some a then { regions a with prevRegionIdx := encode q } else regions a

/-- `SetNextRegion` of a region writes its link. -/
theorem setNextRegion_some (regions : Regions) (r : Nat) (q : Option Nat) :
    setNextRegion regions (some r) q = .ok (linkNext regions (some r) q) := by
  rw [setNextRegion]
  congr 1
  funext a
  by_cases ha : a = r
  · subst ha
    rw [linkNext, if_pos rfl, Function.update_self]
  · rw [linkNext, if_neg (by simpa using Ne.symm ha), Function.update_of_ne ha]

/-- `SetPrevRegion` of a region writes its link. -/
theorem setPrevRegion_some (regions : Regions) (r : Nat) (q : Option Nat) :
    setPrevRegion regions (some r) q = .ok (linkPrev regions (some r) q) := by
  rw [setPrevRegion]
  congr 1
  funext a
  by_cases ha : a = r
  · subst ha
    rw [linkPrev, if_pos rfl, Function.update_self]
  · rw [linkPrev, if_neg (by simpa using Ne.symm ha), Function.update_of_ne ha]

section Links

variable (regions : Regions) (p q : Option Nat) (a : Nat)

/-- The written link is read back, and no other next link has changed. -/
theorem getNextRegion_linkNext {q : Option Nat} (hq : Valid q) :
    getNextRegion (linkNext regions p q) a = if p = some a then q else getNextRegion regions a := by
  rw [getNextRegion, linkNext]
  split
  · exact decode_encode hq
  · rfl

/-- The written link is read back, and no other previous link has changed. -/
theorem getPrevRegion_linkPrev {q : Option Nat} (hq : Valid q) :
    getPrevRegion (linkPrev regions p q) a = if p = some a then q else getPrevRegion regions a := by
  rw [getPrevRegion, linkPrev]
  split
  · exact decode_encode hq
  · rfl

@[simp] theorem getPrevRegion_linkNext :
    getPrevRegion (linkNext regions p q) a = getPrevRegion regions a := by
  rw [getPrevRegion, linkNext]
  split <;> rfl

@[simp] theorem getNextRegion_linkPrev :
    getNextRegion (linkPrev regions p q) a = getNextRegion regions a := by
  rw [getNextRegion, linkPrev]
  split <;> rfl

@[simp] theorem unitCount_linkNext :
    (linkNext regions p q a).unitCount = (regions a).unitCount := by
  rw [linkNext]
  split <;> rfl

@[simp] theorem unitCount_linkPrev :
    (linkPrev regions p q a).unitCount = (regions a).unitCount := by
  rw [linkPrev]
  split <;> rfl

@[simp] theorem regionType_linkNext :
    (linkNext regions p q a).regionType = (regions a).regionType := by
  rw [linkNext]
  split <;> rfl

@[simp] theorem regionType_linkPrev :
    (linkPrev regions p q a).regionType = (regions a).regionType := by
  rw [linkPrev]
  split <;> rfl

end Links

@[simp] theorem linkNext_none (regions : Regions) (q : Option Nat) :
    linkNext regions none q = regions := rfl

@[simp] theorem linkPrev_none (regions : Regions) (q : Option Nat) :
    linkPrev regions none q = regions := rfl

/-- Link `p` and `q` to each other. -/
def splice (regions : Regions) (p q : Option Nat) : Regions :=
  linkPrev (linkNext regions p q) q p

/-- Take the links of a region away. -/
def unlink (regions : Regions) (r : Nat) : Regions :=
  linkPrev (linkNext regions (some r) none) (some r) none

/-- No link is a valid one: it is the index that no region has. -/
theorem valid_none : Valid none := fun r h => absurd h nofun

/-- To join two regions writes the next link of the first and no other. -/
theorem getNextRegion_splice (regions : Regions) (p : Option Nat) {q : Option Nat} (hq : Valid q)
    (a : Nat) : getNextRegion (splice regions p q) a =
      if p = some a then q else getNextRegion regions a := by
  rw [splice, getNextRegion_linkPrev, getNextRegion_linkNext _ _ _ hq]

/-- To join two regions writes the previous link of the second and no other. -/
theorem getPrevRegion_splice (regions : Regions) {p : Option Nat} (q : Option Nat) (hp : Valid p)
    (a : Nat) : getPrevRegion (splice regions p q) a =
      if q = some a then p else getPrevRegion regions a := by
  rw [splice, getPrevRegion_linkPrev _ _ _ hp, getPrevRegion_linkNext]

/-- A region that is taken out has no next one; the others keep theirs. -/
theorem getNextRegion_unlink (regions : Regions) (r a : Nat) :
    getNextRegion (unlink regions r) a = if a = r then none else getNextRegion regions a := by
  rw [unlink, getNextRegion_linkPrev, getNextRegion_linkNext _ _ _ valid_none]
  simp [eq_comm]

/-- A region that is taken out has no previous one; the others keep theirs. -/
theorem getPrevRegion_unlink (regions : Regions) (r a : Nat) :
    getPrevRegion (unlink regions r) a = if a = r then none else getPrevRegion regions a := by
  rw [unlink, getPrevRegion_linkPrev _ _ _ valid_none, getPrevRegion_linkNext]
  simp [eq_comm]

/-- The operation left the regions outside of `touched` alone, and no unit count changed. -/
structure Frame (regions regions' : Regions) (touched : List Nat) : Prop where
  links : ∀ a, a ∉ touched → getNextRegion regions' a = getNextRegion regions a ∧
    getPrevRegion regions' a = getPrevRegion regions a
  units : ∀ a, (regions' a).unitCount = (regions a).unitCount

/-! ## Representation -/

/-- The list holds the regions `l`, in this order. -/
structure Rep (list : RegionList) (regions : Regions) (l : List Nat) : Prop where
  head : list.listHead = l.head?
  tail : list.listTail = l.getLast?
  linked : Seg (getNextRegion regions) (getPrevRegion regions) none l none
  regionCount : list.regionCount = l.length
  unitCount : list.unitCount = (l.map fun r => (regions r).unitCount).sum

/-- Regions of fewer than 2^32 units, each there once, with an index a link can hold. -/
structure Listable (regions : Regions) (l : List Nat) : Prop where
  nodup : l.Nodup
  valid : ∀ r ∈ l, r < INVALID_IDX
  units : ∀ r, (regions r).unitCount < 2 ^ 32

section Rep

variable {list : RegionList} {regions regions' : Regions} {l l' : List Nat}

/-- A part of what can be linked can be linked. -/
theorem Listable.sublist (h : Listable regions l) (hsub : l'.Sublist l) : Listable regions l' :=
  ⟨h.nodup.sublist hsub, fun r hr => h.valid r (hsub.subset hr), h.units⟩

/-- The order does not matter for that. -/
theorem Listable.perm (h : Listable regions l) (hperm : l.Perm l') : Listable regions l' :=
  ⟨hperm.nodup_iff.mp h.nodup, fun r hr => h.valid r (hperm.mem_iff.mpr hr), h.units⟩

/-- The first of them is a valid index. -/
theorem Listable.head (h : Listable regions l) : Valid l.head? :=
  fun r hr => h.valid r (List.mem_of_head? hr)

/-- So is the last. -/
theorem Listable.last (h : Listable regions l) : Valid l.getLast? :=
  fun r hr => h.valid r (List.mem_of_getLast? hr)

/-- There are no more of them than there are indices, and so the count does not wrap. -/
theorem Listable.length_le (h : Listable regions l) : l.length ≤ INVALID_IDX := by
  have hsub : l ⊆ List.range INVALID_IDX := fun r hr => List.mem_range.mpr (h.valid r hr)
  have := (h.nodup.subperm hsub).length_le
  rwa [List.length_range] at this

/-- The units of a list are counted without overflow. -/
theorem Listable.sum_units_lt (h : Listable regions l) :
    (l.map fun r => (regions r).unitCount).sum < 2 ^ 64 := by
  have hsum : (l.map fun r => (regions r).unitCount).sum ≤ l.length * (2 ^ 32 - 1) := by
    have := List.sum_le_card_nsmul (l.map fun r => (regions r).unitCount) (2 ^ 32 - 1) (by
      intro x hx
      obtain ⟨r, -, rfl⟩ := List.mem_map.mp hx
      have := h.units r
      omega)
    rwa [List.length_map, smul_eq_mul] at this
  have hlen := Nat.mul_le_mul_right (2 ^ 32 - 1) h.length_le
  simp only [INVALID_IDX] at hlen
  omega

/-- Only the links and the unit counts of the regions in the list matter. -/
theorem Rep.congr (h : Rep list regions l) (hlinks : ∀ a ∈ l,
      getNextRegion regions' a = getNextRegion regions a ∧
      getPrevRegion regions' a = getPrevRegion regions a)
    (hunits : ∀ a ∈ l, (regions' a).unitCount = (regions a).unitCount) :
    Rep list regions' l where
  head := h.head
  tail := h.tail
  linked := h.linked.congr hlinks
  regionCount := h.regionCount
  unitCount := by rw [h.unitCount, List.map_congr_left hunits]

/-- A list whose regions an operation left alone holds the same regions after it. -/
theorem Rep.frame {touched : List Nat} (h : Rep list regions l)
    (hframe : Frame regions regions' touched) (hdisj : l.Disjoint touched) :
    Rep list regions' l :=
  h.congr (fun a ha => hframe.links a fun hmem => hdisj ha hmem) fun a _ => hframe.units a

/-- `ClearList` leaves an empty list, whatever the links of the regions are. -/
theorem rep_clearList (list : RegionList) (regions : Regions) : Rep list.clearList regions [] :=
  ⟨rfl, rfl, trivial, rfl, rfl⟩

/-- A new list is empty. -/
theorem rep_empty (regions : Regions) : Rep empty regions [] := ⟨rfl, rfl, trivial, rfl, rfl⟩

/-- The counts of two lists that have no region in common are added without overflow. -/
theorem Rep.incCounts (h : Rep list regions l') (hlist : Listable regions (l ++ l')) :
    list.incCounts l.length (l.map fun r => (regions r).unitCount).sum =
      .ok { list with
        regionCount := (l ++ l').length
        unitCount := ((l ++ l').map fun r => (regions r).unitCount).sum } := by
  have hunits := hlist.sum_units_lt
  have hlen := hlist.length_le
  simp only [List.map_append, List.sum_append, List.length_append, INVALID_IDX] at hunits hlen ⊢
  have hcount := h.regionCount
  have hsum := h.unitCount
  unfold RegionList.incCounts
  rw [if_neg (by simp only [UINT_NATIVE_MAX]; omega), Words.add_eq (by omega),
    Words.add_eq (by omega), hcount, hsum, Nat.add_comm l.length, Nat.add_comm (l.map _).sum]

end Rep

/-! ## Region types -/

/-- The regions `l`, with a new type. -/
def retype (regions : Regions) (l : List Nat) (regionType : RegionType) : Regions := fun a =>
  if a ∈ l then { regions a with regionType := regionType } else regions a

section Retype

variable (regions : Regions) (l : List Nat) (regionType : RegionType) (a : Nat)

@[simp] theorem getNextRegion_retype :
    getNextRegion (retype regions l regionType) a = getNextRegion regions a := by
  rw [getNextRegion, retype]
  split <;> rfl

@[simp] theorem getPrevRegion_retype :
    getPrevRegion (retype regions l regionType) a = getPrevRegion regions a := by
  rw [getPrevRegion, retype]
  split <;> rfl

@[simp] theorem unitCount_retype :
    (retype regions l regionType a).unitCount = (regions a).unitCount := by
  rw [retype]
  split <;> rfl

/-- The regions of the list have the new type, and the others keep theirs. -/
theorem regionType_retype : (retype regions l regionType a).regionType =
    if a ∈ l then regionType else (regions a).regionType := by
  rw [retype]
  split <;> rfl

/-- `SetRegionType` is the retyping of one region. -/
theorem setRegionType_eq :
    setRegionType regions a regionType = retype regions [a] regionType := by
  funext b
  by_cases hb : b = a
  · subst hb
    rw [retype, if_pos (List.mem_singleton_self b), setRegionType, Function.update_self]
  · rw [retype, if_neg (by simpa using hb), setRegionType, Function.update_of_ne hb]

end Retype

/-- `SetElementType` reaches every region of the list. -/
theorem setElementType_spec (regionType : RegionType) {fuel : Nat} {l : List Nat} {p : Option Nat}
    {regions : Regions} (hlinked : Seg (getNextRegion regions) (getPrevRegion regions) p l none)
    (hfuel : l.length ≤ fuel) :
    setElementType regionType fuel l.head? regions = .ok (retype regions l regionType) := by
  induction l generalizing fuel p regions with
  | nil =>
    have hnil : retype regions [] regionType = regions := by
      funext a
      rw [retype, if_neg List.not_mem_nil]
    cases fuel <;> rw [List.head?_nil, setElementType, hnil]
  | cons a l ih =>
    obtain ⟨-, hnext, hrest⟩ := hlinked
    cases fuel with
    | zero => exact absurd hfuel (by simp)
    | succ fuel =>
      have hcongr : Seg (getNextRegion (retype regions [a] regionType))
          (getPrevRegion (retype regions [a] regionType)) (some a) l none :=
        hrest.congr fun b _ => by simp
      have hfuel' : l.length ≤ fuel := Nat.le_of_succ_le_succ hfuel
      rw [List.head?_cons, setElementType, setRegionType_eq, getNextRegion_retype, hnext,
        Option.or_none, ih hcongr hfuel']
      congr 1
      funext b
      by_cases hb : b ∈ l
      · rw [retype, if_pos hb, retype, retype, if_pos (List.mem_cons_of_mem a hb)]
        split <;> rfl
      · rw [retype, if_neg hb, retype, retype]
        simp only [List.mem_cons, List.not_mem_nil, hb, or_false]

/-! ## The operations -/

section Operations

variable {list : RegionList} {regions : Regions} {l l' : List Nat}

/-- **`PrependRegion`** puts the region at the front.  The links of the region and of the old head
    are written, and the type of the region only. -/
theorem prependRegion_spec (h : Rep list regions l) {r : Nat} (hlist : Listable regions (r :: l))
    (regionType : RegionType) : ∃ list' regions',
      list.prependRegion regions (some r) regionType = .ok (list', regions') ∧
      Rep list' regions' (r :: l) ∧ Frame regions regions' (r :: l) ∧
      ∀ a, (regions' a).regionType = if a = r then regionType else (regions a).regionType := by
  have hr : Valid (some r) := fun a ha => hlist.valid a (Option.some.inj ha ▸ List.mem_cons_self)
  have hrl : r ∉ l := (List.nodup_cons.mp hlist.nodup).1
  have hhead : Valid l.head? := fun a ha =>
    hlist.valid a (List.mem_cons_of_mem r (List.mem_of_head? ha))
  -- the region, typed and with no predecessor, is linked to the head
  let base := linkPrev (retype regions [r] regionType) (some r) none
  let regions' := splice base (some r) l.head?
  have hbase : ∀ a ∈ l, getNextRegion base a = getNextRegion regions a ∧
      getPrevRegion base a = getPrevRegion regions a := by
    intro a ha
    have hne : ¬ r = a := fun hra => hrl (hra ▸ ha)
    simp [base, getPrevRegion_linkPrev _ _ _ valid_none, hne]
  have hunits : ∀ a, (regions' a).unitCount = (regions a).unitCount := fun a => by
    simp [regions', base, splice]
  have hlinked : Seg (getNextRegion regions') (getPrevRegion regions') none (r :: l) none := by
    have hsingle : Seg (Function.update (getNextRegion base) r none) (getPrevRegion base) none [r]
        none := by
      refine ⟨?_, ?_, trivial⟩
      · rw [getPrevRegion_linkPrev _ _ _ valid_none, if_pos rfl]
      · rw [Function.update_self]
        rfl
    have hrest : Seg (Function.update (getNextRegion base) r none) (getPrevRegion base) none l
        none := h.linked.congr fun a ha => by
      have hne : a ≠ r := fun har => hrl (har ▸ ha)
      rw [Function.update_of_ne hne]
      exact hbase a ha
    refine hsingle.join hrest hlist.nodup (fun a ha => ?_) fun a ha => ?_
    · rw [getNextRegion_splice _ _ hhead, List.getLast?_singleton]
      split
      case isTrue => rfl
      case isFalse hne =>
        have hne' : a ≠ r := fun har => hne (by rw [har])
        rw [Function.update_of_ne hne']
    · rw [getPrevRegion_splice _ _ hr, List.getLast?_singleton]
  refine ⟨⟨(r :: l).length, ((r :: l).map fun a => (regions a).unitCount).sum, some r,
    (r :: l).getLast?⟩, regions', ?_, ⟨rfl, rfl, hlinked, rfl, ?_⟩, ⟨fun a ha => ?_, hunits⟩,
    fun a => ?_⟩
  · have hinc := h.incCounts (l := [r]) hlist
    rw [List.map_singleton, List.sum_singleton, List.length_singleton] at hinc
    have hcount : (linkPrev (retype regions [r] regionType) (some r) none r).unitCount =
        (regions r).unitCount := by simp
    rw [prependRegion, prependRegionLocked, setRegionType_eq, setPrevRegion_some]
    simp only [bind, Except.bind, hcount, hinc, setNextRegion_some, h.head]
    cases l with
    | nil => rfl
    | cons b l =>
      simp only [List.head?_cons, setPrevRegion_some, h.tail, List.getLast?_cons_cons]
      rfl
  · rw [List.map_congr_left fun a _ => hunits a]
  · have hne : ¬ r = a := fun hra => ha (hra ▸ List.mem_cons_self)
    have hnhead : ¬ l.head? = some a := fun hhead =>
      ha (List.mem_cons_of_mem r (List.mem_of_head? hhead))
    simp [regions', base, getNextRegion_splice _ _ hhead, getPrevRegion_splice _ _ hr,
      getPrevRegion_linkPrev _ _ _ valid_none, hne, hnhead]
  · simp [regions', base, splice, regionType_retype]

/-- The counts after a region has gone. -/
theorem Rep.decCounts {d : Nat} (h : Rep list regions (l ++ d :: l'))
    (hlist : Listable regions (l ++ d :: l')) :
    list.decCounts 1 (regions d).unitCount = .ok { list with
      regionCount := (l ++ l').length
      unitCount := ((l ++ l').map fun r => (regions r).unitCount).sum } := by
  have hunits := hlist.sum_units_lt
  have hlen := hlist.length_le
  have hcount := h.regionCount
  have hsum := h.unitCount
  simp only [List.map_append, List.map_cons, List.sum_append, List.sum_cons, List.length_append,
    List.length_cons, INVALID_IDX] at hunits hlen hcount hsum ⊢
  unfold RegionList.decCounts
  rw [if_pos (by omega), Words.sub_eq (by omega) (by omega), Words.sub_eq (by omega) (by omega),
    hcount, hsum]
  congr 2
  omega

/-- **`DeleteRegionLocked`** takes the region out, and its links away.  Its neighbours are linked to
    each other, and head and tail move if it was one of them. -/
theorem deleteRegionLocked_spec {d : Nat} (h : Rep list regions (l ++ d :: l'))
    (hlist : Listable regions (l ++ d :: l')) : ∃ list' regions',
      list.deleteRegionLocked regions d = .ok (list', regions') ∧
      Rep list' regions' (l ++ l') ∧ Frame regions regions' (l ++ d :: l') ∧
      getNextRegion regions' d = none ∧ getPrevRegion regions' d = none ∧
      ∀ a, (regions' a).regionType = (regions a).regionType := by
  have hperm : (l ++ d :: l').Perm (d :: (l ++ l')) := List.perm_middle
  have hnodup := (hlist.perm hperm).nodup
  obtain ⟨hd, hnodup'⟩ := List.nodup_cons.mp hnodup
  have hlast : Valid l.getLast? :=
    (hlist.sublist (List.sublist_append_left l (d :: l'))).last
  have hhead : Valid l'.head? := (hlist.sublist
    ((List.sublist_cons_self d l').trans (List.sublist_append_right l (d :: l')))).head
  obtain ⟨hprev, hnext⟩ := h.linked.neighbours
  rw [Option.or_none] at hprev hnext
  -- the region loses its links, then its neighbours are linked to each other
  let regions' := splice (unlink regions d) l.getLast? l'.head?
  have hnext' : ∀ a, getNextRegion regions' a = if l.getLast? = some a then l'.head?
      else if a = d then none else getNextRegion regions a := fun a => by
    rw [getNextRegion_splice _ _ hhead, getNextRegion_unlink]
  have hprev' : ∀ a, getPrevRegion regions' a = if l'.head? = some a then l.getLast?
      else if a = d then none else getPrevRegion regions a := fun a => by
    rw [getPrevRegion_splice _ _ hlast, getPrevRegion_unlink]
  have hunits : ∀ a, (regions' a).unitCount = (regions a).unitCount := fun a => by
    simp [regions', splice, unlink]
  have hdl : l.getLast? ≠ some d := fun hl =>
    hd (List.mem_append_left l' (List.mem_of_getLast? hl))
  have hdl' : l'.head? ≠ some d := fun hl => hd (List.mem_append_right l (List.mem_of_head? hl))
  have hlinked : Seg (getNextRegion regions') (getPrevRegion regions') none (l ++ l') none := by
    refine h.linked.remove hnodup' (fun b hb => ?_) fun b hb => ?_
    · rw [hnext', if_neg (fun hbd : b = d => hd (hbd ▸ hb))]
    · rw [hprev', if_neg (fun hbd : b = d => hd (hbd ▸ hb))]
  refine ⟨⟨(l ++ l').length, ((l ++ l').map fun r => (regions r).unitCount).sum, (l ++ l').head?,
    (l ++ l').getLast?⟩, regions', ?_, ⟨rfl, rfl, hlinked, rfl, ?_⟩, ⟨fun a ha => ?_, hunits⟩,
    ?_, ?_, fun a => by simp [regions', splice, unlink]⟩
  · have hdec := h.decCounts hlist
    have hcount : (unlink regions d d).unitCount = (regions d).unitCount := by simp [unlink]
    have hunlink : linkPrev (linkNext regions (some d) none) (some d) none = unlink regions d := rfl
    have hlisthead := h.head
    have hlisttail := h.tail
    unfold deleteRegionLocked
    simp only [setNextRegion_some, setPrevRegion_some, bind, Except.bind, hprev, hnext, hunlink,
      hcount, hdec]
    rw [hlisthead, hlisttail]
    -- whether the region is the head, and whether it is the tail
    rcases List.eq_nil_or_concat' l with rfl | ⟨l, p, rfl⟩
    · cases l' with
      | nil => simp [regions', splice]
      | cons n l' =>
        have htail : (n :: l').getLast? ≠ some d := fun hl => hd (List.mem_of_getLast? hl)
        simp [deleteRegionLocked.deleteTail, List.getLast?_cons_cons, htail, setPrevRegion_some,
          regions', splice, bind, Except.bind]
    · have hhead : ((l ++ [p]) ++ d :: l').head? ≠ some d := fun hl => by
        rw [List.head?_append_of_ne_nil _ (List.concat_ne_nil p l)] at hl
        exact hd (List.mem_append_left l' (List.mem_of_head? hl))
      rw [if_neg hhead]
      cases l' with
      | nil =>
        simp [deleteRegionLocked.deleteTail, setNextRegion_some, regions', splice]
      | cons n l' =>
        have htail : ((l ++ [p]) ++ d :: n :: l').getLast? ≠ some d := fun hl => by
          rw [List.getLast?_append_of_ne_nil _ (List.cons_ne_nil d (n :: l')),
            List.getLast?_cons_cons] at hl
          exact hd (List.mem_append_right (l ++ [p]) (List.mem_of_getLast? hl))
        simp only [List.getLast?_concat, List.head?_cons, setNextRegion_some,
          deleteRegionLocked.deleteTail, if_neg htail, setPrevRegion_some, bind, Except.bind]
        simp [regions', splice]
  · rw [List.map_congr_left fun a _ => hunits a]
  · have hmem := fun hal : a ∈ l ++ l' => ha (hperm.mem_iff.mpr (List.mem_cons_of_mem d hal))
    have had : a ≠ d := fun had => ha (by rw [had]; exact hperm.mem_iff.mpr List.mem_cons_self)
    rw [hnext', hprev', if_neg had, if_neg had,
      if_neg (fun hl => hmem (List.mem_append_left l' (List.mem_of_getLast? hl))),
      if_neg (fun hl => hmem (List.mem_append_right l (List.mem_of_head? hl)))]
    exact ⟨rfl, rfl⟩
  · rw [hnext', if_neg hdl, if_pos rfl]
  · rw [hprev', if_neg hdl', if_pos rfl]

/-- **`MergeRegionList`** puts the source's regions, retyped, in front, and empties the source. -/
theorem mergeRegionList_spec {srcList : RegionList} (h : Rep list regions l)
    (hsrc : Rep srcList regions l') (hlist : Listable regions (l' ++ l))
    (regionType : RegionType) : ∃ list' regions',
      list.mergeRegionList srcList regions regionType =
        .ok (list', srcList.clearList, regions') ∧
      Rep list' regions' (l' ++ l) ∧ Frame regions regions' (l' ++ l) ∧
      ∀ a, (regions' a).regionType = if a ∈ l' then regionType else (regions a).regionType := by
  cases l' with
  | nil =>
    refine ⟨list, regions, ?_, h, ⟨fun _ _ => ⟨rfl, rfl⟩, fun _ => rfl⟩, fun a => ?_⟩
    · simp [mergeRegionList, moveTo, hsrc.head]
    · rw [if_neg List.not_mem_nil]
  | cons b l' =>
    have hlast : Valid (b :: l').getLast? :=
      (hlist.sublist (List.sublist_append_left (b :: l') l)).last
    have hhead : Valid l.head? := (hlist.sublist (List.sublist_append_right (b :: l') l)).head
    have hset := setElementType_spec regionType hsrc.linked (le_of_eq hsrc.regionCount.symm)
    have hinc := h.incCounts hlist
    rw [← hsrc.regionCount, ← hsrc.unitCount] at hinc
    let base := retype regions (b :: l') regionType
    have hbase : Seg (getNextRegion base) (getPrevRegion base) none (b :: l') none :=
      hsrc.linked.congr fun a _ => by simp [base]
    simp only [mergeRegionList, moveTo, hsrc.head, List.head?_cons, hsrc.tail] at hset ⊢
    simp only [hset, hinc, bind, Except.bind, h.head]
    cases l with
    | nil =>
      -- the target takes the source's head and tail over
      rw [List.append_nil]
      refine ⟨_, base, rfl, ⟨rfl, rfl, hbase, rfl, ?_⟩, ⟨fun a _ => by simp [base],
        fun a => by simp [base]⟩, fun a => regionType_retype _ _ _ a⟩
      rw [List.map_congr_left fun a _ => unitCount_retype _ _ _ a]
    | cons c l =>
      let regions' := splice base (b :: l').getLast? (some c)
      have hhead : Valid (some c) := hhead
      have hlinked : Seg (getNextRegion regions') (getPrevRegion regions') none
          (b :: l' ++ c :: l) none := by
        have hrest : Seg (getNextRegion base) (getPrevRegion base) none (c :: l) none :=
          h.linked.congr fun a _ => by simp [base]
        exact hbase.join hrest hlist.nodup (fun a _ => getNextRegion_splice _ _ hhead a)
          fun a _ => getPrevRegion_splice _ _ hlast a
      have hunits : ∀ a, (regions' a).unitCount = (regions a).unitCount := fun a => by
        simp [regions', base, splice]
      refine ⟨⟨(b :: l' ++ c :: l).length,
        ((b :: l' ++ c :: l).map fun a => (regions a).unitCount).sum, some b,
        (b :: l' ++ c :: l).getLast?⟩, regions', ?_, ⟨rfl, rfl, hlinked, rfl, ?_⟩,
        ⟨fun a ha => ?_, hunits⟩, fun a => ?_⟩
      · have hlastb : (b :: l').getLast? = some ((b :: l').getLast (List.cons_ne_nil b l')) :=
          List.getLast?_eq_some_getLast _
        simp only [List.head?_cons, hlastb, setNextRegion_some, setPrevRegion_some, h.tail,
          List.getLast?_append_of_ne_nil _ (List.cons_ne_nil c l), regions', splice, base]
      · rw [List.map_congr_left fun a _ => hunits a]
      · rw [getNextRegion_splice _ _ hhead, getPrevRegion_splice _ _ hlast,
          if_neg (fun hl => ha (List.mem_append_left (c :: l) (List.mem_of_getLast? hl))),
          if_neg (fun hl : some c = some a =>
            ha (List.mem_append_right (b :: l') (Option.some.inj hl ▸ List.mem_cons_self)))]
        simp [base]
      · rw [← regionType_retype]
        simp [regions', base, splice]

end Operations

end RegionList

end CangjieRuntime.Heap
