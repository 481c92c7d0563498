/-
  The page pool and requests of every size (`rt.common/PagePool.cj`).

  `GetPage` checks its page count from above only.  A request of 0 bytes, and one whose rounding
  wraps, has page count 0 and size 0: the tree has nothing for it, so the pool serves it an empty
  block at the used zone.  Most of these blocks lie inside the pool, where `ReturnPage` hands a
  count of 0 to the tree: an empty tree takes the node, any other refuses and the return aborts.

  `Served` is the exact condition under which a request is tolerated: its rounding is regular, or
  the pool has no mapping, or it asks for nothing and the pool is used up.  Along runs of such
  requests the regular blocks form a state of the pool's machine (`State.regular`), and the empty
  ones all lie at the pool's end.
-/
import CangjieRuntime.Common.PagePoolSafety

set_option linter.unusedVariables false

namespace CangjieRuntime.Common

open CangjieRuntime.Heap CangjieRuntime.Heap.CartesianTree Runs SlotTree

namespace PagePool

variable {ps : PageSize}

/-! ## The law -/

/-- The return of `bytes` bytes at `page` does not abort, and the tree keeps its invariant: no node
    of it has count 0. -/
def Returns (ps : PageSize) (p : PagePool) (page bytes : Nat) : Prop :=
  ∃ p' unmapped, p.returnPage ps page bytes = .ok (p', unmapped) ∧ p'.freePagesTree.Inv

/-- A good end of a request: it aborted, before it took the lock; or the pool served a block that is
    long enough and can be returned; or the pool is as before, and any block that the system may
    give is long enough and can be returned.  The system gives no block of 0 bytes: `mmap` fails,
    and the request aborts. -/
def GoodEnd (ps : PageSize) (s : State) (bytes : Nat) :
    Except Fault (PagePool × Option Nat) → Prop
  | .error _ => UINT32_MAX ≤ pagesOf ps bytes
  | .ok (p, some page) => bytes ≤ roundUp ps bytes ∧
    Block.extent ps ⟨page, bytes, true⟩ ⊆ p.range ∧ Returns ps p page bytes
  | .ok (p, none) => p = s.pool ∧ (0 < roundUp ps bytes → bytes ≤ roundUp ps bytes ∧
    ∀ page, Action.Allowed ps s (.mapMemory bytes page) → Returns ps p page bytes)

/-- A request of this size ends well. -/
def Tolerates (ps : PageSize) (s : State) (bytes : Nat) : Prop :=
  GoodEnd ps s bytes (s.pool.getPage ps bytes)

/-- The requests that are tolerated. -/
def Served (ps : PageSize) (p : PagePool) (bytes : Nat) : Prop :=
  Rounds ps bytes ∨ p.base = 0 ∨ (bytes = 0 ∧ p.usedZone = p.totalSize)

/-! ## The machine with requests of every size -/

/-- Any size of a machine word may be asked for; the system gives no empty block. -/
def Action.Possible (ps : PageSize) (s : State) : Action → Prop
  | .getPage bytes => bytes < 2 ^ 64
  | .mapMemory bytes page => 0 < roundUp ps bytes ∧ Action.Allowed ps s (.mapMemory bytes page)
  | .returnPage _ => True

/-- The pool, with requests of every size. -/
def sizesMachine (ps : PageSize) : System State Action where
  init := (machine ps).init
  step s a s' := a.Possible ps s ∧ exec ps s a = .ok s'

/-- A request of the run is one that is tolerated. -/
def Action.Served (ps : PageSize) (s : State) : Action → Prop
  | .getPage bytes => PagePool.Served ps s.pool bytes
  | _ => True

/-! ## Requests whose rounding is not regular -/

instance (ps : PageSize) (bytes : Nat) : Decidable (Rounds ps bytes) :=
  inferInstanceAs (Decidable (_ ∧ _))

section Empty

variable {bytes : Nat}

/-- The padding of such a request stays below a page. -/
theorem padded_lt (h : ¬ Rounds ps bytes) (hlt : bytes < 2 ^ 64) :
    Words.sub 64 (Words.add 64 bytes ps.bytes) 1 < ps.bytes := by
  have hpos := ps.pos
  have hps := ps.lt
  rcases Nat.eq_zero_or_pos bytes with rfl | hbytes
  · rw [Words.add_eq (by omega), Words.sub_eq (by omega) (by omega)]
    omega
  · have hwrap : 2 ^ 64 ≤ bytes + (ps.bytes - 1) := by
      by_contra hfits
      exact h ⟨hbytes, by omega⟩
    have hadd : Words.add 64 bytes ps.bytes = bytes + ps.bytes - 2 ^ 64 := by
      rw [Words.add]
      omega
    rw [hadd, Words.sub_eq (by omega) (by omega)]
    omega

/-- A size whose rounding wraps has no pages. -/
theorem pagesOf_empty (h : ¬ Rounds ps bytes) (hlt : bytes < 2 ^ 64) : pagesOf ps bytes = 0 :=
  Nat.div_eq_of_lt (padded_lt h hlt)

/-- It is rounded up to nothing. -/
theorem roundUp_empty (h : ¬ Rounds ps bytes) (hlt : bytes < 2 ^ 64) : roundUp ps bytes = 0 := by
  have hpadded := padded_lt h hlt
  have hlog := ps.log_lt
  rw [roundUp, ps.bytes_eq, Words.and_neg_two_pow (Words.sub_lt 64 _ 1) (by omega),
    ← ps.bytes_eq, Nat.div_eq_of_lt hpadded, Nat.zero_mul]

/-- The tree has nothing for such a request, and the tail serves it if the pool has a mapping. -/
theorem getPage_empty {p : PagePool} (hused : p.usedZone ≤ p.totalSize)
    (hfits : p.base + p.totalSize < 2 ^ 64) (h : ¬ Rounds ps bytes) (hlt : bytes < 2 ^ 64) :
    p.getPage ps bytes = .ok (p, if p.base = 0 then none else some (p.base + p.usedZone)) := by
  have htake : p.freePagesTree.takeUnits 0 false = .ok (p.freePagesTree, none) := by
    rw [takeUnits, if_pos (Or.inr rfl)]
  have hzone : Words.add 64 p.usedZone 0 = p.usedZone := Words.add_eq (by omega)
  have hpage : Words.add 64 p.base p.usedZone = p.base + p.usedZone := Words.add_eq (by omega)
  simp only [getPage, pagesOf_empty h hlt, roundUp_empty h hlt, Nat.zero_mod, htake, bind,
    Except.bind, hzone, hpage, UINT32_MAX]
  rw [if_neg (by omega)]
  by_cases hbase : p.base = 0
  · rw [if_neg (fun h => h.2 hbase), if_pos hbase]
  · rw [if_pos ⟨hused, hbase⟩, if_neg hbase]

/-- An empty block at the pool's end is none of the pool's. -/
theorem returnPage_end {p : PagePool} (hfits : p.base + p.totalSize < 2 ^ 64) :
    p.returnPage ps (p.base + p.totalSize) 0 = .ok (p, some 0) := by
  have hnot : ¬ Rounds ps 0 := fun h => absurd h.1 (by decide)
  have hend : Words.add 64 p.base p.totalSize = p.base + p.totalSize := Words.add_eq hfits
  rw [returnPage, hend, if_pos (Or.inr (Nat.le_refl _)), pagesOf_empty hnot (by decide)]
  simp [Words.mul]

/-- A count of 0 spoils an empty tree, and any other refuses it. -/
theorem mergeInsert_zero (t : CartesianTree) (idx : Nat) (f : Bool) :
    (∃ t', t.mergeInsert idx 0 f = .ok (t', true) ∧ ¬ t'.Inv) ∨
      t.mergeInsert idx 0 f = .ok (t, false) := by
  unfold mergeInsert
  cases hroot : t.root with
  | nil =>
    left
    refine ⟨_, rfl, ?_⟩
    intro hinv
    have hnode : (⟨t.allocate.1, idx, 0⟩ : CartesianNode) ∈
        inorder ((t.createNode [] idx 0 f).incTotalCount 0).root := by
      simp [createNode, incTotalCount, write]
    exact Nat.lt_irrefl 0 (hinv.sound.pos _ hnode)
  | node n l r => exact Or.inr (if_pos rfl)

/-- An empty block inside the pool cannot be returned. -/
theorem not_returns_empty {p : PagePool} {page : Nat} (hfits : p.base + p.totalSize < 2 ^ 64)
    (hlow : p.base ≤ page) (hhigh : page < p.base + p.totalSize) (h : ¬ Rounds ps bytes)
    (hlt : bytes < 2 ^ 64) : ¬ Returns ps p page bytes := by
  have hend : Words.add 64 p.base p.totalSize = p.base + p.totalSize := Words.add_eq hfits
  rintro ⟨p', unmapped, hres, hinv⟩
  rw [returnPage, hend, if_neg (by omega), pagesOf_empty h hlt, if_neg (by decide)] at hres
  rcases mergeInsert_zero p.freePagesTree (Words.sub 64 page p.base / ps.bytes % 2 ^ 32) false with
    ⟨t', hmerge, hspoiled⟩ | hmerge
  · simp only [Nat.zero_mod, hmerge, bind, Except.bind, if_pos, Except.ok.injEq,
      Prod.mk.injEq] at hres
    obtain ⟨rfl, -⟩ := hres
    exact hspoiled hinv
  · simp only [Nat.zero_mod, hmerge, bind, Except.bind] at hres
    exact absurd hres (by simp)

end Empty

/-! ## The invariant -/

/-- The regular blocks and requests of a state. -/
def State.regular (ps : PageSize) (s : State) : State :=
  { s with
    live := s.live.filter fun b => Rounds ps b.bytes
    unserved := s.unserved.filter fun bytes => Rounds ps bytes }

/-- The regular part is a state of the pool's machine, and an empty block is at the pool's end. -/
structure SizesInv (ps : PageSize) (s : State) : Prop where
  regular : Inv ps (s.regular ps)
  empty : ∀ b ∈ s.live, ¬ Rounds ps b.bytes →
    b.page = s.pool.base + s.pool.totalSize ∧ b.bytes = 0
  word : ∀ bytes ∈ s.unserved, bytes < 2 ^ 64

section Step

variable {s s' : State} {bytes : Nat}

/-- A block of an ordinary size is one of the ordinary blocks. -/
theorem SizesInv.mem_regular {b : Block} (hb : b ∈ s.live) (hr : Rounds ps b.bytes) :
    b ∈ (s.regular ps).live :=
  List.mem_filter.mpr ⟨hb, decide_eq_true hr⟩

/-- The zone in use does not leave the pool. -/
theorem SizesInv.used_le (h : SizesInv ps s) : s.pool.usedZone ≤ s.pool.totalSize := by
  have hused := h.regular.used
  have hsize := h.regular.fixed.size
  have hle := Nat.mul_le_mul_right ps.bytes h.regular.used_le
  rw [← hused, ← hsize] at hle
  exact hle

/-- **Every live block can be returned.**  The size it was asked with rounds to the pages that it
    has, and its address tells if it is one of the pool's. -/
theorem SizesInv.returns (h : SizesInv ps s) {b : Block} (hb : b ∈ s.live) :
    Returns ps s.pool b.page b.bytes ∧ b.bytes ≤ roundUp ps b.bytes := by
  by_cases hr : Rounds ps b.bytes
  · have hmem := SizesInv.mem_regular hb hr
    refine ⟨?_, hr.le_roundUp⟩
    cases hpool : b.fromPool with
    | true =>
      obtain ⟨p, hres, -, hinv⟩ := h.regular.returnPage hmem hpool
      exact ⟨p, none, hres, hinv.tree⟩
    | false =>
      exact ⟨_, _, returnPage_mapped h.regular.fixed (h.regular.mapped b hmem hpool),
        h.regular.tree⟩
  · obtain ⟨hpage, hbytes⟩ := h.empty b hb hr
    rw [hpage, hbytes]
    exact ⟨⟨_, _, returnPage_end h.regular.fixed.fits, h.regular.tree⟩, Nat.zero_le _⟩

/-- A regular request is tolerated. -/
theorem SizesInv.tolerates_rounds (h : SizesInv ps s) (hr : Rounds ps bytes) :
    Tolerates ps s bytes := by
  have hpool : (s.regular ps).pool = s.pool := rfl
  rcases h.regular.getPage hr with ⟨hbig, hres⟩ | ⟨hres, -, -⟩ | ⟨p, page, hres, hinv⟩
  · -- too many pages: it aborts before any change
    rw [hpool] at hres
    rw [Tolerates, hres]
    exact hbig
  · -- no room in the pool: a mapping lies outside, and its return changes nothing
    rw [hpool] at hres
    rw [Tolerates, hres]
    refine ⟨rfl, fun hpos => ⟨hr.le_roundUp, fun page hallowed => ?_⟩⟩
    obtain ⟨haligned, -, hrange, -⟩ := hallowed
    have hmapped : Block.Mapped ps s.pool ⟨page, bytes, false⟩ := ⟨hr, haligned, hrange⟩
    exact ⟨_, _, returnPage_mapped h.regular.fixed hmapped, h.regular.tree⟩
  · -- a block of the pool: the next state satisfies the invariant, which returns it
    rw [hpool] at hres
    rw [Tolerates, hres]
    have hlive := List.mem_cons_self (a := (⟨page, bytes, true⟩ : Block))
      (l := (s.regular ps).live)
    obtain ⟨p', hret, -, hinv'⟩ := hinv.returnPage hlive rfl
    obtain ⟨idx, hplaced⟩ := hinv.placed _ hlive rfl
    exact ⟨hr.le_roundUp, hplaced.extent_subset hinv.fixed, p', none, hret, hinv'.tree⟩

/-- Any other request is tolerated by a pool without mapping, and by a used up one if it asks for
    nothing. -/
theorem SizesInv.tolerates_empty (h : SizesInv ps s) (hr : ¬ Rounds ps bytes)
    (hlt : bytes < 2 ^ 64) : Tolerates ps s bytes ↔
      s.pool.base = 0 ∨ (bytes = 0 ∧ s.pool.usedZone = s.pool.totalSize) := by
  have hused := h.used_le
  have hfits : s.pool.base + s.pool.totalSize < 2 ^ 64 := h.regular.fixed.fits
  rw [Tolerates, getPage_empty hused hfits hr hlt]
  by_cases hbase : s.pool.base = 0
  · rw [if_pos hbase]
    constructor
    · intro _
      exact Or.inl hbase
    · intro _
      refine ⟨rfl, ?_⟩
      intro hpos
      rw [roundUp_empty hr hlt] at hpos
      exact absurd hpos (by decide)
  · -- the block of no bytes behind the used zone; only at the pool's end it can go back
    rw [if_neg hbase]
    simp only [GoodEnd, roundUp_empty hr hlt, Block.extent]
    constructor
    · rintro ⟨hzero, -, hret⟩
      refine Or.inr ⟨Nat.le_zero.mp hzero, ?_⟩
      by_contra hne
      exact not_returns_empty hfits (Nat.le_add_right _ _) (by omega) hr hlt hret
    · rintro (hzero | ⟨rfl, hfull⟩)
      · exact absurd hzero hbase
      · rw [hfull]
        refine ⟨Nat.le_refl _, ?_, ⟨_, _, returnPage_end hfits, h.regular.tree⟩⟩
        rw [Nat.add_zero, Set.Ico_self]
        exact Set.empty_subset _

/-- **One request.**  It is tolerated if and only if it is one of `Served`. -/
theorem SizesInv.tolerates_iff (h : SizesInv ps s) (hlt : bytes < 2 ^ 64) :
    Tolerates ps s bytes ↔ Served ps s.pool bytes := by
  unfold Served
  by_cases hr : Rounds ps bytes
  · constructor
    · intro _
      exact Or.inl hr
    · intro _
      exact h.tolerates_rounds hr
  · rw [h.tolerates_empty hr hlt]
    constructor
    · exact Or.inr
    · rintro (hrounds | hempty)
      · exact absurd hrounds hr
      · exact hempty

/-! ## One action -/

/-- An allocation leaves the place and the size of the pool. -/
theorem getPage_site {p p' : PagePool} {r : Option Nat} (h : p.getPage ps bytes = .ok (p', r)) :
    SameSite p p' := by
  unfold getPage at h
  by_cases hbig : UINT32_MAX ≤ pagesOf ps bytes
  · rw [if_pos hbig] at h
    exact absurd h nofun
  · rw [if_neg hbig] at h
    cases htake : p.freePagesTree.takeUnits (pagesOf ps bytes % 2 ^ 32) false with
    | error f =>
      rw [htake] at h
      exact absurd h nofun
    | ok taken =>
      obtain ⟨tree, idx⟩ := taken
      simp only [htake, bind, Except.bind] at h
      cases idx with
      | some idx =>
        obtain ⟨rfl, -⟩ := Prod.mk.inj (Except.ok.inj h)
        exact ⟨rfl, rfl, rfl⟩
      | none =>
        simp only at h
        split at h
        · obtain ⟨rfl, -⟩ := Prod.mk.inj (Except.ok.inj h)
          exact ⟨rfl, rfl, rfl⟩
        · obtain ⟨rfl, -⟩ := Prod.mk.inj (Except.ok.inj h)
          exact ⟨rfl, rfl, rfl⟩

/-- So does a return. -/
theorem returnPage_site {p p' : PagePool} {page : Nat} {r : Option Nat}
    (h : p.returnPage ps page bytes = .ok (p', r)) : SameSite p p' := by
  unfold returnPage at h
  simp only at h
  split at h
  · obtain ⟨rfl, -⟩ := Prod.mk.inj (Except.ok.inj h)
    exact ⟨rfl, rfl, rfl⟩
  split at h
  · exact absurd h nofun
  · cases hmerge : p.freePagesTree.mergeInsert (Words.sub 64 page p.base / ps.bytes % 2 ^ 32)
      (pagesOf ps bytes % 2 ^ 32) false with
    | error f =>
      rw [hmerge] at h
      exact absurd h nofun
    | ok merged =>
      obtain ⟨tree, inserted⟩ := merged
      simp only [hmerge, bind, Except.bind] at h
      split at h
      · obtain ⟨rfl, -⟩ := Prod.mk.inj (Except.ok.inj h)
        exact ⟨rfl, rfl, rfl⟩
      · exact absurd h nofun

/-- The empty blocks stay where they are if the pool does. -/
theorem SizesInv.empty_congr (h : SizesInv ps s) {p : PagePool} (hp : SameSite s.pool p)
    {b : Block} (hb : b ∈ s.live) (hr : ¬ Rounds ps b.bytes) :
    b.page = p.base + p.totalSize ∧ b.bytes = 0 := by
  rw [hp.base, hp.totalSize]
  exact h.empty b hb hr

/-- The invariant holds of a pool as it is made. -/
theorem SizesInv.init (h : (sizesMachine ps).init s) : SizesInv ps s := by
  have hinv := (machine_invariant ps).init s h
  obtain ⟨pageCount, treeBase, base, -, -, -, rfl⟩ := h
  exact ⟨hinv, fun b hb => absurd hb List.not_mem_nil, fun b hb => absurd hb List.not_mem_nil⟩

/-- A regular request. -/
theorem SizesInv.getPage_rounds (h : SizesInv ps s) (hr : Rounds ps bytes)
    (hs : exec ps s (.getPage bytes) = .ok s') : SizesInv ps s' := by
  have hpool : (s.regular ps).pool = s.pool := rfl
  rw [exec] at hs
  rcases h.regular.getPage hr with ⟨-, hres⟩ | ⟨hres, -, -⟩ | ⟨p, page, hres, hinv⟩
  · rw [← hpool, hres] at hs
    cases hs
  · rw [← hpool, hres] at hs
    obtain rfl := Except.ok.inj hs
    refine ⟨{ h.regular with unserved := ?_ }, h.empty, ?_⟩
    · intro b hb
      exact of_decide_eq_true (List.mem_filter.mp hb).2
    · intro b hb
      rcases List.mem_cons.mp hb with rfl | hb
      · exact lt_of_le_of_lt (Nat.le_add_right _ _) hr.2
      · exact h.word b hb
  · have hsite := getPage_site hres
    rw [← hpool, hres] at hs
    obtain rfl := Except.ok.inj hs
    refine ⟨?_, ?_, h.word⟩
    · have hfilter : (⟨page, bytes, true⟩ :: s.live).filter (fun b => decide (Rounds ps b.bytes)) =
          ⟨page, bytes, true⟩ :: (s.regular ps).live :=
        List.filter_cons_of_pos (decide_eq_true hr)
      rw [State.regular, hfilter]
      exact hinv
    · intro b hb hnot
      rcases List.mem_cons.mp hb with rfl | hb
      · exact absurd hr hnot
      · exact h.empty_congr hsite hb hnot

/-- A request whose rounding is not regular, but which is tolerated. -/
theorem SizesInv.getPage_empty (h : SizesInv ps s) (hlt : bytes < 2 ^ 64)
    (hr : ¬ Rounds ps bytes)
    (hserved : s.pool.base = 0 ∨ (bytes = 0 ∧ s.pool.usedZone = s.pool.totalSize))
    (hs : exec ps s (.getPage bytes) = .ok s') : SizesInv ps s' := by
  have hdrop : decide (Rounds ps bytes) ≠ true := by rwa [ne_eq, decide_eq_true_iff]
  rw [exec, PagePool.getPage_empty h.used_le h.regular.fixed.fits hr hlt] at hs
  by_cases hbase : s.pool.base = 0
  · rw [if_pos hbase] at hs
    obtain rfl := Except.ok.inj hs
    refine ⟨?_, h.empty, ?_⟩
    · have hfilter : (bytes :: s.unserved).filter (fun bytes => decide (Rounds ps bytes)) =
          (s.regular ps).unserved := List.filter_cons_of_neg hdrop
      rw [State.regular, hfilter]
      exact h.regular
    · intro b hb
      rcases List.mem_cons.mp hb with rfl | hb
      · exact hlt
      · exact h.word b hb
  · rw [if_neg hbase] at hs
    obtain rfl := Except.ok.inj hs
    obtain ⟨rfl, hfull⟩ := hserved.resolve_left hbase
    refine ⟨?_, ?_, h.word⟩
    · have hfilter : (⟨s.pool.base + s.pool.usedZone, 0, true⟩ :: s.live).filter
          (fun b => decide (Rounds ps b.bytes)) = (s.regular ps).live :=
        List.filter_cons_of_neg hdrop
      rw [State.regular, hfilter]
      exact h.regular
    · intro b hb hnot
      rcases List.mem_cons.mp hb with rfl | hb
      · exact ⟨congrArg (s.pool.base + ·) hfull, rfl⟩
      · exact h.empty b hb hnot

/-- The system's mapping for a request that left the lock without a block. -/
theorem SizesInv.mapMemory (h : SizesInv ps s) {page : Nat} (hmem : bytes ∈ s.unserved)
    (ha : Action.Possible ps s (.mapMemory bytes page)) :
    SizesInv ps { s with
      live := ⟨page, bytes, false⟩ :: s.live
      unserved := s.unserved.erase bytes } := by
  obtain ⟨hpos, haligned, hfit, hrange, hlive⟩ := ha
  -- the system maps nothing for a size that rounds to 0
  have hr : Rounds ps bytes := by
    by_contra hnot
    rw [roundUp_empty hnot (h.word bytes hmem)] at hpos
    exact absurd hpos (by decide)
  have hmem' : bytes ∈ (s.regular ps).unserved :=
    List.mem_filter.mpr ⟨hmem, decide_eq_true hr⟩
  have hallowed : Action.Allowed ps (s.regular ps) (.mapMemory bytes page) :=
    ⟨haligned, hfit, hrange, fun b hb => hlive b (List.mem_filter.mp hb).1⟩
  have hmapped := h.regular.mapMemory hmem' hallowed
  refine ⟨?_, ?_, fun b hb => h.word b (List.mem_of_mem_erase hb)⟩
  · have hfilter : (⟨page, bytes, false⟩ :: s.live).filter
        (fun b => decide (Rounds ps b.bytes)) = ⟨page, bytes, false⟩ :: (s.regular ps).live :=
      List.filter_cons_of_pos (decide_eq_true hr)
    rw [State.regular, hfilter, ← List.erase_filter]
    exact hmapped
  · intro b hb hnot
    rcases List.mem_cons.mp hb with rfl | hb
    · exact absurd hr hnot
    · exact h.empty b hb hnot

/-- The return of a live block. -/
theorem SizesInv.returnPage (h : SizesInv ps s) {b : Block} (hb : b ∈ s.live)
    {p : PagePool} {r : Option Nat} (hres : s.pool.returnPage ps b.page b.bytes = .ok (p, r)) :
    SizesInv ps { s with pool := p, live := s.live.erase b } := by
  have hsite := returnPage_site hres
  have hpool : (s.regular ps).pool = s.pool := rfl
  refine ⟨?_, fun c hc hnot => h.empty_congr hsite (List.mem_of_mem_erase hc) hnot, h.word⟩
  rw [State.regular, ← List.erase_filter]
  by_cases hr : Rounds ps b.bytes
  · have hmem := SizesInv.mem_regular hb hr
    cases hfrom : b.fromPool with
    | true =>
      obtain ⟨p', hres', -, hinv⟩ := h.regular.returnPage hmem hfrom
      rw [hpool, hres] at hres'
      obtain ⟨rfl, -⟩ := Prod.mk.inj (Except.ok.inj hres')
      exact hinv
    | false =>
      have hres' := returnPage_mapped h.regular.fixed (h.regular.mapped b hmem hfrom)
      rw [hpool, hres] at hres'
      obtain ⟨rfl, -⟩ := Prod.mk.inj (Except.ok.inj hres')
      exact h.regular.unmap hmem hfrom
  · obtain ⟨hpage, hbytes⟩ := h.empty b hb hr
    have hfits : s.pool.base + s.pool.totalSize < 2 ^ 64 := h.regular.fixed.fits
    rw [hpage, hbytes, returnPage_end hfits] at hres
    obtain ⟨rfl, -⟩ := Prod.mk.inj (Except.ok.inj hres)
    have hnot : b ∉ s.live.filter fun b => decide (Rounds ps b.bytes) := by
      intro hmem
      exact hr (of_decide_eq_true (List.mem_filter.mp hmem).2)
    rw [List.erase_of_not_mem hnot]
    exact h.regular

/-- **One action.**  A request that is served, a mapping, or the return of a live block keeps the
    invariant. -/
theorem SizesInv.step (h : SizesInv ps s) {a : Action} (hserved : a.Served ps s)
    (ha : a.Possible ps s) (hs : exec ps s a = .ok s') : SizesInv ps s' := by
  cases a with
  | getPage bytes =>
    by_cases hr : Rounds ps bytes
    · exact h.getPage_rounds hr hs
    · exact h.getPage_empty ha hr (Or.resolve_left hserved hr) hs
  | mapMemory bytes page =>
    simp only [exec] at hs
    split at hs
    case isTrue hmem =>
      rw [← Except.ok.inj hs]
      exact h.mapMemory hmem ha
    case isFalse =>
      rw [← Except.ok.inj hs]
      exact h
  | returnPage b =>
    simp only [exec] at hs
    split at hs
    case isTrue hb =>
      cases hres : s.pool.returnPage ps b.page b.bytes with
      | error f =>
        rw [hres] at hs
        cases hs
      | ok returned =>
        obtain ⟨p, r⟩ := returned
        rw [hres] at hs
        rw [← Except.ok.inj hs]
        exact h.returnPage hb hres
    case isFalse =>
      rw [← Except.ok.inj hs]
      exact h

end Step

/-! ## Every run -/

/-- The invariant holds in every run whose requests are served. -/
theorem sizesMachine_invariant (ps : PageSize) :
    ((sizesMachine ps).guarded fun s a => a.Served ps s).Invariant (SizesInv ps) where
  init := fun s h => SizesInv.init h
  step := fun s a s' h hs => h.step hs.1 hs.2.1 hs.2.2

/-- **Every size.**  In a run of served requests every live block can be returned, and the next
    request is tolerated if and only if it is served. -/
theorem reachable_tolerates (ps : PageSize) {s : State}
    (h : ((sizesMachine ps).guarded fun s a => a.Served ps s).Reachable s) :
    s.pool.freePagesTree.Inv ∧
    (∀ b ∈ s.live, Returns ps s.pool b.page b.bytes ∧ b.bytes ≤ roundUp ps b.bytes) ∧
    ∀ bytes < 2 ^ 64, Tolerates ps s bytes ↔ Served ps s.pool bytes := by
  have hinv := (sizesMachine_invariant ps).reachable h
  exact ⟨hinv.regular.tree, fun b hb => hinv.returns hb, fun bytes hlt => hinv.tolerates_iff hlt⟩

/-- A pool of two pages of 4096 bytes that one request uses up, and a request of 0 bytes. -/
theorem reachable_tolerates_full : ∃ (ps : PageSize) (s : State),
    ((sizesMachine ps).guarded fun s a => a.Served ps s).Reachable s ∧
    s.live = [⟨73728, 0, true⟩, ⟨65536, 8192, true⟩] ∧
    s.pool.freePagesTree.Inv ∧
    (∀ b ∈ s.live, Returns ps s.pool b.page b.bytes ∧ b.bytes ≤ roundUp ps b.bytes) ∧
    ∀ bytes < 2 ^ 64, Tolerates ps s bytes ↔ Served ps s.pool bytes := by
  let ps : PageSize := ⟨4096, 12, by decide, by decide⟩
  let used : PagePool := { init ps 2 0 65536 with usedZone := 8192 }
  have h₀ : ((sizesMachine ps).guarded fun s a => a.Served ps s).Reachable
      ⟨init ps 2 0 65536, [], []⟩ :=
    .init ⟨2, 0, 65536, by decide, by decide, by decide, rfl⟩
  have h₁ : ((sizesMachine ps).guarded fun s a => a.Served ps s).Reachable
      ⟨used, [⟨65536, 8192, true⟩], []⟩ :=
    .step (e := .getPage 8192) h₀
      ⟨Or.inl ⟨by decide, by decide⟩, (by decide : 8192 < 2 ^ 64), by decide⟩
  have h₂ : ((sizesMachine ps).guarded fun s a => a.Served ps s).Reachable
      ⟨used, [⟨73728, 0, true⟩, ⟨65536, 8192, true⟩], []⟩ :=
    .step (e := .getPage 0) h₁
      ⟨Or.inr (Or.inr ⟨rfl, by decide⟩), (by decide : 0 < 2 ^ 64), by decide⟩
  exact ⟨ps, _, h₂, rfl, reachable_tolerates ps h₂⟩

/-- A new pool does not tolerate a request of 0 bytes: it gets a block inside the pool, whose return
    puts a node of count 0 into the tree. -/
theorem sizes_not_tolerated : ¬ ∀ ps s, (sizesMachine ps).Reachable s →
    ∀ bytes < 2 ^ 64, Tolerates ps s bytes := by
  intro hclaim
  let ps : PageSize := ⟨4096, 12, by decide, by decide⟩
  have h₀ : (sizesMachine ps).init ⟨init ps 2 0 65536, [], []⟩ :=
    ⟨2, 0, 65536, by decide, by decide, by decide, rfl⟩
  have htolerates := hclaim ps _ (.init h₀) 0 (by decide)
  rw [(SizesInv.init h₀).tolerates_iff (by decide)] at htolerates
  rcases htolerates with hrounds | hbase | ⟨-, hfull⟩
  · exact absurd hrounds.1 (by decide)
  · exact absurd hbase (by decide)
  · exact absurd hfull (by decide)

end PagePool

end CangjieRuntime.Common
