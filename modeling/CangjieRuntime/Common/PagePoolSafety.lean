/-
  Block safety of the page pool.

  The invariant speaks of page indices: a live block of the pool is a stretch of whole pages
  (`Block.Placed`), and every page of the pool is in a live block, in the tree or in the untouched
  tail (`holding`).  Serving a request moves its pages from one of the last two holders to the
  first, returning the block moves them into the tree; so each locked section is one use of
  `Partitions.move`, and the addresses follow from the indices by multiplication.
-/
import CangjieRuntime.Lib.Holdings
import CangjieRuntime.Heap.TreeMerge
import CangjieRuntime.Heap.TreeTake
import CangjieRuntime.Common.PagePool

set_option linter.unusedVariables false

namespace CangjieRuntime.Common

open CangjieRuntime.Heap CangjieRuntime.Heap.CartesianTree Runs Holdings SlotTree Blocks

/-- A page is not empty. -/
theorem PageSize.pos (ps : PageSize) : 0 < ps.bytes := by
  rw [ps.bytes_eq]
  exact Nat.two_pow_pos _

/-- A page has fewer than `2 ^ 31` bytes. -/
theorem PageSize.lt (ps : PageSize) : ps.bytes < 2 ^ 31 := by
  rw [ps.bytes_eq]
  exact Nat.pow_lt_pow_right (by decide) ps.log_lt

namespace PagePool

variable {ps : PageSize}

/-! ## Rounding -/

/-- A request whose rounding does not wrap.  `RoundUp` adds the page size less one before it masks,
    so that a size near the end of the address space would come out small. -/
def Rounds (ps : PageSize) (bytes : Nat) : Prop := 1 ≤ bytes ∧ bytes + (ps.bytes - 1) < 2 ^ 64

/-- The sum that `RoundUp` divides does not wrap. -/
theorem Rounds.padded {bytes : Nat} (h : Rounds ps bytes) :
    Words.sub 64 (Words.add 64 bytes ps.bytes) 1 = bytes + (ps.bytes - 1) := by
  obtain ⟨hpos, hlt⟩ := h
  have := ps.pos
  by_cases hwrap : bytes + ps.bytes = 2 ^ 64
  · rw [Words.add, hwrap]
    simp only [Words.sub]
    omega
  · rw [Words.add_eq (by omega), Words.sub_eq (by omega) (by omega)]
    omega

/-- The pages of a request are its bytes over the page size, rounded up. -/
theorem Rounds.pagesOf_eq {bytes : Nat} (h : Rounds ps bytes) :
    pagesOf ps bytes = (bytes + (ps.bytes - 1)) / ps.bytes := by
  rw [pagesOf, h.padded]

/-- A request that is not empty takes a page. -/
theorem Rounds.pagesOf_pos {bytes : Nat} (h : Rounds ps bytes) : 0 < pagesOf ps bytes := by
  rw [h.pagesOf_eq]
  have hpos := ps.pos
  have := h.1
  exact Nat.div_pos (by omega) hpos

/-- The rounded size is that of the pages. -/
theorem Rounds.roundUp_eq {bytes : Nat} (h : Rounds ps bytes) :
    roundUp ps bytes = pagesOf ps bytes * ps.bytes := by
  rw [roundUp, h.padded, h.pagesOf_eq, ps.bytes_eq]
  have hlt := h.2
  rw [ps.bytes_eq] at hlt
  exact Words.and_neg_two_pow hlt (by have := ps.log_lt; omega)

/-- The rounded size is enough. -/
theorem Rounds.le_roundUp {bytes : Nat} (h : Rounds ps bytes) : bytes ≤ roundUp ps bytes := by
  have hpos := ps.pos
  have hdiv := Nat.div_add_mod (bytes + (ps.bytes - 1)) ps.bytes
  have hmod := Nat.mod_lt (bytes + (ps.bytes - 1)) hpos
  rw [h.roundUp_eq, h.pagesOf_eq, Nat.mul_comm]
  omega

/-- The rounded size is a 64-bit number. -/
theorem Rounds.roundUp_lt {bytes : Nat} (h : Rounds ps bytes) : roundUp ps bytes < 2 ^ 64 := by
  have hdiv := Nat.div_add_mod (bytes + (ps.bytes - 1)) ps.bytes
  have := h.2
  rw [h.roundUp_eq, h.pagesOf_eq, Nat.mul_comm]
  omega

/-! ## Blocks and pages -/

/-- A block of the pool: `pagesOf` pages from page `idx` on. -/
structure Block.Placed (ps : PageSize) (p : PagePool) (b : Block) (idx : Nat) : Prop where
  rounds : Rounds ps b.bytes
  page : b.page = p.base + idx * ps.bytes
  inside : idx + pagesOf ps b.bytes ≤ p.totalPageCount
  short : pagesOf ps b.bytes < UINT32_MAX

/-- A block the system served. -/
structure Block.Mapped (ps : PageSize) (p : PagePool) (b : Block) : Prop where
  rounds : Rounds ps b.bytes
  aligned : ps.bytes ∣ b.page
  outside : Disjoint (b.extent ps) p.range

/-- The pages of a block of the pool. -/
def Block.pages (ps : PageSize) (p : PagePool) (b : Block) : Set Nat :=
  Set.Ico ((b.page - p.base) / ps.bytes) ((b.page - p.base) / ps.bytes + pagesOf ps b.bytes)

/-- What of the pool never changes.  `Init` sets it, and no section changes it. -/
structure Fixed (ps : PageSize) (p : PagePool) : Prop where
  aligned : ps.bytes ∣ p.base
  size : p.totalSize = p.totalPageCount * ps.bytes
  fits : p.base + p.totalSize < 2 ^ 64
  pages : p.totalPageCount < 2 ^ 32

section Placed

variable {p : PagePool} {b c : Block} {idx : Nat}

/-- The index of a block is read off its address. -/
theorem Block.Placed.index_eq (h : b.Placed ps p idx) : (b.page - p.base) / ps.bytes = idx := by
  rw [h.page, Nat.add_sub_cancel_left, Nat.mul_div_cancel _ ps.pos]

/-- Its pages are those from the index on. -/
theorem Block.Placed.pages_eq (h : b.Placed ps p idx) :
    b.pages ps p = Set.Ico idx (idx + pagesOf ps b.bytes) := by
  rw [Block.pages, h.index_eq]

/-- Its bytes are those of its pages. -/
theorem Block.Placed.extent_eq (h : b.Placed ps p idx) :
    b.extent ps = Set.Ico (p.base + idx * ps.bytes)
      (p.base + (idx + pagesOf ps b.bytes) * ps.bytes) := by
  rw [Block.extent, h.page, h.rounds.roundUp_eq, Nat.add_mul, Nat.add_assoc]

/-- Its bytes are in the range of the pool. -/
theorem Block.Placed.extent_subset (hp : Fixed ps p) (h : b.Placed ps p idx) :
    b.extent ps ⊆ p.range := by
  rw [h.extent_eq, range, hp.size]
  refine Set.Ico_subset_Ico (by omega) ?_
  have := Nat.mul_le_mul_right ps.bytes h.inside
  omega

/-- It starts at a page. -/
theorem Block.Placed.aligned (hp : Fixed ps p) (h : b.Placed ps p idx) : ps.bytes ∣ b.page := by
  rw [h.page]
  exact (Nat.dvd_add_right hp.aligned).mpr (Nat.dvd_mul_left _ _)

/-- Blocks with no common page have no common address. -/
theorem Block.Placed.extent_disjoint {j : Nat} (hb : b.Placed ps p idx) (hc : c.Placed ps p j)
    (h : Disjoint (b.pages ps p) (c.pages ps p)) : Disjoint (b.extent ps) (c.extent ps) := by
  have hbpos := hb.rounds.pagesOf_pos
  have hcpos := hc.rounds.pagesOf_pos
  rw [hb.pages_eq, hc.pages_eq, Set.Ico_disjoint_Ico] at h
  rw [hb.extent_eq, hc.extent_eq, Set.Ico_disjoint_Ico]
  have hcase : idx + pagesOf ps b.bytes ≤ j ∨ j + pagesOf ps c.bytes ≤ idx := by omega
  rcases hcase with hle | hle
  · have := Nat.mul_le_mul_right ps.bytes hle
    omega
  · have := Nat.mul_le_mul_right ps.bytes hle
    omega

end Placed

/-! ## The invariant -/

/-- Who has a page of the pool.  The blocks handed out, the tree of free pages, and the tail that
    was never used. -/
inductive Holder
  | live
  | free
  | tail
  deriving DecidableEq, Repr

/-- The pages of the live blocks of the pool. -/
def livePages (ps : PageSize) (p : PagePool) (live : List Block) : Set Nat :=
  {u | ∃ b ∈ live, b.fromPool = true ∧ u ∈ b.pages ps p}

/-- The pages each holder has. -/
def holding (ps : PageSize) (s : State) : Holder → Set Nat
  | .live => livePages ps s.pool s.live
  | .free => s.pool.freePagesTree.freeUnits
  | .tail => Set.Ico (s.pool.usedZone / ps.bytes) s.pool.totalPageCount

/-- The pages behind the used zone belong to the tail. -/
theorem holding_tail (s : State) : holding ps s .tail =
    Set.Ico (s.pool.usedZone / ps.bytes) s.pool.totalPageCount := rfl

/-- What every operation keeps: the site of the pool, its blocks in place, and a holder for each
    page. -/
structure Inv (ps : PageSize) (s : State) : Prop where
  fixed : Fixed ps s.pool
  tree : s.pool.freePagesTree.Inv
  used : s.pool.usedZone = s.pool.usedZone / ps.bytes * ps.bytes
  used_le : s.pool.usedZone / ps.bytes ≤ s.pool.totalPageCount
  placed : ∀ b ∈ s.live, b.fromPool = true → ∃ idx, b.Placed ps s.pool idx
  mapped : ∀ b ∈ s.live, b.fromPool = false → b.Mapped ps s.pool
  disjoint : s.live.Pairwise fun b c => Disjoint (b.extent ps) (c.extent ps)
  pages : s.live.Pairwise fun b c => b.fromPool = true → c.fromPool = true →
    Disjoint (b.pages ps s.pool) (c.pages ps s.pool)
  partition : Partitions (holding ps s) (Set.Iio s.pool.totalPageCount)
  unserved : ∀ bytes ∈ s.unserved, Rounds ps bytes

/-! ## Frame lemmas -/

/-- The pool moved neither its mapping nor its page count. -/
structure SameSite (p p' : PagePool) : Prop where
  base : p'.base = p.base
  totalSize : p'.totalSize = p.totalSize
  totalPageCount : p'.totalPageCount = p.totalPageCount

section Frame

variable {p p' : PagePool} {b : Block}

/-- The site of a pool does not change with its tree and its used zone. -/
theorem Fixed.congr (h : Fixed ps p) (hp : SameSite p p') : Fixed ps p' :=
  ⟨by rw [hp.base]; exact h.aligned, by rw [hp.totalSize, hp.totalPageCount]; exact h.size,
    by rw [hp.base, hp.totalSize]; exact h.fits, by rw [hp.totalPageCount]; exact h.pages⟩

/-- Nor does the place of a block. -/
theorem Block.Placed.congr {idx : Nat} (h : b.Placed ps p idx) (hp : SameSite p p') :
    b.Placed ps p' idx :=
  ⟨h.rounds, by rw [hp.base]; exact h.page, by rw [hp.totalPageCount]; exact h.inside, h.short⟩

/-- Nor does the range. -/
theorem range_congr (hp : SameSite p p') : p'.range = p.range := by
  rw [range, range, hp.base, hp.totalSize]

/-- Nor does a block of the system come into the range. -/
theorem Block.Mapped.congr (h : b.Mapped ps p) (hp : SameSite p p') : b.Mapped ps p' :=
  ⟨h.rounds, h.aligned, by rw [range_congr hp]; exact h.outside⟩

/-- Nor do the pages of a block change. -/
theorem Block.pages_congr (hp : SameSite p p') : b.pages ps p' = b.pages ps p := by
  rw [Block.pages, Block.pages, hp.base]

/-- Nor do the pages of all live blocks. -/
theorem livePages_congr (hp : SameSite p p') (live : List Block) :
    livePages ps p' live = livePages ps p live := by
  simp only [livePages, Block.pages_congr hp]

/-- A block of the pool adds its pages. -/
theorem livePages_cons_pool (live : List Block) (hb : b.fromPool = true) :
    livePages ps p (b :: live) = livePages ps p live ∪ b.pages ps p := by
  ext u
  simp only [livePages, List.mem_cons, Set.mem_union, Set.mem_ofPred_eq]
  constructor
  · rintro ⟨c, rfl | hc, hpool, hu⟩
    · exact Or.inr hu
    · exact Or.inl ⟨c, hc, hpool, hu⟩
  · rintro (⟨c, hc, hpool, hu⟩ | hu)
    · exact ⟨c, Or.inr hc, hpool, hu⟩
    · exact ⟨b, Or.inl rfl, hb, hu⟩

/-- A block of the system adds none. -/
theorem livePages_cons_system (live : List Block) (hb : b.fromPool = false) :
    livePages ps p (b :: live) = livePages ps p live := by
  ext u
  simp only [livePages, List.mem_cons, Set.mem_ofPred_eq]
  constructor
  · rintro ⟨c, rfl | hc, hpool, hu⟩
    · rw [hb] at hpool
      exact absurd hpool (by decide)
    · exact ⟨c, hc, hpool, hu⟩
  · rintro ⟨c, hc, hpool, hu⟩
    exact ⟨c, Or.inr hc, hpool, hu⟩

/-- The order of the live blocks does not matter. -/
theorem livePages_perm {live live' : List Block} (h : live.Perm live') :
    livePages ps p live = livePages ps p live' := by
  simp only [livePages, h.mem_iff]

end Frame

/-! ## Serving a request -/

/-- A block of the pool meets no live block, if its pages are not among theirs. -/
theorem Inv.disjoint_live {s : State} (h : Inv ps s) {b : Block} {idx : Nat}
    (hb : b.Placed ps s.pool idx)
    (hpages : Disjoint (livePages ps s.pool s.live) (b.pages ps s.pool)) {c : Block}
    (hc : c ∈ s.live) : Disjoint (b.extent ps) (c.extent ps) := by
  cases hpool : c.fromPool with
  | true =>
    obtain ⟨j, hj⟩ := h.placed c hc hpool
    have hsub : c.pages ps s.pool ⊆ livePages ps s.pool s.live := fun u hu => ⟨c, hc, hpool, hu⟩
    exact hb.extent_disjoint hj (hpages.mono_left hsub).symm
  | false =>
    exact ((h.mapped c hc hpool).outside.mono_right (hb.extent_subset h.fixed)).symm

/-- **Serving from the pool.**  Pages of the tree or of the tail become a live block.  The pages
    change their holder and nothing else does, so that the partition is kept. -/
theorem Inv.serve {s : State} (h : Inv ps s) {p : PagePool} (hp : SameSite s.pool p)
    {b : Block} {idx : Nat} (hb : b.Placed ps s.pool idx) (hpool : b.fromPool = true) {a : Holder}
    (ha : a ≠ .live) (hsub : b.pages ps s.pool ⊆ holding ps s a)
    (htree : p.freePagesTree.Inv) (hused : p.usedZone = p.usedZone / ps.bytes * ps.bytes)
    (hle : p.usedZone / ps.bytes ≤ p.totalPageCount)
    (hfrom : holding ps { s with pool := p, live := b :: s.live } a =
      holding ps s a \ b.pages ps s.pool)
    (hother : ∀ i, i ≠ a → i ≠ .live →
      holding ps { s with pool := p, live := b :: s.live } i = holding ps s i) :
    Inv ps { s with pool := p, live := b :: s.live } := by
  have hdisj : Disjoint (livePages ps s.pool s.live) (b.pages ps s.pool) :=
    h.partition.disjoint_of_subset ha.symm hsub
  refine
    { fixed := h.fixed.congr hp
      tree := htree
      used := hused
      used_le := hle
      placed := ?_
      mapped := ?_
      disjoint := List.pairwise_cons.mpr ⟨fun c hc => h.disjoint_live hb hdisj hc, h.disjoint⟩
      pages := ?_
      partition := ?_
      unserved := h.unserved }
  · intro c hc hcpool
    rcases List.mem_cons.mp hc with rfl | hc
    · exact ⟨idx, hb.congr hp⟩
    · obtain ⟨j, hj⟩ := h.placed c hc hcpool
      exact ⟨j, hj.congr hp⟩
  · intro c hc hcpool
    rcases List.mem_cons.mp hc with rfl | hc
    · rw [hpool] at hcpool
      exact absurd hcpool (by decide)
    · exact (h.mapped c hc hcpool).congr hp
  · simp only [Block.pages_congr hp]
    refine List.pairwise_cons.mpr ⟨fun c hc _ hcpool => ?_, h.pages⟩
    have hsub : c.pages ps s.pool ⊆ livePages ps s.pool s.live := fun u hu => ⟨c, hc, hcpool, hu⟩
    exact (hdisj.mono_left hsub).symm
  · show Partitions _ (Set.Iio p.totalPageCount)
    rw [hp.totalPageCount]
    refine h.partition.move ha hsub hfrom ?_ hother
    show livePages ps p (b :: s.live) = livePages ps s.pool s.live ∪ b.pages ps s.pool
    rw [livePages_congr hp, livePages_cons_pool s.live hpool]

/-- A block served from the tree. -/
theorem Inv.serve_tree {s : State} (h : Inv ps s) {bytes : Nat} (hr : Rounds ps bytes)
    (hshort : pagesOf ps bytes < UINT32_MAX) {t : CartesianTree} {idx : Nat} (ht : t.Inv)
    (hsub : Set.Ico idx (idx + pagesOf ps bytes) ⊆ s.pool.freePagesTree.freeUnits)
    (hunits : t.freeUnits =
      s.pool.freePagesTree.freeUnits \ Set.Ico idx (idx + pagesOf ps bytes)) :
    Words.add 64 s.pool.base (Words.mul 64 idx ps.bytes) = s.pool.base + idx * ps.bytes ∧
    Inv ps { s with
      pool := { s.pool with freePagesTree := t }
      live := ⟨s.pool.base + idx * ps.bytes, bytes, true⟩ :: s.live } := by
  have hpos := hr.pagesOf_pos
  have hsize := h.fixed.size
  have hfits := h.fixed.fits
  have hin : idx + pagesOf ps bytes ≤ s.pool.totalPageCount := by
    have hlast := h.partition.subset .free (hsub (Set.mem_Ico.mpr
      ⟨by omega, by omega⟩ : idx + pagesOf ps bytes - 1 ∈ _))
    rw [Set.mem_Iio] at hlast
    omega
  have hmul := Nat.mul_le_mul_right ps.bytes (show idx ≤ s.pool.totalPageCount by omega)
  have hb : Block.Placed ps s.pool ⟨s.pool.base + idx * ps.bytes, bytes, true⟩ idx :=
    ⟨hr, rfl, hin, hshort⟩
  refine ⟨by rw [Words.mul_eq (by omega), Words.add_eq (by omega)], ?_⟩
  refine h.serve (p := { s.pool with freePagesTree := t }) ⟨rfl, rfl, rfl⟩ hb rfl (a := .free)
    (by decide) ?_ ht h.used h.used_le ?_ ?_
  · rw [hb.pages_eq]
    exact hsub
  · show t.freeUnits = _
    rw [hb.pages_eq]
    exact hunits
  · rintro (_ | _ | _) hne hne'
    · exact absurd rfl hne'
    · exact absurd rfl hne
    · rfl

/-- What is left of an interval when its front is taken. -/
theorem Ico_sdiff_front {a n c : Nat} (h : a + n ≤ c) :
    Set.Ico (a + n) c = Set.Ico a c \ Set.Ico a (a + n) := by
  ext x
  simp only [Set.mem_Ico, Set.mem_sdiff]
  omega

/-- A block served from the untouched tail. -/
theorem Inv.serve_tail {s : State} (h : Inv ps s) {bytes : Nat} (hr : Rounds ps bytes)
    (hshort : pagesOf ps bytes < UINT32_MAX)
    (hle : s.pool.usedZone + roundUp ps bytes ≤ s.pool.totalSize) :
    Words.add 64 s.pool.base s.pool.usedZone = s.pool.base + s.pool.usedZone ∧
    Inv ps { s with
      pool := { s.pool with usedZone := s.pool.usedZone + roundUp ps bytes }
      live := ⟨s.pool.base + s.pool.usedZone, bytes, true⟩ :: s.live } := by
  have hsize := h.fixed.size
  have hfits := h.fixed.fits
  have hused := h.used
  generalize hu : s.pool.usedZone / ps.bytes = u at hused
  rw [hr.roundUp_eq] at hle ⊢
  have hnew : s.pool.usedZone + pagesOf ps bytes * ps.bytes =
      (u + pagesOf ps bytes) * ps.bytes := by rw [hused, Nat.add_mul]
  have hin : u + pagesOf ps bytes ≤ s.pool.totalPageCount := by
    rw [hnew, hsize] at hle
    exact Nat.le_of_mul_le_mul_right hle ps.pos
  have hb : Block.Placed ps s.pool ⟨s.pool.base + s.pool.usedZone, bytes, true⟩ u :=
    ⟨hr, by rw [← hused], hin, hshort⟩
  have hdiv : (s.pool.usedZone + pagesOf ps bytes * ps.bytes) / ps.bytes =
      u + pagesOf ps bytes := by rw [hnew, Nat.mul_div_cancel _ ps.pos]
  refine ⟨Words.add_eq (by omega), ?_⟩
  have hsite : SameSite s.pool
      { s.pool with usedZone := s.pool.usedZone + pagesOf ps bytes * ps.bytes } := ⟨rfl, rfl, rfl⟩
  have htree : ({ s.pool with usedZone := s.pool.usedZone + pagesOf ps bytes * ps.bytes } :
      PagePool).freePagesTree = s.pool.freePagesTree := rfl
  have hzone : ({ s.pool with usedZone := s.pool.usedZone + pagesOf ps bytes * ps.bytes } :
      PagePool).usedZone = s.pool.usedZone + pagesOf ps bytes * ps.bytes := rfl
  generalize ({ s.pool with usedZone := s.pool.usedZone + pagesOf ps bytes * ps.bytes } :
      PagePool) = p at hsite htree hzone ⊢
  have hend : p.usedZone / ps.bytes = u + pagesOf ps bytes := by rw [hzone, hdiv]
  refine h.serve hsite hb rfl (a := .tail) (by decide) ?_ (htree ▸ h.tree) ?_ ?_ ?_ ?_
  · rw [hb.pages_eq, holding_tail, hu]
    exact Set.Ico_subset_Ico_right hin
  · rw [hend, hzone, hnew]
  · rw [hend, hsite.totalPageCount]
    exact hin
  · rw [holding_tail, holding_tail, hend, hu, hb.pages_eq, hsite.totalPageCount]
    exact Ico_sdiff_front hin
  · rintro (_ | _ | _) hne hne'
    · exact absurd rfl hne'
    · exact congrArg freeUnits htree
    · exact absurd rfl hne

/-- **`GetPage`'s locked section.**  It aborts on a request of too many pages; it leaves the pool
    alone if neither a free block nor the tail is large enough; else it serves a block. -/
theorem Inv.getPage {s : State} (h : Inv ps s) {bytes : Nat} (hr : Rounds ps bytes) :
    (UINT32_MAX ≤ pagesOf ps bytes ∧ s.pool.getPage ps bytes = .error .abort) ∨
    (s.pool.getPage ps bytes = .ok (s.pool, none) ∧
      (∀ n ∈ inorder s.pool.freePagesTree.root, n.count < pagesOf ps bytes) ∧
      (s.pool.totalSize < s.pool.usedZone + roundUp ps bytes ∨ s.pool.base = 0)) ∨
    ∃ p page, s.pool.getPage ps bytes = .ok (p, some page) ∧
      Inv ps { s with pool := p, live := ⟨page, bytes, true⟩ :: s.live } := by
  unfold PagePool.getPage
  -- a request beyond 32 bits goes to the system
  by_cases hbig : UINT32_MAX ≤ pagesOf ps bytes
  · exact Or.inl ⟨hbig, by simp [hbig]⟩
  right
  have hshort : pagesOf ps bytes < UINT32_MAX := by omega
  have hcount : pagesOf ps bytes % 2 ^ 32 = pagesOf ps bytes := by
    simp only [UINT32_MAX] at hshort
    exact Nat.mod_eq_of_lt (by omega)
  simp only [if_neg hbig, hcount]
  -- the tree has no block, and the tail is tried; or it has one
  rcases takeUnits_spec h.tree (pagesOf ps bytes) false hr.pagesOf_pos with
    ⟨htake, hnofit⟩ | ⟨t, idx, htake, hinv, hsub, hunits, -⟩
  · -- the sum of the used zone and the rounded size does not wrap
    have hsum : Words.add 64 s.pool.usedZone (roundUp ps bytes) =
        s.pool.usedZone + roundUp ps bytes := by
      refine Words.add_eq ?_
      have hu := Nat.mul_le_mul h.used_le ps.lt.le
      have hn := Nat.mul_le_mul hshort.le ps.lt.le
      have hpages := h.fixed.pages
      simp only [UINT32_MAX] at hn
      rw [h.used, hr.roundUp_eq]
      omega
    simp only [htake, bind, Except.bind, hsum]
    by_cases hfit : s.pool.usedZone + roundUp ps bytes ≤ s.pool.totalSize ∧ s.pool.base ≠ 0
    · right
      obtain ⟨hpage, hinv⟩ := h.serve_tail hr hshort hfit.1
      exact ⟨_, _, if_pos hfit, by rw [hpage]; exact hinv⟩
    · left
      refine ⟨if_neg hfit, hnofit, ?_⟩
      by_cases hbase : s.pool.base = 0
      · exact Or.inr hbase
      · exact Or.inl (not_le.mp fun hle => hfit ⟨hle, hbase⟩)
  · right
    obtain ⟨hpage, hinv⟩ := h.serve_tree hr hshort hinv hsub hunits
    simp only [htake, bind, Except.bind, hpage]
    exact ⟨_, _, rfl, hinv⟩

/-! ## The system's mappings -/

/-- A block that the system hands out is outside of the range of the pool, and keeps the
    invariant. -/
theorem Inv.mapMemory {s : State} (h : Inv ps s) {bytes page : Nat} (hmem : bytes ∈ s.unserved)
    (ha : Action.Allowed ps s (.mapMemory bytes page)) :
    Inv ps { s with
      live := ⟨page, bytes, false⟩ :: s.live
      unserved := s.unserved.erase bytes } := by
  obtain ⟨haligned, hfit, hrange, hlive⟩ := ha
  have hr := h.unserved bytes hmem
  refine
    { fixed := h.fixed
      tree := h.tree
      used := h.used
      used_le := h.used_le
      placed := ?_
      mapped := ?_
      disjoint := List.pairwise_cons.mpr ⟨fun c hc => ?_, h.disjoint⟩
      pages := List.pairwise_cons.mpr ⟨fun c hc hpool => absurd hpool Bool.false_ne_true, h.pages⟩
      partition := ?_
      unserved := fun b hb => h.unserved b (List.mem_of_mem_erase hb) }
  · intro c hc hpool
    rcases List.mem_cons.mp hc with rfl | hc
    · exact absurd hpool Bool.false_ne_true
    · exact h.placed c hc hpool
  · intro c hc hpool
    rcases List.mem_cons.mp hc with rfl | hc
    · exact ⟨hr, haligned, hrange⟩
    · exact h.mapped c hc hpool
  · cases hpool : c.fromPool with
    | true =>
      obtain ⟨j, hj⟩ := h.placed c hc hpool
      exact hrange.mono_right (hj.extent_subset h.fixed)
    | false => exact hlive c hc hpool
  · refine h.partition.congr ?_
    rintro (_ | _ | _)
    · exact livePages_cons_system s.live rfl
    · rfl
    · rfl

/-- A block outside of the pool goes back to the system, and the pool stays as it is. -/
theorem returnPage_mapped {p : PagePool} (hp : Fixed ps p) {b : Block} (hb : b.Mapped ps p) :
    p.returnPage ps b.page b.bytes = .ok (p, some (roundUp ps b.bytes)) := by
  have hpos := hb.rounds.pagesOf_pos
  have hlt := hb.rounds.roundUp_lt
  have hmem : b.page ∈ b.extent ps := by
    refine Set.mem_Ico.mpr ⟨le_rfl, ?_⟩
    have := hb.rounds.le_roundUp
    have := hb.rounds.1
    omega
  have hout := Set.disjoint_left.mp hb.outside hmem
  rw [range, Set.mem_Ico] at hout
  have hend : Words.add 64 p.base p.totalSize = p.base + p.totalSize := Words.add_eq hp.fits
  rw [hb.rounds.roundUp_eq] at hlt ⊢
  rw [returnPage, hend, if_pos (by omega), Words.mul_eq hlt]

/-! ## Returning a block of the pool -/

/-- What is left when a block is taken off the live list. -/
theorem Inv.livePages_erase {s : State} (h : Inv ps s) {b : Block} (hb : b ∈ s.live)
    (hpool : b.fromPool = true) :
    livePages ps s.pool (s.live.erase b) = livePages ps s.pool s.live \ b.pages ps s.pool := by
  have hperm := List.perm_cons_erase hb
  have hpages := (hperm.pairwise_iff
    (fun h hc hb => (h hb hc).symm)).mp h.pages
  have hdisj : Disjoint (livePages ps s.pool (s.live.erase b)) (b.pages ps s.pool) := by
    rw [Set.disjoint_left]
    rintro u ⟨c, hc, hcpool, hu⟩ hub
    exact Set.disjoint_left.mp ((List.pairwise_cons.mp hpages).1 c hc hpool hcpool) hub hu
  rw [livePages_perm hperm, livePages_cons_pool _ hpool, Set.union_sdiff_right,
    hdisj.sdiff_eq_left]

/-- **`ReturnPage` of a block of the pool.**  The insert succeeds, and the pages are free.  They had
    the block for their holder and so no free block has one of them, which is what the insert asks
    for. -/
theorem Inv.returnPage {s : State} (h : Inv ps s) {b : Block} (hb : b ∈ s.live)
    (hpool : b.fromPool = true) :
    ∃ p, s.pool.returnPage ps b.page b.bytes = .ok (p, none) ∧
      p.freePagesTree.freeUnits = s.pool.freePagesTree.freeUnits ∪ b.pages ps s.pool ∧
      Inv ps { s with pool := p, live := s.live.erase b } := by
  obtain ⟨idx, hplaced⟩ := h.placed b hb hpool
  have hfix := h.fixed
  have hpos := hplaced.rounds.pagesOf_pos
  have hshort := hplaced.short
  have hinside := hplaced.inside
  have hpages := hfix.pages
  -- the address is inside the pool, and its index and page count fit 32 bits
  have hmem : b.page ∈ s.pool.range := by
    refine hplaced.extent_subset hfix (Set.mem_Ico.mpr ⟨le_rfl, ?_⟩)
    have := hplaced.rounds.le_roundUp
    have := hplaced.rounds.1
    omega
  rw [range, Set.mem_Ico] at hmem
  have hfits := hfix.fits
  have hend : Words.add 64 s.pool.base s.pool.totalSize = s.pool.base + s.pool.totalSize :=
    Words.add_eq hfits
  have hidx : Words.sub 64 b.page s.pool.base / ps.bytes % 2 ^ 32 = idx := by
    rw [Words.sub_eq hmem.1 (by omega), hplaced.index_eq]
    exact Nat.mod_eq_of_lt (by omega)
  have hnum : pagesOf ps b.bytes % 2 ^ 32 = pagesOf ps b.bytes := Nat.mod_eq_of_lt (by omega)
  -- none of its pages is free
  have hsub : b.pages ps s.pool ⊆ holding ps s .live := fun u hu => ⟨b, hb, hpool, hu⟩
  have hfree : Disjoint s.pool.freePagesTree.freeUnits (Set.Ico idx (idx + pagesOf ps b.bytes)) := by
    rw [← hplaced.pages_eq]
    exact h.partition.disjoint_of_subset (i := .free) (by decide) hsub
  rcases mergeInsert_spec h.tree false hpos (show idx + pagesOf ps b.bytes < 2 ^ 32 by omega) with
    ⟨-, hmeet⟩ | ⟨t, hres, hinv, -, hunits, -⟩
  · exact absurd hfree hmeet
  · refine ⟨{ s.pool with freePagesTree := t }, ?_, ?_, ?_⟩
    · unfold PagePool.returnPage
      simp only [hend, hidx, hnum, hres, if_neg (show ¬ (b.page < s.pool.base ∨
        s.pool.base + s.pool.totalSize ≤ b.page) by omega), if_neg (not_le.mpr hshort)]
      rfl
    · rw [hplaced.pages_eq]
      exact hunits
    · have hsite : SameSite s.pool { s.pool with freePagesTree := t } := ⟨rfl, rfl, rfl⟩
      have hperm := List.perm_cons_erase hb
      refine
        { fixed := hfix.congr hsite
          tree := hinv
          used := h.used
          used_le := h.used_le
          placed := fun c hc hcpool => ?_
          mapped := fun c hc hcpool =>
            (h.mapped c (List.mem_of_mem_erase hc) hcpool).congr hsite
          disjoint := h.disjoint.sublist List.erase_sublist
          pages := ?_
          partition := ?_
          unserved := h.unserved }
      · obtain ⟨j, hj⟩ := h.placed c (List.mem_of_mem_erase hc) hcpool
        exact ⟨j, hj.congr hsite⟩
      · simp only [Block.pages_congr hsite]
        exact h.pages.sublist List.erase_sublist
      · refine h.partition.move (a := .live) (b := .free) (by decide) hsub ?_ ?_ ?_
        · show livePages ps _ (s.live.erase b) = _
          rw [livePages_congr hsite]
          exact h.livePages_erase hb hpool
        · show t.freeUnits = _
          rw [hunits, hplaced.pages_eq]
          rfl
        · rintro (_ | _ | _) hne hne'
          · exact absurd rfl hne
          · exact absurd rfl hne'
          · rfl

/-- Taking a block of the system off the live list. -/
theorem Inv.unmap {s : State} (h : Inv ps s) {b : Block} (hb : b ∈ s.live)
    (hpool : b.fromPool = false) : Inv ps { s with live := s.live.erase b } where
  fixed := h.fixed
  tree := h.tree
  used := h.used
  used_le := h.used_le
  placed := fun c hc hcpool => h.placed c (List.mem_of_mem_erase hc) hcpool
  mapped := fun c hc hcpool => h.mapped c (List.mem_of_mem_erase hc) hcpool
  disjoint := h.disjoint.sublist List.erase_sublist
  pages := h.pages.sublist List.erase_sublist
  unserved := h.unserved
  partition := by
    refine h.partition.congr ?_
    rintro (_ | _ | _)
    · show livePages ps s.pool (s.live.erase b) = livePages ps s.pool s.live
      rw [livePages_perm (List.perm_cons_erase hb), livePages_cons_system _ hpool]
    · rfl
    · rfl

/-! ## Every run -/

section Init

variable (ps : PageSize) (pageCount treeBase base : Nat)

@[simp] theorem base_init : (init ps pageCount treeBase base).base = base := rfl
@[simp] theorem totalSize_init :
    (init ps pageCount treeBase base).totalSize = Words.mul 64 pageCount ps.bytes := rfl
@[simp] theorem usedZone_init : (init ps pageCount treeBase base).usedZone = 0 := rfl
@[simp] theorem totalPageCount_init :
    (init ps pageCount treeBase base).totalPageCount = pageCount := rfl
@[simp] theorem freePagesTree_init :
    (init ps pageCount treeBase base).freePagesTree = CartesianTree.init treeBase := rfl

/-- A new pool is all tail. -/
theorem holding_init (i : Holder) : holding ps ⟨init ps pageCount treeBase base, [], []⟩ i =
    if i = .tail then Set.Iio pageCount else ∅ := by
  cases i with
  | live =>
    refine Set.eq_empty_iff_forall_notMem.mpr ?_
    rintro u ⟨b, hb, -⟩
    exact absurd hb List.not_mem_nil
  | free => exact freeUnits_init treeBase
  | tail =>
    rw [holding_tail, usedZone_init, totalPageCount_init, Nat.zero_div]
    exact Set.ext fun x => by simp

end Init

/-- The pool that `Init` leaves has one tail and no blocks. -/
theorem inv_init (ps : PageSize) {pageCount treeBase base : Nat} (hcount : pageCount < 2 ^ 32)
    (hbase : ps.bytes ∣ base) (hfits : base + pageCount * ps.bytes < 2 ^ 64) :
    Inv ps ⟨init ps pageCount treeBase base, [], []⟩ := by
  have hsize : Words.mul 64 pageCount ps.bytes = pageCount * ps.bytes :=
    Words.mul_eq (lt_of_le_of_lt (Nat.le_add_left _ _) hfits)
  refine
    { fixed := ⟨hbase, ?_, ?_, hcount⟩
      tree := CartesianTree.inv_init treeBase
      used := by rw [usedZone_init, Nat.zero_div, Nat.zero_mul]
      used_le := by rw [usedZone_init, Nat.zero_div]; exact Nat.zero_le _
      placed := fun b hb => absurd hb List.not_mem_nil
      mapped := fun b hb => absurd hb List.not_mem_nil
      disjoint := List.Pairwise.nil
      pages := List.Pairwise.nil
      partition := ⟨fun x => ?_, fun i j x hi hj => ?_⟩
      unserved := fun b hb => absurd hb List.not_mem_nil }
  · rw [totalSize_init, totalPageCount_init, hsize]
  · rw [base_init, totalSize_init, hsize]
    exact hfits
  · simp only [holding_init, totalPageCount_init]
    constructor
    · intro hx
      exact ⟨.tail, by rw [if_pos rfl]; exact hx⟩
    · rintro ⟨i, hi⟩
      split at hi
      · exact hi
      · exact absurd hi (Set.notMem_empty x)
  · simp only [holding_init] at hi hj
    by_cases hi' : i = .tail
    · by_cases hj' : j = .tail
      · rw [hi', hj']
      · rw [if_neg hj'] at hj
        exact absurd hj (Set.notMem_empty x)
    · rw [if_neg hi'] at hi
      exact absurd hi (Set.notMem_empty x)

/-- One action. -/
theorem Inv.step {s s' : State} (h : Inv ps s) {a : Action} (ha : a.Allowed ps s)
    (hs : exec ps s a = .ok s') : Inv ps s' := by
  -- a request, an answer of the system to one that was not served, and a return
  cases a with
  | getPage bytes =>
    rw [exec] at hs
    rcases h.getPage ha with ⟨-, hres⟩ | ⟨hres, -, -⟩ | ⟨p, page, hres, hinv⟩
    · rw [hres] at hs
      exact absurd hs nofun
    · rw [hres] at hs
      rw [← Except.ok.inj hs]
      exact { h with unserved := fun b hb => by
                      rcases List.mem_cons.mp hb with rfl | hb
                      · exact ha
                      · exact h.unserved b hb }
    · rw [hres] at hs
      rw [← Except.ok.inj hs]
      exact hinv
  | mapMemory bytes page =>
    simp only [exec] at hs
    split at hs
    case isTrue hmem =>
      rw [← Except.ok.inj hs]
      exact h.mapMemory hmem ha
    case isFalse =>
      rw [← Except.ok.inj hs]
      exact h
  | returnPage b =>
    simp only [exec] at hs
    split at hs
    case isTrue hb =>
      cases hpool : b.fromPool with
      | true =>
        obtain ⟨p, hres, -, hinv⟩ := h.returnPage hb hpool
        simp only [hres, bind, Except.bind, Except.ok.injEq] at hs
        subst hs
        exact hinv
      | false =>
        simp only [returnPage_mapped h.fixed (h.mapped b hb hpool), bind, Except.bind,
          Except.ok.injEq] at hs
        subst hs
        exact h.unmap hb hpool
    case isFalse =>
      rw [← Except.ok.inj hs]
      exact h

/-- The invariant holds at first, and every action keeps it. -/
theorem machine_invariant (ps : PageSize) : (machine ps).Invariant (Inv ps) where
  init := by
    rintro s ⟨pageCount, treeBase, base, hcount, hbase, hfits, rfl⟩
    exact inv_init ps hcount hbase hfits
  step := fun s a s' h hs => h.step hs.1 hs.2

/-- What block safety asks of a state. -/
structure Safe (ps : PageSize) (s : State) : Prop where
  /-- No two live blocks overlap, whoever served them. -/
  disjoint : s.live.Pairwise fun b c => Disjoint (b.extent ps) (c.extent ps)
  aligned : ∀ b ∈ s.live, ps.bytes ∣ b.page
  long : ∀ b ∈ s.live, b.bytes ≤ roundUp ps b.bytes
  inside : ∀ b ∈ s.live, b.fromPool = true → b.extent ps ⊆ s.pool.range
  outside : ∀ b ∈ s.live, b.fromPool = false → Disjoint (b.extent ps) s.pool.range
  /-- The used zone ends at a page boundary of the pool. -/
  used : ps.bytes ∣ s.pool.usedZone ∧ s.pool.usedZone ≤ s.pool.totalSize
  /-- Every page of the pool has exactly one holder: the live blocks, the tree or the tail. -/
  partition : Partitions (holding ps s) (Set.Iio s.pool.totalPageCount)
  /-- A request goes to the system only if it fits neither a free block nor the tail (or the pool
      has no mapping), and the pool is as before. -/
  unserved : ∀ bytes, Rounds ps bytes → ∀ p, s.pool.getPage ps bytes = .ok (p, none) →
    p = s.pool ∧ (∀ n ∈ inorder s.pool.freePagesTree.root, n.count < pagesOf ps bytes) ∧
    (s.pool.totalSize < s.pool.usedZone + roundUp ps bytes ∨ s.pool.base = 0)
  /-- Returning a block of the pool does not abort; its pages, and no others, become free. -/
  returned : ∀ b ∈ s.live, b.fromPool = true → ∃ p,
    s.pool.returnPage ps b.page b.bytes = .ok (p, none) ∧
    p.freePagesTree.freeUnits = s.pool.freePagesTree.freeUnits ∪ b.pages ps s.pool
  /-- A block of the system goes back to the system, and the tree does not see it. -/
  unmapped : ∀ b ∈ s.live, b.fromPool = false →
    s.pool.returnPage ps b.page b.bytes = .ok (s.pool, some (roundUp ps b.bytes))

/-- **Block safety**, in every reachable state: the live blocks do not overlap, are aligned and as
    long as they were asked to be, and a returned block goes back to where it came from.  The
    invariant is that each page of the pool has exactly one holder; what a section returns follows
    from it and from what the tree of free pages promises. -/
theorem reachable_safe (ps : PageSize) {s : State} (h : (machine ps).Reachable s) :
    Safe ps s := by
  have hinv := (machine_invariant ps).reachable h
  refine
    { disjoint := hinv.disjoint
      aligned := fun b hb => ?_
      long := fun b hb => ?_
      inside := fun b hb hpool => ?_
      outside := fun b hb hpool => (hinv.mapped b hb hpool).outside
      used := ⟨⟨_, hinv.used.trans (Nat.mul_comm _ _)⟩, ?_⟩
      partition := hinv.partition
      unserved := fun bytes hr p hp => ?_
      returned := fun b hb hpool => ?_
      unmapped := fun b hb hpool => returnPage_mapped hinv.fixed (hinv.mapped b hb hpool) }
  · cases hpool : b.fromPool with
    | true =>
      obtain ⟨idx, hplaced⟩ := hinv.placed b hb hpool
      exact hplaced.aligned hinv.fixed
    | false => exact (hinv.mapped b hb hpool).aligned
  · cases hpool : b.fromPool with
    | true =>
      obtain ⟨idx, hplaced⟩ := hinv.placed b hb hpool
      exact hplaced.rounds.le_roundUp
    | false => exact (hinv.mapped b hb hpool).rounds.le_roundUp
  · obtain ⟨idx, hplaced⟩ := hinv.placed b hb hpool
    exact hplaced.extent_subset hinv.fixed
  · rw [hinv.used, hinv.fixed.size]
    exact Nat.mul_le_mul_right _ hinv.used_le
  · rcases hinv.getPage hr with ⟨-, hres⟩ | ⟨hres, hfit⟩ | ⟨p', page, hres, -⟩
    · rw [hres] at hp
      exact absurd hp nofun
    · rw [hres] at hp
      exact ⟨(Prod.mk.inj (Except.ok.inj hp)).1.symm, hfit⟩
    · rw [hres] at hp
      exact absurd (Prod.mk.inj (Except.ok.inj hp)).2 nofun
  · obtain ⟨p, hres, hunits, -⟩ := hinv.returnPage hb hpool
    exact ⟨p, hres, hunits⟩

/-- A pool of two pages of 4096 bytes: 5000 bytes take both, so that the next request goes to the
    system; then the first block comes back. -/
theorem reachable_safe_returned : ∃ (ps : PageSize) (s : State), (machine ps).Reachable s ∧
    Safe ps s ∧ s.live = [⟨1048576, 100, false⟩] ∧
    s.pool.freePagesTree.root = .node ⟨0, 0, 2⟩ .nil .nil := by
  have hround : ∀ {ps : PageSize} {page bytes : Nat}, roundUp ps bytes = 4096 →
      Block.extent ps ⟨page, bytes, false⟩ = Set.Ico page (page + 4096) := by
    intro ps page bytes h
    rw [Block.extent, h]
  let ps : PageSize := ⟨4096, 12, by decide, by decide⟩
  have h₀ : (machine ps).Reachable ⟨init ps 2 0 65536, [], []⟩ :=
    .init ⟨2, 0, 65536, by decide, by decide, by decide, rfl⟩
  let used : PagePool := { init ps 2 0 65536 with usedZone := 8192 }
  let s₁ : State := ⟨used, [⟨65536, 5000, true⟩], []⟩
  let s₂ : State := ⟨used, [⟨65536, 5000, true⟩], [100]⟩
  let s₃ : State := ⟨used, [⟨1048576, 100, false⟩, ⟨65536, 5000, true⟩], []⟩
  let s₄ : State := ⟨{ used with freePagesTree := ⟨2, .node ⟨0, 0, 2⟩ .nil .nil, ⟨[], 24⟩, []⟩ },
    [⟨1048576, 100, false⟩], []⟩
  have h₁ : (machine ps).Reachable s₁ :=
    .step (e := .getPage 5000) h₀ ⟨⟨by decide, by decide⟩, by decide⟩
  have h₂ : (machine ps).Reachable s₂ :=
    .step (e := .getPage 100) h₁ ⟨⟨by decide, by decide⟩, by decide⟩
  have h₃ : (machine ps).Reachable s₃ := by
    refine .step (e := .mapMemory 100 1048576) h₂ ⟨⟨by decide, by decide, ?_, ?_⟩, by decide⟩
    · rw [hround (by decide)]
      exact Set.Ico_disjoint_Ico.mpr (by decide)
    · intro b hb hpool
      obtain rfl := List.mem_singleton.mp hb
      exact absurd hpool nofun
  have h₄ : (machine ps).Reachable s₄ :=
    .step (e := .returnPage ⟨65536, 5000, true⟩) h₃ ⟨trivial, by decide⟩
  exact ⟨ps, _, h₄, reachable_safe ps h₄, rfl, rfl⟩

end PagePool

end CangjieRuntime.Common
