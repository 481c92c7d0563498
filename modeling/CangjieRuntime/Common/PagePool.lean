/-
  The page pool (`rt.common/PagePool.cj`): whole pages for the runtime's own tables.

  A request is served from the tree of returned pages, else from the front of the untouched zone,
  else by the system.  The embedding:

    * addresses and sizes are 64-bit words with wrapping arithmetic, page indices and counts 32-bit
      ones, converted where the code converts them;
    * the system's page size is a parameter (`PageSize`): a power of two that fits an `Int32`;
    * `mmap` is a parameter too, as an action of the machine: it gives a range of whole pages that
      meets neither the pool nor a mapping that is still there;
    * `madvise` and `prctl` change nothing the pool reads and are left out.

  One action is one locked section, or the system call of a request that left the lock without a
  block.  A block on its way into `ReturnPage` is live until the section that inserts it.
-/
import CangjieRuntime.Lib.Runs
import CangjieRuntime.Heap.CartesianTree
import Mathlib

set_option linter.unusedVariables false

namespace CangjieRuntime.Common

open CangjieRuntime.Heap Runs

/-- `MRT_PAGE_SIZE`: what `getpagesize` returned.  It is a parameter of the whole development: a
    power of two below 2 ^ 31, whatever the machine. -/
structure PageSize where
  bytes : Nat
  log : Nat
  bytes_eq : bytes = 2 ^ log
  log_lt : log < 31

abbrev UINT32_MAX : Nat := 4294967295

/-- `PagePool`, without its mutex, its tag and the unused `smallPageUsed`. -/
structure PagePool where
  freePagesTree : CartesianTree
  base : Nat
  totalSize : Nat
  usedZone : Nat
  totalPageCount : Nat
  deriving DecidableEq, Repr

namespace PagePool

/-- `Init` of a new pool: its tree starts at `treeBase`, its mapping at `base`. -/
def init (ps : PageSize) (pageCount treeBase base : Nat) : PagePool :=
  { freePagesTree := CartesianTree.init treeBase
    base := base
    totalSize := Words.mul 64 pageCount ps.bytes
    usedZone := 0
    totalPageCount := pageCount }

/-- `(bytes + MRT_PAGE_SIZE - 1).wrappingDiv(MRT_PAGE_SIZE)`. -/
def pagesOf (ps : PageSize) (bytes : Nat) : Nat :=
  Words.sub 64 (Words.add 64 bytes ps.bytes) 1 / ps.bytes

/-- `(bytes + MRT_PAGE_SIZE - 1) & (0 - MRT_PAGE_SIZE)`. -/
def roundUp (ps : PageSize) (bytes : Nat) : Nat :=
  Words.sub 64 (Words.add 64 bytes ps.bytes) 1 &&& Words.sub 64 0 ps.bytes

/-- `GetPage` up to the unlock; `none` if the system has to serve the request. -/
def getPage (ps : PageSize) (p : PagePool) (bytes : Nat) :
    Except Fault (PagePool × Option Nat) :=
  let count := pagesOf ps bytes
  let pageSize := roundUp ps bytes
  if UINT32_MAX ≤ count then .error .abort
  else do
    let (tree, taken) ← p.freePagesTree.takeUnits (count % 2 ^ 32) false
    let p := { p with freePagesTree := tree }
    match taken with
    | some idx => .ok (p, some (Words.add 64 p.base (Words.mul 64 idx ps.bytes)))
    | none =>
      if Words.add 64 p.usedZone pageSize ≤ p.totalSize ∧ p.base ≠ 0 then
        .ok ({ p with usedZone := Words.add 64 p.usedZone pageSize },
          some (Words.add 64 p.base p.usedZone))
      else .ok (p, none)

/-- `ReturnPage`; the size it unmapped, if it gave the pages back to the system. -/
def returnPage (ps : PageSize) (p : PagePool) (page bytes : Nat) :
    Except Fault (PagePool × Option Nat) :=
  let end' := Words.add 64 p.base p.totalSize
  let num := pagesOf ps bytes
  if page < p.base ∨ end' ≤ page then .ok (p, some (Words.mul 64 num ps.bytes))
  else if UINT32_MAX ≤ num then .error .abort
  else do
    let idx := Words.sub 64 page p.base / ps.bytes % 2 ^ 32
    let (tree, inserted) ← p.freePagesTree.mergeInsert idx (num % 2 ^ 32) false
    if inserted then .ok ({ p with freePagesTree := tree }, none) else .error .abort

/-! ## The machine -/

/-- A block some caller has: what `GetPage` returned, the size it was asked for, and whether the
    pool served it. -/
structure Block where
  page : Nat
  bytes : Nat
  fromPool : Bool
  deriving DecidableEq, Repr

/-- The addresses of a block. -/
def Block.extent (ps : PageSize) (b : Block) : Set Nat :=
  Set.Ico b.page (b.page + roundUp ps b.bytes)

/-- The addresses of the pool. -/
def range (p : PagePool) : Set Nat := Set.Ico p.base (p.base + p.totalSize)

/-- The pool, the live blocks, and the requests that wait for their system mapping. -/
structure State where
  pool : PagePool
  live : List Block
  unserved : List Nat
  deriving DecidableEq, Repr

/-- The sections under the pool's mutex, and the system call between two of them: a request that the
    pool cannot serve is mapped without the mutex. -/
inductive Action
  | getPage (bytes : Nat)
  | mapMemory (bytes page : Nat)
  | returnPage (block : Block)
  deriving DecidableEq, Repr

/-- One action, by callers that keep to the protocol; a mapping that was not asked for and the
    return of a block that is not live change nothing. -/
def exec (ps : PageSize) (s : State) : Action → Except Fault State
  | .getPage bytes => do
    let (pool, page) ← s.pool.getPage ps bytes
    match page with
    | some page => .ok { s with pool := pool, live := ⟨page, bytes, true⟩ :: s.live }
    | none => .ok { s with pool := pool, unserved := bytes :: s.unserved }
  | .mapMemory bytes page =>
    if bytes ∈ s.unserved then
      .ok { s with live := ⟨page, bytes, false⟩ :: s.live, unserved := s.unserved.erase bytes }
    else .ok s
  | .returnPage b =>
    if b ∈ s.live then do
      let (pool, _) ← s.pool.returnPage ps b.page b.bytes
      .ok { s with pool := pool, live := s.live.erase b }
    else .ok s

/-- What the callers and the system promise: a request is not empty and its rounding does not wrap;
    a new mapping is page aligned, inside the address space, and meets neither the pool nor a
    mapping that is there. -/
def Action.Allowed (ps : PageSize) (s : State) : Action → Prop
  | .getPage bytes => 1 ≤ bytes ∧ bytes + (ps.bytes - 1) < 2 ^ 64
  | .mapMemory bytes page =>
    ps.bytes ∣ page ∧ page + roundUp ps bytes ≤ 2 ^ 64 ∧
    Disjoint (Block.extent ps ⟨page, bytes, false⟩) s.pool.range ∧
    ∀ b ∈ s.live, b.fromPool = false →
      Disjoint (Block.extent ps ⟨page, bytes, false⟩) (b.extent ps)
  | .returnPage _ => True

/-- The pool and its callers.  The pool's own mapping is page aligned and inside the address
    space. -/
def machine (ps : PageSize) : System State Action where
  init s := ∃ pageCount treeBase base, pageCount < 2 ^ 32 ∧ ps.bytes ∣ base ∧
    base + pageCount * ps.bytes < 2 ^ 64 ∧ s = ⟨init ps pageCount treeBase base, [], []⟩
  step s a s' := a.Allowed ps s ∧ exec ps s a = .ok s'

end PagePool

end CangjieRuntime.Common
