import GnuOS.Lib.Dyadic
import GnuOS.Lib.LinkedList
import Mathlib.Data.BitVec

/-!
# The physical page allocator

`kernel/mm/pmm.c`: a binary buddy allocator over at most 65536 pages. The static arrays of
the source are functions from page numbers, the 17 list heads a function from orders;
addresses are 64-bit words. A page number, an order and the three counters are natural
numbers: the first two stay far below the width of their C types, and the arithmetic on
`g_free_pages` spells out its wrap-around.

Loops of the source are structural recursions: on the distance between two orders where the
loop runs over orders, and on the number of pages left in `addFreeRange`.
-/

namespace GnuOS.Pmm

/-- `MM_PAGE_SIZE`. -/
def mmPageSize : ℕ := 4096

/-- `PMM_MAX_PAGES`. -/
def pmmMaxPages : ℕ := 65536

/-- `PMM_MAX_ORDER`. -/
def pmmMaxOrder : ℕ := 16

/-- `PMM_INVALID_INDEX`, the end mark of the free lists. -/
def pmmInvalidIndex : ℕ := 0xFFFFFFFF

/-- The four values of `g_block_state`. Only the first page of a block is not `unused`. -/
inductive BlockState where
  | unused
  | free
  | allocated
  | reserved
deriving DecidableEq, Repr

/-- The static variables of `pmm.c`. -/
structure PmmState where
  freeHeads : ℕ → ℕ
  freeNext : ℕ → ℕ
  freePrev : ℕ → ℕ
  pageOwner : ℕ → ℕ
  blockState : ℕ → BlockState
  blockOrder : ℕ → ℕ
  base : BitVec 64
  totalPages : ℕ
  freePages : ℕ

/-- `block_pages`. -/
def blockPages (order : ℕ) : ℕ := 1 <<< order

/-- The loop of `max_order_for_pages`, with `fuel` orders left below `PMM_MAX_ORDER`. -/
def maxOrderLoop (pages : ℕ) : ℕ → ℕ → ℕ
  | 0, order => order
  | fuel + 1, order =>
    if 1 <<< (order + 1) > pages then order else maxOrderLoop pages fuel (order + 1)

/-- `max_order_for_pages`. -/
def maxOrderForPages (pages : ℕ) : ℕ := maxOrderLoop pages pmmMaxOrder 0

/-- The loop of `mark_block_owner`, over the first `count` pages of the block. -/
def markLoop (startPage : ℕ) : ℕ → (ℕ → ℕ) → ℕ → ℕ
  | 0, owner => owner
  | count + 1, owner =>
    Function.update (markLoop startPage count owner) (startPage + count) startPage

/-- `mark_block_owner`. -/
def markBlockOwner (s : PmmState) (startPage order : ℕ) : PmmState :=
  { s with pageOwner := markLoop startPage (blockPages order) s.pageOwner }

/-- `set_block`. -/
def setBlock (s : PmmState) (startPage order : ℕ) (state : BlockState) : PmmState :=
  let s := markBlockOwner s startPage order
  { s with
    blockOrder := Function.update s.blockOrder startPage order
    blockState := Function.update s.blockState startPage state }

/-- `clear_block_head`. -/
def clearBlockHead (s : PmmState) (startPage : ℕ) : PmmState :=
  { s with
    blockOrder := Function.update s.blockOrder startPage 0
    blockState := Function.update s.blockState startPage .unused }

/-- `free_list_push`. -/
def freeListPush (s : PmmState) (order startPage : ℕ) : PmmState :=
  let head := s.freeHeads order
  let prev := Function.update s.freePrev startPage pmmInvalidIndex
  { s with
    freeNext := Function.update s.freeNext startPage head
    freePrev := if head ≠ pmmInvalidIndex then Function.update prev head startPage else prev
    freeHeads := Function.update s.freeHeads order startPage }

/-- `free_list_remove`. -/
def freeListRemove (s : PmmState) (order startPage : ℕ) : PmmState :=
  let prev := s.freePrev startPage
  let next := s.freeNext startPage
  let freeNext :=
    if prev ≠ pmmInvalidIndex then Function.update s.freeNext prev next else s.freeNext
  let freeHeads :=
    if prev ≠ pmmInvalidIndex then s.freeHeads else Function.update s.freeHeads order next
  let freePrev :=
    if next ≠ pmmInvalidIndex then Function.update s.freePrev next prev else s.freePrev
  { s with
    freeHeads := freeHeads
    freePrev := Function.update freePrev startPage pmmInvalidIndex
    freeNext := Function.update freeNext startPage pmmInvalidIndex }

/-- `add_free_block`. -/
def addFreeBlock (s : PmmState) (startPage order : ℕ) : PmmState :=
  let s := setBlock s startPage order .free
  let s := freeListPush s order startPage
  { s with freePages := (s.freePages + blockPages order) % 2 ^ 64 }

/-- `remove_free_block`. -/
def removeFreeBlock (s : PmmState) (startPage : ℕ) : PmmState :=
  let order := s.blockOrder startPage
  let s := freeListRemove s order startPage
  let s := { s with freePages := (s.freePages + (2 ^ 64 - blockPages order)) % 2 ^ 64 }
  clearBlockHead s startPage

/-- The inner loop of `alloc_block`: the block of order `targetOrder + n` at `block` gives
its upper halves back, from the largest order down. -/
def splitLoop (block targetOrder : ℕ) : ℕ → PmmState → PmmState
  | 0, s => s
  | n + 1, s =>
    splitLoop block targetOrder n
      (addFreeBlock s (block + blockPages (targetOrder + n)) (targetOrder + n))

/-- The outer loop of `alloc_block` from order `targetOrder + n` on, with `fuel` orders left
up to and including `PMM_MAX_ORDER`. -/
def allocLoop (s : PmmState) (targetOrder : ℕ) : ℕ → ℕ → ℕ × PmmState
  | 0, _ => (pmmInvalidIndex, s)
  | fuel + 1, n =>
    let block := s.freeHeads (targetOrder + n)
    if block = pmmInvalidIndex then
      allocLoop s targetOrder fuel (n + 1)
    else
      let s := removeFreeBlock s block
      let s := splitLoop block targetOrder n s
      (block, setBlock s block targetOrder .allocated)

/-- `alloc_block`: the block's first page, or `PMM_INVALID_INDEX`. -/
def allocBlock (s : PmmState) (targetOrder : ℕ) : ℕ × PmmState :=
  allocLoop s targetOrder (pmmMaxOrder + 1 - targetOrder) 0

/-- The merging loop of `free_block`, with `fuel` orders left below `PMM_MAX_ORDER`. It
returns the block it ends with. -/
def mergeLoop : ℕ → PmmState → ℕ → ℕ → PmmState × ℕ × ℕ
  | 0, s, current, order => (s, current, order)
  | fuel + 1, s, current, order =>
    let buddy := current ^^^ blockPages order
    if buddy ≥ s.totalPages then
      (s, current, order)
    else if s.blockState buddy ≠ .free ∨ s.blockOrder buddy ≠ order then
      (s, current, order)
    else
      let s := removeFreeBlock s buddy
      let s := clearBlockHead s current
      let s := clearBlockHead s buddy
      let current := if buddy < current then buddy else current
      mergeLoop fuel (setBlock s current (order + 1) .free) current (order + 1)

/-- `free_block`. -/
def freeBlock (s : PmmState) (startPage order : ℕ) : PmmState :=
  let s := setBlock s startPage order .free
  let (s, current, order) := mergeLoop (pmmMaxOrder - order) s startPage order
  addFreeBlock s current order

/-- The splitting loop of `reserve_page`: the block of the given order at `current` gives
back every half that does not hold `page`. -/
def reserveLoop (page : ℕ) : ℕ → PmmState → ℕ → PmmState × ℕ
  | 0, s, current => (s, current)
  | childOrder + 1, s, current =>
    let buddy := current + blockPages childOrder
    if page < buddy then
      let s := addFreeBlock s buddy childOrder
      reserveLoop page childOrder (setBlock s current childOrder .allocated) current
    else
      let s := addFreeBlock s current childOrder
      reserveLoop page childOrder (setBlock s buddy childOrder .allocated) buddy

/-- `reserve_page`, with its result as a truth value. -/
def reservePage (s : PmmState) (page : ℕ) : Bool × PmmState :=
  if page ≥ s.totalPages then (false, s)
  else
    let head := s.pageOwner page
    if head = pmmInvalidIndex then (false, s)
    else match s.blockState head with
      | .reserved => (true, s)
      | .allocated => (false, s)
      | .unused => (false, s)
      | .free =>
        let order := s.blockOrder head
        let (s, current) := reserveLoop page order (removeFreeBlock s head) head
        (true, setBlock s current 0 .reserved)

/-- The inner loop of `add_free_range`: the largest order up to `order` at which `page` is
aligned. -/
def alignLoop (page : ℕ) : ℕ → ℕ
  | 0 => 0
  | order + 1 =>
    if page &&& (blockPages (order + 1) - 1) ≠ 0 then alignLoop page order else order + 1

/-- The outer loop of `add_free_range`. Every round uses up at least one page, so `fuel` is
the number of pages left at the start. -/
def addFreeRangeLoop : ℕ → PmmState → ℕ → ℕ → PmmState
  | 0, s, _, _ => s
  | fuel + 1, s, page, remaining =>
    if remaining = 0 then s
    else
      let order := alignLoop page (maxOrderForPages remaining)
      addFreeRangeLoop fuel (addFreeBlock s page order) (page + blockPages order)
        (remaining - blockPages order)

/-- `add_free_range`. -/
def addFreeRange (s : PmmState) (startPage pageCount : ℕ) : PmmState :=
  addFreeRangeLoop pageCount s startPage pageCount

/-- The state `reset_allocator_state` leaves, with the three scalars set by `pmm_init`. -/
def resetAllocatorState (base : BitVec 64) (totalPages : ℕ) : PmmState where
  freeHeads := fun _ => pmmInvalidIndex
  freeNext := fun _ => pmmInvalidIndex
  freePrev := fun _ => pmmInvalidIndex
  pageOwner := fun _ => pmmInvalidIndex
  blockState := fun _ => .unused
  blockOrder := fun _ => 0
  base := base
  totalPages := totalPages
  freePages := 0

/-- `(x + (MM_PAGE_SIZE - 1)) & ~(MM_PAGE_SIZE - 1)`, with the wrap-around of the sum. -/
def pageAlignUp (x : BitVec 64) : BitVec 64 := (x + 4095#64) &&& ~~~4095#64

/-- `x & ~(MM_PAGE_SIZE - 1)`. -/
def pageAlignDown (x : BitVec 64) : BitVec 64 := x &&& ~~~4095#64

/-- The number of pages `pmm_init` manages. -/
def initTotalPages (base memorySize : BitVec 64) : ℕ :=
  let end_ := base + memorySize
  let gBase := pageAlignUp base
  let total := if end_ < base ∨ gBase ≥ end_ then 0 else (end_ - gBase).toNat / mmPageSize
  if total > pmmMaxPages then pmmMaxPages else total

/-- `pmm_init`. -/
def pmmInit (base memorySize : BitVec 64) : PmmState :=
  let total := initTotalPages base memorySize
  let s := resetAllocatorState (pageAlignUp base) total
  if total > 0 then (reservePage (addFreeRange s 0 total) 0).2 else s

/-- `pmm_alloc_page`: the page's address, or 0. -/
def pmmAllocPage (s : PmmState) : BitVec 64 × PmmState :=
  let (block, s) := allocBlock s 0
  if block = pmmInvalidIndex then (0#64, s)
  else (s.base + BitVec.ofNat 64 (block * mmPageSize), s)

/-- `pmm_free_page`. -/
def pmmFreePage (s : PmmState) (addr : BitVec 64) : PmmState :=
  if s.totalPages = 0 ∨ addr < s.base then s
  else
    let diff := (addr - s.base).toNat
    if diff % mmPageSize ≠ 0 then s
    else
      let page := diff / mmPageSize
      if page ≥ s.totalPages then s
      else if s.blockState page ≠ .allocated ∨ s.blockOrder page ≠ 0 then s
      else freeBlock (clearBlockHead s page) page 0

/-- The loop of `pmm_reserve_range` over `count` pages. -/
def reserveRangeLoop : ℕ → PmmState → ℕ → PmmState
  | 0, s, _ => s
  | count + 1, s, page => reserveRangeLoop count (reservePage s page).2 (page + 1)

/-- The two clamped bounds of `pmm_reserve_range`, as page numbers: `none` where it returns
early. -/
def reserveBounds (s : PmmState) (base size : BitVec 64) : Option (ℕ × ℕ) :=
  if size = 0 ∨ s.totalPages = 0 then none
  else
    let end_ := if base + size < base then BitVec.allOnes 64 else base + size
    let alignedStart := pageAlignDown base
    let alignedEnd :=
      if end_ > BitVec.allOnes 64 - 4095#64 then pageAlignDown (BitVec.allOnes 64)
      else pageAlignUp end_
    if alignedEnd ≤ s.base then none
    else
      let alignedStart := if alignedStart < s.base then s.base else alignedStart
      let pmmEnd := s.base + BitVec.ofNat 64 (s.totalPages * mmPageSize)
      if alignedStart ≥ pmmEnd then none
      else
        let alignedEnd := if alignedEnd > pmmEnd then pmmEnd else alignedEnd
        some ((alignedStart - s.base).toNat / mmPageSize, (alignedEnd - s.base).toNat / mmPageSize)

/-- `pmm_reserve_range`. -/
def pmmReserveRange (s : PmmState) (base size : BitVec 64) : PmmState :=
  match reserveBounds s base size with
  | none => s
  | some (firstPage, lastPage) => reserveRangeLoop (lastPage - firstPage) s firstPage

/-- `pmm_free_pages`. -/
def pmmFreePages (s : PmmState) : ℕ := s.freePages

/-! ## Runs -/

/-- A call of the allocator's interface. -/
inductive PmmOp where
  | allocPage
  | freePage (addr : BitVec 64)
  | reserveRange (base size : BitVec 64)

/-- One call: its return value (0 for the two functions that return nothing) and the state
after it. -/
def PmmOp.exec (s : PmmState) : PmmOp → BitVec 64 × PmmState
  | .allocPage => pmmAllocPage s
  | .freePage addr => (0#64, pmmFreePage s addr)
  | .reserveRange base size => (0#64, pmmReserveRange s base size)

/-- A sequence of calls. -/
def runOps (s : PmmState) (ops : List PmmOp) : PmmState :=
  ops.foldl (fun s op => (op.exec s).2) s

end GnuOS.Pmm
