/-
**The physical frame allocator.**

The allocator of `kern/pmap.c`: the array `pages` with one `page_info` a frame, the free list
threaded through `pp_link`, the flags `ALLOC`, `ALLOC_HUGE` and `POISON_AFTER_FREE`, and the counter
`free_pages_count`.  A pointer to a `page_info` is the index of its frame, and `NULL` is `none`.

Two allocation disciplines share the list.  An ordinary request takes a node off the list — the
head, or the first frame below 4 MB while only the first 4 MB are mapped — and a huge request looks
at the flags of the array, not at the list, for 1024 aligned frames that are not `ALLOC`, and then
unlinks them one by one.

Main definitions:

* `Jos.PageInfo`, `Jos.Mm` — `struct page_info` and the state of the memory manager;
* `Jos.removeHeadPfl`, `Jos.removeElementPfl`, `Jos.removeElement4MBPfl`, `Jos.addHeadPfl` — the
  four list primitives;
* `Jos.findHugePage` — the search for a huge block;
* `Jos.pageAlloc`, `Jos.pageFree`, `Jos.pageDecref` — the allocator;
* `Jos.pageInit` — the state the allocator starts from.
-/

import Mathlib.Logic.Function.Basic
import JosKernel.LinkedList
import JosKernel.Machine

set_option relaxedAutoImplicit false
set_option autoImplicit false

namespace Jos

/-! ### The state of the memory manager -/

/-- `struct page_info`. -/
structure PageInfo where
  ppLink : Option ℕ
  lruLink : Option ℕ
  ppRef : BitVec 16
  pageFlags : BitVec 32
  deriving DecidableEq, Repr

/-- A `page_info` of the zeroed array. -/
def PageInfo.zero : PageInfo := ⟨none, none, 0, 0⟩

/-- `struct lru`. -/
structure Lru where
  hActive : Option ℕ
  tActive : Option ℕ
  hInactive : Option ℕ
  tInactive : Option ℕ
  hZswap : Option ℕ
  tZswap : Option ℕ
  deriving DecidableEq, Repr

/-- **The state of the memory manager**: the globals of `kern/pmap.c` and physical memory, frame
by frame and byte by byte.  A physical address has 32 bits, so there are at most `2 ^ 20` frames. -/
structure Mm where
  npages : ℕ
  npages_le : npages ≤ 2 ^ 20
  premappedFlag : Bool
  pages : ℕ → PageInfo
  pageFreeList : Option ℕ
  freePagesCount : BitVec 32
  lruLists : Lru
  lruActiveCount : BitVec 32
  lruInactiveCount : BitVec 32
  mem : ℕ → ℕ → BitVec 8

-- The sizes of the small machines on which single operations are run.
theorem frames_four : 4 ≤ 2 ^ 20 := by decide
theorem frames_six : 6 ≤ 2 ^ 20 := by decide
theorem frames_eight : 8 ≤ 2 ^ 20 := by decide
theorem frames_sixteen : 16 ≤ 2 ^ 20 := by decide
theorem frames_blocks : 2048 ≤ 2 ^ 20 := by decide

namespace Mm

/-- Replace one `page_info`. -/
def modPage (s : Mm) (pp : ℕ) (f : PageInfo → PageInfo) : Mm :=
  { s with pages := Function.update s.pages pp (f (s.pages pp)) }

/-- The `pp_link` field as a function of the frame. -/
def link (s : Mm) (pp : ℕ) : Option ℕ := (s.pages pp).ppLink

end Mm

/-! ### Flags -/

-- `ALLOC_ZERO` and `ALLOC_HUGE` are requests to `page_alloc`; on a `page_info`, `ALLOC_HUGE` marks
-- the head of a huge block, `ALLOC` a page in use and `POISON_AFTER_FREE` a page to be poisoned.
def allocZero : BitVec 32 := 1#32 <<< 0
def allocHuge : BitVec 32 := 1#32 <<< 1
def alloc : BitVec 32 := 1#32 <<< 4
def poisonAfterFree : BitVec 32 := 1#32 <<< 5

/-- `page_flags & flag`, as a condition. -/
def PageInfo.has (p : PageInfo) (flag : BitVec 32) : Bool := p.pageFlags &&& flag != 0

/-- `page_flags |= flag`. -/
def PageInfo.set (flag : BitVec 32) (p : PageInfo) : PageInfo :=
  { p with pageFlags := p.pageFlags ||| flag }

/-- `page_flags = page_flags ^ flag`. -/
def PageInfo.flip (flag : BitVec 32) (p : PageInfo) : PageInfo :=
  { p with pageFlags := p.pageFlags ^^^ flag }

/-- `pp_link = p`. -/
def PageInfo.setLink (q : Option ℕ) (p : PageInfo) : PageInfo := { p with ppLink := q }

/-! ### The free list -/

/-- `assert(free_pages_count > 0); free_pages_count--;`. -/
def decFreePages (s : Mm) : Except Crash Mm :=
  if s.freePagesCount = 0 then throw (.assertFailed "free_pages_count > 0")
  else pure { s with freePagesCount := s.freePagesCount - 1 }

/-- `remove_head_pfl()`. -/
def removeHeadPfl (s : Mm) : Except Crash (ℕ × Mm) :=
  match s.pageFreeList with
  | none => throw .nullDeref
  | some pp =>
      if (s.pages pp).ppRef ≠ 0 then throw (.panic "[KERN]remove_head_pfl(): PP ref it's not 0!")
      else do
        let s := { s with pageFreeList := s.link pp }.modPage pp (PageInfo.setLink none)
        let s ← decFreePages s
        pure (pp, s)

/-- `remove_element_pfl(pp)`: nothing happens when the page is not on the list. -/
def removeElementPfl (s : Mm) (pp : ℕ) : Except Crash Mm :=
  if s.pageFreeList = some pp then
    decFreePages ({ s with pageFreeList := s.link pp }.modPage pp (PageInfo.setLink none))
  else
    match LinkedList.seek s.link (· == pp) s.npages none s.pageFreeList with
    | none => throw .diverges
    | some none => pure s
    | some (some (none, _)) => throw .wildPointer
    | some (some (some ppOld, ppC)) =>
        decFreePages
          ((s.modPage ppOld (PageInfo.setLink (s.link ppC))).modPage pp (PageInfo.setLink none))

/-- `page2pa(pp) < 0x400000`. -/
def below4MB (pp : ℕ) : Bool := page2pa pp < 0x400000#32

/-- `remove_element_4MB_pfl()`.  The branch for the head of the list leaves the counter alone. -/
def removeElement4MBPfl (s : Mm) : Except Crash (Option ℕ × Mm) :=
  match s.pageFreeList with
  | none => throw .nullDeref
  | some hd =>
      if below4MB hd then
        pure (some hd, { s with pageFreeList := s.link hd }.modPage hd (PageInfo.setLink none))
      else
        match LinkedList.seek s.link below4MB s.npages none s.pageFreeList with
        | none => throw .diverges
        | some none => pure (none, s)
        | some (some (none, _)) => throw .nullDeref
        | some (some (some ppOld, pp)) => do
            let s ← decFreePages
              ((s.modPage ppOld (PageInfo.setLink (s.link pp))).modPage pp (PageInfo.setLink none))
            pure (some pp, s)

/-- `add_head_pfl(pp)`. -/
def addHeadPfl (s : Mm) (pp : ℕ) : Mm :=
  let s := s.modPage pp fun p => { p with ppLink := s.pageFreeList, ppRef := 0, pageFlags := 0 }
  { s with pageFreeList := some pp, freePagesCount := s.freePagesCount + 1 }

/-! ### The search for a huge block -/

/-- The inner loop of `find_huge_page()`: `n` pages are left to look at, `i` is the next one and
`count` the free pages seen so far. -/
def scanBlock (s : Mm) (hpIdx : ℕ) : ℕ → ℕ → ℕ → ℕ
  | 0, _, count => count
  | n + 1, i, count =>
      if (s.pages (i + hpIdx)).has alloc then 0 else scanBlock s hpIdx n (i + 1) (count + 1)

/-- The outer loop of `find_huge_page()`: `n` blocks are left and `j` is the next one; `count` and
`hpIdx` are the variables the loop shares with the code after it. -/
def scanBlocks (s : Mm) : ℕ → ℕ → ℕ → ℕ → Option ℕ
  | 0, _, count, hpIdx => if count = kb then some hpIdx else none
  | n + 1, j, count, _ =>
      let hpIdx := j * kb
      let count := scanBlock s hpIdx kb 0 count
      if count = kb then some hpIdx else scanBlocks s n (j + 1) count hpIdx

/-- `find_huge_page()`, with `none` for `-1`. -/
def findHugePage (s : Mm) : Option ℕ := scanBlocks s (s.npages / kb) 0 0 0

/-! ### Allocation -/

/-- `memset(page2kva(pp), v, PGSIZE)`. -/
def memsetPage (s : Mm) (pp : ℕ) (v : BitVec 8) : Except Crash Mm := do
  let _ ← kaddr s.npages (page2pa pp)
  pure { s with mem := Function.update s.mem pp fun _ => v }

/-- Mark a page as `POISON_AFTER_FREE` when the request asks for it. -/
def markPoison (s : Mm) (flags : BitVec 32) (pp : ℕ) : Except Crash Mm :=
  if flags &&& poisonAfterFree ≠ 0 then
    if (s.pages pp).has poisonAfterFree then
      throw (.panic "page_alloc huge: PAGE TO ALLOC ALREADY MARKED AS POISON_AFTER_FREE")
    else pure (s.modPage pp (PageInfo.set poisonAfterFree))
  else pure s

/-- One round of the loop of `page_alloc` over the pages of a huge block. -/
def allocHugeRound (flags : BitVec 32) (hpIdx : ℕ) (s : Mm) (i : ℕ) : Except Crash Mm := do
  let s ← markPoison s flags i
  if i ≠ hpIdx ∧ (s.pages i).has allocHuge then
    throw (.panic "page_alloc huge: PAGE TO ALLOC ALREADY MARKED ALLOC")
  if (s.pages i).has alloc then
    throw (.panic "page_alloc huge: PAGE TO ALLOC ALREADY MARKED ALLOC")
  let s ← if flags &&& allocZero ≠ 0 then memsetPage s i 0 else pure s
  removeElementPfl (s.modPage i (PageInfo.set alloc)) i

/-- `page_alloc(alloc_flags)` with `ALLOC_HUGE` set. -/
def pageAllocHuge (s : Mm) (flags : BitVec 32) : Except Crash (Option ℕ × Mm) :=
  match findHugePage s with
  | none => pure (none, s)
  | some hpIdx => do
      let s ← markPoison s flags hpIdx
      if (s.pages hpIdx).has allocHuge then
        throw (.panic "page_alloc huge: PAGE TO ALLOC ALREADY MARKED ALLOC")
      let s := s.modPage hpIdx (PageInfo.set allocHuge)
      let s ← (List.range' hpIdx kb).foldlM (allocHugeRound flags hpIdx) s
      pure (some hpIdx, s)

/-- The rest of `page_alloc` once a page is off the list. -/
def pageAllocFinish (flags : BitVec 32) (pg0 : Option ℕ) (s : Mm) :
    Except Crash (Option ℕ × Mm) :=
  match pg0 with
  | none => throw .nullDeref
  | some pp => do
      if (s.pages pp).has alloc || (s.pages pp).has allocHuge then
        throw (.panic "page_alloc: PAGE TO ALLOC ALREADY MARKED ALLOC")
      let s ← markPoison s flags pp
      let s := s.modPage pp (PageInfo.set alloc)
      let s ← if flags &&& allocZero ≠ 0 then memsetPage s pp 0 else pure s
      pure (some pp, s)

/-- **`page_alloc(alloc_flags)`.** -/
def pageAlloc (s : Mm) (flags : BitVec 32) : Except Crash (Option ℕ × Mm) :=
  if s.pageFreeList = none then pure (none, s)
  else if flags &&& allocHuge ≠ 0 then pageAllocHuge s flags
  else if s.premappedFlag then do
    let (pg0, s) ← removeElement4MBPfl s
    pageAllocFinish flags pg0 s
  else do
    let (pg0, s) ← removeHeadPfl s
    pageAllocFinish flags (some pg0) s

/-! ### Release -/

/-- `poison_page(pp)`. -/
def poisonPage (s : Mm) (pp : ℕ) : Except Crash Mm := memsetPage s pp 1

/-- Poison the page and clear its mark, when it is marked. -/
def clearPoison (s : Mm) (pp : ℕ) : Except Crash Mm :=
  if (s.pages pp).has poisonAfterFree then do
    let s ← poisonPage s pp
    pure (s.modPage pp (PageInfo.flip poisonAfterFree))
  else pure s

/-- One round of the error check `page_free` makes on a huge block. -/
def checkHugeRound (s : Mm) (i : ℕ) : Except Crash Unit :=
  if ¬ (s.pages i).has alloc then
    throw (.panic "page_free huge: PAGE TO FREE NOT MARKED ALLOC")
  else if (s.pages i).ppRef ≠ 0 then
    throw (.panic " page_free huge: THE PAGE TO FREE IS STILL REFERENCED")
  else if (s.pages i).ppLink ≠ none then
    throw (.panic " page_free huge: THE PAGE TO FREE IS LINKED TO A FREE ELEMENT")
  else pure ()

/-- One round of the loop of `page_free` that returns the pages of a huge block. -/
def freeHugeRound (s : Mm) (i : ℕ) : Except Crash Mm := do
  let s ← clearPoison s i
  pure (addHeadPfl (s.modPage i (PageInfo.flip alloc)) i)

/-- **`page_free(pp)`.** -/
def pageFree (s : Mm) (pp : ℕ) : Except Crash Mm :=
  if (s.pages pp).ppRef ≠ 0 then throw (.panic " page_free: THE PAGE TO FREE IS STILL REFERENCED")
  else if (s.pages pp).ppLink ≠ none then
    throw (.panic " page_free: THE PAGE TO FREE IS LINKED TO A FREE ELEMENT")
  else if (s.pages pp).has allocHuge then do
    let idx := pgnum (page2pa pp)
    (List.range' idx kb).forM (checkHugeRound s)
    (List.range' idx kb).foldlM freeHugeRound (s.modPage idx (PageInfo.flip allocHuge))
  else do
    let s ← clearPoison s pp
    if (s.pages pp).has alloc then pure (addHeadPfl (s.modPage pp (PageInfo.flip alloc)) pp)
    else throw (.panic "page free: PAGE TO FREE MARKED AS NOT ALLOC")

/-- `page_decref(pp)`. -/
def pageDecref (s : Mm) (pp : ℕ) : Except Crash Mm :=
  let s := s.modPage pp fun p => { p with ppRef := p.ppRef - 1 }
  if (s.pages pp).ppRef = 0 then pageFree s pp else pure s

/-! ### Initialisation -/

-- `NTASKS`, `sizeof(struct tasklet)` (nine words), `sizeof(struct page_info)` (two pointers, a
-- padded 16-bit counter and a word of flags) and `CPR_LRU_SZ`.
def nTasks : ℕ := 100
def sizeofTasklet : ℕ := 36
def sizeofPageInfo : ℕ := 16
def cprLruSz : ℕ := 1

/-- `RESPGS`: frame 0 and the frames of the tasklets. -/
def resPgs : ℕ := 1 + (nTasks * sizeofTasklet + pgSize - 1) / pgSize

/-- `is_allocated_init(pp)`; `bootEnd` is the value of `boot_alloc(0)`. -/
def isAllocatedInit (npagesBasemem : ℕ) (bootEnd : BitVec 32) (pp : ℕ) : Except Crash Bool :=
  let pageA := page2pa pp
  if pageA < BitVec.ofNat 32 (npagesBasemem * pgSize) then pure false
  else if ioPhysMem ≤ pageA ∧ pageA < extPhysMem then pure true
  else if extPhysMem ≤ pageA then do
    let kernEnd ← paddr bootEnd
    pure (decide (pageA < kernEnd))
  else pure false

/-- `lru_init()`: the zswap pages are threaded on their own list, the others start empty. -/
def lruInit (s : Mm) : Mm :=
  let s := { s with lruLists := ⟨none, none, none, none, none, none⟩ }
  (List.range' resPgs cprLruSz).foldl (fun s i =>
    let s := if i = resPgs then { s with lruLists := { s.lruLists with tZswap := some i } } else s
    let s := s.modPage i fun p => { p with lruLink := s.lruLists.hZswap }
    { s with lruLists := { s.lruLists with hZswap := some i } }) s

/-- `pp_ref = 0; pp_link = NULL; page_flags = 0;`. -/
def PageInfo.reset (p : PageInfo) : PageInfo :=
  { p with ppRef := 0, ppLink := none, pageFlags := 0 }

/-- One round of the last loop of `page_init()`. -/
def pageInitRound (npagesBasemem : ℕ) (bootEnd : BitVec 32) (s : Mm) (i : ℕ) : Except Crash Mm := do
  let s := s.modPage i PageInfo.reset
  let used ← isAllocatedInit npagesBasemem bootEnd i
  pure (if used then s.modPage i (PageInfo.set alloc) else addHeadPfl s i)

/-- The globals of `kern/pmap.c` before `page_init()`: the array is zero and the list empty. -/
def Mm.boot (npages : ℕ) (hnp : npages ≤ 2 ^ 20) (premapped : Bool) (mem : ℕ → ℕ → BitVec 8) :
    Mm where
  npages := npages
  npages_le := hnp
  premappedFlag := premapped
  pages := fun _ => PageInfo.zero
  pageFreeList := none
  freePagesCount := 0
  lruLists := ⟨none, none, none, none, none, none⟩
  lruActiveCount := 0
  lruInactiveCount := 0
  mem := mem

/-- **`page_init()`.**  The tasklets it also sets up are not part of the allocator. -/
def pageInit (npagesBasemem : ℕ) (bootEnd : BitVec 32) (s : Mm) : Except Crash Mm :=
  let s := s.modPage 0 PageInfo.reset
  let s := (List.range' 1 (resPgs - 2)).foldl (fun s i => s.modPage i PageInfo.reset) s
  let s := lruInit s
  let first := resPgs + cprLruSz
  let last := s.npages - pgSize / sizeofPageInfo
  (List.range' first (last - first)).foldlM (pageInitRound npagesBasemem bootEnd) s

end Jos
