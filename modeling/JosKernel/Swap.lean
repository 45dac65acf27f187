/-
**Swapping.**

`page_out`, `page_in` and `find_swap_spot` of `kern/mm_pres.c`, the rounds that `ktask` makes with
them, `reclaim_pgs` with the search of `find_pte_all`, `swap_in` of `kern/trap.c`, and what happens
to the pages meanwhile: they are mapped, written by their owner, and freed.

Pages are mapped in page tables of environments, each by one entry, and all directories share the
entries at `KERNBASE`, where every page has one too. A page that several environments share is not
swapped out: `page_out` then looks for further entries until it follows a `NULL` pointer. Three
things are left open, so that every choice is covered: the free page that `page_alloc` returns; the
page that `reclaim_pgs` takes off the inactive list, which may be a free one, since `lru_remove_el`
leaves the head of a list where it is; and the words in a page of 4 MB, which `find_pte_all` reads
as if they were entries. The controller of the disk transfers the sectors of a request one after the
other, and the disk returns what was written last.

Main definitions:

* `Jos.PteId`, `Jos.Swap` — the entries, and the state;
* `Jos.Swap.findPteAll` — the search for the entry of a page;
* `Jos.findSwapSpot`, `Jos.pageOut`, `Jos.pageIn`, `Jos.swapRound`, `Jos.Swap.reclaim`,
  `Jos.Swap.swapIn` — the operations;
* `Jos.SwapOp`, `Jos.swapStep` — the transition system;
* `Jos.OwnerFirst` — the search comes to the entry of the page's owner first.

Main results:

* `Jos.findPteAll_eq_user_iff` — when the search finds the entry of the owner;
* `Jos.pgnum_swappedPte`, `Jos.isSwapped_swappedPte` — an entry that records a slot;
* `Jos.pgnum_broughtPte`, `Jos.isPresent_broughtPte` — an entry that is present again.
-/

import JosKernel.Env
import JosKernel.LabelledRun
import JosKernel.Outcome
import JosKernel.PageTree

set_option relaxedAutoImplicit false
set_option autoImplicit false

namespace Jos

/-! ### The state -/

-- `SECTSIZE` and `SIZE_SWAP_MAP`.
def sectSize : ℕ := 512
def sizeSwapMap : ℕ := 262144

/-- The number of pages below `UTOP`. -/
def envPages : ℕ := pdx uTop * 1024

/-- The number of pages at `KERNBASE`. -/
def kernPages : ℕ := 0x10000

/-- **An entry that `pgdir_walk` can lead to**: the one of the page `v` of the environment `e`, that
of a slot of its directory with a 4 MB page, and the one of the page `q` at `KERNBASE`. -/
inductive PteId
  | user (e v : ℕ)
  | big (e j : ℕ)
  | kern (q : ℕ)
  deriving DecidableEq, Repr

/-- The environment that an entry belongs to; all share those at `KERNBASE`. -/
def PteId.env : PteId → Option ℕ
  | .user e _ => some e
  | .big e _ => some e
  | .kern _ => none

/-- `struct tasklet`, with the entry that `requestor_env` and `fault_addr` lead to. -/
structure SwapTask where
  fptr : TaskletFn
  count : ℕ
  sectorStart : ℕ
  pi : ℕ
  entry : PteId
  deriving DecidableEq, Repr

/-- `struct page_info` as far as swapping goes: `pp_ref` and the flag `ALLOC`. -/
structure PageState where
  ref : ℕ
  alloc : Bool
  deriving DecidableEq, Repr

/-- **The state of the swap subsystem.** `live` tells which environments `find_pte_all` looks at,
`tables` which slots of a directory lead to a page table, and `ideNext` is the sector that the
controller transfers next. -/
structure Swap where
  live : ℕ → Bool
  tables : ℕ → ℕ → Bool
  ptes : PteId → BitVec 32
  pages : ℕ → PageState
  mem : ℕ → ℕ → BitVec 8
  disk : ℕ → ℕ → BitVec 8
  ideNext : ℕ
  swapMap : Bitmap
  tList : List SwapTask

namespace Swap

/-- Replace a page table entry. -/
def setPte (s : Swap) (k : PteId) (pte : BitVec 32) : Swap :=
  { s with ptes := Function.update s.ptes k pte }

/-- Replace the bookkeeping of a page. -/
def setPage (s : Swap) (pp : ℕ) (p : PageState) : Swap :=
  { s with pages := Function.update s.pages pp p }

/-- `ide_start_read(secno, ..)` and `ide_start_write(secno, ..)`. -/
def ideStart (s : Swap) (secno : ℕ) : Swap := { s with ideNext := secno }

/-- `ide_write_sector(src)`: the next sector gets the bytes of the page `pp` from `off` on. -/
def ideWriteSector (s : Swap) (pp off : ℕ) : Swap :=
  { s with disk := Function.update s.disk s.ideNext fun i => s.mem pp (off + i)
           ideNext := s.ideNext + 1 }

/-- `ide_read_sector(dst)`: the bytes of the page `pp` from `off` on get the next sector. -/
def ideReadSector (s : Swap) (pp off : ℕ) : Swap :=
  { s with mem := Function.update s.mem pp fun i =>
             if off ≤ i ∧ i < off + sectSize then s.disk s.ideNext (i - off) else s.mem pp i
           ideNext := s.ideNext + 1 }

/-- A byte of the page `pp` is written. -/
def storeByte (s : Swap) (pp off : ℕ) (v : BitVec 8) : Swap :=
  { s with mem := Function.update s.mem pp (Function.update (s.mem pp) off v) }

/-- `toggle_bit(swap_map, i)`. -/
def toggle (s : Swap) (i : ℕ) : Swap := { s with swapMap := toggleBit s.swapMap i }

theorem ptes_setPte (s : Swap) (k k' : PteId) (pte : BitVec 32) :
    (s.setPte k pte).ptes k' = if k' = k then pte else s.ptes k' :=
  Function.update_apply ..

end Swap

/-! ### Page table entries -/

/-- The entry of a page that `page_out` has written from the sector `slot` on. -/
def swappedPte (pte : BitVec 32) (slot : ℕ) : BitVec 32 :=
  let p := pte ^^^ pteP
  let p := p &&& 0xFFF#32
  let p := p ||| BitVec.ofNat 32 slot <<< 12
  let p := p ||| pteG
  if p &&& pteAvail ≠ 0 then p ^^^ pteAvail else p

/-- The entry of a page that `page_in` has read into the page `pp`. -/
def broughtPte (pte : BitVec 32) (pp : ℕ) : BitVec 32 :=
  let p := pte ^^^ pteG
  let p := if p &&& pteAvail ≠ 0 then p ^^^ pteAvail else p
  let p := p ||| pteP
  let p := p &&& 0xFFF#32
  p ||| page2pa pp

theorem isPresent_iff {pte : BitVec 32} : isPresent pte = true ↔ pte.getLsbD 0 = true := by
  have hmask : pteP = BitVec.twoPow 32 0 := by decide
  rw [isPresent, hmask, BitVec.and_twoPow, bne_iff_ne]
  cases pte.getLsbD 0 <;> decide

theorem isSwapped_iff {pte : BitVec 32} :
    isSwapped pte = true ↔ pte.getLsbD 0 = false ∧ pte.getLsbD 8 = true := by
  have hmask : pteG = BitVec.twoPow 32 8 := by decide
  rw [isSwapped, Bool.and_eq_true, Bool.not_eq_true', bne_iff_ne, hmask, BitVec.and_twoPow]
  have hp : isPresent pte = false ↔ pte.getLsbD 0 = false := by
    rw [← Bool.not_eq_true, isPresent_iff, Bool.not_eq_true]
  rw [hp]
  have hbit : (if pte.getLsbD 8 = true then BitVec.twoPow 32 8 else 0#32) ≠ 0 ↔
      pte.getLsbD 8 = true := by
    cases pte.getLsbD 8 <;> decide
  rw [hbit]

/-- The frame number of an entry depends on its upper bits only. -/
theorem pgnum_congr {a b : BitVec 32} (h : ∀ i, 12 ≤ i → a.getLsbD i = b.getLsbD i) :
    pgnum a = pgnum b := by
  rw [pgnum, pgnum, pgShift]
  congr 1
  apply BitVec.eq_of_getLsbD_eq
  intro i _
  rw [BitVec.getLsbD_ushiftRight, BitVec.getLsbD_ushiftRight]
  exact h (12 + i) (by omega)

/-- The upper bits of a word of flags are clear. -/
theorem getLsbD_flags {m : BitVec 32} (hm : m.toNat < 2 ^ 12) {i : ℕ} (hi : 12 ≤ i) :
    m.getLsbD i = false := by
  rw [BitVec.getLsbD]
  exact Nat.testBit_lt_two_pow (Nat.lt_of_lt_of_le hm (Nat.pow_le_pow_right (by decide) hi))

/-- **An entry that records a slot** leads back to it. -/
theorem pgnum_swappedPte (pte : BitVec 32) {slot : ℕ} (hslot : slot < 2 ^ 20) :
    pgnum (swappedPte pte slot) = slot := by
  have hbits : ∀ i, 12 ≤ i → (swappedPte pte slot).getLsbD i = (page2pa slot).getLsbD i := by
    intro i hi
    have hlow := getLsbD_flags (show (0xFFF#32).toNat < 2 ^ 12 by decide) hi
    have hg := getLsbD_flags (show pteG.toNat < 2 ^ 12 by decide) hi
    have hav := getLsbD_flags (show pteAvail.toNat < 2 ^ 12 by decide) hi
    unfold swappedPte
    dsimp only
    split
    · rw [BitVec.getLsbD_xor, BitVec.getLsbD_or, BitVec.getLsbD_or,
        BitVec.getLsbD_and, hlow, hg, hav]
      simp [page2pa, pgShift]
    · rw [BitVec.getLsbD_or, BitVec.getLsbD_or, BitVec.getLsbD_and, hlow, hg]
      simp [page2pa, pgShift]
  rw [pgnum_congr hbits, pgnum_page2pa, Nat.mod_eq_of_lt hslot]

theorem isSwapped_swappedPte {pte : BitVec 32} (hp : isPresent pte = true) (slot : ℕ) :
    isSwapped (swappedPte pte slot) = true := by
  rw [isPresent_iff] at hp
  rw [isSwapped_iff]
  unfold swappedPte
  dsimp only
  split
  · simp [hp, pteP, pteG, pteAvail]
  · simp [hp, pteP, pteG]

/-- **An entry that is present again** leads to the new page. -/
theorem pgnum_broughtPte (pte : BitVec 32) {pp : ℕ} (hpp : pp < 2 ^ 20) :
    pgnum (broughtPte pte pp) = pp := by
  have hbits : ∀ i, 12 ≤ i → (broughtPte pte pp).getLsbD i = (page2pa pp).getLsbD i := by
    intro i hi
    have hlow := getLsbD_flags (show (0xFFF#32).toNat < 2 ^ 12 by decide) hi
    unfold broughtPte
    dsimp only
    rw [BitVec.getLsbD_or, BitVec.getLsbD_and, hlow]
    simp
  rw [pgnum_congr hbits, pgnum_page2pa, Nat.mod_eq_of_lt hpp]

theorem isPresent_broughtPte (pte : BitVec 32) (pp : ℕ) : isPresent (broughtPte pte pp) = true := by
  rw [isPresent_iff]
  unfold broughtPte
  simp [pteP]

theorem isPresent_insertPte (pp : ℕ) (perm : BitVec 12) :
    isPresent (page2pa pp ||| perm.setWidth 32 ||| pteP) = true := by
  rw [isPresent_iff, BitVec.getLsbD_or]
  simp [pteP]

/-- An entry keeps its slot and stays absent when it is marked as being swapped in. -/
theorem pgnum_or_avail (pte : BitVec 32) : pgnum (pte ||| pteAvail) = pgnum pte := by
  refine pgnum_congr fun i hi => ?_
  rw [BitVec.getLsbD_or, getLsbD_flags (show pteAvail.toNat < 2 ^ 12 by decide) hi, Bool.or_false]

theorem isSwapped_or_avail {pte : BitVec 32} (h : isSwapped pte = true) :
    isSwapped (pte ||| pteAvail) = true := by
  rw [isSwapped_iff] at h ⊢
  rw [BitVec.getLsbD_or, BitVec.getLsbD_or, h.1, h.2]
  exact ⟨by decide, by decide⟩

theorem or_avail_ne_zero (pte : BitVec 32) : (pte ||| pteAvail) &&& pteAvail ≠ 0 := by
  intro h
  have hnine := congrArg (fun b : BitVec 32 => b.getLsbD 9) h
  simp [pteAvail] at hnine

/-! ### Tasklets -/

/-- `find_swap_spot()`. -/
def findSwapSpot (swapMap : Bitmap) : ℕ :=
  ((List.range' 1 (sizeSwapMap - 1)).find? fun i => !getBit swapMap i).getD 0

/-- The last round of `page_out(t)`. -/
def pageOutFinish (s : Swap) (t : SwapTask) : Except Crash Swap :=
  let page := s.pages t.pi
  if page.ref = 0 then
    -- the page has been freed while it was swapped out
    if page.alloc then throw (.panic "page out finished but page with ref")
    else pure (s.toggle t.sectorStart)
  else if 1 < page.ref then
    -- `pp_ref` does not change in the loop over the other entries, which ends at a `NULL` one
    throw .nullDeref
  else if page.alloc = false then throw (.panic "page free: PAGE TO FREE MARKED AS NOT ALLOC")
  else
    pure ((s.setPte t.entry (swappedPte (s.ptes t.entry) t.sectorStart)).setPage t.pi
      { page with ref := 0, alloc := false })

/-- The sector that `page_out(t)` starts from, chosen in its first round. -/
def outSpot (s : Swap) (t : SwapTask) : ℕ :=
  if t.count = 0 then findSwapSpot s.swapMap else t.sectorStart

/-- The first round of a tasklet starts a request at the sector `spot`. -/
def Swap.startAt (s : Swap) (t : SwapTask) (spot : ℕ) : Swap :=
  if t.count = 0 then s.ideStart spot else s

/-- A round of `page_out(t)`; the answer tells whether the work is done. -/
def pageOut (s : Swap) (t : SwapTask) (ready : Bool) : Except Crash (Swap × SwapTask × Bool) :=
  let spot := outSpot s t
  let s := s.startAt t spot
  let t := { t with sectorStart := spot }
  if t.count < nSectors then
    if ready then
      let s := s.ideWriteSector t.pi (t.count * sectSize)
      pure (s.toggle (t.sectorStart + t.count), { t with count := t.count + 1 }, false)
    else pure (s, t, false)
  else do
    let s ← pageOutFinish s t
    pure (s, t, true)

/-- The last round of `page_in(t)`.  `swap_in` has set all bits of `PTE_AVAIL`, so the loop over the
entries that share the page is never reached. -/
def pageInFinish (s : Swap) (t : SwapTask) : Swap :=
  let page := s.pages t.pi
  (s.setPage t.pi { page with ref := page.ref + 1 }).setPte t.entry
    (broughtPte (s.ptes t.entry) t.pi)

/-- A round of `page_in(t)`; the answer tells whether the work is done. -/
def pageIn (s : Swap) (t : SwapTask) (ready : Bool) : Swap × SwapTask × Bool :=
  let s := s.startAt t t.sectorStart
  if t.count < nSectors then
    if ready then
      let s := s.ideReadSector t.pi (t.count * sectSize)
      (s.toggle (t.sectorStart + t.count), { t with count := t.count + 1 }, false)
    else (s, t, false)
  else (pageInFinish s t, t, true)

/-- A round of `ktask()`: the first tasklet of the list gets its turn and leaves the list when it is
done. -/
def swapRound (s : Swap) (ready : Bool) : Except Crash Swap :=
  match s.tList with
  | [] => pure s
  | t :: rest => do
      let (s, t, done) ← match t.fptr with
        | .pageOut => pageOut s t ready
        | .pageIn => pure (pageIn s t ready)
      pure { s with tList := if done then rest else t :: rest }

/-! ### The search for an entry -/

/-- `*pte & PTE_P && PTE_ADDR(*pte) == page2pa(pp)`. -/
def mapsPage (w : BitVec 32) (pp : ℕ) : Bool := isPresent w && pteAddr w == page2pa pp

namespace Swap

/-- What the slot `j` of the directory of `e` leads to. The slot `decoy` has a page of 4 MB with a
word in it that looks like an entry of the page; at its address `pgdir_walk` finds the entry of the
4 MB page. -/
def findPteSlot (s : Swap) (pp : ℕ) (decoy : Option (ℕ × ℕ)) (e j : ℕ) : Option PteId :=
  if decoy = some (e, j) then some (.big e j)
  else if s.tables e j then
    ((List.range' (j * 1024) 1024).find? fun v => mapsPage (s.ptes (.user e v)) pp).map
    (PteId.user e)
  else none

/-- The directory of `e`: the slots below `UTOP`, and the pages at `KERNBASE`. The slots between
them lead to pages of the kernel. -/
def findPteEnv (s : Swap) (pp : ℕ) (decoy : Option (ℕ × ℕ)) (e : ℕ) : Option PteId :=
  ((List.range' 0 (pdx uTop)).findSome? (s.findPteSlot pp decoy e)).or
    (((List.range' 0 kernPages).find? fun q => mapsPage (s.ptes (.kern q)) pp).map PteId.kern)

/-- **`find_pte_all(pp, ..)`**: the first environment that is looked at and has an entry for the
page. -/
def findPteAll (s : Swap) (pp : ℕ) (decoy : Option (ℕ × ℕ)) : Option PteId :=
  (List.range' nKThreads (nEnv - nKThreads)).findSome? fun e =>
    if s.live e then s.findPteEnv pp decoy e else none

end Swap

/-! ### What happens to pages -/

/-- `reclaim_pgs` with the page `pp` from the inactive list: a `page_out` is queued at the entry
that `find_pte_all` finds. A page without an entry, or with one at the address 0, is a panic, and
without a free tasklet the page goes back to the list. -/
def Swap.reclaim (s : Swap) (pp : ℕ) (decoy : Option (ℕ × ℕ)) : Except Crash Swap :=
  if s.tList.length < nTasklets then
    match s.findPteAll pp decoy with
    | none => throw (.panic "OMG env %x fva: %x lookingfor: %x")
    | some (.user _ 0) => throw (.panic "OMG env %x fva: %x lookingfor: %x")
    | some k => pure { s with tList := s.tList ++ [⟨.pageOut, 0, 0, pp, k⟩] }
  else pure s

/-- `swap_in` for the entry `k`, with the page `pp` that it gets from `page_alloc`.  Without a free
tasklet the environment goes to sleep. -/
def Swap.swapIn (s : Swap) (k : PteId) (pp : ℕ) : Swap :=
  if s.tList.length < nTasklets then
    let slot := pgnum (s.ptes k)
    let s := s.setPte k (s.ptes k ||| pteAvail)
    let s := s.setPage pp { s.pages pp with alloc := true }
    { s with tList := s.tList ++ [⟨.pageIn, 0, slot, pp, k⟩] }
  else s

/-- `page_remove` of the page of the entry `k`. -/
def Swap.remove (s : Swap) (k : PteId) : Except Crash Swap :=
  let pp := pgnum (s.ptes k)
  let page := s.pages pp
  if page.ref = 0 then throw (.panic "page_remove: PAGE REF COUNT ALREADY 0, IT'S: %d pte: %x")
  else if page.ref = 1 then
    if page.alloc then pure ((s.setPage pp ⟨0, false⟩).setPte k 0)
    else throw (.panic "page free: PAGE TO FREE MARKED AS NOT ALLOC")
  else pure ((s.setPage pp { page with ref := page.ref - 1 }).setPte k 0)

/-- `page_insert` of the new page `pp`, filled with zeros, as the page `v` of the environment `e`
after a fault in an anonymous area. -/
def Swap.insert (s : Swap) (e v pp : ℕ) (perm : BitVec 12) : Swap :=
  let s := s.setPage pp ⟨1, true⟩
  let s := { s with mem := Function.update s.mem pp fun _ => 0
                    tables := Function.update s.tables e
                      (Function.update (s.tables e) (v / 1024) true) }
  s.setPte (.user e v) (page2pa pp ||| perm.setWidth 32 ||| pteP)

/-! ### The transition system -/

/-- What can happen to the pages. -/
inductive SwapOp
  /-- A page is allocated and mapped. -/
  | map (e v pp : ℕ) (perm : BitVec 12)
  /-- The owner stores a byte. -/
  | store (e v off : ℕ) (b : BitVec 8)
  /-- The page `pp` is taken off the inactive list. -/
  | reclaim (pp : ℕ) (decoy : Option (ℕ × ℕ))
  /-- A fault on an entry that records a slot. -/
  | fault (e v pp : ℕ)
  /-- A round of `ktask`, with the answer of the disk. -/
  | round (ready : Bool)
  /-- The page is removed. -/
  | free (e v : ℕ)
  /-- A page of 4 MB comes or goes; what is in its frames is not followed. -/
  | big (e j : ℕ) (pde : BitVec 32)
  /-- An environment begins or ends to be one that `find_pte_all` looks at. -/
  | live (e : ℕ) (b : Bool)
  deriving DecidableEq, Repr

/-- A page that `page_alloc` can hand out. -/
def Swap.available (s : Swap) (pp : ℕ) : Prop :=
  pp < 2 ^ 20 ∧ (s.pages pp).alloc = false ∧ (s.pages pp).ref = 0

/-- When something can happen. A store through an entry that is not present or not writable is a
page fault; only entries that are not being swapped in are. -/
def SwapOp.Enabled (s : Swap) : SwapOp → Prop
  | .map e v pp perm => s.ptes (.user e v) = 0 ∧ s.ptes (.big e (v / 1024)) = 0 ∧ s.available pp ∧
      perm.getLsbD 0 = false
  | .store e v off _ =>
      isPresent (s.ptes (.user e v)) ∧ s.ptes (.user e v) &&& pteW ≠ 0 ∧ off < pgSize
  | .reclaim pp decoy => pp < 2 ^ 20 ∧ ∀ d ∈ decoy, isPresent (s.ptes (.big d.1 d.2))
  | .fault e v pp =>
      isSwapped (s.ptes (.user e v)) ∧ s.ptes (.user e v) &&& pteAvail = 0 ∧ s.available pp
  | .round _ => True
  | .free e v => isPresent (s.ptes (.user e v))
  | .big e j pde => s.tables e j = false ∧ (pde = 0 ∨ isPresent pde)
  | .live _ _ => True

/-- What happens. -/
def SwapOp.exec (s : Swap) : SwapOp → Except Crash Swap
  | .map e v pp perm => pure (s.insert e v pp perm)
  | .store e v off b => pure (s.storeByte (pgnum (s.ptes (.user e v))) off b)
  | .reclaim pp decoy => s.reclaim pp decoy
  | .fault e v pp => pure (s.swapIn (.user e v) pp)
  | .round ready => swapRound s ready
  | .free e v => s.remove (.user e v)
  | .big e j pde => pure (s.setPte (.big e j) pde)
  | .live e b => pure { s with live := Function.update s.live e b }

instance (s : Swap) (pp : ℕ) : Decidable (s.available pp) := inferInstanceAs (Decidable (_ ∧ _ ∧ _))

instance SwapOp.decidableEnabled (s : Swap) : (op : SwapOp) → Decidable (op.Enabled s)
  | .map _ _ _ _ => inferInstanceAs (Decidable (_ ∧ _ ∧ _ ∧ _))
  | .store _ _ _ _ => inferInstanceAs (Decidable (_ ∧ _ ∧ _))
  | .reclaim _ decoy => inferInstanceAs (Decidable (_ ∧ ∀ _ ∈ decoy, _))
  | .fault _ _ _ => inferInstanceAs (Decidable (_ ∧ _ ∧ _))
  | .round _ => inferInstanceAs (Decidable True)
  | .free _ _ => inferInstanceAs (Decidable (_ = _))
  | .big _ _ _ => inferInstanceAs (Decidable (_ ∧ (_ ∨ _)))
  | .live _ _ => inferInstanceAs (Decidable True)

/-- **A step of the swap subsystem.** -/
def swapStep (s : Swap) (op : SwapOp) (t : Swap) : Prop :=
  op.Enabled s ∧ op.exec s = Except.ok t

/-- The same, as a function. -/
def swapNext (s : Swap) (op : SwapOp) : Option Swap :=
  if op.Enabled s then (op.exec s).toOption else none

theorem swapStep_of_next {s t : Swap} {op : SwapOp} (h : swapNext s op = some t) :
    swapStep s op t := by
  unfold swapNext at h
  split at h
  · rename_i hen
    refine ⟨hen, ?_⟩
    exact Outcome.ok_of_toOption h
  · exact absurd h (by simp)

/-- The words at boot: every page has its entry at `KERNBASE`. -/
def PteId.boot : PteId → BitVec 32
  | .kern q => if q < kernPages then page2pa q ||| pteW ||| pteP else 0
  | _ => 0

/-- Nothing is mapped below `UTOP`, and nothing is swapped. -/
def Swap.boot (pages : ℕ → PageState) (mem disk : ℕ → ℕ → BitVec 8) : Swap where
  live := fun _ => false
  tables := fun _ _ => false
  ptes := PteId.boot
  pages := pages
  mem := mem
  disk := disk
  ideNext := 0
  swapMap := Bitmap.empty
  tList := []

/-! ### What the search finds -/

theorem pgnum_of_mapsPage {w : BitVec 32} {pp : ℕ} (hpp : pp < 2 ^ 20) (h : mapsPage w pp = true) :
    isPresent w = true ∧ pgnum w = pp := by
  rw [mapsPage, Bool.and_eq_true, beq_iff_eq, pteAddr_eq_page2pa_iff hpp] at h
  exact h

/-- **The search comes to the entry of the page's owner first**: no environment before the owner is
looked at, for it would have the page at `KERNBASE`, and in the directory of the owner nothing
before the entry looks like one of the page. -/
structure OwnerFirst (s : Swap) (e v pp : ℕ) (decoy : Option (ℕ × ℕ)) : Prop where
  env : nKThreads ≤ e ∧ e < nEnv
  page : v < envPages
  live : s.live e = true
  before : ∀ e', nKThreads ≤ e' → e' < e → s.live e' = false
  table : s.tables e (v / 1024) = true
  maps : mapsPage (s.ptes (.user e v)) pp = true
  first : ∀ v' < v, s.tables e (v' / 1024) = true → mapsPage (s.ptes (.user e v')) pp = false
  decoy : ∀ j ≤ v / 1024, decoy ≠ some (e, j)

/-- A search through numbers finds the first with an answer. -/
theorem findSome?_range'_eq_some {β : Type} {f : ℕ → Option β} {b : β} (n : ℕ) : ∀ a : ℕ,
    (List.range' a n).findSome? f = some b ↔
      ∃ i, a ≤ i ∧ i < a + n ∧ f i = some b ∧ ∀ j, a ≤ j → j < i → f j = none := by
  induction n with
  | zero =>
      intro a
      simp only [List.range'_zero, List.findSome?_nil, reduceCtorEq, false_iff]
      rintro ⟨i, hlo, hhi, -⟩
      omega
  | succ n ih =>
      intro a
      rw [List.range'_succ, List.findSome?_cons]
      cases hfa : f a with
      | some b' =>
          constructor
          · intro h
            exact ⟨a, le_rfl, by omega, hfa.trans h, fun j hlo hhi => by omega⟩
          · rintro ⟨i, hlo, -, hfi, hbefore⟩
            rcases Nat.lt_or_eq_of_le hlo with hlt | rfl
            · rw [hbefore a le_rfl hlt] at hfa
              exact nomatch hfa
            · exact hfa.symm.trans hfi
      | none =>
          dsimp only
          rw [ih (a + 1)]
          constructor
          · rintro ⟨i, hlo, hhi, hfi, hbefore⟩
            refine ⟨i, by omega, by omega, hfi, fun j hj hji => ?_⟩
            rcases Nat.lt_or_eq_of_le hj with hlt | rfl
            · exact hbefore j hlt hji
            · exact hfa
          · rintro ⟨i, hlo, hhi, hfi, hbefore⟩
            rcases Nat.lt_or_eq_of_le hlo with hlt | rfl
            · exact ⟨i, hlt, by omega, hfi, fun j hj hji => hbefore j (by omega) hji⟩
            · rw [hfa] at hfi
              exact nomatch hfi

section

variable {s : Swap} {e v pp : ℕ} {decoy : Option (ℕ × ℕ)}

/-- **A slot of a directory** in which the search finds the entry of a page. -/
theorem findPteSlot_eq_user {j e' : ℕ} : s.findPteSlot pp decoy e j = some (.user e' v) ↔
    e' = e ∧ decoy ≠ some (e, j) ∧ s.tables e j = true ∧ v / 1024 = j ∧
      mapsPage (s.ptes (.user e v)) pp = true ∧
      ∀ v' < v, v' / 1024 = j → mapsPage (s.ptes (.user e v')) pp = false := by
  unfold Swap.findPteSlot
  split
  · rename_i hdecoy
    simp [hdecoy]
  · rename_i hdecoy
    split
    · rename_i htable
      simp only [Option.map_eq_some_iff, PteId.user.injEq, List.find?_range'_eq_some,
        List.mem_range'_1, Bool.not_eq_true']
      constructor
      · rintro ⟨v, ⟨hmaps, hrange, hbefore⟩, rfl, rfl⟩
        exact ⟨rfl, hdecoy, htable, by omega, hmaps, fun v' hv' hj => hbefore v' (by omega) hv'⟩
      · rintro ⟨rfl, -, -, hj, hmaps, hbefore⟩
        exact ⟨v, ⟨hmaps, by omega, fun v' hlo hhi => hbefore v' hhi (by omega)⟩, rfl, rfl⟩
    · rename_i htable
      simp [htable]

/-- A slot in which the search finds nothing. -/
theorem findPteSlot_eq_none {j : ℕ} : s.findPteSlot pp decoy e j = none ↔
    decoy ≠ some (e, j) ∧ (s.tables e j = true → ∀ v, v / 1024 = j →
      mapsPage (s.ptes (.user e v)) pp = false) := by
  unfold Swap.findPteSlot
  split
  · rename_i hdecoy
    simp [hdecoy]
  · rename_i hdecoy
    split
    · rename_i htable
      simp only [Option.map_eq_none_iff, List.find?_range'_eq_none, Bool.not_eq_true']
      exact ⟨fun h => ⟨hdecoy, fun _ v hv => h v (by omega) (by omega)⟩, fun h v hlo hhi =>
        h.2 htable v (by omega)⟩
    · rename_i htable
      simp [hdecoy, htable]

/-- The search comes to no environment behind one that has the page at `KERNBASE`. -/
theorem findPteEnv_ne_none (hkern : pp < kernPages ∧ mapsPage (s.ptes (.kern pp)) pp = true) :
    s.findPteEnv pp decoy e ≠ none := by
  intro h
  rw [Swap.findPteEnv, Option.or_eq_none_iff, Option.map_eq_none_iff, List.find?_range'_eq_none]
    at h
  have hnot := h.2 pp (Nat.zero_le pp) (by omega)
  rw [hkern.2] at hnot
  exact nomatch hnot

theorem slot_lt_iff {v : ℕ} : v / 1024 < pdx uTop ↔ v < envPages :=
  Nat.div_lt_iff_lt_mul (by decide)

/-- **A directory** in which the search finds the entry of a page. -/
theorem findPteEnv_eq_user {e' : ℕ} : s.findPteEnv pp decoy e = some (.user e' v) ↔
    e' = e ∧ v < envPages ∧ s.tables e (v / 1024) = true ∧ mapsPage (s.ptes (.user e v)) pp = true ∧
      (∀ v' < v, s.tables e (v' / 1024) = true → mapsPage (s.ptes (.user e v')) pp = false) ∧
      ∀ j ≤ v / 1024, decoy ≠ some (e, j) := by
  have hkern : ((List.range' 0 kernPages).find? fun q => mapsPage (s.ptes (.kern q)) pp).map
      PteId.kern ≠
      some (.user e' v) := by
    simp
  rw [Swap.findPteEnv, Option.or_eq_some_iff, or_iff_left (fun h => hkern h.2),
    findSome?_range'_eq_some]
  constructor
  · rintro ⟨j, -, hj, hslot, hbefore⟩
    obtain ⟨rfl, hdecoy, htable, rfl, hmaps, hfirst⟩ := findPteSlot_eq_user.1 hslot
    refine ⟨rfl, slot_lt_iff.1 (by omega), htable, hmaps, fun v' hv' htable' => ?_, fun j' hj' =>
      ?_⟩
    · rcases Nat.lt_or_eq_of_le (Nat.div_le_div_right (c := 1024) hv'.le) with hlt | heq
      · exact (findPteSlot_eq_none.1 (hbefore (v' / 1024) (Nat.zero_le _) hlt)).2 htable' v' rfl
      · exact hfirst v' hv' heq
    · rcases Nat.lt_or_eq_of_le hj' with hlt | rfl
      · exact (findPteSlot_eq_none.1 (hbefore j' (Nat.zero_le _) hlt)).1
      · exact hdecoy
  · rintro ⟨rfl, hpage, htable, hmaps, hfirst, hdecoy⟩
    have hslot := slot_lt_iff.2 hpage
    refine ⟨v / 1024, Nat.zero_le _, by omega, ?_, fun j _ hj => ?_⟩
    · exact findPteSlot_eq_user.2 ⟨rfl, hdecoy _ le_rfl, htable, rfl, hmaps, fun v' hv' heq =>
        hfirst v' hv' (heq ▸ htable)⟩
    · refine findPteSlot_eq_none.2 ⟨hdecoy j hj.le, fun htable' v' hv' => ?_⟩
      subst hv'
      exact hfirst v' (by omega) htable'

/-- The search finds the entry of the owner if it comes to it first. -/
theorem OwnerFirst.findPteAll (h : OwnerFirst s e v pp decoy) :
    s.findPteAll pp decoy = some (.user e v) := by
  refine (findSome?_range'_eq_some _ _).2 ⟨e, h.env.1, ?_, ?_, fun e' hlo hhi => ?_⟩
  · have hthreads : nKThreads + (nEnv - nKThreads) = nEnv := rfl
    have hlt := h.env.2
    omega
  · rw [if_pos h.live]
    exact findPteEnv_eq_user.2 ⟨rfl, h.page, h.table, h.maps, h.first, h.decoy⟩
  · rw [if_neg (by rw [h.before e' hlo hhi]; exact Bool.false_ne_true)]

/-- **When the search finds the entry of the owner** of a page that is mapped at `KERNBASE`: the
owner is the first environment that is looked at. -/
theorem findPteAll_eq_user_iff (hkern : pp < kernPages ∧ mapsPage (s.ptes (.kern pp)) pp = true) :
    s.findPteAll pp decoy = some (.user e v) ↔ OwnerFirst s e v pp decoy := by
  refine ⟨fun h => ?_, OwnerFirst.findPteAll⟩
  obtain ⟨i, hlo, hhi, hfound, hbefore⟩ := (findSome?_range'_eq_some _ _).1 h
  split at hfound
  · rename_i hlive
    obtain ⟨rfl, hpage, htable, hmaps, hfirst, hdecoy⟩ := findPteEnv_eq_user.1 hfound
    have hthreads : nKThreads + (nEnv - nKThreads) = nEnv := rfl
    refine ⟨⟨hlo, by omega⟩, hpage, hlive, fun e' hlo' hlt => ?_, htable, hmaps, hfirst, hdecoy⟩
    by_contra hlive'
    have hnone := hbefore e' hlo' hlt
    rw [if_pos (Bool.eq_true_of_not_eq_false hlive')] at hnone
    exact findPteEnv_ne_none hkern hnone
  · exact nomatch hfound

end

/-- What the search finds is an entry of the page, unless it is misled by a page of 4 MB. -/
theorem mapsPage_findPteAll {s : Swap} {pp : ℕ} {decoy : Option (ℕ × ℕ)} {k : PteId}
    (h : s.findPteAll pp decoy = some k) (hsmall : ∀ e j, k ≠ .big e j) :
    mapsPage (s.ptes k) pp = true := by
  obtain ⟨i, -, -, hfound, -⟩ := (findSome?_range'_eq_some _ _).1 h
  split at hfound
  · cases k with
    | user e v =>
        obtain ⟨rfl, -, -, hmaps, -⟩ := findPteEnv_eq_user.1 hfound
        exact hmaps
    | big e j => exact absurd rfl (hsmall e j)
    | kern q =>
        rw [Swap.findPteEnv, Option.or_eq_some_iff] at hfound
        rcases hfound with hslot | ⟨-, hkern⟩
        · obtain ⟨j, -, -, hslot, -⟩ := (findSome?_range'_eq_some _ _).1 hslot
          unfold Swap.findPteSlot at hslot
          split at hslot
          · exact nomatch hslot
          · split at hslot
            · simp at hslot
            · exact nomatch hslot
        · obtain ⟨q', hq', hkq⟩ := Option.map_eq_some_iff.1 hkern
          obtain rfl := PteId.kern.inj hkq
          exact @List.find?_some _ (fun q => mapsPage (s.ptes (.kern q)) pp) _ _ hq'
  · exact nomatch hfound

/-- Without a page of 4 MB the search is not misled. -/
theorem findPteAll_none_ne_big (s : Swap) (pp e j : ℕ) :
    s.findPteAll pp none ≠ some (.big e j) := by
  intro h
  obtain ⟨i, -, -, hfound, -⟩ := (findSome?_range'_eq_some _ _).1 h
  split at hfound
  · rw [Swap.findPteEnv, Option.or_eq_some_iff] at hfound
    rcases hfound with hslot | ⟨-, hkern⟩
    · obtain ⟨j', -, -, hslot, -⟩ := (findSome?_range'_eq_some _ _).1 hslot
      unfold Swap.findPteSlot at hslot
      rw [if_neg (by simp)] at hslot
      split at hslot <;> simp at hslot
    · simp at hkern
  · exact nomatch hfound

/-! ### Queueing and removing -/

/-- `reclaim_pgs` queues a tasklet, if there is a free one. -/
theorem reclaim_cases {s s' : Swap} {pp : ℕ} {decoy : Option (ℕ × ℕ)}
    (hr : s.reclaim pp decoy = Except.ok s') :
    (nTasklets ≤ s.tList.length ∧ s' = s) ∨ (s.tList.length < nTasklets ∧
      ∃ k, s.findPteAll pp decoy = some k ∧
        s' = { s with tList := s.tList ++ [⟨.pageOut, 0, 0, pp, k⟩] }) := by
  unfold Swap.reclaim at hr
  split at hr
  · rename_i hroom
    refine Or.inr ⟨hroom, ?_⟩
    split at hr
    · exact nomatch hr
    · exact nomatch hr
    · rename_i k _ hfound
      exact ⟨k, hfound, (Except.ok.inj hr).symm⟩
  · rename_i hfull
    exact Or.inl ⟨Nat.le_of_not_lt hfull, (Except.ok.inj hr).symm⟩

/-- What `page_remove` does when it returns. -/
theorem remove_cases {s s' : Swap} {k : PteId} (hr : s.remove k = Except.ok s') :
    (s.pages (pgnum (s.ptes k))).ref ≠ 0 ∧
      ∃ page, s' = (s.setPage (pgnum (s.ptes k)) page).setPte k 0 := by
  unfold Swap.remove at hr
  dsimp only at hr
  split at hr
  · exact nomatch hr
  · rename_i href
    refine ⟨href, ?_⟩
    split at hr
    · split at hr
      · exact ⟨_, (Except.ok.inj hr).symm⟩
      · exact nomatch hr
    · exact ⟨_, (Except.ok.inj hr).symm⟩

/-! ### The search for a free slot -/

/-- What `find_swap_spot` finds: the first bit that is clear, or 0. -/
theorem findSwapSpot_spec (m : Bitmap) :
    (findSwapSpot m = 0 ∧ ∀ i, 1 ≤ i → i < sizeSwapMap → getBit m i = true) ∨
      (1 ≤ findSwapSpot m ∧ findSwapSpot m < sizeSwapMap ∧ getBit m (findSwapSpot m) = false ∧
        ∀ i, 1 ≤ i → i < findSwapSpot m → getBit m i = true) := by
  have hpos : 0 < sizeSwapMap := by decide
  unfold findSwapSpot
  cases hfind : (List.range' 1 (sizeSwapMap - 1)).find? fun i => !getBit m i with
  | none =>
      have hall := List.find?_range'_eq_none.1 hfind
      refine Or.inl ⟨rfl, fun i hlo hhi => ?_⟩
      simpa using hall i hlo (by omega)
  | some spot =>
      obtain ⟨hbit, hmem, hbefore⟩ := List.find?_range'_eq_some.1 hfind
      have hlt := (List.mem_range'_1.1 hmem).2
      rw [Option.getD_some]
      refine Or.inr ⟨(List.mem_range'_1.1 hmem).1, by omega, by simpa using hbit, fun i hlo hhi =>
        ?_⟩
      simpa using hbefore i hlo hhi

theorem findSwapSpot_lt (m : Bitmap) : findSwapSpot m < 2 ^ 20 := by
  have hsize : sizeSwapMap < 2 ^ 20 := by decide
  rcases findSwapSpot_spec m with ⟨hz, -⟩ | ⟨-, hlt, -, -⟩ <;> omega

/-! ### Rounds -/

/-- Starting a request changes nothing but the position of the controller. -/
theorem Swap.startAt_frame (s : Swap) (t : SwapTask) (spot : ℕ) :
    (s.startAt t spot).ptes = s.ptes ∧ (s.startAt t spot).pages = s.pages ∧
      (s.startAt t spot).mem = s.mem ∧ (s.startAt t spot).disk = s.disk ∧
      (s.startAt t spot).swapMap = s.swapMap := by
  unfold Swap.startAt
  split <;> exact ⟨rfl, rfl, rfl, rfl, rfl⟩

/-- The controller is at the sector that comes next. -/
theorem Swap.startAt_next {s : Swap} {t : SwapTask} {spot : ℕ}
    (h : 0 < t.count → s.ideNext = spot + t.count) :
    (s.startAt t spot).ideNext = spot + t.count := by
  unfold Swap.startAt
  split
  · rename_i hzero
    rw [hzero]
    rfl
  · exact h (by omega)

/-- **What a round does**: nothing, or one sector is written, or the page is out; or one sector is
read, or the page is in. -/
theorem swapRound_cases {s s' : Swap} {ready : Bool} (hr : swapRound s ready = Except.ok s') :
    (s.tList = [] ∧ s' = s) ∨ ∃ t rest, s.tList = t :: rest ∧
      ((t.fptr = .pageOut ∧ t.count < nSectors ∧
          (s' = { s.startAt t (outSpot s t) with
                  tList := { t with sectorStart := outSpot s t } :: rest } ∨
            s' = { ((s.startAt t (outSpot s t)).ideWriteSector t.pi (t.count * sectSize)).toggle
                     (outSpot s t + t.count) with
                   tList := { t with sectorStart := outSpot s t, count := t.count + 1 } ::
                     rest })) ∨
        (t.fptr = .pageOut ∧ nSectors ≤ t.count ∧
          ∃ s₁, pageOutFinish s t = Except.ok s₁ ∧ s' = { s₁ with tList := rest }) ∨
        (t.fptr = .pageIn ∧ t.count < nSectors ∧
          (s' = { s.startAt t t.sectorStart with tList := t :: rest } ∨
            s' = { ((s.startAt t t.sectorStart).ideReadSector t.pi (t.count * sectSize)).toggle
                     (t.sectorStart + t.count) with
                   tList := { t with count := t.count + 1 } :: rest })) ∨
        (t.fptr = .pageIn ∧ nSectors ≤ t.count ∧
          s' = { pageInFinish s t with tList := rest })) := by
  unfold swapRound at hr
  cases htl : s.tList with
  | nil =>
      rw [htl] at hr
      exact Or.inl ⟨rfl, (Except.ok.inj hr).symm⟩
  | cons t rest =>
      rw [htl] at hr
      refine Or.inr ⟨t, rest, rfl, ?_⟩
      have hstart : ∀ spot, nSectors ≤ t.count → s.startAt t spot = s := by
        intro spot hcount
        have hpos : t.count ≠ 0 := by
          intro hz
          rw [hz] at hcount
          exact absurd hcount (by decide)
        rw [Swap.startAt, if_neg hpos]
      have hfptr : t.fptr = .pageOut ∨ t.fptr = .pageIn := by
        cases t.fptr with
        | pageOut => exact Or.inl rfl
        | pageIn => exact Or.inr rfl
      rcases hfptr with hf | hf
      · simp only [hf] at hr
        obtain ⟨⟨s₁, t₁, done⟩, hout, hr⟩ := bind_eq_ok.1 hr
        obtain rfl := Except.ok.inj hr
        unfold pageOut at hout
        dsimp only at hout
        by_cases hcount : t.count < nSectors
        · rw [if_pos hcount] at hout
          refine Or.inl ⟨hf, hcount, ?_⟩
          cases ready with
          | true =>
              rw [if_pos rfl] at hout
              obtain ⟨rfl, htail⟩ := Prod.mk.inj (Except.ok.inj hout)
              obtain ⟨rfl, rfl⟩ := Prod.mk.inj htail
              exact Or.inr rfl
          | false =>
              rw [if_neg (by simp)] at hout
              obtain ⟨rfl, htail⟩ := Prod.mk.inj (Except.ok.inj hout)
              obtain ⟨rfl, rfl⟩ := Prod.mk.inj htail
              exact Or.inl rfl
        · rw [if_neg hcount] at hout
          obtain ⟨s₂, hfin, hout⟩ := bind_eq_ok.1 hout
          obtain ⟨rfl, htail⟩ := Prod.mk.inj (Except.ok.inj hout)
          obtain ⟨rfl, rfl⟩ := Prod.mk.inj htail
          refine Or.inr (Or.inl ⟨hf, by omega, s₂, ?_, rfl⟩)
          have hspot : outSpot s t = t.sectorStart := by
            rw [outSpot, if_neg]
            intro hz
            rw [hz] at hcount
            exact hcount (by decide)
          rw [hstart _ (by omega), hspot] at hfin
          exact hfin
      · simp only [hf] at hr
        obtain rfl := Except.ok.inj hr
        unfold pageIn
        dsimp only
        by_cases hcount : t.count < nSectors
        · rw [if_pos hcount]
          refine Or.inr (Or.inr (Or.inl ⟨hf, hcount, ?_⟩))
          cases ready with
          | true => exact Or.inr rfl
          | false => exact Or.inl rfl
        · rw [if_neg hcount, hstart _ (by omega)]
          exact Or.inr (Or.inr (Or.inr ⟨hf, by omega, rfl⟩))

/-- The two ways in which `page_out` ends. -/
theorem pageOutFinish_cases {s s' : Swap} {t : SwapTask} (hr : pageOutFinish s t = Except.ok s') :
    ((s.pages t.pi).ref = 0 ∧ (s.pages t.pi).alloc = false ∧ s' = s.toggle t.sectorStart) ∨
      ((s.pages t.pi).ref = 1 ∧ (s.pages t.pi).alloc = true ∧
        s' = (s.setPte t.entry (swappedPte (s.ptes t.entry) t.sectorStart)).setPage t.pi
          { s.pages t.pi with ref := 0, alloc := false }) := by
  unfold pageOutFinish at hr
  dsimp only at hr
  split at hr
  · rename_i hzero
    split at hr
    · exact absurd hr (by simp [throw, throwThe, MonadExceptOf.throw])
    · rename_i halloc
      exact Or.inl ⟨hzero, by simpa using halloc, (Except.ok.inj hr).symm⟩
  · rename_i hpos
    split at hr
    · exact absurd hr (by simp [throw, throwThe, MonadExceptOf.throw])
    · rename_i hone
      split at hr
      · exact absurd hr (by simp [throw, throwThe, MonadExceptOf.throw])
      · rename_i halloc
        exact Or.inr ⟨by omega, by simpa using halloc, (Except.ok.inj hr).symm⟩

end Jos
