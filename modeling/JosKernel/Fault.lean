/-
**Page faults.**

The hardware's view of an address space and the part of `kern/trap.c` that fills it on demand: the
first access to a page of an area allocates it, the first access to an area of the program loads the
whole area from the kernel's image, a store to a page that is shared since a fork copies it, and
every other fault kills the environment.

A fault on a page that is in the swap area hands the entry over to `swap_in`, which is not part of
this model: here such a fault leaves memory alone.

Main definitions:

* `Jos.mmu` — the translation of an address, with its faults;
* `Jos.pageDedup` — the end of sharing;
* `Jos.regionAlloc`, `Jos.allocPageAfterFault` — demand paging;
* `Jos.Vm.pageFaultHandler` — the handler.
-/

import JosKernel.AddressSpace

set_option relaxedAutoImplicit false
set_option autoImplicit false

namespace Jos

/-! ### The translation of addresses -/

/-- What the hardware makes of an access: the frame, or a fault. -/
inductive Access
  | frame (f : ℕ) | notPresent | protection
  deriving DecidableEq, Repr

/-- An entry allows an access.  `CR0_WP` is set, so the kernel respects `PTE_W` too. -/
def allows (w : BitVec 32) (user write : Bool) : Bool :=
  (!user || isUser w) && (!write || isWritable w)

/-- **The translation of an address**, in user or in kernel mode. -/
def mmu (s : Vm) (e : ℕ) (va : BitVec 32) (user write : Bool) : Access :=
  match s.pgdir e with
  | none => .notPresent
  | some dir =>
      let pde := s.pte ⟨dir, pdx va⟩
      if ¬ isPresent pde then .notPresent
      else if isHuge pde then
        if allows pde user write then .frame (pgnum pde / kb * kb + ptx va) else .protection
      else
        let pte := s.pte ⟨pgnum pde, ptx va⟩
        if ¬ isPresent pte then .notPresent
        else if allows pde user write && allows pte user write then .frame (pgnum pte)
        else .protection

namespace Vm

/-- The byte at an offset of a frame. -/
def byte (s : Vm) (f o : ℕ) : BitVec 8 := s.mm.mem f o

/-- Write a byte of a frame. -/
def setByte (s : Vm) (f o : ℕ) (b : BitVec 8) : Vm :=
  { s with
    mm := { s.mm with mem := Function.update s.mm.mem f (Function.update (s.mm.mem f) o b) } }

end Vm

/-- A store of the kernel to an address of the environment. A fault here is a trap of the kernel
with `env_lock` held, at which `trap` panics. -/
def kernelStore (s : Vm) (e : ℕ) (va : BitVec 32) (b : BitVec 8) : Except Crash Vm :=
  match mmu s e va false true with
  | .frame f => pure (s.setByte f (pgoff va) b)
  | _ => throw (.panic "OMG")

/-- `memcpy(va, src, n)` and `memset(va, 0, n)` at addresses of the environment. -/
def kernelFill (s : Vm) (e : ℕ) (va : BitVec 32) (src : ℕ → BitVec 8) (n : ℕ) : Except Crash Vm :=
  (List.range n).foldlM (fun s k => kernelStore s e (va + BitVec.ofNat 32 k) (src k)) s

/-! ### Copy on write -/

/-- `memcpy(KADDR(page2pa(pgn)), KADDR(page2pa(pg)), PGSIZE)`. -/
def copyPage (s : Vm) (pgn pg : ℕ) : Except Crash Vm := do
  let _ ← kaddr s.mm.npages (page2pa pgn)
  let _ ← kaddr s.mm.npages (page2pa pg)
  pure { s with mm := { s.mm with mem := Function.update s.mm.mem pgn (s.mm.mem pg) } }

/-- **`page_dedup(e, va)`.** The flags of `pgdir_walk` stand in the calls of `page_alloc`:
`CREATE_NORMAL` is `ALLOC_ZERO` and `CREATE_HUGE` is `ALLOC_HUGE`. -/
def pageDedup (s : Vm) (e : ℕ) (va : BitVec 32) : Except Crash (Bool × Vm) := do
  let v ← vmaLookup (s.envs e) va
  let (pte, s) ← pgdirWalk s (s.pgdir e) va .normal
  match pte with
  | none => pure (false, s)
  | some pte => do
      let pg ← pa2page s.mm.npages (pteAddr (s.pte pte))
      if s.ref pg = 1 then pure (true, s.writePte pte va pg (s.pte pte ||| pteW))
      else if s.ref pg = 0 then throw (.panic "[KERN PANIC]page_dedup: page info ref is 0 or less!")
      else do
        let s := s.setRef pg (s.ref pg - 1)
        let (pgn, mm) ← pageAlloc s.mm (if isHuge (s.pte pte) then allocHuge else allocZero)
        let s := { s with mm := mm }
        match pgn, v with
        | none, _ => pure (false, s)
        | some _, none => throw .nullDeref
        | some pgn, some v => do
            let s ← copyPage s pgn pg
            let s := s.writePte pte va pgn (page2pa pgn ||| (s.vma e v).perm ||| pteP)
            pure (true, s.setRef pgn (s.ref pgn + 1))

/-! ### Demand paging -/

/-- `curenv->env_alloc_pages += n`. -/
def addPages (s : Vm) (e : ℕ) (n : BitVec 32) : Vm :=
  s.modSpace e fun sp => { sp with allocPages := sp.allocPages + n }

/-- One round of `region_alloc`. -/
def regionAllocRound (e : ℕ) (va perm : BitVec 32) (s : Vm) (i : ℕ) : Except Crash Vm := do
  let (p, mm) ← pageAlloc s.mm 0
  let s := { s with mm := mm }
  match p with
  | none => throw (.panic "region_alloc(): page_alloc failure, Binary is too big")
  | some p => do
      let (ok, s) ← pageInsert s (s.pgdir e) (some p) (pageAt va i) perm
      if ¬ ok then throw (.panic "region_alloc(): page_insert failure")
      pure (addPages { s with mm := lruHaInsert s.mm p } e 1)

/-- **`region_alloc(va, len, perm)`** in the environment `e`. -/
def regionAlloc (s : Vm) (e : ℕ) (va len perm : BitVec 32) : Except Crash Vm :=
  let vaPtr := roundDown va (BitVec.ofNat 32 pgSize)
  (List.range (pageCount (len + (va - vaPtr)))).foldlM (regionAllocRound e vaPtr perm) s

/-- How the handler leaves the environment. -/
inductive FaultEnd
  /-- It runs on and repeats the access. -/
  | resumed
  /-- It runs on, but `page_dedup` found no page. -/
  | dedupFailed
  /-- It has been destroyed. -/
  | killed
  /-- It sleeps, after `swap_in` or while another environment swaps the page in. -/
  | asleep
  deriving DecidableEq, Repr

/-- `kill_env(fault_va, tf)`. -/
def killEnv (s : Vm) (e : ℕ) : Except Crash (FaultEnd × Vm) := do
  let s ← envFreeVm s e
  pure (.killed, s)

/-- The branch of `alloc_page_after_fault` for an area of the program. -/
def loadBinary (s : Vm) (e v : ℕ) : Except Crash Vm := do
  let a := s.vma e v
  let s ← regionAlloc s e a.va a.len (a.perm ||| pteW)
  let s ← kernelFill s e (a.va + a.cpyDst) (fun k => s.image (a.cpySrc + BitVec.ofNat 32 k))
      a.srcSz.toNat
  let s ← if a.srcSz ≠ a.len ∧ a.perm ≠ 0 then
      kernelFill s e (a.va + a.cpyDst + a.srcSz) (fun _ => 0) (a.len - a.srcSz - a.cpyDst).toNat
    else pure s
  if ¬ isWritable a.perm then vmaChangePerm s e v a.perm else pure s

/-- The branch of `alloc_page_after_fault` for any other area. -/
def allocAnon (s : Vm) (e v : ℕ) (faultVa : BitVec 32) : Except Crash (FaultEnd × Vm) := do
  let a := s.vma e v
  let (pg, mm) ← pageAlloc s.mm (if a.hps then allocZero ||| allocHuge else allocZero)
  let s := { s with mm := mm }
  let s := match pg with
    | none => s
    | some pg =>
        if a.hps then addPages s e 1024
        else if roundDown faultVa (BitVec.ofNat 32 pgSize) ≠ uStackTop - BitVec.ofNat 32 pgSize then
          addPages { s with mm := lruHaInsert s.mm pg } e 1
        else addPages s e 1
  let (ok, s) ← pageInsert s (s.pgdir e) pg faultVa a.perm
  if ok then pure (.resumed, s) else killEnv s e

/-- **`alloc_page_after_fault(fault_va, tf)`.** -/
def allocPageAfterFault (s : Vm) (e : ℕ) (faultVa : BitVec 32) : Except Crash (FaultEnd × Vm) := do
  let v ← vmaLookup (s.envs e) faultVa
  match v with
  | none => killEnv s e
  | some v =>
      if (s.vma e v).type = .binary then do
        let s ← loadBinary s e v
        pure (.resumed, s)
      else allocAnon s e v faultVa

/-! ### The handler -/

/-- **`page_fault_handler(tf)`**, for the address in `CR2` and the bits of `tf_err` that tell a
fault in user mode and a violation of the protection of a page that is present. -/
def Vm.pageFaultHandler (s : Vm) (e : ℕ) (faultVa : BitVec 32) (user prot : Bool) :
    Except Crash (FaultEnd × Vm) := do
  if ¬ user ∧ uTop < faultVa then
    throw (.panic "[KERN_DEBUG] page_fault_handler(): kernel page fault!")
  if ¬ user ∧ ¬ prot then return ← allocPageAfterFault s e faultVa
  let pte ← pgdirFind s (s.pgdir e) faultVa
  if pte.any fun pte => isSwapped (s.pte pte) then pure (.asleep, s)
  else if ¬ prot then allocPageAfterFault s e faultVa
  else do
    let v ← vmaLookup (s.envs e) faultVa
    if v.any fun v => isWritable (s.vma e v).perm then do
      let (ok, s) ← pageDedup s e faultVa
      pure (if ok then .resumed else .dedupFailed, s)
    else killEnv s e

end Jos
