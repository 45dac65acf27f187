/-
**System calls and page faults, with their locks.**

`syscall` of `kern/syscall.c` and `page_fault_handler` of `kern/trap.c`, as one processor executes
them: what they do to the table of environments and to virtual memory is what the other modules say,
and here the spinlocks come with it. A lock that another processor holds is waited for, so that only
the locks this processor holds matter.

A message of the kernel takes `console_lock`. It matters where the lock may be held: in the keyboard
driver, which `sys_cgetc` polls, and in the handler of page faults, which the kernel comes to when a
string of `sys_cputs` is not mapped. Elsewhere the lock is free, and messages are left out.

Main definitions:

* `Jos.Lock`, `Jos.KState`, `Jos.Stop` — the locks, the state and how a call ends without coming
  back;
* `Jos.Kern.cprintf` — a message of the kernel;
* `Jos.Kern.pageFaultHandler`, `Jos.Kern.kernelFault` — the handler of page faults;
* `Jos.Kern.syscall` — the system calls;
* `Jos.vmaFindSpot` — the search for a free range of addresses.
-/

import JosKernel.AddressSpace
import JosKernel.ConsoleInput
import JosKernel.Printfmt
import JosKernel.Sched

set_option relaxedAutoImplicit false
set_option autoImplicit false

namespace Jos

/-! ### The state -/

/-- The spinlocks. -/
inductive Lock
  | env | pagealloc | task | console
  deriving DecidableEq, Repr

/-- How a call ends without returning to its caller. -/
inductive Stop
  | crash (c : Crash)
  /-- The panic of `spin_lock`. -/
  | alreadyHolding (l : Lock)
  /-- The panic of `spin_unlock`. -/
  | notHolding (l : Lock)
  /-- The processor runs another environment, or halts. -/
  | left
  /-- The machine is reset. -/
  | rebooted
  deriving DecidableEq, Repr

/-- `struct trapframe`: the register that carries results, and the rest. -/
structure Trapframe where
  eax : BitVec 32
  rest : List (BitVec 32)
  deriving DecidableEq, Repr

/-- **What a processor works on in the kernel**, with the locks that it holds itself. `serialIn` and
`kbdIn` are the bytes that wait at the serial port and at the keyboard, and `consOut` the characters
that were printed for programs. -/
structure KState where
  vm : Vm
  kern : Kernel
  held : Lock → Bool
  tfs : ℕ → Trapframe
  console : Console
  serialIn : List (BitVec 8)
  kbdIn : List (BitVec 8)
  consOut : List (BitVec 32)

/-- A piece of kernel code. -/
abbrev Kern (α : Type) : Type := StateT KState (Except Stop) α

/-- `flags` of `sys_vma_create`: `MAP_POPULATE` and `MAP_HUGEPAGES`. -/
def mapPopulate : BitVec 32 := 1
def mapHugepages : BitVec 32 := 2

/-! ### A free range of addresses -/

/-- The loop of `vma_find_spot`, at the area `temp`. The limit is compared with `spot + size` while
`spot` is still -1. -/
def findSpotFrom (sp : Space) (size : BitVec 32) : ℕ → ℕ → BitVec 32 → Except Crash (BitVec 32)
  | 0, _, _ => throw .diverges
  | fuel + 1, temp, totalArea =>
      let totalArea := totalArea + (sp.vmas temp).len
      match sp.link temp with
      | none => pure (-1)
      | some next =>
          let gap := (sp.vmas next).va - (sp.vmas temp).va + (sp.vmas temp).len
          if size < gap then
            if uTop - 0x00800000#32 - totalArea < -1 + size then pure (-1)
            else pure ((sp.vmas temp).va + (sp.vmas temp).len)
          else findSpotFrom sp size fuel next totalArea

/-- **`vma_find_spot(size, &vma_at_zero, &total_area)`.** The case without a gap behind the loop
tests the pointer `vma_at_zero`, which is not `NULL`. -/
def vmaFindSpot (sp : Space) (size : BitVec 32) : Except Crash (BitVec 32) :=
  match sp.allocVmaList with
  | none => throw .nullDeref
  | some temp => if size < (sp.vmas temp).va then pure 0 else findSpotFrom sp size nVma temp 0

/-! ### Marking a page that is being swapped in -/

/-- The loop of `seek_pte` from the entry `i` of the directory `d` on. -/
def seekPteFrom (s : Vm) (w : BitVec 32) (d : ℕ) : ℕ → ℕ → Except Crash (Option PtePtr)
  | 0, _ => pure none
  | n + 1, i =>
      if isPresent (s.pte ⟨d, i⟩) then do
        let pt := pgnum (s.pte ⟨d, i⟩)
        let _ ← kaddr s.mm.npages (pteAddr (s.pte ⟨d, i⟩))
        match (List.range nPdEntries).find? fun j => s.pte ⟨pt, j⟩ == w with
        | some j => pure (some ⟨pt, j⟩)
        | none => seekPteFrom s w d n (i + 1)
      else seekPteFrom s w d n (i + 1)

/-- The round of `swap_in` for the environment `i`: the entry that looks like `*pte` is marked. -/
def markRound (kern : Kernel) (pte : PtePtr) (s : Vm) (i : ℕ) : Except Crash Vm :=
  if searched kern i then
    match s.pgdir i with
    | none => throw .nullDeref
    | some d => do
        match ← seekPteFrom s (s.pte pte) d nPdEntries 0 with
        | none => pure s
        | some p => pure (s.setPte p (s.pte p ||| pteAvail))
  else pure s

/-! ### Demand paging -/

/-- The branch of `alloc_page_after_fault` for an anonymous area, up to the result of
`page_insert`. -/
def demandPage (s : Vm) (e v : ℕ) (faultVa : BitVec 32) : Except Crash (Bool × Vm) := do
  let a := s.vma e v
  let (pg, mm) ← pageAlloc s.mm (if a.hps then allocZero ||| allocHuge else allocZero)
  let s := { s with mm := mm }
  let s := match pg with
    | none => s
    | some pg =>
        if a.hps then addPages s e 1024
        else if roundDown faultVa (BitVec.ofNat 32 pgSize) ≠ uStackTop - BitVec.ofNat 32 pgSize then
          addPages { s with mm := lruHaInsert s.mm pg } e 1
        else addPages s e 1
  pageInsert s (s.pgdir e) pg faultVa a.perm

/-- It is the first half of what the handler does to memory. -/
theorem allocAnon_eq (s : Vm) (e v : ℕ) (faultVa : BitVec 32) : allocAnon s e v faultVa =
    (demandPage s e v faultVa >>= fun r => if r.1 then pure (.resumed, r.2)
      else killEnv r.2 e) := by
  unfold allocAnon demandPage
  dsimp only
  cases pageAlloc s.mm (if (s.vma e v).hps = true then allocZero ||| allocHuge else allocZero) with
  | error a => rfl
  | ok r => rfl

namespace Kern

variable {α : Type}

/-! ### Steps -/

/-- Code that only reads virtual memory. -/
def readVm (f : Vm → Except Crash α) : Kern α := fun s =>
  match f s.vm with
  | .ok a => .ok (a, s)
  | .error e => .error (.crash e)

/-- Code that works on virtual memory. -/
def onVm (f : Vm → Except Crash (α × Vm)) : Kern α := fun s =>
  match f s.vm with
  | .ok (a, vm) => .ok (a, { s with vm := vm })
  | .error e => .error (.crash e)

/-- Code without a result that works on virtual memory. -/
def inVm (f : Vm → Except Crash Vm) : Kern Unit := onVm fun vm => do
  let vm ← f vm
  pure ((), vm)

/-- Code that works on the table of environments. -/
def onKernel (f : Kernel → Kernel) : Kern Unit := modify fun s => { s with kern := f s.kern }

/-- A panic, a failed assertion or a wild access. -/
def fail (c : Crash) : Kern α := throw (.crash c)

/-- **`spin_lock(lk)`.** -/
def spinLock (l : Lock) : Kern Unit := fun s =>
  if s.held l then .error (.alreadyHolding l) else .ok ((),
    { s with held := Function.update s.held l true })

/-- **`spin_unlock(lk)`.** -/
def spinUnlock (l : Lock) : Kern Unit := fun s =>
  if s.held l then .ok ((), { s with held := Function.update s.held l false })
    else .error (.notHolding l)

/-- **A message of the kernel**: `cprintf(...)` holds `console_lock` while it prints. -/
def cprintf : Kern Unit := do
  spinLock .console
  spinUnlock .console

/-- `assert_lock_env()` and `assert_lock_pagealloc()`. -/
def assertLock (l : Lock) : Kern Unit := do
  let s ← get
  if s.held l then pure () else fail (.assertFailed "lock.locked && lock.cpu == thiscpu")

/-- `sched_yield()`, which ends in `env_run`, in `sched_halt` or in the monitor. -/
def schedYield : Kern Unit := do
  assertLock .env
  throw .left

/-! ### Environments -/

/-- `env_free(e)` on processor `c`. -/
def envFree (c e : ℕ) : Kern Unit := do
  assertLock .env
  assertLock .pagealloc
  inVm fun vm => envFreeVm vm e
  onKernel fun kern => Jos.envFree kern c e

/-- **`env_destroy(e)`.** -/
def envDestroy (c e : ℕ) : Kern Unit := do
  assertLock .env
  let s ← get
  if s.kern.status e = .running ∧ s.kern.curenv c ≠ some e then
    onKernel fun kern => kern.setStatus e .dying
  else do
    spinLock .pagealloc
    envFree c e
    spinUnlock .pagealloc
    if s.kern.curenv c = some e then do
      onKernel fun kern => kern.setCurenv c none
      schedYield
    else pure ()

/-- **`env_dup(parent)`**; 0 is a failure. A slot whose page directory cannot be set up stays
free. -/
def envDup (parent : ℕ) : Kern (BitVec 32) := do
  let s ← get
  match s.kern.envFreeList with
  | [] => pure 0
  | child :: _ => do
      let ok ← onVm fun vm => envSetupVm vm child
      if ¬ ok then return 0
      onKernel fun kern =>
        match Jos.envAlloc kern (kern.envs parent).envId (kern.envs parent).type with
        | none => kern
        | some (_, kern) => kern
      inVm fun vm => pure (vm.modSpace child fun sp =>
        { sp with allocPages := (vm.envs parent).allocPages })
      let ok ← onVm fun vm => envCpyVmas vm child parent
      if ¬ ok then return 0
      modify fun s =>
        let tfs := Function.update s.tfs child { s.tfs parent with eax := 0 }
        { s with
          tfs := Function.update tfs parent
            { s.tfs parent with eax := (s.kern.envs child).envId } }
      let ok ← onVm fun vm => envCpyPgdirCow vm child parent
      if ¬ ok then return 0
      onKernel fun kern => invalidateEnvTs kern parent
      schedYield
      let s ← get
      return (s.kern.envs child).envId

/-! ### Areas -/

/-- **`vma_split_lookup(curenv, va, size, vma_remove)`.** When `vma_remove_alloced` fails,
`pagealloc_lock` is released twice. -/
def vmaSplitLookup (cur : ℕ) (va size : BitVec 32) (vmaRemove : Bool) : Kern (Option ℕ) := do
  assertLock .env
  let vmad ← readVm fun vm => vmaLookup (vm.envs cur) va
  match vmad with
  | none => pure none
  | some vmad => do
      let s ← get
      let v := s.vm.vma cur vmad
      if ¬ vmaConsistencyCheck v v.type then fail (.panic
        "[VMA] vma_split_lookup(): vma consistency check failed")
      else if v.hps then pure none
      else if v.type ≠ .anon then pure none
      else if ¬ vmaSizeCheck va size v then pure none
      else do
        if vmaRemove then do
          spinLock .pagealloc
          let ok ← onVm fun vm => vmaRemoveAlloced vm cur vmad true
          if ¬ ok then spinUnlock .pagealloc
          spinUnlock .pagealloc
        inVm fun vm => vmaSplitParts vm cur vmad v va size vmaRemove
        pure (some vmad)

/-! ### Page faults -/

/-- `kill_env(fault_va, tf)`. -/
def killEnv (c cur : ℕ) : Kern Unit := do
  cprintf
  assertLock .env
  envDestroy c cur

/-- **`alloc_page_after_fault(fault_va, tf)`.** Where the environment is killed, `pagealloc_lock`
has been released before the `unlock_pagealloc` at the end. -/
def allocPageAfterFault (c cur : ℕ) (faultVa : BitVec 32) : Kern Unit := do
  spinLock .pagealloc
  let v ← readVm fun vm => vmaLookup (vm.envs cur) faultVa
  match v with
  | none => do
      cprintf
      spinUnlock .pagealloc
      killEnv c cur
  | some v => do
      cprintf
      let s ← get
      if (s.vm.vma cur v).type = .binary then inVm fun vm => loadBinary vm cur v
      else do
        let ok ← onVm fun vm => demandPage vm cur v faultVa
        if ¬ ok then
          cprintf
          spinUnlock .pagealloc
          killEnv c cur
  spinUnlock .pagealloc

/-- **`swap_in(fault_va, pte)`.** -/
def swapIn (cur : ℕ) (pte : PtePtr) : Kern Unit := do
  onKernel fun kern => kern.setStatus cur .sleeping
  spinLock .task
  let s ← get
  if s.kern.tList.length < nTasklets then do
    inVm fun vm => (List.range' nKThreads (nEnv - nKThreads)).foldlM (markRound s.kern pte) vm
    cprintf
    spinLock .pagealloc
    let pg ← onVm fun vm => do
      let (pg, mm) ← pageAlloc vm.mm 0
      pure (pg, { vm with mm := mm })
    spinUnlock .pagealloc
    if pg.isNone then fail (.panic "[KERN] swap_in(): Tried to swap in a page, but alloc failed!")
    cprintf
    onKernel fun kern => { kern with tList := kern.tList ++ [taskFor kern .pageIn cur] }
    spinUnlock .task
  else do
    onKernel fun kern => sleepOnDrc kern cur
    spinUnlock .task
    schedYield

/-- **`page_fault_handler(tf)`**, for the address in `CR2` and the two bits of `tf_err`. -/
def pageFaultHandler (c cur : ℕ) (faultVa : BitVec 32) (user prot : Bool) : Kern Unit := do
  assertLock .env
  if ¬ user ∧ uTop < faultVa then
    cprintf
    fail (.panic "[KERN_DEBUG] page_fault_handler(): kernel page fault!")
  if ¬ user ∧ ¬ prot then
    allocPageAfterFault c cur faultVa
    return
  let pte ← readVm fun vm => pgdirFind vm (vm.pgdir cur) faultVa
  let s ← get
  match pte.filter fun pte => isSwapped (s.vm.pte pte) with
  | some pte => do
      cprintf
      if s.vm.pte pte &&& pteAvail = 0 then swapIn cur pte
      else onKernel fun kern => sleepOnDrc kern cur
  | none =>
      if ¬ prot then allocPageAfterFault c cur faultVa
      else do
        let v ← readVm fun vm => vmaLookup (vm.envs cur) faultVa
        if v.any fun v => isWritable (s.vm.vma cur v).perm then do
          spinLock .pagealloc
          let ok ← onVm fun vm => pageDedup vm cur faultVa
          if ¬ ok then cprintf
          spinUnlock .pagealloc
        else do
          cprintf
          killEnv c cur

/-- **The kernel faults** when it reads at `va`, without `env_lock`: `trap` comes to the handler,
and leaves for an environment in the end. -/
def kernelFault (c cur : ℕ) (va : BitVec 32) : Kern Unit := do
  spinLock .env
  pageFaultHandler c cur va false false
  spinUnlock .env
  spinLock .env
  throw .left

/-! ### System calls -/

/-- `user_mem_assert(curenv, va, len, perm)`. -/
def userMemAssert (c cur : ℕ) (va len perm : BitVec 32) : Kern Unit := do
  spinLock .pagealloc
  let ret ← readVm fun vm => userMemCheck vm cur va len (perm ||| pteU)
  spinUnlock .pagealloc
  if ret.isSome then do
    spinLock .env
    envDestroy c cur

/-- **`sys_cputs(s, len)`.**  The string is read while `console_lock` is held. -/
def sysCputs (c cur : ℕ) (str len : BitVec 32) : Kern Unit := do
  userMemAssert c cur str len pteU
  spinLock .console
  let s ← get
  match vprintfmt (kernelLoad s.vm cur) "%.*s" [len, str] with
  | .error (.fault va) => kernelFault c cur va
  | .error .endless => fail .diverges
  | .ok out => do
      set { s with consOut := s.consOut ++ out }
      spinUnlock .console

/-- `serial_intr()`, for the bytes that wait at the serial port. -/
def serialIntr : Kern Unit := modify fun s =>
  { s with
    console := s.console.serialIntr s.serialIn
    serialIn := if s.console.serialExists then [] else s.serialIn }

/-- **`kbd_intr()`**, for the bytes that wait at the keyboard. At Ctrl-Alt-Del a message is printed
and the machine is reset. -/
def kbdIntr : List (BitVec 8) → Kern Unit
  | [] => modify fun s => { s with kbdIn := [] }
  | data :: ds => do
      let s ← get
      if (kbdProcData s.console.shift data).reboot then do
        cprintf
        throw .rebooted
      else do
        set { s with console := s.console.kbdIntr [data] }
        kbdIntr ds

/-- **`sys_cgetc()`**: `cons_getc` polls the devices while `console_lock` is held. -/
def sysCgetc : Kern (BitVec 32) := do
  spinLock .console
  serialIntr
  let s ← get
  kbdIntr s.kbdIn
  let s ← get
  set { s with console := { s.console with cons := s.console.cons.get.2 } }
  spinUnlock .console
  pure (s.console.cons.get.1.setWidth 32)

/-- `sys_getenvid()`. -/
def sysGetenvid (cur : ℕ) : Kern (BitVec 32) := do
  spinLock .env
  let s ← get
  spinUnlock .env
  pure (s.kern.envs cur).envId

/-- **`sys_env_destroy(envid)`.** -/
def sysEnvDestroy (c : ℕ) (envid : BitVec 32) : Kern (BitVec 32) := do
  spinLock .env
  let s ← get
  match envid2env s.kern c envid true with
  | none => do
      spinUnlock .env
      pure (-2)
  | some e => do
      envDestroy c e
      spinUnlock .env
      pure 0

/-- The end of `sys_vma_create` with `MAP_POPULATE`; the answer is false if there is no memory. -/
def populate (cur : ℕ) (va size perm : BitVec 32) (hp : Bool) : Kern Bool := do
  spinLock .pagealloc
  let ok ← onVm fun vm => vmaPopulate vm cur va size perm hp
  spinUnlock .pagealloc
  pure ok

/-- **`sys_vma_create(size, perm, flags)`.** Neither `spot < 0` nor `flags & 0x1 & 0x2` can be
true. -/
def sysVmaCreate (cur : ℕ) (size perm flags : BitVec 32) : Kern (BitVec 32) := do
  spinLock .env
  if flags &&& mapHugepages ≠ 0 ∧ size % BitVec.ofNat 32 (pgSize * kb) ≠ 0 then
    spinUnlock .env
    return -1
  let spot ← readVm fun vm => vmaFindSpot (vm.envs cur) size
  let new ← onVm fun vm => vm.onSpace cur fun sp => vmaNew sp spot size .anon 0 0 0 (perm ||| pteU)
  match new with
  | .made new => do
      let huge : Kern Unit := inVm fun vm =>
        pure (vm.modSpace cur fun sp => sp.modVma new fun v => { v with hps := true })
      if flags &&& mapPopulate ≠ 0 ∧ flags &&& mapHugepages = 0 then
        if ¬ (← populate cur spot size perm false) then
          spinUnlock .env
          return -1
      else if flags &&& mapPopulate &&& mapHugepages ≠ 0 then
        if ¬ (← populate cur spot size perm true) then
          spinUnlock .env
          return -1
        huge
      else if flags &&& mapHugepages ≠ 0 then huge
      spinUnlock .env
      pure spot
  | _ => do
      spinUnlock .env
      pure (-1)

/-- **`sys_vma_destroy(va, size)`.** The area is looked at before the test for `NULL`, which is in
`vma_split_lookup`. -/
def sysVmaDestroy (cur : ℕ) (va size : BitVec 32) : Kern (BitVec 32) := do
  spinLock .env
  let v ← readVm fun vm => vmaLookup (vm.envs cur) va
  match v with
  | none => fail .nullDeref
  | some v => do
      let s ← get
      let v := s.vm.vma cur v
      if v.hps ∧ (v.len ≠ size ∨ v.va ≠ va) then
        spinUnlock .env
        return -1
      match ← vmaSplitLookup cur va size true with
      | none => do
          spinUnlock .env
          pure (-1)
      | some _ => do
          spinUnlock .env
          pure 0

/-- `sys_wait(envid)`. -/
def sysWait (c cur : ℕ) (envid : BitVec 32) : Kern (BitVec 32) := do
  spinLock .env
  let s ← get
  match envid2env s.kern c envid false with
  | none => do
      spinUnlock .env
      pure (-1)
  | some _ => do
      onKernel fun kern => kern.modEnv cur fun e => { e with waitId := envid, status := .sleeping }
      schedYield
      pure 0

/-- `sys_yield()`. -/
def sysYield (cur : ℕ) : Kern Unit := do
  onKernel fun kern => invalidateEnvTs kern cur
  spinLock .env
  schedYield

/-- **`sys_fork()`.** The lock is not released after a child was made: `env_dup` does not return
then. -/
def sysFork (cur : ℕ) : Kern (BitVec 32) := do
  spinLock .env
  let childId ← envDup cur
  if childId = 0 then
    spinUnlock .env
    return -1
  pure childId

/-- **`sys_vma_protect(va, size, perm)`.** -/
def sysVmaProtect (cur : ℕ) (va size perm : BitVec 32) : Kern (BitVec 32) := do
  spinLock .env
  let v ← readVm fun vm => vmaLookup (vm.envs cur) va
  match v with
  | none => do
      spinUnlock .env
      pure 0
  | some v => do
      let s ← get
      if (s.vm.vma cur v).perm = perm then
        spinUnlock .env
        return 1
      match ← vmaSplitLookup cur va size false with
      | none => do
          spinUnlock .env
          pure 0
      | some v => do
          inVm fun vm => vmaChangePerm vm cur v perm
          let ok ← onVm fun vm => vmaListMerge vm cur
          spinUnlock .env
          pure (if ok then 1 else 0)

/-- **`sys_vma_advise(va, size, attr)`.**  The first return does not release the lock. -/
def sysVmaAdvise (cur : ℕ) (va size attr : BitVec 32) : Kern (BitVec 32) := do
  spinLock .env
  let v ← readVm fun vm => vmaLookup (vm.envs cur) va
  match v with
  | none => pure 0
  | some v => do
      let s ← get
      let v := s.vm.vma cur v
      if ¬ vmaSizeCheck va size v then
        spinUnlock .env
        return 0
      if attr = 0 then
        if ¬ v.hps then
          spinLock .pagealloc
          inVm fun vm => vmaRemovePages vm cur va size
          spinUnlock .pagealloc
      if attr = 1 then
        spinLock .pagealloc
        let _ ← onVm fun vm => vmaPopulate vm cur va size v.perm v.hps
        spinUnlock .pagealloc
      spinUnlock .env
      pure 1

/-- **`syscall(syscallno, a1, a2, a3, a4, a5)`** for the environment `cur` of processor `c`. The
case of `SYS_yield` falls through to that of `SYS_wait`. -/
def syscall (c cur : ℕ) (syscallno a1 a2 a3 _a4 _a5 : BitVec 32) : Kern (BitVec 32) :=
  match syscallno.toNat with
  | 0 => do
      sysCputs c cur a1 a2
      pure 0
  | 1 => sysCgetc
  | 2 => sysGetenvid cur
  | 3 => sysEnvDestroy c a1
  | 4 => sysVmaCreate cur a1 a2 a3
  | 5 => sysVmaDestroy cur a1 a2
  | 6 => sysVmaProtect cur a1 a2 a3
  | 7 => sysVmaAdvise cur a1 a2 a3
  | 8 => do
      sysYield cur
      sysWait c cur a1
  | 9 => sysWait c cur a1
  | 10 => sysFork cur
  | _ => pure (-7)

end Kern

end Jos
