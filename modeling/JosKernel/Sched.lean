/-
**The scheduler and the traps.**

`kern/sched.c`, the outline of `trap`, `trap_dispatch` and `page_fault_handler` in `kern/trap.c`,
the system calls that touch the environment table, and the rounds of the kernel threads, as steps
that one processor takes while it holds `env_lock`.

What a step does with page tables, the disk and the clock does not matter for who runs where; it
enters as part of the label: which trap was taken and how a page fault was resolved, the time stamp
counter, whether memory is short and which pages are then queued for swapping.

Main definitions:

* `Jos.runnableEnvLookup`, `Jos.resumeEnv`, `Jos.checkWork`, `Jos.schedPick`, `Jos.schedYield`,
  `Jos.schedHalt` — the scheduler;
* `Jos.envDestroy`, `Jos.sysWait`, `Jos.envDup`, `Jos.swapIn`, `Jos.ktask` — what can change a
  status;
* `Jos.Label`, `Jos.enter`, `Jos.kernelStep` — the transition system: the code up to the call of
  `sched_yield`, and the whole step.
-/

import JosKernel.Env
import JosKernel.LabelledRun

set_option relaxedAutoImplicit false
set_option autoImplicit false

namespace Jos

/-! ### Inputs of a step -/

/-- What `check_work` finds: enough free pages, or memory pressure, with the environments whose
pages `reclaim_pgs` takes off the inactive list. -/
inductive Work
  | resume
  | reclaim (requestors : List ℕ)
  deriving DecidableEq, Repr

/-- The time stamp counter, read up to twice, and what the two calls of `check_work` find. -/
structure SchedInput where
  tick : BitVec 64
  tickAgain : BitVec 64
  work : Work
  workHalt : Work
  deriving DecidableEq, Repr

/-! ### Time slices -/

/-- `calulate_delta(tick, last_tick)`. -/
def calculateDelta (tick lastTick : BitVec 64) : BitVec 64 :=
  if tick > lastTick then tick - lastTick else tick + (0 - lastTick)

/-- `invalidate_env_ts(e)`. -/
def invalidateEnvTs (s : Kernel) (x : ℕ) : Kernel :=
  s.modEnv x fun e => { e with timeSlice := tsDefault * 2 }

/-- The time since `last_tick` is taken off the slice of the environment `x`. -/
def chargeSlice (s : Kernel) (x : ℕ) (tick : BitVec 64) : Kernel :=
  let delta := calculateDelta tick s.lastTick
  { s.modEnv x fun e => { e with timeSlice := e.timeSlice - delta } with lastTick := tick }

/-- `check_time_slice()` for the environment `x`. -/
def checkTimeSlice (s : Kernel) (x : ℕ) : Bool :=
  s.status x = .running ∧ (s.envs x).timeSlice < tsDefault

/-! ### Choosing an environment -/

/-- The loop of `runnable_env_lookup`.  One turn around the table without an answer means that there
never is one. -/
def lookupLoop (s : Kernel) (c lastIdx : ℕ) : ℕ → ℕ → Except Crash (Option ℕ)
  | 0, _ => throw .diverges
  | fuel + 1, i =>
      let i := if i = nEnv then nKThreads else i
      let e := s.envs i
      if e.status = .runnable ∧ e.type ≠ .kernel then pure (some i)
      else if e.envId = (s.envs lastIdx).envId ∧ e.type ≠ .kernel then
        if e.status = .running ∧ e.cpunum = c then pure (some i) else pure none
      else lookupLoop s c lastIdx fuel (i + 1)

/-- `runnable_env_lookup(i)` on processor `c`, with `none` for `-1`. -/
def runnableEnvLookup (s : Kernel) (c i : ℕ) : Except Crash (Option ℕ) :=
  let i := if i < nKThreads then nKThreads else i
  let lastIdx := if i - 1 = nKThreads - 1 then nEnv - 1 else i - 1
  lookupLoop s c lastIdx nEnv i

/-! ### Kernel work -/

/-- One round of the loop of `resume_env()`. -/
def resumeOne (drcMap : Bitmap) (i : ℕ) (e : Env) : Env :=
  if e.status = .sleeping ∧ i < nEnv ∧ getBit drcMap i then { e with status := .runnable } else e

/-- `resume_env()`: the sleepers of `drc_map` are woken and the map is cleared. -/
def resumeEnv (s : Kernel) : Kernel :=
  { s with envs := fun i => resumeOne s.drcMap i (s.envs i), drcMap := clearBits s.drcMap nEnv }

/-- A tasklet for the environment `x`, as it is queued. -/
def taskFor (s : Kernel) (fptr : TaskletFn) (x : ℕ) : Tasklet := ⟨fptr, 0, x, (s.envs x).envId⟩

/-- The environments whose page tables `find_pte_all` searches. -/
def searched (s : Kernel) (x : ℕ) : Bool :=
  nKThreads ≤ x ∧ x < nEnv ∧
    (s.status x = .running ∨ s.status x = .runnable ∨ s.status x = .sleeping)

/-- `reclaim_pgs`, as far as it gets with the tasklets that are free: a `page_out` is queued for
each page, with the environment in which `find_pte_all` finds it; a page that it does not find is a
panic. `oom_kill` never finds an environment bad enough to kill it. -/
def reclaimPgs (s : Kernel) (requestors : List ℕ) : Kernel :=
  let found := (requestors.filter (searched s)).take (nTasklets - s.tList.length)
  { s with tList := s.tList ++ found.map (taskFor s .pageOut) }

/-- A kernel thread that processor `c` can run. -/
def kthreadFor (s : Kernel) (c : ℕ) : Option ℕ :=
  (List.range nKThreads).find? fun i =>
    s.status i = .runnable ∨ (s.status i = .running ∧ (s.envs i).cpunum = c)

/-- The first half of `check_work()`: it relieves memory pressure or resumes the sleepers. -/
def relieve (s : Kernel) : Work → Kernel
  | .resume => resumeEnv s
  | .reclaim requestors => reclaimPgs s requestors

/-- `check_work()` on processor `c`; the answer is the kernel thread it runs, if it runs one.  The
list of tasklets is read before the first half changes it. -/
def checkWork (s : Kernel) (c : ℕ) (w : Work) : Kernel × Option ℕ :=
  let t := s.tList
  let s := relieve s w
  if t = [] then (s, none)
  else
    match kthreadFor s c with
    | none => (s, none)
    | some i => (s.modEnv i fun e => { e with timeSlice := tsDefault * 2 }, some i)

/-! ### The scheduler -/

/-- An environment that keeps `sched_halt` from dropping into the monitor. -/
def keepsAlive (s : Kernel) : Bool :=
  (List.range' nKThreads (nEnv - nKThreads)).any fun i =>
    match s.status i with
    | .runnable | .running | .sleeping | .dying => true
    | .free | .notRunnable => false

/-- `sched_halt()` up to the point where the processor gives up its environment: the answer is a
kernel thread, if `check_work` runs one. -/
def schedHaltPick (s : Kernel) (c : ℕ) (inp : SchedInput) : Except Crash (Kernel × Option ℕ) :=
  let alive := keepsAlive s
  match checkWork s c inp.workHalt with
  | (s, some k) => pure (s, some k)
  | (s, none) => if alive then pure (s, none) else throw .diverges

/-- The end of `sched_yield()`, from `runnable_env_lookup` on. -/
def lookupPick (s : Kernel) (c i : ℕ) (inp : SchedInput) : Except Crash (Kernel × Option ℕ) := do
  match ← runnableEnvLookup s c i with
  | some e => pure (s.modEnv e fun env => { env with timeSlice := tsDefault }, some e)
  | none => schedHaltPick s c inp

/-- **The choice `sched_yield()` makes** on processor `c`: the environment it calls `env_run` on, or
none when it goes on to halt the processor. -/
def schedPick (s : Kernel) (c : ℕ) (inp : SchedInput) : Except Crash (Kernel × Option ℕ) :=
  match s.curenv c with
  | none => lookupPick { s with lastTick := inp.tickAgain } c nKThreads inp
  | some x =>
      let i := envx (s.envs x).envId
      if s.status x = .sleeping then lookupPick s c i inp
      else
        let s := chargeSlice s x inp.tick
        if checkTimeSlice s x then pure (s, some x)
        else if (s.envs x).type = .kernel then lookupPick s c i inp
        else
          match checkWork s c inp.work with
          | (s, some k) => pure (s, some k)
          | (s, none) => lookupPick s c i inp

/-- The end of `sched_halt()`: the processor gives up its environment, which becomes runnable
whatever it was. -/
def schedHalt (s : Kernel) (c : ℕ) : Kernel :=
  let s := match s.curenv c with
    | none => s
    | some x => s.setStatus x .runnable
  (s.setCurenv c none).setPc c .halted

/-- **`sched_yield()`** on processor `c`. -/
def schedYield (s : Kernel) (c : ℕ) (inp : SchedInput) : Except Crash Kernel := do
  match ← schedPick s c inp with
  | (s, some e) => envRun s c e
  | (s, none) => pure (schedHalt s c)

/-! ### What a processor does next -/

/-- How a critical section goes on: it calls `sched_yield`, it calls `env_run`, or it releases the
lock and the processor is at some place. -/
inductive Next
  | yield
  | run (e : ℕ)
  | unlock (pc : Pc)
  deriving DecidableEq, Repr

/-- `env_destroy(e)` on processor `c`. -/
def envDestroy (s : Kernel) (c e : ℕ) : Kernel × Next :=
  let s := { s with killed := Function.update s.killed e true }
  if s.status e = .running ∧ s.curenv c ≠ some e then (s.setStatus e .dying, .unlock .tail)
  else
    let s := envFree s c e
    if s.curenv c = some e then (s.setCurenv c none, .yield) else (s, .unlock .tail)

/-- `sys_env_destroy(envid)`. -/
def sysEnvDestroy (s : Kernel) (c : ℕ) (envid : BitVec 32) : Kernel × Next :=
  match envid2env s c envid true with
  | none => (s, .unlock .tail)
  | some e => envDestroy s c e

/-- `sys_wait(envid)` in the environment `x`. -/
def sysWait (s : Kernel) (c x : ℕ) (envid : BitVec 32) : Kernel × Next :=
  match envid2env s c envid false with
  | none => (s, .unlock .tail)
  | some _ => (s.modEnv x fun e => { e with waitId := envid, status := .sleeping }, .yield)

/-- How `env_dup` fares besides the table of environments: no frame for a page directory, no VMA
descriptor or page table for the copy, or success. -/
inductive ForkOutcome
  | noMem | copyFails | ok
  deriving DecidableEq, Repr

/-- `sys_fork()` in the environment `x`. -/
def sysFork (s : Kernel) (x : ℕ) (o : ForkOutcome) : Kernel × Next :=
  match o, envAlloc s (s.envs x).envId (s.envs x).type with
  | .noMem, _ => (s, .unlock .tail)
  | _, none => (s, .unlock .tail)
  | .copyFails, some (_, s) => (s, .unlock .tail)
  | .ok, some (_, s) => (invalidateEnvTs s x, .yield)

/-- The environment `x` goes to sleep on `drc_map`. -/
def sleepOnDrc (s : Kernel) (x : ℕ) : Kernel :=
  let s := s.setStatus x .sleeping
  { s with drcMap := toggleBit s.drcMap (envx (s.envs x).envId) }

/-- `swap_in` in the environment `x`. -/
def swapIn (s : Kernel) (x : ℕ) : Kernel × Next :=
  if s.tList.length < nTasklets then
    let s := s.setStatus x .sleeping
    ({ s with tList := s.tList ++ [taskFor s .pageIn x] }, .unlock .tail)
  else (sleepOnDrc s x, .yield)

/-! ### Traps -/

/-- How `page_fault_handler` resolves a fault that it survives: the page is allocated or copied, it
is on the disk, it is being read from the disk, or there is no page to be had. -/
inductive Fault
  | handled | swapped | beingSwapped | kill
  deriving DecidableEq, Repr

/-- The system calls that touch the table of environments; `cputsBad` is `SYS_cputs` on memory the
environment may not read. -/
inductive Sys
  | other
  | cputsBad
  | envDestroy (envid : BitVec 32)
  | yield
  | wait (envid : BitVec 32)
  | fork (o : ForkOutcome)
  deriving DecidableEq, Repr

/-- What `trap_dispatch` tells apart. -/
inductive Trap
  | spurious
  | breakpoint
  | pageFault (f : Fault)
  | syscall (sc : Sys)
  | timer
  | unexpected
  deriving DecidableEq, Repr

/-- `syscall(...)` in the environment `x`. -/
def syscall (s : Kernel) (c x : ℕ) : Sys → Kernel × Next
  | .other => (s, .unlock .tail)
  | .cputsBad => envDestroy s c x
  | .envDestroy envid => sysEnvDestroy s c envid
  | .yield => (invalidateEnvTs s x, .yield)
  | .wait envid => sysWait s c x envid
  | .fork o => sysFork s x o

/-- `page_fault_handler(tf)` in the environment `x`. -/
def pageFaultHandler (s : Kernel) (c x : ℕ) : Fault → Kernel × Next
  | .handled => (s, .unlock .tail)
  | .swapped => swapIn s x
  | .beingSwapped => (sleepOnDrc s x, .unlock .tail)
  | .kill => envDestroy s c x

/-- `trap_dispatch(tf)` in the environment `x`. -/
def trapDispatch (s : Kernel) (c x : ℕ) : Trap → Kernel × Next
  | .spurious => (s, .unlock .tail)
  | .breakpoint => (s, .unlock .tail)
  | .pageFault f => pageFaultHandler s c x f
  | .syscall sc => syscall s c x sc
  | .timer => (s, .yield)
  | .unexpected => envDestroy s c x

/-! ### Kernel threads -/

/-- The last round of `page_in`: it needs the page directory of its requestor, which a free slot
does not have, and an entry in it. -/
def pageInDone (s : Kernel) (x : ℕ) (pteFound : Bool) : Except Crash Kernel :=
  if s.status x = .free ∨ pteFound = false then throw .nullDeref
  else pure (s.setStatus x .runnable)

/-- One round of `ktask()` over its tasklet; `ready` is the answer of the disk. -/
def ktaskRound (s : Kernel) (ready pteFound : Bool) : Except Crash Kernel :=
  match s.tList with
  | [] => pure s
  | t :: rest =>
      if t.count < nSectors then
        pure { s with tList := { t with count := if ready then t.count + 1 else t.count } :: rest }
      else
        match t.fptr with
        | .pageOut => if pteFound then pure { s with tList := rest } else throw .nullDeref
        | .pageIn => do
            let s ← pageInDone s t.requestorEnv pteFound
            pure { s with tList := rest }

/-! ### The transition system -/

/-- The critical sections of the kernel. -/
inductive Act
  /-- The first `sched_yield` of a processor, or the timer interrupt that ends its `hlt`. -/
  | sched
  /-- The processor leaves `env_run` for the environment. -/
  | pop
  /-- A trap from user mode, up to the first `unlock_env`. -/
  | trap
  | dispatch (t : Trap)
  | tail
  | ktask (ready pteFound : Bool)
  deriving DecidableEq, Repr

/-- A step: the processor, the critical section and its inputs. -/
structure Label where
  cpu : ℕ
  act : Act
  inp : SchedInput
  deriving DecidableEq, Repr

/-- The processor is at the beginning of the critical section. -/
def Enabled (s : Kernel) (c : ℕ) : Act → Prop
  | .sched => (s.cpus c).pc = .boot ∨ (s.cpus c).pc = .halted
  | .pop => (s.cpus c).pc = .entering
  | .trap => (s.cpus c).pc = .user
  | .dispatch _ => (s.cpus c).pc = .dispatch
  | .tail => (s.cpus c).pc = .tail
  | .ktask _ _ => (s.cpus c).pc = .kthread

instance (s : Kernel) (c : ℕ) : (a : Act) → Decidable (Enabled s c a)
  | .sched => instDecidableOr
  | .pop => decEq _ _
  | .trap => decEq _ _
  | .dispatch _ => decEq _ _
  | .tail => decEq _ _
  | .ktask _ _ => decEq _ _

/-- The first critical section of `trap` in the environment `x`: a zombie is collected. -/
def trapEntry (s : Kernel) (c x : ℕ) : Kernel × Next :=
  if s.status x = .dying then ((envFree s c x).setCurenv c none, .yield)
  else (s, .unlock .dispatch)

/-- The tail of `trap` in the environment `x`. -/
def trapTail (s : Kernel) (x : ℕ) : Next :=
  if s.status x = .running then .run x else .yield

/-- **A critical section up to its call of `sched_yield` or `env_run`.**  All but the first assume
that the processor has a `curenv`. -/
def enter (s : Kernel) (c : ℕ) (a : Act) : Except Crash (Kernel × Next) :=
  match a, s.curenv c with
  | .sched, _ => pure (s, .yield)
  | _, none => throw .nullDeref
  | .pop, some x =>
      pure (envPopTf s c x, .unlock (if (s.envs x).type = .kernel then .kthread else .user))
  | .trap, some x => pure (trapEntry s c x)
  | .dispatch t, some x => pure (trapDispatch s c x t)
  | .tail, some x => pure (s, trapTail s x)
  | .ktask ready pteFound, some _ => do
      let s ← ktaskRound s ready pteFound
      pure (s, .yield)

/-- The rest of the critical section. -/
def proceed (s : Kernel) (c : ℕ) (inp : SchedInput) : Next → Except Crash Kernel
  | .yield => schedYield s c inp
  | .run e => envRun s c e
  | .unlock pc => pure (s.setPc c pc)

/-- One critical section as a whole. -/
def kernelExec (s : Kernel) (a : Label) : Except Crash Kernel := do
  let (s', next) ← enter s a.cpu a.act
  proceed s' a.cpu a.inp next

/-- **A step of the kernel**: a processor runs a critical section to its end. -/
def kernelStep (s : Kernel) (a : Label) (t : Kernel) : Prop :=
  Enabled s a.cpu a.act ∧ kernelExec s a = Except.ok t

/-- The same, as a function. -/
def kernelNext (s : Kernel) (a : Label) : Option Kernel :=
  if Enabled s a.cpu a.act then (kernelExec s a).toOption else none

end Jos
