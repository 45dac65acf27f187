/-
**Environments and processors.**

The part of `kern/env.c` and `inc/env.h` that decides who runs where: the table of environments, the
list of free slots, what each processor is executing and where it stands between two acquisitions
of `env_lock`.  Everything one processor does while it holds that lock is one step here, so the lock
itself does not appear.

The bitmaps of `kern/bitmap.c` are arrays of bytes with one bit an entry, read by `get_bit` and
flipped by `toggle_bit`. The kernel keeps two of them, `drc_map` for the environments that wait for
free memory and `swap_map` for the sectors of the swap area.

The *history* fields of the state are not in the kernel: `freed` records every `env_free` with the
environments the processors had as `curenv` at that moment, `killed` the slots on whose environment
`env_destroy` was called, and `queuedId` of a tasklet whom it was queued for.

Main definitions:

* `Jos.Bitmap`, `Jos.getBit`, `Jos.toggleBit` — the bitmaps;
* `Jos.Env`, `Jos.Cpu`, `Jos.Tasklet`, `Jos.Kernel` — the state;
* `Jos.envid2env`, `Jos.envAlloc`, `Jos.envFree`, `Jos.envDestroy`, `Jos.envRun` — the operations of
  `kern/env.c` on it;
* `Jos.Kernel.boot` — the state in which the processors enter the scheduler.

Main results:

* `Jos.getBit_toggleBit` — toggling flips one bit and no other;
* `Jos.getBit_clearBits` — toggling every bit that is set clears the map.
-/

import Mathlib.Logic.Function.Basic
import JosKernel.Machine

set_option relaxedAutoImplicit false
set_option autoImplicit false

namespace Jos

/-! ### Bitmaps -/

/-- A bitmap: the bytes of the array. -/
structure Bitmap where
  byte : ℕ → BitVec 8

/-- `toggle_bit(array, index)`. -/
def toggleBit (array : Bitmap) (index : ℕ) : Bitmap :=
  ⟨Function.update array.byte (index / 8) (array.byte (index / 8) ^^^ (1#8 <<< (index % 8)))⟩

/-- `get_bit(array, index)`, as a truth value. -/
def getBit (array : Bitmap) (index : ℕ) : Bool :=
  1#8 &&& (array.byte (index / 8) >>> (index % 8)) != 0

/-- The bitmap of a zeroed array. -/
def Bitmap.empty : Bitmap := ⟨fun _ => 0⟩

theorem getBit_eq_getLsbD (array : Bitmap) (index : ℕ) :
    getBit array index = (array.byte (index / 8)).getLsbD (index % 8) := by
  have hone : ∀ b : BitVec 8, (1#8 &&& b != 0) = b.getLsbD 0 := by decide
  rw [getBit, hone, BitVec.getLsbD_ushiftRight, Nat.add_zero]

theorem getBit_empty (index : ℕ) : getBit Bitmap.empty index = false := by
  rw [getBit_eq_getLsbD]
  simp [Bitmap.empty]

/-- **Toggling flips one bit and no other.** -/
theorem getBit_toggleBit (array : Bitmap) (i j : ℕ) :
    getBit (toggleBit array i) j = (getBit array j ^^ decide (j = i)) := by
  rw [getBit_eq_getLsbD, getBit_eq_getLsbD]
  by_cases hbyte : j / 8 = i / 8
  · simp only [toggleBit]
    rw [hbyte, Function.update_self, BitVec.getLsbD_xor]
    have hmask : (1#8 <<< (i % 8)).getLsbD (j % 8) = decide (j = i) := by
      rw [BitVec.getLsbD_shiftLeft]
      have hiff : j % 8 = i % 8 ↔ j = i := by omega
      by_cases heq : j = i
      · subst heq
        have hlt : j % 8 < 8 := Nat.mod_lt j (by decide)
        simp [hlt]
      · have hne : j % 8 ≠ i % 8 := fun h => heq (hiff.1 h)
        simp only [heq, decide_false, BitVec.getLsbD_one]
        by_cases hlt : j % 8 < i % 8
        · simp [hlt]
        · have hpos : j % 8 - i % 8 ≠ 0 := by omega
          simp [hpos]
    rw [hmask]
  · have hne : j ≠ i := by
      rintro rfl
      exact hbyte rfl
    simp only [toggleBit]
    rw [Function.update_of_ne hbyte]
    simp [hne]

theorem getBit_toggleBit_self (array : Bitmap) (i : ℕ) :
    getBit (toggleBit array i) i = !getBit array i := by
  rw [getBit_toggleBit]
  simp

theorem getBit_toggleBit_of_ne (array : Bitmap) {i j : ℕ} (h : j ≠ i) :
    getBit (toggleBit array i) j = getBit array j := by
  rw [getBit_toggleBit]
  simp [h]

/-- The loop that toggles those of the first `n` bits that are set. -/
def clearBits (array : Bitmap) (n : ℕ) : Bitmap :=
  (List.range n).foldl (fun m i => if getBit m i then toggleBit m i else m) array

/-- **The loop clears the map.** -/
theorem getBit_clearBits (array : Bitmap) (n j : ℕ) :
    getBit (clearBits array n) j = (decide (n ≤ j) && getBit array j) := by
  induction n with
  | zero => simp [clearBits]
  | succ n ih =>
      have hstep : clearBits array (n + 1) = if getBit (clearBits array n) n then
          toggleBit (clearBits array n) n else clearBits array n := by
        rw [clearBits, List.range_succ, List.foldl_append]
        rfl
      rw [hstep]
      by_cases hj : j = n
      · subst hj
        have hlt : ¬ j + 1 ≤ j := by omega
        cases hb : getBit (clearBits array j) j with
        | true => simp [getBit_toggleBit_self, hb, hlt]
        | false => simp [hb, hlt]
      · have hle : (n + 1 ≤ j) = (n ≤ j) := propext (by omega)
        simp only [hle]
        cases hb : getBit (clearBits array n) n with
        | true =>
            rw [if_pos rfl, getBit_toggleBit_of_ne _ hj]
            exact ih
        | false =>
            rw [if_neg (by simp)]
            exact ih

/-! ### Constants -/

-- `NENV`, `NKTHREADS`, `NTASKS`, `NSECTORS`, `TS_DEFAULT` and `ENVGENSHIFT`.
def nEnv : ℕ := 1024
def nKThreads : ℕ := 2
def nTasklets : ℕ := 100
def nSectors : ℕ := 8
def tsDefault : BitVec 64 := 1000000#64
def envGenShift : ℕ := 12

/-! ### The state -/

/-- `env_status`. -/
inductive EnvStatus
  | free | dying | runnable | running | sleeping | notRunnable
  deriving DecidableEq, Repr

/-- `enum env_type`. -/
inductive EnvType
  | user | idle | kernel
  deriving DecidableEq, Repr

/-- `struct env`, without its address space and its registers. -/
structure Env where
  envId : BitVec 32
  parentId : BitVec 32
  type : EnvType
  status : EnvStatus
  cpunum : ℕ
  timeSlice : BitVec 64
  waitId : BitVec 32
  deriving DecidableEq, Repr

/-- A slot as `env_init` leaves it. -/
def Env.init : Env := ⟨0, 0, .user, .free, 0, 0, -1⟩

/-- The two functions a tasklet runs. -/
inductive TaskletFn
  | pageIn | pageOut
  deriving DecidableEq, Repr

/-- `struct tasklet`, without the page it moves; `queuedId` is history, the `env_id` that its
environment had when it was queued. -/
structure Tasklet where
  fptr : TaskletFn
  count : ℕ
  requestorEnv : ℕ
  queuedId : BitVec 32
  deriving DecidableEq, Repr

/-- Where a processor stands while it does not hold `env_lock`. -/
inductive Pc
  /-- On its way to its first `sched_yield`. -/
  | boot
  /-- After the `unlock_env` of `env_run`, before `env_pop_tf` records the processor. -/
  | entering
  /-- Executing the environment in user mode. -/
  | user
  /-- At the beginning of `ktask`. -/
  | kthread
  /-- In `trap`, between its first critical section and `trap_dispatch`. -/
  | dispatch
  /-- In `trap`, after `trap_dispatch` has returned. -/
  | tail
  /-- In the `hlt` of `sched_halt`. -/
  | halted
  deriving DecidableEq, Repr

/-- `struct cpuinfo`, with the place the processor has reached. -/
structure Cpu where
  curenv : Option ℕ
  pc : Pc
  deriving DecidableEq, Repr

/-- One call of `env_free`: the processor, the slot, and every processor's `curenv` at the time. -/
structure FreeEvent where
  cpu : ℕ
  slot : ℕ
  curenvs : ℕ → Option ℕ

/-- **The state of the kernel** as far as scheduling goes. -/
structure Kernel where
  envs : ℕ → Env
  envFreeList : List ℕ
  cpus : ℕ → Cpu
  drcMap : Bitmap
  tList : List Tasklet
  lastTick : BitVec 64
  freed : List FreeEvent
  killed : ℕ → Bool

namespace Kernel

/-- `curenv` on a processor. -/
def curenv (s : Kernel) (c : ℕ) : Option ℕ := (s.cpus c).curenv

/-- The status of a slot. -/
def status (s : Kernel) (x : ℕ) : EnvStatus := (s.envs x).status

/-- Replace one environment. -/
def modEnv (s : Kernel) (x : ℕ) (f : Env → Env) : Kernel :=
  { s with envs := Function.update s.envs x (f (s.envs x)) }

/-- `envs[x].env_status = st`. -/
def setStatus (s : Kernel) (x : ℕ) (st : EnvStatus) : Kernel :=
  s.modEnv x fun e => { e with status := st }

/-- `curenv = e` on a processor. -/
def setCurenv (s : Kernel) (c : ℕ) (e : Option ℕ) : Kernel :=
  { s with cpus := Function.update s.cpus c { s.cpus c with curenv := e } }

/-- A processor moves on. -/
def setPc (s : Kernel) (c : ℕ) (pc : Pc) : Kernel :=
  { s with cpus := Function.update s.cpus c { s.cpus c with pc := pc } }

end Kernel

/-! ### Environment ids -/

/-- `ENVX(envid)`. -/
def envx (envid : BitVec 32) : ℕ := (envid &&& BitVec.ofNat 32 (nEnv - 1)).toNat

/-- The id `env_alloc` gives to slot `x`, whose last id was `old`. -/
def newEnvId (old : BitVec 32) (x : ℕ) : BitVec 32 :=
  let generation := (old + (1#32 <<< envGenShift)) &&& ~~~BitVec.ofNat 32 (nEnv - 1)
  let generation := if generation.sle 0 then 1#32 <<< envGenShift else generation
  generation ||| BitVec.ofNat 32 x

/-- `envid2env(envid, &e, checkperm)` on processor `c`, which has a `curenv` whenever this is
called; `none` is `-E_BAD_ENV`. -/
def envid2env (s : Kernel) (c : ℕ) (envid : BitVec 32) (checkperm : Bool) : Option ℕ :=
  if envid = 0 then s.curenv c
  else
    let x := envx envid
    if s.status x = .free ∨ (s.envs x).envId ≠ envid then none
    else
      match s.curenv c with
      | none => if checkperm then none else some x
      | some cur =>
          if checkperm ∧ x ≠ cur ∧ (s.envs x).parentId ≠ (s.envs cur).envId then none
          else some x

/-! ### Allocation and release of environments -/

/-- `env_alloc(&e, parent_id, type)` once the page directory is set up; `none` is
`-E_NO_FREE_ENV`. -/
def envAlloc (s : Kernel) (parentId : BitVec 32) (type : EnvType) : Option (ℕ × Kernel) :=
  match s.envFreeList with
  | [] => none
  | x :: rest =>
      let s := s.modEnv x fun e =>
        { e with envId := newEnvId e.envId x, parentId := parentId, type := type,
                 status := .runnable }
      some (x, { s with envFreeList := rest, killed := Function.update s.killed x false })

/-- The loop of `env_free` over the table: the environments that wait for `envid` are woken. -/
def notifyWaiter (envid : BitVec 32) (i : ℕ) (e : Env) : Env :=
  if i < nEnv ∧ e.status = .sleeping ∧ e.waitId = envid then
    { e with status := .runnable, waitId := -1 }
  else e

/-- `env_free(e)` on processor `c`. -/
def envFree (s : Kernel) (c x : ℕ) : Kernel :=
  let s := { s with envs := fun i => notifyWaiter (s.envs x).envId i (s.envs i),
                    freed := ⟨c, x, s.curenv⟩ :: s.freed }
  let s := s.setStatus x .free
  { s with envFreeList := x :: s.envFreeList }

/-! ### Switching environments -/

/-- The environment a processor leaves in `env_run`. -/
def envLeave (s : Kernel) (c old : ℕ) : Except Crash Kernel :=
  match s.status old with
  | .runnable | .free | .notRunnable =>
      throw (.panic "env_run: ENV STATUS IS IN A INCONSISTENT STATE")
  | .running => pure (s.setStatus old .runnable)
  | .dying => pure (envFree s c old)
  | .sleeping => pure s

/-- **`env_run(e)`** on processor `c`, up to its `unlock_env`. -/
def envRun (s : Kernel) (c e : ℕ) : Except Crash Kernel :=
  if s.curenv c = some e then pure (s.setPc c .entering)
  else do
    let s ← match s.curenv c with
      | none => pure s
      | some old => envLeave s c old
    pure (((s.setCurenv c (some e)).setStatus e .running).setPc c .entering)

/-- The rest of `env_run`: `env_pop_tf` records the processor before it leaves the kernel. -/
def envPopTf (s : Kernel) (c e : ℕ) : Kernel := s.modEnv e fun env => { env with cpunum := c }

/-! ### The initial state -/

/-- The state after `env_init`, with every processor on its way to the scheduler.  The loop of
`env_init` starts at `NENV`, so there is one slot more than the table has. -/
def Kernel.init : Kernel where
  envs := fun _ => Env.init
  envFreeList := List.range (nEnv + 1)
  cpus := fun _ => ⟨none, .boot⟩
  drcMap := Bitmap.empty
  tList := []
  lastTick := 0
  freed := []
  killed := fun _ => false

/-- `env_create` and `kenv_create`, which panic when there is no free slot. -/
def envCreate (s : Kernel) (type : EnvType) : Except Crash Kernel :=
  match envAlloc s 0 type with
  | none => throw (.panic "env_create: NO FREE ENV")
  | some (_, s) => pure s

/-- **The state in which the processors enter the scheduler**: the kernel threads and the
environments that are started with the kernel. -/
def Kernel.boot (types : List EnvType) : Except Crash Kernel :=
  (List.replicate nKThreads EnvType.kernel ++ types).foldlM envCreate Kernel.init

end Jos
