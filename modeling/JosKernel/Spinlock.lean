/-
**The spinlocks, between processors.**

`spin_lock`, `spin_unlock` and `holding_l` of `kern/spinlock.c` on any number of processors, one
access to memory at a time. The writes of a processor wait in its store buffer, so that a processor
that does not hold a lock may find an old `lk->cpu` there; the `xchg`s wait for the buffer. What the
code gets right is that no old `lk->cpu` is ever its own: a processor that does not hold a lock
never takes itself for the holder, and one that holds it always does, whatever the others do
meanwhile, and whether or not the locks are used in pairs.

The log of a run is what the specification speaks of: a lock that is free or has an owner. The
system calls are modelled with the locks of one processor alone; these are its own view of the locks
between all of them.

Main definitions:

* `Jos.LockMachine`, `Jos.LockMachine.Step` — the processors in the code of the locks;
* `Jos.LockEvent`, `Jos.ownersAfter`, `Jos.valueAfter` — the log, and what the specification makes
  of it;
* `Jos.LockInv` — the invariant.

Main results:

* `Jos.spin_locks_exclude` — the log of every run is one of a lock with at most one owner, and the
  tests for the holder are exact;
* `Jos.processor_view` — the locks of the system-call layer are what a processor sees of it;
* `Jos.guarded_data_current` — data that are written only under a lock are read as they were last
  written.
-/

import JosKernel.LabelledRun
import JosKernel.StoreBuffer
import JosKernel.SyscallLocks
import JosKernel.UserMem

set_option relaxedAutoImplicit false
set_option autoImplicit false
set_option linter.unusedSectionVars false

namespace Jos

open LabelledRun StoreBuffer

/-! ### The code -/

/-- The members of `struct spinlock` that change. -/
inductive LockField
  | locked | cpu
  | pcs (i : ℕ)
  deriving DecidableEq

/-- A word of memory: a member of a lock, or one of the data. -/
inductive LockCell (D : Type)
  | lock (l : Lock) (f : LockField)
  | data (a : D)
  deriving DecidableEq

/-- What a word of memory holds: a number, or the address of the `struct cpuinfo` of a processor. -/
inductive LockWord (Cpu : Type)
  | num (n : BitVec 32)
  | cpuinfo (c : Cpu)
  deriving DecidableEq

/-- `get_caller_pcs`: the entries still to be written, from the frame at `ebp` on. -/
def getCallerPcs (stack : BitVec 32 → BitVec 32) : ℕ → BitVec 32 → List (BitVec 32)
  | 0, _ => []
  | n + 1, ebp =>
      if ebp = 0 ∨ ebp < uLim then List.replicate (n + 1) 0
      else stack (ebp + 4) :: getCallerPcs stack n (stack ebp)

/-- The functions of a lock; `spin_lock` comes with the call stack that it will record. -/
inductive LockCall
  | spinLock (pcs : List (BitVec 32))
  | spinUnlock
  | holdingL
  | assertLock
  deriving DecidableEq

/-- **Where a processor is**, before its next access to memory. -/
inductive LockPc
  /-- Not in the code of a lock. -/
  | out
  /-- Before it reads `lock->locked` in the test for the holder, and before it reads `lock->cpu`. -/
  | test (k : LockCall) (l : Lock)
  | testCpu (k : LockCall) (l : Lock)
  /-- `spin_lock`: before the `xchg` and before it records the processor and the call stack, of
  which the entries from `i` on are left. -/
  | spin (l : Lock) (pcs : List (BitVec 32))
  | setCpu (l : Lock) (pcs : List (BitVec 32))
  | setPcs (l : Lock) (i : ℕ) (pcs : List (BitVec 32))
  /-- `spin_unlock`: before it clears the records and before the `xchg`. -/
  | clearPcs (l : Lock)
  | clearCpu (l : Lock)
  | release (l : Lock)
  /-- `spin_unlock` by a processor that does not hold the lock, before it reads `lk->cpu` for the
  message. -/
  | report (l : Lock)
  | stopped (why : Stop)
  deriving DecidableEq

/-- Where a function goes on after its test for the holder. -/
def LockCall.next (l : Lock) : LockCall → Bool → LockPc
  | .spinLock pcs, b => if b then .stopped (.alreadyHolding l) else .spin l pcs
  | .spinUnlock, b => if b then .clearPcs l else .report l
  | .holdingL, _ => .out
  | .assertLock, b =>
      if b then .out else .stopped (.crash (.assertFailed "lock.locked && lock.cpu == thiscpu"))

/-- **What happens to the locks and the data**, as the log keeps it. -/
inductive LockEvent (Cpu D : Type)
  /-- The test for the holder, in the function `k`, comes to a result. -/
  | test (c : Cpu) (k : LockCall) (l : Lock) (b : Bool)
  /-- The `xchg` of `spin_lock` finds the lock free, or taken. -/
  | acquire (c : Cpu) (l : Lock)
  | busy (c : Cpu) (l : Lock)
  | release (c : Cpu) (l : Lock)
  | load (c : Cpu) (a : D) (v : LockWord Cpu)
  | store (c : Cpu) (a : D) (v : LockWord Cpu)
  deriving DecidableEq

/-- **The processors**, with the memory between them and the log. -/
structure LockMachine (Cpu D : Type) where
  mem : Memory Cpu (LockCell D) (LockWord Cpu)
  pc : Cpu → LockPc
  log : List (LockEvent Cpu D)

/-- What happens next: a processor that is outside calls a function or reads or writes data; one
that is inside goes on; or a write comes to the memory. -/
inductive LockOp (Cpu D : Type)
  | lock (c : Cpu) (l : Lock) (stack : BitVec 32 → BitVec 32) (ebp : BitVec 32)
  | unlock (c : Cpu) (l : Lock)
  | holding (c : Cpu) (l : Lock)
  | assertLock (c : Cpu) (l : Lock)
  | load (c : Cpu) (a : D)
  | store (c : Cpu) (a : D) (v : LockWord Cpu)
  | go (c : Cpu)
  | drain (c : Cpu)

variable {Cpu D : Type} [DecidableEq Cpu] [DecidableEq D]

namespace LockMachine

/-- At first every lock is free and nobody is in its code. -/
def boot (data : D → LockWord Cpu) : LockMachine Cpu D where
  mem := Memory.boot fun x => match x with
    | .lock _ _ => .num 0
    | .data a => data a
  pc _ := .out
  log := []

variable (s : LockMachine Cpu D)

/-- A processor goes to another place. -/
def goto (c : Cpu) (p : LockPc) : LockMachine Cpu D := { s with pc := Function.update s.pc c p }

/-- Something happens that the log keeps. -/
def happens (e : LockEvent Cpu D) : LockMachine Cpu D := { s with log := s.log ++ [e] }

/-- A write of a processor. -/
def write (c : Cpu) (x : LockCell D) (v : LockWord Cpu) : LockMachine Cpu D :=
  { s with mem := s.mem.write c x v }

/-- The memory after the `xchg` of `lk->locked`. -/
def xchg (l : Lock) (v : BitVec 32) : LockMachine Cpu D :=
  { s with mem := s.mem.swap (.lock l .locked) (.num v) }

/-- The test for the holder comes to a result. -/
def tested (c : Cpu) (k : LockCall) (l : Lock) (b : Bool) : LockMachine Cpu D :=
  (s.happens (.test c k l b)).goto c (k.next l b)

/-- **The next access to memory of a processor** that is in the code of a lock. -/
def go (c : Cpu) : Option (LockMachine Cpu D) :=
  match s.pc c with
  | .out | .stopped _ => none
  | .test k l =>
      if s.mem.read c (.lock l .locked) = .num 0 then some (s.tested c k l false)
        else some (s.goto c (.testCpu k l))
  | .testCpu k l => some (s.tested c k l (s.mem.read c (.lock l .cpu) = .cpuinfo c))
  | .spin l pcs =>
      if s.mem.buf c = [] then
        if s.mem.ram (.lock l .locked) = .num 0 then
          some (((s.xchg l 1).happens (.acquire c l)).goto c (.setCpu l pcs))
        else some ((s.xchg l 1).happens (.busy c l))
      else none
  | .setCpu l pcs => some ((s.write c (.lock l .cpu) (.cpuinfo c)).goto c (.setPcs l 0 pcs))
  | .setPcs _ _ [] => some (s.goto c .out)
  | .setPcs l i (w :: pcs) =>
      some ((s.write c (.lock l (.pcs i)) (.num w)).goto c (.setPcs l (i + 1) pcs))
  | .clearPcs l => some ((s.write c (.lock l (.pcs 0)) (.num 0)).goto c (.clearCpu l))
  | .clearCpu l => some ((s.write c (.lock l .cpu) (.num 0)).goto c (.release l))
  | .release l =>
      if s.mem.buf c = [] then some (((s.xchg l 0).happens (.release c l)).goto c .out) else none
  | .report l =>
      match s.mem.read c (.lock l .cpu) with
      | .cpuinfo _ => some (s.goto c (.stopped (.notHolding l)))
      | .num _ => some (s.goto c (.stopped (.crash .nullDeref)))

/-- A function is called. -/
def call (c : Cpu) (k : LockCall) (l : Lock) : Option (LockMachine Cpu D) :=
  if s.pc c = .out then some (s.goto c (.test k l)) else none

/-- What happens next, if it can. -/
def exec : LockOp Cpu D → Option (LockMachine Cpu D)
  | .lock c l stack ebp => s.call c (.spinLock (getCallerPcs stack 10 ebp)) l
  | .unlock c l => s.call c .spinUnlock l
  | .holding c l => s.call c .holdingL l
  | .assertLock c l => s.call c .assertLock l
  | .load c a =>
      if s.pc c = .out then some (s.happens (.load c a (s.mem.read c (.data a)))) else none
  | .store c a v =>
      if s.pc c = .out then some ((s.write c (.data a) v).happens (.store c a v)) else none
  | .go c => s.go c
  | .drain c => some { s with mem := s.mem.drain c }

/-- **A step.** -/
def Step (x : LockOp Cpu D) (t : LockMachine Cpu D) : Prop := s.exec x = some t

end LockMachine

/-! ### What the log says -/

/-- The owners of the locks. -/
abbrev LockOwners (Cpu : Type) : Type := Lock → Option Cpu

/-- The owners after an event. -/
def LockEvent.owners (o : LockOwners Cpu) : LockEvent Cpu D → LockOwners Cpu
  | .acquire c l => Function.update o l (some c)
  | .release _ l => Function.update o l none
  | _ => o

@[simp] theorem LockEvent.owners_acquire (o : LockOwners Cpu) (c : Cpu) (l : Lock) :
    (LockEvent.acquire c l : LockEvent Cpu D).owners o = Function.update o l (some c) := rfl

@[simp] theorem LockEvent.owners_release (o : LockOwners Cpu) (c : Cpu) (l : Lock) :
    (LockEvent.release c l : LockEvent Cpu D).owners o = Function.update o l none := rfl

/-- **An event that a lock allows**: it is taken if nobody has it, given back by its owner, and
waited for only while another has it; the test for the holder finds whether the processor is the
owner. -/
def LockEvent.Legal (o : LockOwners Cpu) : LockEvent Cpu D → Prop
  | .test c _ l b => b = true ↔ o l = some c
  | .acquire _ l => o l = none
  | .busy c l => ∃ d, d ≠ c ∧ o l = some d
  | .release c l => o l = some c
  | .load .. | .store .. => True

/-- **The lock as its users see it.** -/
def LockEvent.Does (o : LockOwners Cpu) (e : LockEvent Cpu D) (o' : LockOwners Cpu) : Prop :=
  e.Legal o ∧ o' = e.owners o

/-- The owners after some events. -/
def ownersAfter (log : List (LockEvent Cpu D)) : LockOwners Cpu :=
  log.foldl LockEvent.owners fun _ => none

@[simp] theorem ownersAfter_snoc (log : List (LockEvent Cpu D)) (e : LockEvent Cpu D) :
    ownersAfter (log ++ [e]) = e.owners (ownersAfter log) := by
      rw [ownersAfter, List.foldl_append, List.foldl_cons, List.foldl_nil, ownersAfter]

/-- The value of data after an event. -/
def LockEvent.value (a : D) (v : LockWord Cpu) : LockEvent Cpu D → LockWord Cpu
  | .store _ b w => if b = a then w else v
  | _ => v

/-- The last value that was stored, or the one at first. -/
def valueAfter (v : LockWord Cpu) (a : D) (log : List (LockEvent Cpu D)) : LockWord Cpu :=
  log.foldl (LockEvent.value a) v

@[simp] theorem valueAfter_snoc (v : LockWord Cpu) (a : D) (log : List (LockEvent Cpu D))
    (e : LockEvent Cpu D) :
    valueAfter v a (log ++ [e]) = e.value a (valueAfter v a log) := by
  rw [valueAfter, List.foldl_append, List.foldl_cons, List.foldl_nil, valueAfter]

/-! ### The invariant -/

/-- `lk->cpu`, as the owner of the lock reads it. -/
def LockPc.record (c : Cpu) (l : Lock) : LockPc → LockWord Cpu
  | .setCpu k _ | .release k => if k = l then .num 0 else .cpuinfo c
  | _ => .cpuinfo c

/-- Where a processor may be, with the locks it owns. -/
def LockPc.Ok (o : LockOwners Cpu) (c : Cpu) : LockPc → Prop
  | .spin l _ | .report l | .stopped (.notHolding l) => o l ≠ some c
  | .setCpu l _ | .setPcs l _ _ | .clearPcs l | .clearCpu l | .release l | .stopped
    (.alreadyHolding l) => o l = some c
  | _ => True

/-- The owners of the locks. -/
def LockMachine.owners (s : LockMachine Cpu D) : LockOwners Cpu := ownersAfter s.log

/-- **The invariant.** `lk->locked` has a value for everybody; `lk->cpu` has one for the owner of
the lock, and nobody else finds himself there. -/
structure LockInv (s : LockMachine Cpu D) : Prop where
  locked : ∀ l, s.mem.Holds none (.lock l .locked) (.num (if s.owners l = none then 0 else 1))
  free : ∀ l, s.owners l = none → s.mem.Holds none (.lock l .cpu) (.num 0)
  held : ∀ l c, s.owners l = some c → s.mem.Holds (some c) (.lock l .cpu) ((s.pc c).record c l)
  among : ∀ l, s.mem.Among (.lock l .cpu) fun w => ∀ c, w = .cpuinfo c → s.owners l = some c
  pc : ∀ c, (s.pc c).Ok s.owners c

namespace LockMachine

variable {s t : LockMachine Cpu D} {c d : Cpu} {l k : Lock}

@[simp] theorem happens_owners (s : LockMachine Cpu D) (e : LockEvent Cpu D) :
    (s.happens e).owners = e.owners s.owners := ownersAfter_snoc ..

@[simp] theorem goto_owners (s : LockMachine Cpu D) (c : Cpu) (p : LockPc) :
    (s.goto c p).owners = s.owners := rfl

@[simp] theorem write_owners (s : LockMachine Cpu D) (c : Cpu) (x : LockCell D) (v : LockWord Cpu) :
    (s.write c x v).owners = s.owners := rfl

@[simp] theorem xchg_owners (s : LockMachine Cpu D) (l : Lock) (v : BitVec 32) :
    (s.xchg l v).owners = s.owners := rfl

end LockMachine

/-- The locks of one processor are enough to say where it may be. -/
theorem LockPc.Ok.congr {o o' : LockOwners Cpu} {c : Cpu} {p : LockPc} (h : p.Ok o c)
    (ho : ∀ l, o' l = some c ↔ o l = some c) : p.Ok o' c := by
  cases p with
  | spin | report => exact mt (ho _).1 h
  | setCpu | setPcs | clearPcs | clearCpu | release => exact (ho _).2 h
  | out | test | testCpu => exact True.intro
  | stopped why =>
      cases why with
      | notHolding => exact mt (ho _).1 h
      | alreadyHolding => exact (ho _).2 h
      | crash | left | rebooted => exact True.intro

namespace LockInv

variable {s : LockMachine Cpu D} {c : Cpu} {l : Lock}

theorem boot (data : D → LockWord Cpu) : LockInv (LockMachine.boot data) where
  locked l := Memory.Holds.boot _ _
  free l _ := Memory.Holds.boot _ _
  held l c h := by simp [LockMachine.owners, LockMachine.boot, ownersAfter] at h
  among l := (Memory.Holds.boot _ _).among.mono fun w hw c hc => by simp [hw] at hc
  pc c := True.intro

/-- A processor goes to a place where nothing is said that was not said before. -/
theorem goto (h : LockInv s) {p : LockPc}
    (hrec : ∀ l, s.owners l = some c → p.record c l = (s.pc c).record c l) (hok : p.Ok s.owners c) :
    LockInv (s.goto c p) where
  locked := h.locked
  free := h.free
  held l d hd := by
    rw [LockMachine.goto]
    dsimp only
    rw [Function.update_apply]
    split
    · next hc =>
        subst hc
        rw [hrec l hd]
        exact h.held l d hd
    · exact h.held l d hd
  among := h.among
  pc d := by
    rw [LockMachine.goto]
    dsimp only
    rw [Function.update_apply]
    split
    · next hc =>
        subst hc
        exact hok
    · exact h.pc d

/-- Something happens that has nothing to do with the owners. -/
theorem happens (h : LockInv s) {e : LockEvent Cpu D} (he : e.owners s.owners = s.owners) :
    LockInv (s.happens e) := by
  have ho : (s.happens e).owners = s.owners := by rw [LockMachine.happens_owners, he]
  exact ⟨fun l => ho ▸ h.locked l, fun l => ho ▸ h.free l, fun l => ho ▸ h.held l, fun l =>
    ho ▸ h.among l, fun c => ho ▸ h.pc c⟩

theorem drain (h : LockInv s) (c : Cpu) : LockInv { s with mem := s.mem.drain c } :=
  ⟨fun l => (h.locked l).drain c, fun l hl => (h.free l hl).drain c, fun l d hd =>
    (h.held l d hd).drain c, fun l => (h.among l).drain c, h.pc⟩

/-- A write that has nothing to do with `lk->locked` and `lk->cpu`. -/
theorem write (h : LockInv s) {x : LockCell D} (hlocked : ∀ l, x ≠ .lock l .locked)
    (hcpu : ∀ l, x ≠ .lock l .cpu) (v : LockWord Cpu) :
    LockInv (s.write c x v) :=
  ⟨fun l => (h.locked l).write_ne (hlocked l) c v, fun l hl => (h.free l hl).write_ne (hcpu l) c v,
    fun l d hd => (h.held l d hd).write_ne (hcpu l) c v, fun l => (h.among l).write_ne c (hcpu l) v,
    h.pc⟩

/-- **`lk->locked` tells everybody whether the lock is taken.** -/
theorem read_locked (h : LockInv s) (c : Cpu) (l : Lock) :
    s.mem.read c (.lock l .locked) = .num 0 ↔ s.owners l = none := by
  rw [(h.locked l).read_none c]
  split
  · next ho => simp [ho]
  · next ho => simp [ho]

/-- **`lk->cpu` tells a processor whether it has the lock**, unless it is just writing there. -/
theorem read_cpu (h : LockInv s) {k : LockCall} (hpc : s.pc c = .testCpu k l) :
    s.mem.read c (.lock l .cpu) = .cpuinfo c ↔ s.owners l = some c := by
  constructor
  · exact (h.among l).read c c
  · intro ho
    have hread := (h.held l c ho).read c rfl
    rwa [hpc] at hread

/-- The owner writes `lk->cpu`. -/
theorem write_cpu (h : LockInv s) (ho : s.owners l = some c) {v : LockWord Cpu}
    (hv : ∀ d, v = .cpuinfo d → d = c) {p : LockPc} (hp : p.record c l = v)
    (hrec : ∀ k, k ≠ l → p.record c k = (s.pc c).record c k) (hok : p.Ok s.owners c) :
    LockInv ((s.write c (.lock l .cpu) v).goto c p) where
  locked k := (h.locked k).write_ne (by simp) c v
  free k hk := by
    have hne : l ≠ k := by
      rintro rfl
      exact absurd (ho.symm.trans hk) (by simp)
    exact (h.free k hk).write_ne (by simpa using hne) c v
  held k d hd := by
    change (s.mem.write c (.lock l .cpu) v).Holds (some d) (.lock k .cpu)
      ((Function.update s.pc c p d).record d k)
    by_cases hk : k = l
    · subst hk
      obtain rfl : c = d := Option.some_inj.1 (ho.symm.trans hd)
      rw [Function.update_self, hp]
      exact (h.held k c hd).write v
    · have hold := (h.held k d hd).write_ne (b := .lock l .cpu) (by simpa using Ne.symm hk) c v
      rw [Function.update_apply]
      split
      · next hc =>
          subst hc
          rw [hrec k hk]
          exact hold
      · exact hold
  among k := by
    by_cases hk : k = l
    · subst hk
      exact (h.among k).write c fun d hd => hv d hd ▸ ho
    · exact (h.among k).write_ne c (by simpa using Ne.symm hk) v
  pc d := by
    change (Function.update s.pc c p d).Ok s.owners d
    rw [Function.update_apply]
    split
    · next hc =>
        subst hc
        exact hok
    · exact h.pc d

/-- **The owners change.** One lock changes hands; the others stay as they are, for a processor at
its new place too. -/
theorem change (h : LockInv s) {w : BitVec 32} {e : LockEvent Cpu D} {o : Option Cpu} {p : LockPc}
    (he : e.owners s.owners = Function.update s.owners l o) (hw : w = if o = none then 0 else 1)
    (hcell : ∀ m : Memory Cpu (LockCell D) (LockWord Cpu),
      m = s.mem.swap (.lock l .locked) (.num w) →
      (∀ d, o = some d → m.Holds (some d) (.lock l .cpu)
        ((Function.update s.pc c p d).record d l)) ∧
        (o = none → m.Holds none (.lock l .cpu) (.num 0)) ∧ m.Among (.lock l .cpu) fun w => ∀ d,
          w = .cpuinfo d → o = some d)
    (hrec : ∀ k, k ≠ l → p.record c k = (s.pc c).record c k)
    (hok : p.Ok (Function.update s.owners l o) c)
    (hother : ∀ d, d ≠ c → (o = some d ↔ s.owners l = some d)) :
    LockInv (((s.xchg l w).happens e).goto c p) := by
  have ho : (((s.xchg l w).happens e).goto c p).owners = Function.update s.owners l o := by
    rw [LockMachine.goto_owners, LockMachine.happens_owners, LockMachine.xchg_owners, he]
  obtain ⟨hheld, hfree, hamong⟩ := hcell _ rfl
  refine ⟨fun k => ?_, fun k hk => ?_, fun k d hd => ?_, fun k => ?_, fun d => ?_⟩
  · by_cases hkl : k = l
    · subst hkl
      rw [ho, Function.update_self, ← hw]
      exact (h.locked k).swap _
    · rw [ho, Function.update_of_ne hkl]
      exact (h.locked k).swap_ne (by simpa using Ne.symm hkl) _
  · rw [ho] at hk
    by_cases hkl : k = l
    · subst hkl
      rw [Function.update_self] at hk
      exact hfree hk
    · rw [Function.update_of_ne hkl] at hk
      exact (h.free k hk).swap_ne (by simp) _
  · rw [ho] at hd
    by_cases hkl : k = l
    · subst hkl
      rw [Function.update_self] at hd
      exact hheld d hd
    · rw [Function.update_of_ne hkl] at hd
      have hold := (h.held k d hd).swap_ne (b := .lock l .locked) (by simp) (.num w)
      change (s.mem.swap (.lock l .locked) (.num w)).Holds (some d) (.lock k .cpu)
        ((Function.update s.pc c p d).record d k)
      rw [Function.update_apply]
      split
      · next hc =>
          subst hc
          rw [hrec k hkl]
          exact hold
      · exact hold
  · rw [ho]
    by_cases hkl : k = l
    · subst hkl
      rw [Function.update_self]
      exact hamong
    · rw [Function.update_of_ne hkl]
      exact (h.among k).swap_ne (by simp) _
  · change (Function.update s.pc c p d).Ok (((s.xchg l w).happens e).goto c p).owners d
    rw [ho, Function.update_apply]
    split
    · next hc =>
        subst hc
        exact hok
    · next hc =>
        refine (h.pc d).congr fun k => ?_
        by_cases hk : k = l
        · subst hk
          rw [Function.update_self, hother d hc]
        · rw [Function.update_of_ne hk]

/-- **A lock is taken.** -/
theorem acquire (h : LockInv s) {pcs : List (BitVec 32)} (hpc : s.pc c = .spin l pcs)
    (ho : s.owners l = none) :
    LockInv (((s.xchg l 1).happens (.acquire c l)).goto c (.setCpu l pcs)) := by
  refine h.change rfl (by simp) ?_ (fun k hk => ?_) (Function.update_self ..) fun d hd => ?_
  · rintro m rfl
    have hcell := (h.free l ho).swap_ne (b := .lock l .locked) (by simp) (.num 1)
    refine ⟨fun d hd => ?_, fun hn => by simp at hn, hcell.among.mono
      fun w hw d hd => by simp [hw] at hd⟩
    obtain rfl : c = d := Option.some_inj.1 hd
    rw [Function.update_self, LockPc.record, if_pos rfl]
    exact hcell.take c
  · rw [hpc, LockPc.record, if_neg (Ne.symm hk)]
    rfl
  · rw [ho]
    simpa using Ne.symm hd

/-- **A lock is given back.** -/
theorem release (h : LockInv s) (hpc : s.pc c = .release l) (hbuf : s.mem.buf c = []) :
    LockInv (((s.xchg l 0).happens (.release c l)).goto c .out) := by
  have ho : s.owners l = some c := by
    have hok := h.pc c
    rwa [hpc] at hok
  refine h.change rfl (by simp) ?_ (fun k hk => ?_) True.intro fun d hd => ?_
  · rintro m rfl
    have hcell := (h.held l c ho).give hbuf
    rw [hpc, LockPc.record, if_pos rfl] at hcell
    have hswap := hcell.swap_ne (b := .lock l .locked) (by simp) (.num 0)
    exact ⟨fun d hd => by simp at hd, fun _ => hswap, hswap.among.mono
      fun w hw d hd => by simp [hw] at hd⟩
  · rw [hpc]
    exact (if_neg (Ne.symm hk)).symm
  · rw [ho]
    simpa using Ne.symm hd

/-- The `xchg` of a processor that finds the lock taken. -/
theorem busy (h : LockInv s) (ho : s.owners l ≠ none) :
    LockInv ((s.xchg l 1).happens (.busy c l)) := by
  have hx : LockInv (s.xchg l 1) := by
    refine ⟨fun k => ?_, fun k hk => (h.free k hk).swap_ne (by simp) _, fun k d hd =>
      (h.held k d hd).swap_ne (by simp) _,
      fun k => (h.among k).swap_ne (by simp) _, h.pc⟩
    by_cases hk : k = l
    · subst hk
      rw [LockMachine.xchg_owners, if_neg ho]
      exact (h.locked k).swap _
    · exact (h.locked k).swap_ne (by simpa using Ne.symm hk) _
  exact hx.happens rfl

end LockInv

/-! ### Steps and runs -/

theorem LockCall.next_record (k : LockCall) (c : Cpu) (l m : Lock) (b : Bool) :
    (k.next l b).record c m = .cpuinfo c := by
  cases k <;> cases b <;> rfl

/-- After its test for the holder a processor is where it may be. -/
theorem LockCall.next_ok (k : LockCall) {o : LockOwners Cpu} {c : Cpu} {l : Lock} {b : Bool}
    (hb : b = true ↔ o l = some c) :
    (k.next l b).Ok o c := by
  cases b with
  | true =>
      cases k with
      | spinLock | spinUnlock => exact hb.1 rfl
      | holdingL | assertLock => exact True.intro
  | false =>
      have hne : o l ≠ some c := fun ho => Bool.false_ne_true (hb.2 ho)
      cases k with
      | spinLock | spinUnlock => exact hne
      | holdingL | assertLock => exact True.intro

/-- What is loaded is what the processor reads. -/
def LockEvent.Reads (m : Memory Cpu (LockCell D) (LockWord Cpu)) : LockEvent Cpu D → Prop
  | .load c a w => w = m.read c (.data a)
  | _ => True

/-- **What a step keeps**: the invariant; and it is one that the specification allows, if the log
takes notice of it. -/
structure LockMachine.Goes (s t : LockMachine Cpu D) : Prop where
  inv : LockInv t
  log : t.log = s.log ∨ ∃ e : LockEvent Cpu D, t.log = s.log ++ [e] ∧ e.Legal s.owners ∧
    e.Reads s.mem

/-- A step that also leaves the data alone: where they belong to the owner of a lock, they go with
it. -/
structure LockMachine.Carries (s t : LockMachine Cpu D) : Prop extends s.Goes t where
  data : ∀ l a w, s.mem.Holds (s.owners l) (.data a) w → t.mem.Holds (t.owners l) (.data a) w
  value : ∀ v a, valueAfter v a t.log = valueAfter v a s.log

namespace LockInv

variable {s t : LockMachine Cpu D} {c : Cpu} {l : Lock}

/-- The result of the test for the holder is right. -/
theorem tested (h : LockInv s) {k : LockCall} {b : Bool}
    (hrec : ∀ m, (s.pc c).record c m = .cpuinfo c) (hb : b = true ↔ s.owners l = some c) :
    s.Carries (s.tested c k l b) := by
  have ho : (s.happens (.test c k l b)).owners = s.owners := LockMachine.happens_owners ..
  refine ⟨⟨(h.happens (e := .test c k l b) rfl).goto (fun m _ => ?_) (ho ▸ k.next_ok hb),
    .inr ⟨_, rfl, hb, True.intro⟩⟩,
    fun m a w hd => ?_, fun v a => valueAfter_snoc ..⟩
  · rw [k.next_record]
    exact (hrec m).symm
  · rw [LockMachine.tested, LockMachine.goto_owners, ho]
    exact hd

/-- A processor only goes on. -/
theorem goes (h : LockInv s) {p : LockPc} (hrec : ∀ m, p.record c m = (s.pc c).record c m)
    (hok : p.Ok s.owners c) : s.Carries (s.goto c p) :=
  ⟨⟨h.goto (fun m _ => hrec m) hok, .inl rfl⟩, fun _ _ _ hd => hd, fun _ _ => rfl⟩

/-- A processor writes a word of a lock and goes on. -/
theorem carries {f : LockField} {v : LockWord Cpu} {p : LockPc}
    (h : LockInv ((s.write c (.lock l f) v).goto c p)) :
    s.Carries ((s.write c (.lock l f) v).goto c p) :=
      ⟨⟨h, .inl rfl⟩, fun _ _ _ hd => hd.write_ne (by simp) c v, fun _ _ => rfl⟩

/-- The data go to a processor that takes the lock. -/
theorem takes (h : LockInv s) {pcs : List (BitVec 32)} (hpc : s.pc c = .spin l pcs)
    (ho : s.owners l = none) :
    s.Carries (((s.xchg l 1).happens (.acquire c l)).goto c (.setCpu l pcs)) := by
  refine ⟨⟨h.acquire hpc ho, .inr ⟨_, rfl, ho, True.intro⟩⟩, fun m a w hd => ?_, fun v a =>
    valueAfter_snoc ..⟩
  rw [LockMachine.goto_owners, LockMachine.happens_owners, LockMachine.xchg_owners,
    LockEvent.owners_acquire]
  have hswap := hd.swap_ne (b := .lock l .locked) (by simp) (.num 1)
  by_cases hm : m = l
  · subst hm
    rw [ho] at hswap
    rw [Function.update_self]
    exact hswap.take c
  · rw [Function.update_of_ne hm]
    exact hswap

/-- They come back with it, since nothing waits. -/
theorem gives (h : LockInv s) (hpc : s.pc c = .release l) (hbuf : s.mem.buf c = []) :
    s.Carries (((s.xchg l 0).happens (.release c l)).goto c .out) := by
  have ho : s.owners l = some c := by
    have hok := h.pc c
    rwa [hpc] at hok
  refine ⟨⟨h.release hpc hbuf, .inr ⟨_, rfl, ho, True.intro⟩⟩, fun m a w hd => ?_, fun v a =>
    valueAfter_snoc ..⟩
  rw [LockMachine.goto_owners, LockMachine.happens_owners, LockMachine.xchg_owners,
    LockEvent.owners_release]
  have hswap := hd.swap_ne (b := .lock l .locked) (by simp) (.num 0)
  by_cases hm : m = l
  · subst hm
    rw [ho] at hswap
    rw [Function.update_self]
    exact hswap.give hbuf
  · rw [Function.update_of_ne hm]
    exact hswap

/-- A processor that finds the lock taken waits for another one. -/
theorem waits (h : LockInv s) (ho : s.owners l ≠ none) (hc : s.owners l ≠ some c) :
    s.Carries ((s.xchg l 1).happens (.busy c l)) := by
  obtain ⟨d, hd⟩ := Option.ne_none_iff_exists'.1 ho
  refine ⟨⟨h.busy ho, .inr ⟨_, rfl, ⟨d, ?_, hd⟩, True.intro⟩⟩, fun m a w hm => ?_, fun v a =>
    valueAfter_snoc ..⟩
  · rintro rfl
    exact hc hd
  · rw [LockMachine.happens_owners]
    exact hm.swap_ne (by simp) (.num 1)

/-- **A step of a processor in the code of a lock.** -/
theorem go (h : LockInv s) (hgo : s.go c = some t) : s.Carries t := by
  have hok := h.pc c
  rw [LockMachine.go] at hgo
  cases hpc : s.pc c with
  | out | stopped why =>
      rw [hpc] at hgo
      simp at hgo
  | test k l =>
      simp only [hpc, h.read_locked] at hgo
      split at hgo
      · next ho =>
          rw [Option.some_inj] at hgo
          subst hgo
          exact h.tested (fun m => by rw [hpc]; rfl) (by simp [ho])
      · rw [Option.some_inj] at hgo
        subst hgo
        exact h.goes (fun m => by rw [hpc]; rfl) True.intro
  | testCpu k l =>
      simp only [hpc, Option.some_inj] at hgo
      subst hgo
      exact h.tested (fun m => by rw [hpc]; rfl) (by rw [decide_eq_true_iff]; exact h.read_cpu hpc)
  | spin l pcs =>
      rw [hpc] at hok
      simp only [hpc] at hgo
      split at hgo
      · next hbuf =>
          have hram : s.mem.ram (.lock l .locked) = .num 0 ↔ s.owners l = none := by
            rw [← Memory.read_of_nil hbuf]
            exact h.read_locked c l
          split at hgo
          · next hz =>
              rw [Option.some_inj] at hgo
              subst hgo
              exact h.takes hpc (hram.1 hz)
          · next hz =>
              rw [Option.some_inj] at hgo
              subst hgo
              exact h.waits (mt hram.2 hz) hok
      · simp at hgo
  | setCpu l pcs =>
      rw [hpc] at hok
      simp only [hpc, Option.some_inj] at hgo
      subst hgo
      refine carries (h.write_cpu hok (by simp) rfl (fun k hk => ?_) hok)
      rw [hpc]
      exact (if_neg (Ne.symm hk)).symm
  | setPcs l i pcs =>
      rw [hpc] at hok
      cases pcs with
      | nil =>
          simp only [hpc, Option.some_inj] at hgo
          subst hgo
          exact h.goes (fun m => by rw [hpc]; rfl) True.intro
      | cons w pcs =>
          simp only [hpc, Option.some_inj] at hgo
          subst hgo
          exact carries ((h.write (by simp) (by simp) _).goto
            (fun m _ => by rw [LockMachine.write, hpc]; rfl) hok)
  | clearPcs l =>
      rw [hpc] at hok
      simp only [hpc, Option.some_inj] at hgo
      subst hgo
      exact carries ((h.write (by simp) (by simp) _).goto
        (fun m _ => by rw [LockMachine.write, hpc]; rfl) hok)
  | clearCpu l =>
      rw [hpc] at hok
      simp only [hpc, Option.some_inj] at hgo
      subst hgo
      refine carries (h.write_cpu hok (by simp) (if_pos rfl) (fun k hk => ?_) hok)
      rw [hpc]
      exact if_neg (Ne.symm hk)
  | release l =>
      simp only [hpc] at hgo
      split at hgo
      · next hbuf =>
          rw [Option.some_inj] at hgo
          subst hgo
          exact h.gives hpc hbuf
      · simp at hgo
  | report l =>
      rw [hpc] at hok
      simp only [hpc] at hgo
      split at hgo
      · rw [Option.some_inj] at hgo
        subst hgo
        exact h.goes (fun m => by rw [hpc]; rfl) hok
      · rw [Option.some_inj] at hgo
        subst hgo
        exact h.goes (fun m => by rw [hpc]; rfl) True.intro

/-- A call of a function. -/
theorem call (h : LockInv s) {k : LockCall} (hcall : s.call c k l = some t) : s.Carries t := by
  rw [LockMachine.call] at hcall
  split at hcall
  · next hpc =>
      rw [Option.some_inj] at hcall
      subst hcall
      exact h.goes (fun m => by rw [hpc]; rfl) True.intro
  · simp at hcall

/-- **A step keeps the invariant**, and only what a processor stores changes the data. -/
theorem step (h : LockInv s) {x : LockOp Cpu D} (hstep : s.Step x t) :
    s.Carries t ∨ ∃ c a v, x = .store c a v ∧ t = (s.write c (.data a) v).happens (.store c a v) ∧
      s.Goes t := by
  cases x with
  | lock | unlock | holding | assertLock => exact .inl (h.call hstep)
  | go c => exact .inl (h.go hstep)
  | drain c =>
      rw [LockMachine.Step, LockMachine.exec, Option.some_inj] at hstep
      subst hstep
      exact .inl ⟨⟨h.drain c, .inl rfl⟩, fun _ _ _ hd => hd.drain c, fun _ _ => rfl⟩
  | load c a =>
      rw [LockMachine.Step, LockMachine.exec] at hstep
      split at hstep
      · rw [Option.some_inj] at hstep
        subst hstep
        refine .inl ⟨⟨h.happens rfl, .inr ⟨_, rfl, True.intro, rfl⟩⟩, fun m b w hd => ?_, fun v b =>
          valueAfter_snoc ..⟩
        rw [LockMachine.happens_owners]
        exact hd
      · simp at hstep
  | store c a v =>
      rw [LockMachine.Step, LockMachine.exec] at hstep
      split at hstep
      · rw [Option.some_inj] at hstep
        subst hstep
        exact .inr ⟨c, a, v, rfl, rfl, (h.write (by simp) (by simp) v).happens rfl,
          .inr ⟨_, rfl, True.intro, True.intro⟩⟩
      · simp at hstep

end LockInv

/-- **The invariant holds in every run**, and the log is one that the specification allows. -/
theorem LockInv.run {data : D → LockWord Cpu} {x : LockMachine Cpu D}
    {tr : List (LockMachine Cpu D × LockOp Cpu D)}
    (hrun : Run (fun s y t => LockMachine.Step s y t) (LockMachine.boot data) tr x) :
    LockInv x ∧ ∃ tr' : List (LockOwners Cpu × LockEvent Cpu D),
      Run (fun o e o' => LockEvent.Does o e o') (fun _ => none) tr' x.owners ∧
        tr'.map Prod.snd = x.log := by
  generalize hstart : LockMachine.boot data = s₀ at hrun
  induction hrun with
  | nil =>
      subst hstart
      exact ⟨LockInv.boot data, [], Run.nil _, rfl⟩
  | @snoc s t tr y _ hst ih =>
      subst hstart
      obtain ⟨hinv, tr', hlocks, hlog⟩ := ih
      have hgoes : s.Goes t := by
        rcases hinv.step hst with h | ⟨-, -, -, -, -, h⟩
        · exact h.toGoes
        · exact h
      refine ⟨hgoes.inv, ?_⟩
      rcases hgoes.log with h | ⟨e, h, hlegal, -⟩
      · rw [LockMachine.owners, h]
        exact ⟨tr', hlocks, hlog⟩
      · rw [LockMachine.owners, h, ownersAfter_snoc]
        exact ⟨tr' ++ [(s.owners, e)], hlocks.snoc ⟨hlegal, rfl⟩, by simp [hlog]⟩

/-- **The locks exclude.** On any number of processors, in every order of their steps, whatever
functions they call: what happens to the locks is a run of a lock that has at most one owner, that
is never waited for by its owner and never given back by another, and every test for the holder
comes out right. A processor that waits gets the lock with its next `xchg` if nobody has it. -/
theorem spin_locks_exclude {data : D → LockWord Cpu} {x : LockMachine Cpu D}
    {tr : List (LockMachine Cpu D × LockOp Cpu D)}
    (hrun : Run (fun s y t => LockMachine.Step s y t) (LockMachine.boot data) tr x) :
    (∃ tr' : List (LockOwners Cpu × LockEvent Cpu D),
      Run (fun o e o' => LockEvent.Does o e o') (fun _ => none) tr' (ownersAfter x.log) ∧
        tr'.map Prod.snd = x.log) ∧
    ∀ c l pcs, x.pc c = .spin l pcs → x.mem.buf c = [] → ownersAfter x.log l = none →
      ∃ t, x.Step (.go c) t ∧ ownersAfter t.log l = some c := by
  obtain ⟨hinv, hlog⟩ := LockInv.run hrun
  refine ⟨hlog, fun c l pcs hpc hbuf ho => ?_⟩
  have hram : x.mem.ram (.lock l .locked) = .num 0 := by
    rw [← Memory.read_of_nil hbuf]
    exact (hinv.read_locked c l).2 ho
  refine ⟨((x.xchg l 1).happens (.acquire c l)).goto c (.setCpu l pcs), ?_, ?_⟩
  · rw [LockMachine.Step, LockMachine.exec, LockMachine.go, hpc]
    exact (if_pos hbuf).trans (if_pos hram)
  · change (((x.xchg l 1).happens (.acquire c l)).goto c (.setCpu l pcs)).owners l = some c
    rw [LockMachine.goto_owners, LockMachine.happens_owners, LockEvent.owners_acquire,
      Function.update_self]

/-- One processor takes `env_lock` and stores into the data; the other one waits, then takes it in
its turn and reads them. -/
def contended : List (LockOp Bool Unit) :=
  [.lock false .env (fun _ => 0) 0, .go false, .go false, .lock true .env (fun _ => 0) 0, .go true,
    .go true, .go true] ++
    List.replicate 12 (.go false) ++ [.store false () (.num 7), .unlock false .env] ++
      List.replicate 4 (.go false) ++
    List.replicate 14 (.drain false) ++ [.go false] ++ List.replicate 13 (.go true) ++
      [.load true ()]

/-- What the log of it is. -/
def contendedLog : List (LockEvent Bool Unit) :=
  [.test false (.spinLock (List.replicate 10 0)) .env false, .acquire false .env,
    .test true (.spinLock (List.replicate 10 0)) .env false,
    .busy true .env, .store false () (.num 7), .test false .spinUnlock .env true,
      .release false .env, .acquire true .env,
    .load true () (.num 7)]

theorem contended_run :
    ∃ tr x, Run (fun s y t => LockMachine.Step s y t)
      (LockMachine.boot fun _ : Unit => .num 0) tr x ∧
    x.log = contendedLog := by
  have hexec : (execAll (fun s y => LockMachine.exec s y) (LockMachine.boot fun _ => .num 0)
      contended).map (·.log) = some contendedLog := by
    decide +kernel
  obtain ⟨x, hx, hlog⟩ := Option.map_eq_some_iff.1 hexec
  obtain ⟨tr, hrun, -⟩ := run_of_execAll hx
  exact ⟨tr, x, hrun, hlog⟩

theorem spin_locks_exclude_contended :
    ∃ tr x, Run (fun s y t => LockMachine.Step s y t)
      (LockMachine.boot fun _ : Unit => .num 0) tr x ∧
    x.log = contendedLog ∧
    (∃ tr' : List (LockOwners Bool × LockEvent Bool Unit),
      Run (fun o e o' => LockEvent.Does o e o') (fun _ => none) tr' (ownersAfter x.log) ∧
        tr'.map Prod.snd = x.log) ∧
    ∀ c l pcs, x.pc c = .spin l pcs → x.mem.buf c = [] → ownersAfter x.log l = none →
      ∃ t, x.Step (.go c) t ∧ ownersAfter t.log l = some c := by
  obtain ⟨tr, x, hrun, hlog⟩ := contended_run
  exact ⟨tr, x, hrun, hlog, spin_locks_exclude hrun⟩

/-! ### The view of one processor -/

/-- The locks that a processor holds. -/
def heldBy (c : Cpu) (o : LockOwners Cpu) : Lock → Bool := fun l => decide (o l = some c)

/-- An event as the system-call layer has it on one processor: its own calls that come back. -/
def LockEvent.kern (c : Cpu) : LockEvent Cpu D → Kern Unit
  | .acquire d l => if d = c then Kern.spinLock l else pure ()
  | .release d l => if d = c then Kern.spinUnlock l else pure ()
  | .test d .assertLock l true => if d = c then Kern.assertLock l else pure ()
  | _ => pure ()

/-- The calls of a processor, one after the other. -/
def kernCalls (c : Cpu) (log : List (LockEvent Cpu D)) : Kern Unit :=
  log.foldl (fun m e => m >>= fun _ => e.kern c) (pure ())

/-- What the system-call layer says of an answer of `holding()`: it is whether the lock is held, and
an assertion that finds it is not panics there as well. -/
def LockEvent.Agrees (c : Cpu) (s : KState) : LockEvent Cpu D → Prop
  | .test d k l b => d = c → b = s.held l ∧
      (k = .assertLock → b = false → ∃ why, Kern.assertLock l s = .error why)
  | _ => True

/-- What the system-call layer says of the call that a processor is in. -/
def LockPc.Agrees (s : KState) : LockPc → Prop
  | .spin l _ => ∃ r, Kern.spinLock l s = .ok r
  | .clearPcs l => ∃ r, Kern.spinUnlock l s = .ok r
  | .report l | .stopped (.notHolding l) => Kern.spinUnlock l s = .error (.notHolding l)
  | .stopped (.alreadyHolding l) => Kern.spinLock l s = .error (.alreadyHolding l)
  | _ => True

variable {c d : Cpu} {l : Lock} {o : LockOwners Cpu}

theorem spinLock_ok {s : KState} (h : s.held l = false) :
    Kern.spinLock l s = .ok ((), { s with held := Function.update s.held l true }) := by
  rw [Kern.spinLock, if_neg (by rw [h]; exact Bool.false_ne_true)]

theorem spinUnlock_ok {s : KState} (h : s.held l = true) :
    Kern.spinUnlock l s = .ok ((), { s with held := Function.update s.held l false }) := by
  rw [Kern.spinUnlock, if_pos h]

theorem heldBy_update (c : Cpu) (o : LockOwners Cpu) (l : Lock) (v : Option Cpu) :
    heldBy c (Function.update o l v) = Function.update (heldBy c o) l (decide (v = some c)) := by
  funext k
  rw [heldBy, Function.update_apply, Function.update_apply]
  split
  · rfl
  · rfl

/-- What another processor does with a lock that this one does not hold. -/
theorem heldBy_other {v : Option Cpu} (ho : o l ≠ some c) (hv : v ≠ some c) :
    heldBy c (Function.update o l v) = heldBy c o := by
  rw [heldBy_update, decide_eq_false hv]
  exact Function.update_eq_self_iff.2 (decide_eq_false ho).symm

/-- **One event** in the view of a processor. -/
theorem LockEvent.kern_ok {e : LockEvent Cpu D} {s : KState} (hs : s.held = heldBy c o)
    (h : e.Legal o) :
    e.kern c s = .ok ((), { s with held := heldBy c (e.owners o) }) := by
  cases e with
  | acquire d l =>
      rw [LockEvent.kern, owners_acquire]
      have hne : o l ≠ some c := by
        rw [show o l = none from h]
        simp
      split
      · next hd =>
          subst hd
          rw [spinLock_ok (by rw [hs]; exact decide_eq_false hne), heldBy_update, hs, decide_eq_true
            rfl]
      · next hd =>
          rw [heldBy_other hne (by simpa using hd), ← hs]
          rfl
  | release d l =>
      rw [LockEvent.kern, owners_release]
      split
      · next hd =>
          subst hd
          rw [spinUnlock_ok (by rw [hs]; exact decide_eq_true h), heldBy_update, hs,
            decide_eq_false (by simp)]
      · next hd =>
          have hne : o l ≠ some c := by
            rw [show o l = some d from h]
            simpa using hd
          rw [heldBy_other hne (by simp), ← hs]
          rfl
  | test d k l b =>
      have hself : ({ s with held := heldBy c o } : KState) = s := by rw [← hs]
      refine Eq.trans ?_ (congrArg (fun s => Except.ok ((), s)) hself.symm)
      cases k with
      | spinLock | spinUnlock | holdingL => rfl
      | assertLock =>
          cases b with
          | false => rfl
          | true =>
              rw [LockEvent.kern]
              split
              · next hd =>
                  subst hd
                  have hheld : s.held l = true := by
                    rw [hs]
                    exact decide_eq_true (h.1 rfl)
                  exact congrFun (if_pos hheld) s
              · rfl
  | busy d l | load d a v | store d a v =>
      have hself : ({ s with held := heldBy c o } : KState) = s := by rw [← hs]
      exact congrArg (fun s => Except.ok ((), s)) hself.symm

theorem kernCalls_snoc (c : Cpu) (log : List (LockEvent Cpu D)) (e : LockEvent Cpu D) :
    kernCalls c (log ++ [e]) = kernCalls c log >>= fun _ => e.kern c := by
  rw [kernCalls, List.foldl_append, List.foldl_cons, List.foldl_nil, kernCalls]

/-- **All calls of a processor**, in a run of the locks. -/
theorem kernCalls_ok {tr : List (LockOwners Cpu × LockEvent Cpu D)} {s : KState}
    (hs : s.held = fun _ => false)
    (hrun : Run (fun o e o' => LockEvent.Does o e o') (fun _ => none) tr o) :
    kernCalls c (tr.map Prod.snd) s = .ok ((), { s with held := heldBy c o }) := by
  generalize hstart : (fun _ => none : LockOwners Cpu) = o₀ at hrun
  induction hrun with
  | nil =>
      subst hstart
      have hself : ({ s with held := heldBy c fun _ => none } : KState) = s := by
        rw [show heldBy c (fun _ => none) = s.held by rw [hs]; rfl]
      exact congrArg (fun s => Except.ok ((), s)) hself.symm
  | @snoc o₁ o₂ tr e _ hst ih =>
      subst hstart
      obtain ⟨hlegal, rfl⟩ := hst
      rw [List.map_append, List.map_singleton, kernCalls_snoc]
      change (kernCalls c (tr.map Prod.snd) s >>= fun r => e.kern c r.2) = _
      rw [ih]
      exact e.kern_ok (s := { s with held := heldBy c o₁ }) rfl hlegal

/-- Every event of a run of the locks is legal where it happens. -/
theorem legal_of_run {tr : List (LockOwners Cpu × LockEvent Cpu D)}
    (hrun : Run (fun o e o' => LockEvent.Does o e o') (fun _ => none) tr o) :
    o = ownersAfter (tr.map Prod.snd) ∧
      ∀ p e q, tr.map Prod.snd = p ++ e :: q → LockEvent.Legal (ownersAfter p) e := by
  generalize hstart : (fun _ => none : LockOwners Cpu) = o₀ at hrun
  induction hrun with
  | nil =>
      subst hstart
      exact ⟨rfl, fun p e q h => absurd h (by simp)⟩
  | @snoc o₁ o₂ tr e _ hst ih =>
      subst hstart
      obtain ⟨ho, hall⟩ := ih
      obtain ⟨hlegal, rfl⟩ := hst
      rw [List.map_append, List.map_singleton]
      refine ⟨by rw [ownersAfter_snoc, ho], fun p e' q h => ?_⟩
      -- the event is the last one, or one of those before it
      rcases List.eq_nil_or_concat q with rfl | ⟨q, e'', rfl⟩
      · obtain ⟨hp, he⟩ := List.append_inj' h rfl
        rw [← List.singleton_inj.1 he, ← hp, ← ho]
        exact hlegal
      · rw [List.concat_eq_append, ← List.cons_append, ← List.append_assoc] at h
        exact hall p e' q (List.append_inj' h rfl).1

/-- A legal answer is the one that the system-call layer has. -/
theorem LockEvent.Legal.agrees {e : LockEvent Cpu D} (h : e.Legal o) (c : Cpu) (s : KState) :
    e.Agrees c { s with held := heldBy c o } := by
  cases e with
  | test d k l b =>
      intro hd
      subst hd
      have hb : b = heldBy d o l := Bool.eq_iff_iff.2 (Iff.trans h decide_eq_true_iff.symm)
      refine ⟨hb, fun _ hfalse => ⟨.crash (.assertFailed "lock.locked && lock.cpu == thiscpu"), ?_⟩⟩
      have hfree : ¬ heldBy d o l = true := by
        rw [← hb, hfalse]
        exact Bool.false_ne_true
      exact congrFun (if_neg hfree) _
  | acquire | release | busy | load | store => exact True.intro

/-- **What a processor sees of the locks** are the locks of the system-call layer: in every run, its
calls that have come back do there what they did here, `holding()` answers what is held there, and
the call that it is in waits, goes on or panics as it does there. -/
theorem processor_view {data : D → LockWord Cpu} {x : LockMachine Cpu D}
    {tr : List (LockMachine Cpu D × LockOp Cpu D)}
    (hrun : Run (fun s y t => LockMachine.Step s y t) (LockMachine.boot data) tr x) (c : Cpu)
    {s : KState} (hs : s.held = fun _ => false) :
    kernCalls c x.log s = .ok ((), { s with held := heldBy c (ownersAfter x.log) }) ∧
      (∀ p e q, x.log = p ++ e :: q →
        LockEvent.Agrees c { s with held := heldBy c (ownersAfter p) } e) ∧
      (x.pc c).Agrees { s with held := heldBy c (ownersAfter x.log) } := by
  obtain ⟨hinv, tr', hlocks, hlog⟩ := LockInv.run hrun
  refine ⟨?_, fun p e q hsplit =>
    ((legal_of_run hlocks).2 p e q (hlog.trans hsplit)).agrees c s, ?_⟩
  · have hcalls := kernCalls_ok (c := c) hs hlocks
    rwa [hlog] at hcalls
  have hok := hinv.pc c
  cases hpc : x.pc c with
  | spin l pcs =>
      rw [hpc] at hok
      exact ⟨_, spinLock_ok (decide_eq_false hok)⟩
  | clearPcs l =>
      rw [hpc] at hok
      exact ⟨_, spinUnlock_ok (decide_eq_true hok)⟩
  | report l =>
      rw [hpc] at hok
      exact if_neg (mt of_decide_eq_true hok)
  | stopped why =>
      rw [hpc] at hok
      cases why with
      | notHolding l => exact if_neg (mt of_decide_eq_true hok)
      | alreadyHolding l =>
          have hheld : heldBy c (ownersAfter x.log) l = true :=
            decide_eq_true (p := ownersAfter x.log l = some c) hok
          exact if_pos hheld
      | crash | left | rebooted => exact True.intro
  | out | test | testCpu | setCpu | setPcs | clearCpu | release => exact True.intro

theorem processor_view_contended :
    ∃ tr x, Run (fun s y t => LockMachine.Step s y t)
      (LockMachine.boot fun _ : Unit => .num 0) tr x ∧
    x.log = contendedLog ∧
    kernCalls true x.log stackOnly =
      .ok ((), { stackOnly with held := heldBy true (ownersAfter x.log) }) ∧
    (∀ p e q, x.log = p ++ e :: q → LockEvent.Agrees true
      { stackOnly with held := heldBy true (ownersAfter p) } e) ∧
    (x.pc true).Agrees { stackOnly with held := heldBy true (ownersAfter x.log) } := by
  obtain ⟨tr, x, hrun, hlog⟩ := contended_run
  exact ⟨tr, x, hrun, hlog, processor_view hrun true rfl⟩

/-! ### Data under a lock -/

/-- The data at `a` are only stored by a processor that holds `l`. -/
def LockOp.Guarded (a : D) (l : Lock) (s : LockMachine Cpu D) : LockOp Cpu D → Prop
  | .store c b _ => b = a → ownersAfter s.log l = some c
  | _ => True

instance LockOp.decidableGuarded (a : D) (l : Lock) (s : LockMachine Cpu D) (x : LockOp Cpu D) :
    Decidable (x.Guarded a l s) := by
  cases x with
  | store c b v => exact inferInstanceAs (Decidable (_ → _))
  | lock | unlock | holding | assertLock | load | go | drain => exact isTrue True.intro

/-- Every load of a processor that holds the lock is right. -/
def Current (v : LockWord Cpu) (a : D) (l : Lock) (log : List (LockEvent Cpu D)) : Prop :=
  ∀ p q c w, log = p ++ .load c a w :: q → ownersAfter p l = some c → w = valueAfter v a p

theorem Current.snoc {v : LockWord Cpu} {a : D} {l : Lock} {log : List (LockEvent Cpu D)}
    (h : Current v a l log) {e : LockEvent Cpu D}
    (he : ∀ c w, e = .load c a w → ownersAfter log l = some c → w = valueAfter v a log) :
    Current v a l (log ++ [e]) := by
  intro p q c w hlog ho
  rcases List.eq_nil_or_concat q with rfl | ⟨q, e', rfl⟩
  · obtain ⟨rfl, he'⟩ := List.append_inj' hlog rfl
    exact he c w (List.singleton_inj.1 he') ho
  · rw [List.concat_eq_append, ← List.cons_append, ← List.append_assoc] at hlog
    exact h p q c w (List.append_inj' hlog rfl).1 ho

/-- The data belong to the owner of their lock, and are what was stored last. -/
structure DataInv (v : LockWord Cpu) (a : D) (l : Lock) (s : LockMachine Cpu D) : Prop where
  locks : LockInv s
  data : s.mem.Holds (s.owners l) (.data a) (valueAfter v a s.log)
  current : Current v a l s.log

theorem DataInv.boot (data : D → LockWord Cpu) (a : D) (l : Lock) :
    DataInv (data a) a l (LockMachine.boot data) := by
  refine ⟨LockInv.boot data, Memory.Holds.boot _ _, ?_⟩
  intro p q c w hlog
  exact absurd hlog.symm (by simp [LockMachine.boot])

/-- **A step keeps the data.** -/
theorem DataInv.step {v : LockWord Cpu} {a : D} {l : Lock} {s t : LockMachine Cpu D}
    (h : DataInv v a l s) {x : LockOp Cpu D} (hg : x.Guarded a l s) (hstep : s.Step x t) :
    DataInv v a l t := by
  rcases h.locks.step hstep with hc | ⟨c, b, w, rfl, rfl, hgoes⟩
  · refine ⟨hc.inv, ?_, ?_⟩
    · rw [hc.value]
      exact hc.data l a _ h.data
    · rcases hc.log with hlog | ⟨e, hlog, -, hread⟩
      · rw [hlog]
        exact h.current
      · rw [hlog]
        refine h.current.snoc ?_
        rintro c w rfl ho
        have hdata := h.data
        rw [LockMachine.owners, ho] at hdata
        exact (show w = _ from hread).trans (hdata.read c rfl)
  · refine ⟨hgoes.inv, ?_, h.current.snoc fun c' w' he => by simp at he⟩
    rw [LockMachine.happens_owners]
    change (s.mem.write c (.data b) w).Holds (s.owners l) (.data a)
      (valueAfter v a (s.log ++ [.store c b w]))
    rw [valueAfter_snoc, LockEvent.value]
    split
    · next hb =>
        subst hb
        have hdata := h.data
        have ho : s.owners l = some c := hg rfl
        rw [ho] at hdata ⊢
        exact hdata.write w
    · next hb => exact h.data.write_ne (by simpa using hb) c w

/-- **Data under a lock are current.** If the data at `a` are stored only by processors that hold
the lock `l` at that time, then in every run a processor that holds it loads what was stored last,
on whatever processor that was. -/
theorem guarded_data_current {data : D → LockWord Cpu} {a : D} {l : Lock} {x : LockMachine Cpu D}
    {tr : List (LockMachine Cpu D × LockOp Cpu D)}
    (hrun : Run (fun s y t => LockMachine.Step s y t) (LockMachine.boot data) tr x)
    (hguard : Meets (fun s y => LockOp.Guarded a l s y) tr) {p q : List (LockEvent Cpu D)} {c : Cpu}
    {w : LockWord Cpu} (hload : x.log = p ++ .load c a w :: q) (hheld : ownersAfter p l = some c) :
    w = valueAfter (data a) a p := by
  have hinv : DataInv (data a) a l x :=
    hrun.invariant (fun _ _ _ h hg hstep => h.step hg hstep) (DataInv.boot data a l) hguard
  exact hinv.current p q c w hload hheld

theorem guarded_data_current_contended : ∃ tr x,
    Run (fun s y t => LockMachine.Step s y t) (LockMachine.boot fun _ : Unit => .num 0) tr x ∧
      Meets (fun s y => LockOp.Guarded () .env s y) tr ∧
    x.log = contendedLog.take 8 ++ [.load true () (.num 7)] ∧ (.num 7 : LockWord Bool) = valueAfter
      (.num 0) () (contendedLog.take 8) := by
  have hexec : (execAll (fun s y => if LockOp.Guarded () .env s y then
      LockMachine.exec s y else none)
      (LockMachine.boot fun _ => .num 0) contended).map (·.log) = some contendedLog := by
    decide +kernel
  obtain ⟨x, hx, hlog⟩ := Option.map_eq_some_iff.1 hexec
  obtain ⟨tr, hrun, hguard, -⟩ := run_of_guarded (fun _ _ _ h => h) hx
  have hload : x.log = contendedLog.take 8 ++ .load true () (.num 7) :: [] := hlog
  exact ⟨tr, x, hrun, hguard, hload, guarded_data_current hrun hguard hload (by decide)⟩

end Jos
