/-
**Reclaiming pages.**

`reclaim_pgs` takes pages off the inactive list, and queues a `page_out` for each of them, as long
as pages are wanted and tasklets are free. It removes a page before it tests whether there is one,
so it dereferences `NULL` when the list runs out first; and it takes the address 0 that
`find_pte_all` finds for a page that is not found.

Main definitions:

* `Jos.ReclaimState.reclaimPgs` — the loop, and the call of `oom_kill` for the pages that are still
  missing;
* `Jos.ReclaimInv` — the state before the call;
* `Jos.Reclaimed` — **no page is lost**: what the call is to leave behind;
* `Jos.Away` — a page that is found at another address than 0;
* `Jos.Reclaimable` — the condition under which the loop comes to its end.

Main results:

* `Jos.reclaimTask_queues` — one page is queued;
* `Jos.reclaimFrom_reclaimed`, `Jos.reclaimFrom_crashes` — the loop;
* `Jos.reclaimPgs_iff` — **when the call loses no page**.
-/

import JosKernel.ReverseMap
import JosKernel.TaskQueue
import JosKernel.OomKill

set_option relaxedAutoImplicit false
set_option autoImplicit false

namespace Jos

open LinkedList Outcome

/-! ### The call -/

/-- The memory with the lists of pages, the table of environments and the tasklets. -/
structure ReclaimState where
  vm : Vm
  kern : Kernel
  tasks : TaskTable

/-- How the call ends: it returns a number, or it goes on to `sched_yield` because the environment
of the processor is gone. -/
inductive ReclaimEnd
  | returned (pgC : BitVec 32)
  | yielded
  deriving DecidableEq, Repr

/-- The environment that `oom_kill(e, pgs_r)` destroys. -/
def oomVictim (s : OomTable) (e : Option ℕ) (pgsR : BitVec 32) : Except Crash (Option ℕ) := do
  let (bad, theworst) ← (List.range nEnv).foldlM (oomRound s) (fun _ => 0, 0)
  let kill :=
    if bad theworst ≠ 0 ∧ (0#32).slt pgsR ∧ pgsR.sle (bad theworst) then some theworst else none
  pure (if kill = e then none else kill)

namespace ReclaimState

/-- The state as `find_pte_all` reads it. -/
def search (s : ReclaimState) : OutState where
  vm := s.vm
  cr3 := 0
  status := s.kern.status
  swapMap := ⟨fun _ => 0⟩
  userStores := []

/-- The state as `oom_kill` reads it. -/
def oomTable (s : ReclaimState) : OomTable where
  kern := s.kern
  allocPages i := (s.vm.envs i).allocPages
  npages := BitVec.ofNat 32 s.vm.mm.npages

/-- The lists of pages have been changed. -/
def setMm (s : ReclaimState) (mm : Mm) : ReclaimState := { s with vm := { s.vm with mm := mm } }

/-- The tasklet `t` is filled in for the page `pp` and queued. -/
def reclaimTask (s : ReclaimState) (t pp : ℕ) : Except Crash ReclaimState := do
  let args := (s.tasks.task t).args
  let (_, e, fva) ← findPte s.search pp args.requestorEnv
  if e = none ∨ fva = 0 then throw (.panic "OMG env %x fva: %x lookingfor: %x")
  else do
    let tasks ← taskAddAlloc (s.tasks.prepare t .pageOut
        { args with pi := some pp, faultAddr := fva, requestorEnv := e }) t
    pure { s with tasks := tasks }

/-- The loop of `reclaim_pgs` while `n` pages are wanted, with the number of those that are missing
in the end. -/
def reclaimFrom : ℕ → ReclaimState → Except Crash (ℕ × ReclaimState)
  | 0, s => pure (0, s)
  | n + 1, s => do
      let (pp, mm) ← lruHiRemove s.vm.mm
      let s := s.setMm mm
      match taskGetFree s.tasks with
      | (some t, tasks) => do
          let s ← reclaimTask { s with tasks := tasks } t pp
          reclaimFrom n s
      | (none, _) => pure (n + 1, s.setMm (lruHiInsert s.vm.mm pp))

/-- `oom_kill(e, pg_c)` on processor `c`, and what `reclaim_pgs` returns after it. -/
def oomKillEnd (s : ReclaimState) (c : ℕ) (e : Option ℕ) (pgC : BitVec 32) :
    Except Crash (ReclaimEnd × ReclaimState) := do
  let kill ← oomVictim s.oomTable e pgC
  match kill with
  | none => pure (.returned pgC, s)
  | some x => do
      let vm ← if s.kern.status x = .running ∧ s.kern.curenv c ≠ some x then pure s.vm
          else envFreeVm s.vm x
      let (kern, next) := envDestroy s.kern c x
      pure (if next = .yield then .yielded else .returned 0, { s with vm := vm, kern := kern })

/-- **`reclaim_pgs(e, pg_n)`** on processor `c`, with `none` for `NULL`. -/
def reclaimPgs (s : ReclaimState) (c : ℕ) (e : Option ℕ) (pgN : BitVec 32) :
    Except Crash (ReclaimEnd × ReclaimState) :=
  if 0 < pgN.toInt then do
    let (pgC, s) ← reclaimFrom pgN.toNat s
    if 0 < pgC then s.oomKillEnd c e (BitVec.ofNat 32 pgC) else pure (.returned 0, s)
  else pure (.returned pgN, s)

end ReclaimState

/-! ### `oom_kill` -/

/-- The call of `oom_kill`, by its victim. -/
theorem oomKill_victim (s : OomTable) (c : ℕ) (e : Option ℕ) (pgsR : BitVec 32) :
    oomKill s c e pgsR = oomVictim s e pgsR >>= fun kill => match kill with
      | none => pure (.returned false, s)
      | some x =>
          pure (if (oomDestroy s c x).2 = .yield then .yielded else .returned true,
            (oomDestroy s c x).1) := by
  rw [oomKill, oomVictim]
  generalize (List.range nEnv).foldlM (oomRound s) (fun _ => 0, 0) = r
  cases r with
  | error => rfl
  | ok r =>
      obtain ⟨bad, theworst⟩ := r
      simp only [bind, Except.bind, pure, Except.pure]
      by_cases hkill : bad theworst ≠ 0 ∧ (0#32).slt pgsR ∧ pgsR.sle (bad theworst)
      · by_cases he : some theworst = e
        · simp only [if_pos hkill, if_pos he]
        · simp only [if_pos hkill, if_neg he]
      · simp only [if_neg hkill, ite_self]

/-- **With a kernel thread in slot 0** there is no victim. -/
theorem oomVictim_kthread {s : OomTable} {e : Option ℕ} {pgsR : BitVec 32} (h : Divides s)
    (hk : (s.kern.envs 0).type = .kernel) (hpos : 0 < pgsR.toInt) :
    oomVictim s e pgsR = .ok none := by
  have hrun := @oomKill_kthread s 0 e pgsR h hk hpos
  rw [oomKill_victim] at hrun
  obtain ⟨kill, hkill, hrun⟩ := bind_eq_ok.1 hrun
  cases kill with
  | none => exact hkill
  | some x =>
      have hend := (Prod.mk.inj (Except.ok.inj hrun)).1
      split at hend
      · exact nomatch hend
      · exact nomatch hend

/-! ### The state -/

/-- The page of a `page_out` that a tasklet is waiting to begin. -/
def TaskNode.pageToOut (n : TaskNode) : Option ℕ :=
  if n.fptr = some .pageOut ∧ n.state = .work then n.args.pi else none

/-- **The state before the call**: the lists of pages `L`, the queue `l`, the free tasklets `f` and
those that others fill in, and the directories that are searched. -/
structure ReclaimInv (s : ReclaimState) (L : LruSide → List ℕ) (l f held : List ℕ) : Prop where
  lists : LruInv s.vm.mm L
  queue : QueueInv ⟨s.tasks, held⟩ l f
  searchable : Searchable s.search

/-- A page that is found, at another address than 0. -/
def Away (s : OutState) (pp : ℕ) : Prop := ∃ i j k, FirstRead s pp i j k ∧ ¬ (j = 0 ∧ k = 0)

/-- **When the loop comes to its end** with `n` pages wanted, the inactive pages `I` and the free
tasklets `f`: no page is wanted that is not there, and the pages are found. -/
structure Reclaimable (s : OutState) (n : ℕ) (I f : List ℕ) : Prop where
  wanted : n ≤ f.length → n ≤ I.length
  short : f.length < n → f.length < I.length
  away : ∀ pp ∈ I.take (min n f.length), Away s pp

/-- **No page is lost**: `k` pages have been taken off the inactive list, and each of them is the
page of one of the `page_out` tasklets that have been queued. The other pages are on the list as
before. -/
structure Reclaimed (s s' : ReclaimState) (L : LruSide → List ℕ) (l f held : List ℕ) (k : ℕ) :
    Prop where
  le : k ≤ (L .inactive).length ∧ k ≤ f.length
  lists : LruInv s'.vm.mm (Function.update L .inactive ((L .inactive).drop k))
  queue : QueueInv ⟨s'.tasks, held⟩ (l ++ f.take k) (f.drop k)
  jobs : (f.take k).map (fun t => (s'.tasks.task t).pageToOut) = ((L .inactive).take k).map some
  others : ∀ t ∈ l, (s'.tasks.task t).body = (s.tasks.task t).body

/-- What the search reads has not changed. -/
structure SameSearch (s s' : OutState) : Prop where
  envs : s'.vm.envs = s.vm.envs
  status : ∀ i, nKthreads ≤ i → s'.status i = s.status i
  npages : s'.vm.mm.npages = s.vm.mm.npages
  mem : s'.vm.mm.mem = s.vm.mm.mem

namespace SameSearch

variable {s s' s'' : OutState}

theorem trans (h : SameSearch s s') (h' : SameSearch s' s'') : SameSearch s s'' :=
  ⟨h'.envs.trans h.envs, fun i hi => (h'.status i hi).trans (h.status i hi),
    h'.npages.trans h.npages, h'.mem.trans h.mem⟩

theorem symm (h : SameSearch s s') : SameSearch s' s :=
  ⟨h.envs.symm, fun i hi => (h.status i hi).symm, h.npages.symm, h.mem.symm⟩

theorem word (h : SameSearch s s') (f i : ℕ) : s'.vm.mm.word f i = s.vm.mm.word f i :=
  Mm.word_of_mem (congrFun h.mem f) i

theorem pgdir (h : SameSearch s s') (e : ℕ) : s'.vm.pgdir e = s.vm.pgdir e := by
  rw [Vm.pgdir, Vm.pgdir, h.envs]

theorem searched (h : SameSearch s s') {i : ℕ} (hi : Searched s i) : Searched s' i := by
  refine ⟨hi.thread, hi.lt, ?_⟩
  rw [h.status i hi.thread]
  exact hi.status

theorem readsIn (h : SameSearch s s') {pp i j k : ℕ} (hr : ReadsIn s pp i j k) :
    ReadsIn s' pp i j k := by
  obtain ⟨dir, hdir, hread⟩ := hr
  refine ⟨dir, (h.pgdir i).trans hdir, hread.slot, hread.idx, ?_, ?_, ?_⟩
  · rw [h.word]
    exact hread.pde
  · rw [h.word, h.word]
    exact hread.pte
  · rw [h.word, h.word]
    exact hread.addr

theorem searchable (h : SameSearch s s') (hs : Searchable s) : Searchable s' := by
  intro i hi
  obtain ⟨dir, hdir, hbelow⟩ := hs i (h.symm.searched hi)
  refine ⟨dir, (h.pgdir i).trans hdir, fun j hj hpde => ?_⟩
  rw [h.word] at hpde ⊢
  rw [h.npages]
  exact hbelow j hj hpde

theorem firstRead (h : SameSearch s s') {pp i j k : ℕ} (hfirst : FirstRead s pp i j k) :
    FirstRead s' pp i j k :=
  ⟨h.searched hfirst.searched, h.readsIn hfirst.reads,
    fun i' hi' hs j' k' hr => hfirst.env i' hi' (h.symm.searched hs) j' k' (h.symm.readsIn hr),
    fun j' hj' k' hr => hfirst.slot j' hj' k' (h.symm.readsIn hr),
      fun k' hk' hr => hfirst.idx k' hk' (h.symm.readsIn hr)⟩

theorem away (h : SameSearch s s') {pp : ℕ} (ha : Away s pp) : Away s' pp := by
  obtain ⟨i, j, k, hfirst, hne⟩ := ha
  exact ⟨i, j, k, h.firstRead hfirst, hne⟩

end SameSearch

/-! ### The lists of pages -/

/-- The lists of pages are not in the frames. -/
theorem lruHeadRemove_mem {m t : Mm} {q : LruSide} {p : ℕ} (h : lruHeadRemove m q = .ok (p, t)) :
    t.mem = m.mem ∧ t.npages = m.npages := by
  rw [lruHeadRemove, lruRemoveHead] at h
  generalize hm₁ : (if m.lruHead q = m.lruTail q then m.setLruTail q none else m) = m₁ at h
  have hkept : m₁.mem = m.mem ∧ m₁.npages = m.npages := by
    rw [← hm₁]
    split
    · exact ⟨rfl, rfl⟩
    · exact ⟨rfl, rfl⟩
  cases hhead : m₁.lruHead q with
  | none =>
      simp only [hhead] at h
      cases h
  | some p =>
      simp only [hhead] at h
      rw [← (Prod.mk.inj (Except.ok.inj h)).2]
      cases q with
      | active => exact hkept
      | inactive => exact hkept

theorem lruHiInsert_mem (m : Mm) (pp : ℕ) :
    (lruHiInsert m pp).mem = m.mem ∧ (lruHiInsert m pp).npages = m.npages := by
  unfold lruHiInsert lruInsertHead
  dsimp only
  split
  · exact ⟨rfl, rfl⟩
  · exact ⟨rfl, rfl⟩

/-- An empty list has no head to remove. -/
theorem lruHiRemove_nil {m : Mm} {L : LruSide → List ℕ} (h : LruInv m L) (hnil : L .inactive = []) :
    lruHiRemove m = .error .nullDeref := by
  have hchain := (h.rep .inactive).chain
  have htail := (h.rep .inactive).tail
  rw [hnil] at hchain htail
  have hhead : m.lruHead .inactive = none := hchain
  have htail : m.lruTail .inactive = none := htail
  rw [lruHiRemove, lruHeadRemove, lruRemoveHead, if_pos (hhead.trans htail.symm),
    Mm.lruHead_setLruTail, hhead]
  rfl

/-- **A page is put back** to where it was taken from. -/
theorem LruInv.putBack {m t : Mm} {L : LruSide → List ℕ} {pp : ℕ} {I : List ℕ} (h : LruInv m L)
    (hI : L .inactive = pp :: I) (ht : LruInv t (Function.update L .inactive I))
    (hnp : t.npages = m.npages) : LruInv (lruHiInsert t pp) L := by
  have hmem : pp ∈ L .inactive := by
    rw [hI]
    exact List.mem_cons_self
  have hnd := h.nodup .inactive
  rw [hI] at hnd
  have hno := h.not_mem_update hmem (List.nodup_cons.1 hnd).1
  have hin := ht.insertHead (by rw [hnp]; exact h.bound .inactive pp hmem) hno .inactive
  rw [Function.update_self, Function.update_idem, ← hI, Function.update_eq_self] at hin
  exact hin

/-! ### One page -/

section

variable {s : ReclaimState} {L : LruSide → List ℕ} {l f held : List ℕ}

/-- The first free tasklet is taken. -/
theorem ReclaimInv.getFree {t : ℕ} (h : QueueInv ⟨s.tasks, held⟩ l (t :: f)) :
    ∃ tab, taskGetFree s.tasks = (some t, tab) ∧
    QueueInv ⟨tab, t :: held⟩ l f ∧ ∀ u, tab.task u = s.tasks.task u := by
  have hhead : s.tasks.head .tFlist = some t := h.flist.1
  refine ⟨s.tasks.setHead (s.tasks.next t) .tFlist, ?_, ?_, fun u => rfl⟩
  · rw [taskGetFree, taskGet, hhead]
  · have hstep : taskStep ⟨s.tasks, held⟩ (.getFree (some t))
        ⟨s.tasks.setHead (s.tasks.next t) .tFlist, t :: held⟩ :=
      ⟨by rw [taskGetFree, taskGet, hhead], rfl⟩
    obtain ⟨f', hf'⟩ := h.getFree hstep
    obtain rfl : f' = f := hf'.flist.unique h.flist.2
    exact hf'

/-- **A tasklet that is filled in** is queued, and the others are as before. -/
theorem taskAddAlloc_filled {tab : TaskTable} {t : ℕ} (h : QueueInv ⟨tab, t :: held⟩ l f)
    (fn : TaskletFn) (args : TaskArgs) :
    ∃ tab', taskAddAlloc (tab.prepare t fn args) t = .ok tab' ∧ QueueInv ⟨tab', held⟩ (l ++ [t]) f ∧
      (∀ u ≠ t, (tab'.task u).body = (tab.task u).body) ∧
      (tab'.task t).body =
        { tab.task t with
          state := .work, fptr := some fn, count := 0, args := args, tNext := none } := by
  obtain ⟨tab', hadd, hinv⟩ := h.addAlloc List.mem_cons_self fn args
  have hlist : Chain (tab.prepare t fn args).next ((tab.prepare t fn args).head .tList) l := by
    rw [QueueInv.next_prepare]
    exact h.list
  have hlen := h.length_eq
  simp only [List.length_cons] at hlen
  obtain ⟨tab'', hadd', happ⟩ :=
    taskAdd_appended false hlist (h.not_mem_of_held List.mem_cons_self).1 (by omega)
  obtain rfl : tab' = tab'' := Except.ok.inj (hadd.symm.trans hadd')
  have herase : (t :: held).erase t = held := List.erase_cons_head ..
  simp only [herase] at hinv
  refine ⟨tab', hadd, hinv, fun u hu => ?_, ?_⟩
  · rw [happ.rest u hu, TaskTable.prepare, TaskTable.modTask_of_ne _ _ hu]
  · rw [happ.self, TaskTable.prepare, TaskTable.modTask_self]
    rfl

/-- What `find_pte_all` returns for a page, and whether `reclaim_pgs` takes it. -/
theorem findPte_away (h : Searchable s.search) (pp : ℕ) (e : Option ℕ) :
    (Away s.search pp ∧ ∃ p i fva, findPte s.search pp e = .ok (p, some i, fva) ∧ fva ≠ 0) ∨
      (¬ Away s.search pp ∧ ∃ p e' , findPte s.search pp e = .ok (p, e', 0)) := by
  rcases @findPte_first s.search pp h e with ⟨hrun, hnone⟩ | ⟨i, j, k, dir, hfirst, -, hrun⟩
  · refine Or.inr ⟨?_, none, e, hrun⟩
    rintro ⟨i, j, k, hfirst, -⟩
    exact hnone i hfirst.searched j k hfirst.reads
  · obtain ⟨_, -, hread⟩ := hfirst.reads
    have haddr : pgAddr j k = 0 ↔ j = 0 ∧ k = 0 := by
      constructor
      · intro hzero
        have hpdx := pdx_pgAddr hread.slot hread.idx
        have hptx := ptx_pgAddr hread.slot hread.idx
        rw [hzero] at hpdx hptx
        exact ⟨hpdx.symm, hptx.symm⟩
      · rintro ⟨rfl, rfl⟩
        rfl
    by_cases hzero : j = 0 ∧ k = 0
    · refine Or.inr ⟨?_, _, _, by rw [hrun, haddr.2 hzero]⟩
      rintro ⟨i', j', k', hfirst', hne⟩
      obtain ⟨rfl, rfl, rfl⟩ := hfirst.unique hfirst'
      exact hne hzero
    · exact Or.inl ⟨⟨i, j, k, hfirst, hzero⟩, _, i, _, hrun, fun hc => hzero (haddr.1 hc)⟩

/-- **One page is queued**, if it is found. -/
theorem reclaimTask_queues {t pp : ℕ} (h : Searchable s.search)
    (hq : QueueInv ⟨s.tasks, t :: held⟩ l f) (ha : Away s.search pp) :
    ∃ s', s.reclaimTask t pp = .ok s' ∧ s'.vm = s.vm ∧ s'.kern = s.kern ∧
      QueueInv ⟨s'.tasks, held⟩ (l ++ [t]) f ∧
      (∀ u ≠ t, (s'.tasks.task u).body = (s.tasks.task u).body) ∧
      (s'.tasks.task t).pageToOut = some pp := by
  rcases findPte_away h pp (s.tasks.task t).args.requestorEnv
    with ⟨-, p, i, fva, hrun, hne⟩ | ⟨hno, -⟩
  · obtain ⟨tab, hadd, hinv, hrest, hself⟩ := taskAddAlloc_filled hq .pageOut
      { (s.tasks.task t).args with pi := some pp, faultAddr := fva, requestorEnv := some i }
    refine ⟨{ s with tasks := tab }, ?_, rfl, rfl, hinv, hrest, ?_⟩
    · rw [ReclaimState.reclaimTask, hrun]
      change (if some i = none ∨ fva = 0 then _ else _) = _
      rw [if_neg (by simpa using hne), hadd]
      rfl
    · have hpage : (tab.task t).body.pageToOut = some pp := by
        rw [hself]
        rfl
      exact hpage
  · exact absurd ha hno

/-- The panic for a page that is not found. -/
theorem reclaimTask_panics {t pp : ℕ} (h : Searchable s.search) (ha : ¬ Away s.search pp)
    (r : ReclaimState) :
    s.reclaimTask t pp ≠ .ok r := by
  rcases findPte_away h pp (s.tasks.task t).args.requestorEnv with ⟨hyes, -⟩ | ⟨-, p, e, hrun⟩
  · exact absurd hyes ha
  · rw [ReclaimState.reclaimTask, hrun]
    change (if e = none ∨ (0 : BitVec 32) = 0 then _ else _) ≠ _
    rw [if_pos (Or.inr rfl)]
    exact fun hc => nomatch hc

end

/-! ### The loop -/

/-- With no page wanted the loop is at its end. -/
theorem reclaimable_zero (s : OutState) (I f : List ℕ) : Reclaimable s 0 I f :=
  ⟨fun _ => Nat.zero_le _, fun h => absurd h (Nat.not_lt_zero _), fun pp hpp => by
    rw [Nat.zero_min, List.take_zero] at hpp
    exact nomatch hpp⟩

/-- One round of the condition. -/
theorem reclaimable_cons {s : OutState} {n pp t : ℕ} {I f : List ℕ} :
    Reclaimable s (n + 1) (pp :: I) (t :: f) ↔ Away s pp ∧ Reclaimable s n I f := by
  have htake : (pp :: I).take (min (n + 1) (t :: f).length) = pp :: I.take (min n f.length) := by
    rw [List.length_cons, Nat.add_min_add_right, List.take_succ_cons]
  constructor
  · rintro ⟨hwanted, hshort, haway⟩
    rw [htake] at haway
    refine ⟨haway pp List.mem_cons_self, fun hle => ?_, fun hlt => ?_, fun p hp =>
      haway p (List.mem_cons_of_mem _ hp)⟩
    · exact Nat.le_of_succ_le_succ (hwanted (Nat.succ_le_succ hle))
    · exact Nat.lt_of_succ_lt_succ (hshort (Nat.succ_lt_succ hlt))
  · rintro ⟨hpp, hwanted, hshort, haway⟩
    refine ⟨fun hle => Nat.succ_le_succ (hwanted (Nat.le_of_succ_le_succ hle)),
      fun hlt => Nat.succ_lt_succ (hshort (Nat.lt_of_succ_lt_succ hlt)), ?_⟩
    rw [htake]
    intro p hp
    rcases List.mem_cons.1 hp with rfl | hp
    · exact hpp
    · exact haway p hp

theorem SameSearch.reclaimable {s s' : OutState} (h : SameSearch s s') {n : ℕ} {I f : List ℕ}
    (hr : Reclaimable s n I f) :
    Reclaimable s' n I f := ⟨hr.wanted, hr.short, fun pp hpp => h.away (hr.away pp hpp)⟩

namespace ReclaimInv

variable {s : ReclaimState} {L : LruSide → List ℕ} {l f held : List ℕ}

/-- **The beginning of a round**: a page is taken off the inactive list. -/
theorem takePage (h : ReclaimInv s L l f held) {pp : ℕ} {I : List ℕ} (hI : L .inactive = pp :: I) :
    ∃ mm, lruHiRemove s.vm.mm = .ok (pp, mm) ∧ ReclaimInv (s.setMm mm)
      (Function.update L .inactive I) l f held ∧
      SameSearch s.search (s.setMm mm).search := by
  obtain ⟨mm, hrun, hlists⟩ := h.lists.removeHead hI
  obtain ⟨hmem, hnp⟩ := lruHeadRemove_mem hrun
  have hsame : SameSearch s.search (s.setMm mm).search := ⟨rfl, fun _ _ => rfl, hnp, hmem⟩
  exact ⟨mm, hrun, ⟨hlists, h.queue, hsame.searchable h.searchable⟩, hsame⟩

/-- **A round with a free tasklet.** -/
theorem round {pp t : ℕ} {I : List ℕ} (h : ReclaimInv s L l (t :: f) held)
    (hI : L .inactive = pp :: I) (ha : Away s.search pp) :
    ∃ s', (∀ n, s.reclaimFrom (n + 1) = s'.reclaimFrom n) ∧
      ReclaimInv s' (Function.update L .inactive I) (l ++ [t]) f held ∧
      s'.kern = s.kern ∧ SameSearch s.search s'.search ∧
      (∀ u ≠ t, (s'.tasks.task u).body = (s.tasks.task u).body) ∧
      (s'.tasks.task t).pageToOut = some pp := by
  obtain ⟨mm, hremove, hinv, hsame⟩ := h.takePage hI
  obtain ⟨tab, hget, hqueue, htab⟩ := ReclaimInv.getFree hinv.queue
  obtain ⟨s', hrun, hvm, hkern, hqueue', hrest, hself⟩ :=
    @reclaimTask_queues { s.setMm mm with tasks := tab } l f held t pp hinv.searchable hqueue
    (hsame.away ha)
  have hvm : s'.vm = { s.vm with mm := mm } := hvm
  have hkern : s'.kern = s.kern := hkern
  have hsame' : SameSearch s.search s'.search := by
    refine ⟨?_, fun i _ => ?_, ?_, ?_⟩
    · change s'.vm.envs = s.vm.envs
      rw [hvm]
    · change s'.kern.status i = s.kern.status i
      rw [hkern]
    · change s'.vm.mm.npages = s.vm.mm.npages
      rw [hvm]
      exact hsame.npages
    · change s'.vm.mm.mem = s.vm.mm.mem
      rw [hvm]
      exact hsame.mem
  refine ⟨s', fun n => ?_, ⟨?_, hqueue', hsame'.searchable h.searchable⟩, hkern, hsame', fun u hu =>
    ?_, hself⟩
  · rw [ReclaimState.reclaimFrom, hremove]
    change (match taskGetFree s.tasks with
      | (some t, tasks) => do
          let s ← ReclaimState.reclaimTask { s.setMm mm with tasks := tasks } t pp
          s.reclaimFrom n
      | (none, _) => pure (n + 1, (s.setMm mm).setMm (lruHiInsert (s.setMm mm).vm.mm pp))) = _
    have hget : taskGetFree s.tasks = (some t, tab) := hget
    rw [hget]
    dsimp only
    rw [hrun]
    rfl
  · rw [hvm]
    exact hinv.lists
  · rw [hrest u hu]
    exact congrArg TaskNode.body (htab u)

/-- **A round without a free tasklet** puts the page back. -/
theorem putBack {pp : ℕ} {I : List ℕ} (h : ReclaimInv s L l [] held)
    (hI : L .inactive = pp :: I) (n : ℕ) :
    ∃ s', s.reclaimFrom (n + 1) = .ok (n + 1, s') ∧ s'.kern = s.kern ∧
      SameSearch s.search s'.search ∧ ReclaimInv s' L l [] held ∧
      s'.tasks = s.tasks := by
  obtain ⟨mm, hremove, hinv, hsame⟩ := h.takePage hI
  have hhead : s.tasks.head .tFlist = none := h.queue.flist
  have hget : taskGetFree s.tasks = (none, s.tasks) := by rw [taskGetFree, taskGet, hhead]
  obtain ⟨hmem, hnp⟩ := lruHiInsert_mem mm pp
  have hsame' : SameSearch s.search ((s.setMm mm).setMm (lruHiInsert mm pp)).search :=
    ⟨rfl, fun _ _ => rfl, hnp.trans hsame.npages, hmem.trans hsame.mem⟩
  refine ⟨(s.setMm mm).setMm (lruHiInsert mm pp), ?_, rfl, hsame',
    ⟨?_, h.queue, hsame'.searchable h.searchable⟩, rfl⟩
  · rw [ReclaimState.reclaimFrom, hremove]
    change (match taskGetFree s.tasks with
      | (some t, tasks) => do
          let s ← ReclaimState.reclaimTask { s.setMm mm with tasks := tasks } t pp
          s.reclaimFrom n
      | (none, _) => pure (n + 1, (s.setMm mm).setMm (lruHiInsert mm pp))) = _
    rw [hget]
    rfl
  · exact h.lists.putBack hI hinv.lists hsame.npages

end ReclaimInv

section

variable {s s₁ s' : ReclaimState} {L : LruSide → List ℕ} {l f held : List ℕ}

/-- Nothing has been taken. -/
theorem Reclaimed.none (h : ReclaimInv s' L l f held) (htasks : s'.tasks = s.tasks) :
    Reclaimed s s' L l f held 0 := by
  refine ⟨⟨Nat.zero_le _, Nat.zero_le _⟩, ?_, ?_, rfl, fun t _ => by rw [htasks]⟩
  · rw [List.drop_zero, Function.update_eq_self]
    exact h.lists
  · rw [List.take_zero, List.append_nil]
    exact h.queue

/-- One page has been taken, and then `k` others. -/
theorem Reclaimed.cons {pp t k : ℕ} {I : List ℕ} (hI : L .inactive = pp :: I) (ht : t ∉ l)
    (hrest : ∀ u ≠ t, (s₁.tasks.task u).body = (s.tasks.task u).body)
    (hself : (s₁.tasks.task t).pageToOut = some pp)
    (h : Reclaimed s₁ s' (Function.update L .inactive I) (l ++ [t]) f held k) :
    Reclaimed s s' L l (t :: f) held (k + 1) := by
  have hinactive : Function.update L .inactive I .inactive = I := Function.update_self ..
  refine ⟨⟨?_, Nat.succ_le_succ h.le.2⟩, ?_, ?_, ?_, fun u hu => ?_⟩
  · rw [hI]
    have hle := h.le.1
    rw [hinactive] at hle
    exact Nat.succ_le_succ hle
  · have hlists := h.lists
    rw [hinactive, Function.update_idem] at hlists
    rwa [hI, List.drop_succ_cons]
  · have hqueue := h.queue
    rwa [List.append_assoc] at hqueue
  · have hjobs := h.jobs
    rw [hinactive] at hjobs
    have hbody : (s'.tasks.task t).body = (s₁.tasks.task t).body := h.others t (by simp)
    have hhead : (s'.tasks.task t).pageToOut = some pp :=
      (congrArg TaskNode.pageToOut hbody).trans hself
    rw [hI, List.take_succ_cons, List.take_succ_cons, List.map_cons, List.map_cons, hjobs, hhead]
  · have hne : u ≠ t := by
      rintro rfl
      exact ht hu
    rw [h.others u (List.mem_append_left _ hu), hrest u hne]

/-- **The loop**: it takes as many pages as are wanted, or as there are free tasklets. -/
theorem reclaimFrom_reclaimed :
    ∀ (n : ℕ) {s : ReclaimState} {L : LruSide → List ℕ} {l f : List ℕ}, ReclaimInv s L l f held →
    Reclaimable s.search n (L .inactive) f →
    ∃ s', s.reclaimFrom n = .ok (n - min n f.length, s') ∧ s'.kern = s.kern ∧
      SameSearch s.search s'.search ∧ Reclaimed s s' L l f held (min n f.length) := by
  intro n
  induction n with
  | zero =>
      intro s L l f h _
      rw [Nat.zero_min]
      exact ⟨s, rfl, rfl, ⟨rfl, fun _ _ => rfl, rfl, rfl⟩, Reclaimed.none h rfl⟩
  | succ n ih =>
      intro s L l f h hable
      have hpos : 0 < (L .inactive).length := by
        have hwanted := hable.wanted
        have hshort := hable.short
        omega
      obtain ⟨pp, I, hI⟩ := List.exists_cons_of_length_pos hpos
      cases f with
      | nil =>
          obtain ⟨s', hrun, hkern, hsame, hinv, htasks⟩ := h.putBack hI n
          exact ⟨s', hrun, hkern, hsame, Reclaimed.none hinv htasks⟩
      | cons t f =>
          rw [hI] at hable
          obtain ⟨haway, hable⟩ := reclaimable_cons.1 hable
          obtain ⟨s₁, hrun₁, hinv₁, hkern₁, hsame₁, hrest, hself⟩ := h.round hI haway
          have hinactive : Function.update L .inactive I .inactive = I := Function.update_self ..
          obtain ⟨s', hrun, hkern, hsame, hdone⟩ :=
            ih hinv₁ (by rw [hinactive]; exact hsame₁.reclaimable hable)
          have ht : t ∉ l := fun hc => h.queue.not_mem_flist hc List.mem_cons_self
          refine ⟨s', ?_, hkern.trans hkern₁, hsame₁.trans hsame, ?_⟩
          · rw [hrun₁, hrun, List.length_cons, Nat.add_min_add_right, Nat.add_sub_add_right]
          · rw [List.length_cons, Nat.add_min_add_right]
            exact hdone.cons hI ht hrest hself

/-- **Otherwise the loop does not come to its end.** -/
theorem reclaimFrom_crashes :
    ∀ (n : ℕ) {s : ReclaimState} {L : LruSide → List ℕ} {l f : List ℕ}, ReclaimInv s L l f held →
    ¬ Reclaimable s.search n (L .inactive) f → ∀ r, s.reclaimFrom n ≠ .ok r := by
  intro n
  induction n with
  | zero => exact fun _ hno => absurd (reclaimable_zero _ _ _) hno
  | succ n ih =>
      intro s L l f h hno r hrun
      cases hI : L .inactive with
      | nil =>
          rw [ReclaimState.reclaimFrom, lruHiRemove_nil h.lists hI] at hrun
          exact nomatch hrun
      | cons pp I =>
          rw [hI] at hno
          cases f with
          | nil =>
              refine hno ⟨fun hle => absurd hle (Nat.not_succ_le_zero n), fun _ => Nat.succ_pos _,
                fun p hp => ?_⟩
              rw [List.length_nil, Nat.min_zero, List.take_zero] at hp
              exact nomatch hp
          | cons t f =>
              by_cases haway : Away s.search pp
              · obtain ⟨s₁, hrun₁, hinv₁, -, hsame₁, -⟩ := h.round hI haway
                have hinactive : Function.update L .inactive I .inactive = I :=
                  Function.update_self ..
                refine ih hinv₁ (fun hable => hno (reclaimable_cons.2 ⟨haway, ?_⟩)) r
                  ((hrun₁ n).symm.trans hrun)
                rw [hinactive] at hable
                exact hsame₁.symm.reclaimable hable
              · obtain ⟨mm, hremove, hinv, hsame⟩ := h.takePage hI
                obtain ⟨tab, hget, -⟩ := ReclaimInv.getFree hinv.queue
                have hget : taskGetFree s.tasks = (some t, tab) := hget
                rw [ReclaimState.reclaimFrom, hremove] at hrun
                change (match taskGetFree s.tasks with
                  | (some t, tasks) => do
                      let s ← ReclaimState.reclaimTask { s.setMm mm with tasks := tasks } t pp
                      s.reclaimFrom n
                  | (none, _) => pure (n + 1, (s.setMm mm).setMm (lruHiInsert mm pp))) = _ at hrun
                rw [hget] at hrun
                obtain ⟨s₁, htask, -⟩ := bind_eq_ok.1 hrun
                exact reclaimTask_panics (s := { s.setMm mm with tasks := tab }) hinv.searchable
                  (fun hc => haway (hsame.symm.away hc)) s₁ htask

/-- A small number is positive as an `int`. -/
theorem toInt_ofNat_pos {n : ℕ} (h : 0 < n) (hlt : n < 2 ^ 31) : 0 < (BitVec.ofNat 32 n).toInt := by
  rw [BitVec.toInt_eq_toNat_cond, BitVec.toNat_ofNat, Nat.mod_eq_of_lt (by omega),
    if_pos (by omega)]
  omega

/-- The machine has pages. -/
theorem pages_ne_zero (hnp : s'.vm.mm.npages = s.vm.mm.npages) (h : 0 < s.vm.mm.npages) :
    s'.oomTable.npages ≠ 0 := by
  intro hzero
  have hle := s'.vm.mm.npages_le
  have hnat : (BitVec.ofNat 32 s'.vm.mm.npages).toNat = 0 := congrArg BitVec.toNat hzero
  rw [BitVec.toNat_ofNat, Nat.mod_eq_of_lt (by omega)] at hnat
  omega

/-- **When the call loses no page.** No page is wanted; or the inactive list does not run out before
the pages wanted or the tasklets do, and the pages are found, first at another address than 0. -/
theorem reclaimPgs_iff (h : ReclaimInv s L l f held) (hk : (s.kern.envs 0).type = .kernel)
    (hpages : 0 < s.vm.mm.npages) (c : ℕ) (e : Option ℕ) (pgN : BitVec 32) :
    (∃ r s' k, s.reclaimPgs c e pgN = .ok (r, s') ∧ Reclaimed s s' L l f held k) ↔
      (0 < pgN.toInt → Reclaimable s.search pgN.toNat (L .inactive) f) := by
  by_cases hpos : 0 < pgN.toInt
  · have hsmall : pgN.toNat < 2 ^ 31 := by
      rw [BitVec.toInt_eq_toNat_cond] at hpos
      split at hpos
      · omega
      · have hlt := pgN.isLt
        omega
    constructor
    · rintro ⟨r, s', k, hrun, -⟩ -
      by_contra hno
      rw [ReclaimState.reclaimPgs, if_pos hpos] at hrun
      obtain ⟨r', hloop, -⟩ := bind_eq_ok.1 hrun
      exact reclaimFrom_crashes pgN.toNat h hno r' hloop
    · intro hable
      obtain ⟨s', hloop, hkern, hsame, hdone⟩ := reclaimFrom_reclaimed pgN.toNat h (hable hpos)
      obtain ⟨pgC, hpgC⟩ : ∃ pgC, pgN.toNat - min pgN.toNat f.length = pgC := ⟨_, rfl⟩
      rw [hpgC] at hloop
      have hrun : s.reclaimPgs c e pgN =
          (if 0 < pgC then s'.oomKillEnd c e (BitVec.ofNat 32 pgC)
            else pure (.returned 0, s')) := by
        rw [ReclaimState.reclaimPgs, if_pos hpos, hloop]
        rfl
      by_cases hleft : 0 < pgC
      · refine ⟨.returned (BitVec.ofNat 32 pgC), s', _, ?_, hdone⟩
        have hvictim := @oomVictim_kthread s'.oomTable e (BitVec.ofNat 32 pgC)
          (Or.inl (pages_ne_zero hsame.npages hpages))
          (by change (s'.kern.envs 0).type = .kernel; rw [hkern]; exact hk)
            (toInt_ofNat_pos hleft (by omega))
        rw [hrun, if_pos hleft, ReclaimState.oomKillEnd, hvictim]
        rfl
      · refine ⟨.returned 0, s', _, ?_, hdone⟩
        rw [hrun, if_neg hleft]
        rfl
  · refine iff_of_true ⟨.returned pgN, s, 0, ?_, Reclaimed.none h rfl⟩ fun hc => absurd hc hpos
    rw [ReclaimState.reclaimPgs, if_neg hpos]
    rfl

end

/-! ### One page -/

/-- Two kernel threads, and the environments 2 and 3. -/
def reclaimKern : Kernel :=
  { Kernel.init with
    envs := fun i =>
      if i < 2 then ⟨BitVec.ofNat 32 (0x1000 + i), 0, .kernel, .free, 0, 0, -1⟩
      else if i = 2 ∨ i = 3 then ⟨BitVec.ofNat 32 (0x1000 + i), 0, .user, .runnable, 0, 0, -1⟩
      else Env.init }

/-- The machine of the two environments, with the given lists of pages and all tasklets free. -/
def reclaimState (mm : Mm) : ReclaimState where
  vm := { mapState.vm with mm := mm }
  kern := reclaimKern
  tasks := taskInit ⟨fun _ => TaskNode.fresh 0, none, none⟩

theorem mapState_lists : LruInv mapState.vm.mm fun _ => [] :=
  ⟨fun q => by cases q <;> exact ⟨rfl, rfl, rfl⟩, (fun _ _ hp => nomatch hp),
    (fun _ _ _ hp => nomatch hp)⟩

theorem reclaimState_same {mm : Mm} (hmem : mm.mem = mapState.vm.mm.mem)
    (hnp : mm.npages = mapState.vm.mm.npages) :
    SameSearch mapState (reclaimState mm).search := by
  refine ⟨rfl, fun i hi => ?_, hnp, hmem⟩
  have hge : ¬ i < 2 := Nat.not_lt.2 hi
  change reclaimKern.status i = if i = 2 ∨ i = 3 then .runnable else .free
  rw [Kernel.status, reclaimKern]
  dsimp only
  rw [if_neg hge]
  split
  · rfl
  · rfl

theorem reclaimState_inv {mm : Mm} {L : LruSide → List ℕ} (h : LruInv mm L)
    (hmem : mm.mem = mapState.vm.mm.mem) (hnp : mm.npages = mapState.vm.mm.npages) :
    ReclaimInv (reclaimState mm) L [] (List.range nTasklets) [] :=
  ⟨h, queueInv_start _, (reclaimState_same hmem hnp).searchable mapState_tables.searchable⟩

/-- The page of the environment 2 is queued. -/
theorem reclaimPgs_one :
    ∃ r s' k, (reclaimState (lruHiInsert mapState.vm.mm 6)).reclaimPgs 0 none 1 = .ok (r, s') ∧
    Reclaimed (reclaimState (lruHiInsert mapState.vm.mm 6)) s'
      (Function.update (fun _ => []) .inactive [6]) [] (List.range nTasklets) [] k := by
  have hlists := mapState_lists.insertHead (show 6 < _ from by decide) (by simp) .inactive
  have hinv : ReclaimInv (reclaimState (lruHiInsert mapState.vm.mm 6)) _ [] (List.range nTasklets)
      [] := reclaimState_inv hlists rfl rfl
  refine (reclaimPgs_iff hinv rfl (by decide) 0 none 1).2 fun _ =>
    ⟨fun _ => Nat.le_refl 1, fun hlt => absurd hlt (by decide), ?_⟩
  intro pp hpp
  obtain rfl : pp = 6 := by simpa using List.mem_of_mem_take hpp
  have hsame : SameSearch mapState (reclaimState (lruHiInsert mapState.vm.mm 6)).search :=
    reclaimState_same rfl rfl
  refine hsame.away
    ⟨2, 1, 0, ⟨mapState_first.searched, ?_, fun i hi hs => ?_, fun j hj k hr => ?_, ?_⟩, by decide⟩
  · exact (@mapState_maps 6 2 1 (by decide) (by decide) rfl (Or.inl ⟨rfl, rfl⟩)).readsIn
  · exact absurd hs (mapState_first.first i hi)
  · obtain rfl : j = 0 := by omega
    obtain ⟨dir, hdir, hread⟩ := hr
    obtain rfl : 1 = dir := Option.some.inj hdir
    exact absurd (mapWords_small (Or.inl rfl) (by decide) hread).1 (by decide)
  · exact fun k hk => absurd hk (Nat.not_lt_zero k)

/-- **With an empty list the call dereferences `NULL`.** -/
theorem reclaimPgs_empty :
    ReclaimInv (reclaimState mapState.vm.mm) (fun _ => []) [] (List.range nTasklets) [] ∧
    ((reclaimState mapState.vm.mm).kern.envs 0).type = .kernel ∧
    (reclaimState mapState.vm.mm).reclaimPgs 0 none 1 = .error .nullDeref := by
  refine ⟨reclaimState_inv mapState_lists rfl rfl, rfl, ?_⟩
  have hremove := lruHiRemove_nil mapState_lists rfl
  have hremove : lruHiRemove (reclaimState mapState.vm.mm).vm.mm = .error .nullDeref := hremove
  rw [ReclaimState.reclaimPgs, if_pos (by decide)]
  change (ReclaimState.reclaimFrom (0 + 1) (reclaimState mapState.vm.mm) >>= _) = _
  rw [ReclaimState.reclaimFrom, hremove]
  rfl

end Jos
