/-
**The locks of the system calls.**

Every path through a system call takes and releases its locks by hand. `At` describes a processor
inside such a path: the locks that it holds, the last one first, and its environment. Each function
gets a triple that says which locks it holds when it returns; one that ends in `sched_yield` does
not return.

Main definitions:

* `Jos.At` — the locks a processor holds;
* `Jos.LocksKept`, `Jos.FaultLocksKept` — no lock is taken twice or released without being held, and
  those that are held at the end are those of the beginning.

Main results:

* `Jos.Kern.vmaSplitLookup_at` — `vma_split_lookup`, where the second release is never reached;
* `Jos.Kern.allocPageAfterFault_at` — `alloc_page_after_fault`, where it is not either;
* `Jos.syscall_locks_iff` — **exactly three calls break the discipline**: `sys_vma_advise` at an
  address without an area, `sys_cgetc` when the keyboard has Ctrl-Alt-Del, and `sys_cputs` of a
  string that is not mapped where it is read.
-/

import JosKernel.Syscall

set_option relaxedAutoImplicit false
set_option autoImplicit false

namespace Jos

open LinkedList Outcome Stateful

/-! ### The discipline -/

/-- The panics of `spin_lock` and `spin_unlock`. -/
def Stop.LockPanic : Stop → Prop
  | .alreadyHolding _ | .notHolding _ => True
  | _ => False

/-- **A system call keeps the discipline**: no lock is taken twice or released without being held,
and none is held on return. -/
def LocksKept (r : Except Stop (BitVec 32 × KState)) : Prop :=
  Ends (fun e => ¬ e.LockPanic) (fun r => ∀ l, r.2.held l = false) r

/-- A page fault is handled with `env_lock`, and with no other lock on return. -/
def FaultLocksKept (r : Except Stop (Unit × KState)) : Prop :=
  Ends (fun e => ¬ e.LockPanic) (fun r => ∀ l, r.2.held l = decide (l = .env)) r

/-- **A processor in the kernel**: the locks it holds, its environment, and what is known of virtual
memory. -/
structure At (c cur : ℕ) (I : Vm → Prop) (ls : List Lock) (s : KState) : Prop where
  held : s.held = fun l => decide (l ∈ ls)
  curenv : s.kern.curenv c = some cur
  vm : I s.vm

/-- Nothing is known. -/
def Anything (_ : Vm) : Prop := True

theorem At.any {c cur : ℕ} {I : Vm → Prop} {ls : List Lock} {s : KState} (h : At c cur I ls s) :
    At c cur Anything ls s :=
  ⟨h.held, h.curenv, True.intro⟩

/-- No panic of a lock. -/
def Orderly (e : Stop) : Prop := ¬ e.LockPanic

namespace Kern

variable {α : Type} {c cur : ℕ} {I : Vm → Prop} {ls : List Lock} {l : Lock}

/-! ### Steps of a run -/

section

variable {β : Type} {s : KState} {a : α} {e : Crash}

theorem lock_bind {g : Unit → Kern β} (h : s.held l = false) :
    (spinLock l >>= g) s = g () { s with held := Function.update s.held l true } := by
  change (spinLock l s >>= fun r => g r.1 r.2) = _
  rw [spinLock, if_neg (by rw [h]; exact Bool.false_ne_true)]
  rfl

theorem unlock_bind {g : Unit → Kern β} (h : s.held l = true) :
    (spinUnlock l >>= g) s = g () { s with held := Function.update s.held l false } := by
  change (spinUnlock l s >>= fun r => g r.1 r.2) = _
  rw [spinUnlock, if_pos h]
  rfl

/-- A lock is given back. -/
theorem unlock_back {H : Lock → Bool} {g : Unit → Kern β} (hH : H l = false)
    (hs : s.held = Function.update H l true) :
    (spinUnlock l >>= g) s = g () { s with held := H } := by
  rw [unlock_bind (by rw [hs]; exact Function.update_self ..)]
  congr 2
  rw [hs, Function.update_idem, ← hH, Function.update_eq_self]

theorem assertLock_bind {g : Unit → Kern β} (h : s.held l = true) :
    (assertLock l >>= g) s = g () s := by
  change ((if s.held l = true then pure () else fail _ : Kern Unit) s >>= fun r => g r.1 r.2) = _
  rw [if_pos h]
  rfl

theorem get_bind {g : KState → Kern β} : (get >>= g) s = g s s := rfl

theorem onKernel_apply (f : Kernel → Kernel) (s : KState) :
    onKernel f s = .ok ((), { s with kern := f s.kern }) := rfl

theorem readVm_ok {f : Vm → Except Crash α} {g : α → Kern β} (h : f s.vm = .ok a) :
    (readVm f >>= g) s = g a s := by
  change (readVm f s >>= fun r => g r.1 r.2) = _
  rw [readVm, h]
  rfl

theorem readVm_error {f : Vm → Except Crash α} {g : α → Kern β} (h : f s.vm = .error e) :
    (readVm f >>= g) s = .error (.crash e) := by
  change (readVm f s >>= fun r => g r.1 r.2) = _
  rw [readVm, h]
  rfl

theorem cprintf_held {g : Unit → Kern β} (h : s.held .console = true) :
    (cprintf >>= g) s = .error (.alreadyHolding .console) := by
  change ((spinLock .console >>= fun _ => spinUnlock .console) s >>= fun r => g r.1 r.2) = _
  change ((spinLock .console s >>= fun r => spinUnlock .console r.2) >>= fun r => g r.1 r.2) = _
  rw [spinLock, if_pos h]
  rfl

end

/-! ### Steps -/

theorem spinLock_at (hl : l ∉ ls) :
    Triple (At c cur I ls) (spinLock l) Orderly fun _ => At c cur I (l :: ls) := by
  intro s hs
  have hfree : s.held l = false := by
    rw [hs.held]
    exact decide_eq_false hl
  rw [spinLock, if_neg (by rw [hfree]; exact Bool.false_ne_true)]
  refine ⟨funext fun k => ?_, hs.curenv, hs.vm⟩
  change Function.update s.held l true k = _
  rw [Function.update_apply, hs.held]
  by_cases hk : k = l
  · rw [if_pos hk, hk]
    exact (decide_eq_true List.mem_cons_self).symm
  · rw [if_neg hk]
    refine decide_eq_decide.2 ?_
    rw [List.mem_cons]
    exact ⟨Or.inr, fun h => h.resolve_left hk⟩

theorem spinUnlock_at (hl : l ∉ ls) :
    Triple (At c cur I (l :: ls)) (spinUnlock l) Orderly fun _ => At c cur I ls := by
  intro s hs
  have hheld : s.held l = true := by
    rw [hs.held]
    exact decide_eq_true List.mem_cons_self
  rw [spinUnlock, if_pos hheld]
  refine ⟨funext fun k => ?_, hs.curenv, hs.vm⟩
  change Function.update s.held l false k = _
  rw [Function.update_apply, hs.held]
  by_cases hk : k = l
  · rw [if_pos hk, hk]
    exact (decide_eq_false hl).symm
  · rw [if_neg hk]
    refine decide_eq_decide.2 ?_
    rw [List.mem_cons]
    exact ⟨fun h => h.resolve_left hk, Or.inr⟩

/-- A message of the kernel, while `console_lock` is free. -/
theorem cprintf_at (hl : Lock.console ∉ ls) :
    Triple (At c cur I ls) cprintf Orderly fun _ => At c cur I ls :=
  (spinLock_at hl).bind fun _ => spinUnlock_at hl

/-- A message that depends on a test. -/
theorem message_at {p : Prop} [Decidable p] {x : Kern α} {Q : α → KState → Prop}
    (hl : Lock.console ∉ ls) (hx : Triple (At c cur I ls) x Orderly Q) :
    Triple (At c cur I ls) (if p then do cprintf; x else x) Orderly Q :=
  Triple.ite (fun _ => (cprintf_at hl).bind fun _ => hx) fun _ => hx

theorem fail_at {e : Crash} {Q : α → KState → Prop} : Triple (At c cur I ls) (fail e) Orderly Q :=
  fun _ _ => id

/-- The state is read: what is known of it is known of the value. -/
theorem get_bind_at {f : KState → Kern α} {Q : α → KState → Prop}
    (h : ∀ s, At c cur I ls s → Triple (At c cur I ls) (f s) Orderly Q) :
    Triple (At c cur I ls) (get >>= f) Orderly Q := fun s hs => h s hs s hs

theorem assertLock_at : Triple (At c cur I ls) (assertLock l) Orderly fun _ => At c cur I ls := by
  unfold assertLock
  refine get_bind_at fun s _ => ?_
  exact Triple.ite (fun _ => Triple.pure fun _ hs => hs) fun _ => fail_at

/-- `sched_yield` does not return. -/
theorem schedYield_stops {P : KState → Prop} : Triple P schedYield Orderly fun _ _ => False := by
  intro s _
  change Ends Orderly _ ((assertLock .env s) >>= fun r => (throw Stop.left : Kern Unit) r.2)
  rw [assertLock]
  change Ends Orderly _ (((if s.held .env = true then pure () else fail _ : Kern Unit) s) >>=
    fun r => (throw Stop.left : Kern Unit) r.2)
  split
  · exact id
  · exact id

/-- What is read of virtual memory is known from then on. -/
theorem readVm_at (f : Vm → Except Crash α) :
    Triple (At c cur I ls) (readVm f) Orderly
      fun a => At c cur (fun vm => I vm ∧ f vm = .ok a) ls := by
  intro s hs
  rw [readVm]
  cases hf : f s.vm with
  | error e => exact id
  | ok a => exact ⟨hs.held, hs.curenv, hs.vm, hf⟩

theorem onVm_at {J : α → Vm → Prop} (f : Vm → Except Crash (α × Vm))
    (hJ : ∀ vm a vm', I vm → f vm = .ok (a, vm') → J a vm') :
    Triple (At c cur I ls) (onVm f) Orderly fun a => At c cur (J a) ls := by
  intro s hs
  rw [onVm]
  cases hf : f s.vm with
  | error e => exact id
  | ok r => exact ⟨hs.held, hs.curenv, hJ s.vm r.1 r.2 hs.vm hf⟩

theorem onVm_any (f : Vm → Except Crash (α × Vm)) :
    Triple (At c cur I ls) (onVm f) Orderly fun _ => At c cur Anything ls :=
      onVm_at f fun _ _ _ _ _ => True.intro

theorem inVm_at (f : Vm → Except Crash Vm) :
    Triple (At c cur I ls) (inVm f) Orderly fun _ => At c cur Anything ls :=
  onVm_any _

theorem onKernel_at {f : Kernel → Kernel} (hf : ∀ k, (f k).curenv c = k.curenv c) :
    Triple (At c cur I ls) (onKernel f) Orderly fun _ => At c cur I ls :=
  fun s hs => ⟨hs.held, (hf s.kern).trans hs.curenv, hs.vm⟩

/-! ### Environments -/

theorem envFree_at {e : ℕ} :
    Triple (At c cur I ls) (envFree c e) Orderly fun _ => At c cur Anything ls := by
  refine assertLock_at.bind fun _ => assertLock_at.bind fun _ => (inVm_at _).bind fun _ => ?_
  exact onKernel_at fun _ => rfl

/-- **`env_destroy`**: it does not return when the environment is the one that runs. -/
theorem envDestroy_at {e : ℕ} (hp : Lock.pagealloc ∉ ls) :
    Triple (At c cur I ls) (envDestroy c e) Orderly fun _ s => e ≠ cur ∧
      At c cur Anything ls s := by
  refine assertLock_at.bind fun _ => get_bind_at fun s hs => ?_
  refine Triple.ite (fun hrun => ?_) fun _ => ?_
  · have hne : e ≠ cur := by
      rintro rfl
      exact hrun.2 hs.curenv
    refine Triple.post (onKernel_at fun _ => rfl) fun _ _ h => ⟨hne, h.any⟩
  · refine (spinLock_at hp).bind fun _ => envFree_at.bind fun _ => (spinUnlock_at hp).bind fun _ =>
      ?_
    refine Triple.ite (fun _ => ?_) fun hne => Triple.pure fun _ h => ⟨?_, h⟩
    · refine Triple.bind (Q := fun _ _ => True) (fun _ _ => True.intro) fun _ => ?_
      exact schedYield_stops.post fun _ _ h => h.elim
    · rintro rfl
      exact hne hs.curenv

/-- The environment that runs is destroyed. -/
theorem envDestroy_stops (hp : Lock.pagealloc ∉ ls) :
    Triple (At c cur I ls) (envDestroy c cur) Orderly fun _ _ => False :=
  (envDestroy_at hp).post fun _ _ h => h.1 rfl

theorem killEnv_stops (hp : Lock.pagealloc ∉ ls) (hl : Lock.console ∉ ls) :
    Triple (At c cur I ls) (killEnv c cur) Orderly fun _ _ => False :=
  (cprintf_at hl).bind fun _ => assertLock_at.bind fun _ => envDestroy_stops hp

/-- `env_dup` returns to `sys_fork` with the same locks, and only with 0. -/
theorem envDup_at :
    Triple (At c cur I ls) (envDup cur) Orderly fun r s => r = 0 ∧ At c cur Anything ls s := by
  refine get_bind_at fun s _ => ?_
  cases s.kern.envFreeList with
  | nil => exact Triple.pure fun _ h => ⟨rfl, h.any⟩
  | cons child rest =>
      refine (onVm_any _).bind fun ok => ?_
      refine Triple.ite (fun _ => Triple.pure fun _ h => ⟨rfl, h⟩) fun _ => ?_
      refine (onKernel_at fun k => ?_).bind fun _ => (inVm_at _).bind fun _ => ?_
      · unfold Jos.envAlloc
        cases k.envFreeList with
        | nil => rfl
        | cons x xs => rfl
      refine (onVm_any _).bind fun ok => ?_
      refine Triple.ite (fun _ => Triple.pure fun _ h => ⟨rfl, h⟩) fun _ => ?_
      refine Triple.bind (Q := fun _ => At c cur Anything ls)
        (fun _ h => ⟨h.held, h.curenv, True.intro⟩) fun _ => ?_
      refine (onVm_any _).bind fun ok => ?_
      refine Triple.ite (fun _ => Triple.pure fun _ h => ⟨rfl, h⟩) fun _ => ?_
      exact Triple.bind (Q := fun _ _ => True) (fun _ _ => True.intro) fun _ =>
        schedYield_stops.stops

/-! ### Areas -/

/-- A search finds something at the latest where another one does. -/
theorem seek_finds {next : ℕ → Option ℕ} {f g : ℕ → Bool} {a : ℕ} (hg : g a = true) :
    ∀ {fuel : ℕ} {prev prev' p q : Option ℕ}, seek next f fuel prev p = some (some (q, a)) →
      ∃ r, seek next g fuel prev' p = some (some r) := by
  intro fuel
  induction fuel with
  | zero =>
      intro prev prev' p q h
      cases p with
      | none => exact nomatch h
      | some b => exact nomatch h
  | succ fuel ih =>
      intro prev prev' p q h
      cases p with
      | none => exact nomatch h
      | some b =>
          rw [seek] at h ⊢
          by_cases hb : g b = true
          · exact ⟨_, if_pos hb⟩
          · rw [if_neg hb]
            split at h
            · -- the first search ends here, and so does the second
              obtain ⟨-, rfl⟩ := Prod.mk.inj (Option.some.inj (Option.some.inj h))
              exact absurd hg hb
            · exact ih h

/-- **An area that was found can be removed.** -/
theorem vmaRemoveAlloced_found {vm vm' : Vm} {va : BitVec 32} {i : ℕ} {destroy ok : Bool}
    (h : vmaLookup (vm.envs cur) va = .ok (some i))
    (hr : vmaRemoveAlloced vm cur i destroy = .ok (ok, vm')) : ok = true := by
  have hseek : ∃ q, seek (vm.envs cur).link (fun i => ((vm.envs cur).vmas i).covers va) nVma none
      (vm.envs cur).allocVmaList = some (some (q, i)) := by
    unfold vmaLookup at h
    split at h
    · exact nomatch h
    · exact nomatch h
    · rename_i q a hseek
      obtain rfl := Option.some.inj (Except.ok.inj h)
      exact ⟨q, hseek⟩
  obtain ⟨q, hseek⟩ := hseek
  have hsame : (((vm.envs cur).vmas i).va == ((vm.envs cur).vmas i).va &&
      ((vm.envs cur).vmas i).len == ((vm.envs cur).vmas i).len) = true := by simp
  obtain ⟨⟨prev, x⟩, hfound⟩ := @seek_finds (vm.envs cur).link _
    (fun j => ((vm.envs cur).vmas j).va == ((vm.envs cur).vmas i).va &&
      ((vm.envs cur).vmas j).len == ((vm.envs cur).vmas i).len) i hsame nVma none
        (vm.envs cur).allocVmaList _ q hseek
  unfold vmaRemoveAlloced at hr
  dsimp only at hr
  rw [hfound] at hr
  cases prev with
  | none => exact nomatch hr
  | some prev =>
      dsimp only at hr
      split at hr
      · obtain ⟨vm₁, -, hr⟩ := bind_eq_ok.1 hr
        exact (congrArg Prod.fst (Except.ok.inj hr)).symm
      · exact (congrArg Prod.fst (Except.ok.inj hr)).symm

/-- **`vma_split_lookup`** releases `pagealloc_lock` once. -/
theorem vmaSplitLookup_at {va size : BitVec 32} {remove : Bool} (hp : Lock.pagealloc ∉ ls) :
    Triple (At c cur I ls) (vmaSplitLookup cur va size remove) Orderly
      fun _ => At c cur Anything ls := by
  refine assertLock_at.bind fun _ => (readVm_at _).bind fun vmad => ?_
  cases vmad with
  | none => exact Triple.pure fun _ h => h.any
  | some i =>
      refine get_bind_at fun s _ => ?_
      refine Triple.ite (fun _ => fail_at) fun _ => ?_
      refine Triple.ite (fun _ => Triple.pure fun _ h => h.any) fun _ => ?_
      refine Triple.ite (fun _ => Triple.pure fun _ h => h.any) fun _ => ?_
      refine Triple.ite (fun _ => Triple.pure fun _ h => h.any) fun _ => ?_
      cases remove with
      | false => exact (inVm_at _).bind fun _ => Triple.pure fun _ h => h
      | true =>
          refine (spinLock_at hp).bind fun _ => ?_
          refine (onVm_at (J := fun ok _ => ok = true) _ fun vm ok vm' hvm hr => ?_).bind fun ok =>
            ?_
          · exact vmaRemoveAlloced_found hvm.2 hr
          · refine Triple.ite (fun hok s h => absurd h.vm hok) fun _ => ?_
            refine (spinUnlock_at hp).bind fun _ => (inVm_at _).bind fun _ => Triple.pure fun _ h =>
              h

/-! ### Page faults -/

/-- **`alloc_page_after_fault`** releases `pagealloc_lock` once on every path that returns. -/
theorem allocPageAfterFault_at {faultVa : BitVec 32} :
    Triple (At c cur I [.env]) (allocPageAfterFault c cur faultVa) Orderly fun _ =>
      At c cur Anything [.env] := by
  refine (spinLock_at (by decide)).bind fun _ => (readVm_at _).bind fun v => ?_
  have hend : Triple (At c cur Anything [.pagealloc, .env]) (spinUnlock .pagealloc) Orderly
      fun _ => At c cur Anything [.env] := spinUnlock_at (by decide)
  cases v with
  | none =>
      have hunlock := @spinUnlock_at c cur (fun vm => I vm ∧
        vmaLookup (vm.envs cur) faultVa = .ok none) [.env] .pagealloc
        (by decide)
      exact (cprintf_at (by decide)).bind fun _ => hunlock.bind fun _ =>
        (killEnv_stops (by decide) (by decide)).stops
  | some v =>
      refine (cprintf_at (by decide)).bind fun _ => get_bind_at fun s _ => ?_
      refine Triple.ite (fun _ => (inVm_at _).bind fun _ => hend) fun _ => ?_
      refine (onVm_any _).bind fun ok => Triple.ite (fun _ => ?_) fun _ => hend
      exact (cprintf_at (by decide)).bind fun _ => hend.bind fun _ =>
        (killEnv_stops (by decide) (by decide)).stops

theorem swapIn_at {pte : PtePtr} :
    Triple (At c cur I [.env]) (swapIn cur pte) Orderly fun _ => At c cur Anything [.env] := by
  refine Triple.bind (onKernel_at ?_) fun _ => (spinLock_at (by decide)).bind fun _ => get_bind_at
    fun s _ => ?_
  · intro k
    rfl
  refine Triple.ite (fun _ => ?_) fun _ => ?_
  · refine (inVm_at _).bind fun _ => (cprintf_at (by decide)).bind fun _ => ?_
    refine (spinLock_at (by decide)).bind fun _ => (onVm_any _).bind fun pg => ?_
    refine (spinUnlock_at (by decide)).bind fun _ => Triple.ite (fun _ => Triple.stops fail_at)
      fun _ => ?_
    refine (cprintf_at (by decide)).bind fun _ => ?_
    refine Triple.bind (onKernel_at ?_) fun _ => spinUnlock_at (by decide)
    intro k
    rfl
  · refine Triple.bind (onKernel_at ?_) fun _ => (spinUnlock_at (by decide)).bind fun _ => ?_
    · intro k
      rfl
    exact schedYield_stops.post fun _ _ h => h.elim

theorem pageFaultHandler_at {faultVa : BitVec 32} {user prot : Bool} :
    Triple (At c cur I [.env]) (pageFaultHandler c cur faultVa user prot) Orderly fun _ =>
      At c cur Anything [.env] := by
  refine assertLock_at.bind fun _ => Triple.ite (fun _ => ?_) fun _ => ?_
  · exact (cprintf_at (by decide)).bind fun _ => Triple.stops fail_at
  refine Triple.ite (fun _ => allocPageAfterFault_at.bind fun _ => Triple.pure fun _ h => h)
    fun _ => ?_
  refine (readVm_at _).bind fun pte => get_bind_at fun s _ => ?_
  cases pte.filter fun pte => isSwapped (s.vm.pte pte) with
  | some pte =>
      refine (cprintf_at (by decide)).bind fun _ => Triple.ite (fun _ => swapIn_at) fun _ => ?_
      refine Triple.post (onKernel_at ?_) fun _ _ h => h.any
      intro k
      rfl
  | none =>
      refine Triple.ite (fun _ => allocPageAfterFault_at) fun _ => (readVm_at _).bind fun v => ?_
      refine Triple.ite (fun _ => ?_) fun _ => ?_
      · refine (spinLock_at (by decide)).bind fun _ => (onVm_any _).bind fun ok => ?_
        exact message_at (by decide) (spinUnlock_at (by decide))
      · refine (cprintf_at (by decide)).bind fun _ => ?_
        exact (killEnv_stops (by decide) (by decide)).post fun _ _ h => h.elim

/-! ### System calls -/

/-- No lock, and `env_lock` alone. -/
theorem not_mem_none : l ∉ ([] : List Lock) := List.not_mem_nil

/-- **The handler comes to a message** when the kernel reads at `va`: its panic, or what
`alloc_page_after_fault` prints once it has looked for an area. -/
def HandlerPrints (s : Vm) (e : ℕ) (va : BitVec 32) : Prop :=
  uTop < va ∨ vmaLookup (s.envs e) va ≠ .error .diverges

/-- A page fault of the kernel while it holds `console_lock`. -/
theorem pageFaultHandler_held {s : KState} {va : BitVec 32} (henv : s.held .env = true)
    (hp : s.held .pagealloc = false) (hcon : s.held .console = true)
    (h : HandlerPrints s.vm cur va) :
    pageFaultHandler c cur va false false s = .error (.alreadyHolding .console) := by
  unfold pageFaultHandler
  rw [assertLock_bind henv]
  by_cases hva : uTop < va
  · rw [if_pos ⟨Bool.false_ne_true, hva⟩]
    exact cprintf_held hcon
  rw [if_neg fun hc => hva hc.2, if_pos ⟨Bool.false_ne_true, Bool.false_ne_true⟩]
  have hcon' : Function.update s.held .pagealloc true .console = true := by
    rw [Function.update_of_ne (by decide)]
    exact hcon
  suffices halloc : allocPageAfterFault c cur va s = .error (.alreadyHolding .console) by
    change (allocPageAfterFault c cur va s >>= fun r => _) = _
    rw [halloc]
    rfl
  unfold allocPageAfterFault
  rw [lock_bind hp]
  cases hv : vmaLookup (s.vm.envs cur) va with
  | error e =>
      have he : e = .diverges := by
        unfold vmaLookup at hv
        split at hv
        · exact (Except.error.inj hv).symm
        · exact absurd hv (by simp [pure, Except.pure])
        · exact absurd hv (by simp [pure, Except.pure])
      exact absurd (hv.trans (congrArg _ he)) (h.resolve_left hva)
  | ok v =>
      refine (readVm_ok (s := { s with held := Function.update s.held .pagealloc true }) hv).trans
        ?_
      cases v with
      | none => exact cprintf_held hcon'
      | some v => exact cprintf_held hcon'

theorem kernelFault_held {s : KState} {va : BitVec 32} (hs : At c cur I [.console] s)
    (h : HandlerPrints s.vm cur va) :
    kernelFault c cur va s = .error (.alreadyHolding .console) := by
  unfold kernelFault
  rw [lock_bind (by rw [hs.held]; rfl)]
  change (pageFaultHandler c cur va false false
    { s with held := Function.update s.held .env true } >>= fun r => _) = _
  have hheld : ∀ l, Function.update s.held .env true l = decide (l = .env ∨ l = .console) := by
    intro l
    rw [hs.held]
    cases l <;> rfl
  rw [pageFaultHandler_held (s := { s with held := Function.update s.held .env true }) (hheld .env)
    (hheld .pagealloc) (hheld .console) h]
  rfl

/-- Otherwise the handler looks for an area for ever. -/
theorem kernelFault_at {va : BitVec 32} :
    Triple (At c cur (fun vm => ¬ HandlerPrints vm cur va) [.console])
      (kernelFault c cur va) Orderly
      fun _ _ => False := by
  have halloc : Triple (At c cur (fun vm => ¬ HandlerPrints vm cur va) [.env, .console])
      (allocPageAfterFault c cur va) Orderly fun _ _ => False := by
    refine (spinLock_at (by decide)).bind fun _ => (readVm_at _).bind fun v s hs => ?_
    exact absurd (Or.inr (by rw [hs.vm.2]; simp)) hs.vm.1
  have hhandler : Triple (At c cur (fun vm => ¬ HandlerPrints vm cur va) [.env, .console])
      (pageFaultHandler c cur va false false) Orderly fun _ _ => False := by
    refine assertLock_at.bind fun _ => Triple.ite (fun hva s hs => ?_) fun _ => ?_
    · exact absurd (Or.inl hva.2) hs.vm
    · exact Triple.ite (fun _ => halloc.stops) fun hno =>
        absurd ⟨Bool.false_ne_true, Bool.false_ne_true⟩ hno
  exact (spinLock_at (by decide)).bind fun _ => hhandler.stops

/-- **The string of `sys_cputs` breaks the discipline**: it has been checked, but the kernel faults
on it. -/
def CputsBreaks (s : Vm) (e : ℕ) (str len : BitVec 32) : Prop :=
  userMemCheck s e str len (pteU ||| pteU) = .ok none ∧
    ∃ k, StringFaults s e str len k ∧ HandlerPrints s e (str + BitVec.ofNat 32 k)

/-- What `user_mem_check` has let through is known from then on. -/
theorem userMemAssert_checked {va len perm : BitVec 32} :
    Triple (At c cur I []) (userMemAssert c cur va len perm) Orderly
      fun _ => At c cur (fun vm => I vm ∧ userMemCheck vm cur va len (perm ||| pteU) = .ok none)
        [] := by
  refine (spinLock_at not_mem_none).bind fun _ => (readVm_at _).bind fun ret => ?_
  refine (spinUnlock_at not_mem_none).bind fun _ => Triple.ite (fun _ => ?_) fun hret => Triple.pure
    fun _ h => ?_
  · refine (spinLock_at not_mem_none).bind fun _ => ?_
    exact (envDestroy_stops (by decide)).post fun _ _ h => h.elim
  · have hnone : ret = none := by
      cases ret with
      | none => rfl
      | some a => exact absurd rfl hret
    exact hnone ▸ h

theorem sysCputs_at {str len : BitVec 32} :
    Triple (At c cur (fun vm => ¬ CputsBreaks vm cur str len) []) (sysCputs c cur str len) Orderly
      fun _ => At c cur Anything [] := by
  refine userMemAssert_checked.bind fun _ => (spinLock_at not_mem_none).bind fun _ s hs => ?_
  obtain ⟨hgood, hcheck⟩ := hs.vm
  rw [get_bind]
  cases hprint : vprintfmt (kernelLoad s.vm cur) "%.*s" [len, str] with
  | error why =>
      cases why with
      | endless => exact id
      | fault va =>
          obtain ⟨k, hk, rfl⟩ := (vprintfmt_fault_iff s.vm cur str len va).1 hprint
          have hno : ¬ HandlerPrints s.vm cur (str + BitVec.ofNat 32 k) :=
            fun h => hgood ⟨hcheck, k, hk, h⟩
          exact (kernelFault_at s ⟨hs.held, hs.curenv, hno⟩).post fun _ h => h.elim
  | ok out =>
      have hset : Triple (At c cur Anything [.console]) (do
          set { s with consOut := s.consOut ++ out }
          spinUnlock .console) Orderly fun _ => At c cur Anything [] := by
        refine Triple.bind (Q := fun _ => At c cur Anything [.console]) (fun _ _ => ?_) fun _ =>
          spinUnlock_at not_mem_none
        exact ⟨hs.held, hs.curenv, True.intro⟩
      exact hset s hs.any

/-- `user_mem_assert` of a range that it lets through. -/
theorem userMemAssert_bind {s : KState} {va len perm : BitVec 32} {g : Unit → Kern α}
    (hp : s.held .pagealloc = false)
    (hcheck : userMemCheck s.vm cur va len (perm ||| pteU) = .ok none) :
    (userMemAssert c cur va len perm >>= g) s = g () s := by
  have hrun : userMemAssert c cur va len perm s = .ok ((), s) := by
    unfold userMemAssert
    rw [lock_bind hp]
    refine (readVm_ok (s := { s with held := Function.update s.held .pagealloc true }) hcheck).trans
      ?_
    exact unlock_back hp rfl
  change (userMemAssert c cur va len perm s >>= fun r => g r.1 r.2) = _
  rw [hrun]
  rfl

/-- **`sys_cputs` takes `console_lock` twice** when the kernel faults on the string. -/
theorem sysCputs_held {s : KState} {str len : BitVec 32} (hs : At c cur Anything [] s)
    (h : CputsBreaks s.vm cur str len) :
    sysCputs c cur str len s = .error (.alreadyHolding .console) := by
  obtain ⟨hcheck, k, hk, hprints⟩ := h
  have hfault := (vprintfmt_fault_iff s.vm cur str len _).2 ⟨k, hk, rfl⟩
  have hconsole : At c cur Anything [.console]
      { s with held := Function.update s.held .console true } := by
    refine ⟨funext fun l => ?_, hs.curenv, True.intro⟩
    rw [hs.held]
    cases l <;> rfl
  unfold sysCputs
  rw [userMemAssert_bind (by rw [hs.held]; rfl) hcheck, lock_bind (by rw [hs.held]; rfl), get_bind]
  dsimp only
  rw [hfault]
  exact kernelFault_held hconsole hprints

/-- The bytes of the keyboard make it print and reset the machine. -/
def rebootsIn : BitVec 32 → List (BitVec 8) → Bool
  | _, [] => false
  | shift, data :: ds =>
      (kbdProcData shift data).reboot || rebootsIn (kbdProcData shift data).shift ds

theorem Console.shift_kbdIntr (x : Console) (data : BitVec 8) :
    (x.kbdIntr [data]).shift = (kbdProcData x.shift data).shift := by
  unfold Console.kbdIntr
  rw [consIntr]
  dsimp only
  split <;> rfl

/-- The console takes the bytes one after the other. -/
theorem Console.kbdIntr_cons (x : Console) (data : BitVec 8) (ds : List (BitVec 8)) :
    x.kbdIntr (data :: ds) = (x.kbdIntr [data]).kbdIntr ds := by
  unfold Console.kbdIntr
  rw [consIntr, consIntr]
  dsimp only
  split <;> rfl

/-- The keyboard is read without a message. -/
theorem kbdIntr_ok {ds : List (BitVec 8)} :
    ∀ {s : KState}, rebootsIn s.console.shift ds = false →
      kbdIntr ds s = .ok ((), { s with console := s.console.kbdIntr ds, kbdIn := [] }) := by
  induction ds with
  | nil =>
      intro s _
      rfl
  | cons data ds ih =>
      intro s h
      rw [rebootsIn, Bool.or_eq_false_iff] at h
      rw [kbdIntr, get_bind, if_neg (by rw [h.1]; exact Bool.false_ne_true),
        Console.kbdIntr_cons s.console data ds]
      exact @ih { s with console := s.console.kbdIntr [data]
        } (by rw [Console.shift_kbdIntr]; exact h.2)

/-- Ctrl-Alt-Del while `console_lock` is held. -/
theorem kbdIntr_held {ds : List (BitVec 8)} :
    ∀ {s : KState}, s.held .console = true → rebootsIn s.console.shift ds = true →
      kbdIntr ds s = .error (.alreadyHolding .console) := by
  induction ds with
  | nil =>
      intro s _ h
      exact absurd h Bool.false_ne_true
  | cons data ds ih =>
      intro s hheld h
      rw [rebootsIn, Bool.or_eq_true] at h
      rw [kbdIntr, get_bind]
      by_cases hreboot : (kbdProcData s.console.shift data).reboot = true
      · rw [if_pos hreboot]
        exact cprintf_held hheld
      · rw [if_neg hreboot]
        refine @ih { s with console := s.console.kbdIntr [data] } hheld ?_
        rw [Console.shift_kbdIntr]
        exact h.resolve_left hreboot

/-- The state in which `sys_cgetc` polls the keyboard. -/
def serialPolled (s : KState) : KState :=
  { s with
    held := Function.update s.held .console true
    console := s.console.serialIntr s.serialIn
    serialIn := if s.console.serialExists then [] else s.serialIn }

theorem shift_serialPolled (s : KState) : (serialPolled s).console.shift = s.console.shift := by
  change (s.console.serialIntr s.serialIn).shift = _
  unfold Console.serialIntr
  split <;> rfl

theorem held_serialPolled (s : KState) : (serialPolled s).held .console = true := by
  change Function.update s.held .console true .console = true
  rw [Function.update_self]

/-- **`sys_cgetc` returns the character of `cons_getc`** when the keyboard is read without a
message. -/
theorem sysCgetc_ok {s : KState} (hfree : s.held .console = false)
    (hkbd : rebootsIn s.console.shift s.kbdIn = false) :
    sysCgetc s = .ok ((s.console.consGetc s.serialIn s.kbdIn).1.setWidth 32,
      { s with
        console := (s.console.consGetc s.serialIn s.kbdIn).2
        serialIn := if s.console.serialExists then [] else s.serialIn
        kbdIn := [] }) := by
  rw [← shift_serialPolled] at hkbd
  unfold sysCgetc
  rw [lock_bind hfree]
  change (kbdIntr s.kbdIn (serialPolled s) >>= fun r => _) = _
  rw [kbdIntr_ok hkbd]
  change (spinUnlock .console >>= fun _ => (pure _ : Kern (BitVec 32)))
    { s with
      held := Function.update s.held .console true
      console := (s.console.consGetc s.serialIn s.kbdIn).2
      serialIn := if s.console.serialExists then [] else s.serialIn
      kbdIn := [] } = _
  exact unlock_back hfree rfl

/-- **`sys_cgetc` takes `console_lock` twice** at Ctrl-Alt-Del. -/
theorem sysCgetc_held {s : KState} (hfree : s.held .console = false)
    (hkbd : rebootsIn s.console.shift s.kbdIn = true) :
    sysCgetc s = .error (.alreadyHolding .console) := by
  rw [← shift_serialPolled] at hkbd
  unfold sysCgetc
  rw [lock_bind hfree]
  change (kbdIntr s.kbdIn (serialPolled s) >>= fun r => _) = _
  rw [kbdIntr_held (held_serialPolled s) hkbd]
  rfl

theorem sysGetenvid_at :
    Triple (At c cur I []) (sysGetenvid cur) Orderly fun _ => At c cur Anything [] := by
  refine (spinLock_at not_mem_none).bind fun _ => get_bind_at fun s _ => ?_
  exact (spinUnlock_at not_mem_none).bind fun _ => Triple.pure fun _ h => h.any

theorem sysEnvDestroy_at {envid : BitVec 32} :
    Triple (At c cur I []) (sysEnvDestroy c envid) Orderly fun _ => At c cur Anything [] := by
  refine (spinLock_at not_mem_none).bind fun _ => get_bind_at fun s _ => ?_
  cases envid2env s.kern c envid true with
  | none => exact (spinUnlock_at not_mem_none).bind fun _ => Triple.pure fun _ h => h.any
  | some e =>
      refine ((envDestroy_at (by decide)).post fun _ _ h => h.2).bind fun _ => ?_
      exact (spinUnlock_at not_mem_none).bind fun _ => Triple.pure fun _ h => h

theorem populate_at {va size perm : BitVec 32} {hp : Bool} :
    Triple (At c cur I [.env]) (populate cur va size perm hp) Orderly
      fun _ => At c cur Anything [.env] := by
  refine (spinLock_at (by decide)).bind fun _ => (onVm_any _).bind fun ok => ?_
  exact (spinUnlock_at (by decide)).bind fun _ => Triple.pure fun _ h => h

/-- The end of a system call. -/
theorem unlock_return {a : α} :
    Triple (At c cur I [.env]) (do spinUnlock .env; pure a) Orderly fun _ => At c cur Anything [] :=
  (spinUnlock_at not_mem_none).bind fun _ => Triple.pure fun _ h => h.any

theorem sysVmaCreate_at {size perm flags : BitVec 32} :
    Triple (At c cur I []) (sysVmaCreate cur size perm flags) Orderly
      fun _ => At c cur Anything [] := by
  refine (spinLock_at not_mem_none).bind fun _ => Triple.ite (fun _ => unlock_return) fun _ => ?_
  refine (readVm_at _).bind fun spot => (onVm_any _).bind fun new => ?_
  cases new with
  | outOfMemory => exact unlock_return
  | failed => exact unlock_return
  | made new =>
      refine Triple.ite (fun _ => ?_) fun _ => Triple.ite (fun _ => ?_)
        fun _ => Triple.ite (fun _ => ?_) fun _ => ?_
      · exact populate_at.bind fun ok => Triple.ite (fun _ => unlock_return) fun _ => unlock_return
      · refine populate_at.bind fun ok => Triple.ite (fun _ => unlock_return) fun _ => ?_
        exact (inVm_at _).bind fun _ => unlock_return
      · exact (inVm_at _).bind fun _ => unlock_return
      · exact unlock_return

theorem sysVmaDestroy_at {va size : BitVec 32} :
    Triple (At c cur I []) (sysVmaDestroy cur va size) Orderly fun _ => At c cur Anything [] := by
  refine (spinLock_at not_mem_none).bind fun _ => (readVm_at _).bind fun v => ?_
  cases v with
  | none => exact fail_at
  | some v =>
      refine get_bind_at fun s _ => Triple.ite (fun _ => unlock_return) fun _ => ?_
      refine (vmaSplitLookup_at (by decide)).bind fun r => ?_
      cases r with
      | none => exact unlock_return
      | some _ => exact unlock_return

theorem sysWait_at {envid : BitVec 32} :
    Triple (At c cur I []) (sysWait c cur envid) Orderly fun _ => At c cur Anything [] := by
  refine (spinLock_at not_mem_none).bind fun _ => get_bind_at fun s _ => ?_
  cases envid2env s.kern c envid false with
  | none => exact unlock_return
  | some _ =>
      exact Triple.bind (Q := fun _ _ => True) (fun _ _ => True.intro) fun _ =>
        schedYield_stops.stops

theorem sysYield_stops : Triple (At c cur I []) (sysYield cur) Orderly fun _ _ => False := by
  refine Triple.bind (onKernel_at ?_) fun _ => (spinLock_at not_mem_none).bind fun _ =>
    schedYield_stops
  intro k
  rfl

theorem sysFork_at :
    Triple (At c cur I []) (sysFork cur) Orderly fun _ => At c cur Anything [] := by
  refine (spinLock_at not_mem_none).bind fun _ => envDup_at.bind fun r => ?_
  refine Triple.ite (fun _ => ?_) fun hr s h => absurd h.1 hr
  exact Triple.mono unlock_return (fun _ h => h.2) fun _ _ h => h

theorem sysVmaProtect_at {va size perm : BitVec 32} :
    Triple (At c cur I []) (sysVmaProtect cur va size perm) Orderly
      fun _ => At c cur Anything [] := by
  refine (spinLock_at not_mem_none).bind fun _ => (readVm_at _).bind fun v => ?_
  cases v with
  | none => exact unlock_return
  | some v =>
      refine get_bind_at fun s _ => Triple.ite (fun _ => unlock_return) fun _ => ?_
      refine (vmaSplitLookup_at (by decide)).bind fun r => ?_
      cases r with
      | none => exact unlock_return
      | some v => exact (inVm_at _).bind fun _ => (onVm_any _).bind fun ok => unlock_return

/-- `sys_vma_advise` at an address that is in an area. -/
theorem sysVmaAdvise_at {va size attr : BitVec 32} :
    Triple (At c cur (fun vm => vmaLookup (vm.envs cur) va ≠ .ok none) [])
      (sysVmaAdvise cur va size attr) Orderly
      fun _ => At c cur Anything [] := by
  refine (spinLock_at not_mem_none).bind fun _ => (readVm_at _).bind fun v => ?_
  cases v with
  | none => exact fun s h => absurd h.vm.2 h.vm.1
  | some v =>
      refine get_bind_at fun s _ => Triple.ite (fun _ => unlock_return) fun _ => ?_
      have hrest : ∀ J : Vm → Prop, Triple (At c cur J [.env]) (if attr = 1 then do
            spinLock .pagealloc
            let _ ← onVm fun vm => vmaPopulate vm cur va size (s.vm.vma cur v).perm
                (s.vm.vma cur v).hps
            spinUnlock .pagealloc
            spinUnlock .env
            pure (1 : BitVec 32)
          else do
            spinUnlock .env
            pure (1 : BitVec 32)) Orderly fun _ => At c cur Anything [] := by
        intro J
        refine Triple.ite (fun _ => ?_) fun _ => unlock_return
        refine (spinLock_at (by decide)).bind fun _ => (onVm_any _).bind fun _ => ?_
        exact (spinUnlock_at (by decide)).bind fun _ => unlock_return
      refine Triple.ite (fun _ => Triple.ite (fun _ => ?_) fun _ => hrest _) fun _ => hrest _
      refine (spinLock_at (by decide)).bind fun _ => (inVm_at _).bind fun _ => ?_
      exact (spinUnlock_at (by decide)).bind fun _ => hrest _

/-- It returns with `env_lock` when the address is in no area. -/
theorem sysVmaAdvise_none {va size attr : BitVec 32} {s : KState} (hs : At c cur I [] s)
    (hv : vmaLookup (s.vm.envs cur) va = .ok none) :
    ∃ s', sysVmaAdvise cur va size attr s = .ok (0, s') ∧ s'.held .env = true := by
  have hfree : s.held .env = false := by
    rw [hs.held]
    rfl
  refine ⟨{ s with held := Function.update s.held .env true }, ?_,
    Function.update_self Lock.env true s.held⟩
  change (spinLock .env s >>= fun r => _) = _
  rw [spinLock, if_neg (by rw [hfree]; exact Bool.false_ne_true)]
  change (readVm (fun vm => vmaLookup (vm.envs cur) va)
    { s with held := Function.update s.held .env true } >>= fun r => _) = _
  rw [readVm]
  dsimp only
  rw [hv]
  rfl

/-! ### The dispatch -/

/-- **The system calls that break the discipline**: `sys_cputs` of a string that is not mapped where
it is read, `sys_cgetc` when the keyboard has Ctrl-Alt-Del, and `sys_vma_advise` at an address
without an area. -/
def BreaksLocks (s : KState) (cur : ℕ) (no a1 a2 : BitVec 32) : Prop :=
  no.toNat = 0 ∧ CputsBreaks s.vm cur a1 a2 ∨
    no.toNat = 1 ∧ rebootsIn s.console.shift s.kbdIn = true ∨
    no.toNat = 7 ∧ vmaLookup (s.vm.envs cur) a1 = .ok none

/-- **`syscall`** where it keeps the discipline. -/
theorem syscall_kept {no a1 a2 a3 a4 a5 : BitVec 32} {s : KState} (hs : At c cur Anything [] s)
    (hgood : ¬ BreaksLocks s cur no a1 a2) :
    Ends Orderly (fun r => At c cur Anything [] r.2) (syscall c cur no a1 a2 a3 a4 a5 s) := by
  have hat : ∀ {α : Type} {J : Vm → Prop} {x : Kern α} {Q : α → KState → Prop}, J s.vm →
      Triple (At c cur J []) x Orderly Q → Triple (fun t => t = s) x Orderly Q := by
    intro α J x Q hJ hx
    refine hx.mono ?_ fun _ _ h => h
    rintro t rfl
    exact ⟨hs.held, hs.curenv, hJ⟩
  have hany : Anything s.vm := True.intro
  suffices hcall : Triple (fun t => t = s) (syscall c cur no a1 a2 a3 a4 a5) Orderly
      fun _ => At c cur Anything [] from hcall s rfl
  unfold syscall
  split
  · rename_i hno
    have hcputs : ¬ CputsBreaks s.vm cur a1 a2 := fun h => hgood (Or.inl ⟨hno, h⟩)
    exact (hat hcputs sysCputs_at).bind fun _ => Triple.pure fun _ h => h
  · rename_i hno
    have hkbd : rebootsIn s.console.shift s.kbdIn = false :=
      Bool.eq_false_iff.2 fun h => hgood (Or.inr (Or.inl ⟨hno, h⟩))
    rintro t rfl
    rw [sysCgetc_ok (by rw [hs.held]; rfl) hkbd]
    exact ⟨hs.held, hs.curenv, True.intro⟩
  · exact hat hany sysGetenvid_at
  · exact hat hany sysEnvDestroy_at
  · exact hat hany sysVmaCreate_at
  · exact hat hany sysVmaDestroy_at
  · exact hat hany sysVmaProtect_at
  · rename_i hno
    have hlook : vmaLookup (s.vm.envs cur) a1 ≠ .ok none :=
      fun h => hgood (Or.inr (Or.inr ⟨hno, h⟩))
    exact hat hlook sysVmaAdvise_at
  · exact (hat hany sysYield_stops).stops
  · exact hat hany sysWait_at
  · exact hat hany sysFork_at
  · exact hat hany (Triple.pure fun _ h => h.any)

/-- **`syscall`** where it does not: a lock is taken twice, or held on return. -/
theorem syscall_breaks {no a1 a2 a3 a4 a5 : BitVec 32} {s : KState} (hs : At c cur Anything [] s)
    (hbad : BreaksLocks s cur no a1 a2) :
    syscall c cur no a1 a2 a3 a4 a5 s = .error (.alreadyHolding .console) ∨
      ∃ r s', syscall c cur no a1 a2 a3 a4 a5 s = .ok (r, s') ∧ s'.held .env = true := by
  rcases hbad with ⟨hno, hbad⟩ | ⟨hno, hbad⟩ | ⟨hno, hbad⟩
  · left
    rw [syscall, hno]
    change (sysCputs c cur a1 a2 s >>= fun r => _) = _
    rw [sysCputs_held hs hbad]
    rfl
  · left
    rw [syscall, hno]
    exact sysCgetc_held (by rw [hs.held]; rfl) hbad
  · right
    obtain ⟨s', hrun, hheld⟩ := @sysVmaAdvise_none c cur Anything a1 a2 a3 s hs hbad
    refine ⟨0, s', ?_, hheld⟩
    rw [syscall, hno]
    exact hrun

end Kern

/-- **The lock discipline.** A system call that is entered without a lock keeps it exactly when it
is not one of those that break it; a page fault, which is handled with `env_lock`, always does. -/
theorem syscall_locks_iff (s : KState) (c cur : ℕ) (no a1 a2 a3 a4 a5 : BitVec 32)
    (hfree : ∀ l, s.held l = false) (hcur : s.kern.curenv c = some cur) :
    (LocksKept (Kern.syscall c cur no a1 a2 a3 a4 a5 s) ↔ ¬ Kern.BreaksLocks s cur no a1 a2) ∧
      ∀ (s' : KState) (faultVa : BitVec 32) (user prot : Bool),
        (∀ l, s'.held l = decide (l = .env)) →
        s'.kern.curenv c = some cur → FaultLocksKept
          (Kern.pageFaultHandler c cur faultVa user prot s') := by
  have hs : At c cur Anything [] s := ⟨funext fun l => hfree l, hcur, True.intro⟩
  refine ⟨⟨fun hkept hbad => ?_, fun hgood => ?_⟩, fun s' faultVa user prot hheld hcur' => ?_⟩
  · rcases Kern.syscall_breaks hs hbad with hrun | ⟨r, s', hrun, henv⟩
    · rw [hrun] at hkept
      exact hkept True.intro
    · rw [hrun] at hkept
      have hnone : s'.held .env = false := hkept .env
      rw [henv] at hnone
      exact absurd hnone (by simp)
  · refine (Kern.syscall_kept hs hgood).post fun r hr l => ?_
    rw [hr.held]
    rfl
  · have hs' : At c cur Anything [.env] s' := by
      refine ⟨funext fun l => ?_, hcur', True.intro⟩
      rw [hheld]
      exact decide_eq_decide.2 List.mem_singleton.symm
    refine (Kern.pageFaultHandler_at s' hs').post fun r hr l => ?_
    rw [hr.held]
    exact decide_eq_decide.2 List.mem_singleton

/-- An environment that has its stack and nothing else runs on processor 0. -/
def stackOnly : KState where
  vm := .ofWords 4 frames_four (fun _ _ => 0) fun _ =>
    { Space.ofDir 1 with
      vmas := fun _ => ⟨.anon, uStackTop - BitVec.ofNat 32 pgSize, BitVec.ofNat 32 pgSize,
        pteU ||| pteW, none, 0, 0, 0, false⟩
      allocVmaList := some 0 }
  kern := Kernel.init.setCurenv 0 (some 2)
  held := fun _ => false
  tfs := fun _ => ⟨0, []⟩
  console := Console.boot true
  serialIn := []
  kbdIn := []
  consOut := []

theorem syscall_locks_iff_getenvid : LocksKept (Kern.syscall 0 2 2 0 0 0 0 0 stackOnly) := by
  refine (syscall_locks_iff stackOnly 0 2 2 0 0 0 0 0 (fun _ => rfl) rfl).1.2 ?_
  rintro (⟨h, -⟩ | ⟨h, -⟩ | ⟨h, -⟩) <;> exact absurd h (by decide)

/-- `sys_vma_advise(0, PGSIZE, MADV_DONTNEED)` returns with `env_lock`. -/
theorem advise_keeps_env_lock : ¬ LocksKept (Kern.syscall 0 2 7 0 0x1000 0 0 0 stackOnly) := by
  intro h
  have henv : Function.update (fun _ : Lock => false) .env true .env = false := h .env
  exact nomatch henv

end Jos
