/-
**What a failed fork leaves behind.**

`env_dup` gives up at several points, and undoes nothing at any of them. Before `env_alloc` has
taken a slot there is nothing to undo. After that the child stays in the table of environments,
`RUNNABLE` and with half an address space: the failures of `env_cpy_vmas` do not occur, because
`vma_new` crashes instead; when a page table of the child cannot be allocated the parent has lost
`PTE_W` in the entries that were copied, and its `eax` is the id of the child.

Main definitions:

* `Jos.NoTrace` — a failed fork leaves everything as it was;
* `Jos.Abandoned` — the child of a failed fork.

Main results:

* `Jos.cpyVmasFrom_true` — `env_cpy_vmas` does not fail;
* `Jos.envDup_failed` — what a call that returns leaves behind;
* `Jos.fork_traceless_iff` — **a failed fork leaves no trace if and only if it has failed before it
  took a slot**.
-/

import JosKernel.EnvIds
import JosKernel.FrameUse
import JosKernel.SortedAreas
import JosKernel.SyscallLocks
import JosKernel.SyscallMemory
import JosKernel.Walks

set_option relaxedAutoImplicit false
set_option autoImplicit false

namespace Jos

open Outcome Stateful

/-! ### The property -/

/-- **A failed fork leaves no trace**: no environment that was free has become runnable, the parent
is as before, and so are the references and the free frames. -/
structure NoTrace (s s' : KState) (parent : ℕ) : Prop where
  idle : ∀ e, (s.kern.envs e).status = .free → (s'.kern.envs e).status ≠ .runnable
  areas : s'.vm.envs parent = s.vm.envs parent
  entries : ∀ d, s.vm.pgdir parent = some d → ∀ q, q / 1024 < pdx uTop →
    s'.vm.mm.leaf d q = s.vm.mm.leaf d q
  trapframe : s'.tfs parent = s.tfs parent
  refs : ∀ f, s'.vm.ref f = s.vm.ref f
  frames : ∀ l, FreeList s.vm.mm l → ∃ l', FreeList s'.vm.mm l' ∧ ∀ f, f ∈ l' ↔ f ∈ l

theorem NoTrace.refl (s : KState) (parent : ℕ) : NoTrace s s parent where
  idle _ h := by
    rw [h]
    exact fun hc => nomatch hc
  areas := rfl
  entries _ _ _ _ := rfl
  trapframe := rfl
  refs _ := rfl
  frames l h := ⟨l, h, fun _ => Iff.rfl⟩

/-- **The child of a failed fork**: it is runnable, and the parent has its id in `eax`. -/
structure Abandoned (s s' : KState) (parent child : ℕ) : Prop where
  slot : ∃ rest, s.kern.envFreeList = child :: rest
  runnable : (s'.kern.envs child).status = .runnable
  eax : (s'.tfs parent).eax = (s'.kern.envs child).envId

/-! ### The steps that can fail -/

/-- **`env_setup_vm`** fails only when no frame is free, and has done nothing then. -/
theorem envSetupVm_failed (s : Vm) (e : ℕ) :
    Ends (fun _ => True) (fun r => r.1 = false → s.mm.pageFreeList = none ∧ r.2 = s)
      (envSetupVm s e) := by
  unfold envSetupVm
  rw [ends_bind]
  refine (pageAlloc_none s.mm allocZero).post ?_
  rintro ⟨p, mm⟩ hp
  cases p with
  | none =>
      intro _
      obtain ⟨hmm, hnone⟩ := hp rfl
      exact ⟨hnone (by decide), congrArg (fun mm => { s with mm := mm }) hmm⟩
  | some p =>
      dsimp only
      rw [ends_bind]
      refine Ends.of_forall (fun kva => ?_) _
      rw [ends_bind]
      exact Ends.of_forall (fun _ hc => nomatch hc) _

/-- It does not succeed without a frame. -/
theorem envSetupVm_frame {s s' : Vm} {e : ℕ} (h : envSetupVm s e = .ok (true, s')) :
    s.mm.pageFreeList ≠ none := by
  intro hnone
  have halloc : pageAlloc s.mm allocZero = .ok (none, s.mm) := by
    unfold pageAlloc
    exact if_pos hnone
  rw [envSetupVm, halloc] at h
  exact nomatch (Prod.mk.inj (Except.ok.inj h)).1

/-- `vma_new` does not return 0. -/
theorem vmaNew_not_empty (sp : Space) (va len : BitVec 32) (type : VmaType)
    (src filesize cpyDst perm : BitVec 32) :
    Ends (fun _ => True) (fun r => r.1 ≠ .outOfMemory)
      (vmaNew sp va len type src filesize cpyDst perm) := by
  unfold vmaNew
  refine ends_ite (fun _ hc => nomatch hc) fun _ => ends_ite (fun _ hc => nomatch hc) fun _ => ?_
  split
  · exact True.intro
  · refine ends_ite (fun _ => True.intro) fun _ => ?_
    rw [ends_bind]
    exact Ends.of_forall (fun _ hc => nomatch hc) _

/-- **`env_cpy_vmas` does not fail.** -/
theorem cpyVmasFrom_true (child parent : ℕ) : ∀ (fuel : ℕ) (cur n : Option ℕ) (s : Vm),
    Ends (fun _ => True) (fun r => r.1 = true) (cpyVmasFrom child parent fuel cur n s) := by
  intro fuel
  induction fuel with
  | zero =>
      intro cur n s
      cases cur with
      | none => exact rfl
      | some v => exact True.intro
  | succ fuel ih =>
      intro cur n s
      cases cur with
      | none => exact rfl
      | some v =>
          rw [cpyVmasFrom, ends_bind, Vm.onSpace, ends_bind]
          refine (vmaNew_not_empty ..).post ?_
          rintro ⟨r, sp⟩ hr
          cases r with
          | made i => exact ih ..
          | outOfMemory => exact absurd rfl hr
          | failed =>
              cases n with
              | none => exact True.intro
              | some n => exact ih ..

/-! ### The call -/

/-- `env_alloc` finds a slot when there is one. -/
theorem envAlloc_slot {kern : Kernel} {child : ℕ} {rest : List ℕ}
    (hslot : kern.envFreeList = child :: rest) (parentId : BitVec 32) (type : EnvType) :
    ∃ kern', Jos.envAlloc kern parentId type = some (child, kern') := by
  rw [Jos.envAlloc, hslot]
  exact ⟨_, rfl⟩

/-- Work on virtual memory leaves the environments and the trap frames alone. -/
theorem Kern.onVm_aside {α : Type} {P : Kernel → (ℕ → Trapframe) → Prop} {R : α → Prop}
    {f : Vm → Except Crash (α × Vm)} (hR : ∀ vm, Ends (fun _ => True) (fun r => R r.1) (f vm)) :
    Triple (fun s => P s.kern s.tfs) (Kern.onVm f) Orderly fun a s => R a ∧ P s.kern s.tfs := by
  intro s hs
  rw [Kern.onVm]
  cases hf : f s.vm with
  | error e => exact id
  | ok r => exact ⟨(hR s.vm).of_ok hf, hs⟩

/-- **From the new slot on**, a call that returns leaves a child that is runnable. -/
theorem envDup_rest (parent child : ℕ) :
    Triple (fun s => (s.kern.envs child).status = .runnable) (do
      Kern.inVm fun vm => pure (vm.modSpace child fun sp =>
        { sp with allocPages := (vm.envs parent).allocPages })
      let ok ← Kern.onVm fun vm => envCpyVmas vm child parent
      if ¬ ok then return 0
      modify fun s =>
        let tfs := Function.update s.tfs child { s.tfs parent with eax := 0 }
        { s with
          tfs := Function.update tfs parent
            { s.tfs parent with eax := (s.kern.envs child).envId } }
      let ok ← Kern.onVm fun vm => envCpyPgdirCow vm child parent
      if ¬ ok then return 0
      Kern.onKernel fun kern => invalidateEnvTs kern parent
      Kern.schedYield
      let s ← get
      return (s.kern.envs child).envId) Orderly fun (_ : BitVec 32) s =>
        (s.kern.envs child).status = .runnable ∧ (s.tfs parent).eax =
          (s.kern.envs child).envId := by
  let Taken : Kernel → (ℕ → Trapframe) → Prop := fun k _ => (k.envs child).status = .runnable
  let Told : Kernel → (ℕ → Trapframe) → Prop := fun k tfs =>
    (k.envs child).status = .runnable ∧ (tfs parent).eax = (k.envs child).envId
  refine Triple.bind ((Kern.onVm_aside (P := Taken) (R := fun _ => True) fun _ => Ends.of_forall
    (fun _ => True.intro) _).post fun _ _ h => h.2) fun _ => ?_
  refine (Kern.onVm_aside (P := Taken) (R := fun ok => ok = true)
    fun vm => cpyVmasFrom_true ..).bind fun ok => ?_
  refine Triple.ite (fun hok s hs => absurd hs.1 hok) fun _ => ?_
  refine Triple.bind (Q := fun _ s => Told s.kern s.tfs) (fun s hs => ⟨hs.2, ?_⟩) fun _ => ?_
  · change (Function.update (Function.update s.tfs child _) parent _ parent).eax = _
    rw [Function.update_self]
  refine (Kern.onVm_aside (P := Told) (R := fun _ => True) fun _ => Ends.of_forall
    (fun _ => True.intro) _).bind fun ok => ?_
  refine Triple.ite (fun _ => Triple.pure fun s hs => hs.2) fun _ => ?_
  -- The last way out is `sched_yield`, which does not return.
  refine Triple.bind (Q := fun _ _ => True) (fun _ _ => True.intro) fun _ => ?_
  exact Kern.schedYield_stops.stops

/-- **What `env_dup` leaves behind when it returns.** -/
theorem envDup_failed (s : KState) (parent : ℕ) :
    Ends Orderly (fun r =>
      (s.kern.envFreeList = [] ∨ s.vm.mm.pageFreeList = none) ∧ r.2 = s ∨
        (s.kern.envFreeList ≠ [] ∧ s.vm.mm.pageFreeList ≠ none) ∧ ∃ child,
          Abandoned s r.2 parent child)
      (Kern.envDup parent s) := by
  unfold Kern.envDup
  rw [Kern.get_bind]
  cases hslot : s.kern.envFreeList with
  | nil => exact Or.inl ⟨Or.inl rfl, rfl⟩
  | cons child rest =>
      dsimp only
      cases hsetup : envSetupVm s.vm child with
      | error c =>
          rw [Kern.onVm_error hsetup]
          exact id
      | ok r =>
          obtain ⟨ok, vm₁⟩ := r
          rw [Kern.onVm_ok hsetup]
          cases ok with
          | false =>
              obtain ⟨hnone, hvm⟩ := (envSetupVm_failed s.vm child).of_ok hsetup rfl
              have hvm : vm₁ = s.vm := hvm
              refine Or.inl ⟨Or.inr hnone, ?_⟩
              rw [hvm]
          | true =>
              rw [if_neg (by simp)]
              refine Ends.post (Triple.bind (P := fun t => t = { s with vm := vm₁ })
                (Q := fun _ t => (t.kern.envs child).status = .runnable)
                ?_ (fun _ => envDup_rest parent child) _ rfl) fun r hr => ?_
              · rintro t rfl
                obtain ⟨kern₁, hkern⟩ :=
                  envAlloc_slot hslot (s.kern.envs parent).envId (s.kern.envs parent).type
                rw [Kern.onKernel_apply, ends_ok, hkern]
                exact (envAlloc_some hkern).2.2.1
              · exact Or.inr ⟨⟨by simp, envSetupVm_frame hsetup⟩, child, ⟨rest, hslot⟩, hr.1, hr.2⟩

/-! ### The criterion -/

/-- **A failed fork leaves no trace if and only if it has failed before it took a slot.** -/
theorem fork_traceless_iff (s s' : KState) (parent : ℕ)
    (hfree : ∀ e ∈ s.kern.envFreeList, (s.kern.envs e).status = .free)
    (hrun : Kern.envDup parent s = .ok (0, s')) :
    NoTrace s s' parent ↔ s.kern.envFreeList = [] ∨ s.vm.mm.pageFreeList = none := by
  constructor
  · intro h
    rcases (envDup_failed s parent).of_ok hrun with ⟨hearly, -⟩ | ⟨-, child, habandoned⟩
    · exact hearly
    · obtain ⟨rest, hslot⟩ := habandoned.slot
      have hmem : child ∈ s.kern.envFreeList := by
        rw [hslot]
        exact List.mem_cons_self
      exact absurd habandoned.runnable (h.idle child (hfree child hmem))
  · intro hearly
    rcases (envDup_failed s parent).of_ok hrun with ⟨-, hsame⟩ | ⟨⟨hslot, hframe⟩, -⟩
    · have hsame : s' = s := hsame
      rw [hsame]
      exact NoTrace.refl s parent
    · exact absurd hearly (not_or.2 ⟨hslot, hframe⟩)

/-! ### A page table too many -/

/-- The words of the machine: the directory is frame 1, its page tables are 2 and 3, and each has a
page. -/
def parentTwoWord (f i : ℕ) : BitVec 32 :=
  if f = 1 ∧ i = 0 then 0x2007 else if f = 1 ∧ i = 1 then 0x3007
  else if f = 2 ∧ i = 1 then 0x4007 else if f = 3 ∧ i = 0 then 0x5007 else 0

/-- A parent with a page under each of two page tables, and one slot. Two frames are free. -/
def parentTwo (slots : List ℕ) : KState :=
  let vm := Vm.ofWords 8 frames_eight parentTwoWord fun e =>
    if e = 0 then Space.ofAreas (some 1) [userArea 0x1000 0x1000, userArea 0x400000 0x1000] 2
      else Space.ofAreas none [] 0
  let mm := { vm.mm with
    premappedFlag := false, pageFreeList := some 6, freePagesCount := 2
    pages := fun f => if f = 6 then ⟨some 7, none, 0, 0⟩ else if f = 7 then .zero
      else ⟨none, none, 1, alloc⟩ }
  { KState.ofVm { vm with mm := mm } with kern := { Kernel.init with envFreeList := slots } }

/-- The same parent with two slots, but no frame. -/
def parentFull : KState :=
  let s := parentTwo [1, 2]
  { s with vm := { s.vm with mm := { s.vm.mm with pageFreeList := none, freePagesCount := 0 } } }

/-- There is a slot for the child, but no frame for its directory. -/
theorem fork_traceless_iff_no_frame : Kern.envDup 0 parentFull = .ok (0, parentFull) ∧
    parentFull.kern.envFreeList = [1, 2] ∧ NoTrace parentFull parentFull 0 := by
  have hrun : Kern.envDup 0 parentFull = .ok (0, parentFull) := rfl
  exact ⟨hrun, rfl, (fork_traceless_iff parentFull parentFull 0 (fun _ _ => rfl) hrun).2
    (Or.inr rfl)⟩

/-- The entry and the references of the page at `0x1000`, which the first round of the copy
shares. -/
def sharedPage (s : KState) : Option (BitVec 32 × Bool) × BitVec 16 :=
  (s.vm.mm.leaf 1 1, s.vm.ref 4)

/-- **The directory and one page table take the last two frames**: the call returns 0 when it is at
the second page, the child is runnable, the parent has its id, and its first page has lost `PTE_W`
and has a reference more. -/
theorem parentTwo_run :
    (Kern.envDup 0 (parentTwo [1])).toOption.map (fun r =>
      (r.1, (r.2.kern.envs 1).status, (r.2.tfs 0).eax)) =
      some (0, .runnable, 0x1001) ∧
    (Kern.envDup 0 (parentTwo [1])).toOption.map (fun r => sharedPage r.2) =
      some (some (0x4005, false), 2) ∧
    sharedPage (parentTwo [1]) = (some (0x4007, false), 1) := by decide +kernel

theorem fork_failure_leaves_child : ¬ ∀ (s s' : KState) (parent : ℕ),
    (∀ e ∈ s.kern.envFreeList, (s.kern.envs e).status = .free) →
      Kern.envDup parent s = .ok (0, s') → NoTrace s s' parent := by
  intro hall
  cases hrun : Kern.envDup 0 (parentTwo [1]) with
  | error c =>
      have h := parentTwo_run.1
      rw [hrun] at h
      exact nomatch h
  | ok r =>
      have h := parentTwo_run.1
      rw [hrun] at h
      obtain ⟨hzero, h⟩ := Prod.mk.inj (Option.some.inj h)
      refine (hall (parentTwo [1]) r.2 0 (fun _ _ => rfl) ?_).idle 1 rfl (Prod.mk.inj h).1
      rw [hrun, ← hzero]

end Jos
