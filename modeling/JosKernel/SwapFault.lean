/-
**Faults on pages in the swap area.**

`page_fault_handler` recognises the entry of a page that is in the swap area, but not where the
kernel itself touches an absent page: there it goes straight to `alloc_page_after_fault`, which
takes the page for one that was never allocated.

Main definitions:

* `Jos.Vm.swapIn` — the part of `swap_in` that works on memory;
* `Jos.Vm.faultHandler` — `page_fault_handler` with it;
* `Jos.SwapSite` — a fault on a page in the swap area;
* `Jos.EntryKept` — **the entry still records its slot, or the environment is gone**.

Main results:

* `Jos.Kern.pageFaultHandler_vm` — what the handler does to memory when it returns;
* `Jos.SwapSite.swapIn` — marking and the frame for the page;
* `Jos.FaultSite.demand_present` — a page on demand is present;
* `Jos.entryKept_iff` — **the exact condition for the entry to be kept**.
-/

import JosKernel.FaultLocal
import JosKernel.Swap
import JosKernel.SyscallLocks

set_option relaxedAutoImplicit false
set_option autoImplicit false

namespace Jos

open LinkedList Outcome Stateful

/-! ### The handler -/

namespace Vm

/-- `swap_in(fault_va, pte)`, as far as memory goes: with a free tasklet the entries are marked, and
a frame is taken for the page. In the table of environments `kern` the one with the fault sleeps
already. -/
def swapIn (s : Vm) (kern : Kernel) (pte : PtePtr) : Except Crash Vm :=
  if kern.tList.length < nTasklets then do
    let s ← (List.range' nKThreads (nEnv - nKThreads)).foldlM (markRound kern pte) s
    let (pg, mm) ← pageAlloc s.mm 0
    if pg.isNone then throw (.panic "[KERN] swap_in(): Tried to swap in a page, but alloc failed!")
    pure { s with mm := mm }
  else pure s

/-- `page_fault_handler(tf)`, from the entry that `pgdir_walk` finds on. -/
def handleEntry (s : Vm) (kern : Kernel) (e : ℕ) (faultVa : BitVec 32) (prot : Bool)
    (pte : Option PtePtr) :
    Except Crash (FaultEnd × Vm) :=
  match pte.filter fun pte => isSwapped (s.pte pte) with
  | some pte => do
      let s ← if s.pte pte &&& pteAvail = 0 then s.swapIn kern pte else pure s
      pure (.asleep, s)
  | none =>
      if ¬ prot then allocPageAfterFault s e faultVa
      else do
        let v ← vmaLookup (s.envs e) faultVa
        if v.any fun v => isWritable (s.vma e v).perm then do
          let (ok, s) ← pageDedup s e faultVa
          pure (if ok then .resumed else .dedupFailed, s)
        else killEnv s e

/-- **`page_fault_handler(tf)`**, with the effect of `swap_in` on memory. -/
def faultHandler (s : Vm) (kern : Kernel) (e : ℕ) (faultVa : BitVec 32) (user prot : Bool) :
    Except Crash (FaultEnd × Vm) :=
  if ¬ user ∧ uTop < faultVa then throw
    (.panic "[KERN_DEBUG] page_fault_handler(): kernel page fault!")
  else if ¬ user ∧ ¬ prot then allocPageAfterFault s e faultVa
  else do
    let pte ← pgdirFind s (s.pgdir e) faultVa
    s.handleEntry kern e faultVa prot pte

end Vm

/-! ### What the handler does to memory -/

namespace Kern

variable {c cur : ℕ} {I : Vm → Prop} {ls : List Lock}

theorem inVm_rel {J : Vm → Prop} (f : Vm → Except Crash Vm)
    (hJ : ∀ vm vm', I vm → f vm = .ok vm' → J vm') :
    Triple (At c cur I ls) (inVm f) Orderly fun _ => At c cur J ls := by
  refine onVm_at _ fun vm _ vm' hI hf => ?_
  obtain ⟨vm₁, hf₁, hend⟩ := bind_eq_ok.1 hf
  obtain rfl : vm₁ = vm' := congrArg Prod.snd (Except.ok.inj hend)
  exact hJ vm vm₁ hI hf₁

/-- **`alloc_page_after_fault`**, when it returns. -/
theorem allocPageAfterFault_vm {vm₀ : Vm} {faultVa : BitVec 32} (hI : ∀ vm, I vm → vm = vm₀) :
    Triple (At c cur I [.env]) (allocPageAfterFault c cur faultVa) Orderly
      fun _ => At c cur (fun vm => Jos.allocPageAfterFault vm₀ cur faultVa = .ok (.resumed, vm))
        [.env] := by
  refine (spinLock_at (by decide)).bind fun _ => (readVm_at _).bind fun v => ?_
  cases v with
  | none =>
      have hunlock := @spinUnlock_at c cur (fun vm => I vm ∧
        vmaLookup (vm.envs cur) faultVa = .ok none) [.env] .pagealloc
        (by decide)
      exact (cprintf_at (by decide)).bind fun _ => hunlock.bind fun _ =>
        (killEnv_stops (by decide) (by decide)).stops
  | some v =>
      refine (cprintf_at (by decide)).bind fun _ => get_bind_at fun s hs => ?_
      have hvm : s.vm = vm₀ := hI _ hs.vm.1
      have harea : vmaLookup (vm₀.envs cur) faultVa = .ok (some v) := hvm ▸ hs.vm.2
      have hend := @spinUnlock_at c cur (fun vm => Jos.allocPageAfterFault vm₀ cur
        faultVa = .ok (.resumed, vm)) [.env] .pagealloc
        (by decide)
      rw [allocPageAfterFault_eq harea] at hend ⊢
      rw [hvm]
      refine Triple.ite (fun hbin => ?_) fun hbin => ?_
      · rw [if_pos hbin] at hend ⊢
        refine Triple.bind (inVm_rel _ fun vm vm' hvm hload => ?_) fun _ => hend
        rw [hI vm hvm.1] at hload
        rw [hload]
        rfl
      · rw [if_neg hbin, allocAnon_eq] at hend ⊢
        have hrun := @onVm_at Bool c cur (fun vm => I vm ∧
          vmaLookup (vm.envs cur) faultVa = .ok (some v)) [.pagealloc, .env]
          (fun ok vm => demandPage vm₀ cur v faultVa = .ok (ok, vm))
            (fun vm => demandPage vm cur v faultVa)
          fun vm ok vm' hvm hrun => hI vm hvm.1 ▸ hrun
        refine hrun.bind fun ok => Triple.ite (fun _ => ?_) fun hok => ?_
        · have hunlock := @spinUnlock_at c cur (fun vm => demandPage vm₀ cur v
            faultVa = .ok (ok, vm)) [.env] .pagealloc (by decide)
          exact (cprintf_at (by decide)).bind fun _ => hunlock.bind fun _ =>
            (killEnv_stops (by decide) (by decide)).stops
        · refine Triple.mono hend (fun s hs => ⟨hs.held, hs.curenv, ?_⟩) fun _ _ h => h
          rw [hs.vm]
          obtain rfl : ok = true := not_not.1 hok
          rfl

theorem swapIn_vm {vm₀ : Vm} {pte : PtePtr} (hI : ∀ vm, I vm → vm = vm₀) :
    Triple (At c cur I [.env]) (swapIn cur pte) Orderly
      fun _ => At c cur (fun vm => ∃ kern, vm₀.swapIn kern pte = .ok vm) [.env] := by
  refine Triple.bind (onKernel_at ?_) fun _ => (spinLock_at (by decide)).bind fun _ => get_bind_at
    fun s hs => ?_
  · intro k
    rfl
  refine Triple.ite (fun hfree => ?_) fun _ => ?_
  · have hmark := @inVm_rel c cur I [.task, .env]
      (fun vm => (List.range' nKThreads (nEnv - nKThreads)).foldlM
        (markRound s.kern pte) vm₀ = .ok vm)
      (fun vm => (List.range' nKThreads (nEnv - nKThreads)).foldlM (markRound s.kern pte) vm)
      fun vm vm' hvm hrun => hI vm hvm ▸ hrun
    refine hmark.bind fun _ => (cprintf_at (by decide)).bind fun _ => (spinLock_at (by decide)).bind
      fun _ => ?_
    refine Triple.bind (onVm_at (J := fun pg vm => pg.isNone = false →
      vm₀.swapIn s.kern pte = .ok vm) _ fun vm pg vm' hvm hrun hpg => ?_)
      fun pg => (spinUnlock_at (by decide)).bind fun _ => Triple.ite (fun _ => Triple.stops fail_at)
        fun hpg => ?_
    · obtain ⟨⟨pg', m⟩, halloc, hend⟩ := bind_eq_ok.1 hrun
      obtain ⟨rfl, rfl⟩ := Prod.mk.inj (Except.ok.inj hend)
      rw [Vm.swapIn, if_pos hfree, hvm]
      change (pageAlloc vm.mm 0 >>= _) = _
      rw [halloc]
      change (if pg'.isNone = true then _ else _) = _
      rw [hpg]
      rfl
    · refine (cprintf_at (by decide)).bind fun _ => Triple.bind (onKernel_at ?_) fun _ => ?_
      · intro k
        rfl
      have hunlock := @spinUnlock_at c cur (fun vm => pg.isNone = false →
        vm₀.swapIn s.kern pte = .ok vm) [.env] .task (by decide)
      exact hunlock.post fun _ s' h => ⟨h.held, h.curenv, s.kern,
        h.vm (Bool.eq_false_of_not_eq_true hpg)⟩
  · refine Triple.bind (onKernel_at ?_) fun _ => (spinUnlock_at (by decide)).bind fun _ => ?_
    · intro k
      rfl
    exact schedYield_stops.post fun _ _ h => h.elim

/-- **What `page_fault_handler` does to memory when it returns.** -/
theorem pageFaultHandler_vm {vm₀ : Vm} {faultVa : BitVec 32} {user prot : Bool} :
    Triple (At c cur (fun vm => vm = vm₀) [.env]) (pageFaultHandler c cur faultVa user prot) Orderly
      fun _ => At c cur (fun vm => ∃ kern r, r ≠ .killed ∧ vm₀.faultHandler kern cur faultVa user
        prot = .ok (r, vm)) [.env] := by
  unfold Vm.faultHandler
  refine assertLock_at.bind fun _ => Triple.ite (fun _ => ?_) fun hlow => ?_
  · exact (cprintf_at (by decide)).bind fun _ => Triple.stops fail_at
  simp only [if_neg hlow]
  refine Triple.ite (fun hkernel => ?_) fun huser => ?_
  · simp only [if_pos hkernel]
    refine (allocPageAfterFault_vm fun _ h => h).bind fun _ => Triple.pure fun s h =>
      ⟨h.held, h.curenv, s.kern, .resumed, nofun, h.vm⟩
  simp only [if_neg huser]
  refine (readVm_at _).bind fun pte => get_bind_at fun s hs => ?_
  obtain ⟨hvm, hfind⟩ := hs.vm
  have hsame : ∀ vm, vm = vm₀ ∧ pgdirFind vm (vm.pgdir cur) faultVa = .ok pte → vm = vm₀ :=
    fun _ h => h.1
  rw [hvm] at hfind ⊢
  rw [hfind]
  change Triple _ _ _ fun _ => At c cur (fun vm => ∃ kern r, r ≠ .killed ∧ vm₀.handleEntry kern cur
    faultVa prot pte = .ok (r, vm)) [.env]
  unfold Vm.handleEntry
  cases pte.filter fun pte => isSwapped (vm₀.pte pte) with
  | some pte =>
      refine (cprintf_at (by decide)).bind fun _ => Triple.ite (fun hav => ?_) fun hav => ?_
      · refine (swapIn_vm hsame).post fun _ s h => ?_
        obtain ⟨kern, hrun⟩ := h.vm
        refine ⟨h.held, h.curenv, kern, .asleep, nofun, ?_⟩
        dsimp only
        rw [if_pos hav, hrun]
        rfl
      · refine Triple.post (onKernel_at ?_) fun _ s h =>
          ⟨h.held, h.curenv, s.kern, .asleep, nofun, ?_⟩
        · intro k
          rfl
        dsimp only
        rw [if_neg hav, hsame _ h.vm]
        rfl
  | none =>
      dsimp only
      refine Triple.ite (fun hprot => ?_) fun hprot => ?_
      · simp only [if_pos hprot]
        exact (allocPageAfterFault_vm hsame).post fun _ s h =>
          ⟨h.held, h.curenv, s.kern, .resumed, nofun, h.vm⟩
      simp only [if_neg hprot]
      refine (readVm_at _).bind fun v => ?_
      refine Triple.ite (fun hW => ?_) fun _ => (cprintf_at (by decide)).bind fun _ =>
        (killEnv_stops (by decide) (by decide)).post fun _ _ h => h.elim
      refine (spinLock_at (by decide)).bind fun _ => ?_
      have hdedup :=
        @onVm_at Bool c cur (fun vm => (vm = vm₀ ∧ pgdirFind vm (vm.pgdir cur) faultVa = .ok pte) ∧
          vmaLookup (vm.envs cur) faultVa = .ok v) [.pagealloc, .env]
        (fun ok vm => vmaLookup (vm₀.envs cur) faultVa = .ok v ∧
          pageDedup vm₀ cur faultVa = .ok (ok, vm))
        (fun vm => pageDedup vm cur faultVa) fun vm ok vm' hvm hrun => hsame vm hvm.1 ▸
          ⟨hvm.2, hrun⟩
      refine hdedup.bind fun ok => ?_
      have hunlock := @spinUnlock_at c cur (fun vm => vmaLookup (vm₀.envs cur) faultVa = .ok v ∧
        pageDedup vm₀ cur faultVa = .ok (ok, vm))
        [.env] .pagealloc (by decide)
      refine message_at (by decide) (hunlock.post fun _ s h => ?_)
      refine ⟨h.held, h.curenv, s.kern, if ok then .resumed else .dedupFailed, ?_, ?_⟩
      · cases ok <;> nofun
      · rw [h.vm.1]
        change (if (v.any fun v => isWritable (vm₀.vma cur v).perm) = true then _ else _) = _
        rw [if_pos hW, h.vm.2]
        rfl

end Kern

/-! ### The entry while it is marked -/

/-- **A page in the swap area**, at an address below `UTOP`; an area of the program around it is in
order. -/
structure SwapSite (s : Vm) (e d : ℕ) (va w : BitVec 32) (live : List Block) (l : List ℕ) :
    Prop extends DirSite s e d live l where
  low : va < uTop
  entry : s.mm.leaf d (vpn va) = some (w, false)
  swapped : isSwapped w = true
  binary : ∀ v, vmaLookup (s.envs e) va = .ok (some v) → (s.vma e v).type = .binary →
    BinarySite s e d v l

/-- The entry of the page `q` still records the slot of `w`. -/
def KeepsSlot (s' : Vm) (d q : ℕ) (w : BitVec 32) : Prop :=
  ∃ w', s'.mm.leaf d q = some (w', false) ∧ isSwapped w' = true ∧ pgnum w' = pgnum w

/-- **The entry of the page still records its slot, or the environment is gone.** -/
def EntryKept (s' : Vm) (r : FaultEnd) (d : ℕ) (va w : BitVec 32) : Prop :=
  r = .killed ∨ KeepsSlot s' d (vpn va) w

/-- Some entries have been marked; the one of the page `q` is `w` or has been marked too. -/
structure Marking (s s' : Vm) (d q : ℕ) (w : BitVec 32) : Prop where
  only : s' = { s with mm := { s.mm with mem := s'.mm.mem } }
  dir : s'.mm.word d (q / 1024) = s.mm.word d (q / 1024)
  leaf : ∃ w', s'.mm.leaf d q = some (w', false) ∧ (w' = w ∨ w' = w ||| pteAvail)

theorem or_avail_twice (w : BitVec 32) : w ||| pteAvail ||| pteAvail = w ||| pteAvail := by
  rw [BitVec.or_assoc, BitVec.or_self]

theorem Marking.keepsSlot {s s' : Vm} {d q : ℕ} {w : BitVec 32} (h : Marking s s' d q w)
    (hw : isSwapped w = true) : KeepsSlot s' d q w := by
  obtain ⟨w', hleaf, rfl | rfl⟩ := h.leaf
  · exact ⟨_, hleaf, hw, rfl⟩
  · exact ⟨_, hleaf, isSwapped_or_avail hw, pgnum_or_avail w⟩

theorem isPresent_of_isSwapped {w : BitVec 32} (h : isSwapped w = true) : isPresent w = false := by
  rw [isSwapped, Bool.and_eq_true, Bool.not_eq_true'] at h
  exact h.1

/-- `seek_pte` finds an entry that looks like the one that it is given. -/
theorem seekPteFrom_found (s : Vm) (w : BitVec 32) (d : ℕ) :
    ∀ n i, Ends (fun _ => True) (fun r => ∀ p, r = some p → s.pte p = w)
      (seekPteFrom s w d n i) := by
  intro n
  induction n with
  | zero =>
      intro i p hp
      exact nomatch hp
  | succ n ih =>
      intro i
      refine ends_ite (fun _ => ?_) fun _ => ih (i + 1)
      rw [ends_bind]
      refine Ends.of_forall (fun _ => ?_) _
      split
      · rename_i j hj
        intro p hp
        obtain rfl := Option.some.inj hp
        simpa using List.find?_some hj
      · exact ih (i + 1)

/-- **A round of `swap_in`** marks an entry that looks like the one with the fault. -/
theorem Marking.round {s s₁ : Vm} {d q : ℕ} {w : BitVec 32} (h : Marking s s₁ d q w)
    (hw : isSwapped w = true) (kern : Kernel) (i : ℕ) :
    Ends (fun _ => True) (fun s₂ => Marking s s₂ d q w)
      (markRound kern (s.mm.leafPtr d q) s₁ i) := by
  obtain ⟨w', hleaf, hor⟩ := h.leaf
  obtain ⟨hP, hH, hword⟩ := Mm.leaf_eq_some hleaf
  have habs : isPresent w' = false := by
    have hw' : isSwapped w' = true := by
      rcases hor with rfl | rfl
      · exact hw
      · exact isSwapped_or_avail hw
    exact isPresent_of_isSwapped hw'
  have hpte : s₁.pte (s.mm.leafPtr d q) = w' := by
    rw [← Mm.leafPtr_congr h.dir]
    exact hword.symm
  unfold markRound
  refine ends_ite (fun _ => ?_) fun _ => h
  cases s₁.pgdir i with
  | none => exact True.intro
  | some d' =>
      dsimp only
      rw [ends_bind]
      refine (seekPteFrom_found s₁ (s₁.pte (s.mm.leafPtr d q)) d' nPdEntries 0).post fun r hfound =>
        ?_
      cases r with
      | none => exact h
      | some p =>
          have hp : s₁.mm.word p.frame p.idx = w' := (hfound p rfl).trans hpte
          have hmark : ∀ g k, (s₁.setPte p (s₁.pte p ||| pteAvail)).mm.word g k =
              if g = p.frame ∧ k = p.idx then w' ||| pteAvail else s₁.mm.word g k := by
            intro g k
            rw [Vm.word_setPte, show s₁.pte p = w' from hp]
          -- the entry of the directory is present, so it is not the one that is marked
          have hdir : (s₁.setPte p (s₁.pte p ||| pteAvail)).mm.word d (q / 1024) =
              s₁.mm.word d (q / 1024) := by
            rw [hmark, if_neg]
            rintro ⟨hd, hq⟩
            rw [hd, hq, hp, habs] at hP
            exact nomatch hP
          have hnew : (s₁.setPte p (s₁.pte p ||| pteAvail)).mm.leaf d q = some (w', false) ∨
              (s₁.setPte p (s₁.pte p ||| pteAvail)).mm.leaf d
                q = some (w' ||| pteAvail, false) := by
            rw [Mm.leafPtr_small hH] at hword
            rw [Mm.leaf, hdir, if_pos hP, if_neg (by rw [hH]; exact Bool.false_ne_true), hmark]
            by_cases hself : pgnum (s₁.mm.word d (q / 1024)) = p.frame ∧ q % 1024 = p.idx
            · rw [if_pos hself]
              exact Or.inr rfl
            · rw [if_neg hself, ← hword]
              exact Or.inl rfl
          have honly := h.only
          refine ⟨?_, hdir.trans h.dir, ?_⟩
          · rw [honly]
            rfl
          · rcases hnew with hnew | hnew
            · exact ⟨_, hnew, hor⟩
            · refine ⟨_, hnew, Or.inr ?_⟩
              rcases hor with rfl | rfl
              · rfl
              · exact or_avail_twice w

namespace SwapSite

variable {s : Vm} {e d : ℕ} {va w : BitVec 32} {live : List Block} {l : List ℕ}

theorem vpn_low (h : SwapSite s e d va w live l) : vpn va / 1024 < pdx uTop := by
  have hlt := pdx_lt_of_lt h.low
  rwa [pdx_eq] at hlt

/-- **`swap_in`** keeps the slot in the entry: the marks do not change it, and the frame for the
page is none of the page tables. -/
theorem swapIn (h : SwapSite s e d va w live l) (kern : Kernel) :
    Ends (fun _ => True) (fun s' => KeepsSlot s' d (vpn va) w)
      (s.swapIn kern (s.mm.leafPtr d (vpn va))) := by
  have hstart : Marking s s d (vpn va) w := ⟨rfl, rfl, w, h.entry, Or.inl rfl⟩
  unfold Vm.swapIn
  refine ends_ite (fun _ => ?_) fun _ => hstart.keepsSlot h.swapped
  rw [ends_bind]
  refine (ends_foldlM_range' (P := fun _ s₁ => Marking s s₁ d (vpn va) w) hstart fun k _ s₁ h₁ =>
    h₁.round h.swapped kern _).post
    fun s₁ h₁ => ?_
  rw [ends_bind]
  refine (@pageAlloc_keeps s₁.mm 0 (by decide)).post ?_
  rintro ⟨pg, m⟩ hkeep
  refine ends_ite (fun _ => True.intro) fun _ => ?_
  obtain ⟨w', hleaf, hw', hpg⟩ := h₁.keepsSlot h.swapped
  -- the directory and the page table are in use
  have hused : ∀ g, s.mm.WalkFrame d g → m.mem g = s₁.mm.mem g := by
    intro g hg
    refine (hkeep.used g ?_).2
    rw [h₁.only]
    exact h.used hg
  obtain ⟨hP, hH, -⟩ := Mm.leaf_eq_some hleaf
  have htab : s.mm.HasTable d (vpn va / 1024) := by
    rw [Mm.HasTable, ← h₁.dir]
    exact ⟨hP, hH⟩
  have hdir : m.word d (vpn va / 1024) = s₁.mm.word d (vpn va / 1024) :=
    Mm.word_of_mem (hused d (Or.inl rfl)) _
  refine ⟨w', ?_, hw', hpg⟩
  change m.leaf d (vpn va) = _
  rw [← hleaf]
  unfold Mm.leaf
  rw [hdir, h₁.dir, Mm.word_of_mem (hused _ (htab.walkFrame h.vpn_low))]

/-- **The handler of a fault that it recognises.** -/
theorem handleEntry (h : SwapSite s e d va w live l) (kern : Kernel) (prot : Bool) :
    Ends (fun _ => True) (fun r => KeepsSlot r.2 d (vpn va) w)
      (s.handleEntry kern e va prot (some (s.mm.leafPtr d (vpn va)))) := by
  have hpte : s.pte (s.mm.leafPtr d (vpn va)) = w := (Mm.leaf_eq_some h.entry).2.2.symm
  have hfilter : (some (s.mm.leafPtr d (vpn va))).filter (fun pte => isSwapped (s.pte pte)) =
      some (s.mm.leafPtr d (vpn va)) := by
    rw [Option.filter_some, hpte, if_pos h.swapped]
  unfold Vm.handleEntry
  rw [hfilter]
  refine Ends.ite_bind (ends_ite (fun _ => ?_) fun _ => ?_)
  · exact (h.swapIn kern).post fun _ hkept => hkept
  · exact ⟨w, h.entry, h.swapped, rfl⟩

end SwapSite

/-! ### The page that is never looked for -/

/-- **A page on demand is present**, when there was an entry for it. -/
theorem FaultSite.demand_present {s : Vm} {e d v : ℕ} {va w : BitVec 32} {live : List Block}
    {l : List ℕ} (h : FaultSite s e d v va live l) (hentry : s.mm.leaf d (vpn va) = some (w, false))
    (habs : isPresent w = false) :
    Ends (fun _ => True) (fun r => r.1 = true ∧ ∃ w' b, r.2.mm.leaf d (vpn va) = some (w', b) ∧
      isPresent w' = true)
      (demandPage s e v va) := by
  refine h.demand (fun _ _ => True.intro) (fun _ => True.intro) fun f s₁ l₁ hg => ?_
  obtain ⟨hinv, -, hleaf, hdir⟩ := hg.tables h
  have hentry₁ : s₁.mm.leaf d (vpn va) = some (w, false) := (hleaf _ h.vpn_low).trans hentry
  cases hH : isHuge (s.vma e v).perm with
  | false =>
      have hno : ∀ g, ¬ s₁.mm.MapsTo d (vpn va) g := by
        rintro g ⟨w', hw', hP, -⟩
        rw [hentry₁] at hw'
        rw [← (Prod.mk.inj (Option.some.inj hw')).1, habs] at hP
        exact nomatch hP
      refine (pageInsert_placed hinv h.vpn_low (fun _ => (Mm.leaf_eq_some hentry₁).2.1) hH hg.off.1
        fun g hc => (hno g hc).elim).mono
        (fun _ _ => True.intro) ?_
      rintro r (⟨-, -, hnone⟩ | ⟨hok, l₂, hput⟩)
      · rw [hentry₁] at hnone
        exact nomatch hnone
      · exact ⟨hok, _, _, hput.leaf_self, isPresent_newPte _ _⟩
  | true =>
      refine (pageInsert_big hH).post
        fun r hr => ⟨hr.1, newPte f (s.vma e v).perm, true, ?_, isPresent_newPte _ _⟩
      rw [Mm.leaf, ← pdx_eq, hr.2, if_pos (isPresent_newPte _ _),
        if_pos (by rw [isHuge_newPte]; exact hH)]

/-- **The handler of a fault of the kernel** maps a new frame over the slot. -/
theorem SwapSite.lost {s s' : Vm} {e d v : ℕ} {va w : BitVec 32} {live : List Block} {l : List ℕ}
    {r : FaultEnd} (h : SwapSite s e d va w live l) (harea : vmaLookup (s.envs e) va = .ok (some v))
    (hrun : allocPageAfterFault s e va = .ok (r, s')) : ¬ EntryKept s' r d va w := by
  have hpresent : r ≠ .killed ∧ ∃ w' b, s'.mm.leaf d (vpn va) = some (w', b) ∧
      isPresent w' = true := by
    rw [allocPageAfterFault_eq harea] at hrun
    by_cases hbin : (s.vma e v).type = .binary
    · rw [if_pos hbin] at hrun
      obtain ⟨s₁, hload, hend⟩ := bind_eq_ok.1 hrun
      obtain ⟨rfl, rfl⟩ := Prod.mk.inj (Except.ok.inj hend)
      have hb := h.binary v harea hbin
      obtain ⟨fr, hloaded⟩ := hb.loaded_ok hload
      obtain ⟨j, hj, hq⟩ := (Vma.spans_or (s.vma e v) (vpn va)).resolve_right
        (not_not_intro (hb.fits.spans_of_covers (vmaLookup_covers harea)))
      rw [hq]
      exact ⟨nofun, _, _, (hloaded.leaf_new j hj).1, isPresent_newPte _ _⟩
    · rw [if_neg hbin, allocAnon_eq] at hrun
      obtain ⟨⟨ok, s₁⟩, hdemand, hrest⟩ := bind_eq_ok.1 hrun
      have hfault : FaultSite s e d v va live l := ⟨h.toDirSite, h.low, harea⟩
      obtain ⟨rfl, hleaf⟩ :=
        (hfault.demand_present h.entry (isPresent_of_isSwapped h.swapped)).of_ok hdemand
      obtain ⟨rfl, rfl⟩ := Prod.mk.inj (Except.ok.inj hrest)
      exact ⟨nofun, hleaf⟩
  obtain ⟨hne, w', b, hleaf, hP⟩ := hpresent
  intro hkept
  obtain ⟨w'', hleaf', hsw, -⟩ := hkept.resolve_left hne
  rw [hleaf] at hleaf'
  rw [← (Prod.mk.inj (Option.some.inj hleaf')).1] at hsw
  rw [isPresent_of_isSwapped hsw] at hP
  exact nomatch hP

/-- **A page in the swap area keeps its entry** exactly when the fault is one of the user, one that
violates a protection, or one in no area. -/
theorem entryKept_iff (s s' : Vm) (kern : Kernel) (e d : ℕ) (va w : BitVec 32) (live : List Block)
    (l : List ℕ) (user prot : Bool) (r : FaultEnd) (h : SwapSite s e d va w live l)
    (hrun : s.faultHandler kern e va user prot = .ok (r, s')) :
    EntryKept s' r d va w ↔ user = true ∨ prot = true ∨ vmaLookup (s.envs e) va = .ok none := by
  have hlow : ¬ (¬ user = true ∧ uTop < va) := by
    have hva := h.low
    rintro ⟨-, hlt⟩
    rw [BitVec.lt_def] at hva hlt
    omega
  unfold Vm.faultHandler at hrun
  rw [if_neg hlow] at hrun
  by_cases hkernel : ¬ user = true ∧ ¬ prot = true
  · rw [if_pos hkernel] at hrun
    have hcond : (user = true ∨ prot = true ∨ vmaLookup (s.envs e) va = .ok none) ↔
        vmaLookup (s.envs e) va = .ok none :=
      ⟨fun hc => (hc.resolve_left hkernel.1).resolve_left hkernel.2, fun hc => Or.inr (Or.inr hc)⟩
    rw [hcond]
    cases harea : vmaLookup (s.envs e) va with
    | error c =>
        unfold allocPageAfterFault at hrun
        rw [harea] at hrun
        exact nomatch hrun
    | ok o =>
        cases o with
        | none =>
            refine ⟨fun _ => rfl, fun _ => Or.inl ?_⟩
            unfold allocPageAfterFault at hrun
            rw [harea] at hrun
            change killEnv s e = _ at hrun
            obtain ⟨s₁, -, hend⟩ := bind_eq_ok.1 hrun
            exact (congrArg Prod.fst (Except.ok.inj hend)).symm
        | some v =>
            exact ⟨fun hkept => (h.lost harea hrun hkept).elim, fun hc => nomatch Except.ok.inj hc⟩
  · have hcond : user = true ∨ prot = true := by
      by_contra hc
      exact hkernel (not_or.1 hc)
    rw [if_neg hkernel, h.dir] at hrun
    refine ⟨fun _ => hcond.imp_right Or.inl, fun _ => Or.inr ?_⟩
    obtain ⟨pte, hfind, hentry⟩ := bind_eq_ok.1 hrun
    rcases (pgdirFind_leaf s d va).of_ok hfind with ⟨-, hnone⟩ | ⟨rfl, -⟩
    · rw [h.entry] at hnone
      exact nomatch hnone
    · have hentry : s.handleEntry kern e va prot (some (s.mm.leafPtr d (vpn va))) = .ok (r, s') :=
        hentry
      have hends := h.handleEntry kern prot
      rw [hentry] at hends
      exact hends

/-! ### A page in the swap area -/

/-- A machine whose first page is in the swap area, with the entry `w`. -/
def swappedVm (w : BitVec 32) : Vm := smallVm (pairArea .anon) 0x6007 w 0 0 8 3

theorem swappedVm_site {e : ℕ} {w : BitVec 32} (hw : isSwapped w = true) :
    SwapSite (swappedVm w) e 5 0x400000 w smallLive (List.range' 8 3) where
  toDirSite :=
    (smallVm_fault (by decide) (Or.inl (by decide))
      (fun _ _ => by decide) (by decide : (0x400000 : BitVec 32) < uTop) (by decide)).toDirSite
  low := by decide
  entry := by
    have hvpn : vpn 0x400000 / 1024 = 1 ∧ vpn 0x400000 % 1024 = 0 := by decide
    have hpde : (swappedVm w).mm.word 5 1 = 0x6007 := smallVm_word 5 1
    have hpg : pgnum 0x6007 = 6 := by decide
    rw [Mm.leaf, hvpn.1, hvpn.2, hpde, if_pos (by decide), if_neg (by decide), hpg]
    exact congrArg (fun w => some (w, false)) (smallVm_word 6 0)
  swapped := hw
  binary v _ hbin := nomatch hbin

/-- The environment in the slot 2 is running. -/
def runningKernel : Kernel :=
  { Kernel.init with
    envs := fun x => { Env.init with status := if x = 2 then .running else .free } }

/-- A fault of the user on a page in the swap area: the entry is marked, and still leads to the
slot. -/
theorem entryKept_iff_user : ∃ s', (swappedVm 0xa106).faultHandler runningKernel 2 0x400000 true
    false = .ok (.asleep, s') ∧ s'.mm.word 6 0 = 0xaf06 ∧
      EntryKept s' .asleep 5 0x400000 0xa106 := by
  have hrun : ((swappedVm 0xa106).faultHandler runningKernel 2 0x400000 true false).toOption.map
      (fun p => (decide (p.1 = .asleep), p.2.mm.word 6 0)) = some (true, 0xaf06) := by
    decide +kernel
  obtain ⟨⟨r, s'⟩, hrun, hview⟩ := Option.map_eq_some_iff.1 hrun
  obtain ⟨hr, hword⟩ := Prod.mk.inj hview
  obtain rfl : r = .asleep := of_decide_eq_true hr
  have hrun := ok_of_toOption hrun
  exact ⟨s', hrun, hword, (entryKept_iff (swappedVm 0xa106) s' runningKernel 2 5 0x400000 0xa106
    smallLive (List.range' 8 3) true false .asleep (swappedVm_site (by decide)) hrun).2
      (Or.inl rfl)⟩

/-- **The kernel touches a page in the swap area**: the slot is lost. -/
theorem kernel_fault_loses_slot :
    ¬ ∀ (s s' : Vm) (kern : Kernel) (e d : ℕ) (va w : BitVec 32) (live : List Block) (l : List ℕ)
      (user prot : Bool) (r : FaultEnd),
      SwapSite s e d va w live l → s.faultHandler kern e va user prot = .ok (r, s') →
        EntryKept s' r d va w := by
  intro hall
  have hsite : SwapSite (swappedVm 0xa106) 0 5 0x400000 0xa106 smallLive (List.range' 8 3) :=
    swappedVm_site (by decide)
  have hrun : ∃ s', allocPageAfterFault (swappedVm 0xa106) 0 0x400000 = .ok (.resumed, s') :=
    ⟨_, rfl⟩
  obtain ⟨s', hrun⟩ := hrun
  exact hsite.lost (v := 0) rfl hrun (hall _ s' .init 0 5 _ _ _ _ false false .resumed hsite hrun)

end Jos
