/-
**The frames of the kernel.**

The kernel's own frames are never mapped below `UTOP`, and so no page that is unmapped is one of
them. Only `env_free` drops a reference of one: that of the frame in which the slot of the
environment lies, and nothing has taken it before. The counter has 16 bits, so that it comes down to
0 after 65536 lives of environments in slots of one frame, and the frame is put on the free list.

Main definitions:

* `Jos.SpaceOp` — `env_alloc`, page faults, fork and `env_free`;
* `Jos.SpaceOp.Allowed` — what the hardware and the callers see to;
* `Jos.SpaceOp.KeepsFrames` — the condition for a call.

Main results:

* `Jos.SpaceOp.keeps` — a call that meets the condition keeps the invariant of all address spaces;
* `Jos.kernel_frames_kept` — **in a run whose calls meet it no frame of the kernel is free**;
* `Jos.SpaceOp.lives` — many lives of one slot;
* `Jos.kernel_frame_freed` — the 65536th life.
-/

import JosKernel.SortedAreas
import JosKernel.SpaceFault

set_option relaxedAutoImplicit false
set_option autoImplicit false

namespace Jos

open LabelledRun LinkedList Outcome

attribute [local irreducible] paddr vmaProcInit

/-! ### Calls -/

/-- **What happens to address spaces**: an environment is created in a slot, faults, is duplicated
or is freed. -/
inductive SpaceOp
  | alloc (e : ℕ)
  | fault (e : ℕ) (va : BitVec 32) (user prot : Bool)
  | fork (parent child : ℕ)
  | free (e : ℕ)
  deriving DecidableEq, Repr

namespace SpaceOp

/-- The call, without its result. -/
def exec (s : Vm) : SpaceOp → Except Crash Vm
  | alloc e => Prod.snd <$> envSetupVm s e
  | fault e va user prot => Prod.snd <$> s.pageFaultHandler e va user prot
  | fork parent child => Prod.snd <$> envDup s parent child
  | free e => envFreeVm s e

/-- The slot of a new environment is free, others are in use, and a violation of the protection is
one of a page that is present. -/
def Allowed (s : Vm) : SpaceOp → Prop
  | alloc e => e ≤ nEnv ∧ s.pgdir e = none
  | fault e va _ prot =>
      ∃ d, s.pgdir e = some d ∧ (prot = true → va < uTop → isPresent (s.mm.entry d (vpn va)) = true)
  | fork parent child => (∃ d, s.pgdir parent = some d) ∧ child ≤ nEnv ∧ s.pgdir child = none
  | free e => ∃ d, s.pgdir e = some d

/-- One call that returns. -/
def Step (s : Vm) (c : SpaceOp) (s' : Vm) : Prop := c.Allowed s ∧ c.exec s = .ok s'

end SpaceOp

/-- No page is left, and the one at the address is shared. -/
def NoCopy (s : Vm) (e : ℕ) (va : BitVec 32) : Prop :=
  s.mm.pageFreeList = none ∧ ∃ d, s.pgdir e = some d ∧ isPresent (s.mm.entry d (vpn va)) = true ∧
    s.ref (pgnum (s.mm.entry d (vpn va))) ≠ 1

/-- **The condition for a call**: where the environment is freed, the frame of its slot does not
have exactly one reference, and `page_dedup` finds a frame for a copy. -/
def SpaceOp.KeepsFrames (s : Vm) : SpaceOp → Prop
  | fault e va _ prot => (FaultKills s e va prot → s.ref (s.envFrame e) ≠ 1) ∧ ¬ NoCopy s e va
  | free e => s.ref (s.envFrame e) ≠ 1
  | _ => True

/-! ### The invariant -/

/-- The frames of `K` are the kernel's. -/
def FramesKept (K : Finset ℕ) (s : Vm) : Prop := ∃ D l, VmInv s D K l

/-- **A call that meets the condition** keeps the invariant. -/
theorem SpaceOp.keeps {K : Finset ℕ} (s : Vm) (c : SpaceOp) (s' : Vm) (h : FramesKept K s)
    (hok : c.KeepsFrames s) (hst : c.Step s s') :
    FramesKept K s' := by
  obtain ⟨D, l, h⟩ := h
  obtain ⟨hallowed, hexec⟩ := hst
  cases c with
  | alloc e =>
      obtain ⟨r, hrun⟩ := snd_eq_ok.1 hexec
      rcases (h.setup hallowed.1 hallowed.2).of_ok hrun with ⟨heq, -⟩ | ⟨-, p, -, hset⟩
      · obtain ⟨-, rfl⟩ := Prod.mk.inj heq
        exact ⟨D, l, h⟩
      · exact ⟨insert p D, l.erase p, hset.inv⟩
  | fault e va user prot =>
      obtain ⟨r, hrun⟩ := snd_eq_ok.1 hexec
      obtain ⟨d, hdir, hprot⟩ := hallowed
      obtain ⟨la, lf, har⟩ := h.areas e
      have hends := (h.fault hdir har user prot hprot).of_ok hrun hok.1
      cases hends with
      | loaded i l' hi hcov hbin hprot hend hload => exact ⟨D, l', hload.inv⟩
      | zeroed i l' hi hcov hanon hprot hend hzero => exact ⟨D, l', hzero.inv⟩
      | deduped i l' w hi hcov hw hend hP hded hnew => exact ⟨D, l', hded.inv⟩
      | failed hend hl hP href =>
          have hnone : s.mm.pageFreeList = none := by
            have hchain := h.pt.free.chain
            rw [hl] at hchain
            exact hchain
          exact absurd ⟨hnone, d, hdir, hP, href⟩ hok.2
      | killed l' hend hfreed => exact ⟨D.erase d, l', hfreed.inv⟩
      | asleep hr =>
          obtain ⟨-, rfl⟩ := Prod.mk.inj hr
          exact ⟨D, l, h⟩
  | fork parent child =>
      obtain ⟨r, hrun⟩ := snd_eq_ok.1 hexec
      obtain ⟨⟨dp, hp⟩, hle, hc⟩ := hallowed
      obtain ⟨la, lf, har⟩ := h.areas parent
      rcases (h.dup hp har hc hle).of_ok hrun with heq | ⟨dc, l', ⟨-, hdup⟩ | ⟨-, hinv, -⟩⟩
      · obtain ⟨-, rfl⟩ := Prod.mk.inj heq
        exact ⟨D, l, h⟩
      · exact ⟨insert dc D, l', hdup.inv⟩
      · exact ⟨insert dc D, l', hinv⟩
  | free e =>
      obtain ⟨d, hdir⟩ := hallowed
      obtain ⟨l', hr⟩ := (h.release hdir hok).of_ok hexec
      exact ⟨D.erase d, l', hr.inv⟩

/-- A frame of the kernel is not free. -/
theorem FramesKept.not_free {K : Finset ℕ} {s : Vm} (h : FramesKept K s) {f : ℕ} (hf : f ∈ K) :
    ¬ s.mm.OnFreeList f := by
  obtain ⟨D, l, h⟩ := h
  rw [Mm.OnFreeList, h.pt.free.visits_iff]
  exact h.pt.kept f hf

/-- **In a run whose calls meet the condition no frame of the kernel is put on the free list.** -/
theorem kernel_frames_kept {s₀ s : Vm} {D K : Finset ℕ} {l : List ℕ} {tr : List (Vm × SpaceOp)}
    (h : VmInv s₀ D K l) (hrun : Run SpaceOp.Step s₀ tr s)
    (hok : Meets (fun s c => c.KeepsFrames s) tr) : ∀ f ∈ K, ¬ s.mm.OnFreeList f :=
  fun _ => (hrun.invariant SpaceOp.keeps ⟨D, l, h⟩ hok).not_free

/-! ### The lives of a slot -/

/-- `env_setup_vm` marks only the frame that it takes. -/
theorem envSetupVm_flags {s : Vm} {e : ℕ} {l : List ℕ} (h : FreeInv s.mm l) :
    Ends (fun _ => True) (fun r => ∀ f ∉ l, (r.2.mm.pages f).pageFlags = (s.mm.pages f).pageFlags)
      (envSetupVm s e) := by
  unfold envSetupVm
  rw [ends_bind]
  refine (pageAlloc_taken h (by decide) (by decide)).mono (fun _ _ => True.intro) ?_
  rintro ⟨pg, m⟩ (⟨heq, -⟩ | ⟨p, hp, hr, ht, -, -⟩)
  · obtain ⟨rfl, rfl⟩ := Prod.mk.inj heq
    exact fun f _ => rfl
  · obtain rfl : pg = some p := hr
    have ht : Taken s.mm m allocZero p := ht
    dsimp only
    rw [ends_bind]
    refine Ends.of_forall (fun kva => ?_) _
    rw [ends_bind]
    refine Ends.of_forall (fun pa f hf => ?_) _
    obtain ⟨M, hM, -, -⟩ := copyKernPgdir p (List.range' (pdx uTop) (nPdEntries - pdx uTop))
      ((({ s with mm := m } : Vm).setRef p (({ s with mm := m } : Vm).ref p + 1)).modSpace e
        fun sp => { sp with pgdir := some p })
    rw [hM]
    refine (Vm.flags_setRef (s := { s with mm := m }) ..).trans (ht.flags f ?_)
    rintro rfl
    exact hf hp

/-- **The slot `e` is free**, there is a frame for a directory, and the slot's own frame is in
use. -/
structure SlotFree (s : Vm) (D K : Finset ℕ) (l : List ℕ) (e : ℕ) : Prop where
  inv : VmInv s D K l
  runs : Runs s l
  room : l ≠ []
  le : e ≤ nEnv
  slot : s.pgdir e = none
  held : s.mm.Held (s.envFrame e)

namespace SlotFree

variable {s : Vm} {D K : Finset ℕ} {l : List ℕ} {e : ℕ}

/-- The end of `env_free`: the frame of the slot is given back with its last reference. -/
theorem freeDir_slot {d : ℕ} (h : VmInv s D K l) (hruns : Runs s l) (hdir : s.pgdir e = some d)
    (hheld : s.mm.Held (s.envFrame e)) :
    ∃ s', freeDir s e d = .ok s' ∧ (s.ref (s.envFrame e) = 1 → s'.mm.OnFreeList (s.envFrame e)) ∧
      (s.ref (s.envFrame e) ≠ 1 → s'.mm.Held (s.envFrame e)) := by
  have hd : d ∈ D := h.dir e d hdir
  have hdheld := h.pt.held d hd
  obtain ⟨hK, hlt⟩ := h.slots e
  have hne : s.envFrame e ≠ d := fun heq => h.pt.away _ hK (heq ▸ hd)
  have hgood : ∀ f < s.mm.npages, badFrame ≤ f → ∀ c : Crash, False := fun f hf hb _ =>
    absurd (hf.trans_le hruns.2) (not_lt.2 hb)
  suffices hends : Ends (fun _ => False) (fun s' =>
      (s.ref (s.envFrame e) = 1 → s'.mm.OnFreeList (s.envFrame e)) ∧
      (s.ref (s.envFrame e) ≠ 1 → s'.mm.Held (s.envFrame e))) (freeDir s e d) from hends.exists_ok
        fun _ hc => hc
  rw [freeDir, ends_bind]
  refine decrefKva_ends (s := s.modSpace e freedSpace) hdheld.1 (hgood d hdheld.1) ?_
  refine (decref_last (s := s.modSpace e freedSpace) h.pt.free hdheld (h.dirRef d hd)).mono
    (fun _ hf => hf.elim) ?_
  rintro s₁ ⟨m, rfl, hg, hfree, -⟩
  have href : (m.pages (s.envFrame e)).ppRef = s.ref (s.envFrame e) := hg.ref _ hne
  have hheld₁ : m.Held (s.envFrame e) := hheld.congr hg.npages (hg.flags _ hne)
  refine @decrefKva_ends { s.modSpace e freedSpace with mm := m } (s.envFrame e) _ _
    (hlt.trans_eq hg.npages.symm) (hgood _ hlt) ?_
  by_cases hslot : s.ref (s.envFrame e) = 1
  · refine (decref_last (s := { s.modSpace e freedSpace with mm := m }) hfree hheld₁
      (href.trans hslot)).mono (fun _ hf => hf) ?_
    rintro s₂ ⟨m', rfl, -, hfree', -⟩
    exact ⟨fun _ => hfree'.visits_iff.2 List.mem_cons_self, fun hc => absurd hslot hc⟩
  · have hmore : ({ s.modSpace e freedSpace with mm := m } : Vm).ref (s.envFrame e) ≠ 1 :=
      fun hc => hslot (href.symm.trans hc)
    rw [decref_more hmore]
    exact ⟨fun hc => absurd hc hslot, fun _ => hheld₁.congr rfl (Vm.flags_setRef ..)⟩

/-- **One life**: the slot is taken and freed, and its frame has a reference less. -/
theorem life (h : SlotFree s D K l e) :
    ∃ s₁ s₂, (SpaceOp.alloc e).Step s s₁ ∧ (SpaceOp.free e).Step s₁ s₂ ∧
      s₁.ref (s₁.envFrame e) = s.ref (s.envFrame e) ∧
      (s.ref (s.envFrame e) = 1 → s₂.mm.OnFreeList (s.envFrame e)) ∧
      (s.ref (s.envFrame e) ≠ 1 → s₂.envFrame = s.envFrame ∧ s₂.ref (s.envFrame e) =
        s.ref (s.envFrame e) - 1 ∧
        ∃ l', SlotFree s₂ D K l' e) := by
  obtain ⟨⟨ok, s₁⟩, hsetup, hset⟩ := (h.inv.setup h.le h.slot).exists_ok fun _ hc => hc h.runs
  rcases hset with ⟨-, hl⟩ | ⟨-, p, hp, hset⟩
  · exact absurd hl h.room
  have hset : SetUp s s₁ D K l e p := hset
  have hflags := (envSetupVm_flags h.inv.pt.free).of_ok hsetup
  obtain ⟨hK, hlt⟩ := h.inv.slots e
  have hframe : s₁.envFrame e = s.envFrame e := congrFun hset.envFrame e
  have hpne : s.envFrame e ≠ p := by
    intro hc
    exact h.inv.pt.kept _ hK (hc ▸ hp)
  have hheld : s₁.mm.Held (s₁.envFrame e) := by
    rw [hframe]
    exact h.held.congr hset.npages (hflags _ (h.inv.pt.kept _ hK))
  have hdir : s₁.pgdir e = some p := by
    rw [Vm.pgdir, hset.envs, Vm.modSpace_self]
  have href : s₁.ref (s₁.envFrame e) = s.ref (s.envFrame e) := by
    rw [hframe]
    exact hset.refs _ hpne
  have hruns := hset.runs h.runs
  obtain ⟨s₂, hfree, hlast, hmore⟩ := freeDir_slot hset.inv hruns hdir hheld
  rw [href, hframe] at hlast hmore
  refine ⟨s₁, s₂, ⟨⟨h.le, h.slot⟩, snd_eq_ok.2 ⟨ok, hsetup⟩⟩,
    ⟨⟨p, hdir⟩, (envFreeVm_empty hdir hset.empty).trans hfree⟩, href, hlast, fun hslot => ?_⟩
  obtain ⟨hr, hruns₂⟩ :=
    (freeDir_ends hset.inv hdir hset.empty (fun hc => hslot (href.symm.trans hc))).of_ok hfree
  have hinv := hr.inv
  rw [Finset.erase_insert hset.fresh] at hinv
  have hframe₂ : s₂.envFrame = s.envFrame := hr.envFrame.trans hset.envFrame
  refine ⟨hframe₂, ?_, p :: l.erase p, hinv, hruns₂ hruns, by simp, h.le, ?_, ?_⟩
  · have hdrop := hr.refs (s.envFrame e) hK
    rw [if_pos hframe.symm] at hdrop
    rw [hdrop, ← href, hframe]
  · rw [Vm.pgdir, hr.envs, Vm.modSpace_self]
    rfl
  · rw [hframe₂]
    exact hmore hslot

/-- **Many lives** of a slot whose frame has no references at first. -/
theorem lives (h : SlotFree s D K l e) (hzero : s.ref (s.envFrame e) = 0) : ∀ n < 65536,
    ∃ tr s' l', Run SpaceOp.Step s tr s' ∧ SlotFree s' D K l' e ∧ s'.envFrame = s.envFrame ∧
      s'.ref (s.envFrame e) = 0 - BitVec.ofNat 16 n := by
  intro n
  induction n with
  | zero => exact fun _ => ⟨[], s, l, Run.nil s, h, rfl, hzero⟩
  | succ n ih =>
      intro hn
      obtain ⟨tr, s', l', hrun, h', hframe, href⟩ := ih (Nat.lt_of_succ_lt hn)
      obtain ⟨s₁, s₂, halloc, hfree, -, -, hmore⟩ := h'.life
      have hframe' : s'.envFrame e = s.envFrame e := congrFun hframe e
      rw [hframe', href] at hmore
      obtain ⟨hframe₂, href₂, l₂, h₂⟩ := hmore (by bv_omega)
      refine ⟨_, s₂, l₂, (hrun.snoc halloc).snoc hfree, h₂, hframe₂.trans hframe, ?_⟩
      rw [href₂]
      bv_omega

end SlotFree

/-! ### From the start -/

/-- **Four frames after the start**: the frame 0, the frame of all slots, one that is free, and
another one of the kernel. -/
def slotsOnly : Vm where
  mm := ⟨4, frames_four, false, fun i => ⟨none, none, 0, if i = 2 then 0 else alloc⟩, some 2, 1,
    ⟨none, none, none, none, none, none⟩, 0, 0,
    fun _ _ => 0⟩
  envs _ := Space.ofAreas none [] 0
  kernPgdir _ := 0
  image _ := 0
  envFrame _ := 1
  written := []

theorem slotsOnly_inv : VmInv slotsOnly ∅ {0, 1, 3} [2] where
  pt :=
    { free := ⟨⟨rfl, rfl⟩, fun i hi => by rw [List.mem_singleton.1 hi]; exact ⟨by decide, rfl, rfl⟩,
      fun _ _ => rfl⟩
      held := by simp
      kept := by decide
      away := by simp
      small := by simp
      table := fun d i t ht => absurd ht.1 (Finset.notMem_empty d)
      apart := fun d i d' i' t ht => absurd ht.1 (Finset.notMem_empty d)
      pte := fun d i t ht => absurd ht.1 (Finset.notMem_empty d)
      upper := by simp
      ref := fun f _ _ => by
        have hnone : slotsOnly.mm.mappings ∅ f = 0 :=
          mappings_empty (fun d hd => absurd hd (Finset.notMem_empty d)) f
        rw [hnone]
        rfl }
  one := fun d hd => absurd hd (Finset.notMem_empty d)
  clean := fun d hd => absurd hd (Finset.notMem_empty d)
  log := by simp [slotsOnly]
  dirRef := by simp
  dir := fun e d (hd : none = some d) => by cases hd
  owner := by simp
  distinct := fun e e' d (hd : none = some d) => by cases hd
  areas := fun e => by
    have hsorted := @ofAreas_sorted [] (by decide) (by decide) none 0
    exact ⟨[], _, hsorted.lists, fun i => areaOk_unused _, List.Pairwise.nil⟩
  idle := fun e _ => rfl
  slots := fun e => ⟨(by decide : 1 ∈ ({0, 1, 3} : Finset ℕ)), (by decide : 1 < 4)⟩
  kern := fun i _ _ (hP : isPresent 0 = true) => absurd hP (by decide)
  zero := by decide

theorem slotsOnly_free : SlotFree slotsOnly ∅ {0, 1, 3} [2] 0 where
  inv := slotsOnly_inv
  runs := ⟨⟨rfl, by decide, fun _ =>
    [], by intro q; cases q <;> rfl, by simp, by simp⟩, by rw [badFrame]; decide⟩
  room := by simp
  le := by decide
  slot := rfl
  held := ⟨by decide, by decide, by decide⟩

/-- An environment is created and freed, and another one is created in its slot. -/
theorem kernel_frames_kept_life : ∃ s₁ s₂ s₃, (SpaceOp.alloc 0).Step slotsOnly s₁ ∧
    (SpaceOp.free 0).Step s₁ s₂ ∧ (SpaceOp.alloc 0).Step s₂ s₃ ∧
      ∀ f ∈ ({0, 1, 3} : Finset ℕ), ¬ s₃.mm.OnFreeList f := by
  obtain ⟨s₁, s₂, halloc, hfree, href, -, hmore⟩ := slotsOnly_free.life
  have hnone : slotsOnly.ref (slotsOnly.envFrame 0) = 0 := rfl
  rw [hnone] at href hmore
  obtain ⟨-, -, l, h₂⟩ := hmore (by decide)
  obtain ⟨s₃, -, halloc', -⟩ := h₂.life
  have hrun := (((Run.nil slotsOnly).snoc halloc).snoc hfree).snoc halloc'
  refine ⟨s₁, s₂, s₃, halloc, hfree, halloc', kernel_frames_kept slotsOnly_inv hrun ?_⟩
  refine (((Meets.nil _).snoc ?_).snoc ?_).snoc ?_
  · exact True.intro
  · rw [SpaceOp.KeepsFrames, href]
    decide
  · exact True.intro

/-- **The 65536th life** of an environment frees the frame of the kernel in which its slot lies. -/
theorem kernel_frame_freed :
    ∃ tr s, Run SpaceOp.Step slotsOnly tr s ∧ ¬ ∀ f ∈ ({0, 1, 3} : Finset ℕ),
      ¬ s.mm.OnFreeList f := by
  obtain ⟨tr, s, l, hrun, h, hframe, href⟩ := slotsOnly_free.lives rfl 65535 (by decide)
  obtain ⟨s₁, s₂, halloc, hfree, -, hlast, -⟩ := h.life
  refine ⟨_, s₂, (hrun.snoc halloc).snoc hfree, fun hall => hall 1 (by decide) ?_⟩
  have hone : s.envFrame 0 = 1 := congrFun hframe 0
  rw [hone] at hlast
  exact hlast href

end Jos
