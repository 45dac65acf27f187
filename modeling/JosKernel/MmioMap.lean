/-
**Device memory.**

`mmio_map_region` of `kern/pmap.c` hands out virtual addresses between `MMIOBASE` and `MMIOLIM` and
maps them to the registers of a device, without caching. It keeps one address and moves it up. The
size is rounded up, and added to this address for the test of the limit, in 32 bits.

All regions lie in one slot of the directory. The first call adds its page table, which shows up in
the window at `UVPT`.

Main definitions:

* `Jos.mmioMapRegion` — the function, with its static variable;
* `Jos.mmioStep` — a call that returns, with a record of what has been handed out;
* `Jos.MmioFits` — neither the rounding nor the sum wraps around;
* `Jos.MmioSafe` — **what the callers rely on**.

Main results:

* `Jos.mmioMapRegion_ends` — one call;
* `Jos.MmioInv.step` — one step of a run;
* `Jos.mmio_regions_safe` — **every run of calls that fit is safe, and the next such call returns or
  panics**.
-/

import JosKernel.BootAlloc
import JosKernel.KernelRegions
import JosKernel.LabelledRun

set_option relaxedAutoImplicit false
set_option autoImplicit false

namespace Jos

open Outcome LabelledRun

/-! ### `mmio_map_region` -/

-- `MMIOBASE`, `MMIOLIM`, `PTE_PWT` and `PTE_PCD`.
def mmioBase : BitVec 32 := 0xef800000#32
def mmioLim : BitVec 32 := 0xefc00000#32
def ptePwt : BitVec 32 := 0x008#32
def ptePcd : BitVec 32 := 0x010#32

/-- **`mmio_map_region(pa, size)`**, with the static variable `base` and its new value. -/
def mmioMapRegion (s : Vm) (kernPgdir : Option ℕ) (base pa size : BitVec 32) :
    Except Crash (BitVec 32 × BitVec 32 × Vm) :=
  let rSize := roundUp size (BitVec.ofNat 32 pgSize)
  if mmioLim < base + rSize then throw (.panic "mmio_map_region(): Size will overflow MMIOLIM!")
  else do
    let s ← bootMapRegion s kernPgdir base rSize pa (ptePcd ||| ptePwt ||| pteW)
    pure (base, base + rSize, s)

/-! ### Runs of calls -/

/-- A region that has been handed out. -/
structure MmioRegion where
  base : BitVec 32
  size : BitVec 32
  pa : BitVec 32
  deriving DecidableEq, Repr

/-- Its addresses. -/
def MmioRegion.range (r : MmioRegion) : ℕ × ℕ := (r.base.toNat, r.size.toNat)

/-- The state between two calls. -/
structure Mmio where
  vm : Vm
  base : BitVec 32
  regions : List MmioRegion

/-- **A call that returns**, with a page-aligned address of the device and a size that is not 0. -/
def mmioStep (d : ℕ) (t : Mmio) (call : BitVec 32 × BitVec 32) (t' : Mmio) : Prop :=
  pgoff call.1 = 0 ∧ 0 < call.2 ∧ ∃ r base vm, mmioMapRegion t.vm (some d) t.base call.1 call.2 =
    .ok (r, base, vm) ∧
    t' = ⟨vm, base, ⟨r, call.2, call.1⟩ :: t.regions⟩

/-- **Neither the rounding of the size nor the sum for the test of the limit wraps around.** -/
def MmioFits (t : Mmio) (call : BitVec 32 × BitVec 32) : Prop :=
  call.2.toNat ≤ 0xfffff000 ∧ t.base.toNat + pagesOf call.2 < 2 ^ 32

/-- The pages between `MMIOBASE` and `MMIOLIM`. -/
def mmioPages : Finset ℕ := Finset.Ico (vpn mmioBase) (vpn mmioLim)

/-- The page `q` of the window at `UVPT` is the one for the slot of `MMIOBASE`, and a new page table
has appeared there. -/
def ShowsTable (s s' : Vm) (d q : ℕ) : Prop :=
  PtInv.Window s.mm d q ∧ q % 1024 = pdx mmioBase ∧ isPresent (s.mm.entry d q) = false ∧
    ∃ f, s'.mm.entry d q = tablePde f

/-- **What the callers rely on**: the regions lie in the range for devices and do not overlap, they
are mapped to the devices, page by page, and no other page is mapped differently than it was in the
state `s`, apart from the one that shows the new page table. -/
structure MmioSafe (s : Vm) (d : ℕ) (t : Mmio) : Prop where
  aligned : ∀ r ∈ t.regions, pgoff r.base = 0
  inside : ∀ r ∈ t.regions, mmioBase.toNat ≤ r.base.toNat ∧
    r.base.toNat + r.size.toNat ≤ mmioLim.toNat
  apart : (t.regions.map MmioRegion.range).Pairwise Bump.Apart
  maps : ∀ r ∈ t.regions, ∀ k, k * pgSize < r.size.toNat →
    t.vm.mm.HasTable d ((vpn r.base + k) / 1024) ∧
    t.vm.mm.entry d (vpn r.base + k) = (r.pa + BitVec.ofNat 32 (k * pgSize)) |||
      (ptePcd ||| ptePwt ||| pteW) ||| pteP
  others : ∀ q < 2 ^ 20, q ∉ mmioPages → t.vm.mm.entry d q = s.mm.entry d q ∨ ShowsTable s t.vm d q

/-! ### One call -/

/-- The entries that a call writes. -/
def deviceValue (base pa : BitVec 32) (q : ℕ) : BitVec 32 :=
  page2pa (pgnum pa + (q - vpn base)) ||| (ptePcd ||| ptePwt ||| pteW ||| pteP)

theorem deviceValue_page {base pa : BitVec 32} (h : pgoff pa = 0) (k : ℕ) :
    deviceValue base pa (vpn base + k) =
    (pa + BitVec.ofNat 32 (k * pgSize)) ||| (ptePcd ||| ptePwt ||| pteW) ||| pteP := by
  rw [deviceValue, Nat.add_sub_cancel_left, page2pa_pgnum_add h, ← BitVec.or_assoc]

theorem mmioBase_toNat : mmioBase.toNat = 980992 * 4096 := rfl

theorem mmioLim_toNat : mmioLim.toNat = 982016 * 4096 := rfl

theorem mem_mmioPages {q : ℕ} : q ∈ mmioPages ↔ 980992 ≤ q ∧ q < 982016 := Finset.mem_Ico

/-- **One call that fits**: it returns the static variable, which moves behind the region, or
panics. -/
theorem mmioMapRegion_ends {s : Vm} {d : ℕ} {l : List ℕ} {base pa size : BitVec 32}
    (h : BootDir s.mm d l) (hfill : s.mm.Fillable d mmioPages) (hlow : mmioBase.toNat ≤ base.toNat)
    (halign : base.toNat % 4096 = 0) (hpa : pgoff pa = 0) (hsize : size.toNat ≤ 0xfffff000)
    (hsum : base.toNat + pagesOf size < 2 ^ 32) :
    Ends Crash.Panics
      (fun r => r.1 = base ∧ r.2.1.toNat = base.toNat + pagesOf size ∧ r.2.1.toNat ≤ mmioLim.toNat ∧
        ∃ l', StaticMap s r.2.2 d l l' (Finset.Ico (vpn base) (vpn r.2.1))
          (Finset.Ico (vpn base) (vpn r.2.1)) (deviceValue base pa))
      (mmioMapRegion s (some d) base pa size) := by
  have hsz : pgSize = 4096 := rfl
  have hpages : pagesOf size = (size.toNat + 4095) / 4096 * 4096 := rfl
  have hround := toNat_roundUp hsize
  unfold mmioMapRegion
  dsimp only
  generalize roundUp size (BitVec.ofNat 32 pgSize) = rSize at hround ⊢
  have hnext : (base + rSize).toNat = base.toNat + pagesOf size := by
    rw [BitVec.toNat_add, hround, Nat.mod_eq_of_lt hsum]
  have hvpn : vpn (base + rSize) = vpn base + rSize.toNat / pgSize := by
    rw [vpn, vpn, hnext, hround, hsz]
    omega
  refine ends_ite (fun _ => True.intro) fun hle => ?_
  have hle : (base + rSize).toNat ≤ mmioLim.toNat := BitVec.not_lt.1 hle
  have hregion : regionPages base rSize = Finset.Ico (vpn base) (vpn (base + rSize)) := by
    rw [hvpn, regionPages]
  have hsub : regionPages base rSize ⊆ mmioPages := by
    intro q hq
    rw [hregion, Finset.mem_Ico, vpn, vpn] at hq
    rw [mmioBase_toNat] at hlow
    rw [mmioLim_toNat] at hle
    exact mem_mmioPages.2 (by omega)
  rw [ends_bind]
  refine (bootMapRegion_ends base rSize pa (ptePcd ||| ptePwt ||| pteW) (deviceValue base pa) h
    (hfill.mono hsub) ?_ hpa ?_ (by decide) (by decide) ?_).mono
    (fun _ hc => hc.1) ?_
  · rw [hround, hsz]
    omega
  · rw [← hvpn, vpn, hnext]
    omega
  · intro k _
    rw [deviceValue, Nat.add_sub_cancel_left]
  · rintro s' ⟨l', hmaps⟩
    rw [hregion] at hmaps
    exact ⟨rfl, hnext, hle, l', hmaps⟩

/-! ### Every run -/

/-- **The regions are stacked below the static variable**, and the pages below it are the ones that
have been mapped. -/
structure MmioInv (s : Vm) (d : ℕ) (l : List ℕ) (t : Mmio) : Prop where
  aligned : t.base.toNat % 4096 = 0
  low : mmioBase.toNat ≤ t.base.toNat
  high : t.base.toNat ≤ mmioLim.toNat
  starts : ∀ r ∈ t.regions, pgoff r.base = 0
  stacked : Bump.Stacked mmioBase.toNat t.base.toNat (t.regions.map MmioRegion.range)
  maps : ∀ r ∈ t.regions, ∀ k, k * pgSize < r.size.toNat →
    t.vm.mm.HasTable d ((vpn r.base + k) / 1024) ∧
    t.vm.mm.entry d (vpn r.base + k) = (r.pa + BitVec.ofNat 32 (k * pgSize)) |||
      (ptePcd ||| ptePwt ||| pteW) ||| pteP
  mapped : ∃ l', StaticMap s t.vm d l l' (Finset.Ico (vpn mmioBase) (vpn t.base))
    (Finset.Ico (vpn mmioBase) (vpn t.base)) (t.vm.mm.entry d)

-- what it does is known from the lemma above
attribute [local irreducible] mmioMapRegion

section Runs

variable {s : Vm} {d : ℕ} {l : List ℕ} {t t' : Mmio}

theorem mmioInv_start (h : BootDir s.mm d l) : MmioInv s d l ⟨s, mmioBase, []⟩ where
  aligned := show mmioBase.toNat % 4096 = 0 by decide
  low := Nat.le_refl _
  high := show mmioBase.toNat ≤ mmioLim.toNat by decide
  starts := by simp
  stacked := Bump.Stacked.nil _ _
  maps := by simp
  mapped := by
    refine ⟨l, ?_⟩
    rw [Finset.Ico_self]
    exact .refl h

/-- The next call, if it fits. -/
theorem MmioInv.call (h : MmioInv s d l t) (h₀ : BootDir s.mm d l)
    (hfill : s.mm.Fillable d mmioPages) {pa size : BitVec 32} (hpa : pgoff pa = 0)
    (hfit : MmioFits t (pa, size)) :
    Ends Crash.Panics
      (fun r => r.1 = t.base ∧ r.2.1.toNat = t.base.toNat + pagesOf size ∧
        r.2.1.toNat ≤ mmioLim.toNat ∧
        ∃ l₁ l', StaticMap s t.vm d l l₁ (Finset.Ico (vpn mmioBase) (vpn t.base))
          (Finset.Ico (vpn mmioBase) (vpn t.base)) (t.vm.mm.entry d) ∧
          StaticMap t.vm r.2.2 d l₁ l' (Finset.Ico (vpn t.base) (vpn r.2.1))
            (Finset.Ico (vpn t.base) (vpn r.2.1)) (deviceValue t.base pa))
      (mmioMapRegion t.vm (some d) t.base pa size) := by
  obtain ⟨l₁, hmapped⟩ := h.mapped
  refine (mmioMapRegion_ends hmapped.inv (hmapped.fillable h₀ hfill) h.low h.aligned hpa hfit.1
    hfit.2).post ?_
  rintro r ⟨hr, hnext, hle, l', hmaps⟩
  exact ⟨hr, hnext, hle, l₁, l', hmapped, hmaps⟩

/-- **One step** keeps the regions stacked, and their pages mapped. -/
theorem MmioInv.step (h : MmioInv s d l t) (h₀ : BootDir s.mm d l)
    (hfill : s.mm.Fillable d mmioPages) {call : BitVec 32 × BitVec 32} (hfit : MmioFits t call)
    (hst : mmioStep d t call t') : MmioInv s d l t' := by
  obtain ⟨hpa, -, r, base', vm', hrun, rfl⟩ := hst
  obtain ⟨hr, hnext, hle, l₁, l', hmapped, hmaps⟩ := (h.call h₀ hfill hpa hfit).of_ok hrun
  obtain rfl : r = t.base := hr
  have hnext : base'.toNat = t.base.toNat + pagesOf call.2 := hnext
  have hle : base'.toNat ≤ mmioLim.toNat := hle
  have hmaps : StaticMap t.vm vm' d l₁ l' (Finset.Ico (vpn t.base) (vpn base'))
      (Finset.Ico (vpn t.base) (vpn base'))
    (deviceValue t.base call.1) := hmaps
  have hpages : pagesOf call.2 = (call.2.toNat + 4095) / 4096 * 4096 := rfl
  have halign := h.aligned
  have hlow := h.low
  have hbase := mmioBase_toNat
  have hlim := mmioLim_toNat
  have hvpn₀ : vpn mmioBase = 980992 := rfl
  have hvpn : vpn t.base = t.base.toNat / 4096 := rfl
  have hvpn' : vpn base' = base'.toNat / 4096 := rfl
  have hold : Finset.Ico (vpn mmioBase) (vpn t.base) ⊆ mmioPages := by
    intro q hq
    rw [Finset.mem_Ico] at hq
    exact mem_mmioPages.2 (by omega)
  have hnew : Finset.Ico (vpn t.base) (vpn base') ⊆ mmioPages := by
    intro q hq
    rw [Finset.mem_Ico] at hq
    exact mem_mmioPages.2 (by omega)
  have hfill₁ := hmapped.fillable h₀ hfill
  -- the pages of the earlier regions are as before
  have hkept : ∀ q ∈ Finset.Ico (vpn mmioBase) (vpn t.base), vm'.mm.entry d q =
    t.vm.mm.entry d q := by
    intro q hq
    have hlt := (hfill q (hold hq)).1
    refine hmaps.rest q hlt (fun hc => ?_) (hfill₁.not_window (hold hq))
    rw [Finset.mem_Ico] at hq hc
    omega
  refine ⟨?_, ?_, hle, ?_, ?_, ?_, l', ?_⟩
  · change base'.toNat % 4096 = 0
    omega
  · change _ ≤ base'.toNat
    omega
  · intro q hq
    rcases List.mem_cons.1 hq with rfl | hq
    · change pgoff t.base = 0
      rw [pgoff_eq]
      exact halign
    · exact h.starts q hq
  · refine h.stacked.push hlow (Nat.le_refl _) ?_
    change t.base.toNat + call.2.toNat ≤ base'.toNat
    omega
  · intro q hq k hk
    rcases List.mem_cons.1 hq with rfl | hq
    · have hlt : k * 4096 < call.2.toNat := hk
      have hmem : vpn t.base + k ∈ Finset.Ico (vpn t.base) (vpn base') :=
        Finset.mem_Ico.2 (by omega)
      have hval := @deviceValue_page t.base _ hpa k
      refine ⟨hmaps.hasTable hmapped.inv (hfill₁.mono hnew) hmem ?_, (hmaps.done _ hmem).trans hval⟩
      rw [hval]
      exact isPresent_or_pteP _
    · obtain ⟨htable, hentry⟩ := h.maps q hq k hk
      have habove : mmioBase.toNat ≤ q.base.toNat := h.stacked.above _ (List.mem_map_of_mem hq)
      have hbelow : q.base.toNat + q.size.toNat ≤ t.base.toNat :=
        h.stacked.below _ (List.mem_map_of_mem hq)
      have hstart := h.starts q hq
      rw [pgoff_eq] at hstart
      have hvq : vpn q.base = q.base.toNat / 4096 := rfl
      have hlt : k * 4096 < q.size.toNat := hk
      have hmem : vpn q.base + k ∈ Finset.Ico (vpn mmioBase) (vpn t.base) :=
        Finset.mem_Ico.2 (by omega)
      have hslot := hmaps.slot_kept (i := (vpn q.base + k) / 1024) (by omega) htable.1
      refine ⟨?_, (hkept _ hmem).trans hentry⟩
      rw [Mm.HasTable, hslot]
      exact htable
  · have hfirst : StaticMap s t.vm d l l₁ (Finset.Ico (vpn mmioBase) (vpn t.base))
        (Finset.Ico (vpn mmioBase) (vpn t.base)) (vm'.mm.entry d) :=
      { hmapped with done := fun q hq => (hkept q hq).symm }
    have hsecond : StaticMap t.vm vm' d l₁ l' (Finset.Ico (vpn t.base) (vpn base'))
        (Finset.Ico (vpn t.base) (vpn base')) (vm'.mm.entry d) :=
      { hmaps with done := fun _ _ => rfl }
    have hboth := hfirst.trans h₀ hsecond (hfill.mono hold)
    rwa [Finset.Ico_union_Ico_eq_Ico (by omega) (by omega)] at hboth

/-- The invariant gives the callers what they rely on. -/
theorem MmioInv.safe (h : MmioInv s d l t) : MmioSafe s d t where
  aligned := h.starts
  inside r hr := by
    have habove : mmioBase.toNat ≤ r.base.toNat := h.stacked.above _ (List.mem_map_of_mem hr)
    have hbelow : r.base.toNat + r.size.toNat ≤ t.base.toNat :=
      h.stacked.below _ (List.mem_map_of_mem hr)
    exact ⟨habove, Nat.le_trans hbelow h.high⟩
  apart := h.stacked.apart
  maps := h.maps
  others q hlt hq := by
    obtain ⟨l', hmapped⟩ := h.mapped
    have hhigh := h.high
    have hlim := mmioLim_toNat
    have hvpn₀ : vpn mmioBase = 980992 := rfl
    have hvpn : vpn t.base = t.base.toNat / 4096 := rfl
    by_cases hwin : PtInv.Window s.mm d q
    · rcases hmapped.window hlt hwin with heq | ⟨habs, f, -, -, hf, p, hp, hslot⟩
      · exact Or.inl heq
      · rw [Finset.mem_Ico] at hp
        have hpdx : pdx mmioBase = 958 := by decide
        exact Or.inr ⟨hwin, by omega, habs, f, hf⟩
    · refine Or.inl (hmapped.rest q hlt (fun hc => hq ?_) hwin)
      rw [Finset.mem_Ico] at hc
      exact mem_mmioPages.2 (by omega)

end Runs

/-- **Device memory.** In every run of calls that fit, from a directory of the kernel with no 4 MB
page at `MMIOBASE`, the regions lie in the range for devices, do not overlap and are mapped to the
devices, and no other page is mapped differently; and the next call that fits returns or panics. -/
theorem mmio_regions_safe {s : Vm} {d : ℕ} {l : List ℕ} (h : BootDir s.mm d l)
    (hfill : s.mm.Fillable d mmioPages) {t : Mmio} {tr : List (Mmio × (BitVec 32 × BitVec 32))}
    (hrun : Run (mmioStep d) ⟨s, mmioBase, []⟩ tr t) (hfits : Meets MmioFits tr) :
    MmioSafe s d t ∧ ∀ pa size, pgoff pa = 0 → 0 < size → MmioFits t (pa, size) →
      Ends Crash.Panics (fun r => r.1 = t.base) (mmioMapRegion t.vm (some d) t.base pa size) := by
  have hinv : MmioInv s d l t :=
    hrun.invariant (fun _ _ _ h hfit hst => h.step ‹_› hfill hfit hst) (mmioInv_start h) hfits
  exact ⟨hinv.safe, fun pa size hpa _ hfit => (hinv.call h hfill hpa hfit).post fun _ hr => hr.1⟩

/-! ### The first call of a machine that boots -/

theorem bootState_mmio {q : ℕ} (hq : q ∈ mmioPages) :
    955 ≤ q / 1024 ∧ q < 2 ^ 20 ∧ q / 1024 ≠ 957 := by
  have hin := mem_mmioPages.1 hq
  omega

theorem bootState_mmioFillable : bootState.mm.Fillable 1 mmioPages :=
  bootState_fillable fun _ hq => (bootState_mmio hq).2

/-- The registers of the LAPIC are mapped at `MMIOBASE`. -/
theorem bootState_lapic : ∃ s' l',
    mmioStep 1 ⟨bootState, mmioBase, []⟩ (0xfee00000, 4096)
      ⟨s', mmioBase + 4096, [⟨mmioBase, 4096, 0xfee00000⟩]⟩ ∧
    StaticMap bootState s' 1 bootFrames l' (regionPages mmioBase 4096) (regionPages mmioBase 4096)
      (deviceValue mmioBase 0xfee00000) := by
  have hsub : regionPages mmioBase 4096 ⊆ mmioPages := by
    refine Finset.Ico_subset_Ico (Nat.le_refl _) ?_
    decide
  have hsize : roundUp 4096 (BitVec.ofNat 32 pgSize) = (4096 : BitVec 32) := by decide
  have hlim : ¬ mmioLim < mmioBase + 4096 := by decide
  obtain ⟨s', l', hrun, hmaps⟩ := bootMapRegion_maps mmioBase 4096 0xfee00000
    (ptePcd ||| ptePwt ||| pteW) (deviceValue mmioBase 0xfee00000)
    bootState_dir (bootState_mmioFillable.mono hsub)
    (bootState_enough fun q hq => ⟨(bootState_mmio (hsub hq)).1,
      (bootState_mmio (hsub hq)).2.1⟩) (by decide) (by decide) (by decide) (by decide) (by decide)
    fun k _ => by rw [deviceValue, Nat.add_sub_cancel_left]
  refine ⟨s', l', ⟨by decide, by decide, mmioBase, mmioBase + 4096, s', ?_, rfl⟩, hmaps⟩
  unfold mmioMapRegion
  dsimp only
  rw [hsize, if_neg hlim, hrun]
  rfl

/-- The page of the LAPIC is a run of one call. -/
theorem mmio_regions_safe_lapic : ∃ (t : Mmio) (tr : List (Mmio × (BitVec 32 × BitVec 32))),
    Run (mmioStep 1) ⟨bootState, mmioBase, []⟩ tr t ∧ t.regions = [⟨mmioBase, 4096, 0xfee00000⟩] ∧
      MmioSafe bootState 1 t ∧
      MmioFits t (0xfec00000, 0x20) ∧ Ends Crash.Panics (fun r => r.1 = t.base)
        (mmioMapRegion t.vm (some 1) t.base 0xfec00000 0x20) := by
  obtain ⟨s', l', hstep, -⟩ := bootState_lapic
  have hnil : Run (mmioStep 1) ⟨bootState, mmioBase, []⟩ [] ⟨bootState, mmioBase, []⟩ := Run.nil _
  have hfit : MmioFits ⟨s', mmioBase + 4096, [⟨mmioBase, 4096, 0xfee00000⟩]⟩ (0xfec00000, 0x20) :=
    ⟨by decide, show (mmioBase + 4096).toNat + pagesOf 0x20 < 2 ^ 32 by decide⟩
  have hsafe :=
    mmio_regions_safe bootState_dir bootState_mmioFillable (hnil.snoc hstep) fun p hp => by
    obtain rfl := List.mem_singleton.1 hp
    exact ⟨by decide, show mmioBase.toNat + pagesOf 4096 < 2 ^ 32 by decide⟩
  exact ⟨_, _, hnil.snoc hstep, rfl, hsafe.1, hfit, hsafe.2 _ _ (by decide) (by decide) hfit⟩

/-- **A size that is rounded up to 0 gets an address without any mapping**, and the address is
handed out again. Already the mapping of one page changes another one, of the window at `UVPT`. -/
theorem mmio_region_escapes :
    (∃ (t : Mmio) (tr : List (Mmio × (BitVec 32 × BitVec 32))), Run (mmioStep 1)
      ⟨bootState, mmioBase, []⟩ tr t ∧
      t = ⟨bootState, mmioBase, [⟨mmioBase, 0xffffffff, 0⟩]⟩ ∧ ¬ MmioSafe bootState 1 t) ∧
    ∃ (t : Mmio) (tr : List (Mmio × (BitVec 32 × BitVec 32))), Run (mmioStep 1)
      ⟨bootState, mmioBase, []⟩ tr t ∧
      t.regions = [⟨mmioBase, 4096, 0xfee00000⟩] ∧ ∃ q < 2 ^ 20, q ∉ mmioPages ∧
      t.vm.mm.entry 1 q ≠ bootState.mm.entry 1 q := by
  have hnil : Run (mmioStep 1) ⟨bootState, mmioBase, []⟩ [] ⟨bootState, mmioBase, []⟩ := Run.nil _
  constructor
  · have hcall : mmioMapRegion bootState (some 1) mmioBase 0 0xffffffff =
        .ok (mmioBase, mmioBase, bootState) := by
      have hsize : roundUp 0xffffffff (BitVec.ofNat 32 pgSize) = 0#32 := by decide
      have hlim : ¬ mmioLim < mmioBase + 0#32 := by decide
      unfold mmioMapRegion
      dsimp only
      rw [hsize, if_neg hlim]
      rfl
    have hstep : mmioStep 1 ⟨bootState, mmioBase, []⟩ (0, 0xffffffff)
        ⟨bootState, mmioBase, [⟨mmioBase, 0xffffffff, 0⟩]⟩ :=
      ⟨by decide, by decide, mmioBase, mmioBase, bootState, hcall, rfl⟩
    refine ⟨_, _, hnil.snoc hstep, rfl, fun hsafe => ?_⟩
    have hinside : mmioBase.toNat + (0xffffffff : BitVec 32).toNat ≤ mmioLim.toNat :=
      (hsafe.inside _ (List.mem_singleton.2 rfl)).2
    exact absurd hinside (by decide)
  · obtain ⟨s', l', hstep, hmaps⟩ := bootState_lapic
    refine ⟨_, _, hnil.snoc hstep, rfl, 957 * 1024 + 958, by decide, fun hc => ?_, ?_⟩
    · have hin := mem_mmioPages.1 hc
      omega
    · have hmem : 980992 ∈ regionPages mmioBase 4096 := Finset.mem_Ico.2 (by decide)
      refine window_changes hmaps hmem (by decide) (by decide) (by decide) ?_ ?_
      · have hdiv : (957 * 1024 + 958) / 1024 = 957 := by decide
        rw [PtInv.Window, hdiv, bootState_window]
        decide
      · rw [bootState_absent (by decide)]
        decide

end Jos
