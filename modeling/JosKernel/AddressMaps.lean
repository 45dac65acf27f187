/-
**Addresses of physical memory.**

A frame has three addresses: its `page_info`, its physical address and the kernel address it is
mapped at. The conversions of `kern/pmap.h` lead back and forth between them, except that `_paddr`
refuses the kernel addresses of one frame — a trap for debugging that was left in — so every
function that takes `PADDR` of something in that frame panics.

Main definitions:

* `Jos.Converts` — the conversions undo each other at a byte of a frame, and what rests on them
  works.

Main results:

* `Jos.converts_iff` — exactly one frame is not converted.
-/

import JosKernel.DemandPage
import JosKernel.EnvFree

set_option relaxedAutoImplicit false
set_option autoImplicit false

namespace Jos

open Outcome

/-! ### The conversions -/

/-- **The conversions at the byte `off` of the frame `pp`**: they lead back where they came from and
do not panic, and the functions that convert an address in the frame work. -/
structure Converts (npages pp off : ℕ) : Prop where
  page : pa2page npages (page2pa pp) = Except.ok pp
  phys : (kaddr npages (bytePa pp off) >>= paddr) = Except.ok (bytePa pp off)
  virt : (paddr (bytePa pp off + kernBase) >>= kaddr npages) = Except.ok (bytePa pp off + kernBase)
  /-- `env_setup_vm` makes a directory of the frame. -/
  setup : ∀ (s : Vm) (e : ℕ) (mm : Mm), s.mm.npages = npages →
    pageAlloc s.mm allocZero = Except.ok (some pp, mm) →
    ∃ s', envSetupVm s e = Except.ok (true, s')
  /-- `env_free` drops the reference to what lies in the frame. -/
  free : ∀ s : Vm, s.mm.npages = npages → decrefKva s pp = decref s pp

theorem pgnum_bytePa {pp off : ℕ} (hpp : pp < 2 ^ 20) (hoff : off < pgSize) :
    pgnum (bytePa pp off) = pp := by
  have hval := bytePa_toNat hpp hoff
  rw [pgSize] at hoff
  rw [pgnum, BitVec.toNat_ushiftRight, hval, Nat.shiftRight_eq_div_pow, pgShift]
  omega

theorem kaddr_byte {npages pp off : ℕ} (hpp : pp < 2 ^ 20) (hnp : pp < npages)
    (hoff : off < pgSize) :
    kaddr npages (bytePa pp off) = Except.ok (bytePa pp off + kernBase) := by
  rw [kaddr, pgnum_bytePa hpp hoff, if_neg (Nat.not_le.2 hnp)]
  rfl

/-! ### Directories -/

/-- `env_setup_vm` with a frame that `PADDR` accepts. -/
theorem envSetupVm_ok {s : Vm} {mm : Mm} {pp : ℕ} (e : ℕ) (hsmall : s.mm.npages ≤ 65536)
    (hpp : pp < s.mm.npages) (hbad : pp ≠ badFrame)
    (halloc : pageAlloc s.mm allocZero = Except.ok (some pp, mm)) :
    ∃ s', envSetupVm s e = Except.ok (true, s') := by
  have hnp : mm.npages = s.mm.npages := ((pageAlloc_keeps (by decide)).of_ok halloc).npages
  have hk : kaddr mm.npages (page2pa pp) = Except.ok (page2pa pp + kernBase) :=
    kaddr_page2pa (hnp.symm ▸ hpp)
  have hp : paddr (page2pa pp + kernBase) = Except.ok (page2pa pp) := by
    rw [paddr_frame (by omega), if_neg hbad]
  have hends : Ends (fun _ => False) (fun r => r.1 = true) (envSetupVm s e) := by
    unfold envSetupVm
    rw [halloc, ends_bind, ends_ok]
    refine ends_bind.2 (Ends.post (Q := fun kva => kva = page2pa pp + kernBase) ?_ ?_)
    · change Ends _ _ (kaddr mm.npages (page2pa pp))
      rw [hk, ends_ok]
    · rintro kva rfl
      rw [ends_bind, hp, ends_ok, ends_pure]
  obtain ⟨⟨ok, s'⟩, hrun, hok⟩ := hends.exists_ok fun _ hc => hc
  obtain rfl : ok = true := hok
  exact ⟨s', hrun⟩

/-- **Exactly one frame is not converted**: the one whose kernel addresses `_paddr` refuses. -/
theorem converts_iff {npages pp off : ℕ} (hsmall : npages ≤ 65536) (hpp : pp < npages)
    (hoff : off < pgSize) :
    Converts npages pp off ↔ pp ≠ badFrame := by
  have hk : kaddr npages (bytePa pp off) = Except.ok (bytePa pp off + kernBase) :=
    kaddr_byte (by omega) hpp hoff
  have hp := @paddr_byte pp off (by omega) hoff
  constructor
  · intro h hbad
    obtain ⟨pa, hpa, -⟩ := bind_eq_ok.1 h.virt
    rw [hp, if_pos hbad] at hpa
    exact nomatch hpa
  · intro hbad
    rw [if_neg hbad] at hp
    refine
      { page := ?_, phys := ?_, virt := ?_, setup := fun s e mm hnp halloc => ?_,
        free := fun s hnp => ?_ }
    · rw [pa2page, pgnum_page2pa, Nat.mod_eq_of_lt (by omega), if_neg (Nat.not_le.2 hpp)]
      rfl
    · exact bind_eq_ok.2 ⟨_, hk, hp⟩
    · exact bind_eq_ok.2 ⟨_, hp, hk⟩
    · exact envSetupVm_ok e (by omega) (by omega) hbad halloc
    · rw [FreeReady.decrefKva_frame (by omega) (by omega), if_neg hbad]

/-- The last byte of a machine of 4 MB. -/
theorem converts_iff_last : Converts 1024 1023 4095 ∧ 1023 ≠ badFrame := by
  have hne : 1023 ≠ badFrame := by
    rw [badFrame]
    decide
  exact ⟨(converts_iff (by decide) (by decide) (by decide)).2 hne, hne⟩

/-- **A directory at `0xf02a5000` stops the kernel**: on a machine of 4 MB its frame is not
converted. -/
theorem badFrame_not_converted : 0x2a5 < 1024 ∧ ¬ Converts 1024 0x2a5 0 := by
  refine ⟨by decide, fun h => ?_⟩
  obtain ⟨pa, hpa, -⟩ := bind_eq_ok.1 h.virt
  have hp : paddr (bytePa 0x2a5 0 + kernBase) = Except.error (.panic "BADBAD") := by decide
  rw [hp] at hpa
  exact nomatch hpa

end Jos
