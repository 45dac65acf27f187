/-
**The boot loader.**

`bootmain` of `boot/main.c` reads the first page of the kernel's image from the disk into a scratch
space, and then each segment to its physical address. Whole sectors are read, from the one that
holds the first byte of the segment on, and they are put where a sector begins; so more is written
than asked for, before the segment and behind it. `waitdisk` is left out: the drive is ready
whenever it is asked. A byte of a segment is right in the end if it is not covered by the sectors of
a later segment, or if those have it at the same place.

Main definitions:

* `Jos.readsect`, `Jos.readseg`, `Jos.bootmain` — the loader;
* `Jos.BootSegment`, `Jos.BootSegment.covers` — a segment, and what its sectors cover;
* `Jos.BootSegment.Placed` — the scratch space and the end of memory are not reached.

Main results:

* `Jos.readsect_sector` — the sector that the controller is asked for;
* `Jos.readseg_eq` — one segment;
* `Jos.bootmain_loads` — **the image is loaded and entered**.
-/

import JosKernel.BlockCopy
import JosKernel.LoadIcode
import JosKernel.Swap

set_option relaxedAutoImplicit false
set_option autoImplicit false

namespace Jos

open BlockCopy

/-! ### The loader -/

/-- The registers of the disk controller that say what is read. -/
structure DriveRegs where
  seccnt : BitVec 8
  lbaLo : BitVec 8
  lbaMid : BitVec 8
  lbaHi : BitVec 8
  drive : BitVec 8

/-- What `readsect` writes into the registers. -/
def readsectRegs (offset : BitVec 32) : DriveRegs where
  seccnt := 1
  lbaLo := offset.setWidth 8
  lbaMid := (offset >>> 8).setWidth 8
  lbaHi := (offset >>> 16).setWidth 8
  drive := (offset >>> 24 ||| 0xE0#32).setWidth 8

/-- The drive: the first one or the second one. -/
def DriveRegs.slave (r : DriveRegs) : Bool := r.drive.getLsbD 4

/-- The number of the sector, of 28 bits. -/
def DriveRegs.sector (r : DriveRegs) : ℕ :=
  r.lbaLo.toNat + 2 ^ 8 * r.lbaMid.toNat + 2 ^ 16 * r.lbaHi.toNat + 2 ^ 24 * (r.drive.toNat % 16)

/-- The bytes of the two disks. -/
abbrev Disks : Type := Bool → ℕ → BitVec 8

/-- **`readsect(dst, offset)`**: the memory after `insl`. -/
def readsect (disks : Disks) (m : BitVec 32 → BitVec 8) (dst offset : BitVec 32) :
    BitVec 32 → BitVec 8 := fun a =>
  if (a - dst).toNat < sectSize then
    disks (readsectRegs offset).slave (sectSize * (readsectRegs offset).sector + (a - dst).toNat)
  else m a

/-- The loop of `readseg`. -/
def readsegFrom (disks : Disks) (endPa : BitVec 32) :
    ℕ → (BitVec 32 → BitVec 8) → BitVec 32 → BitVec 32 → Option (BitVec 32 → BitVec 8)
  | 0, _, _, _ => none
  | fuel + 1, m, pa, offset =>
      if pa < endPa then readsegFrom disks endPa fuel (readsect disks m pa offset)
        (pa + BitVec.ofNat 32 sectSize) (offset + 1)
      else some m

/-- **`readseg(pa, count, offset)`**; there are `2 ^ 23` sectors between the ends of memory. -/
def readseg (disks : Disks) (m : BitVec 32 → BitVec 8) (pa count offset : BitVec 32) :
    Option (BitVec 32 → BitVec 8) :=
  readsegFrom disks (pa + count) (2 ^ 23 + 1) m (pa &&& ~~~511#32)
    (offset / BitVec.ofNat 32 sectSize + 1)

/-- `ELFHDR`. -/
def elfHdr : BitVec 32 := 0x10000

/-- What is read of a program header: `p_pa`, `p_memsz` and `p_offset`. -/
structure BootSegment where
  pa : BitVec 32
  memsz : BitVec 32
  offset : BitVec 32
  deriving DecidableEq, Repr

/-- The program header at an address. -/
def BootSegment.read (m : BitVec 32 → BitVec 8) (ph : BitVec 32) : BootSegment where
  pa := imageWord m (ph + 12)
  memsz := imageWord m (ph + 20)
  offset := imageWord m (ph + 4)

/-- The loop over the program headers, which are read from memory as they stand there. -/
def bootSegments (disks : Disks) (eph : BitVec 32) :
    ℕ → (BitVec 32 → BitVec 8) → BitVec 32 → Option (BitVec 32 → BitVec 8)
  | 0, _, _ => none
  | fuel + 1, m, ph =>
      if ph < eph then do
        let seg := BootSegment.read m ph
        let m ← readseg disks m seg.pa seg.memsz seg.offset
        bootSegments disks eph fuel m (ph + BitVec.ofNat 32 sizeofProghdr)
      else some m

/-- How `bootmain` ends: it enters the kernel, or it hangs. -/
inductive BootEnd
  | entered (eip : BitVec 32) (m : BitVec 32 → BitVec 8)
  | bad (m : BitVec 32 → BitVec 8)

/-- **`bootmain()`.** -/
def bootmain (disks : Disks) (m : BitVec 32 → BitVec 8) : Option BootEnd := do
  let m ← readseg disks m elfHdr (BitVec.ofNat 32 (sectSize * 8)) 0
  let eh := Elf.read m elfHdr
  if eh.eMagic ≠ elfMagic then some (.bad m)
  else
    let ph := elfHdr + eh.ePhoff
    let eph := ph + BitVec.ofNat 32 (sizeofProghdr * eh.ePhnum.toNat)
    let m ← bootSegments disks eph (2 ^ 16) m ph
    some (.entered (Elf.read m elfHdr).eEntry m)

/-! ### One sector -/

/-- **The sector that is read** is the one with the number, on the first drive. -/
theorem readsect_sector {offset : BitVec 32} (h : offset.toNat < 2 ^ 28) :
    (readsectRegs offset).slave = false ∧ (readsectRegs offset).sector = offset.toNat := by
  constructor
  · have hbit : offset.getLsbD 28 = false := Nat.testBit_lt_two_pow h
    rw [BitVec.getLsbD_eq_getElem (by decide)] at hbit
    simp [DriveRegs.slave, readsectRegs, hbit]
  · have hnibble : ((offset >>> 24 ||| 0xE0#32).setWidth 8).toNat % 16 = offset.toNat / 2 ^ 24 := by
      rw [BitVec.toNat_setWidth, Nat.mod_mod_of_dvd _ (by decide), BitVec.toNat_or,
        BitVec.toNat_ushiftRight, Nat.shiftRight_eq_div_pow,
        show 16 = 2 ^ 4 from rfl, Nat.or_mod_two_pow]
      have hsmall : offset.toNat / 2 ^ 24 < 2 ^ 4 := by omega
      rw [Nat.mod_eq_of_lt hsmall]
      exact Nat.or_zero _
    rw [DriveRegs.sector, readsectRegs]
    dsimp only
    rw [hnibble, BitVec.toNat_setWidth, BitVec.toNat_setWidth, BitVec.toNat_setWidth,
      BitVec.toNat_ushiftRight, BitVec.toNat_ushiftRight,
      Nat.shiftRight_eq_div_pow, Nat.shiftRight_eq_div_pow]
    omega

/-- The place where the first sector of a segment goes. -/
theorem toNat_sectorStart (pa : BitVec 32) : (pa &&& ~~~511#32).toNat = pa.toNat / 512 * 512 := by
  have hmask : ∀ k : Fin 32, (511#32).getLsbD k = decide (k.val < 9) := by decide
  have hshift : pa &&& ~~~511#32 = pa >>> 9 <<< 9 := by
    ext k hk
    have hk' := hmask ⟨k, hk⟩
    rw [BitVec.getLsbD_eq_getElem hk] at hk'
    simp only [BitVec.getElem_and, BitVec.getElem_not, BitVec.getElem_shiftLeft,
      BitVec.getElem_ushiftRight, hk']
    by_cases hlow : k < 9
    · simp [hlow]
    · have hsum : 9 + (k - 9) = k := by omega
      simp [hlow, hsum, BitVec.getLsbD_eq_getElem hk]
  have hlt := pa.isLt
  rw [hshift, BitVec.toNat_shiftLeft, BitVec.toNat_ushiftRight, Nat.shiftLeft_eq,
    Nat.shiftRight_eq_div_pow]
  omega

/-! ### One segment -/

/-- The image of the kernel begins in the second sector of the first drive. -/
def kernelImage (disks : Disks) (k : ℕ) : BitVec 8 := disks false (sectSize + k)

namespace BootSegment

variable (seg : BootSegment)

/-- Where the first sector goes, and how many there are. -/
def first : ℕ := seg.pa.toNat / 512 * 512
def sectors : ℕ := (seg.pa.toNat + seg.memsz.toNat - seg.first + 511) / 512

/-- **What the sectors cover.** -/
def covers (a : BitVec 32) : Prop := seg.first ≤ a.toNat ∧ a.toNat < seg.first + 512 * seg.sectors

instance (a : BitVec 32) : Decidable (seg.covers a) := inferInstanceAs (Decidable (_ ∧ _))

/-- The byte that the sectors put at an address. -/
def byte (disks : Disks) (a : BitVec 32) : BitVec 8 :=
  kernelImage disks (seg.offset.toNat / 512 * 512 + (a.toNat - seg.first))

/-- The memory with the sectors in it. -/
def load (disks : Disks) (m : BitVec 32 → BitVec 8) : BitVec 32 → BitVec 8 :=
  fun a => if seg.covers a then seg.byte disks a else m a

/-- **The segment and its sectors** end before the end of memory, and do not touch the scratch
space. They keep clear of the loader at `0x7c00` and of its stack as well, which are no part of the
model: a segment that comes there overwrites the code that reads it. -/
structure Placed : Prop where
  below : seg.pa.toNat + seg.memsz.toNat + 512 ≤ 2 ^ 32
  apart : seg.first + 512 * seg.sectors ≤ 0x10000 ∨ 0x11000 ≤ seg.first

end BootSegment

/-- Some sectors one after the other. -/
theorem readsegFrom_eq {disks : Disks} {endPa : BitVec 32} :
    ∀ {n fuel : ℕ} {m : BitVec 32 → BitVec 8} {pa offset : BitVec 32}, n < fuel →
    pa.toNat + 512 * n < 2 ^ 32 → (∀ k < n, pa.toNat + 512 * k < endPa.toNat) →
    endPa.toNat ≤ pa.toNat + 512 * n → offset.toNat + n ≤ 2 ^ 28 →
    readsegFrom disks endPa fuel m pa offset = some fun a =>
      if pa.toNat ≤ a.toNat ∧ a.toNat < pa.toNat + 512 * n then disks false
        (512 * offset.toNat + (a.toNat - pa.toNat)) else m a := by
  intro n
  induction n with
  | zero =>
      intro fuel m pa offset hfuel hfit hmore hend hoff
      obtain ⟨fuel, rfl⟩ := Nat.exists_eq_succ_of_ne_zero (Nat.ne_of_gt hfuel)
      rw [readsegFrom, if_neg (by rw [BitVec.lt_def]; omega)]
      refine congrArg some (funext fun a => ?_)
      rw [if_neg (by omega)]
  | succ n ih =>
      intro fuel m pa offset hfuel hfit hmore hend hoff
      obtain ⟨fuel, rfl⟩ := Nat.exists_eq_succ_of_ne_zero (Nat.ne_of_gt (Nat.zero_lt_of_lt hfuel))
      have hpa : (pa + BitVec.ofNat 32 sectSize).toNat = pa.toNat + 512 := by
        rw [sectSize]
        bv_omega
      have hoffset : (offset + 1).toNat = offset.toNat + 1 := by bv_omega
      have hlt : pa < endPa := hmore 0 (Nat.zero_lt_succ n)
      rw [readsegFrom, if_pos hlt, ih (Nat.lt_of_succ_lt_succ hfuel) (by omega)
        (fun k hk => ?_) (by omega) (by omega)]
      · refine congrArg some (funext fun a => ?_)
        obtain ⟨hslave, hsector⟩ := @readsect_sector offset (by omega)
        rw [hpa, hoffset, readsect, hslave, hsector, sectSize]
        have hdist := BitVec.toNat_sub a pa
        have ha := a.isLt
        by_cases hlow : a.toNat < pa.toNat
        · rw [if_neg (by omega), if_neg (by omega), if_neg (by omega)]
        · have hplace : (a - pa).toNat = a.toNat - pa.toNat := by omega
          rw [hplace]
          by_cases hfirst : a.toNat < pa.toNat + 512
          · rw [if_neg (by omega), if_pos (by omega), if_pos (by omega)]
          · by_cases hin : a.toNat < pa.toNat + 512 * (n + 1)
            · rw [if_pos (by omega), if_pos (by omega)]
              exact congrArg _ (by omega)
            · rw [if_neg (by omega), if_neg (by omega), if_neg (by omega)]
      · rw [hpa]
        have hnext := hmore (k + 1) (by omega)
        omega

/-- **One segment.** -/
theorem readseg_eq {disks : Disks} {m : BitVec 32 → BitVec 8} {seg : BootSegment}
    (h : seg.pa.toNat + seg.memsz.toNat + 512 ≤ 2 ^ 32) :
    readseg disks m seg.pa seg.memsz seg.offset = some (seg.load disks m) := by
  have hstart := toNat_sectorStart seg.pa
  have hend : (seg.pa + seg.memsz).toNat = seg.pa.toNat + seg.memsz.toNat :=
    BitVec.toNat_add_of_lt (by omega)
  have hoffset : (seg.offset / BitVec.ofNat 32 sectSize + 1).toNat =
    seg.offset.toNat / 512 + 1 := by
    have hlt := seg.offset.isLt
    have hdiv : (seg.offset / BitVec.ofNat 32 sectSize).toNat = seg.offset.toNat / 512 :=
      BitVec.toNat_udiv
    rw [← hdiv]
    bv_omega
  have hlt := seg.offset.isLt
  have hsectors : seg.sectors = (seg.pa.toNat + seg.memsz.toNat - seg.pa.toNat / 512 * 512 + 511) /
      512 := rfl
  rw [readseg, readsegFrom_eq (n := seg.sectors)]
  · refine congrArg some (funext fun a => ?_)
    rw [hstart, hoffset, BootSegment.load, BootSegment.byte, kernelImage, sectSize]
    refine if_congr Iff.rfl (congrArg _ ?_) rfl
    rw [BootSegment.first]
    omega
  all_goals omega

/-! ### The headers -/

/-- The image as memory, at the address 0. -/
def imageMem (disks : Disks) : BitVec 32 → BitVec 8 := fun a => kernelImage disks a.toNat

/-- The program headers of the image. -/
def bootHeaders (disks : Disks) : List BootSegment :=
  (List.range (Elf.read (imageMem disks) 0).ePhnum.toNat).map fun k =>
    .read (imageMem disks) ((Elf.read (imageMem disks) 0).ePhoff + BitVec.ofNat 32
      (sizeofProghdr * k))

/-- **The scratch space** holds the first page of the image. -/
def Scratch (disks : Disks) (m : BitVec 32 → BitVec 8) : Prop :=
  ∀ k < 4096, m (elfHdr + BitVec.ofNat 32 k) = kernelImage disks k

section

variable {disks : Disks} {m : BitVec 32 → BitVec 8}

theorem Scratch.byte (h : Scratch disks m) {x : BitVec 32} (hx : x.toNat < 4096) :
    m (elfHdr + x) = imageMem disks x := by
  have hbyte := h x.toNat hx
  rwa [BitVec.ofNat_toNat, BitVec.setWidth_eq] at hbyte

/-- A word of the headers. -/
theorem Scratch.word (h : Scratch disks m) {x : BitVec 32} (hx : x.toNat + 4 ≤ 4096) :
    imageWord m (elfHdr + x) = imageWord (imageMem disks) x := by
  have hplace : ∀ k : BitVec 32, k.toNat < 4 → m (elfHdr + x + k) = imageMem disks (x + k) := by
    intro k hk
    rw [BitVec.add_assoc]
    exact h.byte (by bv_omega)
  have hzero := h.byte (x := x) (by omega)
  rw [imageWord, imageWord, hplace 3 (by decide), hplace 2 (by decide), hplace 1 (by decide), hzero]

theorem Scratch.half (h : Scratch disks m) {x : BitVec 32} (hx : x.toNat + 2 ≤ 4096) :
    imageHalf m (elfHdr + x) = imageHalf (imageMem disks) x := by
  have hone : m (elfHdr + x + 1) = imageMem disks (x + 1) := by
    rw [BitVec.add_assoc]
    exact h.byte (by bv_omega)
  rw [imageHalf, imageHalf, hone, h.byte (x := x) (by omega)]

theorem Scratch.elf (h : Scratch disks m) : Elf.read m elfHdr = Elf.read (imageMem disks) 0 := by
  have hmagic := h.word (x := 0#32) (by decide)
  rw [BitVec.add_zero] at hmagic
  rw [Elf.read, Elf.read, hmagic, h.word (by decide), h.word (by decide), h.half (by decide)]
  rfl

theorem Scratch.header (h : Scratch disks m) {x : BitVec 32} (hx : x.toNat + 32 ≤ 4096) :
    BootSegment.read m (elfHdr + x) = BootSegment.read (imageMem disks) x := by
  have hword : ∀ k : BitVec 32, k.toNat + 4 ≤ 32 → imageWord m (elfHdr + x + k) =
      imageWord (imageMem disks) (x + k) := by
    intro k hk
    rw [BitVec.add_assoc]
    exact h.word (by bv_omega)
  rw [BootSegment.read, BootSegment.read, hword 12 (by decide), hword 20 (by decide),
    hword 4 (by decide)]

/-- A segment that is apart from the scratch space. -/
theorem Scratch.load (h : Scratch disks m) {seg : BootSegment} (hseg : seg.Placed) :
    Scratch disks (seg.load disks m) := by
  intro k hk
  have hplace : (elfHdr + BitVec.ofNat 32 k).toNat = 0x10000 + k :=
    toNat_place (d := elfHdr) (by rw [elfHdr]; simp; omega)
  have hout : ¬ seg.covers (elfHdr + BitVec.ofNat 32 k) := by
    intro hc
    rw [BootSegment.covers, hplace] at hc
    have := hseg.apart
    omega
  rw [BootSegment.load, if_neg hout]
  exact h k hk

theorem Scratch.loadAll {segs : List BootSegment} (h : Scratch disks m)
    (hplaced : ∀ seg ∈ segs, seg.Placed) :
    Scratch disks (segs.foldl (fun m seg => seg.load disks m) m) := by
  induction segs generalizing m with
  | nil => exact h
  | cons seg segs ih =>
      exact ih (h.load (hplaced seg List.mem_cons_self)) fun q hq =>
        hplaced q (List.mem_cons_of_mem _ hq)

/-- **The loop** over the rest of the program headers. -/
theorem bootSegments_eq {eph : BitVec 32} :
    ∀ {n fuel : ℕ} {m : BitVec 32 → BitVec 8} {x : BitVec 32}, Scratch disks m → n < fuel →
    x.toNat + sizeofProghdr * n ≤ 4096 → eph = elfHdr + x + BitVec.ofNat 32 (sizeofProghdr * n) →
    (∀ k < n, (BootSegment.read (imageMem disks) (x + BitVec.ofNat 32
      (sizeofProghdr * k))).Placed) →
    bootSegments disks eph fuel m (elfHdr + x) = some (((List.range n).map fun k =>
      BootSegment.read (imageMem disks) (x + BitVec.ofNat 32 (sizeofProghdr * k))).foldl
        (fun m seg => seg.load disks m) m) := by
  have helf : elfHdr.toNat = 0x10000 := rfl
  intro n
  simp only [sizeofProghdr]
  induction n with
  | zero =>
      intro fuel m x _ hfuel _ heph _
      obtain ⟨fuel, rfl⟩ := Nat.exists_eq_succ_of_ne_zero (Nat.ne_of_gt hfuel)
      rw [bootSegments, if_neg (by rw [heph]; simp)]
      rfl
  | succ n ih =>
      intro fuel m x hm hfuel hfit heph hplaced
      obtain ⟨fuel, rfl⟩ := Nat.exists_eq_succ_of_ne_zero (Nat.ne_of_gt (Nat.zero_lt_of_lt hfuel))
      have hlt : elfHdr + x < eph := by
        rw [heph]
        bv_omega
      have hmove : ∀ k, x + BitVec.ofNat 32 (32 * (k + 1)) =
          x + BitVec.ofNat 32 32 + BitVec.ofNat 32 (32 * k) := by
        intro k
        rw [place_add, Nat.mul_succ, Nat.add_comm]
      have hfirst := hplaced 0 (Nat.zero_lt_succ n)
      rw [Nat.mul_zero, BitVec.add_zero] at hfirst
      have hseg := @readseg_eq disks m _ hfirst.below
      have hnext : eph = elfHdr + (x + BitVec.ofNat 32 32) + BitVec.ofNat 32 (32 * n) := by
        rw [heph, BitVec.add_assoc, hmove, ← BitVec.add_assoc]
      have hrest := ih (x := x + BitVec.ofNat 32 32) (hm.load hfirst)
        (Nat.lt_of_succ_lt_succ hfuel) (by bv_omega) hnext fun k hk => by
        rw [← hmove]
        exact hplaced (k + 1) (Nat.succ_lt_succ hk)
      rw [bootSegments, if_pos hlt, hm.header (by omega)]
      dsimp only
      rw [hseg, Option.bind_eq_bind, Option.bind_some, sizeofProghdr,
        BitVec.add_assoc elfHdr, hrest]
      rw [List.range_succ_eq_map, List.map_cons, List.map_map, List.foldl_cons, Nat.mul_zero,
        BitVec.add_zero]
      simp only [Function.comp_def, Nat.succ_eq_add_one, hmove]

end

/-! ### The kernel -/

section

variable {disks : Disks} {m : BitVec 32 → BitVec 8} {a : BitVec 32}

/-- What no segment covers stays. -/
theorem foldl_load_outside {segs : List BootSegment} (h : ∀ seg ∈ segs, ¬ seg.covers a) :
    segs.foldl (fun m seg => seg.load disks m) m a = m a := by
  induction segs generalizing m with
  | nil => rfl
  | cons seg segs ih =>
      rw [List.foldl_cons, ih fun q hq => h q (List.mem_cons_of_mem _ hq)]
      exact if_neg (h seg List.mem_cons_self)

/-- A byte stays as it is when the segments that cover it have the same byte. -/
theorem foldl_load_same {segs : List BootSegment} {v : BitVec 8} (hm : m a = v)
    (h : ∀ seg ∈ segs, seg.covers a → seg.byte disks a = v) :
    segs.foldl (fun m seg => seg.load disks m) m a = v := by
  induction segs generalizing m with
  | nil => exact hm
  | cons seg segs ih =>
      refine ih ?_ fun q hq => h q (List.mem_cons_of_mem _ hq)
      change (if seg.covers a then seg.byte disks a else m a) = v
      split
      · next hc => exact h seg List.mem_cons_self hc
      · exact hm

/-- The sectors of two segments that lie at the same distance from their places in memory. -/
def BootSegment.SameSectors (q seg : BootSegment) : Prop :=
  seg.pa.toNat / 512 + q.offset.toNat / 512 = q.pa.toNat / 512 + seg.offset.toNat / 512

/-- Such sectors have the same bytes where both are. -/
theorem BootSegment.SameSectors.byte {q seg : BootSegment} (h : q.SameSectors seg) (hq : q.covers a)
    (hseg : seg.covers a) :
    q.byte disks a = seg.byte disks a := by
  simp only [SameSectors, covers, first] at h hq hseg
  rw [BootSegment.byte, BootSegment.byte, first, first]
  exact congrArg _ (by omega)

/-- A byte of a segment. -/
theorem BootSegment.covers_of_mem {seg : BootSegment} (hlow : seg.pa.toNat ≤ a.toNat)
    (hhigh : a.toNat < seg.pa.toNat + seg.memsz.toNat) :
    seg.covers a := by
  simp only [covers, sectors, first]
  omega

/-- It is where the image has it, if the segment is as far behind the beginning of a sector on the
disk as in memory. -/
theorem BootSegment.byte_of_mem {seg : BootSegment}
    (halign : seg.pa.toNat % 512 = seg.offset.toNat % 512) (hlow : seg.pa.toNat ≤ a.toNat) :
    seg.byte disks a = kernelImage disks (seg.offset.toNat + (a.toNat - seg.pa.toNat)) := by
  rw [BootSegment.byte, first]
  exact congrArg _ (by omega)

end

/-- **The kernel is loaded and entered.** If the image is an ELF file whose program headers lie in
its first page, and no segment reaches the scratch space or the end of memory, then `bootmain`
enters the kernel at its entry point. Every byte of a segment that is aligned to sectors like its
image is then the byte of the image, unless the sectors of a later segment cover it and come from
another place of the disk; and outside of all sectors and of the scratch space memory is as it
was. -/
theorem bootmain_loads {disks : Disks} {m : BitVec 32 → BitVec 8}
    (hmagic : (Elf.read (imageMem disks) 0).eMagic = elfMagic)
    (htable : (Elf.read (imageMem disks) 0).ePhoff.toNat + 32 *
      (Elf.read (imageMem disks) 0).ePhnum.toNat ≤ 4096)
    (hplaced : ∀ seg ∈ bootHeaders disks, seg.Placed) :
    ∃ m', bootmain disks m = some (.entered (Elf.read (imageMem disks) 0).eEntry m') ∧
      (∀ pre seg post, bootHeaders disks = pre ++ seg :: post →
        seg.pa.toNat % 512 = seg.offset.toNat % 512 →
        ∀ a : BitVec 32, seg.pa.toNat ≤ a.toNat → a.toNat < seg.pa.toNat + seg.memsz.toNat →
          (∀ q ∈ post, q.covers a → q.SameSectors seg) →
          m' a = kernelImage disks (seg.offset.toNat + (a.toNat - seg.pa.toNat))) ∧
      ∀ a : BitVec 32, (∀ seg ∈ bootHeaders disks, ¬ seg.covers a) → a.toNat < 0x10000 ∨
        0x11000 ≤ a.toNat → m' a = m a := by
  -- the first page of the image
  obtain ⟨page, hpage⟩ : ∃ page : BootSegment, page = ⟨elfHdr, BitVec.ofNat 32 (sectSize * 8), 0⟩ :=
    ⟨_, rfl⟩
  have hfirst : page.first = 0x10000 ∧ page.sectors = 8 := by
    subst hpage
    decide
  have hread : readseg disks m elfHdr (BitVec.ofNat 32 (sectSize * 8))
      0 = some (page.load disks m) := by
    subst hpage
    exact @readseg_eq disks m ⟨elfHdr, BitVec.ofNat 32 (sectSize * 8), 0⟩ (by decide)
  have hscratch : Scratch disks (page.load disks m) := by
    intro k hk
    have hplace : (elfHdr + BitVec.ofNat 32 k).toNat = 0x10000 + k :=
      toNat_place (d := elfHdr) (by rw [elfHdr]; simp; omega)
    have hcovers : page.covers (elfHdr + BitVec.ofNat 32 k) := by
      rw [BootSegment.covers, hplace, hfirst.1, hfirst.2]
      omega
    rw [BootSegment.load, if_pos hcovers, BootSegment.byte, hplace, hfirst.1, hpage]
    exact congrArg _ (by simp)
  obtain ⟨eh, heh⟩ : ∃ eh, Elf.read (imageMem disks) 0 = eh := ⟨_, rfl⟩
  rw [heh] at hmagic htable
  have hheaders : bootHeaders disks = (List.range eh.ePhnum.toNat).map fun k =>
      BootSegment.read (imageMem disks) (eh.ePhoff + BitVec.ofNat 32 (sizeofProghdr * k)) := by
        rw [bootHeaders, heh]
  have hloop := @bootSegments_eq disks _ eh.ePhnum.toNat (2 ^ 16) _ eh.ePhoff hscratch
    eh.ePhnum.isLt htable rfl fun k hk =>
    hplaced _ (by rw [hheaders]; exact List.mem_map.2 ⟨k, List.mem_range.2 hk, rfl⟩)
  rw [← hheaders] at hloop
  have hend := hscratch.loadAll hplaced
  refine ⟨(bootHeaders disks).foldl (fun m seg => seg.load disks m) (page.load disks m), ?_, ?_, ?_⟩
  · rw [bootmain, hread, Option.bind_eq_bind, Option.bind_some, hscratch.elf, heh]
    dsimp only
    rw [if_neg (not_not_intro hmagic), hloop, Option.bind_some, hend.elf, heh]
  · intro pre seg post hsegs halign a hlow hhigh hpost
    have hcovers := BootSegment.covers_of_mem hlow hhigh
    rw [hsegs, List.foldl_append, List.foldl_cons, ← BootSegment.byte_of_mem halign hlow]
    refine foldl_load_same (if_pos hcovers) fun q hq hqa => (hpost q hq hqa).byte hqa hcovers
  · intro a hout hscr
    rw [foldl_load_outside hout, BootSegment.load, if_neg]
    rw [BootSegment.covers, hfirst.1, hfirst.2]
    omega

/-- A disk with a kernel of three bytes at `0x100000`, which stand in the second page of its
image. -/
def tinyDisks : Disks := fun slave k => if slave then 0 else
  ([(0, 0x7F), (1, 0x45), (2, 0x4C), (3, 0x46), (26, 0x10), (28, 52), (44, 1), (57, 0x10),
    (66, 0x10), (72, 3), (0x1000, 0xFA), (0x1001, 0xEB),
    (0x1002, 0xFE)].lookup (k - sectSize)).getD 0

theorem tinyDisks_headers : bootHeaders tinyDisks = [⟨0x100000, 3, 0x1000⟩] := by decide +kernel

theorem bootmain_loads_tiny :
    ∃ m', bootmain tinyDisks (fun _ => 0xCC) = some (.entered 0x100000 m') ∧
    m' 0x100000 = 0xFA ∧ m' 0x100002 = 0xFE ∧ m' 0x200000 = 0xCC := by
  have hplaced : ∀ seg ∈ bootHeaders tinyDisks, seg.Placed := by
    rw [tinyDisks_headers]
    intro seg hseg
    rw [List.mem_singleton.1 hseg]
    exact ⟨by decide, .inr (by decide)⟩
  obtain ⟨m', hboot, hbytes, hrest⟩ :=
    @bootmain_loads tinyDisks (fun _ => 0xCC) (by decide +kernel) (by decide +kernel) hplaced
  have hsegment := hbytes [] ⟨0x100000, 3, 0x1000⟩ [] tinyDisks_headers (by decide)
  have hout : ∀ seg ∈ bootHeaders tinyDisks, ¬ seg.covers 0x200000 := by
    rw [tinyDisks_headers]
    intro seg hseg
    rw [List.mem_singleton.1 hseg]
    decide
  refine ⟨m', hboot, ?_, ?_, hrest 0x200000 hout (.inr (by decide))⟩
  · exact (hsegment 0x100000 (by decide) (by decide) (by simp)).trans (by decide +kernel)
  · exact (hsegment 0x100002 (by decide) (by decide) (by simp)).trans (by decide +kernel)

end Jos
