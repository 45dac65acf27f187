/-
**`memmove`.**

`lib/string.c` has two versions of `memmove`: one with the string instructions of the processor,
which copies words where both addresses and the size allow it, and one that copies bytes in a loop.
Both go downwards if the destination begins inside the source, and upwards otherwise, and both move
the block as if it had been read at once.

Main definitions:

* `Jos.movs`, `Jos.repMovs` — `movsb` and `movsl`, and the prefix `rep`;
* `Jos.memmoveAsm`, `Jos.memmoveC` — the two versions;
* `Jos.BlockMoved` — the block is at its destination, and the other bytes are as before.

Main results:

* `Jos.repMovs_up`, `Jos.repMovs_down` — the string instructions are loops over units;
* `Jos.memmoveAsm_eq`, `Jos.memmoveC_eq` — each version writes the block at once;
* `Jos.memmove_moves` — **the two versions leave the same memory**, that of the specification.
-/

import JosKernel.BlockCopy

set_option relaxedAutoImplicit false
set_option autoImplicit false

namespace Jos

open BlockCopy

/-! ### The string instructions -/

/-- The memory and the registers that a string instruction uses, with the direction flag. -/
structure StringRegs where
  mem : BitVec 32 → BitVec 8
  edi : BitVec 32
  esi : BitVec 32
  df : Bool

/-- **`movsb` and `movsl`**, with `unit` 1 and 4: the bytes of the unit are read before any of them
is written. -/
def movs (unit : ℕ) (r : StringRegs) : StringRegs where
  mem := fun a => if (a - r.edi).toNat < unit then r.mem (r.esi + (a - r.edi)) else r.mem a
  edi := if r.df then r.edi - BitVec.ofNat 32 unit else r.edi + BitVec.ofNat 32 unit
  esi := if r.df then r.esi - BitVec.ofNat 32 unit else r.esi + BitVec.ofNat 32 unit
  df := r.df

/-- `rep movs`, for the count in `%ecx`. -/
def repMovs (unit : ℕ) : ℕ → StringRegs → StringRegs
  | 0, r => r
  | ecx + 1, r => repMovs unit ecx (movs unit r)

/-! ### The two versions -/

/-- `(int)s%4 == 0 && (int)d%4 == 0 && n%4 == 0`. -/
def InWords (s d n : BitVec 32) : Prop := s.srem 4 = 0 ∧ d.srem 4 = 0 ∧ n % 4 = 0

instance (s d n : BitVec 32) : Decidable (InWords s d n) := inferInstanceAs (Decidable (_ ∧ _ ∧ _))

/-- **`memmove(dst, src, n)` with the string instructions**: what it returns, and the registers it
leaves behind. -/
def memmoveAsm (mem : BitVec 32 → BitVec 8) (dst src n : BitVec 32) : BitVec 32 × StringRegs :=
  let s := src
  let d := dst
  if s < d ∧ s + n > d then
    let s := s + n
    let d := d + n
    let r := if InWords s d n then repMovs 4 (n / 4).toNat ⟨mem, d - 4, s - 4, true⟩
      else repMovs 1 n.toNat ⟨mem, d - 1, s - 1, true⟩
    (dst, { r with df := false })
  else
    let r := if InWords s d n then repMovs 4 (n / 4).toNat ⟨mem, d, s, false⟩
      else repMovs 1 n.toNat ⟨mem, d, s, false⟩
    (dst, r)

/-- `while (n-- > 0) *--d = *--s;` -/
def moveBack : ℕ → (BitVec 32 → BitVec 8) → BitVec 32 → BitVec 32 → BitVec 32 → BitVec 8
  | 0, mem, _, _ => mem
  | n + 1, mem, d, s => moveBack n (Function.update mem (d - 1) (mem (s - 1))) (d - 1) (s - 1)

/-- `while (n-- > 0) *d++ = *s++;` -/
def moveForth : ℕ → (BitVec 32 → BitVec 8) → BitVec 32 → BitVec 32 → BitVec 32 → BitVec 8
  | 0, mem, _, _ => mem
  | n + 1, mem, d, s => moveForth n (Function.update mem d (mem s)) (d + 1) (s + 1)

/-- **`memmove(dst, src, n)` in plain C.** -/
def memmoveC (mem : BitVec 32 → BitVec 8) (dst src n : BitVec 32) :
    BitVec 32 × (BitVec 32 → BitVec 8) :=
  let s := src
  let d := dst
  if s < d ∧ s + n > d then
    let s := s + n
    let d := d + n
    (dst, moveBack n.toNat mem d s)
  else (dst, moveForth n.toNat mem d s)

/-- **The block of `n` bytes at `src` is at `dst`, and every other byte is as before.** -/
structure BlockMoved (mem mem' : BitVec 32 → BitVec 8) (dst src : BitVec 32) (n : ℕ) : Prop where
  block : ∀ i < n, mem' (dst + BitVec.ofNat 32 i) = mem (src + BitVec.ofNat 32 i)
  rest : ∀ a, (∀ i < n, a ≠ dst + BitVec.ofNat 32 i) → mem' a = mem a

/-! ### The loops -/

/-- **With the flag clear** the units are copied upwards. -/
theorem repMovs_up (unit : ℕ) : ∀ (n : ℕ) (mem : BitVec 32 → BitVec 8) (d s : BitVec 32),
    (repMovs unit n ⟨mem, d, s, false⟩).mem = copyUp unit n mem d s ∧
    (repMovs unit n ⟨mem, d, s, false⟩).df = false := by
  intro n
  induction n with
  | zero => intro mem d s; exact ⟨rfl, rfl⟩
  | succ n ih =>
      intro mem d s
      exact ih (blit mem d s unit) (d + BitVec.ofNat 32 unit) (s + BitVec.ofNat 32 unit)

/-- **With the flag set** the units are copied downwards; the registers point to the last unit. -/
theorem repMovs_down (unit : ℕ) : ∀ (n : ℕ) (mem : BitVec 32 → BitVec 8) (d s : BitVec 32),
    (repMovs unit n ⟨mem, d - BitVec.ofNat 32 unit, s - BitVec.ofNat 32 unit, true⟩).mem =
      copyDown unit n mem d s := by
  intro n
  induction n with
  | zero => intro mem d s; rfl
  | succ n ih =>
      intro mem d s
      exact ih (blit mem (d - BitVec.ofNat 32 unit) (s - BitVec.ofNat 32 unit) unit)
        (d - BitVec.ofNat 32 unit)
        (s - BitVec.ofNat 32 unit)

/-- One byte. -/
theorem update_eq_blit (mem : BitVec 32 → BitVec 8) (d s : BitVec 32) :
    Function.update mem d (mem s) = blit mem d s 1 := by
  funext a
  by_cases ha : a = d
  · subst ha
    rw [Function.update_self, blit, BitVec.sub_self, if_pos (by decide), BitVec.add_zero]
  · have hpos : ¬ (a - d).toNat < 1 := by
      intro hlt
      have hzero : a - d = 0 := BitVec.eq_of_toNat_eq (Nat.lt_one_iff.1 hlt)
      exact ha (by bv_omega)
    rw [Function.update_of_ne ha, blit, if_neg hpos]

theorem moveForth_eq :
    ∀ (n : ℕ) (mem : BitVec 32 → BitVec 8) (d s : BitVec 32), moveForth n mem d s =
      copyUp 1 n mem d s := by
  intro n
  induction n with
  | zero => intro mem d s; rfl
  | succ n ih =>
      intro mem d s
      rw [moveForth, ih, update_eq_blit]
      rfl

theorem moveBack_eq :
    ∀ (n : ℕ) (mem : BitVec 32 → BitVec 8) (d s : BitVec 32), moveBack n mem d s =
      copyDown 1 n mem d s := by
  intro n
  induction n with
  | zero => intro mem d s; rfl
  | succ n ih =>
      intro mem d s
      rw [moveBack, ih, update_eq_blit]
      rfl

/-! ### The block -/

section Ranges

variable {mem : BitVec 32 → BitVec 8} {dst src n : BitVec 32}

/-- The size in words. -/
theorem words_mul (h : n % 4 = 0) : (n / 4).toNat * 4 = n.toNat := by
  have hmod : n.toNat % 4 = 0 := by
    have hnat := congrArg BitVec.toNat h
    rwa [BitVec.toNat_umod] at hnat
  rw [BitVec.toNat_udiv]
  change n.toNat / 4 * 4 = n.toNat
  omega

/-- The destination begins inside the source. -/
theorem back_iff (hs : src.toNat + n.toNat ≤ 2 ^ 32) (hd : dst.toNat + n.toNat ≤ 2 ^ 32) :
    (src < dst ∧ src + n > dst) ↔ src.toNat < dst.toNat ∧ dst.toNat < src.toNat + n.toNat := by
  rw [gt_iff_lt, BitVec.lt_def, BitVec.lt_def, BitVec.toNat_add]
  constructor
  · rintro ⟨hlt, hin⟩
    omega
  · rintro ⟨hlt, hin⟩
    omega

/-- Downwards from the ends of the two blocks. -/
theorem copyDown_ends {u k : ℕ} (hk : k * u = n.toNat) (hd : dst.toNat + n.toNat ≤ 2 ^ 32)
    (hdir : src.toNat < dst.toNat) :
    copyDown u k mem (dst + n) (src + n) = blit mem dst src n.toNat := by
  have hn : n = BitVec.ofNat 32 (k * u) := by rw [hk, BitVec.ofNat_toNat, BitVec.setWidth_eq]
  have hdown := copyDown_eq (u := u) (Nat.le_of_lt hdir) k mem (by omega)
  rw [← hn, hk] at hdown
  exact hdown

/-- **The version with the string instructions.** -/
theorem memmoveAsm_eq (hs : src.toNat + n.toNat ≤ 2 ^ 32) (hd : dst.toNat + n.toNat ≤ 2 ^ 32) :
    (memmoveAsm mem dst src n).2.mem = blit mem dst src n.toNat := by
  rw [memmoveAsm]
  dsimp only
  by_cases hback : src < dst ∧ src + n > dst
  · rw [if_pos hback]
    have hdir := ((back_iff hs hd).1 hback).1
    dsimp only
    split
    · rename_i hwords
      exact (repMovs_down 4 _ mem (dst + n) (src + n)).trans
        (copyDown_ends (words_mul hwords.2.2) hd hdir)
    · exact (repMovs_down 1 _ mem (dst + n) (src + n)).trans (copyDown_ends (Nat.mul_one _) hd hdir)
  · rw [if_neg hback]
    have hdir : dst.toNat ≤ src.toNat ∨ src.toNat + n.toNat ≤ dst.toNat := by
      rw [back_iff hs hd] at hback
      omega
    dsimp only
    split
    · rename_i hwords
      have hn := words_mul hwords.2.2
      rw [(repMovs_up 4 _ mem dst src).1, copyUp_eq _ mem (by omega) (by omega) (by omega), hn]
    · rw [(repMovs_up 1 _ mem dst src).1, copyUp_eq _ mem (by omega) (by omega) (by omega),
        Nat.mul_one]

/-- **The version in plain C.** -/
theorem memmoveC_eq (hs : src.toNat + n.toNat ≤ 2 ^ 32) (hd : dst.toNat + n.toNat ≤ 2 ^ 32) :
    (memmoveC mem dst src n).2 = blit mem dst src n.toNat := by
  rw [memmoveC]
  dsimp only
  by_cases hback : src < dst ∧ src + n > dst
  · rw [if_pos hback, moveBack_eq]
    exact copyDown_ends (Nat.mul_one _) hd ((back_iff hs hd).1 hback).1
  · rw [if_neg hback, moveForth_eq]
    have hdir : dst.toNat ≤ src.toNat ∨ src.toNat + n.toNat ≤ dst.toNat := by
      rw [back_iff hs hd] at hback
      omega
    rw [copyUp_eq _ mem (by omega) (by omega) (by omega), Nat.mul_one]

theorem blit_blockMoved : BlockMoved mem (blit mem dst src n.toNat) dst src n.toNat :=
  ⟨fun _ hi => blit_inside (Nat.le_of_lt n.isLt) hi, fun _ ha => blit_outside ha⟩

end Ranges

/-- Both versions return the destination, and the direction flag is clear afterwards. -/
theorem memmove_returns (mem : BitVec 32 → BitVec 8) (dst src n : BitVec 32) :
    (memmoveAsm mem dst src n).1 = dst ∧ (memmoveAsm mem dst src n).2.df = false ∧
    (memmoveC mem dst src n).1 = dst := by
  rw [memmoveAsm, memmoveC]
  dsimp only
  by_cases hback : src < dst ∧ src + n > dst
  · rw [if_pos hback, if_pos hback]
    exact ⟨rfl, rfl, rfl⟩
  · rw [if_neg hback, if_neg hback]
    refine ⟨rfl, ?_, rfl⟩
    dsimp only
    split
    · exact (repMovs_up 4 _ mem dst src).2
    · exact (repMovs_up 1 _ mem dst src).2

/-- **`memmove`.** -/
theorem memmove_moves (mem : BitVec 32 → BitVec 8) (dst src n : BitVec 32)
    (hs : src.toNat + n.toNat ≤ 2 ^ 32) (hd : dst.toNat + n.toNat ≤ 2 ^ 32) :
    (memmoveAsm mem dst src n).2.mem = (memmoveC mem dst src n).2 ∧
      BlockMoved mem (memmoveC mem dst src n).2 dst src n.toNat := by
  rw [memmoveAsm_eq hs hd, memmoveC_eq hs hd]
  exact ⟨rfl, blit_blockMoved⟩

/-- Eight bytes that move up by four: words, downwards. -/
theorem memmove_moves_up :
    (memmoveAsm (fun a => a.setWidth 8) 0x1004 0x1000 8).2.mem =
    (memmoveC (fun a => a.setWidth 8) 0x1004 0x1000 8).2 ∧
      BlockMoved (fun a => a.setWidth 8) (memmoveC (fun a => a.setWidth 8) 0x1004 0x1000 8).2 0x1004
        0x1000 (8 : BitVec 32).toNat :=
  memmove_moves (fun a => a.setWidth 8) 0x1004 0x1000 8 (by decide) (by decide)

end Jos
