/-
**The machine words, constants and failure modes of the kernel.**

What the rest of the development takes from `inc/mmu.h`, `inc/memlayout.h`, `inc/types.h` and
`kern/pmap.h`: page sizes, the bits of a page table entry, the conversions between frame numbers,
physical and kernel virtual addresses, and the ways kernel code can stop instead of returning.

* `Jos.Crash` — a `panic`, a failed `assert`, a `NULL` or uninitialised pointer that is followed,
  a loop that does not end;
* `Jos.page2pa`, `Jos.pgnum`, `Jos.pteAddr`, `Jos.pdx`, `Jos.ptx` — the address macros;
* `Jos.paddr`, `Jos.kaddr` — `PADDR` and `KADDR` with their panics;
* `Jos.roundDown`, `Jos.roundUp` — the rounding macros, in 32-bit arithmetic.
-/

import Mathlib.Algebra.Group.Int.Defs
import Mathlib.Algebra.Group.Nat.Defs
import Mathlib.Tactic.Common

set_option relaxedAutoImplicit false
set_option autoImplicit false

namespace Jos

/-! ### How kernel code stops -/

/-- The ways a kernel function ends without returning to its caller. -/
inductive Crash
  /-- `panic(...)`, with the beginning of its message. -/
  | panic (msg : String)
  /-- `assert(...)` whose condition is false. -/
  | assertFailed (cond : String)
  /-- A `NULL` pointer is followed. -/
  | nullDeref
  /-- A pointer that was never assigned is followed. -/
  | wildPointer
  /-- A loop that never ends. -/
  | diverges
  deriving DecidableEq, Repr

/-- A computation that ends normally is made of two that do. -/
theorem bind_eq_ok {ε α β : Type} {x : Except ε α} {f : α → Except ε β} {b : β} :
    (x >>= f) = Except.ok b ↔ ∃ a, x = Except.ok a ∧ f a = Except.ok b := by
  cases x with
  | error e => simp [bind, Except.bind]
  | ok a => simp [bind, Except.bind]

/-! ### Page sizes and address fields -/

-- `PGSIZE`; `KB`, the pages of a huge page; `PGSHIFT` (also `PTXSHIFT`) and `PDXSHIFT`.
def pgSize : ℕ := 4096
def kb : ℕ := 1024
def pgShift : ℕ := 12
def pdxShift : ℕ := 22

-- All physical memory is mapped at `KERNBASE`; the I/O hole is `[IOPHYSMEM, EXTPHYSMEM)`.
def kernBase : BitVec 32 := 0xF0000000#32
def ioPhysMem : BitVec 32 := 0x0A0000#32
def extPhysMem : BitVec 32 := 0x100000#32

/-- The start of a page. -/
theorem mod_pgSize_eq_zero {va : BitVec 32} :
    va % BitVec.ofNat 32 pgSize = 0 ↔ va.toNat % 4096 = 0 := by
  rw [← BitVec.toNat_inj, BitVec.toNat_umod]
  exact Iff.rfl

/-- `PGNUM(la)`. -/
def pgnum (la : BitVec 32) : ℕ := (la >>> pgShift).toNat

/-- `PDX(la)`, the page directory index. -/
def pdx (la : BitVec 32) : ℕ := ((la >>> pdxShift) &&& 0x3FF#32).toNat

/-- `PTX(la)`, the page table index. -/
def ptx (la : BitVec 32) : ℕ := ((la >>> pgShift) &&& 0x3FF#32).toNat

/-- `PGOFF(la)`, the offset in the page. -/
def pgoff (la : BitVec 32) : ℕ := (la &&& 0xFFF#32).toNat

/-! ### Page table entries -/

-- `PTE_P`, `PTE_W`, `PTE_U`, `PTE_PS`, `PTE_G` and `PTE_AVAIL`.
def pteP : BitVec 32 := 0x001#32
def pteW : BitVec 32 := 0x002#32
def pteU : BitVec 32 := 0x004#32
def ptePS : BitVec 32 := 0x080#32
def pteG : BitVec 32 := 0x100#32
def pteAvail : BitVec 32 := 0xE00#32

-- `*pte & PTE_P`, `*pte & PTE_W`, `*pte & PTE_U` and `*pte & PTE_PS`, as conditions.
def isPresent (pte : BitVec 32) : Bool := pte &&& pteP != 0
def isWritable (pte : BitVec 32) : Bool := pte &&& pteW != 0
def isUser (pte : BitVec 32) : Bool := pte &&& pteU != 0
def isHuge (pte : BitVec 32) : Bool := pte &&& ptePS != 0

/-- An entry that records a slot of the swap area: not present and global. -/
def isSwapped (pte : BitVec 32) : Bool := !isPresent pte && pte &&& pteG != 0

/-- `PTE_ADDR(pte)`. -/
def pteAddr (pte : BitVec 32) : BitVec 32 := pte &&& ~~~0xFFF#32

/-! ### Frames and addresses -/

/-- `page2pa(pp)`: `(pp - pages) << PGSHIFT` as a 32-bit physical address. -/
def page2pa (pp : ℕ) : BitVec 32 := BitVec.ofNat 32 pp <<< pgShift

/-- `PADDR(kva)`. -/
def paddr (kva : BitVec 32) : Except Crash (BitVec 32) :=
  if kva < kernBase then throw (.panic "PADDR called with invalid kva")
  else if 0xf02a5000#32 ≤ kva ∧ kva < 0xf02a6000#32 then throw (.panic "BADBAD")
  else pure (kva - kernBase)

/-- `KADDR(pa)`. -/
def kaddr (npages : ℕ) (pa : BitVec 32) : Except Crash (BitVec 32) :=
  if npages ≤ pgnum pa then throw (.panic "KADDR called with invalid pa")
  else pure (pa + kernBase)

/-- `pa2page(pa)`. -/
def pa2page (npages : ℕ) (pa : BitVec 32) : Except Crash ℕ :=
  if npages ≤ pgnum pa then throw (.panic "pa2page called with invalid pa")
  else pure (pgnum pa)

/-! ### Rounding -/

/-- `ROUNDDOWN(a, n)`. -/
def roundDown (a n : BitVec 32) : BitVec 32 := a - a % n

/-- `ROUNDUP(a, n)`. -/
def roundUp (a n : BitVec 32) : BitVec 32 := roundDown (a + n - 1) n

/-! ### Frame numbers as addresses -/

theorem pgnum_page2pa (pp : ℕ) : pgnum (page2pa pp) = pp % 2 ^ 20 := by
  simp only [pgnum, page2pa, pgShift, BitVec.toNat_ushiftRight, BitVec.toNat_shiftLeft,
    BitVec.toNat_ofNat, Nat.shiftLeft_eq, Nat.shiftRight_eq_div_pow]
  omega

end Jos
