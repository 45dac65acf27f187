/-
**Creation, duplication and release of address spaces.**

What `kern/env.c` does to the memory of an environment: `env_setup_vm` makes its page directory,
`env_cpy_vmas` and `env_cpy_pgdir_cow` copy the areas and the page tables of a parent, and
`env_free` gives everything back.

Main definitions:

* `Jos.envSetupVm` — a directory with the kernel's entries above `UTOP`;
* `Jos.envCpyVmas`, `Jos.envCpyPgdirCow`, `Jos.envDup` — fork;
* `Jos.envFreeVm` — what `env_free` does to memory.
-/

import JosKernel.Vma

set_option relaxedAutoImplicit false
set_option autoImplicit false

namespace Jos

/-! ### A new address space -/

/-- `UVPT`. -/
def uVpt : BitVec 32 := 0xef400000#32

/-- **`env_setup_vm(e)`**, with `false` for `-E_NO_MEM`. -/
def envSetupVm (s : Vm) (e : ℕ) : Except Crash (Bool × Vm) := do
  let (p, mm) ← pageAlloc s.mm allocZero
  let s := { s with mm := mm }
  match p with
  | none => pure (false, s)
  | some p =>
      let s := s.setRef p (s.ref p + 1)
      let kva ← kaddr s.mm.npages (page2pa p)
      let s := s.modSpace e fun sp => { sp with pgdir := some p }
      let s := (List.range' (pdx uTop) (nPdEntries - pdx uTop)).foldl
        (fun s i => s.setPte ⟨p, i⟩ (s.kernPgdir i)) s
      let pa ← paddr kva
      pure (true, s.setPte ⟨p, pdx uVpt⟩ (pa ||| pteP ||| pteU))

/-! ### Fork -/

/-- The loop of `env_cpy_vmas` from the parent's area `v` on. The variable `n` is not set before the
first `vma_new` that succeeds, and keeps its value when one returns `-1`. -/
def cpyVmasFrom (child parent : ℕ) : ℕ → Option ℕ → Option ℕ → Vm → Except Crash (Bool × Vm)
  | _, none, _, s => pure (true, s)
  | 0, some _, _, _ => throw .diverges
  | fuel + 1, some v, n, s => do
      let a := s.vma parent v
      let (r, s) ← s.onSpace child fun sp =>
        vmaNew sp a.va a.len a.type a.cpySrc a.srcSz a.cpyDst a.perm
      match r, n with
      | .outOfMemory, _ => pure (false, s)
      | .failed, none => throw .wildPointer
      | .failed, some n | .made n, _ =>
          let s := s.modSpace child fun sp => sp.modVma n fun w => { w with hps := a.hps }
          cpyVmasFrom child parent fuel (s.vma parent v).vmaLink (some n) s

/-- **`env_cpy_vmas(child, parent)`.** -/
def envCpyVmas (s : Vm) (child parent : ℕ) : Except Crash (Bool × Vm) :=
  cpyVmasFrom child parent nVma (s.envs parent).allocVmaList none s

/-- One page of `env_cpy_pgdir_cow`. -/
def cpyPageCow (s : Vm) (child parent : ℕ) (va : BitVec 32) : Except Crash (Bool × Vm) := do
  let pteP ← pgdirFind s (s.pgdir parent) va
  match pteP with
  | none => pure (true, s)
  | some pteP => do
      let (pteC, s) ← pgdirWalk s (s.pgdir child) va .normal
      match pteC with
      | none => pure (false, s)
      | some pteC => do
          let s := if isWritable (s.pte pteP) then
              s.writePte pteP va (pgnum (s.pte pteP)) (s.pte pteP &&& ~~~pteW) else s
          let s := s.writePte pteC va (pgnum (s.pte pteP)) (s.pte pteP)
          let pg ← pa2page s.mm.npages (pteAddr (s.pte pteP))
          pure (true, s.setRef pg (s.ref pg + 1))

/-- The inner loop of `env_cpy_pgdir_cow`: `for (va = ..; va < end; va += PGSIZE)`. -/
def cpyPagesCow (child parent : ℕ) (stop : BitVec 32) :
    ℕ → BitVec 32 → Vm → Except Crash (Bool × Vm)
  | 0, va, s => if va < stop then throw .diverges else pure (true, s)
  | fuel + 1, va, s =>
      if va < stop then do
        let (ok, s) ← cpyPageCow s child parent va
        if ok then cpyPagesCow child parent stop fuel (va + BitVec.ofNat 32 pgSize) s
        else pure (false, s)
      else pure (true, s)

/-- The number of pages of an address space, which bounds the loops over them. -/
def nPages : ℕ := 2 ^ 20

/-- The outer loop of `env_cpy_pgdir_cow`, from the parent's area `vp` on. -/
def cpyPgdirFrom (child parent : ℕ) : ℕ → Option ℕ → Vm → Except Crash (Bool × Vm)
  | _, none, s => pure (true, s)
  | 0, some _, _ => throw .diverges
  | fuel + 1, some vp, s => do
      let v := s.vma parent vp
      let (ok, s) ←
        if v.type = .anon ∨ v.type = .binary then
          cpyPagesCow child parent (v.va + v.len) nPages v.va s
        else pure (true, s)
      if ok then cpyPgdirFrom child parent fuel (s.vma parent vp).vmaLink s else pure (false, s)

/-- **`env_cpy_pgdir_cow(child, parent)`.** -/
def envCpyPgdirCow (s : Vm) (child parent : ℕ) : Except Crash (Bool × Vm) :=
  cpyPgdirFrom child parent nVma (s.envs parent).allocVmaList s

/-- **`env_dup(parent)`**, when `env_alloc` takes the slot `child`; `false` is a result of 0. -/
def envDup (s : Vm) (parent child : ℕ) : Except Crash (Bool × Vm) := do
  let (ok, s) ← envSetupVm s child
  if ¬ ok then return (false, s)
  let s := s.modSpace child fun sp => { sp with allocPages := (s.envs parent).allocPages }
  let (ok, s) ← envCpyVmas s child parent
  if ¬ ok then return (false, s)
  envCpyPgdirCow s child parent

/-! ### Release -/

/-- `page_decref(pp)`. -/
def decref (s : Vm) (pp : ℕ) : Except Crash Vm := do
  let mm ← pageDecref s.mm pp
  pure { s with mm := mm }

/-- `page_decref(pa2page(PADDR(kva)))`, for an address in the frame `pp`. -/
def decrefKva (s : Vm) (pp : ℕ) : Except Crash Vm := do
  let pa ← paddr (page2pa pp + kernBase)
  let pp ← pa2page s.mm.npages pa
  decref s pp

/-- `PGADDR(pdeno, pteno, 0)`. -/
def pgAddr (pdeno pteno : ℕ) : BitVec 32 :=
  BitVec.ofNat 32 (pdeno <<< pdxShift ||| pteno <<< pgShift)

/-- The round of `env_free` for the entry `pteno` of a page table. -/
def freePte (e pdeno pt : ℕ) (s : Vm) (pteno : ℕ) : Except Crash Vm :=
  if isPresent (s.pte ⟨pt, pteno⟩) then pageRemove s (s.pgdir e) (pgAddr pdeno pteno) else pure s

/-- The round of `env_free` for the entry `pdeno` of the directory. -/
def freePde (e dir : ℕ) (s : Vm) (pdeno : ℕ) : Except Crash Vm :=
  let pde : PtePtr := ⟨dir, pdeno⟩
  if isPresent (s.pte pde) then do
    let pa := pteAddr (s.pte pde)
    let _ ← kaddr s.mm.npages pa
    let s ← (List.range nPdEntries).foldlM (freePte e pdeno (pgnum pa)) s
    let s := s.setPte pde 0
    let pp ← pa2page s.mm.npages pa
    decref s pp
  else pure s

/-- **The memory part of `env_free(e)`.** The last reference that is dropped is the one of the frame
in which the slot of the environment lies. -/
def envFreeVm (s : Vm) (e : ℕ) : Except Crash Vm :=
  match s.pgdir e with
  | none => throw .nullDeref
  | some dir => do
      let s ← (List.range (pdx uTop)).foldlM (freePde e dir) s
      let s := s.modSpace e fun sp => { vmaProcInit sp with allocPages := 0, pgdir := none }
      let s ← decrefKva s dir
      decrefKva s (s.envFrame e)

end Jos
