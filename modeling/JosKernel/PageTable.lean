/-
**Address spaces and page tables.**

The memory of the environments: their VMA descriptors, their page directories and page tables, and
the functions of `kern/pmap.c` that walk and change them. Physical memory is the one of the frame
allocator, byte by byte; a directory or a table is a frame that is read in words, so nothing but an
invariant keeps a table apart from the pages of a program.

A pointer to a page table entry is a `PtePtr`, the frame and the index of the word in it. The
*history* field `written` is not in the kernel: it records every entry that is written with the
frame it was written for.

Main definitions:

* `Jos.Vma`, `Jos.Space`, `Jos.Vm` — the state;
* `Jos.pgdirFind`, `Jos.pgdirWalk` — `pgdir_walk` without and with `create`;
* `Jos.pageLookup`, `Jos.pageRemove`, `Jos.pageInsert` — the operations on one virtual page.

Main results:

* `Jos.Mm.word_setWord` — a word that is written is read back, and the others are as before.
-/

import JosKernel.Lru

set_option relaxedAutoImplicit false
set_option autoImplicit false

namespace Jos

/-! ### The state -/

-- `NVMA`, `NPDENTRIES` (also `NPTENTRIES`), `UTOP` and `USTACKTOP`.
def nVma : ℕ := 105
def nPdEntries : ℕ := 1024
def uTop : BitVec 32 := 0xeec00000#32
def uStackTop : BitVec 32 := 0xeebfe000#32

/-- The `type` of a `struct vma`. -/
inductive VmaType
  | unused | anon | binary
  deriving DecidableEq, Repr

/-- `struct vma`. -/
structure Vma where
  type : VmaType
  va : BitVec 32
  len : BitVec 32
  perm : BitVec 32
  vmaLink : Option ℕ
  cpySrc : BitVec 32
  srcSz : BitVec 32
  cpyDst : BitVec 32
  hps : Bool
  deriving DecidableEq, Repr

/-- The memory of one `struct env`: its page directory, its array of descriptors with the two lists
threaded through it, and its page counter. -/
structure Space where
  pgdir : Option ℕ
  vmas : ℕ → Vma
  allocVmaList : Option ℕ
  freeVmaList : Option ℕ
  allocPages : BitVec 32

/-- An entry written into a page table or a directory: the address it is for, the frame it is meant
to map, and the value. -/
structure PteWrite where
  va : BitVec 32
  frame : ℕ
  pte : BitVec 32
  deriving DecidableEq, Repr

/-- **The state of virtual memory.**  What the kernel never changes comes with it: `kernPgdir`, the
entries that every directory has above `UTOP`; `image`, the bytes of the programs inside the kernel;
and `envFrame`, the frame in which the slot of an environment lies. -/
structure Vm where
  mm : Mm
  envs : ℕ → Space
  kernPgdir : ℕ → BitVec 32
  image : BitVec 32 → BitVec 8
  envFrame : ℕ → ℕ
  written : List PteWrite

/-! ### Words of physical memory -/

/-- The word `i` of a frame. -/
def Mm.word (s : Mm) (f i : ℕ) : BitVec 32 :=
  s.mem f (4 * i + 3) ++ s.mem f (4 * i + 2) ++ s.mem f (4 * i + 1) ++ s.mem f (4 * i)

/-- Write the word `i` of a frame. -/
def Mm.setWord (s : Mm) (f i : ℕ) (w : BitVec 32) : Mm :=
  { s with mem := Function.update s.mem f fun o =>
      if o / 4 = i then w.extractLsb' (8 * (o % 4)) 8 else s.mem f o }

/-- A word is made of its bytes. -/
theorem extract_bytes (w : BitVec 32) :
    w.extractLsb' (8 * 3) 8 ++ w.extractLsb' (8 * 2) 8 ++ w.extractLsb' (8 * 1) 8 ++ w.extractLsb'
      (8 * 0) 8 = w := by
  ext k hk
  simp only [BitVec.getElem_append, BitVec.getElem_extractLsb']
  split
  · rw [show 8 * 0 + k = k by omega]
    exact BitVec.getLsbD_eq_getElem hk
  · split
    · rw [show 8 * 1 + (k - 8) = k by omega]
      exact BitVec.getLsbD_eq_getElem hk
    · split
      · rw [show 8 * 2 + (k - 8 - 8) = k by omega]
        exact BitVec.getLsbD_eq_getElem hk
      · rw [show 8 * 3 + (k - 8 - 8 - 8) = k by omega]
        exact BitVec.getLsbD_eq_getElem hk

theorem Mm.word_setWord_self (s : Mm) (f i : ℕ) (w : BitVec 32) :
    (s.setWord f i w).word f i = w := by
  have h0 : (4 * i) / 4 = i ∧ (4 * i) % 4 = 0 := by omega
  have h1 : (4 * i + 1) / 4 = i ∧ (4 * i + 1) % 4 = 1 := by omega
  have h2 : (4 * i + 2) / 4 = i ∧ (4 * i + 2) % 4 = 2 := by omega
  have h3 : (4 * i + 3) / 4 = i ∧ (4 * i + 3) % 4 = 3 := by omega
  simp only [Mm.word, Mm.setWord, Function.update_self, h0, h1, h2, h3, if_true]
  exact extract_bytes w

theorem Mm.word_congr {s s' : Mm} {f i : ℕ} (h : ∀ o, o / 4 = i → s'.mem f o = s.mem f o) :
    s'.word f i = s.word f i := by
  simp only [Mm.word]
  rw [h (4 * i + 3) (by omega), h (4 * i + 2) (by omega), h (4 * i + 1) (by omega),
    h (4 * i) (by omega)]

/-- **Words of memory**: a word that is written is read back, and the others are as before. -/
theorem Mm.word_setWord (s : Mm) (f i : ℕ) (w : BitVec 32) (g j : ℕ) :
    (s.setWord f i w).word g j = if g = f ∧ j = i then w else s.word g j := by
  by_cases h : g = f ∧ j = i
  · obtain ⟨rfl, rfl⟩ := h
    rw [if_pos ⟨rfl, rfl⟩, Mm.word_setWord_self]
  · rw [if_neg h]
    refine Mm.word_congr fun o ho => ?_
    by_cases hg : g = f
    · subst hg
      have hj : ¬ o / 4 = i := by rw [ho]; exact fun hj => h ⟨rfl, hj⟩
      simp [Mm.setWord, hj]
    · simp [Mm.setWord, Function.update_of_ne hg]

/-- Physical memory, given by its words. -/
def bytesOf (w : ℕ → ℕ → BitVec 32) (f o : ℕ) : BitVec 8 :=
  (w f (o / 4)).extractLsb' (8 * (o % 4)) 8

theorem Mm.word_bytesOf {m : Mm} {w : ℕ → ℕ → BitVec 32} {f : ℕ}
    (h : m.mem f = bytesOf w f) (i : ℕ) :
    m.word f i = w f i := by
  have hset : m.word f i = (m.setWord f i (w f i)).word f i := by
    refine (Mm.word_congr fun o ho => ?_).symm
    rw [h]
    simp [Mm.setWord, ho, bytesOf]
  rw [hset, Mm.word_setWord_self]

/-! ### Page table entries -/

/-- A pointer to a page table entry. -/
structure PtePtr where
  frame : ℕ
  idx : ℕ
  deriving DecidableEq, Repr

namespace Vm

/-- `*pte`. -/
def pte (s : Vm) (p : PtePtr) : BitVec 32 := s.mm.word p.frame p.idx

/-- `*pte = w`, for a value that maps nothing. -/
def setPte (s : Vm) (p : PtePtr) (w : BitVec 32) : Vm :=
  { s with mm := s.mm.setWord p.frame p.idx w }

/-- `*pte = w`, where `w` is meant to map `frame` at `va`. -/
def writePte (s : Vm) (p : PtePtr) (va : BitVec 32) (frame : ℕ) (w : BitVec 32) : Vm :=
  { s with mm := s.mm.setWord p.frame p.idx w, written := ⟨va, frame, w⟩ :: s.written }

/-- `pp->pp_ref`. -/
def ref (s : Vm) (pp : ℕ) : BitVec 16 := (s.mm.pages pp).ppRef

/-- `pp->pp_ref = n`. -/
def setRef (s : Vm) (pp : ℕ) (n : BitVec 16) : Vm :=
  { s with mm := s.mm.modPage pp fun p => { p with ppRef := n } }

/-- Replace the memory of one environment. -/
def modSpace (s : Vm) (e : ℕ) (f : Space → Space) : Vm :=
  { s with envs := Function.update s.envs e (f (s.envs e)) }

end Vm

/-- The memory of an environment with the directory in the frame `d` and no areas. -/
def Space.ofDir (d : ℕ) : Space :=
  ⟨some d, fun _ => ⟨.unused, 0, 0, 0, none, 0, 0, 0, false⟩, none, none, 0⟩

/-- A machine given by the words of its memory, with no page on any list. -/
def Vm.ofWords (npages : ℕ) (h : npages ≤ 2 ^ 20) (w : ℕ → ℕ → BitVec 32) (envs : ℕ → Space) :
    Vm where
  mm := ⟨npages, h, true, fun _ => .zero, none, 0, ⟨none, none, none, none, none, none⟩,
    0, 0, bytesOf w⟩
  envs := envs
  kernPgdir _ := 0
  image _ := 0
  envFrame _ := 0
  written := []

/-! ### Walking the page tables -/

/-- The `create` argument of `pgdir_walk`, when it is not 0. -/
inductive Create
  | normal | huge
  deriving DecidableEq, Repr

/-- The end of `pgdir_walk`: the entry of the directory, for a huge page, or the one of the table
that it leads to. -/
def walkEnd (s : Vm) (pde : PtePtr) (va : BitVec 32) (huge : Bool) : Except Crash PtePtr :=
  if huge || isHuge (s.pte pde) then pure pde
  else do
    let _ ← kaddr s.mm.npages (pteAddr (s.pte pde))
    pure ⟨pgnum (pteAddr (s.pte pde)), ptx va⟩

/-- **`pgdir_walk(pgdir, va, 0)`.** -/
def pgdirFind (s : Vm) (pgdir : Option ℕ) (va : BitVec 32) : Except Crash (Option PtePtr) :=
  match pgdir with
  | none => throw (.panic "pgdir_walk: PAGE TABLE DIRECTORY NULL")
  | some dir =>
      let pde : PtePtr := ⟨dir, pdx va⟩
      if isPresent (s.pte pde) then do
        let pte ← walkEnd s pde va false
        pure (some pte)
      else pure none

/-- **`pgdir_walk(pgdir, va, create)`**, with `create` set. -/
def pgdirWalk (s : Vm) (pgdir : Option ℕ) (va : BitVec 32) (create : Create) :
    Except Crash (Option PtePtr × Vm) :=
  match pgdir with
  | none => throw (.panic "pgdir_walk: PAGE TABLE DIRECTORY NULL")
  | some dir =>
      let pde : PtePtr := ⟨dir, pdx va⟩
      if isPresent (s.pte pde) then do
        let pte ← walkEnd s pde va (create == .huge)
        pure (some pte, s)
      else
        match create with
        | .huge => pure (some pde, s.setPte pde 0)
        | .normal => do
            let (pg, mm) ← pageAlloc s.mm allocZero
            let s := { s with mm := mm }
            match pg with
            | none => pure (none, s)
            | some pg =>
                let s := s.writePte pde va pg (page2pa pg ||| pteP ||| pteW ||| pteU)
                let s := s.setRef pg (s.ref pg + 1)
                let pte ← walkEnd s pde va false
                pure (some pte, s)

/-! ### One virtual page -/

/-- `page_lookup(pgdir, va, 0)`: the page of the entry, whether it is present or not. -/
def pageLookup (s : Vm) (pgdir : Option ℕ) (va : BitVec 32) : Except Crash (Option ℕ) := do
  if pgdir = none then throw (.panic "page_lookup: pgdir is NULL!")
  let pte ← pgdirFind s pgdir va
  match pte with
  | none => pure none
  | some pte => do
      let pp ← pa2page s.mm.npages (pteAddr (s.pte pte))
      pure (some pp)

/-- `lru_remove_el_list(pp); page_free(pp);`. -/
def releasePage (s : Vm) (pp : ℕ) : Except Crash Vm := do
  let (_, mm) ← lruRemoveElList s.mm pp
  let mm ← pageFree mm pp
  pure { s with mm := mm }

/-- **`page_remove(pgdir, va)`.** -/
def pageRemove (s : Vm) (pgdir : Option ℕ) (va : BitVec 32) : Except Crash Vm := do
  if pgdir = none then throw (.panic "page_remove: PAGE TABLE DIRECTORY NULL")
  let pp ← pageLookup s pgdir va
  match pp with
  | none => pure s
  | some pp =>
      if s.ref pp = 0 then throw (.panic "page_remove: PAGE REF COUNT ALREADY 0")
      let s := s.setRef pp (s.ref pp - 1)
      let s ← if s.ref pp = 0 then releasePage s pp else pure s
      let pte ← pgdirFind s pgdir va
      match pte with
      | none => pure s
      | some pte => pure (s.setPte pte 0)

/-- The last lines of `page_remove`. -/
def clearEntry (s : Vm) (pgdir : Option ℕ) (va : BitVec 32) : Except Crash Vm := do
  let pte ← pgdirFind s pgdir va
  match pte with
  | none => pure s
  | some pte => pure (s.setPte pte 0)

/-- **`page_insert(pgdir, pp, va, perm)`**, with `false` for `-E_NO_MEM`. -/
def pageInsert (s : Vm) (pgdir pp : Option ℕ) (va perm : BitVec 32) : Except Crash (Bool × Vm) :=
  match pgdir, pp with
  | none, _ => throw (.panic "pgdir_walk: PAGE TABLE DIRECTORY NULL")
  | _, none => throw (.panic "pgdir_walk: PAGE_INFO IS NULL")
  | some dir, some pp => do
      if isPresent perm then throw (.panic "page_insert: PTE_P already set in perms!")
      let (pte, s) ← pgdirWalk s (some dir) va (if isHuge perm then .huge else .normal)
      match pte with
      | none => pure (false, s)
      | some pte => do
          let reIns := pteAddr (s.pte pte) ≠ page2pa pp
          let s ← if isPresent (s.pte pte) ∧ reIns then pageRemove s (some dir) va else pure s
          let s := if reIns then s.setRef pp (s.ref pp + 1) else s
          pure (true, s.writePte pte va pp (page2pa pp ||| perm ||| pteP))

end Jos
