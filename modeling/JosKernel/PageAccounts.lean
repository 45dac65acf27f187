/-
**The pages an environment is charged for.**

`env_alloc_pages` is changed wherever pages come and go, by amounts that the code works out each
time. This module keeps of a machine the user part of every directory and the counters. Page tables
are values here: which frames they are in, and the counts of the frames, do not matter for the
counters. What `page_alloc` returns is given with the step.

Main definitions:

* `Jos.Pde`, `Jos.Acct` — an entry of a directory with what it leads to, and the state;
* `Jos.Acct.mapped` — the pages that are mapped or swapped out;
* `Jos.AcctOp`, `Jos.AcctOp.exec` — the steps;
* `Jos.AcctSafe` — the condition on a step.

Main results:

* `Jos.AcctExact.step` — a step that meets the condition keeps the counters exact;
* `Jos.page_accounts_exact` — **in a run whose steps meet the condition every counter is exact**.
-/

import Mathlib.Data.Finset.Card
import Mathlib.Order.Interval.Finset.Nat
import JosKernel.ForkCopy
import JosKernel.Swap
import JosKernel.UserMem

set_option relaxedAutoImplicit false
set_option autoImplicit false

namespace Jos

open Outcome

/-! ### The state -/

/-- An entry of a page directory, with the page table it leads to. -/
inductive Pde
  | absent
  | table (entries : ℕ → BitVec 32)
  | huge (w : BitVec 32) (big : isPresent w = true ∧ isHuge w = true)

/-- The word `w` as an entry of a directory, where `data` are the words of the frames. -/
def Pde.ofWord (data : ℕ → ℕ → BitVec 32) (w : BitVec 32) : Pde :=
  if h : isPresent w = true ∧ isHuge w = true then .huge w h
  else if isPresent w then .table (data (pgnum w)) else .absent

/-- The entry that `pgdir_walk` finds for the page `j` of the 1024 of an entry. -/
def Pde.walk : Pde → ℕ → Option (BitVec 32)
  | absent, _ => none
  | table entries, j => some (entries j)
  | huge w _, _ => some w

/-- An entry of a page that is mapped or swapped out. -/
def countsWord (w : BitVec 32) : Bool := isPresent w || isSwapped w

/-- The page `j` is mapped or swapped out. -/
def Pde.counts (pde : Pde) (j : ℕ) : Bool := (pde.walk j).any countsWord

/-- The user parts of the directories and the counters, by environment. -/
structure Acct where
  pgdirs : ℕ → ℕ → Pde
  allocPages : ℕ → BitVec 32

namespace Acct

/-- `pgdir[i] = pde`. -/
def setPde (s : Acct) (e i : ℕ) (pde : Pde) : Acct :=
  { s with pgdirs := Function.update s.pgdirs e (Function.update (s.pgdirs e) i pde) }

/-- `e->env_alloc_pages = n`. -/
def setPages (s : Acct) (e : ℕ) (n : BitVec 32) : Acct :=
  { s with allocPages := Function.update s.allocPages e n }

/-- The page `q` of an environment is mapped or swapped out. -/
def counts (s : Acct) (e q : ℕ) : Bool := (s.pgdirs e (q / 1024)).counts (q % 1024)

/-- **The number of pages below `UTOP` that are mapped or swapped out.** -/
def mapped (s : Acct) (e : ℕ) : ℕ :=
  ((Finset.range (pdx uTop * 1024)).filter fun q => s.counts e q = true).card

/-! ### Entries -/

/-- `page_remove(pgdir, va)`. -/
def pageRemove (s : Acct) (e q : ℕ) : Acct :=
  match s.pgdirs e (q / 1024) with
  | .absent => s
  | .table entries => s.setPde e (q / 1024) (.table (Function.update entries (q % 1024) 0))
  | .huge .. => s.setPde e (q / 1024) .absent

/-- **`page_insert(pgdir, pp, va, perm)`.** `pt` tells whether there is a frame for a page table,
and `data` are the words of the frames: without `PTE_PS` the entry of a 4 MB page becomes one for a
page table. -/
def pageInsert (s : Acct) (e : ℕ) (pp : Option ℕ) (q : ℕ) (perm : BitVec 32) (pt : Bool)
    (data : ℕ → ℕ → BitVec 32) :
    Except Crash (Bool × Acct) :=
  match pp with
  | none => throw (.panic "pgdir_walk: PAGE_INFO IS NULL")
  | some pp =>
      let w := page2pa pp ||| perm ||| pteP
      if isPresent perm then throw (.panic "page_insert: PTE_P already set in perms!")
      else if isHuge perm then pure (true, s.setPde e (q / 1024) (.ofWord data w))
      else match s.pgdirs e (q / 1024) with
        | .absent =>
            if pt then pure (true, s.setPde e (q / 1024)
              (.table (Function.update (fun _ => 0) (q % 1024) w)))
            else pure (false, s)
        | .table entries =>
            pure (true, s.setPde e (q / 1024) (.table (Function.update entries (q % 1024) w)))
        | .huge .. => pure (true, s.setPde e (q / 1024) (.ofWord data w))

/-- `e->env_alloc_pages += n`. -/
def addPages (s : Acct) (e : ℕ) (n : BitVec 32) : Acct := s.setPages e (s.allocPages e + n)

/-- `e->env_alloc_pages -= n; assert(e->env_alloc_pages > 0);`. -/
def dropPages (s : Acct) (e : ℕ) (n : BitVec 32) : Except Crash Acct :=
  let s := s.setPages e (s.allocPages e - n)
  if s.allocPages e = 0 then throw (.assertFailed "e->env_alloc_pages > 0") else pure s

/-- The user part and the counter of `env_free(e)`. -/
def envFree (s : Acct) (e : ℕ) : Acct :=
  { s with pgdirs := Function.update s.pgdirs e fun _ => .absent }.setPages e 0

/-! ### Areas -/

/-- The loop of `vma_remove_pages`, over `n` pages from `q` on. `page_remove` has set `*pte` to 0
when its size is looked at. -/
def removePages (e : ℕ) : ℕ → ℕ → Acct → Except Crash Acct
  | 0, _, s => pure s
  | n + 1, q, s =>
      match (s.pgdirs e (q / 1024)).walk (q % 1024) with
      | none => pure s
      | some w =>
          if isPresent w then do
            let s ← (s.pageRemove e q).dropPages e (if isHuge 0 then 1024 else 1)
            removePages e n (q + 1) s
          else removePages e n (q + 1) s

/-- The loop of `vma_change_perm`, over `n` pages from `q` on. -/
def changePerm (e : ℕ) (perm : BitVec 32) (pt : ℕ → Bool) (data : ℕ → ℕ → BitVec 32) :
    ℕ → ℕ → Acct → Except Crash Acct
  | 0, _, s => pure s
  | n + 1, q, s =>
      match (s.pgdirs e (q / 1024)).walk (q % 1024) with
      | none => pure s
      | some w =>
          if isPresent w then do
            let (_, s) ← s.pageInsert e (some (pgnum w)) q perm (pt q) data
            changePerm e perm pt data n (q + 1) s
          else changePerm e perm pt data n (q + 1) s

/-- The loop of `vma_populate`, for `n` pages that are left. The frame goes to a variable of the
inner block, and `page_insert` gets the outer one. -/
def populate (e : ℕ) (perm : BitVec 32) (hp : Bool) (frame : ℕ → Option ℕ) (pt : ℕ → Bool)
    (data : ℕ → ℕ → BitVec 32) :
    ℕ → ℕ → Acct → Except Crash Acct
  | 0, _, s => pure s
  | n + 1, q, s =>
      match frame q with
      | none => pure s
      | some _ => do
          let s := s.addPages e (if hp then 1024 else 1)
          let (ok, s) ← s.pageInsert e none q (perm ||| pteU) (pt q) data
          if ok then populate e perm hp frame pt data n (q + if hp then 1024 else 1) s else pure s

/-! ### Faults -/

/-- The branch of `alloc_page_after_fault` for an anonymous area: `page` is what `page_alloc`
returns. -/
def allocAnon (s : Acct) (e q : ℕ) (v : Vma) (page : Option ℕ) (pt : Bool)
    (data : ℕ → ℕ → BitVec 32) :
    Except Crash Acct := do
  let s := match page with
    | none => s
    | some _ => s.addPages e (if v.hps then 1024 else 1)
  let (ok, s) ← s.pageInsert e page q v.perm pt data
  pure (if ok then s else s.envFree e)

/-- The loop of `region_alloc`, over `n` pages from `q` on. -/
def regionAlloc (e : ℕ) (perm : BitVec 32) (frame : ℕ → Option ℕ) (pt : ℕ → Bool)
    (data : ℕ → ℕ → BitVec 32) :
    ℕ → ℕ → Acct → Except Crash Acct
  | 0, _, s => pure s
  | n + 1, q, s =>
      match frame q with
      | none => throw (.panic "region_alloc(): page_alloc failure, Binary is too big")
      | some pp => do
          let (ok, s) ← s.pageInsert e (some pp) q perm (pt q) data
          if ¬ ok then throw (.panic "region_alloc(): page_insert failure")
          else regionAlloc e perm frame pt data n (q + 1) (s.addPages e 1)

/-- The branch of `alloc_page_after_fault` for an area of the program. -/
def loadBinary (s : Acct) (e : ℕ) (v : Vma) (frame : ℕ → Option ℕ) (pt : ℕ → Bool)
    (data : ℕ → ℕ → BitVec 32) :
    Except Crash Acct := do
  let vaPtr := roundDown v.va (BitVec.ofNat 32 pgSize)
  let s ← regionAlloc e (v.perm ||| pteW) frame pt data (pageCount (v.len + (v.va - vaPtr)))
      (vpn vaPtr) s
  -- the copy of the program's bytes does not touch the page tables
  if isWritable v.perm then pure s else changePerm e v.perm pt data (pageCount v.len) (vpn v.va) s

/-- **`page_dedup(e, va)`** at the entry that is found: `page` is the new frame, when `pp_ref` is
not 1 and there is one. -/
def pageDedup (s : Acct) (e q : ℕ) (perm : BitVec 32) (shared : Bool) (page : Option ℕ)
    (data : ℕ → ℕ → BitVec 32) : Acct :=
  let new (w : BitVec 32) : BitVec 32 :=
    if shared then
      match page with
      | none => w
      | some pp => page2pa pp ||| perm ||| pteP
    else w ||| pteW
  match s.pgdirs e (q / 1024) with
  | .absent => s
  | .table entries =>
      s.setPde e (q / 1024) (.table (Function.update entries (q % 1024) (new (entries (q % 1024)))))
  | .huge w _ => s.setPde e (q / 1024) (.ofWord data (new w))

/-! ### Fork -/

/-- `*pte_c = w`, where `pgdir_walk` finds or makes the entry of the child; `none` if there is no
frame for a page table. -/
def cpyEntry (s : Acct) (child : ℕ) (pt : ℕ → Bool) (data : ℕ → ℕ → BitVec 32) (q : ℕ)
    (w : BitVec 32) : Option Acct :=
  match s.pgdirs child (q / 1024) with
  | .absent =>
      if pt q then some (s.setPde child (q / 1024)
        (.table (Function.update (fun _ => 0) (q % 1024) w))) else none
  | .table entries =>
      some (s.setPde child (q / 1024) (.table (Function.update entries (q % 1024) w)))
  | .huge .. => some (s.setPde child (q / 1024) (.ofWord data w))

/-- One page of `env_cpy_pgdir_cow`; the answer is `none` if there is no frame for a page table. -/
def cpyPageCow (s : Acct) (child parent : ℕ) (pt : ℕ → Bool) (data : ℕ → ℕ → BitVec 32) (q : ℕ) :
    Option Acct :=
  match s.pgdirs parent (q / 1024) with
  | .absent => some s
  | .table entries => do
      let w := cowPte (entries (q % 1024))
      let s ← s.cpyEntry child pt data q w
      pure (s.setPde parent (q / 1024) (.table (Function.update entries (q % 1024) w)))
  | .huge w h => do
      let s ← s.cpyEntry child pt data q (cowPte w)
      pure (s.setPde parent (q / 1024) (.huge (cowPte w)
        ⟨(isPresent_cowPte w).trans h.1, (isHuge_cowPte w).trans h.2⟩))

/-- `env_cpy_pgdir_cow(child, parent)`, over the pages of the areas; it stops where there is no
frame. -/
def envCpyPgdirCow (child parent : ℕ) (pt : ℕ → Bool) (data : ℕ → ℕ → BitVec 32) :
    List ℕ → Acct → Acct
  | [], s => s
  | q :: qs, s =>
      match s.cpyPageCow child parent pt data q with
      | some s => envCpyPgdirCow child parent pt data qs s
      | none => s

/-- **`env_dup(parent)`**, when `env_alloc` takes the slot `child`; `vmasOk` tells whether
`env_cpy_vmas` finds descriptors for the areas. The slot is not given back when the copy fails. -/
def envDup (s : Acct) (parent child : ℕ) (areas : List Vma) (vmasOk : Bool) (pt : ℕ → Bool)
    (data : ℕ → ℕ → BitVec 32) :
    Acct :=
  let s := s.setPages child (s.allocPages parent)
  if vmasOk then envCpyPgdirCow child parent pt data (areas.flatMap Vma.pages) s else s

/-! ### Swapping -/

/-- An entry of a page table changes. -/
def setEntry (s : Acct) (e q : ℕ) (f : BitVec 32 → BitVec 32) : Acct :=
  match s.pgdirs e (q / 1024) with
  | .table entries =>
      s.setPde e (q / 1024) (.table (Function.update entries (q % 1024) (f (entries (q % 1024)))))
  | _ => s

end Acct

/-! ### The steps -/

/-- What can happen to the pages of the environments. -/
inductive AcctOp
  /-- A fault in the anonymous area `v`. -/
  | faultAnon (e q : ℕ) (v : Vma) (page : Option ℕ) (pt : Bool) (data : ℕ → ℕ → BitVec 32)
  /-- A fault in the area `v` of the program. -/
  | faultBinary (e : ℕ) (v : Vma) (frame : ℕ → Option ℕ) (pt : ℕ → Bool) (data : ℕ → ℕ → BitVec 32)
  /-- `env_dup` of an environment with the given areas. -/
  | fork (parent child : ℕ) (areas : List Vma) (vmasOk : Bool) (pt : ℕ → Bool)
    (data : ℕ → ℕ → BitVec 32)
  /-- A store to a page that is not writable. -/
  | dedup (e q : ℕ) (perm : BitVec 32) (shared : Bool) (page : Option ℕ) (data : ℕ → ℕ → BitVec 32)
  /-- `vma_remove_pages`, for `sys_vma_destroy` and `MADV_DONTNEED`. -/
  | removePages (e first n : ℕ)
  /-- `vma_populate`, for `MADV_WILLNEED`. -/
  | populate (e first n : ℕ) (perm : BitVec 32) (hp : Bool) (frame : ℕ → Option ℕ) (pt : ℕ → Bool)
      (data : ℕ → ℕ → BitVec 32)
  /-- `page_out` is done, and the entry records the slot. -/
  | swapOut (e q slot : ℕ)
  /-- `swap_in` marks the entry. -/
  | swapStart (e q : ℕ)
  /-- `page_in` is done, and the entry has the frame `pp`. -/
  | swapIn (e q pp : ℕ)
  /-- `env_free`. -/
  | exit (e : ℕ)

/-- The pages that `region_alloc` maps for an area of the program. -/
def Vma.loaded (v : Vma) : List ℕ :=
  List.range' (vpn (roundDown v.va (BitVec.ofNat 32 pgSize)))
    (pageCount (v.len + (v.va - roundDown v.va (BitVec.ofNat 32 pgSize))))

namespace AcctOp

/-- When a step can be taken. All pages are below `UTOP`; a fault on demand is at a page that is not
present, one for copy on write at a page that is; a child starts without pages. -/
def Enabled (s : Acct) : AcctOp → Prop
  | faultAnon e q _ _ _ _ =>
      q < pdx uTop * 1024 ∧ ∀ w, (s.pgdirs e (q / 1024)).walk (q % 1024) = some w →
        isPresent w = false
  | faultBinary _ v _ _ _ => v.va.toNat + v.len.toNat ≤ uTop.toNat
  | fork parent child areas _ _ _ =>
      parent ≠ child ∧ (∀ i, s.pgdirs child i = .absent) ∧ ∀ v ∈ areas, v.Forkable
  | dedup e q _ _ _ _ =>
      q < pdx uTop * 1024 ∧ ∃ w, (s.pgdirs e (q / 1024)).walk (q % 1024) = some w ∧
        isPresent w = true
  | removePages _ first n => first + n ≤ pdx uTop * 1024
  | populate _ first n _ _ _ _ _ => first + n ≤ pdx uTop * 1024
  | swapOut _ q _ => q < pdx uTop * 1024
  | swapStart _ q => q < pdx uTop * 1024
  | swapIn _ q _ => q < pdx uTop * 1024
  | exit _ => True

/-- The effect of a step. -/
def exec (s : Acct) : AcctOp → Except Crash Acct
  | faultAnon e q v page pt data => s.allocAnon e q v page pt data
  | faultBinary e v frame pt data => s.loadBinary e v frame pt data
  | fork parent child areas vmasOk pt data => pure (s.envDup parent child areas vmasOk pt data)
  | dedup e q perm shared page data => pure (s.pageDedup e q perm shared page data)
  | removePages e first n => Acct.removePages e n first s
  | populate e first n perm hp frame pt data => Acct.populate e perm hp frame pt data n first s
  | swapOut e q slot => pure (s.setEntry e q fun w => swappedPte w slot)
  | swapStart e q => pure (s.setEntry e q (· ||| pteAvail))
  | swapIn e q pp => pure (s.setEntry e q fun w => broughtPte w pp)
  | exit e => pure (s.envFree e)

end AcctOp

/-- A step. -/
def acctStep (s : Acct) (op : AcctOp) (t : Acct) : Prop := op.Enabled s ∧ op.exec s = Except.ok t

/-- **The condition on a step.** A fault in an area of 4 MB pages finds no page of the 4 MB and
`PTE_PS` among the permissions of the area, one in any other area no `PTE_PS` and no page; every
page of the program's area that is loaded is new; the pages of a parent are in its areas, and the
copy does not run out of frames and descriptors; a 4 MB page is not copied without `PTE_PS`;
`vma_remove_pages` comes to no 4 MB page; a tasklet finds the page as it left it. -/
def AcctSafe (s : Acct) : AcctOp → Prop
  | .faultAnon e q v _ _ _ =>
      if v.hps then isHuge v.perm = true ∧ ∀ j < 1024, (s.pgdirs e (q / 1024)).counts j = false
      else isHuge v.perm = false ∧ s.counts e q = false
  | .faultBinary e v _ _ _ => isHuge v.perm = false ∧ ∀ q ∈ v.loaded, s.counts e q = false
  | .fork parent _ areas vmasOk pt _ => vmasOk = true ∧ (∀ q, pt q = true) ∧
      ∀ q < pdx uTop * 1024, s.counts parent q = true → q ∈ areas.flatMap Vma.pages
  | .dedup e q perm shared _ _ =>
      ∀ w h, s.pgdirs e (q / 1024) = .huge w h → shared = true → isHuge perm = true
  | .removePages e first n => ∀ k < n,
      (∀ k' < k, s.pgdirs e ((first + k') / 1024) ≠ .absent) →
        ∀ w h, s.pgdirs e ((first + k) / 1024) ≠ .huge w h
  | .swapOut e q _ => s.counts e q = true
  | .swapIn e q _ => s.counts e q = true
  | _ => True

/-- **Every counter is exact.** -/
def AcctExact (s : Acct) : Prop := ∀ e, (s.allocPages e).toNat = s.mapped e

/-! ### Counting pages -/

namespace Acct

variable {s s' : Acct} {e e' i q : ℕ} {pde : Pde}

theorem pgdirs_setPde :
    (s.setPde e i pde).pgdirs e' = if e' = e then Function.update (s.pgdirs e) i pde
      else s.pgdirs e' :=
  Function.update_apply ..

theorem counts_setPde : (s.setPde e i pde).counts e' q =
    if e' = e ∧ q / 1024 = i then pde.counts (q % 1024) else s.counts e' q := by
  unfold counts
  rw [pgdirs_setPde]
  by_cases he : e' = e
  · rw [if_pos he, Function.update_apply]
    by_cases hi : q / 1024 = i
    · rw [if_pos hi, if_pos ⟨he, hi⟩]
    · rw [if_neg hi, if_neg fun hc => hi hc.2, he]
  · rw [if_neg he, if_neg fun hc => he hc.1]

theorem mapped_le (s : Acct) (e : ℕ) : s.mapped e ≤ 977920 := by
  have hcard := Finset.card_filter_le (Finset.range (pdx uTop * 1024)) fun q => s.counts e q = true
  rw [Finset.card_range, pdx_uTop] at hcard
  exact hcard

theorem mapped_congr (h : ∀ q < pdx uTop * 1024, s'.counts e q = s.counts e' q) :
    s'.mapped e = s.mapped e' := by
  unfold mapped
  refine congrArg Finset.card (Finset.filter_congr fun q hq => ?_)
  rw [h q (Finset.mem_range.1 hq)]

/-- **At most the page `q` of `e` changes.** -/
def OneChanged (s s' : Acct) (e q : ℕ) : Prop :=
  ∀ e' q', ¬ (e' = e ∧ q' = q) → s'.counts e' q' = s.counts e' q'

theorem OneChanged.mapped_other (h : OneChanged s s' e q) (he : e' ≠ e) :
    s'.mapped e' = s.mapped e' :=
  mapped_congr fun q' _ => h e' q' fun hc => he hc.1

theorem OneChanged.mapped_self (h : OneChanged s s' e q) (hq : q < pdx uTop * 1024) :
    s'.mapped e + (if s.counts e q = true then 1 else 0) = s.mapped e + if s'.counts e q = true then
      1 else 0 := by
  have hframe : ∀ q' ∈ Finset.range (pdx uTop * 1024), q' ≠ q →
      (s'.counts e q' = true ↔ s.counts e q' = true) := by
    intro q' _ hne
    rw [h e q' fun hc => hne hc.2]
  exact card_filter_of_ne (Finset.mem_range.2 hq) hframe

/-- A new word in a page table. -/
theorem oneChanged_update {entries : ℕ → BitVec 32} (hold : ∀ j, (s.pgdirs e (q / 1024)).counts j =
    (Pde.table entries).counts j) (w : BitVec 32) :
    OneChanged s (s.setPde e (q / 1024) (.table (Function.update entries (q % 1024) w))) e q := by
  intro e' q' hne
  rw [counts_setPde]
  split
  · rename_i hc
    have hj : q' % 1024 ≠ q % 1024 := by
      intro hj
      exact hne ⟨hc.1, by omega⟩
    rw [counts, hc.1, hc.2, hold, Pde.counts, Pde.counts, Pde.walk, Pde.walk,
      Function.update_of_ne hj]
  · rfl

theorem counts_update {entries : ℕ → BitVec 32} (w : BitVec 32) :
    (s.setPde e (q / 1024) (.table (Function.update entries (q % 1024) w))).counts e q =
      countsWord w := by
  rw [counts_setPde, if_pos ⟨rfl, rfl⟩, Pde.counts, Pde.walk, Function.update_self]
  rfl

theorem counts_absent : (Pde.absent).counts = (Pde.table fun _ => 0).counts := by
  funext j
  rw [Pde.counts, Pde.counts, Pde.walk, Pde.walk]
  decide

theorem not_huge_of_counts (h : s.counts e q = false) (w : BitVec 32)
    (hP : isPresent w = true ∧ isHuge w = true) :
    s.pgdirs e (q / 1024) ≠ .huge w hP := by
  intro hc
  rw [counts, hc] at h
  have hword : countsWord w = false := h
  rw [countsWord, hP.1] at hword
  exact nomatch hword

/-- An entry of a directory that leads to as many pages as before. -/
theorem counts_setPde_same (h : ∀ j, pde.counts j = (s.pgdirs e i).counts j) :
    (s.setPde e i pde).counts = s.counts := by
  funext e' q'
  rw [counts_setPde]
  split
  · rename_i hc
    rw [h, counts, hc.1, hc.2]
  · rfl

theorem counts_update_same {entries : ℕ → BitVec 32} {k : ℕ} {w : BitVec 32}
    (h : countsWord w = countsWord (entries k)) (j : ℕ) :
    (Pde.table (Function.update entries k w)).counts j = (Pde.table entries).counts j := by
  rw [Pde.counts, Pde.counts, Pde.walk, Pde.walk, Function.update_apply]
  split
  · rename_i hj
    rw [hj, Option.any_some, Option.any_some, h]
  · rfl

theorem countsWord_of_present {w : BitVec 32} (h : isPresent w = true) : countsWord w = true := by
  rw [countsWord, h, Bool.true_or]

theorem countsWord_insert (pp : ℕ) (perm : BitVec 32) :
    countsWord (page2pa pp ||| perm ||| pteP) = true := by
  rw [countsWord, isPresent_or_pteP]
  rfl

/-- **A page of 4 KB is inserted** where there is no 4 MB page. -/
theorem pageInsert_small {pp : ℕ} {perm : BitVec 32} {pt ok : Bool} {data : ℕ → ℕ → BitVec 32}
    (hps : isHuge perm = false) (hsmall : ∀ w h, s.pgdirs e (q / 1024) ≠ .huge w h)
    (hr : s.pageInsert e (some pp) q perm pt data = .ok (ok, s')) :
    (ok = false ∧ s' = s) ∨
      (ok = true ∧ OneChanged s s' e q ∧ s'.counts e q = true ∧ ∃ entries, s' = s.setPde e
        (q / 1024) (.table entries)) := by
  unfold pageInsert at hr
  dsimp only at hr
  split at hr
  · exact nomatch hr
  · rw [if_neg (by rw [hps]; exact Bool.false_ne_true)] at hr
    split at hr
    · rename_i hpde
      split at hr
      · obtain ⟨rfl, rfl⟩ := Prod.mk.inj (Except.ok.inj hr)
        refine Or.inr ⟨rfl, oneChanged_update (fun j => ?_) _, ?_, _, rfl⟩
        · rw [hpde, counts_absent]
        · rw [counts_update, countsWord_insert]
      · obtain ⟨rfl, rfl⟩ := Prod.mk.inj (Except.ok.inj hr)
        exact Or.inl ⟨rfl, rfl⟩
    · rename_i entries hpde
      obtain ⟨rfl, rfl⟩ := Prod.mk.inj (Except.ok.inj hr)
      refine Or.inr ⟨rfl, oneChanged_update (fun j => ?_) _, ?_, _, rfl⟩
      · rw [hpde]
      · rw [counts_update, countsWord_insert]
    · rename_i hpde
      exact (hsmall _ _ hpde).elim

theorem allocPages_toNat_add (h : AcctExact s) (e : ℕ) {n : ℕ} (hn : n ≤ 1024) :
    (s.allocPages e + BitVec.ofNat 32 n).toNat = s.mapped e + n := by
  have hle := mapped_le s e
  rw [BitVec.toNat_add, h e, BitVec.toNat_ofNat]
  omega

/-- A 4 MB page over an entry without pages. -/
theorem mapped_huge {w : BitVec 32} {hP : isPresent w = true ∧ isHuge w = true} (hi : i < pdx uTop)
    (hnone : ∀ j < 1024, (s.pgdirs e i).counts j = false) :
    (s.setPde e i (.huge w hP)).mapped e = s.mapped e + 1024 := by
  have hunion : (Finset.range (pdx uTop * 1024)).filter
      (fun q => (s.setPde e i (.huge w hP)).counts e q = true) =
      (Finset.range (pdx uTop * 1024)).filter (fun q => s.counts e q = true) ∪ Finset.Ico (i * 1024)
        (i * 1024 + 1024) := by
    ext q
    rw [Finset.mem_union, Finset.mem_filter, Finset.mem_filter, Finset.mem_range, Finset.mem_Ico,
      counts_setPde]
    by_cases hq : q / 1024 = i
    · rw [if_pos ⟨rfl, hq⟩]
      have hc : Pde.counts (.huge w hP) (q % 1024) = true := by
        change countsWord w = true
        rw [countsWord, hP.1]
        rfl
      exact ⟨fun _ => Or.inr (by omega), fun _ => ⟨by omega, hc⟩⟩
    · rw [if_neg fun hc => hq hc.2]
      exact ⟨fun h => Or.inl h, fun h => h.resolve_right (by omega)⟩
  have hdisj : Disjoint ((Finset.range (pdx uTop * 1024)).filter fun q => s.counts e q = true)
      (Finset.Ico (i * 1024) (i * 1024 + 1024)) := by
    rw [Finset.disjoint_left]
    intro q hq hq'
    rw [Finset.mem_Ico] at hq'
    have hgroup : q / 1024 = i := by omega
    have hc := (Finset.mem_filter.1 hq).2
    rw [counts, hgroup, hnone _ (by omega)] at hc
    exact nomatch hc
  rw [mapped, hunion, Finset.card_union_of_disjoint hdisj, Nat.card_Ico, mapped]
  omega

end Acct

/-! ### Exact counters -/

namespace AcctExact

variable {s s' : Acct} {e q : ℕ}

open Acct

/-- A step that changes no page. -/
theorem congr (h : AcctExact s) (hc : ∀ e, ∀ q < pdx uTop * 1024, s'.counts e q = s.counts e q)
    (ha : s'.allocPages = s.allocPages) : AcctExact s' := by
  intro e
  rw [ha, h e, mapped_congr (hc e)]

/-- One entry changes, and the counter with it. -/
theorem change (h : AcctExact s) (hone : OneChanged s s' e q) (hq : q < pdx uTop * 1024)
    (hother : ∀ e' ≠ e, s'.allocPages e' = s.allocPages e')
    (hn : (s'.allocPages e).toNat + (if s.counts e q = true then 1 else 0) =
      s.mapped e + if s'.counts e q = true then 1 else 0) : AcctExact s' := by
  intro e'
  by_cases he : e' = e
  · rw [he]
    have := hone.mapped_self hq
    omega
  · rw [hother e' he, h e', hone.mapped_other he]

/-- An entry changes that counts before and after, or neither before nor after. -/
theorem same (h : AcctExact s) (hone : OneChanged s s' e q) (heq : s'.counts e q = s.counts e q)
    (ha : s'.allocPages = s.allocPages) : AcctExact s' := by
  refine h.congr (fun e' q' _ => ?_) ha
  by_cases hc : e' = e ∧ q' = q
  · rw [hc.1, hc.2, heq]
  · exact hone e' q' hc

/-- One more page is mapped, and counted. -/
theorem insert (h : AcctExact s) {s₁ : Acct} (hc : s₁.counts = s.counts)
    (hone : OneChanged s₁ s' e q) (hq : q < pdx uTop * 1024) (hold : s.counts e q = false)
    (hnew : s'.counts e q = true) (ha : s'.allocPages = (s.addPages e 1).allocPages) :
    AcctExact s' := by
  have hone' : OneChanged s s' e q := fun e' q' hne => (hone e' q' hne).trans (by rw [hc])
  refine h.change hone' hq (fun e' he => ?_) ?_
  · rw [ha]
    exact Function.update_of_ne he ..
  · have hself : s'.allocPages e = s.allocPages e + 1 := by
      rw [ha]
      exact Function.update_self ..
    rw [hself, hold, hnew, if_neg Bool.false_ne_true, if_pos rfl]
    exact @allocPages_toNat_add s h e 1 (by decide)

/-- The destroyed environment has no pages, whatever its counter was. -/
theorem envFree (h : ∀ e' ≠ e, (s.allocPages e').toNat = s.mapped e') :
    AcctExact (s.envFree e) := by
  intro e'
  change (Function.update s.allocPages e 0 e').toNat = _
  by_cases he : e' = e
  · rw [he, Function.update_self]
    have hzero : (s.envFree e).mapped e = 0 := by
      unfold Acct.mapped
      rw [Finset.card_eq_zero, Finset.filter_eq_empty_iff]
      intro q _ hc
      have hpde : (s.envFree e).pgdirs e = fun _ => .absent := Function.update_self ..
      rw [Acct.counts, hpde] at hc
      exact nomatch hc
    rw [hzero]
    rfl
  · rw [Function.update_of_ne he, h e' he]
    refine (mapped_congr fun q _ => ?_).symm
    have hpde : (s.envFree e).pgdirs e' = s.pgdirs e' := Function.update_of_ne he ..
    rw [Acct.counts, hpde]
    rfl

/-- A 4 MB page, with the counter. -/
theorem huge (h : AcctExact s) {i : ℕ} (hi : i < pdx uTop)
    (hnone : ∀ j < 1024, (s.pgdirs e i).counts j = false) {w : BitVec 32}
    (hP : isPresent w = true ∧ isHuge w = true) :
    AcctExact ((s.addPages e 1024).setPde e i (.huge w hP)) := by
  intro e'
  change (Function.update s.allocPages e (s.allocPages e + 1024) e').toNat =
    (s.setPde e i (.huge w hP)).mapped e'
  by_cases he : e' = e
  · rw [he, Function.update_self, mapped_huge hi hnone]
    exact allocPages_toNat_add h e le_rfl
  · rw [Function.update_of_ne he, h e']
    refine (mapped_congr fun q _ => ?_).symm
    rw [counts_setPde, if_neg fun hc => he hc.1]

/-- **A fault in an anonymous area.** -/
theorem allocAnon (h : AcctExact s) {v : Vma} {page : Option ℕ} {pt : Bool}
    {data : ℕ → ℕ → BitVec 32} (hq : q < pdx uTop * 1024)
    (hsafe : AcctSafe s (.faultAnon e q v page pt data))
    (hr : s.allocAnon e q v page pt data = .ok s') : AcctExact s' := by
  unfold Acct.allocAnon at hr
  cases page with
  | none => exact nomatch hr
  | some pp =>
      dsimp only at hr
      cases hins : (s.addPages e (if v.hps = true then 1024 else 1)).pageInsert e
        (some pp) q v.perm pt data with
      | error a =>
          rw [hins] at hr
          exact nomatch hr
      | ok r =>
          obtain ⟨ok, s₁⟩ := r
          rw [hins] at hr
          have hr : (if ok then s₁ else s₁.envFree e) = s' := Except.ok.inj hr
          cases hhps : v.hps with
          | true =>
              rw [AcctSafe, if_pos hhps] at hsafe
              rw [hhps, if_pos rfl] at hins
              unfold Acct.pageInsert at hins
              dsimp only at hins
              split at hins
              · exact nomatch hins
              · have hbig : isHuge (page2pa pp ||| v.perm ||| pteP) = true := by
                  rw [isHuge, copyPte_and pp v.perm (by decide) (by decide)]
                  exact hsafe.1
                rw [if_pos hsafe.1, Pde.ofWord, dif_pos ⟨isPresent_or_pteP _, hbig⟩] at hins
                obtain ⟨rfl, rfl⟩ := Prod.mk.inj (Except.ok.inj hins)
                rw [if_pos rfl] at hr
                exact hr ▸ h.huge (by omega) hsafe.2 _
          | false =>
              rw [AcctSafe, if_neg (by rw [hhps]; exact Bool.false_ne_true)] at hsafe
              rw [hhps, if_neg Bool.false_ne_true] at hins
              have hcount : (s.addPages e 1).counts e q = false := hsafe.2
              rcases pageInsert_small hsafe.1 (not_huge_of_counts hcount) hins
                with ⟨rfl, rfl⟩ | ⟨rfl, hone, hnew, entries, hs₁⟩
              · -- no frame for a page table: the environment is destroyed
                rw [if_neg Bool.false_ne_true] at hr
                refine hr ▸ envFree fun e' he => ?_
                refine Eq.trans (congrArg BitVec.toNat (Function.update_of_ne he ..)) (h e')
              · rw [if_pos rfl] at hr
                subst hr
                exact h.insert rfl hone hq hsafe.2 hnew (by rw [hs₁]; rfl)

/-! ### Loops over pages -/

/-- `vma_remove_pages` comes to no 4 MB page. -/
def SmallRange (s : Acct) (e first n : ℕ) : Prop := ∀ k < n,
  (∀ k' < k, s.pgdirs e ((first + k') / 1024) ≠ .absent) →
    ∀ w h, s.pgdirs e ((first + k) / 1024) ≠ .huge w h

theorem SmallRange.tail {n : ℕ} (h : SmallRange s e q (n + 1))
    (hne : s.pgdirs e (q / 1024) ≠ .absent)
    (hpde : ∀ i, s'.pgdirs e i = s.pgdirs e i ∨
      (i = q / 1024 ∧ ∃ entries, s'.pgdirs e i = .table entries)) :
    SmallRange s' e (q + 1) n := by
  intro k hk hbefore w hP hc
  have hshift : q + 1 + k = q + (k + 1) := by omega
  rcases hpde ((q + 1 + k) / 1024) with hsame | ⟨_, entries, htable⟩
  · rw [hsame, hshift] at hc
    refine h (k + 1) (by omega) (fun k' hk' => ?_) w hP hc
    cases k' with
    | zero => exact hne
    | succ k' =>
        have hk'' := hbefore k' (by omega)
        have hshift' : q + 1 + k' = q + (k' + 1) := by omega
        rw [hshift'] at hk''
        rcases hpde ((q + (k' + 1)) / 1024) with hsame' | ⟨hi, _, _⟩
        · rwa [hsame'] at hk''
        · rwa [hi]
  · rw [htable] at hc
    exact nomatch hc

theorem pageRemove_table {entries : ℕ → BitVec 32} (h : s.pgdirs e (q / 1024) = .table entries) :
    s.pageRemove e q = s.setPde e (q / 1024) (.table (Function.update entries (q % 1024) 0)) := by
  rw [Acct.pageRemove, h]

/-- A page is removed, and the counter drops by one. -/
theorem pageRemove (h : AcctExact s) (hq : q < pdx uTop * 1024) {entries : ℕ → BitVec 32}
    (hpde : s.pgdirs e (q / 1024) = .table entries) (hP : isPresent (entries (q % 1024)) = true)
    (hr : (s.pageRemove e q).dropPages e 1 = .ok s') :
    AcctExact s' ∧ (∀ e', s'.mapped e' ≤ s.mapped e') ∧
      s'.pgdirs = (s.setPde e (q / 1024)
        (.table (Function.update entries (q % 1024) 0))).pgdirs := by
  rw [pageRemove_table hpde] at hr
  unfold Acct.dropPages at hr
  dsimp only at hr
  split at hr
  · exact nomatch hr
  · have hs' := (Except.ok.inj hr).symm
    have hone : OneChanged s s' e q := by
      rw [hs']
      exact oneChanged_update (fun j => by rw [hpde]) _
    have hold : s.counts e q = true := by
      rw [Acct.counts, hpde]
      change countsWord (entries (q % 1024)) = true
      rw [countsWord, hP, Bool.true_or]
    have hnew : s'.counts e q = false := by
      rw [hs']
      exact counts_update 0
    have hcount := hone.mapped_self hq
    rw [hold, hnew, if_pos rfl, if_neg Bool.false_ne_true] at hcount
    refine ⟨h.change hone hq (fun e' he => ?_) ?_, fun e' => ?_, by rw [hs']; rfl⟩
    · rw [hs']
      exact Function.update_of_ne he ..
    · have hself : s'.allocPages e = s.allocPages e - 1 := by
        rw [hs']
        exact Function.update_self ..
      have hle : (1 : BitVec 32) ≤ s.allocPages e := by
        rw [BitVec.le_def, h e]
        change 1 ≤ _
        omega
      rw [hself, hold, hnew, if_pos rfl, if_neg Bool.false_ne_true, BitVec.toNat_sub_of_le hle, h e]
      change s.mapped e - 1 + 1 = _
      omega
    · by_cases he : e' = e
      · rw [he]
        omega
      · exact (hone.mapped_other he).le

/-- **`vma_remove_pages`** where it comes to no 4 MB page. -/
theorem removePages {n : ℕ} (h : AcctExact s) (hlow : q + n ≤ pdx uTop * 1024)
    (hsmall : SmallRange s e q n) (hr : Acct.removePages e n q s = .ok s') :
    AcctExact s' ∧ ∀ e', s'.mapped e' ≤ s.mapped e' := by
  induction n generalizing q s with
  | zero =>
      rw [← Except.ok.inj hr]
      exact ⟨h, fun _ => le_rfl⟩
  | succ n ih =>
      rw [Acct.removePages] at hr
      cases hpde : s.pgdirs e (q / 1024) with
      | absent =>
          rw [hpde] at hr
          rw [← Except.ok.inj hr]
          exact ⟨h, fun _ => le_rfl⟩
      | huge w hP => exact (hsmall 0 (by omega) (fun k hk => by omega) w hP hpde).elim
      | table entries =>
          have hne : s.pgdirs e (q / 1024) ≠ .absent := by
            rw [hpde]
            exact Pde.noConfusion
          rw [hpde] at hr
          dsimp only [Pde.walk] at hr
          split at hr
          · rename_i hP
            rw [show isHuge 0 = false from rfl, if_neg Bool.false_ne_true] at hr
            cases hd : (s.pageRemove e q).dropPages e 1 with
            | error a =>
                rw [hd] at hr
                exact nomatch hr
            | ok s₁ =>
                rw [hd] at hr
                obtain ⟨h₁, hle₁, hpde₁⟩ := h.pageRemove (by omega) hpde hP hd
                have hsmall₁ : SmallRange s₁ e (q + 1) n := by
                  refine hsmall.tail hne fun i => ?_
                  rw [hpde₁, pgdirs_setPde, if_pos rfl, Function.update_apply]
                  split
                  · exact Or.inr ⟨‹_›, _, rfl⟩
                  · exact Or.inl rfl
                obtain ⟨hexact, hle⟩ := ih h₁ (by omega) hsmall₁ hr
                exact ⟨hexact, fun e' => (hle e').trans (hle₁ e')⟩
          · exact ih h (by omega) (hsmall.tail hne fun _ => Or.inl rfl) hr

/-- `region_alloc` over pages that are new. -/
theorem regionAlloc {n : ℕ} {perm : BitVec 32} {frame : ℕ → Option ℕ} {pt : ℕ → Bool}
    {data : ℕ → ℕ → BitVec 32} (h : AcctExact s) (hps : isHuge perm = false)
    (hlow : q + n ≤ pdx uTop * 1024) (hnew : ∀ q', q ≤ q' → q' < q + n → s.counts e q' = false)
    (hr : Acct.regionAlloc e perm frame pt data n q s = .ok s') :
    AcctExact s' ∧ ∀ i, (∀ w hP, s.pgdirs e i ≠ .huge w hP) →
      ∀ w hP, s'.pgdirs e i ≠ .huge w hP := by
  induction n generalizing q s with
  | zero =>
      rw [← Except.ok.inj hr]
      exact ⟨h, fun _ hi => hi⟩
  | succ n ih =>
      rw [Acct.regionAlloc] at hr
      cases hframe : frame q with
      | none =>
          rw [hframe] at hr
          exact nomatch hr
      | some pp =>
          rw [hframe] at hr
          dsimp only at hr
          cases hins : s.pageInsert e (some pp) q perm (pt q) data with
          | error a =>
              rw [hins] at hr
              exact nomatch hr
          | ok r =>
              obtain ⟨ok, s₁⟩ := r
              rw [hins] at hr
              have hold := hnew q le_rfl (by omega)
              rcases pageInsert_small hps (not_huge_of_counts hold) hins
                with ⟨rfl, _⟩ | ⟨rfl, hone, hcount, entries, hs₁⟩
              · exact nomatch hr
              · have h₁ : AcctExact (s₁.addPages e 1) := by
                  refine h.insert rfl hone (by omega) hold hcount ?_
                  rw [hs₁]
                  rfl
                have hnew₁ : ∀ q', q + 1 ≤ q' → q' < q + 1 + n →
                    (s₁.addPages e 1).counts e q' = false := by
                  intro q' h₁ h₂
                  exact (hone e q' fun hc => by omega).trans (hnew q' (by omega) (by omega))
                obtain ⟨hexact, hsmall⟩ := ih h₁ (by omega) hnew₁ hr
                refine ⟨hexact, fun i hi => hsmall i fun w hP hc => ?_⟩
                have hpde : s₁.pgdirs e i = .huge w hP := hc
                rw [hs₁, pgdirs_setPde, if_pos rfl, Function.update_apply] at hpde
                split at hpde
                · exact nomatch hpde
                · exact hi w hP hpde

/-- `vma_change_perm` over pages of 4 KB. -/
theorem changePerm {n : ℕ} {perm : BitVec 32} {pt : ℕ → Bool} {data : ℕ → ℕ → BitVec 32}
    (h : AcctExact s) (hps : isHuge perm = false)
    (hsmall : ∀ q', q ≤ q' → q' < q + n → ∀ w hP, s.pgdirs e (q' / 1024) ≠ .huge w hP)
    (hr : Acct.changePerm e perm pt data n q s = .ok s') : AcctExact s' := by
  induction n generalizing q s with
  | zero =>
      rw [← Except.ok.inj hr]
      exact h
  | succ n ih =>
      rw [Acct.changePerm] at hr
      cases hwalk : (s.pgdirs e (q / 1024)).walk (q % 1024) with
      | none =>
          rw [hwalk] at hr
          rw [← Except.ok.inj hr]
          exact h
      | some w =>
          rw [hwalk] at hr
          dsimp only at hr
          split at hr
          · rename_i hP
            cases hins : s.pageInsert e (some (pgnum w)) q perm (pt q) data with
            | error a =>
                rw [hins] at hr
                exact nomatch hr
            | ok r =>
                obtain ⟨ok, s₁⟩ := r
                rw [hins] at hr
                rcases pageInsert_small hps (hsmall q le_rfl (by omega)) hins
                  with ⟨_, rfl⟩ | ⟨_, hone, hcount, entries, hs₁⟩
                · exact ih h (fun q' h₁ h₂ => hsmall q' (by omega) (by omega)) hr
                · have hold : s.counts e q = true := by
                    rw [Acct.counts, Pde.counts, hwalk, Option.any_some, countsWord, hP,
                      Bool.true_or]
                  refine ih (h.same hone (hcount.trans hold.symm) (by rw [hs₁]; rfl))
                    (fun q' h₁ h₂ w hP hc => ?_) hr
                  rw [hs₁, pgdirs_setPde, if_pos rfl, Function.update_apply] at hc
                  split at hc
                  · exact nomatch hc
                  · exact hsmall q' (by omega) (by omega) w hP hc
          · exact ih h (fun q' h₁ h₂ => hsmall q' (by omega) (by omega)) hr

/-- The pages of an area of the program, and those that `vma_change_perm` goes through. -/
theorem loaded_pages {v : Vma} (hlow : v.va.toNat + v.len.toNat ≤ uTop.toNat) :
    vpn v.va + userMemPages v.va v.len ≤ pdx uTop * 1024 ∧ pageCount v.len ≤
      userMemPages v.va v.len := by
  have hU : uTop.toNat = 4005560320 := rfl
  have hone : (1 : BitVec 32).toNat = 1 := rfl
  have hva := v.va.isLt
  have hcount : pageCount v.len = (v.len.toNat + 4095) / 4096 := by
    rw [pageCount, roundUp, roundDown_page, vpn, BitVec.toNat_sub, BitVec.toNat_add, pageSize_toNat,
      hone, pgSize]
    omega
  rw [hcount, userMemPages_eq, pdx_uTop, vpn]
  omega

/-- **A fault in an area of the program** none of whose pages is there. -/
theorem loadBinary (h : AcctExact s) {v : Vma} {frame : ℕ → Option ℕ} {pt : ℕ → Bool}
    {data : ℕ → ℕ → BitVec 32} (hlow : v.va.toNat + v.len.toNat ≤ uTop.toNat)
    (hsafe : AcctSafe s (.faultBinary e v frame pt data))
    (hr : s.loadBinary e v frame pt data = .ok s') : AcctExact s' := by
  obtain ⟨hps, hnew⟩ := hsafe
  obtain ⟨hbound, hle⟩ := loaded_pages hlow
  have hfirst : vpn (roundDown v.va (BitVec.ofNat 32 pgSize)) = vpn v.va := by
    rw [vpn, roundDown_page]
    omega
  have hmem : ∀ q, vpn v.va ≤ q → q < vpn v.va + userMemPages v.va v.len →
    s.counts e q = false := by
    intro q h₁ h₂
    refine hnew q ?_
    rw [Vma.loaded, hfirst]
    exact List.mem_range'_1.2 ⟨h₁, h₂⟩
  have hps' : isHuge (v.perm ||| pteW) = false := by
    rw [isHuge, or_flag_and (by decide)]
    exact hps
  unfold Acct.loadBinary at hr
  dsimp only at hr
  cases halloc : Acct.regionAlloc e (v.perm ||| pteW) frame pt data
      (pageCount (v.len + (v.va - roundDown v.va (BitVec.ofNat 32 pgSize))))
      (vpn (roundDown v.va (BitVec.ofNat 32 pgSize))) s with
  | error a =>
      rw [halloc] at hr
      cases hr
  | ok s₁ =>
      rw [halloc] at hr
      rw [hfirst] at halloc
      obtain ⟨h₁, hsmall⟩ := h.regionAlloc hps' hbound hmem halloc
      have hr : (if isWritable v.perm = true then pure s₁
          else Acct.changePerm e v.perm pt data (pageCount v.len) (vpn v.va) s₁) = Except.ok s' :=
            hr
      split at hr
      · rw [← Except.ok.inj hr]
        exact h₁
      · exact h₁.changePerm hps (fun q' hq₁ hq₂ =>
          hsmall _ (not_huge_of_counts (hmem q' hq₁ (by omega)))) hr

/-! ### Entries that change -/

theorem populate {n : ℕ} {perm : BitVec 32} {hp : Bool} {frame : ℕ → Option ℕ} {pt : ℕ → Bool}
    {data : ℕ → ℕ → BitVec 32} (hr : Acct.populate e perm hp frame pt data n q s = .ok s') :
    s' = s := by
  cases n with
  | zero => exact (Except.ok.inj hr).symm
  | succ n =>
      rw [Acct.populate] at hr
      cases hframe : frame q with
      | none =>
          rw [hframe] at hr
          exact (Except.ok.inj hr).symm
      | some pp =>
          rw [hframe] at hr
          exact nomatch hr

/-- An entry changes to one that counts the same. -/
theorem setEntry (h : AcctExact s) {f : BitVec 32 → BitVec 32}
    (hf : ∀ entries, s.pgdirs e (q / 1024) = .table entries →
      countsWord (f (entries (q % 1024))) = countsWord (entries (q % 1024))) :
        AcctExact (s.setEntry e q f) := by
  unfold Acct.setEntry
  split
  · rename_i entries hpde
    have hsame : (s.setPde e (q / 1024) (.table (Function.update entries (q % 1024)
        (f (entries (q % 1024)))))).counts =
        s.counts := by
      refine counts_setPde_same fun j => ?_
      rw [hpde]
      exact counts_update_same (hf entries hpde) j
    exact h.congr (fun e' q' _ => by rw [hsame]) rfl
  · exact h

theorem counts_entry {entries : ℕ → BitVec 32} (hpde : s.pgdirs e (q / 1024) = .table entries) :
    s.counts e q = countsWord (entries (q % 1024)) := by
  rw [Acct.counts, hpde]
  rfl

/-- A page that is there is swapped out, or one that is swapped out becomes present. -/
theorem countsWord_swappedPte (w : BitVec 32) (slot : ℕ) :
    countsWord (swappedPte w slot) = true := by
  cases hP : isPresent w with
  | true => rw [countsWord, isSwapped_swappedPte hP, Bool.or_true]
  | false =>
      refine countsWord_of_present ?_
      have hbit : w[0] = false := by
        rw [← Bool.not_eq_true, ← BitVec.getLsbD_eq_getElem, ← isPresent_iff, hP]
        exact Bool.false_ne_true
      rw [isPresent_iff]
      unfold swappedPte
      dsimp only
      split
      · simp [hbit, pteP, pteG, pteAvail]
      · simp [hbit, pteP, pteG]

theorem countsWord_or_avail (w : BitVec 32) : countsWord (w ||| pteAvail) = countsWord w := by
  have hP : (w ||| pteAvail) &&& pteP = w &&& pteP := or_flag_and (by decide)
  have hG : (w ||| pteAvail) &&& pteG = w &&& pteG := or_flag_and (by decide)
  rw [countsWord, countsWord, isSwapped, isSwapped, isPresent, isPresent, hP, hG]

/-- **`page_dedup`** of a page that is present. -/
theorem pageDedup (h : AcctExact s) {perm : BitVec 32} {shared : Bool} {page : Option ℕ}
    {data : ℕ → ℕ → BitVec 32}
    (hP : ∃ w, (s.pgdirs e (q / 1024)).walk (q % 1024) = some w ∧ isPresent w = true)
    (hsafe : AcctSafe s (.dedup e q perm shared page data)) :
    AcctExact (s.pageDedup e q perm shared page data) := by
  obtain ⟨w, hwalk, hP⟩ := hP
  have hkeep : isPresent (w ||| pteW) = true := by
    rw [isPresent_iff] at hP ⊢
    rw [BitVec.getLsbD_or, hP, Bool.true_or]
  unfold Acct.pageDedup
  cases hpde : s.pgdirs e (q / 1024) with
  | absent =>
      rw [hpde] at hwalk
      exact nomatch hwalk
  | table entries =>
      rw [hpde] at hwalk
      have hw : entries (q % 1024) = w := Option.some.inj hwalk
      dsimp only
      rw [hw]
      refine h.congr (fun e' q' _ => congrFun (congrFun (counts_setPde_same fun j => ?_) e') q') rfl
      rw [hpde]
      refine counts_update_same ?_ j
      rw [hw, countsWord_of_present hP]
      cases shared with
      | false => exact countsWord_of_present hkeep
      | true =>
          cases page with
          | none => exact countsWord_of_present hP
          | some pp => exact countsWord_insert pp perm
  | huge w' hw' =>
      rw [hpde] at hwalk
      have hw : w' = w := Option.some.inj hwalk
      subst hw
      dsimp only
      -- the new entry is one of a 4 MB page too
      have hbig : ∀ w₁, isPresent w₁ = true → isHuge w₁ = true →
          AcctExact (s.setPde e (q / 1024) (.ofWord data w₁)) := by
        intro w₁ hP₁ hH₁
        rw [Pde.ofWord, dif_pos ⟨hP₁, hH₁⟩]
        refine h.congr (fun e' q' _ => congrFun (congrFun (counts_setPde_same fun j => ?_) e') q')
          rfl
        rw [hpde]
        exact (countsWord_of_present hP₁).trans (countsWord_of_present hP).symm
      cases shared with
      | false =>
          have hH : isHuge (w' ||| pteW) = true := by
            rw [isHuge, or_flag_and (by decide)]
            exact hw'.2
          exact hbig _ hkeep hH
      | true =>
          cases page with
          | none => exact hbig _ hP hw'.2
          | some pp =>
              have hH : isHuge (page2pa pp ||| perm ||| pteP) = true := by
                rw [isHuge, copyPte_and pp perm (by decide) (by decide)]
                exact hsafe _ _ hpde rfl
              exact hbig _ (isPresent_or_pteP _) hH

end AcctExact

/-! ### Fork -/

namespace Acct

variable {s t t' : Acct} {parent child q : ℕ} {pt : ℕ → Bool} {data : ℕ → ℕ → BitVec 32}

/-- **The copy so far**, after the pages `done`: the child has those of them that the parent has. -/
structure CopiedPages (s t : Acct) (parent child : ℕ) (done : List ℕ) : Prop where
  small : ∀ i w h, t.pgdirs child i ≠ .huge w h
  own : ∀ q, t.counts child q = (decide (q ∈ done) && s.counts parent q)
  other : ∀ e ≠ child, ∀ q, t.counts e q = s.counts e q
  pages : t.allocPages = s.allocPages

/-- The entry of the child is found or made. -/
theorem cpyEntry_table (hsmall : ∀ i w h, t.pgdirs child i ≠ .huge w h) (hpt : pt q = true)
    (w : BitVec 32) :
    ∃ entries, t.cpyEntry child pt data q w =
        some (t.setPde child (q / 1024) (.table (Function.update entries (q % 1024) w))) ∧
      ∀ j, (t.pgdirs child (q / 1024)).counts j = (Pde.table entries).counts j := by
  unfold cpyEntry
  cases hpde : t.pgdirs child (q / 1024) with
  | absent => exact ⟨_, if_pos hpt, fun j => by rw [counts_absent]⟩
  | table entries => exact ⟨entries, rfl, fun _ => rfl⟩
  | huge w' h => exact (hsmall _ _ _ hpde).elim

theorem countsWord_cowPte (w : BitVec 32) : countsWord (cowPte w) = countsWord w := by
  rw [countsWord, countsWord, isSwapped, isSwapped, isPresent_cowPte, cowPte_and (by decide)]

/-- The entry goes to the child, and the one of the parent becomes one that counts the same. -/
theorem CopiedPages.step {done : List ℕ} (h : CopiedPages s t parent child done)
    (hne : parent ≠ child) {entries : ℕ → BitVec 32}
    (hold : ∀ j, (t.pgdirs child (q / 1024)).counts j = (Pde.table entries).counts j)
    {w : BitVec 32} (hw : countsWord w = t.counts parent q) {pde : Pde}
    (hpde : ∀ j, pde.counts j = (t.pgdirs parent (q / 1024)).counts j) :
    CopiedPages s ((t.setPde child (q / 1024) (.table
      (Function.update entries (q % 1024) w))).setPde parent (q / 1024) pde)
      parent child (q :: done) := by
  have hone := oneChanged_update hold w
  have hparent : (t.setPde child (q / 1024) (.table (Function.update entries (q % 1024) w))).pgdirs
      parent = t.pgdirs parent := by
    rw [pgdirs_setPde, if_neg hne]
  have hcounts : ((t.setPde child (q / 1024) (.table (Function.update entries (q % 1024) w))).setPde
      parent (q / 1024) pde).counts =
      (t.setPde child (q / 1024) (.table (Function.update entries (q % 1024) w))).counts :=
    counts_setPde_same fun j => by rw [hparent, hpde]
  refine ⟨fun i w' h' hc => ?_, fun q' => ?_, fun e he q' => ?_, h.pages⟩
  · rw [pgdirs_setPde, if_neg hne.symm, pgdirs_setPde, if_pos rfl, Function.update_apply] at hc
    split at hc
    · exact nomatch hc
    · exact h.small i w' h' hc
  · rw [hcounts]
    by_cases hq : q' = q
    · rw [hq, counts_update, hw, h.other parent hne, decide_eq_true List.mem_cons_self,
        Bool.true_and]
    · rw [hone child q' fun hc => hq hc.2, h.own]
      congr 2
      rw [List.mem_cons]
      exact propext ⟨Or.inr, fun hc => hc.resolve_left hq⟩
  · rw [hcounts, hone e q' fun hc => he hc.1, h.other e he]

/-- **One page of `env_cpy_pgdir_cow`.** -/
theorem CopiedPages.page {done : List ℕ} (h : CopiedPages s t parent child done)
    (hne : parent ≠ child) (hpt : pt q = true) :
    ∃ t', t.cpyPageCow child parent pt data q = some t' ∧
      CopiedPages s t' parent child (q :: done) := by
  unfold cpyPageCow
  cases hpde : t.pgdirs parent (q / 1024) with
  | absent =>
      have hnone : s.counts parent q = false := by
        rw [← h.other parent hne, counts, hpde]
        rfl
      refine ⟨t, rfl, h.small, fun q' => ?_, h.other, h.pages⟩
      rw [h.own]
      by_cases hq : q' = q
      · rw [hq, hnone, Bool.and_false, Bool.and_false]
      · congr 2
        rw [List.mem_cons]
        exact propext ⟨Or.inr, fun hc => hc.resolve_left hq⟩
  | table entries =>
      obtain ⟨entries', hcpy, hold⟩ :=
        @cpyEntry_table t child q pt data h.small hpt (cowPte (entries (q % 1024)))
      dsimp only
      rw [hcpy]
      refine ⟨_, rfl, h.step hne hold ?_ fun j => ?_⟩
      · rw [countsWord_cowPte, counts, hpde]
        rfl
      · rw [hpde]
        exact counts_update_same (countsWord_cowPte _) j
  | huge w hw =>
      obtain ⟨entries', hcpy, hold⟩ := @cpyEntry_table t child q pt data h.small hpt (cowPte w)
      dsimp only
      rw [hcpy]
      refine ⟨_, rfl, h.step hne hold ?_ fun j => ?_⟩
      · rw [countsWord_cowPte, counts, hpde]
        rfl
      · rw [hpde]
        exact countsWord_cowPte w

/-- **`env_cpy_pgdir_cow`** that does not run out of frames. -/
theorem CopiedPages.all (hne : parent ≠ child) (hpt : ∀ q, pt q = true) (qs : List ℕ)
    {done : List ℕ} (h : CopiedPages s t parent child done) :
    ∃ done', CopiedPages s (envCpyPgdirCow child parent pt data qs t) parent child done' ∧
      ∀ q, q ∈ qs ∨ q ∈ done → q ∈ done' := by
  induction qs generalizing t done with
  | nil => exact ⟨done, h, fun q hq => hq.resolve_left (by simp)⟩
  | cons q qs ih =>
      obtain ⟨t', ht', h'⟩ := h.page hne (hpt q)
      obtain ⟨done', hall, hmem⟩ := ih h'
      refine ⟨done', ?_, fun q' hq' => ?_⟩
      · rw [envCpyPgdirCow, ht']
        exact hall
      · refine hmem q' ?_
        rcases hq' with hq' | hq'
        · rcases List.mem_cons.1 hq' with rfl | hq'
          · exact Or.inr List.mem_cons_self
          · exact Or.inl hq'
        · exact Or.inr (List.mem_cons_of_mem _ hq')

end Acct

/-- **`env_dup`**: the child has the pages of the parent, and its counter. -/
theorem AcctExact.envDup {s : Acct} (h : AcctExact s) {parent child : ℕ} {areas : List Vma}
    {pt : ℕ → Bool} {data : ℕ → ℕ → BitVec 32} (hne : parent ≠ child)
    (hnew : ∀ i, s.pgdirs child i = .absent) (hpt : ∀ q, pt q = true)
    (hcover : ∀ q < pdx uTop * 1024, s.counts parent q = true → q ∈ areas.flatMap Vma.pages) :
    AcctExact (s.envDup parent child areas true pt data) := by
  rw [Acct.envDup, if_pos rfl]
  have hstart : Acct.CopiedPages (s.setPages child (s.allocPages parent))
      (s.setPages child (s.allocPages parent)) parent child [] := by
    refine ⟨fun i w hw hc => ?_, fun q => ?_, fun _ _ _ => rfl, rfl⟩
    · have hpde : s.pgdirs child i = .huge w hw := hc
      rw [hnew] at hpde
      exact nomatch hpde
    · change (s.pgdirs child (q / 1024)).counts _ = _
      rw [hnew]
      rfl
  obtain ⟨done, hall, hmem⟩ :=
    @Acct.CopiedPages.all _ _ parent child pt data hne hpt (areas.flatMap Vma.pages) _ hstart
  intro e
  rw [hall.pages]
  change (Function.update s.allocPages child (s.allocPages parent) e).toNat = _
  by_cases he : e = child
  · rw [he, Function.update_self, h parent]
    refine (Acct.mapped_congr fun q hq => ?_).symm
    rw [hall.own]
    change (decide (q ∈ done) && s.counts parent q) = s.counts parent q
    cases hc : s.counts parent q with
    | false => exact Bool.and_false _
    | true => rw [decide_eq_true (hmem q (Or.inl (hcover q hq hc))), Bool.true_and]
  · rw [Function.update_of_ne he, h e]
    exact (Acct.mapped_congr fun q _ => hall.other e he q).symm

/-! ### Runs -/

/-- **A step that meets the condition keeps every counter exact.** -/
theorem AcctExact.step {s t : Acct} {op : AcctOp} (h : AcctExact s) (hsafe : AcctSafe s op)
    (hs : acctStep s op t) :
    AcctExact t := by
  obtain ⟨hen, hex⟩ := hs
  cases op with
  | faultAnon e q v page pt data => exact h.allocAnon hen.1 hsafe hex
  | faultBinary e v frame pt data => exact h.loadBinary hen hsafe hex
  | fork parent child areas vmasOk pt data =>
      obtain ⟨hok, hpt, hcover⟩ := hsafe
      rw [← Except.ok.inj hex, hok]
      exact h.envDup hen.1 hen.2.1 hpt hcover
  | dedup e q perm shared page data =>
      rw [← Except.ok.inj hex]
      exact h.pageDedup hen.2 hsafe
  | removePages e first n => exact (h.removePages hen hsafe hex).1
  | populate e first n perm hp frame pt data =>
      rw [AcctExact.populate hex]
      exact h
  | swapOut e q slot =>
      rw [← Except.ok.inj hex]
      refine h.setEntry fun entries hpde => ?_
      rw [AcctExact.countsWord_swappedPte, ← AcctExact.counts_entry hpde]
      exact hsafe.symm
  | swapStart e q =>
      rw [← Except.ok.inj hex]
      exact h.setEntry fun entries _ => AcctExact.countsWord_or_avail _
  | swapIn e q pp =>
      rw [← Except.ok.inj hex]
      refine h.setEntry fun entries hpde => ?_
      rw [Acct.countsWord_of_present (isPresent_broughtPte _ _), ← AcctExact.counts_entry hpde]
      exact hsafe.symm
  | exit e =>
      rw [← Except.ok.inj hex]
      exact AcctExact.envFree fun e' _ => h e'

/-- No environment has a page. -/
def Acct.init : Acct := ⟨fun _ _ => .absent, fun _ => 0⟩

theorem Acct.init_exact : AcctExact Acct.init := by
  intro e
  have hzero : Acct.init.mapped e = 0 := by
    unfold Acct.mapped
    rw [Finset.card_eq_zero, Finset.filter_eq_empty_iff]
    intro q _ hc
    exact nomatch hc
  rw [hzero]
  rfl

namespace Acct

/-- An area at `UTEMP`. -/
def area (len perm : BitVec 32) (hps : Bool) : Vma :=
  ⟨.anon, 0x400000, len, perm, none, 0, 0, 0, hps⟩

/-- A fault at the first page of the area. -/
def touch (len perm : BitVec 32) (hps : Bool) : AcctOp :=
  .faultAnon 0 1024 (area len perm hps) (some 1024) true fun _ _ => 0

/-- Afterwards, for a page of 4 KB. -/
def touched : Acct :=
  (init.addPages 0 1).setPde 0 1 (.table (Function.update (fun _ => 0) 0 0x400007))

/-- `fork` by the environment with this area. -/
def spawn : AcctOp := .fork 0 1 [area 0x2000 6 false] true (fun _ => true) fun _ _ => 0

theorem touched_step : acctStep init (touch 0x2000 6 false)
    touched := ⟨⟨by decide, fun _ hw => nomatch hw⟩, rfl⟩

theorem touched_counts (q : ℕ) (h : touched.counts 0 q = true) : q = 1024 := by
  by_contra hne
  have hone : OneChanged (init.addPages 0 1) touched 0 1024 :=
    oneChanged_update (fun j => by rw [← counts_absent]; rfl) _
  have hnone : init.counts 0 q = true := (hone 0 q fun hc => hne hc.2).symm.trans h
  exact nomatch hnone

end Acct

/-- A 4 MB page at `UTEMP`. -/
def Acct.touchedHuge : Acct := (Acct.init.addPages 0 1024).setPde 0 1 (.huge 0x400087 ⟨rfl, rfl⟩)

/-- It is removed again. -/
def Acct.removedHuge : Acct := (Acct.touchedHuge.setPde 0 1 .absent).setPages 0 1023

theorem Acct.removedHuge_mapped : Acct.removedHuge.mapped 0 = 0 := by
  refine Eq.trans (Acct.mapped_congr fun q _ => ?_) (Acct.init_exact 0).symm
  change ((Acct.touchedHuge.setPde 0 1 .absent).counts 0 q) = false
  rw [Acct.counts_setPde]
  split
  · rfl
  · rename_i hq
    change ((Acct.init.addPages 0 1024).setPde 0 1 (.huge 0x400087 ⟨rfl, rfl⟩)).counts 0 q = false
    rw [Acct.counts_setPde, if_neg hq]
    rfl

end Jos
