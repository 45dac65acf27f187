/-
**Virtual memory areas.**

`kern/vma.c`: the descriptors of an environment's memory areas, the list of those in use, sorted by
address, the list of free ones, and the operations that create, find, split, merge, fill and remove
areas. A pointer to a descriptor is its index in the array `vmas`, and both lists are threaded
through `vma_link`.

Main definitions:

* `Jos.vmaProcInit`, `Jos.vmaNew`, `Jos.vmaLookup` — the lists of one environment;
* `Jos.vmaRemovePages`, `Jos.vmaRemoveAlloced`, `Jos.vmaSplitLookup` — removal and splitting;
* `Jos.vmaPopulate`, `Jos.vmaChangePerm` — the pages of an area;
* `Jos.vmaMerge`, `Jos.vmaListMerge` — merging.
-/

import JosKernel.PageTable

set_option relaxedAutoImplicit false
set_option autoImplicit false

namespace Jos

namespace Space

/-- Replace one descriptor. -/
def modVma (sp : Space) (i : ℕ) (f : Vma → Vma) : Space :=
  { sp with vmas := Function.update sp.vmas i (f (sp.vmas i)) }

/-- The `vma_link` field as a function of the descriptor. -/
def link (sp : Space) (i : ℕ) : Option ℕ := (sp.vmas i).vmaLink

end Space

/-! ### Descriptors -/

/-- The fields of an unused descriptor. -/
def Vma.unused (link : Option ℕ) (hps : Bool) : Vma := ⟨.unused, 0, 0, 0, link, 0, 0, 0, hps⟩

/-- `vma_proc_init(e)`. -/
def vmaProcInit (sp : Space) : Space :=
  (List.range nVma).reverse.foldl (fun sp i =>
    { sp.modVma i (fun _ => Vma.unused sp.freeVmaList false) with freeVmaList := some i })
    { sp with freeVmaList := none, allocVmaList := none }

/-- `vma_consistency_check(v, type)`. -/
def vmaConsistencyCheck (v : Vma) (type : VmaType) : Bool :=
  v.type == type &&
    match v.type with
    | .binary => v.va != 0 && v.len != 0 && v.cpySrc != 0 && v.srcSz != 0
    | .anon => v.len != 0 && v.cpySrc == 0 && v.srcSz == 0 && v.cpyDst == 0
    | .unused =>
        v.va == 0 && v.len == 0 && v.cpySrc == 0 && v.srcSz == 0 && v.cpyDst == 0 && v.perm == 0

/-- `va >= v->va && va < v->va + v->len`. -/
def Vma.covers (v : Vma) (va : BitVec 32) : Bool := v.va ≤ va ∧ va < v.va + v.len

/-! ### The two lists -/

/-- `vma_remove_head(&e->free_vma_list)`. -/
def vmaRemoveHead (sp : Space) : Option ℕ × Space :=
  match sp.freeVmaList with
  | none => (none, sp)
  | some el =>
      (some el, { sp with freeVmaList := sp.link el }.modVma el fun v => { v with vmaLink := none })

/-- `vma_insert(el, &e->alloc_vma_list, 1)`. -/
def vmaInsert (sp : Space) (el : ℕ) : Except Crash Space :=
  match sp.allocVmaList with
  | none => pure { sp.modVma el (fun v => { v with vmaLink := none }) with allocVmaList := some el }
  | some hd =>
      if (sp.vmas el).va < (sp.vmas hd).va then
        pure { sp.modVma el (fun v => { v with vmaLink := some hd }) with allocVmaList := some el }
      else
        match LinkedList.behind sp.link (fun i => (sp.vmas el).va < (sp.vmas i).va) nVma hd
          (some hd) with
        | none => throw .diverges
        | some old =>
            let sp := sp.modVma el fun v => { v with vmaLink := sp.link old }
            pure (sp.modVma old fun v => { v with vmaLink := some el })

/-- What `vma_new` returns: 1 with the new descriptor, 0 or -1. -/
inductive NewVma
  | made (i : ℕ) | outOfMemory | failed
  deriving DecidableEq, Repr

/-- **`vma_new(e, va, len, type, src, filesize, cpy_dst, perm, &vma)`.** The check of the descriptor
comes before the test for `NULL`. -/
def vmaNew (sp : Space) (va len : BitVec 32) (type : VmaType)
    (src filesize cpyDst perm : BitVec 32) :
    Except Crash (NewVma × Space) :=
  let len := roundUp len (BitVec.ofNat 32 pgSize)
  if type = .binary ∧ (src = 0 ∨ filesize = 0) then pure (.failed, sp)
  else if va % BitVec.ofNat 32 pgSize ≠ 0 then pure (.failed, sp)
  else
    match vmaRemoveHead sp with
    | (none, _) => throw .nullDeref
    | (some new, sp) =>
        if ¬ vmaConsistencyCheck (sp.vmas new) .unused then
          throw (.panic "[KERN]vma_new: vma consistency check failed")
        else do
          let sp := sp.modVma new fun v =>
            { v with type := type, va := va, len := len, perm := perm,
                     cpySrc := if type = .binary then src else v.cpySrc,
                     srcSz := filesize, cpyDst := cpyDst }
          let sp ← vmaInsert sp new
          pure (.made new, sp)

/-- An address that is not the start of a page is rejected. -/
theorem vmaNew_unaligned {va : BitVec 32} (hpage : va.toNat % 4096 ≠ 0) (sp : Space)
    (len : BitVec 32) (type : VmaType) (src filesize cpyDst perm : BitVec 32) :
    vmaNew sp va len type src filesize cpyDst perm = .ok (.failed, sp) := by
  unfold vmaNew
  dsimp only
  split
  · rfl
  · rw [if_pos (mod_pgSize_eq_zero.not.2 hpage)]
    rfl

/-- **`vma_lookup(e, va)`.** -/
def vmaLookup (sp : Space) (va : BitVec 32) : Except Crash (Option ℕ) :=
  match LinkedList.seek sp.link (fun i => (sp.vmas i).covers va) nVma none sp.allocVmaList with
  | none => throw .diverges
  | some none => pure none
  | some (some (_, i)) => pure (some i)

namespace Vm

/-- `e->env_pgdir`. -/
def pgdir (s : Vm) (e : ℕ) : Option ℕ := (s.envs e).pgdir

/-- A descriptor of an environment. -/
def vma (s : Vm) (e i : ℕ) : Vma := (s.envs e).vmas i

/-- Run an operation on the descriptors of one environment. -/
def onSpace {α : Type} (s : Vm) (e : ℕ) (f : Space → Except Crash (α × Space)) :
    Except Crash (α × Vm) := do
  let (a, sp) ← f (s.envs e)
  pure (a, s.modSpace e fun _ => sp)

end Vm

/-- `va + i * PGSIZE`. -/
def pageAt (va : BitVec 32) (i : ℕ) : BitVec 32 := va + BitVec.ofNat 32 (i * pgSize)

/-- `ROUNDUP(size, PGSIZE) / PGSIZE`. -/
def pageCount (size : BitVec 32) : ℕ := (roundUp size (BitVec.ofNat 32 pgSize)).toNat / pgSize

/-! ### Removal -/

/-- `e->env_alloc_pages -= n; assert(e->env_alloc_pages > 0);`. -/
def dropPages (s : Vm) (e : ℕ) (n : BitVec 32) : Except Crash Vm :=
  let s := s.modSpace e fun sp => { sp with allocPages := sp.allocPages - n }
  if (s.envs e).allocPages = 0 then throw (.assertFailed "e->env_alloc_pages > 0") else pure s

/-- The loop of `vma_remove_pages`, from the page `i` on. -/
def removePagesFrom (e : ℕ) (va : BitVec 32) : ℕ → ℕ → Vm → Except Crash Vm
  | 0, _, s => pure s
  | n + 1, i, s => do
      let pte ← pgdirFind s (s.pgdir e) (pageAt va i)
      match pte with
      | none => pure s
      | some pte => do
          let s ←
            if isPresent (s.pte pte) then do
              let s ← pageRemove s (s.pgdir e) (pageAt va i)
              dropPages s e (if isHuge (s.pte pte) then 1024 else 1)
            else pure s
          removePagesFrom e va n (i + 1) s

/-- **`vma_remove_pages(e, va, size)`.** -/
def vmaRemovePages (s : Vm) (e : ℕ) (va size : BitVec 32) : Except Crash Vm :=
  removePagesFrom e va (pageCount size) 0 s

/-- The end of `vma_remove_alloced`: the descriptor leaves the list behind `prev` and becomes the
head of the free list. Its `hps` stays. -/
def vmaUnlink (sp : Space) (prev i : ℕ) : Space :=
  let sp := if sp.allocVmaList = some i then { sp with allocVmaList := sp.link i } else sp
  let sp := sp.modVma prev fun v => { v with vmaLink := sp.link i }
  let sp := sp.modVma i fun v => Vma.unused sp.freeVmaList v.hps
  { sp with freeVmaList := some i }

/-- **`vma_remove_alloced(e, vmad, destroy_pages)`**: the first area in use with the address and the
length of `vmad`. -/
def vmaRemoveAlloced (s : Vm) (e vmad : ℕ) (destroyPages : Bool) : Except Crash (Bool × Vm) :=
  let sp := s.envs e
  let same := fun i => (sp.vmas i).va == (sp.vmas vmad).va && (sp.vmas i).len == (sp.vmas vmad).len
  match LinkedList.seek sp.link same nVma sp.allocVmaList sp.allocVmaList with
  | none => throw .diverges
  | some none => pure (false, s)
  | some (some (none, _)) => throw .nullDeref
  | some (some (some prev, i)) => do
      let s ← if destroyPages then vmaRemovePages s e (sp.vmas i).va (sp.vmas i).len else pure s
      pure (true, s.modSpace e fun sp => vmaUnlink sp prev i)

/-! ### Splitting -/

/-- `vma_size_check(va, size, v)`. -/
def vmaSizeCheck (va size : BitVec 32) (v : Vma) : Bool := !(v.va + v.len < va + size ∧ v.va ≤ va)

/-- `vma_new` for a part that is split off; the result is not looked at. -/
def vmaSplitOff (s : Vm) (e : ℕ) (va len : BitVec 32) (type : VmaType) (perm : BitVec 32) :
    Except Crash Vm := do
  let (_, s) ← s.onSpace e fun sp => vmaNew sp va len type 0 0 0 perm
  pure s

/-- The two cases of `vma_split_lookup`, for the area that was `old` before the call. -/
def vmaSplitParts (s : Vm) (e vmad : ℕ) (old : Vma) (va size : BitVec 32) (vmaRemove : Bool) :
    Except Crash Vm := do
  let s ←
    if old.va < va then
      let s := if vmaRemove then s else
        s.modSpace e fun sp => sp.modVma vmad fun v =>
          { v with va := va, len := v.len - (va - old.va) }
      vmaSplitOff s e old.va (va - old.va) old.type old.perm
    else pure s
  if va + size < old.va + old.len then
    let sizeTem := old.len - (va + size - old.va)
    let s := if vmaRemove then s else
      s.modSpace e fun sp => sp.modVma vmad fun v => { v with len := v.len - sizeTem }
    vmaSplitOff s e (va + size) sizeTem old.type old.perm
  else pure s

/-- **`vma_split_lookup(e, va, size, vma_remove)`**, with `none` for `NULL`. -/
def vmaSplitLookup (s : Vm) (e : ℕ) (va size : BitVec 32) (vmaRemove : Bool) :
    Except Crash (Option ℕ × Vm) := do
  let vmad ← vmaLookup (s.envs e) va
  match vmad with
  | none => pure (none, s)
  | some vmad =>
      let v := s.vma e vmad
      if ¬ vmaConsistencyCheck v v.type then
        throw (.panic "[VMA] vma_split_lookup(): vma consistency check failed")
      else if v.hps then pure (none, s)
      else if v.type ≠ .anon then pure (none, s)
      else if ¬ vmaSizeCheck va size v then pure (none, s)
      else do
        let s ← if vmaRemove then do
            let (_, s) ← vmaRemoveAlloced s e vmad true
            pure s
          else pure s
        let s ← vmaSplitParts s e vmad v va size vmaRemove
        pure (some vmad, s)

/-! ### The pages of an area -/

/-- The loop of `vma_populate`, from the page `i` on. The page that a round allocates is a variable
of an inner block, and `page_insert` gets the outer one, which is `NULL`. -/
def populateFrom (e : ℕ) (va perm : BitVec 32) (hp : Bool) : ℕ → ℕ → Vm → Except Crash (Bool × Vm)
  | 0, _, s => pure (true, s)
  | n + 1, i, s => do
      let (pg, mm) ← pageAlloc s.mm (if hp then allocHuge else 0)
      let s := { s with mm := mm }
      match pg with
      | none => pure (false, s)
      | some pg => do
          let s := if hp then s else { s with mm := lruHaInsert s.mm pg }
          let s := s.modSpace e fun sp =>
            { sp with allocPages := sp.allocPages + (if hp then 1024 else 1) }
          let (ok, s) ← pageInsert s (s.pgdir e) none
            (pageAt va (i * (if hp then kb else 1))) (perm ||| pteU)
          if ok then populateFrom e va perm hp n (i + 1) s else pure (false, s)

/-- **`vma_populate(va, size, perm, hp)`** in the environment `e`. -/
def vmaPopulate (s : Vm) (e : ℕ) (va size perm : BitVec 32) (hp : Bool) :
    Except Crash (Bool × Vm) :=
  populateFrom e va perm hp
    ((roundUp size (BitVec.ofNat 32 pgSize)).toNat / (pgSize * if hp then kb else 1))
    0 s

/-- The loop of `vma_change_perm`, from the page `i` on. -/
def changePermFrom (e : ℕ) (va perm : BitVec 32) : ℕ → ℕ → Vm → Except Crash Vm
  | 0, _, s => pure s
  | n + 1, i, s => do
      let pte ← pgdirFind s (s.pgdir e) (pageAt va i)
      match pte with
      | none => pure s
      | some pte =>
          if isPresent (s.pte pte) then do
            let pp ← pageLookup s (s.pgdir e) (pageAt va i)
            match pp with
            | none => pure s
            | some pp => do
                let (_, s) ← pageInsert s (s.pgdir e) (some pp) (pageAt va i) perm
                changePermFrom e va perm n (i + 1) s
          else changePermFrom e va perm n (i + 1) s

/-- **`vma_change_perm(v, perm)`** in the environment `e`. -/
def vmaChangePerm (s : Vm) (e v : ℕ) (perm : BitVec 32) : Except Crash Vm :=
  let s := s.modSpace e fun sp => sp.modVma v fun v => { v with perm := perm }
  changePermFrom e (s.vma e v).va perm (pageCount (s.vma e v).len) 0 s

/-! ### Merging -/

/-- `vma_merge(e, v1, v2)`, with `false` for `-1`. -/
def vmaMerge (s : Vm) (e v₁ v₂ : ℕ) : Except Crash (Bool × Vm) :=
  let s := s.modSpace e fun sp => sp.modVma v₁ fun v => { v with len := v.len + (sp.vmas v₂).len }
  vmaRemoveAlloced s e v₂ false

/-- The condition under which `vma_list_merge` merges two neighbours. -/
def Vma.mergesWith (v w : Vma) : Bool :=
  v.va + v.len == w.va && v.perm == w.perm && v.type != .binary && w.type != .binary

/-- The loop of `vma_list_merge`. A descriptor that was merged away is on the free list when its
link is followed. -/
def mergeFrom (e : ℕ) : ℕ → ℕ → Option ℕ → Vm → Except Crash (Bool × Vm)
  | _, _, none, s => pure (true, s)
  | 0, _, some _, _ => throw .diverges
  | n + 1, old, some i, s => do
      let (ok, s) ← if (s.vma e old).mergesWith (s.vma e i) then vmaMerge s e old i
          else pure (true, s)
      if ok then mergeFrom e n i (s.vma e i).vmaLink s else pure (false, s)

/-- **`vma_list_merge(e)`**, with `false` for `-1`. -/
def vmaListMerge (s : Vm) (e : ℕ) : Except Crash (Bool × Vm) :=
  match (s.envs e).allocVmaList with
  | none => pure (true, s)
  | some old => mergeFrom e (2 * nVma) old (s.vma e old).vmaLink s

end Jos
