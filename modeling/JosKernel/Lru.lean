/-
**The lists of pages in use.**

The kernel keeps the pages it may swap out on two lists, an active and an inactive one, both
threaded through the field `lru_link` of the pages, each with a head, a tail and a counter.

Main definitions:

* `Jos.LruSide` — one of the two lists;
* `Jos.lruInsertHead`, `Jos.lruInsertTail`, `Jos.lruRemoveHead`, `Jos.lruRemoveTail`,
  `Jos.lruRemoveEl` — the five functions of `kern/pmap.c` on a list;
* `Jos.lruHaInsert`, `Jos.lruHiInsert`, `Jos.lruTaInsert`, `Jos.lruTiInsert`, `Jos.lruHaRemove`,
  `Jos.lruHiRemove`, `Jos.lruTaRemove`, `Jos.lruTiRemove`, `Jos.lruRemoveElList` — their wrappers.
-/

import JosKernel.FrameAlloc

set_option relaxedAutoImplicit false
set_option autoImplicit false

namespace Jos

/-! ### The two lists -/

/-- The two lists of `lru_lists` that pages in use are on. -/
inductive LruSide
  | active | inactive
  deriving DecidableEq, Repr

namespace Lru

/-- The head of a list. -/
def head (l : Lru) : LruSide → Option ℕ
  | .active => l.hActive
  | .inactive => l.hInactive

/-- The tail of a list. -/
def tail (l : Lru) : LruSide → Option ℕ
  | .active => l.tActive
  | .inactive => l.tInactive

/-- Replace the head of a list. -/
def setHead (l : Lru) (p : Option ℕ) : LruSide → Lru
  | .active => { l with hActive := p }
  | .inactive => { l with hInactive := p }

/-- Replace the tail of a list. -/
def setTail (l : Lru) (p : Option ℕ) : LruSide → Lru
  | .active => { l with tActive := p }
  | .inactive => { l with tInactive := p }

end Lru

namespace Mm

/-- The `lru_link` field as a function of the frame. -/
def lruLink (s : Mm) (i : ℕ) : Option ℕ := (s.pages i).lruLink

/-- `pp->lru_link = p`. -/
def setLruLink (s : Mm) (pp : ℕ) (p : Option ℕ) : Mm :=
  s.modPage pp fun q => { q with lruLink := p }

/-- The head of a list. -/
def lruHead (s : Mm) (q : LruSide) : Option ℕ := s.lruLists.head q

/-- The tail of a list. -/
def lruTail (s : Mm) (q : LruSide) : Option ℕ := s.lruLists.tail q

/-- `*head = p`. -/
def setLruHead (s : Mm) (q : LruSide) (p : Option ℕ) : Mm :=
  { s with lruLists := s.lruLists.setHead p q }

/-- `*tail = p`. -/
def setLruTail (s : Mm) (q : LruSide) (p : Option ℕ) : Mm :=
  { s with lruLists := s.lruLists.setTail p q }

/-- The counter of a list. -/
def lruCount (s : Mm) : LruSide → BitVec 32
  | .active => s.lruActiveCount
  | .inactive => s.lruInactiveCount

/-- Change the counter of a list. -/
def addLruCount (s : Mm) (n : BitVec 32) : LruSide → Mm
  | .active => { s with lruActiveCount := s.lruActiveCount + n }
  | .inactive => { s with lruInactiveCount := s.lruInactiveCount + n }

end Mm

/-! ### Insertion -/

/-- `lru_insert_head(pp, &head, &tail)`. -/
def lruInsertHead (s : Mm) (q : LruSide) (pp : ℕ) : Mm :=
  let s := if s.lruHead q = none then s.setLruTail q (some pp) else s
  (s.setLruLink pp (s.lruHead q)).setLruHead q (some pp)

/-- `lru_insert_tail(pp, &head, &tail)`. -/
def lruInsertTail (s : Mm) (q : LruSide) (pp : ℕ) : Except Crash Mm :=
  match s.lruTail q with
  | none => pure (((s.setLruTail q (some pp)).setLruHead q (some pp)).setLruLink pp none)
  | some t =>
      if s.lruLink t ≠ none then throw (.assertFailed "(*tail)->lru_link == NULL")
      else pure (((s.setLruLink t (some pp)).setLruTail q (some pp)).setLruLink pp none)

/-- `lru_ha_insert(pp)`. -/
def lruHaInsert (s : Mm) (pp : ℕ) : Mm := (lruInsertHead s .active pp).addLruCount 1 .active

/-- `lru_hi_insert(pp)`. -/
def lruHiInsert (s : Mm) (pp : ℕ) : Mm := (lruInsertHead s .inactive pp).addLruCount 1 .inactive

/-- `lru_ta_insert(pp)`: the page goes to the inactive list and is counted as active. -/
def lruTaInsert (s : Mm) (pp : ℕ) : Except Crash Mm := do
  let s ← lruInsertTail s .inactive pp
  pure (s.addLruCount 1 .active)

/-- `lru_ti_insert(pp)`. -/
def lruTiInsert (s : Mm) (pp : ℕ) : Except Crash Mm := do
  let s ← lruInsertTail s .inactive pp
  pure (s.addLruCount 1 .inactive)

/-! ### Removal -/

/-- `lru_remove_head(&p, &head, &tail)`. -/
def lruRemoveHead (s : Mm) (q : LruSide) : Except Crash (ℕ × Mm) :=
  let s := if s.lruHead q = s.lruTail q then s.setLruTail q none else s
  match s.lruHead q with
  | none => throw .nullDeref
  | some p => pure (p, s.setLruHead q (s.lruLink p))

/-- `lru_remove_tail(&p, &head, &tail)`. The loop looks for the last page of the list and cuts it
off behind the one before it, which becomes the tail. -/
def lruRemoveTail (s : Mm) (q : LruSide) : Except Crash (Option ℕ × Mm) :=
  let p := s.lruTail q
  let s := if s.lruHead q = s.lruTail q then s.setLruHead q none else s
  match LinkedList.seek s.lruLink (fun i => s.lruLink i == none) s.npages (s.lruHead q)
    (s.lruHead q) with
  | none => throw .diverges
  | some (some (some oldP, _)) => pure (p, (s.setLruLink oldP none).setLruTail q (some oldP))
  | some _ => pure (p, s.setLruTail q none)

/-- A wrapper that removes the head of a list. -/
def lruHeadRemove (s : Mm) (q : LruSide) : Except Crash (ℕ × Mm) := do
  let (p, s) ← lruRemoveHead s q
  pure (p, s.addLruCount (-1) q)

/-- A wrapper that removes the tail of a list. -/
def lruTailRemove (s : Mm) (q : LruSide) : Except Crash (Option ℕ × Mm) :=
  lruRemoveTail (s.addLruCount (-1) q) q

/-- `lru_ha_remove(&p)`. -/
def lruHaRemove (s : Mm) : Except Crash (ℕ × Mm) := lruHeadRemove s .active

/-- `lru_hi_remove(&p)`. -/
def lruHiRemove (s : Mm) : Except Crash (ℕ × Mm) := lruHeadRemove s .inactive

/-- `lru_ta_remove(&p)`. -/
def lruTaRemove (s : Mm) : Except Crash (Option ℕ × Mm) := lruTailRemove s .active

/-- `lru_ti_remove(&p)`. -/
def lruTiRemove (s : Mm) : Except Crash (Option ℕ × Mm) := lruTailRemove s .inactive

/-- `lru_remove_el(pp, &head, &tail)`. The pointer to the page before starts at the head of the
list, so the head is found and stays; the tail is never changed. -/
def lruRemoveEl (s : Mm) (q : LruSide) (pp : ℕ) : Except Crash (Bool × Mm) :=
  match LinkedList.seek s.lruLink (· == pp) s.npages (s.lruHead q) (s.lruHead q) with
  | none => throw .diverges
  | some none => pure (false, s)
  | some (some (none, _)) => throw .nullDeref
  | some (some (some oldP, p)) => pure (true, s.setLruLink oldP (s.lruLink p))

/-- **`lru_remove_el_list(pp)`**, with whether the page was found. -/
def lruRemoveElList (s : Mm) (pp : ℕ) : Except Crash (Bool × Mm) := do
  let (found, s) ← lruRemoveEl s .active pp
  if found then pure (true, s.addLruCount (-1) .active)
  else
    let (found, s) ← lruRemoveEl s .inactive pp
    if found then pure (true, s.addLruCount (-1) .inactive) else pure (false, s)

end Jos
