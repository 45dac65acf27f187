/-
**The end of a `page_in`.**

`swap_in` of `kern/trap.c` marks the entries that record the sector of a page, in every environment
that is alive, so that a second environment waits instead of reading the page once more. It looks
for words that are equal to the entry with the fault, and the mark changes that entry as well. When
the page has been read, `page_in` takes the mark away from the entry and from the copy that it has
made of it, and only then asks the copy whether the page is shared.

Main definitions:

* `Jos.InState`, `Jos.InTask` — the state and the tasklet;
* `Jos.swapFault`, `Jos.pageInRound`, `Jos.pageInRounds`, `Jos.bringBack` — from the fault to the
  end of `page_in`;
* `Jos.Sharers` — the entries of the environments that record a sector;
* `Jos.ServesAll` — **every sharer has been served**;
* `Jos.Marks` — what marking can change.

Main results:

* `Jos.markRounds_marks` — marking;
* `Jos.bringBack_brought` — **the entry with the fault is served**, and the page has one reference;
* `Jos.servesAll_iff` — every sharer is served exactly if there is only one.
-/

import JosKernel.ReverseMap
import JosKernel.SwapFault

set_option relaxedAutoImplicit false
set_option autoImplicit false

namespace Jos

open LinkedList Outcome

/-! ### The state -/

/-- `struct tasklet` of a `page_in`. -/
structure InTask where
  sectorStart : ℕ
  count : ℕ
  pi : ℕ
  faultAddr : BitVec 32
  requestorEnv : ℕ
  deriving DecidableEq, Repr

/-- **The state in which `page_in` works**: the memory, the table of environments, the disk with the
sector that the controller transfers next, and the bitmap of the swap area. -/
structure InState where
  vm : Vm
  kern : Kernel
  disk : ℕ → ℕ → BitVec 8
  ideNext : ℕ
  swapMap : Bitmap

namespace InState

/-- `envs[x].env_status = st`. -/
def setStatus (s : InState) (x : ℕ) (st : EnvStatus) : InState :=
  { s with kern := s.kern.setStatus x st }

/-- `ide_start_read(secno, ..)`. -/
def ideStartRead (s : InState) (secno : ℕ) : InState := { s with ideNext := secno }

/-- `ide_read_sector(buf + off)`, where `buf` is the page `pp`. -/
def ideReadSector (s : InState) (pp off : ℕ) : InState :=
  { s with
    vm.mm.mem := Function.update s.vm.mm.mem pp fun i =>
      if off ≤ i ∧ i < off + sectSize then s.disk s.ideNext (i - off) else s.vm.mm.mem pp i
    ideNext := s.ideNext + 1 }

/-- `toggle_bit(swap_map, i)`. -/
def toggle (s : InState) (i : ℕ) : InState := { s with swapMap := toggleBit s.swapMap i }

end InState

/-! ### `swap_in` -/

/-- **`swap_in(fault_va, pte)`** for the environment `e`. Without a free tasklet the environment
sleeps until `drc_map` wakes it, and there is nothing more. -/
def swapInTask (s : InState) (e : ℕ) (faultVa : BitVec 32) (pte : PtePtr) :
    Except Crash (InState × Option InTask) :=
  let s := s.setStatus e .sleeping
  if s.kern.tList.length < nTasklets then do
    let vm ← (List.range' nKThreads (nEnv - nKThreads)).foldlM (markRound s.kern pte) s.vm
    let sOff := pgnum (pteAddr (vm.pte pte))
    let (pg, mm) ← pageAlloc vm.mm 0
    match pg with
    | none => throw (.panic "[KERN] swap_in(): Tried to swap in a page, but alloc failed!")
    | some pg => pure ({ s with vm := { vm with mm := mm } }, some ⟨sOff, 0, pg, faultVa, e⟩)
  else pure ({ s with kern := sleepOnDrc s.kern e }, none)

/-- The branch of `page_fault_handler` for an entry that records a sector and is not marked. -/
def swapFault (s : InState) (e : ℕ) (faultVa : BitVec 32) :
    Except Crash (InState × Option InTask) := do
  let pte ← pgdirFind s.vm (s.vm.pgdir e) faultVa
  match pte with
  | none => pure (s, none)
  | some pte =>
      if isSwapped (s.vm.pte pte) ∧ s.vm.pte pte &&& pteAvail = 0 then swapInTask s e faultVa pte
      else pure (s, none)

/-! ### `page_in` -/

/-- The round of `page_in` for the environment `i`: an entry that looks like `pre` becomes a copy of
`*p`. -/
def shareRound (status : ℕ → EnvStatus) (pre : BitVec 32) (p : PtePtr) (pi : ℕ) (s : Vm) (i : ℕ) :
    Except Crash Vm :=
  if (status i).searched then
    match s.pgdir i with
    | none => throw .nullDeref
    | some d => do
        match ← seekPteFrom s pre d nPdEntries 0 with
        | none => pure s
        | some found => pure ((s.setRef pi (s.ref pi + 1)).setPte found (s.pte p))
  else pure s

/-- The copy of the entry that `page_in` asks whether the page is shared. -/
def askedPte (pte : BitVec 32) : BitVec 32 :=
  if (pte ^^^ pteG) &&& pteAvail ≠ 0 then pte ^^^ pteAvail else pte

/-- **The last round of `page_in(t)`.** -/
def pageInEnd (s : InState) (t : InTask) : Except Crash InState := do
  let vm := s.vm.setRef t.pi (s.vm.ref t.pi + 1)
  let p ← pgdirFind vm (vm.pgdir t.requestorEnv) t.faultAddr
  match p with
  | none => throw .nullDeref
  | some p => do
      let pre := vm.pte p
      let vm : Vm := { vm with mm := lruHaInsert vm.mm t.pi }
      let vm := vm.setPte p (broughtPte (vm.pte p) t.pi)
      let vm ← if askedPte pre &&& pteAvail ≠ 0 then
          (List.range nEnv).foldlM (shareRound s.kern.status (askedPte pre) p t.pi) vm
        else pure vm
      pure ({ s with vm := vm }.setStatus t.requestorEnv .runnable)

/-- **A round of `page_in(t)`**; the answer tells whether the work is done. -/
def pageInRound (s : InState) (t : InTask) (ready : Bool) :
    Except Crash (InState × InTask × Bool) := do
  let _ ← kaddr s.vm.mm.npages (page2pa t.pi)
  let s := if t.count = 0 then s.ideStartRead t.sectorStart else s
  if t.count < nSectors then
    if ready then
      let s := s.ideReadSector t.pi (t.count * sectSize)
      pure (s.toggle (t.sectorStart + t.count), { t with count := t.count + 1 }, false)
    else pure (s, t, false)
  else do
    let s ← pageInEnd s t
    pure (s, t, true)

/-- The rounds of the tasklet `t`, with the answers of the disk, if it is done at the end. -/
def pageInRounds (s : InState) (t : InTask) : List Bool → Except Crash (Option InState)
  | [] => pure none
  | ready :: answers => do
      let (s, t, done) ← pageInRound s t ready
      if done then pure (some s) else pageInRounds s t answers

/-- **From the fault to the end of `page_in`**: the state and the page, if the page has been brought
back. -/
def bringBack (s : InState) (e : ℕ) (faultVa : BitVec 32) (answers : List Bool) :
    Except Crash (Option (InState × ℕ)) := do
  let (s, t) ← swapFault s e faultVa
  match t with
  | none => pure none
  | some t => do
      let s ← pageInRounds s t answers
      pure (s.map fun s => (s, t.pi))

/-! ### The sharers -/

/-- The environment `i` is alive. -/
def InState.Alive (s : InState) (i : ℕ) : Prop := i < nEnv ∧ (s.kern.status i).searched = true

/-- **The entry of the environment `i` for the page `q`** is the word `w`. -/
def InState.Entry (s : InState) (i q : ℕ) (w : BitVec 32) : Prop :=
  ∃ d, s.vm.pgdir i = some d ∧ s.vm.mm.leaf d q = some (w, false)

/-- An entry that records the sector `slot`. -/
def Records (w : BitVec 32) (slot : ℕ) : Prop := isSwapped w = true ∧ pgnum w = slot

/-- **The entries that record the sector `slot`** are those of `S`, as pairs of an environment and a
page. The directories of the environments and their page tables are in use, and a page table of a
user is not a directory. -/
structure Sharers (s : InState) (S : Finset (ℕ × ℕ)) (slot : ℕ) (l : List ℕ) : Prop where
  free : FreeInv s.vm.mm l
  used : ∀ i, s.Alive i → ∀ d, s.vm.pgdir i = some d → ∀ g, s.vm.mm.WalkFrame d g → g ∉ l
  apart : ∀ i, s.Alive i → ∀ d, s.vm.pgdir i = some d → ∀ k < pdx uTop, s.vm.mm.HasTable d k →
    ∀ j, s.Alive j → s.vm.pgdir j ≠ some (pgnum (s.vm.mm.word d k))
  mem : ∀ i q, (i, q) ∈ S ↔ s.Alive i ∧ q < 2 ^ 20 ∧ ∃ w, s.Entry i q w ∧ Records w slot

-- The bits of an entry between `PTE_P` and `PTE_G`.
def permBits : BitVec 32 := 0xFE#32

/-- **Every sharer has been served.** Its entry maps the page `pp` with the permissions that it had,
the page has a reference for each of them, and no entry of an environment records the sector. -/
structure ServesAll (s s' : InState) (S : Finset (ℕ × ℕ)) (slot pp : ℕ) : Prop where
  mapped : ∀ x ∈ S, ∀ w, s.Entry x.1 x.2 w →
    ∃ w', s'.Entry x.1 x.2 w' ∧ isPresent w' = true ∧ pgnum w' = pp ∧
      w' &&& permBits = w &&& permBits
  ref : (s'.vm.ref pp).toNat = S.card
  released : ∀ i, s.Alive i → ∀ q w, q < 2 ^ 20 → s'.Entry i q w → ¬ Records w slot

/-! ### The words of an entry -/

/-- A marked entry loses all bits of the mark. -/
theorem xor_or_avail (w : BitVec 32) (h : w &&& pteAvail = 0) :
    (w ||| pteAvail) ^^^ pteAvail = w := by
  apply BitVec.eq_of_getLsbD_eq
  intro i _
  have hbit : (w.getLsbD i && pteAvail.getLsbD i) = false := by
    rw [← BitVec.getLsbD_and, h]
    exact BitVec.getLsbD_zero
  rw [BitVec.getLsbD_xor, BitVec.getLsbD_or]
  cases ha : pteAvail.getLsbD i with
  | false => rw [Bool.or_false, Bool.xor_false]
  | true =>
      rw [ha, Bool.and_true] at hbit
      rw [hbit]
      rfl

/-- `PTE_G` is not part of the mark. -/
theorem xor_global_avail (w : BitVec 32) : (w ^^^ pteG) &&& pteAvail = w &&& pteAvail := by
  apply BitVec.eq_of_getLsbD_eq
  intro i hi
  rw [BitVec.getLsbD_and, BitVec.getLsbD_and, BitVec.getLsbD_xor]
  have hbits : ∀ i < 32, pteAvail.getLsbD i = true → pteG.getLsbD i = false := by decide
  cases ha : pteAvail.getLsbD i with
  | false => rw [Bool.and_false, Bool.and_false]
  | true => rw [hbits i hi ha, Bool.xor_false]

/-- **The copy of the entry looks unshared**, whether the entry had been marked or not. -/
theorem askedPte_avail {w v : BitVec 32} (hw : w &&& pteAvail = 0)
    (hv : v = w ∨ v = w ||| pteAvail) : askedPte v &&& pteAvail = 0 := by
  unfold askedPte
  rw [xor_global_avail]
  rcases hv with rfl | rfl
  · rw [if_neg (not_not_intro hw)]
    exact hw
  · rw [if_pos (or_avail_ne_zero w), xor_or_avail w hw]
    exact hw

/-- The permissions of an entry that is present again. -/
theorem broughtPte_perm (v : BitVec 32) (pp : ℕ) :
    broughtPte v pp &&& permBits = v &&& permBits := by
  have hmask : ∀ i < 32, permBits.getLsbD i = true → i < 12 ∧ (0xFFF#32).getLsbD i = true ∧
      pteG.getLsbD i = false ∧
      pteAvail.getLsbD i = false ∧ pteP.getLsbD i = false := by decide
  apply BitVec.eq_of_getLsbD_eq
  intro i hi
  rw [BitVec.getLsbD_and, BitVec.getLsbD_and]
  cases hb : permBits.getLsbD i with
  | false => rw [Bool.and_false, Bool.and_false]
  | true =>
      obtain ⟨hlow, hfff, hg, hav, hp⟩ := hmask i hi hb
      unfold broughtPte
      dsimp only
      rw [BitVec.getLsbD_or, getLsbD_page2pa_low pp hlow, BitVec.getLsbD_and, hfff,
        BitVec.getLsbD_or, hp]
      split
      · rw [BitVec.getLsbD_xor, BitVec.getLsbD_xor, hg, hav]
        simp
      · rw [BitVec.getLsbD_xor, hg]
        simp

theorem or_avail_perm (w : BitVec 32) : (w ||| pteAvail) &&& permBits = w &&& permBits := by
  have hmask : ∀ i < 32, permBits.getLsbD i = true → pteAvail.getLsbD i = false := by decide
  apply BitVec.eq_of_getLsbD_eq
  intro i hi
  rw [BitVec.getLsbD_and, BitVec.getLsbD_and, BitVec.getLsbD_or]
  cases hb : permBits.getLsbD i with
  | false => rw [Bool.and_false, Bool.and_false]
  | true => rw [hmask i hi hb, Bool.or_false]

/-! ### Marking -/

/-- The words of the frame `f` are as before, but some that were `w` are marked. -/
def Mm.MarkedIn (m m' : Mm) (w : BitVec 32) (f : ℕ) : Prop :=
  ∀ k, m'.word f k = m.word f k ∨ m.word f k = w ∧ m'.word f k = w ||| pteAvail

/-- **Some words that were `w` are marked**, and nothing else has changed. -/
structure Marks (s s' : Vm) (w : BitVec 32) : Prop where
  only : s' = { s with mm := { s.mm with mem := s'.mm.mem } }
  words : ∀ f, s.mm.MarkedIn s'.mm w f

section Marking

variable {s s₁ s' : Vm} {w : BitVec 32} {m m' : Mm} {f k : ℕ}

theorem Marks.refl (s : Vm) (w : BitVec 32) : Marks s s w := ⟨rfl, fun _ _ => Or.inl rfl⟩

theorem Marks.npages (h : Marks s s' w) : s'.mm.npages = s.mm.npages := by rw [h.only]

theorem Marks.pgdir (h : Marks s s' w) (i : ℕ) : s'.pgdir i = s.pgdir i := by rw [h.only]; rfl

/-- The words that are present have not changed. -/
theorem Mm.MarkedIn.present (h : m.MarkedIn m' w f) (hw : isSwapped w = true)
    (hP : isPresent (m.word f k) = true) :
    m'.word f k = m.word f k := by
  rcases h k with heq | ⟨heq, -⟩
  · exact heq
  · rw [heq, isPresent_of_isSwapped hw] at hP
    exact nomatch hP

theorem Mm.MarkedIn.present' (h : m.MarkedIn m' w f) (hw : isSwapped w = true)
    (hP : isPresent (m'.word f k) = true) :
    m'.word f k = m.word f k := by
  rcases h k with heq | ⟨-, heq⟩
  · exact heq
  · rw [heq, isPresent_of_isSwapped (isSwapped_or_avail hw)] at hP
    exact nomatch hP

/-- **A round of `swap_in`** marks a word that is equal to the entry with the fault. -/
theorem Marks.round (h : Marks s s₁ w) {pte : PtePtr} (hpte : s.pte pte = w)
    (kern : Kernel) (i : ℕ) :
    Ends (fun _ => True) (fun s₂ => Marks s s₂ w) (markRound kern pte s₁ i) := by
  have hv : s₁.pte pte = w ∨ s₁.pte pte = w ||| pteAvail := by
    rcases h.words pte.frame pte.idx with heq | ⟨-, heq⟩
    · exact Or.inl (heq.trans hpte)
    · exact Or.inr heq
  unfold markRound
  refine ends_ite (fun _ => ?_) fun _ => h
  cases s₁.pgdir i with
  | none => exact True.intro
  | some d =>
      dsimp only
      rw [ends_bind]
      refine (seekPteFrom_found s₁ (s₁.pte pte) d nPdEntries 0).post fun r hfound => ?_
      cases r with
      | none => exact h
      | some p =>
          have hp : s₁.mm.word p.frame p.idx = s₁.pte pte := hfound p rfl
          have hnew : s₁.pte p ||| pteAvail = w ||| pteAvail := by
            rw [show s₁.pte p = s₁.pte pte from hp]
            rcases hv with hv | hv
            · rw [hv]
            · rw [hv, or_avail_twice]
          have honly := h.only
          refine ⟨?_, fun f k => ?_⟩
          · rw [honly]
            rfl
          · rw [Vm.word_setPte, hnew]
            by_cases hself : f = p.frame ∧ k = p.idx
            · obtain ⟨rfl, rfl⟩ := hself
              rw [if_pos ⟨rfl, rfl⟩]
              rcases h.words p.frame p.idx with heq | ⟨heq, -⟩
              · rcases hv with hv | hv
                · exact Or.inr ⟨heq.symm.trans (hp.trans hv), rfl⟩
                · exact Or.inl ((heq.symm.trans (hp.trans hv)).symm)
              · exact Or.inr ⟨heq, rfl⟩
            · rw [if_neg hself]
              exact h.words f k

/-- **The loop of `swap_in`.** -/
theorem markRounds_marks {pte : PtePtr} (hpte : s.pte pte = w) (kern : Kernel) (a n : ℕ) :
    Ends (fun _ => True) (fun s' => Marks s s' w)
      ((List.range' a n).foldlM (markRound kern pte) s) :=
  ends_foldlM_range' (P := fun _ s₁ => Marks s s₁ w) (.refl s w) fun _ _ _ h => h.round hpte kern _

end Marking

/-! ### The rounds of `page_in` -/

/-- **The page `pp` is being read**: apart from its bytes the memory is as before. -/
structure Reading (s s' : InState) (pp : ℕ) : Prop where
  only : s'.vm = { s.vm with mm := { s.vm.mm with mem := s'.vm.mm.mem } }
  mem : ∀ f ≠ pp, s'.vm.mm.mem f = s.vm.mm.mem f
  kern : s'.kern = s.kern

namespace Reading

variable {s s₁ s' : InState} {pp : ℕ}

theorem refl (s : InState) (pp : ℕ) : Reading s s pp := ⟨rfl, fun _ _ => rfl, rfl⟩

theorem trans (h : Reading s s₁ pp) (h' : Reading s₁ s' pp) : Reading s s' pp := by
  refine ⟨?_, fun f hf => (h'.mem f hf).trans (h.mem f hf), h'.kern.trans h.kern⟩
  have h₁ := h.only
  have h₂ := h'.only
  rw [h₁] at h₂
  exact h₂

theorem ref (h : Reading s s' pp) (g : ℕ) : s'.vm.ref g = s.vm.ref g := by rw [h.only]; rfl

theorem pgdir (h : Reading s s' pp) (i : ℕ) : s'.vm.pgdir i = s.vm.pgdir i := by rw [h.only]; rfl

theorem npages (h : Reading s s' pp) : s'.vm.mm.npages = s.vm.mm.npages := by rw [h.only]

end Reading

section Rounds

variable {s s' : InState} {t t' : InTask}

theorem ideReadSector_reading (s : InState) (pp off : ℕ) : Reading s (s.ideReadSector pp off) pp :=
  ⟨rfl, fun _ hf => Function.update_of_ne hf _ _, rfl⟩

/-- **A round of `page_in`** reads a sector, or finishes. -/
theorem pageInRound_cases {ready done : Bool} (hrun : pageInRound s t ready = .ok (s', t', done)) :
    (done = false ∧ Reading s s' t.pi ∧ ∃ n, t' = { t with count := n }) ∨
      (done = true ∧ ∃ s₁, Reading s s₁ t.pi ∧ pageInEnd s₁ t = .ok s') := by
  obtain ⟨-, -, hrun⟩ := bind_eq_ok.1 hrun
  have hstart : Reading s (if t.count = 0 then s.ideStartRead t.sectorStart else s) t.pi := by
    split
    · exact ⟨rfl, fun _ _ => rfl, rfl⟩
    · exact .refl s t.pi
  dsimp only at hrun
  generalize (if t.count = 0 then s.ideStartRead t.sectorStart else s) = s₁ at hrun hstart
  by_cases hcount : t.count < nSectors
  · rw [if_pos hcount] at hrun
    cases ready with
    | true =>
        obtain ⟨rfl, htask⟩ := Prod.mk.inj (Except.ok.inj hrun)
        obtain ⟨rfl, rfl⟩ := Prod.mk.inj htask
        have hread := ideReadSector_reading s₁ t.pi (t.count * sectSize)
        exact Or.inl ⟨rfl, hstart.trans ⟨hread.only, hread.mem, hread.kern⟩, t.count + 1, rfl⟩
    | false =>
        obtain ⟨rfl, htask⟩ := Prod.mk.inj (Except.ok.inj hrun)
        obtain ⟨rfl, rfl⟩ := Prod.mk.inj htask
        exact Or.inl ⟨rfl, hstart, t.count, rfl⟩
  · rw [if_neg hcount] at hrun
    obtain ⟨s₂, hend, hrun⟩ := bind_eq_ok.1 hrun
    obtain ⟨rfl, htask⟩ := Prod.mk.inj (Except.ok.inj hrun)
    obtain ⟨-, rfl⟩ := Prod.mk.inj htask
    exact Or.inr ⟨rfl, s₁, hstart, hend⟩

/-- **The rounds up to the last one** read the page. -/
theorem pageInRounds_reads {answers : List Bool} (hrun : pageInRounds s t answers = .ok (some s')) :
    ∃ s₁ n, Reading s s₁ t.pi ∧ pageInEnd s₁ { t with count := n } = .ok s' := by
  induction answers generalizing s t with
  | nil => exact nomatch hrun
  | cons ready answers ih =>
      obtain ⟨⟨s₁, t₁, done⟩, hround, hrest⟩ := bind_eq_ok.1 hrun
      rcases pageInRound_cases hround with ⟨rfl, hread, n, rfl⟩ | ⟨rfl, s₂, hread, hend⟩
      · obtain ⟨s₂, n', hread', hend⟩ := ih hrest
        exact ⟨s₂, n', hread.trans hread', hend⟩
      · obtain rfl : s₁ = s' := Option.some.inj (Except.ok.inj hrest)
        exact ⟨s₂, t.count, hread, hend⟩

/-- The state after the last round, when the copy of the entry looks unshared. -/
def InState.finish (s : InState) (t : InTask) (p : PtePtr) : InState :=
  { s with
    vm := ({ s.vm.setRef t.pi (s.vm.ref t.pi + 1) with
      mm := lruHaInsert (s.vm.setRef t.pi (s.vm.ref t.pi + 1)).mm t.pi } : Vm).setPte p
      (broughtPte (s.vm.pte p) t.pi) }.setStatus t.requestorEnv .runnable

/-- **The last round**: when the copy looks unshared, no other entry is looked for. -/
theorem pageInEnd_eq {p : PtePtr}
    (hfind : pgdirFind s.vm (s.vm.pgdir t.requestorEnv) t.faultAddr = .ok (some p))
    (hasked : askedPte (s.vm.pte p) &&& pteAvail = 0) : pageInEnd s t = .ok (s.finish t p) := by
  have hsame : pgdirFind (s.vm.setRef t.pi (s.vm.ref t.pi + 1))
      ((s.vm.setRef t.pi (s.vm.ref t.pi + 1)).pgdir t.requestorEnv) t.faultAddr =
      .ok (some p) := hfind
  have hmem := (lruHaInsert_lruOnly (s.vm.setRef t.pi (s.vm.ref t.pi + 1)).mm t.pi).mem
  have hpte : ({ s.vm.setRef t.pi (s.vm.ref t.pi + 1) with
      mm := lruHaInsert (s.vm.setRef t.pi (s.vm.ref t.pi + 1)).mm t.pi } : Vm).pte p =
      s.vm.pte p := Mm.word_of_mem (congrFun hmem p.frame) p.idx
  have hasked' : ¬ askedPte ((s.vm.setRef t.pi (s.vm.ref t.pi + 1)).pte p) &&& pteAvail ≠ 0 :=
    not_not_intro hasked
  unfold pageInEnd
  dsimp only
  rw [hsame]
  refine bind_eq_ok.2 ⟨_, rfl, ?_⟩
  dsimp only
  rw [if_neg hasked', hpte]
  rfl

theorem finish_word (p : PtePtr) (f k : ℕ) : (s.finish t p).vm.mm.word f k =
    if f = p.frame ∧ k = p.idx then broughtPte (s.vm.pte p) t.pi else s.vm.mm.word f k := by
  rw [InState.finish, InState.setStatus, Vm.word_setPte]
  refine if_congr Iff.rfl rfl ?_
  exact Mm.word_of_mem
    (congrFun (lruHaInsert_lruOnly (s.vm.setRef t.pi (s.vm.ref t.pi + 1)).mm t.pi).mem f) k

theorem finish_ref (p : PtePtr) : (s.finish t p).vm.ref t.pi = s.vm.ref t.pi + 1 := by
  refine ((lruHaInsert_lruOnly (s.vm.setRef t.pi (s.vm.ref t.pi + 1)).mm t.pi).ref t.pi).trans ?_
  exact (Vm.ppRef_setRef ..).trans (if_pos rfl)

end Rounds

/-! ### From the fault to the end -/

/-- **A `page_in` is queued** for the frame `pp` of the free list, and words that were `w` are
marked. -/
structure Queued (s s' : InState) (w : BitVec 32) (pp : ℕ) (l : List ℕ) : Prop where
  fresh : pp ∈ l
  pgdir : ∀ i, s'.vm.pgdir i = s.vm.pgdir i
  npages : s'.vm.mm.npages = s.vm.mm.npages
  ref : s'.vm.ref pp = 0
  words : ∀ f ≠ pp, s.vm.mm.MarkedIn s'.vm.mm w f

/-- **The page of the entry `p` has been brought back**: its entry, and the marks that are left. -/
structure Brought (s s' : InState) (w : BitVec 32) (p : PtePtr) (pp : ℕ) : Prop where
  pgdir : ∀ i, s'.vm.pgdir i = s.vm.pgdir i
  ref : s'.vm.ref pp = 1
  entry : ∃ v, (v = w ∨ v = w ||| pteAvail) ∧ s'.vm.mm.word p.frame p.idx = broughtPte v pp
  words : ∀ f ≠ pp, ∀ k, ¬ (f = p.frame ∧ k = p.idx) →
    s'.vm.mm.word f k = s.vm.mm.word f k ∨ s.vm.mm.word f k = w ∧ s'.vm.mm.word f k = w ||| pteAvail

section Fault

variable {s s' : InState} {e d : ℕ} {va w : BitVec 32} {pte : PtePtr} {l : List ℕ} {t : InTask}

/-- The machine after the marks has the same free list. -/
theorem Marks.freeInv {s s' : Vm} (h : Marks s s' w) (hf : FreeInv s.mm l) : FreeInv s'.mm l := by
  rw [h.only]
  exact hf.congr rfl rfl rfl fun _ _ => ⟨rfl, rfl⟩

/-- **`swap_in`** queues a `page_in` for a frame of the free list. -/
theorem swapInTask_queued (hf : FreeInv s.vm.mm l) (hpte : s.vm.pte pte = w)
    (hrun : swapInTask s e va pte = .ok (s', some t)) :
    t.requestorEnv = e ∧ t.faultAddr = va ∧ Queued s s' w t.pi l := by
  unfold swapInTask at hrun
  dsimp only at hrun
  split at hrun
  · obtain ⟨vm, hmark, hrun⟩ := bind_eq_ok.1 hrun
    obtain ⟨⟨pg, mm⟩, halloc, hrun⟩ := bind_eq_ok.1 hrun
    have hm : Marks s.vm vm w := (markRounds_marks hpte _ _ _).of_ok hmark
    have hfm := hm.freeInv hf
    rcases (pageAlloc_taken hfm (by decide) (by decide)).of_ok halloc
      with ⟨hnone, -⟩ | ⟨pp, hpp, hsome, htaken, -, -⟩
    · obtain rfl : pg = none := congrArg Prod.fst hnone
      exact nomatch hrun
    · obtain rfl : pg = some pp := hsome
      obtain ⟨rfl, htask⟩ := Prod.mk.inj (Except.ok.inj hrun)
      obtain rfl := Option.some.inj htask
      refine ⟨rfl, rfl, hpp, hm.pgdir, htaken.npages.trans hm.npages, ?_, fun f hne k => ?_⟩
      · exact (htaken.ref pp).trans (hfm.listed pp hpp).2.2
      · have hword : mm.word f k = vm.mm.word f k := Mm.word_of_mem (htaken.mem f hne) k
        change mm.word f k = _ ∨ _ ∧ mm.word f k = _
        rw [hword]
        exact hm.words f k
  · exact nomatch (Prod.mk.inj (Except.ok.inj hrun)).2

/-- **The end of `page_in`** for an entry that was marked. -/
theorem pageInEnd_brought {s₁ s₂ : InState} (hq : Queued s s₁ w t.pi l) (hread : Reading s₁ s₂ t.pi)
    (hw : isSwapped w = true) (hav : w &&& pteAvail = 0) (hdir : s.vm.pgdir t.requestorEnv = some d)
    (hentry : s.vm.mm.leaf d (vpn t.faultAddr) = some (w, false)) (hd : d ≠ t.pi)
    (ht : pgnum (s.vm.mm.word d (vpn t.faultAddr / 1024)) ≠ t.pi) (hrun : pageInEnd s₂ t = .ok s') :
    Brought s s' w (s.vm.mm.leafPtr d (vpn t.faultAddr)) t.pi := by
  obtain ⟨hP, hH, hword⟩ := Mm.leaf_eq_some hentry
  have hptr := Mm.leafPtr_small hH
  have hwords : ∀ f ≠ t.pi, s.vm.mm.MarkedIn s₂.vm.mm w f := by
    intro f hne k
    rw [Mm.word_of_mem (hread.mem f hne)]
    exact hq.words f hne k
  have hpde : s₂.vm.mm.word d (vpn t.faultAddr / 1024) = s.vm.mm.word d (vpn t.faultAddr / 1024) :=
    (hwords d hd).present hw hP
  have hdir₂ : s₂.vm.pgdir t.requestorEnv = some d :=
    (hread.pgdir _).trans ((hq.pgdir _).trans hdir)
  have hv : s₂.vm.pte (s.vm.mm.leafPtr d (vpn t.faultAddr)) = w ∨
      s₂.vm.pte (s.vm.mm.leafPtr d (vpn t.faultAddr)) = w ||| pteAvail := by
    rw [hptr] at hword ⊢
    rcases hwords _ ht (vpn t.faultAddr % 1024) with heq | ⟨-, heq⟩
    · exact Or.inl (heq.trans hword.symm)
    · exact Or.inr heq
  -- the walk finds the entry, since the copy looks unshared there is nothing else
  obtain ⟨r, hfind, hrest⟩ := bind_eq_ok.1 hrun
  have hfind : pgdirFind s₂.vm (s₂.vm.pgdir t.requestorEnv) t.faultAddr = .ok r := hfind
  obtain rfl : r = some (s.vm.mm.leafPtr d (vpn t.faultAddr)) := by
    have hends := pgdirFind_leaf s₂.vm d t.faultAddr
    rw [hdir₂] at hfind
    rcases hends.of_ok hfind with ⟨-, hnone⟩ | ⟨hsome, -⟩
    · rw [Mm.leaf_eq_none, hpde, hP] at hnone
      exact nomatch hnone
    · rw [hsome, Mm.leafPtr_congr hpde]
  have hend := pageInEnd_eq hfind (askedPte_avail hav hv)
  rw [hend] at hrun
  obtain rfl := Except.ok.inj hrun
  refine ⟨fun i => (hread.pgdir i).trans (hq.pgdir i), ?_, ⟨_, hv, ?_⟩, fun f hne k hself => ?_⟩
  · rw [finish_ref, hread.ref, hq.ref]
    rfl
  · rw [finish_word, if_pos ⟨rfl, rfl⟩]
  · rw [finish_word, if_neg hself]
    exact hwords f hne k

/-- **The page with the fault is brought back.** -/
theorem bringBack_brought {answers : List Bool} {pp : ℕ} (hf : FreeInv s.vm.mm l)
    (hdir : s.vm.pgdir e = some d) (hused : ∀ g, s.vm.mm.WalkFrame d g → g ∉ l) (hva : va < uTop)
    (hentry : s.vm.mm.leaf d (vpn va) = some (w, false))
    (hrun : bringBack s e va answers = .ok (some (s', pp))) :
    pp ∈ l ∧ isSwapped w = true ∧ Brought s s' w (s.vm.mm.leafPtr d (vpn va)) pp := by
  obtain ⟨hP, hH, hword⟩ := Mm.leaf_eq_some hentry
  have hlow : vpn va / 1024 < pdx uTop := by
    have hlt := pdx_lt_of_lt hva
    rwa [pdx_eq] at hlt
  obtain ⟨⟨s₁, o⟩, hfault, hrest⟩ := bind_eq_ok.1 hrun
  cases o with
  | none => exact nomatch hrest
  | some t =>
      obtain ⟨r, hrounds, hrest⟩ := bind_eq_ok.1 hrest
      cases r with
      | none => exact nomatch hrest
      | some s₂ =>
          obtain ⟨rfl, rfl⟩ : s₂ = s' ∧ t.pi = pp :=
            Prod.mk.inj (Option.some.inj (Except.ok.inj hrest))
          obtain ⟨r, hfind, hfault⟩ := bind_eq_ok.1 hfault
          rw [hdir] at hfind
          rcases (pgdirFind_leaf s.vm d va).of_ok hfind with ⟨rfl, -⟩ | ⟨rfl, -⟩
          · exact nomatch (Prod.mk.inj (Except.ok.inj hfault)).2
          · have hpte : s.vm.pte (s.vm.mm.leafPtr d (vpn va)) = w := hword.symm
            dsimp only at hfault
            rw [hpte] at hfault
            by_cases hcond : isSwapped w = true ∧ w &&& pteAvail = 0
            · rw [if_pos hcond] at hfault
              obtain ⟨henv, haddr, hq⟩ := swapInTask_queued hf hpte hfault
              obtain ⟨s₃, n, hread, hend⟩ := pageInRounds_reads hrounds
              have hne : ∀ g, s.vm.mm.WalkFrame d g → g ≠ t.pi := by
                rintro g hg rfl
                exact hused _ hg hq.fresh
              have htab : s.vm.mm.HasTable d (vpn va / 1024) := ⟨hP, hH⟩
              have hb := pageInEnd_brought (t := { t with count := n }) (d := d) hq hread hcond.1
                hcond.2 (by rw [← hdir, ← henv])
                (by rw [← hentry, ← haddr]) (hne d (Or.inl rfl)) (by
                  change pgnum (s.vm.mm.word d (vpn t.faultAddr / 1024)) ≠ t.pi
                  rw [haddr]
                  exact hne _ (htab.walkFrame hlow)) hend
              refine ⟨hq.fresh, hcond.1, ?_⟩
              rw [← haddr]
              exact hb
            · rw [if_neg hcond] at hfault
              exact nomatch (Prod.mk.inj (Except.ok.inj hfault)).2

end Fault

/-! ### Every sharer -/

section Serve

variable {s s' : InState} {e : ℕ} {va w : BitVec 32} {S : Finset (ℕ × ℕ)} {slot pp : ℕ}
    {l : List ℕ} {d q : ℕ}

/-- **An entry after the end of `page_in`** is as before, marked, or the one that was brought
back. -/
theorem Brought.leaf_cases {p : PtePtr} {w' : BitVec 32} (hb : Brought s s' w p pp)
    (hw : isSwapped w = true) (hused : ∀ g, s.vm.mm.WalkFrame d g → g ≠ pp) (hp : p.frame ≠ d)
    (hq : q < 2 ^ 20) (hleaf : s'.vm.mm.leaf d q = some (w', false)) :
    ∃ w₀, s.vm.mm.leaf d q = some (w₀, false) ∧ (w' = w₀ ∨ w₀ = w ∧ w' = w ||| pteAvail ∨
      s.vm.mm.leafPtr d q = p ∧ isPresent w' = true) := by
  obtain ⟨hP, hH, hword⟩ := Mm.leaf_eq_some hleaf
  have hpde : s'.vm.mm.word d (q / 1024) = s.vm.mm.word d (q / 1024) := by
    rcases hb.words d (hused d (Or.inl rfl)) (q / 1024) fun hc => hp hc.1.symm with heq | ⟨-, heq⟩
    · exact heq
    · rw [heq, isPresent_of_isSwapped (isSwapped_or_avail hw)] at hP
      exact nomatch hP
  rw [Mm.leafPtr_congr hpde] at hword
  rw [hpde] at hP hH
  have ht : s.vm.mm.HasTable d (q / 1024) := ⟨hP, hH⟩
  have hne : pgnum (s.vm.mm.word d (q / 1024)) ≠ pp :=
    hused _ (Or.inr ⟨q / 1024, by omega, ht, rfl⟩)
  have hptr := Mm.leafPtr_small hH
  refine ⟨s.vm.mm.word (pgnum (s.vm.mm.word d (q / 1024))) (q % 1024), ?_, ?_⟩
  · rw [Mm.leaf, if_pos hP, if_neg (by rw [hH]; exact Bool.false_ne_true)]
  · rw [hptr] at hword ⊢
    by_cases hself : pgnum (s.vm.mm.word d (q / 1024)) = p.frame ∧ q % 1024 = p.idx
    · obtain ⟨v, -, hv⟩ := hb.entry
      refine Or.inr (Or.inr ⟨?_, ?_⟩)
      · rw [hself.1, hself.2]
      · rw [hword]
        dsimp only
        rw [hself.1, hself.2, hv]
        exact isPresent_broughtPte v pp
    · rcases hb.words _ hne _ hself with heq | ⟨hold, heq⟩
      · exact Or.inl (hword.trans heq)
      · exact Or.inr (Or.inl ⟨hold, hword.trans heq⟩)

/-- The entry that was brought back. -/
theorem Brought.leaf_self (hb : Brought s s' w (s.vm.mm.leafPtr d q) pp) (hw : isSwapped w = true)
    (hd : d ≠ pp) (htd : pgnum (s.vm.mm.word d (q / 1024)) ≠ d) (hpp : pp < 2 ^ 20)
    (hentry : s.vm.mm.leaf d q = some (w, false)) :
    ∃ w', s'.vm.mm.leaf d q = some (w', false) ∧ isPresent w' = true ∧ pgnum w' = pp ∧
      w' &&& permBits = w &&& permBits := by
  obtain ⟨hP, hH, -⟩ := Mm.leaf_eq_some hentry
  have hptr := Mm.leafPtr_small hH
  obtain ⟨v, hv, hnew⟩ := hb.entry
  have hpde : s'.vm.mm.word d (q / 1024) = s.vm.mm.word d (q / 1024) := by
    rcases hb.words d hd (q / 1024) fun hc => htd (hc.1.trans (congrArg PtePtr.frame hptr)).symm
      with heq | ⟨heq, -⟩
    · exact heq
    · rw [heq, isPresent_of_isSwapped hw] at hP
      exact nomatch hP
  refine ⟨broughtPte v pp, ?_, isPresent_broughtPte v pp, pgnum_broughtPte v hpp, ?_⟩
  · rw [Mm.leaf, hpde, if_pos hP, if_neg (by rw [hH]; exact Bool.false_ne_true)]
    rw [hptr] at hnew
    rw [hnew]
  · rw [broughtPte_perm]
    rcases hv with rfl | rfl
    · rfl
    · exact or_avail_perm w

/-- **Every sharer is served if and only if there is one sharer.** The copy of the entry always
looks unshared, so that one entry is brought back and the page has one reference. -/
theorem servesAll_iff (h : Sharers s S slot l) (hmem : (e, vpn va) ∈ S) (hva : va < uTop)
    {answers : List Bool} (hrun : bringBack s e va answers = .ok (some (s', pp))) :
    ServesAll s s' S slot pp ↔ S.card = 1 := by
  obtain ⟨halive, -, w, ⟨d, hdir, hentry⟩, hsw, hslot⟩ := (h.mem e (vpn va)).1 hmem
  obtain ⟨hpp, -, hb⟩ := bringBack_brought h.free hdir (h.used e halive d hdir) hva hentry hrun
  obtain ⟨hP, hH, -⟩ := Mm.leaf_eq_some hentry
  have hlow : vpn va / 1024 < pdx uTop := by
    have hlt := pdx_lt_of_lt hva
    rwa [pdx_eq] at hlt
  have hne : ∀ i, s.Alive i → ∀ d, s.vm.pgdir i = some d → ∀ g, s.vm.mm.WalkFrame d g → g ≠ pp := by
    rintro i hi d hd g hg rfl
    exact h.used i hi d hd g hg hpp
  have htable : ∀ i, s.Alive i → ∀ d', s.vm.pgdir i = some d' →
      pgnum (s.vm.mm.word d (vpn va / 1024)) ≠ d' := by
    rintro i hi d' hd' rfl
    exact h.apart e halive d hdir _ hlow ⟨hP, hH⟩ i hi hd'
  constructor
  · intro hserved
    have href := hserved.ref
    rw [hb.ref] at href
    exact href.symm
  · intro hone
    obtain ⟨x, hx⟩ := Finset.card_eq_one.1 hone
    have hall : ∀ y ∈ S, y = (e, vpn va) := by
      intro y hy
      rw [hx, Finset.mem_singleton] at hy hmem
      rw [hy, hmem]
    refine ⟨fun y hy w₀ hw₀ => ?_, ?_, fun i hi q w' hq hentry' hrec => ?_⟩
    · obtain rfl := hall y hy
      obtain ⟨d', hd', hleaf⟩ := hw₀
      obtain rfl : d = d' := Option.some.inj (hdir.symm.trans hd')
      obtain rfl : w = w₀ := congrArg Prod.fst (Option.some.inj (hentry.symm.trans hleaf))
      have hlt : pp < 2 ^ 20 := Nat.lt_of_lt_of_le (h.free.listed pp hpp).1 s.vm.mm.npages_le
      obtain ⟨w', hleaf', hrest⟩ :=
        hb.leaf_self hsw (hne e halive d hdir d (Or.inl rfl)) (htable e halive d hdir) hlt hentry
      exact ⟨w', ⟨d, (hb.pgdir e).trans hdir, hleaf'⟩, hrest⟩
    · rw [hb.ref, hone]
      rfl
    · obtain ⟨d', hd', hleaf'⟩ := hentry'
      have hd' : s.vm.pgdir i = some d' := (hb.pgdir i).symm.trans hd'
      have hframe : (s.vm.mm.leafPtr d (vpn va)).frame ≠ d' := by
        rw [Mm.leafPtr_small hH]
        exact htable i hi d' hd'
      obtain ⟨w₀, hleaf, hcase⟩ := hb.leaf_cases hsw (hne i hi d' hd') hframe hq hleaf'
      have hself : (i, q) = (e, vpn va) → False := by
        intro hc
        obtain ⟨rfl, rfl⟩ := Prod.mk.inj hc
        obtain rfl : d = d' := Option.some.inj (hdir.symm.trans hd')
        have hlt : pp < 2 ^ 20 := Nat.lt_of_lt_of_le (h.free.listed pp hpp).1 s.vm.mm.npages_le
        obtain ⟨w'', hleaf'', hP'', -⟩ :=
          hb.leaf_self hsw (hne i halive d hdir d (Or.inl rfl)) (htable i halive d hdir) hlt hentry
        obtain rfl : w'' = w' := congrArg Prod.fst (Option.some.inj (hleaf''.symm.trans hleaf'))
        rw [isPresent_of_isSwapped hrec.1] at hP''
        exact nomatch hP''
      rcases hcase with rfl | ⟨rfl, -⟩ | ⟨-, hpres⟩
      · exact hself (hall _ ((h.mem i q).2 ⟨hi, hq, w', ⟨d', hd', hleaf⟩, hrec⟩))
      · exact hself (hall _ ((h.mem i q).2 ⟨hi, hq, w₀, ⟨d', hd', hleaf⟩, hsw, hslot⟩))
      · rw [isPresent_of_isSwapped hrec.1] at hpres
        exact nomatch hpres

end Serve

/-! ### The page comes back -/

section Complete

variable {s s₁ s' : InState} {vm : Vm} {e d : ℕ} {va w : BitVec 32} {pte : PtePtr} {l : List ℕ}
    {t : InTask} {kern : Kernel}

/-- The search through a directory whose slots lead into memory comes to an end. -/
theorem seekPteFrom_ok
    (hd : ∀ j, isPresent (vm.mm.word d j) = true → pgnum (vm.mm.word d j) < vm.mm.npages) :
    ∀ n i, Ends (fun _ => False) (fun _ => True) (seekPteFrom vm w d n i) := by
  intro n
  induction n with
  | zero => exact fun _ => True.intro
  | succ n ih =>
      intro i
      refine ends_ite (fun hP => ?_) fun _ => ih (i + 1)
      rw [ends_bind]
      have hlt : pgnum (pteAddr (vm.pte ⟨d, i⟩)) < vm.mm.npages := by
        rw [pgnum_pteAddr]
        exact hd i hP
      unfold kaddr
      rw [if_neg (Nat.not_le.2 hlt), ends_pure]
      split
      · exact True.intro
      · exact ih (i + 1)

/-- The environments that `swap_in` looks at have directories whose slots lead into memory. -/
def DirsInMemory (vm : Vm) (kern : Kernel) : Prop :=
  ∀ i, searched kern i = true → ∃ d, vm.pgdir i = some d ∧ ∀ j, isPresent (vm.mm.word d j) = true →
    pgnum (vm.mm.word d j) < vm.mm.npages

/-- A round of `swap_in` does not stop the kernel. -/
theorem Marks.round_ok {vm₁ : Vm} (h : Marks vm vm₁ w) (hw : isSwapped w = true)
    (hdirs : DirsInMemory vm kern) (i : ℕ) :
    ∃ vm₂, markRound kern pte vm₁ i = .ok vm₂ := by
  unfold markRound
  by_cases hs : searched kern i = true
  · obtain ⟨d, hd, hlow⟩ := hdirs i hs
    have hlow₁ : ∀ j, isPresent (vm₁.mm.word d j) = true →
        pgnum (vm₁.mm.word d j) < vm₁.mm.npages := by
      intro j hP
      have hsame := (h.words d).present' hw hP
      rw [hsame] at hP ⊢
      rw [h.npages]
      exact hlow j hP
    obtain ⟨r, hr, -⟩ :=
      (@seekPteFrom_ok vm₁ d (vm₁.pte pte) hlow₁ nPdEntries 0).exists_ok fun _ hc => hc
    rw [if_pos hs, h.pgdir i, hd]
    dsimp only
    rw [hr]
    cases r with
    | none => exact ⟨_, rfl⟩
    | some p => exact ⟨_, rfl⟩
  · rw [if_neg hs]
    exact ⟨_, rfl⟩

/-- **The marks** of a machine in order. -/
theorem markRounds_ok (hpte : vm.pte pte = w) (hw : isSwapped w = true)
    (hdirs : DirsInMemory vm kern) (a n : ℕ) :
    ∃ vm', (List.range' a n).foldlM (markRound kern pte) vm = .ok vm' ∧ Marks vm vm' w := by
  have hloop : Ends (fun _ => False) (fun vm' => Marks vm vm' w)
      ((List.range' a n).foldlM (markRound kern pte) vm) := by
    refine ends_foldlM_range' (P := fun _ vm₁ => Marks vm vm₁ w) (.refl vm w) fun k _ vm₁ h => ?_
    have hround : ∃ vm₂, markRound kern pte vm₁ (a + k) = .ok vm₂ := h.round_ok hw hdirs (a + k)
    obtain ⟨vm₂, hrun⟩ := hround
    have hm := (h.round hpte kern (a + k)).of_ok hrun
    rw [hrun]
    exact hm
  exact hloop.exists_ok fun _ hc => hc

/-- **`swap_in`** queues a tasklet if there is a free one and a free frame. -/
theorem swapInTask_ok (hf : FreeInv s.vm.mm l) (hst : Steady s.vm.mm l) (hne : l ≠ [])
    (hpte : s.vm.pte pte = w) (hw : isSwapped w = true)
    (hdirs : DirsInMemory s.vm (s.setStatus e .sleeping).kern)
    (hfree : s.kern.tList.length < nTasklets) :
    ∃ s₁ t, swapInTask s e va pte = .ok (s₁, some t) ∧ t.count = 0 := by
  obtain ⟨vm, hmark, hm⟩ := markRounds_ok hpte hw hdirs nKThreads (nEnv - nKThreads)
  have hst₁ : Steady vm.mm l := by
    rw [hm.only]
    exact ⟨hst.1, hst.2.1, hst.2.2⟩
  obtain ⟨⟨pg, mm⟩, halloc, hcase⟩ := (@pageAlloc_taken vm.mm l 0
    (hm.freeInv hf) (by decide) (by decide)).exists_ok fun _ hc => hc hst₁
  rcases hcase with ⟨-, hnil⟩ | ⟨pp, -, hsome, -⟩
  · exact absurd hnil hne
  · obtain rfl : pg = some pp := hsome
    refine ⟨{ s.setStatus e .sleeping with vm := { vm with mm := mm } },
      ⟨pgnum (pteAddr (vm.pte pte)), 0, pp, va, e⟩, ?_, rfl⟩
    unfold swapInTask
    dsimp only
    have hfree' : (s.setStatus e .sleeping).kern.tList.length < nTasklets := hfree
    rw [if_pos hfree']
    exact bind_eq_ok.2 ⟨vm, hmark, bind_eq_ok.2 ⟨(some pp, mm), halloc, rfl⟩⟩

/-- **The rounds of `page_in`** when the disk is always ready. -/
theorem pageInRounds_ok (hpi : t.pi < s.vm.mm.npages) (hcount : t.count ≤ nSectors)
    (hend : ∀ s₁ n, Reading s s₁ t.pi → ∃ s', pageInEnd s₁ { t with count := n } = .ok s') :
    ∃ s', pageInRounds s t (List.replicate (nSectors - t.count + 1) true) = .ok (some s') := by
  obtain ⟨n, hn⟩ : ∃ n, nSectors - t.count = n := ⟨_, rfl⟩
  rw [hn]
  have hpow : t.pi < 2 ^ 20 := Nat.lt_of_lt_of_le hpi s.vm.mm.npages_le
  induction n generalizing s t with
  | zero =>
      have hdone : ¬ t.count < nSectors := by omega
      have hk : kaddr s.vm.mm.npages (page2pa t.pi) = .ok (page2pa t.pi + kernBase) := by
        rw [kaddr, pgnum_page2pa, Nat.mod_eq_of_lt hpow, if_neg (Nat.not_le.2 hpi)]
        rfl
      obtain ⟨s', hs'⟩ := hend (if t.count = 0 then s.ideStartRead t.sectorStart else s) t.count (by
        split
        · exact ⟨rfl, fun _ _ => rfl, rfl⟩
        · exact .refl s t.pi)
      refine ⟨s', bind_eq_ok.2 ⟨(s', t, true), ?_, rfl⟩⟩
      unfold pageInRound
      refine bind_eq_ok.2 ⟨_, hk, ?_⟩
      dsimp only
      rw [if_neg hdone]
      exact bind_eq_ok.2 ⟨s', hs', rfl⟩
  | succ n ih =>
      have hmore : t.count < nSectors := by omega
      have hk : kaddr s.vm.mm.npages (page2pa t.pi) = .ok (page2pa t.pi + kernBase) := by
        rw [kaddr, pgnum_page2pa, Nat.mod_eq_of_lt hpow, if_neg (Nat.not_le.2 hpi)]
        rfl
      obtain ⟨s₁, hround⟩ : ∃ s₁, pageInRound s t true =
          .ok (s₁, { t with count := t.count + 1 }, false) := by
        refine ⟨((if t.count = 0 then s.ideStartRead t.sectorStart else s).ideReadSector t.pi
          (t.count * sectSize)).toggle
          (t.sectorStart + t.count), ?_⟩
        unfold pageInRound
        refine bind_eq_ok.2 ⟨_, hk, ?_⟩
        dsimp only
        rw [if_pos hmore]
        rfl
      have hread : Reading s s₁ t.pi := by
        rcases pageInRound_cases hround with ⟨-, hread, -⟩ | ⟨hc, -⟩
        · exact hread
        · cases hc
      obtain ⟨s', hs'⟩ :=
        ih (s := s₁) (t := { t with count := t.count + 1 }) (by rw [hread.npages]; exact hpi) hmore
        (fun s₂ m h₂ => hend s₂ m (hread.trans h₂)) (by dsimp only; omega) hpow
      exact ⟨s', bind_eq_ok.2 ⟨_, hround, hs'⟩⟩

/-- **A page in the swap area comes back**, when there are a free tasklet and a free frame, and the
disk is always ready. -/
theorem bringBack_completes (hf : FreeInv s.vm.mm l) (hst : Steady s.vm.mm l) (hne : l ≠ [])
    (hdir : s.vm.pgdir e = some d) (hused : ∀ g, s.vm.mm.WalkFrame d g → g ∉ l) (hva : va < uTop)
    (hentry : s.vm.mm.leaf d (vpn va) = some (w, false))
    (hbound : pgnum (s.vm.mm.word d (vpn va / 1024)) < s.vm.mm.npages) (hw : isSwapped w = true)
    (hav : w &&& pteAvail = 0) (hdirs : DirsInMemory s.vm (s.setStatus e .sleeping).kern)
    (hfree : s.kern.tList.length < nTasklets) :
    ∃ s' pp, bringBack s e va (List.replicate (nSectors + 1) true) = .ok (some (s', pp)) := by
  obtain ⟨hP, hH, hword⟩ := Mm.leaf_eq_some hentry
  have hptr := Mm.leafPtr_small hH
  have hlow : vpn va / 1024 < pdx uTop := by
    have hlt := pdx_lt_of_lt hva
    rwa [pdx_eq] at hlt
  have htab : s.vm.mm.HasTable d (vpn va / 1024) := ⟨hP, hH⟩
  have hpte : s.vm.pte (s.vm.mm.leafPtr d (vpn va)) = w := hword.symm
  have hfind : ∀ vm : Vm, vm.mm.word d (vpn va / 1024) = s.vm.mm.word d (vpn va / 1024) →
      vm.mm.npages = s.vm.mm.npages →
      pgdirFind vm (some d) va = .ok (some (s.vm.mm.leafPtr d (vpn va))) := by
    intro vm hsame hnp
    rw [hptr]
    rw [← ptx_eq]
    rw [← pdx_eq] at hsame hP hH hbound ⊢
    exact pgdirFind_table ⟨by rw [hsame]; exact hP, by rw [hsame]⟩ (by rw [hsame]; exact hH)
      (by rw [hnp]; exact hbound)
  have hstart : ∃ s₁ t, swapInTask s e va (s.vm.mm.leafPtr d (vpn va)) = .ok (s₁, some t) ∧
      t.count = 0 :=
    swapInTask_ok hf hst hne hpte hw hdirs hfree
  obtain ⟨s₁, t, hqueue, hcount⟩ := hstart
  obtain ⟨henv, haddr, hq⟩ := swapInTask_queued hf hpte hqueue
  have hfresh : ∀ g, s.vm.mm.WalkFrame d g → g ≠ t.pi := by
    rintro g hg rfl
    exact hused _ hg hq.fresh
  have hpi : t.pi < s₁.vm.mm.npages := by
    rw [hq.npages]
    exact (hf.listed _ hq.fresh).1
  have hrounds : ∃ s', pageInRounds s₁ t (List.replicate (nSectors - t.count + 1) true) =
      .ok (some s') := by
    refine pageInRounds_ok hpi (by rw [hcount]; exact Nat.zero_le _) fun s₂ n hread => ?_
    have hwords : ∀ f ≠ t.pi, s.vm.mm.MarkedIn s₂.vm.mm w f := by
      intro f hne k
      rw [Mm.word_of_mem (hread.mem f hne)]
      exact hq.words f hne k
    have hdir₂ : s₂.vm.pgdir t.requestorEnv = some d := by rw [hread.pgdir, hq.pgdir, henv, hdir]
    have hfind₂ : pgdirFind s₂.vm (s₂.vm.pgdir t.requestorEnv)
        t.faultAddr = .ok (some (s.vm.mm.leafPtr d (vpn va))) := by
      rw [hdir₂, haddr]
      exact hfind s₂.vm ((hwords d (hfresh d (Or.inl rfl))).present hw hP)
        (hread.npages.trans hq.npages)
    have hv : s₂.vm.pte (s.vm.mm.leafPtr d (vpn va)) = w ∨
        s₂.vm.pte (s.vm.mm.leafPtr d (vpn va)) = w ||| pteAvail := by
      rw [hptr] at hpte ⊢
      rcases hwords _ (hfresh _ (htab.walkFrame hlow)) (vpn va % 1024) with heq | ⟨-, heq⟩
      · exact Or.inl (heq.trans hpte)
      · exact Or.inr heq
    exact ⟨_, pageInEnd_eq (t := { t with count := n }) hfind₂ (askedPte_avail hav hv)⟩
  obtain ⟨s', hs'⟩ := hrounds
  rw [hcount] at hs'
  refine ⟨s', t.pi, bind_eq_ok.2 ⟨(s₁, some t), ?_, bind_eq_ok.2 ⟨some s', hs', rfl⟩⟩⟩
  unfold swapFault
  rw [hdir]
  refine bind_eq_ok.2 ⟨_, hfind s.vm rfl rfl, ?_⟩
  dsimp only
  rw [hpte, if_pos ⟨hw, hav⟩]
  exact hqueue

end Complete

/-! ### One environment and two -/

/-- The words: two directories with a page table each, and an entry for the sector 10 in both. -/
def shareWord (f i : ℕ) : BitVec 32 :=
  if i = 1 then if f = 5 then 0x6007 else if f = 7 then 0x8007 else 0
  else if i = 0 then if f = 6 ∨ f = 8 then 0xa106 else 0
  else 0

/-- The environment 2 runs; the environment 3 is there if `two` holds. -/
def shareStatus (two : Bool) (i : ℕ) : EnvStatus :=
  if i = 2 then .running else if i = 3 then if two then .runnable else .free else .free

/-- **A machine with one or two environments** whose page at `0x400000` is in the swap area. -/
def shareState (two : Bool) : InState where
  vm := {
    mm := ⟨2048, frames_blocks, false, fun i => ⟨none, none, 0, if 5 ≤ i ∧ i ≤ 8 then alloc else 0⟩,
      some 9, 1,
      ⟨none, none, none, none, none, none⟩, 0, 0, bytesOf shareWord⟩
    envs := fun i => Space.ofDir (if i = 3 then 7 else 5)
    kernPgdir := fun _ => 0
    image := fun _ => 0
    envFrame := fun _ => 0
    written := [] }
  kern := { Kernel.init with
    envs := fun i => { Kernel.init.envs i with status := shareStatus two i } }
  disk _ _ := 0
  ideNext := 0
  swapMap := .empty

/-- The entries for the sector. -/
def shareSet (two : Bool) : Finset (ℕ × ℕ) := if two then {(2, 1024), (3, 1024)} else {(2, 1024)}

section

variable {two : Bool} {i q d t : ℕ}

theorem shareState_word (two : Bool) (f i : ℕ) : (shareState two).vm.mm.word f i = shareWord f i :=
  Mm.word_bytesOf (w := shareWord) rfl i

theorem shareState_pgdir (two : Bool) (i : ℕ) :
    (shareState two).vm.pgdir i = some (if i = 3 then 7 else 5) := rfl

/-- The directories have one page table each. -/
theorem shareState_slot (hd : d = 5 ∧ t = 6 ∨ d = 7 ∧ t = 8) (i : ℕ) :
    (isPresent ((shareState two).vm.mm.word d i) = true → i = 1) ∧
      (shareState two).vm.mm.HasTable d 1 ∧
      pgnum ((shareState two).vm.mm.word d 1) = t := by
  rw [Mm.HasTable, shareState_word, shareState_word]
  refine ⟨fun hP => ?_, ?_⟩
  · by_contra hi
    have hzero : shareWord d i = 0 := by
      rw [shareWord, if_neg hi]
      split
      · exact if_neg (by omega)
      · rfl
    rw [hzero] at hP
    exact absurd hP (by decide)
  · rcases hd with ⟨rfl, rfl⟩ | ⟨rfl, rfl⟩ <;> decide

theorem shareState_leaf (hd : d = 5 ∧ t = 6 ∨ d = 7 ∧ t = 8) (q : ℕ) :
    (shareState two).vm.mm.leaf d q = if q / 1024 = 1 then
      some (if q % 1024 = 0 then 0xa106 else 0, false) else none := by
  obtain ⟨-, ht, hpg⟩ := @shareState_slot two d t hd 1
  by_cases hq : q / 1024 = 1
  · have hword : (shareState two).vm.mm.word t (q % 1024) = if q % 1024 = 0 then 0xa106 else 0 := by
      rw [shareState_word, shareWord]
      by_cases hone : q % 1024 = 1
      · rw [if_pos hone, if_neg (by omega), if_neg (by omega), if_neg (by omega)]
      · rw [if_neg hone]
        by_cases hzero : q % 1024 = 0
        · rw [if_pos hzero, if_pos hzero, if_pos (by omega)]
        · rw [if_neg hzero, if_neg hzero]
    rw [if_pos hq, Mm.leaf, hq, if_pos ht.1,
      if_neg (by rw [ht.2]; exact Bool.false_ne_true), hpg, hword]
  · rw [if_neg hq, Mm.leaf_eq_none]
    by_contra hc
    exact hq ((@shareState_slot two d t hd (q / 1024)).1 (by simpa using hc))

/-- The directory of an environment. -/
theorem shareState_dir (i : ℕ) :
    ∃ d t, (shareState two).vm.pgdir i = some d ∧ (d = 5 ∧ t = 6 ∨ d = 7 ∧ t = 8) := by
  rw [shareState_pgdir]
  by_cases hi : i = 3
  · exact ⟨7, 8, by rw [if_pos hi], Or.inr ⟨rfl, rfl⟩⟩
  · exact ⟨5, 6, by rw [if_neg hi], Or.inl ⟨rfl, rfl⟩⟩

theorem shareState_alive : (shareState two).Alive i ↔ i = 2 ∨ i = 3 ∧ two = true := by
  have hstatus : (shareState two).kern.status i = shareStatus two i := rfl
  rw [InState.Alive, hstatus, shareStatus]
  by_cases h2 : i = 2
  · subst h2
    simp [nEnv, EnvStatus.searched]
  · by_cases h3 : i = 3
    · subst h3
      cases two <;> simp [nEnv, EnvStatus.searched]
    · simp [h2, h3, EnvStatus.searched]

theorem mem_shareSet : (i, q) ∈ shareSet two ↔ (i = 2 ∨ i = 3 ∧ two = true) ∧ q = 1024 := by
  cases two with
  | false => simp [shareSet]
  | true =>
      simp [shareSet]
      tauto

theorem shareState_sharers (two : Bool) : Sharers (shareState two) (shareSet two) 10 [9] where
  free := by
    refine ⟨?_, fun i hi => ?_, fun i hi => rfl⟩
    · exact ⟨rfl, rfl⟩
    · rw [List.mem_singleton] at hi
      subst hi
      exact ⟨(by decide : 9 < 2048), rfl, rfl⟩
  used i _ d hd g hg := by
    obtain ⟨d', t, hd', hdt⟩ := @shareState_dir two i
    obtain rfl : d = d' := Option.some.inj (hd.symm.trans hd')
    rw [List.mem_singleton]
    rcases hg with rfl | ⟨k, -, htab, rfl⟩
    · omega
    · obtain ⟨hone, -, hpg⟩ := @shareState_slot two d t hdt k
      rw [hone htab.1, hpg]
      omega
  apart i _ d hd k _ htab j _ hj := by
    obtain ⟨d', t, hd', hdt⟩ := @shareState_dir two i
    obtain rfl : d = d' := Option.some.inj (hd.symm.trans hd')
    obtain ⟨hone, -, hpg⟩ := @shareState_slot two d t hdt k
    obtain ⟨d₂, t₂, hd₂, hdt₂⟩ := @shareState_dir two j
    rw [hone htab.1, hpg, hd₂] at hj
    have heq : d₂ = t := Option.some.inj hj
    omega
  mem i q := by
    rw [mem_shareSet, shareState_alive]
    obtain ⟨d, t, hd, hdt⟩ := @shareState_dir two i
    constructor
    · rintro ⟨hi, rfl⟩
      exact ⟨hi, by decide, 0xa106, ⟨d, hd, shareState_leaf hdt 1024⟩, by decide, by decide⟩
    · rintro ⟨hi, -, w, ⟨d', hd', hleaf⟩, hsw, -⟩
      obtain rfl : d = d' := Option.some.inj (hd.symm.trans hd')
      rw [shareState_leaf hdt] at hleaf
      refine ⟨hi, ?_⟩
      by_cases hq : q / 1024 = 1
      · by_cases hz : q % 1024 = 0
        · omega
        · rw [if_pos hq, if_neg hz] at hleaf
          obtain rfl : (0 : BitVec 32) = w := congrArg Prod.fst (Option.some.inj hleaf)
          exact absurd hsw (by decide)
      · rw [if_neg hq] at hleaf
        exact nomatch hleaf

/-- The page of the environment 2 comes back. -/
theorem shareState_completes (two : Bool) :
    ∃ s' pp, bringBack (shareState two) 2 0x400000 (List.replicate (nSectors + 1) true) =
      .ok (some (s', pp)) := by
  have hvpn : vpn 0x400000 = 1024 := by decide
  have hsh := shareState_sharers two
  have halive : (shareState two).Alive 2 := shareState_alive.2 (Or.inl rfl)
  have hdt : (5 : ℕ) = 5 ∧ (6 : ℕ) = 6 ∨ (5 : ℕ) = 7 ∧ (6 : ℕ) = 8 := Or.inl ⟨rfl, rfl⟩
  refine bringBack_completes (d := 5) (w := 0xa106) hsh.free
    ⟨rfl, by simp [drift, shareState], fun _ => [], by intro q; cases q <;> rfl, by simp, by simp⟩
    (List.cons_ne_nil 9 []) rfl (hsh.used 2 halive 5 rfl) (by decide) ?_
      ?_ (by decide) (by decide) ?_
    (by decide : 0 < nTasklets)
  · rw [hvpn]
    exact shareState_leaf hdt 1024
  · rw [hvpn]
    change pgnum ((shareState two).vm.mm.word 5 1) < _
    rw [(@shareState_slot two 5 6 hdt 1).2.2]
    exact (by decide : 6 < 2048)
  · intro i _
    obtain ⟨d, t, hd, hdt⟩ := @shareState_dir two i
    refine ⟨d, hd, fun j hP => ?_⟩
    obtain ⟨hone, -, hpg⟩ := @shareState_slot two d t hdt j
    rw [hone hP, hpg]
    have hlt : t < 2048 := by omega
    exact hlt

end

theorem servesAll_iff_alone :
    ∃ s' pp answers, bringBack (shareState false) 2 0x400000 answers = .ok (some (s', pp)) ∧
    ServesAll (shareState false) s' (shareSet false) 10 pp := by
  obtain ⟨s', pp, hrun⟩ := shareState_completes false
  exact ⟨s', pp, _, hrun, (servesAll_iff (shareState_sharers false)
    (mem_shareSet.2 ⟨Or.inl rfl, by decide⟩) (by decide) hrun).2 (by decide)⟩

/-- **Two environments share a page in the swap area**: the page has one reference when it is
back. -/
theorem sharer_left_behind :
    ¬ ∀ (s s' : InState) (e : ℕ) (va : BitVec 32) (S : Finset (ℕ × ℕ)) (slot pp : ℕ) (l : List ℕ)
      (answers : List Bool), Sharers s S slot l →
      (e, vpn va) ∈ S → va < uTop → bringBack s e va answers = .ok (some (s', pp)) →
      ServesAll s s' S slot pp := by
  intro hall
  obtain ⟨s', pp, hrun⟩ := shareState_completes true
  have hsh := shareState_sharers true
  have hmem : (2, vpn 0x400000) ∈ shareSet true := mem_shareSet.2 ⟨Or.inl rfl, by decide⟩
  have hserved := hall _ s' 2 0x400000 _ 10 pp _ _ hsh hmem (by decide) hrun
  obtain ⟨halive, -, w, ⟨d, hdir, hentry⟩, -⟩ := (hsh.mem 2 (vpn 0x400000)).1 hmem
  obtain ⟨-, -, hb⟩ :=
    bringBack_brought hsh.free hdir (hsh.used 2 halive d hdir) (by decide) hentry hrun
  have href := hserved.ref
  rw [hb.ref] at href
  exact absurd href (by decide)

end Jos
