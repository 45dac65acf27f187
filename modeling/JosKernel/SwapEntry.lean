/-
**The entry of a page that is swapped out and in again.**

`page_out`, `swap_in` and `page_in` take the page table entry of a page apart and put it together
again: the slot takes the place of the frame, `PTE_P` is toggled, `PTE_G` marks an entry that
records a slot, `PTE_AVAIL` one that is being swapped in, and the eight bits of the slot in
`swap_map` are toggled one by one, in rounds that may find the disk busy. Nothing of the entry is
lost on the way.

`page_fault_handler` recognises the entry in between, if the fault comes from user mode; a fault of
the kernel itself is taken for one on a page that was never allocated.

Main definitions:

* `Jos.OwnedSwap` — the swap subsystem with the states of the owners;
* `Jos.faultClass` — what `page_fault_handler` makes of a fault;
* `Jos.RoundTrip` — the way of an entry.

Main results:

* `Jos.broughtPte_swappedPte` — the bits of the entry;
* `Jos.roundTrip_iff` — **the round trip**.
-/

import JosKernel.Fault
import JosKernel.SwapSlots

set_option relaxedAutoImplicit false
set_option autoImplicit false

namespace Jos

open Outcome Polling

/-! ### The bits of an entry -/

theorem getLsbD_of_clear {pte m : BitVec 32} (h : pte &&& m = 0) {i : ℕ} (hi : m.getLsbD i = true) :
    pte.getLsbD i = false := by
  have hbit := congrArg (·.getLsbD i) h
  simpa [hi] using hbit

theorem getLsbD_page2pa_low (pp : ℕ) {i : ℕ} (hi : i < 12) : (page2pa pp).getLsbD i = false := by
  simp [page2pa, pgShift, hi]

theorem getLsbD_mask (i : ℕ) : (0xFFF#32).getLsbD i = decide (i < 12) := by
  by_cases hi : i < 12
  · have hall : ∀ j < 12, (0xFFF#32).getLsbD j = true := by decide
    rw [hall i hi, decide_eq_true hi]
  · rw [getLsbD_flags (by decide) (by omega), decide_eq_false hi]

/-- The three bits of `PTE_AVAIL`, and `PTE_P` and `PTE_G`, among the flags. -/
theorem getLsbD_flag_words :
    ∀ i < 12, pteP.getLsbD i = decide (i = 0) ∧ pteG.getLsbD i = decide (i = 8) ∧
    pteAvail.getLsbD i = decide (9 ≤ i) := by
  decide

/-- The word that `page_out` puts together. -/
theorem avail_clear {pte : BitVec 32} (hav : pte &&& pteAvail = 0) (slot : ℕ) :
    ((pte ^^^ pteP) &&& 0xFFF#32 ||| page2pa slot ||| pteG) &&& pteAvail = 0 := by
  apply BitVec.eq_of_getLsbD_eq
  intro i _
  by_cases hbit : pteAvail.getLsbD i = true
  · have hlow : i < 12 := by
      by_contra hge
      rw [getLsbD_flags (by decide) (by omega)] at hbit
      exact Bool.false_ne_true hbit
    obtain ⟨hP, hG, hA⟩ := getLsbD_flag_words i hlow
    have hnine : 9 ≤ i := by simpa [hA] using hbit
    rw [BitVec.getLsbD_and, BitVec.getLsbD_or, BitVec.getLsbD_or, BitVec.getLsbD_and,
      BitVec.getLsbD_xor,
      getLsbD_of_clear hav hbit, getLsbD_page2pa_low slot hlow, hP, hG,
      decide_eq_false (show i ≠ 0 by omega), decide_eq_false (show i ≠ 8 by omega)]
    simp
  · simp [hbit]

/-- An entry without `PTE_AVAIL` that `page_out` has written. -/
theorem swappedPte_eq {pte : BitVec 32} (hav : pte &&& pteAvail = 0) (slot : ℕ) :
    swappedPte pte slot = (pte ^^^ pteP) &&& 0xFFF#32 ||| page2pa slot ||| pteG := by
  unfold swappedPte
  dsimp only
  exact if_neg (not_not.2 (avail_clear hav slot))

theorem avail_swappedPte {pte : BitVec 32} (hav : pte &&& pteAvail = 0) (slot : ℕ) :
    swappedPte pte slot &&& pteAvail = 0 := by
  rw [swappedPte_eq hav]
  exact avail_clear hav slot

/-- **The flags survive**: out to a slot, marked as being swapped in, and into a frame. -/
theorem broughtPte_swappedPte {pte : BitVec 32} (hp : isPresent pte = true) (hg : pte &&& pteG = 0)
    (hav : pte &&& pteAvail = 0) (slot pp : ℕ) :
    broughtPte (swappedPte pte slot ||| pteAvail) pp = pte &&& 0xFFF#32 ||| page2pa pp := by
  rw [isPresent_iff] at hp
  have hset : ((swappedPte pte slot ||| pteAvail) ^^^ pteG) &&& pteAvail ≠ 0 := by
    intro h
    have hnine := getLsbD_of_clear h (show pteAvail.getLsbD 9 = true by decide)
    simp [pteAvail, pteG] at hnine
  unfold broughtPte
  dsimp only
  rw [if_pos hset, swappedPte_eq hav]
  congr 1
  apply BitVec.eq_of_getLsbD_eq
  intro i _
  by_cases hlow : i < 12
  · obtain ⟨hP, hG, hA⟩ := getLsbD_flag_words i hlow
    have hbits : ∀ j, pteAvail.getLsbD j = true → pte.getLsbD j = false :=
      fun j => getLsbD_of_clear hav
    have hclear := hbits i
    rw [hA, decide_eq_true_iff] at hclear
    have hglobal : pte.getLsbD 8 = false := getLsbD_of_clear hg (by decide)
    simp only [BitVec.getLsbD_or, BitVec.getLsbD_and, BitVec.getLsbD_xor, getLsbD_mask,
      getLsbD_page2pa_low slot hlow, hlow, decide_true, Bool.and_true, Bool.or_false, hP, hG, hA]
    rcases Nat.lt_or_ge i 9 with hlt | hge
    · rw [decide_eq_false (show ¬ 9 ≤ i by omega)]
      by_cases hzero : i = 0
      · subst hzero
        simp [hp]
      · by_cases height : i = 8
        · subst height
          rw [hglobal]
          rfl
        · simp [hzero, height]
    · rw [hclear hge, decide_eq_true hge, decide_eq_false (show i ≠ 0 by omega),
        decide_eq_false (show i ≠ 8 by omega)]
      rfl
  · simp [getLsbD_mask, hlow]

/-! ### The bits of a slot -/

/-- The `n` bits from `slot` on are toggled. -/
def toggleSpan (m : Bitmap) (slot : ℕ) : ℕ → Bitmap
  | 0 => m
  | n + 1 => toggleBit (toggleSpan m slot n) (slot + n)

theorem getBit_toggleSpan (m : Bitmap) (slot n i : ℕ) :
    getBit (toggleSpan m slot n) i = (getBit m i ^^ decide (slot ≤ i ∧ i < slot + n)) := by
  induction n with
  | zero =>
      rw [toggleSpan, decide_eq_false (by omega)]
      simp
  | succ n ih =>
      rw [toggleSpan, getBit_toggleBit, ih]
      by_cases hlast : i = slot + n
      · rw [decide_eq_false (show ¬ (slot ≤ i ∧ i < slot + n) by omega), decide_eq_true hlast,
          decide_eq_true (show slot ≤ i ∧ i < slot + (n + 1) by omega)]
        simp
      · rw [decide_eq_false hlast, Bool.xor_false]
        congr 2
        exact propext (by omega)

/-- Bitmaps with the same bits are the same. -/
theorem Bitmap.ext_getBit {m m' : Bitmap} (h : ∀ i, getBit m i = getBit m' i) : m = m' := by
  have hbyte : m.byte = m'.byte := by
    funext j
    apply BitVec.eq_of_getLsbD_eq
    intro i hi
    have hbit := h (8 * j + i)
    rw [getBit_eq_getLsbD, getBit_eq_getLsbD, show (8 * j + i) / 8 = j by omega,
      show (8 * j + i) % 8 = i by omega] at hbit
    exact hbit
  cases m
  cases m'
  exact congrArg Bitmap.mk hbyte

/-- **What `page_out` toggles `page_in` toggles back.** -/
theorem toggleSpan_toggleSpan (m : Bitmap) (slot n : ℕ) :
    toggleSpan (toggleSpan m slot n) slot n = m := by
  apply Bitmap.ext_getBit
  intro i
  rw [getBit_toggleSpan, getBit_toggleSpan, Bool.xor_assoc, Bool.xor_self, Bool.xor_false]

/-! ### The handler -/

/-- What `page_fault_handler` makes of a fault. -/
inductive FaultClass
  | panic
  /-- The page is absent. -/
  | allocate
  /-- The page is in the swap area. -/
  | swappedOut
  /-- The page is on its way back. -/
  | beingSwapped
  | protection
  deriving DecidableEq, Repr

/-- **The branches of `page_fault_handler`**, for the word of the entry that `pgdir_walk` leads
to. -/
def faultClass (user prot : Bool) (faultVa : BitVec 32) (pte : Option (BitVec 32)) : FaultClass :=
  if ¬ user ∧ uTop < faultVa then .panic
  else if ¬ user ∧ ¬ prot then .allocate
  else if pte.any fun w => isSwapped w && w &&& pteAvail == 0 then .swappedOut
  else if pte.any fun w => isSwapped w && w &&& pteAvail != 0 then .beingSwapped
  else if ¬ prot then .allocate
  else .protection

/-- What is done about a fault of each class. -/
def Vm.handleClass (s : Vm) (e : ℕ) (faultVa : BitVec 32) :
    FaultClass → Except Crash (FaultEnd × Vm)
  | .panic => throw (.panic "[KERN_DEBUG] page_fault_handler(): kernel page fault!")
  | .allocate => allocPageAfterFault s e faultVa
  | .swappedOut => pure (.asleep, s)
  | .beingSwapped => pure (.asleep, s)
  | .protection => do
      let v ← vmaLookup (s.envs e) faultVa
      if v.any fun v => isWritable (s.vma e v).perm then do
        let (ok, s) ← pageDedup s e faultVa
        pure (if ok then .resumed else .dedupFailed, s)
      else killEnv s e

/-- An entry that records a slot is of one of two kinds. -/
theorem any_isSwapped {pte : Option (BitVec 32)} :
    pte.any isSwapped = (pte.any (fun w => isSwapped w && w &&& pteAvail == 0) ||
      pte.any fun w => isSwapped w && w &&& pteAvail != 0) := by
  cases pte with
  | none => rfl
  | some w =>
      simp only [Option.any_some, bne]
      cases isSwapped w <;> cases w &&& pteAvail == 0 <;> rfl

/-- **The handler follows the classes.** -/
theorem pageFaultHandler_eq {s : Vm} {e : ℕ} {faultVa : BitVec 32} {user prot : Bool}
    {pte : Option PtePtr} (hpte : pgdirFind s (s.pgdir e) faultVa = Except.ok pte) :
    s.pageFaultHandler e faultVa user prot = s.handleClass e faultVa
      (faultClass user prot faultVa (pte.map s.pte)) := by
  unfold Vm.pageFaultHandler faultClass
  by_cases hpanic : ¬ user = true ∧ uTop < faultVa
  · rw [if_pos hpanic, if_pos hpanic]
    rfl
  · rw [if_neg hpanic, if_neg hpanic]
    beta_reduce
    by_cases hkernel : ¬ user = true ∧ ¬ prot = true
    · rw [if_pos hkernel, if_pos hkernel]
      rfl
    · rw [if_neg hkernel, if_neg hkernel, hpte]
      change (if (pte.any fun pte => isSwapped (s.pte pte)) = true then _ else _) = _
      have hany : (pte.any fun pte => isSwapped (s.pte pte)) = (pte.map s.pte).any isSwapped := by
        rw [Option.any_map]
      rw [hany, any_isSwapped]
      cases hout : (pte.map s.pte).any fun w => isSwapped w && w &&& pteAvail == 0 with
      | true =>
          rw [Bool.true_or, if_pos rfl, if_pos rfl]
          rfl
      | false =>
          rw [Bool.false_or, if_neg Bool.false_ne_true]
          cases hin : (pte.map s.pte).any fun w => isSwapped w && w &&& pteAvail != 0 with
          | true =>
              rw [if_pos rfl, if_pos rfl]
              rfl
          | false =>
              rw [if_neg Bool.false_ne_true, if_neg Bool.false_ne_true]
              by_cases hprot : ¬ prot = true
              · rw [if_pos hprot, if_pos hprot]
                rfl
              · rw [if_neg hprot, if_neg hprot]
                rfl

/-! ### The owners -/

/-- **The swap subsystem with the states of the environments** that own the entries. -/
structure OwnedSwap where
  swap : Swap
  owner : PteId → ℕ
  status : ℕ → EnvStatus

namespace OwnedSwap

/-- `swap_in` for the entry `k`, with the frame `pp` from `page_alloc`: its owner goes to sleep. -/
def swapIn (s : OwnedSwap) (k : PteId) (pp : ℕ) : OwnedSwap :=
  { s with swap := s.swap.swapIn k pp, status := Function.update s.status (s.owner k) .sleeping }

/-- The states of the environments after a round: the last round of a `page_in` wakes the owner
up. -/
def wake (s : OwnedSwap) : ℕ → EnvStatus :=
  match s.swap.tList with
  | [] => s.status
  | t :: _ =>
      if t.fptr = .pageIn ∧ nSectors ≤ t.count then
        Function.update s.status (s.owner t.entry) .runnable
      else s.status

/-- A round of `ktask()`. -/
def round (s : OwnedSwap) (ready : Bool) : Except Crash OwnedSwap := do
  let swap ← swapRound s.swap ready
  pure { s with swap := swap, status := s.wake }

/-- Rounds of `ktask()`, with the answers of `ide_is_ready()`. -/
def rounds (s : OwnedSwap) (answers : List Bool) : Except Crash OwnedSwap := answers.foldlM round s

end OwnedSwap

/-- **The `page_out` of the only mapping of a frame is queued**, and `slot` is what `find_swap_spot`
will find. -/
structure OutQueued (s : Swap) (k : PteId) (slot : ℕ) : Prop where
  queue : ∃ sec, s.tList = [⟨.pageOut, 0, sec, pgnum (s.ptes k), k⟩]
  present : isPresent (s.ptes k) = true
  noGlobal : s.ptes k &&& pteG = 0
  noHuge : s.ptes k &&& ptePS = 0
  noAvail : s.ptes k &&& pteAvail = 0
  ref : (s.pages (pgnum (s.ptes k))).ref = 1
  alloc : (s.pages (pgnum (s.ptes k))).alloc = true
  spot : findSwapSpot s.swapMap = slot
  free : getBit s.swapMap slot = false
  room : slot + 7 < sizeSwapMap

/-- The entry and the frame after the `page_out`. -/
structure Out (s₀ : OwnedSwap) (k : PteId) (slot : ℕ) (s : OwnedSwap) : Prop where
  queue : s.swap.tList = []
  owner : s.owner = s₀.owner
  pte : s.swap.ptes k = swappedPte (s₀.swap.ptes k) slot
  page : (s.swap.pages (pgnum (s₀.swap.ptes k))).ref = 0 ∧
    (s.swap.pages (pgnum (s₀.swap.ptes k))).alloc = false
  swapMap : s.swap.swapMap = toggleSpan s₀.swap.swapMap slot nSectors

/-- The entry, the frame and the owner after the `page_in`. -/
structure Back (s₀ : OwnedSwap) (k : PteId) (pp : ℕ) (s : OwnedSwap) : Prop where
  queue : s.swap.tList = []
  pte : s.swap.ptes k = s₀.swap.ptes k &&& 0xFFF#32 ||| page2pa pp
  ref : (s.swap.pages pp).ref = 1
  swapMap : s.swap.swapMap = s₀.swap.swapMap
  runnable : s.status (s₀.owner k) = .runnable

/-- **The round trip of an entry**, for faults from user mode or from the kernel: after enough
rounds the page is out, and a fault is recognised; after `swap_in` a fault is recognised until the
page is in again. -/
def RoundTrip (user : Bool) (faultVa : BitVec 32) (s : OwnedSwap) (k : PteId) (slot : ℕ) : Prop :=
  ∀ outs : List Bool, nSectors ≤ outs.dropLast.count true → ∃ s₁, s.rounds outs = Except.ok s₁ ∧
    s₁.swap.tList = [] ∧ isPresent (s₁.swap.ptes k) = false ∧ s₁.swap.ptes k &&& pteG ≠ 0 ∧
    pgnum (s₁.swap.ptes k) = slot ∧
    (s₁.swap.pages (pgnum (s.swap.ptes k))).ref = 0 ∧
    (s₁.swap.pages (pgnum (s.swap.ptes k))).alloc = false ∧
    faultClass user false faultVa (some (s₁.swap.ptes k)) = .swappedOut ∧
    ∀ pp, s₁.swap.available pp → ∀ ins : List Bool, ∃ s₂,
      (s₁.swapIn k pp).rounds ins = Except.ok s₂ ∧
      if nSectors ≤ ins.dropLast.count true then Back s k pp s₂
      else faultClass user false faultVa (some (s₂.swap.ptes k)) = .beingSwapped

/-! ### On the way out -/

/-- `c` sectors have been written. -/
structure Leaving (s₀ : OwnedSwap) (k : PteId) (slot c : ℕ) (s : OwnedSwap) : Prop where
  queue : ∃ sec, s.swap.tList = [⟨.pageOut, c, sec, pgnum (s₀.swap.ptes k), k⟩] ∧
    (0 < c → sec = slot)
  owner : s.owner = s₀.owner
  ptes : s.swap.ptes = s₀.swap.ptes
  pages : s.swap.pages = s₀.swap.pages
  swapMap : s.swap.swapMap = toggleSpan s₀.swap.swapMap slot c

/-- No round fails here. -/
def Never (_ : Crash) : Prop := False

/-- The list of tasklets after a round, from the answer of the tasklet at its head. -/
def afterRound (rest : List SwapTask) (r : Swap × SwapTask × Bool) : Swap :=
  { r.1 with tList := if r.2.2 then rest else r.2.1 :: rest }

theorem swapRound_pageOut {s : Swap} {t : SwapTask} {rest : List SwapTask}
    (hl : s.tList = t :: rest) (hf : t.fptr = .pageOut) (ready : Bool) :
    swapRound s ready = pageOut s t ready >>= fun r => pure (afterRound rest r) := by
  unfold swapRound
  rw [hl]
  simp only [hf]
  rfl

theorem swapRound_pageIn {s : Swap} {t : SwapTask} {rest : List SwapTask} (hl : s.tList = t :: rest)
    (hf : t.fptr = .pageIn) (ready : Bool) :
    swapRound s ready = pure (afterRound rest (pageIn s t ready)) := by
  unfold swapRound
  rw [hl]
  simp only [hf]
  rfl

/-- A round that only has an empty list to look at. -/
theorem OwnedSwap.round_nil {s : OwnedSwap} (hl : s.swap.tList = []) (ready : Bool) :
    s.round ready = Except.ok s := by
  unfold OwnedSwap.round swapRound OwnedSwap.wake
  rw [hl]
  rfl

theorem Leaving.spot {s₀ s : OwnedSwap} {k : PteId} {slot c sec : ℕ} (h : Leaving s₀ k slot c s)
    (hq : OutQueued s₀.swap k slot) (hsec : 0 < c → sec = slot) :
    outSpot s.swap ⟨.pageOut, c, sec, pgnum (s₀.swap.ptes k), k⟩ = slot := by
  unfold outSpot
  split
  · rename_i hzero
    change c = 0 at hzero
    rw [h.swapMap, hzero]
    exact hq.spot
  · rename_i hpos
    exact hsec (Nat.pos_of_ne_zero hpos)

/-- A round writes a sector, or finds the disk busy. -/
theorem Leaving.round {s₀ s : OwnedSwap} {k : PteId} {slot c : ℕ} (hq : OutQueued s₀.swap k slot)
    (hc : c < nSectors) (h : Leaving s₀ k slot c s) (ready : Bool) :
    Ends Never (Leaving s₀ k slot (advance c ready)) (s.round ready) := by
  obtain ⟨sec, hl, hsec⟩ := h.queue
  have hspot := h.spot hq hsec
  obtain ⟨hptes, hpages, -, -, hmap⟩ :=
    s.swap.startAt_frame ⟨.pageOut, c, sec, pgnum (s₀.swap.ptes k), k⟩ slot
  unfold OwnedSwap.round
  rw [swapRound_pageOut hl rfl]
  unfold pageOut
  dsimp only
  rw [if_pos hc, hspot]
  cases ready with
  | true =>
      refine ⟨⟨slot, rfl, fun _ => rfl⟩, h.owner, hptes.trans h.ptes, hpages.trans h.pages, ?_⟩
      change toggleBit _ _ = toggleSpan _ _ (c + 1)
      rw [toggleSpan, ← h.swapMap, ← hmap]
      rfl
  | false =>
      exact ⟨⟨slot, rfl, fun _ => rfl⟩, h.owner, hptes.trans h.ptes, hpages.trans h.pages,
        hmap.trans h.swapMap⟩

/-- The last round of the `page_out`. -/
theorem Leaving.last {s₀ s : OwnedSwap} {k : PteId} {slot : ℕ} (hq : OutQueued s₀.swap k slot)
    (h : Leaving s₀ k slot nSectors s) (ready : Bool) :
    Ends Never (Out s₀ k slot) (s.round ready) := by
  obtain ⟨sec, hl, hsec⟩ := h.queue
  have hspot := h.spot hq hsec
  have hstart : s.swap.startAt ⟨.pageOut, nSectors, sec, pgnum (s₀.swap.ptes k), k⟩ slot = s.swap :=
    if_neg (show ¬ nSectors = 0 by decide)
  have hpage : s.swap.pages (pgnum (s₀.swap.ptes k)) = s₀.swap.pages (pgnum (s₀.swap.ptes k)) := by
    rw [h.pages]
  unfold OwnedSwap.round
  rw [swapRound_pageOut hl rfl]
  unfold pageOut pageOutFinish
  dsimp only
  rw [if_neg (Nat.lt_irrefl _), hspot, hstart, hpage, hq.ref, hq.alloc]
  refine ⟨rfl, h.owner, ?_, ?_, h.swapMap⟩
  · change Function.update s.swap.ptes k _ k = _
    rw [Function.update_self, h.ptes]
  · change (Function.update s.swap.pages _ _ _).ref = 0 ∧
      (Function.update s.swap.pages _ _ _).alloc = false
    rw [Function.update_self]
    exact ⟨rfl, rfl⟩

theorem Out.rest {s₀ s : OwnedSwap} {k : PteId} {slot : ℕ} (h : Out s₀ k slot s) (ready : Bool) :
    Ends Never (Out s₀ k slot) (s.round ready) := by
  rw [OwnedSwap.round_nil h.queue]
  exact h

/-! ### On the way back -/

/-- `c` sectors have been read. -/
structure Returning (s₀ : OwnedSwap) (k : PteId) (slot pp c : ℕ) (s : OwnedSwap) : Prop where
  queue : s.swap.tList = [⟨.pageIn, c, slot, pp, k⟩]
  owner : s.owner = s₀.owner
  pte : s.swap.ptes k = swappedPte (s₀.swap.ptes k) slot ||| pteAvail
  ref : (s.swap.pages pp).ref = 0
  swapMap : s.swap.swapMap = toggleSpan (toggleSpan s₀.swap.swapMap slot nSectors) slot c

/-- `swap_in` marks the entry and queues the `page_in`. -/
theorem Out.swapIn {s₀ s : OwnedSwap} {k : PteId} {slot pp : ℕ} (h : Out s₀ k slot s)
    (hslot : slot < 2 ^ 20) (hpp : s.swap.available pp) :
    Returning s₀ k slot pp 0 (s.swapIn k pp) := by
  have hroom : s.swap.tList.length < nTasklets := by
    rw [h.queue]
    decide
  have hpgnum : pgnum (s.swap.ptes k) = slot := by rw [h.pte, pgnum_swappedPte _ hslot]
  have hswap : (s.swapIn k pp).swap =
      { (s.swap.setPte k (s.swap.ptes k ||| pteAvail)).setPage pp
          { s.swap.pages pp with alloc := true } with
        tList := s.swap.tList ++ [⟨.pageIn, 0, pgnum (s.swap.ptes k), pp, k⟩] } := by
    change s.swap.swapIn k pp = _
    rw [Swap.swapIn, if_pos hroom]
    rfl
  refine ⟨?_, h.owner, ?_, ?_, ?_⟩
  · rw [hswap, hpgnum, h.queue]
    rfl
  · rw [hswap, ← h.pte]
    exact Function.update_self ..
  · rw [hswap]
    change (Function.update s.swap.pages pp _ pp).ref = 0
    rw [Function.update_self]
    exact hpp.2.2
  · rw [hswap]
    exact h.swapMap

/-- A round reads a sector, or finds the disk busy. -/
theorem Returning.round {s₀ s : OwnedSwap} {k : PteId} {slot pp c : ℕ} (hc : c < nSectors)
    (h : Returning s₀ k slot pp c s) (ready : Bool) :
    Ends Never (Returning s₀ k slot pp (advance c ready)) (s.round ready) := by
  obtain ⟨hptes, hpages, -, -, hmap⟩ := s.swap.startAt_frame ⟨.pageIn, c, slot, pp, k⟩ slot
  unfold OwnedSwap.round
  rw [swapRound_pageIn h.queue rfl]
  unfold pageIn
  dsimp only
  rw [if_pos hc]
  cases ready with
  | true =>
      refine ⟨rfl, h.owner, (congrFun hptes k).trans h.pte,
        (congrArg PageState.ref (congrFun hpages pp)).trans h.ref, ?_⟩
      change toggleBit _ _ = toggleSpan _ _ (c + 1)
      rw [toggleSpan, ← h.swapMap, ← hmap]
      rfl
  | false =>
      exact ⟨rfl, h.owner, (congrFun hptes k).trans h.pte,
        (congrArg PageState.ref (congrFun hpages pp)).trans h.ref,
        hmap.trans h.swapMap⟩

/-- The last round of the `page_in`. -/
theorem Returning.last {s₀ s : OwnedSwap} {k : PteId} {slot pp : ℕ} (hq : OutQueued s₀.swap k slot)
    (h : Returning s₀ k slot pp nSectors s) (ready : Bool) :
    Ends Never (Back s₀ k pp) (s.round ready) := by
  have hstart : s.swap.startAt ⟨.pageIn, nSectors, slot, pp, k⟩ slot = s.swap :=
    if_neg (show ¬ nSectors = 0 by decide)
  unfold OwnedSwap.round
  rw [swapRound_pageIn h.queue rfl]
  unfold pageIn
  dsimp only
  rw [if_neg (Nat.lt_irrefl _), hstart]
  refine ⟨rfl, ?_, ?_, ?_, ?_⟩
  · change Function.update s.swap.ptes k (broughtPte (s.swap.ptes k) pp) k = _
    rw [Function.update_self, h.pte, broughtPte_swappedPte hq.present hq.noGlobal hq.noAvail]
  · change (Function.update s.swap.pages pp _ pp).ref = 1
    rw [Function.update_self]
    change (s.swap.pages pp).ref + 1 = 1
    rw [h.ref]
  · change s.swap.swapMap = _
    rw [h.swapMap, toggleSpan_toggleSpan]
  · change s.wake (s₀.owner k) = _
    unfold OwnedSwap.wake
    rw [h.queue, ← h.owner]
    exact Function.update_self ..

theorem Back.rest {s₀ s : OwnedSwap} {k : PteId} {pp : ℕ} (h : Back s₀ k pp s) (ready : Bool) :
    Ends Never (Back s₀ k pp) (s.round ready) := by
  rw [OwnedSwap.round_nil h.queue]
  exact h

/-! ### The round trip -/

/-- A computation that never fails ends with a result. -/
theorem exists_of_ends {α : Type} {Q : α → Prop} {x : Except Crash α} (h : Ends Never Q x) :
    ∃ a, x = Except.ok a ∧ Q a := by
  cases x with
  | ok a => exact ⟨a, rfl, h⟩
  | error e => exact h.elim

/-- The `page_out` ends after enough rounds. -/
theorem OutQueued.rounds {s : OwnedSwap} {k : PteId} {slot : ℕ} (hq : OutQueued s.swap k slot)
    {outs : List Bool} (houts : nSectors ≤ outs.dropLast.count true) :
    ∃ s₁, s.rounds outs = Except.ok s₁ ∧ Out s k slot s₁ := by
  have hstart : Leaving s k slot 0 s := by
    obtain ⟨sec, hl⟩ := hq.queue
    exact ⟨⟨sec, hl, fun h => absurd h (Nat.lt_irrefl 0)⟩, rfl, rfl, rfl, rfl⟩
  have hends : Ends Never _ (s.rounds outs) :=
    ends_polled (fun _ _ ready hc h => h.round hq hc ready)
    (fun _ ready h => h.last hq ready) (fun _ ready h => h.rest ready) (by decide) hstart
  obtain ⟨s₁, hr, hs₁⟩ := exists_of_ends hends
  rw [if_pos houts] at hs₁
  exact ⟨s₁, hr, hs₁⟩

/-- The `page_in` ends after enough rounds; before, it is on its way. -/
theorem Out.rounds {s₀ s : OwnedSwap} {k : PteId} {slot pp : ℕ} (hq : OutQueued s₀.swap k slot)
    (h : Out s₀ k slot s) (hslot : slot < 2 ^ 20) (hpp : s.swap.available pp) (ins : List Bool) :
    ∃ s₂, (s.swapIn k pp).rounds ins = Except.ok s₂ ∧
      if nSectors ≤ ins.dropLast.count true then Back s₀ k pp s₂ else ∃ c ≤ nSectors,
        Returning s₀ k slot pp c s₂ :=
  exists_of_ends (ends_polled (fun _ _ ready hc h => h.round hc ready)
    (fun _ ready h => h.last hq ready)
    (fun _ ready h => h.rest ready) (by decide) (h.swapIn hslot hpp))

/-- How the handler sees an entry that records a slot. -/
theorem faultClass_swapped {user : Bool} {faultVa w : BitVec 32} (hva : faultVa ≤ uTop)
    (hw : isSwapped w = true) :
    faultClass user false faultVa (some w) =
      if user = false then .allocate else if w &&& pteAvail = 0 then .swappedOut
        else .beingSwapped := by
  unfold faultClass
  rw [if_neg fun h => absurd h.2 (BitVec.not_lt.2 hva)]
  cases user with
  | false => rfl
  | true =>
      simp only [Option.any_some, hw, Bool.true_and]
      by_cases hav : w &&& pteAvail = 0#32
      · simp [hav]
      · simp [hav]

namespace OutQueued

variable {s : OwnedSwap} {k : PteId} {slot : ℕ} {faultVa : BitVec 32}

/-- The entry while the page is out. -/
theorem swapped (hq : OutQueued s.swap k slot) {s₁ : OwnedSwap} (h : Out s k slot s₁) :
    isSwapped (s₁.swap.ptes k) = true ∧ s₁.swap.ptes k &&& pteAvail = 0 := by
  rw [h.pte]
  exact ⟨isSwapped_swappedPte hq.present slot, avail_swappedPte hq.noAvail slot⟩

/-- The round trip, with faults from user mode. -/
theorem roundTrip (hq : OutQueued s.swap k slot) (hva : faultVa ≤ uTop) :
    RoundTrip true faultVa s k slot := by
  intro outs houts
  have hslot : slot < 2 ^ 20 := hq.spot ▸ findSwapSpot_lt s.swap.swapMap
  obtain ⟨s₁, hr, hs₁⟩ := hq.rounds houts
  obtain ⟨hswapped, hav⟩ := hq.swapped hs₁
  refine ⟨s₁, hr, hs₁.queue, ?_, ?_, ?_, hs₁.page.1, hs₁.page.2, ?_, fun pp hpp ins => ?_⟩
  · rw [isSwapped, Bool.and_eq_true, Bool.not_eq_true'] at hswapped
    exact hswapped.1
  · rw [isSwapped, Bool.and_eq_true, bne_iff_ne] at hswapped
    exact hswapped.2
  · rw [hs₁.pte, pgnum_swappedPte _ hslot]
  · rw [faultClass_swapped hva hswapped, if_neg (by decide), if_pos hav]
  · obtain ⟨s₂, hr₂, hs₂⟩ := hs₁.rounds hq hslot hpp ins
    refine ⟨s₂, hr₂, ?_⟩
    split
    · rename_i hins
      rwa [if_pos hins] at hs₂
    · rename_i hins
      rw [if_neg hins] at hs₂
      obtain ⟨c, -, hc⟩ := hs₂
      have hmarked : isSwapped (s₂.swap.ptes k) = true := by
        rw [hc.pte]
        exact isSwapped_or_avail (isSwapped_swappedPte hq.present slot)
      rw [faultClass_swapped hva hmarked, if_neg (by decide), if_neg]
      rw [hc.pte]
      exact or_avail_ne_zero _

/-- A fault of the kernel on a page in the swap area is taken for one on an absent page. -/
theorem not_roundTrip (hq : OutQueued s.swap k slot) (hva : faultVa ≤ uTop) :
    ¬ RoundTrip false faultVa s k slot := by
  intro htrip
  obtain ⟨s₁, hr, -, -, -, -, -, -, hclass, -⟩ := htrip (List.replicate 9 true) (by decide)
  obtain ⟨s₁', hr', hs₁⟩ :=
    hq.rounds (show nSectors ≤ (List.replicate 9 true).dropLast.count true by decide)
  obtain rfl : s₁ = s₁' := Except.ok.inj (hr.symm.trans hr')
  rw [faultClass_swapped hva (hq.swapped hs₁).1] at hclass
  exact nomatch hclass

end OutQueued

/-- The environment 3 maps the frame 16, and its `page_out` is queued. -/
def queuedPage : OwnedSwap where
  swap :=
    { live := fun e => e = 3
      tables := fun e j => e = 3 && j = 0
      ptes := fun k => if k = .user 3 1 then page2pa 16 ||| 0x67#32 else k.boot
      pages := fun pp => if pp = 16 then ⟨1, true⟩ else ⟨0, false⟩
      mem := fun _ _ => 0
      disk := fun _ _ => 0
      ideNext := 0
      swapMap := Bitmap.empty
      tList := [⟨.pageOut, 0, 0, 16, .user 3 1⟩] }
  owner := fun _ => 3
  status := fun _ => .running

theorem queuedPage_outQueued : OutQueued queuedPage.swap (.user 3 1) 1 where
  queue := ⟨0, rfl⟩
  present := by decide
  noGlobal := by decide
  noHuge := by decide
  noAvail := by decide
  ref := by decide
  alloc := by decide
  spot := by decide +kernel
  free := by decide
  room := by decide

end Jos
