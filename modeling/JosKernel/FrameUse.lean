/-
**The frame allocator as its callers see it.**

The code that manages page tables asks for single frames, counts the references to them and gives
them back. The statements here say what such a call does to everything its caller can see: the free
list, the flags, the reference counts and the bytes of memory. They ask for less than the invariant
of the allocator: only that the free list is one, and that the frames on it are clear.

A call can still stop the kernel. `Jos.Steady` is what it takes that it does not: all of memory is
mapped, the counter of free pages is exact, and the lists of pages in use can be walked.

Main definitions:

* `Jos.FreeInv` — the free list;
* `Jos.Mm.Held` — a single frame that is in use;
* `Jos.Taken`, `Jos.Given` — a frame has been handed out, has been given back;
* `Jos.LruOnly` — only the lists of pages in use have changed;
* `Jos.Steady` — the allocator does not stop the kernel.

Main results:

* `Jos.pageAlloc_taken`, `Jos.pageFree_given` — the calls;
* `Jos.lruHaInsert_lruOnly`, `Jos.lruRemoveElList_lruOnly` — what happens to the lists.
-/

import JosKernel.FrameAllocFree
import JosKernel.LruLists
import JosKernel.PageTable

set_option relaxedAutoImplicit false
set_option autoImplicit false

namespace Jos

open LinkedList Outcome

/-! ### The free list -/

/-- **The free list**, and what the array says about the frames that are on it. -/
structure FreeInv (s : Mm) (l : List ℕ) : Prop where
  chain : Chain s.link s.pageFreeList l
  listed : ∀ i ∈ l, i < s.npages ∧ (s.pages i).pageFlags = 0 ∧ (s.pages i).ppRef = 0
  off : ∀ i ∉ l, s.link i = none

/-- The free list, whatever the reference counts of its frames are. -/
structure FreeList (s : Mm) (l : List ℕ) : Prop where
  chain : Chain s.link s.pageFreeList l
  listed : ∀ i ∈ l, i < s.npages ∧ (s.pages i).pageFlags = 0
  off : ∀ i ∉ l, s.link i = none

/-- The frame is in use, and not as the head of a huge block. -/
def Mm.Held (s : Mm) (f : ℕ) : Prop :=
  f < s.npages ∧ (s.pages f).has alloc = true ∧ (s.pages f).has allocHuge = false

theorem AllocInv.freeInv {s : Mm} {live : List Block} {l : List ℕ} (h : AllocInv s live l) :
    FreeInv s l where
  chain := h.chain
  listed i hi := (h.listed i hi).2
  off i hi := by
    by_cases hb : ∃ b ∈ live, b.Has i
    · obtain ⟨b, hb, hbi⟩ := hb
      exact (h.held b hb i hbi).2
    · exact (h.rest i hi fun b hb' hbi => hb ⟨b, hb', hbi⟩).1

theorem Mm.Held.congr {s s' : Mm} {f : ℕ} (h : s.Held f) (hnp : s'.npages = s.npages)
    (hfl : (s'.pages f).pageFlags = (s.pages f).pageFlags) : s'.Held f := by
  rw [Mm.Held, PageInfo.has, PageInfo.has, hnp, hfl]
  exact h

theorem Mm.Held.lt_pow {s : Mm} {f : ℕ} (h : s.Held f) : f < 2 ^ 20 :=
  Nat.lt_of_lt_of_le h.1 s.npages_le

theorem FreeInv.freeList {s : Mm} {l : List ℕ} (h : FreeInv s l) : FreeList s l where
  chain := h.chain
  listed i hi := ⟨(h.listed i hi).1, (h.listed i hi).2.1⟩
  off := h.off

/-- There is enough fuel for every walk along the list. -/
theorem FreeList.length_le {s : Mm} {l : List ℕ} (h : FreeList s l) : l.length ≤ s.npages := by
  have hsub : l ⊆ List.range s.npages := by
    intro i hi
    exact List.mem_range.2 (h.listed i hi).1
  have hle := List.Nodup.length_le_of_subset h.chain.nodup hsub
  rwa [List.length_range] at hle

/-- Another state with the same list. -/
theorem FreeList.congr {s s' : Mm} {l : List ℕ} (h : FreeList s l) (hnp : s'.npages = s.npages)
    (hlink : s'.link = s.link) (hhead : s'.pageFreeList = s.pageFreeList)
    (hflags : ∀ i ∈ l, (s'.pages i).pageFlags = (s.pages i).pageFlags) : FreeList s' l where
  chain := by
    rw [hlink, hhead]
    exact h.chain
  listed i hi := by
    rw [hnp, hflags i hi]
    exact h.listed i hi
  off i hi := by
    rw [hlink]
    exact h.off i hi

namespace FreeInv

variable {s : Mm} {l : List ℕ}

theorem length_le (h : FreeInv s l) : l.length ≤ s.npages := h.freeList.length_le

theorem not_mem_of_held (h : FreeInv s l) {f : ℕ} (hf : s.Held f) : f ∉ l := by
  intro hmem
  have halloc := hf.2.1
  rw [PageInfo.has, (h.listed f hmem).2.1] at halloc
  exact absurd halloc (by decide)

/-- A frame is on the list when a walk from its head comes by. -/
theorem visits_iff (h : FreeInv s l) {f : ℕ} : Visits s.link s.pageFreeList f ↔ f ∈ l :=
  h.chain.visits_iff

/-- Another state with the same list. -/
theorem congr {s' : Mm} (h : FreeInv s l) (hnp : s'.npages = s.npages) (hlink : s'.link = s.link)
    (hhead : s'.pageFreeList = s.pageFreeList)
    (hpages : ∀ i ∈ l, (s'.pages i).pageFlags = (s.pages i).pageFlags ∧
      (s'.pages i).ppRef = (s.pages i).ppRef) : FreeInv s' l where
  chain := by
    rw [hlink, hhead]
    exact h.chain
  listed i hi := by
    rw [hnp, (hpages i hi).1, (hpages i hi).2]
    exact h.listed i hi
  off i hi := by
    rw [hlink]
    exact h.off i hi

/-- The reference count of a frame that is not free. -/
theorem setRef (h : FreeInv s l) {pp : ℕ} (hpp : pp ∉ l) (n : BitVec 16) :
    FreeInv (s.modPage pp fun p => { p with ppRef := n }) l := by
  refine h.congr rfl (Mm.link_modPage s pp fun _ => rfl) rfl fun i hi => ?_
  have hne : i ≠ pp := by
    rintro rfl
    exact hpp hi
  rw [Mm.modPage_of_ne _ _ hne]
  exact ⟨rfl, rfl⟩

end FreeInv

/-! ### The lists of pages in use can be walked -/

/-- **The two lists of pages in use can be walked**: they end, their pages exist, and no page is on
both. The tails and the counters play no part in that. -/
def LruSound (s : Mm) : Prop :=
  ∃ L : LruSide → List ℕ, (∀ q, Chain s.lruLink (s.lruHead q) (L q)) ∧
    (∀ q, ∀ p ∈ L q, p < s.npages) ∧ ∀ q q' p, p ∈ L q → p ∈ L q' → q = q'

theorem LruInv.sound {s : Mm} {L : LruSide → List ℕ} (h : LruInv s L) : LruSound s :=
  ⟨L, fun q => (h.rep q).chain, h.bound, h.apart⟩

theorem LruSound.congr {s s' : Mm} (h : LruSound s) (hnp : s'.npages = s.npages)
    (hlists : s'.lruLists = s.lruLists) (hlink : s'.lruLink = s.lruLink) : LruSound s' := by
  obtain ⟨L, hchain, hbound, hapart⟩ := h
  refine ⟨L, fun q => ?_, fun q p hp => ?_, hapart⟩
  · rw [hlink, Mm.lruHead, hlists]
    exact hchain q
  · rw [hnp]
    exact hbound q p hp

/-- **The allocator does not stop the kernel**: all of memory is mapped, the counter of free pages
is the length of the list, and the lists of pages in use can be walked. -/
def Steady (s : Mm) (l : List ℕ) : Prop :=
  s.premappedFlag = false ∧ drift s l = 0 ∧ LruSound s

/-! ### Handing out a frame -/

/-- **The frame `pp` has been handed out**: it is marked as in use, its bytes are zero if that was
asked for, and reference counts, other frames and the lists of pages in use are as before. -/
structure Taken (s s' : Mm) (req : BitVec 32) (pp : ℕ) : Prop where
  npages : s'.npages = s.npages
  premapped : s'.premappedFlag = s.premappedFlag
  ref : ∀ i, (s'.pages i).ppRef = (s.pages i).ppRef
  flags : ∀ i ≠ pp, (s'.pages i).pageFlags = (s.pages i).pageFlags
  own : (s'.pages pp).pageFlags = alloc
  mem : ∀ f ≠ pp, s'.mem f = s.mem f
  zero : req &&& allocZero ≠ 0 → s'.mem pp = fun _ => 0
  lruLists : s'.lruLists = s.lruLists
  lruLink : s'.lruLink = s.lruLink

theorem Taken.held {s s' : Mm} {flags : BitVec 32} {pp : ℕ} (h : Taken s s' flags pp)
    (hpp : pp < s.npages) : s'.Held pp := by
  rw [Mm.Held, PageInfo.has, PageInfo.has, h.own, h.npages]
  exact ⟨hpp, by decide, by decide⟩

/-- A page that came off the list and has been marked, whatever was done to its bytes. -/
theorem Unlinked.taken {s s₁ : Mm} {l : List ℕ} {pp : ℕ} (h : FreeList s l)
    (hmem : pp ∈ l) (hun : Unlinked s s₁ l pp) (flags : BitVec 32) {m : ℕ → ℕ → BitVec 8}
    (hm : ∀ f ≠ pp, m f = s.mem f) (hz : flags &&& allocZero ≠ 0 → m pp = fun _ => 0) :
    Taken s { s₁.modPage pp (PageInfo.set alloc) with mem := m } flags pp ∧
      FreeList { s₁.modPage pp (PageInfo.set alloc) with mem := m } (l.erase pp) := by
  have hzero : (s₁.pages pp).pageFlags = 0 := by
    rw [hun.flags pp]
    exact (h.listed pp hmem).2
  have hother : ∀ i ≠ pp, (s₁.modPage pp (PageInfo.set alloc)).pages i = s₁.pages i :=
    fun i hi => Mm.modPage_of_ne _ _ hi
  have hlink : (s₁.modPage pp (PageInfo.set alloc)).link = s₁.link :=
    Mm.link_modPage s₁ pp fun _ => rfl
  have hnd := h.chain.nodup
  constructor
  · refine ⟨hun.npages, hun.premapped, fun i => ?_, fun i hi => ?_, ?_, hm, hz, hun.lruLists, ?_⟩
    · by_cases hi : i = pp
      · subst hi
        exact (congrArg PageInfo.ppRef (Mm.modPage_self _ _ _)).trans (hun.ref i)
      · exact (congrArg PageInfo.ppRef (hother i hi)).trans (hun.ref i)
    · exact (congrArg PageInfo.pageFlags (hother i hi)).trans (hun.flags i)
    · have hset : (PageInfo.set alloc (s₁.pages pp)).pageFlags = alloc := by
        rw [PageInfo.set, hzero]
        exact BitVec.zero_or
      exact (congrArg PageInfo.pageFlags (Mm.modPage_self _ _ _)).trans hset
    · funext i
      by_cases hi : i = pp
      · subst hi
        exact (congrArg PageInfo.lruLink (Mm.modPage_self _ _ _)).trans (hun.lruLink i)
      · exact (congrArg PageInfo.lruLink (hother i hi)).trans (hun.lruLink i)
  · refine ⟨?_, fun i hi => ?_, fun i hi => ?_⟩
    · exact hlink ▸ hun.chain
    · obtain ⟨hne, hil⟩ := (hnd.mem_erase_iff).1 hi
      have hpage := hother i hne
      refine ⟨?_, ?_⟩
      · exact hun.npages.symm ▸ (h.listed i hil).1
      · exact (congrArg PageInfo.pageFlags hpage).trans ((hun.flags i).trans (h.listed i hil).2)
    · refine (congrFun hlink i).trans ?_
      by_cases hip : i = pp
      · subst hip
        exact hun.out hmem
      · have hil : i ∉ l := fun hil => hi ((hnd.mem_erase_iff).2 ⟨hip, hil⟩)
        rw [hun.off i hil]
        exact h.off i hil

/-- The end of an ordinary request, once a page is off the list. -/
theorem pageAllocFinish_taken {s s₁ : Mm} {l : List ℕ} {flags : BitVec 32} {pp : ℕ}
    (h : FreeList s l) (hmem : pp ∈ l) (hun : Unlinked s s₁ l pp)
    (hpois : flags &&& poisonAfterFree = 0) {E : Crash → Prop} :
    Ends E (fun r => r.1 = some pp ∧ Taken s r.2 flags pp ∧ FreeList r.2 (l.erase pp) ∧
      r.2.freePagesCount = s₁.freePagesCount) (pageAllocFinish flags (some pp) s₁) := by
  have hzero : (s₁.pages pp).pageFlags = 0 := by
    rw [hun.flags pp]
    exact (h.listed pp hmem).2
  have hnp : pp < s₁.npages := by
    rw [hun.npages]
    exact (h.listed pp hmem).1
  unfold pageAllocFinish markPoison
  dsimp only
  rw [if_neg (by simp [PageInfo.has, hzero]), if_neg (not_not_intro hpois)]
  simp only [pure_bind]
  refine ends_ite (fun hz => ?_) (fun hz => ?_)
  · rw [memsetPage_eq (by simpa using hnp)]
    have hm : ∀ f ≠ pp, Function.update s₁.mem pp (fun _ => 0) f = s.mem f := by
      intro f hf
      exact (Function.update_of_ne hf ..).trans (congrFun hun.mem f)
    obtain ⟨htaken, hfree⟩ := hun.taken h hmem flags hm fun _ => Function.update_self ..
    exact ⟨rfl, htaken, hfree, rfl⟩
  · obtain ⟨htaken, hfree⟩ := hun.taken h hmem flags (fun f _ => congrFun hun.mem f)
      fun h => absurd h hz
    exact ⟨rfl, htaken, hfree, rfl⟩

/-- The frames that stay on the list have no references if they had none. -/
theorem FreeInv.of_taken {s s' : Mm} {l : List ℕ} {flags : BitVec 32} {pp : ℕ} (h : FreeInv s l)
    (ht : Taken s s' flags pp) (hfree : FreeList s' (l.erase pp)) : FreeInv s' (l.erase pp) where
  chain := hfree.chain
  listed i hi := by
    refine ⟨(hfree.listed i hi).1, (hfree.listed i hi).2, ?_⟩
    rw [ht.ref]
    exact (h.listed i (List.mem_of_mem_erase hi)).2.2
  off := hfree.off

/-- **`page_alloc` for a single frame**, whatever the reference counts are: it takes a frame of the
free list, or finds the list empty, if it does not stop the kernel. -/
theorem pageAlloc_drawn {s : Mm} {l : List ℕ} {flags : BitVec 32} (h : FreeList s l)
    (hh : flags &&& allocHuge = 0) (hpois : flags &&& poisonAfterFree = 0) :
    Ends (fun _ => True)
      (fun r => r = (none, s) ∨ ∃ pp ∈ l, r.1 = some pp ∧ Taken s r.2 flags pp ∧
        FreeList r.2 (l.erase pp))
      (pageAlloc s flags) := by
  unfold pageAlloc
  refine ends_ite (fun _ => Or.inl rfl) (fun hne => ?_)
  rw [if_neg (not_not_intro hh)]
  refine ends_ite (fun hpre => ?_) (fun hpre => ?_)
  · rw [ends_bind]
    by_cases hlow : ∃ i ∈ l, below4MB i = true
    · refine (removeElement4MBPfl_ends h.chain h.length_le hlow).mono (fun _ _ => True.intro) ?_
      rintro ⟨pg0, s₁⟩ ⟨pp, rfl, hmem, hun, -⟩
      refine (pageAllocFinish_taken h hmem hun hpois).post ?_
      rintro r ⟨hr, htaken, hfree, -⟩
      exact Or.inr ⟨pp, hmem, hr, htaken, hfree⟩
    · have hhigh : ∀ i ∈ l, below4MB i = false := by
        intro i hi
        cases hb : below4MB i with
        | false => rfl
        | true => exact absurd ⟨i, hi, hb⟩ hlow
      rw [removeElement4MBPfl_of_high h.chain h.length_le hne hhigh]
      exact True.intro
  · rw [ends_bind]
    by_cases href : ∀ pp, s.pageFreeList = some pp → (s.pages pp).ppRef = 0
    · refine (removeHeadPfl_unlinked h.chain h.length_le hne href).mono (fun _ _ => True.intro) ?_
      rintro ⟨pp, s₁⟩ ⟨hmem, hun, -⟩
      refine (pageAllocFinish_taken h hmem hun hpois).post ?_
      rintro r ⟨hr, htaken, hfree, -⟩
      exact Or.inr ⟨pp, hmem, hr, htaken, hfree⟩
    · rw [not_forall] at href
      obtain ⟨pp, href⟩ := href
      rw [Classical.not_imp] at href
      obtain ⟨hhd, href⟩ := href
      unfold removeHeadPfl
      rw [hhd]
      dsimp only
      rw [if_pos href]
      exact True.intro

/-- The crashes that the kernel reports: a panic, a failed assertion, or the fault of a `NULL`
pointer. -/
def Crash.Panics : Crash → Prop
  | .panic _ | .assertFailed _ | .nullDeref => True
  | .wildPointer | .diverges => False

/-- **`page_alloc` for a single frame**: it takes a frame of the free list, or finds the list empty,
or panics. -/
theorem pageAlloc_outcome {s : Mm} {l : List ℕ} {flags : BitVec 32} (h : FreeInv s l)
    (hh : flags &&& allocHuge = 0) (hpois : flags &&& poisonAfterFree = 0) :
    Ends (fun c => c.Panics ∧ ¬ Steady s l)
      (fun r => (r = (none, s) ∧ l = []) ∨ ∃ pp ∈ l, r.1 = some pp ∧ Taken s r.2 flags pp ∧
        FreeInv r.2 (l.erase pp) ∧ (Steady s l → Steady r.2 (l.erase pp)))
      (pageAlloc s flags) := by
  have hassert : ∀ c, CounterAssert s l c → c.Panics ∧ ¬ Steady s l := by
    rintro c ⟨rfl, hdrift, -⟩
    exact ⟨True.intro, fun hst => hdrift hst.2.1⟩
  unfold pageAlloc
  refine ends_ite (fun hempty => Or.inl ⟨rfl, h.chain.eq_nil_iff.2 hempty⟩) (fun hne => ?_)
  rw [if_neg (not_not_intro hh)]
  refine ends_ite (fun hpre => ?_) (fun hpre => ?_)
  · have hunst : ¬ Steady s l := fun hst => by simp [hst.1] at hpre
    rw [ends_bind]
    by_cases hlow : ∃ i ∈ l, below4MB i = true
    · refine (removeElement4MBPfl_ends h.chain h.length_le hlow).mono hassert ?_
      rintro ⟨pg0, s₁⟩ ⟨pp, rfl, hmem, hun, -⟩
      refine (pageAllocFinish_taken h.freeList hmem hun hpois).post ?_
      rintro r ⟨hr, htaken, hfree, -⟩
      exact Or.inr ⟨pp, hmem, hr, htaken, h.of_taken htaken hfree, fun hst => absurd hst hunst⟩
    · have hhigh : ∀ i ∈ l, below4MB i = false := by
        intro i hi
        cases hb : below4MB i with
        | false => rfl
        | true => exact absurd ⟨i, hi, hb⟩ hlow
      rw [removeElement4MBPfl_of_high h.chain h.length_le hne hhigh]
      exact ⟨True.intro, hunst⟩
  · rw [ends_bind]
    refine (removeHeadPfl_ends h.chain h.length_le hne fun i hi => (h.listed i hi).2.2).mono
      hassert ?_
    rintro ⟨pp, s₁⟩ ⟨hmem, hun, hcount⟩
    refine (pageAllocFinish_taken h.freeList hmem hun hpois).post ?_
    rintro r ⟨hr, htaken, hfree, hcount'⟩
    refine Or.inr ⟨pp, hmem, hr, htaken, h.of_taken htaken hfree, fun hst => ⟨?_, ?_, ?_⟩⟩
    · exact htaken.premapped.trans hst.1
    · rw [drift_erase hmem (hcount'.trans hcount), hst.2.1]
      rfl
    · exact hst.2.2.congr htaken.npages htaken.lruLists htaken.lruLink

/-- Nothing stops `page_alloc` in a steady state. -/
theorem pageAlloc_taken {s : Mm} {l : List ℕ} {flags : BitVec 32} (h : FreeInv s l)
    (hh : flags &&& allocHuge = 0) (hpois : flags &&& poisonAfterFree = 0) :
    Ends (fun _ => ¬ Steady s l)
      (fun r => (r = (none, s) ∧ l = []) ∨ ∃ pp ∈ l, r.1 = some pp ∧ Taken s r.2 flags pp ∧
        FreeInv r.2 (l.erase pp) ∧ (Steady s l → Steady r.2 (l.erase pp)))
      (pageAlloc s flags) :=
  (pageAlloc_outcome h hh hpois).mono (fun _ hc => hc.2) fun _ hr => hr

/-! ### Giving a frame back -/

/-- **The frame `pp` has been given back**: it has no references, and other frames are as before. -/
structure Given (s s' : Mm) (pp : ℕ) : Prop where
  npages : s'.npages = s.npages
  ref : ∀ i ≠ pp, (s'.pages i).ppRef = (s.pages i).ppRef
  clear : (s'.pages pp).ppRef = 0
  flags : ∀ i ≠ pp, (s'.pages i).pageFlags = (s.pages i).pageFlags
  mem : ∀ f ≠ pp, s'.mem f = s.mem f

/-- A page whose flags have been changed goes back on the list, whatever was done to its bytes. -/
theorem given_addHead {s : Mm} {l : List ℕ} {pp : ℕ} (h : FreeInv s l) (hh : s.Held pp)
    {f : PageInfo → PageInfo} (hf : ∀ p, (f p).ppLink = p.ppLink ∧ (f p).lruLink = p.lruLink)
    {m : ℕ → ℕ → BitVec 8} (hm : ∀ g ≠ pp, m g = s.mem g) {s' : Mm}
    (hs' : s' = addHeadPfl ({ s with mem := m }.modPage pp f) pp) :
    Given s s' pp ∧ FreeInv s' (pp :: l) ∧ (Steady s l → Steady s' (pp :: l)) := by
  subst hs'
  have hout := h.not_mem_of_held hh
  have hpush := Pushed.of_addHead h.chain hout f (fun p => (hf p).1) m
  have hlru : ∀ i, ((addHeadPfl ({ s with mem := m }.modPage pp f) pp).pages i).lruLink =
      (s.pages i).lruLink := by
    intro i
    by_cases hi : i = pp
    · subst hi
      rw [addHeadPfl_self, Mm.modPage_self]
      exact (hf _).2
    · rw [hpush.frame i hi]
  refine ⟨?_, ⟨hpush.chain, fun i hi => ?_, fun i hi => ?_⟩, fun hst => ⟨hst.1, ?_, ?_⟩⟩
  · exact ⟨rfl, fun i hi => by rw [hpush.frame i hi], hpush.clear.2,
      fun i hi => by rw [hpush.frame i hi], hm⟩
  · by_cases hip : i = pp
    · subst hip
      exact ⟨hh.1, hpush.clear⟩
    · rw [hpush.frame i hip, hpush.npages]
      exact h.listed i ((List.mem_cons.1 hi).resolve_left hip)
  · simp only [List.mem_cons, not_or] at hi
    rw [Mm.link, hpush.frame i hi.1]
    exact h.off i hi.2
  · exact (drift_push hpush rfl).trans hst.2.1
  · exact hst.2.2.congr rfl rfl (funext hlru)

/-- **`page_free` of a single frame.** -/
theorem pageFree_given {s : Mm} {l : List ℕ} {pp : ℕ} (h : FreeInv s l) (hh : s.Held pp) :
    Ends (fun _ => (s.pages pp).ppRef ≠ 0)
      (fun s' => Given s s' pp ∧ FreeInv s' (pp :: l) ∧ (Steady s l → Steady s' (pp :: l)))
      (pageFree s pp) := by
  have hlink : (s.pages pp).ppLink = none := h.off pp (h.not_mem_of_held hh)
  obtain ⟨f, m, hclear, hf, hm, halloc, -⟩ := clearPoison_eq (s := s) hh.1
  have hset : (f (s.pages pp)).has alloc = true := by
    rw [PageInfo.has, halloc]
    exact hh.2.1
  unfold pageFree
  refine ends_ite (fun href => href) (fun _ => ?_)
  rw [if_neg (not_not_intro hlink), if_neg (by simp [hh.2.2]), hclear]
  simp only [ends_bind, ends_ok, Mm.modPage_self, hset, if_true, ends_pure, Mm.modPage_modPage]
  exact given_addHead h hh (f := fun p => PageInfo.flip alloc (f p)) hf hm rfl

/-! ### The lists of pages in use -/

/-- **Only the lists of pages in use have changed.** -/
structure LruOnly (s s' : Mm) : Prop where
  npages : s'.npages = s.npages
  premapped : s'.premappedFlag = s.premappedFlag
  freeList : s'.pageFreeList = s.pageFreeList
  link : s'.link = s.link
  flags : ∀ i, (s'.pages i).pageFlags = (s.pages i).pageFlags
  ref : ∀ i, (s'.pages i).ppRef = (s.pages i).ppRef
  mem : s'.mem = s.mem
  count : s'.freePagesCount = s.freePagesCount

theorem LruOnly.refl (s : Mm) : LruOnly s s :=
  ⟨rfl, rfl, rfl, rfl, fun _ => rfl, fun _ => rfl, rfl, rfl⟩

theorem LruOnly.trans {s s' s'' : Mm} (h : LruOnly s s') (h' : LruOnly s' s'') : LruOnly s s'' :=
  ⟨h'.npages.trans h.npages, h'.premapped.trans h.premapped, h'.freeList.trans h.freeList,
    h'.link.trans h.link, fun i => (h'.flags i).trans (h.flags i),
      fun i => (h'.ref i).trans (h.ref i),
    h'.mem.trans h.mem, h'.count.trans h.count⟩

theorem LruOnly.modLink (s : Mm) (pp : ℕ) (q : Option ℕ) :
    LruOnly s (s.modPage pp fun p => { p with lruLink := q }) where
  npages := rfl
  premapped := rfl
  freeList := rfl
  link := Mm.link_modPage s pp fun _ => rfl
  flags i := by
    by_cases hi : i = pp
    · subst hi
      rw [Mm.modPage_self]
    · rw [Mm.modPage_of_ne _ _ hi]
  ref i := by
    by_cases hi : i = pp
    · subst hi
      rw [Mm.modPage_self]
    · rw [Mm.modPage_of_ne _ _ hi]
  mem := rfl
  count := rfl

theorem LruOnly.setLruHead (s : Mm) (q : LruSide) (p : Option ℕ) : LruOnly s (s.setLruHead q p) :=
  ⟨rfl, rfl, rfl, rfl, fun _ => rfl, fun _ => rfl, rfl, rfl⟩

theorem LruOnly.setLruTail (s : Mm) (q : LruSide) (p : Option ℕ) : LruOnly s (s.setLruTail q p) :=
  ⟨rfl, rfl, rfl, rfl, fun _ => rfl, fun _ => rfl, rfl, rfl⟩

theorem LruOnly.addLruCount (s : Mm) (n : BitVec 32) (q : LruSide) :
    LruOnly s (s.addLruCount n q) := by
  cases q with
  | active => exact ⟨rfl, rfl, rfl, rfl, fun _ => rfl, fun _ => rfl, rfl, rfl⟩
  | inactive => exact ⟨rfl, rfl, rfl, rfl, fun _ => rfl, fun _ => rfl, rfl, rfl⟩

theorem lruInsertHead_lruOnly (s : Mm) (q : LruSide) (pp : ℕ) :
    LruOnly s (lruInsertHead s q pp) := by
  have hlink : ∀ s₁ : Mm, LruOnly s s₁ →
      LruOnly s ((s₁.setLruLink pp (s₁.lruHead q)).setLruHead q (some pp)) := by
    intro s₁ h
    exact (h.trans (LruOnly.modLink s₁ pp _)).trans (LruOnly.setLruHead _ q _)
  rw [lruInsertHead]
  refine hlink _ ?_
  split
  · exact LruOnly.setLruTail s q _
  · exact LruOnly.refl s

theorem lruHaInsert_lruOnly (s : Mm) (pp : ℕ) : LruOnly s (lruHaInsert s pp) :=
  (lruInsertHead_lruOnly s .active pp).trans (LruOnly.addLruCount _ 1 .active)

theorem lruRemoveEl_lruOnly (s : Mm) (q : LruSide) (pp : ℕ) :
    Ends (fun _ => True) (fun r => LruOnly s r.2) (lruRemoveEl s q pp) := by
  unfold lruRemoveEl
  split
  · exact True.intro
  · exact LruOnly.refl s
  · exact True.intro
  · exact LruOnly.modLink s _ _

/-- A page in the middle of a list is skipped; the head of a list is found and stays. -/
theorem LruSound.removeEl {s : Mm} (h : LruSound s) (q : LruSide) (pp : ℕ) :
    Ends (fun _ => False) (fun r => LruSound r.2) (lruRemoveEl s q pp) := by
  obtain ⟨L, hchain, hbound, hapart⟩ := h
  have hlen : (L q).length ≤ s.npages := by
    have hsub : L q ⊆ List.range s.npages := fun i hi => List.mem_range.2 (hbound q i hi)
    have hle := List.Nodup.length_le_of_subset (hchain q).nodup hsub
    rwa [List.length_range] at hle
  unfold lruRemoveEl
  rcases (hchain q).seek_cases hlen (· == pp) (s.lruHead q) with
    ⟨-, hseek⟩ | ⟨pre, c, post, hl, -, hc, hseek⟩
  · rw [hseek]
    exact ⟨L, hchain, hbound, hapart⟩
  · rw [hseek]
    rcases List.eq_nil_or_concat pre with rfl | ⟨pre, b, rfl⟩
    · have hhead : s.lruHead q = some c := by
        have hq := hchain q
        rw [hl] at hq
        exact hq.1
      rw [hhead]
      refine LruSound.congr ⟨L, hchain, hbound, hapart⟩ rfl rfl ?_
      rw [Mm.lruLink_setLruLink, Function.update_eq_self]
    · have hskip : ∀ p ∈ pre ++ b :: post, p ∈ L q := by
        intro p hp
        rw [hl]
        simp only [List.concat_eq_append, List.mem_append, List.mem_cons] at hp ⊢
        tauto
      simp only [List.concat_eq_append, List.getLast?_append, List.getLast?_singleton, Option.or]
      refine ⟨Function.update L q (pre ++ b :: post), fun q' => ?_, fun q' p hp => ?_, ?_⟩
      · rw [Mm.lruLink_setLruLink]
        by_cases hq : q' = q
        · subst hq
          rw [Function.update_self]
          refine Chain.skip ?_
          have hq := hchain q'
          rw [hl] at hq
          simpa using hq
        · rw [Function.update_of_ne hq]
          refine (hchain q').congr fun p hp => Function.update_of_ne ?_ ..
          rintro rfl
          exact hq (hapart q' q p hp (hskip p (by simp)))
      · refine hbound q' p ?_
        by_cases hq : q' = q
        · subst hq
          rw [Function.update_self] at hp
          exact hskip p hp
        · rwa [Function.update_of_ne hq] at hp
      · have hback : ∀ q' p, p ∈ Function.update L q (pre ++ b :: post) q' → p ∈ L q' := by
          intro q' p hp
          by_cases hq : q' = q
          · subst hq
            rw [Function.update_self] at hp
            exact hskip p hp
          · rwa [Function.update_of_ne hq] at hp
        intro q₁ q₂ p h₁ h₂
        exact hapart q₁ q₂ p (hback q₁ p h₁) (hback q₂ p h₂)

theorem LruSound.addLruCount {s : Mm} (h : LruSound s) (n : BitVec 32) (q : LruSide) :
    LruSound (s.addLruCount n q) :=
  h.congr (by simp) (by cases q <;> rfl) (by simp)

theorem LruSound.removeElList {s : Mm} (h : LruSound s) (pp : ℕ) :
    Ends (fun _ => False) (fun r => LruSound r.2) (lruRemoveElList s pp) := by
  unfold lruRemoveElList
  rw [ends_bind]
  refine (h.removeEl .active pp).post ?_
  rintro ⟨found, s₁⟩ h₁
  have h₁ : LruSound s₁ := h₁
  refine ends_ite (fun _ => h₁.addLruCount (-1) .active) (fun _ => ?_)
  rw [ends_bind]
  refine (h₁.removeEl .inactive pp).post ?_
  rintro ⟨found, s₂⟩ h₂
  have h₂ : LruSound s₂ := h₂
  exact ends_ite (fun _ => h₂.addLruCount (-1) .inactive) (fun _ => h₂)

theorem lruRemoveElList_lruOnly (s : Mm) (pp : ℕ) :
    Ends (fun _ => True) (fun r => LruOnly s r.2) (lruRemoveElList s pp) := by
  unfold lruRemoveElList
  rw [ends_bind]
  refine (lruRemoveEl_lruOnly s .active pp).post ?_
  rintro ⟨found, s₁⟩ h₁
  have h₁ : LruOnly s s₁ := h₁
  refine ends_ite (fun _ => ?_) (fun _ => ?_)
  · exact h₁.trans (LruOnly.addLruCount s₁ _ .active)
  · rw [ends_bind]
    refine (lruRemoveEl_lruOnly s₁ .inactive pp).post ?_
    rintro ⟨found, s₂⟩ h₂
    have h₂ : LruOnly s s₂ := h₁.trans h₂
    refine ends_ite (fun _ => ?_) (fun _ => h₂)
    exact h₂.trans (LruOnly.addLruCount s₂ _ .inactive)

theorem FreeInv.lruOnly {s s' : Mm} {l : List ℕ} (h : FreeInv s l) (hlru : LruOnly s s') :
    FreeInv s' l :=
  h.congr hlru.npages hlru.link hlru.freeList fun i _ => ⟨hlru.flags i, hlru.ref i⟩

theorem Steady.lruOnly {s s' : Mm} {l : List ℕ} (h : Steady s l) (hlru : LruOnly s s')
    (hsound : LruSound s') : Steady s' l := by
  refine ⟨hlru.premapped.trans h.1, ?_, hsound⟩
  rw [drift, hlru.count]
  exact h.2.1

/-- `lru_remove_el_list` stops the kernel only if the lists cannot be walked. -/
theorem lruRemoveElList_ends (s : Mm) (l : List ℕ) (pp : ℕ) :
    Ends (fun _ => ¬ Steady s l) (fun r => LruOnly s r.2 ∧ (Steady s l → Steady r.2 l))
      (lruRemoveElList s pp) := by
  by_cases hst : Steady s l
  · refine ((hst.2.2.removeElList pp).and (lruRemoveElList_lruOnly s pp)).mono ?_ ?_
    · rintro c ⟨hc, -⟩
      exact hc.elim
    · rintro r ⟨hsound, hlru⟩
      exact ⟨hlru, fun _ => hst.lruOnly hlru hsound⟩
  · refine (lruRemoveElList_lruOnly s pp).mono (fun _ _ => hst) ?_
    intro r hlru
    exact ⟨hlru, fun h => absurd h hst⟩

/-! ### Releasing a page -/

/-- **`lru_remove_el_list(pp); page_free(pp);`** of a single frame. -/
theorem releasePage_given {s : Vm} {l : List ℕ} {pp : ℕ} (h : FreeInv s.mm l) (hh : s.mm.Held pp)
    (href : s.ref pp = 0) :
    Ends (fun _ => ¬ Steady s.mm l)
      (fun s' => ∃ m, s' = { s with mm := m } ∧ Given s.mm m pp ∧ FreeInv m (pp :: l) ∧
        (Steady s.mm l → Steady m (pp :: l)))
      (releasePage s pp) := by
  unfold releasePage
  rw [ends_bind]
  refine (lruRemoveElList_ends s.mm l pp).post ?_
  rintro ⟨found, m₁⟩ ⟨hlru, hst⟩
  have hlru : LruOnly s.mm m₁ := hlru
  have hst : Steady s.mm l → Steady m₁ l := hst
  have hh₁ : m₁.Held pp := hh.congr hlru.npages (hlru.flags pp)
  simp only [ends_bind, ends_pure]
  refine (pageFree_given (h.lruOnly hlru) hh₁).mono ?_ ?_
  · intro _ hne
    exact absurd ((hlru.ref pp).trans href) hne
  · rintro m ⟨hg, hfree, hst'⟩
    refine ⟨m, rfl, ⟨hg.npages.trans hlru.npages, fun i hi => ?_, hg.clear, fun i hi => ?_,
      fun f hf => ?_⟩, hfree, fun h => hst' (hst h)⟩
    · exact (hg.ref i hi).trans (hlru.ref i)
    · exact (hg.flags i hi).trans (hlru.flags i)
    · exact (hg.mem f hf).trans (congrFun hlru.mem f)

end Jos
