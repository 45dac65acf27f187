/-
**What `env_free` loses.**

When a word in the first 4 KB of a 4 MB page looks present, `page_remove` is called for an address
inside the 4 MB page. It finds the slot itself, drops the reference of the slot and clears it, and
`env_free` drops the reference once more.

A run in which this has happened may have freed a block that still has references, or counted below
0. What is said about such a run is only which frames a step can change, and by how much it lowers
the counter of one block.

Main definitions:

* `Jos.Strays` — a reference to a frame has been dropped, in a state of which nothing is known;
* `Jos.Track` — what such a run cannot change: the slots and the page tables that are still to come;
* `Jos.Lost` — what a 4 MB page with a stray word has lost after some slots;
* `Jos.FreesExactly` — **the release of an environment accounts for every frame**.

Main results:

* `Jos.decref_strays`, `Jos.releaseIf_strays` — one reference;
* `Jos.freePde_track_table`, `Jos.freePde_track_big` — one slot: how much the counter of a block
  loses;
* `Jos.freePdes_lost` — the loop: a 4 MB page with a stray word has lost more references than it has
  slots;
* `Jos.envFree_exact_iff` — **the release is exact if and only if no word of the first 4 KB of a 4
  MB page looks present**.
-/

import Mathlib.Algebra.BigOperators.Group.Finset.Piecewise
import JosKernel.EnvFree
import JosKernel.PageFill

set_option relaxedAutoImplicit false
set_option autoImplicit false

namespace Jos

open LinkedList Outcome

/-! ### One reference, in any state -/

/-- The pages that the release of the page `pp` leaves alone. -/
def Mm.Apart (m : Mm) (pp f : ℕ) : Prop :=
  f ≠ pp ∧ ((m.pages pp).has allocHuge = true → ¬ (pp ≤ f ∧ f < pp + kb))

/-- **Only the page `pp` has changed**, or the 1024 pages from it on. -/
structure Touches (m m' : Mm) (pp : ℕ) : Prop where
  npages : m'.npages = m.npages
  flags : ∀ f, (m'.pages f).has allocHuge = true → (m.pages f).has allocHuge = true
  apart : ∀ f, m.Apart pp f → (m'.pages f).ppRef = (m.pages f).ppRef ∧ m'.mem f = m.mem f

section Touch

variable {m : Mm} {pp : ℕ}

theorem clearPoison_touches (m : Mm) (pp : ℕ) :
    Ends (fun _ => True) (fun m' => m'.npages = m.npages ∧
      (∀ f ≠ pp, m'.pages f = m.pages f ∧ m'.mem f = m.mem f) ∧
      ((m'.pages pp).has allocHuge = true → (m.pages pp).has allocHuge = true))
      (clearPoison m pp) := by
  unfold clearPoison poisonPage memsetPage
  refine ends_ite (fun _ => ?_) fun _ => ⟨rfl, fun _ _ => ⟨rfl, rfl⟩, id⟩
  simp only [ends_bind, ends_pure]
  unfold kaddr
  refine ends_ite (fun _ => True.intro) fun _ => ⟨rfl, fun f hf =>
    ⟨Mm.modPage_of_ne _ _ hf, Function.update_of_ne hf _ _⟩, fun hhuge => ?_⟩
  by_contra hc
  rw [Mm.modPage_self, has_flip (by decide) (by simpa using hc)] at hhuge
  cases hhuge

/-- One page goes back to the list. -/
theorem addHead_touches (m : Mm) (pp : ℕ) :
    (∀ f ≠ pp, (addHeadPfl (m.modPage pp (PageInfo.flip alloc)) pp).pages f = m.pages f) ∧
      (addHeadPfl (m.modPage pp (PageInfo.flip alloc)) pp).mem = m.mem ∧
      ((addHeadPfl (m.modPage pp (PageInfo.flip alloc)) pp).pages pp).pageFlags = 0 ∧
      ((addHeadPfl (m.modPage pp (PageInfo.flip alloc)) pp).pages pp).ppRef = 0 := by
  refine ⟨fun f hf => ?_, rfl, ?_, ?_⟩
  · rw [addHeadPfl_of_ne _ hf, Mm.modPage_of_ne _ _ hf]
  · rw [addHeadPfl_self]
  · rw [addHeadPfl_self]

theorem no_huge_of_zero {p : PageInfo} (h : p.pageFlags = 0) : ¬ p.has allocHuge = true := by
  rw [PageInfo.has, h]
  decide

/-- **`page_free`**, whatever the state. -/
theorem pageFree_touches (m : Mm) {pp : ℕ} (hpp : pp < 2 ^ 20) :
    Ends (fun _ => True) (fun m' => Touches m m' pp ∧ (m'.pages pp).ppRef = 0) (pageFree m pp) := by
  have hidx : pgnum (page2pa pp) = pp := by rw [pgnum_page2pa, Nat.mod_eq_of_lt hpp]
  unfold pageFree
  refine ends_ite (fun _ => True.intro) fun _ => ends_ite (fun _ => True.intro) fun _ =>
    ends_ite (fun hhead => ?_) fun _ => ?_
  · dsimp only
    rw [ends_bind, hidx]
    refine (ends_forM (E := fun _ => True) fun i _ => ?_).post fun _ _ => ?_
    · unfold checkHugeRound
      exact ends_ite (fun _ => True.intro) fun _ => ends_ite (fun _ => True.intro) fun _ =>
        ends_ite (fun _ => True.intro) fun _ => True.intro
    · have hloop : Ends (fun _ => True)
          (fun m' : Mm => m'.npages = m.npages ∧ (∀ f, (m'.pages f).has allocHuge = true →
            (m.pages f).has allocHuge = true) ∧
            (∀ f, f ≠ pp → ¬ (pp ≤ f ∧ f < pp + kb) → (m'.pages f).ppRef = (m.pages f).ppRef ∧
              m'.mem f = m.mem f) ∧
            (0 < kb → (m'.pages pp).ppRef = 0))
          ((List.range' pp kb).foldlM freeHugeRound (m.modPage pp (PageInfo.flip allocHuge))) := by
        refine ends_foldlM_range' (P := fun n (m' : Mm) => m'.npages = m.npages ∧
          (∀ f, (m'.pages f).has allocHuge = true → (m.pages f).has allocHuge = true) ∧
          (∀ f, f ≠ pp → ¬ (pp ≤ f ∧ f < pp + kb) → (m'.pages f).ppRef = (m.pages f).ppRef ∧
            m'.mem f = m.mem f) ∧
          (0 < n → (m'.pages pp).ppRef = 0)) ⟨rfl, fun f hf => ?_, fun f hf _ => ?_, fun hc =>
            absurd hc (Nat.lt_irrefl 0)⟩ ?_
        · by_cases hfp : f = pp
          · rw [hfp]
            exact hhead
          · rwa [Mm.modPage_of_ne _ _ hfp] at hf
        · rw [Mm.modPage_of_ne _ _ hf]
          exact ⟨rfl, rfl⟩
        · rintro n hn m₁ ⟨hnp, hflags, hrest, hzero⟩
          unfold freeHugeRound
          rw [ends_bind]
          refine (clearPoison_touches m₁ (pp + n)).post ?_
          rintro m₂ ⟨hnp₂, hpages₂, hflag₂⟩
          obtain ⟨hpages, hmem, hclear, href⟩ := addHead_touches m₂ (pp + n)
          refine ⟨hnp₂.trans hnp, fun f hf => ?_, fun f hf hout => ?_, fun _ => ?_⟩
          · by_cases hfn : f = pp + n
            · rw [hfn] at hf
              exact absurd hf (no_huge_of_zero hclear)
            · rw [hpages f hfn, (hpages₂ f hfn).1] at hf
              exact hflags f hf
          · have hfn : f ≠ pp + n := by
              rintro rfl
              exact hout ⟨Nat.le_add_right pp n, by omega⟩
            rw [hpages f hfn, hmem, (hpages₂ f hfn).1, (hpages₂ f hfn).2]
            exact hrest f hf hout
          · by_cases hzn : n = 0
            · subst hzn
              exact href
            · have hne : pp ≠ pp + n := by omega
              rw [hpages pp hne, (hpages₂ pp hne).1]
              exact hzero (by omega)
      refine hloop.post ?_
      rintro m' ⟨hnp, hflags, hrest, hzero⟩
      exact ⟨⟨hnp, hflags, fun f hf => hrest f hf.1 (hf.2 hhead)⟩, hzero (by decide)⟩
  · rw [ends_bind]
    refine (clearPoison_touches m pp).post ?_
    rintro m₁ ⟨hnp, hpages₁, -⟩
    refine ends_ite (fun _ => ?_) fun _ => True.intro
    obtain ⟨hpages, hmem, hclear, href⟩ := addHead_touches m₁ pp
    refine ⟨⟨hnp, fun f hf => ?_, fun f hf => ?_⟩, href⟩
    · by_cases hfp : f = pp
      · rw [hfp] at hf
        exact absurd hf (no_huge_of_zero hclear)
      · rwa [hpages f hfp, (hpages₁ f hfp).1] at hf
    · rw [hpages f hf.1, hmem, (hpages₁ f hf.1).1, (hpages₁ f hf.1).2]
      exact ⟨rfl, rfl⟩

end Touch

/-- **A reference to the page `pp` has been dropped**, and nothing is said about the state
before. -/
structure Strays (s s' : Vm) (pp : ℕ) : Prop where
  npages : s'.mm.npages = s.mm.npages
  space : SameSpaces s s'
  flags : ∀ f, (s'.mm.pages f).has allocHuge = true → (s.mm.pages f).has allocHuge = true
  ref : s'.ref pp = s.ref pp - 1
  apart : ∀ f, s.mm.Apart pp f → s'.ref f = s.ref f ∧ s'.mm.mem f = s.mm.mem f

section Strays

variable {s : Vm} {pp : ℕ}

theorem setRef_strays (s : Vm) (pp : ℕ) : Strays s (s.setRef pp (s.ref pp - 1)) pp where
  npages := rfl
  space := ⟨rfl, rfl, rfl, rfl⟩
  flags f hf := by rwa [PageInfo.has, Vm.flags_setRef] at hf
  ref := (Vm.ppRef_setRef ..).trans (if_pos rfl)
  apart _ hf := ⟨(Vm.ppRef_setRef ..).trans (if_neg hf.1), rfl⟩

/-- The release of the page comes after its counter has reached 0. -/
theorem strays_of_touches {m₁ m' : Mm} (hzero : (s.setRef pp (s.ref pp - 1)).ref pp = 0)
    (hlru : LruOnly (s.setRef pp (s.ref pp - 1)).mm m₁) (ht : Touches m₁ m' pp)
    (href : (m'.pages pp).ppRef = 0) : Strays s { s with mm := m' } pp := by
  have hset := setRef_strays s pp
  have hflags : ∀ f, (m₁.pages f).has allocHuge = true → (s.mm.pages f).has allocHuge = true := by
    intro f hf
    refine hset.flags f ?_
    rwa [PageInfo.has, hlru.flags] at hf
  refine ⟨ht.npages.trans hlru.npages, ⟨rfl, rfl, rfl, rfl⟩, fun f hf => hflags f (ht.flags f hf),
    ?_, fun f hf => ?_⟩
  · refine Eq.trans href ?_
    rw [← hset.ref, hzero]
  · obtain ⟨href', hmem'⟩ := ht.apart f ⟨hf.1, fun hh => hf.2 (hflags pp hh)⟩
    obtain ⟨hrefs, hmems⟩ := hset.apart f hf
    exact ⟨href'.trans ((hlru.ref f).trans hrefs), hmem'.trans ((congrFun hlru.mem f).trans hmems)⟩

/-- **`page_decref`**, in any state. -/
theorem decref_strays (s : Vm) (hpp : pp < 2 ^ 20) :
    Ends (fun _ => True) (fun s' => Strays s s' pp) (decref s pp) := by
  unfold decref pageDecref
  rw [ends_bind]
  refine ends_ite (fun hzero => ?_) fun _ => setRef_strays s pp
  refine (pageFree_touches _ hpp).post ?_
  rintro m' ⟨ht, href⟩
  exact strays_of_touches hzero (.refl _) ht href

/-- **The lines of `page_remove` that drop a reference**, in any state. -/
theorem releaseIf_strays (s : Vm) (hpp : pp < 2 ^ 20) :
    Ends (fun _ => True) (fun s' => Strays s s' pp)
      (if (s.setRef pp (s.ref pp - 1)).ref pp = 0 then releasePage (s.setRef pp (s.ref pp - 1)) pp
      else pure (s.setRef pp (s.ref pp - 1))) := by
  refine ends_ite (fun hzero => ?_) fun _ => setRef_strays s pp
  unfold releasePage
  rw [ends_bind]
  refine (lruRemoveElList_lruOnly _ pp).post ?_
  rintro ⟨found, m₁⟩ hlru
  have hlru : LruOnly (s.setRef pp (s.ref pp - 1)).mm m₁ := hlru
  dsimp only
  rw [ends_bind]
  refine (pageFree_touches m₁ hpp).post ?_
  rintro m' ⟨ht, href⟩
  exact strays_of_touches hzero hlru ht href

end Strays

/-! ### `page_remove`, in any state -/

section Remove

variable {s : Vm} {d : ℕ} {va : BitVec 32}

/-- **`page_remove`** drops the reference of the entry that it finds, and clears the entry. -/
theorem pageRemove_strays (hP : isPresent (s.mm.word d (pdx va)) = true) {pp : ℕ}
    (hpp : pgnum (s.pte (s.mm.leafPtr d (vpn va))) = pp) (hd : s.mm.Apart pp d) :
    Ends (fun _ => True) (fun s' => ∃ s₁, Strays s s₁ pp ∧ s' = s₁.setPte (s.mm.leafPtr d (vpn va))
      0) (pageRemove s (some d) va) := by
  rw [pdx_eq] at hP
  refine pageRemove_rule (P := fun s₁ => Strays s s₁ pp) (fun hc => ?_) (fun _ pp' hlt hpp' _ => ?_)
    fun s₁ hs₁ => ?_
  · rw [Mm.leaf_eq_none.1 hc] at hP
    exact nomatch hP
  · obtain rfl : pp' = pp := hpp'.symm.trans hpp
    exact releaseIf_strays s (Nat.lt_of_lt_of_le hlt s.mm.npages_le)
  · have hword : s₁.mm.word d (vpn va / 1024) = s.mm.word d (vpn va / 1024) :=
      Mm.word_of_mem (hs₁.apart d hd).2 _
    refine ⟨fun hc => ?_, fun _ => ⟨s₁, hs₁, ?_⟩⟩
    · rw [Mm.leaf_eq_none, hword, hP] at hc
      exact nomatch hc
    · rw [← Mm.leafPtr_congr hword]

end Remove

/-! ### What such a run cannot change -/

/-- **The slots from `k` on are as before**, with their page tables. -/
structure Track (s₀ s : Vm) (d k : ℕ) : Prop where
  npages : s.mm.npages = s₀.mm.npages
  space : SameSpaces s₀ s
  flags : ∀ f, (s.mm.pages f).has allocHuge = true → (s₀.mm.pages f).has allocHuge = true
  words : ∀ i, k ≤ i → i < pdx uTop → s.mm.word d i = s₀.mm.word d i
  tables : ∀ i, k ≤ i → i < pdx uTop → s₀.mm.HasTable d i → ∀ j, s.mm.word (pgnum (s₀.mm.word d i))
    j = s₀.mm.word (pgnum (s₀.mm.word d i)) j

/-- The counter and the bytes of a frame are as before. -/
def SparesPage (s s' : Vm) (f : ℕ) : Prop := s'.ref f = s.ref f ∧ s'.mm.mem f = s.mm.mem f

theorem SparesPage.trans {s s₁ s' : Vm} {f : ℕ} (h : SparesPage s s₁ f) (h' : SparesPage s₁ s' f) :
    SparesPage s s' f :=
  ⟨h'.1.trans h.1, h'.2.trans h.2⟩

theorem Track.refl (s : Vm) (d k : ℕ) : Track s s d k where
  npages := rfl
  space := ⟨rfl, rfl, rfl, rfl⟩
  flags _ hf := hf
  words _ _ _ := rfl
  tables _ _ _ _ _ := rfl

theorem Track.mono {s₀ s : Vm} {d k k' : ℕ} (h : Track s₀ s d k) (hk : k ≤ k') : Track s₀ s d k' :=
  { h with
    words := fun i hi => h.words i (Nat.le_trans hk hi)
    tables := fun i hi => h.tables i (Nat.le_trans hk hi) }

/-- A write to another frame. -/
theorem Track.setPte {s₀ s : Vm} {d k : ℕ} (h : Track s₀ s d k) {p : PtePtr} {w : BitVec 32}
    (hd : ∀ i, k ≤ i → ¬ (d = p.frame ∧ i = p.idx))
    (ht : ∀ i, k ≤ i → i < pdx uTop → s₀.mm.HasTable d i → pgnum (s₀.mm.word d i) ≠ p.frame) :
    Track s₀ (s.setPte p w) d k where
  npages := h.npages
  space := h.space.trans ⟨rfl, rfl, rfl, rfl⟩
  flags := h.flags
  words i hi hlt := by
    rw [Vm.word_setPte, if_neg (hd i hi)]
    exact h.words i hi hlt
  tables i hi hlt hi' j := by
    rw [Vm.word_setPte, if_neg fun hc => ht i hi hlt hi' hc.1]
    exact h.tables i hi hlt hi' j

section Track

variable {s₀ s s₁ : Vm} {e d k : ℕ} {live : List Block} {l : List ℕ} {b c : Block}

/-- The frames of another block are out of reach. -/
theorem apart_of_blocks (h : AllocInv s₀.mm live l)
    (hflags : ∀ f, (s.mm.pages f).has allocHuge = true → (s₀.mm.pages f).has allocHuge = true)
    (hb : b ∈ live) (hc : c ∈ live) (hne : c ≠ b) {f : ℕ} (hf : c.Has f) :
    s.mm.Apart b.start f := by
  have hout : ¬ b.Has f := fun hc' => hne (h.has_inj hc hb hf hc')
  refine ⟨?_, fun hhead hc' => ?_⟩
  · rintro rfl
    exact hout b.has_start
  · obtain ⟨b', hb', hbig, hstart⟩ := h.block_of_huge (hflags _ hhead)
    have hsame : b' = b := h.has_inj hb' hb b'.has_start (by rw [hstart]; exact b.has_start)
    rw [hsame] at hbig
    exact hout ((Block.has_huge hbig).2 hc')

/-- **A reference of a block that is neither the directory nor a page table to come.** -/
theorem Track.strays (h : FreeReady s₀ e d live l) (hT : Track s₀ s d k) (hb : b ∈ live)
    (hs : Strays s s₁ b.start) (hbd : b.start ≠ d)
    (hbt : ∀ i, k ≤ i → i < pdx uTop → s₀.mm.HasTable d i → b.start ≠ pgnum (s₀.mm.word d i)) :
    Track s₀ s₁ d k ∧ ∀ c ∈ live, c ≠ b → ∀ f, c.Has f → SparesPage s s₁ f := by
  have hspare : ∀ c ∈ live, c ≠ b → ∀ f, c.Has f → SparesPage s s₁ f :=
    fun c hc hne f hf => hs.apart f (apart_of_blocks h.inv hT.flags hb hc hne hf)
  have hpage : ∀ {f : ℕ}, pageBlock f ∈ live → b.start ≠ f → s₁.mm.mem f = s.mm.mem f := by
    intro f hf hne
    refine (hspare _ hf ?_ f (pageBlock_has.2 rfl)).2
    rintro rfl
    exact hne rfl
  refine ⟨⟨hs.npages.trans hT.npages, hT.space.trans hs.space, fun f hf => hT.flags f
    (hs.flags f hf), fun i hi hlt => ?_,
    fun i hi hlt ht j => ?_⟩, hspare⟩
  · rw [Mm.word_of_mem (hpage h.root hbd)]
    exact hT.words i hi hlt
  · rw [Mm.word_of_mem (hpage (h.table i hlt ht).1 (hbt i hi hlt ht))]
    exact hT.tables i hi hlt ht j

/-! ### A slot with a page table -/

/-- One entry of a page table. -/
theorem freePte_track (h : FreeReady s₀ e d live l) (hk : k < pdx uTop) (ht : s₀.mm.HasTable d k)
    {j : ℕ} (hj : j < 1024)
    (hT : Track s₀ s d (k + 1)) (hword : s.mm.word d k = s₀.mm.word d k)
    (hptes : ∀ j', j ≤ j' → s.mm.word (pgnum (s₀.mm.word d k)) j' =
      s₀.mm.word (pgnum (s₀.mm.word d k)) j') :
    Ends (fun _ => True) (fun s' => Track s₀ s' d (k + 1) ∧ s'.mm.word d k = s₀.mm.word d k ∧
      (∀ j', j + 1 ≤ j' → s'.mm.word (pgnum (s₀.mm.word d k)) j' =
        s₀.mm.word (pgnum (s₀.mm.word d k)) j') ∧
      ∀ c ∈ live, c.huge = true → SparesPage s s' c.start) (freePte e k
        (pgnum (s₀.mm.word d k)) s j) := by
  obtain ⟨t, hpg⟩ : ∃ t, pgnum (s₀.mm.word d k) = t := ⟨_, rfl⟩
  obtain ⟨htb, htd, -⟩ := h.table k hk ht
  have happly := h.pte k hk ht j hj
  rw [hpg] at hptes htb htd happly ⊢
  have hdir : s.pgdir e = some d := by
    rw [Vm.pgdir, hT.space.envs]
    exact h.dir
  unfold freePte
  rw [hdir]
  refine ends_ite (fun hP => ?_)
    fun _ => ⟨hT, hword, fun j' hj' => hptes j' (by omega), fun _ _ _ => ⟨rfl, rfl⟩⟩
  have hP : isPresent (s.mm.word t j) = true := hP
  rw [hptes j le_rfl] at hP
  obtain ⟨b, hb, hh, hstart, hbd, -, hbt⟩ := happly hP
  have hptr : s.mm.leafPtr d (vpn (pgAddr k j)) = ⟨t, j⟩ := by
    have hvpn := vpn_pgAddr (FreeReady.user_lt hk) hj
    have hdiv : (k * 1024 + j) / 1024 = k := by omega
    have hmod : (k * 1024 + j) % 1024 = j := by omega
    rw [hvpn, Mm.leafPtr_small (by rw [hdiv, hword]; exact ht.2), hdiv, hmod, hword, hpg]
  have hslot : isPresent (s.mm.word d (pdx (pgAddr k j))) = true := by
    rw [pdx_pgAddr (FreeReady.user_lt hk) hj, hword]
    exact ht.1
  have hpp : pgnum (s.pte (s.mm.leafPtr d (vpn (pgAddr k j)))) = b.start := by
    rw [hptr, hstart]
    exact congrArg pgnum (hptes j le_rfl)
  have hroot : pageBlock d ≠ b := by
    rintro rfl
    exact hbd rfl
  refine (pageRemove_strays hslot hpp (apart_of_blocks h.inv hT.flags hb h.root hroot
    (pageBlock_has.2 rfl))).post ?_
  rintro s' ⟨s₁, hs, rfl⟩
  obtain ⟨hT₁, hspare⟩ := hT.strays h hb hs hbd fun i hi hlt hti => hbt i hlt hti
  have hsame : ∀ {f : ℕ}, pageBlock f ∈ live → b.start ≠ f → s₁.mm.mem f = s.mm.mem f := by
    intro f hf hne
    refine (hspare _ hf ?_ f (pageBlock_has.2 rfl)).2
    rintro rfl
    exact hne rfl
  rw [hptr]
  refine ⟨hT₁.setPte (fun i _ hc => htd hc.1.symm) fun i hi hlt hti heq => ?_, ?_, fun j' hj' => ?_,
    fun c hc hbig => ?_⟩
  · have hik := h.apart i hlt k hk hti ht (heq.trans hpg.symm)
    omega
  · rw [Vm.word_setPte, if_neg fun hc => htd hc.1.symm, Mm.word_of_mem (hsame h.root hbd)]
    exact hword
  · have hbt' : b.start ≠ t := hpg ▸ hbt k hk ht
    rw [Vm.word_setPte, if_neg, Mm.word_of_mem (hsame htb hbt')]
    · exact hptes j' (by omega)
    · rintro ⟨-, rfl⟩
      exact absurd hj' (Nat.not_succ_le_self _)
  · have hcb : c ≠ b := by
      rintro rfl
      rw [hh] at hbig
      cases hbig
    have hct : c.start ≠ t := h.inv.huge_ne_page hc hbig htb
    obtain ⟨href, hmem⟩ := hspare c hc hcb _ c.has_start
    exact ⟨href, (Function.update_of_ne hct _ _).trans hmem⟩

/-- **A slot with a page table** costs the huge blocks nothing. -/
theorem freePde_track_table (h : FreeReady s₀ e d live l) (hk : k < pdx uTop)
    (ht : s₀.mm.HasTable d k) (hT : Track s₀ s d k) :
    Ends (fun _ => True) (fun s' => Track s₀ s' d (k + 1) ∧ ∀ c ∈ live, c.huge = true →
      SparesPage s s' c.start) (freePde e d s k) := by
  have hword := hT.words k le_rfl hk
  obtain ⟨htb, htd, hte⟩ := h.table k hk ht
  unfold freePde
  refine ends_ite (fun _ => ?_) fun hc =>
    absurd (hword ▸ ht.1 : isPresent (s.mm.word d k) = true) hc
  have hnum : pgnum (pteAddr (s.pte ⟨d, k⟩)) = pgnum (s₀.mm.word d k) :=
    (pgnum_pteAddr _).trans (congrArg pgnum hword)
  dsimp only
  rw [hnum, ends_bind]
  unfold kaddr
  refine ends_ite (fun _ => True.intro) fun _ => ?_
  rw [ends_pure, ends_bind, List.range_eq_range']
  have hloop : Ends (fun _ => True)
      (fun s' => Track s₀ s' d (k + 1) ∧ s'.mm.word d k = s₀.mm.word d k ∧
        (∀ j', nPdEntries ≤ j' → s'.mm.word (pgnum (s₀.mm.word d k)) j' =
          s₀.mm.word (pgnum (s₀.mm.word d k)) j') ∧
        ∀ c ∈ live, c.huge = true → SparesPage s s' c.start)
      ((List.range' 0 nPdEntries).foldlM (freePte e k (pgnum (s₀.mm.word d k))) s) := by
    refine ends_foldlM_range' (P := fun n (s' : Vm) => Track s₀ s' d (k + 1) ∧
      s'.mm.word d k = s₀.mm.word d k ∧
      (∀ j', n ≤ j' → s'.mm.word (pgnum (s₀.mm.word d k)) j' =
        s₀.mm.word (pgnum (s₀.mm.word d k)) j') ∧
      ∀ c ∈ live, c.huge = true → SparesPage s s' c.start)
      ⟨hT.mono (Nat.le_succ k), hword, fun j' _ => hT.tables k le_rfl hk ht j', fun _ _ _ =>
        ⟨rfl, rfl⟩⟩ ?_
    rintro n hn s₁ ⟨hT₁, hword₁, hptes₁, hspare₁⟩
    rw [Nat.zero_add]
    refine (freePte_track h hk ht hn hT₁ hword₁ hptes₁).post ?_
    rintro s₂ ⟨hT₂, hword₂, hptes₂, hspare₂⟩
    exact ⟨hT₂, hword₂, hptes₂, fun c hc hbig => (hspare₁ c hc hbig).trans (hspare₂ c hc hbig)⟩
  refine hloop.post ?_
  rintro s₁ ⟨hT₁, -, -, hspare₁⟩
  rw [ends_bind]
  unfold pa2page
  refine ends_ite (fun _ => True.intro) fun hlt => ?_
  rw [hnum] at hlt ⊢
  rw [ends_pure]
  have hT₂ : Track s₀ (s₁.setPte ⟨d, k⟩ 0) d (k + 1) := by
    refine hT₁.setPte (fun i hi hc => ?_) fun i _ hlt hti => (h.table i hlt hti).2.1
    have hik : i = k := hc.2
    omega
  have hpow : pgnum (s₀.mm.word d k) < 2 ^ 20 := pgnum_lt _
  refine (decref_strays (s₁.setPte ⟨d, k⟩ 0) hpow).post fun s' hs => ?_
  obtain ⟨hT', hspare'⟩ := hT₂.strays h htb hs htd fun i hi hlt hti heq => by
    have hki := h.apart k hk i hlt ht hti heq
    omega
  refine ⟨hT', fun c hc hbig => (hspare₁ c hc hbig).trans ?_⟩
  have hne : c ≠ pageBlock (pgnum (s₀.mm.word d k)) := by
    rintro rfl
    exact nomatch hbig
  have hcd : c.start ≠ d := h.inv.huge_ne_page hc hbig h.root
  obtain ⟨href, hmem⟩ := hspare' c hc hne _ c.has_start
  refine ⟨href, hmem.trans ?_⟩
  exact Function.update_of_ne hcd _ _

/-! ### A slot with a 4 MB page -/

/-- **The round for a 4 MB page.** The first word that looks present costs the block a second
reference. -/
theorem freePde_track_big (h : FreeReady s₀ e d live l) (hk : k < pdx uTop) (hb : b ∈ live)
    (hbig : b.huge = true) (hP : isPresent (s₀.mm.word d k) = true)
    (hH : isHuge (s₀.mm.word d k) = true) (hstart : pgnum (s₀.mm.word d k) = b.start)
    (hT : Track s₀ s d k) :
    Ends (fun _ => True) (fun s' => Track s₀ s' d (k + 1) ∧
      (∀ c ∈ live, c.huge = true → c ≠ b → SparesPage s s' c.start) ∧
      (((∀ j < 1024, isPresent (s.mm.word b.start j) = false) ∧ s'.ref b.start =
        s.ref b.start - 1) ∨
        ((∃ j < 1024, isPresent (s.mm.word b.start j) = true) ∧ s'.ref b.start = s.ref b.start - 1 -
          1))) (freePde e d s k) := by
  have hword := hT.words k le_rfl hk
  have hdir : s.pgdir e = some d := by
    rw [Vm.pgdir, hT.space.envs]
    exact h.dir
  have hsingle : ∀ {f : ℕ}, pageBlock f ∈ live → b.start ≠ f := h.inv.huge_ne_page hb hbig
  have hroot : pageBlock d ≠ b := by
    rintro rfl
    cases hbig
  have hstray : ∀ {s₁ s₂ : Vm} {k' : ℕ}, Track s₀ s₁ d k' → Strays s₁ s₂ b.start →
      Track s₀ s₂ d k' ∧ ∀ c ∈ live, c ≠ b → ∀ f, c.Has f → SparesPage s₁ s₂ f :=
    fun hT₁ hs => hT₁.strays h hb hs (hsingle h.root) fun i _ hlt hti =>
      hsingle (h.table i hlt hti).1
  have hclear : ∀ {s₁ : Vm}, Track s₀ s₁ d (k + 1) → Track s₀ (s₁.setPte ⟨d, k⟩ 0) d (k + 1) := by
    intro s₁ hT₁
    refine hT₁.setPte (fun i hi hc => ?_) fun i _ hlt hti => (h.table i hlt hti).2.1
    have hik : i = k := hc.2
    omega
  have hpage : ∀ c ∈ live, c.huge = true →
    ∀ s₁ : Vm, SparesPage s₁ (s₁.setPte ⟨d, k⟩ 0) c.start := by
    intro c hc hcbig s₁
    exact ⟨rfl, Function.update_of_ne (h.inv.huge_ne_page hc hcbig h.root) _ _⟩
  have hnum : pgnum (pteAddr (s.pte ⟨d, k⟩)) = b.start :=
    (pgnum_pteAddr _).trans ((congrArg pgnum hword).trans hstart)
  unfold freePde
  refine ends_ite (fun _ => ?_) fun hc => absurd (hword ▸ hP : isPresent (s.mm.word d k) = true) hc
  dsimp only
  rw [hnum, ends_bind]
  unfold kaddr
  refine ends_ite (fun _ => True.intro) fun _ => ?_
  rw [ends_pure, ends_bind, List.range_eq_range']
  have hloop : Ends (fun _ => True)
      (fun s' => ((∀ j < nPdEntries, isPresent (s.mm.word b.start j) = false) ∧ s' = s) ∨
        ((∃ j < nPdEntries, isPresent (s.mm.word b.start j) = true) ∧ ∃ s₁, Strays s s₁ b.start ∧
          s' = s₁.setPte ⟨d, k⟩ 0))
      ((List.range' 0 nPdEntries).foldlM (freePte e k b.start) s) := by
    refine ends_foldlM_range' (P := fun n (s' : Vm) =>
      ((∀ j < n, isPresent (s.mm.word b.start j) = false) ∧ s' = s) ∨
      ((∃ j < n, isPresent (s.mm.word b.start j) = true) ∧ ∃ s₁, Strays s s₁ b.start ∧
        s' = s₁.setPte ⟨d, k⟩ 0))
      (Or.inl ⟨fun j hj => absurd hj (Nat.not_lt_zero j), rfl⟩) ?_
    intro n hn s' hs'
    rw [Nat.zero_add]
    have hpdx : pdx (pgAddr k n) = k := pdx_pgAddr (FreeReady.user_lt hk) hn
    have hdiv : vpn (pgAddr k n) / 1024 = k := by
      rw [← pdx_eq]
      exact hpdx
    rcases hs' with ⟨hnone, rfl⟩ | ⟨⟨j, hj, hpj⟩, s₁, hs, rfl⟩
    · unfold freePte
      rw [hdir]
      refine ends_ite (fun hpn => ?_) fun hpn => Or.inl ⟨fun j hj => ?_, rfl⟩
      · have hptr : s'.mm.leafPtr d (vpn (pgAddr k n)) = ⟨d, k⟩ := by
          rw [Mm.leafPtr_huge (by rw [hdiv, hword]; exact hH), hdiv]
        have hpp : pgnum (s'.pte (s'.mm.leafPtr d (vpn (pgAddr k n)))) = b.start := by
          rw [hptr]
          exact (congrArg pgnum hword).trans hstart
        refine (pageRemove_strays (by rw [hpdx, hword]; exact hP) hpp
          (apart_of_blocks h.inv hT.flags hb h.root hroot (pageBlock_has.2 rfl))).post ?_
        rintro s₂ ⟨s₁, hs, rfl⟩
        rw [hptr]
        exact Or.inr ⟨⟨n, Nat.lt_succ_self n, hpn⟩, s₁, hs, rfl⟩
      · by_cases hjn : j = n
        · rw [hjn]
          exact Bool.eq_false_iff.2 hpn
        · exact hnone j (by omega)
    · have hkeep : ∃ j < n + 1, isPresent (s.mm.word b.start j) = true :=
        ⟨j, Nat.lt_succ_of_lt hj, hpj⟩
      have hdir₁ : (s₁.setPte ⟨d, k⟩ 0).pgdir e = some d := by
        rw [← hdir, Vm.pgdir, Vm.pgdir]
        exact congrArg (fun f : ℕ → Space => (f e).pgdir) hs.space.envs
      have habs : isPresent ((s₁.setPte ⟨d, k⟩ 0).mm.word d (vpn (pgAddr k n) / 1024)) = false := by
        rw [hdiv, Vm.word_setPte, if_pos ⟨rfl, rfl⟩]
        rfl
      unfold freePte
      rw [hdir₁]
      refine ends_ite (fun _ => ?_) fun _ => Or.inr ⟨hkeep, s₁, hs, rfl⟩
      rw [(pageRemove_absent (Mm.leaf_eq_none.2 habs)).2]
      exact Or.inr ⟨hkeep, s₁, hs, rfl⟩
  refine hloop.post fun s' hs' => ?_
  rw [ends_bind]
  unfold pa2page
  refine ends_ite (fun _ => True.intro) fun _ => ?_
  rw [hnum, ends_pure]
  refine (decref_strays (s'.setPte ⟨d, k⟩ 0) (hstart ▸ pgnum_lt _)).post fun s'' hlast => ?_
  rcases hs' with ⟨hnone, rfl⟩ | ⟨hsome, s₁, hs, rfl⟩
  · obtain ⟨hT', hspare⟩ := hstray (hclear (hT.mono (Nat.le_succ k))) hlast
    exact ⟨hT', fun c hc hcbig hne => (hpage c hc hcbig s').trans (hspare c hc hne _ c.has_start),
      Or.inl ⟨hnone, hlast.ref⟩⟩
  · obtain ⟨hT₁, hspare₁⟩ := hstray hT hs
    obtain ⟨hT', hspare⟩ := hstray (hclear (hclear (hT₁.mono (Nat.le_succ k)))) hlast
    refine ⟨hT', fun c hc hcbig hne => ?_, Or.inr ⟨hsome, ?_⟩⟩
    · refine (hspare₁ c hc hne _ c.has_start).trans
        ((hpage c hc hcbig s₁).trans ((hpage c hc hcbig _).trans ?_))
      exact hspare c hc hne _ c.has_start
    · rw [hlast.ref]
      exact congrArg (· - 1) hs.ref

/-! ### The loop over the directory -/

/-- The number of slots below `k` for the 4 MB page that begins at `f`. -/
def Mm.bigSlots (m : Mm) (d f k : ℕ) : ℕ :=
  ((Finset.range k).filter fun i => isPresent (m.word d i) = true ∧ isHuge (m.word d i) = true ∧
    pgnum (m.word d i) = f).card

theorem bigSlots_hit {m : Mm} {d f k : ℕ} (hP : isPresent (m.word d k) = true)
    (hH : isHuge (m.word d k) = true) (hf : pgnum (m.word d k) = f) :
    m.bigSlots d f (k + 1) = m.bigSlots d f k + 1 := by
  rw [Mm.bigSlots, Finset.range_add_one, Finset.filter_insert, if_pos ⟨hP, hH, hf⟩,
    Finset.card_insert_of_notMem]
  · rfl
  · intro hmem
    exact absurd (Finset.mem_range.1 (Finset.mem_filter.1 hmem).1) (Nat.lt_irrefl k)

theorem bigSlots_miss {m : Mm} {d f k : ℕ}
    (h : ¬ (isPresent (m.word d k) = true ∧ isHuge (m.word d k) = true ∧ pgnum (m.word d k) = f)) :
    m.bigSlots d f (k + 1) = m.bigSlots d f k := by
  rw [Mm.bigSlots, Finset.range_add_one, Finset.filter_insert, if_neg h]
  rfl

theorem bigSlots_le (m : Mm) (d f k : ℕ) : m.bigSlots d f k ≤ k :=
  (Finset.card_filter_le _ _).trans_eq (Finset.card_range k)

/-- **What a 4 MB page with a stray word has lost** after `k` slots: more than one reference for
each of its slots. -/
structure Lost (s₀ s : Vm) (d k : ℕ) (b : Block) : Prop where
  track : Track s₀ s d k
  before : s₀.mm.bigSlots d b.start k = 0 → SparesPage s₀ s b.start
  after : 0 < s₀.mm.bigSlots d b.start k → ∃ n, s.ref b.start = s₀.ref b.start - BitVec.ofNat 16 n ∧
    s₀.mm.bigSlots d b.start k < n ∧ n ≤ 2 * s₀.mm.bigSlots d b.start k

/-- A round that leaves the page alone. -/
theorem Lost.spared (hL : Lost s₀ s d k b) (hT : Track s₀ s₁ d (k + 1))
    (hs : SparesPage s s₁ b.start)
    (hmiss : s₀.mm.bigSlots d b.start (k + 1) = s₀.mm.bigSlots d b.start k) :
    Lost s₀ s₁ d (k + 1) b where
  track := hT
  before h := (hL.before (hmiss.symm.trans h)).trans hs
  after h := by
    rw [hmiss] at h ⊢
    rw [hs.1]
    exact hL.after h

/-- **One slot of the directory.** -/
theorem freePde_lost (h : FreeReady s₀ e d live l) (hb : b ∈ live) (hbig : b.huge = true)
    (hstray : ∃ j < 1024, isPresent (s₀.mm.word b.start j) = true) (hk : k < pdx uTop)
    (hL : Lost s₀ s d k b) :
    Ends (fun _ => True) (fun s' => Lost s₀ s' d (k + 1) b) (freePde e d s k) := by
  by_cases hP : isPresent (s₀.mm.word d k) = true
  · by_cases hH : isHuge (s₀.mm.word d k) = true
    · obtain ⟨c, hc, hcbig, hstart, -⟩ := h.big k hk hP hH
      refine (freePde_track_big h hk hc hcbig hP hH hstart.symm hL.track).post ?_
      rintro s' ⟨hT, hspare, hlost⟩
      by_cases hcb : c = b
      · subst hcb
        have hhit := bigSlots_hit hP hH hstart.symm
        refine ⟨hT, fun hz => ?_, fun _ => ?_⟩
        · rw [hhit] at hz
          exact absurd hz (Nat.succ_ne_zero _)
        · rw [hhit]
          by_cases hfirst : s₀.mm.bigSlots d c.start k = 0
          · obtain ⟨href, hmem⟩ := hL.before hfirst
            rcases hlost with ⟨hnone, -⟩ | ⟨-, hlost⟩
            · obtain ⟨j, hj, hpj⟩ := hstray
              rw [← Mm.word_of_mem hmem j, hnone j hj] at hpj
              exact nomatch hpj
            · refine ⟨2, ?_, by omega, by omega⟩
              rw [hlost, href]
              bv_omega
          · obtain ⟨n, href, hlow, hhigh⟩ := hL.after (Nat.pos_of_ne_zero hfirst)
            rcases hlost with ⟨-, hlost⟩ | ⟨-, hlost⟩
            · refine ⟨n + 1, ?_, by omega, by omega⟩
              rw [hlost, href]
              bv_omega
            · refine ⟨n + 2, ?_, by omega, by omega⟩
              rw [hlost, href]
              bv_omega
      · refine hL.spared hT (hspare b hb hbig (Ne.symm hcb)) (bigSlots_miss ?_)
        rintro ⟨-, -, hpg⟩
        exact hcb (h.inv.has_inj hc hb c.has_start (by rw [hstart, hpg]; exact b.has_start))
    · refine (freePde_track_table h hk ⟨hP, by simpa using hH⟩ hL.track).post ?_
      rintro s' ⟨hT, hspare⟩
      exact hL.spared hT (hspare b hb hbig) (bigSlots_miss fun hc => hH hc.2.1)
  · have habs : ¬ isPresent (s.pte ⟨d, k⟩) = true := by
      rw [Vm.pte, hL.track.words k le_rfl hk]
      exact hP
    unfold freePde
    dsimp only
    rw [if_neg habs]
    exact hL.spared (hL.track.mono (Nat.le_succ k)) ⟨rfl, rfl⟩ (bigSlots_miss fun hc => hP hc.1)

/-- **The loop of `env_free`**, for one 4 MB page. -/
theorem freePdes_lost (h : FreeReady s₀ e d live l) (hb : b ∈ live) (hbig : b.huge = true)
    (hstray : ∃ j < 1024, isPresent (s₀.mm.word b.start j) = true) {n : ℕ} (hn : n ≤ pdx uTop)
    (hrun : (List.range n).foldlM (freePde e d) s₀ = .ok s) : Lost s₀ s d n b := by
  rw [List.range_eq_range'] at hrun
  have hstart : Lost s₀ s₀ d 0 b :=
    ⟨.refl s₀ d 0, fun _ => ⟨rfl, rfl⟩, fun hc => absurd hc (Nat.lt_irrefl 0)⟩
  have hloop : Ends (fun _ => True) (fun s' => Lost s₀ s' d n b)
      ((List.range' 0 n).foldlM (freePde e d) s₀) := by
    refine ends_foldlM_range' (P := fun n (s' : Vm) => Lost s₀ s' d n b) hstart fun k hk s₁ hL => ?_
    rw [Nat.zero_add]
    exact freePde_lost h hb hbig hstray (by omega) hL
  exact hloop.of_ok hrun

/-- The loop leaves the directory and the page tables alone that are still to come. -/
theorem freePdes_track (h : FreeReady s₀ e d live l) {n : ℕ} (hn : n ≤ pdx uTop)
    (hrun : (List.range n).foldlM (freePde e d) s₀ = .ok s) : Track s₀ s d n := by
  rw [List.range_eq_range'] at hrun
  have hloop : Ends (fun _ => True) (fun s' => Track s₀ s' d n)
      ((List.range' 0 n).foldlM (freePde e d) s₀) := by
    refine ends_foldlM_range' (P := fun n (s' : Vm) => Track s₀ s' d n) (.refl s₀ d 0)
      fun k hk s₁ hT => ?_
    rw [Nat.zero_add]
    have hlt : k < pdx uTop := by omega
    by_cases hP : isPresent (s₀.mm.word d k) = true
    · by_cases hH : isHuge (s₀.mm.word d k) = true
      · obtain ⟨c, hc, hcbig, hstart, -⟩ := h.big k hlt hP hH
        exact (freePde_track_big h hlt hc hcbig hP hH hstart.symm hT).post fun s' hs' => hs'.1
      · exact (freePde_track_table h hlt ⟨hP, by simpa using hH⟩ hT).post fun s' hs' => hs'.1
    · have habs : ¬ isPresent (s₁.pte ⟨d, k⟩) = true := by
        rw [Vm.pte, hT.words k le_rfl hlt]
        exact hP
      unfold freePde
      dsimp only
      rw [if_neg habs]
      exact hT.mono (Nat.le_succ k)
  exact hloop.of_ok hrun

/-- The references to a 4 MB page are those of its slots. -/
theorem uses_bigSlots (h : FreeReady s₀ e d live l) (hb : b ∈ live) (hbig : b.huge = true) :
    s₀.mm.uses d b.start = s₀.mm.bigSlots d b.start (pdx uTop) := by
  have hsingle : ∀ {f : ℕ}, pageBlock f ∈ live → b.start ≠ f := h.inv.huge_ne_page hb hbig
  rw [Mm.uses, if_neg (hsingle h.root), Nat.add_zero, Mm.bigSlots, Finset.card_filter]
  refine Finset.sum_congr rfl fun i hi => ?_
  have hi := Finset.mem_range.1 hi
  by_cases hP : isPresent (s₀.mm.word d i) = true
  · by_cases hH : isHuge (s₀.mm.word d i) = true
    · rw [slotUses_huge hP hH]
      by_cases hpg : b.start = pgnum (s₀.mm.word d i)
      · rw [if_pos hpg, if_pos ⟨hP, hH, hpg.symm⟩]
      · rw [if_neg hpg, if_neg fun hc => hpg hc.2.2.symm]
    · have ht : s₀.mm.HasTable d i := ⟨hP, by simpa using hH⟩
      have hnone : ((Finset.range 1024).filter
          fun j => Maps (s₀.mm.word (pgnum (s₀.mm.word d i)) j) b.start) = ∅ := by
        refine Finset.filter_eq_empty_iff.2 fun j hj hmap => ?_
        obtain ⟨c, hc, hsmall, hstart, -⟩ := h.pte i hi ht j (Finset.mem_range.1 hj) hmap.1
        have hsame := h.inv.has_inj hc hb c.has_start (by rw [hstart, hmap.2]; exact b.has_start)
        rw [hsame, hbig] at hsmall
        cases hsmall
      rw [slotUses_table ht, hnone, Finset.card_empty, if_neg (hsingle (h.table i hi ht).1),
        if_neg fun hc => hH hc.2.1]
  · rw [slotUses_absent (by simpa using hP), if_neg fun hc => hP hc.1]

/-! ### The end of `env_free` -/

/-- `page_decref(pa2page(PADDR(kva)))`, in any state. -/
theorem decrefKva_strays {s s' : Vm} {f : ℕ} (hf : f < s.mm.npages) (hsmall : s.mm.npages ≤ 65536)
    (hrun : decrefKva s f = .ok s') :
    f ≠ badFrame ∧ Strays s s' f := by
  rw [FreeReady.decrefKva_frame hf hsmall] at hrun
  by_cases hbad : f = badFrame
  · rw [if_pos hbad] at hrun
    exact nomatch hrun
  · rw [if_neg hbad] at hrun
    exact ⟨hbad, (decref_strays s (by omega)).of_ok hrun⟩

/-- **The directory and the slot** cost a 4 MB page nothing. -/
theorem freeDir_lost (h : FreeReady s₀ e d live l) (hT : Track s₀ s d k)
    (hrun : freeDir s e d = .ok s₁) :
    d ≠ badFrame ∧ s₀.envFrame e ≠ badFrame ∧ ∀ b ∈ live, b.huge = true →
      s₁.ref b.start = s.ref b.start := by
  have hdlt : d < s.mm.npages := hT.npages.symm ▸ FreeReady.single_lt h.inv h.root
  have hsmall : s.mm.npages ≤ 65536 := hT.npages.symm ▸ h.small
  have hne : ∀ {f : ℕ}, ∀ b ∈ live, b.huge = true → b ≠ pageBlock f := by
    rintro f b - hbig rfl
    exact nomatch hbig
  obtain ⟨s₂, hrun₂, hrun₁⟩ := bind_eq_ok.1 hrun
  obtain ⟨hd, hs₂⟩ := decrefKva_strays (s := s.modSpace e freedSpace) hdlt hsmall hrun₂
  have hframe : s₂.envFrame e = s₀.envFrame e :=
    congrFun (hs₂.space.envFrame.trans hT.space.envFrame) e
  have hnp : s₂.mm.npages = s.mm.npages := hs₂.npages
  have hslot : s₂.envFrame e < s₂.mm.npages := by
    rw [hframe, hnp, hT.npages]
    exact FreeReady.single_lt h.inv h.slot
  obtain ⟨he, hs₁⟩ := decrefKva_strays hslot (by rw [hnp]; exact hsmall) hrun₁
  rw [hframe] at he hs₁
  refine ⟨hd, he, fun b hb hbig => ?_⟩
  have hone :=
    (hs₂.apart b.start (apart_of_blocks h.inv hT.flags h.root hb (hne b hb hbig) b.has_start)).1
  have htwo := (hs₁.apart b.start (apart_of_blocks h.inv (fun f hf => hT.flags f (hs₂.flags f hf))
    h.slot hb (hne b hb hbig) b.has_start)).1
  exact htwo.trans hone

end Track

/-! ### When the release is exact -/

/-- **`env_free` has released exactly what the environment used.** It returns, no page of the free
list has a reference, the counter of every frame but the one of the slot has gone down by the
references of the environment, and a block is free if that was its last reference. -/
def FreesExactly (s : Vm) (e d : ℕ) (live : List Block) (l : List ℕ) : Prop :=
  ∃ s' l', envFreeVm s e = .ok s' ∧ FreeInv s'.mm l' ∧ ∀ g ≠ s.envFrame e,
    (s'.ref g).toNat + s.mm.uses d g = (s.ref g).toNat ∧
    (g ∈ l' ↔ g ∈ l ∨ ∃ b ∈ live, b.Has g ∧ 0 < s.mm.uses d b.start ∧ s'.ref b.start = 0)

section Exact

variable {s s' : Vm} {e d : ℕ} {live : List Block} {l : List ℕ} {b : Block}

/-- **A stray word costs too many references.** -/
theorem envFreeVm_lost (h : FreeReady s e d live l) (hb : b ∈ live) (hbig : b.huge = true)
    (hstray : ∃ j < 1024, isPresent (s.mm.word b.start j) = true) (huse : 0 < s.mm.uses d b.start)
    (hrun : envFreeVm s e = .ok s') :
    (s'.ref b.start).toNat + s.mm.uses d b.start ≠ (s.ref b.start).toNat := by
  rw [envFreeVm_eq h.dir] at hrun
  obtain ⟨s₁, hloop, hend⟩ := bind_eq_ok.1 hrun
  have hL := freePdes_lost h hb hbig hstray le_rfl hloop
  obtain ⟨-, -, hrefs⟩ := freeDir_lost h hL.track hend
  have hle := bigSlots_le s.mm d b.start (pdx uTop)
  have hut : pdx uTop = 955 := by decide
  rw [uses_bigSlots h hb hbig] at huse ⊢
  obtain ⟨n, href, hlow, hhigh⟩ := hL.after huse
  rw [hrefs b hb hbig, href]
  obtain ⟨c, hc⟩ : ∃ c, s.mm.bigSlots d b.start (pdx uTop) = c := ⟨_, rfl⟩
  rw [hc] at hlow hhigh hle huse ⊢
  have hlt := (s.ref b.start).isLt
  rw [BitVec.toNat_sub, BitVec.toNat_ofNat]
  omega

/-- A run that returns has met no bad frame. -/
theorem envFreeVm_frames (h : FreeReady s e d live l) (hrun : envFreeVm s e = .ok s') :
    d ≠ badFrame ∧ s.envFrame e ≠ badFrame := by
  rw [envFreeVm_eq h.dir] at hrun
  obtain ⟨s₁, hloop, hend⟩ := bind_eq_ok.1 hrun
  obtain ⟨hd, he, -⟩ := freeDir_lost h (freePdes_track h le_rfl hloop) hend
  exact ⟨hd, he⟩

/-- **A stray word in a 4 MB page makes the release wrong.** -/
theorem not_freesExactly (h : FreeReady s e d live l) {i : ℕ} (hi : i < pdx uTop)
    (hP : isPresent (s.mm.word d i) = true) (hH : isHuge (s.mm.word d i) = true) {j : ℕ}
    (hj : j < 1024) (hstray : isPresent (s.mm.word (pgnum (s.mm.word d i)) j) = true) :
    ¬ FreesExactly s e d live l := by
  rintro ⟨s', l', hrun, -, hall⟩
  obtain ⟨b, hb, hbig, hstart, -⟩ := h.big i hi hP hH
  have huse := uses_big hi hP hH
  rw [← hstart] at hstray huse
  have hne : b.start ≠ s.envFrame e := h.inv.huge_ne_page hb hbig h.slot
  exact envFreeVm_lost h hb hbig ⟨j, hj, hstray⟩ huse hrun (hall b.start hne).1

/-- **The release is exact if and only if no word in the first 4 KB of a 4 MB page looks like a
present entry**, and neither the directory nor the slot of the environment lies in the frame that
`PADDR` does not accept. -/
theorem envFree_exact_iff (h : FreeReady s e d live l) :
    FreesExactly s e d live l ↔ s.mm.BlankHeads d ∧ d ≠ badFrame ∧ s.envFrame e ≠ badFrame := by
  constructor
  · intro hex
    refine ⟨fun i hi hP hH j hj => ?_, ?_⟩
    · by_contra hc
      exact not_freesExactly h hi hP hH hj (by simpa using hc) hex
    · obtain ⟨s', l', hrun, -⟩ := hex
      exact envFreeVm_frames h hrun
  · rintro ⟨hblank, hd, hs⟩
    exact h.frees hblank hd hs

end Exact

/-! ### A 4 MB page with one word -/

/-- The words: the entry of the directory for the 4 MB page at `0x400000`, and the first word of the
page. -/
def bigWord (w : BitVec 32) (f i : ℕ) : BitVec 32 :=
  if f = 5 ∧ i = 1 then 0x400087 else if f = 1024 ∧ i = 0 then w else 0

/-- A machine with an environment that has one 4 MB page, in which the word `w` stands first. -/
def bigVm (w : BitVec 32) : Vm where
  mm := ⟨2048, frames_blocks, false,
    fun i => ⟨none, none, if i = 5 ∨ i = 1024 then 1 else 0, slotFlags i⟩, none, 0,
    ⟨none, none, none, none, none, none⟩, 0, 0, bytesOf (bigWord w)⟩
  envs _ := Space.ofDir 5
  kernPgdir _ := 0
  image _ := 0
  envFrame _ := 6
  written := []

theorem bigVm_word (w : BitVec 32) (f i : ℕ) : (bigVm w).mm.word f i = bigWord w f i :=
  Mm.word_bytesOf (w := bigWord w) rfl i

theorem bigVm_slot (w : BitVec 32) (i : ℕ) :
    (bigVm w).mm.word 5 i = if i = 1 then 0x400087 else 0 := by
  rw [bigVm_word, bigWord]
  by_cases hi : i = 1
  · rw [if_pos ⟨rfl, hi⟩, if_pos hi]
  · rw [if_neg fun hc => hi hc.2, if_neg (by omega), if_neg hi]

/-- The only slot that is present is the one for the 4 MB page. -/
theorem bigVm_present {w : BitVec 32} {i : ℕ} (hP : isPresent ((bigVm w).mm.word 5 i) = true) :
    i = 1 := by
  rw [bigVm_slot] at hP
  by_contra hc
  rw [if_neg hc] at hP
  exact absurd hP (by decide)

theorem bigVm_noTable (w : BitVec 32) (i : ℕ) : ¬ (bigVm w).mm.HasTable 5 i := by
  rintro ⟨hP, hH⟩
  rw [bigVm_slot, if_pos (bigVm_present hP)] at hH
  exact absurd hH (by decide)

theorem bigVm_pde (w : BitVec 32) : (bigVm w).mm.word 5 1 = 0x400087 :=
  (bigVm_slot w 1).trans (if_pos rfl)

theorem bigVm_uses (w : BitVec 32) (g : ℕ) :
    (bigVm w).mm.uses 5 g = (if g = 1024 then 1 else 0) + if g = 5 then 1 else 0 := by
  have hlt : 1 ∈ Finset.range (pdx uTop) := Finset.mem_range.2 (by decide)
  have hpg : pgnum (0x400087 : BitVec 32) = 1024 := by decide
  rw [Mm.uses, Finset.sum_eq_single_of_mem 1 hlt fun i _ hi => slotUses_absent ?_]
  · rw [slotUses_huge (by rw [bigVm_pde]; decide) (by rw [bigVm_pde]; decide), bigVm_pde, hpg]
  · by_contra hc
    exact hi (bigVm_present (by simpa using hc))

/-- The references of the machine are counted. -/
theorem bigVm_ready (w : BitVec 32) : FreeReady (bigVm w) 0 5 slotLive [] where
  inv := (slotVm_inv 0).congr rfl rfl rfl (fun _ => rfl) fun _ hi => (List.not_mem_nil hi).elim
  steady := ⟨rfl, by simp [drift, bigVm], fun _ =>
    [], by intro q; cases q <;> rfl, by simp, by simp⟩
  small := by change 2048 ≤ 65536; decide
  dir := rfl
  root := by simp [slotLive]
  slot := by simp [slotLive, bigVm]
  slotDir := by change 6 ≠ 5; decide
  table i _ ht := absurd ht (bigVm_noTable w i)
  apart i _ _ _ ht := absurd ht (bigVm_noTable w i)
  pte i _ ht := absurd ht (bigVm_noTable w i)
  big i _ hP _ := by
    obtain rfl := bigVm_present hP
    refine ⟨hugeBlock 1024, by simp [slotLive], rfl, ?_, fun j hj hne => ?_⟩
    · rw [bigVm_pde]
      decide
    · rw [hugeBlock_has] at hj
      have hne : j ≠ 1024 := hne
      exact if_neg (by omega)
  counted g := by
    have href : (bigVm w).ref g = if g = 5 ∨ g = 1024 then 1 else 0 := rfl
    rw [bigVm_uses, href]
    by_cases hd : g = 5
    · subst hd
      decide
    · by_cases hb : g = 1024
      · subst hb
        decide
      · rw [if_neg hb, if_neg hd, if_neg (by omega)]
        exact Nat.zero_le _

theorem envFree_exact_blank : FreesExactly (bigVm 0) 0 5 slotLive [] := by
  refine (envFree_exact_iff (bigVm_ready 0)).2 ⟨fun i _ hP _ j _ => ?_, ?_, ?_⟩
  · have hpg : pgnum (0x400087 : BitVec 32) = 1024 := by decide
    rw [bigVm_present hP, bigVm_pde, hpg, bigVm_word, bigWord, if_neg (by omega), ite_self]
    rfl
  · rw [badFrame]
    decide
  · rw [badFrame]
    decide

/-- **The word 1 at the start of a 4 MB page**: the counter of the page falls to `0xffff`. -/
theorem env_free_stray_word :
    ¬ ∀ (s : Vm) (e d : ℕ) (live : List Block) (l : List ℕ), FreeReady s e d live l → d ≠ badFrame →
      s.envFrame e ≠ badFrame →
      FreesExactly s e d live l := by
  intro hall
  have hword : (bigVm 1).mm.word 1024 0 = 1 := bigVm_word 1 1024 0
  have hpg : pgnum (0x400087 : BitVec 32) = 1024 := by decide
  refine not_freesExactly (bigVm_ready 1)
    (i := 1) (by decide) (by rw [bigVm_pde]; decide) (by rw [bigVm_pde]; decide)
    (j := 0) (by decide) ?_
    (hall (bigVm 1) 0 5 slotLive [] (bigVm_ready 1) ?_ ?_)
  · rw [bigVm_pde, hpg, hword]
    decide
  · rw [badFrame]
    decide
  · rw [badFrame]
    decide

end Jos
