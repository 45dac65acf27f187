/-
**Protection and shared frames.**

After a fork two environments map one frame, and neither of them may write to it: what says that a
frame is shared is its count of references, and what protects it is that the entries lack `PTE_W`.
`vma_change_perm` looks at neither. It gives the entries of the range the permission that the
program asks for, and with `PTE_W` a shared frame becomes writable.

Main definitions:

* `Jos.CowSafe` — no frame with more than one reference is mapped writable;
* `Jos.SpacesApart` — the environments have page tables of their own;
* `Jos.ProtectCall`, `Jos.ProtectCall.Step` — the calls of `sys_vma_protect`;
* `Jos.ProtectCall.KeepsSharing` — the condition for a call.

Main results:

* `Jos.changePermFrom_aside` — `vma_change_perm` leaves the other page tables and the references
  alone;
* `Jos.protect_keeps_sharing` — **in a run whose calls meet the condition no shared frame becomes
  writable**.
-/

import JosKernel.Descriptors
import JosKernel.LabelledRun

set_option relaxedAutoImplicit false
set_option autoImplicit false

namespace Jos

open LinkedList Outcome LabelledRun

/-! ### The page tables below `UTOP` -/

/-- The frames of the directory `d` and of its page tables below `UTOP`. -/
def Mm.LowFrame (m : Mm) (d g : ℕ) : Prop :=
  g = d ∨ ∃ i < pdx uTop, m.HasTable d i ∧ pgnum (m.word d i) = g

/-- **The environments have page tables of their own.** -/
structure SpacesApart (s : Vm) : Prop where
  tables : ∀ e d, s.pgdir e = some d → TlbTables s.mm d
  apart : ∀ e d e' d', s.pgdir e = some d → s.pgdir e' = some d' → e ≠ e' → ∀ g, s.mm.LowFrame d g →
    ¬ s.mm.LowFrame d' g

/-- **No frame with more than one reference is mapped writable.** -/
def CowSafe (s : Vm) : Prop :=
  ∀ e d, s.pgdir e = some d → ∀ q, q / 1024 < pdx uTop → ∀ w b, s.mm.leaf d q = some (w, b) →
    isPresent w = true →
    isWritable w = true → ∀ f c, s.mm.translate d q = some (f, c) → (s.ref f).toNat ≤ 1

/-- The words of a directory decide which frames are its page tables. -/
theorem Mm.lowFrame_congr {m m' : Mm} {d : ℕ} (h : SameTables m m' d) (g : ℕ) :
    m'.LowFrame d g ↔ m.LowFrame d g := by
  refine or_congr_right (exists_congr fun i => and_congr_right fun _ => ?_)
  constructor
  · rintro ⟨htab, rfl⟩
    have htab := (h i).1.1 htab
    exact ⟨htab, by rw [(h i).2 htab]⟩
  · rintro ⟨htab, rfl⟩
    exact ⟨(h i).1.2 htab, by rw [(h i).2 htab]⟩

theorem SameTables.of_mem {m m' : Mm} {d : ℕ} (h : m'.mem d = m.mem d) : SameTables m m' d :=
  fun i => by
  have hword : m'.word d i = m.word d i := Mm.word_of_mem h i
  rw [Mm.HasTable, Mm.HasTable, hword]
  exact ⟨Iff.rfl, fun _ => rfl⟩

/-- A walk below `UTOP` reads only these frames. -/
theorem Mm.leaf_congr {m m' : Mm} {d : ℕ} (h : ∀ g, m.LowFrame d g → m'.mem g = m.mem g) {q : ℕ}
    (hq : q / 1024 < pdx uTop) :
    m'.leaf d q = m.leaf d q := by
  have hdir : m'.word d (q / 1024) = m.word d (q / 1024) := Mm.word_of_mem (h d (Or.inl rfl)) _
  unfold Mm.leaf
  rw [hdir]
  by_cases hP : isPresent (m.word d (q / 1024)) = true
  · rw [if_pos hP, if_pos hP]
    by_cases hH : isHuge (m.word d (q / 1024)) = true
    · rw [if_pos hH, if_pos hH]
    · have htab : m.HasTable d (q / 1024) := ⟨hP, Bool.eq_false_of_not_eq_true hH⟩
      rw [if_neg hH, if_neg hH, Mm.word_of_mem (h _ (Or.inr ⟨_, hq, htab, rfl⟩)) _]
  · rw [if_neg hP, if_neg hP]

/-! ### What `vma_change_perm` leaves alone -/

/-- **`page_insert` of the frame that is there**: the entry gets the permissions, and nothing else
changes. -/
theorem pageInsert_renew {s : Vm} {d : ℕ} {va perm w : BitVec 32}
    (hleaf : s.mm.leaf d (vpn va) = some (w, false)) (hperm : isHuge perm = false) :
    Ends (fun _ => True) (fun r => r.2 = s.writePte (s.mm.leafPtr d (vpn va)) va (pgnum w)
      (renew perm w))
      (pageInsert s (some d) (some (pgnum w)) va perm) := by
  obtain ⟨hP, -, hw⟩ := Mm.leaf_eq_some hleaf
  unfold pageInsert
  refine ends_ite (fun _ => True.intro) fun _ => ?_
  rw [hperm, ends_bind]
  refine (@pgdirWalk_present s d va false hP).post ?_
  rintro r rfl
  dsimp only
  rw [Mm.insertPtr, if_neg Bool.false_ne_true]
  have hsame : ¬ pteAddr (s.pte (s.mm.leafPtr d (vpn va))) ≠ page2pa (pgnum w) := by
    rw [Vm.pte, ← hw, not_not]
    exact (pteAddr_eq_page2pa_iff (pgnum_lt w)).2 rfl
  rw [if_neg fun hc => hsame hc.2]
  exact congrArg (fun s : Vm => s.writePte _ va (pgnum w) _) (if_neg hsame)

/-- The references are the same, and so are the directory and the frames that are none of its page
tables. -/
structure Elsewhere (m m' : Mm) (d : ℕ) : Prop where
  pages : m'.pages = m.pages
  dir : m'.mem d = m.mem d
  mem : ∀ g, ¬ m.LowFrame d g → m'.mem g = m.mem g

namespace Elsewhere

variable {m m' m'' : Mm} {d : ℕ}

theorem refl (m : Mm) (d : ℕ) : Elsewhere m m d := ⟨rfl, rfl, fun _ _ => rfl⟩

theorem trans (h : Elsewhere m m' d) (h' : Elsewhere m' m'' d) : Elsewhere m m'' d := by
  refine ⟨h'.pages.trans h.pages, h'.dir.trans h.dir, fun g hg => ?_⟩
  exact (h'.mem g fun hc => hg ((Mm.lowFrame_congr (SameTables.of_mem h.dir) g).1 hc)).trans
    (h.mem g hg)

theorem tables (h : Elsewhere m m' d) (ht : TlbTables m d) : TlbTables m' d :=
  ht.congr (SameTables.of_mem h.dir) fun g hg => by
    rw [h.pages]
    exact ht.unmarked g hg

theorem comes_iff (h : Elsewhere m m' d) (first q : ℕ) :
    m'.Comes d first q ↔ m.Comes d first q := by
  refine forall_congr' fun p => imp_congr_right fun _ => imp_congr_right fun _ => not_congr ?_
  rw [Mm.leaf_eq_none, Mm.leaf_eq_none, Mm.word_of_mem h.dir]

/-- One entry of a page table is written. -/
theorem writePte {s : Vm} {q : ℕ} {va w w' : BitVec 32} {pp : ℕ} (ht : TlbTables s.mm d)
    (hq : q / 1024 < pdx uTop) (hleaf : s.mm.leaf d q = some (w, false)) :
    Elsewhere s.mm (s.writePte (s.mm.leafPtr d q) va pp w').mm d := by
  obtain ⟨hP, hH, -⟩ := Mm.leaf_eq_some hleaf
  have hptr : s.mm.leafPtr d q = ⟨pgnum (s.mm.word d (q / 1024)), q % 1024⟩ := Mm.leafPtr_small hH
  have hmem : ∀ g ≠ pgnum (s.mm.word d (q / 1024)),
      (s.writePte (s.mm.leafPtr d q) va pp w').mm.mem g = s.mm.mem g := by
    intro g hg
    rw [hptr]
    exact Function.update_of_ne hg ..
  refine ⟨rfl, hmem d fun hc => ht.user _ hq ⟨hP, hH⟩ hc.symm, fun g hg => hmem g ?_⟩
  rintro rfl
  exact hg (Or.inr ⟨_, hq, ⟨hP, hH⟩, rfl⟩)

end Elsewhere

/-- **The loop of `vma_change_perm`** writes to the page tables of its environment only, and keeps
the references. -/
theorem changePermFrom_aside {e d : ℕ} {va perm : BitVec 32} (hperm : isHuge perm = false) :
    ∀ (n i : ℕ) (s : Vm),
    s.pgdir e = some d → TlbTables s.mm d → LowPages va i n →
    (∀ q, vpn va + i ≤ q → q < vpn va + i + n → s.mm.Comes d (vpn va + i) q →
      isPresent (s.mm.word d (q / 1024)) = true →
      isHuge (s.mm.word d (q / 1024)) = false) →
    Ends (fun _ => True) (fun s' => Elsewhere s.mm s'.mm d) (changePermFrom e va perm n i s) := by
  intro n
  induction n with
  | zero => exact fun i s _ _ _ _ => Elsewhere.refl s.mm d
  | succ n ih =>
      intro i s hd ht hlow hsmall
      obtain ⟨hva, hvpn⟩ := pageAt_lt hlow
      have hpage : vpn (pageAt va i) / 1024 < pdx uTop := pdx_eq (pageAt va i) ▸ pdx_lt_of_lt hva
      -- the rest of the pages, in a state with the same directory
      have hrest : ∀ s₁ : Vm, s₁.pgdir e = some d → Elsewhere s.mm s₁.mm d →
          s.mm.leaf d (vpn va + i) ≠ none →
          Ends (fun _ => True) (fun s' => Elsewhere s.mm s'.mm d)
            (changePermFrom e va perm n (i + 1) s₁) := by
        intro s₁ hd₁ h₁ hsome
        refine (ih (i + 1) s₁ hd₁ (h₁.tables ht) hlow.succ ?_).post
          fun s' hs' => h₁.trans hs'
        intro q hle hlt hcomes hP
        rw [Mm.word_of_mem h₁.dir] at hP ⊢
        refine hsmall q (by omega) (by omega) ((Mm.comes_succ (by omega)).2 ⟨hsome, ?_⟩) hP
        exact (h₁.comes_iff _ q).1 hcomes
      rw [changePermFrom, hd, ends_bind]
      refine (pgdirFind_leaf s d (pageAt va i)).post ?_
      rintro r (⟨rfl, -⟩ | ⟨rfl, hP⟩)
      · exact Elsewhere.refl s.mm d
      · have hsome : s.mm.leaf d (vpn va + i) ≠ none := by
          rw [← hvpn, Ne, Mm.leaf_eq_none, hP]
          exact Bool.noConfusion
        have hH := hsmall (vpn va + i) (Nat.le_refl _) (by omega)
          (fun p hp hpq => absurd hp (by omega)) (hvpn ▸ hP)
        rw [← hvpn] at hH
        have hleaf : s.mm.leaf d (vpn (pageAt va i)) =
            some (s.pte (s.mm.leafPtr d (vpn (pageAt va i))), false) := by
          rw [Mm.leaf, if_pos hP, hH, if_neg Bool.false_ne_true, Mm.leafPtr_small hH]
          rfl
        dsimp only
        refine ends_ite (fun _ => ?_) fun _ => hrest s hd (Elsewhere.refl s.mm d) hsome
        rw [ends_bind]
        unfold pageLookup
        rw [if_neg (fun hc => by cases hc), ends_bind]
        refine (pgdirFind_leaf s d (pageAt va i)).post ?_
        rintro r (⟨rfl, -⟩ | ⟨rfl, -⟩)
        · exact Elsewhere.refl s.mm d
        · dsimp only
          rw [ends_bind]
          refine (pa2page_ends _ _).post fun pp hpp => ?_
          rw [pgnum_pteAddr] at hpp
          rw [ends_pure, hpp]
          dsimp only
          rw [ends_bind]
          refine (pageInsert_renew hleaf hperm).post ?_
          rintro ⟨ok, s₁⟩ hs₁
          have hs₁ : s₁ = _ := hs₁
          have hwrite := @Elsewhere.writePte d s (vpn (pageAt va i)) (pageAt va i) _
            (renew perm (s.pte (s.mm.leafPtr d (vpn (pageAt va i)))))
            (pgnum (s.pte (s.mm.leafPtr d (vpn (pageAt va i))))) ht hpage hleaf
          rw [← hs₁] at hwrite
          refine hrest s₁ ?_ hwrite hsome
          rw [hs₁]
          exact hd

/-! ### The call -/

section

variable {s : Vm} {e i : ℕ} {la lf : List ℕ} {va size : BitVec 32}

/-- **What a call does to memory**: nothing, or the loop of `vma_change_perm` over the pages of the
range. -/
theorem protectVm_step {s' : Vm} {perm a : BitVec 32} (h : VmaInv (s.envs e) la lf)
    (hrun : protectVm s e va size perm = .ok (a, s')) :
    (∀ e', VmaOk (s.envs e') → VmaOk (s'.envs e')) ∧
    (SameMemory s s' ∨ ∃ i s₁ s₂, vmaLookup (s.envs e) va = .ok (some i) ∧
      (s.vma e i).perm ≠ perm ∧ (s.vma e i).Splittable ∧ vmaSizeCheck va size (s.vma e i) = true ∧
      SameMemory s s₁ ∧
      changePermFrom e va perm (pageCount size) 0 s₁ = .ok s₂ ∧ SameMemory s₂ s') := by
  have hsame : s' = s → (∀ e', VmaOk (s.envs e') → VmaOk (s'.envs e')) ∧ SameMemory s s' := by
    rintro rfl
    exact ⟨fun _ hok => hok, rfl, fun _ => rfl⟩
  unfold protectVm at hrun
  obtain ⟨r, hlook, hrun⟩ := bind_eq_ok.1 hrun
  cases r with
  | none =>
      obtain ⟨hok, hmem⟩ := hsame (Prod.mk.inj (Except.ok.inj hrun)).2.symm
      exact ⟨hok, Or.inl hmem⟩
  | some j =>
      change (if (s.vma e j).perm = perm then _ else _) = _ at hrun
      by_cases hperm : (s.vma e j).perm = perm
      · rw [if_pos hperm] at hrun
        obtain ⟨hok, hmem⟩ := hsame (Prod.mk.inj (Except.ok.inj hrun)).2.symm
        exact ⟨hok, Or.inl hmem⟩
      · rw [if_neg hperm] at hrun
        obtain ⟨⟨r, vm⟩, hsplit, hrun⟩ := bind_eq_ok.1 hrun
        cases r with
        | none =>
            have hvm := (vmaSplitLookup_same h va size).of_ok hsplit rfl
            obtain ⟨hok, hmem⟩ := hsame ((Prod.mk.inj (Except.ok.inj hrun)).2.symm.trans hvm)
            exact ⟨hok, Or.inl hmem⟩
        | some i =>
            obtain ⟨hi, hsplits, hsize, honly, ⟨hva, hlen⟩, la', lf', hinv, hmem⟩ :=
              vmaSplitLookup_range h hsplit
            obtain rfl : i = j := (Option.some.inj (Except.ok.inj (hlook.symm.trans hi))).symm
            obtain ⟨s₂, hchange, hrun⟩ := bind_eq_ok.1 hrun
            obtain ⟨⟨ok, s₃⟩, hmerge, hrun⟩ := bind_eq_ok.1 hrun
            obtain rfl : s₃ = s' := (Prod.mk.inj (Except.ok.inj hrun)).2
            have hinv₂ := (vmaChangePerm_ends hinv hmem perm).of_ok hchange
            have honly₃ := (vmaListMerge_only s₂ e).of_ok hmerge
            obtain ⟨s₁, honly₁, hloop⟩ := vmaChangePerm_range honly hva hlen hchange
            refine ⟨fun e' hok => ?_,
              Or.inr ⟨i, s₁, s₂, hi, hperm, hsplits, hsize, honly₁.memory, hloop, honly₃.memory⟩⟩
            by_cases he : e' = e
            · subst he
              exact (vmaListMerge_ends ⟨la', lf', hinv₂⟩).of_ok hmerge
            · rw [honly₃.others he]
              refine VmaOk.congr hok
                (((changePermFrom_ends e va perm _ 0 s₁).of_ok hloop e').trans ?_)
              rw [honly₁.others he]

end

/-! ### The calls -/

/-- A call of `sys_vma_protect`. -/
structure ProtectCall where
  cur : ℕ
  va : BitVec 32
  size : BitVec 32
  perm : BitVec 32

namespace ProtectCall

/-- The call returns. -/
def Step (s : KState) (c : ProtectCall) (t : KState) : Prop :=
  ∃ a, Kern.sysVmaProtect c.cur c.va c.size c.perm s = .ok (a, t)

/-- **The condition for a call** that gets to the pages: they lie below `UTOP`, `PTE_PS` is not
asked for and none of them is a 4 MB page; and `PTE_W` is asked for only where the frame has one
reference at most. -/
def KeepsSharing (s : KState) (c : ProtectCall) : Prop :=
  ∀ i, vmaLookup (s.vm.envs c.cur) c.va = .ok (some i) → (s.vm.vma c.cur i).perm ≠ c.perm →
    (s.vm.vma c.cur i).Splittable →
    vmaSizeCheck c.va c.size (s.vm.vma c.cur i) = true →
    (isHuge c.perm = false ∧ c.va.toNat + pageCount c.size * 4096 ≤ uTop.toNat) ∧
    ∀ d, s.vm.pgdir c.cur = some d → ∀ q ∈ s.vm.mm.walked d (pageCount c.size) (vpn c.va),
      isHuge (s.vm.mm.word d (q / 1024)) = false ∧
      (isWritable c.perm = true → ∀ w b, s.vm.mm.leaf d q = some (w, b) →
        (s.vm.ref (pgnum (renew c.perm w))).toNat ≤ 1)

end ProtectCall

/-- **What a run keeps.** -/
structure Guarded (s : KState) : Prop where
  env : s.held .env = false
  pagealloc : s.held .pagealloc = false
  areas : ∀ e, VmaOk (s.vm.envs e)
  spaces : SpacesApart s.vm
  safe : CowSafe s.vm

/-- The entry that is written is writable if the permission is. -/
theorem isWritable_renew (perm w : BitVec 32) : isWritable (renew perm w) = isWritable perm := by
  rw [isWritable, renew, newPte, copyPte_and _ perm (by decide) (by decide), isWritable]

section

variable {s s' : Vm} {e d n : ℕ} {va perm : BitVec 32}

theorem SpacesApart.congr (h : SpacesApart s) (hs : SameMemory s s') : SpacesApart s' where
  tables e d hd := by
    rw [hs.1]
    exact h.tables e d ((hs.2 e).symm.trans hd)
  apart e d e' d' hd hd' hne g hg := by
    rw [hs.1] at hg ⊢
    exact h.apart e d e' d' ((hs.2 e).symm.trans hd) ((hs.2 e').symm.trans hd') hne g hg

theorem CowSafe.congr (h : CowSafe s) (hs : SameMemory s s') : CowSafe s' := by
  intro e d hd q hq w b hw hP hW f c hf
  rw [hs.1] at hw hf
  rw [Vm.ref, hs.1]
  exact h e d ((hs.2 e).symm.trans hd) q hq w b hw hP hW f c hf

/-- The entries of another environment are as before. -/
theorem SpacesApart.leaf_other (h : SpacesApart s) (hd : s.pgdir e = some d)
    (haside : Elsewhere s.mm s'.mm d) {e' d' : ℕ} (hd' : s.pgdir e' = some d') (hne : e' ≠ e)
    {q : ℕ} (hq : q / 1024 < pdx uTop) : s'.mm.leaf d' q = s.mm.leaf d' q :=
  Mm.leaf_congr (fun g hg => haside.mem g fun hc => h.apart e' d' e d hd' hd hne g hg hc) hq

/-- The page tables are apart after the loop of `vma_change_perm`. -/
theorem SpacesApart.changed (h : SpacesApart s) (hd : s.pgdir e = some d)
    (hpg : ∀ e', s'.pgdir e' = s.pgdir e') (haside : Elsewhere s.mm s'.mm d) : SpacesApart s' := by
  have hdir : ∀ e' d', s.pgdir e' = some d' → s'.mm.mem d' = s.mm.mem d' := by
    intro e' d' hd'
    by_cases he : e' = e
    · subst he
      obtain rfl : d = d' := Option.some.inj (hd.symm.trans hd')
      exact haside.dir
    · exact haside.mem d' fun hc => h.apart e' d' e d hd' hd he d' (Or.inl rfl) hc
  have htables : ∀ e' d', s.pgdir e' = some d' → SameTables s.mm s'.mm d' :=
    fun e' d' hd' => SameTables.of_mem (hdir e' d' hd')
  refine ⟨fun e' d' hd' => ?_, fun e₁ d₁ e₂ d₂ hd₁ hd₂ hne g hg hg' => ?_⟩
  · rw [hpg] at hd'
    refine (h.tables e' d' hd').congr (htables e' d' hd') fun g hg => ?_
    rw [haside.pages]
    exact (h.tables e' d' hd').unmarked g hg
  · rw [hpg] at hd₁ hd₂
    rw [Mm.lowFrame_congr (htables _ _ hd₁)] at hg
    rw [Mm.lowFrame_congr (htables _ _ hd₂)] at hg'
    exact h.apart e₁ d₁ e₂ d₂ hd₁ hd₂ hne g hg hg'

/-- **The loop of `vma_change_perm` makes no shared frame writable** if the condition holds. -/
theorem CowSafe.changed (h : CowSafe s) (hs : SpacesApart s) (hd : s.pgdir e = some d)
    (hpages : ∀ q ∈ s.mm.walked d n (vpn va), isHuge (s.mm.word d (q / 1024)) = false ∧
      (isWritable perm = true → ∀ w b, s.mm.leaf d q = some (w, b) →
        (s.ref (pgnum (renew perm w))).toNat ≤ 1))
    (hpg : ∀ e', s'.pgdir e' = s.pgdir e') (haside : Elsewhere s.mm s'.mm d)
    (hren : Renewed s.mm s'.mm d (vpn va) n perm) :
    CowSafe s' := by
  have hold : ∀ e' d' q, s.pgdir e' = some d' → q / 1024 < pdx uTop →
      s'.mm.leaf d' q = s.mm.leaf d' q → ∀ w b,
      s'.mm.leaf d' q = some (w, b) → isPresent w = true → isWritable w = true →
        ∀ f c, s'.mm.translate d' q = some (f, c) →
      (s'.ref f).toNat ≤ 1 := by
    intro e' d' q hd' hq hsame w b hw hP hW f c hf
    rw [Mm.translate, hsame] at hf
    rw [Vm.ref, haside.pages]
    exact h e' d' hd' q hq w b (hsame.symm.trans hw) hP hW f c hf
  intro e' d' hd' q hq w b hw hP hW f c hf
  rw [hpg] at hd'
  by_cases he : e' = e
  · subst he
    obtain rfl : d = d' := Option.some.inj (hd.symm.trans hd')
    by_cases hmem : q ∈ s.mm.walked d n (vpn va)
    · obtain ⟨-, -, -, w₀, b₀, hw₀, -⟩ := Mm.mem_walked.1 hmem
      obtain ⟨hsmall, hrefs⟩ := hpages q hmem
      rw [(Mm.leaf_eq_some hw₀).2.1] at hsmall
      subst hsmall
      have hnew := hren.written q hmem w₀ false hw₀
      obtain ⟨rfl, rfl⟩ := Prod.mk.inj (Option.some.inj (hnew.symm.trans hw))
      rw [isWritable_renew] at hW
      rw [Mm.translate, hw] at hf
      dsimp only at hf
      rw [if_pos hP] at hf
      rw [← (Prod.mk.inj (Option.some.inj hf)).1, Vm.ref, haside.pages]
      exact hrefs hW w₀ false hw₀
    · exact hold e' d q hd hq (hren.others q hq hmem) w b hw hP hW f c hf
  · exact hold e' d' q hd' hq (hs.leaf_other hd haside hd' he hq) w b hw hP hW f c hf

/-- An environment without a directory has no pages to change. -/
theorem changePermFrom_none (hd : s.pgdir e = none)
    (hrun : changePermFrom e va perm n 0 s = .ok s') : s' = s := by
  cases n with
  | zero => exact (Except.ok.inj hrun).symm
  | succ n =>
      rw [changePermFrom, hd] at hrun
      cases hrun

end

/-- **One call.** -/
theorem Guarded.step {s t : KState} {c : ProtectCall} (h : Guarded s) (hc : c.KeepsSharing s)
    (hst : c.Step s t) : Guarded t := by
  obtain ⟨a, hrun⟩ := hst
  rw [Kern.sysVmaProtect_eq h.env h.pagealloc] at hrun
  cases hvm : protectVm s.vm c.cur c.va c.size c.perm with
  | error x =>
      rw [hvm] at hrun
      cases hrun
  | ok r =>
      obtain ⟨a', vm⟩ := r
      rw [hvm] at hrun
      obtain ⟨-, rfl⟩ := Prod.mk.inj (Except.ok.inj hrun)
      obtain ⟨la, lf, hinv⟩ := h.areas c.cur
      obtain ⟨hareas, hmem⟩ := protectVm_step hinv hvm
      suffices hend : SpacesApart vm ∧ CowSafe vm from ⟨h.env, h.pagealloc, fun e =>
          hareas e (h.areas e), hend.1, hend.2⟩
      rcases hmem with hsame | ⟨i, s₁, s₂, hi, hne, hsplits, hsize, hs₁, hchange, hs₂⟩
      · exact ⟨h.spaces.congr hsame, h.safe.congr hsame⟩
      · obtain ⟨⟨hperm, hlow⟩, hpages⟩ := hc i hi hne hsplits hsize
        have hspaces := h.spaces.congr hs₁
        have hsafe := h.safe.congr hs₁
        suffices hend : SpacesApart s₂ ∧ CowSafe s₂ from ⟨hend.1.congr hs₂, hend.2.congr hs₂⟩
        cases hd : s₁.pgdir c.cur with
        | none =>
            obtain rfl := changePermFrom_none hd hchange
            exact ⟨hspaces, hsafe⟩
        | some d =>
            have hpages := hpages d ((hs₁.2 _).symm.trans hd)
            have hmm := hs₁.1
            rw [← hmm] at hpages
            have hpages' : ∀ q ∈ s₁.mm.walked d (pageCount c.size) (vpn c.va),
                isHuge (s₁.mm.word d (q / 1024)) = false ∧
                (isWritable c.perm = true → ∀ w b, s₁.mm.leaf d q = some (w, b) →
                  (s₁.ref (pgnum (renew c.perm w))).toNat ≤ 1) := by
              intro q hq
              obtain ⟨hsmall, hrefs⟩ := hpages q hq
              refine ⟨hsmall, fun hW w b hw => ?_⟩
              rw [Vm.ref, hmm]
              exact hrefs hW w b hw
            have ht := hspaces.tables _ d hd
            obtain ⟨hpg, -, hren⟩ := changePermFrom_renewed ht hd hperm
              (LowPages.of_le (by rw [Nat.zero_add]; exact hlow)) (fun q hq => (hpages' q hq).1)
              hchange
            have haside := (changePermFrom_aside hperm (pageCount c.size) 0 s₁ hd ht
              (LowPages.of_le (by rw [Nat.zero_add]; exact hlow))
              fun q hle hlt hcomes hP => by
                -- a 4 MB page that the walk comes to is one that it writes
                by_contra hH
                have hH : isHuge (s₁.mm.word d (q / 1024)) = true := Bool.eq_true_of_not_eq_false hH
                rw [Nat.add_zero] at hle hlt hcomes
                have hleaf : s₁.mm.leaf d q = some (s₁.mm.word d (q / 1024), true) := by
                  rw [Mm.leaf, if_pos hP, if_pos hH]
                have hmem := Mm.mem_walked.2 ⟨hle, hlt, hcomes, _, _, hleaf, hP⟩
                rw [(hpages' q hmem).1] at hH
                cases hH).of_ok hchange
            exact ⟨hspaces.changed hd hpg haside, hsafe.changed hspaces hd hpages' hpg haside hren⟩

/-- **No shared frame becomes writable in a run whose calls meet the condition.** -/
theorem protect_keeps_sharing (s t : KState) (tr : List (KState × ProtectCall)) (h : Guarded s)
    (hrun : Run (fun s c t => c.Step s t) s tr t) (hG : Meets (fun s c => c.KeepsSharing s) tr) :
    CowSafe t.vm :=
  (hrun.invariant (fun _ _ _ hs hc hst => Guarded.step hs hc hst) h hG).safe

/-! ### Two environments after a fork -/

/-- The words of the machine: the directories are the frames 1 and 3, their page tables 2 and 4, and
the page is frame 5. -/
def forkedWord (f i : ℕ) : BitVec 32 :=
  if f = 1 ∧ i = 0 then 0x2007 else if f = 3 ∧ i = 0 then 0x4007 else if (f = 2 ∨ f = 4) ∧
    i = 1 then 0x5005 else 0

/-- The directories. -/
def forkedDir (e : ℕ) : Option ℕ := if e = 0 then some 1 else if e = 1 then some 3 else none

/-- **Two environments that share a page**, which both may write to when it has been copied. -/
def forkedVm : Vm :=
  let s := Vm.ofWords 16 frames_sixteen forkedWord fun e => Space.ofAreas (forkedDir e)
    [userArea 0x1000 0x1000] 1
  { s with mm := { s.mm with pages := fun _ => { PageInfo.zero with ppRef := 2 } } }

theorem forkedVm_word (f i : ℕ) : forkedVm.mm.word f i = forkedWord f i :=
  Mm.word_bytesOf (w := forkedWord) rfl i

theorem forkedVm_dir {e d : ℕ} (hd : forkedVm.pgdir e = some d) :
    e = 0 ∧ d = 1 ∨ e = 1 ∧ d = 3 := by
  have hd : forkedDir e = some d := hd
  unfold forkedDir at hd
  split at hd
  · exact Or.inl ⟨by assumption, (Option.some.inj hd).symm⟩
  · split at hd
    · exact Or.inr ⟨by assumption, (Option.some.inj hd).symm⟩
    · exact nomatch hd

/-- A directory has one page table, in the frame behind it. -/
theorem forkedVm_table {d i : ℕ} (hd : d = 1 ∨ d = 3)
    (hP : isPresent (forkedVm.mm.word d i) = true) :
    i = 0 ∧ isHuge (forkedVm.mm.word d i) = false ∧ pgnum (forkedVm.mm.word d i) = d + 1 := by
  rw [forkedVm_word] at hP ⊢
  by_cases hi : i = 0
  · subst hi
    rcases hd with rfl | rfl
    · exact ⟨rfl, by decide, by decide⟩
    · exact ⟨rfl, by decide, by decide⟩
  · rw [forkedWord, if_neg (by omega), if_neg (by omega), if_neg (by omega)] at hP
    exact absurd hP (by decide)

theorem forkedVm_lowFrame {d g : ℕ} (hd : d = 1 ∨ d = 3) (hg : forkedVm.mm.LowFrame d g) :
    g = d ∨ g = d + 1 := by
  rcases hg with rfl | ⟨i, -, htab, rfl⟩
  · exact Or.inl rfl
  · exact Or.inr (forkedVm_table hd htab.1).2.2

theorem forkedVm_apart : SpacesApart forkedVm where
  tables e d hd := by
    have hd : d = 1 ∨ d = 3 := (forkedVm_dir hd).imp And.right And.right
    refine ⟨fun _ _ =>
      (by decide : PageInfo.has { PageInfo.zero with ppRef := 2 } poisonAfterFree = false),
      fun i _ htab => ?_, fun i _ j _ hi hj _ => ?_⟩
    · rw [(forkedVm_table hd htab.1).2.2]
      omega
    · rw [(forkedVm_table hd hi.1).1, (forkedVm_table hd hj.1).1]
  apart e d e' d' hd hd' hne g hg hg' := by
    have h₁ := forkedVm_dir hd
    have h₂ := forkedVm_dir hd'
    have hg := forkedVm_lowFrame (h₁.imp And.right And.right) hg
    have hg' := forkedVm_lowFrame (h₂.imp And.right And.right) hg'
    omega

/-- After a fork no entry is writable. -/
theorem forkedVm_guarded : Guarded (.ofVm forkedVm) where
  env := rfl
  pagealloc := rfl
  areas e := ⟨_, _,
    (@ofAreas_sorted [userArea 0x1000 0x1000] (by decide) (by decide) (forkedDir e) 1).lists⟩
  spaces := forkedVm_apart
  safe e d hd q _ w b hw hP hW := by
    have hd : d = 1 ∨ d = 3 := (forkedVm_dir hd).imp And.right And.right
    have hw : forkedVm.mm.leaf d q = some (w, b) := hw
    unfold Mm.leaf at hw
    split at hw
    · obtain ⟨-, hH, hf⟩ := forkedVm_table hd (by assumption)
      rw [hH, if_neg Bool.false_ne_true, hf, forkedVm_word] at hw
      obtain ⟨rfl, -⟩ := Prod.mk.inj (Option.some.inj hw)
      unfold forkedWord at hW
      rw [if_neg (by omega), if_neg (by omega)] at hW
      split at hW
      · exact absurd hW (by decide)
      · exact absurd hW (by decide)
    · exact nomatch hw

/-- A call on the machine. -/
theorem protectCall_step {vm vm' : Vm} {va size perm a : BitVec 32}
    (h : protectVm vm 0 va size perm = .ok (a, vm')) :
    ProtectCall.Step (.ofVm vm) ⟨0, va, size, perm⟩ (.ofVm vm') := by
  refine ⟨a, ?_⟩
  rw [Kern.sysVmaProtect_eq rfl rfl]
  change KState.after _ _ (protectVm vm 0 va size perm) = _
  rw [h]
  rfl

/-- The page is made read-only. -/
theorem protect_keeps_sharing_read :
    ∃ t, ProtectCall.Step (.ofVm forkedVm) ⟨0, 0x1000, 0x1000, pteU⟩ t ∧ CowSafe t.vm := by
  obtain ⟨vm, hvm⟩ := @returned_eq (protectVm forkedVm 0 0x1000 0x1000 pteU) 1 (by decide +kernel)
  have hst := protectCall_step hvm
  refine ⟨_, hst, protect_keeps_sharing _ _ _ forkedVm_guarded ((Run.nil _).snoc hst) fun p hp =>
    ?_⟩
  obtain rfl := List.mem_singleton.1 hp
  refine fun i _ _ _ _ => ⟨⟨by decide, by decide⟩, fun d hd q hq =>
    ⟨?_, fun hW => absurd hW (by decide)⟩⟩
  have hd : d = 1 ∨ d = 3 := (forkedVm_dir hd).imp And.right And.right
  obtain ⟨-, -, -, w, b, hw, -⟩ := Mm.mem_walked.1 hq
  exact (forkedVm_table hd (Mm.leaf_eq_some hw).1).2.1

/-- The page is made read-only, and then writable again. -/
def readThenWrite : Except Crash (BitVec 32 × Vm) := do
  let (_, vm) ← protectVm forkedVm 0 0x1000 0x1000 pteU
  protectVm vm 0 0x1000 0x1000 (pteU ||| pteW)

theorem readThenWrite_leaf : readThenWrite.toOption.map
    (fun r => (r.2.pgdir 0, r.2.mm.leaf 1 1, r.2.ref 5)) =
    some (some 1, some (0x5007, false), 2) := by decide +kernel

/-- **Two calls make the shared page writable.** -/
theorem protect_breaks_sharing : Guarded (.ofVm forkedVm) ∧
    ∃ tr t, Run (fun s c t => ProtectCall.Step s c t) (.ofVm forkedVm) tr t ∧ ¬ CowSafe t.vm := by
  have hleaf := readThenWrite_leaf
  cases hrun : readThenWrite with
  | error c =>
      rw [hrun] at hleaf
      exact nomatch hleaf
  | ok r =>
      rw [hrun] at hleaf
      obtain ⟨hpg, hrest⟩ := Prod.mk.inj (Option.some.inj hleaf)
      obtain ⟨hw, hr⟩ := Prod.mk.inj hrest
      obtain ⟨⟨a, vm⟩, hfirst, hsecond⟩ := bind_eq_ok.1 hrun
      refine ⟨forkedVm_guarded, _, .ofVm r.2, ((Run.nil _).snoc (protectCall_step hfirst)).snoc
        (protectCall_step hsecond), fun hsafe => ?_⟩
      have htr : r.2.mm.translate 1 1 = some (5, false) := by
        rw [Mm.translate, hw]
        rfl
      have hle := hsafe 0 1 hpg 1 (by decide) _ _ hw (by decide) (by decide) 5 false htr
      rw [show (KState.ofVm r.2).vm.ref 5 = 2 from hr] at hle
      exact absurd hle (by decide)

end Jos
