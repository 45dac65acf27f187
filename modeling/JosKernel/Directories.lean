/-
**Directories and page tables come and go.**

A new environment gets a directory with the kernel's entries, and an environment that is freed gives
back its page tables, when they are empty, and then its directory. The set `D` of directories grows
and shrinks with them.

Main results:

* `Jos.PtInv.newDir` — a directory with no page tables is added;
* `Jos.PtInv.dropTable` — an empty page table is given back;
* `Jos.PtInv.dropDir` — a directory with no page tables is given back.
-/

import JosKernel.Spaces

set_option relaxedAutoImplicit false
set_option autoImplicit false

namespace Jos

open LinkedList Outcome

namespace PtInv

variable {m m' : Mm} {D K : Finset ℕ} {l l' : List ℕ}

/-! ### A new directory -/

section NewDir

variable {p : ℕ} (h : PtInv m D K l) (hheld : m.Held p) (hplain : m.Plain D K p)
  (hno : m.mappings D p = 0) (hword : ∀ g ≠ p, ∀ k, m'.word g k = m.word g k)
  (hlow : ∀ i < pdx uTop, isPresent (m'.word p i) = false)

include hplain hword hlow

theorem table_newDir {d i t : ℕ} : m'.Table (insert p D) d i t ↔ m.Table D d i t := by
  rw [Mm.Table, Mm.Table, Finset.mem_insert]
  constructor
  · rintro ⟨hd, hi, hmap⟩
    have hne : d ≠ p := by
      rintro rfl
      have hP := hmap.1
      rw [hlow i hi] at hP
      exact absurd hP (by simp)
    rw [hword d hne] at hmap
    exact ⟨hd.resolve_left hne, hi, hmap⟩
  · rintro ⟨hd, hi, hmap⟩
    have hne : d ≠ p := by
      rintro rfl
      exact hplain.1 hd
    rw [hword d hne]
    exact ⟨Or.inr hd, hi, hmap⟩

theorem plain_newDir {f : ℕ} : m'.Plain (insert p D) K f ↔ m.Plain D K f ∧ f ≠ p := by
  simp only [Mm.Plain, table_newDir hplain hword hlow, Finset.mem_insert, not_or]
  tauto

/-- The entries below `UTOP` of the other directories stay, and the new one has none. -/
theorem entry_newDir {d q : ℕ} (hq : q / 1024 < pdx uTop) :
    (d ∈ D → m'.entry d q = m.entry d q) ∧ m'.entry p q = 0 := by
  constructor
  · intro hd
    have hne : d ≠ p := by
      rintro rfl
      exact hplain.1 hd
    rw [Mm.entry, Mm.entry, hword d hne]
    by_cases hP : isPresent (m.word d (q / 1024)) = true
    · have ht : m.Table D d (q / 1024) (pgnum (m.word d (q / 1024))) := ⟨hd, hq, hP, rfl⟩
      have hne' : pgnum (m.word d (q / 1024)) ≠ p := by
        intro heq
        rw [heq] at ht
        exact hplain.2.2 _ _ ht
      rw [if_pos hP, if_pos hP, hword _ hne']
    · rw [if_neg hP, if_neg hP]
  · exact Mm.entry_of_absent (hlow _ hq)

theorem mappings_newDir (f : ℕ) : m'.mappings (insert p D) f = m.mappings D f := by
  refine congrArg Finset.card (Finset.ext fun x => ?_)
  obtain ⟨d, q⟩ := x
  simp only [Finset.mem_filter, mem_userPages, Finset.mem_insert]
  constructor
  · rintro ⟨⟨hd, hq⟩, hmap⟩
    obtain ⟨hkeep, hnew⟩ := entry_newDir hplain hword hlow (d := d) hq
    rcases hd with rfl | hd
    · rw [hnew] at hmap
      exact absurd hmap (not_maps_zero f)
    · rw [hkeep hd] at hmap
      exact ⟨⟨hd, hq⟩, hmap⟩
  · rintro ⟨⟨hd, hq⟩, hmap⟩
    rw [(entry_newDir hplain hword hlow hq).1 hd]
    exact ⟨⟨Or.inr hd, hq⟩, hmap⟩

include h hheld hno

/-- **A directory is added** that has no page tables below `UTOP`. -/
theorem newDir (hnp : m'.npages = m.npages) (hfree : FreeInv m' l)
    (hflags : ∀ g, (m'.pages g).pageFlags = (m.pages g).pageFlags)
    (href : ∀ g ≠ p, (m'.pages g).ppRef = (m.pages g).ppRef)
    (hup : ∀ i < 1024, pdx uTop ≤ i → isPresent (m'.word p i) = true →
      isHuge (m'.word p i) = true ∨ pgnum (m'.word p i) ∈ K ∨ pgnum (m'.word p i) = p) :
    PtInv m' (insert p D) K l := by
  have htab : ∀ {d i t}, m'.Table (insert p D) d i t ↔ m.Table D d i t :=
    table_newDir hplain hword hlow
  have hpl : ∀ {f}, m'.Plain (insert p D) K f ↔ m.Plain D K f ∧ f ≠ p :=
    plain_newDir hplain hword hlow
  have hH : ∀ g, m.Held g → m'.Held g := fun g hg => hg.congr hnp (hflags g)
  have htp : ∀ d i t, m.Table D d i t → t ≠ p := by
    rintro d i t ht rfl
    exact hplain.2.2 d i ht
  have hdp : ∀ d ∈ D, d ≠ p := by
    rintro d hd rfl
    exact hplain.1 hd
  refine ⟨hfree, ?_, h.kept, ?_, ?_, ?_, ?_, ?_, ?_, ?_⟩
  · intro f hf
    rcases Finset.mem_insert.1 hf with rfl | hf
    · exact hH f hheld
    · exact hH f (h.held f hf)
  · intro f hf hmem
    rcases Finset.mem_insert.1 hmem with rfl | hmem
    · exact hplain.2.1 hf
    · exact h.away f hf hmem
  · intro d hd i hi hP
    rcases Finset.mem_insert.1 hd with rfl | hd
    · rw [hlow i hi] at hP
      exact absurd hP (by simp)
    · rw [hword d (hdp d hd)] at hP ⊢
      exact h.small d hd i hi hP
  · intro d i t ht
    have ht := htab.1 ht
    obtain ⟨hh, hD, hK, hone⟩ := h.table d i t ht
    refine ⟨hH t hh, ?_, hK, (href t (htp d i t ht)).trans hone⟩
    rw [Finset.mem_insert, not_or]
    exact ⟨htp d i t ht, hD⟩
  · intro d i d' i' t ht ht'
    exact h.apart d i d' i' t (htab.1 ht) (htab.1 ht')
  · intro d i t ht j hj
    have ht := htab.1 ht
    rw [hword t (htp d i t ht)]
    rcases h.pte d i t ht j hj with hz | ⟨hP, hh, hp⟩
    · exact Or.inl hz
    · refine Or.inr ⟨hP, hH _ hh, hpl.2 ⟨hp, fun heq => ?_⟩⟩
      have hmap : Maps (m.entry d (i * 1024 + j)) p := by
        rw [h.entry_table ht hj]
        exact ⟨hP, heq⟩
      have := mappings_pos ht.1 (ht.low hj) hmap
      omega
  · intro d hd i hi hge hP
    rcases Finset.mem_insert.1 hd with rfl | hd
    · exact hup i hi hge hP
    · rw [hword d (hdp d hd)] at hP ⊢
      exact h.upper d hd i hi hge hP
  · intro f hf hp
    obtain ⟨hp, hne⟩ := hpl.1 hp
    rw [href f hne, mappings_newDir hplain hword hlow]
    rw [hnp] at hf
    exact h.ref f hf hp

end NewDir

/-! ### An empty page table is given back -/

section DropTable

variable {d i t : ℕ} (h : PtInv m D K l) (ht : m.Table D d i t)
    (hempty : ∀ j < 1024, m.word t j = 0)
  (hword : ∀ g ≠ t, ∀ k, m'.word g k = if g = d ∧ k = i then 0 else m.word g k)

include h ht hword

theorem table_dropTable {d' i' t' : ℕ} :
    m'.Table D d' i' t' ↔ m.Table D d' i' t' ∧ ¬ (d' = d ∧ i' = i) := by
  rw [Mm.Table, Mm.Table]
  by_cases hd' : d' ∈ D
  · have hne : d' ≠ t := by
      rintro rfl
      exact (h.table d i d' ht).2.1 hd'
    rw [hword d' hne]
    by_cases heq : d' = d ∧ i' = i
    · rw [if_pos heq]
      constructor
      · rintro ⟨-, -, hmap⟩
        exact absurd hmap (not_maps_zero t')
      · rintro ⟨-, hn⟩
        exact absurd heq hn
    · rw [if_neg heq]
      exact ⟨fun ht' => ⟨ht', heq⟩, fun ht' => ht'.1⟩
  · exact ⟨fun ht' => absurd ht'.1 hd', fun ht' => absurd ht'.1.1 hd'⟩

theorem plain_dropTable {f : ℕ} : m'.Plain D K f ↔ m.Plain D K f ∨ f = t := by
  obtain ⟨-, htD, htK, -⟩ := h.table d i t ht
  have htab : ∀ {d' i' t'}, m'.Table D d' i' t' ↔ m.Table D d' i' t' ∧ ¬ (d' = d ∧ i' = i) :=
    h.table_dropTable ht hword
  constructor
  · rintro ⟨hD, hK, hT⟩
    by_cases hft : f = t
    · exact Or.inr hft
    · refine Or.inl ⟨hD, hK, fun d' i' ht' => hT d' i' (htab.2 ⟨ht', ?_⟩)⟩
      rintro ⟨rfl, rfl⟩
      exact hft (ht'.2.2.2.symm.trans ht.2.2.2)
  · rintro (⟨hD, hK, hT⟩ | rfl)
    · exact ⟨hD, hK, fun d' i' ht' => hT d' i' (htab.1 ht').1⟩
    · refine ⟨htD, htK, fun d' i' ht' => ?_⟩
      obtain ⟨ht', hne⟩ := htab.1 ht'
      exact hne (h.apart _ _ _ _ _ ht' ht)

include hempty

/-- The entries below `UTOP` do not change. -/
theorem entry_dropTable {d' q : ℕ} (hd' : d' ∈ D) (hq : q / 1024 < pdx uTop) :
    m'.entry d' q = m.entry d' q := by
  have hne : d' ≠ t := by
    rintro rfl
    exact (h.table d i d' ht).2.1 hd'
  rcases h.entry_cases hd' hq with ⟨habs, hz⟩ | ⟨t', ht', hw⟩
  · rw [hz]
    refine Mm.entry_of_absent ?_
    rw [hword d' hne]
    split
    · rfl
    · exact habs
  · by_cases heq : d' = d ∧ q / 1024 = i
    · obtain ⟨rfl, rfl⟩ := heq
      obtain rfl : t' = t := ht'.2.2.2.symm.trans ht.2.2.2
      rw [hw, hempty _ (Nat.mod_lt _ (by decide))]
      refine Mm.entry_of_absent ?_
      rw [hword d' hne, if_pos ⟨rfl, rfl⟩]
      rfl
    · have hne' : t' ≠ t := by
        rintro rfl
        exact heq (h.apart _ _ _ _ _ ht' ht)
      have hne'' : t' ≠ d := by
        rintro rfl
        exact (h.table _ _ _ ht').2.1 ht.1
      have hpde : m'.word d' (q / 1024) = m.word d' (q / 1024) := by rw [hword d' hne, if_neg heq]
      rw [hw, Mm.entry, hpde, ht'.2.2.1, if_pos rfl, h.small d' hd' _ hq ht'.2.2.1, ht'.2.2.2,
        if_neg (by simp), hword t' hne', if_neg fun hc => hne'' hc.1]

/-- **An empty page table leaves its directory and goes back to the free list.** -/
theorem dropTable (hnp : m'.npages = m.npages) (hfree : FreeInv m' (t :: l))
    (hflags : ∀ g ≠ t, (m'.pages g).pageFlags = (m.pages g).pageFlags)
    (href : ∀ g ≠ t, (m'.pages g).ppRef = (m.pages g).ppRef) (hclear : (m'.pages t).ppRef = 0) :
    PtInv m' D K (t :: l) := by
  obtain ⟨-, htD, htK, -⟩ := h.table d i t ht
  have htab : ∀ {d' i' t'}, m'.Table D d' i' t' ↔ m.Table D d' i' t' ∧ ¬ (d' = d ∧ i' = i) :=
    h.table_dropTable ht hword
  have hpl : ∀ {f}, m'.Plain D K f ↔ m.Plain D K f ∨ f = t := h.plain_dropTable ht hword
  have hdt : ∀ d' ∈ D, d' ≠ t := by
    rintro d' hd' rfl
    exact htD hd'
  have hnot : ∀ d' i' t', m'.Table D d' i' t' → t' ≠ t := by
    rintro d' i' t' ht' rfl
    obtain ⟨ht', hne⟩ := htab.1 ht'
    exact hne (h.apart _ _ _ _ _ ht' ht)
  refine ⟨hfree, ?_, ?_, h.away, ?_, ?_, ?_, ?_, ?_, ?_⟩
  · intro f hf
    exact (h.held f hf).congr hnp (hflags f (hdt f hf))
  · intro f hf hmem
    rcases List.mem_cons.1 hmem with rfl | hmem
    · exact htK hf
    · exact h.kept f hf hmem
  · intro d' hd' i' hi' hP
    rw [hword d' (hdt d' hd')] at hP ⊢
    split at hP
    · exact absurd hP (by decide)
    · rename_i hne
      rw [if_neg hne]
      exact h.small d' hd' i' hi' hP
  · intro d' i' t' ht'
    have hne := hnot d' i' t' ht'
    obtain ⟨hh, hD, hK, hone⟩ := h.table d' i' t' (htab.1 ht').1
    exact ⟨hh.congr hnp (hflags t' hne), hD, hK, (href t' hne).trans hone⟩
  · intro d₁ i₁ d₂ i₂ t' h₁ h₂
    exact h.apart _ _ _ _ _ (htab.1 h₁).1 (htab.1 h₂).1
  · intro d' i' t' ht' j hj
    have hne := hnot d' i' t' ht'
    have ht'' := (htab.1 ht').1
    have htd : t' ≠ d := by
      rintro rfl
      exact (h.table _ _ _ ht'').2.1 ht.1
    rw [hword t' hne, if_neg fun hc => htd hc.1]
    rcases h.pte d' i' t' ht'' j hj with hz | ⟨hP, hh, hp⟩
    · exact Or.inl hz
    · refine Or.inr ⟨hP, hh.congr hnp (hflags _ ?_), hpl.2 (Or.inl hp)⟩
      intro heq
      rw [heq] at hp
      exact hp.2.2 d i ht
  · intro d' hd' i' hi' hge hP
    rw [hword d' (hdt d' hd')] at hP ⊢
    split at hP
    · exact absurd hP (by decide)
    · rename_i hne
      rw [if_neg hne]
      exact h.upper d' hd' i' hi' hge hP
  · intro f hf hp
    rw [mappings_congr fun d' hd' q hq => h.entry_dropTable ht hempty hword hd' hq]
    rcases hpl.1 hp with hp' | rfl
    · have hne : f ≠ t := by
        rintro rfl
        exact hp'.2.2 d i ht
      rw [href f hne]
      rw [hnp] at hf
      exact h.ref f hf hp'
    · have hnone : m.mappings D f = 0 := by
        by_contra hpos
        exact (h.held_of_mapped (Nat.pos_of_ne_zero hpos)).2.2.2 d i ht
      rw [hnone, hclear]
      rfl

end DropTable

/-! ### A directory is given back -/

section DropDir

variable {d : ℕ} (h : PtInv m D K l) (hd : d ∈ D)
    (hlow : ∀ i < pdx uTop, isPresent (m.word d i) = false)
  (hword : ∀ g ≠ d, ∀ k, m'.word g k = m.word g k)

include h hd hword

/-- The entries below `UTOP` of the directories that are left do not change. -/
theorem entry_dropDir {d' q : ℕ} (hd' : d' ∈ D.erase d) (hq : q / 1024 < pdx uTop) :
    m'.entry d' q = m.entry d' q := by
  obtain ⟨hne, hd'⟩ := Finset.mem_erase.1 hd'
  rw [Mm.entry, Mm.entry, hword d' hne]
  by_cases hP : isPresent (m.word d' (q / 1024)) = true
  · have ht : m.Table D d' (q / 1024) (pgnum (m.word d' (q / 1024))) := ⟨hd', hq, hP, rfl⟩
    have htd : pgnum (m.word d' (q / 1024)) ≠ d := by
      intro heq
      exact (h.table _ _ _ ht).2.1 (heq.symm ▸ hd)
    rw [if_pos hP, if_pos hP, hword _ htd]
  · rw [if_neg hP, if_neg hP]

include hlow

omit h hd in
theorem table_dropDir {d' i t : ℕ} : m'.Table (D.erase d) d' i t ↔ m.Table D d' i t := by
  rw [Mm.Table, Mm.Table, Finset.mem_erase]
  constructor
  · rintro ⟨⟨hne, hd'⟩, hi, hmap⟩
    rw [hword d' hne] at hmap
    exact ⟨hd', hi, hmap⟩
  · rintro ⟨hd', hi, hmap⟩
    have hne : d' ≠ d := by
      rintro rfl
      have hP := hmap.1
      rw [hlow i hi] at hP
      exact absurd hP (by simp)
    rw [hword d' hne]
    exact ⟨⟨hne, hd'⟩, hi, hmap⟩

theorem plain_dropDir {f : ℕ} : m'.Plain (D.erase d) K f ↔ m.Plain D K f ∨ f = d := by
  have htab : ∀ {d' i t}, m'.Table (D.erase d) d' i t ↔ m.Table D d' i t := table_dropDir hlow hword
  simp only [Mm.Plain, htab, Finset.mem_erase, not_and]
  constructor
  · rintro ⟨hD, hK, hT⟩
    by_cases hfd : f = d
    · exact Or.inr hfd
    · exact Or.inl ⟨hD hfd, hK, hT⟩
  · rintro (⟨hD, hK, hT⟩ | rfl)
    · exact ⟨fun _ => hD, hK, hT⟩
    · exact ⟨fun hn => absurd rfl hn, fun hK => h.away f hK hd, fun d' i ht =>
        (h.table d' i f ht).2.1 hd⟩

theorem mappings_dropDir (f : ℕ) : m'.mappings (D.erase d) f = m.mappings D f := by
  refine congrArg Finset.card (Finset.ext fun x => ?_)
  obtain ⟨d', q⟩ := x
  simp only [Finset.mem_filter, mem_userPages]
  constructor
  · rintro ⟨⟨hd', hq⟩, hmap⟩
    rw [h.entry_dropDir hd hword hd' hq] at hmap
    exact ⟨⟨Finset.mem_of_mem_erase hd', hq⟩, hmap⟩
  · rintro ⟨⟨hd', hq⟩, hmap⟩
    have hne : d' ≠ d := by
      rintro rfl
      rw [Mm.entry_of_absent (hlow _ hq)] at hmap
      exact not_maps_zero f hmap
    have hmem : d' ∈ D.erase d := Finset.mem_erase.2 ⟨hne, hd'⟩
    rw [h.entry_dropDir hd hword hmem hq]
    exact ⟨⟨hmem, hq⟩, hmap⟩

/-- **A directory with no page tables below `UTOP` goes back to the free list.** -/
theorem dropDir (hnp : m'.npages = m.npages) (hfree : FreeInv m' (d :: l))
    (hflags : ∀ g ≠ d, (m'.pages g).pageFlags = (m.pages g).pageFlags)
    (href : ∀ g ≠ d, (m'.pages g).ppRef = (m.pages g).ppRef) (hclear : (m'.pages d).ppRef = 0) :
    PtInv m' (D.erase d) K (d :: l) := by
  have htab : ∀ {d' i t}, m'.Table (D.erase d) d' i t ↔ m.Table D d' i t := table_dropDir hlow hword
  have hpl : ∀ {f}, m'.Plain (D.erase d) K f ↔ m.Plain D K f ∨ f = d :=
    h.plain_dropDir hd hlow hword
  have htd : ∀ d' i t, m.Table D d' i t → t ≠ d := by
    rintro d' i t ht rfl
    exact (h.table d' i t ht).2.1 hd
  refine ⟨hfree, ?_, ?_, ?_, ?_, ?_, ?_, ?_, ?_, ?_⟩
  · intro f hf
    obtain ⟨hne, hf⟩ := Finset.mem_erase.1 hf
    exact (h.held f hf).congr hnp (hflags f hne)
  · intro f hf hmem
    rcases List.mem_cons.1 hmem with rfl | hmem
    · exact h.away f hf hd
    · exact h.kept f hf hmem
  · exact fun f hf hmem => h.away f hf (Finset.mem_of_mem_erase hmem)
  · intro d' hd' i hi
    obtain ⟨hne, hd'⟩ := Finset.mem_erase.1 hd'
    rw [hword d' hne]
    exact h.small d' hd' i hi
  · intro d' i t ht
    have ht := htab.1 ht
    obtain ⟨hh, hD, hK, hone⟩ := h.table d' i t ht
    have hne := htd d' i t ht
    exact ⟨hh.congr hnp (hflags t hne), fun hmem => hD (Finset.mem_of_mem_erase hmem), hK,
      (href t hne).trans hone⟩
  · intro d₁ i₁ d₂ i₂ t h₁ h₂
    exact h.apart _ _ _ _ _ (htab.1 h₁) (htab.1 h₂)
  · intro d' i t ht j hj
    have ht := htab.1 ht
    rw [hword t (htd d' i t ht)]
    rcases h.pte d' i t ht j hj with hz | ⟨hP, hh, hp⟩
    · exact Or.inl hz
    · refine Or.inr ⟨hP, hh.congr hnp (hflags _ ?_), hpl.2 (Or.inl hp)⟩
      intro heq
      exact hp.1 (heq.symm ▸ hd)
  · intro d' hd' i hi hge
    obtain ⟨hne, hd'⟩ := Finset.mem_erase.1 hd'
    rw [hword d' hne]
    exact h.upper d' hd' i hi hge
  · intro f hf hp
    rw [h.mappings_dropDir hd hlow hword]
    rcases hpl.1 hp with hp' | rfl
    · have hne : f ≠ d := by
        rintro rfl
        exact hp'.1 hd
      rw [href f hne]
      rw [hnp] at hf
      exact h.ref f hf hp'
    · have hnone : m.mappings D f = 0 := by
        by_contra hpos
        exact (h.held_of_mapped (Nat.pos_of_ne_zero hpos)).2.1 hd
      rw [hnone, hclear]
      rfl

end DropDir

end PtInv

end Jos
