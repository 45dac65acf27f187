/-
**What a loaded area shows of old frames.**

`region_alloc` asks for frames as they are, and `memcpy` and `memset` write to the area from the
start of the file part on. The bytes before it, in the first page, are still those of the frame that
came off the free list.

Main definitions:

* `Jos.userByte` — a byte as the user sees it;
* `Jos.FreeDiffer` — two states that differ in free frames only;
* `Jos.NothingOld` — **the user sees the same bytes of the area in both**.

Main results:

* `Jos.AreaLoaded.userByte_eq` — every byte of a loaded area;
* `Jos.nothingOld_iff` — **the area shows nothing old exactly when the bytes before the file part
  agree**.
-/

import JosKernel.FaultLocal

set_option relaxedAutoImplicit false
set_option autoImplicit false

namespace Jos

open LinkedList Outcome

/-! ### What the user sees -/

/-- The byte at an address, as the user reads it. -/
def userByte (s : Vm) (e : ℕ) (a : BitVec 32) : Option (BitVec 8) :=
  match mmu s e a true false with
  | .frame f => some (s.byte f (pgoff a))
  | _ => none

/-- **Two states that differ only in the contents of the free frames `l`.** -/
structure FreeDiffer (s t : Vm) (l : List ℕ) : Prop where
  only : t = { s with mm := { s.mm with mem := t.mm.mem } }
  used : ∀ g ∉ l, t.mm.mem g = s.mm.mem g

/-- **The user sees the same bytes of the area `a`** in both states, and in the file part those of
the image. -/
def NothingOld (s s' t' : Vm) (e : ℕ) (a : Vma) : Prop :=
  (∀ i < a.len.toNat, userByte s' e (a.addr i) = userByte t' e (a.addr i)) ∧
    ∀ k < a.srcSz.toNat, ∀ b, userByte s' e (a.addr (a.cpyDst.toNat + k)) = some b →
      b = s.image (a.cpySrc + BitVec.ofNat 32 k)

/-- The user may read the page `q` of the area, when it is loaded. -/
def Vma.Shows (a : Vma) (m : Mm) (d q : ℕ) : Prop :=
  isUser a.perm = true ∧ (isPresent (m.word d (q / 1024)) = true →
    isUser (m.word d (q / 1024)) = true)

instance (a : Vma) (m : Mm) (d q : ℕ) : Decidable (a.Shows m d q) :=
  inferInstanceAs (Decidable (_ ∧ (_ → _)))

/-- The frame at the head of the free list has the same first `n` bytes in both states. -/
def HeadAgrees (s t : Vm) (n : ℕ) : Prop :=
  ∀ f, s.mm.pageFreeList = some f → ∀ o < n, s.byte f o = t.byte f o

/-- The byte `i` of the area `a`, when its first frame held the bytes of the frame `f`. -/
def loadedByte (s : Vm) (a : Vma) (f i : ℕ) : BitVec 8 :=
  if i < a.cpyDst.toNat then s.byte f i
  else if i < a.cpyDst.toNat + a.srcSz.toNat then s.image
    (a.cpySrc + BitVec.ofNat 32 (i - a.cpyDst.toNat))
  else 0

theorem loadedByte_head {s : Vm} {a : Vma} {f i : ℕ} (h : i < a.cpyDst.toNat) :
    loadedByte s a f i = s.byte f i := if_pos h

theorem loadedByte_file {s : Vm} {a : Vma} {f k : ℕ} (h : k < a.srcSz.toNat) :
    loadedByte s a f (a.cpyDst.toNat + k) = s.image (a.cpySrc + BitVec.ofNat 32 k) := by
  rw [loadedByte, if_neg (by omega), if_pos (by omega), Nat.add_sub_cancel_left]

/-! ### The bytes of an area -/

namespace AreaLoaded

variable {s s' : Vm} {e d v : ℕ} {l : List ℕ} {fr : ℕ → ℕ}

/-- The entry of the directory above a page that is loaded. -/
theorem isUser_dir {a : Vma} (h : AreaLoaded s s' d a fr) {j : ℕ} (hj : j < a.count) :
    isUser (s'.mm.word d ((vpn a.va + j) / 1024)) = true ↔
      (isPresent (s.mm.word d ((vpn a.va + j) / 1024)) = true →
        isUser (s.mm.word d ((vpn a.va + j) / 1024)) = true) := by
  rcases h.dir ((vpn a.va + j) / 1024) with hsame | ⟨habs, t, ht⟩
  · have hP := (Mm.leaf_eq_some (h.leaf_new j hj).1).1
    rw [hsame] at hP ⊢
    exact ⟨fun hu _ => hu, fun hu => hu hP⟩
  · rw [ht, habs]
    exact ⟨fun _ hc => (nomatch hc), fun _ => isUser_tablePde t⟩

/-- **A byte of a loaded area**, as the user sees it. -/
theorem userByte_eq (h : AreaLoaded s s' d (s.vma e v) fr) (hb : BinarySite s e d v l)
    (hpre : s.mm.premappedFlag = false) {i : ℕ} (hi : i < (s.vma e v).len.toNat) :
    userByte s' e ((s.vma e v).addr i) =
      if (s.vma e v).Shows s.mm d (vpn (s.vma e v).va + i / 4096) then
        some (loadedByte s (s.vma e v) (fr 0) i) else none := by
  have hbelow := hb.below
  have hpage := hb.fits.page
  have hd' : s'.pgdir e = some d := (h.pgdir e).trans hb.dir
  obtain ⟨hvpn, hoff⟩ := hb.fits.vpn_addr (a := s.vma e v) (i := i) (by omega)
  have hj : i / 4096 < (s.vma e v).count := by
    rw [Vma.count]
    omega
  obtain ⟨hleaf, hpg⟩ := h.leaf_new _ hj
  have hmmu : mmu s' e ((s.vma e v).addr i) true false =
      if (s.vma e v).Shows s.mm d (vpn (s.vma e v).va + i / 4096) then .frame (fr (i / 4096))
        else .protection := by
    rw [mmu_eq hd', hvpn, hleaf]
    dsimp only
    rw [if_neg (not_not_intro (isPresent_newPte _ _)), hpg]
    refine if_congr ?_ rfl rfl
    rw [allows, allows, isUser_newPte, Vma.Shows, ← h.isUser_dir hj]
    simp [and_comm]
  rw [userByte, hmmu]
  by_cases hshow : (s.vma e v).Shows s.mm d (vpn (s.vma e v).va + i / 4096)
  · rw [if_pos hshow, if_pos hshow]
    dsimp only
    rw [hoff]
    refine congrArg some ?_
    by_cases hlt : i < (s.vma e v).cpyDst.toNat
    · have hoffset := hb.offset
      rw [loadedByte_head hlt, Nat.div_eq_of_lt (by omega), Nat.mod_eq_of_lt (by omega)]
      exact (h.head hpre).2 i hlt
    obtain ⟨k, rfl⟩ := Nat.exists_eq_add_of_le (Nat.not_lt.1 hlt)
    by_cases hk : k < (s.vma e v).srcSz.toNat
    · rw [loadedByte_file hk]
      exact h.file k hk hi
    · rw [loadedByte, if_neg hlt, if_neg (by omega)]
      refine h.zero (fun hzero => ?_) _ hi (by omega)
      have hU := hshow.1
      rw [hzero] at hU
      exact absurd hU (by decide)
  · rw [if_neg hshow, if_neg hshow]

end AreaLoaded

/-! ### Two runs -/

namespace FreeDiffer

variable {s t : Vm} {e d v : ℕ} {l : List ℕ}

/-- The areas are the same. -/
theorem vma (h : FreeDiffer s t l) : t.vma e v = s.vma e v := by
  rw [h.only]
  rfl

/-- **The other state is in order too**: its page tables are the same. -/
theorem site (h : FreeDiffer s t l) (hb : BinarySite s e d v l) :
    BinarySite t e d v l ∧ ∀ i, t.mm.word d i = s.mm.word d i := by
  have hmem : ∀ g, s.mm.WalkFrame d g → t.mm.mem g = s.mm.mem g :=
    fun g hg => h.used g (hb.inv.busy g hg)
  obtain ⟨hinv, hwalk, hleaf⟩ := hb.inv.written h.only hmem
  have htrans : ∀ p, p / 1024 < pdx uTop → t.mm.translate d p = s.mm.translate d p :=
    fun p hp => Mm.translate_congr (hleaf p hp)
  have hvma : t.vma e v = s.vma e v := h.vma
  have hpages : t.mm.pages = s.mm.pages ∧ t.mm.npages = s.mm.npages ∧ t.pgdir e = s.pgdir e := by
    rw [h.only]
    exact ⟨rfl, rfl, rfl⟩
  refine ⟨⟨hpages.2.2.trans hb.dir, hinv,
    hvma ▸ hb.fits, by rw [hvma]; exact hb.below, by rw [hvma]; exact hb.perm,
    by
      rw [hvma]
      exact hb.offset, hb.pages.congr hwalk htrans, fun q f b hq ht => hb.used q f b hq ?_,
        fun q hq w => ?_,
    fun q hq g hg => ?_⟩, Mm.word_of_mem (hmem d (Or.inl rfl))⟩
  · rw [← htrans q hq]
    exact ht
  · rw [hvma] at hq
    rw [hleaf q (hb.low hq).1]
    exact hb.small q hq w
  · rw [hvma] at hq
    rw [Mm.mapsTo_congr (hleaf q (hb.low hq).1)] at hg
    exact (hb.held q hq g hg).congr hpages.2.1 (by rw [hpages.1])

end FreeDiffer

/-- **A loaded area shows nothing of what its frames held before** exactly when the user may not
read its first page or the bytes before the file part agree. -/
theorem nothingOld_iff (s t s' t' : Vm) (e d v : ℕ) (va : BitVec 32) (l : List ℕ)
    (h : BinarySite s e d v l) (hpre : s.mm.premappedFlag = false)
    (harea : vmaLookup (s.envs e) va = .ok (some v)) (htype : (s.vma e v).type = .binary)
    (hin : (s.vma e v).cpyDst.toNat + (s.vma e v).srcSz.toNat ≤ (s.vma e v).len.toNat)
    (hdiff : FreeDiffer s t l) (hs : allocPageAfterFault s e va = .ok (.resumed, s'))
    (ht : allocPageAfterFault t e va = .ok (.resumed, t')) :
    NothingOld s s' t' e (s.vma e v) ↔
      ((s.vma e v).Shows s.mm d (vpn (s.vma e v).va) →
        HeadAgrees s t (s.vma e v).cpyDst.toNat) := by
  obtain ⟨hb, hword⟩ := hdiff.site h
  have hvma : t.vma e v = s.vma e v := hdiff.vma
  have hareat : vmaLookup (t.envs e) va = .ok (some v) := by
    rw [hdiff.only]
    exact harea
  rw [allocPageAfterFault_eq harea, if_pos htype] at hs
  rw [allocPageAfterFault_eq hareat, hvma, if_pos htype] at ht
  obtain ⟨s₁, hloads, hends⟩ := bind_eq_ok.1 hs
  obtain rfl : s₁ = s' := congrArg Prod.snd (Except.ok.inj hends)
  obtain ⟨t₁, hloadt, hendt⟩ := bind_eq_ok.1 ht
  obtain rfl : t₁ = t' := congrArg Prod.snd (Except.ok.inj hendt)
  obtain ⟨fs, hls⟩ := h.loaded_ok hloads
  obtain ⟨ft, hlt⟩ := hb.loaded_ok hloadt
  have hpret : t.mm.premappedFlag = false := by
    rw [hdiff.only]
    exact hpre
  -- both take the same frame for the first page
  have hhead : s.mm.pageFreeList = some (fs 0) := (hls.head hpre).1
  have hfirst : ft 0 = fs 0 := by
    have hlist : t.mm.pageFreeList = s.mm.pageFreeList := by
      rw [hdiff.only]
    have hheadt := (hlt.head hpret).1
    rw [hlist, hhead] at hheadt
    exact (Option.some.inj hheadt).symm
  have hshows : ∀ q, (s.vma e v).Shows t.mm d q ↔ (s.vma e v).Shows s.mm d q := by
    intro q
    rw [Vma.Shows, Vma.Shows, hword]
  have hbytes : ∀ i < (s.vma e v).len.toNat, userByte s₁ e ((s.vma e v).addr i) =
      if (s.vma e v).Shows s.mm d (vpn (s.vma e v).va + i / 4096) then
        some (loadedByte s (s.vma e v) (fs 0) i) else none :=
    fun i hi => hls.userByte_eq h hpre hi
  have hbytet : ∀ i < (s.vma e v).len.toNat, userByte t₁ e ((s.vma e v).addr i) =
      if (s.vma e v).Shows s.mm d (vpn (s.vma e v).va + i / 4096) then
        some (loadedByte t (s.vma e v) (fs 0) i) else none := by
    intro i hi
    have hbyte := hlt.userByte_eq hb hpret (i := i) (by rw [hvma]; exact hi)
    rw [hvma, hfirst] at hbyte
    rw [hbyte]
    exact if_congr (hshows _) rfl rfl
  have hpage := h.fits.page
  have hpos := h.fits.pos
  have hoffset := h.offset
  constructor
  · rintro ⟨hsame, -⟩ hshow f hf o ho
    obtain rfl : f = fs 0 := Option.some.inj (hf.symm.trans hhead)
    have hbyte := hsame o (by omega)
    have hshow₀ : (s.vma e v).Shows s.mm d (vpn (s.vma e v).va + o / 4096) := by
      rw [Nat.div_eq_of_lt (by omega)]
      exact hshow
    rw [hbytes o (by omega), hbytet o (by omega), if_pos hshow₀, if_pos hshow₀, loadedByte_head ho,
      loadedByte_head ho] at hbyte
    exact Option.some.inj hbyte
  · intro hagree
    refine ⟨fun i hi => ?_, fun k hk b hbyte => ?_⟩
    · rw [hbytes i hi, hbytet i hi]
      by_cases hshow : (s.vma e v).Shows s.mm d (vpn (s.vma e v).va + i / 4096)
      · rw [if_pos hshow, if_pos hshow]
        refine congrArg some ?_
        by_cases hlt : i < (s.vma e v).cpyDst.toNat
        · rw [loadedByte_head hlt, loadedByte_head hlt]
          rw [Nat.div_eq_of_lt (by omega)] at hshow
          exact hagree hshow _ hhead i hlt
        · have himage : t.image = s.image := by
            rw [hdiff.only]
          rw [loadedByte, loadedByte, if_neg hlt, if_neg hlt, himage]
      · rw [if_neg hshow, if_neg hshow]
    · rw [hbytes _ (by omega)] at hbyte
      split at hbyte
      · rw [loadedByte_file hk] at hbyte
        exact (Option.some.inj hbyte).symm
      · exact nomatch hbyte

/-! ### A file part that begins inside the page -/

/-- An area of one page, whose file part begins at its first byte or at the byte 256. -/
def innerArea (inner : Bool) : Vma :=
  ⟨.binary, 0x400000, 0x1000, pteU ||| pteW, none, 0, 4, if inner then 0x100 else 0, false⟩

/-- A machine with that area and three free frames. -/
def innerVm (inner : Bool) : Vm := smallVm (innerArea inner) 0x6007 0 0 0 8 3

/-- The same machine, where the first free frame has been in use before. -/
def usedVm (inner : Bool) : Vm :=
  { innerVm inner with
    mm := { (innerVm inner).mm with mem := Function.update (innerVm inner).mm.mem 8 fun _ => 1 } }

section

variable {n : Bool}

theorem innerVm_differ : FreeDiffer (innerVm n) (usedVm n) (List.range' 8 3) where
  only := rfl
  used g hg := by
    refine Function.update_of_ne ?_ ..
    rintro rfl
    exact hg (by decide)

theorem innerVm_translate (q : ℕ) : (innerVm n).mm.translate 5 q = none := by
  cases h : (innerVm n).mm.translate 5 q with
  | none => rfl
  | some r =>
      obtain ⟨f, c⟩ := r
      obtain ⟨rfl, -, -⟩ := smallVm_translate (Or.inr rfl) (by decide) h
      have hpde : (innerVm n).mm.word 5 (1025 / 1024) = 0x6007 := smallVm_word 5 1
      have hpg : pgnum 0x6007 = 6 := by decide
      have hpte : (innerVm n).mm.word 6 (1025 % 1024) = 0 := smallVm_word 6 1
      rw [Mm.translate, Mm.leaf, hpde, if_pos (by decide), if_neg (by decide), hpg, hpte] at h
      cases h

theorem innerVm_fault : FaultSite (innerVm n) 0 5 0 0x400000 smallLive (List.range' 8 3) :=
  smallVm_fault (by decide) (Or.inl (by decide))
    (fun _ _ => by decide) (by decide) (by cases n <;> decide)

theorem innerVm_site : BinarySite (innerVm n) 0 5 0 (List.range' 8 3) where
  dir := rfl
  inv := innerVm_fault.dirInv
  fits := ⟨⟨by cases n <;> decide, by cases n <;> decide⟩, by cases n <;> decide,
    by cases n <;> decide⟩
  below := by cases n <;> decide
  perm := ⟨by cases n <;> decide, by cases n <;> decide⟩
  offset := by cases n <;> decide
  pages := by
    refine ⟨fun q f b _ h => ?_, fun q _ f b _ _ _ h _ => ?_, innerVm_translate _⟩
    · rw [innerVm_translate] at h
      exact nomatch h
    · rw [innerVm_translate] at h
      exact nomatch h
  used q f b _ h := by
    rw [innerVm_translate] at h
    exact nomatch h
  small q _ w h := by
    obtain ⟨hP, hH, -⟩ := Mm.leaf_eq_some h
    obtain ⟨hq, -⟩ := smallVm_dir hP
    rw [hq, innerVm, smallVm_word] at hH
    exact absurd hH (by decide)
  held q _ g h := by
    rw [Mm.mapsTo_iff, innerVm_translate] at h
    exact nomatch h

/-- Both machines load the area. -/
theorem innerVm_loads :
    (∃ s', loadBinary (innerVm n) 0 0 = .ok s') ∧ ∃ t', loadBinary (usedVm n) 0 0 = .ok t' := by
  obtain ⟨hused, hword⟩ := (innerVm_differ (n := n)).site innerVm_site
  have hdir : ∀ i, isPresent ((innerVm n).mm.word 5 i) = true →
      isWritable ((innerVm n).mm.word 5 i) = true := by
    intro i hP
    obtain ⟨rfl, -⟩ := smallVm_dir hP
    exact (congrArg isWritable (smallVm_word 5 1)).trans (by decide)
  have hs : ∃ s₁, regionAlloc (innerVm n) 0 0x400000 0x1000 (pteU ||| pteW ||| pteW) = .ok s₁ := by
    cases n <;> exact ⟨_, rfl⟩
  have ht : ∃ s₁, regionAlloc (usedVm n) 0 0x400000 0x1000 (pteU ||| pteW ||| pteW) = .ok s₁ := by
    cases n <;> exact ⟨_, rfl⟩
  refine ⟨innerVm_site.runs hs (by cases n <;> decide) (by cases n <;> decide) fun q _ => hdir _,
    hused.runs ht (by cases n <;> decide) (by cases n <;> decide) fun q _ => ?_⟩
  rw [hword]
  exact hdir _

/-- The handler after a loading. -/
theorem fault_of_load {s s' : Vm} (harea : vmaLookup (s.envs 0) 0x400000 = .ok (some 0))
    (htype : (s.vma 0 0).type = .binary) (hload : loadBinary s 0 0 = .ok s') :
    allocPageAfterFault s 0 0x400000 = .ok (.resumed, s') := by
  rw [allocPageAfterFault_eq harea, if_pos htype, hload]
  rfl

end

theorem nothingOld_iff_zero :
    ∃ s' t', allocPageAfterFault (innerVm false) 0 0x400000 = .ok (.resumed, s') ∧
    allocPageAfterFault (usedVm false) 0 0x400000 = .ok (.resumed, t') ∧ NothingOld (innerVm false)
      s' t' 0 (innerArea false) := by
  obtain ⟨⟨s', hs⟩, t', ht⟩ := innerVm_loads (n := false)
  have hruns := fault_of_load innerVm_fault.area rfl hs
  have hrunt := fault_of_load (s := usedVm false) innerVm_fault.area rfl ht
  refine ⟨s', t', hruns, hrunt,
    (nothingOld_iff _ _ s' t' 0 5 0 0x400000 _ innerVm_site rfl innerVm_fault.area rfl
    (by decide) innerVm_differ hruns hrunt).2 fun _ f _ o ho => ?_⟩
  exact absurd ho (Nat.not_lt_zero o)

/-- **A file part at the byte 256**: the first byte of the area is the one that the frame held
before. -/
theorem load_reveals_old_bytes :
    ¬ ∀ (s t s' t' : Vm) (e d v : ℕ) (va : BitVec 32) (l : List ℕ), BinarySite s e d v l →
      s.mm.premappedFlag = false →
      vmaLookup (s.envs e) va = .ok (some v) → (s.vma e v).type = .binary →
      (s.vma e v).cpyDst.toNat + (s.vma e v).srcSz.toNat ≤ (s.vma e v).len.toNat →
      FreeDiffer s t l →
      allocPageAfterFault s e va = .ok (.resumed, s') →
      allocPageAfterFault t e va = .ok (.resumed, t') →
        NothingOld s s' t' e (s.vma e v) := by
  intro hall
  have hsite := innerVm_site (n := true)
  obtain ⟨hused, hword⟩ := innerVm_differ.site hsite
  obtain ⟨⟨s', hs⟩, t', ht⟩ := innerVm_loads (n := true)
  have hruns := fault_of_load innerVm_fault.area rfl hs
  have hrunt := fault_of_load (s := usedVm true) innerVm_fault.area rfl ht
  obtain ⟨hsame, -⟩ := hall _ _ s' t' 0 5 0 0x400000 _ hsite rfl innerVm_fault.area rfl (by decide)
    innerVm_differ hruns hrunt
  obtain ⟨fs, hls⟩ := hsite.loaded_ok hs
  obtain ⟨ft, hlt⟩ := hused.loaded_ok ht
  have hbyte := hsame 0 hsite.fits.pos
  have hfs : fs 0 = 8 := (Option.some.inj (hls.head rfl).1).symm
  have hft : ft 0 = 8 := (Option.some.inj (hlt.head rfl).1).symm
  have hshows : ∀ m : Mm, m.word 5 1 = 0x6007 → (innerArea true).Shows m 5
      (vpn (innerArea true).va + 0 / 4096) := by
    intro m hm
    refine ⟨by decide, fun _ => ?_⟩
    rw [show (vpn (innerArea true).va + 0 / 4096) / 1024 = 1 by decide, hm]
    decide
  have hs₀ : userByte s' 0 ((innerArea true).addr 0) = some 0 := by
    refine (hls.userByte_eq hsite rfl (i := 0) hsite.fits.pos).trans
      ((if_pos (hshows _ (smallVm_word 5 1))).trans ?_)
    rw [hfs]
    decide
  have ht₀ : userByte t' 0 ((innerArea true).addr 0) = some 1 := by
    refine (hlt.userByte_eq hused rfl (i := 0) hused.fits.pos).trans
      ((if_pos (hshows _ ?_)).trans ?_)
    · exact (hword 1).trans (smallVm_word 5 1)
    · rw [hft]
      decide
  change userByte s' 0 ((innerArea true).addr 0) = userByte t' 0 ((innerArea true).addr 0) at hbyte
  rw [hs₀, ht₀] at hbyte
  exact absurd hbyte (by decide)

end Jos
