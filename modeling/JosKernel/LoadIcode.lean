/-
**Loading a program.**

`load_icode` in `kern/env.c` makes the memory of a program from its ELF image: one area of the image
for every segment that is to be loaded, the page of the stack and the two pages at `UTEMP`. Nothing
is copied: the first access to an area loads it.

The length of an area is the size of the segment plus the offset of the segment in its first page,
but the offset comes from the difference of two pointers to words, so that it counts words and not
bytes. The last page of a segment can be missing.

Main definitions:

* `Jos.Elf`, `Jos.ElfProghdr` — the headers, read from the image;
* `Jos.loadSegment`, `Jos.loadSegments`, `Jos.loadIcode` — the loader;
* `Jos.loadHeaders` — the segments that are loaded;
* `Jos.ElfProghdr.Loaded` — a segment lies in an area of the program, and the file part lies inside
  that area;
* `Jos.ElfProghdr.FitsArea` — the rounded length reaches the end of the segment.

Main results:

* `Jos.loadSegments_eq` — the loop goes through the headers of the table;
* `Jos.loadIcode_areas` — the areas of a program that was loaded;
* `Jos.segments_loaded_iff` — **every segment is covered** exactly when every segment fits its area.
-/

import JosKernel.Descriptors

set_option relaxedAutoImplicit false
set_option autoImplicit false

namespace Jos

open LinkedList Outcome

/-! ### The headers of an image -/

-- `ELF_MAGIC`, `ELF_PROG_LOAD` and `ELF_PROG_FLAG_WRITE`; `sizeof(struct elf_proghdr)`.
def elfMagic : BitVec 32 := 0x464C457F#32
def elfProgLoad : BitVec 32 := 1#32
def elfProgFlagWrite : BitVec 32 := 2#32
def sizeofProghdr : ℕ := 32

-- `UTEMP` and `UTEXT`.
def uTemp : BitVec 32 := 0x00400000#32
def uText : BitVec 32 := 0x00800000#32

/-- A word of the image, the low byte first. -/
def imageWord (image : BitVec 32 → BitVec 8) (a : BitVec 32) : BitVec 32 :=
  image (a + 3) ++ image (a + 2) ++ image (a + 1) ++ image a

/-- A half word of the image. -/
def imageHalf (image : BitVec 32 → BitVec 8) (a : BitVec 32) : BitVec 16 := image (a + 1) ++ image a

/-- What is read of a `struct elf`. -/
structure Elf where
  eMagic : BitVec 32
  eEntry : BitVec 32
  ePhoff : BitVec 32
  ePhnum : BitVec 16
  deriving DecidableEq, Repr

/-- What is read of a `struct elf_proghdr`. -/
structure ElfProghdr where
  pType : BitVec 32
  pOffset : BitVec 32
  pVa : BitVec 32
  pFilesz : BitVec 32
  pMemsz : BitVec 32
  pFlags : BitVec 32
  deriving DecidableEq, Repr

/-- The `struct elf` at an address. -/
def Elf.read (image : BitVec 32 → BitVec 8) (eh : BitVec 32) : Elf where
  eMagic := imageWord image eh
  eEntry := imageWord image (eh + 24)
  ePhoff := imageWord image (eh + 28)
  ePhnum := imageHalf image (eh + 44)

/-- The `struct elf_proghdr` at an address. -/
def ElfProghdr.read (image : BitVec 32 → BitVec 8) (ph : BitVec 32) : ElfProghdr where
  pType := imageWord image ph
  pOffset := imageWord image (ph + 4)
  pVa := imageWord image (ph + 8)
  pFilesz := imageWord image (ph + 16)
  pMemsz := imageWord image (ph + 20)
  pFlags := imageWord image (ph + 24)

/-! ### The loader -/

/-- `va`, the start of the first page of the segment. -/
def ElfProghdr.va (ph : ElfProghdr) : BitVec 32 := roundDown ph.pVa (BitVec.ofNat 32 pgSize)

/-- `msize`.  The two pointers are of the type `uint32_t *`, so their difference counts words. -/
def ElfProghdr.msize (ph : ElfProghdr) : BitVec 32 := ph.pMemsz + (ph.pVa - ph.va) / 4

/-- `perm`. -/
def ElfProghdr.perm (ph : ElfProghdr) : BitVec 32 :=
  if ph.pFlags &&& elfProgFlagWrite ≠ 0 then pteU ||| pteW else pteU

/-- `if (vma_new(e, ...) < 1) panic(msg);`. -/
def vmaNewOrPanic (s : Vm) (e : ℕ) (va len : BitVec 32) (type : VmaType)
    (src filesize cpyDst perm : BitVec 32) (msg : String) : Except Crash Vm := do
  let (r, s) ← s.onSpace e fun sp => vmaNew sp va len type src filesize cpyDst perm
  match r with
  | .made _ => pure s
  | _ => throw (.panic msg)

/-- The round of the loop for one header, with the sum of the sizes. -/
def loadSegment (s : Vm) (e : ℕ) (binary : BitVec 32) (ph : ElfProghdr) (mmcount : BitVec 32) :
    Except Crash (BitVec 32 × Vm) :=
  if ph.pType = elfProgLoad then
    if ph.pMemsz < ph.pFilesz then throw (.panic "load_icode(): Segment's filesz > memsz!")
    else do
      let s ← vmaNewOrPanic s e ph.va ph.msize .binary (binary + ph.pOffset) ph.pFilesz
          (ph.pVa - ph.va) ph.perm
        "load_icode(): vma creation failed!"
      pure (mmcount + ph.msize, s)
  else pure (mmcount, s)

/-- The loop `for (; ph < eph; ph++)`. -/
def loadSegments (e : ℕ) (binary eph : BitVec 32) :
    ℕ → BitVec 32 → BitVec 32 → Vm → Except Crash (BitVec 32 × Vm)
  | 0, ph, mmcount, s => if ph < eph then throw .diverges else pure (mmcount, s)
  | n + 1, ph, mmcount, s =>
      if ph < eph then do
        let (mmcount, s) ← loadSegment s e binary (.read s.image ph) mmcount
        loadSegments e binary eph n (ph + BitVec.ofNat 32 sizeofProghdr) mmcount s
      else pure (mmcount, s)

/-- How `load_icode` leaves the environment: ready to run at its entry point, or destroyed. -/
inductive LoadEnd
  | loaded (eip : BitVec 32) | destroyed
  deriving DecidableEq, Repr

/-- The three areas that every program gets. -/
def loadStack (s : Vm) (e : ℕ) : Except Crash Vm := do
  let page := BitVec.ofNat 32 pgSize
  let s ← vmaNewOrPanic s e (uStackTop - page) page .anon 0 0 0 (pteU ||| pteW)
      "load_icode(): vma stack creation failed!"
  let s ← vmaNewOrPanic s e uTemp page .anon 0 0 0 pteU "load_icode(): vma stack creation failed!"
  vmaNewOrPanic s e (uTemp + page) page .anon 0 0 0 (pteU ||| pteW)
    "load_icode(): vma stack creation failed!"

/-- The rest of `load_icode`, with the directory of the environment in force. -/
def loadImage (s : Vm) (e : ℕ) (binary : BitVec 32) : Except Crash (LoadEnd × Vm) :=
  let eh := Elf.read s.image binary
  if eh.eMagic ≠ elfMagic then throw (.panic "load_icode(): Invalid ELF!")
  else do
    let ph := binary + eh.ePhoff
    let eph := ph + BitVec.ofNat 32 (sizeofProghdr * eh.ePhnum.toNat)
    let (mmcount, s) ← loadSegments e binary eph eh.ePhnum.toNat ph 0 s
    let s ← loadStack s e
    if (s.mm.freePagesCount - 200) * BitVec.ofNat 32 pgSize ≤ mmcount then do
      let s ← envFreeVm s e
      pure (.destroyed, s)
    else pure (.loaded eh.eEntry, s)

/-- **`load_icode(e, binary)`** on a processor that runs `curenv`. -/
def loadIcode (s : Vm) (e : ℕ) (curenv : Option ℕ) (binary : BitVec 32) :
    Except Crash (LoadEnd × Vm) :=
  if curenv ≠ some e then
    match s.pgdir e with
    | none => throw (.panic "PADDR called with invalid kva")
    | some dir => do
        let _ ← paddr (page2pa dir + kernBase)
        loadImage s e binary
  else loadImage s e binary

/-! ### The segments that are loaded -/

/-- The program headers that the loop comes to: all of the table, which must not run over the end of
the address space. -/
def progHeaders (image : BitVec 32 → BitVec 8) (binary : BitVec 32) : List ElfProghdr :=
  let eh := Elf.read image binary
  let ph := binary + eh.ePhoff
  if ph.toNat + sizeofProghdr * eh.ePhnum.toNat < 2 ^ 32 then
    (List.range eh.ePhnum.toNat).map fun k => .read image (ph + BitVec.ofNat 32 (sizeofProghdr * k))
  else []

/-- The headers of the segments that are loaded. -/
def loadHeaders (image : BitVec 32 → BitVec 8) (binary : BitVec 32) : List ElfProghdr :=
  (progHeaders image binary).filter (·.pType = elfProgLoad)

/-! ### The rounds of the loop -/

/-- A new area changes the descriptors of the environment and nothing else. -/
theorem vmaNewOrPanic_image (s : Vm) (e : ℕ) (va len : BitVec 32) (type : VmaType)
    (src filesize cpyDst perm : BitVec 32) (msg : String) :
    Ends (fun _ => True) (fun s' => s'.image = s.image)
      (vmaNewOrPanic s e va len type src filesize cpyDst perm msg) := by
  rw [vmaNewOrPanic, Vm.onSpace, ends_bind, ends_bind]
  refine Ends.of_forall (fun r => ?_) _
  obtain ⟨r, sp⟩ := r
  cases r with
  | made i => exact rfl
  | outOfMemory => exact True.intro
  | failed => exact True.intro

theorem loadSegment_image (s : Vm) (e : ℕ) (binary : BitVec 32) (ph : ElfProghdr)
    (mmcount : BitVec 32) :
    Ends (fun _ => True) (fun r => r.2.image = s.image) (loadSegment s e binary ph mmcount) := by
  rw [loadSegment]
  refine ends_ite (fun _ => ends_ite (fun _ => True.intro) fun _ => ?_) fun _ => rfl
  rw [ends_bind]
  exact (vmaNewOrPanic_image ..).post fun s' hs' => hs'

/-- The loop as a fold over headers. -/
def loadAll (e : ℕ) (binary : BitVec 32) (phs : List ElfProghdr) (mmcount : BitVec 32) (s : Vm) :
    Except Crash (BitVec 32 × Vm) :=
  phs.foldlM (fun r ph => loadSegment r.2 e binary ph r.1) (mmcount, s)

theorem loadAll_cons (e : ℕ) (binary : BitVec 32) (ph : ElfProghdr) (phs : List ElfProghdr)
    (mmcount : BitVec 32) (s : Vm) :
    loadAll e binary (ph :: phs) mmcount s =
      loadSegment s e binary ph mmcount >>= fun r => loadAll e binary phs r.1 r.2 := rfl

/-- The loop from a header on, where the rest of the table does not run over the end of the address
space. -/
theorem loadSegments_from (e : ℕ) (binary : BitVec 32) :
    ∀ (n : ℕ) (ph mmcount : BitVec 32) (s : Vm),
    ph.toNat + sizeofProghdr * n < 2 ^ 32 →
    loadSegments e binary (ph + BitVec.ofNat 32 (sizeofProghdr * n)) n ph mmcount s =
      loadAll e binary ((List.range n).map fun k => .read s.image
        (ph + BitVec.ofNat 32 (sizeofProghdr * k))) mmcount s := by
  intro n
  induction n with
  | zero =>
      intro ph mmcount s _
      have hstop : ¬ ph < ph + BitVec.ofNat 32 (sizeofProghdr * 0) := by simp
      rw [loadSegments, if_neg hstop]
      rfl
  | succ n ih =>
      intro ph mmcount s hn
      simp only [sizeofProghdr] at hn ih ⊢
      have hlt : ph < ph + BitVec.ofNat 32 (32 * (n + 1)) := by
        rw [BitVec.lt_def, BitVec.toNat_add, BitVec.toNat_ofNat]
        omega
      have hnext : (ph + BitVec.ofNat 32 32).toNat = ph.toNat + 32 := by
        rw [BitVec.toNat_add, BitVec.toNat_ofNat]
        omega
      have hmove : ∀ k, ph + BitVec.ofNat 32 (32 * (k + 1)) =
          ph + BitVec.ofNat 32 32 + BitVec.ofNat 32 (32 * k) := by
        intro k
        rw [BitVec.add_assoc, Nat.mul_succ, Nat.add_comm, BitVec.ofNat_add]
      have hheaders : ((List.range (n + 1)).map fun k => ElfProghdr.read s.image
          (ph + BitVec.ofNat 32 (32 * k))) =
          .read s.image ph :: (List.range n).map fun k =>
            .read s.image (ph + BitVec.ofNat 32 32 + BitVec.ofNat 32 (32 * k)) := by
        rw [List.range_succ_eq_map, List.map_cons, List.map_map]
        simp only [Nat.mul_zero, BitVec.add_zero, Function.comp_def, Nat.succ_eq_add_one, hmove]
      rw [hheaders, loadAll_cons, loadSegments, if_pos hlt]
      cases hround : loadSegment s e binary (.read s.image ph) mmcount with
      | error c => rfl
      | ok r =>
          have himage : r.2.image = s.image :=
            (loadSegment_image s e binary (.read s.image ph) mmcount).of_ok hround
          change loadSegments e binary (ph + BitVec.ofNat 32 (32 * (n + 1))) n
            (ph + BitVec.ofNat 32 32) r.1 r.2 =
            loadAll e binary _ r.1 r.2
          rw [hmove n, ih (ph + BitVec.ofNat 32 32) r.1 r.2 (by omega), himage]

/-- **The loop goes through the headers of the table.** -/
theorem loadSegments_eq (s : Vm) (e : ℕ) (binary : BitVec 32) (mmcount : BitVec 32) :
    loadSegments e binary (binary + (Elf.read s.image binary).ePhoff +
        BitVec.ofNat 32 (sizeofProghdr * (Elf.read s.image binary).ePhnum.toNat)) (Elf.read s.image
          binary).ePhnum.toNat
        (binary + (Elf.read s.image binary).ePhoff) mmcount s =
      loadAll e binary (progHeaders s.image binary) mmcount s := by
  have hnum := (Elf.read s.image binary).ePhnum.isLt
  rw [progHeaders]
  generalize binary + (Elf.read s.image binary).ePhoff = ph
  generalize (Elf.read s.image binary).ePhnum.toNat = n at hnum
  by_cases hwrap : ph.toNat + sizeofProghdr * n < 2 ^ 32
  · rw [if_pos hwrap]
    exact loadSegments_from e binary n ph mmcount s hwrap
  · -- the end of the table lies below its start
    rw [if_neg hwrap]
    have hstop : ¬ ph < ph + BitVec.ofNat 32 (sizeofProghdr * n) := by
      have hlt := ph.isLt
      simp only [sizeofProghdr] at hwrap ⊢
      rw [BitVec.lt_def, BitVec.toNat_add, BitVec.toNat_ofNat]
      omega
    cases n with
    | zero => rw [loadSegments, if_neg hstop]; rfl
    | succ n => rw [loadSegments, if_neg hstop]; rfl

/-! ### The areas of the program -/

/-- The area without its place in the lists and without `hps`, which `vma_new` does not set. -/
def Vma.plain (v : Vma) : Vma := { v.body with hps := false }

/-- **The areas in use**, in some order. -/
def HasAreas (sp : Space) (as : List Vma) : Prop :=
  ∃ la lf, VmaInv sp la lf ∧ ((sp.areas la).map Vma.plain).Perm as

theorem HasAreas.perm {sp : Space} {as bs : List Vma} (h : HasAreas sp as) (hp : as.Perm bs) :
    HasAreas sp bs := by
  obtain ⟨la, lf, hinv, has⟩ := h
  exact ⟨la, lf, hinv, has.trans hp⟩

/-- The areas in use, seen from the list of descriptors. -/
theorem HasAreas.mem_iff {sp : Space} {as : List Vma} (h : HasAreas sp as) {v : Vma} :
    v ∈ as ↔ ∃ i, Visits sp.link sp.allocVmaList i ∧ (sp.vmas i).plain = v := by
  obtain ⟨la, lf, hinv, has⟩ := h
  rw [← has.mem_iff, Space.areas, List.map_map, List.mem_map]
  refine exists_congr fun i => ?_
  rw [hinv.alloc.visits_iff]
  rfl

/-- **`vma_new`** adds the area that it is asked for. -/
theorem vmaNew_hasAreas {sp : Space} {as : List Vma} (h : HasAreas sp as) (va len : BitVec 32)
    (type : VmaType) (src filesize cpyDst perm : BitVec 32) :
    Ends (fun _ => True)
      (fun r => ∀ i, r.1 = .made i → (type = .binary → filesize ≠ 0) ∧
        HasAreas r.2 (newVma va len type src filesize cpyDst perm :: as))
      (vmaNew sp va len type src filesize cpyDst perm) := by
  by_cases hsrc : type = .binary ∧ (src = 0 ∨ filesize = 0)
  · rw [vmaNew, if_pos hsrc]
    exact fun i hi => nomatch hi
  by_cases hpage : va % BitVec.ofNat 32 pgSize ≠ 0
  · rw [vmaNew, if_neg hsrc, if_pos hpage]
    exact fun i hi => nomatch hi
  obtain ⟨la, lf, hinv, has⟩ := h
  cases lf with
  | nil =>
      rw [vmaNew_empty hinv, if_neg hsrc, if_neg hpage]
      exact True.intro
  | cons el lf =>
      have hsrc' : type = .binary → src ≠ 0 ∧ filesize ≠ 0 :=
        fun hb => ⟨fun hc => hsrc ⟨hb, Or.inl hc⟩, fun hc => hsrc ⟨hb, Or.inr hc⟩⟩
      have hpage' : va.toNat % 4096 = 0 := mod_pgSize_eq_zero.1 (not_not.1 hpage)
      obtain ⟨pre, post, sp', rfl, -, -, hnew, hinv', hat⟩ :=
        @vmaNew_place sp el la lf hinv va len type src filesize cpyDst perm
        hsrc' hpage'
      rw [hnew]
      refine fun i _ => ⟨fun hb => (hsrc' hb).2, _, lf, hinv', ?_⟩
      have hother : ∀ l ⊆ pre ++ post, sp'.areas l = sp.areas l :=
        fun l hl => Space.areas_congr fun j hj => hat.others j (by
        rintro rfl
        exact hinv.not_mem_free (hl hj) List.mem_cons_self)
      have hplain : ((sp'.vmas el).body).plain = newVma va len type src filesize cpyDst perm := by
        rw [hat.body]
        rfl
      rw [Space.areas_append, List.map_append] at has
      rw [Space.areas_append, Space.areas_cons, hother pre (by simp), hother post (by simp),
        List.map_append, List.map_cons, hplain]
      exact List.perm_middle.trans (has.cons _)

/-- The area that the loader asks for. -/
def ElfProghdr.area (binary : BitVec 32) (ph : ElfProghdr) : Vma :=
  newVma ph.va ph.msize .binary (binary + ph.pOffset) ph.pFilesz (ph.pVa - ph.va) ph.perm

section

variable {s : Vm} {e : ℕ} {as : List Vma}

theorem vmaNewOrPanic_hasAreas (h : HasAreas (s.envs e) as) (va len : BitVec 32) (type : VmaType)
    (src filesize cpyDst perm : BitVec 32) (msg : String) :
    Ends (fun _ => True)
      (fun s' => (type = .binary → filesize ≠ 0) ∧
        HasAreas (s'.envs e) (newVma va len type src filesize cpyDst perm :: as))
      (vmaNewOrPanic s e va len type src filesize cpyDst perm msg) := by
  rw [vmaNewOrPanic, Vm.onSpace, ends_bind, ends_bind]
  refine (vmaNew_hasAreas h va len type src filesize cpyDst perm).post ?_
  rintro ⟨r, sp⟩ hr
  cases r with
  | made i =>
      obtain ⟨hsz, has⟩ := hr i rfl
      refine ⟨hsz, ?_⟩
      rw [Vm.modSpace_self]
      exact has
  | outOfMemory => exact True.intro
  | failed => exact True.intro

/-- The sizes that `load_icode` accepts. -/
def ElfProghdr.Checked (ph : ElfProghdr) : Prop :=
  0 < ph.pFilesz.toNat ∧ ph.pFilesz.toNat ≤ ph.pMemsz.toNat

/-- **The rounds of the loop**: every segment gets an area, and the loop stops where one is not
accepted. -/
theorem loadAll_hasAreas (binary : BitVec 32) :
    ∀ (phs : List ElfProghdr) (mmcount : BitVec 32) (s : Vm) (as : List Vma),
    HasAreas (s.envs e) as →
    Ends (fun _ => True)
      (fun r => (∀ ph ∈ phs.filter (·.pType = elfProgLoad), ph.Checked) ∧
        HasAreas (r.2.envs e)
          ((phs.filter (·.pType = elfProgLoad)).map (ElfProghdr.area binary) ++ as))
      (loadAll e binary phs mmcount s) := by
  intro phs
  induction phs with
  | nil => intro mmcount s as h; exact ⟨by simp, h⟩
  | cons ph phs ih =>
      intro mmcount s as h
      rw [loadAll_cons, ends_bind, loadSegment]
      by_cases hload : ph.pType = elfProgLoad
      · rw [if_pos hload]
        refine ends_ite (fun _ => True.intro) fun hsz => ?_
        rw [ends_bind]
        refine (vmaNewOrPanic_hasAreas h ..).post ?_
        rintro s₁ ⟨hfile, h₁⟩
        refine (ih (mmcount + ph.msize) s₁ _ h₁).post ?_
        rintro r ⟨hchecked, hr⟩
        rw [List.filter_cons_of_pos (by simpa using hload)]
        refine ⟨fun q hq => ?_, hr.perm List.perm_middle⟩
        rcases List.mem_cons.1 hq with rfl | hq
        · have hpos : q.pFilesz.toNat ≠ 0 := fun hc => hfile rfl (BitVec.eq_of_toNat_eq hc)
          rw [BitVec.lt_def] at hsz
          exact ⟨by omega, by omega⟩
        · exact hchecked q hq
      · rw [if_neg hload, List.filter_cons_of_neg (by simpa using hload)]
        exact ih mmcount s as h

/-- The areas besides those of the segments. -/
def otherAreas : List Vma :=
  let page := BitVec.ofNat 32 pgSize
  [newVma (uTemp + page) page .anon 0 0 0 (pteU ||| pteW), newVma uTemp page .anon 0 0 0 pteU,
    newVma (uStackTop - page) page .anon 0 0 0 (pteU ||| pteW)]

theorem loadStack_hasAreas (h : HasAreas (s.envs e) as) :
    Ends (fun _ => True) (fun s' => HasAreas (s'.envs e) (otherAreas ++ as)) (loadStack s e) := by
  rw [loadStack, ends_bind]
  refine (vmaNewOrPanic_hasAreas h ..).post fun s₁ h₁ => ?_
  rw [ends_bind]
  refine (vmaNewOrPanic_hasAreas h₁.2 ..).post fun s₂ h₂ => ?_
  exact (vmaNewOrPanic_hasAreas h₂.2 ..).post fun s₃ h₃ => h₃.2

/-- **The areas of a program that was loaded** into an environment without any: one for every
segment, the stack, and the pages at `UTEMP`. -/
theorem loadIcode_areas {curenv : Option ℕ} {binary eip : BitVec 32} {s' : Vm}
    (h : HasAreas (s.envs e) []) (hrun : loadIcode s e curenv binary = .ok (.loaded eip, s')) :
    (∀ ph ∈ loadHeaders s.image binary, ph.Checked) ∧
      HasAreas (s'.envs e) (otherAreas ++ (loadHeaders s.image binary).map
        (ElfProghdr.area binary)) := by
  have hends : Ends (fun _ => True)
      (fun r => r.1 ≠ .destroyed → (∀ ph ∈ loadHeaders s.image binary, ph.Checked) ∧
        HasAreas (r.2.envs e) (otherAreas ++ (loadHeaders s.image binary).map
          (ElfProghdr.area binary)))
      (loadIcode s e curenv binary) := by
    have hrest : Ends (fun _ => True)
        (fun r : LoadEnd × Vm => r.1 ≠ .destroyed →
          (∀ ph ∈ loadHeaders s.image binary, ph.Checked) ∧
          HasAreas (r.2.envs e) (otherAreas ++ (loadHeaders s.image binary).map
            (ElfProghdr.area binary)))
        (loadImage s e binary) := by
      rw [loadImage]
      refine ends_ite (fun _ => True.intro) fun _ => ?_
      dsimp only
      rw [loadSegments_eq, ends_bind]
      refine (loadAll_hasAreas binary _ 0 s [] h).post ?_
      rintro ⟨mmcount, s₁⟩ ⟨hchecked, h₁⟩
      rw [List.append_nil] at h₁
      dsimp only
      rw [ends_bind]
      refine (loadStack_hasAreas h₁).post fun s₂ h₂ => ?_
      refine ends_ite (fun _ => ?_) fun _ _ => ⟨hchecked, h₂⟩
      rw [ends_bind]
      exact Ends.of_forall (fun s₃ hne => absurd rfl hne) _
    rw [loadIcode]
    generalize loadImage s e binary = image at hrest ⊢
    refine ends_ite (fun _ => ?_) fun _ => hrest
    cases s.pgdir e with
    | none => exact True.intro
    | some dir =>
        dsimp only
        rw [ends_bind]
        generalize paddr (page2pa dir + kernBase) = kva
        exact Ends.of_forall (fun _ => hrest) kva
  exact hends.of_ok hrun (by simp)

end

/-! ### Segments and their areas -/

namespace ElfProghdr

variable (ph : ElfProghdr)

/-- An address of the segment. -/
def Contains (a : BitVec 32) : Prop :=
  ph.pVa.toNat ≤ a.toNat ∧ a.toNat < ph.pVa.toNat + ph.pMemsz.toNat

/-- A segment below `UTEMP`, or from `UTEXT` on and below the page of the stack. -/
def Placed : Prop :=
  ph.pVa.toNat + ph.pMemsz.toNat ≤ uTemp.toNat ∨
    uText.toNat ≤ ph.pVa.toNat + ph.pMemsz.toNat ∧
      ph.pVa.toNat + ph.pMemsz.toNat ≤ (uStackTop - BitVec.ofNat 32 pgSize).toNat

/-- Two segments have no page in common. -/
def Separate (q : ElfProghdr) : Prop :=
  ∀ a b, ph.Contains a → q.Contains b → a.toNat / 4096 ≠ b.toNat / 4096

/-- **The segment lies in areas of the program**, and the part that comes from the file ends inside
the area. -/
def Loaded (sp : Space) : Prop :=
  ∀ a, ph.Contains a → ∃ i, Visits sp.link sp.allocVmaList i ∧ (sp.vmas i).type = .binary ∧
    (sp.vmas i).covers a = true ∧ (sp.vmas i).cpyDst.toNat + (sp.vmas i).srcSz.toNat ≤
    (sp.vmas i).len.toNat

/-- The length of the area, as an unbounded number: a quarter of the offset is added to the size,
and the sum is rounded up. -/
def areaLen : ℕ := (ph.pMemsz.toNat + ph.pVa.toNat % 4096 / 4 + 4095) / 4096 * 4096

/-- **The rounded length reaches the end of the segment.** -/
def FitsArea : Prop := ph.pVa.toNat % 4096 + ph.pMemsz.toNat ≤ ph.areaLen

instance : Decidable ph.Placed := inferInstanceAs (Decidable (_ ∨ _))
instance : Decidable ph.FitsArea := inferInstanceAs (Decidable (_ ≤ _))

theorem toNat_va : ph.va.toNat = ph.pVa.toNat - ph.pVa.toNat % 4096 := by
  have hmod : (ph.pVa % BitVec.ofNat 32 pgSize).toNat = ph.pVa.toNat % 4096 := rfl
  rw [va, roundDown, BitVec.toNat_sub_of_le, hmod]
  rw [BitVec.le_def, hmod]
  exact Nat.mod_le ..

theorem toNat_offset : (ph.pVa - ph.va).toNat = ph.pVa.toNat % 4096 := by
  have hle : ph.va ≤ ph.pVa := by
    rw [BitVec.le_def, toNat_va]
    exact Nat.sub_le ..
  rw [BitVec.toNat_sub_of_le hle, toNat_va]
  have hmod := Nat.mod_le ph.pVa.toNat 4096
  omega

variable {ph}

theorem Placed.le (h : ph.Placed) : ph.pVa.toNat + ph.pMemsz.toNat ≤ 0xeebfd000 := by
  have htemp : uTemp.toNat = 0x400000 := rfl
  have hstack : (uStackTop - BitVec.ofNat 32 pgSize).toNat = 0xeebfd000 := rfl
  rcases h with h | h
  · omega
  · omega

theorem Placed.toNat_areaLen (h : ph.Placed) (binary : BitVec 32) :
    (ph.area binary).len.toNat = ph.areaLen := by
  have hle := h.le
  have hmsize : ph.msize.toNat = ph.pMemsz.toNat + ph.pVa.toNat % 4096 / 4 := by
    have hdiv : ((ph.pVa - ph.va) / 4).toNat = ph.pVa.toNat % 4096 / 4 := by
      rw [BitVec.toNat_udiv, toNat_offset]
      rfl
    rw [msize, BitVec.toNat_add, hdiv]
    omega
  change (roundUp ph.msize (BitVec.ofNat 32 pgSize)).toNat = _
  rw [toNat_roundUp (by omega), pagesOf, hmsize]
  rfl

/-- The area of a segment has no pages besides those of the segment. -/
theorem areaLen_le : ph.areaLen ≤ (ph.pVa.toNat % 4096 + ph.pMemsz.toNat + 4095) / 4096 * 4096 := by
  rw [areaLen]
  omega

theorem Placed.covers_iff (h : ph.Placed) (hc : ph.Checked) {binary a : BitVec 32} :
    (ph.area binary).covers a = true ↔
      ph.pVa.toNat - ph.pVa.toNat % 4096 ≤ a.toNat ∧
        a.toNat < ph.pVa.toNat - ph.pVa.toNat % 4096 + ph.areaLen := by
  have hle := h.le
  have hlen := h.toNat_areaLen binary
  have hva : (ph.area binary).va.toNat = ph.pVa.toNat - ph.pVa.toNat % 4096 := ph.toNat_va
  have hmax := @areaLen_le ph
  have hproper : (ph.area binary).Proper := by
    obtain ⟨hpos, hsz⟩ := hc
    refine ⟨?_, ?_⟩
    · rw [hlen, areaLen]
      omega
    · rw [hlen, hva]
      omega
  rw [hproper.covers_iff, hlen, hva]

/-- The area of a segment is apart from every other segment. -/
theorem Separate.not_covers {q : ElfProghdr} (hsep : ph.Separate q) (h : q.Placed) (hc : q.Checked)
    {binary a : BitVec 32} (ha : ph.Contains a) : (q.area binary).covers a = false := by
  rw [← Bool.not_eq_true, h.covers_iff hc]
  rintro ⟨hlo, hhi⟩
  have hle := h.le
  have hmax := @areaLen_le q
  obtain ⟨hpos, hsz⟩ := hc
  -- some address of the segment lies in the page of `a`
  have hnear : ∃ b : ℕ, (q.pVa.toNat ≤ b ∧ b < q.pVa.toNat + q.pMemsz.toNat) ∧
      a.toNat / 4096 = b / 4096 := by
    by_cases hbefore : a.toNat < q.pVa.toNat
    · exact ⟨q.pVa.toNat, by omega, by omega⟩
    · by_cases hbehind : a.toNat < q.pVa.toNat + q.pMemsz.toNat
      · exact ⟨a.toNat, by omega, rfl⟩
      · exact ⟨q.pVa.toNat + q.pMemsz.toNat - 1, by omega, by omega⟩
  obtain ⟨b, hb, hpage⟩ := hnear
  have hlt : b < 2 ^ 32 := by omega
  have hb' : (BitVec.ofNat 32 b).toNat = b := by rw [BitVec.toNat_ofNat, Nat.mod_eq_of_lt hlt]
  refine hsep a (BitVec.ofNat 32 b) ha ?_ ?_
  · rw [Contains, hb']
    exact hb
  · rw [hb']
    exact hpage

end ElfProghdr

/-- The areas in use whose type is `VMA_BINARY`. -/
theorem HasAreas.binary {sp : Space} {phs : List ElfProghdr} {binary : BitVec 32}
    (h : HasAreas sp (otherAreas ++ phs.map (ElfProghdr.area binary))) {i : ℕ}
    (hi : Visits sp.link sp.allocVmaList i) (htype : (sp.vmas i).type = .binary) :
    ∃ ph ∈ phs, (sp.vmas i).plain = ph.area binary := by
  have hmem : (sp.vmas i).plain ∈ otherAreas ++ phs.map (ElfProghdr.area binary) :=
    h.mem_iff.2 ⟨i, hi, rfl⟩
  rcases List.mem_append.1 hmem with hother | hseg
  · have hanon : ∀ v ∈ otherAreas, v.type = .anon := by simp [otherAreas, newVma]
    have hcontra : (sp.vmas i).type = .anon := hanon (sp.vmas i).plain hother
    rw [htype] at hcontra
    cases hcontra
  · obtain ⟨ph, hph, heq⟩ := List.mem_map.1 hseg
    exact ⟨ph, hph, heq.symm⟩

instance : Std.Symm ElfProghdr.Separate := ⟨fun _ _ h a b ha hb heq => h b a hb ha heq.symm⟩

section

variable {s s' : Vm} {e : ℕ} {curenv : Option ℕ} {binary eip : BitVec 32} {lf : List ℕ}

/-- A segment that does not fit its area is not covered: no area begins behind the one that is too
short. -/
theorem loaded_fitsArea (hfresh : VmaInv (s.envs e) [] lf)
    (hplaced : ∀ ph ∈ loadHeaders s.image binary, ph.Placed)
    (hsep : (loadHeaders s.image binary).Pairwise ElfProghdr.Separate)
    (hrun : loadIcode s e curenv binary = .ok (.loaded eip, s')) {ph : ElfProghdr}
    (hph : ph ∈ loadHeaders s.image binary) (hloaded : ph.Loaded (s'.envs e)) : ph.FitsArea := by
  obtain ⟨hchecked, hareas⟩ := loadIcode_areas ⟨[], lf, hfresh, List.Perm.nil⟩ hrun
  have hp := hplaced ph hph
  have hle := hp.le
  obtain ⟨hpos, hsz⟩ := hchecked ph hph
  by_contra hshort
  rw [ElfProghdr.FitsArea, Nat.not_le] at hshort
  -- the first address behind the area
  have hge : 4096 ≤ ph.areaLen := by
    rw [ElfProghdr.areaLen]
    omega
  have hlt : ph.pVa.toNat - ph.pVa.toNat % 4096 + ph.areaLen < 2 ^ 32 := by omega
  obtain ⟨a, ha⟩ : ∃ a : BitVec 32, a.toNat = ph.pVa.toNat - ph.pVa.toNat % 4096 + ph.areaLen :=
    ⟨BitVec.ofNat 32 _, by rw [BitVec.toNat_ofNat, Nat.mod_eq_of_lt hlt]⟩
  have hin : ph.Contains a := ⟨by omega, by omega⟩
  obtain ⟨i, hi, htype, hcov, -⟩ := hloaded a hin
  obtain ⟨q, hq, heq⟩ := hareas.binary hi htype
  have hcov' : (q.area binary).covers a = true := by
    rw [← heq]
    exact hcov
  by_cases hsame : ph = q
  · subst hsame
    rw [hp.covers_iff ⟨hpos, hsz⟩] at hcov'
    omega
  · rw [(hsep.forall hph hq hsame).not_covers (hplaced q hq) (hchecked q hq) hin] at hcov'
    exact nomatch hcov'

/-- A segment that fits its area is covered by it. -/
theorem loaded_of_fitsArea (hfresh : VmaInv (s.envs e) [] lf)
    (hplaced : ∀ ph ∈ loadHeaders s.image binary, ph.Placed)
    (hrun : loadIcode s e curenv binary = .ok (.loaded eip, s')) {ph : ElfProghdr}
    (hph : ph ∈ loadHeaders s.image binary) (hfits : ph.FitsArea) : ph.Loaded (s'.envs e) := by
  obtain ⟨hchecked, hareas⟩ := loadIcode_areas ⟨[], lf, hfresh, List.Perm.nil⟩ hrun
  have hp := hplaced ph hph
  have hc := hchecked ph hph
  rw [ElfProghdr.FitsArea] at hfits
  intro a ha
  obtain ⟨i, hi, heq⟩ := hareas.mem_iff.1 (List.mem_append_right _ (List.mem_map_of_mem hph))
  have hcov : (ph.area binary).covers a = true := by
    rw [hp.covers_iff hc]
    obtain ⟨hlo, hhi⟩ := ha
    exact ⟨by omega, by omega⟩
  have hbound : (ph.area binary).cpyDst.toNat + (ph.area binary).srcSz.toNat ≤
      (ph.area binary).len.toNat := by
    have hdst : (ph.area binary).cpyDst.toNat = ph.pVa.toNat % 4096 := ph.toNat_offset
    have hsrc : (ph.area binary).srcSz.toNat = ph.pFilesz.toNat := rfl
    rw [hp.toNat_areaLen, hdst, hsrc]
    have hsz := hc.2
    omega
  rw [← heq] at hcov hbound
  exact ⟨i, hi, congrArg Vma.type heq, hcov, hbound⟩

/-- **Every segment of a program that was loaded is covered** by areas of the program, which are
long enough for the part that comes from the file, exactly when for every segment the rounded length
reaches its end. -/
theorem segments_loaded_iff (hfresh : VmaInv (s.envs e) [] lf)
    (hplaced : ∀ ph ∈ loadHeaders s.image binary, ph.Placed)
    (hsep : (loadHeaders s.image binary).Pairwise ElfProghdr.Separate)
    (hrun : loadIcode s e curenv binary = .ok (.loaded eip, s')) :
    (∀ ph ∈ loadHeaders s.image binary, ph.Loaded (s'.envs e)) ↔ ∀ ph ∈ loadHeaders s.image binary,
      ph.FitsArea :=
  ⟨fun h ph hph => loaded_fitsArea hfresh hplaced hsep hrun hph (h ph hph),
    fun h ph hph => loaded_of_fitsArea hfresh hplaced hrun hph (h ph hph)⟩

end

/-! ### Two programs -/

/-- The words of an image at an address of the kernel. -/
def imageOf (base : BitVec 32) (ws : List (BitVec 32)) (a : BitVec 32) : BitVec 8 :=
  (ws.getD ((a - base).toNat / 4) 0).extractLsb' (8 * ((a - base).toNat % 4)) 8

/-- An image with one segment of 0x600 bytes, 0x10 of them from the file. -/
def oneSegment (pVa : BitVec 32) : List (BitVec 32) :=
  [elfMagic, 0, 0, 0, 0x30002#32, 1, pVa, 52, 0, 0, 0x200034#32, 1, 0, elfProgLoad, 0x54#32, pVa,
    pVa, 0x10#32, 0x600#32, 3, 0x1000#32]

/-- A machine with such an image at `0xf0200000`, where no environment has an area. -/
def Vm.withSegment (pVa : BitVec 32) : Vm :=
  { Vm.ofWords 4 frames_four (fun _ _ => 0) fun _ => Space.ofAreas (some 1) [] 0 with
    image := imageOf 0xf0200000 (oneSegment pVa) }

/-- The machine after the program was loaded. -/
def Vm.afterLoad (pVa : BitVec 32) : Vm :=
  match loadIcode (.withSegment pVa) 0 none 0xf0200000 with
  | .ok (_, s) => s
  | .error _ => .withSegment pVa

theorem withSegment_fresh (pVa : BitVec 32) :
    VmaInv ((Vm.withSegment pVa).envs 0) [] (List.range' 0 nVma) :=
  (@ofAreas_sorted [] (by decide) (by decide) (some 1) 0).lists

/-- A segment that begins 32 bytes behind the start of a page is covered. -/
theorem segments_loaded_iff_near :
    ∃ ph, loadHeaders (Vm.withSegment 0x800020).image 0xf0200000 = [ph] ∧
      ph.Loaded ((Vm.afterLoad 0x800020).envs 0) := by
  have hone : ∃ ph, loadHeaders (Vm.withSegment 0x800020).image 0xf0200000 = [ph] := ⟨_, rfl⟩
  obtain ⟨ph, hph⟩ := hone
  have hrun : loadIcode (.withSegment 0x800020) 0 none 0xf0200000 =
      .ok (.loaded 0x800020, .afterLoad 0x800020) := rfl
  have hall := (segments_loaded_iff (withSegment_fresh
    0x800020) (by decide) (by rw [hph]; exact List.pairwise_singleton ..) hrun).2
    (by decide)
  exact ⟨ph, hph, hall ph (by rw [hph]; exact List.mem_singleton_self ph)⟩

/-- **A segment that is not covered**: 0x600 bytes from `0x800c00` on reach into a second page, but
the area has one page. -/
theorem segment_not_loaded :
    loadIcode (.withSegment 0x800c00) 0 none 0xf0200000 =
      .ok (.loaded 0x800c00, .afterLoad 0x800c00) ∧
      VmaInv ((Vm.withSegment 0x800c00).envs 0) [] (List.range' 0 nVma) ∧
      ∃ ph, loadHeaders (Vm.withSegment 0x800c00).image 0xf0200000 = [ph] ∧ ph.Placed ∧
      ph.pFilesz = 0x10 ∧ ph.pMemsz = 0x600 ∧
        ¬ ph.Loaded ((Vm.afterLoad 0x800c00).envs 0) := by
  have hrun : loadIcode (.withSegment 0x800c00) 0 none 0xf0200000 =
      .ok (.loaded 0x800c00, .afterLoad 0x800c00) := rfl
  have hfresh := withSegment_fresh 0x800c00
  have hone : loadHeaders (Vm.withSegment 0x800c00).image
      0xf0200000 = [⟨1, 0x54, 0x800c00, 0x10, 0x600, 3⟩] := by decide
  have hshort : ¬ ElfProghdr.FitsArea ⟨1, 0x54, 0x800c00, 0x10, 0x600, 3⟩ := by decide
  refine ⟨hrun, hfresh, _, hone, by decide, rfl, rfl, fun hloaded => hshort ?_⟩
  refine loaded_fitsArea hfresh (by decide) ?_
    hrun (by rw [hone]; exact List.mem_singleton_self _) hloaded
  rw [hone]
  exact List.pairwise_singleton ..

end Jos
