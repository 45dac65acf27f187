/-
**The protocol of the disk driver.**

`kern/ide.h` asks that an operation be finished entirely before a new one is started. `page_out` and
`page_in` start one when their `count` is 0 and then transfer one sector in a round. A round that
finds the disk busy leaves `count` alone, so when this happens to the round that starts the
operation, the next round starts it again.

Main definitions:

* `Jos.IdeCall`, `Jos.ideCalls` — the driver calls of a step;
* `Jos.IdeOrder` — complete operations, and the beginning of one more;
* `Jos.ReadyAtStart` — the condition on a step.

Main results:

* `Jos.IdeInv.step` — one step;
* `Jos.ide_protocol` — **whole runs**.
-/

import JosKernel.Swap

set_option relaxedAutoImplicit false
set_option autoImplicit false

namespace Jos

open LabelledRun

/-! ### Driver calls -/

/-- A call of the driver: `ide_start_read` and `ide_start_write`, with the first sector and the
number of sectors, `ide_read_sector` and `ide_write_sector`. -/
inductive IdeCall
  | start (write : Bool) (secno n : ℕ)
  | sector (write : Bool)
  deriving DecidableEq, Repr

/-- `page_out` writes, `page_in` reads. -/
def SwapTask.writes (t : SwapTask) : Bool := t.fptr = .pageOut

/-- The first sector of the operation that a round starts. -/
def startSector (s : Swap) (t : SwapTask) : ℕ :=
  match t.fptr with
  | .pageOut => outSpot s t
  | .pageIn => t.sectorStart

/-- The driver calls of a round for the tasklet `t`. -/
def roundCalls (s : Swap) (t : SwapTask) (ready : Bool) : List IdeCall :=
  (if t.count = 0 then [.start t.writes (startSector s t) nSectors] else []) ++
    if t.count < nSectors ∧ ready then [.sector t.writes] else []

/-- **The driver calls of a step.** -/
def ideCalls (s : Swap) : SwapOp → List IdeCall
  | .round ready =>
      match s.tList with
      | [] => []
      | t :: _ => roundCalls s t ready
  | _ => []

/-- The driver calls of a run. -/
def ideLog (tr : List (Swap × SwapOp)) : List IdeCall := tr.flatMap fun p => ideCalls p.1 p.2

/-- A whole operation. -/
structure IdeOp where
  write : Bool
  secno : ℕ

/-- One start, and then all the sectors in the same direction. -/
def IdeOp.calls (op : IdeOp) : List IdeCall :=
  .start op.write op.secno nSectors :: List.replicate nSectors (.sector op.write)

/-- **Complete operations, one after the other, and possibly the beginning of one more.** -/
def IdeOrder (log : List IdeCall) : Prop :=
  ∃ (ops : List IdeOp) (last : IdeOp) (rest : List IdeCall), log = ops.flatMap IdeOp.calls ++ rest ∧
    rest <+: last.calls

/-- The disk is ready in the round that starts an operation. -/
def ReadyAtStart (s : Swap) : SwapOp → Prop
  | .round ready => ∀ t ∈ s.tList.head?, t.count = 0 → ready = true
  | _ => True

instance (s : Swap) : (op : SwapOp) → Decidable (ReadyAtStart s op)
  | .round _ => inferInstanceAs (Decidable (∀ _ ∈ _, _))
  | .store _ _ _ _ => inferInstanceAs (Decidable True)
  | .map _ _ _ _ => inferInstanceAs (Decidable True)
  | .reclaim _ _ => inferInstanceAs (Decidable True)
  | .fault _ _ _ => inferInstanceAs (Decidable True)
  | .free _ _ => inferInstanceAs (Decidable True)
  | .big _ _ _ => inferInstanceAs (Decidable True)
  | .live _ _ => inferInstanceAs (Decidable True)

/-! ### The invariant -/

/-- What has been done of the operation of a tasklet. -/
def SwapTask.done (t : SwapTask) : List IdeCall :=
  if t.count = 0 then [] else .start t.writes t.sectorStart nSectors :: List.replicate t.count
    (.sector t.writes)

/-- What has been done of the operation in progress. -/
def Swap.pending (s : Swap) : List IdeCall :=
  match s.tList with
  | [] => []
  | t :: _ => t.done

/-- **The log is complete operations and the one in progress**; the tasklets behind the first one
have not begun. -/
structure IdeInv (s : Swap) (log : List IdeCall) : Prop where
  log : ∃ ops : List IdeOp, log = ops.flatMap IdeOp.calls ++ s.pending
  behind : ∀ t ∈ s.tList.tail, t.count = 0
  count : ∀ t ∈ s.tList, t.count ≤ nSectors

theorem SwapTask.done_isPrefix (t : SwapTask) (h : t.count ≤ nSectors) :
    t.done <+: IdeOp.calls ⟨t.writes, t.sectorStart⟩ := by
  unfold SwapTask.done IdeOp.calls
  split
  · exact List.nil_prefix
  · rw [List.cons_prefix_cons]
    refine ⟨rfl, ⟨List.replicate (nSectors - t.count) (.sector t.writes), ?_⟩⟩
    rw [List.replicate_append_replicate]
    congr 1
    omega

theorem SwapTask.done_complete (t : SwapTask) (h : t.count = nSectors) :
    t.done = IdeOp.calls ⟨t.writes, t.sectorStart⟩ := by
  have hpos : ¬ t.count = 0 := by
    rw [h]
    decide
  rw [SwapTask.done, if_neg hpos, h]
  rfl

namespace IdeInv

variable {s s' : Swap} {log : List IdeCall}

theorem order (h : IdeInv s log) : IdeOrder log := by
  obtain ⟨ops, hlog⟩ := h.log
  unfold Swap.pending at hlog
  cases hl : s.tList with
  | nil =>
      rw [hl] at hlog
      exact ⟨ops, ⟨true, 0⟩, [], hlog, List.nil_prefix⟩
  | cons t rest =>
      rw [hl] at hlog
      exact ⟨ops, _, t.done, hlog, t.done_isPrefix
        (h.count t (by rw [hl]; exact List.mem_cons_self))⟩

/-- Steps that do not touch the list of tasklets. -/
theorem same (h : IdeInv s log) (hl : s'.tList = s.tList) : IdeInv s' (log ++ []) := by
  rw [List.append_nil]
  refine ⟨?_, ?_, ?_⟩
  · rw [Swap.pending, hl]
    exact h.log
  · rw [hl]
    exact h.behind
  · rw [hl]
    exact h.count

/-- A tasklet is added at the end. -/
theorem enqueue (h : IdeInv s log) {t : SwapTask} (hl : s'.tList = s.tList ++ [t])
    (hc : t.count = 0) :
    IdeInv s' (log ++ []) := by
  obtain ⟨ops, hlog⟩ := h.log
  have hpend : s'.pending = s.pending := by
    unfold Swap.pending
    rw [hl]
    cases s.tList with
    | nil =>
        change t.done = []
        rw [SwapTask.done, if_pos hc]
    | cons u rest => rfl
  rw [List.append_nil]
  refine ⟨⟨ops, hpend.symm ▸ hlog⟩, fun u hu => ?_, fun u hu => ?_⟩
  · rw [hl] at hu
    cases hs : s.tList with
    | nil =>
        rw [hs] at hu
        exact (List.not_mem_nil hu).elim
    | cons v rest =>
        rw [hs] at hu
        rcases List.mem_append.1 hu with hu | hu
        · exact h.behind u (by rw [hs]; exact hu)
        · rw [List.mem_singleton.1 hu]
          exact hc
  · rw [hl] at hu
    rcases List.mem_append.1 hu with hu | hu
    · exact h.count u hu
    · rw [List.mem_singleton.1 hu, hc]
      exact Nat.zero_le _

/-- The tasklet at the head makes progress, or not. -/
theorem progress (h : IdeInv s log) {t t' : SwapTask} {rest : List SwapTask} {calls : List IdeCall}
    (hs : s.tList = t :: rest) (hs' : s'.tList = t' :: rest) (hdone : t'.done = t.done ++ calls)
    (hcount : t'.count ≤ nSectors) : IdeInv s' (log ++ calls) := by
  obtain ⟨ops, hlog⟩ := h.log
  have hbehind := h.behind
  have hle := h.count
  rw [hs] at hbehind hle
  rw [Swap.pending, hs] at hlog
  refine ⟨⟨ops, ?_⟩, ?_, ?_⟩
  · rw [Swap.pending, hs', hlog, List.append_assoc]
    exact congrArg _ hdone.symm
  · rw [hs']
    exact hbehind
  · rw [hs']
    intro u hu
    rcases List.mem_cons.1 hu with rfl | hu
    · exact hcount
    · exact hle u (List.mem_cons_of_mem _ hu)

/-- The tasklet at the head has transferred all its sectors and leaves the list. -/
theorem finish (h : IdeInv s log) {t : SwapTask} {rest : List SwapTask} (hs : s.tList = t :: rest)
    (hs' : s'.tList = rest) (hcount : nSectors ≤ t.count) : IdeInv s' (log ++ []) := by
  obtain ⟨ops, hlog⟩ := h.log
  have hbehind := h.behind
  have hle := h.count
  rw [hs] at hbehind hle
  rw [Swap.pending, hs] at hlog
  have hall : t.count = nSectors := Nat.le_antisymm (hle t List.mem_cons_self) hcount
  have hpend : s'.pending = [] := by
    rw [Swap.pending, hs']
    cases rest with
    | nil => rfl
    | cons u rest' =>
        change u.done = []
        rw [SwapTask.done, if_pos (hbehind u List.mem_cons_self)]
  rw [List.append_nil]
  refine ⟨⟨ops ++ [⟨t.writes, t.sectorStart⟩], ?_⟩, ?_, ?_⟩
  · rw [hpend, hlog, List.append_nil, List.flatMap_append]
    change _ ++ t.done = _ ++ ([⟨t.writes, t.sectorStart⟩] : List IdeOp).flatMap IdeOp.calls
    rw [t.done_complete hall, List.flatMap_singleton]
  · rw [hs']
    exact fun u hu => hbehind u (List.mem_of_mem_tail hu)
  · rw [hs']
    exact fun u hu => hle u (List.mem_cons_of_mem _ hu)

/-- One sector is transferred, in the direction of the operation. -/
theorem transfer (h : IdeInv s log) {t : SwapTask} {rest : List SwapTask} {spot : ℕ}
    (hs : s.tList = t :: rest) (hcount : t.count < nSectors)
    (hspot : t.count ≠ 0 → spot = t.sectorStart) (hstart : t.count = 0 → startSector s t = spot)
    (hs' : s'.tList = { t with sectorStart := spot, count := t.count + 1 } :: rest) :
    IdeInv s' (log ++ roundCalls s t true) := by
  refine h.progress hs hs' ?_ hcount
  have hpos : ¬ t.count + 1 = 0 := by omega
  have hdone : ({ t with sectorStart := spot, count := t.count + 1 } : SwapTask).done =
      IdeCall.start t.writes spot nSectors :: List.replicate (t.count + 1) (.sector t.writes) :=
        if_neg hpos
  rw [hdone, roundCalls, if_pos (show t.count < nSectors ∧ true = true from ⟨hcount, rfl⟩),
    SwapTask.done]
  by_cases hzero : t.count = 0
  · rw [if_pos hzero, if_pos hzero, hzero, hstart hzero]
    rfl
  · rw [if_neg hzero, if_neg hzero, hspot hzero, List.replicate_succ']
    rfl

/-- The disk was not ready, in the middle of an operation. -/
theorem wait (h : IdeInv s log) {t t' : SwapTask} {rest : List SwapTask} (hs : s.tList = t :: rest)
    (hpos : t.count ≠ 0) (ht' : t' = t) (hs' : s'.tList = t' :: rest) :
    IdeInv s' (log ++ roundCalls s t false) := by
  have hcalls : roundCalls s t false = [] := by
    unfold roundCalls
    rw [if_neg hpos, if_neg (by simp)]
    rfl
  rw [hcalls]
  refine h.progress hs hs' ?_ ?_
  · rw [ht', List.append_nil]
  · rw [ht']
    exact h.count t (by rw [hs]; exact List.mem_cons_self)

end IdeInv

/-! ### Steps and runs -/

/-- What a round does to the tasklet at the head of the list. -/
theorem swapRound_head {s s' : Swap} {ready : Bool} {t : SwapTask} {rest : List SwapTask}
    (hr : swapRound s ready = Except.ok s') (hs : s.tList = t :: rest) :
    (t.count < nSectors ∧ ready = true ∧
        s'.tList = { t with sectorStart := startSector s t, count := t.count + 1 } :: rest) ∨
      (t.count < nSectors ∧ ready = false ∧
        s'.tList = { t with sectorStart := startSector s t } :: rest) ∨
      (nSectors ≤ t.count ∧ s'.tList = rest) := by
  unfold swapRound at hr
  rw [hs] at hr
  have hfptr : t.fptr = .pageOut ∨ t.fptr = .pageIn := by
    cases t.fptr with
    | pageOut => exact Or.inl rfl
    | pageIn => exact Or.inr rfl
  rcases hfptr with hf | hf
  · simp only [hf] at hr
    obtain ⟨⟨s₁, t₁, done⟩, hout, hr⟩ := bind_eq_ok.1 hr
    obtain rfl := Except.ok.inj hr
    have hsector : startSector s t = outSpot s t := by rw [startSector, hf]
    rw [hsector]
    unfold pageOut at hout
    dsimp only at hout
    by_cases hcount : t.count < nSectors
    · rw [if_pos hcount] at hout
      cases ready with
      | true =>
          obtain ⟨rfl, htail⟩ := Prod.mk.inj (Except.ok.inj hout)
          obtain ⟨rfl, rfl⟩ := Prod.mk.inj htail
          exact Or.inl ⟨hcount, rfl, rfl⟩
      | false =>
          obtain ⟨rfl, htail⟩ := Prod.mk.inj (Except.ok.inj hout)
          obtain ⟨rfl, rfl⟩ := Prod.mk.inj htail
          exact Or.inr (Or.inl ⟨hcount, rfl, rfl⟩)
    · rw [if_neg hcount] at hout
      obtain ⟨s₂, -, hout⟩ := bind_eq_ok.1 hout
      obtain ⟨rfl, htail⟩ := Prod.mk.inj (Except.ok.inj hout)
      obtain ⟨rfl, rfl⟩ := Prod.mk.inj htail
      exact Or.inr (Or.inr ⟨Nat.le_of_not_lt hcount, rfl⟩)
  · simp only [hf] at hr
    obtain rfl := Except.ok.inj hr
    have hsector : startSector s t = t.sectorStart := by rw [startSector, hf]
    rw [hsector]
    unfold pageIn
    dsimp only
    by_cases hcount : t.count < nSectors
    · rw [if_pos hcount]
      cases ready with
      | true => exact Or.inl ⟨hcount, rfl, rfl⟩
      | false => exact Or.inr (Or.inl ⟨hcount, rfl, rfl⟩)
    · rw [if_neg hcount]
      exact Or.inr (Or.inr ⟨Nat.le_of_not_lt hcount, rfl⟩)

/-- Once an operation has begun, it goes on where it was started. -/
theorem startSector_of_begun {s : Swap} {t : SwapTask} (h : t.count ≠ 0) :
    startSector s t = t.sectorStart := by
  unfold startSector
  split
  · rw [outSpot, if_neg h]
  · rfl

/-- A round. -/
theorem IdeInv.round {s s' : Swap} {log : List IdeCall} {ready : Bool} (h : IdeInv s log)
    (hready : ReadyAtStart s (.round ready)) (hr : swapRound s ready = Except.ok s') :
    IdeInv s' (log ++ ideCalls s (.round ready)) := by
  cases hs : s.tList with
  | nil =>
      have hcalls : ideCalls s (.round ready) = [] := by rw [ideCalls, hs]
      unfold swapRound at hr
      rw [hs] at hr
      obtain rfl := Except.ok.inj hr
      rw [hcalls]
      exact h.same rfl
  | cons t rest =>
      have hcalls : ideCalls s (.round ready) = roundCalls s t ready := by rw [ideCalls, hs]
      rw [hcalls]
      rcases swapRound_head hr hs with ⟨hcount, rfl, hs'⟩ | ⟨hcount, rfl, hs'⟩ | ⟨hcount, hs'⟩
      · exact h.transfer hs hcount startSector_of_begun (fun _ => rfl) hs'
      · -- the disk is ready when an operation starts, so this one has begun
        have hbegun : t.count ≠ 0 := by
          intro hzero
          exact Bool.false_ne_true (hready t (by rw [hs]; rfl) hzero)
        refine h.wait hs hbegun ?_ hs'
        rw [startSector_of_begun hbegun]
      · have hnone : roundCalls s t ready = [] := by
          have hpos : ¬ t.count = 0 := by
            intro hzero
            rw [hzero] at hcount
            exact absurd hcount (by decide)
          rw [roundCalls, if_neg hpos, if_neg fun hc => Nat.not_lt.2 hcount hc.1]
          rfl
        rw [hnone]
        exact h.finish hs hs' hcount

/-- **One step.** -/
theorem IdeInv.step {s s' : Swap} {log : List IdeCall} {op : SwapOp} (h : IdeInv s log)
    (hready : ReadyAtStart s op) (hstep : swapStep s op s') : IdeInv s' (log ++ ideCalls s op) := by
  obtain ⟨-, hexec⟩ := hstep
  cases op with
  | map e v pp perm =>
      obtain rfl := Except.ok.inj hexec
      exact h.same rfl
  | store e v off b =>
      obtain rfl := Except.ok.inj hexec
      exact h.same rfl
  | reclaim pp decoy =>
      rcases reclaim_cases hexec with ⟨-, rfl⟩ | ⟨-, k, -, rfl⟩
      · exact h.same rfl
      · exact h.enqueue rfl rfl
  | fault e v pp =>
      obtain rfl := Except.ok.inj hexec
      change IdeInv (s.swapIn (.user e v) pp) (log ++ [])
      unfold Swap.swapIn
      split
      · exact h.enqueue rfl rfl
      · exact h.same rfl
  | free e v =>
      obtain ⟨-, page, rfl⟩ := remove_cases hexec
      exact h.same rfl
  | big e j pde =>
      obtain rfl := Except.ok.inj hexec
      exact h.same rfl
  | live e b =>
      obtain rfl := Except.ok.inj hexec
      exact h.same rfl
  | round ready => exact h.round hready hexec

/-- **The protocol of the driver is respected**: for any queue of tasklets that have not begun and
any run in which the disk is ready whenever an operation starts, the driver calls are complete
operations and possibly the beginning of one more. -/
theorem ide_protocol {s t : Swap} {tr : List (Swap × SwapOp)} (hqueue : ∀ u ∈ s.tList, u.count = 0)
    (hrun : Run swapStep s tr t) (hready : Meets ReadyAtStart tr) : IdeOrder (ideLog tr) := by
  have hinv : IdeInv t (ideLog tr) := by
    induction hrun with
    | nil =>
        have hpend : s.pending = [] := by
          unfold Swap.pending
          cases hl : s.tList with
          | nil => rfl
          | cons u rest =>
              change u.done = []
              rw [SwapTask.done, if_pos (hqueue u (by rw [hl]; exact List.mem_cons_self))]
        refine ⟨⟨[], hpend.symm⟩, fun u hu => hqueue u (List.mem_of_mem_tail hu), fun u hu => ?_⟩
        rw [hqueue u hu]
        exact Nat.zero_le _
    | snoc hrun hst ih =>
        obtain ⟨hbefore, hlast⟩ := hready.of_snoc
        rw [ideLog, List.flatMap_append, List.flatMap_singleton]
        exact (ih hbefore).step hlast hst
  exact hinv.order

/-! ### Concrete runs -/

/-- The environment 2 maps a page, and its `page_out` is queued. -/
def oneToSwap : Swap where
  live := fun e => e = 2
  tables := fun e j => e = 2 && j = 0
  ptes := fun k => if k = .user 2 1 then page2pa 16 ||| 7#32 else k.boot
  pages := fun pp => if pp = 16 then ⟨1, true⟩ else ⟨0, false⟩
  mem := fun _ _ => 0
  disk := fun _ _ => 0
  ideNext := 0
  swapMap := Bitmap.empty
  tList := [⟨.pageOut, 0, 0, 16, .user 2 1⟩]

/-- The page is swapped out with one poll that finds the disk busy, and swapped in again. -/
theorem ide_protocol_swap :
    ∃ t tr, Run swapStep oneToSwap tr t ∧ Meets ReadyAtStart tr ∧ IdeOrder (ideLog tr) ∧
    tr.map Prod.snd = .round true :: .round false :: List.replicate 8 (.round true) ++
      .fault 2 1 17 ::
      List.replicate 9 (.round true) := by
  have hexec : (execAll (fun s op => if ReadyAtStart s op then swapNext s op else none) oneToSwap
      (.round true :: .round false :: List.replicate 8 (.round true) ++ .fault 2 1 17 ::
        List.replicate 9 (.round true))).isSome = true := by decide +kernel
  obtain ⟨t, hexec⟩ := Option.isSome_iff_exists.1 hexec
  obtain ⟨tr, hrun, hmeets, htr⟩ := run_of_guarded (fun _ _ _ => swapStep_of_next) hexec
  exact ⟨t, tr, hrun, hmeets, ide_protocol (by decide) hrun hmeets, htr⟩

/-- The first poll of a `page_out` finds the disk busy: the operation is started twice. -/
theorem ide_started_twice :
    ¬ ∀ (s t : Swap) (tr : List (Swap × SwapOp)), (∀ u ∈ s.tList, u.count = 0) →
    Run swapStep s tr t → IdeOrder (ideLog tr) := by
  intro h
  obtain ⟨s₁, hs₁⟩ : ∃ s₁, swapNext oneToSwap (.round false) = some s₁ := ⟨_, rfl⟩
  have hstep := swapStep_of_next hs₁
  obtain ⟨s₂, hs₂⟩ : ∃ s₂, swapNext s₁ (.round false) = some s₂ := by
    obtain rfl := Option.some.inj hs₁
    exact ⟨_, rfl⟩
  have hstep₂ := swapStep_of_next hs₂
  have hrun : Run swapStep oneToSwap [(oneToSwap, .round false), (s₁, .round false)] s₂ :=
    ((Run.nil _).snoc hstep).snoc hstep₂
  obtain ⟨ops, last, rest, hlog, hrest⟩ := h oneToSwap s₂ _ (by decide) hrun
  have hcalls : ideLog [(oneToSwap, .round false), (s₁, .round false)] =
      [.start true 1 8, .start true 1 8] := by
    obtain rfl := Option.some.inj hs₁
    decide +kernel
  rw [hcalls] at hlog
  cases ops with
  | nil =>
      -- the second call would have to be the one of a sector
      rw [List.flatMap_nil, List.nil_append] at hlog
      rw [← hlog, IdeOp.calls, List.cons_prefix_cons] at hrest
      have hsecond := hrest.2.subset List.mem_cons_self
      rw [List.mem_replicate] at hsecond
      exact nomatch hsecond.2
  | cons op ops =>
      have hlen := congrArg List.length hlog
      have hn : nSectors = 8 := rfl
      simp only [List.flatMap_cons, IdeOp.calls, List.length_append, List.length_cons,
        List.length_replicate,
        List.length_nil] at hlen
      omega

end Jos
