/-
**The queue of tasklets.**

The kernel has `NTASKS` tasklets. Those that wait for work are on `t_flist`, those that have work on
`t_list`, in the order in which they were given it. A part of the kernel that wants a page swapped
takes a tasklet off the one list, fills it in and appends it to the other; a kernel thread in
`ktask` looks for the first tasklet with work, calls its function, and moves the tasklet back when
the function reports that it is done. Both lists are threaded through the field `t_next`.

Everything that happens under one hold of `task_lock` is one step here, so a round of `ktask` is the
same whichever kernel thread makes it.

Main definitions:

* `Jos.TaskNode`, `Jos.TaskTable` — `struct tasklet` and the two lists;
* `Jos.taskAdd`, `Jos.taskGet`, `Jos.taskFree`, `Jos.taskGetFree`, `Jos.taskAddAlloc`,
  `Jos.taskInit` — the functions of `kern/pmap.c`, and `Jos.ktask` of `kern/env.c`;
* `Jos.TaskOp`, `Jos.taskStep` — the transition system, with the tasklets that were taken and not
  given back;
* `Jos.QueueInv` — its invariant.

Main results:

* `Jos.QueueInv.getFree`, `Jos.QueueInv.addAlloc`, `Jos.QueueInv.ktask` — what an operation does to
  the queue;
* `Jos.task_queue_serial` — **the queue is a queue**: no tasklet is lost or on two lists, they
  complete in the order in which they were added, and only the first one has begun.
-/

import JosKernel.Env
import JosKernel.LabelledRun
import JosKernel.LinkedList

set_option relaxedAutoImplicit false
set_option autoImplicit false

namespace Jos

open LabelledRun LinkedList

/-! ### The tasklets -/

/-- `state` of a tasklet. -/
inductive TaskState
  | free | work | working
  deriving DecidableEq, Repr

/-- What a tasklet works on: `sector_start`, `pi`, `fault_addr` and `requestor_env`. -/
structure TaskArgs where
  sectorStart : BitVec 32
  pi : Option ℕ
  faultAddr : BitVec 32
  requestorEnv : Option ℕ
  deriving DecidableEq, Repr

/-- `struct tasklet`, with no function for `0xdeadbeef`. -/
structure TaskNode where
  id : ℕ
  fptr : Option TaskletFn
  count : BitVec 32
  state : TaskState
  tNext : Option ℕ
  args : TaskArgs
  deriving DecidableEq, Repr

/-- The tasklets and the heads of their two lists. -/
structure TaskTable where
  task : ℕ → TaskNode
  tList : Option ℕ
  tFlist : Option ℕ

/-- The pointers that `task_add` and `task_get` are called with. -/
inductive TaskHead
  | tList | tFlist
  deriving DecidableEq, Repr

namespace TaskTable

/-- `*list`. -/
def head (s : TaskTable) : TaskHead → Option ℕ
  | .tList => s.tList
  | .tFlist => s.tFlist

/-- `*list = p`. -/
def setHead (s : TaskTable) (p : Option ℕ) : TaskHead → TaskTable
  | .tList => { s with tList := p }
  | .tFlist => { s with tFlist := p }

/-- The field `t_next` as a function of the tasklet. -/
def next (s : TaskTable) (t : ℕ) : Option ℕ := (s.task t).tNext

/-- Change one tasklet. -/
def modTask (s : TaskTable) (t : ℕ) (f : TaskNode → TaskNode) : TaskTable :=
  { s with task := Function.update s.task t (f (s.task t)) }

/-- `t->t_next = p`. -/
def setNext (s : TaskTable) (t : ℕ) (p : Option ℕ) : TaskTable :=
  s.modTask t fun n => { n with tNext := p }

/-- `t->state = st`. -/
def setState (s : TaskTable) (t : ℕ) (st : TaskState) : TaskTable :=
  s.modTask t fun n => { n with state := st }

end TaskTable

section Read

namespace TaskTable

variable (s : TaskTable) (t u : ℕ) (f : TaskNode → TaskNode) (p : Option ℕ) (q : TaskHead)

theorem modTask_self : (s.modTask t f).task t = f (s.task t) := Function.update_self ..

variable {t u} in
theorem modTask_of_ne (h : u ≠ t) : (s.modTask t f).task u = s.task u := Function.update_of_ne h ..

@[simp] theorem head_modTask : (s.modTask t f).head q = s.head q := by cases q <;> rfl

@[simp] theorem head_setNext : (s.setNext t p).head q = s.head q := by cases q <;> rfl

@[simp] theorem head_setHead : (s.setHead p q).head q = p := by cases q <;> rfl

@[simp] theorem task_setHead : (s.setHead p q).task = s.task := by cases q <;> rfl

@[simp] theorem next_setHead : (s.setHead p q).next = s.next := by cases q <;> rfl

variable {q} in
theorem head_setHead_of_ne {q' : TaskHead} (h : q' ≠ q) : (s.setHead p q).head q' = s.head q' := by
  cases q <;> cases q' <;> first | rfl | exact absurd rfl h

@[simp] theorem next_setNext : (s.setNext t p).next = Function.update s.next t p := by
  funext u
  by_cases hu : u = t
  · subst hu
    rw [Function.update_self, next, setNext, modTask_self]
  · rw [Function.update_of_ne hu, next, setNext, modTask_of_ne s _ hu]
    rfl

variable {f} in
/-- A change that keeps the link of the tasklet. -/
theorem next_modTask (hf : ∀ n, (f n).tNext = n.tNext) : (s.modTask t f).next = s.next := by
  funext u
  by_cases hu : u = t
  · subst hu
    rw [next, modTask_self, hf]
    rfl
  · rw [next, modTask_of_ne s _ hu]
    rfl

@[simp] theorem next_setState (st : TaskState) : (s.setState t st).next = s.next :=
  s.next_modTask t fun _ => rfl

end TaskTable

/-- What a tasklet holds besides its link. -/
def TaskNode.body (n : TaskNode) : TaskNode := { n with tNext := none }

theorem TaskTable.body_setNext (s : TaskTable) (t u : ℕ) (p : Option ℕ) :
    ((s.setNext t p).task u).body = (s.task u).body := by
  by_cases hu : u = t
  · subst hu
    rw [setNext, modTask_self]
    rfl
  · rw [setNext, modTask_of_ne s _ hu]

end Read

/-! ### The functions on the lists -/

/-- The loop of `task_add`. It appends the tasklet behind the last one and goes on to the tasklet it
has just appended, which it links to itself and unlinks again. -/
def taskAddLoop (t : ℕ) : ℕ → TaskTable → Option ℕ → Except Crash TaskTable
  | _, s, none => pure s
  | 0, _, some _ => throw .diverges
  | fuel + 1, s, some a =>
      let s := if s.next a = none then (s.setNext a (some t)).setNext t none else s
      taskAddLoop t fuel s (s.next a)

/-- `task_add(t, &list, free)`. -/
def taskAdd (s : TaskTable) (t : ℕ) (list : TaskHead) (free : Bool) : Except Crash TaskTable :=
  let ts := s.head list
  let s :=
    if free then s.modTask t fun n => { n with fptr := none, state := .free, count := 0 } else s
  let s := if s.head list = none then (s.setHead (some t) list).setNext t none else s
  taskAddLoop t (nTasklets + 1) s ts

/-- `task_get(&list)`. -/
def taskGet (s : TaskTable) (list : TaskHead) : Option ℕ × TaskTable :=
  match s.head list with
  | none => (none, s)
  | some t => (some t, s.setHead (s.next t) list)

/-- `task_free(id)`. -/
def taskFree (s : TaskTable) (id : ℕ) : Except Crash (Bool × TaskTable) :=
  match seek s.next (fun t => (s.task t).id == id) nTasklets s.tList s.tList with
  | none => throw .diverges
  | some none => pure (false, s)
  | some (some (none, _)) => throw .nullDeref
  | some (some (some oldTs, ts)) => do
      let s := s.setNext oldTs (s.next ts)
      let s := if s.tList = some ts then s.setHead (s.next ts) .tList else s
      let s ← taskAdd s ts .tFlist true
      pure (true, s)

/-- `task_get_free()`. -/
def taskGetFree (s : TaskTable) : Option ℕ × TaskTable := taskGet s .tFlist

/-- `task_add_alloc(ts)`. -/
def taskAddAlloc (s : TaskTable) (ts : ℕ) : Except Crash TaskTable := taskAdd s ts .tList false

/-- What `swap_in` and `reclaim_pgs` write into a tasklet before they add it. -/
def TaskTable.prepare (s : TaskTable) (t : ℕ) (fn : TaskletFn) (args : TaskArgs) : TaskTable :=
  s.modTask t fun n => { n with state := .work, fptr := some fn, count := 0, args := args }

/-- A tasklet as `task_init` leaves it. -/
def TaskNode.fresh (idx : ℕ) : TaskNode where
  id := idx
  fptr := none
  count := 0
  state := .free
  tNext := if idx = nTasklets - 1 then none else some (idx + 1)
  args := ⟨0, none, 0, none⟩

/-- `task_init(pp)`, on whatever the page held before. -/
def taskInit (s : TaskTable) : TaskTable :=
  (List.range nTasklets).foldl (fun s idx => s.modTask idx fun _ => TaskNode.fresh idx)
    { s with tFlist := some 0, tList := none }

/-! ### A round of a kernel thread -/

/-- What a call of `page_in(t)` or `page_out(t)` returns, and what it leaves in the tasklet. -/
structure TaskResult where
  status : Bool
  count : BitVec 32
  args : TaskArgs
  deriving DecidableEq, Repr

/-- The call of the function of a tasklet, with the status it returns; a pointer to anything else is
not called. -/
def taskCall (s : TaskTable) (t : ℕ) (f : TaskletFn → TaskNode → TaskResult) : Bool × TaskTable :=
  match (s.task t).fptr with
  | some fn =>
      let r := f fn (s.task t)
      (r.status, s.modTask t fun n => { n with count := r.count, args := r.args })
  | none => (false, s)

/-- One round of `ktask()`, where `f` stands for the two functions a tasklet can have. The answer is
the tasklet that was run, with the status it returned. -/
def ktask (s : TaskTable) (f : TaskletFn → TaskNode → TaskResult) :
    Except Crash (Option (ℕ × Bool) × TaskTable) :=
  match seek s.next (fun t => (s.task t).state == .work) nTasklets none s.tList with
  | none => throw .diverges
  | some none => pure (none, s)
  | some (some (_, t)) =>
      let s := s.setState t .working
      let tId := (s.task t).id
      let (status, s) := taskCall s t f
      match seek s.next (fun u => (s.task u).id == tId) nTasklets none s.tList with
      | none => throw .diverges
      | some none => pure (some (t, false), s)
      | some (some (_, u)) =>
          if status then do
            let (_, s) ← taskFree s (s.task u).id
            pure (some (u, true), s)
          else pure (some (u, false), s.setState u .work)

/-! ### Runs -/

/-- The tasklets, with those that were taken off the free list and are being filled in. -/
structure TaskSys where
  tab : TaskTable
  held : List ℕ

/-- What happens under one hold of `task_lock`. -/
inductive TaskOp
  /-- `task_get_free()`, with its answer. -/
  | getFree (t : Option ℕ)
  /-- `task_add_alloc(t)` of a tasklet that was filled in. -/
  | addAlloc (t : ℕ) (fn : TaskletFn) (args : TaskArgs)
  /-- A round of a kernel thread, with the tasklet it has run. -/
  | round (f : TaskletFn → TaskNode → TaskResult) (ran : Option (ℕ × Bool))

/-- One step. -/
def taskStep (s : TaskSys) : TaskOp → TaskSys → Prop
  | .getFree t, s' => taskGetFree s.tab = (t, s'.tab) ∧ s'.held = t.toList ++ s.held
  | .addAlloc t fn args, s' =>
      t ∈ s.held ∧ taskAddAlloc (s.tab.prepare t fn args) t = Except.ok s'.tab ∧
        s'.held = s.held.erase t
  | .round f ran, s' => ktask s.tab f = Except.ok (ran, s'.tab) ∧ s'.held = s.held

/-- The tasklets after `task_init`. -/
def TaskSys.start (s : TaskTable) : TaskSys := ⟨taskInit s, []⟩

/-- The tasklet a step adds to the queue. -/
def TaskOp.added : TaskOp → Option ℕ
  | .addAlloc t _ _ => some t
  | _ => none

/-- The tasklet a step completes. -/
def TaskOp.completed : TaskOp → Option ℕ
  | .round _ (some (t, true)) => some t
  | _ => none

/-! ### A tasklet is appended -/

/-- Linking a tasklet to itself and unlinking it again. -/
theorem TaskTable.setNext_setNext (s : TaskTable) (t : ℕ) (p p' : Option ℕ) :
    (s.setNext t p).setNext t p' = s.setNext t p' := by
  simp only [setNext, modTask, Function.update_self, Function.update_idem]

/-- **The loop of `task_add`** on a list that ends with the tasklet `b`. -/
theorem taskAddLoop_eq {t b : ℕ} : ∀ {l : List ℕ} {fuel : ℕ} {s : TaskTable} {p : Option ℕ},
    Chain s.next p (l ++ [b]) → t ∉ l ++ [b] → l.length + 2 ≤ fuel →
      taskAddLoop t fuel s p = Except.ok ((s.setNext b (some t)).setNext t none) := by
  intro l
  induction l with
  | nil =>
      intro fuel s p h ht hfuel
      obtain ⟨rfl, hb⟩ := h
      have hb : s.next b = none := hb
      have hne : b ≠ t := by rintro rfl; exact ht (by simp)
      obtain ⟨k, rfl⟩ : ∃ k, fuel = k + 2 := ⟨fuel - 2, by simp at hfuel; omega⟩
      have hnext : ((s.setNext b (some t)).setNext t none).next b = some t := by
        rw [TaskTable.next_setNext, Function.update_of_ne hne, TaskTable.next_setNext,
          Function.update_self]
      have hlast : ((s.setNext b (some t)).setNext t none).next t = none := by
        rw [TaskTable.next_setNext, Function.update_self]
      rw [taskAddLoop, if_pos hb]
      -- the tasklet that was appended is the next one the loop looks at
      rw [hnext, taskAddLoop, if_pos hlast]
      simp only [TaskTable.setNext_setNext]
      rw [hlast, taskAddLoop]
      rfl
  | cons a l ih =>
      intro fuel s p h ht hfuel
      obtain ⟨rfl, h⟩ := h
      obtain ⟨k, rfl⟩ : ∃ k, fuel = k + 1 := ⟨fuel - 1, by omega⟩
      have hne : s.next a ≠ none := by
        intro hnone
        have hnil := h.eq_nil_iff.2 hnone
        simp at hnil
      simp only [List.cons_append, List.mem_cons, not_or] at ht
      rw [taskAddLoop, if_neg hne]
      exact ih h ht.2 (by simp at hfuel; omega)

/-- **A tasklet has been appended to a list**: the other list and what the tasklets hold besides
their links are as before, but for the tasklet itself, which is changed by `g`. -/
structure Appended (s s' : TaskTable) (q : TaskHead) (l : List ℕ) (t : ℕ)
    (g : TaskNode → TaskNode) :
    Prop where
  chain : Chain s'.next (s'.head q) (l ++ [t])
  other : ∀ q' ≠ q, s'.head q' = s.head q'
  next : ∀ u, u ∉ l → u ≠ t → s'.next u = s.next u
  rest : ∀ u ≠ t, (s'.task u).body = (s.task u).body
  self : (s'.task t).body = (g (s.task t)).body

/-- What `task_add` does to the tasklet when its last argument is 1. -/
def TaskNode.released (free : Bool) (n : TaskNode) : TaskNode :=
  if free then { n with fptr := none, state := .free, count := 0 } else n

/-- **`task_add`.** -/
theorem taskAdd_appended {s : TaskTable} {q : TaskHead} {l : List ℕ} {t : ℕ} (free : Bool)
    (h : Chain s.next (s.head q) l) (ht : t ∉ l) (hlen : l.length < nTasklets) :
    ∃ s', taskAdd s t q free = Except.ok s' ∧ Appended s s' q l t (TaskNode.released free) := by
  obtain ⟨s₁, hs₁⟩ : ∃ s₁, s₁ = s.modTask t (TaskNode.released free) := ⟨_, rfl⟩
  have hself : s₁.task t = (s.task t).released free := by rw [hs₁, TaskTable.modTask_self]
  have hrest : ∀ u ≠ t, s₁.task u = s.task u := fun u hu => by rw [hs₁, s.modTask_of_ne _ hu]
  have hhead : ∀ q', s₁.head q' = s.head q' := fun q' => by rw [hs₁, TaskTable.head_modTask]
  have hnext : s₁.next = s.next := by
    rw [hs₁]
    refine s.next_modTask t fun n => ?_
    cases free <;> rfl
  have hdef : taskAdd s t q free =
      taskAddLoop t (nTasklets + 1) (if s₁.head q = none then (s₁.setHead (some t) q).setNext t none
        else s₁) (s.head q) := by
    rw [hs₁]
    cases free with
    | true => rfl
    | false =>
        have hsame : s.modTask t (TaskNode.released false) = s :=
          congrArg (fun g => { s with task := g }) (Function.update_eq_self ..)
        rw [hsame]
        rfl
  have hchain : Chain s₁.next (s.head q) l := by rw [hnext]; exact h
  rw [hdef, hhead]
  rcases List.eq_nil_or_concat l with rfl | ⟨l, b, rfl⟩
  · -- the list was empty
    have hnone : s.head q = none := hchain
    rw [if_pos hnone, hnone, taskAddLoop]
    refine ⟨_, rfl, ?_, ?_, ?_, ?_, ?_⟩
    · simp
    · intro q' hq
      rw [TaskTable.head_setNext, TaskTable.head_setHead_of_ne _ _ hq, hhead]
    · intro u _ hu
      rw [TaskTable.next_setNext, Function.update_of_ne hu, TaskTable.next_setHead, hnext]
    · intro u hu
      rw [TaskTable.body_setNext, TaskTable.task_setHead, hrest u hu]
    · rw [TaskTable.body_setNext, TaskTable.task_setHead, hself]
  · rw [List.concat_eq_append] at hchain ht hlen ⊢
    have hsome : ¬ s.head q = none := by
      intro hnone
      rw [hnone, chain_none] at hchain
      simp at hchain
    have hnb : b ≠ t := by rintro rfl; exact ht (by simp)
    rw [if_neg hsome, taskAddLoop_eq hchain ht (by simp at hlen; omega)]
    refine ⟨_, rfl, ?_, ?_, ?_, ?_, ?_⟩
    · have hlast : s₁.next b = none := hchain.next_of_append
      have hbehind := hchain.insertBehind ht
      rw [hlast, Function.update_comm hnb.symm] at hbehind
      simpa [hhead] using hbehind
    · intro q' _
      simp [hhead]
    · intro u hu hut
      have hub : u ≠ b := by rintro rfl; exact hu (by simp)
      simp [Function.update_of_ne hut, Function.update_of_ne hub, hnext]
    · intro u hu
      rw [TaskTable.body_setNext, TaskTable.body_setNext, hrest u hu]
    · rw [TaskTable.body_setNext, TaskTable.body_setNext, hself]

/-- **`task_free`** of the first tasklet of the queue. -/
theorem taskFree_head {s : TaskTable} {t : ℕ} {rest f : List ℕ}
    (hl : Chain s.next s.tList (t :: rest)) (hf : Chain s.next s.tFlist f) (hid : (s.task t).id = t)
    (ht : t ∉ f) (hapart : ∀ u ∈ rest, u ∉ f) (hlen : f.length < nTasklets) :
    ∃ s', taskFree s t = Except.ok (true, s') ∧ Chain s'.next s'.tList rest ∧
      Chain s'.next s'.tFlist (f ++ [t]) ∧ (∀ u ≠ t, (s'.task u).body = (s.task u).body) ∧
      (s'.task t).body = ((s.task t).released true).body := by
  have hhead : s.tList = some t := hl.1
  have hnd := List.nodup_cons.1 hl.nodup
  -- the head is its own predecessor, and the link it is given is the one it has
  obtain ⟨s₁, hs₁⟩ : ∃ s₁, s₁ = (s.setNext t (s.next t)).setHead (s.next t) .tList := ⟨_, rfl⟩
  have hnext : s₁.next = s.next := by
    rw [hs₁, TaskTable.next_setHead, TaskTable.next_setNext]
    exact Function.update_eq_self ..
  have hbody : ∀ u, (s₁.task u).body = (s.task u).body := by
    intro u
    rw [hs₁, TaskTable.task_setHead, TaskTable.body_setNext]
  have hflist : Chain s₁.next (s₁.head .tFlist) f := by
    rw [hnext, hs₁]
    exact hf
  obtain ⟨s', hadd, happ⟩ := taskAdd_appended true hflist ht hlen
  have hdef : taskFree s t = taskAdd s₁ t .tFlist true >>= fun s => pure (true, s) := by
    have hset : (s.setNext t (s.next t)).next t = s.next t := by
      rw [TaskTable.next_setNext, Function.update_self]
    have hsame : (s.setNext t (s.next t)).tList = some t := hhead
    have hfound : seek s.next (fun u => (s.task u).id == t) nTasklets (some t) (some t) =
        some (some (some t, t)) := by
      rw [nTasklets, seek, if_pos (by simpa using hid)]
    rw [taskFree, hhead, hfound]
    dsimp only
    rw [if_pos hsame, hset, ← hs₁]
  refine ⟨s', by rw [hdef, hadd]; rfl, ?_, happ.chain, ?_, ?_⟩
  · have hlist : s'.tList = s.next t := by
      refine (happ.other .tList (by simp)).trans ?_
      rw [hs₁, TaskTable.head_setHead]
    rw [hlist]
    refine hl.2.congr fun u hu => ?_
    rw [happ.next u (hapart u hu) (by rintro rfl; exact hnd.1 hu), hnext]
  · intro u hu
    rw [happ.rest u hu, hbody]
  · have hself := happ.self
    have hrel : ∀ n : TaskNode, (n.released true).body = (n.body.released true).body := fun _ => rfl
    rw [hself, hrel, hbody, ← hrel]

/-! ### The invariant -/

/-- **The invariant of the queue**: the tasklets of `l` have work, those of `f` are free, and the
others are held by someone who fills them in; only the first one with work has begun. -/
structure QueueInv (s : TaskSys) (l f : List ℕ) : Prop where
  list : Chain s.tab.next s.tab.tList l
  flist : Chain s.tab.next s.tab.tFlist f
  parts : (l ++ f ++ s.held).Perm (List.range nTasklets)
  id : ∀ t < nTasklets, (s.tab.task t).id = t
  work : ∀ t ∈ l, (s.tab.task t).state = .work
  begun : ∀ t < nTasklets, (s.tab.task t).count ≠ 0 → l.head? = some t

namespace QueueInv

variable {s : TaskSys} {l f : List ℕ}

theorem nodup (h : QueueInv s l f) : (l ++ f ++ s.held).Nodup :=
  h.parts.nodup_iff.2 List.nodup_range

theorem mem_iff (h : QueueInv s l f) {t : ℕ} : t < nTasklets ↔ t ∈ l ∨ t ∈ f ∨ t ∈ s.held := by
  rw [← List.mem_range, ← h.parts.mem_iff, List.mem_append, List.mem_append, or_assoc]

theorem length_eq (h : QueueInv s l f) : l.length + f.length + s.held.length = nTasklets := by
  have hlen := h.parts.length_eq
  rwa [List.length_append, List.length_append, List.length_range] at hlen

/-- A tasklet on the queue is not free. -/
theorem not_mem_flist (h : QueueInv s l f) {t : ℕ} (ht : t ∈ l) : t ∉ f := by
  intro hf
  have hnd := (List.nodup_append.1 (List.nodup_append.1 h.nodup).1).2.2
  exact hnd t ht t hf rfl

/-- A tasklet that is held is on neither list. -/
theorem not_mem_of_held (h : QueueInv s l f) {t : ℕ} (ht : t ∈ s.held) : t ∉ l ∧ t ∉ f := by
  have hnd := (List.nodup_append.1 h.nodup).2.2
  exact ⟨fun hl => hnd t (List.mem_append_left f hl) t ht rfl,
    fun hf => hnd t (List.mem_append_right l hf) t ht rfl⟩

/-! ### Taking a free tasklet -/

/-- **`task_get_free()`**: the first free tasklet is taken. -/
theorem getFree (h : QueueInv s l f) {t : Option ℕ} {s' : TaskSys}
    (hst : taskStep s (.getFree t) s') :
    ∃ f', QueueInv s' l f' := by
  obtain ⟨tab, held⟩ := s'
  obtain ⟨hget, hheld⟩ := hst
  simp only at hget hheld
  rw [taskGetFree, taskGet] at hget
  cases hf : f with
  | nil =>
      have hnone : s.tab.head .tFlist = none := by
        have hflist := h.flist
        rw [hf] at hflist
        exact hflist
      rw [hnone] at hget
      cases hget
      subst hheld
      exact ⟨f, h⟩
  | cons a f' =>
      have hflist := h.flist
      rw [hf] at hflist
      have hsome : s.tab.head .tFlist = some a := hflist.1
      rw [hsome] at hget
      cases hget
      subst hheld
      refine ⟨f', h.list, hflist.2, ?_, h.id, h.work, h.begun⟩
      have hparts := h.parts
      rw [hf] at hparts
      refine List.Perm.trans ?_ hparts
      simp only [Option.toList_some, List.append_assoc, List.cons_append, List.nil_append]
      exact (List.perm_middle.append_left l)

/-! ### Adding a tasklet to the queue -/

/-- A tasklet that is filled in keeps its link. -/
theorem next_prepare (s : TaskTable) (t : ℕ) (fn : TaskletFn) (args : TaskArgs) :
    (s.prepare t fn args).next = s.next := s.next_modTask t fun _ => rfl

/-- **`task_add_alloc(t)`** ends, and the tasklet is the last one of the queue. -/
theorem addAlloc (h : QueueInv s l f) {t : ℕ} (ht : t ∈ s.held) (fn : TaskletFn) (args : TaskArgs) :
    ∃ tab, taskAddAlloc (s.tab.prepare t fn args) t = Except.ok tab ∧
      QueueInv ⟨tab, s.held.erase t⟩ (l ++ [t]) f := by
  obtain ⟨htl, htf⟩ := h.not_mem_of_held ht
  have hlist : Chain (s.tab.prepare t fn args).next ((s.tab.prepare t fn args).head .tList) l := by
    rw [next_prepare]
    exact h.list
  have hheld := List.length_pos_of_mem ht
  have hlen := h.length_eq
  obtain ⟨tab, hadd, happ⟩ := taskAdd_appended false hlist htl (by omega)
  refine ⟨tab, hadd, ?_⟩
  have hrest : ∀ u ≠ t, (tab.task u).body = (s.tab.task u).body := by
    intro u hu
    rw [happ.rest u hu, TaskTable.prepare, TaskTable.modTask_of_ne _ _ hu]
  have hself : (tab.task t).body = { (s.tab.task t) with
      state := .work, fptr := some fn, count := 0, args := args, tNext := none } := by
    rw [happ.self, TaskTable.prepare, TaskTable.modTask_self]
    rfl
  refine ⟨happ.chain, ?_, ?_, ?_, ?_, ?_⟩
  · have hhead : tab.tFlist = s.tab.tFlist := happ.other .tFlist (by simp)
    rw [hhead]
    refine h.flist.congr fun u hu => ?_
    have hul : u ∉ l := fun hul => h.not_mem_flist hul hu
    rw [happ.next u hul (by rintro rfl; exact htf hu), next_prepare]
  · refine List.Perm.trans ?_ h.parts
    have hperm : (t :: s.held.erase t).Perm s.held := (List.perm_cons_erase ht).symm
    calc (l ++ [t] ++ f ++ s.held.erase t).Perm (l ++ f ++ t :: s.held.erase t) := by
          simp only [List.append_assoc, List.cons_append, List.nil_append]
          exact List.perm_middle.symm.append_left l
      _ |>.Perm (l ++ f ++ s.held) := hperm.append_left _
  · intro u hu
    by_cases hut : u = t
    · subst hut
      exact (congrArg TaskNode.id hself).trans (h.id u hu)
    · exact (congrArg TaskNode.id (hrest u hut)).trans (h.id u hu)
  · intro u hu
    rcases List.mem_append.1 hu with hul | hu
    · have hut : u ≠ t := by rintro rfl; exact htl hul
      exact (congrArg TaskNode.state (hrest u hut)).trans (h.work u hul)
    · rw [List.mem_singleton] at hu
      subst hu
      exact congrArg TaskNode.state hself
  · intro u hu hcount
    by_cases hut : u = t
    · subst hut
      exact absurd (congrArg TaskNode.count hself) hcount
    · have hold := h.begun u hu fun hzero =>
        hcount ((congrArg TaskNode.count (hrest u hut)).trans hzero)
      rw [List.head?_append, hold]
      rfl

/-! ### A round -/

/-- The tasklets while the function of the tasklet `t` has been called. -/
structure Called (s s' : TaskTable) (t : ℕ) : Prop where
  next : s'.next = s.next
  tList : s'.tList = s.tList
  tFlist : s'.tFlist = s.tFlist
  id : (s'.task t).id = (s.task t).id
  rest : ∀ u ≠ t, s'.task u = s.task u

theorem taskCall_called (s : TaskTable) (t : ℕ) (g : TaskletFn → TaskNode → TaskResult) :
    Called s (taskCall (s.setState t .working) t g).2 t := by
  have hstate : Called s (s.setState t .working) t :=
    ⟨s.next_setState t _, rfl, rfl, by rw [TaskTable.setState, TaskTable.modTask_self],
      fun u hu => s.modTask_of_ne _ hu⟩
  unfold taskCall
  split
  · rename_i fn _
    dsimp only
    refine ⟨?_, rfl, rfl, ?_, ?_⟩
    · rw [← hstate.next]
      exact TaskTable.next_modTask _ _ fun _ => rfl
    · rw [← hstate.id, TaskTable.modTask_self]
    · intro u hu
      rw [TaskTable.modTask_of_ne _ _ hu, hstate.rest u hu]
  · exact hstate

variable {rest : List ℕ} {t : ℕ} {tab : TaskTable}

/-- A tasklet whose function wants another call stays at the head of the queue. -/
theorem kept (h : QueueInv s (t :: rest) f) (hcall : Called s.tab tab t) :
    QueueInv ⟨tab.setState t .work, s.held⟩ (t :: rest) f := by
  have hnext : (tab.setState t .work).next = s.tab.next :=
    (tab.next_setState t _).trans hcall.next
  have hself : (tab.setState t .work).task t = { tab.task t with state := .work } := by
    rw [TaskTable.setState, TaskTable.modTask_self]
  have hrest : ∀ u ≠ t, (tab.setState t .work).task u = s.tab.task u := by
    intro u hu
    rw [TaskTable.setState, TaskTable.modTask_of_ne _ _ hu, hcall.rest u hu]
  refine ⟨?_, ?_, h.parts, ?_, ?_, ?_⟩
  · change Chain (tab.setState t .work).next tab.tList _
    rw [hnext, hcall.tList]
    exact h.list
  · change Chain (tab.setState t .work).next tab.tFlist _
    rw [hnext, hcall.tFlist]
    exact h.flist
  · intro u hu
    by_cases hut : u = t
    · subst hut
      rw [hself]
      exact hcall.id.trans (h.id u hu)
    · rw [hrest u hut]
      exact h.id u hu
  · intro u hu
    by_cases hut : u = t
    · subst hut
      rw [hself]
    · rw [hrest u hut]
      exact h.work u hu
  · intro u hu hcount
    by_cases hut : u = t
    · rw [hut]
      rfl
    · rw [hrest u hut] at hcount
      exact h.begun u hu hcount

/-- A tasklet whose function is done goes from the head of the queue to the end of the free
list. -/
theorem freed (h : QueueInv s (t :: rest) f) (hcall : Called s.tab tab t) :
    ∃ tab', taskFree tab t = Except.ok (true, tab') ∧
      QueueInv ⟨tab', s.held⟩ rest (f ++ [t]) := by
  have htn : t < nTasklets := h.mem_iff.2 (Or.inl (by simp))
  have hid : (tab.task t).id = t := hcall.id.trans (h.id t htn)
  have hlen := h.length_eq
  obtain ⟨tab', hfree, hlist, hflist, hrest, hself⟩ := taskFree_head (f := f)
    (by rw [hcall.next, hcall.tList]; exact h.list)
    (by rw [hcall.next, hcall.tFlist]; exact h.flist) hid (h.not_mem_flist (by simp))
    (fun u hu => h.not_mem_flist (List.mem_cons_of_mem t hu)) (by simp at hlen; omega)
  refine ⟨tab', hfree, hlist, hflist, ?_, ?_, ?_, ?_⟩
  · refine List.Perm.trans ?_ h.parts
    simp only [List.append_assoc, List.cons_append, List.nil_append]
    refine List.Perm.trans ?_ List.perm_middle
    exact List.perm_middle.append_left rest
  · intro u hu
    by_cases hut : u = t
    · subst hut
      exact (congrArg TaskNode.id hself).trans hid
    · refine (congrArg TaskNode.id (hrest u hut)).trans ?_
      rw [hcall.rest u hut]
      exact h.id u hu
  · intro u hu
    have hut : u ≠ t := by
      rintro rfl
      exact (List.nodup_cons.1 h.list.nodup).1 hu
    refine (congrArg TaskNode.state (hrest u hut)).trans ?_
    rw [hcall.rest u hut]
    exact h.work u (List.mem_cons_of_mem t hu)
  · intro u hu hcount
    by_cases hut : u = t
    · subst hut
      exact absurd (congrArg TaskNode.count hself) hcount
    · -- no other tasklet has begun
      have hzero := congrArg TaskNode.count (hrest u hut)
      rw [hcall.rest u hut] at hzero
      have hfirst := h.begun u hu fun hz => hcount (hzero.trans hz)
      exact absurd (Option.some_inj.1 hfirst).symm hut

/-- Both searches of `ktask` stop at the head of the queue: the one for a tasklet with work, and
the one that looks the tasklet up again by its id. -/
theorem ktask_head (h : QueueInv s (t :: rest) f) (g : TaskletFn → TaskNode → TaskResult)
    {r : Bool × TaskTable} (hr : taskCall (s.tab.setState t .working) t g = r) :
    ktask s.tab g = if r.1 then taskFree r.2 t >>= fun p => pure (some (t, true), p.2)
      else pure (some (t, false), r.2.setState t .work) := by
  have hcall : Called s.tab r.2 t := by rw [← hr]; exact taskCall_called s.tab t g
  have hhead : s.tab.tList = some t := h.list.1
  have hidt : (s.tab.task t).id = t := h.id t (h.mem_iff.2 (Or.inl (by simp)))
  have hid : (r.2.task t).id = t := hcall.id.trans hidt
  have hfirst : seek s.tab.next (fun u => (s.tab.task u).state == .work) nTasklets none
      (some t) = some (some (none, t)) := by
    rw [nTasklets, seek, if_pos (by simpa using h.work t (by simp))]
  have hagain : seek r.2.next (fun u => (r.2.task u).id == t) nTasklets none (some t) =
      some (some (none, t)) := by
    rw [nTasklets, seek, if_pos (by simpa using hid)]
  have htId : ((s.tab.setState t .working).task t).id = t := by
    rw [TaskTable.setState, TaskTable.modTask_self]
    exact hidt
  have hlist : r.2.tList = some t := hcall.tList.trans hhead
  rw [ktask, hhead, hfirst]
  dsimp only
  rw [htId]
  rw [hr, hlist, hagain]
  dsimp only
  rw [hid]

/-- **A round of `ktask`** runs the first tasklet of the queue, if there is one, and frees it when
it is done. -/
theorem ktask_cases (h : QueueInv s l f) (g : TaskletFn → TaskNode → TaskResult) :
    (l = [] ∧ ktask s.tab g = Except.ok (none, s.tab)) ∨
      ∃ t rest tab, l = t :: rest ∧
        ((ktask s.tab g = Except.ok (some (t, false), tab) ∧ QueueInv ⟨tab, s.held⟩ l f) ∨
          (ktask s.tab g = Except.ok (some (t, true), tab) ∧
            QueueInv ⟨tab, s.held⟩ rest (f ++ [t]))) := by
  cases l with
  | nil =>
      refine Or.inl ⟨rfl, ?_⟩
      have hnone : s.tab.tList = none := h.list
      rw [ktask, hnone]
      rfl
  | cons t rest =>
      refine Or.inr ?_
      obtain ⟨r, hr⟩ : ∃ r, taskCall (s.tab.setState t .working) t g = r := ⟨_, rfl⟩
      have hcall : Called s.tab r.2 t := by rw [← hr]; exact taskCall_called s.tab t g
      have hround := h.ktask_head g hr
      cases hstatus : r.1 with
      | false =>
          rw [hstatus, if_neg (by simp)] at hround
          exact ⟨t, rest, _, rfl, Or.inl ⟨hround, h.kept hcall⟩⟩
      | true =>
          rw [hstatus, if_pos rfl] at hround
          obtain ⟨tab, hfree, hinv⟩ := h.freed hcall
          rw [hfree] at hround
          exact ⟨t, rest, tab, rfl, Or.inr ⟨hround, hinv⟩⟩

end QueueInv

/-! ### Whole runs -/

/-- The tasklets added along a run, in order. -/
def added (tr : List (TaskSys × TaskOp)) : List ℕ := tr.filterMap fun p => p.2.added

/-- The tasklets completed along a run, in order. -/
def completed (tr : List (TaskSys × TaskOp)) : List ℕ := tr.filterMap fun p => p.2.completed

/-- The free list of the first `n` tasklets from `k` on. -/
theorem chain_fresh (next : ℕ → Option ℕ) (n : ℕ)
    (h : ∀ k ≤ n, next k = if k = n then none else some (k + 1)) :
    ∀ j ≤ n, Chain next (some (n - j)) (List.range' (n - j) (j + 1)) := by
  intro j
  induction j with
  | zero =>
      intro _
      rw [List.range'_succ]
      exact ⟨rfl, by rw [h _ (by omega), if_pos (by omega)]; rfl⟩
  | succ j ih =>
      intro hj
      rw [List.range'_succ]
      refine ⟨rfl, ?_⟩
      have hsucc : n - (j + 1) + 1 = n - j := by omega
      rw [h _ (by omega), if_neg (by omega), hsucc]
      exact ih (by omega)

/-- The loop of `task_init`. -/
theorem foldl_fresh (s : TaskTable) (n : ℕ) :
    (List.range n).foldl (fun s idx => s.modTask idx fun _ => TaskNode.fresh idx) s =
      { s with task := fun t => if t < n then TaskNode.fresh t else s.task t } := by
  induction n with
  | zero => simp
  | succ n ih =>
      rw [List.range_succ, List.foldl_append, ih, List.foldl_cons, List.foldl_nil,
        TaskTable.modTask]
      congr 1
      funext t
      by_cases ht : t = n
      · subst ht
        rw [Function.update_self, if_pos (Nat.lt_succ_self t)]
      · rw [Function.update_of_ne ht]
        dsimp only
        by_cases hlt : t < n
        · rw [if_pos hlt, if_pos (by omega)]
        · rw [if_neg hlt, if_neg (by omega)]

/-- All tasklets are free at the beginning. -/
theorem queueInv_start (s : TaskTable) : QueueInv (TaskSys.start s) [] (List.range nTasklets) := by
  have htask : ∀ t < nTasklets, (taskInit s).task t = TaskNode.fresh t := by
    intro t ht
    rw [taskInit, foldl_fresh]
    exact if_pos ht
  have hlist : (taskInit s).tList = none := by rw [taskInit, foldl_fresh]
  have hflist : (taskInit s).tFlist = some 0 := by rw [taskInit, foldl_fresh]
  have hnext : ∀ k ≤ nTasklets - 1, (taskInit s).next k = if k = nTasklets - 1 then none
      else some (k + 1) := by
    intro k hk
    rw [TaskTable.next, htask k (by simp only [nTasklets] at *; omega)]
    rfl
  refine ⟨hlist, ?_, ?_, ?_, by simp, ?_⟩
  · have hchain := chain_fresh _ (nTasklets - 1) hnext (nTasklets - 1) (Nat.le_refl _)
    rw [Nat.sub_self, ← hflist] at hchain
    rw [List.range_eq_range']
    exact hchain
  · simp [TaskSys.start]
  · intro t ht
    rw [TaskSys.start, htask t ht]
    rfl
  · intro t ht hcount
    rw [TaskSys.start, htask t ht] at hcount
    exact absurd rfl hcount

/-- One step of the system: what it adds comes to the end of the queue, and what it completes was
the first of it. -/
theorem QueueInv.step {s s' : TaskSys} {l f : List ℕ} {op : TaskOp} (h : QueueInv s l f)
    (hst : taskStep s op s') :
    ∃ l' f', QueueInv s' l' f' ∧ l ++ op.added.toList = op.completed.toList ++ l' := by
  cases op with
  | getFree t =>
      obtain ⟨f', hinv⟩ := h.getFree hst
      exact ⟨l, f', hinv, by simp [TaskOp.added, TaskOp.completed]⟩
  | addAlloc t fn args =>
      obtain ⟨ht, hadd, hheld⟩ := hst
      obtain ⟨tab, htab, hinv⟩ := h.addAlloc ht fn args
      obtain ⟨tab', held⟩ := s'
      simp only at hadd hheld
      subst hheld
      cases htab.symm.trans hadd
      exact ⟨l ++ [t], f, hinv, by simp [TaskOp.added, TaskOp.completed]⟩
  | round g ran =>
      obtain ⟨hround, hheld⟩ := hst
      obtain ⟨tab', held⟩ := s'
      simp only at hround hheld
      subst hheld
      rcases h.ktask_cases g with ⟨rfl, hk⟩ | ⟨t, rest, tab, rfl, ⟨hk, hinv⟩ | ⟨hk, hinv⟩⟩
      · cases hk.symm.trans hround
        exact ⟨[], f, h, by simp [TaskOp.added, TaskOp.completed]⟩
      · cases hk.symm.trans hround
        exact ⟨_, f, hinv, by simp [TaskOp.added, TaskOp.completed]⟩
      · cases hk.symm.trans hround
        exact ⟨rest, _, hinv, by simp [TaskOp.added, TaskOp.completed]⟩

theorem filterMap_single {α β : Type} (g : α → Option β) (a : α) :
    [a].filterMap g = (g a).toList := by
  cases h : g a <;> simp [h]

/-- **The queue is a queue.** In every run the lists and the tasklets that are held share out the
`NTASKS` tasklets; what was added is what is completed, in the same order, followed by what is on
`t_list`; only the first of `t_list` has begun; and the operations that can come next end. -/
theorem task_queue_serial {s₀ : TaskTable} {s : TaskSys} {tr : List (TaskSys × TaskOp)}
    (hr : Run taskStep (TaskSys.start s₀) tr s) :
    ∃ l f, Chain s.tab.next s.tab.tList l ∧ Chain s.tab.next s.tab.tFlist f ∧
      (l ++ f ++ s.held).Perm (List.range nTasklets) ∧ (l ++ f ++ s.held).Nodup ∧
      added tr = completed tr ++ l ∧
      (∀ t < nTasklets, (s.tab.task t).count ≠ 0 → s.tab.tList = some t) ∧
      (∀ t ∈ s.held, ∀ fn args, ∃ tab, taskAddAlloc (s.tab.prepare t fn args) t = Except.ok tab) ∧
      ∀ g, ∃ ran tab, ktask s.tab g = Except.ok (ran, tab) := by
  have hinv : ∃ l f, QueueInv s l f ∧ added tr = completed tr ++ l := by
    induction hr with
    | nil => exact ⟨[], _, queueInv_start s₀, rfl⟩
    | snoc _ hst ih =>
        obtain ⟨l, f, h, hsplit⟩ := ih
        obtain ⟨l', f', h', hstep⟩ := h.step hst
        refine ⟨l', f', h', ?_⟩
        simp only [added, completed, List.filterMap_append] at hsplit ⊢
        rw [hsplit, List.append_assoc, List.append_assoc]
        rw [filterMap_single, filterMap_single]
        exact congrArg _ hstep
  obtain ⟨l, f, h, hsplit⟩ := hinv
  refine ⟨l, f, h.list, h.flist, h.parts, h.nodup, hsplit, ?_, ?_, ?_⟩
  · intro t ht hcount
    rw [h.list.head_eq, h.begun t ht hcount]
  · intro t ht fn args
    obtain ⟨tab, hadd, -⟩ := h.addAlloc ht fn args
    exact ⟨tab, hadd⟩
  · intro g
    rcases h.ktask_cases g with ⟨-, hk⟩ | ⟨t, rest, tab, -, ⟨hk, -⟩ | ⟨hk, -⟩⟩
    · exact ⟨_, _, hk⟩
    · exact ⟨_, _, hk⟩
    · exact ⟨_, _, hk⟩

/-- The first tasklet is taken and added: it is the queue. -/
theorem task_queue_serial_first :
    ∃ tr s, Run taskStep (TaskSys.start ⟨fun _ => TaskNode.fresh 0, none, none⟩) tr s ∧
      added tr = [0] ∧ Chain s.tab.next s.tab.tList [0] := by
  obtain ⟨s₀, hs₀⟩ : ∃ s₀ : TaskTable, s₀ = ⟨fun _ => TaskNode.fresh 0, none, none⟩ := ⟨_, rfl⟩
  have hget : taskStep (TaskSys.start s₀) (.getFree (some 0))
      ⟨(taskGetFree (taskInit s₀)).2, [0]⟩ := by
    have hhead : (taskInit s₀).head .tFlist = some 0 := (queueInv_start s₀).flist.head_eq.trans rfl
    refine ⟨?_, rfl⟩
    rw [TaskSys.start, taskGetFree, taskGet, hhead]
  obtain ⟨f, hinv⟩ := (queueInv_start s₀).getFree hget
  obtain ⟨tab, hadd, -⟩ := hinv.addAlloc (t := 0) (by simp) .pageIn ⟨0, none, 0, none⟩
  have hput : taskStep ⟨(taskGetFree (taskInit s₀)).2, [0]⟩ (.addAlloc 0 .pageIn ⟨0, none, 0, none⟩)
      ⟨tab, [0].erase 0⟩ := ⟨by simp, hadd, rfl⟩
  have hrun := ((Run.nil (TaskSys.start s₀)).snoc hget).snoc hput
  obtain ⟨l, f, hl, -, -, -, hsplit, -⟩ := task_queue_serial hrun
  have hone : l = [0] := hsplit.symm
  subst hs₀
  exact ⟨_, _, hrun, rfl, hone ▸ hl⟩

end Jos
