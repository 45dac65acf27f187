/-
**Singly linked lists threaded through a table of records.**

A C program keeps its lists as a head pointer and one `next` field in every record.  Here a record
is named by an index of some type `α`, the field is a function `next : α → Option α` with `none`
for `NULL`, and a list is whatever following the field from the head pointer visits.

Main definitions:

* `LinkedList.Chain` — the nodes visited from a pointer, up to and including the `NULL` at the end;
* `LinkedList.Visits` — a walk from a pointer visits a node, whether it ends or not;
* `LinkedList.Seg` — the nodes visited from one pointer up to another;
* `LinkedList.seek` — the loop `while (p) { if (found p) break; old = p; p = p->next; }`, with fuel
  bounding the number of nodes it looks at;
* `LinkedList.behind` — the same loop where only the node it has passed last is wanted.

Main results:

* `LinkedList.Chain.unique`, `LinkedList.Chain.nodup` — a pointer starts at most one chain, and a
  chain that ends in `NULL` visits no node twice;
* `LinkedList.Chain.push`, `LinkedList.Chain.pop`, `LinkedList.Chain.unlink` — the three ways a
  list is edited: a new head, the head taken away, and a node taken out from behind its
  predecessor;
* `LinkedList.Chain.insertBehind`, `LinkedList.Chain.skip`, `LinkedList.Chain.cut`,
  `LinkedList.Chain.remove` — a node put behind another, a node skipped, the rest of a list cut off,
  and a node moved elsewhere;
* `LinkedList.Chain.seek_cases`, `LinkedList.Chain.behind_place` — what the search loops return on a
  chain.
-/

import Mathlib.Data.List.Nodup
import Mathlib.Logic.Function.Basic
import Mathlib.Tactic.Common

set_option relaxedAutoImplicit false
set_option autoImplicit false

namespace LinkedList

variable {α : Type*}

/-! ### Chains -/

/-- **A chain**: following `next` from the pointer `p` visits the nodes of the list in order and
then finds `NULL`. -/
def Chain (next : α → Option α) : Option α → List α → Prop
  | p, [] => p = none
  | p, a :: l => p = some a ∧ Chain next (next a) l

@[simp] theorem chain_nil {next : α → Option α} {p : Option α} :
    Chain next p [] ↔ p = none := Iff.rfl

@[simp] theorem chain_cons {next : α → Option α} {p : Option α} {a : α} {l : List α} :
    Chain next p (a :: l) ↔ p = some a ∧ Chain next (next a) l := Iff.rfl

theorem chain_none {next : α → Option α} {l : List α} :
    Chain next none l ↔ l = [] := by
  cases l <;> simp

theorem chain_some {next : α → Option α} {a : α} {l : List α} :
    Chain next (some a) l ↔ ∃ l', l = a :: l' ∧ Chain next (next a) l' := by
  cases l with
  | nil => simp
  | cons b l =>
      simp only [chain_cons, Option.some_inj, List.cons.injEq]
      constructor
      · rintro ⟨rfl, h⟩
        exact ⟨l, ⟨rfl, rfl⟩, h⟩
      · rintro ⟨l', ⟨rfl, rfl⟩, h⟩
        exact ⟨rfl, h⟩

namespace Chain

/-- A pointer starts at most one chain. -/
theorem unique {next : α → Option α} : ∀ {l l' : List α} {p : Option α},
    Chain next p l → Chain next p l' → l = l' := by
  intro l
  induction l with
  | nil =>
      intro l' p h h'
      rw [chain_nil] at h
      subst h
      exact (chain_none.1 h').symm
  | cons a l ih =>
      intro l' p h h'
      obtain ⟨rfl, h⟩ := h
      obtain ⟨m, rfl, hm⟩ := chain_some.1 h'
      rw [ih h hm]

/-- A suffix of a chain is the chain of the pointer that leads to it. -/
theorem suffix {next : α → Option α} {a : α} : ∀ {pre post : List α} {p : Option α},
    Chain next p (pre ++ a :: post) → Chain next (some a) (a :: post) := by
  intro pre
  induction pre with
  | nil => intro post p h; exact ⟨rfl, h.2⟩
  | cons b pre ih => intro post p h; exact ih h.2

/-- **A chain that ends in `NULL` visits no node twice**: the rest of the walk is determined by
the node it continues from, and a second visit would have a shorter rest. -/
theorem nodup {next : α → Option α} : ∀ {l : List α} {p : Option α},
    Chain next p l → l.Nodup := by
  intro l
  induction l with
  | nil => intro p _; exact List.nodup_nil
  | cons a l ih =>
      intro p h
      obtain ⟨rfl, h⟩ := h
      refine List.nodup_cons.2 ⟨?_, ih h⟩
      intro ha
      obtain ⟨pre, post, rfl⟩ := List.append_of_mem ha
      have h₁ : Chain next (some a) (a :: post) := suffix h
      have h₂ : Chain next (some a) (a :: (pre ++ a :: post)) := ⟨rfl, h⟩
      have hlen := congrArg List.length (unique h₁ h₂)
      simp at hlen
      omega

/-- A chain only looks at the `next` fields of its own nodes. -/
theorem congr {next next' : α → Option α} : ∀ {l : List α} {p : Option α},
    Chain next p l → (∀ a ∈ l, next' a = next a) → Chain next' p l := by
  intro l
  induction l with
  | nil => intro p h _; exact h
  | cons a l ih =>
      intro p h hag
      refine ⟨h.1, ?_⟩
      rw [hag a (by simp)]
      exact ih h.2 fun b hb => hag b (by simp [hb])

/-- The head pointer of a chain is its first node. -/
theorem head_eq {next : α → Option α} {l : List α} {p : Option α} (h : Chain next p l) :
    p = l.head? := by
  cases l with
  | nil => exact h
  | cons a l => exact h.1

/-- A chain has no node exactly when its head pointer is `NULL`. -/
theorem eq_nil_iff {next : α → Option α} {l : List α} {p : Option α} (h : Chain next p l) :
    l = [] ↔ p = none := by
  rw [h.head_eq]
  simp

/-- The `next` field of a node holds the node that follows it. -/
theorem next_of_append {next : α → Option α} {a : α} {pre post : List α} {p : Option α}
    (h : Chain next p (pre ++ a :: post)) : next a = post.head? :=
  head_eq h.suffix.2

section Edit

variable [DecidableEq α]

/-- **A new head**: `a->next = list; list = a;`. -/
theorem push {next : α → Option α} {l : List α} {p : Option α} {a : α} (h : Chain next p l)
    (ha : a ∉ l) : Chain (Function.update next a p) (some a) (a :: l) := by
  refine ⟨rfl, ?_⟩
  rw [Function.update_self]
  refine h.congr fun b hb => Function.update_of_ne ?_ _ _
  rintro rfl
  exact ha hb

/-- **The head taken away**: `list = a->next; a->next = NULL;`. -/
theorem pop {next : α → Option α} {l : List α} {p : Option α} {a : α}
    (h : Chain next p (a :: l)) : Chain (Function.update next a none) (next a) l := by
  have hnd := h.nodup
  refine h.2.congr fun b hb => Function.update_of_ne ?_ _ _
  rintro rfl
  exact (List.nodup_cons.1 hnd).1 hb

/-- **A node taken out from behind its predecessor**: `b->next = c->next; c->next = NULL;`. -/
theorem unlink {next : α → Option α} {b c : α} : ∀ {pre post : List α} {p : Option α},
    Chain next p (pre ++ b :: c :: post) →
      Chain (Function.update (Function.update next b (next c)) c none) p (pre ++ b :: post) := by
  intro pre
  induction pre with
  | nil =>
      intro post p h
      have hnd := h.nodup
      simp only [List.nil_append, List.nodup_cons, List.mem_cons, not_or] at hnd
      obtain ⟨⟨hbc, hb⟩, hc, -⟩ := hnd
      refine ⟨h.1, ?_⟩
      rw [Function.update_of_ne hbc, Function.update_self]
      refine h.2.2.congr fun a ha => ?_
      rw [Function.update_of_ne (by rintro rfl; exact hc ha),
        Function.update_of_ne (by rintro rfl; exact hb ha)]
  | cons a pre ih =>
      intro post p h
      have hnd := h.nodup
      simp only [List.cons_append, List.nodup_cons, List.mem_append, List.mem_cons, not_or] at hnd
      refine ⟨h.1, ?_⟩
      rw [Function.update_of_ne hnd.1.2.2.1, Function.update_of_ne hnd.1.2.1]
      exact ih h.2

end Edit

end Chain

/-- A walk from the pointer visits the node. -/
inductive Visits (next : α → Option α) : Option α → α → Prop
  | here (a : α) : Visits next (some a) a
  | later {a b : α} : Visits next (next a) b → Visits next (some a) b

/-- The walk along a chain visits its nodes. -/
theorem Chain.visits_iff {next : α → Option α} {a : α} : ∀ {l : List α} {p : Option α},
    Chain next p l → (Visits next p a ↔ a ∈ l) := by
  intro l
  induction l with
  | nil =>
      intro p h
      rw [chain_nil] at h
      subst h
      constructor
      · intro hv
        cases hv
      · intro ha
        simp at ha
  | cons b l ih =>
      intro p h
      obtain ⟨rfl, h⟩ := h
      constructor
      · intro hv
        cases hv with
        | here => simp
        | later hv => exact List.mem_cons_of_mem b ((ih h).1 hv)
      · intro ha
        rcases List.mem_cons.1 ha with rfl | ha
        · exact Visits.here a
        · exact Visits.later ((ih h).2 ha)

/-! ### Segments -/

/-- **A segment**: following `next` from the pointer `p` visits the nodes of the list in order and
then finds the pointer `q`. -/
def Seg (next : α → Option α) : Option α → List α → Option α → Prop
  | p, [], q => p = q
  | p, a :: l, q => p = some a ∧ Seg next (next a) l q

theorem seg_none_iff {next : α → Option α} : ∀ {l : List α} {p : Option α},
    Seg next p l none ↔ Chain next p l := by
  intro l
  induction l with
  | nil => intro p; exact Iff.rfl
  | cons a l ih => intro p; exact and_congr_right fun _ => ih

theorem seg_append {next : α → Option α} {m : List α} {q : Option α} :
    ∀ {l : List α} {p : Option α},
    Seg next p (l ++ m) q ↔ ∃ r, Seg next p l r ∧ Seg next r m q := by
  intro l
  induction l with
  | nil =>
      intro p
      constructor
      · intro h
        exact ⟨p, rfl, h⟩
      · rintro ⟨r, rfl, h⟩
        exact h
  | cons a l ih =>
      intro p
      constructor
      · rintro ⟨hp, h⟩
        obtain ⟨r, hl, hm⟩ := ih.1 h
        exact ⟨r, ⟨hp, hl⟩, hm⟩
      · rintro ⟨r, ⟨hp, hl⟩, hm⟩
        exact ⟨hp, ih.2 ⟨r, hl, hm⟩⟩

theorem Seg.congr {next next' : α → Option α} {q : Option α} : ∀ {l : List α} {p : Option α},
    Seg next p l q → (∀ a ∈ l, next' a = next a) → Seg next' p l q := by
  intro l
  induction l with
  | nil => intro p h _; exact h
  | cons a l ih =>
      intro p h hag
      refine ⟨h.1, ?_⟩
      rw [hag a (by simp)]
      exact ih h.2 fun b hb => hag b (by simp [hb])

/-- A chain is a segment up to a node, that node, and the chain behind it. -/
theorem chain_append_cons {next : α → Option α} {l m : List α} {a : α} {p : Option α} :
    Chain next p (l ++ a :: m) ↔ Seg next p l (some a) ∧ Chain next (next a) m := by
  rw [← seg_none_iff, ← seg_none_iff, seg_append]
  constructor
  · rintro ⟨r, hl, rfl, hm⟩
    exact ⟨hl, hm⟩
  · rintro ⟨hl, hm⟩
    exact ⟨some a, hl, rfl, hm⟩

/-- **The rest of a chain is replaced**: the `next` field of the node `a` is redirected to another
chain. -/
theorem Chain.redirect [DecidableEq α] {next next' : α → Option α} {l m m' : List α} {a : α}
    {p q : Option α} (h : Chain next p (l ++ a :: m)) (hl : ∀ b ∈ l, next' b = next b)
    (ha : next' a = q) (hm : Chain next' q m') : Chain next' p (l ++ a :: m') := by
  obtain ⟨hseg, -⟩ := chain_append_cons.1 h
  refine chain_append_cons.2 ⟨hseg.congr hl, ?_⟩
  rw [ha]
  exact hm

/-- The nodes of a list in which one is repeated nowhere, from the place of that one. -/
theorem nodup_split {l m : List α} {a : α} (h : (l ++ a :: m).Nodup) : a ∉ l ∧ a ∉ m := by
  constructor
  · intro hmem
    exact (List.nodup_append.1 h).2.2 a hmem a (by simp) rfl
  · exact (List.nodup_cons.1 (List.nodup_append.1 h).2.1).1

section EditSeg

variable [DecidableEq α]

/-- **A node put behind another**: `c->next = b->next; b->next = c;`. -/
theorem Chain.insertBehind {next : α → Option α} {l m : List α} {b c : α} {p : Option α}
    (h : Chain next p (l ++ b :: m)) (hc : c ∉ l ++ b :: m) :
    Chain (Function.update (Function.update next c (next b)) b (some c)) p (l ++ b :: c :: m) := by
  have hnd := nodup_split h.nodup
  simp only [List.mem_append, List.mem_cons, not_or] at hc
  obtain ⟨hcl, hcb, hcm⟩ := hc
  obtain ⟨-, hm⟩ := chain_append_cons.1 h
  refine h.redirect (q := some c) ?_ (Function.update_self ..) ⟨rfl, ?_⟩
  · intro a ha
    rw [Function.update_of_ne (by rintro rfl; exact hnd.1 ha),
      Function.update_of_ne (by rintro rfl; exact hcl ha)]
  · rw [Function.update_of_ne hcb, Function.update_self]
    refine hm.congr fun a ha => ?_
    rw [Function.update_of_ne (by rintro rfl; exact hnd.2 ha),
      Function.update_of_ne (by rintro rfl; exact hcm ha)]

/-- **A node skipped**: `b->next = c->next;`. -/
theorem Chain.skip {next : α → Option α} {l m : List α} {b c : α} {p : Option α}
    (h : Chain next p (l ++ b :: c :: m)) :
    Chain (Function.update next b (next c)) p (l ++ b :: m) := by
  have hnd := nodup_split h.nodup
  obtain ⟨-, -, hm⟩ := chain_append_cons.1 h
  refine h.redirect ?_ (Function.update_self ..) (hm.congr ?_)
  · intro a ha
    rw [Function.update_of_ne (by rintro rfl; exact hnd.1 ha)]
  · intro a ha
    rw [Function.update_of_ne (by rintro rfl; exact hnd.2 (by simp [ha]))]

/-- **The last node cut off**: `b->next = NULL;`. -/
theorem Chain.cut {next : α → Option α} {l m : List α} {b : α} {p : Option α}
    (h : Chain next p (l ++ b :: m)) : Chain (Function.update next b none) p (l ++ [b]) := by
  have hnd := nodup_split h.nodup
  refine h.redirect ?_ (Function.update_self ..) rfl
  intro a ha
  rw [Function.update_of_ne (by rintro rfl; exact hnd.1 ha)]

/-- **A node taken out and linked elsewhere**: `b->next = c->next; c->next = q;`, where `b` is the
node before `c`, or `c` itself at the head of the list. -/
theorem Chain.remove {next : α → Option α} {l m : List α} {c : α} {p q : Option α}
    (h : Chain next p (l ++ c :: m)) :
    Chain (Function.update (Function.update next (l.getLastD c) (next c)) c q) (l ++ m).head?
      (l ++ m) := by
  have hnd := nodup_split h.nodup
  rcases List.eq_nil_or_concat l with rfl | ⟨l, b, rfl⟩
  · have hm : Chain next (next c) m := h.2
    rw [List.getLastD_nil, Function.update_idem, List.nil_append, ← hm.head_eq]
    refine hm.congr fun a ha => Function.update_of_ne ?_ _ _
    rintro rfl
    exact hnd.2 ha
  · rw [List.concat_eq_append] at h hnd ⊢
    have hskip : Chain (Function.update next b (next c)) p (l ++ b :: m) := by
      refine Chain.skip ?_
      simpa using h
    rw [List.getLastD_concat, List.append_assoc, List.cons_append, List.nil_append, ← hskip.head_eq]
    refine hskip.congr fun a ha => Function.update_of_ne ?_ _ _
    rintro rfl
    simp only [List.mem_append, List.mem_cons] at ha hnd
    tauto

end EditSeg

/-! ### Searching a list -/

/-- The loop `while (cur) { if (found cur) break; prev = cur; cur = cur->next; }`.  The answer is
the node found, with the value `prev` had, or nothing when the list ends first; with the fuel used
up before either happens there is no answer. -/
def seek (next : α → Option α) (found : α → Bool) :
    ℕ → Option α → Option α → Option (Option (Option α × α))
  | _, _, none => some none
  | 0, _, some _ => none
  | fuel + 1, prev, some a =>
      if found a then some (some (prev, a)) else seek next found fuel (some a) (next a)

theorem Chain.seek_of_forall {next : α → Option α} {found : α → Bool} : ∀ {l : List α}
    {fuel : ℕ} {prev p : Option α}, Chain next p l → l.length ≤ fuel →
      (∀ a ∈ l, found a = false) → seek next found fuel prev p = some none := by
  intro l
  induction l with
  | nil =>
      intro fuel prev p h _ _
      rw [chain_nil] at h
      subst h
      cases fuel <;> rfl
  | cons a l ih =>
      intro fuel prev p h hlen hno
      obtain ⟨rfl, h⟩ := h
      obtain ⟨k, rfl⟩ : ∃ k, fuel = k + 1 := ⟨fuel - 1, by simp at hlen; omega⟩
      rw [seek, hno a (by simp), if_neg (by simp)]
      exact ih h (by simp at hlen; omega) fun b hb => hno b (by simp [hb])

theorem Chain.seek_of_found {next : α → Option α} {found : α → Bool} {c : α} {post : List α} :
    ∀ {pre : List α} {fuel : ℕ} {prev p : Option α}, Chain next p (pre ++ c :: post) →
      pre.length < fuel → (∀ a ∈ pre, found a = false) → found c = true →
      seek next found fuel prev p = some (some (pre.getLast?.or prev, c)) := by
  intro pre
  induction pre with
  | nil =>
      intro fuel prev p h hlen _ hc
      obtain ⟨rfl, -⟩ := h
      obtain ⟨k, rfl⟩ : ∃ k, fuel = k + 1 := ⟨fuel - 1, by simp at hlen; omega⟩
      rw [seek, if_pos hc]
      rfl
  | cons a pre ih =>
      intro fuel prev p h hlen hno hc
      obtain ⟨rfl, h⟩ := h
      obtain ⟨k, rfl⟩ : ∃ k, fuel = k + 1 := ⟨fuel - 1, by simp at hlen; omega⟩
      rw [seek, hno a (by simp), if_neg (by simp),
        ih h (by simp at hlen; omega) (fun b hb => hno b (by simp [hb])) hc]
      rw [List.getLast?_cons]
      cases pre.getLast? <;> rfl

/-- The first node of a list that satisfies a test, with what comes before and after it. -/
theorem exists_first {found : α → Bool} : ∀ {l : List α}, (∃ a ∈ l, found a = true) →
    ∃ pre c post, l = pre ++ c :: post ∧ (∀ a ∈ pre, found a = false) ∧ found c = true := by
  intro l
  induction l with
  | nil => rintro ⟨a, ha, -⟩; simp at ha
  | cons b l ih =>
      intro h
      cases hb : found b with
      | true => exact ⟨[], b, l, rfl, by simp, hb⟩
      | false =>
          obtain ⟨a, ha, hfa⟩ := h
          have hal : a ∈ l := by
            rcases List.mem_cons.1 ha with rfl | hal
            · rw [hfa] at hb; exact absurd hb (by simp)
            · exact hal
          obtain ⟨pre, c, post, rfl, hpre, hc⟩ := ih ⟨a, hal, hfa⟩
          refine ⟨b :: pre, c, post, rfl, ?_, hc⟩
          intro x hx
          rcases List.mem_cons.1 hx with rfl | hx
          · exact hb
          · exact hpre x hx

/-- **The search loop on a chain**, with enough fuel for its length: either no node satisfies the
test and the loop runs off the end, or it stops at the first node that does, with `prev` at the
node before it. -/
theorem Chain.seek_cases {next : α → Option α} {l : List α} {fuel : ℕ} {p : Option α}
    (h : Chain next p l) (hlen : l.length ≤ fuel) (found : α → Bool) (prev : Option α) :
    ((∀ a ∈ l, found a = false) ∧ seek next found fuel prev p = some none) ∨
      ∃ pre c post, l = pre ++ c :: post ∧ (∀ a ∈ pre, found a = false) ∧ found c = true ∧
        seek next found fuel prev p = some (some (pre.getLast?.or prev, c)) := by
  by_cases hex : ∃ a ∈ l, found a = true
  · obtain ⟨pre, c, post, rfl, hpre, hc⟩ := exists_first hex
    refine Or.inr ⟨pre, c, post, rfl, hpre, hc, h.seek_of_found ?_ hpre hc⟩
    simp at hlen
    omega
  · have hno : ∀ a ∈ l, found a = false := by
      intro a ha
      cases hfa : found a with
      | false => rfl
      | true => exact absurd ⟨a, ha, hfa⟩ hex
    exact Or.inl ⟨hno, h.seek_of_forall hlen hno⟩

/-! ### The place of a node in a sorted list -/

/-- The loop `while (cur) { if (stop cur) break; old = cur; cur = cur->next; }`, for the value of
`old` at its end. -/
def behind (next : α → Option α) (stop : α → Bool) : ℕ → α → Option α → Option α
  | _, old, none => some old
  | 0, _, some _ => none
  | fuel + 1, old, some a => if stop a then some old else behind next stop fuel a (next a)

/-- **The loop on a chain** ends behind the nodes that do not stop it: what follows them stops it,
or is the end. -/
theorem Chain.behind_place {next : α → Option α} {stop : α → Bool} :
    ∀ {l : List α} {fuel : ℕ} {old : α}
    {p : Option α}, Chain next p l → l.length ≤ fuel →
      ∃ pre post, l = pre ++ post ∧ (∀ a ∈ pre, stop a = false) ∧
        (∀ a, post.head? = some a → stop a = true) ∧
        behind next stop fuel old p = some (pre.getLastD old) := by
  intro l
  induction l with
  | nil =>
      intro fuel old p h _
      rw [chain_nil] at h
      subst h
      exact ⟨[], [], rfl, by simp, by simp, by cases fuel <;> rfl⟩
  | cons a l ih =>
      intro fuel old p h hlen
      obtain ⟨rfl, h⟩ := h
      obtain ⟨k, rfl⟩ : ∃ k, fuel = k + 1 := ⟨fuel - 1, by simp at hlen; omega⟩
      rw [behind]
      cases hstop : stop a with
      | true => exact ⟨[], a :: l, rfl, by simp, by simp [hstop], rfl⟩
      | false =>
          obtain ⟨pre, post, rfl, hpre, hpost, hb⟩ := @ih k a (next a) h (by simp at hlen; omega)
          refine ⟨a :: pre, post, rfl, ?_, hpost, ?_⟩
          · intro b hmem
            rcases List.mem_cons.1 hmem with rfl | hmem
            · exact hstop
            · exact hpre b hmem
          · rw [if_neg Bool.false_ne_true, hb, List.getLastD_cons]

end LinkedList
