import Mathlib.Data.List.Nodup
import Mathlib.Logic.Function.Basic

/-!
# Nodes that are linked

A list whose nodes hold the pointers to one another: each has a pointer to the next, the last has a
null pointer, and there is a pointer to the first. Nothing keeps the pointers from going round in a
circle, and a loop that follows them then does not end. Loops are therefore given a number of turns,
and have no result where it is not enough.

What can be said about a loop is `Linked`: that the nodes from a pointer on are those of a list.
Such a list is finite, and no node is in it twice.

## Main results

* `Linked.unique`, `Linked.nodup` — the list is known by the pointer
* `forEach_eq`, `exists_forEach` — a loop over the nodes
* `Nodes.linked_push`, `Nodes.not_linked_push` — a node in front, which must not be there already
* `Nodes.linked_unlink`, `Nodes.exists_unlink` — a node taken out
-/

namespace TQLib

variable {ι β : Type*}

/-- The nodes from a pointer on are those of a list. -/
inductive Linked (next : ι → Option ι) : Option ι → List ι → Prop
  /-- None, from the null pointer. -/
  | nil : Linked next none []
  /-- A node and those after it. -/
  | cons {a : ι} {l : List ι} (h : Linked next (next a) l) : Linked next (some a) (a :: l)

namespace Linked

variable {next next' : ι → Option ι} {p : Option ι} {l l' : List ι} {a : ι}

theorem unique (h : Linked next p l) (h' : Linked next p l') : l = l' := by
  induction h generalizing l' with
  | nil =>
    cases h'
    rfl
  | cons _ ih =>
    cases h' with
    | cons h' => rw [ih h']

/-- From a node of the list on. -/
theorem of_append (h : Linked next p (l ++ a :: l')) : Linked next (some a) (a :: l') := by
  induction l generalizing p with
  | nil =>
    cases h with
    | cons h => exact .cons h
  | cons b l ih =>
    cases h with
    | cons h => exact ih h

/-- **No node is there twice**: the list from it on would be longer than itself. -/
theorem nodup (h : Linked next p l) : l.Nodup := by
  induction h with
  | nil => exact List.nodup_nil
  | @cons a l h ih =>
    refine List.nodup_cons.mpr ⟨fun hmem => ?_, ih⟩
    obtain ⟨l₁, l₂, rfl⟩ := List.append_of_mem hmem
    have hagain : a :: (l₁ ++ a :: l₂) = a :: l₂ := (Linked.cons h).unique h.of_append
    have hlen := congrArg List.length hagain
    simp only [List.length_cons, List.length_append] at hlen
    omega

theorem congr (h : Linked next p l) (heq : ∀ a ∈ l, next' a = next a) : Linked next' p l := by
  induction h with
  | nil => exact .nil
  | @cons a l _ ih =>
    refine .cons ?_
    rw [heq a List.mem_cons_self]
    exact ih fun b hb => heq b (List.mem_cons_of_mem _ hb)

end Linked

/-! ## Loops over the nodes -/

/-- `for (entry = p; entry != nullptr; entry = entry->next)`, of so many turns. -/
def forEach (next : ι → Option ι) (body : β → ι → β) : ℕ → Option ι → β → Option β
  | 0, _, _ => none
  | _ + 1, none, b => some b
  | turns + 1, some a, b => forEach next body turns (next a) (body b a)

variable {next : ι → Option ι} {body : β → ι → β} {p : Option ι} {l : List ι}

/-- **A loop that ends** has gone over a list. -/
theorem linked_of_forEach {turns : ℕ} {b r : β} (h : forEach next body turns p b = some r) :
    ∃ l, Linked next p l ∧ r = l.foldl body b := by
  induction turns generalizing p b with
  | zero => cases h
  | succ turns ih =>
    cases p with
    | none => exact ⟨[], .nil, (Option.some.inj h).symm⟩
    | some a =>
      obtain ⟨l, hl, hr⟩ := ih h
      exact ⟨a :: l, .cons hl, hr⟩

theorem forEach_eq (hl : Linked next p l) {turns : ℕ} {b r : β}
    (h : forEach next body turns p b = some r) : r = l.foldl body b := by
  obtain ⟨l', hl', hr⟩ := linked_of_forEach h
  rwa [hl.unique hl']

/-- **A loop over a list** ends. -/
theorem exists_forEach (hl : Linked next p l) {turns : ℕ} (hturns : l.length < turns) (b : β) :
    forEach next body turns p b = some (l.foldl body b) := by
  induction hl generalizing turns b with
  | nil =>
    obtain ⟨turns, rfl⟩ := Nat.exists_eq_succ_of_ne_zero (Nat.ne_zero_of_lt hturns)
    rfl
  | cons _ ih =>
    obtain ⟨turns, rfl⟩ := Nat.exists_eq_succ_of_ne_zero (Nat.ne_zero_of_lt hturns)
    exact ih (Nat.lt_of_succ_lt_succ hturns) _

/-! ## Changes -/

/-- A pointer to the first node, and those of the nodes. -/
structure Nodes (ι : Type*) where
  /-- To the first. -/
  head : Option ι
  /-- Of each node to the next. -/
  next : ι → Option ι

namespace Nodes

variable [DecidableEq ι] {nodes nodes' : Nodes ι} {a b : ι} {l' : List ι}

/-- `stream->next = head; head = stream`. -/
def push (nodes : Nodes ι) (a : ι) : Nodes ι := ⟨some a, Function.update nodes.next a nodes.head⟩

/-- `*entry`, where `entry` points to the first pointer or to that of a node. -/
def read (nodes : Nodes ι) : Option ι → Option ι
  | none => nodes.head
  | some b => nodes.next b

/-- `*entry = q`. -/
def write (nodes : Nodes ι) (q : Option ι) : Option ι → Nodes ι
  | none => { nodes with head := q }
  | some b => { nodes with next := Function.update nodes.next b q }

/-- `for (entry = &head; *entry != nullptr; entry = &(*entry)->next)`, which takes a node out and
breaks off where it is found. -/
def unlink (nodes : Nodes ι) (a : ι) : ℕ → Option ι → Option (Nodes ι)
  | 0, _ => none
  | turns + 1, entry =>
    match nodes.read entry with
    | none => some nodes
    | some b =>
      if b = a then some (nodes.write (nodes.next b) entry) else unlink nodes a turns (some b)

@[simp] theorem push_head (nodes : Nodes ι) (a : ι) : (nodes.push a).head = some a := rfl

@[simp] theorem push_next_self (nodes : Nodes ι) (a : ι) : (nodes.push a).next a = nodes.head :=
  Function.update_self ..

theorem push_next_of_ne (nodes : Nodes ι) (h : b ≠ a) : (nodes.push a).next b = nodes.next b :=
  Function.update_of_ne h ..

theorem linked_push (h : Linked nodes.next nodes.head l) (ha : a ∉ l) :
    Linked (nodes.push a).next (nodes.push a).head (a :: l) := by
  refine .cons ?_
  rw [push_next_self]
  refine h.congr fun b hb => nodes.push_next_of_ne ?_
  rintro rfl
  exact ha hb

/-- The pointers lead to a node in front over those that were in front of it. -/
theorem linked_push_of_append (hl : a ∉ l) (h : Linked nodes.next p (l ++ a :: l'))
    {l'' : List ι} (h' : Linked (nodes.push a).next (some a) l'') :
    Linked (nodes.push a).next p (l ++ l'') := by
  induction l generalizing p with
  | nil =>
    cases h with
    | cons => exact h'
  | cons b l ih =>
    obtain ⟨hne, hl⟩ := List.ne_and_not_mem_of_not_mem_cons hl
    cases h with
    | cons h =>
      refine .cons ?_
      rw [nodes.push_next_of_ne hne.symm]
      exact ih hl h

/-- **A node that is there already** makes a circle. -/
theorem not_linked_push (h : Linked nodes.next nodes.head l) (ha : a ∈ l) :
    ¬ Linked (nodes.push a).next (nodes.push a).head l' := by
  intro h'
  obtain ⟨l₁, l₂, rfl⟩ := List.append_of_mem ha
  have hl₁ : a ∉ l₁ := fun ha₁ =>
    (List.nodup_append.mp h.nodup).2.2 a ha₁ a List.mem_cons_self rfl
  have hround : Linked (nodes.push a).next (nodes.push a).head (a :: (l₁ ++ l')) := by
    refine .cons ?_
    rw [push_next_self]
    exact linked_push_of_append hl₁ h h'
  have hlen := congrArg List.length (h'.unique hround)
  simp only [List.length_cons, List.length_append] at hlen
  omega

/-! ## Taking a node out -/

omit [DecidableEq ι] in
/-- The pointer behind the last of some nodes. -/
theorem linked_read {l₁ l₂ : List ι} (h : Linked nodes.next nodes.head (l₁ ++ l₂)) :
    Linked nodes.next (nodes.read l₁.getLast?) l₂ := by
  rcases List.eq_nil_or_concat l₁ with rfl | ⟨l, c, rfl⟩
  · exact h
  · rw [List.concat_eq_append, List.append_assoc] at h
    rw [List.concat_eq_append, List.getLast?_concat]
    cases h.of_append with
    | cons h => exact h

theorem linked_update {c b : ι} {l₁ l₂ : List ι} (h : Linked next p (l₁ ++ c :: b :: l₂)) :
    Linked (Function.update next c (next b)) p (l₁ ++ c :: l₂) := by
  induction l₁ generalizing p with
  | nil =>
    have hnodup := h.nodup
    cases h with
    | cons h =>
      generalize hq : next c = q at h
      cases h with
      | cons h =>
        refine .cons ?_
        rw [Function.update_self]
        refine h.congr fun d hd => Function.update_of_ne ?_ _ _
        rintro rfl
        exact (List.nodup_cons.mp hnodup).1 (List.mem_cons_of_mem _ hd)
  | cons d l₁ ih =>
    have hnodup := h.nodup
    cases h with
    | cons h =>
      refine .cons ?_
      have hne : d ≠ c := by
        rintro rfl
        exact (List.nodup_cons.mp hnodup).1 (List.mem_append_right _ List.mem_cons_self)
      rw [Function.update_of_ne hne]
      exact ih h

/-- A node is taken out by the pointer to it. -/
theorem linked_write {l₁ l₂ : List ι} (h : Linked nodes.next nodes.head (l₁ ++ b :: l₂)) :
    Linked (nodes.write (nodes.next b) l₁.getLast?).next
      (nodes.write (nodes.next b) l₁.getLast?).head (l₁ ++ l₂) := by
  rcases List.eq_nil_or_concat l₁ with rfl | ⟨l, c, rfl⟩
  · change Linked nodes.next nodes.head (b :: l₂) at h
    change Linked nodes.next (nodes.next b) l₂
    generalize nodes.head = q at h
    cases h with
    | cons h => exact h
  · rw [List.concat_eq_append, List.append_assoc] at h ⊢
    rw [List.getLast?_concat]
    exact linked_update h

/-- The loop, in front of the rest of the nodes. -/
theorem linked_unlink_append {l₁ l₂ : List ι} {turns : ℕ}
    (h : Linked nodes.next nodes.head (l₁ ++ l₂))
    (hunlink : nodes.unlink a turns l₁.getLast? = some nodes') :
    Linked nodes'.next nodes'.head (l₁ ++ l₂.erase a) := by
  induction l₂ generalizing l₁ turns with
  | nil =>
    cases turns with
    | zero => cases hunlink
    | succ turns =>
      have hread := linked_read h
      rw [unlink] at hunlink
      generalize nodes.read l₁.getLast? = q at hread hunlink
      cases hread with
      | nil =>
        cases hunlink
        exact h
  | cons b l₂ ih =>
    cases turns with
    | zero => cases hunlink
    | succ turns =>
      have hread := linked_read h
      rw [unlink] at hunlink
      generalize nodes.read l₁.getLast? = q at hread hunlink
      cases hread with
      | cons =>
        by_cases hba : b = a
        · subst hba
          dsimp only at hunlink
          rw [if_pos rfl] at hunlink
          cases hunlink
          rw [List.erase_cons_head]
          exact linked_write h
        · have hlast : (l₁ ++ [b]).getLast? = some b := List.getLast?_concat
          dsimp only at hunlink
          rw [if_neg hba, ← hlast] at hunlink
          rw [List.erase_cons_tail (by rwa [beq_iff_eq]), List.append_cons]
          exact ih (by rwa [← List.append_cons]) hunlink

/-- **A node is taken out.** -/
theorem linked_unlink {turns : ℕ} (h : Linked nodes.next nodes.head l)
    (hunlink : nodes.unlink a turns none = some nodes') :
    Linked nodes'.next nodes'.head (l.erase a) := by
  have hnil : Linked nodes.next nodes.head ([] ++ l) := h
  exact linked_unlink_append hnil hunlink

theorem exists_unlink_of_read {turns : ℕ} {entry : Option ι}
    (h : Linked nodes.next (nodes.read entry) l) (hturns : l.length < turns) :
    ∃ nodes', nodes.unlink a turns entry = some nodes' := by
  induction l generalizing entry turns with
  | nil =>
    obtain ⟨turns, rfl⟩ := Nat.exists_eq_succ_of_ne_zero (Nat.ne_zero_of_lt hturns)
    rw [unlink]
    generalize nodes.read entry = q at h
    cases h with
    | nil => exact ⟨nodes, rfl⟩
  | cons b l ih =>
    obtain ⟨turns, rfl⟩ := Nat.exists_eq_succ_of_ne_zero (Nat.ne_zero_of_lt hturns)
    rw [unlink]
    generalize nodes.read entry = q at h
    cases h with
    | cons h =>
      by_cases hba : b = a
      · exact ⟨_, if_pos hba⟩
      · have hnext : ∃ nodes', nodes.unlink a turns (some b) = some nodes' :=
          ih h (Nat.lt_of_succ_lt_succ hturns)
        obtain ⟨nodes', hnodes'⟩ := hnext
        exact ⟨nodes', (if_neg hba).trans hnodes'⟩

/-- **The loop ends** when the nodes are those of a list. -/
theorem exists_unlink {turns : ℕ} (h : Linked nodes.next nodes.head l)
    (hturns : l.length < turns) : ∃ nodes', nodes.unlink a turns none = some nodes' :=
  exists_unlink_of_read h hturns

end Nodes

end TQLib
