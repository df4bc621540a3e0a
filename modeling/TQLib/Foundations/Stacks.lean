import Mathlib.Algebra.BigOperators.Group.Finset.Piecewise
import Mathlib.Algebra.Order.BigOperators.Group.Finset
import Mathlib.Logic.Relation
import Mathlib.Order.Basic

/-!
# Threads with stacks and locks

What is general about threads that run nested calls and take locks on the way.

The stack of a thread lists what it still has to do, next first. What closes a scope (gives a lock
back, drops a reference) is on the stack from the moment the scope is entered, so `Scoped` says of a
stack that everything on it that needs a scope is above what closes it, and `Counted` that what the
threads hold is what they have to give back. `Totals` adds up over all
threads what each has on its stack, without asking that there be finitely many threads. `WaitsFor`
is the relation that a deadlock is a cycle of.

## Main results

* `Scoped.append` — a call pushes its code on a stack that has what the code needs
* `Counted.step` — a thread takes, gives back, or does neither
* `Totals.update` — one thread moves
* `not_transGen_waitsFor` — no cycle of threads that each want a lock above all they hold
-/

namespace TQLib

/-! ## Scopes -/

section Scopes

variable {ι κ : Type*}

/-- Everything on the stack that needs `k` has something below it that closes `k`. -/
def Scoped (needs closes : ι → κ → Prop) : List ι → Prop
  | [] => True
  | i :: is => (∀ k, needs i k → ∃ j ∈ is, closes j k) ∧ Scoped needs closes is

variable {needs closes : ι → κ → Prop}

theorem Scoped.tail {i : ι} {is : List ι} (h : Scoped needs closes (i :: is)) :
    Scoped needs closes is := h.2

theorem Scoped.of_append {pre is : List ι} (h : Scoped needs closes (pre ++ is)) :
    Scoped needs closes is := by
  induction pre with
  | nil => exact h
  | cons i pre ih => exact ih h.tail

theorem Scoped.head {i : ι} {is : List ι} (h : Scoped needs closes (i :: is)) {k : κ}
    (hk : needs i k) : ∃ j ∈ is, closes j k := h.1 k hk

theorem Scoped.of_mem {i : ι} {is : List ι} (h : Scoped needs closes is) (hi : i ∈ is) {k : κ}
    (hk : needs i k) : ∃ j ∈ is, closes j k := by
  induction is with
  | nil => cases hi
  | cons i' is ih =>
    rcases List.mem_cons.mp hi with rfl | hi
    · obtain ⟨j, hj, hc⟩ := h.head hk
      exact ⟨j, List.mem_cons_of_mem _ hj, hc⟩
    · obtain ⟨j, hj, hc⟩ := ih h.tail hi
      exact ⟨j, List.mem_cons_of_mem _ hj, hc⟩

/-- What needs nothing can be pushed on any stack. -/
theorem Scoped.push {code is : List ι} (h : Scoped needs closes is)
    (hcode : ∀ i ∈ code, ∀ k, ¬ needs i k) : Scoped needs closes (code ++ is) := by
  induction code with
  | nil => exact h
  | cons i code ih =>
    exact ⟨fun k hk => absurd hk (hcode i List.mem_cons_self k),
      ih fun i' hi' => hcode i' (List.mem_cons_of_mem _ hi')⟩

/-- A call pushes its code on a stack that has what the code needs. -/
theorem Scoped.append {code is : List ι} (h : Scoped needs closes is)
    (hcode : ∀ i ∈ code, ∀ k, needs i k → ∃ j ∈ is, closes j k) :
    Scoped needs closes (code ++ is) := by
  induction code with
  | nil => exact h
  | cons i code ih =>
    refine ⟨fun k hk => ?_, ih fun i' hi' => hcode i' (List.mem_cons_of_mem _ hi')⟩
    obtain ⟨j, hj, hc⟩ := hcode i List.mem_cons_self k hk
    exact ⟨j, List.mem_append_right _ hj, hc⟩

end Scopes

/-! ## What is held -/

section Held

variable {θ ι κ : Type*} [DecidableEq θ] [DecidableEq ι] {held held' : κ → List θ}
  {stack : θ → List ι} {close : κ → ι}

/-- A thread holds `k` as often as it has still to do what gives `k` back. -/
def Counted (held : κ → List θ) (stack : θ → List ι) (close : κ → ι) : Prop :=
  ∀ k a, (held k).count a = (stack a).count (close k)

/-- A thread holds what it has to give back. -/
theorem Counted.mem_iff (h : Counted held stack close) {k : κ} {a : θ} :
    a ∈ held k ↔ close k ∈ stack a := by
  rw [← List.count_pos_iff, h, List.count_pos_iff]

/-- The thread `a` replaces `pre` on its stack by `code`. -/
theorem Counted.move (h : Counted held stack close) {a : θ} (pre code : List ι) {is : List ι}
    (hstack : stack a = pre ++ is)
    (hself : ∀ k, (held' k).count a + pre.count (close k) =
      (held k).count a + code.count (close k))
    (hother : ∀ k b, b ≠ a → (held' k).count b = (held k).count b) :
    Counted held' (Function.update stack a (code ++ is)) close := by
  intro k b
  rcases eq_or_ne b a with rfl | hne
  · have hb := h k b
    have hk := hself k
    rw [hstack, List.count_append] at hb
    rw [Function.update_self, List.count_append]
    omega
  · rw [Function.update_of_ne hne, hother k b hne, h k b]

/-- What the thread `a` may do to what is held: it takes one thing under the condition `ok` and
pushes what gives it back, it gives one back, or it does neither. -/
inductive Reholds [DecidableEq κ] (held held' : κ → List θ) (close : κ → ι) (ok : κ → Prop)
    (a : θ) (i : ι) (code : List ι) : Prop
  | take (k : κ) : ok k → (∀ k', i ≠ close k') →
      held' = Function.update held k (a :: held k) →
      (∀ k', code.count (close k') = if k = k' then 1 else 0) → Reholds held held' close ok a i code
  | give (k : κ) : i = close k → held' = Function.update held k ((held k).erase a) →
      code = [] → Reholds held held' close ok a i code
  | keep : held' = held → (∀ k', i ≠ close k') → (∀ k', close k' ∉ code) →
      Reholds held held' close ok a i code

variable [DecidableEq κ] {ok : κ → Prop} {a : θ} {i : ι} {code is : List ι}

theorem Counted.step (h : Counted held stack close) (hclose : Function.Injective close)
    (hr : Reholds held held' close ok a i code) (hstack : stack a = i :: is) :
    Counted held' (Function.update stack a (code ++ is)) close := by
  refine h.move [i] code hstack (fun k' => ?_) fun k' b hne => ?_
  · simp only [List.count_singleton, beq_iff_eq]
    cases hr with
    | take k _ hi hheld hcode =>
      rw [hheld, hcode, if_neg (hi k')]
      rcases eq_or_ne k k' with rfl | hk
      · simp
      · simp [Function.update_of_ne hk.symm, hk]
    | give k hi hheld hcode =>
      have hpos : a ∈ held k := h.mem_iff.mpr (by simp [hstack, hi])
      have hcount := List.count_pos_iff.mpr hpos
      simp only [hheld, hi, hcode, hclose.eq_iff, List.count_nil]
      rcases eq_or_ne k k' with rfl | hk
      · rw [Function.update_self, List.count_erase_self, if_pos rfl]
        omega
      · simp [Function.update_of_ne hk.symm, hk]
    | keep hheld hi hcode =>
      rw [hheld, if_neg (hi k'), List.count_eq_zero.mpr (hcode k')]
  · cases hr with
    | take k _ _ hheld _ =>
      rw [hheld]
      rcases eq_or_ne k' k with rfl | hk
      · simp [hne.symm]
      · rw [Function.update_of_ne hk]
    | give k _ hheld _ =>
      rw [hheld]
      rcases eq_or_ne k' k with rfl | hk
      · rw [Function.update_self, List.count_erase_of_ne hne]
      · rw [Function.update_of_ne hk]
    | keep hheld => rw [hheld]

/-- Whoever holds `k` after the step held it before, or has just taken it. -/
theorem Reholds.mem (hr : Reholds held held' close ok a i code) {k : κ} {b : θ} (hb : b ∈ held' k) :
    b ∈ held k ∨ b = a ∧ ok k := by
  cases hr with
  | take k₁ hok _ hheld _ =>
    rw [hheld] at hb
    rcases eq_or_ne k k₁ with rfl | hk
    · rw [Function.update_self, List.mem_cons] at hb
      exact hb.symm.imp_right fun hb => ⟨hb, hok⟩
    · rw [Function.update_of_ne hk] at hb
      exact .inl hb
  | give k₁ _ hheld _ =>
    rw [hheld] at hb
    rcases eq_or_ne k k₁ with rfl | hk
    · rw [Function.update_self] at hb
      exact .inl (List.mem_of_mem_erase hb)
    · rw [Function.update_of_ne hk] at hb
      exact .inl hb
  | keep hheld => exact .inl (by rwa [hheld] at hb)

end Held

/-! ## Totals -/

section Totals

variable {ι : Type*}

/-- The values of `f` are zero but for finitely many, and add up to `n`. -/
def Totals (f : ι → ℕ) (n : ℕ) : Prop := ∃ S : Finset ι, (∀ i ∉ S, f i = 0) ∧ ∑ i ∈ S, f i = n

theorem totals_zero : Totals (fun _ : ι => 0) 0 := ⟨∅, fun _ _ => rfl, rfl⟩

variable {f : ι → ℕ} {n : ℕ}

theorem Totals.le (h : Totals f n) (i : ι) : f i ≤ n := by
  obtain ⟨S, hS, rfl⟩ := h
  by_cases hi : i ∈ S
  · exact Finset.single_le_sum (fun _ _ => Nat.zero_le _) hi
  · simp [hS i hi]

/-- One of the values is written. -/
theorem Totals.update [DecidableEq ι] (h : Totals f n) (i : ι) (v : ℕ) :
    Totals (Function.update f i v) (n - f i + v) := by
  obtain ⟨S, hS, rfl⟩ := h
  refine ⟨insert i S, ?_, ?_⟩
  · intro j hj
    rw [Finset.mem_insert, not_or] at hj
    rw [Function.update_of_ne hj.1, hS j hj.2]
  · have hold : ∑ j ∈ insert i S, f j = ∑ j ∈ S, f j := by
      refine (Finset.sum_subset (Finset.subset_insert i S) ?_).symm
      exact fun j _ hj => hS j hj
    rw [Finset.sum_update_of_mem (Finset.mem_insert_self i S), ← hold,
      ← Finset.add_sum_erase _ _ (Finset.mem_insert_self i S), Finset.sdiff_singleton_eq_erase]
    omega

end Totals

/-! ## Waiting -/

section Waiting

variable {θ ℓ π : Type*} {wants : θ → Option ℓ} {owns : θ → ℓ → Prop}

/-- The thread `a` wants a lock that the thread `b` owns. -/
def WaitsFor (wants : θ → Option ℓ) (owns : θ → ℓ → Prop) (a b : θ) : Prop :=
  ∃ l, wants a = some l ∧ owns b l

/-- **Locks in order.** If a thread that owns a lock others wait for never waits for a lock that is
not above it, then there is no cycle. -/
theorem not_transGen_waitsFor [Preorder π] (rank : ℓ → π)
    (h : ∀ a b l l', wants a = some l → owns b l → wants b = some l' → rank l < rank l') (a : θ) :
    ¬ Relation.TransGen (WaitsFor wants owns) a a := by
  -- along a path, what is wanted goes up
  have hpath : ∀ b, Relation.TransGen (WaitsFor wants owns) a b → ∀ l l', wants a = some l →
      wants b = some l' → rank l < rank l' := by
    intro b hab
    induction hab with
    | single hw =>
      obtain ⟨l₁, hl₁, hown⟩ := hw
      intro l l' hl hl'
      obtain rfl : l₁ = l := Option.some_injective _ (hl₁.symm.trans hl)
      exact h _ _ _ _ hl hown hl'
    | tail _ hw ih =>
      obtain ⟨l₁, hl₁, hown⟩ := hw
      intro l l' hl hl'
      exact (ih l l₁ hl hl₁).trans (h _ _ _ _ hl₁ hown hl')
  intro hcycle
  obtain ⟨b, ⟨l, hl, -⟩, -⟩ := Relation.TransGen.head'_iff.mp hcycle
  exact lt_irrefl _ (hpath a hcycle l l hl hl)

end Waiting

end TQLib
