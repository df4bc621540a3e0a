import Mathlib.Algebra.BigOperators.Group.List.Basic
import Mathlib.Algebra.GroupWithZero.Nat
import Mathlib.Order.WellFoundedSet

/-!
# Acyclic relations and worklists

A worklist is a list to which the successors of its elements are added while it is gone through.
Nothing keeps it from listing something twice, so it comes to its end only if there are no cycles;
then every element stands for a number of others that is finite.

## Main results

* `Acyclic.insert` — an edge that closes no cycle
* `Acyclic.wellFounded` — a finite acyclic relation is well founded
* `mem_scan` — the worklist lists what can be reached
* `exists_scan` — it comes to its end
-/

namespace TQLib

open Relation

variable {α : Type*} {r : α → α → Prop}

/-- Nothing can be reached from itself. -/
def Acyclic (r : α → α → Prop) : Prop := ∀ x, ¬ TransGen r x x

theorem Acyclic.mono {r' : α → α → Prop} (h : Acyclic r) (hle : ∀ x y, r' x y → r x y) :
    Acyclic r' := fun x hx => h x (TransGen.mono hle x x hx)

/-- What can be reached with one more edge can be reached without it, or by way of it. -/
theorem transGen_insert {s t x y : α} (hst : ¬ ReflTransGen r t s)
    (h : TransGen (fun a b => r a b ∨ a = s ∧ b = t) x y) :
    TransGen r x y ∨ ReflTransGen r x s ∧ ReflTransGen r t y := by
  induction h with
  | single h =>
    rcases h with h | ⟨rfl, rfl⟩
    · exact .inl (.single h)
    · exact .inr ⟨.refl, .refl⟩
  | tail _ h ih =>
    rcases ih with hxb | ⟨hxs, htb⟩
    · rcases h with h | ⟨rfl, rfl⟩
      · exact .inl (hxb.tail h)
      · exact .inr ⟨hxb.to_reflTransGen, .refl⟩
    · rcases h with h | ⟨rfl, rfl⟩
      · exact .inr ⟨hxs, htb.tail h⟩
      · exact absurd htb hst

/-- **One more edge.** No cycle comes of an edge from what its target does not reach. -/
theorem Acyclic.insert (h : Acyclic r) {s t : α} (hst : ¬ ReflTransGen r t s) :
    Acyclic fun a b => r a b ∨ a = s ∧ b = t := by
  intro x hx
  rcases transGen_insert hst hx with hxx | ⟨hxs, htx⟩
  · exact h x hxx
  · exact hst (htx.trans hxs)

/-- **A finite acyclic relation is well founded.** -/
theorem Acyclic.wellFounded (h : Acyclic r) (hfin : {x | ∃ y, r x y}.Finite) :
    WellFounded fun y x => r x y := by
  have hirrefl : Std.Irrefl fun y x => TransGen r x y := ⟨h⟩
  have htrans : IsTrans α fun y x => TransGen r x y := ⟨fun _ _ _ hab hbc => hbc.trans hab⟩
  have horder : IsStrictOrder α fun y x => TransGen r x y := {}
  have hwf := hfin.wellFoundedOn (r := fun y x => TransGen r x y)
  -- what has no successors is at the bottom
  have hleaf : ∀ x, (¬ ∃ y, r x y) → Acc (fun y x => r x y) x :=
    fun x hx => .intro x fun y hy => absurd ⟨y, hy⟩ hx
  refine ⟨fun x => ?_⟩
  by_cases hx : ∃ y, r x y
  · refine hwf.induction (P := fun x => Acc (fun y x => r x y) x) hx fun x hx ih => ?_
    refine .intro x fun y hy => ?_
    by_cases hy' : ∃ z, r y z
    · exact ih y hy' (.single hy)
    · exact hleaf y hy'
  · exact hleaf x hx

/-! ## The worklist -/

/-- Go through a list, from `todo` on, and add the successors of everything in it to its end. -/
def scan (next : α → List α) : ℕ → List α → List α → Option (List α)
  | _, done, [] => some done
  | 0, _, _ :: _ => none
  | n + 1, done, x :: todo => scan next n (done ++ [x]) (todo ++ next x)

variable {next : α → List α} {n m : ℕ} {done todo all : List α}

theorem scan_mono (h : scan next n done todo = some all) (hle : n ≤ m) :
    scan next m done todo = some all := by
  induction n generalizing m done todo with
  | zero =>
    cases todo with
    | nil => cases m <;> exact h
    | cons x todo => cases h
  | succ n ih =>
    cases todo with
    | nil => cases m <;> exact h
    | cons x todo =>
      obtain ⟨m, rfl⟩ := Nat.exists_eq_add_of_le hle
      rw [Nat.add_right_comm]
      change scan next (n + m) (done ++ [x]) (todo ++ next x) = some all
      exact ih h (Nat.le_add_right _ _)

/-- **What is listed** is what can be reached. -/
theorem mem_scan (h : scan next n done todo = some all) (y : α) :
    y ∈ all ↔ y ∈ done ∨ ∃ x ∈ todo, ReflTransGen (fun a b => b ∈ next a) x y := by
  induction n generalizing done todo with
  | zero =>
    cases todo with
    | nil =>
      cases h
      simp
    | cons x todo => cases h
  | succ n ih =>
    cases todo with
    | nil =>
      cases h
      simp
    | cons x todo =>
      rw [ih h, List.mem_append, List.mem_singleton]
      simp only [List.mem_append, List.mem_cons, or_and_right, exists_or, exists_eq_left]
      rw [ReflTransGen.cases_head_iff (a := x), eq_comm (a := x), or_assoc, or_assoc]
      exact or_congr_right (or_congr_right or_comm)

/-- Everything stands for itself and for what its successors stand for. -/
theorem exists_weight (hwf : WellFounded fun y x => y ∈ next x) :
    ∃ w : α → ℕ, ∀ x, w x = 1 + ((next x).map w).sum := by
  refine ⟨hwf.fix fun x w => 1 + ((next x).attach.map fun y => w y.1 y.2).sum, fun x => ?_⟩
  rw [hwf.fix_eq]
  congr 2
  exact List.attach_map_val (f := hwf.fix _)

/-- **The worklist comes to its end**, if there are no cycles. -/
theorem exists_scan (hwf : WellFounded fun y x => y ∈ next x) (done todo : List α) :
    ∃ n, (scan next n done todo).isSome = true := by
  obtain ⟨w, hw⟩ := exists_weight hwf
  suffices hsum : ∀ n done todo, (todo.map w).sum ≤ n → (scan next n done todo).isSome = true from
    ⟨_, hsum _ done todo le_rfl⟩
  intro n
  induction n with
  | zero =>
    intro done todo hle
    cases todo with
    | nil => rfl
    | cons x todo =>
      rw [List.map_cons, List.sum_cons, hw x] at hle
      omega
  | succ n ih =>
    intro done todo hle
    cases todo with
    | nil => rfl
    | cons x todo =>
      refine ih _ _ ?_
      rw [List.map_cons, List.sum_cons, hw x] at hle
      rw [List.map_append, List.sum_append]
      omega

end TQLib
