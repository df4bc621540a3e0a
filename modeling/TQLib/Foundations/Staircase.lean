import Mathlib.Order.MinMax
import Mathlib.Data.List.DropRight

/-!
# The greatest in a window

Values that come with a time are given one after another. Which of them is the greatest from some
time on is known from a few of them, those that no later one is as great as. They go down while the
times go up, so they are called a staircase here: the greatest is the first, what is too old is in
front, and what a new value is as great as is at the end.

## Main results

* `Staircase.dropBefore` — the window moves on
* `Staircase.put` — one more value
* `Staircase.head?_eq_max?` — the greatest is the first
-/

namespace TQLib

variable {τ α : Type*} [LinearOrder τ] [LinearOrder α]

theorem max?_eq_some {l : List α} {a : α} : l.max? = some a ↔ a ∈ l ∧ ∀ b ∈ l, b ≤ a := by
  have : Std.LawfulOrderMax α :=
    { max_eq_or := max_choice, max_le_iff := fun _ _ _ => max_le_iff }
  exact List.max?_eq_some_iff

/-- Each is later than those before it, and less. -/
def Descends (D : List (τ × α)) : Prop := D.Pairwise fun p q => p.1 < q.1 ∧ q.2 < p.2

/-- Without what is before a time. -/
def dropBefore (start : τ) (D : List (τ × α)) : List (τ × α) := D.dropWhile fun p => p.1 < start

/-- Without what the value is as great as. -/
def dropBelow (x : α) (D : List (τ × α)) : List (τ × α) := D.rdropWhile fun p => p.2 ≤ x

/-- One more value, unless there is a greater one of the same time. -/
def put (t : τ) (x : α) (D : List (τ × α)) : List (τ × α) :=
  if (dropBelow x D).getLast?.all fun p => p.1 < t then dropBelow x D ++ [(t, x)]
  else dropBelow x D

variable {start start' t : τ} {x : α} {A D : List (τ × α)}

theorem mem_dropBefore (hD : Descends D) {d : τ × α} :
    d ∈ dropBefore start D ↔ d ∈ D ∧ start ≤ d.1 := by
  induction D with
  | nil => simp [dropBefore]
  | cons e D ih =>
    obtain ⟨he, hD⟩ := List.pairwise_cons.mp hD
    rw [dropBefore, List.dropWhile_cons]
    split
    · rename_i hlt
      have hlt : e.1 < start := of_decide_eq_true hlt
      change d ∈ dropBefore start D ↔ _
      rw [ih hD, List.mem_cons]
      constructor
      · exact fun h => ⟨.inr h.1, h.2⟩
      · rintro ⟨rfl | hd, hle⟩
        · exact absurd hlt hle.not_gt
        · exact ⟨hd, hle⟩
    · rename_i hge
      have hge : start ≤ e.1 := by simpa using hge
      refine ⟨fun hd => ⟨hd, ?_⟩, And.left⟩
      rcases List.mem_cons.mp hd with rfl | hd
      · exact hge
      · exact hge.trans (he d hd).1.le

theorem mem_dropBelow (hD : Descends D) {d : τ × α} : d ∈ dropBelow x D ↔ d ∈ D ∧ x < d.2 := by
  induction D using List.reverseRecOn with
  | nil => simp [dropBelow]
  | append_singleton D e ih =>
    obtain ⟨hD, -, he⟩ := List.pairwise_append.mp hD
    rw [dropBelow, List.rdropWhile_concat]
    split
    · rename_i hle
      have hle : e.2 ≤ x := of_decide_eq_true hle
      change d ∈ dropBelow x D ↔ _
      rw [ih hD, List.mem_append, List.mem_singleton]
      constructor
      · exact fun h => ⟨.inl h.1, h.2⟩
      · rintro ⟨hd | rfl, hlt⟩
        · exact ⟨hd, hlt⟩
        · exact absurd hlt hle.not_gt
    · rename_i hgt
      have hgt : x < e.2 := by simpa using hgt
      refine ⟨fun hd => ⟨hd, ?_⟩, And.left⟩
      rcases List.mem_append.mp hd with hd | hd
      · exact hgt.trans (he d hd e (List.mem_singleton_self e)).2
      · rwa [List.mem_singleton.mp hd]

theorem Descends.dropBefore (hD : Descends D) : Descends (dropBefore start D) :=
  hD.sublist (List.dropWhile_sublist _)

theorem Descends.dropBelow (hD : Descends D) : Descends (dropBelow x D) :=
  hD.sublist (List.rdropWhile_prefix _ _).sublist

/-- All are before a time if the last is. -/
theorem Descends.lt_of_getLast? (hD : Descends D) (hlast : D.getLast?.all fun p => p.1 < t)
    {d : τ × α} (hd : d ∈ D) : d.1 < t := by
  rcases List.eq_nil_or_concat' D with rfl | ⟨D, e, rfl⟩
  · cases hd
  · have he : e.1 < t := by simpa using hlast
    obtain ⟨-, -, hlt⟩ := List.pairwise_append.mp hD
    rcases List.mem_append.mp hd with hd | hd
    · exact (hlt d hd e (List.mem_singleton_self e)).1.trans he
    · rwa [List.mem_singleton.mp hd]

theorem Descends.put (hD : Descends D) (t : τ) (x : α) : Descends (put t x D) := by
  rw [TQLib.put]
  split
  · rename_i hlast
    refine List.pairwise_append.mpr ⟨hD.dropBelow, List.pairwise_singleton _ _, ?_⟩
    intro d hd e he
    obtain rfl := List.mem_singleton.mp he
    exact ⟨hD.dropBelow.lt_of_getLast? hlast hd, ((mem_dropBelow hD).mp hd).2⟩
  · exact hD.dropBelow

theorem mem_put_of_lt (hD : Descends D) {d : τ × α} (hd : d ∈ D) (hlt : x < d.2) :
    d ∈ put t x D := by
  have hmem : d ∈ dropBelow x D := (mem_dropBelow hD).mpr ⟨hd, hlt⟩
  rw [put]
  split
  · exact List.mem_append_left _ hmem
  · exact hmem

theorem mem_of_mem_put {d : τ × α} (hd : d ∈ put t x D) : d ∈ D ∨ d = (t, x) := by
  have hsub : ∀ d ∈ dropBelow x D, d ∈ D := (List.rdropWhile_prefix _ _).subset
  rw [put] at hd
  split at hd
  · rcases List.mem_append.mp hd with hd | hd
    · exact .inl (hsub d hd)
    · exact .inr (List.mem_singleton.mp hd)
  · exact .inl (hsub d hd)

/-- The new value is there, or one of the same time that is greater. -/
theorem exists_mem_put (hD : Descends D) (t : τ) (x : α) :
    ∃ d ∈ put t x D, t ≤ d.1 ∧ x ≤ d.2 := by
  rw [put]
  split
  · exact ⟨(t, x), List.mem_append_right _ (List.mem_singleton_self _), le_rfl, le_rfl⟩
  · rename_i hlast
    cases hd : (dropBelow x D).getLast? with
    | none => simp [hd] at hlast
    | some d =>
      have hmem := List.mem_of_getLast? hd
      refine ⟨d, hmem, ?_, ((mem_dropBelow hD).mp hmem).2.le⟩
      simpa [hd] using hlast

/-- `D` has all that is needed of `A` to know the greatest from `start` on. -/
structure Staircase (start : τ) (A D : List (τ × α)) : Prop where
  /-- It goes down. -/
  descends : Descends D
  /-- It has nothing else. -/
  mem : ∀ d ∈ D, d ∈ A
  /-- It has nothing that is too old. -/
  le : ∀ d ∈ D, start ≤ d.1
  /-- What it does not have there is something for that is as late and as great. -/
  dominated : ∀ a ∈ A, start ≤ a.1 → ∃ d ∈ D, a.1 ≤ d.1 ∧ a.2 ≤ d.2

namespace Staircase

theorem nil (start : τ) : Staircase start ([] : List (τ × α)) [] where
  descends := .nil
  mem _ hd := hd
  le _ hd := by cases hd
  dominated _ ha := by cases ha

/-- The window moves on. -/
theorem dropBefore (hs : Staircase start A D) (hle : start ≤ start') :
    Staircase start' A (dropBefore start' D) where
  descends := hs.descends.dropBefore
  mem d hd := hs.mem d ((mem_dropBefore hs.descends).mp hd).1
  le d hd := ((mem_dropBefore hs.descends).mp hd).2
  dominated a ha hstart := by
    obtain ⟨d, hd, htime, hvalue⟩ := hs.dominated a ha (hle.trans hstart)
    exact ⟨d, (mem_dropBefore hs.descends).mpr ⟨hd, hstart.trans htime⟩, htime, hvalue⟩

/-- One more value, which is the latest. -/
theorem put (hs : Staircase start A D) (hstart : start ≤ t) (hlatest : ∀ a ∈ A, a.1 ≤ t) (x : α) :
    Staircase start (A ++ [(t, x)]) (put t x D) where
  descends := hs.descends.put t x
  mem d hd := by
    rcases mem_of_mem_put hd with hd | rfl
    · exact List.mem_append_left _ (hs.mem d hd)
    · exact List.mem_append_right _ (List.mem_singleton_self _)
  le d hd := by
    rcases mem_of_mem_put hd with hd | rfl
    · exact hs.le d hd
    · exact hstart
  dominated a ha hle := by
    obtain ⟨e, he, htime, hvalue⟩ := exists_mem_put hs.descends t x
    rcases List.mem_append.mp ha with ha | ha
    · obtain ⟨d, hd, htime', hvalue'⟩ := hs.dominated a ha hle
      -- what stood for `a` may have gone, but only for the new value
      by_cases hlt : x < d.2
      · exact ⟨d, mem_put_of_lt hs.descends hd hlt, htime', hvalue'⟩
      · exact ⟨e, he, (hlatest a ha).trans htime, (hvalue'.trans (not_lt.mp hlt)).trans hvalue⟩
    · obtain rfl := List.mem_singleton.mp ha
      exact ⟨e, he, htime, hvalue⟩

/-- The greatest is the first. -/
theorem head?_eq_max? (hs : Staircase start A D) :
    D.head?.map Prod.snd = ((A.filter fun a => start ≤ a.1).map Prod.snd).max? := by
  symm
  cases D with
  | nil =>
    rw [List.head?_nil, Option.map_none, List.max?_eq_none_iff, List.map_eq_nil_iff,
      List.filter_eq_nil_iff]
    intro a ha hle
    obtain ⟨d, hd, -⟩ := hs.dominated a ha (of_decide_eq_true hle)
    cases hd
  | cons d D =>
    rw [List.head?_cons, Option.map_some, max?_eq_some]
    constructor
    · refine List.mem_map_of_mem (List.mem_filter.mpr ⟨hs.mem d List.mem_cons_self, ?_⟩)
      exact decide_eq_true (hs.le d List.mem_cons_self)
    · intro b hb
      obtain ⟨a, ha, rfl⟩ := List.mem_map.mp hb
      obtain ⟨ha, hle⟩ := List.mem_filter.mp ha
      obtain ⟨e, he, -, hvalue⟩ := hs.dominated a ha (of_decide_eq_true hle)
      refine hvalue.trans ?_
      rcases List.mem_cons.mp he with rfl | he
      · exact le_rfl
      · exact ((List.pairwise_cons.mp hs.descends).1 e he).2.le

end Staircase

end TQLib
