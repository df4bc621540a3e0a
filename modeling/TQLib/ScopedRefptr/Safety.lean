import TQLib.ScopedRefptr.Invariant
import Mathlib.Data.Fintype.Option

/-!
# No object is used after it has been deleted

Every step keeps the invariant, uses no object that does not live, and deletes none a second time.

## Main results

* `Inv.step` — a step
* `scopedRefptr_safe` — a run: nothing is used after it has been deleted, nothing is deleted twice,
  and what lives has an owner
-/

namespace TQLib

namespace ScopedRefptr

variable {ν ω : Type*} [DecidableEq ν] [DecidableEq ω] {s : State ν ω} {v : ν} {o : ω}
  {c : Cell ν ω}

/-! ## Steps -/

variable {s' : State ν ω} {out : List (Event ν ω)}

/-- Whether an object has been deleted. -/
def dead (s : State ν ω) (o : ω) : ℕ := if s.life o = .deleted then 1 else 0

/-- What a step leads to, and what it shows. -/
structure Safe (s s' : State ν ω) (out : List (Event ν ω)) : Prop where
  inv : Inv s'
  /-- No object is used that does not live. -/
  used : ∀ o, Event.used o false ∉ out
  /-- What is deleted has not been deleted before. -/
  once : ∀ o, out.count (.deleted o) + dead s o = dead s' o

omit [DecidableEq ν] in
theorem dead_update {o₀ : ω} {l : Life} (hl : l ≠ .deleted) (hwas : s.life o₀ ≠ .deleted)
    (cell : ν → Cell ν ω) (o : ω) : dead ⟨cell, Function.update s.life o₀ l⟩ o = dead s o := by
  by_cases ho : o = o₀
  · subst ho
    simp [dead, hl, hwas]
  · simp [dead, Function.update_of_ne ho]

/-- A step of an operation which takes or drops nothing. -/
theorem Inv.safe_same (h : Inv s) (hbusy : ∀ p, s.cell v ≠ .ready p) (hborrow : c.borrow = none)
    (hweight : ∀ o, weight c o = weight (s.cell v) o) (hsole : c.sole = (s.cell v).sole) :
    Safe s (s.set v c s.life) ([] : List (Event ν ω)) where
  inv := h.set_same (h.free_of_busy hbusy) (by simp [hborrow]) hweight hsole
  used := by simp
  once o := by
    rw [List.count_nil, Nat.zero_add]
    rfl

/-- `AddRef`. -/
theorem Inv.safe_addRef (h : Inv s) (hbusy : ∀ p, s.cell v ≠ .ready p) (hborrow : c.borrow = none)
    {o₀ : ω} (hwas : (s.cell v).sole = some o₀ ∨
      (s.cell v).sole = none ∧ ∃ r, (s.cell r).counted = some o₀)
    (hweight : ∀ o, weight c o = weight (s.cell v) o + one (some o₀) o) (hsole : c.sole = none) :
    Safe s (s.set v c (addRef (ν := ν) s.life o₀).1) (addRef s.life o₀).2 := by
  have hfree := h.free_of_busy hbusy
  obtain ⟨n₀, hlive, hn₀, hcases⟩ : ∃ n₀ : ℕ, s.life o₀ = .live n₀ ∧ refs s o₀ = n₀ ∧
      ((s.cell v).sole = some o₀ ∨ (s.cell v).sole = none ∧ 1 ≤ n₀) := by
    rcases hwas with hs | ⟨hs, r, hr⟩
    · obtain ⟨hlive, hrefs, -⟩ := h.live_of_sole hs
      exact ⟨0, hlive, hrefs, .inl hs⟩
    · obtain ⟨n, hlive, hrefs, hpos, -⟩ := h.live_of_counted hr
      exact ⟨n, hlive, hrefs, .inr ⟨hs, hpos⟩⟩
  have hadd : addRef (ν := ν) s.life o₀ =
      (Function.update s.life o₀ (.live (n₀ + 1)), [.used o₀ true]) := by
    simp only [addRef, hlive]
  rw [hadd]
  refine ⟨h.set_addRef hfree hborrow hlive hn₀ hweight hsole hcases, by simp, fun o => ?_⟩
  rw [State.set, dead_update (by simp) (by simp [hlive])]
  simp

/-- `Release`, up to where the object is deleted. -/
theorem Inv.safe_decRef (h : Inv s) (hbusy : ∀ p, s.cell v ≠ .ready p) {c₁ c₂ : Cell ν ω}
    {o₀ : ω} (hcounted : (s.cell v).counted = some o₀) (hwas : (s.cell v).sole = none)
    (hborrow : c₁.borrow = none ∧ c₂.borrow = none)
    (hweight : ∀ o, weight c₁ o + one (some o₀) o = weight (s.cell v) o ∧
      weight c₂ o + one (some o₀) o = weight (s.cell v) o)
    (hsole : c₁.sole = some o₀ ∧ c₂.sole = none) :
    Safe s (s.set v (if (decRef (ν := ν) s.life o₀).2.1 then c₁ else c₂)
      (decRef (ν := ν) s.life o₀).1) (decRef s.life o₀).2.2 := by
  have hfree := h.free_of_busy hbusy
  obtain ⟨n₀, hlive, hn₀, hpos, -⟩ := h.live_of_counted hcounted
  have hdec : decRef (ν := ν) s.life o₀ = (Function.update s.life o₀ (.live (n₀ - 1)),
      decide ((n₀ : ℤ) - 1 = 0), [.used o₀ true]) := by
    simp only [decRef, hlive]
  rw [hdec]
  refine ⟨?_, by simp, fun o => ?_⟩
  · by_cases hone : n₀ = 1
    · have hlast : decide ((n₀ : ℤ) - 1 = 0) = true := decide_eq_true (by omega)
      rw [hlast, if_pos rfl]
      exact h.set_decRef hfree hborrow.1 hlive hn₀ hpos (fun o => (hweight o).1) hwas
        (by rw [if_pos hone, hsole.1])
    · have hlast : decide ((n₀ : ℤ) - 1 = 0) = false := decide_eq_false (by omega)
      rw [hlast, if_neg Bool.false_ne_true]
      exact h.set_decRef hfree hborrow.2 hlive hn₀ hpos (fun o => (hweight o).2) hwas
        (by rw [if_neg hone, hsole.2])
  · rw [State.set, dead_update (by simp) (by simp [hlive])]
    simp

/-- `delete this`. -/
theorem Inv.safe_delete (h : Inv s) (hbusy : ∀ p, s.cell v ≠ .ready p) (hborrow : c.borrow = none)
    {o₀ : ω} (hweight : ∀ o, weight c o = weight (s.cell v) o)
    (hwas : (s.cell v).sole = some o₀) (hsole : c.sole = none) :
    Safe s (s.set v c (Function.update s.life o₀ .deleted)) [Event.deleted o₀] := by
  refine ⟨h.set_delete (h.free_of_busy hbusy) hborrow hweight hwas hsole, by simp, fun o => ?_⟩
  have hlive := (h.live_of_sole hwas).1
  by_cases ho : o = o₀
  · subst ho
    simp [dead, State.set, hlive]
  · simp [dead, State.set, Function.update_of_ne ho, Ne.symm ho]

/-- **The next step of an operation** is safe. -/
theorem Inv.next (h : Inv s) (hst : next s v = some (s', out)) : Safe s s' out := by
  have hborrow := h.borrow v
  cases hc : s.cell v with
  | absent => simp [ScopedRefptr.next, hc] at hst
  | ready p => simp [ScopedRefptr.next, hc] at hst
  | ctorAdd o src =>
    simp only [ScopedRefptr.next, hc, Option.some.injEq, Prod.mk.injEq] at hst
    obtain ⟨rfl, rfl⟩ := hst
    refine h.safe_addRef (by simp [hc]) rfl ?_ (fun o' => ?_) rfl
    · cases src with
      | none => exact .inl (by rw [hc]; rfl)
      | some r =>
        refine .inr ⟨by rw [hc]; rfl, r, ?_⟩
        rw [hc] at hborrow
        rcases hborrow r o rfl with ⟨-, h'⟩ | ⟨-, h'⟩
        · cases h'
        · rw [h']
          rfl
    · rw [hc]
      simp [weight, Cell.counted, Cell.held]
  | assignAdd ptr p src =>
    cases p with
    | none =>
      simp only [ScopedRefptr.next, hc, Option.some.injEq, Prod.mk.injEq] at hst
      obtain ⟨rfl, rfl⟩ := hst
      refine h.safe_same (by simp [hc]) rfl (fun o => ?_) ?_
      · rw [hc]
        rfl
      · rw [hc]
        rfl
    | some o =>
      simp only [ScopedRefptr.next, hc, Option.some.injEq, Prod.mk.injEq] at hst
      obtain ⟨rfl, rfl⟩ := hst
      refine h.safe_addRef (by simp [hc]) rfl ?_ (fun o' => ?_) rfl
      · cases src with
        | none => exact .inl (by rw [hc]; rfl)
        | some r =>
          refine .inr ⟨by rw [hc]; rfl, r, ?_⟩
          rw [hc] at hborrow
          rcases hborrow r o rfl with ⟨rfl, h'⟩ | ⟨-, h'⟩
          · rw [hc]
            exact h'
          · rw [h']
            rfl
      · rw [hc]
        simp [weight, Cell.counted, Cell.held]
  | assignRelease ptr p =>
    cases ptr with
    | none =>
      simp only [ScopedRefptr.next, hc, Option.some.injEq, Prod.mk.injEq] at hst
      obtain ⟨rfl, rfl⟩ := hst
      refine h.safe_same (by simp [hc]) rfl (fun o => ?_) ?_
      · rw [hc]
        simp [weight, Cell.counted, Cell.held]
      · rw [hc]
        rfl
    | some o =>
      simp only [ScopedRefptr.next, hc, Option.some.injEq, Prod.mk.injEq] at hst
      obtain ⟨rfl, rfl⟩ := hst
      refine h.safe_decRef (by simp [hc]) (by rw [hc]; rfl) (by rw [hc]; rfl) ⟨rfl, rfl⟩
        (fun o' => ?_) ⟨rfl, rfl⟩
      rw [hc]
      simp [weight, Cell.counted, Cell.held, Nat.add_comm]
  | assignDelete o p =>
    simp only [ScopedRefptr.next, hc, Option.some.injEq, Prod.mk.injEq] at hst
    obtain ⟨rfl, rfl⟩ := hst
    exact h.safe_delete (by simp [hc]) rfl (fun o' => by rw [hc]; rfl) (by rw [hc]; rfl) rfl
  | assignStore ptr p =>
    simp only [ScopedRefptr.next, hc, Option.some.injEq, Prod.mk.injEq] at hst
    obtain ⟨rfl, rfl⟩ := hst
    refine h.safe_same (by simp [hc]) rfl (fun o => ?_) ?_
    · rw [hc]
      simp [weight, Cell.counted, Cell.held]
    · rw [hc]
      rfl
  | dtorRelease ptr =>
    cases ptr with
    | none =>
      simp only [ScopedRefptr.next, hc, Option.some.injEq, Prod.mk.injEq] at hst
      obtain ⟨rfl, rfl⟩ := hst
      refine h.safe_same (by simp [hc]) rfl (fun o => ?_) ?_
      · rw [hc]
        rfl
      · rw [hc]
        rfl
    | some o =>
      simp only [ScopedRefptr.next, hc, Option.some.injEq, Prod.mk.injEq] at hst
      obtain ⟨rfl, rfl⟩ := hst
      refine h.safe_decRef (by simp [hc]) (by rw [hc]; rfl) (by rw [hc]; rfl) ⟨rfl, rfl⟩
        (fun o' => ?_) ⟨rfl, rfl⟩
      rw [hc]
      simp [weight, Cell.counted, Cell.held]
  | dtorDelete o =>
    simp only [ScopedRefptr.next, hc, Option.some.injEq, Prod.mk.injEq] at hst
    obtain ⟨rfl, rfl⟩ := hst
    exact h.safe_delete (by simp [hc]) rfl (fun o' => by rw [hc]; rfl) (by rw [hc]; rfl) rfl
  | dtorEnd ptr =>
    simp only [ScopedRefptr.next, hc, Option.some.injEq, Prod.mk.injEq] at hst
    obtain ⟨rfl, rfl⟩ := hst
    refine h.safe_same (by simp [hc]) rfl (fun o => ?_) ?_
    · rw [hc]
      rfl
    · rw [hc]
      rfl

/-- An operation begins. -/
theorem Inv.safe_begin (h : Inv s) (hfree : ∀ w o, (s.cell w).borrow = some (v, o) → w = v)
    (hborrow : ∀ r o, c.borrow = some (r, o) →
      (r = v ∧ c.counted = some o) ∨ (r ≠ v ∧ s.cell r = .ready (some o)))
    (hweight : ∀ o, weight c o = weight (s.cell v) o) (hsole : c.sole = (s.cell v).sole) :
    Safe s (s.set v c s.life) ([] : List (Event ν ω)) where
  inv := h.set_same hfree hborrow hweight hsole
  used := by simp
  once o := by
    rw [List.count_nil, Nat.zero_add]
    rfl

/-- An object is made. -/
theorem Inv.safe_new (h : Inv s) (hfree : ∀ w o, (s.cell w).borrow = some (v, o) → w = v)
    (hborrow : c.borrow = none) {o₀ : ω} (hunborn : s.life o₀ = .unborn)
    (hweight : ∀ o, weight c o = weight (s.cell v) o)
    (hwas : (s.cell v).sole = none) (hsole : c.sole = some o₀) :
    Safe s (s.set v c (Function.update s.life o₀ (.live 0))) ([] : List (Event ν ω)) where
  inv := h.set_new hfree hborrow hunborn hweight hwas hsole
  used := by simp
  once o := by
    rw [State.set, dead_update (by simp) (by simp [hunborn])]
    simp

/-- Two variables exchange what they have. -/
theorem Inv.safe_two (h : Inv s) {w : ν} {p q p' q' : Option ω} (hne : w ≠ v) (hv : Free s v)
    (hw : Free s w) (hcell : weight (s.cell v) = weight (.ready p : Cell ν ω) ∧
      weight (s.cell w) = weight (.ready q : Cell ν ω))
    (hsole : (s.cell v).sole = none ∧ (s.cell w).sole = none)
    (hperm : ∀ o, one p' o + one q' o = one p o + one q o) :
    Safe s ((s.set v (.ready p') s.life).set w (.ready q') s.life) ([] : List (Event ν ω)) where
  inv := by
    refine h.set_two hne hv hw (fun o => ?_) ⟨rfl, rfl⟩ ⟨rfl, rfl⟩ hsole
    rw [hcell.1, hcell.2]
    exact hperm o
  used := by simp
  once o := by
    rw [List.count_nil, Nat.zero_add]
    rfl

/-- **A step** of users who see to what they have to is safe. -/
theorem Inv.step (h : Inv s) {a : Label ν ω} (ha : Ordered s a)
    (hst : step s a = some (s', out)) : Safe s s' out := by
  cases a with
  | makeNull v =>
    simp only [ScopedRefptr.step, Option.ite_none_right_eq_some, Option.some.injEq,
      Prod.mk.injEq] at hst
    obtain ⟨hc, rfl, rfl⟩ := hst
    exact h.safe_begin (h.free_of_busy (by simp [hc])) (by simp [Cell.borrow])
      (fun o => by rw [hc]; rfl) (by rw [hc]; rfl)
  | make v o =>
    simp only [ScopedRefptr.step, Option.ite_none_right_eq_some, Option.some.injEq,
      Prod.mk.injEq] at hst
    obtain ⟨⟨hc, hunborn⟩, rfl, rfl⟩ := hst
    exact h.safe_new (h.free_of_busy (by simp [hc])) rfl hunborn (fun o => by rw [hc]; rfl)
      (by rw [hc]; rfl) rfl
  | copy v r =>
    obtain ⟨ptr, hr⟩ := ha
    simp only [ScopedRefptr.step, Option.ite_none_right_eq_some, hr, Cell.ptr] at hst
    obtain ⟨hc, hst⟩ := hst
    have hne : r ≠ v := by
      rintro rfl
      rw [hc] at hr
      cases hr
    cases ptr with
    | none =>
      simp only [Option.some.injEq, Prod.mk.injEq] at hst
      obtain ⟨rfl, rfl⟩ := hst
      exact h.safe_begin (h.free_of_busy (by simp [hc])) (by simp [Cell.borrow])
        (fun o => by rw [hc]; rfl) (by rw [hc]; rfl)
    | some o =>
      simp only [Option.some.injEq, Prod.mk.injEq] at hst
      obtain ⟨rfl, rfl⟩ := hst
      refine h.safe_begin (h.free_of_busy (by simp [hc])) (fun r' o' h' => ?_)
        (fun o => by rw [hc]; rfl) (by rw [hc]; rfl)
      simp only [Cell.borrow, Option.some.injEq, Prod.mk.injEq] at h'
      obtain ⟨rfl, rfl⟩ := h'
      exact .inr ⟨hne, hr⟩
  | move v r =>
    simp only [ScopedRefptr.step] at hst
    split at hst
    · next p hv hr =>
      simp only [Option.some.injEq, Prod.mk.injEq] at hst
      obtain ⟨rfl, rfl⟩ := hst
      have hne : v ≠ r := by
        rintro rfl
        rw [hv] at hr
        cases hr
      have hfree : Free s v := fun w o hw => by
        have hwv := h.free_of_busy (by simp [hv]) w o hw
        rw [hwv, hv] at hw
        cases hw
      refine h.safe_two (p := p) (q := none) hne ha hfree ⟨by rw [hr], by rw [hv]; rfl⟩
        ⟨by rw [hr]; rfl, by rw [hv]; rfl⟩ fun o => ?_
      rw [one_none, Nat.add_comm]
    · cases hst
  | assign v r =>
    obtain ⟨⟨ptr', hr⟩, hfree⟩ := ha
    simp only [ScopedRefptr.step, hr, Cell.ptr] at hst
    cases hv : s.cell v with
    | ready ptr =>
      simp only [hv, Option.some.injEq, Prod.mk.injEq] at hst
      obtain ⟨rfl, rfl⟩ := hst
      refine h.safe_begin (fun w o hw => absurd hw (hfree w o)) (fun r' o' h' => ?_)
        (fun o => ?_) ?_
      · cases ptr' with
        | none => cases h'
        | some o =>
          simp only [Cell.borrow, Option.some.injEq, Prod.mk.injEq] at h'
          obtain ⟨rfl, rfl⟩ := h'
          by_cases hrv : r = v
          · subst hrv
            rw [hv, Cell.ready.injEq] at hr
            exact .inl ⟨rfl, hr⟩
          · exact .inr ⟨hrv, hr⟩
      · rw [hv]
        rfl
      · rw [hv]
        cases ptr' <;> rfl
    | _ => simp [hv] at hst
  | assignNull v =>
    cases hv : s.cell v with
    | ready ptr =>
      simp only [ScopedRefptr.step, hv, Option.some.injEq, Prod.mk.injEq] at hst
      obtain ⟨rfl, rfl⟩ := hst
      exact h.safe_begin (fun w o hw => absurd hw (ha w o)) (by simp [Cell.borrow])
        (fun o => by rw [hv]; rfl) (by rw [hv]; rfl)
    | _ => simp [ScopedRefptr.step, hv] at hst
  | assignNew v o =>
    cases hv : s.cell v with
    | ready ptr =>
      cases hl : s.life o with
      | unborn =>
        simp only [ScopedRefptr.step, hv, hl, Option.some.injEq, Prod.mk.injEq] at hst
        obtain ⟨rfl, rfl⟩ := hst
        exact h.safe_new (fun w o hw => absurd hw (ha w o)) rfl hl (fun o => by rw [hv]; rfl)
          (by rw [hv]; rfl) rfl
      | _ => simp [ScopedRefptr.step, hv, hl] at hst
    | _ => simp [ScopedRefptr.step, hv] at hst
  | swap v w =>
    simp only [ScopedRefptr.step] at hst
    split at hst
    · next p q hv hw =>
      simp only [Option.some.injEq, Prod.mk.injEq] at hst
      obtain ⟨rfl, rfl⟩ := hst
      by_cases hne : w = v
      · subst hne
        rw [hv, Cell.ready.injEq] at hw
        rw [Function.update_idem, ← hv, Function.update_eq_self]
        exact ⟨h, by simp, fun o => by rw [List.count_nil, Nat.zero_add]⟩
      · refine h.safe_two (p := p) (q := q) hne ha.1 ha.2 ⟨by rw [hv], by rw [hw]⟩
          ⟨by rw [hv]; rfl, by rw [hw]; rfl⟩ fun o => Nat.add_comm _ _
    · cases hst
  | destroy v =>
    cases hv : s.cell v with
    | ready ptr =>
      simp only [ScopedRefptr.step, hv, Option.some.injEq, Prod.mk.injEq] at hst
      obtain ⟨rfl, rfl⟩ := hst
      exact h.safe_begin (fun w o hw => absurd hw (ha w o)) (by simp [Cell.borrow])
        (fun o => by rw [hv]; rfl) (by rw [hv]; rfl)
    | _ => simp [ScopedRefptr.step, hv] at hst
  | step v => exact h.next hst
  | deref v =>
    simp only [ScopedRefptr.step] at hst
    split at hst
    · next o hptr =>
      simp only [Option.some.injEq, Prod.mk.injEq] at hst
      obtain ⟨rfl, rfl⟩ := hst
      obtain ⟨n, hlive⟩ := h.live_of_atRest ha hptr
      refine ⟨h, by simp [use, hlive], fun o => ?_⟩
      simp [use, hlive]
    · cases hst
  | hasOneRef v =>
    simp only [ScopedRefptr.step] at hst
    split at hst
    · next o hptr =>
      simp only [Option.some.injEq, Prod.mk.injEq] at hst
      obtain ⟨rfl, rfl⟩ := hst
      obtain ⟨n, hlive⟩ := h.live_of_atRest ha hptr
      refine ⟨h, by simp [use, hlive], fun o => ?_⟩
      simp [use, hlive]
    · cases hst

/-! ## Runs -/

/-- No operation is under way. -/
def Quiet (s : State ν ω) : Prop := ∀ v, s.cell v = .absent ∨ AtRest s v

omit [DecidableEq ν] [DecidableEq ω] in
theorem Quiet.counted_iff (hq : Quiet s) (v : ν) (o : ω) :
    (s.cell v).counted = some o ↔ s.cell v = .ready (some o) := by
  rcases hq v with hc | ⟨ptr, hc⟩
  · simp [hc, Cell.counted]
  · simp [hc, Cell.counted]

omit [DecidableEq ν] [DecidableEq ω] in
theorem Quiet.held (hq : Quiet s) (v : ν) : (s.cell v).held = none ∧ (s.cell v).sole = none := by
  rcases hq v with hc | ⟨ptr, hc⟩
  · rw [hc]
    exact ⟨rfl, rfl⟩
  · rw [hc]
    exact ⟨rfl, rfl⟩

omit [DecidableEq ν] [DecidableEq ω] in
/-- With no operation under way, what lives has as many owners as are counted, and has one. -/
theorem Inv.count_of_quiet (h : Inv s) (hq : Quiet s) {n : ℤ} (hlive : s.life o = .live n) :
    n = {v | s.cell v = .ready (some o)}.ncard ∧ 1 ≤ n := by
  have hcounted : {v | (s.cell v).counted = some o} = {v | s.cell v = .ready (some o)} := by
    ext v
    exact hq.counted_iff v o
  have hheld : {v | (s.cell v).held = some o} = ∅ := by
    ext v
    simp [(hq.held v).1]
  have hsole : {v | (s.cell v).sole = some o} = ∅ := by
    ext v
    simp [(hq.held v).2]
  have ha := h.agree o
  rw [hlive, refs, soles, hcounted, hheld, hsole, Set.ncard_empty, Nat.add_zero] at ha
  obtain ⟨rfl, hk⟩ := ha
  refine ⟨rfl, ?_⟩
  by_contra hn
  rw [if_pos (by omega)] at hk
  cases hk

omit [DecidableEq ν] [DecidableEq ω] in
/-- The one reference to an object that has one is the one which is known. -/
theorem Inv.unique_of_one (h : Inv s) (hv : (s.cell v).counted = some o)
    (hone : s.life o = .live 1) {w : ν} (hw : w ≠ v) :
    (s.cell w).counted ≠ some o ∧ (s.cell w).held ≠ some o := by
  obtain ⟨n, hlive, hrefs, -⟩ := h.live_of_counted hv
  rw [hone, Life.live.injEq] at hlive
  have hn : n = 1 := by omega
  rw [refs, hn] at hrefs
  have hpos : 0 < {v | (s.cell v).counted = some o}.ncard :=
    (Set.ncard_pos (h.bounded.counted o)).mpr ⟨v, hv⟩
  constructor
  · intro hcounted
    have hle : {v | (s.cell v).counted = some o}.ncard ≤ 1 := by omega
    exact hw ((Set.ncard_le_one (h.bounded.counted o)).mp hle w hcounted v hv)
  · intro hheld
    have hpos' : 0 < {v | (s.cell v).held = some o}.ncard :=
      (Set.ncard_pos (h.bounded.held o)).mpr ⟨w, hheld⟩
    omega

omit [DecidableEq ν] [DecidableEq ω] in
theorem inv_start (hcell : ∀ v, s.cell v = .absent) (hlife : ∀ o, s.life o = .unborn) : Inv s := by
  have hcounted : ∀ o, {v | (s.cell v).counted = some o} = ∅ := fun o => by
    ext v
    simp [hcell, Cell.counted]
  have hheld : ∀ o, {v | (s.cell v).held = some o} = ∅ := fun o => by
    ext v
    simp [hcell, Cell.held]
  have hsole : ∀ o, {v | (s.cell v).sole = some o} = ∅ := fun o => by
    ext v
    simp [hcell, Cell.sole]
  refine ⟨⟨fun o => ?_, fun o => ?_, fun o => ?_⟩, fun o => ?_, fun w r o hw => ?_⟩
  · rw [hcounted]
    exact Set.finite_empty
  · rw [hheld]
    exact Set.finite_empty
  · rw [hsole]
    exact Set.finite_empty
  · rw [hlife, refs, soles, hcounted, hheld, hsole, Set.ncard_empty]
    exact ⟨rfl, rfl⟩
  · rw [hcell] at hw
    cases hw

section Decidable

variable [Fintype ν] [Fintype ω]

instance (s : State ν ω) (v : ν) : Decidable (Free s v) :=
  inferInstanceAs (Decidable (∀ w o, (s.cell w).borrow ≠ some (v, o)))

instance (s : State ν ω) (v : ν) : Decidable (AtRest s v) :=
  inferInstanceAs (Decidable (∃ ptr, s.cell v = .ready ptr))

instance (s : State ν ω) : (a : Label ν ω) → Decidable (Ordered s a)
  | .makeNull _ => .isTrue trivial
  | .make _ _ => .isTrue trivial
  | .copy _ r => inferInstanceAs (Decidable (AtRest s r))
  | .move _ r => inferInstanceAs (Decidable (Free s r))
  | .assign v r => inferInstanceAs (Decidable (AtRest s r ∧ Free s v))
  | .assignNull v => inferInstanceAs (Decidable (Free s v))
  | .assignNew v _ => inferInstanceAs (Decidable (Free s v))
  | .swap v w => inferInstanceAs (Decidable (Free s v ∧ Free s w))
  | .destroy v => inferInstanceAs (Decidable (Free s v))
  | .step _ => .isTrue trivial
  | .deref v => inferInstanceAs (Decidable (AtRest s v))
  | .hasOneRef v => inferInstanceAs (Decidable (AtRest s v))

end Decidable

/-- Nothing, over two variables and two objects. -/
def nothing : State Bool Bool := ⟨fun _ => .absent, fun _ => .unborn⟩

/-- A reference is handed from one variable to another, and both go away. -/
def handOver : List (Label Bool Bool) :=
  [.make false true, .step false, .copy true false, .step true, .destroy false, .step false,
    .step false, .hasOneRef true, .destroy true, .step true, .step true, .step true]

/-- A `scoped_refptr` that is assigned to may not be read by the destructor of what it drops: `ptr_`
still refers to it. -/
example : ((machine Bool Bool).exec nothing [.make false true, .step false, .assignNull false,
    .step false, .step false, .step false, .deref false]).map (·.2) =
      some [.used true true, .used true true, .deleted true, .used true false] := by
  decide

/-- `v = std::move(v)`, which moves into a temporary, swaps, and ends the temporary, neither counts
nor drops anything. -/
example : ((machine Bool Bool).exec nothing [.make false true, .step false, .move true false,
    .swap true false, .destroy true, .step true, .step true]).map
      (fun r => (r.1.cell false, r.1.cell true, r.2)) =
      some (.ready (some true), .absent, [.used true true]) := by
  decide

end ScopedRefptr

end TQLib
