import TQLib.ScopedRefptr.Model

/-!
# The number of references to an object

The references to an object are those of the variables that are not just giving theirs up, and those
which operations under way have taken already. Their number is `ref_count_`. Where it is zero, one
operation alone knows the object: the one which has made it and not counted its reference yet, or
the one which is about to delete it.

## Main definitions

* `refs` — the number of references to an object
* `Inv` — the count is right, and what an operation has read stays valid until it has its reference

## Main results

* `Inv.set`, `Inv.set_two` — what a change of one variable, or of two, has to keep
-/

namespace TQLib

namespace ScopedRefptr

variable {ν ω : Type*}

/-- The reference of the variable itself. -/
def Cell.counted : Cell ν ω → Option ω
  | .ready ptr => ptr
  | .assignAdd ptr _ _ => ptr
  | .assignRelease ptr _ => ptr
  | .dtorRelease ptr => ptr
  | _ => none

/-- The reference which the operation on the variable has taken. -/
def Cell.held : Cell ν ω → Option ω
  | .assignRelease _ p => p
  | .assignDelete _ p => p
  | .assignStore _ p => p
  | _ => none

/-- The object which the operation on the variable alone knows. -/
def Cell.sole : Cell ν ω → Option ω
  | .ctorAdd o none => some o
  | .assignAdd _ (some o) none => some o
  | .assignDelete o _ => some o
  | .dtorDelete o => some o
  | _ => none

/-- The number of references to an object. -/
noncomputable def refs (s : State ν ω) (o : ω) : ℕ :=
  {v | (s.cell v).counted = some o}.ncard + {v | (s.cell v).held = some o}.ncard

/-- The number of operations which alone know the object. -/
noncomputable def soles (s : State ν ω) (o : ω) : ℕ := {v | (s.cell v).sole = some o}.ncard

/-- How the life of an object goes with the number of references to it, and of the operations that
alone know it. -/
def Agree : Life → ℕ → ℕ → Prop
  | .live refCount, n, k => refCount = n ∧ k = if n = 0 then 1 else 0
  | _, n, k => n = 0 ∧ k = 0

/-- There are finitely many references to an object. -/
structure Bounded (s : State ν ω) : Prop where
  counted : ∀ o, {v | (s.cell v).counted = some o}.Finite
  held : ∀ o, {v | (s.cell v).held = some o}.Finite
  sole : ∀ o, {v | (s.cell v).sole = some o}.Finite

/-- The count is right, and what an operation has read stays valid until it has its reference. -/
structure Inv (s : State ν ω) : Prop where
  bounded : Bounded s
  agree : ∀ o, Agree (s.life o) (refs s o) (soles s o)
  borrow : ∀ w r o, (s.cell w).borrow = some (r, o) →
    (r = w ∧ (s.cell w).counted = some o) ∨ (r ≠ w ∧ s.cell r = .ready (some o))

variable {s : State ν ω} {v : ν} {o : ω}

/-- An object with a reference lives. -/
theorem Inv.live_of_counted (h : Inv s) (hv : (s.cell v).counted = some o) :
    ∃ n : ℕ, s.life o = .live n ∧ refs s o = n ∧ 1 ≤ n ∧ soles s o = 0 := by
  have hpos : 0 < {v | (s.cell v).counted = some o}.ncard :=
    (Set.ncard_pos (h.bounded.counted o)).mpr ⟨v, hv⟩
  have hrefs : 1 ≤ refs s o := by
    rw [refs]
    omega
  have ha := h.agree o
  cases hl : s.life o with
  | live m =>
    rw [hl] at ha
    obtain ⟨rfl, hk⟩ := ha
    exact ⟨refs s o, rfl, rfl, hrefs, by rw [hk, if_neg (by omega)]⟩
  | unborn =>
    rw [hl] at ha
    have hzero : refs s o = 0 := ha.1
    omega
  | deleted =>
    rw [hl] at ha
    have hzero : refs s o = 0 := ha.1
    omega

/-- An object which one operation alone knows lives, and nothing refers to it. -/
theorem Inv.live_of_sole (h : Inv s) (hv : (s.cell v).sole = some o) :
    s.life o = .live 0 ∧ refs s o = 0 ∧ soles s o = 1 := by
  have hpos : 0 < soles s o := (Set.ncard_pos (h.bounded.sole o)).mpr ⟨v, hv⟩
  have ha := h.agree o
  cases hl : s.life o with
  | live m =>
    rw [hl] at ha
    obtain ⟨rfl, hk⟩ := ha
    by_cases hzero : refs s o = 0
    · rw [if_pos hzero] at hk
      exact ⟨by rw [hzero]; rfl, hzero, hk⟩
    · rw [if_neg hzero] at hk
      omega
  | unborn =>
    rw [hl] at ha
    have hzero : soles s o = 0 := ha.2
    omega
  | deleted =>
    rw [hl] at ha
    have hzero : soles s o = 0 := ha.2
    omega

/-- What an operation under way is on, no other operation reads from. -/
theorem Inv.free_of_busy (h : Inv s) (hv : ∀ p, s.cell v ≠ .ready p) (w : ν) (o : ω)
    (hw : (s.cell w).borrow = some (v, o)) : w = v := by
  rcases h.borrow w v o hw with ⟨rfl, -⟩ | ⟨-, hr⟩
  · rfl
  · exact absurd hr (hv _)

/-- What a variable at rest refers to lives. -/
theorem Inv.live_of_atRest (h : Inv s) (hv : AtRest s v) (hptr : (s.cell v).ptr = some (some o)) :
    ∃ n : ℕ, s.life o = .live n := by
  obtain ⟨ptr, hc⟩ := hv
  have hcounted : (s.cell v).counted = some o := by
    rw [hc] at hptr ⊢
    exact Option.some.inj hptr
  obtain ⟨n, hlive, -⟩ := h.live_of_counted hcounted
  exact ⟨n, hlive⟩

variable [DecidableEq ω]

/-- Whether a reference is one to `o`. -/
def one (x : Option ω) (o : ω) : ℕ := if x = some o then 1 else 0

/-- The references of a variable to `o`. -/
def weight (c : Cell ν ω) (o : ω) : ℕ := one c.counted o + one c.held o

variable {c : Cell ν ω} {life : ω → Life}

@[simp] theorem one_none (o : ω) : one none o = 0 := rfl

/-! ## One variable changes -/

variable [DecidableEq ν]

/-- The state with another `v`. -/
def State.set (s : State ν ω) (v : ν) (c : Cell ν ω) (life : ω → Life) : State ν ω :=
  ⟨Function.update s.cell v c, life⟩

omit [DecidableEq ω] in
theorem Bounded.set (h : Bounded s) (v : ν) (c : Cell ν ω) (life : ω → Life) :
    Bounded (s.set v c life) where
  counted o := finite_update (P := fun c : Cell ν ω => c.counted = some o) (h.counted o) v c
  held o := finite_update (P := fun c : Cell ν ω => c.held = some o) (h.held o) v c
  sole o := finite_update (P := fun c : Cell ν ω => c.sole = some o) (h.sole o) v c

theorem refs_set (h : Bounded s) (v : ν) (c : Cell ν ω) (life : ω → Life) (o : ω) :
    refs (s.set v c life) o + weight (s.cell v) o = refs s o + weight c o := by
  have hcounted := ncard_update (fun c : Cell ν ω => c.counted = some o) (h.counted o) v c
  have hheld := ncard_update (fun c : Cell ν ω => c.held = some o) (h.held o) v c
  simp only [refs, weight, one, State.set]
  omega

theorem soles_set (h : Bounded s) (v : ν) (c : Cell ν ω) (life : ω → Life) (o : ω) :
    soles (s.set v c life) o + one (s.cell v).sole o = soles s o + one c.sole o := by
  have hsole := ncard_update (fun c : Cell ν ω => c.sole = some o) (h.sole o) v c
  simp only [soles, one, State.set]
  omega

/-- **A step changes one variable.** It is enough that the counts change as they should for the
references of that variable. -/
theorem Inv.set (h : Inv s) (hfree : ∀ w o, (s.cell w).borrow = some (v, o) → w = v)
    (hborrow : ∀ r o, c.borrow = some (r, o) →
      (r = v ∧ c.counted = some o) ∨ (r ≠ v ∧ s.cell r = .ready (some o)))
    (hagree : ∀ o n k, n + weight (s.cell v) o = refs s o + weight c o →
      k + one (s.cell v).sole o = soles s o + one c.sole o → Agree (life o) n k) :
    Inv (s.set v c life) where
  bounded := h.bounded.set v c life
  agree o := hagree o _ _ (refs_set h.bounded v c life o) (soles_set h.bounded v c life o)
  borrow w r o hw := by
    by_cases hwv : w = v
    · subst hwv
      simp only [State.set, Function.update_self] at hw ⊢
      refine (hborrow r o hw).imp_right fun ⟨hne, hr⟩ => ⟨hne, ?_⟩
      rwa [Function.update_of_ne hne]
    · simp only [State.set, Function.update_of_ne hwv] at hw ⊢
      refine (h.borrow w r o hw).imp_right fun ⟨hne, hr⟩ => ⟨hne, ?_⟩
      rwa [Function.update_of_ne]
      rintro rfl
      exact hwv (hfree w o hw)

/-- Nothing is counted in a step that neither takes nor drops a reference. -/
theorem Inv.set_same (h : Inv s) (hfree : ∀ w o, (s.cell w).borrow = some (v, o) → w = v)
    (hborrow : ∀ r o, c.borrow = some (r, o) →
      (r = v ∧ c.counted = some o) ∨ (r ≠ v ∧ s.cell r = .ready (some o)))
    (hweight : ∀ o, weight c o = weight (s.cell v) o) (hsole : c.sole = (s.cell v).sole) :
    Inv (s.set v c s.life) := by
  refine h.set hfree hborrow fun o n k hn hk => ?_
  rw [hweight] at hn
  rw [hsole] at hk
  have hn' : n = refs s o := by omega
  have hk' : k = soles s o := by omega
  rw [hn', hk']
  exact h.agree o

/-- **A reference is counted**, to an object that has one already or is known to the operation
alone. -/
theorem Inv.set_addRef (h : Inv s) (hfree : ∀ w o, (s.cell w).borrow = some (v, o) → w = v)
    (hborrow : c.borrow = none) {o₀ : ω} {n₀ : ℕ} (hlive : s.life o₀ = .live n₀)
    (hn₀ : refs s o₀ = n₀)
    (hweight : ∀ o, weight c o = weight (s.cell v) o + one (some o₀) o)
    (hsole : c.sole = none) (hwas : (s.cell v).sole = some o₀ ∨ (s.cell v).sole = none ∧ 1 ≤ n₀) :
    Inv (s.set v c (Function.update s.life o₀ (.live (n₀ + 1)))) := by
  refine h.set hfree (by simp [hborrow]) fun o n k hn hk => ?_
  have ha := h.agree o
  rw [hweight] at hn
  rw [hsole, one_none] at hk
  by_cases ho : o = o₀
  · subst ho
    rw [Function.update_self]
    rw [hlive] at ha
    rw [show one (some o) o = 1 from if_pos rfl] at hn
    obtain ⟨-, hk₀⟩ := ha
    rw [hn₀] at hk₀
    have hzero : k = 0 := by
      rcases hwas with hs | ⟨hs, hpos⟩
      · rw [hs, show one (some o) o = 1 from if_pos rfl] at hk
        split at hk₀ <;> omega
      · rw [hs, one_none] at hk
        rw [if_neg (by omega)] at hk₀
        omega
    refine ⟨?_, ?_⟩
    · rw [show n = n₀ + 1 by omega]
      push_cast
      rfl
    · rw [hzero, if_neg (by omega)]
  · rw [Function.update_of_ne ho]
    rw [show one (some o₀) o = 0 from if_neg fun h => ho (Option.some.inj h).symm] at hn
    have hone : one (s.cell v).sole o = 0 := by
      rcases hwas with hs | ⟨hs, -⟩
      · rw [hs]
        exact if_neg fun h => ho (Option.some.inj h).symm
      · rw [hs]
        rfl
    have hn' : n = refs s o := by omega
    have hk' : k = soles s o := by omega
    rwa [hn', hk']

/-- **A reference is dropped.** With the last one the operation alone knows the object. -/
theorem Inv.set_decRef (h : Inv s) (hfree : ∀ w o, (s.cell w).borrow = some (v, o) → w = v)
    (hborrow : c.borrow = none) {o₀ : ω} {n₀ : ℕ} (hlive : s.life o₀ = .live n₀)
    (hn₀ : refs s o₀ = n₀) (hpos : 1 ≤ n₀)
    (hweight : ∀ o, weight c o + one (some o₀) o = weight (s.cell v) o)
    (hwas : (s.cell v).sole = none) (hsole : c.sole = if n₀ = 1 then some o₀ else none) :
    Inv (s.set v c (Function.update s.life o₀ (.live (n₀ - 1)))) := by
  refine h.set hfree (by simp [hborrow]) fun o n k hn hk => ?_
  have ha := h.agree o
  rw [← hweight] at hn
  rw [hwas, one_none] at hk
  by_cases ho : o = o₀
  · subst ho
    rw [Function.update_self]
    rw [hlive, hn₀] at ha
    obtain ⟨-, hk₀⟩ := ha
    rw [if_neg (by omega)] at hk₀
    rw [show one (some o) o = 1 from if_pos rfl] at hn
    refine ⟨by omega, ?_⟩
    by_cases hone : n₀ = 1
    · rw [hsole, if_pos hone, show one (some o) o = 1 from if_pos rfl, hk₀] at hk
      rw [if_pos (by omega)]
      exact hk
    · rw [hsole, if_neg hone, one_none, hk₀] at hk
      rw [if_neg (by omega)]
      exact hk
  · rw [Function.update_of_ne ho]
    have hzero : one (some o₀) o = 0 := if_neg fun h => ho (Option.some.inj h).symm
    have hnone : one c.sole o = 0 := by
      rw [hsole]
      split
      · exact hzero
      · rfl
    have hn' : n = refs s o := by omega
    have hk' : k = soles s o := by omega
    rwa [hn', hk']

/-- **The object is deleted** by the operation which alone knows it. -/
theorem Inv.set_delete (h : Inv s) (hfree : ∀ w o, (s.cell w).borrow = some (v, o) → w = v)
    (hborrow : c.borrow = none) {o₀ : ω} (hweight : ∀ o, weight c o = weight (s.cell v) o)
    (hwas : (s.cell v).sole = some o₀) (hsole : c.sole = none) :
    Inv (s.set v c (Function.update s.life o₀ .deleted)) := by
  obtain ⟨-, hrefs, hsoles⟩ := h.live_of_sole hwas
  refine h.set hfree (by simp [hborrow]) fun o n k hn hk => ?_
  rw [hweight] at hn
  rw [hwas, hsole, one_none] at hk
  have hn' : n = refs s o := by omega
  by_cases ho : o = o₀
  · subst ho
    rw [Function.update_self]
    rw [show one (some o) o = 1 from if_pos rfl] at hk
    exact ⟨by omega, by omega⟩
  · rw [Function.update_of_ne ho]
    rw [show one (some o₀) o = 0 from if_neg fun h => ho (Option.some.inj h).symm] at hk
    have hk' : k = soles s o := by omega
    rw [hn', hk']
    exact h.agree o

/-- **A new object** is known to the operation alone which has made it. -/
theorem Inv.set_new (h : Inv s) (hfree : ∀ w o, (s.cell w).borrow = some (v, o) → w = v)
    (hborrow : c.borrow = none) {o₀ : ω} (hunborn : s.life o₀ = .unborn)
    (hweight : ∀ o, weight c o = weight (s.cell v) o)
    (hwas : (s.cell v).sole = none) (hsole : c.sole = some o₀) :
    Inv (s.set v c (Function.update s.life o₀ (.live 0))) := by
  have ha₀ := h.agree o₀
  rw [hunborn] at ha₀
  refine h.set hfree (by simp [hborrow]) fun o n k hn hk => ?_
  rw [hweight] at hn
  rw [hwas, hsole, one_none] at hk
  have hn' : n = refs s o := by omega
  by_cases ho : o = o₀
  · subst ho
    rw [Function.update_self]
    rw [show one (some o) o = 1 from if_pos rfl] at hk
    obtain ⟨hrefs, hsoles⟩ := ha₀
    refine ⟨by omega, ?_⟩
    rw [if_pos (by omega)]
    omega
  · rw [Function.update_of_ne ho]
    rw [show one (some o₀) o = 0 from if_neg fun h => ho (Option.some.inj h).symm] at hk
    have hk' : k = soles s o := by omega
    rw [hn', hk']
    exact h.agree o

/-- **Two variables at rest** which nothing reads from exchange what they have, or one of them
begins. -/
theorem Inv.set_two (h : Inv s) {w : ν} {c' : Cell ν ω} (hne : w ≠ v) (hv : Free s v)
    (hw : Free s w) (hweight : ∀ o, weight c o + weight c' o =
      weight (s.cell v) o + weight (s.cell w) o)
    (hc : c.borrow = none ∧ c.sole = none) (hc' : c'.borrow = none ∧ c'.sole = none)
    (hsole : (s.cell v).sole = none ∧ (s.cell w).sole = none) :
    Inv ((s.set v c s.life).set w c' s.life) where
  bounded := (h.bounded.set v c s.life).set w c' s.life
  agree o := by
    have hb := h.bounded.set v c s.life
    have hrefs := refs_set h.bounded v c s.life o
    have hrefs' := refs_set hb w c' s.life o
    have hsoles := soles_set h.bounded v c s.life o
    have hsoles' := soles_set hb w c' s.life o
    have hcell : (s.set v c s.life).cell w = s.cell w := Function.update_of_ne hne _ _
    rw [hcell] at hrefs' hsoles'
    rw [hsole.2, hc'.2, one_none] at hsoles'
    rw [hsole.1, hc.2, one_none] at hsoles
    have hweight' := hweight o
    have hn : refs ((s.set v c s.life).set w c' s.life) o = refs s o := by omega
    have hk : soles ((s.set v c s.life).set w c' s.life) o = soles s o := by omega
    rw [hn, hk]
    exact h.agree o
  borrow u r o hu := by
    by_cases huw : u = w
    · subst huw
      simp only [State.set, Function.update_self, hc'.1] at hu
      cases hu
    · simp only [State.set, Function.update_of_ne huw] at hu ⊢
      by_cases huv : u = v
      · subst huv
        simp only [Function.update_self, hc.1] at hu
        cases hu
      · simp only [Function.update_of_ne huv] at hu ⊢
        refine (h.borrow u r o hu).imp_right fun ⟨hru, hr⟩ => ⟨hru, ?_⟩
        rw [Function.update_of_ne, Function.update_of_ne, hr]
        · rintro rfl
          exact hv u o hu
        · rintro rfl
          exact hw u o hu

end ScopedRefptr

end TQLib
