import Mathlib.Data.List.DropRight
import Mathlib.Data.List.Induction

/-!
# Objects and their calls

An object that one caller uses: a state, and a function that says what a call makes of it. Where a
call is undefined, or a check in it fails, there is no state afterwards.

What such an object has to do with its past is an invariant about the calls so far and the state.
`Calls.run_spec` is the rule for it: it gives that no call is undefined, and the invariant. Many of
the objects can be reset; `Calls.since` is what they have been given since.

Where calls return something, what it is to be is said by another object, which is simpler, and with
which the first agrees: `Calls.trace_rel` is the rule for that.

## Main results

* `Calls.run_spec` — the invariant rule
* `Calls.trace_rel` — the simulation rule
* `Calls.since_concat` — what has been given, one call at a time
-/

namespace TQLib

namespace Calls

variable {σ α β : Type*}

/-- The state after some calls. -/
def run (step : σ → α → Option σ) (s : σ) (calls : List α) : Option σ := calls.foldlM step s

variable {step : σ → α → Option σ} {s : σ}

@[simp] theorem run_nil : run step s [] = some s := rfl

theorem run_append (calls calls' : List α) :
    run step s (calls ++ calls') = (run step s calls).bind fun s' => run step s' calls' := by
  rw [run, List.foldlM_append]
  rfl

theorem run_concat (calls : List α) (a : α) :
    run step s (calls ++ [a]) = (run step s calls).bind fun s' => step s' a := by
  rw [run_append]
  refine Option.bind_congr fun s' _ => ?_
  simp [run]

/-- **The invariant rule.** Where each call that is allowed is defined and keeps the invariant, all
calls that are allowed are defined, and the invariant holds after them. -/
theorem run_spec (Allowed : List α → Prop) (Inv : List α → σ → Prop) (hstart : Inv [] s)
    (hallowed : ∀ calls a, Allowed (calls ++ [a]) → Allowed calls)
    (hstep : ∀ calls a s, Allowed (calls ++ [a]) → Inv calls s →
      ∃ s', step s a = some s' ∧ Inv (calls ++ [a]) s') {calls : List α} (h : Allowed calls) :
    ∃ s', run step s calls = some s' ∧ Inv calls s' := by
  induction calls using List.reverseRecOn with
  | nil => exact ⟨s, rfl, hstart⟩
  | append_singleton calls a ih =>
    obtain ⟨s', hs', hinv⟩ := ih (hallowed calls a h)
    obtain ⟨s'', hs'', hinv'⟩ := hstep calls a s' h hinv
    exact ⟨s'', by rw [run_concat, hs', Option.bind_some, hs''], hinv'⟩

/-! ## Results -/

section Trace

variable {τ ρ : Type*}

/-- The state after some calls, and what they return. -/
def trace (step : σ → α → Option (σ × ρ)) (s : σ) : List α → Option (σ × List ρ)
  | [] => some (s, [])
  | a :: calls => (step s a).bind fun (s', r) =>
    (trace step s' calls).map fun (s'', results) => (s'', r :: results)

/-- States that are related, and the same results. -/
def Agree (R : σ → τ → Prop) (x : σ × ρ) (y : τ × ρ) : Prop := R x.1 y.1 ∧ x.2 = y.2

/-- **The simulation rule.** Where each call is undefined for both objects or agrees, so do all. -/
theorem trace_rel {R : σ → τ → Prop} {step : σ → α → Option (σ × ρ)}
    {step' : τ → α → Option (τ × ρ)}
    (hstep : ∀ s t a, R s t → Option.Rel (Agree R) (step s a) (step' t a)) {s : σ} {t : τ}
    (h : R s t) (calls : List α) :
    Option.Rel (Agree R) (trace step s calls) (trace step' t calls) := by
  induction calls generalizing s t with
  | nil => exact .some ⟨h, rfl⟩
  | cons a calls ih =>
    rw [trace, trace]
    have hrel := hstep s t a h
    generalize step s a = x at hrel ⊢
    generalize step' t a = y at hrel ⊢
    cases hrel with
    | none => exact .none
    | @some x y hxy =>
      obtain ⟨s', r⟩ := x
      obtain ⟨t', r'⟩ := y
      have hrest := ih hxy.1
      rw [Option.bind_some, Option.bind_some]
      dsimp only at hrest ⊢
      generalize trace step s' calls = xs at hrest ⊢
      generalize trace step' t' calls = ys at hrest ⊢
      cases hrest with
      | none => exact .none
      | some hxys => exact .some ⟨hxys.1, congrArg₂ List.cons hxy.2 hxys.2⟩

end Trace

/-! ## Since the last reset -/

/-- What has been given since the last reset. -/
def since (resets : α → Bool) (given? : α → Option β) (calls : List α) : List β :=
  (calls.rtakeWhile fun a => !resets a).filterMap given?

variable {resets : α → Bool} {given? : α → Option β}

@[simp] theorem since_nil : since resets given? [] = [] := rfl

theorem since_concat (calls : List α) (a : α) : since resets given? (calls ++ [a]) =
    if resets a then [] else since resets given? calls ++ (given? a).toList := by
  rw [since, List.rtakeWhile_concat]
  cases resets a with
  | true => rfl
  | false =>
    simp only [Bool.not_false, if_true, Bool.false_eq_true, if_false, List.filterMap_append, since]
    cases hg : given? a <;> simp [hg]

theorem length_since_le (calls : List α) :
    (since resets given? calls).length ≤ (calls.filterMap given?).length :=
  ((List.rtakeWhile_suffix _ _).sublist.filterMap given?).length_le

end Calls

end TQLib
