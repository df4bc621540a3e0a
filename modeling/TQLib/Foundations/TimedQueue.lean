import Mathlib.Data.Multiset.AddSub
import Mathlib.Data.Multiset.MapFold
import TQLib.Foundations.Machine

/-!
# What a timed task queue is for

The abstract component behind every task queue of the library. It holds two collections: a FIFO of
tasks ready to be started and a bag of delayed entries, each with a due time. Nothing here fixes
how either is represented, how many parties feed it or how the worker is woken.

A `Discipline` says how delayed entries are ordered and what becomes of one that is due. Either it
joins the tail of the FIFO (`promotes`), or it is started from the bag. In both cases only an entry
that no other held entry precedes may leave, and only at a reading of the clock that has reached
its due time. An entry may also be dropped. Losing a task is an observation like any other, so that
"nothing is lost" is the statement that no drop is ever observed.

## Main results

A component that refines `Discipline.spec` has every law below in every run.

* `accepts_fifo` — the FIFO is drained in the order it was filled
* `accepts_held`, `accepts_conserved` — nothing is started twice, and what is lost was seen to be
  dropped
* `accepts_due` — no entry leaves the bag before its due time
* `accepts_least` — the entry that leaves is preceded by none of those held with it
* `accepts_quiet` — nothing is started after the worker has seen the request to stop
-/

namespace TQLib

/-- What an observer of a task queue sees. `α` are the tasks, `δ` the delayed entries and `τ` the
readings of the clock. -/
inductive TimedEvent (α δ τ : Type*)
  /-- A task is queued for immediate execution. -/
  | post (a : α)
  /-- A delayed entry is queued. -/
  | delay (d : δ)
  /-- An entry found due at `now` joins the immediate tasks. -/
  | promote (d : δ) (now : τ)
  /-- The front immediate task is started. -/
  | take (a : α)
  /-- An entry found due at `now` is started. -/
  | expire (d : δ) (now : τ)
  /-- An entry is removed without being started. -/
  | drop (d : δ)
  /-- The front immediate task is removed without being started. -/
  | discard (a : α)
  /-- The worker has seen the request to stop. -/
  | stop

namespace TimedEvent

variable {α δ τ : Type*}

/-- The task of an immediate post. -/
def posted? : TimedEvent α δ τ → Option α
  | .post a => some a
  | _ => none

/-- The task taken from the front of the FIFO. -/
def taken? : TimedEvent α δ τ → Option α
  | .take a => some a
  | _ => none

/-- The task that leaves the front of the FIFO. -/
def left? : TimedEvent α δ τ → Option α
  | .take a => some a
  | .discard a => some a
  | _ => none

/-- The entry of a delayed post. -/
def delayed? : TimedEvent α δ τ → Option δ
  | .delay d => some d
  | _ => none

/-- The entry that leaves the bag, and the reading of the clock it was found due at. -/
def released? : TimedEvent α δ τ → Option (δ × τ)
  | .promote d now => some (d, now)
  | .expire d now => some (d, now)
  | _ => none

/-- The entry that is removed without being started. -/
def dropped? : TimedEvent α δ τ → Option δ
  | .drop d => some d
  | _ => none

/-- Whether a task is started. -/
def starts : TimedEvent α δ τ → Prop
  | .take _ => True
  | .expire _ _ => True
  | _ => False

end TimedEvent

/-- The abstract state of a timed task queue. -/
structure TimedQueue (α δ : Type*) where
  /-- The tasks ready to be started, front first. -/
  fifo : List α
  /-- The delayed entries. -/
  held : Multiset δ
  /-- Whether the worker has seen the request to stop. -/
  stopped : Bool

/-- How a timed task queue orders and releases its delayed entries. -/
structure Discipline (α δ τ : Type*) where
  /-- The due time of an entry. -/
  due : δ → τ
  /-- The task of an entry. -/
  task : δ → α
  /-- The order in which held entries leave. -/
  earlier : δ → δ → Prop
  /-- Whether a due entry joins the FIFO instead of being started at once. -/
  promotes : Prop
  /-- Whether tasks may be removed from the FIFO without being started. -/
  discards : Prop

namespace Discipline

open TimedEvent

variable {α δ τ : Type*} [LE τ] (D : Discipline α δ τ)

/-- No held entry precedes `d`. -/
def Least (d : δ) (held : Multiset δ) : Prop := ∀ d' ∈ held, ¬ D.earlier d' d

/-- One observation of a timed task queue. -/
inductive Next : TimedQueue α δ → TimedEvent α δ τ → TimedQueue α δ → Prop
  | post (fifo : List α) (held : Multiset δ) (b : Bool) (a : α) :
      Next ⟨fifo, held, b⟩ (.post a) ⟨fifo ++ [a], held, b⟩
  | delay (fifo : List α) (held : Multiset δ) (b : Bool) (d : δ) :
      Next ⟨fifo, held, b⟩ (.delay d) ⟨fifo, d ::ₘ held, b⟩
  | promote (fifo : List α) (held : Multiset δ) (b : Bool) {d : δ} {now : τ} : D.promotes →
      D.due d ≤ now → D.Least d held →
      Next ⟨fifo, d ::ₘ held, b⟩ (.promote d now) ⟨fifo ++ [D.task d], held, b⟩
  | take (fifo : List α) (held : Multiset δ) (a : α) :
      Next ⟨a :: fifo, held, false⟩ (.take a) ⟨fifo, held, false⟩
  | expire (fifo : List α) (held : Multiset δ) {d : δ} {now : τ} : ¬ D.promotes →
      D.due d ≤ now → D.Least d held →
      Next ⟨fifo, d ::ₘ held, false⟩ (.expire d now) ⟨fifo, held, false⟩
  | drop (fifo : List α) (held : Multiset δ) (b : Bool) (d : δ) :
      Next ⟨fifo, d ::ₘ held, b⟩ (.drop d) ⟨fifo, held, b⟩
  | discard (fifo : List α) (held : Multiset δ) (b : Bool) (a : α) : D.discards →
      Next ⟨a :: fifo, held, b⟩ (.discard a) ⟨fifo, held, b⟩
  | stop (fifo : List α) (held : Multiset δ) (b : Bool) :
      Next ⟨fifo, held, b⟩ .stop ⟨fifo, held, true⟩

/-- The specification of a timed task queue: it starts empty. -/
def spec : Spec (TimedQueue α δ) (TimedEvent α δ τ) where
  start q := q = ⟨[], 0, false⟩
  next := D.Next

/-! ## What a history says -/

omit [LE τ] in
/-- The task an observation puts at the tail of the FIFO. -/
def joins? : TimedEvent α δ τ → Option α
  | .post a => some a
  | .promote d _ => some (D.task d)
  | _ => none

omit [LE τ] in
/-- The task an observation hands to the queue. -/
def accepted? : TimedEvent α δ τ → Option α
  | .post a => some a
  | .delay d => some (D.task d)
  | _ => none

omit [LE τ] in
/-- The task an observation starts. -/
def started? : TimedEvent α δ τ → Option α
  | .take a => some a
  | .expire d _ => some (D.task d)
  | _ => none

omit [LE τ] in
/-- The task an observation removes unstarted. -/
def lost? : TimedEvent α δ τ → Option α
  | .drop d => some (D.task d)
  | .discard a => some a
  | _ => none

variable {D} {h h' : List (TimedEvent α δ τ)} {q : TimedQueue α δ}

/-- **Drained as filled.** What joined the FIFO is what left it, in the same order, followed by what
it still holds. -/
theorem accepts_fifo (ha : D.spec.Accepts h q) :
    h.filterMap D.joins? = h.filterMap left? ++ q.fifo := by
  induction ha with
  | nil hs => simp [show _ = _ from hs]
  | snoc _ hn ih =>
    rw [List.filterMap_append, List.filterMap_append, ih]
    cases hn <;> simp [List.filterMap_cons, joins?, left?]

/-- The entries handed in are those released or dropped together with those still held. -/
theorem accepts_held (ha : D.spec.Accepts h q) :
    (h.filterMap delayed? : Multiset δ) =
      ((h.filterMap released?).map Prod.fst : Multiset δ) + (h.filterMap dropped? : Multiset δ) +
        q.held := by
  induction ha with
  | nil hs => simp [show _ = _ from hs]
  | snoc _ hn ih =>
    rw [List.filterMap_append, List.filterMap_append, List.filterMap_append, List.map_append,
      ← Multiset.coe_add, ← Multiset.coe_add, ← Multiset.coe_add, ih]
    cases hn <;> simp [List.filterMap_cons, delayed?, released?, dropped?,
      ← Multiset.singleton_add, ← Multiset.cons_coe, add_assoc, add_comm, add_left_comm]

/-- **Conservation.** The tasks handed in, counted with multiplicity, are those started or removed
unstarted together with those in the FIFO and those held. -/
theorem accepts_conserved (ha : D.spec.Accepts h q) :
    (h.filterMap D.accepted? : Multiset α) =
      (h.filterMap D.started? : Multiset α) + (h.filterMap D.lost? : Multiset α) +
        (q.fifo : Multiset α) + q.held.map D.task := by
  induction ha with
  | nil hs => simp [show _ = _ from hs]
  | snoc _ hn ih =>
    rw [List.filterMap_append, List.filterMap_append, List.filterMap_append, ← Multiset.coe_add,
      ← Multiset.coe_add, ← Multiset.coe_add, ih]
    cases hn <;> simp [List.filterMap_cons, accepted?, started?, lost?,
      ← Multiset.singleton_add, ← Multiset.cons_coe, ← Multiset.coe_add, add_assoc, add_comm,
      add_left_comm]

/-- **Never early.** An entry leaves the bag only at a reading that has reached its due time. -/
theorem accepts_due (ha : D.spec.Accepts h q) {d : δ} {now : τ}
    (hd : (d, now) ∈ h.filterMap released?) : D.due d ≤ now := by
  induction ha with
  | nil => simp at hd
  | snoc _ hn ih =>
    rw [List.filterMap_append, List.mem_append] at hd
    rcases hd with hd | hd
    · exact ih hd
    · cases hn with
      | promote _ _ _ _ hdue _ =>
        obtain ⟨rfl, rfl⟩ : d = _ ∧ now = _ := by simpa [released?] using hd
        exact hdue
      | expire _ _ _ hdue _ =>
        obtain ⟨rfl, rfl⟩ : d = _ ∧ now = _ := by simpa [released?] using hd
        exact hdue
      | _ => simp [released?] at hd

/-- **Least first.** When an entry leaves the bag, none of the entries held at that moment precedes
it. The held entries are described by the history alone: handed in and neither released nor dropped
before. -/
theorem accepts_least {e : TimedEvent α δ τ} (ha : D.spec.Accepts (h ++ e :: h') q) {d : δ}
    {now : τ} (he : e.released? = some (d, now)) :
    ∃ held : Multiset δ, (h.filterMap delayed? : Multiset δ) =
        ((h.filterMap released?).map Prod.fst : Multiset δ) + (h.filterMap dropped? : Multiset δ) +
          (d ::ₘ held) ∧ D.Least d held := by
  obtain ⟨q₁, q₂, ha₁, hn⟩ := ha.split
  have hheld := accepts_held ha₁
  cases hn with
  | promote _ held _ _ _ hl =>
    obtain ⟨rfl, rfl⟩ : _ = d ∧ _ = now := by simpa [released?] using he
    exact ⟨held, hheld, hl⟩
  | expire _ held _ _ hl =>
    obtain ⟨rfl, rfl⟩ : _ = d ∧ _ = now := by simpa [released?] using he
    exact ⟨held, hheld, hl⟩
  | _ => simp [released?] at he

/-- Once stopped, always stopped. -/
theorem Next.stopped {q q' : TimedQueue α δ} {e : TimedEvent α δ τ} (hn : D.Next q e q')
    (hq : q.stopped = true) : q'.stopped = true ∧ ¬ e.starts := by
  cases hn <;> simp_all [starts]

/-- **Nothing after the end.** No task is started once the worker has seen the request to stop. -/
theorem accepts_quiet (ha : D.spec.Accepts (h ++ .stop :: h') q) {e : TimedEvent α δ τ}
    (he : e ∈ h') : ¬ e.starts := by
  suffices hs : ∀ h', ∀ q, D.spec.Accepts (h ++ .stop :: h') q →
      q.stopped = true ∧ ∀ e ∈ h', ¬ e.starts from (hs h' q ha).2 e he
  intro h'
  induction h' using List.reverseRecOn with
  | nil =>
    intro q ha
    generalize hl : h ++ [TimedEvent.stop] = l at ha
    cases ha with
    | nil => simp at hl
    | snoc _ hn =>
      obtain ⟨-, he⟩ := List.append_inj' hl rfl
      obtain rfl : TimedEvent.stop = _ := by simpa using he
      cases hn
      exact ⟨rfl, by simp⟩
  | append_singleton h' e ih =>
    intro q ha
    generalize hl : h ++ TimedEvent.stop :: (h' ++ [e]) = l at ha
    rw [← List.cons_append, ← List.append_assoc] at hl
    cases ha with
    | nil => simp at hl
    | snoc ha₁ hn =>
      obtain ⟨rfl, he⟩ := List.append_inj' hl rfl
      obtain rfl : e = _ := by simpa using he
      obtain ⟨hq, hquiet⟩ := ih _ ha₁
      obtain ⟨hq', hne⟩ := hn.stopped hq
      refine ⟨hq', ?_⟩
      intro e' he'
      rcases List.mem_append.mp he' with he' | he'
      · exact hquiet e' he'
      · rwa [List.mem_singleton.mp he']

/-- A discipline that starts due entries from the bag fills its FIFO by immediate posts alone. -/
theorem joins_of_not_promotes (hD : ¬ D.promotes) (ha : D.spec.Accepts h q) :
    h.filterMap D.joins? = h.filterMap posted? := by
  induction ha with
  | nil => rfl
  | snoc _ hn ih =>
    rw [List.filterMap_append, List.filterMap_append, ih]
    cases hn with
    | promote _ _ _ hp => exact absurd hp hD
    | _ => simp [List.filterMap_cons, joins?, posted?]

/-- A discipline whose due entries join the FIFO starts tasks from there alone. -/
theorem started_of_promotes (hD : D.promotes) (ha : D.spec.Accepts h q) :
    h.filterMap D.started? = h.filterMap taken? := by
  induction ha with
  | nil => rfl
  | snoc _ hn ih =>
    rw [List.filterMap_append, List.filterMap_append, ih]
    cases hn with
    | expire _ _ hp => exact absurd hD hp
    | _ => simp [List.filterMap_cons, started?, taken?]

omit [LE τ] in
/-- A history in which no task is lost drains the FIFO by starting tasks alone. -/
theorem left_of_lossless : ∀ {h : List (TimedEvent α δ τ)}, h.filterMap D.lost? = [] →
    h.filterMap left? = h.filterMap taken?
  | [], _ => rfl
  | e :: h, hl => by
    rw [List.filterMap_eq_nil_iff] at hl
    have he := hl e List.mem_cons_self
    have ih := left_of_lossless (List.filterMap_eq_nil_iff.mpr fun e' he' =>
      hl e' (List.mem_cons_of_mem _ he'))
    cases e with
    | discard a => simp [lost?] at he
    | _ => simp [List.filterMap_cons, left?, taken?, ih]

/-- A discipline that removes no task from its FIFO unstarted drains it by starting tasks alone. -/
theorem left_of_not_discards (hD : ¬ D.discards) (ha : D.spec.Accepts h q) :
    h.filterMap left? = h.filterMap taken? := by
  induction ha with
  | nil => rfl
  | snoc _ hn ih =>
    rw [List.filterMap_append, List.filterMap_append, ih]
    cases hn with
    | discard _ _ _ _ hd => exact absurd hd hD
    | _ => simp [List.filterMap_cons, left?, taken?]

end Discipline

end TQLib
