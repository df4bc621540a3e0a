import TQLib.Foundations.Machine
import TQLib.Foundations.OrderedMap
import TQLib.Foundations.Worklist

/-!
# The send graph of `rtc::ThreadManager`

Which thread sends to which, as `RegisterSendAndCheckForCycles` records it. Before it does, it looks
whether the target sends to the source already, directly or by way of others. It does so with a
list of threads, to the end of which it adds what each of them sends to. The list can name a thread
more than once, and would not come to its end if there were a cycle.

## Main results

* `allTargets_eq` — the list is the worklist of the graph
* `send_graph_law` — there is no cycle, the loop ends, and the check fails exactly for an edge that
  would close one
-/

namespace TQLib

namespace ThreadManager

/-- A `std::set` of threads. -/
abbrev ThreadSet (ι : Type*) [LinearOrder ι] := OrderedMap ι Unit

/-- `send_graph_`. -/
abbrev SendGraph (ι : Type*) [LinearOrder ι] := OrderedMap ι (ThreadSet ι)

variable {ι : Type*} [LinearOrder ι]

namespace SendGraph

/-- What `send_graph_[thread]` leaves, and what it is. -/
def subscript (g : SendGraph ι) (thread : ι) : SendGraph ι × ThreadSet ι :=
  match g.find? thread with
  | some targets => (g, targets)
  | none => (g.insert thread .empty, .empty)

/-- `RemoveFromSendGraph`. -/
def removeFromSendGraph (g : SendGraph ι) (thread : ι) : SendGraph ι :=
  (g.erase thread).mapValues (·.erase thread)

/-- The loop of `RegisterSendAndCheckForCycles`, with at most so many iterations. The first list
has the elements of `all_targets` before `i`, the second those from there on. -/
def allTargets : ℕ → SendGraph ι → List ι → List ι → Option (SendGraph ι × List ι)
  | _, g, done, [] => some (g, done)
  | 0, _, _, _ :: _ => none
  | n + 1, g, done, x :: todo =>
    let (g, targets) := g.subscript x
    allTargets n g (done ++ [x]) (todo ++ targets.keys)

/-- `send_graph_[source].insert(target)`. -/
def insertTarget (g : SendGraph ι) (source target : ι) : SendGraph ι :=
  let (g, targets) := g.subscript source
  g.insert source (targets.insert target ())

/-- `RegisterSendAndCheckForCycles`: `some none` when the check fails. -/
def registerSendAndCheckForCycles (n : ℕ) (g : SendGraph ι) (source target : ι) :
    Option (Option (SendGraph ι)) :=
  (g.allTargets n [] [target]).map fun (g, allTargets) =>
    if allTargets.count source = 0 then some (g.insertTarget source target) else none

end SendGraph

/-- One call. -/
inductive Action (ι : Type*)
  /-- `RegisterSendAndCheckForCycles`, with as many iterations of its loop as it takes. -/
  | register (source target : ι) (n : ℕ)
  /-- `Remove`. -/
  | remove (thread : ι)

/-- What a call leaves, if its check does not fail. -/
def SendGraph.step (g : SendGraph ι) : Action ι → Option (SendGraph ι × List Unit)
  | .register source target n =>
    match g.registerSendAndCheckForCycles n source target with
    | some (some g) => some (g, [])
    | _ => none
  | .remove thread => some (g.removeFromSendGraph thread, [])

/-- The send graph as a machine. It starts empty. -/
def machine (ι : Type*) [LinearOrder ι] : Machine (SendGraph ι) (Action ι) Unit where
  start g := g = .empty
  step := SendGraph.step

/-! ## The relation -/

namespace SendGraph

variable {g g' : SendGraph ι} {x y source target : ι} {n : ℕ}

/-- The targets of a thread. -/
def targets (g : SendGraph ι) (x : ι) : List ι := (g.subscript x).2.keys

/-- Whether a thread sends to another. -/
def Edge (g : SendGraph ι) (x y : ι) : Prop := y ∈ g.targets x

theorem edge_iff :
    g.Edge x y ↔ ∃ targets, g.find? x = some targets ∧ (targets.find? y).isSome = true := by
  unfold Edge targets subscript
  rw [OrderedMap.mem_keys]
  cases g.find? x <;> simp

/-- An entry that `operator[]` adds says nothing. -/
theorem targets_subscript (g : SendGraph ι) (x y : ι) :
    (g.subscript x).1.targets y = g.targets y := by
  unfold targets subscript
  cases hx : g.find? x with
  | some targets => rfl
  | none =>
    rw [OrderedMap.find?_insert]
    by_cases h : y = x
    · subst h
      simp [hx]
    · rw [if_neg h]
      cases g.find? y <;> rfl

/-- **The list** is the worklist of the graph. -/
theorem allTargets_eq (n : ℕ) (g : SendGraph ι) (done todo : List ι) :
    (g.allTargets n done todo).map Prod.snd = scan g.targets n done todo ∧
      ∀ g' all, g.allTargets n done todo = some (g', all) → g'.targets = g.targets := by
  induction n generalizing g done todo with
  | zero =>
    cases todo with
    | nil =>
      refine ⟨rfl, fun g' all h => ?_⟩
      cases h
      rfl
    | cons x todo => exact ⟨rfl, fun g' all h => by cases h⟩
  | succ n ih =>
    cases todo with
    | nil =>
      refine ⟨rfl, fun g' all h => ?_⟩
      cases h
      rfl
    | cons x todo =>
      have htargets : (g.subscript x).1.targets = g.targets := funext (targets_subscript g x)
      obtain ⟨hscan, hg⟩ := ih (g.subscript x).1 (done ++ [x]) (todo ++ g.targets x)
      rw [htargets] at hscan hg
      exact ⟨hscan, hg⟩

theorem edge_insertTarget (g : SendGraph ι) (source target x y : ι) :
    (g.insertTarget source target).Edge x y ↔ g.Edge x y ∨ x = source ∧ y = target := by
  rw [edge_iff, edge_iff]
  unfold insertTarget subscript
  by_cases hx : x = source
  · subst hx
    cases hg : g.find? x with
    | none => by_cases hy : y = target <;> simp [OrderedMap.find?_insert, hy]
    | some targets => by_cases hy : y = target <;> simp [OrderedMap.find?_insert, hy]
  · cases hg : g.find? source <;> simp [OrderedMap.find?_insert, hx]

/-- What `RegisterSendAndCheckForCycles` does, when its loop ends. -/
theorem register_cases {r : Option (SendGraph ι)}
    (h : g.registerSendAndCheckForCycles n source target = some r) :
    (r = none ↔ Relation.ReflTransGen g.Edge target source) ∧
      ∀ g', r = some g' → ∀ x y, g'.Edge x y ↔ g.Edge x y ∨ x = source ∧ y = target := by
  obtain ⟨⟨g₁, all⟩, hall, hr⟩ := Option.map_eq_some_iff.mp h
  have hr : (if all.count source = 0 then some (g₁.insertTarget source target) else none) = r := hr
  obtain ⟨hscan, htargets⟩ := allTargets_eq n g [] [target]
  rw [hall] at hscan
  have hg₁ : ∀ x y, g₁.Edge x y ↔ g.Edge x y := by
    intro x y
    unfold Edge
    rw [htargets g₁ all hall]
  have hmem : source ∈ all ↔ Relation.ReflTransGen g.Edge target source := by
    rw [mem_scan hscan.symm source]
    simp only [List.not_mem_nil, false_or, List.mem_singleton, exists_eq_left]
    rfl
  rw [← hmem, ← List.count_pos_iff]
  split at hr
  · rename_i hcount
    subst hr
    refine ⟨by simp [hcount], fun g' hg' x y => ?_⟩
    rw [← Option.some.inj hg', edge_insertTarget, hg₁]
  · rename_i hcount
    subst hr
    exact ⟨by simp [Nat.pos_iff_ne_zero, hcount], fun g' hg' => by cases hg'⟩

theorem edge_remove (g : SendGraph ι) (thread x y : ι) :
    (g.removeFromSendGraph thread).Edge x y ↔ x ≠ thread ∧ y ≠ thread ∧ g.Edge x y := by
  rw [edge_iff, edge_iff]
  unfold removeFromSendGraph
  rw [OrderedMap.find?_mapValues, OrderedMap.find?_erase]
  by_cases hx : x = thread
  · simp [hx]
  · by_cases hy : y = thread
    · cases hg : g.find? x <;> simp [hx, hy, OrderedMap.find?_erase]
    · cases hg : g.find? x <;> simp [hx, hy, OrderedMap.find?_erase]

/-- There are edges from finitely many threads only. -/
theorem finite_edge (g : SendGraph ι) : {x | ∃ y, g.Edge x y}.Finite := by
  refine (List.finite_toSet g.keys).subset ?_
  rintro x ⟨y, hxy⟩
  obtain ⟨targets, hx, -⟩ := edge_iff.mp hxy
  exact OrderedMap.mem_keys.mpr (by rw [hx]; rfl)

end SendGraph

/-! ## The law -/

open SendGraph

variable {h : List Unit} {g : SendGraph ι}

/-- What holds of the send graph after any calls. -/
structure SendGraphLaw (g : SendGraph ι) : Prop where
  /-- There is no cycle. -/
  acyclic : ∀ x, ¬ Relation.TransGen g.Edge x x
  /-- The loop of `RegisterSendAndCheckForCycles` comes to its end. -/
  terminates : ∀ source target, ∃ n, ∀ m, n ≤ m →
    (g.registerSendAndCheckForCycles m source target).isSome = true
  /-- When it does, the check fails exactly if the target is the source or leads to it. -/
  fails : ∀ n source target r, g.registerSendAndCheckForCycles n source target = some r →
    (r = none ↔ source = target ∨ Relation.TransGen g.Edge target source)
  /-- If it does not, there is one more edge. -/
  registers : ∀ n source target g',
    g.registerSendAndCheckForCycles n source target = some (some g') → ∀ x y,
      (g'.Edge x y ↔ g.Edge x y ∨ x = source ∧ y = target)
  /-- `Remove` leaves no edge from or to the thread, and all others. -/
  removes : ∀ thread x y,
    (g.removeFromSendGraph thread).Edge x y ↔ x ≠ thread ∧ y ≠ thread ∧ g.Edge x y

theorem acyclic_of_reaches (hr : (machine ι).Reaches h g) : Acyclic g.Edge := by
  refine hr.invariant (fun g => Acyclic g.Edge) ?_ fun g a g' out hg _ hst => ?_
  · rintro _ rfl x hx
    obtain ⟨y, hxy, -⟩ := Relation.TransGen.head'_iff.mp hx
    simpa using edge_iff.mp hxy
  · cases a with
    | register source target n =>
      change (match g.registerSendAndCheckForCycles n source target with
        | some (some g) => some (g, [])
        | _ => none) = _ at hst
      split at hst
      · rename_i hreg
        cases hst
        obtain ⟨hfails, hedge⟩ := register_cases hreg
        have hpath : ¬ Relation.ReflTransGen g.Edge target source := fun h => by
          cases hfails.mpr h
        exact (hg.insert hpath).mono fun x y hxy => (hedge _ rfl x y).mp hxy
      · cases hst
    | remove thread =>
      cases hst
      exact hg.mono fun x y hxy => ((edge_remove g thread x y).mp hxy).2.2

/-- **The send graph law.** -/
theorem send_graph_law (hr : (machine ι).Reaches h g) : SendGraphLaw g := by
  have hacyclic := acyclic_of_reaches hr
  constructor
  · exact hacyclic
  · intro source target
    obtain ⟨n, hn⟩ := exists_scan (hacyclic.wellFounded g.finite_edge) [] [target]
    obtain ⟨all, hall⟩ := Option.isSome_iff_exists.mp hn
    refine ⟨n, fun m hle => ?_⟩
    have hscan := (allTargets_eq m g [] [target]).1
    rw [scan_mono hall hle, Option.map_eq_some_iff] at hscan
    obtain ⟨r, hr, -⟩ := hscan
    rw [registerSendAndCheckForCycles, hr]
    rfl
  · intro n source target r hreg
    rw [(register_cases hreg).1, Relation.reflTransGen_iff_eq_or_transGen]
  · exact fun n source target g' hreg => (register_cases hreg).2 g' rfl
  · exact edge_remove g

/-- The law at work: `0` sends to `1`, `1` to `2`, and then `2` must not send to `0`, until `1` is
gone. -/
theorem send_graph_law_run : ∃ g g' : SendGraph ℕ,
    (machine ℕ).exec .empty [.register 0 1 9, .register 1 2 9] = some (g, []) ∧
    g.registerSendAndCheckForCycles 9 2 0 = some none ∧
    (machine ℕ).exec g [.remove 1, .register 2 0 9] = some (g', []) ∧ SendGraphLaw g' := by
  obtain ⟨g, g', hex, hfails, hex'⟩ : ∃ g g' : SendGraph ℕ,
      (machine ℕ).exec .empty [.register 0 1 9, .register 1 2 9] = some (g, []) ∧
      g.registerSendAndCheckForCycles 9 2 0 = some none ∧
      (machine ℕ).exec g [.remove 1, .register 2 0 9] = some (g', []) := ⟨_, _, rfl, rfl, rfl⟩
  have hr := Machine.Reaches.of_exec (M := machine ℕ) rfl hex
  exact ⟨g, g', hex, hfails, hex', send_graph_law (hr.exec (fun _ _ _ => trivial) hex')⟩

end ThreadManager

end TQLib
