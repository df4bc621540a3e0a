import Mathlib.Data.List.Nodup
import Mathlib.Data.Set.Basic
import TQLib.Foundations.Machine

/-!
# A list that is edited while it is walked

A loop comes to the elements of a list one after another and does something for those that are due.
While it does, elements may be removed from the list and new ones put at its end. `walking` is the
specification of a loop that does not care: it keeps what is left of the list to be walked, and
every edit of the list is an edit of that as well, but for an element that comes when nothing is
left.

## Main results

* `Spec.Path.edits_filter`, `Spec.Path.edits_append` — the edits that make one list of another
* `Spec.Accepts.iterated` — what a loop has done before it ends
* `Spec.Accepts.completed` — what it has done when it ends
* `Spec.Path.rest`, `Spec.Path.turns_eq_nil` — what it does from a moment on
* `Iterated.each`, `Iterated.not_visited` — what is visited once, and what is not visited at all
-/

namespace TQLib

/-- What is seen of a list and of a loop over it. -/
inductive Walk (α : Type*)
  /-- The loop begins, and this is the list. -/
  | begins (list : List α)
  /-- The loop comes to `x`, which is due or not. -/
  | turn (x : α) (due : Bool)
  /-- What is to be done for `x` is done, if it can be. -/
  | visit (x : α) (can done : Bool)
  /-- The loop ends. -/
  | ends
  /-- An element is put at the end of the list. -/
  | added (x : α)
  /-- An element is taken out of the list. -/
  | removed (x : α)
  deriving DecidableEq

/-- A list and where a loop over it has come to. -/
structure Walker (α : Type*) where
  /-- The list. -/
  list : List α
  /-- What has been in the list. -/
  used : Set α
  /-- What the loop has still to come to, if there is a loop. -/
  todo : Option (List α)
  /-- What the loop has come to and not visited. -/
  calling : Option α

variable {α : Type*}

namespace Walker

/-- Elements are put at the end. -/
def add (t : Walker α) (xs : List α) : Walker α :=
  { t with
    list := t.list ++ xs
    used := t.used ∪ {x | x ∈ xs}
    todo := t.todo.map fun
      | [] => []
      | y :: ys => y :: ys ++ xs }

/-- The elements that do not meet `p` are taken out. -/
def keep (t : Walker α) (p : α → Bool) : Walker α :=
  { t with list := t.list.filter p, todo := t.todo.map (List.filter p) }

@[simp] theorem add_calling (t : Walker α) (xs : List α) : (t.add xs).calling = t.calling := rfl

@[simp] theorem keep_used (t : Walker α) (p : α → Bool) : (t.keep p).used = t.used := rfl

@[simp] theorem keep_calling (t : Walker α) (p : α → Bool) : (t.keep p).calling = t.calling := rfl

theorem add_nil (t : Walker α) : t.add [] = t := by
  obtain ⟨list, used, todo, calling⟩ := t
  rcases todo with _ | _ | ⟨y, ys⟩ <;> simp [add]

theorem add_cons (t : Walker α) (x : α) (xs : List α) : t.add (x :: xs) = (t.add [x]).add xs := by
  obtain ⟨list, used, todo, calling⟩ := t
  have hused : used ∪ {y | y ∈ x :: xs} = used ∪ {y | y ∈ [x]} ∪ {y | y ∈ xs} := by
    ext y
    simp only [List.mem_cons, List.not_mem_nil, or_false, Set.mem_union, Set.mem_ofPred_eq,
      or_assoc]
  rcases todo with _ | _ | ⟨y, ys⟩ <;> simp only [add, hused] <;> simp

theorem keep_true (t : Walker α) {p : α → Bool} (hp : ∀ x, p x = true) : t.keep p = t := by
  obtain ⟨list, used, todo, calling⟩ := t
  have hfilter : ∀ xs : List α, xs.filter p = xs := fun xs =>
    List.filter_eq_self.mpr fun x _ => hp x
  rcases todo with _ | xs <;> simp [keep, hfilter]

theorem keep_keep (t : Walker α) (p q : α → Bool) :
    (t.keep p).keep q = t.keep fun x => q x && p x := by
  obtain ⟨list, used, todo, calling⟩ := t
  rcases todo with _ | xs <;> simp [keep, List.filter_filter]

theorem keep_congr {t : Walker α} {p q : α → Bool} (h : ∀ x ∈ t.list, p x = q x)
    (htodo : ∀ xs, t.todo = some xs → xs ⊆ t.list) : t.keep p = t.keep q := by
  have hfilter : ∀ xs, xs ⊆ t.list → xs.filter p = xs.filter q := fun xs hxs =>
    List.filter_congr fun x hx => h x (hxs hx)
  rw [keep, keep, hfilter _ (List.Subset.refl _)]
  congr 1
  cases ht : t.todo with
  | none => rfl
  | some xs => exact congrArg some (hfilter xs (htodo xs ht))

end Walker

/-! ## What has been done -/

/-- What the loop has come to, in order. -/
def turns (es : List (Walk α)) : List α :=
  es.filterMap fun
    | .turn x _ => some x
    | _ => none

/-- What of it was due. -/
def dues (es : List (Walk α)) : List α :=
  es.filterMap fun
    | .turn x true => some x
    | _ => none

/-- What has been visited. -/
def visits (es : List (Walk α)) : List α :=
  es.filterMap fun
    | .visit x _ _ => some x
    | _ => none

/-- What has been put at the end of the list. -/
def news (es : List (Walk α)) : List α :=
  es.filterMap fun
    | .added x => some x
    | _ => none

@[simp] theorem turns_append (es es' : List (Walk α)) : turns (es ++ es') = turns es ++ turns es' :=
  List.filterMap_append

@[simp] theorem turns_singleton (e : Walk α) : turns [e] =
    match e with
    | .turn x _ => [x]
    | _ => [] := by
  cases e <;> rfl

@[simp] theorem dues_append (es es' : List (Walk α)) : dues (es ++ es') = dues es ++ dues es' :=
  List.filterMap_append

@[simp] theorem dues_singleton (e : Walk α) : dues [e] =
    match e with
    | .turn x true => [x]
    | _ => [] := by
  rcases e with _ | ⟨x, _ | _⟩ | _ | _ | _ | _ <;> rfl

@[simp] theorem visits_append (es es' : List (Walk α)) :
    visits (es ++ es') = visits es ++ visits es' :=
  List.filterMap_append

@[simp] theorem visits_singleton (e : Walk α) : visits [e] =
    match e with
    | .visit x _ _ => [x]
    | _ => [] := by
  cases e <;> rfl

@[simp] theorem news_append (es es' : List (Walk α)) : news (es ++ es') = news es ++ news es' :=
  List.filterMap_append

@[simp] theorem news_singleton (e : Walk α) : news [e] =
    match e with
    | .added x => [x]
    | _ => [] := by
  cases e <;> rfl

theorem mem_turns_of_mem_dues {es : List (Walk α)} {x : α} (h : x ∈ dues es) : x ∈ turns es := by
  obtain ⟨e, he, hx⟩ := List.mem_filterMap.mp h
  refine List.mem_filterMap.mpr ⟨e, he, ?_⟩
  rcases e with _ | ⟨y, _ | _⟩ | _ | _ | _ | _ <;> first | exact hx | cases hx

/-! ## The loop -/

section Spec

variable [DecidableEq α]

/-- A loop over a list that is edited meanwhile. -/
def walking (α : Type*) [DecidableEq α] : Spec (Walker α) (Walk α) where
  start t := t = ⟨[], ∅, none, none⟩
  next t e t' :=
    match e with
    | .begins l => t.todo = none ∧ l = t.list ∧ t' = { t with todo := some t.list }
    | .turn x due => ∃ xs, t.todo = some (x :: xs) ∧ t.calling = none ∧
        t' = { t with todo := some xs, calling := if due then some x else none }
    | .visit x can done => t.calling = some x ∧ done = can ∧ t' = { t with calling := none }
    | .ends => t.todo = some [] ∧ t.calling = none ∧ t' = { t with todo := none }
    | .added x => x ∉ t.used ∧ t' = t.add [x]
    | .removed x => x ∈ t.list ∧ t' = t.keep (· ≠ x)

/-! ## Edits -/

theorem Spec.Path.added {t : Walker α} {xs : List α} (hxs : xs.Nodup) (h : ∀ x ∈ xs, x ∉ t.used) :
    (walking α).Path t (xs.map .added) (t.add xs) := by
  induction xs generalizing t with
  | nil =>
    rw [t.add_nil]
    exact .nil t
  | cons x xs ih =>
    obtain ⟨hx, hxs⟩ := List.nodup_cons.mp hxs
    rw [t.add_cons]
    refine .cons ⟨h x List.mem_cons_self, rfl⟩ (ih hxs fun y hy hused => ?_)
    rcases hused with hused | hyx
    · exact h y (List.mem_cons_of_mem _ hy) hused
    · exact hx (List.mem_singleton.mp hyx ▸ hy)

theorem Spec.Path.removed {t : Walker α} {xs : List α} (hxs : xs.Nodup) (h : xs ⊆ t.list) :
    (walking α).Path t (xs.map .removed) (t.keep (· ∉ xs)) := by
  induction xs generalizing t with
  | nil =>
    rw [t.keep_true (by simp)]
    exact .nil t
  | cons x xs ih =>
    obtain ⟨hx, hxs⟩ := List.nodup_cons.mp hxs
    have hkeep : t.keep (· ∉ x :: xs) = (t.keep (· ≠ x)).keep (· ∉ xs) := by
      rw [t.keep_keep]
      congr 1
      funext y
      simp [Bool.and_comm]
    rw [hkeep]
    refine .cons ⟨h List.mem_cons_self, rfl⟩ (ih hxs fun y hy => ?_)
    have hne : y ≠ x := ne_of_mem_of_not_mem hy hx
    exact List.mem_filter.mpr ⟨h (List.mem_cons_of_mem _ hy), by simpa using hne⟩

/-! ## One loop -/

/-- The edits that make `l'` of `l`. -/
def edits (l l' : List α) : List (Walk α) :=
  (l.filter (· ∉ l')).map .removed ++ (l'.filter (· ∉ l)).map .added

theorem edits_self (l : List α) : edits l l = [] := by
  simp [edits]

theorem Spec.Path.edits_filter {t : Walker α} (hl : t.list.Nodup)
    (htodo : ∀ xs, t.todo = some xs → xs ⊆ t.list) (p : α → Bool) :
    (walking α).Path t (edits t.list (t.list.filter p)) (t.keep p) := by
  have hnone : (t.list.filter p).filter (· ∉ t.list) = [] := by
    refine List.filter_eq_nil_iff.mpr fun x hx => ?_
    simpa using (List.mem_filter.mp hx).1
  have hkeep : t.keep p = t.keep (· ∉ t.list.filter (· ∉ t.list.filter p)) := by
    refine Walker.keep_congr (fun x hx => ?_) htodo
    cases hp : p x <;> simp [hx, hp]
  rw [edits, hnone, List.map_nil, List.append_nil, hkeep]
  exact .removed (hl.filter _) (List.filter_sublist).subset

theorem Spec.Path.edits_append {t : Walker α} {xs : List α} (hxs : xs.Nodup)
    (hused : ∀ x ∈ t.list, x ∈ t.used) (hnew : ∀ x ∈ xs, x ∉ t.used) :
    (walking α).Path t (edits t.list (t.list ++ xs)) (t.add xs) := by
  have hold : t.list.filter (· ∉ t.list ++ xs) = [] := by
    refine List.filter_eq_nil_iff.mpr fun x hx => ?_
    simp [hx]
  have hadd : (t.list ++ xs).filter (· ∉ t.list) = xs := by
    have hleft : t.list.filter (· ∉ t.list) = [] := List.filter_eq_nil_iff.mpr fun x hx => by
      simp [hx]
    have hright : xs.filter (· ∉ t.list) = xs := List.filter_eq_self.mpr fun x hx => by
      simpa using fun hmem => hnew x hx (hused x hmem)
    rw [List.filter_append, hleft, hright, List.nil_append]
  rw [edits, hold, hadd]
  exact .added hxs hnew

/-- The list has no duplicates, and the loop walks over a part of it. -/
structure Walker.Good (t : Walker α) : Prop where
  /-- No element is in the list twice. -/
  nodup : t.list.Nodup
  /-- Every element of the list has been used. -/
  used : ∀ x ∈ t.list, x ∈ t.used
  /-- What is left to be walked is in the list, in the same order. -/
  todo : ∀ xs, t.todo = some xs → xs.Sublist t.list
  /-- Without a loop nothing is to be visited. -/
  idle : t.todo = none → t.calling = none

/-- What a loop over `l` has done. -/
structure Walked (l : List α) (es : List (Walk α)) (t : Walker α) : Prop where
  /-- What it has come to and what is left are in the order of the list. -/
  order : ∃ xs, t.todo = some xs ∧ (turns es ++ xs).Sublist (l ++ news es)
  /-- An element is left, or its turn has come, or it has been removed. -/
  all : ∀ x ∈ l, x ∈ turns es ∨ (∃ xs, t.todo = some xs ∧ x ∈ xs) ∨ .removed x ∈ es
  /-- What has been removed does not come back. -/
  gone : ∀ x, .removed x ∈ es → x ∈ t.used ∧ ∀ xs, t.todo = some xs → x ∉ xs
  /-- The new elements are new. -/
  fresh : (l ++ news es).Nodup ∧ ∀ x ∈ l ++ news es, x ∈ t.used
  /-- What was due has been visited, but perhaps the last. -/
  visits : dues es = visits es ++ t.calling.toList
  /-- What was to be done has been done if it could be. -/
  able : ∀ x can done, .visit x can done ∈ es → done = can
  /-- The turn of an element that has been removed does not come. -/
  spared : Along (fun es e => ∀ x due, e = .turn x due → .removed x ∉ es) es

variable {t t' : Walker α} {e : Walk α} {es : List (Walk α)} {l : List α}

theorem Walker.Good.next (h : t.Good) (hn : (walking α).next t e t') : t'.Good := by
  cases e with
  | begins l =>
    obtain ⟨-, -, rfl⟩ := hn
    refine ⟨h.nodup, h.used, fun xs hxs => ?_, fun hnone => by cases hnone⟩
    cases hxs
    exact List.Sublist.refl _
  | turn x due =>
    obtain ⟨xs, hxs, -, rfl⟩ := hn
    refine ⟨h.nodup, h.used, fun ys hys => ?_, fun hnone => by cases hnone⟩
    cases hys
    exact (List.sublist_cons_self x xs).trans (h.todo _ hxs)
  | visit x can done =>
    obtain ⟨-, -, rfl⟩ := hn
    exact ⟨h.nodup, h.used, h.todo, fun _ => rfl⟩
  | ends =>
    obtain ⟨-, hcalling, rfl⟩ := hn
    exact ⟨h.nodup, h.used, fun xs hxs => (by cases hxs), fun _ => hcalling⟩
  | added x =>
    obtain ⟨hx, rfl⟩ := hn
    have hnot : x ∉ t.list := fun hmem => hx (h.used x hmem)
    refine ⟨List.nodup_append'.mpr ⟨h.nodup, List.nodup_singleton x, ?_⟩, fun y hy => ?_, ?_,
      fun hnone => h.idle (Option.map_eq_none_iff.mp hnone)⟩
    · rwa [List.disjoint_singleton]
    · exact (List.mem_append.mp hy).imp_left (h.used y)
    · intro xs hxs
      obtain ⟨ys, hys, rfl⟩ := Option.map_eq_some_iff.mp hxs
      have hsub := h.todo ys hys
      cases ys with
      | nil => exact List.nil_sublist _
      | cons y ys => exact hsub.append (List.Sublist.refl [x])
  | removed x =>
    obtain ⟨-, rfl⟩ := hn
    refine ⟨h.nodup.filter _, fun y hy => h.used y (List.mem_filter.mp hy).1, fun xs hxs => ?_,
      fun hnone => h.idle (Option.map_eq_none_iff.mp hnone)⟩
    obtain ⟨ys, hys, rfl⟩ := Option.map_eq_some_iff.mp hxs
    exact (h.todo ys hys).filter _

theorem Walked.begin (h : t.Good) (hn : (walking α).next t (.begins l) t') : Walked l [] t' := by
  obtain ⟨hnone, rfl, rfl⟩ := hn
  refine ⟨⟨t.list, rfl, ?_⟩, ?_, ?_, ?_, ?_, ?_, .nil⟩
  · simp [turns, news]
  · exact fun x hx => .inr (.inl ⟨_, rfl, hx⟩)
  · exact fun x hx => by cases hx
  · simpa [news] using ⟨h.nodup, h.used⟩
  · simp [dues, TQLib.visits, h.idle hnone]
  · exact fun x can done hx => by cases hx

/-- The loop comes to an element. -/
theorem Walked.turn {x : α} {due : Bool} (h : Walked l es t)
    (hn : (walking α).next t (.turn x due) t') : Walked l (es ++ [.turn x due]) t' := by
  obtain ⟨xs, hxs, horder⟩ := h.order
  obtain ⟨ys, hys, hcalling, rfl⟩ := hn
  obtain rfl : xs = x :: ys := by simpa [hxs] using hys
  refine ⟨⟨ys, rfl, ?_⟩, fun y hy => ?_, fun y hy => ?_, ?_, ?_, ?_, h.spared.snoc ?_⟩
  · simpa using horder
  · rcases h.all y hy with hturn | ⟨zs, hzs, hmem⟩ | hremoved
    · exact .inl (by simp [hturn])
    · obtain rfl : x :: ys = zs := by simpa [hxs] using hzs
      rcases List.mem_cons.mp hmem with rfl | hmem
      · exact .inl (by simp)
      · exact .inr (.inl ⟨ys, rfl, hmem⟩)
    · exact .inr (.inr (List.mem_append_left _ hremoved))
  · obtain ⟨hused, hnot⟩ := h.gone y (by simpa using hy)
    refine ⟨hused, fun zs hzs hmem => hnot _ hxs ?_⟩
    cases hzs
    exact List.mem_cons_of_mem _ hmem
  · simpa using h.fresh
  · have hvisits := h.visits
    cases due <;> simpa [hcalling] using hvisits
  · exact fun y can done hy => h.able y can done (by simpa using hy)
  · rintro y due' ⟨⟩ hremoved
    exact (h.gone x hremoved).2 _ hxs List.mem_cons_self

/-- It visits an element. -/
theorem Walked.visit {x : α} {can done : Bool} (h : Walked l es t)
    (hn : (walking α).next t (.visit x can done) t') : Walked l (es ++ [.visit x can done]) t' := by
  obtain ⟨xs, hxs, horder⟩ := h.order
  obtain ⟨hcalling, rfl, rfl⟩ := hn
  refine ⟨⟨xs, hxs, ?_⟩, fun y hy => ?_, fun y hy => ?_, ?_, ?_, ?_, h.spared.snoc ?_⟩
  · simpa using horder
  · simpa using h.all y hy
  · exact h.gone y (by simpa using hy)
  · simpa using h.fresh
  · simpa [hcalling] using h.visits
  · intro y can' done' hy
    rcases List.mem_append.mp hy with hy | hy
    · exact h.able y can' done' hy
    · cases List.mem_singleton.mp hy
      rfl
  · exact fun y due heq => by cases heq

/-- An element comes. -/
theorem Walked.add {x : α} (h : Walked l es t) (hn : (walking α).next t (.added x) t') :
    Walked l (es ++ [.added x]) t' := by
  obtain ⟨xs, hxs, horder⟩ := h.order
  obtain ⟨hx, rfl⟩ := hn
  have hdisjoint : x ∉ l ++ news es := fun hmem => hx (h.fresh.2 x hmem)
  refine ⟨?_, fun y hy => ?_, fun y hy => ?_, ?_, ?_, ?_, h.spared.snoc ?_⟩
  · refine ⟨_, congrArg (Option.map _) hxs, ?_⟩
    cases xs with
    | nil => exact (by simpa using horder.trans (List.sublist_append_left _ [x]))
    | cons y ys => simpa using horder.append (List.Sublist.refl [x])
  · rcases h.all y hy with hturn | ⟨zs, hzs, hmem⟩ | hremoved
    · exact .inl (by simp [hturn])
    · refine .inr (.inl ⟨_, congrArg (Option.map _) hzs, ?_⟩)
      cases zs with
      | nil => cases hmem
      | cons z zs => exact List.mem_append_left _ hmem
    · exact .inr (.inr (List.mem_append_left _ hremoved))
  · obtain ⟨hused, hnot⟩ := h.gone y (by simpa using hy)
    refine ⟨.inl hused, fun zs hzs hmem => ?_⟩
    obtain ⟨ws, hws, rfl⟩ := Option.map_eq_some_iff.mp hzs
    cases ws with
    | nil => cases hmem
    | cons w ws =>
      refine hnot _ hws ((List.mem_append.mp hmem).resolve_right fun hyx => hx ?_)
      rwa [← List.mem_singleton.mp hyx]
  · constructor
    · have hnodup := List.nodup_append'.mpr
        ⟨h.fresh.1, List.nodup_singleton x, List.disjoint_singleton.mpr hdisjoint⟩
      simpa using hnodup
    · intro y hy
      have hy' : y ∈ (l ++ news es) ++ [x] := by simpa using hy
      exact (List.mem_append.mp hy').imp_left (h.fresh.2 y)
  · simpa using h.visits
  · exact fun y can done hy => h.able y can done (by simpa using hy)
  · exact fun y due heq => by cases heq

/-- An element goes. -/
theorem Walked.remove {x : α} (h : Walked l es t) (hn : (walking α).next t (.removed x) t')
    (hg : t.Good) : Walked l (es ++ [.removed x]) t' := by
  obtain ⟨xs, hxs, horder⟩ := h.order
  obtain ⟨hx, rfl⟩ := hn
  refine ⟨?_, fun y hy => ?_, fun y hy => ?_, ?_, ?_, ?_, h.spared.snoc ?_⟩
  · refine ⟨_, congrArg (Option.map _) hxs, ?_⟩
    simpa using ((List.filter_sublist).append_left (turns es)).trans horder
  · rcases h.all y hy with hturn | ⟨zs, hzs, hmem⟩ | hremoved
    · exact .inl (by simp [hturn])
    · rcases eq_or_ne y x with rfl | hne
      · exact .inr (.inr (by simp))
      · refine .inr (.inl ⟨_, congrArg (Option.map _) hzs, ?_⟩)
        exact List.mem_filter.mpr ⟨hmem, by simpa using hne⟩
    · exact .inr (.inr (List.mem_append_left _ hremoved))
  · refine ⟨?_, fun zs hzs hmem => ?_⟩
    · rcases List.mem_append.mp hy with hy | hy
      · exact (h.gone y hy).1
      · cases List.mem_singleton.mp hy
        exact hg.used x hx
    · obtain ⟨ws, hws, rfl⟩ := Option.map_eq_some_iff.mp hzs
      obtain ⟨hmem, hne⟩ := List.mem_filter.mp hmem
      rcases List.mem_append.mp hy with hy | hy
      · exact (h.gone y hy).2 ws hws hmem
      · cases List.mem_singleton.mp hy
        simp at hne
  · obtain ⟨hnodup, hfresh⟩ := h.fresh
    exact ⟨by simpa using hnodup, by simpa using hfresh⟩
  · simpa using h.visits
  · exact fun y can done hy => h.able y can done (by simpa using hy)
  · exact fun y due heq => by cases heq

/-- **One step.** -/
theorem Walked.next (h : Walked l es t) (hn : (walking α).next t e t') (hg : t.Good)
    (he : e ≠ .ends) : Walked l (es ++ [e]) t' := by
  cases e with
  | begins l' =>
    obtain ⟨xs, hxs, -⟩ := h.order
    have hnone := hn.1
    rw [hxs] at hnone
    cases hnone
  | turn x due => exact h.turn hn
  | visit x can done => exact h.visit hn
  | ends => exact absurd rfl he
  | added x => exact h.add hn
  | removed x => exact h.remove hn hg

/-- **Every loop**, up to any moment before it ends. -/
theorem Walked.path {es' : List (Walk α)} (h : Walked l es t) (hp : (walking α).Path t es' t')
    (hg : t.Good) (hends : .ends ∉ es') : Walked l (es ++ es') t' := by
  induction hp generalizing es with
  | nil => rwa [List.append_nil]
  | @cons t₁ t₂ t₃ e es' hn _ ih =>
    rw [List.mem_cons, not_or] at hends
    have htail := ih (h.next hn hg (Ne.symm hends.1)) (hg.next hn) hends.2
    rwa [List.append_assoc] at htail

/-! ## Histories -/

/-- What has been seen of a loop over `l` before it ends. -/
structure Iterated (l : List α) (es : List (Walk α)) : Prop where
  /-- It comes to the elements in the order of the list, new ones last. -/
  order : (turns es).Sublist (l ++ news es)
  /-- It comes to no element twice. -/
  once : (turns es).Nodup
  /-- It does not come to an element that has been removed. -/
  spared : ∀ es₁ es₂ x due, es = es₁ ++ .turn x due :: es₂ → .removed x ∉ es₁
  /-- It visits what is due in turn, and is behind by one at most. -/
  visits : ∃ xs, dues es = visits es ++ xs ∧ xs.length ≤ 1
  /-- What is to be done on a visit is done if it can be. -/
  able : ∀ x can done, .visit x can done ∈ es → done = can

/-- What has been seen of a loop over `l` that has ended. -/
structure Completed (l : List α) (es : List (Walk α)) : Prop where
  /-- It has come to every element that has not been removed. -/
  all : ∀ x ∈ l, x ∈ turns es ∨ .removed x ∈ es
  /-- It has visited all that was due. -/
  visits : dues es = visits es

omit [DecidableEq α] in
theorem dues_sublist_turns (es : List (Walk α)) : (dues es).Sublist (turns es) := by
  induction es with
  | nil => exact .slnil
  | cons e es ih =>
    have hcons : ∀ es' : List (Walk α), e :: es' = [e] ++ es' := fun _ => rfl
    rw [hcons es, dues_append, turns_append]
    refine List.Sublist.append ?_ ih
    rcases e with _ | ⟨x, _ | _⟩ | _ | _ | _ | _ <;> simp

omit [DecidableEq α] in
theorem Iterated.visits_sublist_turns (hi : Iterated l es) :
    (TQLib.visits es).Sublist (turns es) := by
  obtain ⟨xs, hdues, -⟩ := hi.visits
  refine List.Sublist.trans ?_ (dues_sublist_turns es)
  rw [hdues]
  exact List.sublist_append_left _ xs

omit [DecidableEq α] in
/-- **In order.** -/
theorem Iterated.visits_sublist (hi : Iterated l es) :
    (TQLib.visits es).Sublist (l ++ news es) :=
  hi.visits_sublist_turns.trans hi.order

omit [DecidableEq α] in
/-- **Termination.** A loop comes to no more elements than there are. -/
theorem Iterated.length_turns (hi : Iterated l es) :
    (turns es).length ≤ l.length + (news es).length := by
  rw [← List.length_append]
  exact hi.order.length_le

omit [DecidableEq α] in
theorem mem_turns {x : α} : x ∈ turns es ↔ ∃ due, .turn x due ∈ es := by
  simp only [turns, List.mem_filterMap]
  constructor
  · rintro ⟨e, he, hx⟩
    cases e with
    | turn y due =>
      cases hx
      exact ⟨due, he⟩
    | _ => cases hx
  · rintro ⟨due, he⟩
    exact ⟨_, he, rfl⟩

omit [DecidableEq α] in
/-- **Not at all.** An element that is removed before its turn is not visited. -/
theorem Iterated.not_visited (hi : Iterated l es) {es₁ es₂ : List (Walk α)} {x : α}
    (heq : es = es₁ ++ .removed x :: es₂) (hx : x ∉ turns es₁) : x ∉ TQLib.visits es := by
  intro hmem
  obtain ⟨due, hturn⟩ := mem_turns.mp (hi.visits_sublist_turns.subset hmem)
  rw [heq] at hturn
  rcases List.mem_append.mp hturn with hturn | hturn
  · exact hx (mem_turns.mpr ⟨due, hturn⟩)
  · obtain ⟨es₃, es₄, rfl⟩ := List.append_of_mem ((List.mem_cons.mp hturn).resolve_left (by simp))
    refine hi.spared (es₁ ++ .removed x :: es₃) es₄ x due ?_ (by simp)
    rw [heq, List.append_assoc]
    rfl

/-- **Exactly once.** A loop that has ended has visited an element it has come to once if the
element was due, and not at all if it was not. -/
theorem Iterated.count_visits (hi : Iterated l es) (hc : Completed l es) {es₁ es₂ : List (Walk α)}
    {x : α} {due : Bool} (heq : es = es₁ ++ .turn x due :: es₂) :
    (TQLib.visits es).count x = if due then 1 else 0 := by
  have hes : es = es₁ ++ ([.turn x due] ++ es₂) := heq
  have honce := hi.once
  rw [← hc.visits]
  rw [hes] at honce ⊢
  rw [turns_append, turns_append, turns_singleton, List.nodup_append'] at honce
  obtain ⟨-, hright, hdisjoint⟩ := honce
  have hone : x ∉ turns es₁ := fun hmem => hdisjoint hmem List.mem_cons_self
  have htwo : x ∉ turns es₂ := (List.nodup_cons.mp hright).1
  have hnone : ∀ es' : List (Walk α), x ∉ turns es' → (dues es').count x = 0 := fun es' hx =>
    List.count_eq_zero.mpr fun hmem => hx (mem_turns_of_mem_dues hmem)
  rw [dues_append, dues_append, List.count_append, List.count_append, hnone es₁ hone,
    hnone es₂ htwo]
  cases due <;> simp

/-- **Each element.** A loop that has ended has come to every element the list had, unless it has
been removed before that. -/
theorem Iterated.each (hi : Iterated l es) (hc : Completed l es) {x : α} (hx : x ∈ l) :
    (∃ es₁ due es₂, es = es₁ ++ .turn x due :: es₂ ∧
      (TQLib.visits es).count x = if due then 1 else 0) ∨
    .removed x ∈ es ∧ x ∉ TQLib.visits es := by
  by_cases hturn : x ∈ turns es
  · obtain ⟨due, hmem⟩ := mem_turns.mp hturn
    obtain ⟨es₁, es₂, heq⟩ := List.append_of_mem hmem
    exact .inl ⟨es₁, due, es₂, heq, hi.count_visits hc heq⟩
  · refine .inr ⟨(hc.all x hx).resolve_left hturn, fun hmem => hturn ?_⟩
    exact hi.visits_sublist_turns.subset hmem

omit [DecidableEq α] in
theorem Walked.iterated (hw : Walked l es t) : Iterated l es := by
  obtain ⟨xs, -, horder⟩ := hw.order
  have hturns := (List.sublist_append_left _ xs).trans horder
  refine ⟨hturns, hw.fresh.1.sublist hturns, ?_, ⟨_, hw.visits, ?_⟩, hw.able⟩
  · exact fun es₁ es₂ x due heq => hw.spared es₁ _ es₂ heq x due rfl
  · cases t.calling <;> simp

theorem Walked.completed (hw : Walked l es t) (hn : (walking α).next t .ends t') :
    Completed l es := by
  obtain ⟨htodo, hcalling, -⟩ := hn
  refine ⟨fun x hx => ?_, ?_⟩
  · rcases hw.all x hx with hturn | ⟨xs, hxs, hmem⟩ | hremoved
    · exact .inl hturn
    · obtain rfl : [] = xs := by simpa [htodo] using hxs
      cases hmem
    · exact .inr hremoved
  · simpa [hcalling] using hw.visits

namespace Spec

variable {h : List (Walk α)}

theorem Accepts.walker_good (ha : (walking α).Accepts h t) : t.Good := by
  induction ha with
  | nil hs =>
    rw [show _ = _ from hs]
    exact ⟨.nil, fun x hx => (by cases hx), fun xs hxs => (by cases hxs), fun _ => rfl⟩
  | snoc _ hn ih => exact ih.next hn

theorem Accepts.walked (ha : (walking α).Accepts (h ++ .begins l :: es) t) (hends : .ends ∉ es) :
    Walked l es t ∧ t.Good := by
  obtain ⟨t₁, ha₁, hp⟩ := ha.cut
  cases hp with
  | cons hn hp =>
    have hbegin := Walked.begin ha₁.walker_good hn
    exact ⟨hbegin.path hp (ha₁.walker_good.next hn) hends, ha.walker_good⟩

/-- **A loop before it ends.** -/
theorem Accepts.iterated (ha : (walking α).Accepts (h ++ .begins l :: es) t)
    (hends : .ends ∉ es) : Iterated l es :=
  (ha.walked hends).1.iterated

/-- **A loop that has ended.** -/
theorem Accepts.completed (ha : (walking α).Accepts (h ++ .begins l :: es ++ [.ends]) t)
    (hends : .ends ∉ es) : Completed l es := by
  obtain ⟨t₁, ha₁, hp⟩ := ha.cut
  cases hp with
  | cons hn hp => exact (ha₁.walked hends).1.completed hn

/-- **The rest of a loop**, as a loop over what is left to be walked. -/
theorem Path.rest {xs : List α} (hp : (walking α).Path t (es ++ [.ends]) t') (hg : t.Good)
    (htodo : t.todo = some xs) (hcalling : t.calling = none) (hends : .ends ∉ es) :
    Iterated xs es ∧ Completed xs es := by
  have hsub := hg.todo xs htodo
  have hstart : Walked xs [] t := by
    refine ⟨⟨xs, htodo, ?_⟩, fun x hx => .inr (.inl ⟨xs, htodo, hx⟩), fun x hx => (by cases hx), ?_,
      ?_, fun x can done hx => (by cases hx), .nil⟩
    · simp [turns, news]
    · simpa [news] using ⟨hg.nodup.sublist hsub, fun x hx => hg.used x (hsub.subset hx)⟩
    · simp [dues, visits, hcalling]
  obtain ⟨t₁, hp₁, hp₂⟩ := hp.cut
  have hw := hstart.path hp₁ hg hends
  cases hp₂ with
  | cons hn hp => exact ⟨hw.iterated, hw.completed hn⟩

/-- **Nothing left.** What comes then is not walked. -/
theorem Path.turns_eq_nil (hp : (walking α).Path t es t') (htodo : t.todo = some [])
    (hends : .ends ∉ es) : turns es = [] := by
  induction hp with
  | nil => rfl
  | @cons t₁ t₂ t₃ e es hn _ ih =>
    rw [List.mem_cons, not_or] at hends
    cases e with
    | begins l =>
      rw [hn.1] at htodo
      cases htodo
    | turn x due =>
      obtain ⟨xs, hxs, -⟩ := hn
      rw [htodo] at hxs
      cases hxs
    | visit x can done =>
      obtain ⟨-, -, rfl⟩ := hn
      exact ih htodo hends.2
    | ends => exact absurd rfl hends.1
    | added x =>
      obtain ⟨-, rfl⟩ := hn
      exact ih (by simp [Walker.add, htodo]) hends.2
    | removed x =>
      obtain ⟨-, rfl⟩ := hn
      exact ih (by simp [Walker.keep, htodo]) hends.2

end Spec

end Spec

end TQLib
