import Mathlib.Data.Multiset.AddSub
import Mathlib.Order.Lattice

/-!
# Ordered maps

A finite map kept as its entries in ascending order of the keys, the order `std::map` iterates in.
The order is a field of the structure, so a map with a key out of place or a key twice cannot be
built. Writing to a key that is present replaces its value; that is the only operation that can
make a value disappear without anybody having asked for it; `insert_toMultiset` says when it does
not happen and `insert_toMultiset_of_find?` what is left when it does.

## Main results

* `mem_insertEntry` — what an assignment leaves in the map
* `insert_toMultiset`, `insert_toMultiset_of_find?` — assigning to a fresh key adds an entry,
  assigning to a key that is present replaces its entry, and both keep all others
* `find?_insert`, `find?_erase`, `find?_mapValues` — what is found afterwards
* `begin_le` — the first entry has the least key
-/

namespace TQLib

variable {κ α : Type*} [LinearOrder κ]

/-- Assign `a` to the key `k` among entries in ascending order. -/
def insertEntry (k : κ) (a : α) : List (κ × α) → List (κ × α)
  | [] => [(k, a)]
  | e :: es =>
    if k < e.1 then (k, a) :: e :: es
    else if k = e.1 then (k, a) :: es
    else e :: insertEntry k a es

theorem mem_insertEntry {k : κ} {a : α} {e : κ × α} {es : List (κ × α)}
    (h : e ∈ insertEntry k a es) : e = (k, a) ∨ e ∈ es := by
  induction es with
  | nil => exact .inl (List.mem_singleton.mp h)
  | cons e' es ih =>
    rw [insertEntry] at h
    split at h
    · simpa using h
    · split at h
      · rcases List.mem_cons.mp h with h | h
        · exact .inl h
        · exact .inr (List.mem_cons_of_mem _ h)
      · rcases List.mem_cons.mp h with rfl | h
        · exact .inr List.mem_cons_self
        · exact (ih h).imp_right (List.mem_cons_of_mem _)

/-- The value assigned to the key `k` among entries in ascending order. -/
def entryAt? (k : κ) : List (κ × α) → Option α
  | [] => none
  | e :: es => if k = e.1 then some e.2 else entryAt? k es

theorem entryAt?_eq_none {k : κ} {es : List (κ × α)} :
    entryAt? k es = none ↔ ∀ e ∈ es, e.1 ≠ k := by
  induction es with
  | nil => simp [entryAt?]
  | cons e es ih =>
    rw [entryAt?]
    split
    · rename_i heq
      simp [heq]
    · rename_i hne
      simp [ih, Ne.symm hne]

theorem pairwise_insertEntry (k : κ) (a : α) {es : List (κ × α)}
    (h : es.Pairwise fun e e' => e.1 < e'.1) :
    (insertEntry k a es).Pairwise fun e e' => e.1 < e'.1 := by
  induction es with
  | nil => exact List.pairwise_singleton _ _
  | cons e es ih =>
    obtain ⟨he, hes⟩ := List.pairwise_cons.mp h
    rw [insertEntry]
    split
    · rename_i hlt
      refine List.pairwise_cons.mpr ⟨fun e' he' => ?_, h⟩
      rcases List.mem_cons.mp he' with rfl | he'
      · exact hlt
      · exact hlt.trans (he e' he')
    · rename_i hge
      split
      · rename_i heq
        exact List.pairwise_cons.mpr ⟨fun e' he' => heq ▸ he e' he', hes⟩
      · rename_i hne
        refine List.pairwise_cons.mpr ⟨fun e' he' => ?_, ih hes⟩
        rcases mem_insertEntry he' with rfl | he'
        · exact lt_of_le_of_ne (not_lt.mp hge) (Ne.symm hne)
        · exact he e' he'

/-- Assigning to a key that is present takes the old value out. -/
theorem insertEntry_perm_of_find {k : κ} {es : List (κ × α)} (a : α) {a' : α}
    (hs : es.Pairwise fun e e' => e.1 < e'.1) (hk : entryAt? k es = some a') :
    ∃ rest, es.Perm ((k, a') :: rest) ∧ (insertEntry k a es).Perm ((k, a) :: rest) := by
  induction es with
  | nil => simp [entryAt?] at hk
  | cons e es ih =>
    obtain ⟨he, hes⟩ := List.pairwise_cons.mp hs
    rw [entryAt?] at hk
    split at hk
    · rename_i heq
      obtain rfl : e = (k, a') := Prod.ext heq.symm (Option.some.inj hk)
      refine ⟨es, .refl _, ?_⟩
      simp [insertEntry]
    · rename_i hne
      obtain ⟨rest, h₁, h₂⟩ := ih hes hk
      have hlt : ¬ k < e.1 := by
        intro hlt
        have hmem : (k, a') ∈ es := h₁.mem_iff.mpr List.mem_cons_self
        exact lt_asymm hlt (he _ hmem)
      refine ⟨e :: rest, (h₁.cons e).trans (.swap _ _ _), ?_⟩
      rw [insertEntry, if_neg hlt, if_neg hne]
      exact (h₂.cons e).trans (.swap _ _ _)

theorem insertEntry_perm {k : κ} {es : List (κ × α)} (a : α) (hk : ∀ e ∈ es, e.1 ≠ k) :
    (insertEntry k a es).Perm ((k, a) :: es) := by
  induction es with
  | nil => exact .refl _
  | cons e es ih =>
    rw [insertEntry]
    split
    · exact .refl _
    · rw [if_neg (Ne.symm (hk e List.mem_cons_self))]
      exact ((ih fun e' he' => hk e' (List.mem_cons_of_mem _ he')).cons e).trans (.swap _ _ _)

theorem entryAt?_insertEntry (k k' : κ) (a : α) (es : List (κ × α)) :
    entryAt? k' (insertEntry k a es) = if k' = k then some a else entryAt? k' es := by
  induction es with
  | nil => rfl
  | cons e es ih =>
    rw [insertEntry]
    split
    · rfl
    · split
      · rename_i heq
        simp only [entryAt?, ← heq]
        split <;> rfl
      · rename_i hne
        rw [entryAt?, entryAt?, ih]
        by_cases h : k' = e.1
        · rw [if_pos h, if_pos h, if_neg (h ▸ Ne.symm hne)]
        · rw [if_neg h, if_neg h]

theorem entryAt?_filter (k k' : κ) (es : List (κ × α)) :
    entryAt? k' (es.filter fun e => e.1 ≠ k) = if k' = k then none else entryAt? k' es := by
  induction es with
  | nil => simp [entryAt?]
  | cons e es ih =>
    by_cases he : e.1 = k
    · rw [List.filter_cons_of_neg (by simpa using he), ih, entryAt?]
      by_cases h : k' = k
      · rw [if_pos h, if_pos h]
      · rw [if_neg h, if_neg h, if_neg (he ▸ h)]
    · rw [List.filter_cons_of_pos (by simpa using he), entryAt?, entryAt?, ih]
      by_cases h : k' = e.1
      · rw [if_pos h, if_pos h, if_neg (h ▸ he)]
      · rw [if_neg h, if_neg h]

theorem entryAt?_map {β : Type*} (f : α → β) (k : κ) (es : List (κ × α)) :
    entryAt? k (es.map fun e => (e.1, f e.2)) = (entryAt? k es).map f := by
  induction es with
  | nil => rfl
  | cons e es ih =>
    rw [List.map_cons, entryAt?, entryAt?, ih]
    split <;> rfl

/-- A key has no entry but the one it is looked up in. -/
theorem filter_entryAt? {k : κ} {es : List (κ × α)} (h : es.Pairwise fun e e' => e.1 < e'.1) :
    es.filter (fun e => e.1 = k) = (entryAt? k es).toList.map fun a => (k, a) := by
  induction es with
  | nil => rfl
  | cons e es ih =>
    obtain ⟨he, hes⟩ := List.pairwise_cons.mp h
    rw [entryAt?, List.filter_cons]
    by_cases heq : k = e.1
    · have hnone : es.filter (fun e => e.1 = k) = [] := by
        refine List.filter_eq_nil_iff.mpr fun e' he' => ?_
        rw [decide_eq_true_iff, heq]
        exact (he e' he').ne'
      rw [if_pos heq, if_pos (decide_eq_true heq.symm), hnone, heq]
      rfl
    · rw [if_neg heq, if_neg (by simpa using Ne.symm heq), ih hes]

/-- A finite map, as its entries in ascending order of the keys. -/
structure OrderedMap (κ α : Type*) [LinearOrder κ] where
  /-- The entries, least key first. -/
  entries : List (κ × α)
  /-- No key is out of place and none occurs twice. -/
  sorted : entries.Pairwise fun e e' => e.1 < e'.1

namespace OrderedMap

/-- The map without entries. -/
def empty : OrderedMap κ α := ⟨[], .nil⟩

/-- Assign a value to a key, replacing the value the key may have. -/
def insert (m : OrderedMap κ α) (k : κ) (a : α) : OrderedMap κ α :=
  ⟨insertEntry k a m.entries, pairwise_insertEntry k a m.sorted⟩

/-- The value a key has. -/
def find? (m : OrderedMap κ α) (k : κ) : Option α := entryAt? k m.entries

/-- The map without a key. -/
def erase (m : OrderedMap κ α) (k : κ) : OrderedMap κ α :=
  ⟨m.entries.filter fun e => e.1 ≠ k, m.sorted.filter _⟩

/-- The map with other values. -/
def mapValues {β : Type*} (m : OrderedMap κ α) (f : α → β) : OrderedMap κ β :=
  ⟨m.entries.map fun e => (e.1, f e.2), List.pairwise_map.mpr m.sorted⟩

@[simp] theorem find?_empty (k : κ) : (empty : OrderedMap κ α).find? k = none := rfl

theorem find?_insert (m : OrderedMap κ α) (k k' : κ) (a : α) :
    (m.insert k a).find? k' = if k' = k then some a else m.find? k' :=
  entryAt?_insertEntry k k' a m.entries

theorem find?_erase (m : OrderedMap κ α) (k k' : κ) :
    (m.erase k).find? k' = if k' = k then none else m.find? k' :=
  entryAt?_filter k k' m.entries

theorem find?_mapValues {β : Type*} (m : OrderedMap κ α) (f : α → β) (k : κ) :
    (m.mapValues f).find? k = (m.find? k).map f :=
  entryAt?_map f k m.entries

/-- The keys, least first. -/
def keys (m : OrderedMap κ α) : List κ := m.entries.map Prod.fst

theorem mem_keys {m : OrderedMap κ α} {k : κ} : k ∈ m.keys ↔ (m.find? k).isSome = true := by
  rw [← not_iff_not, Bool.not_eq_true, Option.isSome_eq_false_iff, Option.isNone_iff_eq_none, find?,
    entryAt?_eq_none, keys]
  constructor
  · exact fun hk e he heq => hk (heq ▸ List.mem_map_of_mem he)
  · intro hne hk
    obtain ⟨e, he, heq⟩ := List.mem_map.mp hk
    exact hne e he heq

/-- The first entry. -/
def begin? (m : OrderedMap κ α) : Option (κ × α) := m.entries.head?

/-- The map without its first entry. -/
def eraseBegin (m : OrderedMap κ α) : OrderedMap κ α := ⟨m.entries.tail, m.sorted.tail⟩

/-- The entries, forgetting their order. -/
def toMultiset (m : OrderedMap κ α) : Multiset (κ × α) := m.entries

@[simp] theorem toMultiset_empty : (empty : OrderedMap κ α).toMultiset = 0 := rfl

theorem find?_eq_none {m : OrderedMap κ α} {k : κ} :
    m.find? k = none ↔ ∀ e ∈ m.toMultiset, e.1 ≠ k :=
  entryAt?_eq_none

/-- Assigning to a fresh key adds an entry and keeps all others. -/
theorem insert_toMultiset {m : OrderedMap κ α} {k : κ} (a : α) (hk : m.find? k = none) :
    (m.insert k a).toMultiset = (k, a) ::ₘ m.toMultiset :=
  Multiset.coe_eq_coe.mpr (insertEntry_perm a (entryAt?_eq_none.mp hk))

/-- Assigning to a key that is present replaces its entry and keeps all others. -/
theorem insert_toMultiset_of_find? {m : OrderedMap κ α} {k : κ} (a : α) {a' : α}
    (hk : m.find? k = some a') :
    ∃ rest, m.toMultiset = (k, a') ::ₘ rest ∧ (m.insert k a).toMultiset = (k, a) ::ₘ rest := by
  obtain ⟨rest, h₁, h₂⟩ := insertEntry_perm_of_find a m.sorted hk
  exact ⟨rest, Multiset.coe_eq_coe.mpr h₁, Multiset.coe_eq_coe.mpr h₂⟩

theorem mem_insert {m : OrderedMap κ α} {k : κ} {a : α} {e : κ × α}
    (h : e ∈ (m.insert k a).toMultiset) : e = (k, a) ∨ e ∈ m.toMultiset :=
  mem_insertEntry h

/-- Taking the first entry off. -/
theorem toMultiset_of_begin? {m : OrderedMap κ α} {e : κ × α} (h : m.begin? = some e) :
    m.toMultiset = e ::ₘ m.eraseBegin.toMultiset := by
  obtain ⟨es, hes⟩ := List.head?_eq_some_iff.mp h
  simp [toMultiset, eraseBegin, hes]

/-- The first entry has the least key. -/
theorem begin_le {m : OrderedMap κ α} {e : κ × α} (h : m.begin? = some e) :
    ∀ e' ∈ m.eraseBegin.toMultiset, e.1 < e'.1 := by
  obtain ⟨es, hes⟩ := List.head?_eq_some_iff.mp h
  have hs := m.sorted
  rw [hes] at hs
  intro e' he'
  exact (List.pairwise_cons.mp hs).1 e' (by simpa [toMultiset, eraseBegin, hes] using he')

theorem mem_of_mem_eraseBegin {m : OrderedMap κ α} {e : κ × α}
    (h : e ∈ m.eraseBegin.toMultiset) : e ∈ m.toMultiset :=
  List.mem_of_mem_tail h

end OrderedMap

end TQLib
