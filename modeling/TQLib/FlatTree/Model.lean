import TQLib.Foundations.FirstOfKey
import TQLib.Foundations.PartitionPoint

/-!
# Maps and sets in a vector

`flat_tree` of `rtc_base/containers/flat_tree.h`, the base of `flat_set` and `flat_map`, and what
`flat_map` of `rtc_base/containers/flat_map.h` adds to it. The values are in a vector. Nothing in
the types keeps it sorted, so it is a list here, and whether it ascends is a property of it.
`GetKeyFromValue` is a function: of a set the identity, of a map the first component.

An iterator is a place in the vector. A place that is out of range, or the end where the source
checks for it, has no result.

## Main definitions

* `FlatTree.emplaceKeyArgs`, `FlatTree.emplaceHintKeyArgs` — how a value gets in
* `FlatTree.insertRange`, `FlatTree.ofRange` — how many get in
* `FlatTree.step`, `FlatMap.step` — the calls of a tree, and of a map
-/

namespace TQLib

namespace FlatTree

/-- `std::less<>`, the comparison where no other is given. -/
def less (α : Type*) [LinearOrder α] : WeakOrder α where
  lt a b := a < b
  asymm _ _ h := decide_eq_false (decide_eq_true_iff.mp h).asymm
  negTrans a b _ hab hbc := decide_eq_false fun hac =>
    (lt_or_ge a b).elim (of_decide_eq_false hab) fun hba =>
      of_decide_eq_false hbc (hba.trans_lt hac)

section Model

variable {K V : Type*} (C : WeakOrder K) (key : V → K) (body : List V)

/-! ## Search operations -/

/-- `lower_bound`. -/
def lowerBound (k : K) : ℕ := bisect (fun v => !C.lt (key v) k) body 0 body.length

/-- `upper_bound`. -/
def upperBound (k : K) : ℕ := bisect (fun v => C.lt k (key v)) body 0 body.length

/-- `equal_range`. -/
def equalRange (k : K) : ℕ × ℕ :=
  let lower := lowerBound C key body k
  -- `lower == end() || comp(key, *lower)`
  if body[lower]?.all fun v => C.lt k (key v) then (lower, lower) else (lower, lower + 1)

/-- `count`. -/
def count (k : K) : ℕ :=
  let eqRange := equalRange C key body k
  eqRange.2 - eqRange.1

/-- `find`. -/
def find (k : K) : ℕ :=
  let eqRange := equalRange C key body k
  if eqRange.1 = eqRange.2 then body.length else eqRange.1

/-- `contains`. -/
def contains (k : K) : Bool :=
  let lower := lowerBound C key body k
  body[lower]?.any fun v => !C.lt k (key v)

/-! ## Insert operations -/

/-- `unsafe_emplace`. -/
def unsafeEmplace (position : ℕ) (v : V) : List V × ℕ := (body.insertIdx position v, position)

/-- `emplace_key_args`: the vector, the iterator and the flag. -/
def emplaceKeyArgs (k : K) (v : V) : (List V × ℕ) × Bool :=
  let lower := lowerBound C key body k
  if body[lower]?.all fun w => C.lt k (key w) then (unsafeEmplace body lower v, true)
  else ((body, lower), false)

/-- `emplace_hint_key_args`. -/
def emplaceHintKeyArgs (hint : ℕ) (k : K) (v : V) : (List V × ℕ) × Bool :=
  -- `hint == begin() || comp(*std::prev(hint), key)`
  if hint = 0 ∨ body[hint - 1]?.any fun w => C.lt (key w) k then
    if body[hint]?.all fun w => C.lt k (key w) then (unsafeEmplace body hint v, true)
    else if body[hint]?.any fun w => !C.lt (key w) k then ((body, hint), false)
    else emplaceKeyArgs C key body k v
  else emplaceKeyArgs C key body k v

/-- `insert` of a value. -/
def insert (v : V) : (List V × ℕ) × Bool := emplaceKeyArgs C key body (key v) v

/-- `insert` of a value with a hint. -/
def insertHint (hint : ℕ) (v : V) : List V × ℕ :=
  (emplaceHintKeyArgs C key body hint (key v) v).1

/-- `emplace_hint`, of what the arguments construct. -/
def emplaceHint (hint : ℕ) (v : V) : List V × ℕ := insertHint C key body hint v

/-! ## Bulk insertion -/

/-- `append_unique` on the places before `last`. -/
def appendUnique (last : ℕ) (v : V) : (List V × ℕ) × Bool :=
  let position := bisect (fun w => !C.lt (key w) (key v)) body 0 last
  -- `position == last || value_comp()(val, *position)`
  if position = last ∨ body[position]?.any fun w => C.lt (key v) (key w) then
    ((body ++ [v], position), true)
  else ((body, position), false)

/-- `sort_and_unique`: `std::stable_sort`, and `std::unique` by `std::not_fn(value_comp())`. -/
def sortAndUnique (values : List V) : List V :=
  (values.mergeSort (C.notGreater key)).destutter fun v w => C.lt (key v) (key w) = true

/-- The loop over the input range, and what `pos_first_new` is after it. -/
def appendAll (input : List V) : List V × ℕ :=
  let size := body.length
  input.foldl (fun (values, posFirstNew) v =>
    let result := appendUnique C key values size v
    (result.1.1, if result.2 then min posFirstNew result.1.2 else posFirstNew)) (body, size)

/-- `insert` of a range, where it is not a single element. -/
def insertBatch (input : List V) : List V :=
  let middle := body.length
  let (values, posFirstNew) := appendAll C key body input
  let old := values.take middle
  let new := sortAndUnique C key (values.drop middle)
  -- `std::inplace_merge`
  old.take posFirstNew ++ (old.drop posFirstNew).merge new (C.notGreater key)

/-- `insert` of a range, where `multipass` is `is_multipass<InputIterator>()`. -/
def insertRange (multipass : Bool) : List V → List V
  | [] => body
  | [v] => if multipass then (insertHint C key body body.length v).1 else insertBatch C key body [v]
  | input => insertBatch C key body input

/-- The constructors from a range, a container and an initializer list. -/
def ofRange (items : List V) : List V := sortAndUnique C key items

/-! ## Erase operations -/

/-- `erase` of an iterator. -/
def eraseAt (position : ℕ) : Option (List V × ℕ) :=
  if position < body.length then some (body.eraseIdx position, position) else none

/-- `erase` of a range. -/
def eraseRange (first last : ℕ) : List V × ℕ := (body.take first ++ body.drop last, first)

/-- `erase` of a key. -/
def eraseKey (k : K) : List V × ℕ :=
  let eqRange := equalRange C key body k
  let res := eqRange.2 - eqRange.1
  ((eraseRange body eqRange.1 eqRange.2).1, res)

/-- `EraseIf`: what `std::remove_if` keeps is put in front, and the rest erased. -/
def eraseIf (pred : V → Bool) : List V × ℕ :=
  let kept := body.filter fun v => !pred v
  let removed := body.length - kept.length
  (kept, removed)

end Model

/-! ## Calls -/

/-- A call of a tree. -/
inductive Call (K V : Type*)
  /-- `insert` of a value. -/
  | insert (v : V)
  /-- `insert` of a value with a hint. -/
  | insertHint (hint : ℕ) (v : V)
  /-- `emplace_hint`. -/
  | emplaceHint (hint : ℕ) (v : V)
  /-- `erase` of a key. -/
  | eraseKey (k : K)
  /-- `erase` of an iterator. -/
  | eraseAt (position : ℕ)
  /-- `erase` of a range. -/
  | eraseRange (first last : ℕ)
  /-- `EraseIf`. -/
  | eraseIf (pred : V → Bool)
  /-- `clear`. -/
  | clear
  /-- `find`. -/
  | find (k : K)
  /-- `count`. -/
  | count (k : K)
  /-- `contains`. -/
  | contains (k : K)
  /-- `lower_bound`. -/
  | lowerBound (k : K)
  /-- `upper_bound`. -/
  | upperBound (k : K)

/-- What a call returns, with the element an iterator is at, or none at the end. -/
inductive Result (V : Type*)
  /-- An iterator. -/
  | iterator (element : Option V)
  /-- An iterator, and whether there is a new element. -/
  | inserted (element : Option V) (flag : Bool)
  /-- A number of elements. -/
  | count (n : ℕ)
  /-- A truth value. -/
  | found (b : Bool)
  /-- Nothing. -/
  | done

section Step

variable {K V : Type*} (C : WeakOrder K) (key : V → K)

/-- An iterator that is returned. -/
def returnIterator (r : List V × ℕ) : List V × Result V := (r.1, .iterator r.1[r.2]?)

/-- An iterator and a flag that are returned. -/
def returnInserted (r : (List V × ℕ) × Bool) : List V × Result V :=
  (r.1.1, .inserted r.1.1[r.1.2]? r.2)

/-- What a call does and returns. -/
def step (body : List V) : Call K V → Option (List V × Result V)
  | .insert v => some (returnInserted (insert C key body v))
  | .insertHint hint v =>
    if hint ≤ body.length then some (returnIterator (insertHint C key body hint v)) else none
  | .emplaceHint hint v =>
    if hint ≤ body.length then some (returnIterator (emplaceHint C key body hint v)) else none
  | .eraseKey k =>
    let r := eraseKey C key body k
    some (r.1, .count r.2)
  | .eraseAt position => (eraseAt body position).map returnIterator
  | .eraseRange first last =>
    if first ≤ last ∧ last ≤ body.length then some (returnIterator (eraseRange body first last))
    else none
  | .eraseIf pred =>
    let r := eraseIf body pred
    some (r.1, .count r.2)
  | .clear => some ([], .done)
  | .find k => some (returnIterator (body, find C key body k))
  | .count k => some (body, .count (count C key body k))
  | .contains k => some (body, .found (contains C key body k))
  | .lowerBound k => some (returnIterator (body, lowerBound C key body k))
  | .upperBound k => some (returnIterator (body, upperBound C key body k))

end Step

end FlatTree

namespace FlatMap

open FlatTree (lowerBound unsafeEmplace emplaceKeyArgs emplaceHintKeyArgs Result returnIterator
  returnInserted)

section Model

variable {K M : Type*} (C : WeakOrder K) (body : List (K × M))

/-- `operator[]`, where `mapped_type()` is `dflt`. -/
def index (dflt : M) (k : K) : List (K × M) × ℕ :=
  let found := lowerBound C Prod.fst body k
  if body[found]?.all fun v => C.lt k v.1 then unsafeEmplace body found (k, dflt)
  else (body, found)

/-- `result.first->second = obj`. -/
def assign (obj : M) (r : List (K × M) × ℕ) : List (K × M) × ℕ :=
  (r.1.modify r.2 fun v => (v.1, obj), r.2)

/-- `insert_or_assign`. -/
def insertOrAssign (k : K) (obj : M) : (List (K × M) × ℕ) × Bool :=
  let result := emplaceKeyArgs C Prod.fst body k (k, obj)
  if !result.2 then (assign obj result.1, result.2) else result

/-- `insert_or_assign` with a hint. -/
def insertOrAssignHint (hint : ℕ) (k : K) (obj : M) : List (K × M) × ℕ :=
  let result := emplaceHintKeyArgs C Prod.fst body hint k (k, obj)
  if !result.2 then assign obj result.1 else result.1

/-- `try_emplace`, of what the arguments construct. -/
def tryEmplace (k : K) (obj : M) : (List (K × M) × ℕ) × Bool :=
  emplaceKeyArgs C Prod.fst body k (k, obj)

/-- `try_emplace` with a hint. -/
def tryEmplaceHint (hint : ℕ) (k : K) (obj : M) : List (K × M) × ℕ :=
  (emplaceHintKeyArgs C Prod.fst body hint k (k, obj)).1

end Model

/-- A call of a map. -/
inductive Call (K M : Type*)
  /-- One that the tree has. -/
  | tree (call : FlatTree.Call K (K × M))
  /-- `operator[]`. -/
  | index (k : K)
  /-- `insert_or_assign`. -/
  | insertOrAssign (k : K) (obj : M)
  /-- `insert_or_assign` with a hint. -/
  | insertOrAssignHint (hint : ℕ) (k : K) (obj : M)
  /-- `try_emplace`. -/
  | tryEmplace (k : K) (obj : M)
  /-- `try_emplace` with a hint. -/
  | tryEmplaceHint (hint : ℕ) (k : K) (obj : M)

/-- What a call does and returns. -/
def step {K M : Type*} (C : WeakOrder K) (dflt : M) (body : List (K × M)) :
    Call K M → Option (List (K × M) × Result (K × M))
  | .tree call => FlatTree.step C Prod.fst body call
  | .index k => some (returnIterator (index C body dflt k))
  | .insertOrAssign k obj => some (returnInserted (insertOrAssign C body k obj))
  | .insertOrAssignHint hint k obj =>
    if hint ≤ body.length then some (returnIterator (insertOrAssignHint C body hint k obj))
    else none
  | .tryEmplace k obj => some (returnInserted (tryEmplace C body k obj))
  | .tryEmplaceHint hint k obj =>
    if hint ≤ body.length then some (returnIterator (tryEmplaceHint C body hint k obj)) else none

end FlatMap

end TQLib
