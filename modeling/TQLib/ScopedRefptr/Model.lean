import TQLib.Foundations.Machine

/-!
# Counted references

`scoped_refptr` of `api/scoped_refptr.h`, over objects which count their references as
`api/ref_counted_base.h` and `rtc_base/ref_counter.h` do. An operation on a `scoped_refptr` is taken
apart into its accesses to `ptr_` and to the object: what `AddRef` and `Release` do to the count is
one atomic step each, and deleting the object is another. Any number of operations may be under way
at once, whether on other threads or inside of the destructor of an object that one of them deletes:
both are steps of others in between.

A raw pointer which owns a reference, as `release()` returns it, is a variable like a
`scoped_refptr`: moving out of one into a new variable is `release()`, and the end of the variable
is the call of `Release` which its owner has to make.

## Main definitions

* `Cell` — a variable, and how far the operation on it is
* `machine` — the steps
* `Ordered` — what the users of a `scoped_refptr` have to see to
-/

namespace TQLib

namespace ScopedRefptr

variable {ν ω : Type*} [DecidableEq ν] [DecidableEq ω]

/-- The life of an object, with `ref_count_`. -/
inductive Life
  | unborn
  | live (refCount : ℤ)
  | deleted
  deriving DecidableEq

/-- A variable, and how far the operation on it is. `ptr` is `ptr_`, and `p` what it is to become.
`src` is the variable which the new pointer has been read from; there is none where the object is
new. -/
inductive Cell (ν ω : Type*)
  | absent
  /-- No operation is under way. -/
  | ready (ptr : Option ω)
  /-- A constructor: `ptr_->AddRef()` is next. -/
  | ctorAdd (ptr : ω) (src : Option ν)
  /-- An assignment: `p->AddRef()` is next. -/
  | assignAdd (ptr p : Option ω) (src : Option ν)
  /-- An assignment: `ptr_->Release()` is next. -/
  | assignRelease (ptr p : Option ω)
  /-- An assignment: the last reference has been dropped. -/
  | assignDelete (ptr : ω) (p : Option ω)
  /-- An assignment: `ptr_ = p` is next. -/
  | assignStore (ptr p : Option ω)
  /-- The destructor: `ptr_->Release()` is next. -/
  | dtorRelease (ptr : Option ω)
  /-- The destructor: the last reference has been dropped. -/
  | dtorDelete (ptr : ω)
  /-- The destructor is done. -/
  | dtorEnd (ptr : Option ω)
  deriving DecidableEq

/-- `get()`, where there is a variable. -/
def Cell.ptr : Cell ν ω → Option (Option ω)
  | .absent => none
  | .ready ptr => some ptr
  | .ctorAdd ptr _ => some (some ptr)
  | .assignAdd ptr _ _ => some ptr
  | .assignRelease ptr _ => some ptr
  | .assignDelete ptr _ => some (some ptr)
  | .assignStore ptr _ => some ptr
  | .dtorRelease ptr => some ptr
  | .dtorDelete ptr => some (some ptr)
  | .dtorEnd ptr => some ptr

structure State (ν ω : Type*) where
  cell : ν → Cell ν ω
  life : ω → Life

inductive Label (ν ω : Type*)
  /-- `scoped_refptr()`. -/
  | makeNull (v : ν)
  /-- `scoped_refptr(new T)`. -/
  | make (v : ν) (o : ω)
  /-- `scoped_refptr(const scoped_refptr& r)`, and `scoped_refptr(r.get())`. -/
  | copy (v r : ν)
  /-- `scoped_refptr(scoped_refptr&& r)`, and `T* v = r.release()`. -/
  | move (v r : ν)
  /-- `v = r`, and `v = r.get()`. -/
  | assign (v r : ν)
  /-- `v = nullptr`. -/
  | assignNull (v : ν)
  /-- `v = new T`. -/
  | assignNew (v : ν) (o : ω)
  /-- `v.swap(w)`. -/
  | swap (v w : ν)
  /-- The end of `v`. -/
  | destroy (v : ν)
  /-- The next step of the operation on `v`. -/
  | step (v : ν)
  /-- `*v` and `v->`. -/
  | deref (v : ν)
  /-- `v->HasOneRef()`. -/
  | hasOneRef (v : ν)

/-- What is seen: an object is deleted, or used while it lives or does not. -/
inductive Event (ν ω : Type*)
  | deleted (o : ω)
  | used (o : ω) (live : Bool)
  | oneRef (v : ν) (o : ω) (answer : Bool)
  deriving DecidableEq

/-- `AddRef`. -/
def addRef (life : ω → Life) (o : ω) : (ω → Life) × List (Event ν ω) :=
  match life o with
  | .live refCount => (Function.update life o (.live (refCount + 1)), [.used o true])
  | _ => (life, [.used o false])

/-- `DecRef`, with whether it is `kDroppedLastRef`. -/
def decRef (life : ω → Life) (o : ω) : (ω → Life) × Bool × List (Event ν ω) :=
  match life o with
  | .live refCount =>
    (Function.update life o (.live (refCount - 1)), decide (refCount - 1 = 0), [.used o true])
  | _ => (life, false, [.used o false])

/-- The use of an object. -/
def use (life : ω → Life) (o : ω) : Event ν ω :=
  match life o with
  | .live _ => .used o true
  | _ => .used o false

variable (s : State ν ω)

/-- The next step of the operation on `v`. -/
def next (v : ν) : Option (State ν ω × List (Event ν ω)) :=
  let put c life out := some (⟨Function.update s.cell v c, life⟩, out)
  match s.cell v with
  | .absent | .ready _ => none
  | .ctorAdd o _ =>
    let (life, out) := addRef s.life o
    put (.ready (some o)) life out
  | .assignAdd ptr none _ => put (.assignRelease ptr none) s.life []
  | .assignAdd ptr (some o) _ =>
    let (life, out) := addRef s.life o
    put (.assignRelease ptr (some o)) life out
  | .assignRelease none p => put (.assignStore none p) s.life []
  | .assignRelease (some o) p =>
    let (life, dropped, out) := decRef s.life o
    put (if dropped then .assignDelete o p else .assignStore (some o) p) life out
  | .assignDelete o p =>
    put (.assignStore (some o) p) (Function.update s.life o .deleted) [.deleted o]
  | .assignStore _ p => put (.ready p) s.life []
  | .dtorRelease none => put (.dtorEnd none) s.life []
  | .dtorRelease (some o) =>
    let (life, dropped, out) := decRef s.life o
    put (if dropped then .dtorDelete o else .dtorEnd (some o)) life out
  | .dtorDelete o => put (.dtorEnd (some o)) (Function.update s.life o .deleted) [.deleted o]
  | .dtorEnd _ => put .absent s.life []

/-- A step. -/
def step : Label ν ω → Option (State ν ω × List (Event ν ω))
  | .makeNull v =>
    if s.cell v = .absent then some ({ s with cell := Function.update s.cell v (.ready none) }, [])
    else none
  | .make v o =>
    if s.cell v = .absent ∧ s.life o = .unborn then
      some (⟨Function.update s.cell v (.ctorAdd o none), Function.update s.life o (.live 0)⟩, [])
    else none
  | .copy v r =>
    if s.cell v = .absent then
      match (s.cell r).ptr with
      | none => none
      | some none => some ({ s with cell := Function.update s.cell v (.ready none) }, [])
      | some (some o) =>
        some ({ s with cell := Function.update s.cell v (.ctorAdd o (some r)) }, [])
    else none
  | .move v r =>
    match s.cell v, s.cell r with
    | .absent, .ready p =>
      some ({ s with
        cell := Function.update (Function.update s.cell r (.ready none)) v (.ready p) }, [])
    | _, _ => none
  | .assign v r =>
    match s.cell v, (s.cell r).ptr with
    | .ready ptr, some p =>
      some ({ s with cell := Function.update s.cell v (.assignAdd ptr p (some r)) }, [])
    | _, _ => none
  | .assignNull v =>
    match s.cell v with
    | .ready ptr =>
      some ({ s with cell := Function.update s.cell v (.assignAdd ptr none none) }, [])
    | _ => none
  | .assignNew v o =>
    match s.cell v, s.life o with
    | .ready ptr, .unborn =>
      some (⟨Function.update s.cell v (.assignAdd ptr (some o) none),
        Function.update s.life o (.live 0)⟩, [])
    | _, _ => none
  | .swap v w =>
    match s.cell v, s.cell w with
    | .ready p, .ready q =>
      some ({ s with
        cell := Function.update (Function.update s.cell v (.ready q)) w (.ready p) }, [])
    | _, _ => none
  | .destroy v =>
    match s.cell v with
    | .ready ptr => some ({ s with cell := Function.update s.cell v (.dtorRelease ptr) }, [])
    | _ => none
  | .step v => next s v
  | .deref v =>
    match (s.cell v).ptr with
    | some (some o) => some (s, [use s.life o])
    | _ => none
  | .hasOneRef v =>
    match (s.cell v).ptr with
    | some (some o) => some (s, [use s.life o, .oneRef v o (decide (s.life o = .live 1))])
    | _ => none

/-- Objects with the variables that refer to them. At first there is nothing. -/
def machine (ν ω : Type*) [DecidableEq ν] [DecidableEq ω] :
    Machine (State ν ω) (Label ν ω) (Event ν ω) where
  start s := (∀ v, s.cell v = .absent) ∧ ∀ o, s.life o = .unborn
  step := step

/-- What the operation on a variable reads its object from, and the object, until it has a reference
of its own. -/
def Cell.borrow : Cell ν ω → Option (ν × ω)
  | .ctorAdd o (some r) => some (r, o)
  | .assignAdd _ (some o) (some r) => some (r, o)
  | _ => none

/-- The variable `v` is at rest. -/
def AtRest (v : ν) : Prop := ∃ ptr, s.cell v = .ready ptr

/-- No operation needs `v` to stay as it is. -/
def Free (v : ν) : Prop := ∀ w o, (s.cell w).borrow ≠ some (v, o)

/-- What the users of a `scoped_refptr` have to see to, as for any variable: it is not read while it
is written, nor written while an operation reads from it. A `scoped_refptr` that is being assigned
to may not be read by the destructor of the object which that deletes either. -/
def Ordered : Label ν ω → Prop
  | .copy _ r => AtRest s r
  | .move _ r => Free s r
  | .assign v r => AtRest s r ∧ Free s v
  | .assignNull v => Free s v
  | .assignNew v _ => Free s v
  | .swap v w => Free s v ∧ Free s w
  | .destroy v => Free s v
  | .deref v => AtRest s v
  | .hasOneRef v => AtRest s v
  | _ => True

end ScopedRefptr

end TQLib
