import TQLib.Sigslot2.Connections

/-!
# The arguments of an emission

What the slots get of what was passed to `emit`. An argument comes through three functions: `emit`
forwards it to `Connection::emit` once for each connection it comes to, `Connection::emit` hands it
on through a pointer to function, at once or from a posted task, and the pointer was cast from and
to types that the two sides have chosen for themselves.

The machine here is that of the threads that use `sigslot2`, with what it left out put beside it:
the emissions of each thread, innermost first, and what has been handed to a thread, or posted to
it, for a slot.

## Main results

* `Emission.Valid.call_iff` — what an emission hands to a slot is what was passed to it, if nothing
  has been moved from before
* `arguments` — which slots see the values that were passed to `emit`
* `second_slot_moved` — a second slot that does not
-/

namespace TQLib

namespace Sigslot2

/-! ## Arguments and parameters -/

/-- The type of a parameter, without a `const` on top, which is no part of a function's type. -/
inductive Param (τ : Type*)
  | value (t : τ)
  | reference (t : τ) (isConst : Bool)
  deriving DecidableEq

/-- An argument: the type of the expression, whether it is an lvalue, and its value. -/
structure Arg (τ ν : Type*) where
  type : τ
  isConst : Bool
  isLvalue : Bool
  value : ν

variable {τ ν : Type*}

/-- The parameter type of `Connection::emit<Params...>` that is deduced for the argument. -/
def Arg.deduce (x : Arg τ ν) : Param τ :=
  if x.isLvalue then .reference x.type x.isConst else .value x.type

/-- Whether a parameter that is initialized with the forwarded argument is moved from it. -/
def Arg.moves (x : Arg τ ν) : Bool := !x.isLvalue && !x.isConst

/-- An argument of an emission under way. What has been moved from holds no value. -/
structure Cell (τ ν : Type*) where
  arg : Arg τ ν
  /-- What the argument holds now. -/
  object : Option ν
  /-- What the parameter of `Connection::emit` holds, unless it is a reference. -/
  param : Option ν

namespace Cell

/-- An argument as it is passed to `emit`. -/
def start (x : Arg τ ν) : Cell τ ν := { arg := x, object := some x.value, param := none }

/-- The parameter of `Connection::emit` is initialized with `std::forward<Params>(args)`. -/
def forward (c : Cell τ ν) : Cell τ ν :=
  if c.arg.isLvalue then c
  else { c with param := c.object, object := if c.arg.moves then none else c.object }

/-- What is seen through the parameter of `Connection::emit`. -/
def read (c : Cell τ ν) : Option ν := if c.arg.isLvalue then c.object else c.param

/-- A slot assigns to what it has got by reference. -/
def assign (c : Cell τ ν) (v : ν) : Cell τ ν :=
  if c.arg.isLvalue then { c with object := some v } else c

end Cell

/-- An emission: its arguments and how many calls of `Connection::emit` it has made. -/
structure Emission (τ ν : Type*) where
  cells : List (Cell τ ν)
  passed : ℕ

namespace Emission

/-- The arguments as they were passed. -/
def args (em : Emission τ ν) : List (Arg τ ν) := em.cells.map Cell.arg

def start (args : List (Arg τ ν)) : Emission τ ν := { cells := args.map Cell.start, passed := 0 }

/-- A call of `Connection::emit`. -/
def forward (em : Emission τ ν) : Emission τ ν :=
  { cells := em.cells.map Cell.forward, passed := em.passed + 1 }

def assign (em : Emission τ ν) (k : ℕ) (v : ν) : Emission τ ν :=
  { em with cells := em.cells.modify k (·.assign v) }

def read (em : Emission τ ν) : List (Option ν) := em.cells.map Cell.read

/-- What a slot gets. To call it through a pointer to another type of function is undefined. -/
def call [DecidableEq τ] (em : Emission τ ν) (declared : List (Param τ)) :
    Option (List (Option ν)) :=
  if em.args.map Arg.deduce = declared then some em.read else none

end Emission

/-! ## The machine -/

variable {θ ς ρ : Type*}

/-- The threads that use `sigslot2`, and the arguments. -/
structure Passing (θ ς ρ τ ν : Type*) where
  state : State θ ς ρ
  /-- The emissions of each thread, innermost first. -/
  emissions : θ → List (Emission τ ν)
  /-- What a thread has been handed for a slot, last. -/
  handed : θ → Option (Emission τ ν)
  /-- What belongs to each task that was posted. -/
  captured : List (Emission τ ν)

/-- Who moves. -/
inductive PassingAction (θ ς ρ τ ν : Type*)
  /-- An action; the arguments are those of `emit`, if it is a call of that. -/
  | act (act : Action θ ς ρ) (args : List (Arg τ ν))
  /-- A slot on the thread `t` assigns to an argument of an emission by `e`, which has called it. -/
  | assign (t e : θ) (j k : ℕ) (v : ν)

/-- A call of a slot: of the connection number `n` of `g`, on the thread `a` for an emission by
`e`. -/
structure Invocation (θ ς τ ν : Type*) where
  delivery : Delivery
  e : θ
  a : θ
  g : ς
  n : ℕ
  /-- The emission when it called `Connection::emit`. -/
  emission : Option (Emission τ ν)
  /-- What the slot gets, if that is defined. -/
  observed : Option (List (Option ν))

namespace Passing

variable [DecidableEq θ] [DecidableEq ς] [DecidableEq ρ] [DecidableEq τ]

/-- The innermost emission of `a` calls `Connection::emit`. -/
def forward (p : Passing θ ς ρ τ ν) (a : θ) : Passing θ ς ρ τ ν :=
  match p.emissions a with
  | [] => p
  | em :: ems =>
    { p with
      emissions := Function.update p.emissions a (em.forward :: ems)
      handed := Function.update p.handed a (some em.forward) }

/-- What one turn of the loop of `emit` does to the arguments. -/
def emitLoop (p : Passing θ ς ρ τ ν) (a : θ) (g : ς) : Passing θ ς ρ τ ν :=
  match (p.state.objects.signals g).currentIterator with
  | none => { p with emissions := Function.update p.emissions a (p.emissions a).tail }
  | some n =>
    let c := p.state.connection g n
    if c.isSingleShot && c.hasEmitted then p else p.forward a

/-- What an action does to the arguments. -/
def follow (p : Passing θ ς ρ τ ν) (args : List (Arg τ ν)) : Action θ ς ρ → Passing θ ς ρ τ ν
  | .call a (.emit _) =>
    { p with emissions := Function.update p.emissions a (.start args :: p.emissions a) }
  | .step a =>
    match p.state.stack a with
    | .emitLoop g :: _ => p.emitLoop a g
    | _ => p
  | .run i =>
    match p.state.posted[i]?, p.captured[i]? with
    | some (t, _), some em =>
      { p with
        handed := Function.update p.handed t (some em)
        captured := p.captured.eraseIdx i }
    | _, _ => p
  | .discard i => { p with captured := p.captured.eraseIdx i }
  | _ => p

/-- A task that has been posted keeps what was handed to it. -/
def capture (p : Passing θ ς ρ τ ν) (s : State θ ς ρ) : Action θ ς ρ → Passing θ ς ρ τ ν
  | .step a =>
    if p.state.posted.length < s.posted.length then
      { p with state := s, captured := p.captured ++ (p.handed a).toList }
    else { p with state := s }
  | _ => { p with state := s }

/-- A slot that is called. -/
def invocation (p : Passing θ ς ρ τ ν) (declared : ς → List (Param τ)) :
    Observation θ ς → Option (Invocation θ ς τ ν)
  | .started d e a g n =>
    some { delivery := d, e, a, g, n, emission := p.handed a,
           observed := (p.handed a).bind (·.call (declared g)) }
  | _ => none

/-- One step. -/
def step (declared : ς → List (Param τ)) (p : Passing θ ς ρ τ ν) :
    PassingAction θ ς ρ τ ν → Option (Passing θ ς ρ τ ν × List (Invocation θ ς τ ν))
  | .act act args =>
    (p.state.step act).map fun (s, out) =>
      let p := (p.follow args act).capture s act
      (p, out.filterMap (p.invocation declared))
  | .assign t e j k v =>
    if p.state.userCode t ∧ (t = e ∨ .callDone e ∈ p.state.stack t) then
      some ({ p with
        emissions := Function.update p.emissions e ((p.emissions e).modify j (·.assign k v)) }, [])
    else none

end Passing

/-- The machine. The parameter types a signal is declared with do not change. -/
def passing (θ ς ρ : Type*) {τ : Type*} (ν : Type*) [DecidableEq θ] [DecidableEq ς] [DecidableEq ρ]
    [DecidableEq τ] (declared : ς → List (Param τ)) :
    Machine (Passing θ ς ρ τ ν) (PassingAction θ ς ρ τ ν) (Invocation θ ς τ ν) where
  start p := p.state = State.initial ∧ (∀ a, p.emissions a = []) ∧ (∀ a, p.handed a = none) ∧
    p.captured = []
  step := Passing.step declared

/-! ## What an emission hands on -/

/-- What an argument that is no lvalue holds after so many calls of `Connection::emit`. -/
structure Cell.Valid (passed : ℕ) (c : Cell τ ν) : Prop where
  /-- The first parameter has been moved from it. -/
  moved : c.arg.moves = true → c.object = (if passed = 0 then some c.arg.value else none) ∧
    c.param = if passed = 1 then some c.arg.value else none
  /-- Each parameter is a copy of it. -/
  copied : c.arg.isLvalue = false → c.arg.isConst = true → c.object = some c.arg.value ∧
    (0 < passed → c.param = some c.arg.value)

namespace Cell

variable {passed : ℕ} {c : Cell τ ν}

theorem valid_start (x : Arg τ ν) : (start x).Valid 0 :=
  ⟨fun _ => ⟨rfl, rfl⟩, fun _ _ => ⟨rfl, fun h => absurd h (lt_irrefl 0)⟩⟩

theorem Valid.forward (hc : c.Valid passed) : c.forward.Valid (passed + 1) := by
  unfold Cell.forward
  cases hl : c.arg.isLvalue with
  | true =>
    have hmoves : c.arg.moves = false := by simp [Arg.moves, hl]
    refine ⟨fun h => ?_, fun h => ?_⟩
    · rw [if_pos rfl, hmoves] at h
      cases h
    · rw [if_pos rfl, hl] at h
      cases h
  | false =>
    rw [if_neg Bool.false_ne_true]
    refine ⟨fun h => ?_, fun _ hconst => ?_⟩
    · have hobject := (hc.moved h).1
      simp only [show c.arg.moves = true from h, hobject, if_true, Nat.add_eq_zero_iff,
        Nat.add_eq_right, one_ne_zero, and_false, if_false, true_and]
    · have hconst : c.arg.isConst = true := hconst
      have hobject := (hc.copied hl hconst).1
      have hmoves : c.arg.moves = false := by simp [Arg.moves, hconst]
      simp [hmoves, hobject]

theorem Valid.assign (hc : c.Valid passed) (v : ν) : (c.assign v).Valid passed := by
  unfold Cell.assign
  cases hl : c.arg.isLvalue with
  | true =>
    have hmoves : c.arg.moves = false := by simp [Arg.moves, hl]
    refine ⟨fun h => ?_, fun h => ?_⟩
    · rw [if_pos rfl] at h
      rw [show _ = true from h] at hmoves
      cases hmoves
    · rw [if_pos rfl] at h
      rw [show _ = false from h] at hl
      cases hl
  | false => exact hc

/-- What is seen through a parameter. -/
theorem Valid.read_iff (hc : c.Valid passed) (hpassed : 1 ≤ passed) :
    c.read = some c.arg.value ↔ (passed = 1 ∨ c.arg.moves = false) ∧
      (c.arg.isLvalue = true → c.object = some c.arg.value) := by
  unfold read
  cases hl : c.arg.isLvalue with
  | true =>
    have hmoves : c.arg.moves = false := by simp [Arg.moves, hl]
    simp [hmoves]
  | false =>
    cases hconst : c.arg.isConst with
    | true =>
      have hmoves : c.arg.moves = false := by simp [Arg.moves, hconst]
      simp [hmoves, (hc.copied hl hconst).2 hpassed]
    | false =>
      have hmoves : c.arg.moves = true := by simp [Arg.moves, hl, hconst]
      simp [hmoves, (hc.moved hmoves).2]

end Cell

namespace Emission

variable {em : Emission τ ν}

/-- What its arguments hold. -/
def Valid (em : Emission τ ν) : Prop := ∀ c ∈ em.cells, c.Valid em.passed

theorem valid_start (args : List (Arg τ ν)) : (start args).Valid := by
  intro c hc
  obtain ⟨x, -, rfl⟩ := List.mem_map.mp hc
  exact Cell.valid_start x

theorem Valid.forward (hem : em.Valid) : em.forward.Valid := by
  intro c hc
  obtain ⟨c', hc', rfl⟩ := List.mem_map.mp hc
  exact (hem c' hc').forward

theorem Valid.assign (hem : em.Valid) (k : ℕ) (v : ν) : (em.assign k v).Valid := by
  intro c hc
  obtain ⟨j, hj, rfl⟩ := List.mem_iff_getElem.mp hc
  simp only [Emission.assign, List.length_modify] at hj
  simp only [Emission.assign, List.getElem_modify]
  split
  · exact (hem _ (List.getElem_mem hj)).assign v
  · exact hem _ (List.getElem_mem hj)

/-- When a slot sees what was passed to `emit`: the types are those the signal was declared with,
nothing was moved before, and nothing was assigned to the variables that are passed by reference. -/
structure Intact (declared : List (Param τ)) (em : Emission τ ν) : Prop where
  types : em.args.map Arg.deduce = declared
  moved : em.passed = 1 ∨ ∀ x ∈ em.args, x.moves = false
  assigned : ∀ c ∈ em.cells, c.arg.isLvalue = true → c.object = some c.arg.value

/-- **What a slot sees.** -/
theorem Valid.call_iff [DecidableEq τ] (hem : em.Valid) (hpassed : 1 ≤ em.passed)
    (declared : List (Param τ)) :
    em.call declared = some (em.args.map fun x => some x.value) ↔ em.Intact declared := by
  have hread : em.read = em.args.map (fun x => some x.value) ↔ ∀ c ∈ em.cells,
      (em.passed = 1 ∨ c.arg.moves = false) ∧
        (c.arg.isLvalue = true → c.object = some c.arg.value) := by
    rw [read, args, List.map_map, List.map_inj_left]
    exact forall₂_congr fun c hc => (hem c hc).read_iff hpassed
  unfold call
  constructor
  · intro h
    obtain ⟨htypes, h⟩ := Option.ite_none_right_eq_some.mp h
    have hcells := hread.mp (Option.some.inj h)
    refine ⟨htypes, ?_, fun c hc => (hcells c hc).2⟩
    by_cases hone : em.passed = 1
    · exact .inl hone
    · refine .inr fun x hx => ?_
      obtain ⟨c, hc, rfl⟩ := List.mem_map.mp hx
      exact (hcells c hc).1.resolve_left hone
  · rintro ⟨htypes, hmoved, hassigned⟩
    rw [if_pos htypes, hread.mpr]
    intro c hc
    exact ⟨hmoved.imp_right fun h => h c.arg (List.mem_map_of_mem hc), hassigned c hc⟩

end Emission

/-! ## What is on the stacks -/

section Stacks

/-- What an emission has on the stack of its thread, from the call of `emit` on. -/
def Instr.emits : Instr θ ς ρ → Bool
  | .enter (.emit _) => true
  | .blocked (.emit _) => true
  | .body (.emit _) => true
  | .emitLoop _ => true
  | _ => false

/-- What hands something to a slot. -/
def Instr.hands : Instr θ ς ρ → Bool
  | .emitter _ _ _ _ => true
  | .delivered _ _ _ => true
  | _ => false

/-- Whether the turn that is next calls `Connection::emit`. -/
def Instr.Forwards (s : State θ ς ρ) (i : Instr θ ς ρ) : Prop :=
  ∃ g n, i = .emitLoop g ∧ (s.objects.signals g).currentIterator = some n ∧
    ((s.connection g n).isSingleShot && (s.connection g n).hasEmitted) = false

/-- A turn of the loop of `emit` that comes to a connection. -/
theorem forwards_of_skip {s : State θ ς ρ} {g : ς} {n : ℕ}
    (hn : (s.objects.signals g).currentIterator = some n)
    (hskip : (s.connection g n).isSingleShot = true → (s.connection g n).hasEmitted = false) :
    (Instr.emitLoop g : Instr θ ς ρ).Forwards s := by
  refine ⟨g, n, rfl, hn, ?_⟩
  cases hsingle : (s.connection g n).isSingleShot with
  | true => exact hskip hsingle
  | false => rfl

theorem Block.emits_body [DecidableEq ς] [DecidableEq ρ] (b : Block θ ς ρ) (o : Objects θ ς ρ) :
    (b.body o).2.1.countP Instr.emits = [Instr.body b].countP Instr.emits := by
  cases b with
  | connectFunc | connect | disconnect | disconnectConnection =>
    simp only [Block.body]
    split <;> rfl
  | buildConnections4 r newReceiver =>
    refine List.countP_eq_zero.mpr fun i hi => ?_
    obtain ⟨g, -, hg⟩ := List.mem_flatMap.mp hi
    simp only [List.mem_cons, List.not_mem_nil, or_false] at hg
    rcases hg with rfl | rfl <;> exact Bool.false_ne_true
  | _ => rfl

variable [DecidableEq θ] {s s' : State θ ς ρ} {a : θ} {i : Instr θ ς ρ}
  {code : List (Instr θ ς ρ)} {out : List (Observation θ ς)}

omit [DecidableEq θ] in
theorem Delivers.emits {g : ς} {n : ℕ} {c : Connection θ ρ} (h : Delivers s a g n c s' code) :
    code.countP Instr.emits = 0 := by
  cases h <;> rfl

omit [DecidableEq θ] in
theorem Delivers.posted {g : ς} {n : ℕ} {c : Connection θ ρ} (h : Delivers s a g n c s' code) :
    s'.posted = s.posted ∨ ∃ x, s'.posted = s.posted ++ [x] := by
  cases h with
  | queued | call => exact .inr ⟨_, rfl⟩
  | _ => exact .inl rfl

variable [DecidableEq ς] [DecidableEq ρ]

/-- An emission stays on the stack until its loop ends. -/
theorem Executes.emits (h : Executes s a i s' code out) :
    (∃ g, i = .emitLoop g ∧ (s.objects.signals g).currentIterator = none ∧ code = []) ∨
      (∀ g, i = .emitLoop g → (s.objects.signals g).currentIterator ≠ none) ∧
        code.countP Instr.emits = [i].countP Instr.emits := by
  have hother : (∀ g, i ≠ .emitLoop g) → code.countP Instr.emits = [i].countP Instr.emits →
      (∀ g, i = .emitLoop g → (s.objects.signals g).currentIterator ≠ none) ∧
        code.countP Instr.emits = [i].countP Instr.emits :=
    fun hi hc => ⟨fun g hg => absurd hg (hi g), hc⟩
  have hturn : ∀ {g n}, i = .emitLoop g → (s.objects.signals g).currentIterator = some n →
      ∀ g, i = .emitLoop g → (s.objects.signals g).currentIterator ≠ none := by
    rintro g n rfl hn g' hg'
    cases hg'
    rw [hn]
    exact Option.some_ne_none n
  cases h with
  | emitEnd g hn => exact .inl ⟨g, rfl, hn, rfl⟩
  | emitSkip g hn => exact .inr ⟨hturn rfl hn, rfl⟩
  | emitExpired g hn => exact .inr ⟨hturn rfl hn, rfl⟩
  | emitReach g hn _ hdel =>
    refine .inr ⟨hturn rfl hn, ?_⟩
    rw [List.countP_append, hdel.emits]
    rfl
  | body b => exact .inr (hother (fun _ h => by cases h) (b.emits_body s.objects))
  | detach r gs =>
    refine .inr (hother (fun _ h => by cases h) ?_)
    rw [List.countP_append, List.countP_map]
    simp [Instr.emits, Function.comp_def]
  | enter b | wake b | block b =>
    refine .inr (hother (fun _ h => by cases h) ?_)
    cases b <;> rfl
  | _ => exact .inr (hother (fun _ h => by cases h) rfl)

/-- What hands something to a slot comes from what did, or from a turn of the loop of `emit`. -/
theorem Executes.hands (h : Executes s a i s' code out) :
    (∀ j ∈ code, j.hands = false) ∨ i.hands = true ∨ i.Forwards s := by
  cases h with
  | emitReach g hn hskip hdel => exact .inr (.inr (forwards_of_skip hn hskip))
  | delivered => exact .inr (.inl rfl)
  | body b =>
    refine .inl fun j hj => ?_
    cases b.body_pushes s.objects j hj <;> rfl
  | detach r gs =>
    refine .inl fun j hj => ?_
    rcases List.mem_append.mp hj with hj | hj
    · obtain ⟨g, -, rfl⟩ := List.mem_map.mp hj
      rfl
    · obtain rfl := List.mem_singleton.mp hj
      rfl
  | _ => exact .inl (by simp [Instr.hands])

/-- Tasks are posted by a turn of the loop of `emit`, one at a time. -/
theorem Executes.posted (h : Executes s a i s' code out) :
    s'.posted = s.posted ∨ i.Forwards s ∧ ∃ x, s'.posted = s.posted ++ [x] := by
  cases h with
  | emitReach g hn hskip hdel =>
    exact hdel.posted.imp_right fun hposted => ⟨forwards_of_skip hn hskip, hposted⟩
  | _ => exact .inl rfl

end Stacks

/-! ## Runs -/

variable [DecidableEq θ] [DecidableEq ς] [DecidableEq ρ]

/-- An emission that has been handed on. -/
def Emission.Handed (em : Emission τ ν) : Prop := em.Valid ∧ 1 ≤ em.passed

/-- The arguments are in order, and whatever hands something to a slot has it. -/
structure Carries (p : Passing θ ς ρ τ ν) : Prop where
  emissions : ∀ a, ∀ em ∈ p.emissions a, em.Valid
  handed : ∀ a em, p.handed a = some em → em.Handed
  captured : ∀ em ∈ p.captured, em.Handed
  /-- Each thread has as many emissions as its stack says. -/
  depth : ∀ a, (p.emissions a).length = (p.state.stack a).countP Instr.emits
  /-- Each task has what belongs to it. -/
  posted : p.captured.length = p.state.posted.length
  ready : ∀ a, ∀ i ∈ p.state.stack a, i.hands = true → (p.handed a).isSome = true

section Steps

variable {p : Passing θ ς ρ τ ν} {s : State θ ς ρ} {a : θ} {args : List (Arg τ ν)}
  {i : Instr θ ς ρ} {is code : List (Instr θ ς ρ)} {out : List (Observation θ ς)}

omit [DecidableEq ς] [DecidableEq ρ] in
theorem follow_emitLoop {g : ς} (args : List (Arg τ ν))
    (hstack : p.state.stack a = .emitLoop g :: is) :
    p.follow args (.step a) = p.emitLoop a g := by
  simp only [Passing.follow, hstack]

omit [DecidableEq ς] [DecidableEq ρ] in
theorem follow_of_ne (args : List (Arg τ ν)) (hstack : p.state.stack a = i :: is)
    (hi : ∀ g, i ≠ .emitLoop g) : p.follow args (.step a) = p := by
  simp only [Passing.follow, hstack]
  cases i with
  | emitLoop g => exact absurd rfl (hi g)
  | _ => rfl

omit [DecidableEq ς] [DecidableEq ρ] in
/-- What a thread that does what is next does to the arguments. -/
theorem follow_cases (args : List (Arg τ ν)) (hstack : p.state.stack a = i :: is) :
    (∃ g, i = .emitLoop g ∧ (p.state.objects.signals g).currentIterator = none ∧
      p.follow args (.step a) =
        { p with emissions := Function.update p.emissions a (p.emissions a).tail }) ∨
    i.Forwards p.state ∧ p.follow args (.step a) = p.forward a ∨
    ¬ i.Forwards p.state ∧ (∀ g, i = .emitLoop g →
      (p.state.objects.signals g).currentIterator ≠ none) ∧ p.follow args (.step a) = p := by
  by_cases hi : ∃ g, i = .emitLoop g
  · obtain ⟨g, rfl⟩ := hi
    rw [follow_emitLoop args hstack, Passing.emitLoop]
    cases hn : (p.state.objects.signals g).currentIterator with
    | none => exact .inl ⟨g, rfl, hn, rfl⟩
    | some n =>
      simp only
      split
      · rename_i hskip
        refine .inr (.inr ⟨?_, ?_, rfl⟩)
        · rintro ⟨g', n', hg, hn', hnot⟩
          cases hg
          rw [hn] at hn'
          cases hn'
          rw [hskip] at hnot
          cases hnot
        · rintro g' hg
          cases hg
          rw [hn]
          exact Option.some_ne_none n
      · rename_i hskip
        exact .inr (.inl ⟨⟨g, n, rfl, hn, Bool.eq_false_iff.mpr hskip⟩, rfl⟩)
  · refine .inr (.inr ⟨?_, fun g hg => absurd ⟨g, hg⟩ hi, ?_⟩)
    · rintro ⟨g, n, hg, -⟩
      exact hi ⟨g, hg⟩
    · exact follow_of_ne args hstack fun g hg => hi ⟨g, hg⟩

omit [DecidableEq ς] [DecidableEq ρ] in
/-- One thread moves. -/
theorem Carries.move {p' : Passing θ ς ρ τ ν} (hp : Carries p)
    (hstack : p'.state.stack = Function.update p.state.stack a is)
    (hother : ∀ b, b ≠ a → p'.emissions b = p.emissions b)
    (hvalid : ∀ em ∈ p'.emissions a, em.Valid)
    (hdepth : (p'.emissions a).length = is.countP Instr.emits)
    (hhanded : ∀ b em, p'.handed b = some em → em.Handed)
    (hsome : ∀ b, (p.handed b).isSome = true → (p'.handed b).isSome = true)
    (hready : ∀ j ∈ is, j.hands = true → (p'.handed a).isSome = true)
    (hcaptured : ∀ em ∈ p'.captured, em.Handed)
    (hposted : p'.captured.length = p'.state.posted.length) : Carries p' := by
  constructor
  · intro b em hem
    by_cases hb : b = a
    · subst hb
      exact hvalid em hem
    · rw [hother b hb] at hem
      exact hp.emissions b em hem
  · exact hhanded
  · exact hcaptured
  · intro b
    rw [hstack]
    by_cases hb : b = a
    · subst hb
      rw [Function.update_self, hdepth]
    · rw [Function.update_of_ne hb, hother b hb]
      exact hp.depth b
  · exact hposted
  · intro b j hj hhands
    rw [hstack] at hj
    by_cases hb : b = a
    · subst hb
      rw [Function.update_self] at hj
      exact hready j hj hhands
    · rw [Function.update_of_ne hb] at hj
      exact hsome b (hp.ready b j hj hhands)

/-- A thread does what is next, and something has been done to the arguments of its emissions. -/
theorem Carries.executes_of (hp : Carries p) (hstack : p.state.stack a = i :: is)
    (hex : Executes p.state a i s code out) {p' : Passing θ ς ρ τ ν}
    {emissions : List (Emission τ ν)}
    (hemissions : p'.emissions = Function.update p.emissions a emissions)
    (hvalid : ∀ em ∈ emissions, em.Valid)
    (hdepth : emissions.length = (code ++ is).countP Instr.emits)
    (hhanded : ∀ b em, p'.handed b = some em → em.Handed)
    (hsome : ∀ b, (p.handed b).isSome = true → (p'.handed b).isSome = true)
    (hready : (p'.handed a).isSome = true ∨ ∀ j ∈ code, j.hands = false)
    (hcaptured : ∀ em ∈ p'.captured, em.Handed)
    (hposted : p'.captured.length = s.posted.length)
    (hstate : p'.state = s.setStack a (code ++ is)) : Carries p' := by
  have hhere : p'.emissions a = emissions := by rw [hemissions, Function.update_self]
  have hstack' : p'.state.stack = Function.update p.state.stack a (code ++ is) := by
    rw [hstate, State.setStack, hex.stack]
  refine hp.move hstack' ?_ ?_ ?_ hhanded hsome ?_ hcaptured ?_
  · intro b hb
    rw [hemissions, Function.update_of_ne hb]
  · rw [hhere]
    exact hvalid
  · rw [hhere]
    exact hdepth
  · intro j hj hhands
    rcases List.mem_append.mp hj with hj | hj
    · refine hready.elim id fun hnone => ?_
      rw [hnone j hj] at hhands
      cases hhands
    · refine hsome a (hp.ready a j ?_ hhands)
      rw [hstack]
      exact List.mem_cons_of_mem i hj
  · rw [hposted, hstate]
    rfl

omit [DecidableEq θ] [DecidableEq ς] [DecidableEq ρ] in
theorem capture_same (h : s.posted = p.state.posted) :
    p.capture s (.step a) = { p with state := s } := by
  refine if_neg ?_
  rw [h]
  exact lt_irrefl _

omit [DecidableEq θ] [DecidableEq ς] [DecidableEq ρ] in
theorem capture_post {x : θ × Task θ ς} (h : s.posted = p.state.posted ++ [x]) :
    p.capture s (.step a) =
      { p with state := s, captured := p.captured ++ (p.handed a).toList } := by
  refine if_pos ?_
  rw [h, List.length_append]
  exact Nat.lt_succ_self _

omit [DecidableEq θ] [DecidableEq ς] [DecidableEq ρ] in
/-- How many emissions the thread has, by what is next. -/
theorem Carries.length_emissions (hp : Carries p) (hstack : p.state.stack a = i :: is) :
    (p.emissions a).length = [i].countP Instr.emits + is.countP Instr.emits := by
  rw [hp.depth a, hstack, ← List.singleton_append, List.countP_append]

/-- The emission is over. -/
theorem Carries.executes_end {g : ς} (hp : Carries p)
    (hstack : p.state.stack a = .emitLoop g :: is)
    (hex : Executes p.state a (.emitLoop g) s code out)
    (hn : (p.state.objects.signals g).currentIterator = none) :
    Carries (Passing.capture
      { p with emissions := Function.update p.emissions a (p.emissions a).tail }
      (s.setStack a (code ++ is)) (.step a)) := by
  have hnot : ¬ (Instr.emitLoop g : Instr θ ς ρ).Forwards p.state := by
    rintro ⟨g', n, hg, hn', -⟩
    cases hg
    rw [hn] at hn'
    cases hn'
  have hsame : s.posted = p.state.posted := hex.posted.resolve_right fun h => hnot h.1
  have hcode : code = [] := by
    rcases hex.emits with ⟨-, -, -, hcode⟩ | ⟨hturn, -⟩
    · exact hcode
    · exact absurd hn (hturn g rfl)
  have hlength : (p.emissions a).tail.length = (code ++ is).countP Instr.emits := by
    rw [List.length_tail, hp.length_emissions hstack, hcode, List.nil_append]
    show 1 + is.countP Instr.emits - 1 = _
    omega
  rw [capture_same]
  · refine hp.executes_of hstack hex rfl
      (fun em hem => hp.emissions a em (List.mem_of_mem_tail hem)) hlength hp.handed (fun _ => id)
      (.inr ?_) hp.captured ?_ rfl
    · rw [hcode]
      exact fun j hj => absurd hj List.not_mem_nil
    · rw [hsame]
      exact hp.posted
  · exact hsame

/-- The emission calls `Connection::emit`. -/
theorem Carries.executes_forward (hp : Carries p) (hstack : p.state.stack a = i :: is)
    (hex : Executes p.state a i s code out) (hforwards : i.Forwards p.state) :
    Carries ((p.forward a).capture (s.setStack a (code ++ is)) (.step a)) := by
  obtain ⟨g, n, rfl, hn, -⟩ := hforwards
  have hemits : code.countP Instr.emits = 1 := by
    rcases hex.emits with ⟨g', hg, hn', -⟩ | ⟨-, hemits⟩
    · cases hg
      rw [hn] at hn'
      cases hn'
    · exact hemits
  have hcount : (p.emissions a).length = 1 + is.countP Instr.emits := hp.length_emissions hstack
  obtain ⟨em, ems, hems⟩ : ∃ em ems, p.emissions a = em :: ems := by
    refine List.exists_cons_of_length_pos ?_
    omega
  have hem : em.forward.Handed := by
    refine ⟨(hp.emissions a em ?_).forward, Nat.le_add_left 1 _⟩
    rw [hems]
    exact List.mem_cons_self
  have hforward : p.forward a = { p with
      emissions := Function.update p.emissions a (em.forward :: ems)
      handed := Function.update p.handed a (some em.forward) } := by
    unfold Passing.forward
    rw [hems]
  have hhanded : ∀ b em', Function.update p.handed a (some em.forward) b = some em' →
      em'.Handed := by
    intro b em' hb
    rcases update_cases hb with ⟨-, heq⟩ | ⟨-, hb⟩
    · cases heq
      exact hem
    · exact hp.handed b em' hb
  have hhere : (Function.update p.handed a (some em.forward) a).isSome = true := by
    rw [Function.update_self]
    rfl
  have hsome : ∀ b, (p.handed b).isSome = true →
      (Function.update p.handed a (some em.forward) b).isSome = true := by
    intro b hb
    by_cases hba : b = a
    · subst hba
      exact hhere
    · rwa [Function.update_of_ne hba]
  have hvalid : ∀ em' ∈ em.forward :: ems, em'.Valid := by
    intro em' hem'
    rcases List.mem_cons.mp hem' with rfl | hem'
    · exact hem.1
    · refine hp.emissions a em' ?_
      rw [hems]
      exact List.mem_cons_of_mem _ hem'
  have hlength : (em.forward :: ems).length = (code ++ is).countP Instr.emits := by
    rw [List.countP_append, hemits, ← hcount, hems]
    rfl
  rw [hforward]
  rcases hex.posted with hsame | ⟨-, x, hnew⟩
  · rw [capture_same]
    · refine hp.executes_of hstack hex rfl hvalid hlength hhanded hsome (.inl hhere) hp.captured ?_
        rfl
      rw [hsame]
      exact hp.posted
    · exact hsame
  · rw [capture_post]
    · have hcaptured : p.captured ++ (Function.update p.handed a (some em.forward) a).toList =
          p.captured ++ [em.forward] := by
        rw [Function.update_self]
        rfl
      refine hp.executes_of hstack hex rfl hvalid hlength hhanded hsome (.inl hhere) ?_ ?_ rfl
      · change ∀ em' ∈ p.captured ++ (Function.update p.handed a (some em.forward) a).toList, _
        rw [hcaptured]
        intro em' hem'
        rcases List.mem_append.mp hem' with hem' | hem'
        · exact hp.captured em' hem'
        · obtain rfl := List.mem_singleton.mp hem'
          exact hem
      · change (p.captured ++ (Function.update p.handed a (some em.forward) a).toList).length = _
        rw [hcaptured, hnew, List.length_append, List.length_append, hp.posted]
        rfl
    · exact hnew

/-- Nothing is done to the arguments. -/
theorem Carries.executes_keep (hp : Carries p) (hstack : p.state.stack a = i :: is)
    (hex : Executes p.state a i s code out) (hnot : ¬ i.Forwards p.state)
    (hturn : ∀ g, i = .emitLoop g → (p.state.objects.signals g).currentIterator ≠ none) :
    Carries (p.capture (s.setStack a (code ++ is)) (.step a)) := by
  have hsame : s.posted = p.state.posted := hex.posted.resolve_right fun h => hnot h.1
  have hemits : code.countP Instr.emits = [i].countP Instr.emits := by
    rcases hex.emits with ⟨g, hg, hn, -⟩ | ⟨-, hemits⟩
    · exact absurd hn (hturn g hg)
    · exact hemits
  have hready : (p.handed a).isSome = true ∨ ∀ j ∈ code, j.hands = false := by
    rcases hex.hands with hnone | hhands | hforwards
    · exact .inr hnone
    · refine .inl (hp.ready a i ?_ hhands)
      rw [hstack]
      exact List.mem_cons_self
    · exact absurd hforwards hnot
  rw [capture_same]
  · refine hp.executes_of hstack hex (Function.update_eq_self a p.emissions).symm (hp.emissions a)
      ?_ hp.handed (fun _ => id) hready hp.captured ?_ rfl
    · rw [hp.length_emissions hstack, List.countP_append, hemits]
    · rw [hsame]
      exact hp.posted
  · exact hsame

/-- A thread does what is next. -/
theorem Carries.executes (hp : Carries p) (args : List (Arg τ ν))
    (hstack : p.state.stack a = i :: is) (hex : Executes p.state a i s code out) :
    Carries ((p.follow args (.step a)).capture (s.setStack a (code ++ is)) (.step a)) := by
  rcases follow_cases args hstack with ⟨g, rfl, hn, hfollow⟩ | ⟨hforwards, hfollow⟩ |
    ⟨hnot, hturn, hfollow⟩
  · rw [hfollow]
    exact hp.executes_end hstack hex hn
  · rw [hfollow]
    exact hp.executes_forward hstack hex hforwards
  · rw [hfollow]
    exact hp.executes_keep hstack hex hnot hturn

omit [DecidableEq ς] in
/-- User code makes a call. -/
theorem Carries.call {c : Call θ ς ρ} (hp : Carries p) (args : List (Arg τ ν)) :
    Carries ((p.follow args (.call a c)).capture
      ((c.receivers.foldl (fun s r => s.retain a r) p.state).setStack a
        (c.code ++ p.state.stack a)) (.call a c)) := by
  obtain ⟨hstack, -, -, hposted⟩ := Sound.foldl_retain c.receivers p.state a
  have hstack' : ((c.receivers.foldl (fun s r => s.retain a r) p.state).setStack a
      (c.code ++ p.state.stack a)).stack =
        Function.update p.state.stack a (c.code ++ p.state.stack a) := by
    rw [State.setStack, hstack]
  have hhands : ∀ j ∈ c.code ++ p.state.stack a, j.hands = true →
      (p.handed a).isSome = true := by
    intro j hj hhands
    rcases List.mem_append.mp hj with hj | hj
    · exfalso
      have hnone : ∀ j ∈ c.code, j.hands = false := by cases c <;> simp [Call.code, Instr.hands]
      rw [hnone j hj] at hhands
      cases hhands
    · exact hp.ready a j hj hhands
  have hlength : p.captured.length =
      (c.receivers.foldl (fun s r => s.retain a r) p.state).posted.length := by
    rw [hposted]
    exact hp.posted
  have hkeep : (∀ g, c ≠ .emit g) → Carries ({ p with
      state := (c.receivers.foldl (fun s r => s.retain a r) p.state).setStack a
        (c.code ++ p.state.stack a) } : Passing θ ς ρ τ ν) := by
    intro hc
    refine hp.move hstack' (fun _ _ => rfl) (hp.emissions a) ?_ hp.handed (fun _ => id) hhands
      hp.captured hlength
    have hemits : c.code.countP Instr.emits = 0 := by
      cases c with
      | emit g => exact absurd rfl (hc g)
      | _ => rfl
    rw [List.countP_append, hemits, Nat.zero_add]
    exact hp.depth a
  cases c with
  | emit g =>
    refine hp.move hstack' (fun b hb => Function.update_of_ne hb _ _) ?_ ?_ hp.handed
      (fun _ => id) hhands hp.captured hlength
    · change ∀ em ∈ Function.update p.emissions a (.start args :: p.emissions a) a, em.Valid
      rw [Function.update_self]
      intro em hem
      rcases List.mem_cons.mp hem with rfl | hem
      · exact Emission.valid_start args
      · exact hp.emissions a em hem
    · change (Function.update p.emissions a (.start args :: p.emissions a) a).length = _
      rw [Function.update_self, List.length_cons, hp.depth a, List.countP_append]
      exact Nat.add_comm _ 1
  | _ => exact hkeep fun g hg => by cases hg

omit [DecidableEq ς] [DecidableEq ρ] in
/-- A thread takes a task. -/
theorem Carries.run {k : ℕ} {t : θ} {task : Task θ ς} (hp : Carries p) (args : List (Arg τ ν))
    (hk : p.state.posted[k]? = some (t, task)) :
    Carries ((p.follow args (.run k)).capture
      ({ p.state with posted := p.state.posted.eraseIdx k }.setStack t
        (Task.code task ++ p.state.stack t)) (.run k)) := by
  obtain ⟨hlt, -⟩ := List.getElem?_eq_some_iff.mp hk
  have hlt' : k < p.captured.length := by rwa [hp.posted]
  have hem : p.captured[k]? = some p.captured[k] := List.getElem?_eq_getElem hlt'
  have hfollow : p.follow args (.run k) = { p with
      handed := Function.update p.handed t (some p.captured[k])
      captured := p.captured.eraseIdx k } := by
    simp only [Passing.follow, hk, hem]
  have hhere : (Function.update p.handed t (some p.captured[k]) t).isSome = true := by
    rw [Function.update_self]
    rfl
  rw [hfollow]
  refine hp.move (a := t) rfl (fun _ _ => rfl) (hp.emissions t) ?_ ?_ ?_ (fun _ _ _ => hhere) ?_ ?_
  · have hemits : (Task.code task : List (Instr θ ς ρ)).countP Instr.emits = 0 := by
      cases task <;> rfl
    rw [List.countP_append, hemits, Nat.zero_add]
    exact hp.depth t
  · intro b em hb
    rcases update_cases hb with ⟨-, heq⟩ | ⟨-, hb⟩
    · cases heq
      exact hp.captured _ (List.getElem_mem hlt')
    · exact hp.handed b em hb
  · intro b hb
    by_cases hbt : b = t
    · subst hbt
      exact hhere
    · exact (congrArg Option.isSome (Function.update_of_ne hbt _ _)).trans hb
  · exact fun em hem => hp.captured em (List.mem_of_mem_eraseIdx hem)
  · change (p.captured.eraseIdx k).length = (p.state.posted.eraseIdx k).length
    rw [List.length_eraseIdx, List.length_eraseIdx, hp.posted]

omit [DecidableEq ς] [DecidableEq ρ] in
/-- A slot assigns to an argument. -/
theorem Carries.assign (hp : Carries p) (e : θ) (j k : ℕ) (v : ν) :
    Carries { p with
      emissions := Function.update p.emissions e ((p.emissions e).modify j (·.assign k v)) } := by
  have hlength : ((p.emissions e).modify j (·.assign k v)).length = (p.emissions e).length :=
    List.length_modify ..
  refine ⟨fun b em hem => ?_, hp.handed, hp.captured, fun b => ?_, hp.posted, hp.ready⟩
  · change em ∈ Function.update p.emissions e ((p.emissions e).modify j (·.assign k v)) b at hem
    by_cases hb : b = e
    · subst hb
      rw [Function.update_self] at hem
      obtain ⟨l, hl, rfl⟩ := List.mem_iff_getElem.mp hem
      rw [hlength] at hl
      rw [List.getElem_modify]
      split
      · exact (hp.emissions b _ (List.getElem_mem hl)).assign k v
      · exact hp.emissions b _ (List.getElem_mem hl)
    · rw [Function.update_of_ne hb] at hem
      exact hp.emissions b em hem
  · change (Function.update p.emissions e ((p.emissions e).modify j (·.assign k v)) b).length = _
    by_cases hb : b = e
    · subst hb
      rw [Function.update_self, hlength]
      exact hp.depth b
    · rw [Function.update_of_ne hb]
      exact hp.depth b

/-- **One step.** -/
theorem Carries.step {declared : ς → List (Param τ)} [DecidableEq τ] (hp : Carries p)
    {act : PassingAction θ ς ρ τ ν} {p' : Passing θ ς ρ τ ν} {out : List (Invocation θ ς τ ν)}
    (hst : p.step declared act = some (p', out)) : Carries p' := by
  cases act with
  | assign t e j k v =>
    obtain ⟨-, ⟨⟩⟩ := Option.ite_none_right_eq_some.mp hst
    exact hp.assign e j k v
  | act act args =>
    obtain ⟨⟨s, obs⟩, hbase, heq⟩ := Option.map_eq_some_iff.mp hst
    obtain rfl : (p.follow args act).capture s act = p' := congrArg Prod.fst heq
    cases step_cases hbase with
    | call => exact hp.call args
    | step hstack hex => exact hp.executes args hstack hex
    | run hk => exact hp.run args hk
    | @ret a g n is hstack =>
      refine hp.move (a := a) rfl (fun _ _ => rfl) (hp.emissions a) ?_ hp.handed (fun _ => id) ?_
        hp.captured hp.posted
      · refine (hp.depth a).trans ?_
        rw [hstack]
        rfl
      · intro j hj hhands
        refine hp.ready a j ?_ hhands
        rw [hstack]
        exact List.mem_cons_of_mem _ hj
    | @discard k t task completed hk =>
      refine ⟨hp.emissions, hp.handed, ?_, hp.depth, ?_, hp.ready⟩
      · exact fun em hem => hp.captured em (List.mem_of_mem_eraseIdx hem)
      · change (p.captured.eraseIdx k).length = (p.state.posted.eraseIdx k).length
        rw [List.length_eraseIdx, List.length_eraseIdx, hp.posted]
    | @destroy a r =>
      refine hp.move (a := a) rfl (fun _ _ => rfl) (hp.emissions a) (hp.depth a) hp.handed
        (fun _ => id) ?_ hp.captured hp.posted
      intro j hj hhands
      rcases List.mem_append.mp hj with hj | hj
      · have hnone : ∀ j ∈ [Instr.enter (Block.detach (θ := θ) (ς := ς) r), .destroyed r],
            j.hands = false := by simp [Instr.hands]
        rw [hnone j hj] at hhands
        cases hhands
      · exact hp.ready a j hj hhands
    | quit => exact ⟨hp.emissions, hp.handed, hp.captured, hp.depth, hp.posted, hp.ready⟩

omit [DecidableEq ς] [DecidableEq ρ] in
/-- What a thread has been handed is not taken away. -/
theorem handed_step (args : List (Arg τ ν)) (s : State θ ς ρ) (h : (p.handed a).isSome = true) :
    (((p.follow args (.step a)).capture s (.step a)).handed a).isSome = true := by
  have hcapture : ∀ q : Passing θ ς ρ τ ν, (q.capture s (.step a)).handed = q.handed := by
    intro q
    unfold Passing.capture
    dsimp only
    split <;> rfl
  rw [hcapture]
  cases hstack : p.state.stack a with
  | nil =>
    have hfollow : p.follow args (.step a) = p := by
      simp only [Passing.follow, hstack]
    rwa [hfollow]
  | cons i is =>
    rcases follow_cases args hstack with ⟨g, -, -, hfollow⟩ | ⟨-, hfollow⟩ | ⟨-, -, hfollow⟩
    · rw [hfollow]
      exact h
    · rw [hfollow, Passing.forward]
      split
      · exact h
      · change (Function.update p.handed a _ a).isSome = true
        rw [Function.update_self]
        rfl
    · rwa [hfollow]

end Steps

omit [DecidableEq θ] [DecidableEq ς] [DecidableEq ρ] in
theorem carries_start {p : Passing θ ς ρ τ ν} (hstate : p.state = State.initial)
    (hemissions : ∀ a, p.emissions a = []) (hhanded : ∀ a, p.handed a = none)
    (hcaptured : p.captured = []) : Carries p := by
  constructor
  · intro a em hem
    rw [hemissions a] at hem
    cases hem
  · intro a em hem
    rw [hhanded a] at hem
    cases hem
  · intro em hem
    rw [hcaptured] at hem
    cases hem
  · intro a
    rw [hemissions a, hstate]
    rfl
  · rw [hcaptured, hstate]
    rfl
  · intro a i hi
    rw [hstate] at hi
    cases hi

/-- What a slot that is called gets. -/
structure Lawful [DecidableEq τ] (declared : ς → List (Param τ)) (v : Invocation θ ς τ ν)
    (em : Emission τ ν) : Prop where
  emission : v.emission = some em
  /-- `Connection::emit` has been called for this connection, at least. -/
  passed : 1 ≤ em.passed
  /-- The slot sees what was passed to `emit` exactly if the emission is intact. -/
  sees : v.observed = some (em.args.map fun x => some x.value) ↔ em.Intact (declared v.g)

/-- **Which slots see what was passed to `emit`.** -/
theorem arguments [DecidableEq τ] {declared : ς → List (Param τ)} {h : List (Invocation θ ς τ ν)}
    {p : Passing θ ς ρ τ ν} (hr : (passing θ ς ρ ν declared).Reaches h p) :
    ∀ v ∈ h, ∃ em, Lawful declared v em := by
  suffices hall : Carries p ∧ ∀ v ∈ h, ∃ em, Lawful declared v em from hall.2
  refine hr.induction (fun h p => Carries p ∧ ∀ v ∈ h, ∃ em, Lawful declared v em) ?_ ?_
  · rintro p ⟨hstate, hemissions, hhanded, hcaptured⟩
    exact ⟨carries_start hstate hemissions hhanded hcaptured, fun v hv => by cases hv⟩
  · rintro h p act p' out ⟨hp, hlaw⟩ - hst
    have hp' : Carries p' := hp.step hst
    refine ⟨hp', fun v hv => ?_⟩
    rcases List.mem_append.mp hv with hv | hv
    · exact hlaw v hv
    · cases act with
      | assign t e j k v =>
        obtain ⟨-, ⟨⟩⟩ := Option.ite_none_right_eq_some.mp hst
        cases hv
      | act act args =>
        obtain ⟨⟨s, obs⟩, hbase, heq⟩ := Option.map_eq_some_iff.mp hst
        obtain rfl : (p.follow args act).capture s act = p' := congrArg Prod.fst heq
        obtain rfl : obs.filterMap (Passing.invocation _ declared) = out := congrArg Prod.snd heq
        obtain ⟨e, he, hinvoked⟩ := List.mem_filterMap.mp hv
        rcases (step_cases hbase).signals with
          ⟨a, i, is, code, s₁, rfl, hstack, hex, rfl⟩ | ⟨-, rfl, -⟩
        · rcases hex.shows he with ⟨_, _, _, _, rfl, -⟩ | ⟨_, _, rfl, -⟩ | ⟨d, e₁, g, n, rfl, rfl⟩
          · cases hinvoked
          · cases hinvoked
          · have hsome := handed_step args (s₁.setStack a (code ++ is))
              (hp.ready a (.emitter d e₁ g n) (by simp [hstack]) rfl)
            obtain ⟨em, hem⟩ := Option.isSome_iff_exists.mp hsome
            obtain ⟨hvalid, hpassed⟩ := hp'.handed a em hem
            cases hinvoked
            refine ⟨em, hem, hpassed, ?_⟩
            simp only [hem, Option.bind_some]
            exact hvalid.call_iff hpassed (declared g)
        · cases he

section Runs

/-- No thread has done anything. -/
def Passing.initial : Passing Unit Unit Unit Unit ℕ where
  state := State.initial
  emissions _ := []
  handed _ := none
  captured := []

/-- Two functions are connected, directly, and `emit` is called with one argument; both slots are
called. -/
def emitToTwo (x : Arg Unit ℕ) : List (PassingAction Unit Unit Unit Unit ℕ) :=
  [Action.call () (.connectFunc () DirectConnection none), .step (), .step (), .step (),
    .call () (.connectFunc () DirectConnection none), .step (), .step (), .step (),
    .call () (.emit ()), .step (), .step (), .step (), .step (), .ret (), .step (), .step (),
    .step (), .step ()].map fun act => .act act [x]

/-- Both slots see a variable that is passed by reference. -/
theorem arguments_run : ∃ h p,
    (passing Unit Unit Unit ℕ fun _ => [.reference () true]).Reaches h p ∧
    h.map (·.observed) = [some [some 7], some [some 7]] ∧
    ∀ v ∈ h, ∃ em, Lawful (fun _ => [.reference () true]) v em := by
  obtain ⟨h, p, hex, hobserved⟩ : ∃ h p,
      (passing Unit Unit Unit ℕ fun _ => [.reference () true]).exec Passing.initial
        (emitToTwo { type := (), isConst := true, isLvalue := true, value := 7 }) = some (p, h) ∧
      h.map (·.observed) = [some [some 7], some [some 7]] := ⟨_, _, rfl, rfl⟩
  have hr := Machine.Reaches.of_exec (M := passing Unit Unit Unit ℕ fun _ => [.reference () true])
    ⟨rfl, fun _ => rfl, fun _ => rfl, rfl⟩ hex
  exact ⟨h, p, hr, hobserved, arguments hr⟩

/-- **The second slot gets what has been moved from**, if a signal that takes a value is emitted
with a temporary. -/
theorem second_slot_moved : ∃ h p,
    (passing Unit Unit Unit ℕ fun _ => [.value ()]).Reaches h p ∧
    h.map (fun v => (v.n, v.emission.map fun em => em.args.map Arg.value, v.observed)) =
      [(0, some [7], some [some 7]), (1, some [7], some [none])] := by
  obtain ⟨h, p, hex, hobserved⟩ : ∃ h p,
      (passing Unit Unit Unit ℕ fun _ => [.value ()]).exec Passing.initial
        (emitToTwo { type := (), isConst := false, isLvalue := false, value := 7 }) = some (p, h) ∧
      h.map (fun v => (v.n, v.emission.map fun em => em.args.map Arg.value, v.observed)) =
        [(0, some [7], some [some 7]), (1, some [7], some [none])] := ⟨_, _, rfl, rfl⟩
  exact ⟨h, p, .of_exec ⟨rfl, fun _ => rfl, fun _ => rfl, rfl⟩ hex, hobserved⟩

end Runs

end Sigslot2

end TQLib
