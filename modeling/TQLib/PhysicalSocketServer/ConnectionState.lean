import TQLib.PhysicalSocketServer.Connection

/-!
# What is left of a connection that has been closed

`Close` returns at once if there is no descriptor. A socket that waits for its address to be
resolved may have none yet, and then stays as it is: the resolver is not destroyed, the state is
still `CS_CONNECTING`, and when the address comes the socket connects after all. `OnResolveResult`
relies on `Close` in the same way when resolving fails; and when connecting fails it does not call
it.

`OnEvent` goes on after a handler has closed the socket, on POSIX without asking.

## Main results

* `Upkeep` — what a socket without a descriptor is like
* `perform_orderly`, `onParts_orderly`, `step_orderly` — what one call, one `OnEvent` and one step
  show
* `connection_orderly` — runs in which none of this happens are orderly
-/

namespace TQLib

namespace PhysicalSocketServer

namespace PhysicalSocket

/-- What a socket should show, and whether it has been closed since the last `Connect` or `Create`:
`Close` leaves it closed and without a resolver, no signal is emitted before the next `Connect`, and
a signal that resolving or connecting has failed is emitted when it is closed. -/
def orderly : Spec Bool Entry where
  start q := q = false
  next q e q' :=
    match e with
    | .closed state resolver => state = .closed ∧ resolver = none ∧ q' = true
    | .connect | .create => q' = false
    | .signal _ failed state => q = false ∧ (failed = true → state = .closed) ∧ q' = q
    | .signalClose => q' = q

/-! ## The conditions -/

/-- `Close` is called on a socket that has a descriptor, or no resolver. -/
def Call.Safe (x : PhysicalSocket) (c : Call) : Prop :=
  ∀ lastError, c = .close lastError → x.s = true ∨ x.resolver = none

/-- So are all of these calls. -/
def SafeAll (p : Platform) : PhysicalSocket → List Call → Prop
  | _, [] => True
  | x, c :: cs => c.Safe x ∧ SafeAll p (x.perform p c).1 cs

/-- Whether a call leaves the socket closed. -/
def Call.closedAfter (q : Bool) : Call → Bool
  | .close _ => true
  | .connect _ _ | .create _ _ _ => false
  | _ => q

/-- Whether the last of these calls that closes the socket, connects it or creates it is `Close`. -/
def closedAfter (q : Bool) (cs : List Call) : Bool := cs.foldl Call.closedAfter q

/-- A part of `OnEvent` that emits nothing for a socket that is closed: on Windows, one that finds
`id_` changed, or that only sets `signal_close_`. -/
def Harmless (p : Platform) (cacheId : UInt32) (q : Part) : Prop :=
  p = .windows ∧ (q = .close ∨ q ≠ .read ∧ cacheId ≠ 0)

/-- Handlers call `Close` safely, and where they leave the socket closed only harmless parts are
left. -/
def SafeParts (p : Platform) (cacheId : UInt32) (err : ℤ) (failed : Bool) (h : Part → List Call) :
    PhysicalSocket → List Part → Prop
  | _, [] => True
  | x, q :: qs =>
    if x.enters p cacheId q then
      ((signal p q).isSome → SafeAll p (x.prepare p err q) (h q) ∧
        (closedAfter false (h q) = true → ∀ q' ∈ qs, Harmless p cacheId q')) ∧
      SafeParts p cacheId err failed h (x.part p err failed h q).1 qs
    else SafeParts p cacheId err failed h x qs

/-- `DoConnect` succeeds: there is a descriptor or `::socket` gives one, and `::connect` succeeds or
would block. -/
def Attempt.Succeeds (p : Platform) (x : PhysicalSocket) (a : Attempt) : Prop :=
  (x.s = true ∨ a.socket.ok = true) ∧
    (a.connect.ok = true ∨ isBlockingError p a.connect.lastError = true)

/-- What is required of a step. When a resolver fails there is a descriptor, and when it does not
`DoConnect` succeeds, or the socket has been closed by its peer in the meantime. -/
def Safe (p : Platform) (x : PhysicalSocket) : Action → Prop
  | .call c => c.Safe x
  | .resolved resolver error a closeError cs => some resolver = x.resolver →
    if error = 0 then
      a.Succeeds p x ∨
        x.state = .closed ∧ SafeAll p { (x.doConnect p a).1 with error := SOCKET_ERROR } cs
    else x.s = true ∧ SafeAll p { x.close closeError with error } cs
  | .onEvent ff err h =>
    SafeParts p x.id err (x.state = .connecting && ff = DE_CLOSE) h (x.setState p ff) (parts ff)
  | .checkSignalClose _ cs => SafeAll p { x with state := .closed, signalClose := false } cs

/-! ## A socket without a descriptor -/

/-- What holds of a socket that has been closed since the last `Connect`, if `q`, or has not. -/
structure Upkeep (x : PhysicalSocket) (q : Bool) : Prop where
  /-- Without a descriptor, `id_` is reset. -/
  id : x.s = false → x.id = 0
  /-- Without a descriptor or a resolver it is closed. -/
  state : x.s = false → x.resolver = none → x.state = .closed
  /-- If it has been closed it is without both. -/
  quiet : q = true → x.s = false ∧ x.resolver = none

variable {x y : PhysicalSocket} {p : Platform} {q : Bool} {c : Call} {cs : List Call}
  {a : Attempt}

theorem Upkeep.congr (h : Upkeep x q) (hs : y.s = x.s) (hid : y.id = x.id)
    (hresolver : y.resolver = x.resolver) (hstate : y.state = x.state) : Upkeep y q := by
  constructor
  · rw [hs, hid]
    exact h.id
  · rw [hs, hresolver, hstate]
    exact h.state
  · rw [hs, hresolver]
    exact h.quiet

/-- A socket with a descriptor has not been closed since the last `Connect`. -/
theorem upkeep_of_open (hs : x.s = true) : Upkeep x false := by
  constructor
  · rw [hs]
    rintro ⟨⟩
  · rw [hs]
    rintro ⟨⟩
  · rintro ⟨⟩

theorem Upkeep.weaken (h : Upkeep x q) : Upkeep x false :=
  ⟨h.id, h.state, fun hq => by cases hq⟩

theorem Upkeep.eq_false (h : Upkeep x q) (hs : x.s = true) : q = false := by
  by_contra hq
  have hnot := (h.quiet (Bool.eq_true_of_not_eq_false hq)).1
  rw [hs] at hnot
  cases hnot

theorem upkeep_constructed (s : Bool) (nextId : UInt32) (nextResolver : ℕ) :
    Upkeep (constructed s nextId nextResolver) false := by
  refine ⟨fun _ => rfl, fun hs _ => ?_, fun hq => ?_⟩
  · cases s with
    | true => cases hs
    | false => rfl
  · cases hq

/-! ## One call -/

theorem Upkeep.close (h : Upkeep x q) (lastError : ℤ) : Upkeep (x.close lastError) q := by
  by_cases hs : x.s = true
  · rw [close_of_open hs]
    exact ⟨fun _ => rfl, fun _ _ => rfl, fun _ => ⟨rfl, rfl⟩⟩
  · rwa [close_of_not_open (Bool.eq_false_of_not_eq_true hs)]

/-- `Close`, where it does something or there is nothing to do, leaves the socket closed. -/
theorem close_of_safe (h : Upkeep x q) (hsafe : x.s = true ∨ x.resolver = none) (lastError : ℤ) :
    Upkeep (x.close lastError) true ∧ (x.close lastError).state = .closed ∧
      (x.close lastError).resolver = none := by
  by_cases hs : x.s = true
  · rw [close_of_open hs]
    exact ⟨⟨fun _ => rfl, fun _ _ => rfl, fun _ => ⟨rfl, rfl⟩⟩, rfl, rfl⟩
  · have hs' := Bool.eq_false_of_not_eq_true hs
    have hresolver := hsafe.resolve_left hs
    have hstate := h.state hs' hresolver
    rw [close_of_not_open hs']
    exact ⟨⟨h.id, h.state, fun _ => ⟨hs', hresolver⟩⟩, hstate, hresolver⟩

theorem Upkeep.create (h : Upkeep x q) (udp : Bool) (closeError : ℤ) (socket : Syscall) :
    Upkeep (x.create udp closeError socket) false := by
  by_cases hok : socket.ok = true
  · exact upkeep_of_open (create_of_ok hok x udp closeError)
  · have hok' := Bool.eq_false_of_not_eq_true hok
    obtain ⟨hs, hid, hresolver, hstate⟩ := physicalCreate_keeps x udp closeError socket
    have hclosed := h.close closeError
    have hdescriptor : (x.close closeError).s = false := by
      by_cases hopen : x.s = true
      · rw [close_of_open hopen]
      · rw [close_of_not_open (Bool.eq_false_of_not_eq_true hopen)]
        exact Bool.eq_false_of_not_eq_true hopen
    rw [create_of_not_ok hok']
    exact hclosed.weaken.congr (hs.trans (hok'.trans hdescriptor.symm)) hid hresolver hstate

theorem Upkeep.doConnect (h : Upkeep x q) (a : Attempt) : Upkeep (x.doConnect p a).1 false := by
  by_cases hs : x.s = true
  · exact upkeep_of_open (doConnect_keeps hs a).1
  · rw [doConnect_of_not_open (Bool.eq_false_of_not_eq_true hs)]
    split
    · rename_i hok
      exact upkeep_of_open (doConnect_keeps (create_of_ok hok x false 0) a).1
    · exact h.create false 0 a.socket

theorem Upkeep.connect (h : Upkeep x q) (unresolved : Bool) (a : Attempt) :
    Upkeep (x.connect p unresolved a).1 false := by
  rw [PhysicalSocket.connect]
  split
  · exact h.weaken.congr rfl rfl rfl rfl
  · split
    · refine ⟨h.id, fun _ hresolver => ?_, fun hq => ?_⟩
      · cases hresolver
      · cases hq
    · exact h.doConnect a

theorem Upkeep.listen (h : Upkeep x q) (result : Syscall) : Upkeep (x.listen result) q := by
  rw [PhysicalSocket.listen]
  split
  · rename_i hopen
    have hs : x.s = true := (Bool.and_eq_true_iff.mp hopen).1
    rw [h.eq_false hs]
    exact upkeep_of_open hs
  · exact h.congr rfl rfl rfl rfl

/-- **One call.** -/
theorem perform_orderly (h : Upkeep x q) (hsafe : c.Safe x) :
    orderly.Path q (x.perform p c).2 (c.closedAfter q) ∧
      Upkeep (x.perform p c).1 (c.closedAfter q) := by
  cases c with
  | connect unresolved a => exact ⟨.single rfl, h.connect unresolved a⟩
  | close lastError =>
    obtain ⟨hclosed, hstate, hresolver⟩ := close_of_safe h (hsafe lastError rfl) lastError
    exact ⟨.single ⟨hstate, hresolver, rfl⟩, hclosed⟩
  | create udp closeError socket => exact ⟨.single rfl, h.create udp closeError socket⟩
  | listen result => exact ⟨.nil q, h.listen result⟩
  | enableEvents events => exact ⟨.nil q, h.congr rfl rfl rfl rfl⟩
  | others nextId => exact ⟨.nil q, h.congr rfl rfl rfl rfl⟩

theorem performAll_orderly (h : Upkeep x q) (hsafe : SafeAll p x cs) :
    orderly.Path q (x.performAll p cs).2 (closedAfter q cs) ∧
      Upkeep (x.performAll p cs).1 (closedAfter q cs) := by
  induction cs generalizing x q with
  | nil => exact ⟨.nil q, h⟩
  | cons c cs ih =>
    obtain ⟨hpath, hupkeep⟩ := perform_orderly h hsafe.1
    obtain ⟨hpath', hupkeep'⟩ := ih hupkeep hsafe.2
    exact ⟨hpath.append hpath', hupkeep'⟩

/-- **One signal**, to a socket that has not been closed. -/
theorem emit_orderly (h : Upkeep x false) {sig : Signal} {failed : Bool}
    (hfailed : failed = true → x.state = .closed) (hsafe : SafeAll p x cs) :
    orderly.Path false (x.emit p sig failed cs).2 (closedAfter false cs) ∧
      Upkeep (x.emit p sig failed cs).1 (closedAfter false cs) := by
  obtain ⟨hpath, hupkeep⟩ := performAll_orderly h hsafe
  exact ⟨.cons ⟨rfl, hfailed, rfl⟩ hpath, hupkeep⟩

/-! ## `OnEvent` -/

section OnEvent

variable {cacheId : UInt32} {err : ℤ} {failed : Bool} {h : Part → List Call} {r : Part}
  {rs : List Part}

theorem Upkeep.prepare (hx : Upkeep x q) (p : Platform) (err : ℤ) (r : Part) :
    Upkeep (x.prepare p err r) q := by
  cases p <;> cases r <;> exact hx.congr rfl rfl rfl rfl

theorem state_prepare (x : PhysicalSocket) (p : Platform) (err : ℤ) (r : Part) :
    (x.prepare p err r).state = x.state := by
  cases p <;> cases r <;> rfl

theorem part_of_some {sig : Signal} (hsig : signal p r = some sig) :
    x.part p err failed h r = (x.prepare p err r).emit p sig (failed && sig = .close) (h r) := by
  rw [part, hsig]

theorem part_of_none (hsig : signal p r = none) :
    x.part p err failed h r = (x.prepare p err r, [.signalClose]) := by
  rw [part, hsig]

/-- The only signal that may say that connecting has failed is that of `DE_CLOSE` on POSIX. -/
theorem eq_close_of_signal (hsig : signal p r = some .close) : p = .posix ∧ r = .close := by
  cases p <;> cases r <;> first | exact ⟨rfl, rfl⟩ | cases hsig

/-- A harmless part that is entered sets `signal_close_`. -/
theorem eq_close_of_harmless (hx : Upkeep x true) (hr : Harmless p cacheId r)
    (henter : x.enters p cacheId r = true) : signal p r = none := by
  obtain ⟨rfl, rfl | ⟨hread, hid⟩⟩ := hr
  · rfl
  · have hzero := hx.id (hx.quiet rfl).1
    cases r
    case read => exact absurd rfl hread
    case close => rfl
    all_goals
      have heq : x.id = cacheId := of_decide_eq_true henter
      exact absurd (heq.symm.trans hzero) hid

/-- A socket that has been closed shows nothing of harmless parts. -/
theorem onParts_of_harmless (hx : Upkeep x true) (hrs : ∀ r ∈ rs, Harmless p cacheId r) :
    orderly.Path true (x.onParts p cacheId err failed h rs).2 true ∧
      Upkeep (x.onParts p cacheId err failed h rs).1 true := by
  induction rs generalizing x with
  | nil => exact ⟨.nil true, hx⟩
  | cons r rs ih =>
    obtain ⟨hr, hrs⟩ := List.forall_mem_cons.mp hrs
    rw [onParts]
    split
    · rename_i henter
      rw [part_of_none (eq_close_of_harmless hx hr henter)]
      obtain ⟨hpath, hupkeep⟩ := ih (hx.prepare p err r) hrs
      exact ⟨.cons rfl hpath, hupkeep⟩
    · exact ih hx hrs

/-- **The parts of `OnEvent`**, where a failure to connect is reported to a socket that is closed,
and is the only thing reported. -/
theorem onParts_orderly (hx : Upkeep x false) (hsafe : SafeParts p cacheId err failed h x rs)
    (hfailed : failed = true → p = .posix → rs = [] ∨ rs = [.close] ∧ x.state = .closed) :
    ∃ q, orderly.Path false (x.onParts p cacheId err failed h rs).2 q ∧
      Upkeep (x.onParts p cacheId err failed h rs).1 q := by
  induction rs generalizing x with
  | nil => exact ⟨false, .nil false, hx⟩
  | cons r rs ih =>
    have hfailed' (y : PhysicalSocket) :
        failed = true → p = .posix → rs = [] ∨ rs = [.close] ∧ y.state = .closed := by
      intro hf hp
      obtain hnil | ⟨hone, -⟩ := hfailed hf hp
      · cases hnil
      · exact .inl (List.cons.inj hone).2
    rw [onParts]
    rw [SafeParts] at hsafe
    split
    · rename_i henter
      rw [if_pos henter] at hsafe
      obtain ⟨hr, hsafe⟩ := hsafe
      cases hsig : signal p r with
      | none =>
        rw [part_of_none hsig] at hsafe ⊢
        obtain ⟨q, hpath, hupkeep⟩ := ih (hx.prepare p err r) hsafe (hfailed' _)
        exact ⟨q, .cons rfl hpath, hupkeep⟩
      | some sig =>
        rw [hsig] at hr
        obtain ⟨hcalls, hharmless⟩ := hr rfl
        have hstate : (failed && sig = .close) = true → (x.prepare p err r).state = .closed := by
          intro hf
          obtain ⟨hfail, hclose⟩ := Bool.and_eq_true_iff.mp hf
          obtain rfl := of_decide_eq_true hclose
          obtain hnil | ⟨-, hclosed⟩ := hfailed hfail (eq_close_of_signal hsig).1
          · cases hnil
          · rw [state_prepare, hclosed]
        obtain ⟨hpath, hupkeep⟩ := emit_orderly (hx.prepare p err r) hstate hcalls
        rw [part_of_some hsig] at hsafe ⊢
        -- Where the handlers have closed the socket there is nothing more to show.
        by_cases hclosed : closedAfter false (h r) = true
        · rw [hclosed] at hpath hupkeep
          obtain ⟨hpath', hupkeep'⟩ := onParts_of_harmless hupkeep (hharmless hclosed)
          exact ⟨true, hpath.append hpath', hupkeep'⟩
        · rw [Bool.eq_false_of_not_eq_true hclosed] at hpath hupkeep
          obtain ⟨q, hpath', hupkeep'⟩ := ih hupkeep hsafe (hfailed' _)
          exact ⟨q, hpath.append hpath', hupkeep'⟩
    · rename_i henter
      rw [if_neg henter] at hsafe
      exact ih hx hsafe (hfailed' x)

theorem onEvent_orderly (hs : x.s = true) {ff : UInt32}
    (hsafe : Safe p x (.onEvent ff err h)) :
    ∃ q, orderly.Path false (x.onEvent p ff err h).2 q ∧ Upkeep (x.onEvent p ff err h).1 q := by
  have hopen : (x.setState p ff).s = true := by
    rw [setState]
    split <;> split <;> exact hs
  refine onParts_orderly (upkeep_of_open hopen) hsafe fun hf hp => ?_
  obtain ⟨-, hff⟩ := Bool.and_eq_true_iff.mp hf
  obtain rfl := of_decide_eq_true hff
  refine .inr ⟨by decide, ?_⟩
  rw [setState, if_pos ⟨hp, by decide⟩]

end OnEvent

/-! ## `OnResolveResult` -/

theorem doConnect_of_succeeds (ha : a.Succeeds p x) : (x.doConnect p a).2 = 0 := by
  obtain ⟨hsocket, hconnect⟩ := ha
  have hopen (y : PhysicalSocket) (hs : y.s = true) : (y.doConnect p a).2 = 0 := by
    rw [doConnect_of_open hs]
    obtain hok | hblocking := hconnect
    · rw [if_pos hok]
    · split
      · rfl
      · rfl
  by_cases hs : x.s = true
  · exact hopen x hs
  · have hok := hsocket.resolve_left hs
    rw [doConnect_of_not_open (Bool.eq_false_of_not_eq_true hs), if_pos hok]
    exact hopen _ (create_of_ok hok x false 0)

/-- When `DoConnect` fails the state is what it was. -/
theorem doConnect_of_fails (hfail : (x.doConnect p a).2 ≠ 0) :
    (x.doConnect p a).2 = SOCKET_ERROR ∧ (x.doConnect p a).1.state = x.state := by
  have hopen (y : PhysicalSocket) (hs : y.s = true) (hy : (y.doConnect p a).2 ≠ 0) :
      (y.doConnect p a).2 = SOCKET_ERROR ∧ (y.doConnect p a).1.state = y.state := by
    rw [doConnect_of_open hs] at hy ⊢
    split at hy
    · exact absurd rfl hy
    · rename_i hok
      rw [if_neg hok]
      split at hy
      · exact absurd rfl hy
      · rename_i hblocking
        rw [if_neg hblocking]
        exact ⟨rfl, rfl⟩
  by_cases hs : x.s = true
  · exact hopen x hs hfail
  · have hs' := Bool.eq_false_of_not_eq_true hs
    have hstate := state_create hs' false 0 a.socket
    rw [doConnect_of_not_open hs'] at hfail ⊢
    split
    · rename_i hok
      rw [if_pos hok] at hfail
      obtain ⟨herror, hkept⟩ := hopen _ (create_of_ok hok x false 0) hfail
      exact ⟨herror, hkept.trans hstate⟩
    · exact ⟨rfl, hstate⟩

theorem onResolveResult_orderly (h : Upkeep x q) {resolver : ℕ} {error closeError : ℤ}
    (hsafe : Safe p x (.resolved resolver error a closeError cs)) :
    ∃ q', orderly.Path q (x.onResolveResult p resolver error a closeError cs).2 q' ∧
      Upkeep (x.onResolveResult p resolver error a closeError cs).1 q' := by
  by_cases hresolver : some resolver = x.resolver
  · have hq : q = false := by
      by_contra hq
      have hnone := (h.quiet (Bool.eq_true_of_not_eq_false hq)).2
      rw [← hresolver] at hnone
      cases hnone
    subst hq
    have hsafe' := hsafe hresolver
    by_cases herror : error = 0
    · rw [if_pos herror] at hsafe'
      rw [herror, onResolveResult_of_eq_zero hresolver]
      by_cases hfail : (x.doConnect p a).2 = 0
      · rw [if_neg (not_not.mpr hfail)]
        exact ⟨false, .nil false, h.doConnect a⟩
      · obtain hsucceeds | ⟨hclosed, hcalls⟩ := hsafe'
        · exact absurd (doConnect_of_succeeds hsucceeds) hfail
        · obtain ⟨hcode, hstate⟩ := doConnect_of_fails hfail
          have hupkeep : Upkeep { (x.doConnect p a).1 with error := SOCKET_ERROR } false :=
            (h.doConnect a).congr rfl rfl rfl rfl
          rw [if_pos hfail, hcode]
          exact ⟨_, emit_orderly hupkeep (fun _ => hstate.trans hclosed) hcalls⟩
    · rw [if_neg herror] at hsafe'
      obtain ⟨hs, hcalls⟩ := hsafe'
      obtain ⟨hclosed, hstate, -⟩ := close_of_safe h (.inl hs) closeError
      have hupkeep : Upkeep { x.close closeError with error } false :=
        hclosed.weaken.congr rfl rfl rfl rfl
      rw [onResolveResult_of_ne_zero hresolver herror]
      exact ⟨_, emit_orderly hupkeep (fun _ => hstate) hcalls⟩
  · rw [onResolveResult, if_pos hresolver]
    exact ⟨q, .nil q, h⟩

/-! ## Runs -/

theorem checkSignalClose_orderly (hs : x.s = true) {peeked : Bool}
    (hsafe : Safe .windows x (.checkSignalClose peeked cs)) :
    ∃ q, orderly.Path false (x.checkSignalClose peeked cs).2 q ∧
      Upkeep (x.checkSignalClose peeked cs).1 q := by
  rw [checkSignalClose]
  split
  · exact ⟨false, .nil false, upkeep_of_open hs⟩
  · have hupkeep : Upkeep { x with state := .closed, signalClose := false } false :=
      upkeep_of_open hs
    exact ⟨_, emit_orderly hupkeep (fun _ => rfl) hsafe⟩

/-- **One step.** -/
theorem step_orderly (h : Upkeep x q) {act : Action} (hsafe : Safe p x act)
    {r : PhysicalSocket × List Entry} (hstep : (sockets p).step x act = some r) :
    ∃ q', orderly.Path q r.2 q' ∧ Upkeep r.1 q' := by
  cases act with
  | call c =>
    obtain rfl := Option.some.inj hstep
    exact ⟨_, perform_orderly h hsafe⟩
  | resolved resolver error a closeError cs =>
    obtain rfl := Option.some.inj hstep
    exact onResolveResult_orderly h hsafe
  | onEvent ff err handlers =>
    obtain ⟨hs, hr⟩ := Option.ite_none_right_eq_some.mp hstep
    obtain rfl := Option.some.inj hr
    rw [h.eq_false hs]
    exact onEvent_orderly hs hsafe
  | checkSignalClose peeked cs =>
    obtain ⟨⟨rfl, hs⟩, hr⟩ := Option.ite_none_right_eq_some.mp hstep
    obtain rfl := Option.some.inj hr
    rw [h.eq_false hs]
    exact checkSignalClose_orderly hs hsafe

/-- **What is left of a connection that has been closed.** In every run whose steps are safe,
`Close` leaves the socket closed and without a resolver, nothing is signalled before the next
`Connect`, and a failure to resolve or to connect is signalled when the socket is closed. -/
theorem connection_orderly {history : List Entry}
    (hr : (sockets p).ReachesVia (Safe p) history x) : ∃ q, orderly.Accepts history q := by
  have hall : ∃ q, orderly.Accepts history q ∧ Upkeep x q := by
    refine hr.induction (fun history x => ∃ q, orderly.Accepts history q ∧ Upkeep x q) ?_ ?_
    · rintro x ⟨s, nextId, nextResolver, rfl⟩
      exact ⟨false, .nil rfl, upkeep_constructed s nextId nextResolver⟩
    · rintro history x act y out ⟨q, haccepts, hupkeep⟩ hsafe hstep
      obtain ⟨q', hpath, hupkeep'⟩ := step_orderly hupkeep hsafe hstep
      exact ⟨q', haccepts.append hpath, hupkeep'⟩
  obtain ⟨q, haccepts, -⟩ := hall
  exact ⟨q, haccepts⟩

/-- A socket without a descriptor whose address is being resolved. -/
def resolving : PhysicalSocket := ⟨false, .connecting, some 0, 0, 0, 0, false, 0, 0, 1⟩

/-- The same, connecting to the address. -/
def connecting : PhysicalSocket := ⟨true, .connecting, some 0, 115, 7, 1, false, 0, 1, 1⟩

/-- The same, connected. -/
def connected : PhysicalSocket := ⟨true, .connected, some 0, 115, 3, 1, false, 0, 1, 1⟩

/-- It hears that it is connected, and is closed. -/
theorem connection_orderly_late :
    ∃ q, orderly.Accepts
      [.connect, .signal .connect false .connected, .closed .closed none] q := by
  have h₁ : Safe .posix (constructed false 0 0)
      (.call (.connect true ⟨⟨true, 0⟩, ⟨false, 115⟩⟩)) := by
    rintro _ ⟨⟩
  have h₂ : Safe .posix resolving (.resolved 0 0 ⟨⟨true, 0⟩, ⟨false, 115⟩⟩ 0 []) :=
    fun _ => .inl ⟨.inr rfl, .inr rfl⟩
  have h₃ : Safe .posix connecting (.onEvent DE_CONNECT 0 fun _ => []) := by
    refine ⟨fun _ => ⟨trivial, ?_⟩, trivial⟩
    rintro ⟨⟩
  have h₄ : Safe .posix connected (.call (.close 0)) := fun _ _ => .inl rfl
  have r₀ : (sockets .posix).ReachesVia (Safe .posix) [] (constructed false 0 0) :=
    .start ⟨false, 0, 0, rfl⟩
  have r₁ : (sockets .posix).ReachesVia (Safe .posix) [.connect] resolving := r₀.step h₁ rfl
  have r₂ : (sockets .posix).ReachesVia (Safe .posix) [.connect] connecting := r₁.step h₂ rfl
  have r₃ : (sockets .posix).ReachesVia (Safe .posix)
      [.connect, .signal .connect false .connected] connected := r₂.step h₃ rfl
  exact connection_orderly (r₃.step h₄ rfl)

/-- A run shows this, and it is not orderly. -/
def Disorderly (p : Platform) (history : List Entry) : Prop :=
  (∃ x, (sockets p).Reaches history x) ∧ ¬ ∃ q, orderly.Accepts history q

theorem disorderly_of_exec {s : Bool} (acts : List Action) (before : List Entry) {e : Entry}
    (hexec : (sockets p).exec (constructed s 0 0) acts = some (x, before ++ [e]))
    (hnot : ∀ q q', orderly.Accepts before q → ¬ orderly.next q e q') :
    Disorderly p (before ++ [e]) := by
  refine ⟨⟨x, .of_exec ⟨s, 0, 0, rfl⟩ hexec⟩, ?_⟩
  rintro ⟨q, haccepts⟩
  obtain ⟨q₁, q₂, hbefore, hnext⟩ := haccepts.split
  exact hnot q₁ q₂ hbefore hnext

/-- A socket without a descriptor whose address is being resolved is not closed by `Close`; when
resolving it fails, or connecting fails afterwards, it is still connecting when that is signalled;
and a socket that is closed by the handler of `SignalReadEvent` hears of `DE_WRITE`. -/
theorem connection_disorderly :
    Disorderly .posix [.connect, .closed .connecting (some 0)] ∧
      Disorderly .posix [.connect, .signal .close true .connecting] ∧
      Disorderly .posix [.signal .read false .connected, .closed .closed none,
        .signal .write false .closed] := by
  refine ⟨?_, ?_, ?_⟩
  · refine disorderly_of_exec (s := false)
      [.call (.connect true ⟨⟨true, 0⟩, ⟨true, 0⟩⟩), .call (.close 0)] [.connect] rfl ?_
    rintro q q' - ⟨hstate, -⟩
    cases hstate
  · refine disorderly_of_exec (s := false)
      [.call (.connect true ⟨⟨true, 0⟩, ⟨true, 0⟩⟩),
        .resolved 0 0 ⟨⟨true, 0⟩, ⟨false, 111⟩⟩ 0 []] [.connect] rfl ?_
    rintro q q' - ⟨-, hstate, -⟩
    cases hstate rfl
  · refine disorderly_of_exec (s := true)
      [.onEvent (DE_READ ||| DE_WRITE) 0 fun r => if r = .read then [.close 0] else []]
      [.signal .read false .connected, .closed .closed none] rfl ?_
    rintro q q' hbefore ⟨hquiet, -⟩
    have hclosed : orderly.Accepts
        ([.signal .read false .connected] ++ [.closed .closed none]) q := hbefore
    obtain ⟨t, -, hpath⟩ := hclosed.cut
    cases hpath with
    | cons hnext hnil =>
      cases hnil
      obtain ⟨-, -, hq⟩ := hnext
      rw [hquiet] at hq
      cases hq

end PhysicalSocket

end PhysicalSocketServer

end TQLib
