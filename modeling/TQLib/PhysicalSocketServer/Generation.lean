import TQLib.PhysicalSocketServer.Connection

/-!
# `OnEvent` after `Close`, on Windows

`OnEvent` goes through its events one after another, and the handlers of each may close the socket,
or close it and create it again. So that the events that are left are not taken for events of the
new socket, `Close` resets `id_`, `Create` gives another, and `OnEvent` compares `id_` with the one
it started with.

It does so for all events but `DE_READ`. And the sockets that `Accept` returns have never been
created: their `id_` is zero from the beginning, which is what `Close` leaves.

## Main results

* `forall_not_isSignal_iff` — the events that are left show nothing if none of them is entered
* `onEvent_quiet_iff` — when no signal follows a close
-/

namespace TQLib

namespace PhysicalSocketServer

namespace PhysicalSocket

variable {x : PhysicalSocket} {c : Call} {cs : List Call} {cacheId : UInt32} {err : ℤ}
  {failed : Bool} {h : Part → List Call} {q : Part} {qs : List Part}

/-- The calls that close a socket that is open. `Create` closes it first. -/
def Call.closes : Call → Bool
  | .close _ | .create _ _ _ => true
  | _ => false

/-- That the socket is closed. -/
def Entry.closes : Entry → Bool
  | .closed _ _ | .create => true
  | _ => false

/-- That a signal is emitted, or set aside to be emitted. -/
def Entry.isSignal : Entry → Bool
  | .signal _ _ _ | .signalClose => true
  | _ => false

/-- Nothing that is shown after a close is a signal. -/
def QuietAfterClose (log : List Entry) : Prop :=
  log.Pairwise fun e e' => e.closes = true → e'.isSignal = false

instance (log : List Entry) : Decidable (QuietAfterClose log) :=
  inferInstanceAs (Decidable (log.Pairwise _))

/-- The calls of the handlers of a part. `DE_CLOSE` has none. -/
def handled (h : Part → List Call) (q : Part) : List Call := if q = .close then [] else h q

/-- The socket after a part. -/
def afterPart (err : ℤ) (h : Part → List Call) (x : PhysicalSocket) (q : Part) : PhysicalSocket :=
  ((x.prepare .windows err q).performAll .windows (handled h q)).1

/-- The handlers that close the socket first, those of `q`, leave no `DE_READ` to come. If they
leave anything, they also leave another `id_` than the one `OnEvent` started with. -/
def LeavesNothing (cacheId : UInt32) (err : ℤ) (h : Part → List Call) (x : PhysicalSocket)
    (qs : List Part) : Prop :=
  ∀ before q after, qs = before ++ q :: after →
    (∀ q' ∈ before, (handled h q').any Call.closes = false) →
    (handled h q).any Call.closes = true →
    .read ∉ after ∧
      (after ≠ [] → (((before ++ [q]).foldl (afterPart err h) x).id ≠ cacheId))

/-! ## Calls -/

theorem isSignal_perform (p : Platform) (x : PhysicalSocket) (c : Call) :
    ∀ e ∈ (x.perform p c).2, e.isSignal = false := by
  cases c <;> simp [perform, Entry.isSignal]

theorem any_closes_perform (p : Platform) (x : PhysicalSocket) (c : Call) :
    (x.perform p c).2.any Entry.closes = c.closes := by
  cases c <;> rfl

theorem isSignal_performAll (p : Platform) (x : PhysicalSocket) (cs : List Call) :
    ∀ e ∈ (x.performAll p cs).2, e.isSignal = false := by
  induction cs generalizing x with
  | nil => exact List.forall_mem_nil _
  | cons c cs ih => exact List.forall_mem_append.mpr ⟨isSignal_perform p x c, ih _⟩

theorem any_closes_performAll (p : Platform) (x : PhysicalSocket) (cs : List Call) :
    (x.performAll p cs).2.any Entry.closes = cs.any Call.closes := by
  induction cs generalizing x with
  | nil => rfl
  | cons c cs ih =>
    show ((x.perform p c).2 ++ _).any Entry.closes = _
    rw [List.any_append, any_closes_perform, ih, List.any_cons]

/-- A call that does not close an open socket leaves its descriptor and its `id_`. -/
theorem perform_of_not_closes (p : Platform) (hs : x.s = true) (hc : c.closes = false) :
    (x.perform p c).1.s = true ∧ (x.perform p c).1.id = x.id := by
  cases c with
  | connect unresolved a =>
    show (x.connect p unresolved a).1.s = true ∧ (x.connect p unresolved a).1.id = x.id
    rw [connect]
    split
    · exact ⟨hs, rfl⟩
    · split
      · exact ⟨hs, rfl⟩
      · obtain ⟨hs', hid, -⟩ := doConnect_keeps hs a
        exact ⟨hs', hid⟩
  | close lastError => cases hc
  | create udp closeError socket => cases hc
  | listen result =>
    show (x.listen result).s = true ∧ (x.listen result).id = x.id
    rw [listen]
    split
    · exact ⟨hs, rfl⟩
    · exact ⟨hs, rfl⟩
  | enableEvents events => exact ⟨hs, rfl⟩
  | others nextId => exact ⟨hs, rfl⟩

theorem performAll_of_not_closes (p : Platform) (hs : x.s = true)
    (hcs : cs.any Call.closes = false) :
    (x.performAll p cs).1.s = true ∧ (x.performAll p cs).1.id = x.id := by
  induction cs generalizing x with
  | nil => exact ⟨hs, rfl⟩
  | cons c cs ih =>
    rw [List.any_cons, Bool.or_eq_false_iff] at hcs
    obtain ⟨hs', hid⟩ := perform_of_not_closes p hs hcs.1
    obtain ⟨hs'', hid'⟩ := ih hs' hcs.2
    exact ⟨hs'', hid'.trans hid⟩

/-! ## Parts -/

theorem enters_windows_eq_false_iff :
    x.enters .windows cacheId q = false ↔ q ≠ .read ∧ x.id ≠ cacheId := by
  cases q <;> simp [enters]

theorem enters_of_id (p : Platform) (hid : x.id = cacheId) : x.enters p cacheId q = true := by
  cases p <;> cases q <;> simp [enters, hid]

/-- What a part shows, and what it leaves. -/
theorem part_windows (err : ℤ) (failed : Bool) (h : Part → List Call) (x : PhysicalSocket)
    (q : Part) :
    ∃ e, e.isSignal = true ∧ x.part .windows err failed h q =
      (x.afterPart err h q,
        e :: ((x.prepare .windows err q).performAll .windows (handled h q)).2) := by
  cases q
  case close => exact ⟨_, rfl, rfl⟩
  all_goals exact ⟨_, rfl, rfl⟩

theorem prepare_keeps (err : ℤ) (x : PhysicalSocket) (q : Part) :
    (x.prepare .windows err q).s = x.s ∧ (x.prepare .windows err q).id = x.id := by
  cases q <;> exact ⟨rfl, rfl⟩

theorem onParts_cons_of_enters {p : Platform} (hq : x.enters p cacheId q = true) :
    (x.onParts p cacheId err failed h (q :: qs)).2 =
      (x.part p err failed h q).2 ++
        ((x.part p err failed h q).1.onParts p cacheId err failed h qs).2 := by
  rw [onParts, if_pos hq]

theorem onParts_cons_of_not_enters {p : Platform} (hq : x.enters p cacheId q = false) :
    x.onParts p cacheId err failed h (q :: qs) = x.onParts p cacheId err failed h qs := by
  rw [onParts, hq]
  rfl

/-- The events that are left show no signal if none of them is entered. -/
theorem forall_not_isSignal_iff :
    (∀ e ∈ (x.onParts .windows cacheId err failed h qs).2, e.isSignal = false) ↔
      .read ∉ qs ∧ (qs ≠ [] → x.id ≠ cacheId) := by
  induction qs generalizing x with
  | nil => exact iff_of_true (List.forall_mem_nil _) ⟨List.not_mem_nil, fun h => absurd rfl h⟩
  | cons q qs ih =>
    by_cases hq : x.enters .windows cacheId q = true
    · obtain ⟨e, he, hpart⟩ := part_windows err failed h x q
      rw [onParts_cons_of_enters hq, hpart]
      refine iff_of_false (fun hall => ?_) fun hnot => ?_
      · have := hall e List.mem_cons_self
        rw [he] at this
        cases this
      · obtain ⟨hread, hid⟩ := hnot
        have hout := enters_windows_eq_false_iff.mpr
          ⟨fun hq => hread (hq ▸ List.mem_cons_self), hid (List.cons_ne_nil q qs)⟩
        rw [hq] at hout
        cases hout
    · rw [Bool.not_eq_true] at hq
      obtain ⟨hread, hid⟩ := enters_windows_eq_false_iff.mp hq
      rw [onParts_cons_of_not_enters hq, ih, List.mem_cons]
      constructor
      · rintro ⟨hnot, -⟩
        exact ⟨by rintro (heq | hmem); exacts [hread heq.symm, hnot hmem], fun _ => hid⟩
      · rintro ⟨hnot, -⟩
        exact ⟨fun hmem => hnot (.inr hmem), fun _ => hid⟩

theorem quietAfterClose_of_forall {log : List Entry} (hlog : ∀ e ∈ log, e.isSignal = false) :
    QuietAfterClose log :=
  List.pairwise_of_forall_mem_list fun _ _ e' he' _ => hlog e' he'

/-- What handlers show is no signal, and a signal closes nothing. -/
theorem quietAfterClose_handled {e : Entry} {log rest : List Entry} (he : e.isSignal = true)
    (hlog : ∀ e' ∈ log, e'.isSignal = false) :
    QuietAfterClose (e :: log ++ rest) ↔
      (log.any Entry.closes = true → ∀ e' ∈ rest, e'.isSignal = false) ∧ QuietAfterClose rest := by
  have hopen : e.closes = false := by
    cases e <;> first | rfl | cases he
  have hfirst : (e :: log).Pairwise fun e e' => e.closes = true → e'.isSignal = false :=
    List.pairwise_cons.mpr ⟨fun e' he' _ => hlog e' he', quietAfterClose_of_forall hlog⟩
  rw [QuietAfterClose, List.pairwise_append, List.any_eq_true]
  constructor
  · rintro ⟨-, hrest, hcross⟩
    exact ⟨fun ⟨e', he', hc⟩ e'' he'' => hcross e' (List.mem_cons_of_mem _ he') e'' he'' hc, hrest⟩
  · rintro ⟨hcross, hrest⟩
    refine ⟨hfirst, hrest, fun e' he' e'' he'' hc => ?_⟩
    obtain rfl | he' := List.mem_cons.mp he'
    · rw [hopen] at hc
      cases hc
    · exact hcross ⟨e', he', hc⟩ e'' he''

/-- After handlers that close the socket nothing more may be shown; after others it is as if
`OnEvent` began with the next event. -/
theorem quietAfterClose_cons_iff (hid : x.id = cacheId) :
    QuietAfterClose (x.onParts .windows cacheId err failed h (q :: qs)).2 ↔
      if (handled h q).any Call.closes then
        ∀ e ∈ ((x.afterPart err h q).onParts .windows cacheId err failed h qs).2,
          e.isSignal = false
      else QuietAfterClose ((x.afterPart err h q).onParts .windows cacheId err failed h qs).2 := by
  obtain ⟨e, he, hpart⟩ := part_windows err failed h x q
  rw [onParts_cons_of_enters (enters_of_id .windows hid), hpart,
    quietAfterClose_handled he (isSignal_performAll _ _ _), any_closes_performAll]
  by_cases hc : (handled h q).any Call.closes = true
  · rw [if_pos hc]
    exact ⟨fun hquiet => hquiet.1 hc, fun hall => ⟨fun _ => hall, quietAfterClose_of_forall hall⟩⟩
  · rw [if_neg hc]
    exact ⟨fun hquiet => hquiet.2, fun hquiet => ⟨fun hc' => absurd hc' hc, hquiet⟩⟩

theorem leavesNothing_cons_iff : LeavesNothing cacheId err h x (q :: qs) ↔
    if (handled h q).any Call.closes then
      .read ∉ qs ∧ (qs ≠ [] → (x.afterPart err h q).id ≠ cacheId)
    else LeavesNothing cacheId err h (x.afterPart err h q) qs := by
  by_cases hc : (handled h q).any Call.closes = true
  · rw [if_pos hc]
    constructor
    · intro hleaves
      exact hleaves [] q qs rfl (List.forall_mem_nil _) hc
    · intro hnot before q' after heq hbefore hq'
      cases before with
      | nil =>
        obtain ⟨rfl, rfl⟩ := List.cons.inj heq
        exact hnot
      | cons q₁ before =>
        obtain ⟨rfl, -⟩ := List.cons.inj heq
        rw [hbefore q List.mem_cons_self] at hc
        cases hc
  · rw [if_neg hc]
    rw [Bool.not_eq_true] at hc
    constructor
    · intro hleaves before q' after heq hbefore hq'
      exact hleaves (q :: before) q' after (congrArg (q :: ·) heq)
        (List.forall_mem_cons.mpr ⟨hc, hbefore⟩) hq'
    · intro hleaves before q' after heq hbefore hq'
      cases before with
      | nil =>
        obtain ⟨rfl, rfl⟩ := List.cons.inj heq
        rw [hc] at hq'
        cases hq'
      | cons q₁ before =>
        obtain ⟨rfl, rfl⟩ := List.cons.inj heq
        exact hleaves before q' after rfl
          (fun q'' hq'' => hbefore q'' (List.mem_cons_of_mem _ hq'')) hq'

/-- **No signal follows a close** in the events that are left if and only if the handlers that close
the socket first leave nothing that is entered. -/
theorem onParts_quiet_iff (hs : x.s = true) (hid : x.id = cacheId) :
    QuietAfterClose (x.onParts .windows cacheId err failed h qs).2 ↔
      LeavesNothing cacheId err h x qs := by
  induction qs generalizing x with
  | nil =>
    refine iff_of_true .nil fun before q after heq => ?_
    cases before <;> cases heq
  | cons q qs ih =>
    rw [quietAfterClose_cons_iff hid, leavesNothing_cons_iff]
    by_cases hc : (handled h q).any Call.closes = true
    · rw [if_pos hc, if_pos hc]
      exact forall_not_isSignal_iff
    · rw [if_neg hc, if_neg hc]
      rw [Bool.not_eq_true] at hc
      obtain ⟨hs', hid'⟩ := prepare_keeps err x q
      obtain ⟨hs'', hid''⟩ := performAll_of_not_closes .windows (hs'.trans hs) hc
      exact ih hs'' (hid''.trans (hid'.trans hid))

/-- **When `OnEvent` is quiet after a close.** The handlers that close the socket first are followed
by no `DE_READ`, and, if by anything, they leave another `id_`. -/
theorem onEvent_quiet_iff (hs : x.s = true) (ff : UInt32) (err : ℤ) (h : Part → List Call) :
    QuietAfterClose (x.onEvent .windows ff err h).2 ↔
      LeavesNothing x.id err h (x.setState .windows ff) (parts ff) := by
  have hstate : (x.setState .windows ff).s = true ∧ (x.setState .windows ff).id = x.id := by
    rw [setState, if_neg (fun h => by cases h.1)]
    split
    · exact ⟨hs, rfl⟩
    · exact ⟨hs, rfl⟩
  exact onParts_quiet_iff hstate.1 hstate.2

/-- A socket that has been created, the first one. -/
def created : PhysicalSocket := (constructed false 0 0).create false 0 ⟨true, 0⟩

/-- A socket that is closed by the handler of `SignalConnectEvent` hears nothing of `DE_WRITE`. -/
theorem onEvent_quiet_iff_created :
    QuietAfterClose
      (created.onEvent .windows (DE_CONNECT ||| DE_WRITE) 0 fun _ => [.close 0]).2 := by
  refine (onEvent_quiet_iff (by decide) _ _ _).mpr (leavesNothing_cons_iff.mpr ?_)
  rw [if_pos (by decide)]
  exact ⟨by decide, fun _ => by decide⟩

/-- It does hear of `DE_READ`; and a socket that `Accept` has returned, and that the handler of
`SignalReadEvent` closes, hears of `DE_WRITE`. -/
theorem signal_after_close :
    ¬ QuietAfterClose
        (created.onEvent .windows (DE_CONNECT ||| DE_READ) 0 fun _ => [.close 0]).2 ∧
      ¬ QuietAfterClose ((constructed true 0 0).onEvent .windows (DE_READ ||| DE_WRITE) 0
        fun _ => [.close 0]).2 := by
  decide

end PhysicalSocket

end PhysicalSocketServer

end TQLib
