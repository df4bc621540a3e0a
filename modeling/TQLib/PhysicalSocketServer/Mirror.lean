import TQLib.PhysicalSocketServer.SocketDispatcher

/-!
# The interest list mirrors the masks

Outside of a batch, a socket that is open is registered for the events it wants. A batch defers the
updates to its end, where the events wanted then are compared with those the socket was registered
for at its start. `Close` makes that "none", so that a socket that is closed and opened again within
the batch is compared with what it would have been registered for had it stayed closed.

But a socket that is opened is registered at once, for what it wants at that moment. If it wants the
same at the end of the batch as the closed socket did, nothing, it is left registered. `Restores` is
the condition that this does not happen.

## Main results

* `mirrored` — outside of batches the interest list mirrors the masks, in every run in which a batch
  that ends with what it compares with has not opened the socket for anything else
* `stale_registration` — a UDP socket that is opened again by a handler of `OnEvent` and has all
  events disabled by the part of `OnEvent` that comes after
-/

namespace TQLib

namespace PhysicalSocketServer

variable {δ : Type*}

/-! ## What a batch has opened -/

/-- The socket an observation is about. -/
def Observation.socket : Observation δ → δ
  | .started d => d
  | .closed d => d
  | .opened d _ => d
  | .finished d _ _ => d

/-- What an observation says of the socket a batch has opened. -/
def Observation.added : Observation δ → Option UInt32 → Option UInt32
  | .started _, _ => none
  | .closed _, _ => none
  | .opened _ events, _ => some events
  | .finished _ _ _, before => before

variable [DecidableEq δ]

/-- The events that the socket was registered for when it was opened, if that was in the batch it
is in and it is still open. -/
def added (d : δ) (h : List (Observation δ)) : Option UInt32 :=
  h.foldl (fun before o => if o.socket = d then o.added before else before) none

/-- Whenever a batch ends with the events that were put aside at its start, a socket that was opened
in it was registered for just these. -/
def Restores (d : δ) (h : List (Observation δ)) : Prop :=
  ∀ h₁ h₂ events, h = h₁ ++ .finished d events events :: h₂ →
    ∀ events', added d h₁ = some events' → events' = events

theorem added_append (d : δ) (h h' : List (Observation δ)) :
    added d (h ++ h') =
      h'.foldl (fun before o => if o.socket = d then o.added before else before) (added d h) := by
  rw [added, List.foldl_append]
  rfl

@[simp] theorem added_snoc (d : δ) (h : List (Observation δ)) (o : Observation δ) :
    added d (h ++ [o]) = if o.socket = d then o.added (added d h) else added d h :=
  added_append d h [o]

theorem added_append_of_ne {d : δ} (h : List (Observation δ)) {out : List (Observation δ)}
    (hout : ∀ o ∈ out, o.socket ≠ d) : added d (h ++ out) = added d h := by
  induction out using List.reverseRecOn with
  | nil => rw [List.append_nil]
  | append_singleton out o ih =>
    have hne : o.socket ≠ d := hout o (by simp)
    rw [← List.append_assoc, added_snoc, if_neg hne]
    exact ih fun o ho => hout o (List.mem_append_left _ ho)

theorem Restores.prefix {d : δ} {h h' : List (Observation δ)} (hr : Restores d (h ++ h')) :
    Restores d h := by
  rintro h₁ h₂ events rfl
  exact hr h₁ (h₂ ++ h') events (by simp)

/-! ## What the operations of the server do -/

namespace Server

variable {π : Type*} [DecidableEq π] {s : Server π} {p : π} {fd : ℕ} {ff : UInt32} {key : UInt64}

theorem add_of_notMem (hp : p ∉ s.keyByDispatcher) (hepoll : s.epoll = true)
    (hfd : s.interest fd = none) :
    s.add p (some fd) ff = { s with
      nextDispatcherKey := s.nextDispatcherKey + 1
      dispatcherByKey := s.dispatcherByKey.emplace s.nextDispatcherKey p
      keyByDispatcher := s.keyByDispatcher.emplace p s.nextDispatcherKey
      interest := Function.update s.interest fd
        (registration (getEpollEvents ff) s.nextDispatcherKey) } := by
  rw [add, if_neg hp]
  dsimp only
  rw [if_pos hepoll]
  refine addEpoll_of_none ?_ _ _
  exact hfd

theorem remove_of_lookup (hp : s.keyByDispatcher.lookup p = some key) (hepoll : s.epoll = true)
    (fd : ℕ) :
    s.remove p (some fd) = { s with
      keyByDispatcher := s.keyByDispatcher.erase p
      dispatcherByKey := s.dispatcherByKey.erase key
      interest := Function.update s.interest fd none } := by
  simp only [remove, hp]
  rw [if_pos hepoll]
  exact removeEpoll_some _ _

theorem update_of_lookup (hp : s.keyByDispatcher.lookup p = some key) (hepoll : s.epoll = true)
    (fd : ℕ) (ff : UInt32) :
    s.update p (some fd) ff = { s with
      interest := Function.update s.interest fd (registration (getEpollEvents ff) key) } := by
  rw [update, if_pos hepoll, hp]
  exact updateEpoll_some _ _ _ _

end Server

/-! ## Descriptors -/

/-- What holds of the descriptors and the keys in every run. -/
structure Sound (x : System δ) : Prop where
  /-- The server uses epoll. -/
  epoll : x.server.epoll = true
  /-- The descriptor of a socket is open. -/
  opened : ∀ d fd, (x.sockets d).s = some fd → fd ∈ x.openFds
  /-- Two sockets have two descriptors. -/
  distinct : ∀ d d' fd, (x.sockets d).s = some fd → (x.sockets d').s = some fd → d = d'
  /-- The server knows the sockets that are open. -/
  keyed : ∀ d, .socket d ∈ x.server.keyByDispatcher ↔ (x.sockets d).s ≠ none
  /-- Only an open descriptor is registered. -/
  closed : ∀ fd, fd ∉ x.openFds → x.server.interest fd = none

namespace System

variable {x x' x'' : System δ} {d d' : δ} {events : UInt32} {fd : ℕ}

/-- A socket that is open is registered for these events, under its key. -/
def Registered (x : System δ) (d : δ) (events : UInt32) : Prop :=
  ∀ fd, (x.sockets d).s = some fd → ∃ key,
    x.server.keyByDispatcher.lookup (.socket d) = some key ∧
    x.server.interest fd = registration events key

/-- A socket that is open is registered for the events it wants, and not at all if there are
none. -/
def Mirrored (x : System δ) (d : δ) : Prop := x.Registered d (x.sockets d).epollEvents

/-- A step that leaves all descriptors and keys alone, and all sockets but one. -/
structure Touches (d : δ) (x x' : System δ) : Prop where
  epoll : x'.server.epoll = x.server.epoll
  openFds : x'.openFds = x.openFds
  keys : x'.server.keyByDispatcher = x.server.keyByDispatcher
  descriptor : (x'.sockets d).s = (x.sockets d).s
  sockets : ∀ d', d' ≠ d → x'.sockets d' = x.sockets d'
  interest : ∀ fd, (x.sockets d).s ≠ some fd → x'.server.interest fd = x.server.interest fd

namespace Touches

theorem descriptors (ht : Touches d x x') (d' : δ) : (x'.sockets d').s = (x.sockets d').s := by
  by_cases hd : d' = d
  · rw [hd, ht.descriptor]
  · rw [ht.sockets d' hd]

omit [DecidableEq δ] in
theorem trans (ht : Touches d x x') (ht' : Touches d x' x'') : Touches d x x'' where
  epoll := ht'.epoll.trans ht.epoll
  openFds := ht'.openFds.trans ht.openFds
  keys := ht'.keys.trans ht.keys
  descriptor := ht'.descriptor.trans ht.descriptor
  sockets d' hd := (ht'.sockets d' hd).trans (ht.sockets d' hd)
  interest fd hfd := (ht'.interest fd (by rwa [ht.descriptor])).trans (ht.interest fd hfd)

theorem sound (ht : Touches d x x') (hs : Sound x) : Sound x' := by
  constructor
  · rw [ht.epoll, hs.epoll]
  · intro d' fd hfd
    rw [ht.descriptors] at hfd
    rw [ht.openFds]
    exact hs.opened d' fd hfd
  · intro d₁ d₂ fd h₁ h₂
    rw [ht.descriptors] at h₁ h₂
    exact hs.distinct d₁ d₂ fd h₁ h₂
  · intro d'
    rw [ht.keys, ht.descriptors]
    exact hs.keyed d'
  · intro fd hfd
    rw [ht.openFds] at hfd
    rw [ht.interest fd fun hd => hfd (hs.opened d fd hd)]
    exact hs.closed fd hfd

theorem registered (ht : Touches d x x') (hs : Sound x) (hd : d' ≠ d)
    (hr : x.Registered d' events) : x'.Registered d' events := by
  intro fd hfd
  rw [ht.descriptors] at hfd
  rw [ht.keys, ht.interest fd fun h => hd (hs.distinct d' d fd hfd h)]
  exact hr fd hfd

end Touches

theorem touches_modify (x : System δ) (d : δ) {f : SocketDispatcher → SocketDispatcher}
    (hf : (f (x.sockets d)).s = (x.sockets d).s) : Touches d x (x.modify d f) := by
  constructor
  · rfl
  · rfl
  · rfl
  · simpa [modify] using hf
  · intro d' hd
    simp [modify, hd]
  · exact fun _ _ => rfl

theorem touches_setActive (x : System δ) (d : δ) (ps : Option (List Part)) :
    Touches d x (x.setActive d ps) :=
  ⟨rfl, rfl, rfl, rfl, fun _ _ => rfl, fun _ _ => rfl⟩

@[simp] theorem modify_sockets_self (x : System δ) (d : δ)
    (f : SocketDispatcher → SocketDispatcher) : (x.modify d f).sockets d = f (x.sockets d) :=
  Function.update_self ..

/-- A socket that is open has a key. -/
theorem Sound.lookup (hs : Sound x) (hfd : (x.sockets d).s = some fd) :
    ∃ key, x.server.keyByDispatcher.lookup (.socket d) = some key := by
  have hmem : .socket d ∈ x.server.keyByDispatcher := (hs.keyed d).mpr (by simp [hfd])
  exact Finmap.mem_iff.mp hmem

/-! ## Updates -/

/-- An update of a socket that is not open changes nothing. -/
theorem update_of_closed (hs : Sound x) (hd : (x.sockets d).s = none) : x.update d = x := by
  have hnot : .socket d ∉ x.server.keyByDispatcher := mt (hs.keyed d).mp (not_not.mpr hd)
  rw [update, Server.update_of_notMem hnot]

/-- An update of a socket that is open registers it for what it wants. -/
theorem update_of_open (hs : Sound x) (hfd : (x.sockets d).s = some fd) :
    ∃ key, x.server.keyByDispatcher.lookup (.socket d) = some key ∧
      x.update d = { x with server := { x.server with
        interest := Function.update x.server.interest fd
          (registration (x.sockets d).epollEvents key) } } := by
  obtain ⟨key, hkey⟩ := Sound.lookup hs hfd
  refine ⟨key, hkey, ?_⟩
  rw [update, hfd, Server.update_of_lookup hkey hs.epoll]
  rfl

theorem touches_update (hs : Sound x) (d : δ) :
    Touches d x (x.update d) ∧ (x.update d).sockets = x.sockets := by
  cases hfd : (x.sockets d).s with
  | none =>
    rw [update_of_closed hs hfd]
    exact ⟨⟨rfl, rfl, rfl, rfl, fun _ _ => rfl, fun _ _ => rfl⟩, rfl⟩
  | some fd =>
    obtain ⟨key, -, heq⟩ := update_of_open hs hfd
    rw [heq]
    refine ⟨⟨rfl, rfl, rfl, rfl, fun _ _ => rfl, ?_⟩, rfl⟩
    intro fd' hne
    have hfd' : fd' ≠ fd := fun h => hne (by rw [hfd, h])
    exact Function.update_of_ne hfd' _ _

theorem mirrored_update (hs : Sound x) (d : δ) : (x.update d).Mirrored d := by
  intro fd hfd
  rw [(touches_update hs d).2] at hfd
  obtain ⟨key, hkey, heq⟩ := update_of_open hs hfd
  rw [heq]
  exact ⟨key, hkey, Function.update_self ..⟩

theorem touches_maybeUpdateDispatcher (hs : Sound x) (d : δ) (oldEvents : UInt8) :
    Touches d x (x.maybeUpdateDispatcher d oldEvents) ∧
      (x.maybeUpdateDispatcher d oldEvents).sockets = x.sockets := by
  unfold maybeUpdateDispatcher
  split
  · exact touches_update hs d
  · exact ⟨⟨rfl, rfl, rfl, rfl, fun _ _ => rfl, fun _ _ => rfl⟩, rfl⟩

/-- Outside of a batch a socket ends up registered for what it wants, unless it was registered for
something else than the mask it is compared with. -/
theorem mirrored_maybeUpdateDispatcher (hs : Sound x)
    (hbatch : (x.sockets d).savedEnabledEvents = none) {oldEvents : UInt8}
    (hr : (x.sockets d).epollEvents = getEpollEvents oldEvents.toUInt32 → x.Mirrored d) :
    (x.maybeUpdateDispatcher d oldEvents).Mirrored d := by
  unfold maybeUpdateDispatcher
  by_cases heq : (x.sockets d).epollEvents = getEpollEvents oldEvents.toUInt32
  · rw [if_neg (by simp [heq])]
    exact hr heq
  · rw [if_pos ⟨heq, hbatch⟩]
    exact mirrored_update hs d

theorem maybeUpdateDispatcher_of_batch (x : System δ) {d : δ}
    (hbatch : (x.sockets d).savedEnabledEvents ≠ none) (oldEvents : UInt8) :
    x.maybeUpdateDispatcher d oldEvents = x := by
  rw [maybeUpdateDispatcher, if_neg fun h => hbatch h.2]

/-- No update reaches a socket that is not open. -/
theorem maybeUpdateDispatcher_of_closed (hnot : .socket d ∉ x.server.keyByDispatcher)
    (oldEvents : UInt8) : x.maybeUpdateDispatcher d oldEvents = x := by
  unfold maybeUpdateDispatcher
  split
  · rw [update, Server.update_of_notMem hnot]
  · rfl

theorem changeEvents_of_closed (hnot : .socket d ∉ x.server.keyByDispatcher) (f : UInt8 → UInt8) :
    x.changeEvents d f = x.modify d fun k => { k with enabledEvents := f k.enabledEvents } :=
  maybeUpdateDispatcher_of_closed (x := x.modify d _) hnot _

theorem touches_changeEvents (hs : Sound x) (d : δ) (f : UInt8 → UInt8) :
    Touches d x (x.changeEvents d f) ∧ (x.changeEvents d f).sockets =
      (x.modify d fun k => { k with enabledEvents := f k.enabledEvents }).sockets := by
  have ht : Touches d x (x.modify d fun k => { k with enabledEvents := f k.enabledEvents }) :=
    touches_modify x d rfl
  obtain ⟨ht', heq⟩ := touches_maybeUpdateDispatcher (ht.sound hs) d (x.sockets d).enabledEvents
  exact ⟨ht.trans ht', heq⟩

theorem mirrored_changeEvents (hs : Sound x) (hbatch : (x.sockets d).savedEnabledEvents = none)
    (hm : x.Mirrored d) (f : UInt8 → UInt8) : (x.changeEvents d f).Mirrored d := by
  have ht : Touches d x (x.modify d fun k => { k with enabledEvents := f k.enabledEvents }) :=
    touches_modify x d rfl
  refine mirrored_maybeUpdateDispatcher (ht.sound hs) (by simpa using hbatch) ?_
  intro heq
  rw [Mirrored, heq]
  intro fd hfd
  exact hm fd (by simpa using hfd)

theorem registered_changeEvents (hbatch : (x.sockets d).savedEnabledEvents ≠ none)
    (hr : x.Registered d events) (f : UInt8 → UInt8) :
    (x.changeEvents d f).Registered d events := by
  rw [changeEvents, maybeUpdateDispatcher_of_batch _ (by simpa using hbatch)]
  intro fd hfd
  exact hr fd (by simpa using hfd)

/-! ## Opening and closing -/

/-- A step that moves one socket leaves every other socket, and what it is registered for, alone. -/
def Spares (d : δ) (x x' : System δ) : Prop :=
  ∀ d', d' ≠ d → x'.sockets d' = x.sockets d' ∧
    ∀ events, x.Registered d' events → x'.Registered d' events

theorem Touches.spares (ht : Touches d x x') (hs : Sound x) : Spares d x x' :=
  fun d' hd => ⟨ht.sockets d' hd, fun _ hr => ht.registered hs hd hr⟩

theorem Spares.trans (h : Spares d x x') (h' : Spares d x' x'') : Spares d x x'' := by
  intro d' hd
  obtain ⟨hsockets, hr⟩ := h d' hd
  obtain ⟨hsockets', hr'⟩ := h' d' hd
  exact ⟨hsockets'.trans hsockets, fun events h => hr' events (hr events h)⟩

theorem close_of_closed (hd : (x.sockets d).s = none) : x.close d = x := by
  simp [close, hd]

theorem close_of_open (hs : Sound x) (hfd : (x.sockets d).s = some fd) :
    ∃ key, x.close d = { x with
      server := { x.server with
        keyByDispatcher := x.server.keyByDispatcher.erase (.socket d)
        dispatcherByKey := x.server.dispatcherByKey.erase key
        interest := Function.update x.server.interest fd none }
      openFds := x.openFds.erase fd
      sockets := Function.update x.sockets d
        { (x.sockets d) with
          s := none
          state := .closed
          enabledEvents := 0
          savedEnabledEvents := (x.sockets d).savedEnabledEvents.map fun _ => 0 } } := by
  obtain ⟨key, hkey⟩ := Sound.lookup hs hfd
  refine ⟨key, ?_⟩
  have hnot : .socket d ∉ x.server.keyByDispatcher.erase (.socket d) := Finmap.notMem_erase_self
  have hremove := Server.remove_of_lookup hkey hs.epoll fd
  simp only [close, hfd, remove, modify, Function.update_self, physicalClose, setEnabledEvents]
  rw [hremove, changeEvents_of_closed hnot]
  simp [modify, Server.closesocket]

theorem close_sockets (hs : Sound x) (hfd : (x.sockets d).s = some fd) :
    (x.close d).sockets d = { (x.sockets d) with
      s := none
      state := .closed
      enabledEvents := 0
      savedEnabledEvents := (x.sockets d).savedEnabledEvents.map fun _ => 0 } := by
  obtain ⟨key, heq⟩ := close_of_open hs hfd
  rw [heq]
  exact Function.update_self ..

theorem close_s (hs : Sound x) (d : δ) : ((x.close d).sockets d).s = none := by
  cases hfd : (x.sockets d).s with
  | none => rw [close_of_closed hfd, hfd]
  | some fd => rw [close_sockets hs hfd]

theorem sound_close (hs : Sound x) (d : δ) : Sound (x.close d) ∧ Spares d x (x.close d) := by
  cases hfd : (x.sockets d).s with
  | none =>
    rw [close_of_closed hfd]
    exact ⟨hs, fun d' _ => ⟨rfl, fun _ hr => hr⟩⟩
  | some fd =>
    have hnone := close_s hs d
    obtain ⟨key, heq⟩ := close_of_open hs hfd
    have hsockets : ∀ d', d' ≠ d → (x.close d).sockets d' = x.sockets d' := by
      intro d' hd
      rw [heq]
      exact Function.update_of_ne hd _ _
    have hother : ∀ {d' fd'}, d' ≠ d → (x.sockets d').s = some fd' → fd' ≠ fd := by
      rintro d' fd' hd hfd' rfl
      exact hd (hs.distinct d' d fd' hfd' hfd)
    have hopen : ∀ {d' fd'}, ((x.close d).sockets d').s = some fd' → d' ≠ d := by
      rintro d' fd' hfd' rfl
      rw [hnone] at hfd'
      cases hfd'
    refine ⟨⟨?_, ?_, ?_, ?_, ?_⟩, ?_⟩
    · rw [heq]
      exact hs.epoll
    · intro d' fd' hfd'
      have hd := hopen hfd'
      rw [hsockets d' hd] at hfd'
      rw [heq]
      exact Finset.mem_erase.mpr ⟨hother hd hfd', hs.opened d' fd' hfd'⟩
    · intro d₁ d₂ fd' h₁ h₂
      rw [hsockets d₁ (hopen h₁)] at h₁
      rw [hsockets d₂ (hopen h₂)] at h₂
      exact hs.distinct d₁ d₂ fd' h₁ h₂
    · intro d'
      by_cases hd : d' = d
      · rw [hd, hnone, heq]
        simp [Finmap.mem_erase]
      · rw [hsockets d' hd, heq]
        simpa [Finmap.mem_erase, hd] using hs.keyed d'
    · intro fd' hfd'
      rw [heq] at hfd' ⊢
      by_cases hf : fd' = fd
      · rw [hf]
        exact Function.update_self ..
      · refine (Function.update_of_ne hf _ _).trans (hs.closed fd' ?_)
        exact fun hmem => hfd' (Finset.mem_erase.mpr ⟨hf, hmem⟩)
    · intro d' hd
      refine ⟨hsockets d' hd, ?_⟩
      intro events hr fd' hfd'
      rw [hsockets d' hd] at hfd'
      obtain ⟨key', hkey', hi⟩ := hr fd' hfd'
      rw [heq]
      refine ⟨key', ?_, (Function.update_of_ne (hother hd hfd') _ _).trans hi⟩
      exact (Finmap.lookup_erase_ne (by simpa using hd)).trans hkey'

/-- A socket that is handed to the server with a descriptor that was not open is registered for
what it wants. -/
theorem sound_add (hs : Sound x) (hd : (x.sockets d).s = none) (hfd : fd ∉ x.openFds)
    {k : SocketDispatcher} (hk : k.s = some fd) :
    let x' := { x.modify d fun _ => k with openFds := insert fd x.openFds }.add d
    Sound x' ∧ Spares d x x' ∧ x'.sockets d = k ∧ x'.Mirrored d := by
  intro x'
  have hnot : .socket d ∉ x.server.keyByDispatcher := mt (hs.keyed d).mp (not_not.mpr hd)
  have hserver : x'.server = { x.server with
      nextDispatcherKey := x.server.nextDispatcherKey + 1
      dispatcherByKey := x.server.dispatcherByKey.emplace x.server.nextDispatcherKey (.socket d)
      keyByDispatcher := x.server.keyByDispatcher.emplace (.socket d) x.server.nextDispatcherKey
      interest := Function.update x.server.interest fd
        (registration k.epollEvents x.server.nextDispatcherKey) } := by
    simp only [x', add, modify, Function.update_self, hk]
    exact Server.add_of_notMem hnot hs.epoll (hs.closed fd hfd)
  have hsocket : x'.sockets d = k := Function.update_self ..
  have hsockets : ∀ d', d' ≠ d → x'.sockets d' = x.sockets d' :=
    fun d' hd' => Function.update_of_ne hd' _ _
  have hother : ∀ {d' fd'}, d' ≠ d → (x'.sockets d').s = some fd' → fd' ∈ x.openFds := by
    intro d' fd' hd' hfd'
    rw [hsockets d' hd'] at hfd'
    exact hs.opened d' fd' hfd'
  refine ⟨⟨?_, ?_, ?_, ?_, ?_⟩, ?_, hsocket, ?_⟩
  · rw [hserver]
    exact hs.epoll
  · intro d' fd' hfd'
    by_cases hd' : d' = d
    · rw [hd', hsocket, hk] at hfd'
      cases hfd'
      exact Finset.mem_insert_self _ _
    · exact Finset.mem_insert_of_mem (hother hd' hfd')
  · intro d₁ d₂ fd' h₁ h₂
    by_cases hd₁ : d₁ = d <;> by_cases hd₂ : d₂ = d
    · rw [hd₁, hd₂]
    · rw [hd₁, hsocket, hk] at h₁
      cases h₁
      exact absurd (hother hd₂ h₂) hfd
    · rw [hd₂, hsocket, hk] at h₂
      cases h₂
      exact absurd (hother hd₁ h₁) hfd
    · rw [hsockets d₁ hd₁] at h₁
      rw [hsockets d₂ hd₂] at h₂
      exact hs.distinct d₁ d₂ fd' h₁ h₂
  · intro d'
    rw [hserver, UnorderedMap.mem_emplace]
    by_cases hd' : d' = d
    · rw [hd', hsocket, hk]
      simp
    · rw [hsockets d' hd', ← hs.keyed d']
      simp [hd']
  · intro fd' hfd'
    have hmem : fd' ≠ fd ∧ fd' ∉ x.openFds := by
      simpa [not_or] using (show fd' ∉ insert fd x.openFds from hfd')
    rw [hserver]
    exact (Function.update_of_ne hmem.1 _ _).trans (hs.closed fd' hmem.2)
  · intro d' hd'
    refine ⟨hsockets d' hd', ?_⟩
    intro events hr fd' hfd'
    have hne : fd' ≠ fd := fun h => hfd (h ▸ hother hd' hfd')
    rw [hsockets d' hd'] at hfd'
    obtain ⟨key', hkey', hi⟩ := hr fd' hfd'
    rw [hserver]
    refine ⟨key', ?_, (Function.update_of_ne hne _ _).trans hi⟩
    exact (UnorderedMap.lookup_emplace_of_ne (by simpa using hd') _).trans hkey'
  · intro fd' hfd'
    rw [hsocket, hk] at hfd'
    cases hfd'
    rw [hserver, hsocket]
    exact ⟨_, UnorderedMap.lookup_emplace hnot _, Function.update_self ..⟩

/-- The socket `socket` leaves in `Create`. -/
def created (k : SocketDispatcher) (udp : Bool) (fd : Option ℕ) : SocketDispatcher :=
  { k with
    s := fd
    udp
    enabledEvents := if udp then (DE_READ ||| DE_WRITE).toUInt8 else k.enabledEvents }

theorem physicalCreate_eq (hs : Sound x) (d : δ) (udp : Bool) (fd : Option ℕ) :
    x.physicalCreate d udp fd =
      { (x.close d).modify d fun k => created k udp fd with
        openFds := fd.elim (x.close d).openFds fun fd => insert fd (x.close d).openFds } := by
  obtain ⟨hs', -⟩ := sound_close hs d
  have hnot : .socket d ∉ (x.close d).server.keyByDispatcher :=
    mt (hs'.keyed d).mp (not_not.mpr (close_s hs d))
  unfold physicalCreate
  cases udp with
  | false => rfl
  | true =>
    dsimp only
    rw [if_pos rfl]
    refine (changeEvents_of_closed ?_ _).trans ?_
    · exact hnot
    · simp [modify, created]

theorem create_none (hs : Sound x) (d : δ) (udp : Bool) :
    x.create d udp none = (x.close d).modify d fun k => created k udp none := by
  simp [create, physicalCreate_eq hs, modify, created]

theorem create_some (hs : Sound x) (d : δ) (udp : Bool) (fd : ℕ) :
    x.create d udp (some fd) =
      { (x.close d).modify d fun _ => created ((x.close d).sockets d) udp (some fd) with
        openFds := insert fd (x.close d).openFds }.add d := by
  simp [create, physicalCreate_eq hs, modify, created]

end System

/-! ## The invariant -/

/-- What a socket is registered for while it is in a batch or in none. -/
def SocketDispatcher.expected (k : SocketDispatcher) (opened : Option UInt32) : UInt32 :=
  match k.savedEnabledEvents with
  | none => k.epollEvents
  | some oldEvents => opened.getD (getEpollEvents oldEvents.toUInt32)

/-- A socket that is open is registered for what it wants or, in a batch, for what it was opened
with, or else for what was put aside. -/
def Kept (d : δ) (h : List (Observation δ)) (x : System δ) : Prop :=
  x.Registered d ((x.sockets d).expected (added d h))

/-- What holds in every run. -/
structure Inv (h : List (Observation δ)) (x : System δ) : Prop where
  sound : Sound x
  kept : ∀ d, Restores d h → Kept d h x

/-- What a step of one socket keeps. -/
structure Keeps (d : δ) (h : List (Observation δ)) (x : System δ) (out : List (Observation δ))
    (x' : System δ) : Prop where
  sound : Sound x'
  spares : System.Spares d x x'
  shows : ∀ o ∈ out, o.socket = d
  kept : Restores d (h ++ out) → Kept d h x → Kept d (h ++ out) x'

section

variable {x x' x'' : System δ} {d : δ} {h out out' : List (Observation δ)} {fd : ℕ}

theorem Keeps.inv (hk : Keeps d h x out x') (hi : Inv h x) : Inv (h ++ out) x' := by
  refine ⟨hk.sound, ?_⟩
  intro d' hr
  by_cases hd : d' = d
  · rw [hd] at hr ⊢
    exact hk.kept hr (hi.kept d hr.prefix)
  · obtain ⟨hsockets, hregistered⟩ := hk.spares d' hd
    have hadded : added d' (h ++ out) = added d' h :=
      added_append_of_ne h fun o ho => (hk.shows o ho).trans_ne (Ne.symm hd)
    rw [Kept, hsockets, hadded]
    exact hregistered _ (hi.kept d' hr.prefix)

theorem Keeps.trans (hk : Keeps d h x out x') (hk' : Keeps d (h ++ out) x' out' x'') :
    Keeps d h x (out ++ out') x'' where
  sound := hk'.sound
  spares := hk.spares.trans hk'.spares
  shows o ho := (List.mem_append.mp ho).elim (hk.shows o) (hk'.shows o)
  kept hr hkept := by
    rw [← List.append_assoc] at hr ⊢
    exact hk'.kept hr (hk.kept hr.prefix hkept)

/-- A step that shows nothing and changes nothing that the events of a socket depend on. -/
theorem keeps_modify (hs : Sound x) (d : δ) {f : SocketDispatcher → SocketDispatcher}
    (hs' : (f (x.sockets d)).s = (x.sockets d).s)
    (he : (f (x.sockets d)).enabledEvents = (x.sockets d).enabledEvents)
    (hb : (f (x.sockets d)).savedEnabledEvents = (x.sockets d).savedEnabledEvents) :
    Keeps d h x [] (x.modify d f) := by
  have ht := System.touches_modify x d hs'
  refine ⟨ht.sound hs, ht.spares hs, by simp, ?_⟩
  intro _ hk fd hfd
  rw [System.modify_sockets_self, hs'] at hfd
  have hexpected : ((x.modify d f).sockets d).expected (added d (h ++ [])) =
      (x.sockets d).expected (added d h) := by
    simp [SocketDispatcher.expected, SocketDispatcher.epollEvents, SocketDispatcher.requestedEvents,
      he, hb]
  rw [hexpected]
  exact hk fd hfd

theorem keeps_setActive (hs : Sound x) (d : δ) (ps : Option (List Part)) :
    Keeps d h x [] (x.setActive d ps) := by
  have ht := System.touches_setActive x d ps
  refine ⟨ht.sound hs, ht.spares hs, by simp, ?_⟩
  intro _ hk
  rw [List.append_nil]
  exact hk

theorem keeps_changeEvents (hs : Sound x) (d : δ) (f : UInt8 → UInt8) :
    Keeps d h x [] (x.changeEvents d f) := by
  obtain ⟨ht, hsockets⟩ := System.touches_changeEvents hs d f
  refine ⟨ht.sound hs, ht.spares hs, by simp, ?_⟩
  intro _ hk
  have hbatch : ((x.changeEvents d f).sockets d).savedEnabledEvents =
      (x.sockets d).savedEnabledEvents := by
    rw [hsockets]
    simp
  rw [List.append_nil]
  unfold Kept SocketDispatcher.expected at hk ⊢
  rw [hbatch]
  cases hsaved : (x.sockets d).savedEnabledEvents with
  | none =>
    rw [hsaved] at hk
    exact System.mirrored_changeEvents hs hsaved hk f
  | some oldEvents =>
    rw [hsaved] at hk
    exact System.registered_changeEvents (by simp [hsaved]) hk f

theorem keeps_startBatchedEventUpdates (hs : Sound x)
    (hbatch : (x.sockets d).savedEnabledEvents = none) :
    Keeps d h x [.started d] (x.startBatchedEventUpdates d) := by
  have ht : System.Touches d x (x.startBatchedEventUpdates d) := System.touches_modify x d rfl
  refine ⟨ht.sound hs, ht.spares hs, by simp [Observation.socket], ?_⟩
  intro _ hk fd hfd
  rw [ht.descriptor] at hfd
  have hexpected :
      ((x.startBatchedEventUpdates d).sockets d).expected (added d (h ++ [.started d])) =
        (x.sockets d).expected (added d h) := by
    simp [System.startBatchedEventUpdates, SocketDispatcher.expected, hbatch, Observation.socket,
      Observation.added, SocketDispatcher.epollEvents, SocketDispatcher.requestedEvents]
  rw [hexpected]
  exact hk fd hfd

/-- The end of a batch. -/
theorem keeps_finishBatchedEventUpdates (hs : Sound x) {oldEvents : UInt8}
    (hbatch : (x.sockets d).savedEnabledEvents = some oldEvents) :
    Keeps d h x [.finished d (getEpollEvents oldEvents.toUInt32) (x.sockets d).epollEvents]
      (x.finishBatchedEventUpdates d oldEvents) := by
  have ht : System.Touches d x (x.modify d fun k => { k with savedEnabledEvents := none }) :=
    System.touches_modify x d rfl
  obtain ⟨ht', hsockets⟩ := System.touches_maybeUpdateDispatcher (ht.sound hs) d oldEvents
  refine ⟨ht'.sound (ht.sound hs), (ht.trans ht').spares hs, by simp [Observation.socket], ?_⟩
  intro hr hk
  have hnone : ((x.finishBatchedEventUpdates d oldEvents).sockets d).savedEnabledEvents = none := by
    rw [System.finishBatchedEventUpdates, hsockets]
    simp
  unfold Kept SocketDispatcher.expected at hk ⊢
  rw [hnone]
  rw [hbatch] at hk
  refine System.mirrored_maybeUpdateDispatcher (ht.sound hs) (by simp) ?_
  -- no update is made, so what the socket is registered for has to be right already
  intro heq
  rw [System.modify_sockets_self] at heq
  have hevents : (x.sockets d).epollEvents = getEpollEvents oldEvents.toUInt32 := heq
  have hopened : (added d h).getD (getEpollEvents oldEvents.toUInt32) =
      (x.sockets d).epollEvents := by
    cases hadded : added d h with
    | none => exact hevents.symm
    | some events =>
      rw [← hevents] at hr
      exact hr h [] _ rfl events hadded
  have hmirrored : x.Mirrored d := by
    rw [System.Mirrored, ← hopened]
    exact hk
  intro fd hfd
  rw [System.modify_sockets_self] at hfd ⊢
  exact hmirrored fd hfd

theorem keeps_close (hs : Sound x) (d : δ) : Keeps d h x (x.showClosed d) (x.close d) := by
  obtain ⟨hs', hspares⟩ := System.sound_close hs d
  refine ⟨hs', hspares, ?_, ?_⟩
  · intro o ho
    unfold System.showClosed at ho
    split at ho
    · simp at ho
    · obtain rfl := List.mem_singleton.mp ho
      rfl
  · intro _ _ fd hfd
    rw [System.close_s hs] at hfd
    cases hfd

/-- A socket that is opened is registered for what it wants. -/
theorem keeps_add (hs : Sound x) (hd : (x.sockets d).s = none) (hfd : fd ∉ x.openFds)
    {k : SocketDispatcher} (hk : k.s = some fd) :
    let x' := { x.modify d fun _ => k with openFds := insert fd x.openFds }.add d
    Keeps d h x (x'.showOpened d) x' := by
  intro x'
  obtain ⟨hs', hspares, hsocket, hm⟩ := System.sound_add hs hd hfd hk
  have hshow : x'.showOpened d = [.opened d k.epollEvents] := by
    rw [System.showOpened, hsocket, hk]
    rfl
  rw [hshow]
  refine ⟨hs', hspares, by simp [Observation.socket], ?_⟩
  intro _ _
  have hadded : added d (h ++ [.opened d k.epollEvents]) = some k.epollEvents := by
    simp [Observation.socket, Observation.added]
  rw [System.Mirrored, hsocket] at hm
  rw [Kept, hsocket, hadded]
  unfold SocketDispatcher.expected
  split
  · exact hm
  · exact hm

theorem keeps_create (hs : Sound x) (d : δ) (udp : Bool) {fd : Option ℕ}
    (hfd : ∀ f ∈ fd, f ∉ (x.close d).openFds) :
    Keeps d h x (x.showClosed d ++ (x.create d udp fd).showOpened d) (x.create d udp fd) := by
  have hs' := (System.sound_close hs d).1
  have hnone := System.close_s hs d
  refine (keeps_close hs d).trans ?_
  cases fd with
  | none =>
    rw [System.create_none hs]
    have ht := System.touches_modify (x.close d) d
      (f := fun k => System.created k udp none) (by simp [System.created, hnone])
    have hshow : ((x.close d).modify d fun k => System.created k udp none).showOpened d = [] := by
      simp [System.showOpened, System.created]
    rw [hshow]
    refine ⟨ht.sound hs', ht.spares hs', by simp, ?_⟩
    intro _ _ fd' hfd'
    simp [System.created] at hfd'
  | some fd =>
    rw [System.create_some hs]
    exact keeps_add hs' hnone (hfd fd rfl) rfl

theorem keeps_delete (hs : Sound x) (d : δ) :
    Keeps d h x (x.showClosed d) ((x.close d).modify d fun _ => .initial) := by
  have hs' := (System.sound_close hs d).1
  have hnone := System.close_s hs d
  have ht := System.touches_modify (x.close d) d (f := fun _ => .initial) hnone.symm
  have hk : Keeps d (h ++ x.showClosed d) (x.close d) []
      ((x.close d).modify d fun _ => .initial) := by
    refine ⟨ht.sound hs', ht.spares hs', by simp, ?_⟩
    intro _ _ fd hfd
    simp [SocketDispatcher.initial] at hfd
  simpa using (keeps_close hs d).trans hk

theorem keeps_onEvent (hs : Sound x) (hbatch : (x.sockets d).savedEnabledEvents = none)
    (ff : UInt32) :
    Keeps d h x [.started d]
      (((x.setState d ff).startBatchedEventUpdates d).setActive d (some (parts ff))) := by
  have h₁ : Keeps d h x [] (x.setState d ff) := keeps_modify hs d rfl rfl rfl
  have hbatch₁ : ((x.setState d ff).sockets d).savedEnabledEvents = none := by
    simpa [System.setState] using hbatch
  have h₂ := h₁.trans (keeps_startBatchedEventUpdates h₁.sound hbatch₁)
  simpa using h₂.trans (keeps_setActive h₂.sound d (some (parts ff)))

theorem keeps_disableEvents (hs : Sound x) (d : δ) (events : UInt8) :
    Keeps d h x [] (x.disableEvents d events) := keeps_changeEvents hs d _

theorem keeps_part (hs : Sound x) (d : δ) (p : Part) : Keeps d h x [] (x.part d p) := by
  cases p with
  | connect => exact keeps_disableEvents hs d _
  | accept => exact keeps_disableEvents hs d _
  | read => exact keeps_disableEvents hs d _
  | write => exact keeps_disableEvents hs d _
  | close => exact keeps_changeEvents hs d fun _ => 0

/-- **One step.** Every action is about one socket, and keeps what that socket is registered for. -/
theorem keeps_step (hs : Sound x) {a : Action δ} (hst : x.step a = some (x', out)) :
    ∃ d, Keeps d h x out x' := by
  cases a with
  | create d udp fd =>
    simp only [System.step] at hst
    split at hst
    · rename_i hfd
      cases hst
      exact ⟨d, keeps_create hs d udp hfd⟩
    · cases hst
  | wrapSocket d udp fd =>
    simp only [System.step] at hst
    split at hst
    · rename_i hg
      cases hst
      have hnone : (x.sockets d).s = none := by rw [hg.1]; rfl
      exact ⟨d, keeps_add hs hnone hg.2.2 rfl⟩
    · cases hst
  | close d =>
    cases hst
    exact ⟨d, keeps_close hs d⟩
  | delete d =>
    simp only [System.step] at hst
    split at hst
    · cases hst
      exact ⟨d, keeps_delete hs d⟩
    · cases hst
  | setEnabledEvents d events =>
    cases hst
    exact ⟨d, keeps_changeEvents hs d _⟩
  | enableEvents d events =>
    cases hst
    exact ⟨d, keeps_changeEvents hs d _⟩
  | disableEvents d events =>
    cases hst
    exact ⟨d, keeps_changeEvents hs d _⟩
  | startBatchedEventUpdates d =>
    simp only [System.step] at hst
    split at hst
    · rename_i hbatch
      cases hst
      exact ⟨d, keeps_startBatchedEventUpdates hs hbatch⟩
    · cases hst
  | finishBatchedEventUpdates d =>
    simp only [System.step] at hst
    split at hst
    · rename_i hbatch _
      cases hst
      exact ⟨d, keeps_finishBatchedEventUpdates hs hbatch⟩
    · cases hst
  | onEvent d ff =>
    simp only [System.step] at hst
    split at hst
    · rename_i hbatch
      cases hst
      exact ⟨d, keeps_onEvent hs hbatch.1 ff⟩
    · cases hst
  | resume d =>
    simp only [System.step] at hst
    split at hst
    · rename_i p ps _
      cases hst
      have hk : Keeps d h x [] (x.part d p) := keeps_part hs d p
      exact ⟨d, hk.trans (keeps_setActive hk.sound d (some ps))⟩
    · obtain ⟨oldEvents, hbatch, heq⟩ := Option.map_eq_some_iff.mp hst
      cases heq
      have hk := keeps_finishBatchedEventUpdates (h := h) hs hbatch
      exact ⟨d, hk.trans (keeps_setActive hk.sound d none)⟩
    · cases hst

end

/-! ## Every run -/

theorem inv_initial (fd : ℕ) {fds : Finset ℕ} (hfd : fd ∈ fds) :
    Inv [] (System.initial (δ := δ) fd fds) := by
  have hserver := @Server.add_of_notMem _ _ (Server.empty true) (Dispatcher.signalWakeup (δ := δ))
    fd DE_READ Finmap.notMem_empty rfl rfl
  change (System.initial (δ := δ) fd fds).server = _ at hserver
  have hnone : ∀ d, ((System.initial (δ := δ) fd fds).sockets d).s = none := fun _ => rfl
  refine ⟨⟨?_, ?_, ?_, ?_, ?_⟩, ?_⟩
  · rw [hserver]
    rfl
  · intro d fd' h
    rw [hnone] at h
    cases h
  · intro d d' fd' h
    rw [hnone] at h
    cases h
  · intro d
    rw [hserver, hnone]
    refine iff_of_false ?_ (not_not.mpr rfl)
    intro hmem
    rcases UnorderedMap.mem_emplace.mp hmem with h | h
    · cases h
    · exact Finmap.notMem_empty h
  · intro fd' h
    have hne : fd' ≠ fd := fun heq => h (heq ▸ hfd)
    rw [hserver]
    exact Function.update_of_ne hne _ _
  · intro d _ fd' h
    rw [hnone] at h
    cases h

theorem inv {h : List (Observation δ)} {x : System δ} (hr : (sockets δ).Reaches h x) : Inv h x := by
  refine hr.induction Inv ?_ ?_
  · rintro _ ⟨fd, fds, hfd, rfl⟩
    exact inv_initial fd hfd
  · intro h x a x' out hi _ hst
    obtain ⟨d, hk⟩ := keeps_step hi.sound hst
    exact hk.inv hi

/-- **Outside of batches the interest list mirrors the masks**, in every run in which a batch that
ends with the events it compares with has not opened the socket for anything else. -/
theorem mirrored {h : List (Observation δ)} {x : System δ} (hr : (sockets δ).Reaches h x) {d : δ}
    (hrestores : Restores d h) (hbatch : (x.sockets d).savedEnabledEvents = none) :
    x.Mirrored d := by
  have hk := (inv hr).kept d hrestores
  unfold Kept SocketDispatcher.expected at hk
  rw [hbatch] at hk
  exact hk

/-- The condition is exact: a batch that ends with the events it compares with, as the first to
break the mirror, breaks it if and only if it has opened the socket for something else. -/
theorem mirrored_finishBatchedEventUpdates_iff {h : List (Observation δ)} {x : System δ}
    (hr : (sockets δ).Reaches h x) {d : δ} (hrestores : Restores d h) {fd : ℕ}
    (hfd : (x.sockets d).s = some fd) {oldEvents : UInt8}
    (hbatch : (x.sockets d).savedEnabledEvents = some oldEvents)
    (heq : (x.sockets d).epollEvents = getEpollEvents oldEvents.toUInt32) :
    (x.finishBatchedEventUpdates d oldEvents).Mirrored d ↔
      ∀ events, added d h = some events → events = (x.sockets d).epollEvents := by
  have hk := (inv hr).kept d hrestores
  unfold Kept SocketDispatcher.expected at hk
  rw [hbatch] at hk
  obtain ⟨key, hkey, hi⟩ := hk fd hfd
  -- no update is made
  have hfinish : x.finishBatchedEventUpdates d oldEvents =
      x.modify d fun k => { k with savedEnabledEvents := none } := by
    rw [System.finishBatchedEventUpdates, System.maybeUpdateDispatcher, if_neg]
    rw [System.modify_sockets_self]
    exact fun hne => hne.1 heq
  have hmirrored : (x.finishBatchedEventUpdates d oldEvents).Mirrored d ↔
      x.server.interest fd = registration (x.sockets d).epollEvents key := by
    rw [hfinish, System.Mirrored, System.modify_sockets_self]
    constructor
    · intro hm
      obtain ⟨key', hkey', hi'⟩ := hm fd (by simpa using hfd)
      obtain rfl : key = key' := Option.some.inj (hkey.symm.trans hkey')
      exact hi'
    · intro hi' fd' hfd'
      rw [System.modify_sockets_self] at hfd'
      obtain rfl : fd = fd' := Option.some.inj (hfd.symm.trans hfd')
      exact ⟨key, hkey, hi'⟩
  rw [hmirrored, hi, registration_inj]
  cases hadded : added d h with
  | none => simp [heq]
  | some events => simp

/-- A handler of `OnEvent` that opens its socket again, which stays registered. -/
theorem mirrored_run : ∃ h, ∃ x : System Unit, (sockets Unit).Reaches h x ∧
    h = [.opened () (EPOLLIN ||| EPOLLOUT), .started (), .closed (),
      .opened () (EPOLLIN ||| EPOLLOUT), .finished () 0 (EPOLLIN ||| EPOLLOUT)] ∧
    x.Mirrored () := by
  obtain ⟨h, x, hex, hh, hbatch⟩ : ∃ h x, (sockets Unit).exec (System.initial 3 {3})
      [.create () true (some 5), .onEvent () DE_READ, .resume (), .create () true (some 5),
        .resume ()] = some (x, h) ∧
      h = [.opened () (EPOLLIN ||| EPOLLOUT), .started (), .closed (),
        .opened () (EPOLLIN ||| EPOLLOUT), .finished () 0 (EPOLLIN ||| EPOLLOUT)] ∧
      (x.sockets ()).savedEnabledEvents = none := ⟨_, _, rfl, rfl, rfl⟩
  have hr : (sockets Unit).Reaches h x := .of_exec ⟨3, {3}, by decide, rfl⟩ hex
  refine ⟨h, x, hr, hh, mirrored hr ?_ hbatch⟩
  intro h₁ h₂ events heq
  rw [hh] at heq
  simp [List.cons_eq_append_iff] at heq
  obtain ⟨-, ⟨rfl, hevents⟩, -⟩ := heq
  exact absurd hevents (by decide)

/-- **A registration that outlives the mask.** `OnEvent` is told that the socket is writable and
closed. The handler of the write opens it again, as a UDP socket, and then all its events are
disabled. -/
theorem stale_registration : ∃ h, ∃ x : System Unit, (sockets Unit).Reaches h x ∧
    x.active () = none ∧ (x.sockets ()).savedEnabledEvents = none ∧ ¬ x.Mirrored () := by
  obtain ⟨h, x, hex, ha, hbatch, hfd, hmask, hi⟩ : ∃ h x, (sockets Unit).exec (System.initial 3 {3})
      [.create () true (some 5), .onEvent () (DE_WRITE ||| DE_CLOSE), .resume (),
        .create () true (some 5), .resume (), .resume ()] = some (x, h) ∧
      x.active () = none ∧ (x.sockets ()).savedEnabledEvents = none ∧
      (x.sockets ()).s = some 5 ∧ (x.sockets ()).epollEvents = 0 ∧
      x.server.interest 5 = some ⟨EPOLLIN ||| EPOLLOUT, 2⟩ :=
    ⟨_, _, rfl, rfl, rfl, rfl, rfl, rfl⟩
  refine ⟨h, x, .of_exec ⟨3, {3}, by decide, rfl⟩ hex, ha, hbatch, ?_⟩
  intro hm
  obtain ⟨key, -, hregistered⟩ := hm 5 hfd
  rw [hi, hmask] at hregistered
  cases hregistered

end PhysicalSocketServer

end TQLib
