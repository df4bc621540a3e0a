import TQLib.PhysicalSocketServer.Wait

/-!
# Events reach the dispatcher they were collected for

What is recorded of an event is the key of a dispatcher, or a descriptor in one of the sets of
`select`. Keys are counted up, so a key that was handed out before an event was collected is not
handed out again, whatever has been removed and added in between, and at whatever address. The one
who is found under the key is therefore the one the event was collected for, or nobody is.

The count is kept on 64 bits. Once `2 ^ 64` dispatchers have been added it comes back to the key of
`signal_wakeup_`, which is still in use.

## Main results

* `delivery_law` — while at most `2 ^ 64` dispatchers have been added, the two maps are each other's
  inverse, no key has been handed out twice, and events reach the dispatcher they were collected for
* `key_reused` — the addition that comes after
-/

namespace TQLib

namespace PhysicalSocketServer

variable {π δ : Type*}

/-! ## The server -/

/-- The kernel knows no key but those it knew, and this one. -/
def Interest.Learns (key : UInt64) (i i' : Interest) : Prop :=
  ∀ fd event, i' fd = some event → i fd = some event ∨ event.key = key

theorem Interest.learns_update (i : Interest) (fd : ℕ) (events : UInt32) (key : UInt64) :
    Interest.Learns key i (Function.update i fd (registration events key)) := by
  intro fd' event h
  rcases update_cases h with ⟨-, heq⟩ | ⟨-, h⟩
  · unfold registration at heq
    split at heq
    · cases heq
    · cases heq
      exact .inr rfl
  · exact .inl h

namespace Server

theorem addEpoll_learns (s : Server π) (fd : Option ℕ) (ff : UInt32) (key : UInt64) :
    ∃ i, s.addEpoll fd ff key = { s with interest := i } ∧ Interest.Learns key s.interest i := by
  cases fd with
  | none => exact ⟨s.interest, rfl, fun _ _ h => .inl h⟩
  | some fd =>
    by_cases hfd : s.interest fd = none
    · exact ⟨_, addEpoll_of_none hfd ff key, Interest.learns_update _ _ _ _⟩
    · refine ⟨s.interest, ?_, fun _ _ h => .inl h⟩
      simp [addEpoll, Interest.ctlAdd, hfd]

theorem updateEpoll_learns (s : Server π) (fd : Option ℕ) (ff : UInt32) (key : UInt64) :
    ∃ i, s.updateEpoll fd ff key = { s with interest := i } ∧ Interest.Learns key s.interest i := by
  cases fd with
  | none => exact ⟨s.interest, rfl, fun _ _ h => .inl h⟩
  | some fd => exact ⟨_, updateEpoll_some s fd ff key, Interest.learns_update _ _ _ _⟩

theorem interest_update_none {i : Interest} {fd fd' : ℕ} {event : EpollEvent}
    (h : Function.update i fd none fd' = some event) : i fd' = some event := by
  rcases update_cases h with ⟨-, heq⟩ | ⟨-, h⟩
  · cases heq
  · exact h

theorem removeEpoll_forgets (s : Server π) (fd : Option ℕ) :
    ∃ i, s.removeEpoll fd = { s with interest := i } ∧
      ∀ fd' event, i fd' = some event → s.interest fd' = some event := by
  cases fd with
  | none => exact ⟨s.interest, rfl, fun _ _ h => h⟩
  | some fd => exact ⟨_, removeEpoll_some s fd, fun _ _ h => interest_update_none h⟩

variable [DecidableEq π]

/-- A server whose keys are all below a count. -/
structure Numbered (n : ℕ) (s : Server π) : Prop where
  /-- The keys that are in use. -/
  keys : ∀ key p, s.dispatcherByKey.lookup key = some p → key.toNat < n
  /-- The two maps are each other's inverse. -/
  inverse : Inverse s.dispatcherByKey s.keyByDispatcher
  /-- The keys the kernel knows. -/
  interest : ∀ fd event, s.interest fd = some event → event.key.toNat < n

variable {s : Server π} {n : ℕ} {p : π} {key : UInt64}

/-- What `Add` does to the maps, whether or not there is an epoll instance. -/
theorem add_maps (hp : p ∉ s.keyByDispatcher) (fd : Option ℕ) (ff : UInt32) :
    (s.add p fd ff).nextDispatcherKey = s.nextDispatcherKey + 1 ∧
    (s.add p fd ff).dispatcherByKey = s.dispatcherByKey.emplace s.nextDispatcherKey p ∧
    (s.add p fd ff).keyByDispatcher = s.keyByDispatcher.emplace p s.nextDispatcherKey ∧
    Interest.Learns s.nextDispatcherKey s.interest (s.add p fd ff).interest := by
  rw [add, if_neg hp]
  dsimp only
  split
  · obtain ⟨i, heq, hi⟩ := addEpoll_learns { s with
      nextDispatcherKey := s.nextDispatcherKey + 1
      dispatcherByKey := s.dispatcherByKey.emplace s.nextDispatcherKey p
      keyByDispatcher := s.keyByDispatcher.emplace p s.nextDispatcherKey } fd ff
        s.nextDispatcherKey
    rw [heq]
    exact ⟨rfl, rfl, rfl, hi⟩
  · exact ⟨rfl, rfl, rfl, fun _ _ h => .inl h⟩

theorem add_of_mem (hp : p ∈ s.keyByDispatcher) (fd : Option ℕ) (ff : UInt32) :
    s.add p fd ff = s := if_pos hp

/-- What `Remove` does to the maps. -/
theorem remove_maps (hp : s.keyByDispatcher.lookup p = some key) (fd : Option ℕ) :
    (s.remove p fd).nextDispatcherKey = s.nextDispatcherKey ∧
    (s.remove p fd).dispatcherByKey = s.dispatcherByKey.erase key ∧
    (s.remove p fd).keyByDispatcher = s.keyByDispatcher.erase p ∧
    ∀ fd' event, (s.remove p fd).interest fd' = some event → s.interest fd' = some event := by
  simp only [remove, hp]
  split
  · obtain ⟨i, heq, hi⟩ := removeEpoll_forgets { s with
      keyByDispatcher := s.keyByDispatcher.erase p
      dispatcherByKey := s.dispatcherByKey.erase key } fd
    rw [heq]
    exact ⟨rfl, rfl, rfl, hi⟩
  · exact ⟨rfl, rfl, rfl, fun _ _ h => h⟩

theorem remove_of_none (hp : s.keyByDispatcher.lookup p = none) (fd : Option ℕ) :
    s.remove p fd = s := by
  simp [remove, hp]

/-- `Update` leaves the maps alone. -/
theorem update_maps (s : Server π) (p : π) (fd : Option ℕ) (ff : UInt32) :
    ∃ i, s.update p fd ff = { s with interest := i } ∧
      ∀ fd' event, i fd' = some event → s.interest fd' = some event ∨
        s.keyByDispatcher.lookup p = some event.key := by
  unfold update
  split
  · cases hp : s.keyByDispatcher.lookup p with
    | none => exact ⟨s.interest, rfl, fun _ _ h => .inl h⟩
    | some key =>
      obtain ⟨i, heq, hi⟩ := updateEpoll_learns s fd ff key
      refine ⟨i, heq, fun fd' event h => (hi fd' event h).imp_right fun hkey => ?_⟩
      rw [hkey]
  · exact ⟨s.interest, rfl, fun _ _ h => .inl h⟩

namespace Numbered

/-- A key that is a count is new to a server whose keys are below it. -/
theorem notMem (hs : Numbered n s) (hkey : n ≤ key.toNat) : key ∉ s.dispatcherByKey := by
  intro hmem
  obtain ⟨p, hp⟩ := Finmap.mem_iff.mp hmem
  exact absurd (hs.keys key p hp) (by omega)

theorem add (hs : Numbered n s) (hp : p ∉ s.keyByDispatcher)
    (hnext : s.nextDispatcherKey.toNat = n) (fd : Option ℕ) (ff : UInt32) :
    Numbered (n + 1) (s.add p fd ff) := by
  obtain ⟨-, hby, hkeys, hi⟩ := add_maps hp fd ff
  have hnew := hs.notMem hnext.ge
  refine ⟨?_, ?_, ?_⟩
  · intro key p' h
    rw [hby] at h
    by_cases hkey : key = s.nextDispatcherKey
    · rw [hkey, hnext]
      omega
    · rw [UnorderedMap.lookup_emplace_of_ne hkey] at h
      have := hs.keys key p' h
      omega
  · rw [hby, hkeys]
    exact hs.inverse.emplace hnew hp
  · intro fd' event h
    rcases hi fd' event h with h | h
    · have := hs.interest fd' event h
      omega
    · rw [h, hnext]
      omega

theorem remove (hs : Numbered n s) (p : π) (fd : Option ℕ) : Numbered n (s.remove p fd) := by
  cases hp : s.keyByDispatcher.lookup p with
  | none => rwa [remove_of_none hp]
  | some key =>
    obtain ⟨-, hby, hkeys, hi⟩ := remove_maps hp fd
    refine ⟨?_, ?_, ?_⟩
    · intro key' p' h
      rw [hby] at h
      by_cases hkey : key' = key
      · rw [hkey, Finmap.lookup_erase] at h
        cases h
      · rw [Finmap.lookup_erase_ne hkey] at h
        exact hs.keys key' p' h
    · rw [hby, hkeys]
      exact hs.inverse.erase ((hs.inverse key p).mpr hp)
    · exact fun fd' event h => hs.interest fd' event (hi fd' event h)

theorem update (hs : Numbered n s) (p : π) (fd : Option ℕ) (ff : UInt32) :
    Numbered n (s.update p fd ff) := by
  obtain ⟨i, heq, hi⟩ := update_maps s p fd ff
  rw [heq]
  refine ⟨hs.keys, hs.inverse, ?_⟩
  intro fd' event h
  rcases hi fd' event h with h | h
  · exact hs.interest fd' event h
  · exact hs.keys event.key p ((hs.inverse _ _).mpr h)

theorem closesocket (hs : Numbered n s) (fd : ℕ) : Numbered n (s.closesocket fd) :=
  ⟨hs.keys, hs.inverse, fun fd' event h => hs.interest fd' event (interest_update_none h)⟩

end Numbered

end Server

variable [DecidableEq δ]

/-! ## Histories -/

/-- A server after its construction, as a registry. -/
def constructed : Registry UInt64 (Dispatcher δ) where
  live := Function.update (fun _ => none) 0 (some .signalWakeup)
  used := {0}

omit [DecidableEq δ] in
theorem constructed_live {key : UInt64} (hkey : key ≠ 0) :
    (constructed : Registry UInt64 (Dispatcher δ)).live key = none := by
  simp [constructed, hkey]

/-- How many keys have been handed out, that of `signal_wakeup_` included. -/
def keyCount (h : List (Notice δ)) : ℕ := (h.filterMap Registry.added?).length + 1

/-- What `Wait` has on its hands: keys that have been handed out, and only reports that were
collected. -/
def Pending (h : List (Notice δ)) (x : Loop δ) : Prop :=
  match x.waiting with
  | .select _ keys _ _ => ∀ key ∈ keys, key.toNat < keyCount h
  | .selected _ keys fdsRead fdsWrite => ∀ key ∈ keys, key.toNat < keyCount h ∧
      (x.reported (fdsRead ∪ fdsWrite) key → .collected key ∈ h)
  | .epolled events => ∀ event ∈ events, .collected event.key ∈ h
  | .polled (some _) => .collected 0 ∈ h
  | _ => True

/-- What holds of a server while no key has been handed out twice. -/
structure Keyed (h : List (Notice δ)) (x : Loop δ) : Prop where
  /-- The next key is the count, on 64 bits. -/
  next : x.server.nextDispatcherKey.toNat = keyCount h % 2 ^ 64
  /-- All keys are below the count. -/
  numbered : x.server.Numbered (keyCount h)
  /-- `signal_wakeup_` stays. -/
  wakeup : x.dispatcher 0 = some .signalWakeup
  /-- The history is that of a registry. -/
  lawful : constructed.Lawful h
  /-- The server finds under a key who is registered. -/
  live : constructed.registered h = x.dispatcher
  /-- The keys below the count have been handed out. -/
  handedOut : ∀ key : UInt64, constructed.handedOut h key ↔ key.toNat < keyCount h
  /-- What `Wait` has on its hands. -/
  pending : Pending h x

omit [DecidableEq δ] in
theorem keyCount_append (h out : List (Notice δ)) :
    keyCount (h ++ out) = keyCount h + (out.filterMap Registry.added?).length := by
  rw [keyCount, List.filterMap_append, List.length_append, keyCount]
  omega

omit [DecidableEq δ] in
/-- An event that adds nobody hands out no key. -/
theorem keyCount_snoc {h : List (Notice δ)} {e : Notice δ} (he : Registry.added? e = none) :
    keyCount (h ++ [e]) = keyCount h := by
  rw [keyCount_append, List.filterMap_cons_none he]
  rfl

section

variable {x x' : Loop δ} {h : List (Notice δ)} {e : Notice δ} {key : UInt64} {p : Dispatcher δ}
  {d : δ}

omit [DecidableEq δ] in
/-- A key is reported when the descriptor of the dispatcher found under it is in the sets. -/
theorem reported_iff {fds : Finset ℕ} : x.reported fds key = true ↔
    ∃ p, x.dispatcher key = some p ∧ ∃ fd, x.descriptor p = some fd ∧ fd ∈ fds := by
  simp only [Loop.reported, Option.any_eq_true, decide_eq_true_eq]

omit [DecidableEq δ] in
/-- What is reported depends on the dispatcher that is found and on its descriptor. -/
theorem reported_mono {fds : Finset ℕ} (hd : ∀ p, x'.dispatcher key = some p →
    x.dispatcher key = some p ∧ x'.descriptor p = x.descriptor p)
    (hr : x'.reported fds key) : x.reported fds key := by
  obtain ⟨p, hp, fd, hfd, hmem⟩ := reported_iff.mp hr
  obtain ⟨hp', heq⟩ := hd p hp
  exact reported_iff.mpr ⟨p, hp', fd, heq ▸ hfd, hmem⟩

omit [DecidableEq δ] in
/-- What others do meanwhile to the dispatchers does not invalidate what `Wait` has on its hands. -/
theorem Pending.mono (hp : Pending h x) (hw : x'.waiting = x.waiting)
    (hd : ∀ key : UInt64, key.toNat < keyCount h → ∀ p, x'.dispatcher key = some p →
      x.dispatcher key = some p ∧ x'.descriptor p = x.descriptor p) (out : List (Notice δ)) :
    Pending (h ++ out) x' := by
  have hle : keyCount h ≤ keyCount (h ++ out) := by
    rw [keyCount_append]
    omega
  unfold Pending at hp ⊢
  rw [hw]
  cases hwaiting : x.waiting with
  | select processIo keys fdsRead fdsWrite =>
    rw [hwaiting] at hp
    intro key hkey
    exact (hp key hkey).trans_le hle
  | selected processIo keys fdsRead fdsWrite =>
    rw [hwaiting] at hp
    intro key hkey
    obtain ⟨hlt, hcollected⟩ := hp key hkey
    refine ⟨hlt.trans_le hle, fun hr => List.mem_append_left _ (hcollected ?_)⟩
    exact reported_mono (hd key hlt) hr
  | epolled events =>
    rw [hwaiting] at hp
    exact fun event he => List.mem_append_left _ (hp event he)
  | polled revents =>
    rw [hwaiting] at hp
    cases revents with
    | none => trivial
    | some revents => exact List.mem_append_left _ hp
  | idle => trivial
  | head backend => trivial

/-- What `Wait` has on its hands where it is known to be. -/
theorem Keyed.pending_at (hs : Keyed h x) {waiting : Waiting} (hw : x.waiting = waiting) :
    Pending h { x with waiting } := by
  subst hw
  exact hs.pending

/-- A step that shows nothing and leaves the maps alone. -/
theorem Keyed.quiet (hs : Keyed h x)
    (hnext : x'.server.nextDispatcherKey = x.server.nextDispatcherKey)
    (hby : x'.server.dispatcherByKey = x.server.dispatcherByKey)
    (hn : x'.server.Numbered (keyCount h)) (hp : Pending h x') : Keyed h x' := by
  have hd : x'.dispatcher = x.dispatcher := by
    funext key
    rw [Loop.dispatcher, hby]
    rfl
  exact ⟨hnext ▸ hs.next, hn, hd ▸ hs.wakeup, hs.lawful, hd ▸ hs.live, hs.handedOut, hp⟩

/-- A step that shows that something is collected or delivered and leaves the server alone. -/
theorem Keyed.snoc (hs : Keyed h x) (hserver : x'.server = x.server)
    (he : Registry.added? e = none) (hlive : ∀ live, Registry.apply live e = live)
    (ha : constructed.Allowed h e) (hp : Pending (h ++ [e]) x') : Keyed (h ++ [e]) x' := by
  have hd : x'.dispatcher = x.dispatcher := by
    funext key
    rw [Loop.dispatcher, hserver]
    rfl
  have hcount := keyCount_snoc (h := h) he
  refine ⟨?_, ?_, hd ▸ hs.wakeup, hs.lawful.snoc ha, ?_, ?_, hp⟩
  · rw [hserver, hcount]
    exact hs.next
  · rw [hserver, hcount]
    exact hs.numbered
  · rw [Registry.registered_snoc, hlive, hd]
    exact hs.live
  · intro key
    rw [hcount, ← hs.handedOut key, Registry.handedOut_append, List.filterMap_cons_none he]
    simp

/-- Keys that have been handed out may be collected for. -/
theorem Keyed.collects (hs : Keyed h x) (keys : List UInt64)
    (hkeys : ∀ key ∈ keys, key.toNat < keyCount h) :
    Keyed (h ++ keys.map .collected) x ∧ keyCount (h ++ keys.map .collected) = keyCount h := by
  induction keys using List.reverseRecOn with
  | nil => simpa using hs
  | append_singleton keys key ih =>
    obtain ⟨hs', hcount⟩ := ih fun key hkey => hkeys key (by simp [hkey])
    rw [List.map_append, ← List.append_assoc]
    have hlt : key.toNat < keyCount (h ++ keys.map .collected) := by
      rw [hcount]
      exact hkeys key (by simp)
    refine ⟨?_, (keyCount_snoc rfl).trans hcount⟩
    exact hs'.snoc rfl rfl (fun _ => rfl) ((hs'.handedOut key).mpr hlt)
      (hs'.pending.mono rfl (fun _ _ _ hp => ⟨hp, rfl⟩) _)

/-- `OnEvent` is called of the dispatcher that is found under a key. -/
theorem Keyed.onEvent (hs : Keyed h x) (hd : x.dispatcher key = some p) {ff : UInt32}
    (hcollected : ff ≠ 0 → .collected key ∈ h) {waiting : Waiting}
    (hp : Pending h { x with waiting }) :
    Keyed (h ++ ({ x with waiting }.onEvent key p ff).2)
      ({ x with waiting }.onEvent key p ff).1 := by
  unfold Loop.onEvent
  split
  · rw [List.append_nil]
    exact hs.quiet rfl rfl hs.numbered hp
  · rename_i hff
    refine hs.snoc rfl rfl (fun _ => rfl) ⟨?_, hcollected hff⟩ ?_
    · rw [hs.live, hd]
    · exact hp.mono rfl (fun _ _ _ hp => ⟨hp, rfl⟩) _

/-! ## One step -/

/-- A dispatcher that the server does not know is found under no key. -/
theorem Keyed.dispatcher_ne (hs : Keyed h x) (hp : p ∉ x.server.keyByDispatcher) (key : UInt64) :
    x.dispatcher key ≠ some p :=
  fun hd => hp (hs.numbered.inverse.mem hd)

theorem Keyed.add (hs : Keyed h x) (hd : .socket d ∉ x.server.keyByDispatcher)
    (hlt : keyCount h < 2 ^ 64) (fd : Option ℕ) (ff : UInt32) :
    Keyed (h ++ [.added x.server.nextDispatcherKey (.socket d)])
      { x with server := x.server.add (.socket d) fd ff } := by
  have hnext : x.server.nextDispatcherKey.toNat = keyCount h := by
    rw [hs.next, Nat.mod_eq_of_lt hlt]
  obtain ⟨hkey, hby, -, -⟩ := Server.add_maps hd fd ff
  have hnew := hs.numbered.notMem hnext.ge
  have hcount : keyCount (h ++ [.added x.server.nextDispatcherKey (.socket d)]) = keyCount h + 1 :=
    keyCount_append ..
  have hfound : ∀ key, key ≠ x.server.nextDispatcherKey →
      (x.server.add (.socket d) fd ff).dispatcherByKey.lookup key = x.dispatcher key := by
    intro key hkey
    rw [hby, UnorderedMap.lookup_emplace_of_ne hkey]
    rfl
  refine ⟨?_, ?_, ?_, ?_, ?_, ?_, ?_⟩
  · rw [hcount, hkey, UInt64.toNat_add, hnext]
    rfl
  · rw [hcount]
    exact hs.numbered.add hd hnext fd ff
  · have hzero : (0 : UInt64) ≠ x.server.nextDispatcherKey := by
      intro heq
      rw [← heq, keyCount] at hnext
      cases hnext
    exact (hfound 0 hzero).trans hs.wakeup
  · refine hs.lawful.snoc ?_
    intro hout
    have hlt := (hs.handedOut _).mp hout
    omega
  · rw [Registry.registered_snoc, hs.live]
    funext key
    by_cases hkey : key = x.server.nextDispatcherKey
    · rw [hkey, Registry.apply, Function.update_self, Loop.dispatcher, hby]
      exact (UnorderedMap.lookup_emplace hnew _).symm
    · rw [Registry.apply, Function.update_of_ne hkey]
      exact (hfound key hkey).symm
  · intro key
    rw [Registry.handedOut_append, hs.handedOut, hcount]
    have hiff : key = x.server.nextDispatcherKey ↔ key.toNat = keyCount h := by
      rw [← hnext, UInt64.toNat_inj]
    simp [hiff]
    omega
  · refine Pending.mono (x := x) hs.pending ?_ ?_ _
    · rfl
    intro key hkeylt p hp
    have hkey : key ≠ x.server.nextDispatcherKey := by
      rintro rfl
      omega
    exact ⟨(hfound key hkey).symm.trans hp, rfl⟩

theorem Keyed.remove (hs : Keyed h x)
    (hkey : x.server.keyByDispatcher.lookup (.socket d) = some key) (fd : Option ℕ) :
    Keyed (h ++ [.removed key]) { x with server := x.server.remove (.socket d) fd } := by
  obtain ⟨hnext, hby, -, -⟩ := Server.remove_maps hkey fd
  have hd : x.dispatcher key = some (.socket d) := (hs.numbered.inverse key _).mpr hkey
  have hcount : keyCount (h ++ [.removed key]) = keyCount h := keyCount_snoc rfl
  have hfound : ∀ key', key' ≠ key →
      (x.server.remove (.socket d) fd).dispatcherByKey.lookup key' = x.dispatcher key' := by
    intro key' hne
    rw [hby, Finmap.lookup_erase_ne hne]
    rfl
  have hgone : (x.server.remove (.socket d) fd).dispatcherByKey.lookup key = none := by
    rw [hby, Finmap.lookup_erase]
  refine ⟨?_, ?_, ?_, hs.lawful.snoc trivial, ?_, ?_, ?_⟩
  · rw [hnext, hcount]
    exact hs.next
  · rw [hcount]
    exact hs.numbered.remove (.socket d) fd
  · have hzero : (0 : UInt64) ≠ key := by
      rintro rfl
      rw [hs.wakeup] at hd
      cases hd
    exact (hfound 0 hzero).trans hs.wakeup
  · rw [Registry.registered_snoc, hs.live]
    funext key'
    by_cases hne : key' = key
    · rw [hne, Registry.apply, Function.update_self]
      exact hgone.symm
    · rw [Registry.apply, Function.update_of_ne hne]
      exact (hfound key' hne).symm
  · intro key'
    rw [Registry.handedOut_append, hs.handedOut, hcount]
    simp
  · refine Pending.mono (x := x) hs.pending ?_ ?_ _
    · rfl
    intro key' _ p hp
    have hne : key' ≠ key := by
      rintro rfl
      rw [Loop.dispatcher, hgone] at hp
      cases hp
    exact ⟨(hfound key' hne).symm.trans hp, rfl⟩

/-- A dispatcher that the server does not know changes its descriptor. -/
theorem Keyed.descriptor (hs : Keyed h x) (hd : .socket d ∉ x.server.keyByDispatcher)
    (fd : Option ℕ) (hnext : x'.server.nextDispatcherKey = x.server.nextDispatcherKey)
    (hby : x'.server.dispatcherByKey = x.server.dispatcherByKey)
    (hn : x'.server.Numbered (keyCount h)) (hw : x'.waiting = x.waiting)
    (hdescriptor : x'.descriptor = Function.update x.descriptor (.socket d) fd) : Keyed h x' := by
  refine hs.quiet hnext hby hn ?_
  rw [← List.append_nil h]
  refine hs.pending.mono hw ?_ []
  intro key _ p hp
  have hp' : x.dispatcher key = some p := by
    rw [Loop.dispatcher, hby] at hp
    exact hp
  have hne : p ≠ .socket d := fun heq => hs.dispatcher_ne hd key (heq ▸ hp')
  rw [hdescriptor, Function.update_of_ne hne]
  exact ⟨hp', rfl⟩

/-- Nothing is told of a descriptor that is neither readable nor writable. -/
theorem processEvents_eq_zero (requestedEvents : UInt32) (q : Probe) :
    processEvents requestedEvents false false false false q = 0 := by
  simp [processEvents, errcode]

theorem Keyed.processSelected (hs : Keyed h x) {processIo : Bool} {keys : List UInt64}
    {fdsRead fdsWrite : Finset ℕ}
    (hw : x.waiting = .selected processIo (key :: keys) fdsRead fdsWrite) (q : Probe) :
    Keyed (h ++ (x.processSelected processIo key keys fdsRead fdsWrite q).2)
      (x.processSelected processIo key keys fdsRead fdsWrite q).1 := by
  have hpending := hs.pending_at hw
  obtain ⟨-, hcollected⟩ := hpending key List.mem_cons_self
  have hrest := fun key' hkey' => hpending key' (List.mem_cons_of_mem _ hkey')
  cases hd : x.dispatcher key with
  | none =>
    simp only [Loop.processSelected, hd, List.append_nil]
    exact hs.quiet rfl rfl hs.numbered hrest
  | some p =>
    cases hfd : x.descriptor p with
    | none =>
      simp only [Loop.processSelected, hd, hfd, List.append_nil]
      exact hs.quiet rfl rfl hs.numbered hrest
    | some fd =>
      simp only [Loop.processSelected, hd, hfd]
      refine hs.onEvent hd (fun hff => hcollected ?_) ?_
      · -- the descriptor is in one of the sets, or there would be nothing to tell
        have hmem : fd ∈ fdsRead ∪ fdsWrite := by
          by_contra hnot
          simp only [Finset.mem_union, not_or] at hnot
          refine hff ?_
          simp only [hnot.1, hnot.2, decide_false, Bool.or_false]
          exact processEvents_eq_zero _ q
        exact reported_iff.mpr ⟨p, hd, fd, hfd, hmem⟩
      · intro key' hkey'
        obtain ⟨hlt, hcollected'⟩ := hrest key' hkey'
        refine ⟨hlt, fun hr => hcollected' ?_⟩
        obtain ⟨p', hp', fd', hfd', hmem⟩ := reported_iff.mp hr
        refine reported_iff.mpr ⟨p', hp', fd', hfd', ?_⟩
        simp only [Finset.mem_union, Finset.mem_erase] at hmem ⊢
        exact hmem.imp And.right And.right

/-- A step of the thread that waits, which leaves the rest alone. -/
theorem Keyed.move (hs : Keyed h x) {fWait : Bool} {waiting : Waiting}
    (hp : Pending h { x with fWait, waiting }) : Keyed (h ++ []) { x with fWait, waiting } := by
  rw [List.append_nil]
  exact hs.quiet rfl rfl hs.numbered hp

theorem Keyed.select (hs : Keyed h x) {processIo : Bool} {keys : List UInt64}
    {fdsRead fdsWrite : Finset ℕ} (hw : x.waiting = .select processIo keys fdsRead fdsWrite)
    (readable writable : Finset ℕ) :
    Keyed (h ++ (keys.filter (x.reported (readable ∪ writable))).map .collected)
      { x with waiting := .selected processIo keys readable writable } := by
  have hpending := hs.pending_at hw
  obtain ⟨hs', hcount⟩ := hs.collects (keys.filter (x.reported (readable ∪ writable)))
    fun key hkey => hpending key (List.mem_of_mem_filter hkey)
  refine hs'.quiet rfl rfl hs'.numbered ?_
  intro key hkey
  rw [hcount]
  refine ⟨hpending key hkey, fun hr => List.mem_append_right _ ?_⟩
  exact List.mem_map.mpr ⟨key, List.mem_filter.mpr ⟨hkey, hr⟩, rfl⟩

theorem Keyed.epollWait (hs : Keyed h x) (ready : List (ℕ × UInt32)) :
    Keyed (h ++ (x.epollEvents ready).map fun event => .collected event.key)
      { x with waiting := .epolled (x.epollEvents ready) } := by
  have hkeys : ∀ key ∈ (x.epollEvents ready).map EpollEvent.key, key.toNat < keyCount h := by
    intro key hkey
    obtain ⟨event, hevent, rfl⟩ := List.mem_map.mp hkey
    obtain ⟨r, -, hr⟩ := List.mem_filterMap.mp hevent
    obtain ⟨event', hi, rfl⟩ := Option.map_eq_some_iff.mp hr
    exact hs.numbered.interest r.1 event' hi
  obtain ⟨hs', -⟩ := hs.collects _ hkeys
  rw [List.map_map] at hs'
  refine hs'.quiet rfl rfl hs'.numbered ?_
  intro event hevent
  exact List.mem_append_right _ (List.mem_map.mpr ⟨event, hevent, rfl⟩)

theorem Keyed.processEpolled (hs : Keyed h x) {event : EpollEvent} {events : List EpollEvent}
    (hw : x.waiting = .epolled (event :: events)) (q : Probe) :
    Keyed (h ++ (x.processEpolled event events q).2) (x.processEpolled event events q).1 := by
  have hpending := hs.pending_at hw
  have hrest := fun event' he => hpending event' (List.mem_cons_of_mem _ he)
  cases hd : x.dispatcher event.key with
  | none =>
    simp only [Loop.processEpolled, hd, List.append_nil]
    exact hs.quiet rfl rfl hs.numbered hrest
  | some p =>
    simp only [Loop.processEpolled, hd]
    exact hs.onEvent hd (fun _ => hpending event List.mem_cons_self) hrest

theorem Keyed.processPolled (hs : Keyed h x) {revents : UInt32}
    (hw : x.waiting = .polled (some revents)) (q : Probe) :
    Keyed (h ++ (x.processPolled revents q).2) (x.processPolled revents q).1 := by
  have hpending := hs.pending_at hw
  exact hs.onEvent hs.wakeup (fun _ => hpending) trivial

theorem Keyed.step (hs : Keyed h x) {a : Step δ} {out : List (Notice δ)}
    (hst : x.step a = some (x', out)) (hle : keyCount (h ++ out) ≤ 2 ^ 64) :
    Keyed (h ++ out) x' := by
  cases a with
  | add d =>
    simp only [Loop.step, Option.some.injEq, Prod.mk.injEq] at hst
    obtain ⟨rfl, rfl⟩ := hst
    split at hle
    · rename_i hd
      rw [if_pos hd, Server.add_of_mem hd, List.append_nil]
      exact hs
    · rename_i hd
      rw [if_neg hd]
      rw [keyCount_append] at hle
      exact hs.add hd (by simpa using hle) _ _
  | remove d =>
    simp only [Loop.step, Option.some.injEq, Prod.mk.injEq] at hst
    obtain ⟨rfl, rfl⟩ := hst
    cases hkey : x.server.keyByDispatcher.lookup (.socket d) with
    | none =>
      rw [Server.remove_of_none hkey, Option.elim_none, List.append_nil]
      exact hs
    | some key => exact hs.remove hkey _
  | update d =>
    simp only [Loop.step, Option.some.injEq, Prod.mk.injEq] at hst
    obtain ⟨rfl, rfl⟩ := hst
    have hn := hs.numbered.update (.socket d) (x.descriptor (.socket d))
      (x.requestedEvents (.socket d))
    obtain ⟨i, heq, -⟩ := Server.update_maps x.server (.socket d) (x.descriptor (.socket d))
      (x.requestedEvents (.socket d))
    rw [heq] at hn ⊢
    rw [List.append_nil]
    exact hs.quiet rfl rfl hn hs.pending
  | request d events =>
    simp only [Loop.step, Option.some.injEq, Prod.mk.injEq] at hst
    obtain ⟨rfl, rfl⟩ := hst
    rw [List.append_nil]
    exact hs.quiet rfl rfl hs.numbered hs.pending
  | openDescriptor d fd =>
    simp only [Loop.step] at hst
    split at hst
    · rename_i hg
      cases hst
      rw [List.append_nil]
      exact hs.descriptor hg.1 (some fd) rfl rfl hs.numbered rfl rfl
    · cases hst
  | closeDescriptor d =>
    simp only [Loop.step] at hst
    split at hst
    · rename_i fd _
      split at hst
      · rename_i hd
        cases hst
        rw [List.append_nil]
        exact hs.descriptor hd none rfl rfl (hs.numbered.closesocket fd) rfl rfl
      · cases hst
    · cases hst
  | wait processIo =>
    simp only [Loop.step] at hst
    split at hst
    · cases hst
      exact hs.move trivial
    · cases hst
  | leave =>
    simp only [Loop.step] at hst
    split at hst
    · split at hst
      · cases hst
      · cases hst
        exact hs.move trivial
    · cases hst
  | collect keys =>
    simp only [Loop.step] at hst
    split at hst
    · split at hst
      · rename_i hg
        cases hst
        refine hs.move fun key hkey => ?_
        have hmem : key ∈ x.selectable _ := hg.2.2 ▸ List.mem_toFinset.mpr hkey
        obtain ⟨p, hp⟩ := Finmap.mem_iff.mp (Finmap.mem_keys.mp (Finset.mem_filter.mp hmem).1)
        exact hs.numbered.keys key p hp
      · cases hst
    · cases hst
  | select result =>
    simp only [Loop.step] at hst
    split at hst
    · cases hst
      exact hs.move trivial
    · cases hst
      exact hs.move trivial
    · cases hst
      exact hs.move trivial
    · rename_i readable writable hw
      split at hst
      · cases hst
        exact hs.select hw readable writable
      · cases hst
    · cases hst
  | epollWait result =>
    simp only [Loop.step] at hst
    split at hst
    · split at hst
      · cases hst
        exact hs.move trivial
      · cases hst
    · split at hst
      · cases hst
        exact hs.move fun event he => absurd he List.not_mem_nil
      · cases hst
    · split at hst
      · cases hst
        exact hs.move trivial
      · cases hst
    · split at hst
      · cases hst
        exact hs.epollWait _
      · cases hst
    · cases hst
  | poll result =>
    simp only [Loop.step] at hst
    split at hst
    · split at hst
      · cases hst
        exact hs.move trivial
      · cases hst
    · split at hst
      · cases hst
        exact hs.move trivial
      · cases hst
    · split at hst
      · cases hst
        exact hs.move trivial
      · cases hst
    · split at hst
      · cases hst
        obtain ⟨hs', -⟩ := hs.collects [0] (by simp [keyCount])
        exact hs'.quiet rfl rfl hs'.numbered (List.mem_append_right _ (List.mem_singleton_self _))
      · cases hst
    · cases hst
  | process q =>
    simp only [Loop.step] at hst
    split at hst
    · rename_i hw
      have hs' := hs.processSelected hw q
      rwa [Option.some.inj hst] at hs'
    · rename_i hw
      have hs' := hs.processEpolled hw q
      rwa [Option.some.inj hst] at hs'
    · rename_i hw
      have hs' := hs.processPolled hw q
      rwa [Option.some.inj hst] at hs'
    · cases hst
  | again expired =>
    simp only [Loop.step] at hst
    split at hst
    · cases hst
      exact hs.move trivial
    · cases hst
      cases expired <;> exact hs.move trivial
    · cases hst
      cases expired <;> exact hs.move trivial
    · cases hst

end

/-! ## Every run -/

theorem keyed_initial (useEpoll epoll : Bool) (fd : ℕ) :
    Keyed [] (Loop.initial useEpoll epoll fd : Loop δ) := by
  have hempty : (Server.empty epoll : Server (Dispatcher δ)).Numbered 0 := by
    refine ⟨fun key p h => ?_, Inverse.empty, fun fd event h => ?_⟩
    · cases h
    · cases h
  have hnot : Dispatcher.signalWakeup ∉
      (Server.empty epoll : Server (Dispatcher δ)).keyByDispatcher := Finmap.notMem_empty
  obtain ⟨hnext, hby, -, -⟩ := Server.add_maps hnot (some fd) DE_READ
  have hfound : (Loop.initial useEpoll epoll fd : Loop δ).dispatcher = constructed.live := by
    funext key
    rw [Loop.dispatcher, Loop.initial, hby]
    by_cases hkey : key = 0
    · rw [hkey]
      exact UnorderedMap.lookup_emplace Finmap.notMem_empty _
    · exact (UnorderedMap.lookup_emplace_of_ne hkey _).trans (constructed_live hkey).symm
  refine ⟨?_, hempty.add hnot rfl _ _, ?_, .nil, hfound.symm, ?_, trivial⟩
  · rw [Loop.initial, hnext]
    rfl
  · rw [hfound]
    rfl
  · intro key
    have hiff : key.toNat < 1 ↔ key = 0 := by
      rw [Nat.lt_one_iff, ← UInt64.toNat_inj]
      rfl
    simp [Registry.handedOut, constructed, keyCount, hiff]

theorem keyed {h : List (Notice δ)} {x : Loop δ} (hr : (loop δ).Reaches h x)
    (hle : keyCount h ≤ 2 ^ 64) : Keyed h x := by
  revert hle
  refine hr.induction (fun h x => keyCount h ≤ 2 ^ 64 → Keyed h x) ?_ ?_
  · rintro _ ⟨useEpoll, epoll, fd, -, rfl⟩ -
    exact keyed_initial useEpoll epoll fd
  · intro h x a x' out ih _ hst hle
    have hle' : keyCount h ≤ 2 ^ 64 := by
      rw [keyCount_append] at hle
      omega
    exact (ih hle').step hst hle

/-- What a history `h` that leads to `x` has to satisfy. -/
structure DeliveryLaw (h : List (Notice δ)) (x : Loop δ) : Prop where
  /-- The two maps are each other's inverse. -/
  inverse : Inverse x.server.dispatcherByKey x.server.keyByDispatcher
  /-- Under a key the server finds the dispatcher that is registered. -/
  live : x.dispatcher = constructed.registered h
  /-- No key is handed out twice, and that of `signal_wakeup_` not again. -/
  fresh : (h.filterMap Registry.added?).Nodup ∧ 0 ∉ h.filterMap Registry.added?
  /-- An event is delivered to the dispatcher that is registered under its key at that moment, and
  has been whenever an event was collected for the key, without having been removed since. -/
  delivered : ∀ h₁ h₂ key p, h = h₁ ++ .delivered key p :: h₂ →
    constructed.registered h₁ key = some p ∧ .collected key ∈ h₁ ∧
    ∀ h₀ h', h₁ = h₀ ++ .collected key :: h' → constructed.registered h₀ key = some p ∧
      .removed key ∉ h' ∧ key ∉ h'.filterMap Registry.added?

/-- **Events reach the dispatcher they were collected for**, in every run with at most `2 ^ 64`
additions. -/
theorem delivery_law {h : List (Notice δ)} {x : Loop δ} (hr : (loop δ).Reaches h x)
    (hle : keyCount h ≤ 2 ^ 64) : DeliveryLaw h x := by
  have hs := keyed hr hle
  refine ⟨hs.numbered.inverse, hs.live.symm, ?_, ?_⟩
  · obtain ⟨hnodup, hstart⟩ := hs.lawful.nodup
    exact ⟨hnodup, fun hzero => hstart 0 hzero rfl⟩
  · intro h₁ h₂ key p heq
    obtain ⟨hlive, hcollected⟩ := hs.lawful h₁ (.delivered key p) h₂ heq
    have hlawful : constructed.Lawful h₁ := (heq ▸ hs.lawful).of_append
    refine ⟨hlive, hcollected, ?_⟩
    rintro h₀ h' rfl
    exact hlawful.registered_of_collected hlive

/-- Two sockets are ready. The handler of the first one removes the second one, which is opened
again with the same descriptor, at the same address: the event is not for it. -/
theorem delivery_law_run : ∃ (h : List (Notice Bool)) (x : Loop Bool), (loop Bool).Reaches h x ∧
    h = [.added 1 (.socket false), .added 2 (.socket true), .collected 1, .collected 2,
      .delivered 1 (.socket false), .removed 2, .added 3 (.socket true)] ∧
    DeliveryLaw h x := by
  obtain ⟨h, x, hex, hh⟩ : ∃ h x, (loop Bool).exec (Loop.initial true true 3)
      [.openDescriptor false 5, .request false DE_READ, .add false, .openDescriptor true 6,
        .request true DE_READ, .add true, .wait true,
        .epollWait (.ready [(5, EPOLLIN), (6, EPOLLIN)]), .process ⟨some 0, false, false⟩,
        .remove true, .closeDescriptor true, .openDescriptor true 6, .add true,
        .process ⟨some 0, false, false⟩, .again false] = some (x, h) ∧
      h = [.added 1 (.socket false), .added 2 (.socket true), .collected 1, .collected 2,
        .delivered 1 (.socket false), .removed 2, .added 3 (.socket true)] := ⟨_, _, rfl, rfl⟩
  have hr : (loop Bool).Reaches h x := .of_exec ⟨true, true, 3, by simp, rfl⟩ hex
  exact ⟨h, x, hr, hh, delivery_law hr (by rw [hh]; decide)⟩

/-! ## After `2 ^ 64` additions

The bound cannot be dropped. A socket that is added and removed again brings the next key round to
that of `signal_wakeup_`. -/

/-- A server that knows nobody but `signal_wakeup_`, after some additions. -/
structure Alone (n : ℕ) (x : Loop Unit) : Prop where
  next : x.server.nextDispatcherKey.toNat = n % 2 ^ 64
  free : .socket () ∉ x.server.keyByDispatcher
  found : x.dispatcher = (constructed : Registry UInt64 (Dispatcher Unit)).live

theorem reaches_alone (n : ℕ) (hn : n < 2 ^ 64) :
    ∃ h x, (loop Unit).Reaches h x ∧ Alone (n + 1) x := by
  induction n with
  | zero =>
    have hs := keyed_initial (δ := Unit) false false 3
    have hr : (loop Unit).Reaches [] (Loop.initial false false 3) := .start ⟨_, _, _, by simp, rfl⟩
    exact ⟨_, _, hr, hs.next, by decide, hs.live.symm⟩
  | succ n ih =>
    obtain ⟨h, x, hr, ha⟩ := ih (by omega)
    have hnext : x.server.nextDispatcherKey.toNat = n + 1 := by
      rw [ha.next, Nat.mod_eq_of_lt hn]
    obtain ⟨hadd, hby, hkeys, -⟩ := Server.add_maps ha.free (x.descriptor (.socket ()))
      (x.requestedEvents (.socket ()))
    have hkey : (x.server.add (.socket ()) (x.descriptor (.socket ()))
        (x.requestedEvents (.socket ()))).keyByDispatcher.lookup (.socket ()) =
        some x.server.nextDispatcherKey := by
      rw [hkeys, UnorderedMap.lookup_emplace ha.free]
    obtain ⟨hremove, hby', hkeys', -⟩ := Server.remove_maps hkey (x.descriptor (.socket ()))
    have hr₁ : (loop Unit).Reaches _ _ := hr.step (a := .add ()) trivial rfl
    refine ⟨_, _, hr₁.step (a := .remove ()) trivial rfl, ?_, ?_, ?_⟩
    · rw [hremove, hadd, UInt64.toNat_add, hnext]
      rfl
    · rw [hkeys']
      exact Finmap.notMem_erase_self
    · funext key
      rw [Loop.dispatcher, hby', hby]
      by_cases hne : key = x.server.nextDispatcherKey
      · have hzero : key ≠ 0 := by
          rintro rfl
          rw [← hne] at hnext
          cases hnext
        rw [← hne, Finmap.lookup_erase]
        exact (constructed_live hzero).symm
      · rw [Finmap.lookup_erase_ne hne, UnorderedMap.lookup_emplace_of_ne hne]
        exact congrFun ha.found key

/-- **A key can be handed out again** once more than `2 ^ 64` dispatchers have been added. -/
theorem key_reused : ∃ (h : List (Notice Unit)) (x : Loop Unit), (loop Unit).Reaches h x ∧
    0 ∈ h.filterMap Registry.added? ∧
    ¬ Inverse x.server.dispatcherByKey x.server.keyByDispatcher := by
  obtain ⟨h, x, hr, ha⟩ := reaches_alone (2 ^ 64 - 1) (by omega)
  have hzero : x.server.nextDispatcherKey = 0 := by
    rw [← UInt64.toNat_inj, ha.next]
    rfl
  obtain ⟨-, hby, hkeys, -⟩ := Server.add_maps ha.free (x.descriptor (.socket ()))
    (x.requestedEvents (.socket ()))
  have hst : (loop Unit).step x (.add ()) = some ({ x with
      server := x.server.add (.socket ()) (x.descriptor (.socket ()))
        (x.requestedEvents (.socket ())) }, [.added 0 (.socket ())]) := by
    simp only [loop, Loop.step, if_neg ha.free, hzero]
  refine ⟨_, _, hr.step trivial hst, by simp, ?_⟩
  intro hinverse
  have hlookup := (hinverse 0 (.socket ())).mpr (by
    rw [hkeys, UnorderedMap.lookup_emplace ha.free, hzero])
  -- `emplace` has found `signal_wakeup_` under the key, and left it there
  have hwakeup : x.server.dispatcherByKey.lookup 0 = some .signalWakeup := congrFun ha.found 0
  rw [hby, hzero, UnorderedMap.emplace, if_pos (Finmap.mem_of_lookup_eq_some hwakeup),
    hwakeup] at hlookup
  cases hlookup

end PhysicalSocketServer

end TQLib
