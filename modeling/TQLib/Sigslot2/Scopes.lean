import TQLib.Sigslot2.System

/-!
# Scopes on the stacks

What the stack of a thread says about the locks it owns and the shared pointers it holds: it owns a
lock once for each `leave` on its stack and holds a pointer once for each `drop`, and whatever works
under a lock or on a receiver is above what ends that. So no two threads own the same lock, and a
receiver that is being destroyed is in the hands of one thread.

## Main results

* `sound` — all this holds in every reachable state
* `Sound.owner_unique` — what is done under one lock is done by one thread
* `Sound.destroyer_unique` — nobody but the thread that destroys a receiver has to do with its lock
-/

namespace TQLib

namespace Sigslot2

variable {θ ς ρ : Type*}

/-- What a thread may hold. -/
inductive Resource (ς ρ : Type*)
  | lock (l : Lock ς ρ)
  /-- That a receiver is not deleted. -/
  | object (r : ρ)

/-- The receiver whose `connect`, `disconnect` or lock the scope is about to use. -/
def Block.uses : Block θ ς ρ → List (Resource ς ρ)
  | .connect _ r _ _ => [.object r]
  | .addSender r _ => [.object r]
  | .disconnect _ r => [.object r]
  | .removeSender r _ => [.object r]
  | .detach r => [.object r]
  | .buildConnections4 r _ => [.object r]
  | _ => []

/-- What must be held for as long as this is on the stack. -/
def Instr.needs : Instr θ ς ρ → List (Resource ς ρ)
  | .enter b => b.uses
  | .blocked b => b.uses
  | .body b => .lock b.lock :: b.uses
  | .leave (.receiver r) => [.object r]
  | .detachLoop r => [.object r]
  | .emitLoop g => [.lock (.signal g)]
  | .setEmitted g _ => [.lock (.signal g)]
  | _ => []

/-- What is held until this is done. -/
def Instr.closes : Instr θ ς ρ → Option (Resource ς ρ)
  | .leave l => some (.lock l)
  | .drop r => some (.object r)
  | .destroyed r => some (.object r)
  | _ => none

theorem Instr.closes_lock {i : Instr θ ς ρ} {l : Lock ς ρ} (h : i.closes = some (.lock l)) :
    i = .leave l := by
  cases i <;> simp_all [closes]

theorem Instr.closes_object {i : Instr θ ς ρ} {r : ρ} (h : i.closes = some (.object r)) :
    i = .drop r ∨ i = .destroyed r := by
  cases i <;> simp_all [closes]

/-- Whatever needs something is above what closes it. -/
def Nested (is : List (Instr θ ς ρ)) : Prop :=
  Scoped (fun i k => k ∈ i.needs) (fun i k => i.closes = some k) is

theorem nested_cons {i : Instr θ ς ρ} {is : List (Instr θ ς ρ)} :
    Nested (i :: is) ↔ (∀ k ∈ i.needs, ∃ j ∈ is, j.closes = some k) ∧ Nested is := Iff.rfl

/-- The stacks, the locks and the pointers fit together. -/
structure Sound [DecidableEq θ] [DecidableEq ς] [DecidableEq ρ] (s : State θ ς ρ) : Prop where
  /-- Whatever needs a lock or a receiver has it. -/
  nested : ∀ a, Nested (s.stack a)
  /-- A thread has entered a lock as often as it is still to leave it. -/
  locks : Counted s.locks s.stack Instr.leave
  /-- A lock has one owner. -/
  exclusive : ∀ l a b, a ∈ s.locks l → b ∈ s.locks l → a = b
  /-- A thread holds as many pointers as it is still to drop. -/
  refs : Counted s.refs s.stack Instr.drop
  /-- A receiver with pointers to it is alive. -/
  alive : ∀ r a, .drop r ∈ s.stack a → s.objects.alive r = true
  /-- A receiver is destroyed by one thread. -/
  destroyed : ∀ r a, .destroyed r ∈ s.stack a → s.objects.alive r = false ∧
    ∀ b, .destroyed r ∈ s.stack b → b = a

/-! ## What the body of a scope does -/

theorem Block.mem_uses {b : Block θ ς ρ} {r : ρ} (h : b.lock = .receiver r) :
    .object r ∈ b.uses := by
  cases b <;> simp_all [Block.lock, Block.uses]

/-- What the body of a scope may push. -/
inductive Block.Pushes (b : Block θ ς ρ) : Instr θ ς ρ → Prop
  | enter (b' : Block θ ς ρ) : b'.uses ⊆ b.uses → Pushes b (.enter b')
  | emitLoop (g : ς) : b.lock = .signal g → Pushes b (.emitLoop g)
  | disconnectLoop (g : ς) : Pushes b (.disconnectLoop g)
  | detachLoop (r : ρ) : b.lock = .receiver r → Pushes b (.detachLoop r)
  | pushSender (r : ρ) (g : ς) : Pushes b (.pushSender r g)

theorem Block.Pushes.needs {b : Block θ ς ρ} {i : Instr θ ς ρ} (h : b.Pushes i) :
    i.needs ⊆ (Instr.body b).needs := by
  cases h with
  | enter b' huses => exact List.subset_cons_of_subset _ huses
  | emitLoop g hlock => simp [Instr.needs, hlock]
  | disconnectLoop | pushSender => exact List.nil_subset _
  | detachLoop r hlock => simpa [Instr.needs] using mem_uses hlock

section Steps

variable [DecidableEq ς] [DecidableEq ρ]

theorem Block.body_pushes (b : Block θ ς ρ) (o : Objects θ ς ρ) :
    ∀ i ∈ (b.body o).2.1, b.Pushes i := by
  intro i hi
  cases b with
  | connectFunc | disconnectConnection =>
    simp only [Block.body] at hi
    split at hi <;> cases hi
  | connect g r type thread =>
    simp only [Block.body] at hi
    split at hi
    · cases hi
    · obtain rfl := List.mem_singleton.mp hi
      exact .enter _ (List.Subset.refl _)
  | disconnect g r =>
    simp only [Block.body] at hi
    split at hi
    · cases hi
    · obtain rfl := List.mem_singleton.mp hi
      exact .enter _ (List.Subset.refl _)
  | disconnectAll g =>
    obtain rfl := List.mem_singleton.mp hi
    exact .disconnectLoop g
  | emit g =>
    obtain rfl := List.mem_singleton.mp hi
    exact .emitLoop g rfl
  | detach r =>
    obtain rfl := List.mem_singleton.mp hi
    exact .detachLoop r rfl
  | buildConnections4 r newReceiver =>
    obtain ⟨g, -, hg⟩ := List.mem_flatMap.mp hi
    simp only [List.mem_cons, List.not_mem_nil, or_false] at hg
    rcases hg with rfl | rfl
    · exact .enter _ (List.nil_subset _)
    · exact .pushSender newReceiver g
  | _ => cases hi

theorem Block.body_alive (b : Block θ ς ρ) (o : Objects θ ς ρ) : (b.body o).1.alive = o.alive := by
  cases b with
  | connectFunc | connect | disconnect | disconnectConnection =>
    simp only [Block.body]
    split <;> rfl
  | _ => rfl

/-! ## One step -/

variable [DecidableEq θ] {s s' : State θ ς ρ} {a : θ} {i : Instr θ ς ρ}
  {code : List (Instr θ ς ρ)} {out : List (Observation θ ς)}

theorem Executes.stack (h : Executes s a i s' code out) : s'.stack = s.stack := by
  cases h with
  | emitReach _ _ _ hdel => cases hdel <;> rfl
  | _ => rfl

theorem Executes.alive (h : Executes s a i s' code out) :
    s'.objects.alive = s.objects.alive := by
  cases h with
  | emitReach _ _ _ hdel => cases hdel <;> rfl
  | body b => exact b.body_alive s.objects
  | _ => rfl

/-- What needs nothing and closes nothing. -/
def Instr.Light (i : Instr θ ς ρ) : Prop := i.needs = [] ∧ i.closes = none

omit [DecidableEq θ] [DecidableEq ς] [DecidableEq ρ] in
theorem Delivers.light {g : ς} {n : ℕ} {c : Connection θ ρ} (h : Delivers s a g n c s' code) :
    ∀ i ∈ code, i.Light := by
  cases h <;> simp [Instr.Light, Instr.needs, Instr.closes]

omit [DecidableEq θ] [DecidableEq ς] [DecidableEq ρ] in
/-- A lock has been entered. -/
theorem nested_body {b : Block θ ς ρ} {is : List (Instr θ ς ρ)} (hs : Nested is)
    (hb : ∀ k ∈ b.uses, ∃ j ∈ is, j.closes = some k) : Nested (.body b :: .leave b.lock :: is) := by
  have hleave : Nested (.leave b.lock :: is) := by
    refine ⟨fun k hk => ?_, hs⟩
    cases hl : b.lock with
    | signal g => simp [hl, Instr.needs] at hk
    | receiver r =>
      obtain rfl : k = .object r := by simpa [hl, Instr.needs] using hk
      exact hb _ (Block.mem_uses hl)
  refine ⟨fun k hk => ?_, hleave⟩
  rcases List.mem_cons.mp hk with rfl | hk
  · exact ⟨_, List.mem_cons_self, rfl⟩
  · obtain ⟨j, hj, hc⟩ := hb k hk
    exact ⟨j, List.mem_cons_of_mem _ hj, hc⟩

omit [DecidableEq θ] [DecidableEq ς] [DecidableEq ρ] in
/-- The loop of `emit` goes on. -/
theorem nested_setEmitted {g : ς} {is : List (Instr θ ς ρ)} (n : ℕ)
    (hs : Nested (.emitLoop g :: is)) : Nested (.setEmitted g n :: .emitLoop g :: is) := by
  refine ⟨fun k hk => ?_, hs⟩
  obtain ⟨j, hj, hc⟩ := hs.head hk
  exact ⟨j, List.mem_cons_of_mem _ hj, hc⟩

/-- **A step keeps the stack nested.** -/
theorem Executes.nested (h : Executes s a i s' code out) {is : List (Instr θ ς ρ)}
    (hs : Nested (i :: is)) : Nested (code ++ is) := by
  have hrest := hs.tail
  cases h with
  | enter b | wake b => exact nested_body hrest fun k hk => hs.head hk
  | block b => exact ⟨fun k hk => hs.head hk, hrest⟩
  | body b =>
    exact hrest.append fun i hi k hk => hs.head ((b.body_pushes s.objects i hi).needs hk)
  | emitSkip g => exact hs
  | emitExpired g => exact nested_setEmitted _ hs
  | emitReach g _ _ hdel =>
    rw [List.append_assoc]
    exact (nested_setEmitted _ hs).push fun i hi k => by simp [(hdel.light i hi).1]
  | callFunc | callMethod | delivered | disconnectFunc =>
    exact hrest.push (by simp [Instr.needs])
  | @disconnectMethod g r =>
    have hdrop : Nested ([.drop r, .popFront g, .disconnectLoop g] ++ is) :=
      hrest.push (by simp [Instr.needs])
    refine ⟨fun k hk => ⟨.drop r, List.mem_cons_self, ?_⟩, hdrop⟩
    obtain rfl : k = .object r := by simpa [Instr.needs, Block.uses] using hk
    rfl
  | detach r gs =>
    rw [List.append_assoc]
    exact hs.push (by simp [Instr.needs, Block.uses])
  | _ => exact hrest

/-- What a step does to the locks. -/
theorem Executes.locks (h : Executes s a i s' code out) :
    Reholds s.locks s'.locks Instr.leave (fun l => s.available a l = true) a i code := by
  cases h with
  | enter b hb | wake b hb =>
    exact .take b.lock hb nofun rfl fun l' => by simp [List.count_cons]
  | leave l => exact .give l rfl rfl rfl
  | body b =>
    refine .keep rfl nofun fun l' hl' => ?_
    cases b.body_pushes s.objects _ hl'
  | emitReach _ _ _ hdel =>
    refine .keep (by cases hdel <;> rfl) nofun fun l' hl' => ?_
    rcases List.mem_append.mp hl' with hl' | hl'
    · cases (hdel.light _ hl').2
    · simp at hl'
  | _ => exact .keep rfl nofun (by simp)

/-- What a step does to the shared pointers. -/
theorem Executes.refs (h : Executes s a i s' code out) :
    Reholds s.refs s'.refs Instr.drop (fun r => s.objects.alive r = true) a i code := by
  cases h with
  | callMethod d e g n hr => exact .take _ hr nofun rfl fun r' => by simp [List.count_cons]
  | disconnectMethod g hr => exact .take _ hr nofun rfl fun r' => by simp [List.count_cons]
  | drop r => exact .give r rfl rfl rfl
  | body b =>
    refine .keep rfl nofun fun r' hr' => ?_
    cases b.body_pushes s.objects _ hr'
  | emitReach _ _ _ hdel =>
    refine .keep (by cases hdel <;> rfl) nofun fun r' hr' => ?_
    rcases List.mem_append.mp hr' with hr' | hr'
    · cases (hdel.light _ hr').2
    · simp at hr'
  | _ => exact .keep rfl nofun (by simp)

theorem Executes.not_mem_destroyed (h : Executes s a i s' code out) (r : ρ) :
    .destroyed r ∉ code := by
  cases h with
  | body b =>
    intro hr
    cases b.body_pushes s.objects _ hr
  | emitReach _ _ _ hdel =>
    intro hr
    rcases List.mem_append.mp hr with hr | hr
    · cases (hdel.light _ hr).2
    · simp at hr
  | _ => simp

/-! ## Runs -/

namespace Sound

/-- What is done under one lock is done by one thread. -/
theorem owner_unique (h : Sound s) {j : Instr θ ς ρ} {l : Lock ς ρ} {b : θ}
    (ha : i ∈ s.stack a) (hi : .lock l ∈ i.needs) (hb : j ∈ s.stack b)
    (hj : .lock l ∈ j.needs) : a = b := by
  have hown : ∀ c (k : Instr θ ς ρ), k ∈ s.stack c → .lock l ∈ k.needs → c ∈ s.locks l := by
    intro c k hc hk
    obtain ⟨k', hk', hcloses⟩ := (h.nested c).of_mem hc hk
    obtain rfl := Instr.closes_lock hcloses
    exact h.locks.mem_iff.mpr hk'
  exact h.exclusive l a b (hown a i ha hi) (hown b j hb hj)

/-- Nobody but the thread that destroys a receiver has to do with it. -/
theorem destroyer_unique (h : Sound s) {j : Instr θ ς ρ} {r : ρ} {b : θ}
    (hr : s.objects.alive r = false) (ha : i ∈ s.stack a) (hi : .object r ∈ i.needs)
    (hb : j ∈ s.stack b) (hj : .object r ∈ j.needs) : a = b := by
  have hdestroyed : ∀ c (k : Instr θ ς ρ), k ∈ s.stack c → .object r ∈ k.needs →
      .destroyed r ∈ s.stack c := by
    intro c k hc hk
    obtain ⟨k', hk', hcloses⟩ := (h.nested c).of_mem hc hk
    rcases Instr.closes_object hcloses with rfl | rfl
    · simp [h.alive r c hk'] at hr
    · exact hk'
  exact ((h.destroyed r b (hdestroyed b j hb hj)).2 a (hdestroyed a i ha hi))

theorem initial : Sound (State.initial : State θ ς ρ) where
  nested _ := trivial
  locks _ _ := rfl
  exclusive _ _ _ := nofun
  refs _ _ := rfl
  alive _ _ := nofun
  destroyed _ _ := nofun

/-- A thread does what is next. -/
theorem executes (h : Sound s) {is : List (Instr θ ς ρ)} (hstack : s.stack a = i :: is)
    (hex : Executes s a i s' code out) : Sound (s'.setStack a (code ++ is)) := by
  have hlocks : Counted s'.locks (Function.update s'.stack a (code ++ is)) Instr.leave := by
    rw [hex.stack]
    exact h.locks.step (fun _ _ => Instr.leave.inj) hex.locks hstack
  have hrefs : Counted s'.refs (Function.update s'.stack a (code ++ is)) Instr.drop := by
    rw [hex.stack]
    exact h.refs.step (fun _ _ => Instr.drop.inj) hex.refs hstack
  have hdestroyed : ∀ {r b}, .destroyed r ∈ Function.update s'.stack a (code ++ is) b →
      .destroyed r ∈ s.stack b := by
    intro r b hb
    rw [hex.stack] at hb
    rcases eq_or_ne b a with rfl | hne
    · rw [Function.update_self, List.mem_append] at hb
      rw [hstack]
      exact List.mem_cons_of_mem _ (hb.resolve_left (hex.not_mem_destroyed r))
    · rwa [Function.update_of_ne hne] at hb
  refine ⟨fun b => ?_, hlocks, fun l b c hb hc => ?_, hrefs, fun r b hb => ?_, fun r b hb => ?_⟩
  · show Nested (Function.update s'.stack a (code ++ is) b)
    rw [hex.stack]
    rcases eq_or_ne b a with rfl | hne
    · rw [Function.update_self]
      exact hex.nested (hstack ▸ h.nested b)
    · rw [Function.update_of_ne hne]
      exact h.nested b
  · have howner : ∀ d, s.available a l = true → d ∈ s.locks l → d = a := fun d hl hd => by
      simpa using List.all_eq_true.mp hl d hd
    rcases hex.locks.mem hb with hb' | ⟨hb', hl⟩ <;>
      rcases hex.locks.mem hc with hc' | ⟨hc', hl'⟩
    · exact h.exclusive l b c hb' hc'
    · exact (howner b hl' hb').trans hc'.symm
    · exact hb'.trans (howner c hl hc').symm
    · exact hb'.trans hc'.symm
  · show s'.objects.alive r = true
    rw [hex.alive]
    rcases hex.refs.mem (hrefs.mem_iff.mpr hb) with hb | ⟨-, hr⟩
    · exact h.alive r b (h.refs.mem_iff.mp hb)
    · exact hr
  · show s'.objects.alive r = false ∧ _
    rw [hex.alive]
    obtain ⟨hr, hunique⟩ := h.destroyed r b (hdestroyed hb)
    exact ⟨hr, fun c hc => hunique c (hdestroyed hc)⟩

/-- A thread replaces `pre` by `code`, neither of which leaves a lock. -/
theorem replace (h : Sound s) (pre code : List (Instr θ ς ρ)) {is : List (Instr θ ς ρ)}
    (hstack : s.stack a = pre ++ is)
    (hstack' : s'.stack = Function.update s.stack a (code ++ is)) (hlocks : s'.locks = s.locks)
    (halive : s'.objects.alive = s.objects.alive) (hnested : Nested (code ++ is))
    (hleave : ∀ l, .leave l ∉ pre ∧ .leave l ∉ code) (hdestroyed : ∀ r, .destroyed r ∉ code)
    (hdrop : ∀ r, .drop r ∈ code → s.objects.alive r = true)
    (hrefs : Counted s'.refs (Function.update s.stack a (code ++ is)) Instr.drop) : Sound s' := by
  have hmem : ∀ {i b}, i ∈ s'.stack b → i ∈ code ∨ i ∈ s.stack b := by
    intro i b hi
    rw [hstack'] at hi
    rcases eq_or_ne b a with rfl | hne
    · rw [Function.update_self, List.mem_append] at hi
      rw [hstack]
      exact hi.imp_right (List.mem_append_right _)
    · rw [Function.update_of_ne hne] at hi
      exact .inr hi
  refine ⟨fun b => ?_, ?_, ?_, by rwa [hstack'], fun r b hb => ?_, fun r b hb => ?_⟩
  · rw [hstack']
    rcases eq_or_ne b a with rfl | hne
    · rwa [Function.update_self]
    · rw [Function.update_of_ne hne]
      exact h.nested b
  · rw [hlocks, hstack']
    refine h.locks.move pre code hstack (fun l => ?_) fun _ _ _ => rfl
    rw [List.count_eq_zero.mpr (hleave l).1, List.count_eq_zero.mpr (hleave l).2]
  · rw [hlocks]
    exact h.exclusive
  · rw [halive]
    exact (hmem hb).elim (hdrop r) (h.alive r b)
  · rw [halive]
    obtain ⟨hr, hunique⟩ := h.destroyed r b ((hmem hb).resolve_left (hdestroyed r))
    exact ⟨hr, fun c hc => hunique c ((hmem hc).resolve_left (hdestroyed r))⟩

omit [DecidableEq ς] in
theorem count_refs_retain (rs : List ρ) (s : State θ ς ρ) (r : ρ) (b : θ) :
    ((rs.foldl (fun s r => s.retain a r) s).refs r).count b =
      (s.refs r).count b + if b = a then rs.count r else 0 := by
  induction rs generalizing s with
  | nil => simp
  | cons r' rs ih =>
    rw [List.foldl_cons, ih]
    rcases eq_or_ne r r' with rfl | hne
    · rcases eq_or_ne b a with rfl | hb
      · simp [State.retain]
        omega
      · simp [State.retain, hb, hb.symm]
    · simp [State.retain, hne, hne.symm]

omit [DecidableEq θ] [DecidableEq ς] in
theorem foldl_retain (rs : List ρ) (s : State θ ς ρ) (a : θ) :
    (rs.foldl (fun s r => s.retain a r) s).stack = s.stack ∧
      (rs.foldl (fun s r => s.retain a r) s).locks = s.locks ∧
      (rs.foldl (fun s r => s.retain a r) s).objects = s.objects ∧
      (rs.foldl (fun s r => s.retain a r) s).posted = s.posted := by
  induction rs generalizing s with
  | nil => exact ⟨rfl, rfl, rfl, rfl⟩
  | cons r rs ih => exact ih (s.retain a r)

omit [DecidableEq θ] [DecidableEq ς] [DecidableEq ρ] in
/-- What a call pushes needs only the pointers it is made with. -/
theorem nested_call (c : Call θ ς ρ) {is : List (Instr θ ς ρ)} (hs : Nested is) :
    Nested (c.code ++ is) := by
  cases c <;> simp [Call.code, nested_cons, Instr.needs, Instr.closes, Block.uses, hs]

/-- User code makes a call. -/
theorem call (h : Sound s) {c : Call θ ς ρ} (hr : ∀ r ∈ c.receivers, s.objects.alive r = true) :
    Sound ((c.receivers.foldl (fun s r => s.retain a r) s).setStack a (c.code ++ s.stack a)) := by
  obtain ⟨hstack, hlocks, hobjects, -⟩ := foldl_retain c.receivers s a
  have hcount : ∀ r, c.code.count (.drop r) = c.receivers.count r := by
    intro r
    cases c <;> simp [Call.code, Call.receivers, List.count_cons]
  refine h.replace [] c.code rfl ?_ hlocks ?_ (nested_call c (h.nested a)) ?_ ?_ ?_ ?_
  · rw [State.setStack, hstack]
  · rw [State.setStack, hobjects]
  · intro l
    cases c <;> simp [Call.code]
  · intro r
    cases c <;> simp [Call.code]
  · intro r hdrop
    refine hr r (List.count_pos_iff.mp ?_)
    rw [← hcount]
    exact List.count_pos_iff.mpr hdrop
  · refine h.refs.move [] c.code rfl (fun r => ?_) fun r b hne => ?_
    · rw [State.setStack, count_refs_retain, if_pos rfl, hcount]
      rfl
    · rw [State.setStack, count_refs_retain, if_neg hne, Nat.add_zero]

/-- A slot returns, or a task is taken. -/
theorem light (h : Sound s) (pre code : List (Instr θ ς ρ)) {is : List (Instr θ ς ρ)}
    (hstack : s.stack a = pre ++ is) (hstack' : s'.stack = Function.update s.stack a (code ++ is))
    (hlocks : s'.locks = s.locks) (hrefs : s'.refs = s.refs)
    (halive : s'.objects.alive = s.objects.alive) (hlight : ∀ i ∈ pre ++ code, i.Light) :
    Sound s' := by
  have hnot : ∀ i : Instr θ ς ρ, i.closes ≠ none → i ∉ pre ∧ i ∉ code := by
    intro i hi
    rw [← not_or, ← List.mem_append]
    exact fun hmem => hi (hlight i hmem).2
  have hnested : Nested (pre ++ is) := hstack ▸ h.nested a
  refine h.replace pre code hstack hstack' hlocks halive ?_
    (fun l => hnot (.leave l) (Option.some_ne_none _))
    (fun r => (hnot (.destroyed r) (Option.some_ne_none _)).2)
    (fun r hr => absurd hr (hnot (.drop r) (Option.some_ne_none _)).2) ?_
  · refine hnested.of_append.push fun i hi k => ?_
    simp [(hlight i (List.mem_append_right _ hi)).1]
  · rw [hrefs]
    refine h.refs.move pre code hstack (fun r => ?_) fun _ _ _ => rfl
    obtain ⟨hpre, hcode⟩ := hnot (.drop r) (Option.some_ne_none _)
    rw [List.count_eq_zero.mpr hpre, List.count_eq_zero.mpr hcode]

/-- The destructor of a receiver begins. -/
theorem destroy (h : Sound s) {r : ρ} (hr : s.objects.alive r = true) (hrefs : s.refs r = []) :
    Sound ((s.setObjects (s.objects.kill r)).setStack a
      ([.enter (.detach r), .destroyed r] ++ s.stack a)) := by
  have hdead : ∀ b, .destroyed r ∉ s.stack b := fun b hb => by simp [(h.destroyed r b hb).1] at hr
  have hmem : ∀ {i b}, i ∈ Function.update s.stack a
      ([.enter (.detach r), .destroyed r] ++ s.stack a) b → i = .enter (.detach r) ∨
        i = .destroyed r ∧ b = a ∨ i ∈ s.stack b := by
    intro i b hi
    rcases eq_or_ne b a with rfl | hne
    · simpa using hi
    · rw [Function.update_of_ne hne] at hi
      exact .inr (.inr hi)
  refine ⟨fun b => ?_, ?_, h.exclusive, ?_, fun r' b hb => ?_, fun r' b hb => ?_⟩
  · show Nested (Function.update s.stack a _ b)
    rcases eq_or_ne b a with rfl | hne
    · rw [Function.update_self]
      simp [nested_cons, Instr.needs, Instr.closes, Block.uses, h.nested b]
    · rw [Function.update_of_ne hne]
      exact h.nested b
  · show Counted s.locks _ _
    exact h.locks.move [] _ rfl (fun l => by simp) fun _ _ _ => rfl
  · show Counted s.refs _ _
    exact h.refs.move [] _ rfl (fun r => by simp) fun _ _ _ => rfl
  · have hdrop : .drop r' ∈ s.stack b := by simpa using hmem hb
    have hne : r' ≠ r := by
      rintro rfl
      have := h.refs.mem_iff.mpr hdrop
      simp [hrefs] at this
    show Function.update s.objects.alive r false r' = true
    rw [Function.update_of_ne hne]
    exact h.alive r' b hdrop
  · show Function.update s.objects.alive r false r' = false ∧ _
    rcases eq_or_ne r' r with rfl | hne
    · have howner : ∀ c, .destroyed r' ∈ Function.update s.stack a
          ([.enter (.detach r'), .destroyed r'] ++ s.stack a) c → c = a := by
        intro c hc
        simpa [hdead c] using hmem hc
      exact ⟨Function.update_self .., fun c hc => (howner c hc).trans (howner b hb).symm⟩
    · have hold : ∀ c, .destroyed r' ∈ Function.update s.stack a
          ([.enter (.detach r), .destroyed r] ++ s.stack a) c → .destroyed r' ∈ s.stack c := by
        intro c hc
        simpa [hne] using hmem hc
      rw [Function.update_of_ne hne]
      obtain ⟨hr', hunique⟩ := h.destroyed r' b (hold b hb)
      exact ⟨hr', fun c hc => hunique c (hold c hc)⟩

/-- **One step.** -/
theorem step (h : Sound s) {act : Action θ ς ρ} (hst : s.step act = some (s', out)) : Sound s' := by
  cases step_cases hst with
  | call _ _ hr => exact h.call hr
  | ret hstack =>
    exact h.light [.slot _ _] [] hstack rfl rfl rfl rfl
      (by simp [Instr.Light, Instr.needs, Instr.closes])
  | step hstack hex => exact h.executes hstack hex
  | @run i t task =>
    refine h.light [] (Task.code task) rfl rfl rfl rfl rfl ?_
    cases task <;> simp [Task.code, Instr.Light, Instr.needs, Instr.closes]
  | discard => exact ⟨h.nested, h.locks, h.exclusive, h.refs, h.alive, h.destroyed⟩
  | destroy hr hrefs => exact h.destroy hr hrefs
  | quit => exact ⟨h.nested, h.locks, h.exclusive, h.refs, h.alive, h.destroyed⟩

end Sound

/-- **Every reachable state.** -/
theorem sound {h : List (Observation θ ς)} {guard : State θ ς ρ → Action θ ς ρ → Prop}
    (hr : (machine θ ς ρ).ReachesVia guard h s) : Sound s := by
  refine hr.invariant Sound ?_ fun s act s' out hs _ hst => hs.step hst
  rintro s rfl
  exact .initial

end Steps

end Sigslot2

end TQLib
