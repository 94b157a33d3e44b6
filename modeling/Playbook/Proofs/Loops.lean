import Mathlib.Data.List.Nodup
import Mathlib.Data.List.Sort
import Playbook.Proofs.Ticks

/-!
# The life of a scheduled loop

What a scheduler has been asked and what it has answered is kept as a history
(`Scheduler.Run`): adoptions, ticks at any times, cancellations through the scheduler
and from outside, with anything else that happens in the world in between. Every loop
is, at any point of a history, either scheduled with nothing but completed iterations
behind it or over for good (`Life`), and what a single tick does to a loop (`Turn`)
leads from the one to the other at most once.
-/

namespace Playbook

-- ---------------------------------------------------------------------------
-- Histories
-- ---------------------------------------------------------------------------

inductive Act where
  | adopted (id : LoopId) (c : Context)
  | ticked (events : List (LoopId × LoopEvent)) (fired : List (LoopId × BlockEnd))
  | cancelled (id : LoopId) (answer : Bool)
  | revoked (context : ContextId)

namespace Act

def adoption? : Act → Option (LoopId × Context)
  | .adopted id c => some (id, c)
  | _ => none

def eventsOf (id : LoopId) : Act → List LoopEvent
  | .ticked events _ => about id events
  | _ => []

def firingsOf (id : LoopId) : Act → List BlockEnd
  | .ticked _ fired => about id fired
  | _ => []

def cancels (id : LoopId) : Act → Bool
  | .cancelled i answer => i == id && answer
  | _ => false

structure Spares (id : LoopId) (a : Act) : Prop where
  events : a.eventsOf id = []
  firings : a.firingsOf id = []
  cancels : a.cancels id = false

end Act

abbrev History := List Act

namespace History

def adoptions (H : History) : List (LoopId × Context) := H.filterMap Act.adoption?

def eventsOf (H : History) (id : LoopId) : List LoopEvent := H.flatMap (Act.eventsOf id)

def firingsOf (H : History) (id : LoopId) : List BlockEnd := H.flatMap (Act.firingsOf id)

def cancelled (H : History) (id : LoopId) : Bool := H.any (Act.cancels id)

def ended (H : History) (id : LoopId) : Bool :=
  (H.eventsOf id).any (· != .ran) || H.cancelled id

/-- A tick reports at most one event about a loop, in the order of the loops. -/
def Ordered (H : History) : Prop :=
  ∀ events fired, .ticked events fired ∈ H → (events.map Prod.fst).Pairwise (· < ·)

def SilentAfterEnd (H : History) (id : LoopId) : Prop :=
  ∀ H₁ H₂ : History, H = H₁ ++ H₂ → H₁.ended id = true → H₂.eventsOf id = []

@[simp] theorem eventsOf_append (H H' : History) (id : LoopId) :
    eventsOf (H ++ H') id = H.eventsOf id ++ H'.eventsOf id := List.flatMap_append

@[simp] theorem eventsOf_singleton (a : Act) (id : LoopId) : eventsOf [a] id = a.eventsOf id := by
  simp [eventsOf]

@[simp] theorem firingsOf_append (H H' : History) (id : LoopId) :
    firingsOf (H ++ H') id = H.firingsOf id ++ H'.firingsOf id := List.flatMap_append

@[simp] theorem firingsOf_singleton (a : Act) (id : LoopId) :
    firingsOf [a] id = a.firingsOf id := by
  simp [firingsOf]

@[simp] theorem cancelled_append (H H' : History) (id : LoopId) :
    cancelled (H ++ H') id = (H.cancelled id || H'.cancelled id) := List.any_append

@[simp] theorem cancelled_singleton (a : Act) (id : LoopId) : cancelled [a] id = a.cancels id := by
  simp [cancelled]

@[simp] theorem adoptions_append (H H' : History) :
    adoptions (H ++ H') = H.adoptions ++ H'.adoptions := List.filterMap_append

@[simp] theorem adoptions_singleton (a : Act) : adoptions [a] = a.adoption?.toList := by
  cases h : a.adoption? <;> simp [adoptions, h]

theorem ended_append {id : LoopId} (h : ended H id = true) (H' : History) :
    ended (H ++ H') id = true := by
  simp only [ended, eventsOf_append, cancelled_append, List.any_append, Bool.or_eq_true] at h ⊢
  exact h.imp .inl .inl

end History

def Context.iterations (c : Context) : Nat :=
  match c.continuation with
  | none => 0
  | some k => k.remaining

namespace Scheduler

/-- The histories of a scheduler, with where they lead. A context that is adopted was made
in this world, which has seen its release if it was released. -/
inductive Run (handlers : Handlers) : History → Scheduler → World → Prop
  | start (w : World) : Run handlers [] .empty w
  | adopt {id : LoopId} : Run handlers H sched w → c.id < w.nextContext →
      (c.disposed = true → w.Released c) → sched.adopt now c w = some (id, sched', w') →
      Run handlers (H ++ [.adopted id c]) sched' w'
  | tick : Run handlers H sched w → sched.tick handlers n now w = some (events, sched', w') →
      Run handlers (H ++ [.ticked events (firings handlers n now sched.loops w)]) sched' w'
  | cancel {id : LoopId} : Run handlers H sched w → sched.cancel id w = (answer, sched', w') →
      Run handlers (H ++ [.cancelled id answer]) sched' w'
  | revoke : Run handlers H sched w → Run handlers (H ++ [.revoked i]) sched (w.cancel i)
  | elsewhere : Run handlers H sched w → w.Grows (fun _ => True) w' → Run handlers H sched w'

variable {sched sched' : Scheduler} {w w' : World} {c : Context} {id : LoopId}
  {events : List (LoopId × LoopEvent)}

theorem isScheduled_iff : sched.isScheduled id = true ↔ id ∈ sched.loops.map Loop.id := by
  simp [isScheduled]

theorem adopt_eq_some (h : sched.adopt now c w = some (id, sched', w')) :
    ∃ k, c.continuation = some k ∧ id = sched.nextId ∧
      sched' = ⟨sched.loops ++ [⟨sched.nextId, { c with continuation := none }, k,
        now + k.interval⟩], sched.nextId + 1⟩ ∧
      w' = w.log (adoptionEntry c k) := by
  unfold adopt at h
  split at h
  · simp at h
  · rename_i k hk
    simp only [Option.some.injEq, Prod.mk.injEq] at h
    exact ⟨k, hk, h.1.symm, h.2.1.symm, h.2.2.symm⟩

theorem tick_eq_some (h : sched.tick handlers n now w = some (events, sched', w')) :
    tickLoops handlers n now sched.loops w = some (events, sched'.loops, w') ∧
      sched'.nextId = sched.nextId := by
  unfold tick at h
  split at h
  · simp at h
  · rename_i hl
    simp only [Option.some.injEq, Prod.mk.injEq] at h
    obtain ⟨rfl, rfl, rfl⟩ := h
    exact ⟨hl, rfl⟩

theorem cancel_cases (h : sched.cancel id w = (answer, sched', w')) :
    (answer = false ∧ sched' = sched ∧ w' = w) ∨
    (answer = true ∧ sched' = { sched with loops := sched.loops.filter fun l => l.id != id } ∧
      ∃ l ∈ sched.loops, l.id = id ∧ w' = (w.dispose l.context).2.2) := by
  unfold cancel at h
  split at h
  · simp only [Prod.mk.injEq] at h
    exact .inl ⟨h.1.symm, h.2.1.symm, h.2.2.symm⟩
  · rename_i l hl
    simp only [Prod.mk.injEq] at h
    have hid : l.id = id := by simpa using List.find?_some hl
    exact .inr ⟨h.1.symm, h.2.1.symm, l, List.mem_of_find?_eq_some hl, hid, h.2.2.symm⟩

-- ---------------------------------------------------------------------------
-- The life of one loop
-- ---------------------------------------------------------------------------

/-- A loop that was adopted as `id` with `c`, and has completed `k` iterations since. -/
structure Active (H : History) (sched : Scheduler) (w : World) (id : LoopId) (c : Context)
    (l : Loop) (k : Nat) : Prop where
  scheduled : l ∈ sched.loops
  named : l.id = id
  context : l.context.id = c.id
  script : l.context.script = c.script
  seen : l.context.disposed = true → w.Released l.context
  events : H.eventsOf id = .replicate k .ran
  firings : H.firingsOf id = .replicate k (.ok none)
  uncancelled : H.cancelled id = false
  left : l.continuation.remaining + k = c.iterations
  more : 1 ≤ c.iterations → 1 ≤ l.continuation.remaining

/-- A loop that is over: by a `last` event, or without one because it was cancelled. -/
structure Over (H : History) (sched : Scheduler) (w : World) (id : LoopId) (c : Context)
    (k : Nat) (last : Option LoopEvent) : Prop where
  unscheduled : ∀ l ∈ sched.loops, l.id ≠ id
  events : H.eventsOf id = .replicate k .ran ++ last.toList
  final : last ≠ some .ran
  cancelled : H.cancelled id = last.isNone
  dead : w.isAlive c.id = false
  released : last ≠ some .cancelled → w.Released c
  finished : last = some .finished →
    H.firingsOf id = .replicate (k + 1) (.ok none) ∧ (1 ≤ c.iterations → k + 1 = c.iterations)

inductive Life (H : History) (sched : Scheduler) (w : World) (id : LoopId) (c : Context) : Prop
  | active (l : Loop) (k : Nat) : Active H sched w id c l k → Life H sched w id c
  | ended (k : Nat) (last : Option LoopEvent) : Over H sched w id c k last → Life H sched w id c

theorem Life.grow (h : Life H sched w id c) (hw : w.Grows (fun _ => True) w') :
    Life H sched w' id c := by
  cases h with
  | active l k h => exact .active l k { h with seen := fun hd => (h.seen hd).grow hw }
  | ended k last h =>
    exact .ended k last { h with
      dead := hw.dead h.dead
      released := fun hl => (h.released hl).grow hw }

theorem Life.idle (h : Life H sched w id c) (ha : a.Spares id)
    (hloops : ∀ l : Loop, l.id = id → (l ∈ sched'.loops ↔ l ∈ sched.loops)) :
    Life (H ++ [a]) sched' w id c := by
  cases h with
  | active l k h =>
    exact .active l k { h with
      scheduled := (hloops l h.named).mpr h.scheduled
      events := by simp [ha.events, h.events]
      firings := by simp [ha.firings, h.firings]
      uncancelled := by simp [ha.cancels, h.uncancelled] }
  | ended k last h =>
    exact .ended k last { h with
      unscheduled := fun l hl hid => h.unscheduled l ((hloops l hid).mp hl) hid
      events := by simp [ha.events, h.events]
      cancelled := by simp [ha.cancels, h.cancelled]
      finished := by simpa [ha.firings] using h.finished }

theorem Active.not_ended (h : Active H sched w id c l k) : H.ended id = false := by
  simp [History.ended, h.events, h.uncancelled]

theorem Over.ended (h : Over H sched w id c k last) : H.ended id = true := by
  cases last with
  | none => simp [History.ended, h.cancelled]
  | some e =>
    have hfinal : e ≠ .ran := fun he => h.final (he ▸ rfl)
    simp [History.ended, h.events, hfinal]

theorem Active.recorded (h : Active H sched w id c l k)
    (htook : Took handlers n now sched.loops w w₁ w' events rest l event kept w₂) :
    let H' : History := H ++ [.ticked events (Scheduler.firings handlers n now sched.loops w)]
    H'.eventsOf id = .replicate k .ran ++ event.toList ∧
      H'.firingsOf id = .replicate k (.ok none) ++
        (round handlers n now l w₁).toList.map (·.ended) ∧
      H'.cancelled id = false := by
  refine ⟨?_, ?_, ?_⟩
  · rw [History.eventsOf_append, h.events, ← htook.reported, h.named, History.eventsOf_singleton]
    rfl
  · rw [History.firingsOf_append, h.firings, ← htook.fired, h.named, History.firingsOf_singleton]
    rfl
  · simp [h.uncancelled, Act.cancels]

/-- The turn of a loop in a tick ends its life or brings it one iteration further. -/
theorem Active.tick (h : Active H sched w id c l k)
    (htook : Took handlers n now sched.loops w w₁ w' events sched'.loops l event kept w₂) :
    Life (H ++ [.ticked events (Scheduler.firings handlers n now sched.loops w)]) sched' w' id
      c := by
  obtain ⟨hevents, hfirings, hcancelled⟩ := h.recorded htook
  have hgone (hnone : kept = none) : ∀ l' ∈ sched'.loops, l'.id ≠ id := by
    rintro l' hl' hid
    cases hnone.symm.trans (htook.stays l' hl' (hid.trans h.named.symm))
  have hlater := htook.after.grows
  have hseen : l.context.disposed = true → w₁.Released l.context :=
    fun hd => (h.seen hd).grow htook.before.grows
  have hturn := tickLoop_turn htook.turn
  generalize round handlers n now l w₁ = played at hturn hfirings
  cases played with
  | none =>
    cases hturn with
    | dropped hdead _ =>
      have hdead : w₂.isAlive l.context.id = false := (tickLoop_turn htook.turn).grows.dead hdead
      refine .ended k (some .cancelled) ?_
      exact {
        unscheduled := hgone rfl
        events := hevents
        final := by simp
        cancelled := hcancelled
        dead := hlater.dead (h.context ▸ hdead)
        released := by simp
        finished := by simp }
    | waited =>
      refine .active l k ?_
      exact { h with
        scheduled := htook.remains l rfl
        seen := fun hd => (hseen hd).grow hlater
        events := by simpa using hevents
        firings := by simpa using hfirings
        uncancelled := hcancelled }
  | some r =>
    obtain rfl : event = some r.event := hturn.event_eq
    have hleft := h.left
    by_cases hran : r.event = .ran
    · obtain ⟨hended, l', hkept, hid, hgrows, hless, hmore⟩ := hturn.goesOn hran
      refine .active l' (k + 1) ?_
      exact {
        scheduled := htook.remains l' hkept
        named := hid.trans h.named
        context := hgrows.id.trans h.context
        script := hgrows.script.trans h.script
        seen := fun hd => (hgrows.released hseen hd).grow hlater
        events := by rw [hevents, List.replicate_succ', hran]; rfl
        firings := by simp [hfirings, List.replicate_succ', hended]
        uncancelled := hcancelled
        left := by omega
        more := fun _ => hmore }
    · obtain ⟨hnone, hfinished, hreleased⟩ := hturn.ends hran
      have hc : w'.Released c :=
        ((hreleased hseen).grow hlater).same h.context.symm h.script.symm
      refine .ended k (some r.event) ?_
      exact {
        unscheduled := hgone hnone
        events := hevents
        final := by simpa using hran
        cancelled := hcancelled
        dead := hc.dead
        released := fun _ => hc
        finished := fun he => by
          obtain ⟨hended, hlast⟩ := hfinished (Option.some.inj he)
          refine ⟨by simp [hfirings, List.replicate_succ', hended], fun hn => ?_⟩
          have hmore := h.more hn
          omega }

theorem Active.cancel (h : Active H sched w id c l k)
    (hloops : ∀ l ∈ sched'.loops, l.id ≠ id) :
    Life (H ++ [.cancelled id true]) sched' (w.dispose l.context).2.2 id c := by
  have hc := (World.dispose_released h.seen).same h.context.symm h.script.symm
  refine .ended k none ?_
  exact {
    unscheduled := hloops
    events := by simp [h.events, Act.eventsOf]
    final := by simp
    cancelled := by simp [Act.cancels]
    dead := hc.dead
    released := fun _ => hc
    finished := by simp }

-- ---------------------------------------------------------------------------
-- All loops of a scheduler
-- ---------------------------------------------------------------------------

structure Consistent (H : History) (sched : Scheduler) (w : World) : Prop where
  ids : H.adoptions.map Prod.fst = .range sched.nextId
  ordered : (sched.loops.map Loop.id).Pairwise (· < ·)
  bounded : ∀ l ∈ sched.loops, l.id < sched.nextId
  lives : ∀ a ∈ H.adoptions, Life H sched w a.1 a.2
  unborn : ∀ i, sched.nextId ≤ i →
    H.eventsOf i = [] ∧ H.firingsOf i = [] ∧ H.cancelled i = false
  made : ∀ a ∈ H.adoptions, a.2.id < w.nextContext
  revoked : ∀ i, .revoked i ∈ H → w.isAlive i = false

namespace Consistent

theorem adopted_iff (h : Consistent H sched w) :
    id ∈ H.adoptions.map Prod.fst ↔ id < sched.nextId := by
  rw [h.ids, List.mem_range]

theorem unique (h : Consistent H sched w) (hl : l ∈ sched.loops) (hl' : l' ∈ sched.loops)
    (hid : l.id = l'.id) : l = l' :=
  List.inj_on_of_nodup_map (h.ordered.imp Nat.ne_of_lt) hl hl' hid

theorem mem_ids_iff (h : Consistent H sched w) :
    id ∈ sched.loops.map Loop.id ↔ id ∈ H.adoptions.map Prod.fst ∧ H.ended id = false := by
  constructor
  · intro hid
    obtain ⟨l, hl, rfl⟩ := List.mem_map.mp hid
    have hadopted := h.adopted_iff.mpr (h.bounded l hl)
    obtain ⟨a, ha, hid⟩ := List.mem_map.mp hadopted
    refine ⟨hadopted, ?_⟩
    cases h.lives a ha with
    | active _ _ hactive => exact hid ▸ hactive.not_ended
    | ended _ _ hover => exact absurd hid.symm (hover.unscheduled l hl)
  · rintro ⟨hadopted, hended⟩
    obtain ⟨a, ha, rfl⟩ := List.mem_map.mp hadopted
    cases h.lives a ha with
    | active l _ hactive => exact List.mem_map.mpr ⟨l, hactive.scheduled, hactive.named⟩
    | ended _ _ hover => exact absurd hover.ended (by simp [hended])

theorem activeCount_eq (h : Consistent H sched w) :
    sched.activeCount = H.adoptions.countP fun a => !H.ended a.1 := by
  have hloops : sched.loops.map Loop.id =
      (H.adoptions.map Prod.fst).filter fun i => !H.ended i := by
    refine List.Pairwise.eq_of_mem_iff h.ordered ?_ fun i => ?_
    · rw [h.ids]
      exact List.pairwise_lt_range.filter _
    · rw [h.mem_ids_iff, List.mem_filter, Bool.not_eq_true']
  rw [activeCount, ← List.length_map Loop.id, hloops, ← List.countP_eq_length_filter,
    List.countP_map]
  rfl

theorem grow (h : Consistent H sched w) (hw : w.Grows (fun _ => True) w') :
    Consistent H sched w' :=
  { h with
    lives := fun a ha => (h.lives a ha).grow hw
    made := fun a ha => Nat.lt_of_lt_of_le (h.made a ha) hw.contexts
    revoked := fun i hi => hw.dead (h.revoked i hi) }

theorem empty (w : World) : Consistent [] .empty w where
  ids := rfl
  ordered := .nil
  bounded := by simp [Scheduler.empty]
  lives := by simp [History.adoptions]
  unborn _ _ := ⟨rfl, rfl, rfl⟩
  made := by simp [History.adoptions]
  revoked := by simp

theorem adopt (h : Consistent H sched w) (hc : c.id < w.nextContext)
    (hseen : c.disposed = true → w.Released c)
    (ha : sched.adopt now c w = some (id, sched', w')) :
    Consistent (H ++ [.adopted id c]) sched' w' := by
  obtain ⟨k, hk, rfl, rfl, rfl⟩ := adopt_eq_some ha
  refine grow ?_ (.log w _)
  obtain ⟨hevents, hfirings, hcancelled⟩ := h.unborn sched.nextId (Nat.le_refl _)
  exact {
    ids := by simp [Act.adoption?, h.ids, List.range_succ]
    ordered := by
      rw [List.map_append, List.pairwise_append]
      refine ⟨h.ordered, by simp, fun i hi j hj => ?_⟩
      obtain ⟨l, hl, rfl⟩ := List.mem_map.mp hi
      obtain rfl : j = sched.nextId := by simpa using hj
      exact h.bounded l hl
    bounded := fun l hl => by
      obtain hl | hl := List.mem_append.mp hl
      · exact Nat.lt_succ_of_lt (h.bounded l hl)
      · obtain rfl := List.mem_singleton.mp hl
        exact Nat.lt_succ_self _
    lives := fun a ha => by
      rw [History.adoptions_append] at ha
      obtain ha | ha := List.mem_append.mp ha
      · have hlt : a.1 < sched.nextId := h.adopted_iff.mp (List.mem_map_of_mem ha)
        refine (h.lives a ha).idle ⟨rfl, rfl, rfl⟩ fun l hid => ?_
        have hne : l.id ≠ sched.nextId := hid ▸ Nat.ne_of_lt hlt
        simp only [List.mem_append, List.mem_singleton]
        exact ⟨fun hl => hl.resolve_right fun heq => hne (by rw [heq]), .inl⟩
      · obtain rfl : a = (sched.nextId, c) := by simpa [Act.adoption?] using ha
        refine .active ⟨sched.nextId, { c with continuation := none }, k, now + k.interval⟩ 0 ?_
        exact {
          scheduled := List.mem_append_right _ List.mem_cons_self
          named := rfl
          context := rfl
          script := rfl
          seen := fun hd => (hseen hd).same rfl rfl
          events := by simp [hevents, Act.eventsOf]
          firings := by simp [hfirings, Act.firingsOf]
          uncancelled := by simp [hcancelled, Act.cancels]
          left := by simp [Context.iterations, hk]
          more := by simp [Context.iterations, hk] }
    unborn := fun i hi => by
      obtain ⟨hevents, hfirings, hcancelled⟩ := h.unborn i (Nat.le_of_succ_le hi)
      simp [hevents, hfirings, hcancelled, Act.eventsOf, Act.firingsOf, Act.cancels]
    made := fun a ha => by
      rw [History.adoptions_append] at ha
      obtain ha | ha := List.mem_append.mp ha
      · exact h.made a ha
      · obtain rfl : a = (sched.nextId, c) := by simpa [Act.adoption?] using ha
        exact hc
    revoked := fun i hi => h.revoked i (by simpa using hi) }

theorem act (h : Consistent H sched w) (hw : w.Grows (fun _ => True) w')
    (hnone : a.adoption? = none) (hnext : sched'.nextId = sched.nextId)
    (hloops : (sched'.loops.map Loop.id).Sublist (sched.loops.map Loop.id))
    (hquiet : ∀ i ∉ sched.loops.map Loop.id, a.Spares i)
    (hlives : ∀ i c l k, Active H sched w i c l k → Life (H ++ [a]) sched' w' i c)
    (hrevoked : ∀ i, a = .revoked i → w'.isAlive i = false) :
    Consistent (H ++ [a]) sched' w' := by
  have hadoptions : History.adoptions (H ++ [a]) = H.adoptions := by simp [hnone]
  exact {
    ids := by rw [hadoptions, hnext, h.ids]
    ordered := h.ordered.sublist hloops
    bounded := fun l hl => by
      obtain ⟨l', hl', hid⟩ := List.mem_map.mp (hloops.subset (List.mem_map_of_mem hl))
      exact hnext ▸ hid ▸ h.bounded l' hl'
    lives := fun b hb => by
      rw [hadoptions] at hb
      cases h.lives b hb with
      | active l k hactive => exact hlives _ _ l k hactive
      | ended k last hover =>
        have hnot : b.1 ∉ sched.loops.map Loop.id := fun hmem => by
          obtain ⟨l, hl, hid⟩ := List.mem_map.mp hmem
          exact hover.unscheduled l hl hid
        refine ((Life.ended k last hover).grow hw).idle (hquiet _ hnot) fun l hid => ?_
        refine ⟨fun hl => ?_, fun hl => absurd hid (hover.unscheduled l hl)⟩
        exact absurd (hid ▸ hloops.subset (List.mem_map_of_mem hl)) hnot
    unborn := fun i hi => by
      have hnot : i ∉ sched.loops.map Loop.id := fun hmem => by
        obtain ⟨l, hl, rfl⟩ := List.mem_map.mp hmem
        exact absurd (h.bounded l hl) (Nat.not_lt.mpr (hnext ▸ hi))
      obtain ⟨hevents, hfirings, hcancelled⟩ := h.unborn i (hnext ▸ hi)
      have hspares := hquiet i hnot
      simp [hevents, hfirings, hcancelled, hspares.events, hspares.firings, hspares.cancels]
    made := fun b hb => by
      rw [hadoptions] at hb
      exact Nat.lt_of_lt_of_le (h.made b hb) hw.contexts
    revoked := fun i hi => by
      obtain hi | hi := List.mem_append.mp hi
      · exact hw.dead (h.revoked i hi)
      · exact hrevoked i (List.mem_singleton.mp hi).symm }

theorem tick (h : Consistent H sched w)
    (ht : sched.tick handlers n now w = some (events, sched', w')) :
    Consistent (H ++ [.ticked events (firings handlers n now sched.loops w)]) sched' w' := by
  obtain ⟨hl, hnext⟩ := tick_eq_some ht
  have horder := tickLoops_inOrder hl
  have hw : w.Grows (fun _ => True) w' := (tickLoops_grows hl).mono fun _ _ => trivial
  refine h.act hw rfl hnext horder.rest ?_ ?_ (by simp)
  · intro i hi
    exact ⟨about_of_not_mem fun hmem => hi (horder.events.subset hmem),
      about_of_not_mem fun hmem => hi (horder.played.subset (firings_keys ▸ hmem)), rfl⟩
  · intro i c l k hactive
    obtain ⟨event, kept, w₂, htook⟩ := tickLoops_took hl h.ordered hactive.scheduled
    exact hactive.tick htook

theorem cancel (h : Consistent H sched w) (hc : sched.cancel id w = (answer, sched', w')) :
    Consistent (H ++ [.cancelled id answer]) sched' w' := by
  obtain ⟨rfl, rfl, rfl⟩ | ⟨rfl, rfl, l, hl, rfl, rfl⟩ := cancel_cases hc
  · have hspares (i : LoopId) : (Act.cancelled id false).Spares i :=
      ⟨rfl, rfl, by simp [Act.cancels]⟩
    refine h.act (.refl _) rfl rfl (.refl _) (fun i _ => hspares i) ?_ (by simp)
    exact fun i c l k hactive => (Life.active l k hactive).idle (hspares i) (by simp)
  · have hspares (i : LoopId) (hne : l.id ≠ i) : (Act.cancelled l.id true).Spares i :=
      ⟨rfl, rfl, by simp [Act.cancels, hne]⟩
    refine h.act (.dispose _ _) rfl rfl (.map _ List.filter_sublist) ?_ ?_ (by simp)
    · exact fun i hi => hspares i fun heq => hi (heq ▸ List.mem_map_of_mem hl)
    · intro i c l' k hactive
      by_cases hid : l.id = i
      · obtain rfl : l' = l := h.unique hactive.scheduled hl (hactive.named.trans hid.symm)
        subst hid
        exact hactive.cancel (by simp)
      · refine ((Life.active l' k hactive).idle (hspares i hid) ?_).grow (.dispose _ _)
        intro l₁ hl₁
        simp [hl₁, Ne.symm hid]

theorem revoke (h : Consistent H sched w) (i : ContextId) :
    Consistent (H ++ [.revoked i]) sched (w.cancel i) := by
  refine h.act (.cancel _ _) rfl rfl (.refl _) (fun _ _ => ⟨rfl, rfl, rfl⟩) ?_ ?_
  · intro i c l k hactive
    exact ((Life.active l k hactive).idle ⟨rfl, rfl, rfl⟩ (by simp)).grow (.cancel _ _)
  · rintro j ⟨⟩
    exact w.cancel_dead i

end Consistent

-- ---------------------------------------------------------------------------
-- Whole histories
-- ---------------------------------------------------------------------------

theorem Run.consistent (h : Run handlers H sched w) : Consistent H sched w := by
  induction h with
  | start w => exact .empty w
  | adopt _ hc hseen ha ih => exact ih.adopt hc hseen ha
  | tick _ ht ih => exact ih.tick ht
  | cancel _ hc ih => exact ih.cancel hc
  | revoke _ ih => exact ih.revoke _
  | elsewhere _ hw ih => exact ih.grow hw

structure Fits (sched : Scheduler) (a : Act) : Prop where
  ordered : ∀ events fired, a = .ticked events fired → (events.map Prod.fst).Pairwise (· < ·)
  silent : ∀ i ∉ sched.loops.map Loop.id, a.eventsOf i = []

theorem Consistent.tick_fits (h : Consistent H sched w)
    (ht : sched.tick handlers n now w = some (events, sched', w')) :
    Fits sched (.ticked events (firings handlers n now sched.loops w)) := by
  have hevents := (tickLoops_inOrder (tick_eq_some ht).1).events
  refine ⟨?_, fun i hi => about_of_not_mem fun hmem => hi (hevents.subset hmem)⟩
  rintro _ _ ⟨⟩
  exact h.ordered.sublist hevents

/-- What holds of the empty history and is kept by acts that fit holds of all. -/
theorem Run.along (P : History → Prop) (h : Run handlers H sched w) (hnil : P [])
    (hact : ∀ H sched w a, Consistent H sched w → Fits sched a → P H → P (H ++ [a])) : P H := by
  induction h with
  | start => exact hnil
  | tick hrun ht ih => exact hact _ _ _ _ hrun.consistent (hrun.consistent.tick_fits ht) ih
  | adopt hrun | cancel hrun | revoke hrun =>
    rename_i ih
    exact hact _ _ _ _ hrun.consistent ⟨by simp, fun _ _ => rfl⟩ ih
  | elsewhere _ _ ih => exact ih

theorem Run.ordered (h : Run handlers H sched w) : H.Ordered := by
  refine h.along History.Ordered (by simp [History.Ordered]) ?_
  intro H _ _ a _ ha ih events fired hmem
  obtain hmem | hmem := List.mem_append.mp hmem
  · exact ih events fired hmem
  · exact ha.ordered events fired (List.mem_singleton.mp hmem).symm

theorem Run.silent (h : Run handlers H sched w) (id : LoopId) : H.SilentAfterEnd id := by
  refine h.along (History.SilentAfterEnd · id) ?_ ?_
  · intro H₁ H₂ hsplit _
    rw [(List.append_eq_nil_iff.mp hsplit.symm).2]
    rfl
  · intro H sched w a hc ha ih H₁ H₂ hsplit hended
    obtain rfl | ⟨H₃, b, rfl⟩ := H₂.eq_nil_or_concat'
    · rfl
    · rw [← List.append_assoc] at hsplit
      obtain ⟨rfl, hb⟩ := List.append_inj' hsplit rfl
      obtain rfl : a = b := by simpa using hb
      -- the loop had ended before the last act, which is about scheduled loops only
      have hnot : id ∉ sched.loops.map Loop.id := fun hmem => by
        have hopen := (hc.mem_ids_iff.mp hmem).2
        simp [History.ended_append hended] at hopen
      simp [ih H₁ H₃ rfl hended, ha.silent id hnot]

/-- The events about a loop: iterations with more left, and at most one event of another
kind behind them. -/
theorem Consistent.eventsOf_eq (h : Consistent H sched w) (id : LoopId) :
    ∃ k last, H.eventsOf id = .replicate k .ran ++ Option.toList last ∧ last ≠ some .ran := by
  by_cases hid : id < sched.nextId
  · obtain ⟨a, ha, rfl⟩ := List.mem_map.mp (h.adopted_iff.mpr hid)
    cases h.lives a ha with
    | active l k hactive => exact ⟨k, none, by simp [hactive.events], by simp⟩
    | ended k last hover => exact ⟨k, last, hover.events, hover.final⟩
  · exact ⟨0, none, (h.unborn id (Nat.not_lt.mp hid)).1, by simp⟩

theorem Life.last_mem (h : Life H sched w id c) (he : e ∈ H.eventsOf id) (hran : e ≠ .ran) :
    ∃ k, Over H sched w id c k (some e) := by
  cases h with
  | active l k h => simp [h.events, hran] at he
  | ended k last h =>
    obtain rfl : last = some e := by simpa [h.events, hran] using he
    exact ⟨k, h⟩

theorem Life.released_of_mem (h : Life H sched w id c) (he : e ∈ H.eventsOf id) (hran : e ≠ .ran)
    (hcancelled : e ≠ .cancelled) : w.Released c := by
  obtain ⟨k, hover⟩ := h.last_mem he hran
  exact hover.released (by simpa using hcancelled)

theorem Life.released_of_cancelled (h : Life H sched w id c) (hcancelled : H.cancelled id = true) :
    w.Released c := by
  cases h with
  | active l k h => simp [h.uncancelled] at hcancelled
  | ended k last h =>
    obtain rfl : last = none := by simpa [h.cancelled] using hcancelled
    exact h.released (by simp)

theorem Life.dead_of_ended (h : Life H sched w id c) (hended : H.ended id = true) :
    w.isAlive c.id = false := by
  cases h with
  | active l k h => simp [h.not_ended] at hended
  | ended k last h => exact h.dead

/-- A tick neither runs the block of a loop whose context is cancelled nor enters a
handler for that context. -/
theorem Consistent.tick_spares (h : Consistent H sched w) (ha : (id, c) ∈ H.adoptions)
    (hdead : w.isAlive c.id = false)
    (ht : sched.tick handlers n now w = some (events, sched', w')) :
    id ∉ (firings handlers n now sched.loops w).map Prod.fst ∧
      ∃ news, w'.trace = news ++ w.trace ∧ ∀ d, .dispatch d ∈ news → d.id ≠ c.id := by
  have hticks := (tick_eq_some ht).1
  constructor
  · intro hmem
    obtain ⟨l, hl, hid, halive⟩ := firings_alive hticks h.ordered hmem
    cases h.lives _ ha with
    | active l' k hactive =>
      obtain rfl : l' = l := h.unique hactive.scheduled hl (hactive.named.trans hid.symm)
      simp [hactive.context, hdead] at halive
    | ended k last hover => exact hover.unscheduled l hl hid
  · obtain ⟨news, hnews, hown⟩ := (tickLoops_grows hticks).trace
    refine ⟨news, hnews, fun d hd heq => ?_⟩
    -- handlers are entered for contexts that are alive, or that the tick itself made
    obtain halive | hle := hown d hd
    · simp [heq, hdead] at halive
    · exact Nat.lt_irrefl _ (Nat.lt_of_lt_of_le (h.made _ ha) (heq ▸ hle))

structure Lawful (handlers : Handlers) (H : History) (sched : Scheduler) (w : World) : Prop where
  ids : H.adoptions.map Prod.fst = .range sched.nextId
  loops : (sched.loops.map Loop.id).Pairwise (· < ·)
  ticks : H.Ordered
  events : ∀ id, ∃ k last, H.eventsOf id = .replicate k .ran ++ Option.toList last ∧
    last ≠ some .ran
  silent : ∀ id, H.SilentAfterEnd id
  scheduled : ∀ id, sched.isScheduled id = true ↔
    id ∈ H.adoptions.map Prod.fst ∧ H.ended id = false
  active : sched.activeCount = H.adoptions.countP fun a => !H.ended a.1
  /-- A loop that was adopted with iterations left and finishes has run all of them. -/
  finished : ∀ id c, (id, c) ∈ H.adoptions → 1 ≤ c.iterations → .finished ∈ H.eventsOf id →
    H.eventsOf id = .replicate (c.iterations - 1) .ran ++ [.finished] ∧
      H.firingsOf id = .replicate c.iterations (.ok none)
  released : ∀ id c, (id, c) ∈ H.adoptions →
    (∃ e ∈ [.finished, .stopped, .failed], e ∈ H.eventsOf id) ∨ H.cancelled id = true →
      w.Released c
  /-- From its end on, or once its context is cancelled from outside, ticks do not run a
  loop any more. -/
  idle : ∀ id c, (id, c) ∈ H.adoptions → H.ended id = true ∨ .revoked c.id ∈ H →
    ∀ n now events sched' w', sched.tick handlers n now w = some (events, sched', w') →
      id ∉ (firings handlers n now sched.loops w).map Prod.fst ∧
        ∃ news, w'.trace = news ++ w.trace ∧ ∀ d, .dispatch d ∈ news → d.id ≠ c.id

theorem Run.lawful (h : Run handlers H sched w) : Lawful handlers H sched w := by
  have hc := h.consistent
  exact {
    ids := hc.ids
    loops := hc.ordered
    ticks := h.ordered
    events := hc.eventsOf_eq
    silent := h.silent
    scheduled := fun id => by rw [isScheduled_iff, hc.mem_ids_iff]
    active := hc.activeCount_eq
    finished := fun id c ha hn hmem => by
      obtain ⟨k, hover⟩ := (hc.lives _ ha).last_mem hmem (by simp)
      obtain ⟨hfirings, hk⟩ := hover.finished rfl
      rw [← hk hn]
      exact ⟨hover.events, hfirings⟩
    released := fun id c ha hend => by
      obtain ⟨e, hkind, he⟩ | hcancelled := hend
      · exact (hc.lives _ ha).released_of_mem he (by rintro rfl; simp at hkind)
          (by rintro rfl; simp at hkind)
      · exact (hc.lives _ ha).released_of_cancelled hcancelled
    idle := fun id c ha hend n now events sched' w' ht => by
      refine hc.tick_spares ha ?_ ht
      obtain hended | hrevoked := hend
      · exact (hc.lives _ ha).dead_of_ended hended
      · exact hc.revoked _ hrevoked }

def parked (id : ContextId) : Context :=
  { Context.fresh id "parked" .builtins (.shared [.ofValues "Wait" .idle []]) none with
    continuation := some { start := 0, stop := 1, remaining := 2, interval := 100 } }

/-- Two loops run once; then one is revoked and dropped by a tick that goes back in time,
and the other finishes. -/
theorem lawful_two_loops : ∃ H sched w, Run .none H sched w ∧
    H.eventsOf 0 = [.ran, .finished] ∧ H.eventsOf 1 = [.ran, .cancelled] ∧
    Lawful .none H sched w := by
  have hstart : Run .none [] .empty { World.initial (fun _ => 0) with nextContext := 3 } :=
    .start _
  have hfirst := hstart.adopt (by decide) (by simp [parked, Context.fresh])
    (show adopt _ 0 (parked 1) _ = some (0, _, _) from rfl)
  have hadopted := hfirst.adopt (by decide) (by simp [parked, Context.fresh])
    (show adopt _ 0 (parked 2) _ = some (1, _, _) from rfl)
  -- the states in between stay unevaluated, only the reported events are computed
  generalize hsched : Scheduler.mk _ _ = sched, hw : World.log _ _ = w at hadopted
  have heval : (do
      let r₁ ← sched.tick .none 2 100 w
      let r₂ ← r₁.2.1.tick .none 2 50 (r₁.2.2.cancel 2)
      let r₃ ← r₂.2.1.tick .none 2 200 r₂.2.2
      some [r₁.1, r₂.1, r₃.1]) =
      some [[(0, .ran), (1, .ran)], [(1, .cancelled)], [(0, .finished)]] := by
    rw [← hsched, ← hw]
    decide +kernel
  simp only [Option.bind_eq_bind, Option.bind_eq_some_iff, Option.some.injEq,
    List.cons.injEq] at heval
  obtain ⟨⟨e₁, s₁, w₁⟩, h₁, ⟨e₂, s₂, w₂⟩, h₂, ⟨e₃, s₃, w₃⟩, h₃, rfl, rfl, rfl, -⟩ := heval
  have hrun := (((hadopted.tick h₁).revoke (i := 2)).tick h₂).tick h₃
  exact ⟨_, s₃, w₃, hrun, rfl, rfl, hrun.lawful⟩

end Scheduler

end Playbook
