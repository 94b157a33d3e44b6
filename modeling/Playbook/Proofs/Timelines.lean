import Mathlib.Data.List.Chain
import Playbook.Proofs.Loops

/-!
# When loops fire

A timeline is the history of a scheduler with the times at which things happened: the
adoptions, and the ticks with the rounds that they gave to loops. Times may come in any
order. Everything about the rounds of one loop follows from how the loop itself goes from
round to round (`Course`); a timeline gives every loop such a course (`Timed.timely`),
whatever the other loops do and whatever happens between the ticks.
-/

namespace Playbook

namespace Scheduler

theorem tick_alone {sched sched' : Scheduler} {l : Loop} (hloops : sched.loops = [l])
    (hdue : l.isDue now w = true)
    (h : sched.tick handlers n now w = some (events, sched', w')) :
    ∃ r, rounds handlers n now sched.loops w = [(l.id, r)] ∧ r.before.world = w ∧
      events = [(l.id, r.event)] ∧ sched'.loops = (r.next l).toList ∧ w' = r.left := by
  obtain ⟨hticks, -⟩ := tick_eq_some h
  rw [hloops] at hticks ⊢
  cases hr : round handlers n now l w with
  | none => simp [tickLoops, tickLoop_of_due hdue, hr] at hticks
  | some r =>
    simp only [tickLoops, tickLoop_of_due hdue, hr, Option.map_some, Option.some.injEq,
      Prod.mk.injEq, List.append_nil] at hticks
    obtain ⟨rfl, hrest, rfl⟩ := hticks
    obtain ⟨-, -, hbefore, -⟩ := round_eq_some hr
    refine ⟨r, ?_, by rw [hbefore], rfl, hrest.symm, rfl⟩
    simp [rounds, hr, tickLoop_of_due hdue]

end Scheduler

-- ---------------------------------------------------------------------------
-- The course of one loop
-- ---------------------------------------------------------------------------

inductive Course (handlers : Handlers) (l₀ : Loop) : List Round → Option Loop → Prop
  | start : Course handlers l₀ [] (some l₀)
  | round {r : Round} : Course handlers l₀ rs (some l) → l.nextFire ≤ r.time →
      r.before.context = l.context →
      runBlock handlers n l.continuation.start l.continuation.stop r.before =
        some (r.ended, r.after) →
      r.event = (Scheduler.conclude l.continuation r.ended).1 →
      Course handlers l₀ (rs ++ [r]) (r.next l)

/-- When a loop is due that has had these rounds: an interval after the last one, or at its
first time. -/
def Loop.dueAfter (l : Loop) (rs : List Round) : Nat :=
  match rs.getLast? with
  | none => l.nextFire
  | some r => r.time + l.continuation.interval

theorem Course.continuation_eq (h : Course handlers l₀ rs kept) (hkept : kept = some l) :
    l.continuation =
      { l₀.continuation with remaining := l₀.continuation.remaining - rs.length } := by
  induction h generalizing l with
  | start => cases hkept; rfl
  | @round rs l n r hc _ _ _ hevent ih =>
    obtain ⟨hran, rfl⟩ := Round.next_eq_some hkept
    obtain ⟨hended, -⟩ := Scheduler.conclude_eq_ran.mp (hevent.symm.trans hran)
    simp only [hended, Scheduler.conclude, ih rfl, List.length_append, List.length_singleton,
      Nat.sub_sub]

theorem Course.nextFire_eq (h : Course handlers l₀ rs (some l)) : l.nextFire = l₀.dueAfter rs := by
  generalize hkept : some l = kept at h
  cases h with
  | start => cases hkept; rfl
  | round hc =>
    obtain ⟨-, rfl⟩ := Round.next_eq_some hkept.symm
    simp [Loop.dueAfter, hc.continuation_eq rfl]

structure Paced (l₀ : Loop) (rs : List Round) : Prop where
  early : ∀ r ∈ rs, l₀.nextFire ≤ r.time
  spaced : rs.IsChain fun r r' => r.time + l₀.continuation.interval ≤ r'.time

theorem Course.paced (h : Course handlers l₀ rs kept) : Paced l₀ rs := by
  induction h with
  | start => exact ⟨by simp, .nil⟩
  | @round rs l n r hc hdue _ _ _ ih =>
    rw [hc.nextFire_eq] at hdue
    have hlast : ∀ r' ∈ rs.getLast?, r'.time + l₀.continuation.interval ≤ r.time := by
      intro r' hr'
      simpa [Loop.dueAfter, Option.mem_def.mp hr'] using hdue
    constructor
    · intro r' hr'
      rcases List.mem_append.mp hr' with hr' | hr'
      · exact ih.early r' hr'
      · obtain rfl := List.mem_singleton.mp hr'
        cases hrs : rs.getLast? with
        | none => simpa [Loop.dueAfter, hrs] using hdue
        | some r₁ =>
          have hfirst := ih.early r₁ (List.mem_of_getLast? hrs)
          have := hlast r₁ hrs
          omega
    · rw [List.isChain_append]
      refine ⟨ih.spaced, .singleton _, ?_⟩
      rintro r₁ hr₁ _ ⟨⟩
      exact hlast r₁ hr₁

-- ---------------------------------------------------------------------------
-- Timelines
-- ---------------------------------------------------------------------------

inductive Moment where
  | adopted (now : Nat) (id : LoopId) (c : Context)
  | ticked (now : Nat) (events : List (LoopId × LoopEvent)) (rounds : List (LoopId × Round))
  | cancelled (id : LoopId)

def Moment.eventsOf (id : LoopId) : Moment → List LoopEvent
  | .ticked _ events _ => about id events
  | _ => []

def Moment.roundsOf (id : LoopId) : Moment → List Round
  | .ticked _ _ rounds => about id rounds
  | _ => []

def Moment.Single : Moment → Prop
  | .ticked now _ rounds => ∀ id, (about id rounds).length ≤ 1 ∧ ∀ r ∈ about id rounds, r.time = now
  | _ => True

abbrev Timeline := List Moment

namespace Timeline

def eventsOf (H : Timeline) (id : LoopId) : List LoopEvent := H.flatMap (Moment.eventsOf id)

def roundsOf (H : Timeline) (id : LoopId) : List Round := H.flatMap (Moment.roundsOf id)

@[simp] theorem eventsOf_concat (H : Timeline) (m : Moment) (id : LoopId) :
    eventsOf (H ++ [m]) id = H.eventsOf id ++ m.eventsOf id := by
  simp [eventsOf]

@[simp] theorem roundsOf_concat (H : Timeline) (m : Moment) (id : LoopId) :
    roundsOf (H ++ [m]) id = H.roundsOf id ++ m.roundsOf id := by
  simp [roundsOf]

end Timeline

def Loop.adopted (id : LoopId) (now : Nat) (c : Context) (k : Continuation) : Loop :=
  { id, context := { c with continuation := none }, continuation := k
    nextFire := now + k.interval }

namespace Scheduler

/-- The timelines of a scheduler, with where they lead. A context that is adopted was made
in this world and is handed over, so that no loop has it already; between the acts anything
may happen in the world. -/
inductive Timed (handlers : Handlers) : Timeline → Scheduler → World → Prop
  | start (w : World) : Timed handlers [] .empty w
  | adopt {id : LoopId} : Timed handlers H sched w → c.id < w.nextContext →
      (∀ l ∈ sched.loops, l.context.id ≠ c.id) → sched.adopt now c w = some (id, sched', w') →
      Timed handlers (H ++ [.adopted now id c]) sched' w'
  | tick : Timed handlers H sched w → sched.tick handlers n now w = some (events, sched', w') →
      Timed handlers (H ++ [.ticked now events (rounds handlers n now sched.loops w)]) sched' w'
  | cancel {id : LoopId} : Timed handlers H sched w → sched.cancel id w = (answer, sched', w') →
      Timed handlers (H ++ [.cancelled id]) sched' w'
  | elsewhere : Timed handlers H sched w → w.Grows (fun _ => True) w' → Timed handlers H sched w'

/-- The rounds of a loop are those of its course, at the end of which it is as the scheduler
has it, if it has it at all. -/
def Follows (handlers : Handlers) (H : Timeline) (sched : Scheduler) (l₀ : Loop) : Prop :=
  ∃ kept, Course handlers l₀ (H.roundsOf l₀.id) kept ∧
    ∀ l ∈ sched.loops, l.id = l₀.id → kept = some l

structure Orderly (sched : Scheduler) (w : World) : Prop where
  ordered : (sched.loops.map Loop.id).Pairwise (· < ·)
  bounded : ∀ l ∈ sched.loops, l.id < sched.nextId
  made : ∀ l ∈ sched.loops, l.context.id < w.nextContext
  owners : ∀ l ∈ sched.loops, ∀ l' ∈ sched.loops, l.context.id = l'.context.id → l.id = l'.id

structure Timely (handlers : Handlers) (H : Timeline) (sched : Scheduler) (w : World) : Prop
    extends Orderly sched w where
  unborn : ∀ i, sched.nextId ≤ i → H.roundsOf i = [] ∧ ∀ now c, .adopted now i c ∉ H
  followed : ∀ now id c k, .adopted now id c ∈ H → c.continuation = some k →
    Follows handlers H sched (.adopted id now c k)
  reported : ∀ id, (H.eventsOf id).filter (· ≠ .cancelled) = (H.roundsOf id).map Round.event
  single : ∀ m ∈ H, Moment.Single m

variable {sched sched' : Scheduler} {w w' : World}

theorem Orderly.remain (h : Orderly sched w)
    (hids : (sched'.loops.map Loop.id).Sublist (sched.loops.map Loop.id))
    (hfrom : ∀ l' ∈ sched'.loops, ∃ l ∈ sched.loops, l'.id = l.id ∧ l'.context.id = l.context.id)
    (hnext : sched'.nextId = sched.nextId) (hw : w.nextContext ≤ w'.nextContext) :
    Orderly sched' w' := by
  constructor
  · exact h.ordered.sublist hids
  · intro l' hl'
    obtain ⟨l, hl, hid, -⟩ := hfrom l' hl'
    rw [hid, hnext]
    exact h.bounded l hl
  · intro l' hl'
    obtain ⟨l, hl, -, hid⟩ := hfrom l' hl'
    rw [hid]
    exact Nat.lt_of_lt_of_le (h.made l hl) hw
  · intro l₁ hl₁ l₂ hl₂ heq
    obtain ⟨l, hl, hid, hcid⟩ := hfrom l₁ hl₁
    obtain ⟨l', hl', hid', hcid'⟩ := hfrom l₂ hl₂
    rw [hid, hid']
    exact h.owners l hl l' hl' (hcid.symm.trans (heq.trans hcid'))

theorem Orderly.adopt (h : Orderly sched w) (hc : c.id < w.nextContext)
    (hfree : ∀ l ∈ sched.loops, l.context.id ≠ c.id)
    (ha : sched.adopt now c w = some (i, sched', w')) : Orderly sched' w' := by
  obtain ⟨k, hk, rfl, rfl, rfl⟩ := adopt_eq_some ha
  constructor
  · rw [List.map_append, List.pairwise_append]
    refine ⟨h.ordered, by simp, fun i hi j hj => ?_⟩
    obtain ⟨l, hl, rfl⟩ := List.mem_map.mp hi
    obtain rfl : j = sched.nextId := by simpa using hj
    exact h.bounded l hl
  · intro l hl
    rcases List.mem_append.mp hl with hl | hl
    · exact Nat.lt_succ_of_lt (h.bounded l hl)
    · obtain rfl := List.mem_singleton.mp hl
      exact Nat.lt_succ_self _
  · intro l hl
    rcases List.mem_append.mp hl with hl | hl
    · exact h.made l hl
    · obtain rfl := List.mem_singleton.mp hl
      exact hc
  · intro l hl l' hl' heq
    rcases List.mem_append.mp hl with hl | hl <;> rcases List.mem_append.mp hl' with hl' | hl'
    · exact h.owners l hl l' hl' heq
    · obtain rfl := List.mem_singleton.mp hl'
      exact absurd heq (hfree l hl)
    · obtain rfl := List.mem_singleton.mp hl
      exact absurd heq.symm (hfree l' hl')
    · rw [List.mem_singleton.mp hl, List.mem_singleton.mp hl']

theorem Orderly.tick (h : Orderly sched w)
    (ht : sched.tick handlers n now w = some (events, sched', w')) : Orderly sched' w' := by
  obtain ⟨hloops, hnext⟩ := tick_eq_some ht
  have horder := tickLoops_inOrder hloops
  exact h.remain horder.rest horder.kept hnext (tickLoops_grows hloops).contexts

theorem cancel_keeps {id : LoopId} (hc : sched.cancel id w = (answer, sched', w')) :
    sched'.loops.Sublist sched.loops ∧ sched'.nextId = sched.nextId ∧
      w.nextContext ≤ w'.nextContext := by
  obtain ⟨-, rfl, rfl⟩ | ⟨-, rfl, l, hl, rfl, rfl⟩ := cancel_cases hc
  · exact ⟨.refl _, rfl, Nat.le_refl _⟩
  · have hgrow : w.Grows (fun _ => True) (w.dispose l.context).2.2 := .dispose _ _
    exact ⟨List.filter_sublist, rfl, hgrow.contexts⟩

theorem Orderly.cancel {id : LoopId} (h : Orderly sched w)
    (hc : sched.cancel id w = (answer, sched', w')) : Orderly sched' w' := by
  obtain ⟨hsub, hnext, hw⟩ := cancel_keeps hc
  exact h.remain (hsub.map _) (fun l hl => ⟨l, hsub.subset hl, rfl, rfl⟩) hnext hw

theorem Orderly.took (h : Orderly sched w) {l : Loop} (hl : l ∈ sched.loops)
    (ht : sched.tick handlers n now w = some (events, sched', w')) :
    ∃ event kept w₂, Took handlers n now sched.loops w
      (worldAt handlers n now l.id sched.loops w) w' events sched'.loops l event kept w₂ :=
  tickLoops_took (tick_eq_some ht).1 h.ordered hl

/-- A tick gives a loop its turn, or says nothing of it. -/
theorem Orderly.took_or_silent (h : Orderly sched w) (id : LoopId)
    (ht : sched.tick handlers n now w = some (events, sched', w')) :
    (∃ l ∈ sched.loops, l.id = id ∧ ∃ event kept w₂, Took handlers n now sched.loops w
      (worldAt handlers n now l.id sched.loops w) w' events sched'.loops l event kept w₂) ∨
    about id events = [] ∧ about id (rounds handlers n now sched.loops w) = [] ∧
      ∀ l ∈ sched'.loops, l.id ≠ id := by
  by_cases hid : id ∈ sched.loops.map Loop.id
  · obtain ⟨l, hl, rfl⟩ := List.mem_map.mp hid
    exact .inl ⟨l, hl, rfl, h.took hl ht⟩
  · have horder := tickLoops_inOrder (tick_eq_some ht).1
    refine .inr ⟨about_of_not_mem fun hmem => hid (horder.events.subset hmem),
      about_of_not_mem fun hmem => hid (horder.played.subset hmem), ?_⟩
    rintro l hl rfl
    exact hid (horder.rest.subset (List.mem_map_of_mem hl))

/-- Where the turns of loops cancel their own contexts and `lost` ones at most, those of the
others leave a loop as alive as it was. -/
theorem Orderly.aside_alive (h : Orderly sched w) {l : Loop} (hl : l ∈ sched.loops)
    (haside : Aside handlers n now sched.loops l u v) {I : World → Prop} (lost : ContextId → Prop)
    (hturn : ∀ o ∈ sched.loops, ∀ u event kept v, I u →
      tickLoop handlers n now o u = some (event, kept, v) →
        I v ∧ u.Spares (fun i => i = o.context.id ∨ lost i) v)
    (hu : I u) (hmade : l.context.id < u.nextContext) (hlost : ¬ lost l.context.id) :
    I v ∧ v.isAlive l.context.id = u.isAlive l.context.id := by
  have hspares := haside.keeps (R := fun u v => I u → I v ∧ u.Spares (· ≠ l.context.id) v)
    (fun u hu => ⟨hu, .refl u⟩) (fun u v w huv hvw hu => ?_)
    (fun o ho hne u event kept v hov hu => ?_)
  · obtain ⟨hv, hspared⟩ := hspares hu
    exact ⟨hv, hspared.alive _ hmade (not_not_intro rfl)⟩
  · obtain ⟨hv, hspared⟩ := huv hu
    obtain ⟨hw, hspared'⟩ := hvw hv
    exact ⟨hw, hspared.trans hspared'⟩
  · obtain ⟨hv, hspared⟩ := hturn o ho u event kept v hu hov
    refine ⟨hv, hspared.mono ?_⟩
    rintro i (rfl | hi) heq
    · exact hne (h.owners o ho l hl heq)
    · exact hlost (heq ▸ hi)

theorem Orderly.worldAt_alive (h : Orderly sched w) {l : Loop} (hl : l ∈ sched.loops)
    (ht : sched.tick handlers n now w = some (events, sched', w'))
    (hspared : ¬ handlers.Revokes l.context.id) :
    (worldAt handlers n now l.id sched.loops w).isAlive l.context.id =
      w.isAlive l.context.id := by
  obtain ⟨event, kept, w₂, htook⟩ := h.took hl ht
  exact (h.aside_alive hl htook.before (I := fun _ => True) handlers.Revokes
    (fun o _ u event kept v _ hov => ⟨trivial, (tickLoop_turn hov).spares⟩) trivial (h.made l hl)
    hspared).2

theorem Timely.empty (w : World) : Timely handlers [] .empty w where
  ordered := .nil
  bounded := by simp [Scheduler.empty]
  made := by simp [Scheduler.empty]
  owners := by simp [Scheduler.empty]
  unborn _ _ := ⟨rfl, by simp⟩
  followed := by simp
  reported _ := rfl
  single := by simp

theorem Timely.grow (h : Timely handlers H sched w) (hw : w.nextContext ≤ w'.nextContext) :
    Timely handlers H sched w' :=
  { h with made := fun l hl => Nat.lt_of_lt_of_le (h.made l hl) hw }

theorem Follows.idle (h : Follows handlers H sched l₀) (hm : m.roundsOf l₀.id = [])
    (hloops : ∀ l ∈ sched'.loops, l.id = l₀.id → l ∈ sched.loops) :
    Follows handlers (H ++ [m]) sched' l₀ := by
  obtain ⟨kept, hc, hkept⟩ := h
  refine ⟨kept, ?_, fun l hl hid => hkept l (hloops l hl hid) hid⟩
  rw [Timeline.roundsOf_concat, hm, List.append_nil]
  exact hc

theorem Timely.adopt {id : LoopId} (h : Timely handlers H sched w) (hc : c.id < w.nextContext)
    (hfree : ∀ l ∈ sched.loops, l.context.id ≠ c.id)
    (ha : sched.adopt now c w = some (id, sched', w')) :
    Timely handlers (H ++ [.adopted now id c]) sched' w' := by
  have horderly := h.toOrderly.adopt hc hfree ha
  obtain ⟨k, hk, rfl, rfl, rfl⟩ := adopt_eq_some ha
  have hold : ∀ now' i c', .adopted now' i c' ∈ H → i < sched.nextId := by
    intro now' i c' hmem
    by_contra hle
    exact (h.unborn i (Nat.not_lt.mp hle)).2 now' c' hmem
  constructor
  · exact horderly
  · intro i hi
    have hne : sched.nextId ≠ i := Nat.ne_of_lt hi
    obtain ⟨hrounds, hnot⟩ := h.unborn i (Nat.le_of_succ_le hi)
    refine ⟨by simp [hrounds, Moment.roundsOf], ?_⟩
    intro now' c' hmem
    rcases List.mem_append.mp hmem with hmem | hmem
    · exact hnot now' c' hmem
    · simp [Ne.symm hne] at hmem
  · intro now' i c' k' hmem hk'
    rcases List.mem_append.mp hmem with hmem | hmem
    · have hlt := hold now' i c' hmem
      refine (h.followed now' i c' k' hmem hk').idle rfl ?_
      intro l hl hid
      rcases List.mem_append.mp hl with hl | hl
      · exact hl
      · obtain rfl := List.mem_singleton.mp hl
        exact absurd hid (Nat.ne_of_gt hlt)
    · obtain ⟨rfl, rfl, rfl⟩ : now' = now ∧ i = sched.nextId ∧ c' = c := by simpa using hmem
      obtain rfl : k' = k := Option.some.inj (hk'.symm.trans hk)
      refine ⟨some (.adopted sched.nextId now' c' k'), ?_, ?_⟩
      · have hrounds := (h.unborn sched.nextId (Nat.le_refl _)).1
        simp only [Loop.adopted, Timeline.roundsOf_concat, hrounds, Moment.roundsOf]
        exact .start
      · intro l hl hid
        rcases List.mem_append.mp hl with hl | hl
        · exact absurd hid (Nat.ne_of_lt (h.bounded l hl))
        · rw [List.mem_singleton.mp hl, Loop.adopted]
  · intro i
    simpa [Moment.eventsOf, Moment.roundsOf] using h.reported i
  · intro m hm
    rcases List.mem_append.mp hm with hm | hm
    · exact h.single m hm
    · obtain rfl := List.mem_singleton.mp hm
      trivial

/-- The turn of a loop in a tick takes its course one round further, or leaves it. -/
theorem Follows.tick {l : Loop} (h : Follows handlers H sched l₀) (hl : l ∈ sched.loops)
    (hid : l.id = l₀.id)
    (htook : Took handlers n now sched.loops w w₁ w' events sched'.loops l event kept w₂) :
    Follows handlers (H ++ [.ticked now events (rounds handlers n now sched.loops w)]) sched'
      l₀ := by
  obtain ⟨kept₀, hc, hkept⟩ := h
  obtain rfl := hkept l hl hid
  unfold Follows
  rw [Timeline.roundsOf_concat, Moment.roundsOf, ← hid, htook.played]
  have hstays := htook.stays
  rw [← hid] at hc
  have hturn := tickLoop_turn htook.turn
  generalize round handlers n now l w₁ = played at hturn
  cases hturn with
  | dropped =>
    refine ⟨some l, by simpa using hc, ?_⟩
    intro l' hl' hid'
    cases hstays l' hl' hid'
  | waited => exact ⟨some l, by simpa using hc, hstays⟩
  | fired _ hle htime hbefore hb hevent =>
    exact ⟨_, hc.round (htime ▸ hle) (by rw [hbefore]) hb hevent, hstays⟩

theorem Timely.tick (h : Timely handlers H sched w)
    (ht : sched.tick handlers n now w = some (events, sched', w')) :
    Timely handlers (H ++ [.ticked now events (rounds handlers n now sched.loops w)]) sched'
      w' := by
  obtain ⟨-, hnext⟩ := tick_eq_some ht
  constructor
  · exact h.toOrderly.tick ht
  · intro i hi
    rw [hnext] at hi
    obtain ⟨hrounds, hnot⟩ := h.unborn i hi
    obtain ⟨l, hl, rfl, -⟩ | ⟨-, hsilent, -⟩ := h.toOrderly.took_or_silent i ht
    · exact absurd (h.bounded l hl) (Nat.not_lt.mpr hi)
    · exact ⟨by simp [hrounds, Moment.roundsOf, hsilent], by simpa using hnot⟩
  · intro now' i c k hmem hk
    have hold := h.followed now' i c k (by simpa using hmem) hk
    obtain ⟨l, hl, rfl, event, kept, w₂, htook⟩ | ⟨-, hsilent, hnone⟩ :=
      h.toOrderly.took_or_silent i ht
    · exact hold.tick hl rfl htook
    · exact hold.idle hsilent fun l hl hid => absurd hid (hnone l hl)
  · intro i
    rw [Timeline.eventsOf_concat, Timeline.roundsOf_concat, List.filter_append, List.map_append,
      h.reported i]
    congr 1
    obtain ⟨l, hl, rfl, event, kept, w₂, htook⟩ | ⟨hevents, hrounds, -⟩ :=
      h.toOrderly.took_or_silent i ht
    · simp only [Moment.eventsOf, Moment.roundsOf, htook.reported, htook.played]
      exact (tickLoop_turn htook.turn).reported
    · simp [Moment.eventsOf, Moment.roundsOf, hevents, hrounds]
  · intro m hm
    rcases List.mem_append.mp hm with hm | hm
    · exact h.single m hm
    · obtain rfl := List.mem_singleton.mp hm
      intro i
      obtain ⟨l, hl, rfl, event, kept, w₂, htook⟩ | ⟨-, hsilent, -⟩ :=
        h.toOrderly.took_or_silent i ht
      · rw [htook.played]
        cases hr : round handlers n now l (worldAt handlers n now l.id sched.loops w) with
        | none => simp
        | some r => simp [(round_eq_some hr).2.1]
      · simp [hsilent]

theorem Timely.cancel {id : LoopId} (h : Timely handlers H sched w)
    (hc : sched.cancel id w = (answer, sched', w')) :
    Timely handlers (H ++ [.cancelled id]) sched' w' := by
  obtain ⟨hsub, hnext, -⟩ := cancel_keeps hc
  have hmem : ∀ l ∈ sched'.loops, l ∈ sched.loops := fun l hl => hsub.subset hl
  constructor
  · exact h.toOrderly.cancel hc
  · intro i hi
    obtain ⟨hrounds, hnot⟩ := h.unborn i (hnext ▸ hi)
    exact ⟨by simp [hrounds, Moment.roundsOf], by simpa using hnot⟩
  · intro now i c k ha hk
    exact (h.followed now i c k (by simpa using ha) hk).idle rfl fun l hl _ => hmem l hl
  · intro i
    simpa [Moment.eventsOf, Moment.roundsOf] using h.reported i
  · intro m hm
    rcases List.mem_append.mp hm with hm | hm
    · exact h.single m hm
    · obtain rfl := List.mem_singleton.mp hm
      trivial

theorem Timed.timely (h : Timed handlers H sched w) : Timely handlers H sched w := by
  induction h with
  | start w => exact .empty w
  | adopt _ hc hfree ha ih => exact ih.adopt hc hfree ha
  | tick _ ht ih => exact ih.tick ht
  | cancel _ hc ih => exact ih.cancel hc
  | elsewhere _ hw ih => exact ih.grow hw.contexts

structure Punctual (handlers : Handlers) (H : Timeline) (sched : Scheduler) (w : World) : Prop where
  early : ∀ start id c k, .adopted start id c ∈ H → c.continuation = some k →
    ∀ r ∈ H.roundsOf id, start + k.interval ≤ r.time
  spaced : ∀ start id c k, .adopted start id c ∈ H → c.continuation = some k →
    (H.roundsOf id).IsChain fun r r' => r.time + k.interval ≤ r'.time
  once : ∀ m ∈ H, m.Single
  reported : ∀ id, (H.eventsOf id).filter (· ≠ .cancelled) = (H.roundsOf id).map Round.event
  /-- The next round is due an interval after the last one. -/
  due : ∀ start id c k, .adopted start id c ∈ H → c.continuation = some k →
    ∀ l ∈ sched.loops, l.id = id → l.nextFire = (Loop.adopted id start c k).dueAfter (H.roundsOf id)
  fires : ∀ n now events sched' w', sched.tick handlers n now w = some (events, sched', w') →
    ∀ l ∈ sched.loops, (worldAt handlers n now l.id sched.loops w).isAlive l.context.id = true →
      l.nextFire ≤ now →
        ∃ r, about l.id (rounds handlers n now sched.loops w) = [r] ∧ r.time = now ∧
          about l.id events = [r.event] ∧ r.event ≠ .cancelled
  waits : ∀ n now events sched' w', sched.tick handlers n now w = some (events, sched', w') →
    ∀ l ∈ sched.loops, (worldAt handlers n now l.id sched.loops w).isAlive l.context.id = true →
      now < l.nextFire →
        about l.id (rounds handlers n now sched.loops w) = [] ∧ about l.id events = [] ∧
          l ∈ sched'.loops
  /-- Only a handler of the host can cancel a loop between the start of a tick and its turn. -/
  alive : ∀ n now events sched' w', sched.tick handlers n now w = some (events, sched', w') →
    ∀ l ∈ sched.loops, ¬ handlers.Revokes l.context.id →
      (worldAt handlers n now l.id sched.loops w).isAlive l.context.id = w.isAlive l.context.id

theorem Timed.punctual (h : Timed handlers H sched w) : Punctual handlers H sched w := by
  have htimely := h.timely
  constructor
  · intro start id c k ha hk
    obtain ⟨kept, hc, -⟩ := htimely.followed start id c k ha hk
    exact hc.paced.early
  · intro start id c k ha hk
    obtain ⟨kept, hc, -⟩ := htimely.followed start id c k ha hk
    exact hc.paced.spaced
  · exact htimely.single
  · exact htimely.reported
  · intro start id c k ha hk l hl hid
    obtain ⟨kept, hc, hkept⟩ := htimely.followed start id c k ha hk
    obtain rfl := hkept l hl hid
    exact hc.nextFire_eq
  · intro n now events sched' w' ht l hl halive hdue
    obtain ⟨event, kept, w₂, htook⟩ := htimely.toOrderly.took hl ht
    rw [htook.played, htook.reported]
    have hturn := tickLoop_turn htook.turn
    generalize round handlers n now l _ = played at hturn
    cases hturn with
    | dropped hdead => simp [halive] at hdead
    | waited _ hlt => exact absurd hdue (Nat.not_le.mpr hlt)
    | @fired _ r _ _ htime _ _ hevent =>
      exact ⟨r, rfl, htime, rfl, hevent ▸ conclude_ne_cancelled _ _⟩
  · intro n now events sched' w' ht l hl halive hlt
    obtain ⟨event, kept, w₂, htook⟩ := htimely.toOrderly.took hl ht
    rw [htook.played, htook.reported]
    have hremains := htook.remains l
    have hturn := tickLoop_turn htook.turn
    generalize round handlers n now l _ = played at hturn
    cases hturn with
    | dropped hdead => simp [halive] at hdead
    | waited => exact ⟨rfl, rfl, hremains rfl⟩
    | fired _ hle => exact absurd hlt (Nat.not_lt.mpr hle)
  · intro n now events sched' w' ht l hl hspared
    exact htimely.toOrderly.worldAt_alive hl ht hspared

/-- Two loops with times that run late and go back: each round is an interval or more after
the one before it, and the tick that comes long after both are due gives each of them one. -/
theorem punctual_two_loops : ∃ H sched w, Timed .none H sched w ∧
    (H.roundsOf 0).map Round.time = [120, 1000] ∧ (H.roundsOf 1).map Round.time = [219, 1000] ∧
    Punctual .none H sched w := by
  have hstart : Timed .none [] .empty { World.initial (fun _ => 0) with nextContext := 3 } :=
    .start _
  have hfirst := hstart.adopt (by decide) (by simp [Scheduler.empty])
    (show adopt _ 0 (parked 1) _ = some (0, _, _) from rfl)
  have hadopted := hfirst.adopt (by decide) (by simp [parked, Context.fresh, Scheduler.empty])
    (show adopt _ 30 (parked 2) _ = some (1, _, _) from rfl)
  generalize hsched : Scheduler.mk _ _ = sched, hw : World.log _ _ = w at hadopted
  have heval : (do
      let times (now : Nat) (s : Scheduler) (w : World) :=
        (rounds .none 2 now s.loops w).map fun r => (r.1, r.2.time)
      let r₁ ← sched.tick .none 2 120 w
      let r₂ ← r₁.2.1.tick .none 2 50 r₁.2.2
      let r₃ ← r₂.2.1.tick .none 2 219 r₂.2.2
      let r₄ ← r₃.2.1.tick .none 2 1000 r₃.2.2
      some [times 120 sched w, times 50 r₁.2.1 r₁.2.2, times 219 r₂.2.1 r₂.2.2,
        times 1000 r₃.2.1 r₃.2.2]) =
      some [[(0, 120)], [], [(1, 219)], [(0, 1000), (1, 1000)]] := by
    rw [← hsched, ← hw]
    decide +kernel
  simp only [Option.bind_eq_bind, Option.bind_eq_some_iff, Option.some.injEq,
    List.cons.injEq] at heval
  obtain ⟨⟨e₁, s₁, w₁⟩, h₁, ⟨e₂, s₂, w₂⟩, h₂, ⟨e₃, s₃, w₃⟩, h₃, ⟨e₄, s₄, w₄⟩, h₄,
    t₁, t₂, t₃, t₄, -⟩ := heval
  have hrun := (((hadopted.tick h₁).tick h₂).tick h₃).tick h₄
  refine ⟨_, s₄, w₄, hrun, ?_, ?_, hrun.punctual⟩
  all_goals
    simp only [Timeline.roundsOf_concat, Moment.roundsOf, List.map_append, map_about,
      t₁, t₂, t₃, t₄]
    rfl

end Scheduler

end Playbook
