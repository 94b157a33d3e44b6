import Playbook.Proofs.Termination
import Playbook.Proofs.Timelines

/-!
# Loops do not influence each other

A loop over built-in actions that throw no dice goes its way alone: what is reported about it in
every tick, and what is left of it, is what a scheduler without any other loops would report and
have left at the same times (`Watched.mirrored`). The other loops may finish, stop, fail, run
actions for actors, join and leave meanwhile.

Two things make it so. What such actions do depends on nothing but their context (`Private`), and
no turn of a loop of built-in actions cancels a context that is not its own.
-/

namespace Playbook

-- ---------------------------------------------------------------------------
-- Runs that depend on their context only
-- ---------------------------------------------------------------------------

def Action.IsSteady (a : Action) : Prop :=
  ∃ b, a.definition.behaviour = .builtin b ∧ ¬ b.IsRandom

instance (a : Action) : Decidable a.IsSteady :=
  match h : a.definition.behaviour with
  | .builtin b => decidable_of_iff (¬ b.IsRandom) (by simp [Action.IsSteady, h])
  | .host _ | .idle => .isFalse (by simp [Action.IsSteady, h])

def Context.IsSteady (c : Context) : Prop := ∀ a ∈ c.actions, a.IsSteady

instance (c : Context) : Decidable c.IsSteady :=
  inferInstanceAs (Decidable (∀ a ∈ c.actions, a.IsSteady))

/-- Where `F` answers for a context it gives the same in all worlds. The actions stay steady. -/
def Private (F : World → Option (α × State)) : Prop :=
  ∀ w w' x t x' t', F w = some (x, t) → F w' = some (x', t') →
    x' = x ∧ t'.context = t.context ∧ t.context.IsSteady

namespace Private

variable {c d : Context}

theorem pure (hd : d.IsSteady) (g : World → World) (a : α) :
    Private fun w => some (a, ⟨d, g w⟩) := by
  rintro w w' x t x' t' ⟨⟩ ⟨⟩
  exact ⟨rfl, rfl, hd⟩

theorem bind {F : World → Option (α × State)} {G : α → State → Option (β × State)}
    (hF : Private F) (hG : ∀ a d, d.IsSteady → Private fun w => G a ⟨d, w⟩) :
    Private fun w => (F w).bind fun r => G r.1 r.2 := by
  intro w w' x t x' t' h h'
  obtain ⟨⟨a, d, v⟩, hF₁, hG₁⟩ := Option.bind_eq_some_iff.mp h
  obtain ⟨⟨a', d', v'⟩, hF₂, hG₂⟩ := Option.bind_eq_some_iff.mp h'
  obtain ⟨rfl, rfl, hsteady⟩ := hF _ _ _ _ _ _ hF₁ hF₂
  exact hG a' d' hsteady _ _ _ _ _ _ hG₁ hG₂

theorem of_eq {F G : World → Option (α × State)} (h : Private F) (hG : ∀ w, G w = F w) :
    Private G := by
  obtain rfl : G = F := funext hG
  exact h

theorem gives {F : World → Option (α × State)} (a : α) (hd : d.IsSteady)
    (hF : ∀ w, F w = some (a, ⟨d, w⟩)) : Private F :=
  (Private.pure hd id a).of_eq hF

theorem unanswered : Private fun _ => (none : Option (α × State)) := by
  rintro w w' x t x' t' ⟨⟩

end Private

def Effect.IsQuiet : Effect → Prop
  | .throwDice | .throwFloat _ _ | .newObject | .dispose => False
  | _ => True

theorem Builtin.Needs.quiet {b : Builtin} (h : b.Needs e) (hb : ¬ b.IsRandom) : e.IsQuiet := by
  cases e with
  | throwDice | throwFloat => exact absurd h hb
  | newObject | dispose => exact h.elim
  | _ => trivial

section
variable {c : Context} (hc : c.IsSteady)
include hc

theorem Effect.run_private {e : Effect} (he : e.IsQuiet) :
    Private fun w => some (e.run ⟨c, w⟩) := by
  cases e with
  | setIndex i =>
    simp only [run]
    cases hset : c.setIndex i with
    | error e => exact .pure hc id _
    | ok d =>
      unfold Context.setIndex at hset
      split at hset
      · cases hset
      · cases hset
        exact .pure (d := { c with index := i }) hc id _
  | throwDice | throwFloat | newObject | dispose => exact he.elim
  | cancel => exact .pure hc (fun w => w.cancel c.id) ()
  | revoke i => exact .pure hc (fun w => w.revoke i) ()
  | readSlot slot =>
    exact .pure hc (fun w => w.recordCalls (c.readSlot slot).calls) (c.readSlot slot).result
  | compile id args =>
    let reading := Compile.action c.registry c.script id args
    exact .pure hc (fun w => w.recordCalls reading.calls) reading.result
  | log entry => exact .pure hc (fun w => w.log entry) ()
  | note values =>
    exact .pure hc (fun w => w.record (.note ⟨c.currentId, c.index, c.actor, values⟩)) ()
  | setVariable name v => exact .pure (d := c.setVariable name v) hc id ()
  | removeVariable name =>
    exact .pure (d := c.removeVariable name) hc id (c.memory.get? name)
  | setActor actor => exact .pure (d := { c with actor }) hc id ()
  | suspend k => exact .pure (d := c.suspend k) hc id ()
  | remember key m => exact .pure (d := { c with metadata := c.metadata.set key m }) hc id ()
  | reset actor => exact .pure (d := c.reset actor) hc id ()

theorem settle_private (entry : Nat) (flags : Flags) :
    Private fun w => some (settle entry flags ⟨c, w⟩) := by
  cases hstop : flags.stop with
  | true => exact .gives (.ok flags) hc fun w => by simp [settle, hstop]
  | false =>
    cases hsuccess : flags.success with
    | false => exact .gives (.ok .halt) hc fun w => by simp [settle, hstop, hsuccess]
    | true =>
      by_cases hentry : c.index = entry
      · by_cases hlen : c.len < entry + 1
        · refine .gives (.error (c.outOfBounds (entry + 1))) hc fun w => ?_
          simp [settle, hstop, hsuccess, hentry, Context.setIndex, hlen]
        · refine .gives (d := { c with index := entry + 1 }) (.ok flags) hc fun w => ?_
          simp [settle, hstop, hsuccess, hentry, Context.setIndex, hlen]
      · exact .gives (.ok flags) hc fun w => by simp [settle, hstop, hsuccess, hentry]

theorem answer_private (entry : Nat) (a : Action) (x : Ending Flags) :
    Private fun w => some (x.answer entry a ⟨c, w⟩) := by
  cases x with
  | value flags => exact settle_private hc entry flags
  | error e => exact .pure hc id _
  | panic m => exact .pure hc id _

end

section
variable {nested : Nested}
  (hblock : ∀ start stop c, c.IsSteady → Private fun w => nested.block start stop ⟨c, w⟩)
  (heach : ∀ target actors s t, nested.each target actors s = some t → t.context = s.context)
include hblock heach

theorem Prog.exec_private {p : Prog α} (hp : p.Within Effect.IsQuiet True True)
    (hc : c.IsSteady) : Private fun w => p.exec nested ⟨c, w⟩ := by
  induction p generalizing c with
  | done | fail | panic => exact .pure hc id _
  | look next ih => exact ih c (hp c) hc
  | perform e next ih =>
    exact (Effect.run_private hc hp.1).bind (G := fun a s => (next a).exec nested s)
      fun a d hd => ih a (hp.2 a) hd
  | block start stop next ih =>
    refine ((hblock start stop c hc).bind (G := fun r s => (next r).exec nested s)
      fun r d hd => ih r (hp.2 r) hd).of_eq fun w => ?_
    simp only [exec]
    cases nested.block start stop ⟨c, w⟩ <;> rfl
  | each target actors next ih =>
    -- whatever is run for the actors, the context comes back as it was
    have hvisits : Private fun w => (nested.each target actors ⟨c, w⟩).map fun t => ((), t) := by
      intro w w' x t x' t' h h'
      obtain ⟨u, hu, h⟩ := Option.map_eq_some_iff.mp h
      obtain ⟨u', hu', h'⟩ := Option.map_eq_some_iff.mp h'
      cases h
      cases h'
      have hcontext := heach _ _ _ _ hu
      exact ⟨rfl, (heach _ _ _ _ hu').trans hcontext.symm, hcontext ▸ hc⟩
    refine (hvisits.bind (G := fun _ s => next.exec nested s)
      fun _ d hd => ih hp.2 hd).of_eq fun w => ?_
    simp only [exec]
    cases nested.each target actors ⟨c, w⟩ <;> rfl

theorem dispatch_private (handlers : Handlers) (hc : c.IsSteady) :
    Private fun w => dispatch handlers nested ⟨c, w⟩ := by
  cases ha : c.actions[c.index]? with
  | none =>
    exact .gives (d := c.sync) (.error .noCurrentAction) hc fun w => dispatch_none ha
  | some a =>
    obtain ⟨b, hb, hrandom⟩ := hc a (List.mem_of_getElem? ha)
    have hhandler : (a.definition.behaviour.handler handlers).Within Effect.IsQuiet True True := by
      rw [hb]
      exact b.handler_needs.mono (fun e he => he.quiet hrandom) (fun _ => trivial) fun _ => trivial
    have hentered : Private fun w => some ((), State.entered ⟨c, w⟩) :=
      .pure (d := c.sync) hc (fun w => w.record (.dispatch c.sync)) ()
    have hexec := hentered.bind
      (G := fun _ s => (a.definition.behaviour.handler handlers).exec nested s)
      fun _ d hd => Prog.exec_private hblock heach hhandler hd
    refine (hexec.bind (G := fun x s => some (x.answer c.index a s))
      fun x d hd => answer_private hd c.index a x).of_eq fun w => ?_
    rw [dispatch_some ha]
    simp only [Option.bind_some]
    cases (a.definition.behaviour.handler handlers).exec nested (State.entered ⟨c, w⟩) <;> rfl

end

section
variable {f : Stepper} (hf : ∀ c, c.IsSteady → Private fun w => f ⟨c, w⟩)
include hf

theorem blockLoop_private (hc : c.IsSteady) (stop n : Nat) :
    Private fun w => blockLoop f stop n ⟨c, w⟩ := by
  induction n generalizing c with
  | zero => exact .unanswered
  | succ n ih =>
    by_cases hi : c.index < stop
    · intro w w' b t b' t' h h'
      obtain ⟨r, ⟨d, v⟩, hstep, hrest⟩ := blockLoop_eq_some hi h
      obtain ⟨r', ⟨d', v'⟩, hstep', hrest'⟩ := blockLoop_eq_some hi h'
      obtain ⟨rfl, rfl, hd⟩ := hf c hc _ _ _ _ _ _ hstep hstep'
      -- both loops take the same step, so they stop or go on together
      obtain ⟨e, rfl, rfl, rfl⟩ | ⟨flags, rfl, ⟨hstop, rfl, rfl⟩ | ⟨hstop, hloop⟩⟩ := hrest
      · obtain ⟨_, ⟨⟩, rfl, rfl⟩ | ⟨_, ⟨⟩, -⟩ := hrest'
        exact ⟨rfl, rfl, hd⟩
      · obtain ⟨_, ⟨⟩, -⟩ | ⟨_, ⟨⟩, ⟨-, rfl, rfl⟩ | ⟨hgo, -⟩⟩ := hrest'
        · exact ⟨rfl, rfl, hd⟩
        · simp [hstop] at hgo
      · obtain ⟨_, ⟨⟩, -⟩ | ⟨_, ⟨⟩, ⟨hstop', -⟩ | ⟨-, hloop'⟩⟩ := hrest'
        · simp [hstop] at hstop'
        · exact ih hd _ _ _ _ _ _ hloop hloop'
    · exact .gives (.ok none) hc fun w => by simp [blockLoop, hi]

theorem blockWith_private (hc : c.IsSteady) (n start stop : Nat) :
    Private fun w => blockWith f n start stop ⟨c, w⟩ := by
  by_cases hrange : stop < start ∨ c.len < stop
  · refine .gives (.error (c.outOfBounds stop)) hc fun w => ?_
    simp [blockWith, hrange]
  · have hmoved : Private fun w => some ((), State.moveTo ⟨c, w⟩ start) :=
      .pure (d := { c with index := start }) hc id ()
    refine (hmoved.bind (G := fun _ s => blockLoop f stop n s)
      fun _ d hd => blockLoop_private hf hd stop n).of_eq fun w => ?_
    have hle : start ≤ stop ∧ stop ≤ c.len := by omega
    rw [blockWith_in_range hle.1 hle.2]
    rfl

end

theorem step_private (handlers : Handlers) (n : Nat) (c : Context) (hc : c.IsSteady) :
    Private fun w => step handlers n ⟨c, w⟩ := by
  induction n generalizing c with
  | zero => exact .unanswered
  | succ n ih =>
    exact dispatch_private (fun start stop d hd => blockWith_private ih hd n start stop)
      (fun target actors s t h => eachWith_context h) handlers hc

/-- A block of steady actions does the same in all worlds, with whatever fuel. -/
theorem runBlock_private {s s' : State} (hs : s.context.IsSteady) (hsame : s'.context = s.context)
    (h : runBlock handlers n start stop s = some (b, t))
    (h' : runBlock handlers m start stop s' = some (b', t')) :
    b' = b ∧ t'.context = t.context ∧ t.context.IsSteady := by
  obtain ⟨c, w⟩ := s
  obtain ⟨c', w'⟩ := s'
  obtain rfl : c' = c := hsame
  have hn : n ≤ max n m := Nat.le_max_left n m
  have hm : m ≤ max n m := Nat.le_max_right n m
  exact blockWith_private (step_private handlers (max n m)) hs _ _ _ _ _ _ _ _ _
    (blockWith_extends (step_extends handlers hn) hn _ _ _ _ h)
    (blockWith_extends (step_extends handlers hm) hm _ _ _ _ h')

-- ---------------------------------------------------------------------------
-- The turns of steady loops
-- ---------------------------------------------------------------------------

namespace Scheduler

theorem Turn.same (hl : l.context.IsSteady)
    (halive : v.isAlive l.context.id = w.isAlive l.context.id)
    (h : Turn handlers l now w w' event kept r) (h' : Turn handlers l now v v' event' kept' r') :
    event' = event ∧ kept' = kept := by
  cases h with
  | dropped hdead =>
    cases h' with
    | dropped => exact ⟨rfl, rfl⟩
    | waited ha | fired ha => simp [ha, hdead] at halive
  | waited ha hlt =>
    cases h' with
    | dropped hdead => simp [ha, hdead] at halive
    | waited => exact ⟨rfl, rfl⟩
    | fired _ hle => exact absurd hlt (Nat.not_lt.mpr hle)
  | @fired n r ha hle htime hbefore hb hevent =>
    cases h' with
    | dropped hdead => simp [ha, hdead] at halive
    | waited _ hlt => exact absurd hlt (Nat.not_lt.mpr hle)
    | @fired m r' _ _ htime' hbefore' hb' hevent' =>
      have hcontexts : r'.before.context = r.before.context := by rw [hbefore, hbefore']
      obtain ⟨hended, hcontext, -⟩ :=
        runBlock_private (s := r.before) (by rwa [hbefore]) hcontexts hb hb'
      have hsame : r'.event = r.event := by rw [hevent', hevent, hended]
      exact ⟨by rw [hsame], by simp only [Round.next, hsame, hcontext, hended, htime, htime']⟩

theorem Turn.steady (h : Turn handlers l now w w' event (some l') r) (hl : l.context.IsSteady) :
    l'.context.IsSteady := by
  generalize hkept : some l' = kept at h
  cases h with
  | dropped => cases hkept
  | waited =>
    cases hkept
    exact hl
  | @fired _ r _ _ _ hbefore hb _ =>
    obtain ⟨-, rfl⟩ := Round.next_eq_some hkept.symm
    exact (runBlock_private (s := r.before) (by rwa [hbefore]) rfl hb hb).2.2

/-- The turn of a loop over a script of built-in actions cancels no context but its own, and that
only if it ends the loop. -/
theorem tickLoop_builtin (hl : l.IsBuiltin) (hw : w.Clean)
    (h : tickLoop handlers n now l w = some (event, kept, w')) :
    w'.Clean ∧ w.Spares (fun i => i = l.context.id ∧ kept = none) w' := by
  obtain ⟨m, event', kept', v, hm, hclean, hspared, -⟩ := tickLoop_ends handlers now hl hw
  cases Eventually.unique (tickLoop_stable handlers now l) ⟨m, hm⟩ ⟨n, h⟩
  exact ⟨hclean, hspared⟩

-- ---------------------------------------------------------------------------
-- Watching a loop
-- ---------------------------------------------------------------------------

def loop? (sched : Scheduler) (id : LoopId) : Option Loop := sched.loops.find? fun l => l.id == id

structure Sighting where
  time : Nat
  events : List LoopEvent
  left : Option Loop

def watch (handlers : Handlers) (fuel : Nat) (id : LoopId) :
    List Nat → Scheduler → World → Option (List Sighting)
  | [], _, _ => some []
  | now :: times, sched, w =>
    (sched.tick handlers fuel now w).bind fun (events, sched, w) =>
      (watch handlers fuel id times sched w).map (⟨now, about id events, sched.loop? id⟩ :: ·)

/-- What is seen of the loop `l` while other loops over built-in scripts join and leave. Between
the ticks anything may happen in the world that does not cancel the context of `l`. -/
inductive Watched (handlers : Handlers) (l : Loop) :
    List Sighting → Scheduler → World → Scheduler → World → Prop
  | done : Watched handlers l [] sched w sched w
  | tick : sched.tick handlers n now w = some (events, sched₁, w₁) →
      Watched handlers l seen sched₁ w₁ sched' w' →
      Watched handlers l (⟨now, about l.id events, sched₁.loop? l.id⟩ :: seen) sched w sched' w'
  | adopt : (∃ script : Script, script.IsBuiltin ∧ c.Over script) → c.id < w.nextContext →
      (∀ k ∈ sched.loops, k.context.id ≠ c.id) → sched.adopt now c w = some (i, sched₁, w₁) →
      Watched handlers l seen sched₁ w₁ sched' w' → Watched handlers l seen sched w sched' w'
  | cancel : other ≠ l.id → sched.cancel other w = (answer, sched₁, w₁) →
      Watched handlers l seen sched₁ w₁ sched' w' → Watched handlers l seen sched w sched' w'
  | elsewhere : w.Spares (· ≠ l.context.id) w₁ → w₁.Clean →
      Watched handlers l seen sched w₁ sched' w' → Watched handlers l seen sched w sched' w'

-- ---------------------------------------------------------------------------
-- Schedulers whose ticks end
-- ---------------------------------------------------------------------------

structure Running (sched : Scheduler) (w : World) : Prop extends Orderly sched w where
  builtin : ∀ l ∈ sched.loops, l.IsBuiltin
  clean : w.Clean

variable {sched sched' : Scheduler} {w w' : World}

namespace Running

theorem ticks (h : Running sched w) (handlers : Handlers) (now : Nat) :
    ∃ n r, sched.tick handlers n now w = some r := by
  obtain ⟨n, events, rest, w', hn, -⟩ := tickLoops_ends handlers now h.builtin h.clean
  exact ⟨n, (events, { sched with loops := rest }, w'), by simp only [Scheduler.tick, hn]⟩

theorem tick (h : Running sched w)
    (ht : sched.tick handlers n now w = some (events, sched', w')) : Running sched' w' := by
  obtain ⟨m, events', rest, w₁, hm, hclean, hbuiltin⟩ :=
    tickLoops_ends handlers now h.builtin h.clean
  have hsame := Eventually.unique (tickLoops_stable handlers now sched.loops) ⟨m, hm⟩
    ⟨n, (tick_eq_some ht).1⟩
  cases hsame
  exact ⟨h.toOrderly.tick ht, hbuiltin, hclean⟩

theorem adopt (h : Running sched w) (hc : ∃ script : Script, script.IsBuiltin ∧ c.Over script)
    (hmade : c.id < w.nextContext) (hfree : ∀ l ∈ sched.loops, l.context.id ≠ c.id)
    (ha : sched.adopt now c w = some (i, sched', w')) : Running sched' w' := by
  refine ⟨h.toOrderly.adopt hmade hfree ha, ?_, ?_⟩
  · obtain ⟨k, -, -, rfl, -⟩ := adopt_eq_some ha
    obtain ⟨script, hs, hover⟩ := hc
    intro l hl
    rcases List.mem_append.mp hl with hl | hl
    · exact h.builtin l hl
    · obtain rfl := List.mem_singleton.mp hl
      exact ⟨script, hs, hover.registry, hover.actions, hover.memos⟩
  · obtain ⟨k, -, -, -, rfl⟩ := adopt_eq_some ha
    exact h.clean

theorem cancel {id : LoopId} (h : Running sched w)
    (hc : sched.cancel id w = (answer, sched', w')) : Running sched' w' := by
  refine ⟨h.toOrderly.cancel hc, fun l hl => h.builtin l ((cancel_keeps hc).1.subset hl), ?_⟩
  obtain ⟨-, -, rfl⟩ | ⟨-, -, l, -, -, rfl⟩ := cancel_cases hc
  · exact h.clean
  · exact h.clean.dispose l.context

theorem elsewhere (h : Running sched w) (hw : w.nextContext ≤ w'.nextContext) (hclean : w'.Clean) :
    Running sched w' :=
  ⟨h.toOrderly.remain (.refl _) (fun l hl => ⟨l, hl, rfl, rfl⟩) rfl hw, h.builtin, hclean⟩

end Running

theorem Orderly.loop?_eq_some {id : LoopId} (h : Orderly sched w) :
    sched.loop? id = some l ↔ l ∈ sched.loops ∧ l.id = id := by
  have hfound {l₁ : Loop} (hl₁ : sched.loop? id = some l₁) : l₁ ∈ sched.loops ∧ l₁.id = id :=
    ⟨List.mem_of_find?_eq_some hl₁, by simpa using List.find?_some hl₁⟩
  refine ⟨hfound, ?_⟩
  rintro ⟨hl, hid⟩
  cases hl₁ : sched.loop? id with
  | none => exact absurd (by simp [hid]) (List.find?_eq_none.mp hl₁ l hl)
  | some l₁ =>
    obtain ⟨hmem, hid₁⟩ := hfound hl₁
    have hnodup : (sched.loops.map Loop.id).Nodup := h.ordered.imp Nat.ne_of_lt
    rw [List.inj_on_of_nodup_map hnodup hmem hl (hid₁.trans hid.symm)]

theorem Took.loop?_eq
    (htook : Took handlers n now ls w w₁ w' events sched'.loops l event kept w₂)
    (h : Orderly sched' w') : sched'.loop? l.id = kept := by
  cases kept with
  | some l' =>
    exact h.loop?_eq_some.mpr ⟨htook.remains l' rfl, (tickLoop_turn htook.turn).kept_id.1⟩
  | none =>
    cases hleft : sched'.loop? l.id with
    | none => rfl
    | some l' =>
      obtain ⟨hl', hid⟩ := h.loop?_eq_some.mp hleft
      cases htook.stays l' hl' hid

theorem Orderly.tick_absent {id : LoopId} (h : Orderly sched w) (hnone : sched.loop? id = none)
    (ht : sched.tick handlers n now w = some (events, sched', w')) :
    about id events = [] ∧ sched'.loop? id = none := by
  have horder := tickLoops_inOrder (tick_eq_some ht).1
  have hnot : id ∉ sched.loops.map Loop.id := by
    rintro hmem
    obtain ⟨l, hl, rfl⟩ := List.mem_map.mp hmem
    exact absurd (by simp) (List.find?_eq_none.mp hnone l hl)
  refine ⟨about_of_not_mem fun hmem => hnot (horder.events.subset hmem), ?_⟩
  cases hleft : sched'.loop? id with
  | none => rfl
  | some l =>
    obtain ⟨hl, rfl⟩ := (h.tick ht).loop?_eq_some.mp hleft
    exact absurd (horder.rest.subset (List.mem_map_of_mem hl)) hnot

/-- A loop is as alive when its turn comes as when the tick started, and also after the tick
unless its turn has ended it. -/
theorem Running.took {l : Loop} (h : Running sched w) (hl : l ∈ sched.loops)
    (ht : sched.tick handlers n now w = some (events, sched', w')) :
    ∃ w₁ event kept w₂,
      Took handlers n now sched.loops w w₁ w' events sched'.loops l event kept w₂ ∧
      w₁.isAlive l.context.id = w.isAlive l.context.id ∧
      (kept ≠ none → w'.isAlive l.context.id = w.isAlive l.context.id) := by
  obtain ⟨event, kept, w₂, htook⟩ := h.toOrderly.took hl ht
  have hothers (u v : World) (hu : u.Clean) (hmade : l.context.id < u.nextContext)
      (haside : Aside handlers n now sched.loops l u v) :
      v.Clean ∧ v.isAlive l.context.id = u.isAlive l.context.id := by
    refine h.toOrderly.aside_alive hl haside (fun _ => False) ?_ hu hmade not_false
    intro o ho u event kept v hu hov
    obtain ⟨hv, hspared⟩ := tickLoop_builtin (h.builtin o ho) hu hov
    exact ⟨hv, hspared.mono fun i hi => .inl hi.1⟩
  have hmade := h.made l hl
  obtain ⟨hclean₁, halive₁⟩ := hothers _ _ h.clean hmade htook.before
  have hmade₁ := Nat.lt_of_lt_of_le hmade htook.before.grows.contexts
  obtain ⟨hclean₂, hspared⟩ := tickLoop_builtin (h.builtin l hl) hclean₁ htook.turn
  refine ⟨_, event, kept, w₂, htook, halive₁, fun hkept => ?_⟩
  have hmade₂ := Nat.lt_of_lt_of_le hmade₁ hspared.contexts
  rw [(hothers _ _ hclean₂ hmade₂ htook.after).2, ← halive₁]
  exact hspared.alive _ hmade₁ fun hover => hkept hover.2

theorem tick_stable (handlers : Handlers) (now : Nat) :
    Stable fun n (p : Scheduler × World) => p.1.tick handlers n now p.2 := by
  intro n m hle p r hr
  simp only [Scheduler.tick] at hr ⊢
  split at hr
  · cases hr
  · rename_i hls
    have hls := tickLoops_stable handlers now p.1.loops n m hle _ _ hls
    simp only at hls
    simp only [hls]
    exact hr

theorem watch_stable (handlers : Handlers) (id : LoopId) (times : List Nat) :
    Stable fun n (p : Scheduler × World) => watch handlers n id times p.1 p.2 := by
  intro n m hle
  induction times with
  | nil => exact .refl _
  | cons now times ih =>
    intro p seen hseen
    simp only [watch, Option.bind_eq_some_iff, Option.map_eq_some_iff] at hseen ⊢
    obtain ⟨r, htick, rest, hrest, rfl⟩ := hseen
    exact ⟨r, tick_stable handlers now n m hle p r htick, rest, ih (r.2.1, r.2.2) rest hrest, rfl⟩

-- ---------------------------------------------------------------------------
-- Two schedulers that have the same loop
-- ---------------------------------------------------------------------------

/-- Two schedulers, each in its world, that both have what became of the steady loop `l₀`, or
have both lost it. -/
structure Mirrored (l₀ : Loop) (sched : Scheduler) (w : World) (other : Scheduler) (v : World) :
    Prop where
  running : sched.Running w
  otherRunning : other.Running v
  born : l₀.id < sched.nextId
  same : other.loop? l₀.id = sched.loop? l₀.id
  steady : ∀ l, sched.loop? l₀.id = some l → l.context.IsSteady
  context : ∀ l, sched.loop? l₀.id = some l → l.context.id = l₀.context.id
  alive : ∀ l, sched.loop? l₀.id = some l → v.isAlive l₀.context.id = w.isAlive l₀.context.id

namespace Mirrored

variable {other other' : Scheduler} {v v' : World}

theorem aside (h : Mirrored l₀ sched w other v) (hrun : sched'.Running w')
    (hnext : sched.nextId ≤ sched'.nextId) (hloop : sched'.loop? l₀.id = sched.loop? l₀.id)
    (halive : ∀ l, sched.loop? l₀.id = some l →
      w'.isAlive l₀.context.id = w.isAlive l₀.context.id) : Mirrored l₀ sched' w' other v where
  running := hrun
  otherRunning := h.otherRunning
  born := Nat.lt_of_lt_of_le h.born hnext
  same := h.same.trans hloop.symm
  steady l hl := h.steady l (hloop ▸ hl)
  context l hl := h.context l (hloop ▸ hl)
  alive l hl := (h.alive l (hloop ▸ hl)).trans (halive l (hloop ▸ hl)).symm

theorem adopt (h : Mirrored l₀ sched w other v)
    (hc : ∃ script : Script, script.IsBuiltin ∧ c.Over script) (hmade : c.id < w.nextContext)
    (hfree : ∀ k ∈ sched.loops, k.context.id ≠ c.id)
    (ha : sched.adopt now c w = some (i, sched', w')) : Mirrored l₀ sched' w' other v := by
  have hrun := h.running.adopt hc hmade hfree ha
  obtain ⟨k, -, -, rfl, rfl⟩ := adopt_eq_some ha
  refine h.aside hrun (Nat.le_succ _) ?_ fun _ _ => rfl
  have hne : sched.nextId ≠ l₀.id := (Nat.ne_of_lt h.born).symm
  simp [loop?, List.find?_append, hne]

theorem cancel (h : Mirrored l₀ sched w other v) {id : LoopId} (hid : id ≠ l₀.id)
    (hc : sched.cancel id w = (answer, sched', w')) : Mirrored l₀ sched' w' other v := by
  have hrun := h.running.cancel hc
  refine h.aside hrun (Nat.le_of_eq (cancel_keeps hc).2.1.symm) ?_ ?_
  · obtain ⟨-, rfl, -⟩ | ⟨-, rfl, -⟩ := cancel_cases hc
    · rfl
    · refine Option.ext fun l => ?_
      rw [hrun.toOrderly.loop?_eq_some, h.running.toOrderly.loop?_eq_some, List.mem_filter]
      constructor
      · rintro ⟨⟨hl, -⟩, hlid⟩
        exact ⟨hl, hlid⟩
      · rintro ⟨hl, hlid⟩
        exact ⟨⟨hl, by simpa [hlid] using hid.symm⟩, hlid⟩
  · intro l hl
    obtain ⟨-, -, rfl⟩ | ⟨-, -, k, hk, rfl, rfl⟩ := cancel_cases hc
    · rfl
    · obtain ⟨hmem, hlid⟩ := h.running.toOrderly.loop?_eq_some.mp hl
      have hspared : w.Spares (· = k.context.id) (w.dispose k.context).2.2 := .dispose _ _ rfl
      rw [← h.context l hl]
      refine hspared.alive _ (h.running.made l hmem) fun heq => hid ?_
      rw [← hlid]
      exact h.running.owners k hk l hmem heq.symm

theorem elsewhere (h : Mirrored l₀ sched w other v) (hw : w.Spares (· ≠ l₀.context.id) w')
    (hclean : w'.Clean) : Mirrored l₀ sched w' other v := by
  refine h.aside (h.running.elsewhere hw.contexts hclean) (Nat.le_refl _) rfl fun l hl => ?_
  have hmem := (h.running.toOrderly.loop?_eq_some.mp hl).1
  exact hw.alive _ (h.context l hl ▸ h.running.made l hmem) (not_not_intro rfl)

theorem tick (h : Mirrored l₀ sched w other v)
    (ht : sched.tick handlers n now w = some (events, sched', w'))
    (ht' : other.tick handlers m now v = some (events', other', v')) :
    about l₀.id events' = about l₀.id events ∧ Mirrored l₀ sched' w' other' v' := by
  have hrun := h.running.tick ht
  have hrun' := h.otherRunning.tick ht'
  have hborn : l₀.id < sched'.nextId := (tick_eq_some ht).2 ▸ h.born
  cases hleft : sched.loop? l₀.id with
  | none =>
    obtain ⟨hevents, hgone⟩ := h.running.toOrderly.tick_absent hleft ht
    obtain ⟨hevents', hgone'⟩ := h.otherRunning.toOrderly.tick_absent (h.same.trans hleft) ht'
    refine ⟨hevents'.trans hevents.symm, hrun, hrun', hborn, hgone'.trans hgone.symm, ?_, ?_, ?_⟩
      <;> simp [hgone]
  | some l =>
    obtain ⟨hl, hid⟩ := h.running.toOrderly.loop?_eq_some.mp hleft
    obtain ⟨hl₁, -⟩ := h.otherRunning.toOrderly.loop?_eq_some.mp (h.same.trans hleft)
    have hsteady := h.steady l hleft
    obtain ⟨w₁, event, kept, w₂, htook, halive₁, hafter⟩ := h.running.took hl ht
    obtain ⟨v₁, event', kept', v₂, htook', halive₁', hafter'⟩ := h.otherRunning.took hl₁ ht'
    have hturn := tickLoop_turn htook.turn
    have halive : v.isAlive l.context.id = w.isAlive l.context.id := by
      rw [h.context l hleft]
      exact h.alive l hleft
    have halive₁ : v₁.isAlive l.context.id = w₁.isAlive l.context.id := by
      rw [halive₁, halive₁', halive]
    obtain ⟨rfl, rfl⟩ := hturn.same hsteady halive₁ (tickLoop_turn htook'.turn)
    have hkept := htook.loop?_eq hrun.toOrderly
    have hkept' := htook'.loop?_eq hrun'.toOrderly
    have hevents := htook'.reported.trans htook.reported.symm
    rw [hid] at hkept hkept' hevents
    refine ⟨hevents, hrun, hrun', hborn, hkept'.trans hkept.symm, ?_, ?_, ?_⟩
    · rintro l' hl'
      obtain rfl := hkept.symm.trans hl'
      exact hturn.steady hsteady
    · rintro l' hl'
      obtain rfl := hkept.symm.trans hl'
      exact hturn.kept_id.2.trans (h.context l hleft)
    · rintro l' hl'
      have hsome : kept' ≠ none := by simp [← hkept, hl']
      rw [← h.context l hleft, hafter hsome, hafter' hsome, halive]

end Mirrored

/-- What is seen of a loop among others is seen of it in any scheduler that mirrors it. -/
theorem Watched.mirrored (h : Watched handlers l seen sched w sched' w')
    (hm : Mirrored l sched w other v) :
    sched'.Running w' ∧
      ∃ n, watch handlers n l.id (seen.map Sighting.time) other v = some seen := by
  induction h generalizing other v with
  | done => exact ⟨hm.running, 0, rfl⟩
  | tick ht _ ih =>
    obtain ⟨n, ⟨events', other₁, v₁⟩, ht'⟩ := hm.otherRunning.ticks handlers _
    obtain ⟨hevents, hm₁⟩ := hm.tick ht ht'
    obtain ⟨hrun, m, hwatch⟩ := ih hm₁
    refine ⟨hrun, max n m, ?_⟩
    have ht' := tick_stable handlers _ n (max n m) (Nat.le_max_left n m) (_, _) _ ht'
    have hwatch := watch_stable handlers _ _ m (max n m) (Nat.le_max_right n m) (_, _) _ hwatch
    simp only at ht' hwatch
    simp only [List.map_cons, watch, ht', Option.bind_some, hwatch, Option.map_some, hevents,
      hm₁.same]
  | adopt hc hmade hfree ha _ ih => exact ih (hm.adopt hc hmade hfree ha)
  | cancel hid hc _ ih => exact ih (hm.cancel hid hc)
  | elsewhere hw hclean _ ih => exact ih (hm.elsewhere hw hclean)

/-- A loop of built-in actions that throw no dice, in a scheduler with other loops of built-in
actions. Whatever the others do, at each tick it reports the events and is left in the state that
it would report and be left in, at the same times, in a scheduler without them. Ticks always end. -/
theorem steady_loop_independent {sched : Scheduler} {l : Loop} (hrun : sched.Running w)
    (hl : l ∈ sched.loops) (hsteady : l.context.IsSteady) (hclean : v.Clean)
    (hmade : l.context.id < v.nextContext)
    (halive : v.isAlive l.context.id = w.isAlive l.context.id)
    (h : Watched handlers l seen sched w sched' w') :
    let alone (n : Nat) :=
      watch handlers n l.id (seen.map Sighting.time) { sched with loops := [l] } v
    (∃ n, alone n = some seen) ∧ (∀ n seen', alone n = some seen' → seen' = seen) ∧
      ∀ now, ∃ n r, sched'.tick handlers n now w' = some r := by
  intro alone
  have hfound := hrun.toOrderly.loop?_eq_some.mpr ⟨hl, rfl⟩
  have hm : Mirrored l sched w { sched with loops := [l] } v := by
    refine ⟨hrun, ⟨⟨?_, ?_, ?_, ?_⟩, ?_, hclean⟩, hrun.bounded l hl, ?_, ?_, ?_, fun _ _ => halive⟩
    · exact List.pairwise_singleton _ _
    · simpa using hrun.bounded l hl
    · simpa using hmade
    · simp
    · simpa using hrun.builtin l hl
    · rw [hfound]
      simp [loop?]
    · rintro l' hl'
      obtain rfl := Option.some.inj (hfound.symm.trans hl')
      exact hsteady
    · rintro l' hl'
      obtain rfl := Option.some.inj (hfound.symm.trans hl')
      rfl
  obtain ⟨hrun', m, hseen⟩ := h.mirrored hm
  refine ⟨⟨m, hseen⟩, fun n seen' hseen' => ?_, hrun'.ticks handlers⟩
  exact Eventually.unique (a := (⟨[l], sched.nextId⟩, v))
    (watch_stable handlers l.id (seen.map Sighting.time)) ⟨n, hseen'⟩ ⟨m, hseen⟩

def stage (script : Script) (i : ContextId) : Context :=
  .fresh i script.name .builtins (.shared script.actions) none

theorem stage_over (script : Script) (i : ContextId) : (stage script i).Over script :=
  ⟨rfl, fun _ ha => ha, by simp [stage, Context.fresh, Table.get?_empty]⟩

/-- Three loops over a script. Each has another of its actions for a block. -/
def trio (script : Script) : Scheduler :=
  let loop (i : Nat) : Loop := ⟨i, stage script i, ⟨i, i + 1, 2, 10⟩, 10⟩
  { loops := [loop 0, loop 1, loop 2], nextId := 3 }

theorem trio_running {script : Script} (hs : script.IsBuiltin) (hw : w.Clean)
    (hmade : 3 ≤ w.nextContext) : (trio script).Running w := by
  refine ⟨⟨by simp [trio], by simp [trio], ?_, by simp [trio, stage, Context.fresh]⟩, ?_, hw⟩
  · simp only [trio, stage, Context.fresh, List.forall_mem_cons]
    exact ⟨Nat.lt_of_lt_of_le (by decide) hmade, Nat.lt_of_lt_of_le (by decide) hmade, hmade,
      by simp⟩
  · simp only [trio, List.forall_mem_cons]
    exact ⟨⟨_, hs, stage_over _ _⟩, ⟨_, hs, stage_over _ _⟩, ⟨_, hs, stage_over _ _⟩, by simp⟩

/-- The loop in the middle. In the first tick the one before it stops, and the one after it runs
an action for an actor. Then that one is cancelled and another joins. -/
theorem steady_loop_independent_in_trio : ∃ script w sched' w' seen,
    let l : Loop := ⟨1, stage script 1, ⟨1, 2, 2, 10⟩, 10⟩
    (trio script).Running w ∧ l ∈ (trio script).loops ∧ l.context.IsSteady ∧
    Watched .none l seen (trio script) w sched' w' ∧
    seen.map Sighting.events = [[.ran], [], [.finished]] ∧
    ∃ n, watch .none n l.id [10, 17, 20] { trio script with loops := [l] } w = some seen := by
  let source := "StopIf true\nSet hi -> $x\nFor 3 Log deep"
  let w : World := { World.initial (fun _ => 0) with nextContext := 4 }
  have heval : (do
      let u ← (compile .builtins "demo" source).result.toOption
      let script ← u.scripts.head?
      let r₁ ← (trio script).tick .none 8 10 w
      let cancelled := r₁.2.1.cancel 2 r₁.2.2
      let joined ← cancelled.2.1.adopt 12 ((stage script 3).suspend ⟨2, 3, 1, 5⟩) cancelled.2.2
      let r₂ ← joined.2.1.tick .none 8 17 joined.2.2
      let r₃ ← r₂.2.1.tick .none 8 20 r₂.2.2
      some (decide ((stage script 1).IsSteady ∧ 3 < cancelled.2.2.nextContext ∧
        ∀ k ∈ cancelled.2.1.loops, k.context.id ≠ 3), [r₁.1, r₂.1, r₃.1])) =
      some (true, [[(0, .stopped), (1, .ran), (2, .ran)], [(3, .finished)], [(1, .finished)]]) := by
    decide +kernel
  simp only [Option.bind_eq_bind, Option.bind_eq_some_iff, Option.some.injEq, Prod.mk.injEq,
    List.cons.injEq, decide_eq_true_eq] at heval
  obtain ⟨u, hu, script, hscript, ⟨e₁, s₁, w₁⟩, h₁, ⟨i, s₂, w₂⟩, hadopt, ⟨e₂, s₃, w₃⟩, h₂,
    ⟨e₃, s₄, w₄⟩, h₃, ⟨hsteady, hmade, hfree⟩, rfl, rfl, rfl, -⟩ := heval
  have hs : script.IsBuiltin := by
    cases hresult : (compile .builtins "demo" source).result with
    | error e => simp [hresult, Except.toOption] at hu
    | ok u' =>
      obtain rfl : u' = u := by simpa [hresult, Except.toOption] using hu
      exact ⟨_, _, u', hresult, List.mem_of_head? hscript⟩
  have hrun : (trio script).Running w :=
    trio_running hs (by simp [World.Clean, w, World.initial, Pool.empty]) (by decide)
  have hjoins : ((stage script 3).suspend ⟨2, 3, 1, 5⟩).Over script :=
    ⟨rfl, (stage_over script 3).actions, (stage_over script 3).memos⟩
  let l : Loop := ⟨1, stage script 1, ⟨1, 2, 2, 10⟩, 10⟩
  have hl : l ∈ (trio script).loops := by simp [trio, l]
  have hwatched : Watched .none l _ (trio script) w s₄ w₄ :=
    .tick h₁ (.cancel (show 2 ≠ 1 by decide) rfl
      (.adopt ⟨script, hs, hjoins⟩ hmade hfree hadopt (.tick h₂ (.tick h₃ .done))))
  exact ⟨script, w, s₄, w₄, _, hrun, hl, hsteady, hwatched, rfl,
    (steady_loop_independent hrun hl hsteady hrun.clean (show 1 < 4 by decide) rfl hwatched).1⟩

end Scheduler

end Playbook
