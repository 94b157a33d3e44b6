import Playbook.Proofs.Traces

/-!
# What happens in a run, instant by instant

The trail of a run lists everything that is done to contexts in it, oldest first: the handlers
that are entered and the effects that are carried out, each with the state in which it is done.
A run that is out of fuel has a trail as well, so what is said about trails holds at every point
of a run, whether it ends or not. A property of stretches of runs that everything in a run keeps
(`Threads`) holds of the trails of steps, blocks and whole runs.

The property that is followed here is how states come after each other (`Passage`): who has been
cancelled stays cancelled, and a context that has been disposed of stays so and has no actions
any more.
-/

namespace Playbook

-- ---------------------------------------------------------------------------
-- Trails
-- ---------------------------------------------------------------------------

inductive Deed where
  | enter
  | effect (e : Effect)

structure Instant where
  deed : Deed
  before : State

namespace Instant

def after (m : Instant) : State :=
  match m.deed with
  | .enter => m.before.entered
  | .effect e => (e.run m.before).2

def whose (m : Instant) : ContextId := m.before.context.id

/-- The context as the handler finds it that is entered. -/
def entrance? (m : Instant) : Option Context :=
  match m.deed with
  | .enter => some m.after.context
  | .effect _ => none

end Instant

structure NestedTrail where
  block : Nat → Nat → State → List Instant
  each : Action → List ActorId → State → List Instant

def Prog.trail {α : Type} (nested : Nested) (inner : NestedTrail) : Prog α → State → List Instant
  | .done _, _ => []
  | .fail _, _ => []
  | .panic _, _ => []
  | .look next, s => (next s.context).trail nested inner s
  | .perform e next, s => ⟨.effect e, s⟩ :: (next (e.run s).1).trail nested inner (e.run s).2
  | .block start stop next, s =>
    inner.block start stop s ++
      (nested.block start stop s).elim [] fun r => (next r.1).trail nested inner r.2
  | .each target actors next, s =>
    inner.each target actors s ++
      (nested.each target actors s).elim [] fun t => next.trail nested inner t

def settleTrail (entry : Nat) (flags : Flags) (s : State) : List Instant :=
  if flags.stop = false ∧ flags.success = true ∧ s.context.index = entry then
    [⟨.effect (.setIndex (entry + 1)), s⟩]
  else []

def Ending.trail (entry : Nat) (x : Ending Flags) (s : State) : List Instant :=
  match x with
  | .value flags => settleTrail entry flags s
  | _ => []

def dispatchTrail (handlers : Handlers) (nested : Nested) (inner : NestedTrail) (s : State) :
    List Instant :=
  match s.context.actions[s.context.index]? with
  | none => []
  | some a =>
    let handler := a.definition.behaviour.handler handlers
    ⟨.enter, s⟩ :: (handler.trail nested inner s.entered ++
      (handler.exec nested s.entered).elim [] fun r => r.1.trail s.context.index r.2)

def blockLoopTrail (f : Stepper) (trail : State → List Instant) (stop : Nat) :
    Nat → State → List Instant
  | 0, _ => []
  | fuel + 1, s =>
    if s.context.index < stop then
      trail s ++ match f s with
        | some (.ok flags, t) => if flags.stop then [] else blockLoopTrail f trail stop fuel t
        | _ => []
    else []

def blockTrail (f : Stepper) (trail : State → List Instant) (fuel start stop : Nat) (s : State) :
    List Instant :=
  if stop < start ∨ s.context.len < stop then []
  else ⟨.effect (.setIndex start), s⟩ :: blockLoopTrail f trail stop fuel (s.moveTo start)

def driveLoopTrail (f : Stepper) (trail : State → List Instant) (release : Bool) :
    Nat → State → List Instant
  | 0, _ => []
  | fuel + 1, s =>
    if s.context.isFinished then
      [⟨.effect (.log (.debug (s.context.label ++ " completed"))), s⟩]
    else trail s ++ match f s with
      | none => []
      | some (.error e, t) =>
        let entry := failureEntry t.context e
        ⟨.effect (.log entry), t⟩ ::
          if release then [⟨.effect .dispose, { t with world := t.world.log entry }⟩] else []
      | some (.ok flags, t) =>
        if flags.stop then
          if flags.dispose && release then [⟨.effect .dispose, t⟩] else []
        else driveLoopTrail f trail release fuel t

def driveTrail (f : Stepper) (trail : State → List Instant) (fuel : Nat) (release : Bool)
    (s : State) : List Instant :=
  if s.context.disposed then [] else driveLoopTrail f trail release fuel s

def visitTrail (f : Stepper) (trail : State → List Instant) (fuel : Nat) (parent : Context) :
    List ActorId → State → List Instant
  | [], _ => []
  | actor :: actors, s =>
    let s' : State := { s with context := s.context.reset (some actor) }
    ⟨.effect (.reset (some actor)), s⟩ :: (driveTrail f trail fuel false s' ++
      (driveWith f fuel false s').elim [] fun r =>
        visitTrail f trail fuel parent actors
          { r.2 with world := r.2.world.logged (visitEntry parent actor r.1) })

def eachTrail (f : Stepper) (trail : State → List Instant) (fuel : Nat) (target : Action)
    (actors : List ActorId) (s : State) : List Instant :=
  visitTrail f trail fuel s.context actors (s.forTarget target) ++
    (visitAll f fuel s.context actors (s.forTarget target)).elim [] fun t =>
      [⟨.effect .dispose, t⟩]

def NestedTrail.ofStepper (f : Stepper) (trail : State → List Instant) (fuel : Nat) : NestedTrail :=
  { block := blockTrail f trail fuel, each := eachTrail f trail fuel }

def stepTrail (handlers : Handlers) : Nat → State → List Instant
  | 0 => fun _ => []
  | fuel + 1 =>
    dispatchTrail handlers (.ofStepper (step handlers fuel) fuel)
      (.ofStepper (step handlers fuel) (stepTrail handlers fuel) fuel)

-- ---------------------------------------------------------------------------
-- Properties of trails
-- ---------------------------------------------------------------------------

abbrev ended (x : Option (α × State)) : Option State := x.map Prod.snd

/-- A property of stretches of runs that composes. A stretch goes from a state through instants, and
to a state unless it is cut off. -/
structure Composes (Q : State → List Instant → Option State → Prop) : Prop where
  stay : ∀ s, Q s [] (some s)
  cut : ∀ s ms t, Q s ms (some t) → Q s ms none
  append : ∀ s ms t ms' u, Q s ms (some t) → Q t ms' u → Q s (ms ++ ms') u

section
variable {Q : State → List Instant → Option State → Prop}

theorem Composes.follow (h : Composes Q) {x : Option α} (last : α → State)
    (hx : Q s ms (x.map last)) {next : α → List Instant} {y : α → Option State}
    (hy : ∀ a, x = some a → Q (last a) (next a) (y a)) :
    Q s (ms ++ x.elim [] next) (x.bind y) := by
  cases x with
  | none =>
    rw [Option.elim_none, List.append_nil]
    exact hx
  | some a => exact h.append s ms (last a) _ _ hx (hy a rfl)

theorem Composes.exec (h : Composes Q) (nested : Nested) (inner : NestedTrail) {p : Prog α}
    (hp : p.Within ok blocks targets)
    (heffect : ∀ e s, ok e → Q s [⟨.effect e, s⟩] (some (e.run s).2))
    (hblock : blocks → ∀ start stop s,
      Q s (inner.block start stop s) (ended (nested.block start stop s)))
    (heach : targets → ∀ target actors s,
      Q s (inner.each target actors s) (nested.each target actors s)) (s : State) :
    Q s (p.trail nested inner s) (ended (p.exec nested s)) := by
  induction p generalizing s with
  | done | fail | panic => exact h.stay s
  | look next ih => exact ih s.context (hp _) s
  | perform e next ih =>
    exact h.append s [_] _ _ _ (heffect e s hp.1) (ih (e.run s).1 (hp.2 _) (e.run s).2)
  | block start stop next ih =>
    have hnext := h.follow Prod.snd (hblock hp.1 start stop s) fun r _ => ih r.1 (hp.2 _) r.2
    simp only [Prog.trail, Prog.exec]
    cases hb : nested.block start stop s <;> simpa [hb] using hnext
  | each target actors next ih =>
    have hnext := h.follow id (by simpa using heach hp.1 target actors s) fun t _ => ih hp.2 t
    simp only [Prog.trail, Prog.exec]
    cases he : nested.each target actors s <;> simpa [he] using hnext

theorem Prog.trail_argumentAs_bind (nested : Nested) (inner : NestedTrail) (slot : Nat)
    (read : Value → Except RuntimeError α) (f : α → Prog β) (s : State) :
    ((argumentAs slot read).bind f).trail nested inner s =
      ⟨.effect (.readSlot slot), s⟩ ::
        match s.argument slot read with
        | (.ok a, t) => (f a).trail nested inner t
        | (.error _, _) => [] := by
  simp only [argumentAs, argument, bind_eq, Prog.bind, trail, Effect.run, World.perform,
    State.argument]
  cases (s.context.readSlot slot).result with
  | error e => rfl
  | ok v =>
    cases hread : read v <;> simp [ofExcept, Prog.bind, Bind.bind, Except.bind, hread, trail]

theorem Composes.argumentAs (h : Composes Q) {nested : Nested} {inner : NestedTrail}
    {read : Value → Except RuntimeError α} {f : α → Prog β}
    (hread : Q s [⟨.effect (.readSlot slot), s⟩] (some (s.argument slot read).2))
    (hf : ∀ a t, s.argument slot read = (.ok a, t) →
      Q t ((f a).trail nested inner t) (ended ((f a).exec nested t))) :
    Q s (((Prog.argumentAs slot read).bind f).trail nested inner s)
      (ended (((Prog.argumentAs slot read).bind f).exec nested s)) := by
  rw [Prog.trail_argumentAs_bind, Prog.exec_argumentAs_bind]
  cases harg : s.argument slot read with
  | mk x t =>
    rw [harg] at hread
    cases x with
    | error e => exact hread
    | ok a => exact h.append s [_] t _ _ hread (hf a t harg)

end

/-- What a run does to its context by itself, and what sub-dispatch does to the sub-context. -/
inductive Effect.OfRun (c : Context) : Effect → Prop
  | completed : OfRun c (.log (.debug (c.label ++ " completed")))
  | failed (e : RuntimeError) : OfRun c (.log (failureEntry c e))
  | reset (actor : ActorId) : OfRun c (.reset (some actor))
  | dispose : OfRun c .dispose

/-- A property `Q` of stretches inside of steps, and a property `R` of stretches of whole runs, that
runs with these handlers keep. A handler may take for granted that blocks and sub-dispatch of
targets that are `fit` keep `Q`. A sub-context starts from the state in which it was made, is
disposed of, and gives its world back. -/
structure Weaves (handlers : Handlers) (fit : Action → Prop)
    (Q R : State → List Instant → Option State → Prop) : Prop extends Composes Q where
  handler : ∀ (nested : Nested) (inner : NestedTrail),
    (∀ start stop s, Q s (inner.block start stop s) (ended (nested.block start stop s))) →
    (∀ target actors s, fit target →
      Q s (inner.each target actors s) (nested.each target actors s)) →
    ∀ s a, s.context.actions[s.context.index]? = some a →
      Q s (⟨.enter, s⟩ :: (a.definition.behaviour.handler handlers).trail nested inner s.entered)
        (ended ((a.definition.behaviour.handler handlers).exec nested s.entered))
  setIndex : ∀ i s, Q s [⟨.effect (.setIndex i), s⟩] (some (Effect.run (.setIndex i) s).2)
  sync : ∀ s, Q s [] (some { s with context := s.context.sync })
  whole : ∀ s ms t, Q s ms t → R s ms t
  join : ∀ s ms t ms' u, R s ms (some t) → R t ms' u → R s (ms ++ ms') u
  own : ∀ s e, e.OfRun s.context → R s [⟨.effect e, s⟩] (some (e.run s).2)
  note : ∀ s parent actor outcome,
    R s [] (some { s with world := s.world.logged (visitEntry parent actor outcome) })
  child : ∀ s target ms t, fit target → R (s.forTarget target) ms t →
    (∀ u, t = some u → u.context.disposed = true) →
    Q s ms (t.map fun t => { context := s.context, world := t.world })

namespace Weaves

variable {handlers : Handlers} {fit : Action → Prop}
  {Q R : State → List Instant → Option State → Prop} {f : Stepper} {trail : State → List Instant}

theorem runs (h : Weaves handlers fit Q R) : Composes R where
  stay s := h.whole _ _ _ (h.stay s)
  cut s ms t hms := by
    have hcut := h.join s ms t [] none hms (h.whole _ _ _ (h.cut _ _ _ (h.stay t)))
    rwa [List.append_nil] at hcut
  append := h.join

theorem settle (h : Weaves handlers fit Q R) (entry : Nat) (flags : Flags) (s : State) :
    Q s (settleTrail entry flags s) (some (settle entry flags s).2) := by
  unfold settleTrail Playbook.settle
  cases hstop : flags.stop with
  | true => simpa using h.stay s
  | false =>
    cases hsuccess : flags.success with
    | false => simpa using h.stay s
    | true =>
      by_cases hentry : s.context.index = entry
      · have he := h.setIndex (entry + 1) s
        simp only [Effect.run] at he
        simp only [hentry, and_self, ↓reduceIte, Bool.false_eq_true, Bool.not_true]
        cases hc : s.context.setIndex (entry + 1) <;> simpa [hc] using he
      · simpa [hentry] using h.stay s

theorem answer (h : Weaves handlers fit Q R) (entry : Nat) (a : Action) (x : Ending Flags)
    (s : State) : Q s (x.trail entry s) (some (x.answer entry a s).2) := by
  cases x with
  | value flags => exact h.settle entry flags s
  | error e => exact h.stay s
  | panic m => exact h.stay s

theorem dispatch (h : Weaves handlers fit Q R) {nested : Nested} {inner : NestedTrail}
    (hblock : ∀ start stop s, Q s (inner.block start stop s) (ended (nested.block start stop s)))
    (heach : ∀ target actors s, fit target →
      Q s (inner.each target actors s) (nested.each target actors s)) (s : State) :
    Q s (dispatchTrail handlers nested inner s) (ended (dispatch handlers nested s)) := by
  unfold dispatchTrail
  cases ha : s.context.actions[s.context.index]? with
  | none =>
    rw [dispatch_none ha]
    exact h.sync s
  | some a =>
    rw [dispatch_some ha]
    have hanswer := h.follow Prod.snd (h.handler nested inner hblock heach s a ha)
      fun r _ => h.answer s.context.index a r.1 r.2
    cases hx : (a.definition.behaviour.handler handlers).exec nested s.entered <;>
      simpa [hx] using hanswer

theorem blockLoop (h : Weaves handlers fit Q R) (hf : ∀ s, Q s (trail s) (ended (f s)))
    (stop n : Nat) (s : State) :
    Q s (blockLoopTrail f trail stop n s) (ended (blockLoop f stop n s)) := by
  induction n generalizing s with
  | zero => exact h.cut _ _ _ (h.stay s)
  | succ n ih =>
    simp only [blockLoopTrail, Playbook.blockLoop]
    split
    · have hs := hf s
      cases hx : f s with
      | none => simpa [hx] using hs
      | some r =>
        obtain ⟨x, t⟩ := r
        rw [hx] at hs
        cases x with
        | error e => simpa using hs
        | ok flags =>
          cases hstop : flags.stop with
          | true => simpa [hstop] using hs
          | false => simpa [hstop] using h.append _ _ _ _ _ hs (ih t)
    · exact h.stay s

theorem block (h : Weaves handlers fit Q R) (hf : ∀ s, Q s (trail s) (ended (f s)))
    (n start stop : Nat) (s : State) :
    Q s (blockTrail f trail n start stop s) (ended (blockWith f n start stop s)) := by
  unfold blockTrail
  split
  · rename_i hrange
    simp only [blockWith, hrange, ↓reduceIte]
    exact h.stay s
  · rename_i hrange
    have hstart : start ≤ s.context.len := by omega
    have hmove := h.setIndex start s
    simp only [Effect.run, Context.setIndex_ok hstart] at hmove
    rw [blockWith_in_range (by omega) (by omega)]
    exact h.append _ [_] _ _ _ hmove (h.blockLoop hf stop n _)

theorem driveLoop (h : Weaves handlers fit Q R) (hf : ∀ s, Q s (trail s) (ended (f s)))
    (release : Bool) (n : Nat) (s : State) :
    R s (driveLoopTrail f trail release n s) (ended (driveLoop f release n s)) := by
  induction n generalizing s with
  | zero => exact h.runs.cut _ _ _ (h.runs.stay s)
  | succ n ih =>
    simp only [driveLoopTrail, Playbook.driveLoop]
    split
    · exact h.own s _ .completed
    · have hs := h.whole _ _ _ (hf s)
      cases hx : f s with
      | none => simpa [hx] using hs
      | some r =>
        obtain ⟨x, t⟩ := r
        rw [hx] at hs
        cases x with
        | error e =>
          have hlog := h.own t _ (.failed e)
          cases release with
          | false => exact h.join _ _ _ _ _ hs hlog
          | true => exact h.join _ _ _ _ _ hs (h.join _ _ _ _ _ hlog (h.own _ _ .dispose))
        | ok flags =>
          cases hstop : flags.stop with
          | false => simpa [hstop] using h.join _ _ _ _ _ hs (ih t)
          | true =>
            cases hd : flags.dispose && release with
            | true =>
              simp only [hstop, hd, ↓reduceIte]
              exact h.join _ _ _ _ _ hs (h.own t _ .dispose)
            | false =>
              simp only [hstop, hd, ↓reduceIte, Bool.false_eq_true, List.append_nil]
              split <;> exact hs

theorem drive (h : Weaves handlers fit Q R) (hf : ∀ s, Q s (trail s) (ended (f s))) (n : Nat)
    (release : Bool) (s : State) :
    R s (driveTrail f trail n release s) (ended (driveWith f n release s)) := by
  unfold driveTrail driveWith
  split
  · exact h.runs.stay s
  · exact h.driveLoop hf release n s

theorem visit (h : Weaves handlers fit Q R) (hf : ∀ s, Q s (trail s) (ended (f s))) (n : Nat)
    (parent : Context) (actors : List ActorId) (s : State) :
    R s (visitTrail f trail n parent actors s) (visitAll f n parent actors s) := by
  induction actors generalizing s with
  | nil => exact h.runs.stay s
  | cons actor actors ih =>
    let s' : State := { s with context := s.context.reset (some actor) }
    have hnext := h.join s [_] s' _ _ (h.own s _ (.reset actor))
      (h.runs.follow Prod.snd (h.drive hf n false s') fun r _ =>
        h.join _ [] _ _ _ (h.note r.2 parent actor r.1) (ih _))
    simp only [visitTrail, visitAll]
    cases hd : driveWith f n false s' with
    | none => simpa [s', hd] using hnext
    | some r =>
      simp only [s', hd, Option.elim_some, Option.bind_some] at hnext ⊢
      exact hnext

/-- All that happens in the sub-context in which an action is run for actors, up to its release. -/
theorem visits (h : Weaves handlers fit Q R) (hf : ∀ s, Q s (trail s) (ended (f s))) (n : Nat)
    (target : Action) (actors : List ActorId) (s : State) :
    R (s.forTarget target) (eachTrail f trail n target actors s)
      ((visitAll f n s.context actors (s.forTarget target)).map State.dispose) := by
  have hvisits := h.runs.follow id
    (by simpa using h.visit hf n s.context actors (s.forTarget target))
    fun t _ => h.own t _ .dispose
  unfold eachTrail
  cases hv : visitAll f n s.context actors (s.forTarget target) with
  | none => simpa [hv] using hvisits
  | some t =>
    simp only [hv, Option.elim_some, Option.bind_some, Option.map_some] at hvisits ⊢
    exact hvisits

theorem each (h : Weaves handlers fit Q R) (hf : ∀ s, Q s (trail s) (ended (f s))) (n : Nat)
    (target : Action) (actors : List ActorId) (s : State) (hfit : fit target) :
    Q s (eachTrail f trail n target actors s) (eachWith f n target actors s) := by
  have hchild := h.child s target _ _ hfit (h.visits hf n target actors s) fun u hu => by
    obtain ⟨t, -, rfl⟩ := Option.map_eq_some_iff.mp hu
    exact t.dispose_disposed
  rw [eachWith_eq]
  rwa [Option.map_map] at hchild

theorem step (h : Weaves handlers fit Q R) (n : Nat) (s : State) :
    Q s (stepTrail handlers n s) (ended (Playbook.step handlers n s)) := by
  -- on the fuel: what a handler nests runs with less of it
  induction n generalizing s with
  | zero => exact h.cut _ _ _ (h.stay s)
  | succ n ih => exact h.dispatch (h.block ih n) (h.each ih n) s

end Weaves

/-- A property of stretches of runs that everything in a run keeps, whatever the handlers do. -/
structure Threads (Q : State → List Instant → Option State → Prop) : Prop extends Composes Q where
  effect : ∀ e s, Q s [⟨.effect e, s⟩] (some (Effect.run e s).2)
  enter : ∀ s a, s.context.actions[s.context.index]? = some a →
    Q s [⟨.enter, s⟩] (some s.entered)
  sync : ∀ s, Q s [] (some { s with context := s.context.sync })
  log : ∀ s entry, Q s [] (some { s with world := s.world.log entry })
  child : ∀ s target ms t, Q (s.forTarget target) ms t →
    (∀ u, t = some u → u.context.disposed = true) →
    Q s ms (t.map fun t => { context := s.context, world := t.world })

namespace Threads

variable {Q : State → List Instant → Option State → Prop} {f : Stepper}
  {trail : State → List Instant}

theorem logged (h : Threads Q) (s : State) (entry : Option LogEntry) :
    Q s [] (some { s with world := s.world.logged entry }) := by
  cases entry with
  | none => exact h.stay s
  | some entry => exact h.log s entry

theorem exec (h : Threads Q) {nested : Nested} {inner : NestedTrail}
    (hblock : ∀ start stop s, Q s (inner.block start stop s) (ended (nested.block start stop s)))
    (heach : ∀ target actors s,
      Q s (inner.each target actors s) (nested.each target actors s)) (p : Prog α) (s : State) :
    Q s (p.trail nested inner s) (ended (p.exec nested s)) :=
  h.toComposes.exec nested inner p.within_true (fun e s _ => h.effect e s) (fun _ => hblock)
    (fun _ => heach) s

theorem weaves (h : Threads Q) (handlers : Handlers) : Weaves handlers (fun _ => True) Q Q where
  toComposes := h.toComposes
  handler _ _ hblock heach s a ha := h.append s [_] _ _ _ (h.enter s a ha)
    (h.exec hblock (fun target actors s => heach target actors s trivial) _ _)
  setIndex i := h.effect (.setIndex i)
  sync := h.sync
  whole _ _ _ hQ := hQ
  join := h.append
  own s e _ := h.effect e s
  note s _ _ _ := h.logged s _
  child s target ms t _ := h.child s target ms t

theorem block (h : Threads Q) (hf : ∀ s, Q s (trail s) (ended (f s))) (n start stop : Nat)
    (s : State) : Q s (blockTrail f trail n start stop s) (ended (blockWith f n start stop s)) :=
  (h.weaves .none).block hf n start stop s

theorem drive (h : Threads Q) (hf : ∀ s, Q s (trail s) (ended (f s))) (n : Nat) (release : Bool)
    (s : State) : Q s (driveTrail f trail n release s) (ended (driveWith f n release s)) :=
  (h.weaves .none).drive hf n release s

theorem each (h : Threads Q) (hf : ∀ s, Q s (trail s) (ended (f s))) (n : Nat) (target : Action)
    (actors : List ActorId) (s : State) :
    Q s (eachTrail f trail n target actors s) (eachWith f n target actors s) :=
  (h.weaves .none).each hf n target actors s trivial

theorem step (h : Threads Q) (handlers : Handlers) (n : Nat) (s : State) :
    Q s (stepTrail handlers n s) (ended (Playbook.step handlers n s)) :=
  (h.weaves handlers).step n s

end Threads

-- ---------------------------------------------------------------------------
-- Later states
-- ---------------------------------------------------------------------------

structure Context.Gone (c : Context) : Prop where
  disposed : c.disposed = true
  empty : c.len = 0
  start : c.index = 0

/-- A context that was made in this world. If it has been disposed of then nothing is left of it,
and it may not be run. -/
structure State.Sound (s : State) : Prop where
  known : s.context.id < s.world.nextContext
  gone : s.context.disposed = true → s.context.Gone ∧ s.world.isAlive s.context.id = false

/-- What a context keeps for good: that it has been disposed of, and until then what it
remembers. -/
structure Context.Endures (c d : Context) : Prop where
  disposed : c.disposed = true → d.disposed = true
  remembers : ∀ key, (c.metadata.get? key).isSome → d.disposed = false →
    (d.metadata.get? key).isSome

namespace Context.Endures

theorem of_same {c d : Context} (hdisposed : d.disposed = c.disposed)
    (hmetadata : d.metadata = c.metadata) : c.Endures d :=
  ⟨fun h => hdisposed ▸ h, fun _ h _ => hmetadata ▸ h⟩

theorem refl (c : Context) : c.Endures c := .of_same rfl rfl

theorem trans {c d e : Context} (h : c.Endures d) (h' : d.Endures e) : c.Endures e := by
  refine ⟨fun hc => h'.disposed (h.disposed hc), fun key hkey he => ?_⟩
  refine h'.remembers key (h.remembers key hkey ?_) he
  exact Bool.eq_false_iff.mpr fun hd => by cases he.symm.trans (h'.disposed hd)

end Context.Endures

structure State.Older (s t : State) : Prop where
  world : s.world.Grows (fun _ => True) t.world
  context : t.context.id = s.context.id → s.context.Endures t.context

theorem State.Older.refl (s : State) : s.Older s := ⟨.refl _, fun _ => .refl _⟩

theorem State.Older.disposed {s t : State} (h : s.Older t) (hid : t.context.id = s.context.id)
    (hs : s.context.disposed = true) : t.context.disposed = true :=
  (h.context hid).disposed hs

theorem Effect.run_endures (e : Effect) (s : State) : s.context.Endures (e.run s).2.context := by
  cases e with
  | setIndex i =>
    obtain ⟨j, hj⟩ := run_setIndex i s
    rw [hj]
    exact .of_same rfl rfl
  | remember key m =>
    refine ⟨id, fun key' hkey' _ => ?_⟩
    simp only [Effect.run, Table.get?_set]
    split
    · rfl
    · exact hkey'
  | dispose =>
    simp only [Effect.run, World.dispose]
    split
    · exact .refl _
    · exact ⟨fun _ => rfl, fun _ _ hd => by cases hd⟩
  | _ => exact .of_same rfl rfl

theorem Effect.run_older (e : Effect) (s : State) : s.Older (e.run s).2 :=
  ⟨.effect e s, fun _ => e.run_endures s⟩

theorem World.dispose_alive {w : World} {c : Context} (h : c.disposed = false) :
    (w.dispose c).2.2.isAlive c.id = false := by
  have hrelease :
      ((w.cancel c.id).log c.disposalEntry).Grows (fun _ => True) (w.dispose c).2.2 := by
    simp only [World.dispose, h, Bool.false_eq_true, ↓reduceIte]
    exact .release _ _
  exact hrelease.dead (w.cancel_dead c.id)

theorem Effect.run_sound (e : Effect) {s : State} (h : s.Sound) : (e.run s).2.Sound := by
  have hgrows := State.Grows.effect e s
  have hworld : s.world.Grows (fun _ => True) (e.run s).2.world := .effect e s
  refine ⟨hgrows.id ▸ Nat.lt_of_lt_of_le h.known hworld.contexts, fun hd => ?_⟩
  rw [hgrows.id]
  cases hs : s.context.disposed with
  | true =>
    obtain ⟨hgone, hdead⟩ := h.gone hs
    by_cases he : e = .dispose
    · subst he
      simp only [Effect.run, World.dispose, hs, ↓reduceIte]
      exact ⟨hgone, hdead⟩
    · have hlen : (e.run s).2.context.len = 0 := (Effect.run_kept he s).len.trans hgone.empty
      have hindex := e.run_bounded s (Nat.le_of_eq (hgone.start.trans hgone.empty.symm))
      exact ⟨⟨hd, hlen, Nat.le_zero.mp (hlen ▸ hindex)⟩, hworld.dead hdead⟩
  | false =>
    by_cases he : e = .dispose
    · subst he
      refine ⟨?_, World.dispose_alive hs⟩
      simp only [Effect.run, World.dispose, hs, Bool.false_eq_true, ↓reduceIte]
      exact ⟨rfl, rfl, rfl⟩
    · rw [(Effect.run_kept he s).disposed, hs] at hd
      cases hd

namespace Instant

theorem after_id (m : Instant) : m.after.context.id = m.whose := by
  rcases m with ⟨_ | e, s⟩
  · rfl
  · exact (State.Grows.effect e s).id

theorem older (m : Instant) : m.before.Older m.after := by
  rcases m with ⟨_ | e, s⟩
  · have hgrows := (grows_pervades .none).enter s
    exact ⟨hgrows.world.mono fun _ _ => trivial, fun _ => .of_same rfl rfl⟩
  · exact e.run_older s

end Instant

/-- Instants in the order in which they come. No handler is entered for a context that has been
disposed of. -/
structure Chronicle (ms : List Instant) : Prop where
  ordered : ms.Pairwise fun m m' => m.after.Older m'.before
  sound : ∀ m ∈ ms, m.before.Sound ∧ (m.deed = .enter → m.before.context.disposed = false)

theorem Chronicle.append (h : Chronicle ms) (h' : Chronicle ms')
    (hbetween : ∀ m ∈ ms, ∀ m' ∈ ms', m.after.Older m'.before) : Chronicle (ms ++ ms') := by
  refine ⟨List.pairwise_append.mpr ⟨h.ordered, h'.ordered, hbetween⟩, fun m hm => ?_⟩
  rcases List.mem_append.mp hm with hm | hm
  · exact h.sound m hm
  · exact h'.sound m hm

/-- How a stretch of a run goes on from `s`, to `t` if it ends. Its instants are of the context that
runs or of contexts that were made meanwhile. -/
structure Passage (s : State) (ms : List Instant) (t : Option State) : Prop extends
    Chronicle ms where
  later : ∀ m ∈ ms, s.Older m.before ∧ (m.whose = s.context.id ∨ s.world.nextContext ≤ m.whose)
  ends : ∀ u, t = some u → u.Sound ∧ u.context.id = s.context.id ∧ s.Older u ∧
    (∀ m ∈ ms, m.after.Older u) ∧
    u.world.entrances = (ms.filterMap Instant.entrance?).reverse ++ s.world.entrances

theorem Instant.older_via {m m' : Instant} {t : State} (hm : m.before.Sound) (ht : m.after.Older t)
    (hm' : t.Older m'.before)
    (hwhose : m'.whose = t.context.id ∨ t.world.nextContext ≤ m'.whose) :
    m.after.Older m'.before := by
  refine ⟨ht.world.trans hm'.world, fun hid => ?_⟩
  rw [m.after_id] at hid
  -- a context that was there before `t` is none of those made after it
  have hknown : m.whose < t.world.nextContext :=
    Nat.lt_of_lt_of_le hm.known (Nat.le_trans m.older.world.contexts ht.world.contexts)
  rcases hwhose with hwhose | hwhose
  · have hmt : t.context.id = m.after.context.id := by rw [m.after_id, ← hid]; exact hwhose.symm
    exact (ht.context hmt).trans (hm'.context hwhose)
  · rw [← hid] at hknown
    exact absurd hknown (Nat.not_lt.mpr hwhose)

theorem Passage.append {s t : State} (h : Passage s ms (some t)) (h' : Passage t ms' u) :
    Passage s (ms ++ ms') u := by
  obtain ⟨-, hid, hst, hms, hentrances⟩ := h.ends t rfl
  refine ⟨h.toChronicle.append h'.toChronicle fun m hm m' hm' => ?_, ?_, ?_⟩
  · obtain ⟨htm', hwhose⟩ := h'.later m' hm'
    exact Instant.older_via (h.sound m hm).1 (hms m hm) htm' hwhose
  · intro m hm
    rcases List.mem_append.mp hm with hm | hm
    · exact h.later m hm
    · obtain ⟨htm, hwhose⟩ := h'.later m hm
      refine ⟨⟨hst.world.trans htm.world, fun hms => ?_⟩, ?_⟩
      · exact (hst.context hid).trans (htm.context (hms.trans hid.symm))
      · exact hwhose.imp (·.trans hid) (Nat.le_trans hst.world.contexts)
  · intro u hu
    obtain ⟨husound, huid, htu, hms', hentrances'⟩ := h'.ends u hu
    refine ⟨husound, huid.trans hid, ⟨hst.world.trans htu.world, fun _ => ?_⟩, ?_, ?_⟩
    · exact (hst.context hid).trans (htu.context huid)
    · intro m hm
      rcases List.mem_append.mp hm with hm | hm
      · refine ⟨(hms m hm).world.trans htu.world, fun hum => ?_⟩
        exact ((hms m hm).context (huid.symm.trans hum)).trans (htu.context huid)
      · exact hms' m hm
    · rw [hentrances', hentrances, List.filterMap_append, List.reverse_append, List.append_assoc]

theorem Passage.silent {s t : State} (hs : s.Sound) (hid : t.context.id = s.context.id)
    (hsequence : t.context.sequence = s.context.sequence)
    (hindex : t.context.index = s.context.index)
    (hdisposed : t.context.disposed = s.context.disposed)
    (hmetadata : t.context.metadata = s.context.metadata)
    (hworld : s.world.Grows (fun _ => True) t.world)
    (hentrances : t.world.entrances = s.world.entrances) : Passage s [] (some t) := by
  have ht : t.Sound := by
    refine ⟨hid ▸ Nat.lt_of_lt_of_le hs.known hworld.contexts, fun hd => ?_⟩
    obtain ⟨hgone, hdead⟩ := hs.gone (hdisposed ▸ hd)
    have hlen : t.context.len = s.context.len := by
      simp only [Context.len, Context.actions, hsequence]
    exact ⟨⟨hd, hlen.trans hgone.empty, hindex.trans hgone.start⟩, hid ▸ hworld.dead hdead⟩
  refine ⟨⟨.nil, by simp⟩, by simp, ?_⟩
  rintro u ⟨⟩
  exact ⟨ht, hid, ⟨hworld, fun _ => .of_same hdisposed hmetadata⟩, by simp, hentrances⟩

theorem Passage.single {m : Instant} (hm : m.before.Sound) (hafter : m.after.Sound)
    (henter : m.deed = .enter → m.before.context.disposed = false)
    (hentrances : m.after.world.entrances = m.entrance?.toList ++ m.before.world.entrances) :
    Passage m.before [m] (some m.after) := by
  refine ⟨⟨List.pairwise_singleton _ _, ?_⟩, ?_, ?_⟩
  · rintro m' hm'
    obtain rfl := List.mem_singleton.mp hm'
    exact ⟨hm, henter⟩
  · rintro m' hm'
    obtain rfl := List.mem_singleton.mp hm'
    exact ⟨.refl _, .inl rfl⟩
  · rintro u ⟨⟩
    refine ⟨hafter, m.after_id, m.older, ?_, ?_⟩
    · rintro m' hm'
      obtain rfl := List.mem_singleton.mp hm'
      exact .refl _
    · rw [hentrances]
      cases hentrance : m.entrance? <;> simp [hentrance]

theorem State.forTarget_sound (s : State) (target : Action) : (s.forTarget target).Sound :=
  ⟨Nat.lt_succ_self _, fun hd => by cases hd⟩

theorem State.forTarget_grows (s : State) (target : Action) :
    s.world.Grows (fun _ => True) (s.forTarget target).world :=
  ⟨Nat.le_succ _, fun _ hi => hi, [], rfl, by simp⟩

/-- The instants of a sub-context are none of its parent's. -/
theorem Passage.child {s : State} {target : Action} (hs : s.Sound)
    (h : Passage (s.forTarget target) ms t) :
    Passage s ms (t.map fun t => { context := s.context, world := t.world }) := by
  have hgrows := s.forTarget_grows target
  have hnew : ∀ m ∈ ms, s.world.nextContext ≤ m.whose := by
    intro m hm
    rcases (h.later m hm).2 with hwhose | hwhose
    · exact Nat.le_of_eq hwhose.symm
    · exact Nat.le_trans hgrows.contexts hwhose
  have hother : ∀ m ∈ ms, m.whose ≠ s.context.id := fun m hm heq =>
    absurd hs.known (Nat.not_lt.mpr (heq ▸ hnew m hm))
  refine ⟨h.toChronicle, ?_, ?_⟩
  · intro m hm
    exact ⟨⟨hgrows.trans (h.later m hm).1.world, fun hid => absurd hid (hother m hm)⟩,
      .inr (hnew m hm)⟩
  · intro u hu
    obtain ⟨v, rfl, rfl⟩ := Option.map_eq_some_iff.mp hu
    obtain ⟨-, -, hv, hms, hentrances⟩ := h.ends v rfl
    have hworld := hgrows.trans hv.world
    refine ⟨⟨Nat.lt_of_lt_of_le hs.known hworld.contexts, fun hd => ?_⟩, rfl,
      ⟨hworld, fun _ => .refl _⟩, ?_, hentrances⟩
    · exact (hs.gone hd).imp id hworld.dead
    · intro m hm
      refine ⟨(hms m hm).world, fun hid => ?_⟩
      rw [m.after_id] at hid
      exact absurd hid.symm (hother m hm)

theorem passage_threads : Threads fun s ms t => s.Sound → Passage s ms t where
  stay s hs := .silent hs rfl rfl rfl rfl rfl (.refl _) rfl
  cut s ms t h hs := ⟨(h hs).toChronicle, (h hs).later, fun _ ht => by cases ht⟩
  append s ms t ms' u h h' hs := (h hs).append (h' ((h hs).ends t rfl).1)
  effect e s hs := .single (m := ⟨.effect e, s⟩) hs (e.run_sound hs) (fun h => by cases h)
    (e.run_entrances s)
  enter s a ha hs := by
    -- a context that has been disposed of has no action to enter
    have halive : s.context.disposed = false := by
      cases hd : s.context.disposed with
      | false => rfl
      | true =>
        have hlt := (List.getElem?_eq_some_iff.mp ha).1
        have hlen : s.context.actions.length = 0 := (hs.gone hd).1.empty
        omega
    have hentered : s.entered.Sound := ⟨hs.known, fun hd => by cases halive.symm.trans hd⟩
    exact .single (m := ⟨.enter, s⟩) hs hentered (fun _ => halive) rfl
  sync s hs := .silent hs rfl rfl rfl rfl rfl (.refl _) rfl
  log s entry hs := .silent hs rfl rfl rfl rfl rfl (.log _ _) rfl
  child s target ms t h _ hs := (h (s.forTarget_sound target)).child hs

end Playbook
