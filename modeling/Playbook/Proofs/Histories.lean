import Playbook.Proofs.Loops
import Playbook.Proofs.Trails
import Playbook.Session

/-!
# Histories of sessions

A session goes through operations in any order: contexts are made, changed, run, handed to the
scheduler, cancelled and let go. Its history is the trail of everything that happens in them
(`Session.history`), down to what a handler does deep inside of nested blocks.

All operations come down to a few moves of the contexts in use and their world: a context is made,
joins or leaves, something is done with it, or something happens to the world alone (`Unfolds`). So
what these moves keep, all histories keep (`Session.history_unfolds`).
-/

namespace Playbook

-- ---------------------------------------------------------------------------
-- Things done with a context
-- ---------------------------------------------------------------------------

inductive Use where
  | effect (e : Effect)
  | perform (p : Handler)
  | run
  | iterate
  | block (start stop : Nat)

inductive Reply where
  | answer {e : Effect} (a : e.Answer)
  | ending (x : Ending Flags)
  | outcome (o : Outcome)
  | block (b : BlockEnd)

namespace Use

def exec (f : Stepper) (fuel : Nat) : Use → State → Option (Reply × State)
  | .effect e, s => some (.answer (e.run s).1, (e.run s).2)
  | .perform p, s => (p.exec (.ofStepper f fuel) s).map (Prod.map .ending id)
  | .run, s => (driveWith f fuel true s).map (Prod.map .outcome id)
  | .iterate, s => (driveWith f fuel false s).map (Prod.map .outcome id)
  | .block start stop, s => (blockWith f fuel start stop s).map (Prod.map .block id)

def result (handlers : Handlers) (fuel : Nat) (u : Use) (s : State) : Option State :=
  ended (u.exec (step handlers fuel) fuel s)

section
variable (handlers : Handlers) (n : Nat) (s : State)

theorem result_perform (p : Handler) :
    (perform p).result handlers n s = ended (p.exec (.ofStepper (step handlers n) n) s) := by
  simp [result, exec, Function.comp_def]

theorem result_run : run.result handlers n s = ended (Playbook.run handlers n s) := by
  simp [result, exec, Playbook.run, Function.comp_def]

theorem result_iterate : iterate.result handlers n s = ended (runIteration handlers n s) := by
  simp [result, exec, runIteration, Function.comp_def]

theorem result_block (start stop : Nat) :
    (block start stop).result handlers n s = ended (runBlock handlers n start stop s) := by
  simp [result, exec, runBlock, Function.comp_def]

end

def trail (handlers : Handlers) (fuel : Nat) : Use → State → List Instant
  | .effect e, s => [⟨.effect e, s⟩]
  | .perform p, s =>
    p.trail (.ofStepper (step handlers fuel) fuel)
      (.ofStepper (step handlers fuel) (stepTrail handlers fuel) fuel) s
  | .run, s => driveTrail (step handlers fuel) (stepTrail handlers fuel) fuel true s
  | .iterate, s => driveTrail (step handlers fuel) (stepTrail handlers fuel) fuel false s
  | .block start stop, s =>
    blockTrail (step handlers fuel) (stepTrail handlers fuel) fuel start stop s

/-- What holds along everything in a run holds along whatever is done with a context. -/
theorem follows {Q : State → List Instant → Option State → Prop} (h : Threads Q) (u : Use)
    (s : State) : Q s (u.trail handlers n s) (u.result handlers n s) := by
  have hstep := h.step handlers n
  cases u with
  | effect e => exact h.effect e s
  | perform p => exact result_perform handlers n s p ▸ h.exec (h.block hstep n) (h.each hstep n) p s
  | run => exact result_run handlers n s ▸ h.drive hstep n true s
  | iterate => exact result_iterate handlers n s ▸ h.drive hstep n false s
  | block start stop => exact result_block handlers n s start stop ▸ h.block hstep n start stop s

theorem passage (u : Use) {s : State} (hs : s.Sound) (ht : u.result handlers n s = t) :
    Passage s (u.trail handlers n s) t :=
  ht ▸ u.follows passage_threads s hs

def carryOut (seat : Nat) (s : Session) : Use → Option Session
  | .effect e => (s.effect seat e).map Prod.snd
  | .perform p => (s.perform seat p).map Prod.snd
  | .run => (s.run seat).map Prod.snd
  | .iterate => (s.runIteration seat).map Prod.snd
  | .block start stop => (s.runBlock seat start stop).map Prod.snd

theorem carryOut_eq {s : Session} (hc : s.context? seat = some c) (u : Use) :
    u.carryOut seat s = (u.result s.handlers s.fuel ⟨c, s.world⟩).map (s.put seat) := by
  cases u with
  | effect e => simp [carryOut, result, exec, Session.effect, Session.onContext, hc]
  | perform p => simp [carryOut, result_perform, Session.perform, Session.onContext, hc,
      Function.comp_def]
  | run => simp [carryOut, result_run, Session.run, Session.onContext, hc, Function.comp_def]
  | iterate => simp [carryOut, result_iterate, Session.runIteration, Session.onContext, hc,
      Function.comp_def]
  | block start stop => simp [carryOut, result_block, Session.runBlock, Session.onContext, hc,
      Function.comp_def]

end Use

-- ---------------------------------------------------------------------------
-- Moves
-- ---------------------------------------------------------------------------

inductive World.Idles : World → World → Prop
  | log (w : World) (entry : LogEntry) : Idles w (w.log entry)
  | cancel (w : World) (i : ContextId) : Idles w (w.cancel i)
  | release (w : World) (q : Sequence) : Idles w (w.release q)
  | rent (w : World) : Idles w w.rent.2

structure Rules where
  uses : Use → Prop
  scripts : Script → Prop
  compiles : Prop

/-- What has to be allowed for the scheduler to do its work. -/
structure Rules.Basic (rules : Rules) : Prop where
  run : rules.uses .run
  block : ∀ start stop, rules.uses (.block start stop)
  dispose : rules.uses (.effect .dispose)
  scripts : rules.compiles → ∀ script, rules.scripts script

def Rules.none : Rules := ⟨fun _ => True, fun _ => True, True⟩

theorem Rules.none_basic : Rules.none.Basic :=
  ⟨trivial, fun _ _ => trivial, trivial, fun _ _ => trivial⟩

/-- The moves that lead from contexts in use and their world to others, with what happens on the
way, unless they are cut off. -/
inductive Unfolds (handlers : Handlers) (rules : Rules) :
    List Context → World → List Instant → Option (List Context × World) → Prop
  | rest : Unfolds handlers rules cs w [] (some (cs, w))
  | perm : cs.Perm ds → Unfolds handlers rules ds w ms r → Unfolds handlers rules cs w ms r
  | leave : ds.Sublist cs → Unfolds handlers rules ds w ms r → Unfolds handlers rules cs w ms r
  | idle : w.Idles w' → Unfolds handlers rules cs w' ms r → Unfolds handlers rules cs w ms r
  | compile (calls : List ParseCall) : rules.compiles →
      Unfolds handlers rules cs (w.recordCalls calls) ms r → Unfolds handlers rules cs w ms r
  | make (script : Script) (actor : Option ActorId) : rules.scripts script →
      Unfolds handlers rules ((w.start script actor).1 :: cs) (w.start script actor).2 ms r →
      Unfolds handlers rules cs w ms r
  | child (c : Context) (items : List Action) : rules.compiles →
      Unfolds handlers rules (c.child w.newContext.1 items :: cs) w.newContext.2 ms r →
      Unfolds handlers rules cs w ms r
  | resume : Unfolds handlers rules ({ c with continuation := none } :: cs) w ms r →
      Unfolds handlers rules (c :: cs) w ms r
  | act (u : Use) : rules.uses u → u.result handlers n ⟨c, w⟩ = some t →
      Unfolds handlers rules (t.context :: cs) t.world ms r →
      Unfolds handlers rules (c :: cs) w (u.trail handlers n ⟨c, w⟩ ++ ms) r
  | cut (u : Use) : rules.uses u → u.result handlers n ⟨c, w⟩ = none →
      Unfolds handlers rules (c :: cs) w (u.trail handlers n ⟨c, w⟩) none

namespace Unfolds

variable {handlers : Handlers} {rules : Rules}

theorem trans (h : Unfolds handlers rules cs w ms (some (ds, w')))
    (h' : Unfolds handlers rules ds w' ms' r) : Unfolds handlers rules cs w (ms ++ ms') r := by
  generalize hr : (some (ds, w') : Option (List Context × World)) = r' at h
  induction h with
  | rest =>
    cases hr
    exact h'
  | perm hp _ ih => exact .perm hp (ih hr)
  | leave hl _ ih => exact .leave hl (ih hr)
  | idle hi _ ih => exact .idle hi (ih hr)
  | compile calls hc _ ih => exact .compile calls hc (ih hr)
  | make script actor hs _ ih => exact .make script actor hs (ih hr)
  | child c items hc _ ih => exact .child c items hc (ih hr)
  | resume _ ih => exact .resume (ih hr)
  | act u hu ht _ ih =>
    rw [List.append_assoc]
    exact .act u hu ht (ih hr)
  | cut => cases hr

theorem reorder (h : Unfolds handlers rules cs w ms (some (ds, w'))) (hp : ds.Perm ds') :
    Unfolds handlers rules cs w ms (some (ds', w')) := by
  have hreordered := h.trans (.perm hp .rest)
  rwa [List.append_nil] at hreordered

theorem logged (entry : Option LogEntry) (h : Unfolds handlers rules cs (w.logged entry) ms r) :
    Unfolds handlers rules cs w ms r := by
  cases entry with
  | none => exact h
  | some entry => exact .idle (.log w entry) h

theorem use (hu : rules.uses u) (ht : u.result handlers n ⟨c, w⟩ = some t) :
    Unfolds handlers rules (c :: cs) w (u.trail handlers n ⟨c, w⟩)
      (some (t.context :: cs, t.world)) := by
  rw [← List.append_nil (u.trail ..)]
  exact .act u hu ht .rest

end Unfolds

-- ---------------------------------------------------------------------------
-- Loops
-- ---------------------------------------------------------------------------

namespace Scheduler

/-- What happens when a loop runs an iteration: it is disposed of unless there are more to run. -/
def fireTrail (handlers : Handlers) (fuel : Nat) (l : Loop) (w : World) : List Instant :=
  blockTrail (step handlers fuel) (stepTrail handlers fuel) fuel l.continuation.start
      l.continuation.stop ⟨l.context, w⟩ ++
    (runBlock handlers fuel l.continuation.start l.continuation.stop ⟨l.context, w⟩).elim []
      fun (r, s) =>
        if (conclude l.continuation r).1 = .ran then []
        else [⟨.effect .dispose, ⟨s.context, s.world.logged (iterationEntry s.context r)⟩⟩]

def tickLoopTrail (handlers : Handlers) (fuel now : Nat) (l : Loop) (w : World) : List Instant :=
  if l.isDue now w then fireTrail handlers fuel l w else []

def tickTrail (handlers : Handlers) (fuel now : Nat) : List Loop → World → List Instant
  | [], _ => []
  | l :: ls, w =>
    tickLoopTrail handlers fuel now l w ++
      (tickLoop handlers fuel now l w).elim [] fun r => tickTrail handlers fuel now ls r.2.2

section
variable {handlers : Handlers} {rules : Rules} (hr : rules.Basic)
include hr

theorem fire_unfolds (n now : Nat) (l : Loop) (w : World) :
    Unfolds handlers rules (l.context :: cs) w (fireTrail handlers n l w)
      ((fire handlers n now l w).map fun r =>
        (r.2.1.toList.map Loop.context ++ cs, r.2.2)) := by
  have hblock := hr.block l.continuation.start l.continuation.stop
  simp only [fireTrail, fire]
  cases hb : runBlock handlers n l.continuation.start l.continuation.stop ⟨l.context, w⟩ with
  | none =>
    rw [Option.elim_none, List.append_nil]
    exact .cut (.block _ _) hblock (by rw [Use.result_block, hb]; rfl)
  | some r =>
    obtain ⟨b, s⟩ := r
    refine .act (.block _ _) hblock (t := s) (by rw [Use.result_block, hb]; rfl) ?_
    refine .logged (iterationEntry s.context b) ?_
    simp only [Option.elim_some]
    by_cases hran : (conclude l.continuation b).1 = .ran
    · simp only [hran, ↓reduceIte]
      exact .rest
    · simp only [hran, ↓reduceIte]
      exact .act (n := n) (.effect .dispose) hr.dispose rfl
        (.leave (List.sublist_cons_self _ _) .rest)

theorem tickLoop_unfolds (n now : Nat) (l : Loop) (w : World) :
    Unfolds handlers rules (l.context :: cs) w (tickLoopTrail handlers n now l w)
      ((tickLoop handlers n now l w).map fun r =>
        (r.2.1.toList.map Loop.context ++ cs, r.2.2)) := by
  unfold tickLoopTrail
  cases hdue : l.isDue now w with
  | true =>
    have hfire : Unfolds handlers rules (l.context :: cs) w _ _ := fire_unfolds hr n now l w
    rw [fire_eq hdue, Option.map_map] at hfire
    rw [tickLoop_of_due hdue, Option.map_map]
    exact hfire
  | false =>
    unfold tickLoop
    cases halive : w.isAlive l.context.id with
    | false =>
      exact .idle (.log _ _) (.idle (.release _ _) (.leave (List.sublist_cons_self _ _) .rest))
    | true =>
      have hlt : now < l.nextFire := by simpa [Loop.isDue, halive] using hdue
      rw [if_pos hlt]
      exact .rest

theorem tickLoops_unfolds (n now : Nat) (ls : List Loop) (w : World) :
    Unfolds handlers rules (ls.map Loop.context ++ cs) w (tickTrail handlers n now ls w)
      ((tickLoops handlers n now ls w).map fun r => (r.2.1.map Loop.context ++ cs, r.2.2)) := by
  induction ls generalizing cs w with
  | nil => exact .rest
  | cons l ls ih =>
    have hturn : Unfolds handlers rules (l.context :: (ls.map Loop.context ++ cs)) w _ _ :=
      tickLoop_unfolds hr n now l w
    simp only [tickTrail, tickLoops]
    cases ht : tickLoop handlers n now l w with
    | none =>
      rw [Option.elim_none, List.append_nil]
      rw [ht] at hturn
      exact hturn
    | some r =>
      obtain ⟨event, kept, w'⟩ := r
      rw [ht] at hturn
      -- the loop that stays waits behind those that are still to come
      have hturn := hturn.reorder (List.perm_append_comm_assoc _ _ _)
      refine hturn.trans ?_
      have hrest : Unfolds handlers rules
          (ls.map Loop.context ++ (kept.toList.map Loop.context ++ cs)) w' _ _ := ih w'
      simp only
      cases htick : tickLoops handlers n now ls w' with
      | none =>
        rw [htick] at hrest
        exact hrest
      | some rest =>
        rw [htick] at hrest
        refine hrest.reorder ?_
        rw [List.map_append, List.append_assoc]
        exact List.perm_append_comm_assoc _ _ _

end

theorem adopt_unfolds {sched : Scheduler} (ha : sched.adopt now c w = some (loop, sched', w')) :
    ∃ l, sched'.loops = sched.loops ++ [l] ∧
      Unfolds handlers rules (c :: cs) w [] (some (l.context :: cs, w')) := by
  unfold adopt at ha
  split at ha
  · cases ha
  · cases ha
    exact ⟨_, rfl, .resume (.idle (.log _ _) .rest)⟩

end Scheduler

theorem execute_cases (h : execute handlers n now sched s = some (outcome, loop?, sched', w)) :
    ∃ t, run handlers n s = some (outcome, t) ∧
      ((∃ loop, sched.adopt now t.context t.world = some (loop, sched', w)) ∨
        sched' = sched ∧ w = t.world.release t.context.sequence) := by
  unfold execute at h
  cases hr : run handlers n s with
  | none => simp [hr] at h
  | some r =>
    obtain ⟨outcome', t⟩ := r
    simp only [hr] at h
    split at h
    · split at h
      · rename_i hadopt
        cases h
        exact ⟨t, rfl, .inl ⟨_, hadopt⟩⟩
      · cases h
        exact ⟨t, rfl, .inr ⟨rfl, rfl⟩⟩
    · cases h
      exact ⟨t, rfl, .inr ⟨rfl, rfl⟩⟩

theorem execute_none (h : execute handlers n now sched s = none) : run handlers n s = none := by
  unfold execute at h
  cases hr : run handlers n s with
  | none => rfl
  | some r =>
    simp only [hr] at h
    split at h
    · split at h <;> cases h
    · cases h

-- ---------------------------------------------------------------------------
-- Sessions
-- ---------------------------------------------------------------------------

namespace Session

/-- What can be done with a session. Contexts are named by the number of their seat; what is done
with an empty seat leaves the session as it is. -/
inductive Op where
  | allow (fuel : Nat)
  | addUnit (name source : String)
  | make (script : String) (actor : Option ActorId)
  | child (seat : Nat) (actions : List (String × List Token))
  | use (seat : Nat) (u : Use)
  | execute (seat now : Nat)
  | adopt (seat now : Nat)
  | tick (now : Nat)
  | cancel (seat : Nat)
  | cancelLoop (id : LoopId)
  | drop (seat : Nat)
  | rent (count : Nat)
  | giveBack (count : Nat)

def Op.carryOut (s : Session) : Op → Option Session
  | .allow fuel => some { s with fuel }
  | .addUnit name source =>
    match s.addUnit name source with
    | .ok s => some s
    | .error _ => some s
  | .make script actor => some ((s.newContext script actor).elim s Prod.snd)
  | .child seat actions => some ((s.context? seat).elim s fun c => (s.newChild c actions).2)
  | .use seat u => (s.context? seat).elim (some s) fun _ => u.carryOut seat s
  | .execute seat now =>
    (s.context? seat).elim (some s) fun _ => (s.execute seat now).map Prod.snd
  | .adopt seat now => some (s.adopt seat now).2
  | .tick now => (s.tick now).map Prod.snd
  | .cancel seat => some (s.cancel seat)
  | .cancelLoop id => some (s.cancelLoop id).2
  | .drop seat => some (s.drop seat)
  | .rent count => some (s.rent count).2
  | .giveBack count => some (s.giveBack count)

def Op.trail (s : Session) : Op → List Instant
  | .use seat u =>
    (s.context? seat).elim [] fun c => u.trail s.handlers s.fuel ⟨c, s.world⟩
  | .execute seat _ =>
    (s.context? seat).elim [] fun c => Use.run.trail s.handlers s.fuel ⟨c, s.world⟩
  | .tick now => Scheduler.tickTrail s.handlers s.fuel now s.scheduler.loops s.world
  | .cancelLoop id =>
    (s.scheduler.loops.find? fun l => l.id == id).elim [] fun l =>
      [⟨.effect .dispose, ⟨l.context, s.world⟩⟩]
  | _ => []

/-- The session after operations, unless a run in them is out of fuel. -/
def afterAll (s : Session) : List Op → Option Session
  | [] => some s
  | op :: ops => (op.carryOut s).bind fun t => t.afterAll ops

/-- Everything that happens in operations, oldest first, up to where a run is out of fuel. -/
def history (s : Session) : List Op → List Instant
  | [] => []
  | op :: ops => op.trail s ++ (op.carryOut s).elim [] fun t => t.history ops

def seated (s : Session) : List Context := s.seats.filterMap Seat.context

def inPlay (s : Session) : List Context := s.seated ++ s.scheduler.loops.map Loop.context

theorem seated_perm {s : Session} (hc : s.context? i = some c) :
    ∃ cs, s.seated.Perm (c :: cs) ∧ (∀ t, (s.put i t).seated.Perm (t.context :: cs)) ∧
      (s.vacate i).seated.Perm cs := by
  obtain ⟨e, he, hec⟩ := Option.bind_eq_some_iff.mp hc
  obtain ⟨hlt, rfl⟩ := List.getElem?_eq_some_iff.mp he
  refine ⟨(s.seats.take i).filterMap Seat.context ++
    (s.seats.drop (i + 1)).filterMap Seat.context, ?_, fun t => ?_, ?_⟩
  · have hsplit : s.seats = s.seats.take i ++ s.seats[i] :: s.seats.drop (i + 1) := by
      rw [List.getElem_cons_drop, List.take_append_drop]
    unfold seated
    rw [hsplit, List.filterMap_append, List.filterMap_cons_some hec, ← hsplit]
    exact List.perm_middle
  · simp only [seated, put, List.modify_eq_take_cons_drop hlt, List.filterMap_append]
    exact List.perm_middle
  · simp only [seated, vacate, List.modify_eq_take_cons_drop hlt, List.filterMap_append,
      List.filterMap_cons_none]
    exact .refl _

theorem vacated_adopted {s : Session} (hvacated : (s.vacate i).seated.Perm cs)
    {scheduler : Scheduler} (hloops : scheduler.loops = s.scheduler.loops ++ [l]) :
    (l.context :: (cs ++ s.scheduler.loops.map Loop.context)).Perm
      { s.vacate i with scheduler, world := w }.inPlay := by
  simp only [inPlay, hloops, List.map_append, ← List.append_assoc]
  exact (List.perm_append_singleton _ _).symm.trans ((hvacated.symm.append_right _).append_right _)

theorem seat_inPlay (s : Session) (c : Context) (w : World) :
    (c :: s.inPlay).Perm (s.seat c w).2.inPlay := by
  simp only [inPlay, seated, Session.seat, List.filterMap_append, List.append_assoc]
  exact List.perm_middle.symm

abbrev Moves (rules : Rules) (s : Session) (ms : List Instant) (t : Option Session) : Prop :=
  Unfolds s.handlers rules s.inPlay s.world ms (t.map fun t => (t.inPlay, t.world))

section
variable {handlers : Handlers} {rules : Rules} {s : Session}

theorem compileOnto_unfolds (hr : rules.compiles) (c : Context) (items : List Action)
    (actions : List (String × List Token)) (w : World) :
    Unfolds handlers rules cs w [] (some (cs, (compileOnto c w items actions).2)) := by
  induction actions generalizing w items with
  | nil => exact .rest
  | cons action rest ih =>
    obtain ⟨id, args⟩ := action
    refine .compile (Compile.action c.registry c.script id args).calls hr ?_
    simp only [compileOnto, World.perform]
    cases (Compile.action c.registry c.script id args).result with
    | ok a => exact ih _ _
    | error e => exact .idle (.release _ (.rented items)) .rest

theorem addUnit_eq_ok (ht : s.addUnit name source = .ok t) :
    ∃ u, (Playbook.compile s.registry name source).result = .ok u ∧
      t = { s with
        units := s.units ++ [u]
        world := (s.world.recordCalls (Playbook.compile s.registry name source).calls).log
          u.announcement } := by
  unfold Session.addUnit World.compile World.perform at ht
  cases hc : (Playbook.compile s.registry name source).result with
  | error e =>
    simp only [hc] at ht
    cases ht
  | ok u =>
    simp only [hc] at ht
    cases ht
    exact ⟨u, rfl, rfl⟩

theorem addUnit_unfolds (hr : rules.compiles) (ht : s.addUnit name source = .ok t) :
    s.Moves rules [] (some t) := by
  obtain ⟨u, -, rfl⟩ := addUnit_eq_ok ht
  exact .compile _ hr (.idle (.log _ _) .rest)

theorem make_unfolds (hs : ∀ script, s.script? name = some script → rules.scripts script)
    (ht : s.newContext name actor = some (k, t)) : s.Moves rules [] (some t) := by
  obtain ⟨script, hscript, ht⟩ := Option.map_eq_some_iff.mp ht
  cases ht
  exact .make script actor (hs script hscript) (.perm (s.seat_inPlay _ _) .rest)

theorem child_unfolds (hr : rules.compiles) (c : Context) (actions : List (String × List Token)) :
    s.Moves rules [] (some (s.newChild c actions).2) := by
  have hcompile : Unfolds s.handlers rules s.inPlay s.world.rent.2 []
      (some (s.inPlay, (compileOnto c s.world.rent.2 s.world.rent.1 actions).2)) :=
    compileOnto_unfolds hr c s.world.rent.1 actions s.world.rent.2
  have hrent := Unfolds.idle (.rent s.world) hcompile
  simp only [newChild]
  generalize compileOnto c s.world.rent.2 s.world.rent.1 actions = r at hrent
  obtain ⟨result, w⟩ : Except CompileError (List Action) × World := r
  cases result with
  | error e => exact hrent
  | ok items => exact hrent.trans (.child c items hr (.perm (s.seat_inPlay _ _) .rest))

theorem use_unfolds (hc : s.context? i = some c) (hu : rules.uses u) :
    s.Moves rules (u.trail s.handlers s.fuel ⟨c, s.world⟩) (u.carryOut i s) := by
  obtain ⟨cs, hseated, hput, -⟩ := seated_perm hc
  refine .perm (hseated.append_right _) ?_
  rw [Use.carryOut_eq hc, Option.map_map]
  cases ht : u.result s.handlers s.fuel ⟨c, s.world⟩ with
  | none => exact .cut u hu ht
  | some t => exact (Unfolds.use hu ht).reorder ((hput t).symm.append_right _)

theorem adopt_unfolds (i now : Nat) : s.Moves rules [] (some (s.adopt i now).2) := by
  unfold Session.adopt
  cases hc : s.context? i with
  | none => exact .rest
  | some c =>
    cases ha : s.scheduler.adopt now c s.world with
    | none =>
      simp only [ha]
      exact .rest
    | some r =>
      obtain ⟨loop, scheduler, w⟩ := r
      simp only [ha]
      obtain ⟨cs, hseated, -, hvacated⟩ := seated_perm hc
      obtain ⟨l, hloops, hunfolds⟩ := Scheduler.adopt_unfolds ha
      exact .perm (hseated.append_right _) (hunfolds.reorder (vacated_adopted hvacated hloops))

theorem execute_unfolds (hr : rules.Basic) (hc : s.context? i = some c) (now : Nat) :
    s.Moves rules (Use.run.trail s.handlers s.fuel ⟨c, s.world⟩)
      ((s.execute i now).map Prod.snd) := by
  obtain ⟨cs, hseated, -, hvacated⟩ := seated_perm hc
  refine .perm (hseated.append_right _) ?_
  simp only [Session.execute, hc, Option.map_map]
  cases hexecute : Playbook.execute s.handlers s.fuel now s.scheduler ⟨c, s.world⟩ with
  | none => exact .cut .run hr.run (by rw [Use.result_run, execute_none hexecute]; rfl)
  | some r =>
    obtain ⟨outcome, loop?, scheduler, w⟩ := r
    obtain ⟨t, hrun, hnext⟩ := execute_cases hexecute
    have hran : Unfolds s.handlers rules (c :: (cs ++ s.scheduler.loops.map Loop.context)) s.world
        _ (some (t.context :: _, t.world)) :=
      .use hr.run (by rw [Use.result_run, hrun]; rfl)
    rw [← List.append_nil (Use.run.trail ..)]
    refine hran.trans ?_
    rcases hnext with ⟨loop, hadopt⟩ | ⟨rfl, rfl⟩
    · obtain ⟨l, hloops, hunfolds⟩ := Scheduler.adopt_unfolds hadopt
      exact hunfolds.reorder (vacated_adopted hvacated hloops)
    · exact .idle (.release _ _) (.leave (List.sublist_cons_self _ _)
        (.perm (hvacated.symm.append_right _) .rest))

theorem tick_unfolds (hr : rules.Basic) (now : Nat) :
    s.Moves rules (Scheduler.tickTrail s.handlers s.fuel now s.scheduler.loops s.world)
      ((s.tick now).map Prod.snd) := by
  have hloops : Unfolds s.handlers rules (s.scheduler.loops.map Loop.context ++ s.seated) _ _ _ :=
    Scheduler.tickLoops_unfolds hr s.fuel now s.scheduler.loops s.world
  refine .perm List.perm_append_comm ?_
  simp only [Session.tick, Scheduler.tick]
  cases ht : Scheduler.tickLoops s.handlers s.fuel now s.scheduler.loops s.world with
  | none =>
    rw [ht] at hloops
    exact hloops
  | some r =>
    rw [ht] at hloops
    exact hloops.reorder List.perm_append_comm

theorem cancelLoop_unfolds (hr : rules.Basic) (loop : LoopId) :
    s.Moves rules ((Op.cancelLoop loop).trail s) (some (s.cancelLoop loop).2) := by
  simp only [Op.trail, Session.cancelLoop, Scheduler.cancel]
  cases hl : s.scheduler.loops.find? fun l => l.id == loop with
  | none => exact .rest
  | some l =>
    obtain ⟨hid, before, after, hloops, -⟩ := List.find?_eq_some_iff_append.mp hl
    have hperm : s.inPlay.Perm
        (l.context :: (s.seated ++ (before ++ after).map Loop.context)) := by
      simp only [inPlay, hloops, List.map_append, List.map_cons, ← List.append_assoc]
      exact List.perm_middle
    refine .perm hperm (.act (n := 0) (.effect .dispose) hr.dispose rfl (.leave ?_ .rest))
    refine .cons _ (.append_left (.map _ ?_) _)
    have hother : (l.id != loop) = false := by simpa using hid
    rw [hloops, List.filter_append, List.filter_cons_of_neg (by simp [hother])]
    exact .append List.filter_sublist List.filter_sublist

theorem cancel_unfolds (i : Nat) : s.Moves rules [] (some (s.cancel i)) := by
  unfold Session.cancel
  split
  · exact .rest
  · exact .idle (.cancel _ _) .rest

theorem drop_unfolds (i : Nat) : s.Moves rules [] (some (s.drop i)) := by
  unfold Session.drop
  cases hc : s.context? i with
  | none => exact .rest
  | some c =>
    obtain ⟨cs, hseated, -, hvacated⟩ := seated_perm hc
    exact .perm (hseated.append_right _) (.leave (List.sublist_cons_self _ _)
      (.perm (hvacated.symm.append_right _) (.idle (.release _ _) .rest)))

theorem rent_unfolds (count : Nat) : s.Moves rules [] (some (s.rent count).2) := by
  induction count generalizing s with
  | zero => exact .rest
  | succ count ih =>
    exact .idle (.rent s.world) (ih (s := { s with held := s.world.rent.1 :: s.held, world := _ }))

theorem giveBack_unfolds (count : Nat) : s.Moves rules [] (some (s.giveBack count)) := by
  induction count generalizing s with
  | zero => exact .rest
  | succ count ih =>
    unfold Session.giveBack
    split
    · exact .rest
    · rename_i items held _
      exact .idle (.release s.world (.rented items)) (ih (s := { s with held, world := _ }))

def Permits (rules : Rules) (s : Session) : Prop :=
  ∀ name script, s.script? name = some script → rules.scripts script

def Op.Obeys (rules : Rules) : Op → Prop
  | .addUnit .. | .child .. => rules.compiles
  | .use _ u => rules.uses u
  | _ => True

theorem Op.obeys_none (op : Op) : op.Obeys .none := by
  cases op <;> trivial

theorem Op.unfolds (hr : rules.Basic) (hs : s.Permits rules) (op : Op) (hop : op.Obeys rules) :
    s.Moves rules (op.trail s) (op.carryOut s) := by
  cases op with
  | allow fuel => exact .rest
  | addUnit name source =>
    simp only [carryOut]
    split
    · rename_i hadded
      exact addUnit_unfolds hop hadded
    · exact .rest
  | make script actor =>
    simp only [carryOut]
    cases hmade : s.newContext script actor with
    | none => exact .rest
    | some r => exact make_unfolds (hs script) hmade
  | child i actions =>
    simp only [carryOut]
    cases s.context? i with
    | none => exact .rest
    | some c => exact child_unfolds hop c actions
  | use i u =>
    simp only [carryOut, trail]
    cases hc : s.context? i with
    | none => exact .rest
    | some c => exact use_unfolds hc hop
  | execute i now =>
    simp only [carryOut, trail]
    cases hc : s.context? i with
    | none => exact .rest
    | some c => exact execute_unfolds hr hc now
  | adopt i now => exact adopt_unfolds i now
  | tick now => exact tick_unfolds hr now
  | cancel i => exact cancel_unfolds i
  | cancelLoop id => exact cancelLoop_unfolds hr id
  | drop i => exact drop_unfolds i
  | rent count => exact rent_unfolds count
  | giveBack count => exact giveBack_unfolds count

theorem rent_keeps (count : Nat) :
    (s.rent count).2.handlers = s.handlers ∧ (s.rent count).2.units = s.units := by
  induction count generalizing s with
  | zero => exact ⟨rfl, rfl⟩
  | succ count ih => exact ih (s := { s with held := s.world.rent.1 :: s.held, world := _ })

theorem giveBack_keeps (count : Nat) :
    (s.giveBack count).handlers = s.handlers ∧ (s.giveBack count).units = s.units := by
  induction count generalizing s with
  | zero => exact ⟨rfl, rfl⟩
  | succ count ih =>
    unfold Session.giveBack
    split
    · exact ⟨rfl, rfl⟩
    · rename_i items held _
      exact ih (s := { s with held, world := _ })

theorem Op.carryOut_keeps {op : Op} (ht : op.carryOut s = some t) :
    t.handlers = s.handlers ∧ (t.units = s.units ∨ ∃ name source, op = .addUnit name source) := by
  cases op with
  | addUnit name source =>
    refine ⟨?_, .inr ⟨name, source, rfl⟩⟩
    simp only [carryOut] at ht
    split at ht
    · rename_i hadded
      cases ht
      obtain ⟨u, -, rfl⟩ := addUnit_eq_ok hadded
      rfl
    · cases ht
      rfl
  | make script actor =>
    refine .imp_right .inl ?_
    simp only [carryOut, Option.some.injEq] at ht
    subst ht
    simp only [newContext]
    cases s.script? script <;> exact ⟨rfl, rfl⟩
  | child i actions =>
    refine .imp_right .inl ?_
    simp only [carryOut, Option.some.injEq] at ht
    subst ht
    cases s.context? i with
    | none => exact ⟨rfl, rfl⟩
    | some c =>
      simp only [Option.elim_some, newChild]
      split <;> exact ⟨rfl, rfl⟩
  | use i u =>
    refine .imp_right .inl ?_
    simp only [carryOut] at ht
    cases hc : s.context? i with
    | none =>
      rw [hc] at ht
      cases ht
      exact ⟨rfl, rfl⟩
    | some c =>
      rw [hc, Option.elim_some, Use.carryOut_eq hc] at ht
      obtain ⟨v, -, rfl⟩ := Option.map_eq_some_iff.mp ht
      exact ⟨rfl, rfl⟩
  | execute i now =>
    refine .imp_right .inl ?_
    simp only [carryOut, Session.execute] at ht
    cases hc : s.context? i with
    | none =>
      rw [hc] at ht
      cases ht
      exact ⟨rfl, rfl⟩
    | some c =>
      simp only [hc, Option.elim_some, Option.map_map] at ht
      obtain ⟨v, -, rfl⟩ := Option.map_eq_some_iff.mp ht
      exact ⟨rfl, rfl⟩
  | adopt i now =>
    refine .imp_right .inl ?_
    simp only [carryOut, Option.some.injEq] at ht
    subst ht
    unfold Session.adopt
    split
    · exact ⟨rfl, rfl⟩
    · split <;> exact ⟨rfl, rfl⟩
  | tick now =>
    obtain ⟨r, hr, rfl⟩ := Option.map_eq_some_iff.mp ht
    obtain ⟨v, -, rfl⟩ := Option.map_eq_some_iff.mp hr
    exact ⟨rfl, .inl rfl⟩
  | cancel i =>
    refine .imp_right .inl ?_
    simp only [carryOut, Option.some.injEq] at ht
    subst ht
    unfold Session.cancel
    split <;> exact ⟨rfl, rfl⟩
  | drop i =>
    refine .imp_right .inl ?_
    simp only [carryOut, Option.some.injEq] at ht
    subst ht
    unfold Session.drop
    split <;> exact ⟨rfl, rfl⟩
  | rent count =>
    cases ht
    exact (rent_keeps count).imp_right .inl
  | giveBack count =>
    cases ht
    exact (giveBack_keeps count).imp_right .inl
  | allow | cancelLoop =>
    cases ht
    exact ⟨rfl, .inl rfl⟩

theorem Permits.after (hr : rules.Basic) (hs : s.Permits rules) (hop : Op.Obeys rules op)
    (ht : op.carryOut s = some t) : t.Permits rules := by
  rcases (Op.carryOut_keeps ht).2 with hunits | ⟨name, source, rfl⟩
  · intro name script hscript
    exact hs name script (by rwa [script?, ← hunits])
  · exact fun _ script _ => hr.scripts hop script

theorem history_unfolds (hr : rules.Basic) (hs : s.Permits rules) (ops : List Op)
    (hops : ∀ op ∈ ops, op.Obeys rules) : s.Moves rules (s.history ops) (s.afterAll ops) := by
  induction ops generalizing s with
  | nil => exact .rest
  | cons op ops ih =>
    obtain ⟨hop, hops⟩ := List.forall_mem_cons.mp hops
    have hfirst := op.unfolds hr hs hop
    simp only [history, afterAll]
    cases ht : op.carryOut s with
    | none =>
      rw [ht] at hfirst
      rw [Option.elim_none, List.append_nil]
      exact hfirst
    | some t =>
      rw [ht] at hfirst
      have hrest : t.Moves rules _ _ := ih (hs.after hr hop ht) hops
      unfold Moves at hrest
      rw [(Op.carryOut_keeps ht).1] at hrest
      exact hfirst.trans hrest

end

end Session

end Playbook
