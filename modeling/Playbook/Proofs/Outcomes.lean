import Playbook.Proofs.Blocks
import Playbook.Proofs.Disposal

/-!
# Outcomes and the states they leave

What a run reports agrees with the context that it leaves behind, and with what becomes of that
context (`Reached.outcomeSound`). A run and an iteration go through the same steps; they differ in
what they make of the end (`driveLoop_conclude`), which for a run may be the release of the
context.

The end is decided by flags that come up through any number of blocks. Flags that stop are passed
on by If and Repeat as they are (`Encloses.stopped`), and flags that neither stop nor succeed are
those of a halt wherever they arise (`step_halting`).
-/

namespace Playbook

-- ---------------------------------------------------------------------------
-- Runs and iterations
-- ---------------------------------------------------------------------------

/-- Whether a context is released in the end has no influence on the way there. -/
theorem driveLoop_conclude (F : Nat → Stepper) (n k : Nat) (s : State) :
    ∃ x : Option (BlockEnd × State),
      (∀ release, driveLoop (F n) release k s = x.map fun r => conclude release r.1 r.2) ∧
      ∀ e t, x = some (e, t) → Halts (Eventually F) Context.len s e t := by
  induction k generalizing s with
  | zero => exact ⟨none, fun _ => rfl, by simp⟩
  | succ k ih =>
    simp only [driveLoop_succ]
    by_cases hfinished : s.context.isFinished = true
    · refine ⟨some (.ok none, s), fun release => by simp [hfinished], ?_⟩
      rintro e t ⟨⟩
      exact .done (by simpa [Context.isFinished] using hfinished)
    · have hlt : s.context.index < s.context.len := by
        simpa [Context.isFinished] using hfinished
      cases hs : F n s with
      | none => exact ⟨none, fun _ => by simp [hfinished], by simp⟩
      | some r =>
        obtain ⟨x, t⟩ := r
        cases x with
        | error err =>
          refine ⟨some (.error err, t), fun release => by simp [hfinished], ?_⟩
          rintro e u ⟨⟩
          exact .fail hlt ⟨n, hs⟩
        | ok flags =>
          cases hstop : flags.stop with
          | true =>
            refine ⟨some (.ok (some flags), t), fun release => by simp [hfinished, hstop], ?_⟩
            rintro e u ⟨⟩
            exact .stop hlt ⟨n, hs⟩ hstop
          | false =>
            obtain ⟨x, hx, hhalts⟩ := ih t
            refine ⟨x, fun release => ?_, fun e u hu => .more hlt ⟨n, hs⟩ hstop (hhalts e u hu)⟩
            simp only [hfinished, hstop, Bool.false_eq_true, ↓reduceIte]
            exact hx release

theorem driveLoopTrail_release (f : Stepper) (trail : State → List Instant) (n : Nat) (s : State) :
    ∃ last, driveLoopTrail f trail true n s = driveLoopTrail f trail false n s ++ last ∧
      ∀ m ∈ last, m.deed = .effect .dispose := by
  induction n generalizing s with
  | zero => exact ⟨[], rfl, by simp⟩
  | succ n ih =>
    simp only [driveLoopTrail]
    by_cases hfinished : s.context.isFinished = true
    · exact ⟨[], by simp [hfinished], by simp⟩
    · simp only [hfinished, Bool.false_eq_true, ↓reduceIte, List.append_assoc,
        List.append_cancel_left_eq]
      rcases f s with _ | ⟨e | flags, t⟩
      · exact ⟨[], rfl, by simp⟩
      · exact ⟨[_], rfl, by simp⟩
      · cases hstop : flags.stop with
        | false => simpa [hstop] using ih t
        | true =>
          cases hdispose : flags.dispose with
          | false => exact ⟨[], by simp [hstop, hdispose], by simp⟩
          | true => exact ⟨[_], by simp [hstop, hdispose]; rfl, by simp⟩

/-- How a run and an iteration that end with `e` differ: after a failure and after a stop that asks
for it, the run has disposed of the context. -/
def Parted (e : BlockEnd) (ran iterated : Outcome × State) : Prop :=
  match e with
  | .ok none => iterated.1 = .completed ∧ ran = iterated
  | .error e => iterated.1 = .failed e ∧ ran = (.failed e, iterated.2.dispose)
  | .ok (some flags) =>
    iterated.1 = (if iterated.2.context.isSuspended then .suspended else .stopped) ∧
      ran = if flags.dispose then (.disposed, iterated.2.dispose) else iterated

theorem conclude_parted (e : BlockEnd) (t : State) :
    Parted e (conclude true e t) (conclude false e t) := by
  rcases e with e | _ | flags
  · exact ⟨rfl, rfl⟩
  · exact ⟨rfl, rfl⟩
  · cases hdispose : flags.dispose <;> cases hsuspended : t.context.isSuspended <;>
      simp [Parted, conclude, hdispose, hsuspended]

theorem conclude_context (e : BlockEnd) (t : State) :
    (conclude false e t).2.context = t.context := by
  rcases e with e | _ | flags
  · rfl
  · rfl
  · simp only [conclude, Bool.and_false, Bool.false_eq_true, ↓reduceIte]
    split <;> rfl

section
variable {handlers : Handlers} {s t : State}

theorem run_and_iteration (handlers : Handlers) (hs : s.context.disposed = false) (n : Nat) :
    (run handlers n s = none ∧ runIteration handlers n s = none) ∨
      ∃ e t, Halts (Eventually (step handlers)) Context.len s e t ∧
        run handlers n s = some (conclude true e t) ∧
        runIteration handlers n s = some (conclude false e t) := by
  obtain ⟨x, hx, hhalts⟩ := driveLoop_conclude (step handlers) n n s
  simp only [run, runIteration, driveWith, hs, Bool.false_eq_true, ↓reduceIte, hx]
  cases x with
  | none => exact .inl ⟨rfl, rfl⟩
  | some r => exact .inr ⟨r.1, r.2, hhalts _ _ rfl, rfl, rfl⟩

theorem halts_of_run (hs : s.context.disposed = false) (h : run handlers n s = some r) :
    ∃ e t, Halts (Eventually (step handlers)) Context.len s e t ∧ r = conclude true e t := by
  rcases run_and_iteration handlers hs n with ⟨hnone, -⟩ | ⟨e, t, hhalts, hrun, -⟩
  · cases hnone.symm.trans h
  · exact ⟨e, t, hhalts, Option.some.inj (h.symm.trans hrun)⟩

theorem Halts.kept (h : Halts (Eventually (step handlers)) bound s e t)
    (hs : s.context.Undisposing handlers) : s.context.Kept t.context := by
  induction h with
  | done => exact .refl _
  | fail _ hR | stop _ hR =>
    obtain ⟨n, hn⟩ := hR
    exact (kept_along handlers).step hs hn
  | more _ hR _ _ ih =>
    obtain ⟨n, hn⟩ := hR
    have hk := (kept_along handlers).step hs hn
    exact hk.trans (ih ((kept_along handlers).carry _ _ hs hk))

theorem Halts.bounded (h : Halts (Eventually (step handlers)) bound s e t) :
    s.context.Bounded t.context := by
  induction h with
  | done => exact id
  | fail _ hR | stop _ hR =>
    obtain ⟨n, hn⟩ := hR
    exact (bounded_pervades handlers).step hn
  | more _ hR _ _ ih =>
    obtain ⟨n, hn⟩ := hR
    exact ih ∘ (bounded_pervades handlers).step hn

-- ---------------------------------------------------------------------------
-- What the outcome says
-- ---------------------------------------------------------------------------

def Outcome.Agrees (e : BlockEnd) (t u : State) : Outcome → Prop
  | .completed => e = .ok none ∧ u.context = t.context
  | .stopped => u = t ∧ u.context.continuation = none
  | .suspended => u = t ∧ u.context.continuation.isSome = true
  | .disposed | .failed _ => u.context.disposed = true

theorem conclude_agrees (h : conclude true e t = (outcome, u)) : outcome.Agrees e t u := by
  rcases e with e | _ | flags
  · cases h
    exact State.dispose_disposed _
  · cases h
    exact ⟨rfl, rfl⟩
  · simp only [conclude] at h
    split at h
    · cases h
      exact State.dispose_disposed _
    · split at h
      · rename_i hsuspended
        cases h
        exact ⟨rfl, hsuspended⟩
      · rename_i hsuspended
        cases h
        exact ⟨rfl, by simpa [Context.isSuspended] using hsuspended⟩

theorem run_agrees (hs : s.context.disposed = false)
    (h : run handlers n s = some (outcome, t)) :
    ∃ e u, Halts (Eventually (step handlers)) Context.len s e u ∧ outcome.Agrees e u t := by
  obtain ⟨e, u, hhalts, hr⟩ := halts_of_run hs h
  exact ⟨e, u, hhalts, conclude_agrees hr.symm⟩

theorem run_dead (hs : s.context.disposed = false) (h : run handlers n s = some (outcome, t))
    (ht : t.context.disposed = true) : t.world.isAlive t.context.id = false := by
  have hgrows := (grows_pervades handlers).drive h
  exact (hgrows.released (fun hd => by cases hs.symm.trans hd) ht).dead

/-- What `execute` makes of a run: a suspended context is taken over as the last loop, and any other
is let go. -/
def Outcome.Adopted (now : Nat) (sched : Scheduler) (t : State) (loop : Option LoopId)
    (sched' : Scheduler) : Outcome → Prop
  | .suspended => loop = some sched.nextId ∧ ∃ k, t.context.continuation = some k ∧
      sched'.loops = sched.loops ++
        [{ id := sched.nextId, context := { t.context with continuation := none }
           continuation := k, nextFire := now + k.interval }]
  | _ => loop = none ∧ sched' = sched

theorem execute_adopted (hs : s.context.disposed = false)
    (h : run handlers n s = some (outcome, t)) (now : Nat) (sched : Scheduler) :
    ∃ loop sched' w, execute handlers n now sched s = some (outcome, loop, sched', w) ∧
      outcome.Adopted now sched t loop sched' := by
  simp only [execute, h]
  cases outcome with
  | suspended =>
    obtain ⟨e, u, -, -, hk⟩ := run_agrees hs h
    obtain ⟨k, hk⟩ := Option.isSome_iff_exists.mp hk
    simp only [Scheduler.adopt, hk]
    exact ⟨_, _, _, rfl, rfl, k, hk, rfl⟩
  | _ => exact ⟨none, sched, _, rfl, rfl, rfl⟩

end

-- ---------------------------------------------------------------------------
-- Flags that neither stop nor succeed
-- ---------------------------------------------------------------------------

def Flags.halting (flags : Flags) : Flags :=
  if flags.stop || flags.success then flags else .halt

def Handlers.halting (handlers : Handlers) : Handlers :=
  fun name => (handlers name).bind fun flags => .done flags.halting

theorem settle_halting (entry : Nat) (flags : Flags) (s : State) :
    settle entry flags.halting s = settle entry flags s := by
  unfold Flags.halting
  split
  · rfl
  · rename_i h
    obtain ⟨hstop, hsuccess⟩ : flags.stop = false ∧ flags.success = false := by simpa using h
    rw [settle_stop rfl]
    simp [settle, hstop, hsuccess]

theorem dispatch_halting (handlers : Handlers) (nested : Nested) (s : State) :
    dispatch handlers.halting nested s = dispatch handlers nested s := by
  cases ha : s.context.actions[s.context.index]? with
  | none => rw [dispatch_none ha, dispatch_none ha]
  | some a =>
    rw [dispatch_some ha, dispatch_some ha]
    cases a.definition.behaviour with
    | builtin b => rfl
    | idle => rfl
    | host name =>
      simp only [Behaviour.handler, Handlers.halting, Prog.exec_bind]
      rcases (handlers name).exec nested s.entered with _ | ⟨flags | e | m, t⟩
      · rfl
      · simp only [Prog.exec, Ending.answer, settle_halting]
      · rfl
      · rfl

/-- However deep in blocks and sub-dispatch the handlers are, nothing changes when those that
neither stop nor succeed say that they halt. -/
theorem step_halting (handlers : Handlers) (n : Nat) :
    step handlers.halting n = step handlers n := by
  induction n with
  | zero => rfl
  | succ n ih =>
    funext s
    rw [step, step, ih, dispatch_halting]

def State.Answers (handlers : Handlers) (s : State) (flags : Flags) (t : State) : Prop :=
  ∃ a n, s.context.actions[s.context.index]? = some a ∧
    (a.definition.behaviour.handler handlers).exec (.ofStepper (step handlers n) n) s.entered =
      some (.value flags, t)

section
variable {handlers : Handlers} {s t u : State}

theorem State.Answers.step (h : s.Answers handlers flags t) :
    Eventually (Playbook.step handlers) s (settle s.context.index flags t) := by
  obtain ⟨a, n, ha, hx⟩ := h
  refine ⟨n + 1, ?_⟩
  rw [Playbook.step, dispatch_some ha, hx]
  rfl

theorem State.Answers.halts (h : s.Answers handlers flags t) (hstop : flags.stop = false)
    (hsuccess : flags.success = false) : Eventually (Playbook.step handlers) s (.ok .halt, t) := by
  have hstep := h.step
  simp only [settle, hstop, hsuccess, Bool.false_eq_true, Bool.not_false, ↓reduceIte] at hstep
  exact hstep

theorem Visits.halts {R : State → Except RuntimeError Flags × State → Prop}
    (h : Visits R bound s u) (hu : R u (.ok flags, t)) (hstop : flags.stop = true) :
    Halts R bound s (.ok (some flags)) t := by
  induction h with
  | here hlt => exact .stop hlt hu hstop
  | later hlt hR hgoes _ ih => exact .more hlt hR hgoes (ih hu)

theorem runBlock_of_halts (hstart : start ≤ past) (hpast : past ≤ s.context.len)
    (h : Halts (Eventually (step handlers)) (fun _ => past) (s.moveTo start) e t) :
    Eventually (fun n => runBlock handlers n start past) s (e, t) := by
  obtain ⟨n, hn⟩ := blockLoop_of_halts (step_stable handlers) h
  exact ⟨n, (blockWith_in_range hstart hpast).trans hn⟩

theorem State.IsAt.answers {b : Builtin} (hs : s.IsAt b)
    (h : Runs handlers b.handler s.entered (.value flags, t)) : s.Answers handlers flags t := by
  obtain ⟨a, ha, hb⟩ := hs
  obtain ⟨n, hn⟩ := h
  refine ⟨a, n, ha, ?_⟩
  rw [hb]
  exact hn

theorem Opens.answers (h : Opens handlers s past v)
    (hblock : Eventually (fun n => runBlock handlers n (s.context.index + 1) past) v
      (.ok (some flags), t)) : s.Answers handlers flags t := by
  cases h with
  | conditional hs hr =>
    refine hs.answers ?_
    obtain ⟨n, hn⟩ := hblock
    refine ⟨n, ?_⟩
    have hindex : v.context.index = s.context.index := by
      rw [(State.readIf_ok hr).1]
      rfl
    have hn : (Nested.ofStepper (step handlers n) n).block (s.context.index + 1) past v = _ := hn
    show Builtin.ifBlockHandler.exec _ _ = _
    rw [exec_ifBlock, hr]
    simp only [hindex, hn]
  | @loop w amount _ is _ hs hr his hlength =>
    refine hs.answers ?_
    obtain ⟨hcontext, hrange⟩ := State.readRepeat_ok hr
    obtain ⟨hstart, hpast⟩ := hrange amount past 0 rfl
    have hindex : w.context.index = s.context.index := by
      rw [hcontext]
      rfl
    rw [← hcontext] at hstart hpast
    have hcursor : w.context.index ≤ w.context.len :=
      Nat.le_trans (Nat.le_of_succ_le hstart) hpast
    obtain ⟨n, hn⟩ := his.runs_repeating (i := ⟨v, .ok (some flags), t⟩) hblock hlength
      (fun hended => by cases hended) hcursor hpast
    refine ⟨n, ?_⟩
    show Builtin.repeatHandler.exec _ _ = _
    rw [exec_repeat, hr]
    simp only [hindex]
    exact hn

theorem Opens.range (h : Opens handlers s past v) :
    s.context.index + 1 ≤ past ∧ past ≤ v.context.len := by
  cases h with
  | conditional hs hr =>
    obtain ⟨hcontext, hrange⟩ := State.readIf_ok hr
    rw [hcontext]
    exact hrange true past rfl
  | @loop w amount _ is _ hs hr his hlength =>
    obtain ⟨hcontext, hrange⟩ := State.readRepeat_ok hr
    obtain ⟨hstart, hpast⟩ := hrange amount past 0 rfl
    refine ⟨hstart, (his.in_range rfl ?_ ?_).2⟩
    · rw [hcontext]
      exact Nat.le_trans (Nat.le_of_succ_le hstart) hpast
    · rw [hcontext]
      exact hpast

/-- Flags that stop come out of the statement inside of which they arise. -/
theorem Encloses.stopped (h : Encloses handlers s u)
    (hu : Eventually (step handlers) u (.ok flags, t)) (hstop : flags.stop = true) :
    Eventually (step handlers) s (.ok flags, t) := by
  obtain ⟨past, v, hopens, hvisits⟩ := h
  obtain ⟨hstart, hpast⟩ := hopens.range
  have hblock := runBlock_of_halts hstart hpast (hvisits.halts hu hstop)
  have hstep := (hopens.answers hblock).step
  rw [settle_stop hstop] at hstep
  exact hstep

theorem stopped_of_encloses (h : Relation.ReflTransGen (Encloses handlers) s u)
    (hu : Eventually (step handlers) u (.ok flags, t)) (hstop : flags.stop = true) :
    Eventually (step handlers) s (.ok flags, t) := by
  induction h using Relation.ReflTransGen.head_induction_on with
  | refl => exact hu
  | head hencloses _ ih => exact hencloses.stopped ih hstop

/-- A handler that neither stops nor succeeds halts the loop of steps in which it is entered,
through all the statements in between. -/
theorem Visits.halts_of_answers (h : Visits (Eventually (step handlers)) bound s v)
    (hv : Relation.ReflTransGen (Encloses handlers) v u) (hu : u.Answers handlers flags t)
    (hstop : flags.stop = false) (hsuccess : flags.success = false) :
    Halts (Eventually (step handlers)) bound s (.ok (some .halt)) t :=
  h.halts (stopped_of_encloses hv (hu.halts hstop hsuccess) rfl) rfl

theorem eventually_driveWith (hs : s.context.disposed = false)
    (h : Halts (Eventually (step handlers)) Context.len s e t) (release : Bool) :
    Eventually (fun n => driveWith (step handlers n) n release) s (conclude release e t) := by
  obtain ⟨n, hn⟩ := driveLoop_of_halts (step_stable handlers) h release
  refine ⟨n, ?_⟩
  simp only [driveWith, hs, Bool.false_eq_true, ↓reduceIte]
  exact hn

end

-- ---------------------------------------------------------------------------
-- Outcomes
-- ---------------------------------------------------------------------------

structure OutcomeSound (handlers : Handlers) (s : State) : Prop where
  completed : ∀ n t, run handlers n s = some (.completed, t) → t.context.index = t.context.len
  released : ∀ n outcome t, run handlers n s = some (outcome, t) →
    (outcome = .disposed ∨ ∃ e, outcome = .failed e) →
    t.context.disposed = true ∧ t.world.isAlive t.context.id = false
  suspended : ∀ n t, run handlers n s = some (.suspended, t) → t.context.continuation.isSome = true
  stopped : ∀ n t, run handlers n s = some (.stopped, t) → t.context.continuation = none
  executed : ∀ n outcome t, run handlers n s = some (outcome, t) → ∀ now sched,
    ∃ loop sched' w, execute handlers n now sched s = some (outcome, loop, sched', w) ∧
      (loop.isSome = true ↔ outcome = .suspended) ∧ outcome.Adopted now sched t loop sched'
  kept : s.context.Undisposing handlers → ∀ n outcome t, run handlers n s = some (outcome, t) →
    (outcome = .completed ∨ outcome = .stopped ∨ outcome = .suspended) →
    t.context.disposed = false
  iterated : s.context.Undisposing handlers → ∀ n outcome t,
    runIteration handlers n s = some (outcome, t) → t.context.disposed = false
  /-- A run and an iteration do the same, up to the release at the end of a run. -/
  trails : ∀ n, ∃ last, Use.run.trail handlers n s = Use.iterate.trail handlers n s ++ last ∧
    ∀ m ∈ last, m.deed = .effect .dispose
  parted : ∀ n, (run handlers n s = none ∧ runIteration handlers n s = none) ∨
    ∃ e t ran iterated, Halts (Eventually (step handlers)) Context.len s e t ∧
      run handlers n s = some ran ∧ runIteration handlers n s = some iterated ∧
      iterated.2.context = t.context ∧ Parted e ran iterated
  /-- Flags that neither stop nor succeed are those of a halt, to any run in which they arise. -/
  halting : ∀ n, run handlers.halting n s = run handlers n s ∧
    runIteration handlers.halting n s = runIteration handlers n s ∧
    ∀ start past, runBlock handlers.halting n start past s = runBlock handlers n start past s
  halted : ∀ v u flags t, Relation.ReflTransGen (Encloses handlers) v u →
    u.Answers handlers flags t → flags.stop = false → flags.success = false →
    (Visits (Eventually (step handlers)) Context.len s v →
      Eventually (run handlers) s (.disposed, t.dispose) ∧
      Eventually (runIteration handlers) s
        (if t.context.isSuspended then .suspended else .stopped, t)) ∧
    ∀ start past, start ≤ past → past ≤ s.context.len →
      Visits (Eventually (step handlers)) (fun _ => past) (s.moveTo start) v →
      Eventually (fun n => runBlock handlers n start past) s (.ok (some .halt), t)

theorem Outcome.Adopted.isSome_iff {outcome : Outcome} {loop : Option LoopId}
    (h : outcome.Adopted now sched t loop sched') : loop.isSome = true ↔ outcome = .suspended := by
  cases outcome <;> simp [h.1]

theorem Reached.outcomeSound (h : Reached handlers s) (hs : s.context.disposed = false) :
    OutcomeSound handlers s where
  completed n t hr := by
    obtain ⟨e, u, hhalts, rfl, hcontext⟩ := run_agrees hs hr
    rw [hcontext]
    exact Nat.le_antisymm (hhalts.bounded h.cursor) hhalts.stop_le
  released n outcome t hr houtcome := by
    have ht : t.context.disposed = true := by
      obtain ⟨e, u, -, hagrees⟩ := run_agrees hs hr
      rcases houtcome with rfl | ⟨err, rfl⟩ <;> exact hagrees
    exact ⟨ht, run_dead hs hr ht⟩
  suspended n t hr := by
    obtain ⟨e, u, -, -, hsuspended⟩ := run_agrees hs hr
    exact hsuspended
  stopped n t hr := by
    obtain ⟨e, u, -, -, hnone⟩ := run_agrees hs hr
    exact hnone
  executed n outcome t hr now sched := by
    obtain ⟨loop, sched', w, hexecute, hadopted⟩ := execute_adopted hs hr now sched
    exact ⟨loop, sched', w, hexecute, hadopted.isSome_iff, hadopted⟩
  kept hu n outcome t hr houtcome := by
    obtain ⟨e, u, hhalts, hagrees⟩ := run_agrees hs hr
    have hcontext : t.context = u.context := by
      rcases houtcome with rfl | rfl | rfl
      · exact hagrees.2
      · rw [hagrees.1]
      · rw [hagrees.1]
    rw [hcontext, (hhalts.kept hu).disposed, hs]
  iterated hu n outcome t hr := by
    rcases run_and_iteration handlers hs n with ⟨-, hnone⟩ | ⟨e, u, hhalts, -, hiterated⟩
    · cases hnone.symm.trans hr
    · have hcontext := conclude_context e u
      rw [← Option.some.inj (hr.symm.trans hiterated)] at hcontext
      rw [hcontext, (hhalts.kept hu).disposed, hs]
  trails n := by
    simp only [Use.trail, driveTrail, hs, Bool.false_eq_true, ↓reduceIte]
    exact driveLoopTrail_release _ _ n s
  parted n := by
    rcases run_and_iteration handlers hs n with hnone | ⟨e, t, hhalts, hrun, hiterated⟩
    · exact .inl hnone
    · exact .inr ⟨e, t, _, _, hhalts, hrun, hiterated, conclude_context e t, conclude_parted e t⟩
  halting n := by
    simp only [Playbook.run, runIteration, runBlock, step_halting, implies_true, and_self]
  halted v u flags t hv hu hstop hsuccess := by
    refine ⟨fun hvisits => ?_, fun start past hstart hpast hvisits => ?_⟩
    · have hhalts := hvisits.halts_of_answers hv hu hstop hsuccess
      refine ⟨eventually_driveWith hs hhalts true, ?_⟩
      have hiterated := eventually_driveWith hs hhalts false
      have hconclude : conclude false (.ok (some .halt)) t =
          (if t.context.isSuspended then .suspended else .stopped, t) := by
        cases hsuspended : t.context.isSuspended <;> simp [conclude, hsuspended]
      rw [hconclude] at hiterated
      exact hiterated
    · exact runBlock_of_halts hstart hpast (hvisits.halts_of_answers hv hu hstop hsuccess)

def shrugs : Handlers := fun _ =>
  .perform (.suspend ⟨0, 1, 1, 5⟩) fun _ =>
    .done { success := false, stop := false, dispose := false }

def shrugging : State :=
  let actions : List Action :=
    [.ofValues "Repeat" (.builtin .repeatBlock) [.int 1, .int 2, .int 0],
     .ofValues "If" (.builtin .ifBlock) [.bool true, .int 1], .ofValues "Shrug" (.host "shrug") []]
  { context := .fresh 1 "shrugging" .builtins (.shared actions) none
    world := .initial fun _ => 0 }

/-- The run releases the context, with the work that was left in it; the iteration keeps both. -/
theorem outcomeSound_shrugging : shrugging.context.disposed = false ∧
    shrugging.context.Undisposing shrugs ∧
    (∃ t, run shrugs 5 shrugging = some (.disposed, t) ∧ t.context.disposed = true ∧
      t.world.isAlive 1 = false) ∧
    (∃ t, runIteration shrugs 5 shrugging = some (.suspended, t) ∧ t.context.disposed = false) ∧
    OutcomeSound shrugs shrugging := by
  have hsound : OutcomeSound shrugs shrugging := Reached.outcomeSound (.fresh _ _ _ _ _ _) rfl
  have hkeeps : shrugs.Undisposing := fun _ => ⟨by simp, fun _ => trivial⟩
  have hkeeps : shrugging.context.Undisposing shrugs := hkeeps.context _
  have hrun : (run shrugs 5 shrugging).map (fun r => (r.1, r.2.context.id)) =
      some (.disposed, 1) := by
    decide +kernel
  have hiteration : (runIteration shrugs 5 shrugging).map Prod.fst = some .suspended := by
    decide +kernel
  obtain ⟨⟨outcome, t⟩, hr, heq⟩ := Option.map_eq_some_iff.mp hrun
  obtain ⟨rfl, hid⟩ := Prod.mk.inj heq
  obtain ⟨⟨outcome, u⟩, hi, rfl⟩ := Option.map_eq_some_iff.mp hiteration
  obtain ⟨hdisposed, hdead⟩ := hsound.released 5 _ t hr (.inl rfl)
  have hid : t.context.id = 1 := hid
  rw [hid] at hdead
  exact ⟨rfl, hkeeps, ⟨t, hr, hdisposed, hdead⟩, ⟨u, hi, hsound.iterated hkeeps 5 _ u hi⟩, hsound⟩

end Playbook
