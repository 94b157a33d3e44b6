import Playbook.Proofs.Builtins
import Playbook.Proofs.Evaluation
import Playbook.Proofs.Traces

/-!
# Where the cursor can be

However a context is used, its cursor is never behind the end of its sequence
(`Reached.cursor`). Inside of runs, where no statement about answers can look, this is said
by comparison: a watched run looks at the cursor whenever a handler is about to do something
and takes a detour if it has gone astray, and it takes other detours where the dispatcher
would fail by itself. Whatever the detours do, a watched run is the run that it watches
(`Detour.driveWith_eq`, `Detour.blockWith_eq`), so that none of them is ever taken.
-/

namespace Playbook

def Handlers.Undisposing (handlers : Handlers) : Prop :=
  ∀ name, (handlers name).Within (· ≠ .dispose) True True

theorem Handlers.Undisposing.context {handlers : Handlers} (h : handlers.Undisposing)
    (c : Context) : c.Undisposing handlers := by
  intro a _
  cases a.definition.behaviour with
  | builtin b =>
    exact b.handler_within.mono (fun _ => b.undisposing) (fun _ => trivial) fun _ => trivial
  | host name => exact h name
  | idle => trivial

-- ---------------------------------------------------------------------------
-- Watched runs
-- ---------------------------------------------------------------------------

/-- What to do where a run should never get. -/
structure Detour where
  astray : State → Option (Ending Flags × State)
  missing : Stepper
  stuck : RuntimeError → Stepper

/-- Executes a handler, with a look at the cursor before everything it does. -/
def Prog.watch (d : Detour) (nested : Nested) (p : Handler) (s : State) :
    Option (Ending Flags × State) :=
  if s.context.len < s.context.index then d.astray s
  else match p with
    | .done flags => some (.value flags, s)
    | .fail e => some (.error e, s)
    | .panic m => some (.panic m, s)
    | .look next => (next s.context).watch d nested s
    | .perform e next => (next (e.run s).1).watch d nested (e.run s).2
    | .block start stop next =>
      match nested.block start stop s with
      | none => none
      | some (b, t) => (next b).watch d nested t
    | .each target actors next =>
      match nested.each target actors s with
      | none => none
      | some t => next.watch d nested t

namespace Detour

def answer (d : Detour) (entry : Nat) (a : Action) (x : Ending Flags) : Stepper := fun s =>
  match x with
  | .panic m => some (.error (.dispatch a.id m), s)
  | .error e => some (.error e, s)
  | .value flags =>
    match settle entry flags s with
    | (.ok flags, t) => some (.ok flags, t)
    | (.error e, t) => d.stuck e t

def dispatch (d : Detour) (handlers : Handlers) (nested : Nested) : Stepper := fun s =>
  match s.context.actions[s.context.index]? with
  | none => d.missing s
  | some a =>
    match (a.definition.behaviour.handler handlers).watch d nested s.entered with
    | none => none
    | some (x, t) => d.answer s.context.index a x t

def step (d : Detour) (handlers : Handlers) : Nat → Stepper
  | 0 => fun _ => none
  | fuel + 1 => d.dispatch handlers (.ofStepper (d.step handlers fuel) fuel)

structure Plain (d : Detour) : Prop where
  missing : d.missing = fun s =>
    some (.error .noCurrentAction, { s with context := s.context.sync })
  stuck : d.stuck = fun e s => some (.error e, s)

end Detour

-- ---------------------------------------------------------------------------
-- Steppers that agree
-- ---------------------------------------------------------------------------

section
variable {f g : Stepper}

theorem blockLoop_congr {I : State → Prop} (hfg : ∀ s, I s → s.context.index < stop → f s = g s)
    (hI : ∀ s x t, I s → g s = some (x, t) → I t) (hs : I s) :
    blockLoop f stop n s = blockLoop g stop n s := by
  induction n generalizing s with
  | zero => rfl
  | succ n ih =>
    simp only [blockLoop]
    split
    · rename_i hlt
      rw [hfg s hs hlt]
      cases hg : g s with
      | none => rfl
      | some r =>
        obtain ⟨x, t⟩ := r
        cases x with
        | error e => rfl
        | ok flags => simp only [ih (hI s _ t hs hg)]
    · rfl

theorem driveLoop_congr (hfg : ∀ s, s.context.index < s.context.len → f s = g s) :
    driveLoop f release n s = driveLoop g release n s := by
  induction n generalizing s with
  | zero => rfl
  | succ n ih =>
    simp only [driveLoop]
    split
    · rfl
    · rename_i hfin
      rw [hfg s (by simpa [Context.isFinished] using hfin)]
      simp only [ih]

theorem driveWith_congr (hfg : ∀ s, s.context.index < s.context.len → f s = g s) :
    driveWith f n release s = driveWith g n release s := by
  simp only [driveWith, driveLoop_congr hfg]

theorem visitAll_congr (hfg : ∀ s, s.context.index < s.context.len → f s = g s) :
    visitAll f n parent actors s = visitAll g n parent actors s := by
  induction actors generalizing s with
  | nil => rfl
  | cons actor actors ih => simp only [visitAll, driveWith_congr hfg, ih]

theorem eachWith_congr (hfg : ∀ s, s.context.index < s.context.len → f s = g s) :
    eachWith f n target actors s = eachWith g n target actors s := by
  simp only [eachWith, visitAll_congr hfg]

end

-- ---------------------------------------------------------------------------
-- No detour is taken
-- ---------------------------------------------------------------------------

section
variable {handlers : Handlers} {d : Detour}

theorem bounded_pervades (handlers : Handlers) :
    Pervades handlers fun s t => s.context.Bounded t.context where
  refl _ := id
  trans _ _ _ hst htu := htu ∘ hst
  effect e s _ := Effect.run_bounded e s
  enter _ := id
  sync _ := id
  child _ _ _ _ _ _ _ := id

/-- A handler that starts with the cursor in the sequence never finds it behind the end. -/
theorem Prog.watch_eq (watched nested : Nested) (hblock : watched.block = nested.block)
    (heach : watched.each = nested.each)
    (hbounded : ∀ start stop s b t, nested.block start stop s = some (b, t) →
      s.context.Bounded t.context)
    (hcontext : ∀ target actors s t, nested.each target actors s = some t →
      t.context = s.context)
    (p : Handler) (hs : s.context.index ≤ s.context.len) :
    p.watch d watched s = p.exec nested s := by
  induction p generalizing s with
  | done | fail | panic =>
    rw [watch, if_neg (Nat.not_lt.mpr hs)]
    rfl
  | look next ih =>
    rw [watch, if_neg (Nat.not_lt.mpr hs)]
    exact ih _ hs
  | perform e next ih =>
    rw [watch, if_neg (Nat.not_lt.mpr hs)]
    exact ih _ (e.run_bounded s hs)
  | block start stop next ih =>
    rw [watch, if_neg (Nat.not_lt.mpr hs)]
    simp only [exec, hblock]
    cases hb : nested.block start stop s with
    | none => rfl
    | some r => exact ih _ (hbounded _ _ _ _ _ hb hs)
  | each target actors next ih =>
    rw [watch, if_neg (Nat.not_lt.mpr hs)]
    simp only [exec, heach]
    cases ht : nested.each target actors s with
    | none => rfl
    | some t => exact ih (hcontext _ _ _ _ ht ▸ hs)

theorem step_len (h : handlers.Undisposing) (hs : step handlers n s = some (x, t)) :
    t.context.len = s.context.len :=
  ((kept_along handlers).step (h.context _) hs).len

/-- The move to the next action cannot fail in a context that has the same actions as when
the handler was entered. -/
theorem settle_ok {s : State} (flags : Flags) (h : entry < s.context.len) :
    ∃ flags' t, settle entry flags s = (.ok flags', t) := by
  unfold settle
  split
  · exact ⟨_, _, rfl⟩
  · split
    · exact ⟨_, _, rfl⟩
    · split
      · rw [Context.setIndex_ok h]
        exact ⟨_, _, rfl⟩
      · exact ⟨_, _, rfl⟩

theorem Detour.Plain.answer_eq (h : d.Plain) (entry : Nat) (a : Action) (x : Ending Flags)
    (s : State) : d.answer entry a x s = some (x.answer entry a s) := by
  cases x with
  | value flags =>
    simp only [Detour.answer, Ending.answer, h.stuck]
    rcases settle entry flags s with ⟨_ | _, t⟩ <;> rfl
  | error e => rfl
  | panic m => rfl

theorem Detour.answer_eq (entry : Nat) (a : Action) (x : Ending Flags) {s : State}
    (h : entry < s.context.len) : d.answer entry a x s = some (x.answer entry a s) := by
  cases x with
  | value flags =>
    obtain ⟨flags', t, hsettle⟩ := settle_ok flags h
    simp only [Detour.answer, Ending.answer, hsettle]
  | error e => rfl
  | panic m => rfl

structure Steppable (handlers : Handlers) (s : State) : Prop where
  bounded : s.context.index ≤ s.context.len
  action : handlers.Undisposing → s.context.index < s.context.len

theorem Steppable.of_lt (h : s.context.index < s.context.len) : Steppable handlers s :=
  ⟨Nat.le_of_lt h, fun _ => h⟩

theorem blockWith_watched {f : Stepper}
    (hf : ∀ s, Steppable handlers s → f s = step handlers n s) :
    blockWith f m start stop s = blockWith (step handlers n) m start stop s := by
  unfold blockWith
  split
  · rfl
  · rename_i hrange
    have hstop : stop ≤ s.context.len := by omega
    split
    · rfl
    · rename_i c hc
      obtain ⟨hk, hindex, hstart⟩ := Context.setIndex_kept hc
      -- with actions that stay, the end of the block stays in the sequence
      let I : State → Prop := fun s =>
        s.context.index ≤ s.context.len ∧ (handlers.Undisposing → stop ≤ s.context.len)
      refine blockLoop_congr (I := I) ?_ ?_ ⟨?_, fun _ => hk.len ▸ hstop⟩
      · rintro s ⟨hs, hlen⟩ hlt
        exact hf s ⟨hs, fun h => Nat.lt_of_lt_of_le hlt (hlen h)⟩
      · rintro s x t ⟨hs, hlen⟩ hx
        exact ⟨(bounded_pervades handlers).step hx hs, fun h => step_len h hx ▸ hlen h⟩
      · rw [hk.len, hindex]
        exact hstart

theorem Detour.step_eq (hd : handlers.Undisposing ∨ d.Plain) (hs : Steppable handlers s) :
    d.step handlers n s = Playbook.step handlers n s := by
  induction n generalizing s with
  | zero => rfl
  | succ n ih =>
    simp only [Detour.step, Playbook.step, Detour.dispatch]
    cases ha : s.context.actions[s.context.index]? with
    | none =>
      have hend : ¬ s.context.index < s.context.len := by
        simpa [Context.len] using List.getElem?_eq_none_iff.mp ha
      rcases hd with hd | hd
      · exact absurd (hs.action hd) hend
      · rw [dispatch_none ha, hd.missing]
    | some a =>
      have hlt : s.context.index < s.context.len := (List.getElem?_eq_some_iff.mp ha).1
      have hwatch := Prog.watch_eq (d := d) (.ofStepper (d.step handlers n) n)
        (.ofStepper (Playbook.step handlers n) n)
        (funext fun _ => funext fun _ => funext fun _ => blockWith_watched fun s hs => ih hs)
        (funext fun _ => funext fun _ => funext fun _ => eachWith_congr fun s hs => ih (.of_lt hs))
        (fun _ _ _ _ _ => (bounded_pervades handlers).block) (fun _ _ _ _ => eachWith_context)
        (a.definition.behaviour.handler handlers) (s := s.entered) hs.bounded
      rw [dispatch_some ha]
      simp only [hwatch]
      cases hx : (a.definition.behaviour.handler handlers).exec
          (.ofStepper (Playbook.step handlers n) n) s.entered with
      | none => rfl
      | some r =>
        obtain ⟨x, t⟩ := r
        rcases hd with hd | hd
        · have hkept := (kept_along handlers).exec (hd.context _) ha hx
          exact Detour.answer_eq _ _ _ (hkept.len ▸ hlt)
        · exact hd.answer_eq _ _ _ _

theorem Detour.driveWith_eq (hd : handlers.Undisposing ∨ d.Plain) (release : Bool) (s : State) :
    driveWith (d.step handlers n) m release s =
      driveWith (Playbook.step handlers n) m release s :=
  driveWith_congr fun _ hs => d.step_eq hd (.of_lt hs)

theorem Detour.blockWith_eq (hd : handlers.Undisposing ∨ d.Plain) (start stop : Nat) (s : State) :
    blockWith (d.step handlers n) m start stop s =
      blockWith (Playbook.step handlers n) m start stop s :=
  blockWith_watched fun _ hs => d.step_eq hd hs

end

-- ---------------------------------------------------------------------------
-- Where errors come from
-- ---------------------------------------------------------------------------

/-- The states in which a loop takes its steps: it goes on from one to the next as long as
none fails or stops and the cursor is in front of `bound`. -/
inductive Visits (R : State → Except RuntimeError Flags × State → Prop) (bound : Context → Nat) :
    State → State → Prop
  | here : s.context.index < bound s.context → Visits R bound s s
  | later : s.context.index < bound s.context → R s (.ok flags, t) → flags.stop = false →
      Visits R bound t u → Visits R bound s u

theorem Halts.visits_failure {R : State → Except RuntimeError Flags × State → Prop}
    (h : Halts R bound s (.error e) t) : ∃ u, Visits R bound s u ∧ R u (.error e, t) := by
  generalize hb : (.error e : BlockEnd) = b at h
  induction h with
  | done | stop => cases hb
  | fail hlt hR =>
    cases hb
    exact ⟨_, .here hlt, hR⟩
  | more hlt hR hstop _ ih =>
    obtain ⟨u, hu, hfail⟩ := ih hb
    exact ⟨u, .later hlt hR hstop hu, hfail⟩

theorem Visits.index_lt {R : State → Except RuntimeError Flags × State → Prop}
    (h : Visits R bound s u) : u.context.index < bound u.context := by
  induction h with
  | here hlt => exact hlt
  | later _ _ _ _ ih => exact ih

def State.Raises (handlers : Handlers) (s : State) (e : RuntimeError) : Prop :=
  ∃ a n x t, s.context.actions[s.context.index]? = some a ∧
    (a.definition.behaviour.handler handlers).exec (.ofStepper (step handlers n) n) s.entered =
      some (x, t) ∧
    (x = .error e ∨ ∃ m, x = .panic m ∧ e = .dispatch a.id m)

section
variable {handlers : Handlers}

theorem raises_of_step (h : handlers.Undisposing) (hs : s.context.index < s.context.len)
    (hstep : step handlers n s = some (.error e, t)) : s.Raises handlers e := by
  cases n with
  | zero => cases hstep
  | succ n =>
    have ha := List.getElem?_eq_getElem hs
    rw [step, dispatch_some ha] at hstep
    split at hstep
    · cases hstep
    · rename_i x u hx
      refine ⟨_, n, x, u, ha, hx, ?_⟩
      have hanswer := Option.some.inj hstep
      cases x with
      | error e' =>
        cases hanswer
        exact .inl rfl
      | panic m =>
        cases hanswer
        exact .inr ⟨m, rfl, rfl⟩
      | value flags =>
        have hkept := (kept_along handlers).exec (h.context _) ha hx
        have hlt : s.context.index < u.context.len := hkept.len ▸ hs
        obtain ⟨flags', v, hsettle⟩ := settle_ok flags hlt
        simp only [Ending.answer, hsettle] at hanswer
        cases hanswer

theorem Visits.len_eq (h : handlers.Undisposing)
    (hv : Visits (Eventually (step handlers)) bound s u) : u.context.len = s.context.len := by
  induction hv with
  | here => rfl
  | later _ hR _ _ ih =>
    obtain ⟨n, hn⟩ := hR
    rw [ih, step_len h hn]

theorem raises_of_drive (h : handlers.Undisposing)
    (hrun : driveWith (step handlers n) n release s = some (.failed e, t)) :
    ∃ u, Visits (Eventually (step handlers)) Context.len s u ∧ u.Raises handlers e := by
  unfold driveWith at hrun
  split at hrun
  · cases hrun
  · obtain ⟨b, v, hh, hr⟩ := halts_of_driveLoop hrun
    obtain rfl : b = .error e := by
      rcases b with e' | _ | flags
      · simp only [conclude, Prod.mk.injEq, Outcome.failed.injEq] at hr
        rw [hr.1]
      · simp [conclude] at hr
      · simp only [conclude] at hr
        split at hr
        · cases hr
        · split at hr <;> cases hr
    obtain ⟨u, hu, k, hk⟩ := hh.visits_failure
    exact ⟨u, hu, raises_of_step h hu.index_lt hk⟩

theorem raises_of_block (h : handlers.Undisposing) (hstart : start ≤ stop)
    (hstop : stop ≤ s.context.len) (hb : runBlock handlers n start stop s = some (.error e, t)) :
    ∃ u, Visits (Eventually (step handlers)) (fun _ => stop) (s.moveTo start) u ∧
      u.Raises handlers e := by
  rw [runBlock, blockWith_in_range hstart hstop] at hb
  obtain ⟨u, hu, k, hk⟩ := (halts_of_blockLoop hb).visits_failure
  refine ⟨u, hu, raises_of_step h ?_ hk⟩
  have hlen : u.context.len = (s.moveTo start).context.len := hu.len_eq h
  exact hlen ▸ Nat.lt_of_lt_of_le hu.index_lt hstop

end

-- ---------------------------------------------------------------------------
-- Contexts in use
-- ---------------------------------------------------------------------------

/-- How a context can come about: it is made, and then everything may be done to it that a
context admits, by handlers, by a host and by the scheduler. -/
inductive Reached (handlers : Handlers) : State → Prop
  | fresh (id : ContextId) (script : String) (registry : Registry) (sequence : Sequence)
      (actor : Option ActorId) (w : World) :
      Reached handlers ⟨.fresh id script registry sequence actor, w⟩
  | child : Reached handlers s → ∀ id actions w, Reached handlers ⟨s.context.child id actions, w⟩
  | effect (e : Effect) : Reached handlers s → Reached handlers (e.run s).2
  | enter : Reached handlers s → Reached handlers s.entered
  | resume : Reached handlers s →
      Reached handlers { s with context := { s.context with continuation := none } }
  | elsewhere (w : World) : Reached handlers s → Reached handlers { s with world := w }
  | run : Reached handlers s → Playbook.run handlers n s = some (outcome, t) → Reached handlers t
  | iteration : Reached handlers s → runIteration handlers n s = some (outcome, t) →
      Reached handlers t
  | block : Reached handlers s → runBlock handlers n start stop s = some (b, t) →
      Reached handlers t

theorem Reached.cursor (h : Reached handlers s) : s.context.index ≤ s.context.len := by
  induction h with
  | fresh | child => exact Nat.zero_le _
  | effect e _ ih => exact e.run_bounded _ ih
  | enter _ ih | resume _ ih | elsewhere _ _ ih => exact ih
  | run _ hr ih | iteration _ hr ih =>
    exact (bounded_pervades handlers).drive hr ih
  | block _ hb ih => exact (bounded_pervades handlers).block hb ih

theorem exec_blockAfter (nested : Nested) (count : Nat) (s : State) :
    (Builtin.blockAfter count).exec nested s =
      some (if s.context.len < s.context.index + 1 + count then
          .error (s.context.outOfBounds (s.context.index + 1 + count))
        else .value (s.context.index + 1, s.context.index + 1 + count), s) := by
  simp only [Builtin.blockAfter, Prog.context, Prog.bind_eq, Prog.bind, Prog.exec, Prog.pure_eq]
  split <;> rfl

theorem Value.toCount?_lt {v : Value} (h : v.toCount? = .ok count) : count < UInt64.size / 2 := by
  unfold toCount? at h
  split at h
  · cases h
  · rename_i i _
    split at h
    · cases h
    · have hi := i.toInt_lt
      cases h
      simp only [UInt64.size]
      omega

/-- What is known of a context in use: where its cursor is, what a run of it never meets, and
where the errors come from that it reports. -/
structure CursorSound (handlers : Handlers) (s : State) : Prop where
  cursor : s.context.index ≤ s.context.len
  /-- No handler finds the cursor behind the end, and if no handler disposes of its context
  then the dispatcher never fails by itself: watched runs are the runs that they watch. -/
  watched : ∀ d : Detour, handlers.Undisposing ∨ d.Plain → ∀ n,
    driveWith (d.step handlers n) n true s = run handlers n s ∧
    driveWith (d.step handlers n) n false s = runIteration handlers n s ∧
    ∀ start stop, blockWith (d.step handlers n) n start stop s = runBlock handlers n start stop s
  failed : handlers.Undisposing → ∀ n e t,
    run handlers n s = some (.failed e, t) ∨ runIteration handlers n s = some (.failed e, t) →
    ∃ u, Visits (Eventually (step handlers)) Context.len s u ∧ u.Raises handlers e
  failedBlock : handlers.Undisposing → ∀ n start stop e t, start ≤ stop → stop ≤ s.context.len →
    runBlock handlers n start stop s = some (.error e, t) →
    ∃ u, Visits (Eventually (step handlers)) (fun _ => stop) (s.moveTo start) u ∧
      u.Raises handlers e
  /-- The block behind an action is refused if and only if it does not fit, and the end of a
  block whose length an argument gives is a word. -/
  blockAfter : ∀ nested (v : Value) count, v.toCount? = .ok count →
    ((Builtin.blockAfter count).exec nested s =
      some (.error (s.context.outOfBounds (s.context.index + 1 + count)), s) ↔
        s.context.len < s.context.index + 1 + count) ∧
    ((Builtin.blockAfter count).exec nested s =
      some (.value (s.context.index + 1, s.context.index + 1 + count), s) ↔
        s.context.index + 1 + count ≤ s.context.len) ∧
    (s.context.len < UInt64.size / 2 → s.context.index + 1 + count < UInt64.size)

theorem Reached.cursorSound (h : Reached handlers s) : CursorSound handlers s where
  cursor := h.cursor
  watched d hd n :=
    ⟨d.driveWith_eq hd true s, d.driveWith_eq hd false s, fun start stop =>
      d.blockWith_eq hd start stop s⟩
  failed hu n e t hr := by
    rcases hr with hr | hr
    · exact raises_of_drive hu hr
    · exact raises_of_drive hu hr
  failedBlock hu n start stop e t hstart hstop hb := raises_of_block hu hstart hstop hb
  blockAfter nested v count hv := by
    have hcursor := h.cursor
    have hcount := Value.toCount?_lt hv
    rw [exec_blockAfter]
    refine ⟨?_, ?_, fun hlen => by simp only [UInt64.size] at hlen hcount ⊢; omega⟩
    · by_cases hlt : s.context.len < s.context.index + 1 + count <;> simp [hlt]
    · by_cases hlt : s.context.len < s.context.index + 1 + count
      · simp [hlt]
      · simp [hlt, Nat.not_lt.mp hlt]

def overreaching : State :=
  let actions : List Action :=
    [.ofValues "If" (.builtin .ifBlock) [.bool true, .int 1],
     .ofValues "If" (.builtin .ifBlock) [.bool true, .int 5]]
  { context := .fresh 1 "overreaching" .builtins (.shared actions) none
    world := .initial fun _ => 0 }

/-- The error of the inner statement is that of the run, by way of the handler of the outer
one. -/
theorem cursorSound_overreaching : Handlers.none.Undisposing ∧
    (∃ t, run .none 3 overreaching = some (.failed (.bounds "If" 7 2), t)) ∧
    (∃ u, Visits (Eventually (step .none)) Context.len overreaching u ∧
      u.Raises .none (.bounds "If" 7 2)) ∧
    CursorSound .none overreaching := by
  have hnone : Handlers.none.Undisposing := fun _ => trivial
  have hsound : CursorSound .none overreaching := Reached.cursorSound (.fresh _ _ _ _ _ _)
  have heval : (run .none 3 overreaching).map Prod.fst = some (.failed (.bounds "If" 7 2)) := by
    decide +kernel
  obtain ⟨⟨outcome, t⟩, hr, rfl⟩ := Option.map_eq_some_iff.mp heval
  exact ⟨hnone, ⟨t, hr⟩, hsound.failed hnone 3 _ t (.inl hr), hsound⟩

end Playbook
