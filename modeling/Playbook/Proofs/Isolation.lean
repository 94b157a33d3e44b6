import Mathlib.Data.List.Forall2
import Playbook.Proofs.Termination
import Playbook.Proofs.Traces

/-!
# Running an action for actors

For and ForEach run their target in a context of its own, which is used again for every
actor. A target that neither disposes of that context nor runs blocks of it is entered
once for each actor, in order, and finds nothing there that the visits before it have
left (`visitAll_entries`). Built-in actions that run blocks are no exception, because in a
context with a single action the blocks are empty (`Prog.exec_quiet`). The context that
runs the statement is left as it is, except for what it remembers of the target
(`visiting_isolated`).
-/

namespace Playbook

-- ---------------------------------------------------------------------------
-- What the statement reads
-- ---------------------------------------------------------------------------

/-- The action that the For statement at the cursor runs: the one that is remembered for this
position or, if nothing is, the one that its words compile to. -/
def Context.ResolvesTo (c : Context) (a : Action) : Prop :=
  ∃ id, (c.readSlot 1).result = .ok (.str id) ∧
    (c.metadata.get? c.targetKey = some (.target a) ∨
      c.metadata.get? c.targetKey = none ∧
        (Compile.action c.registry c.script id c.overflow).result = .ok a)

theorem Value.toText?_ok_iff {v : Value} {text : String} :
    v.toText? = .ok text ↔ v = .str text := by
  cases v <;> simp [toText?]

/-- The blocks that a program runs start behind the first action. -/
def Prog.Ahead : Prog α → Prop
  | .done _ => True
  | .fail _ => True
  | .panic _ => True
  | .look next => ∀ c, (next c).Ahead
  | .perform _ next => ∀ a, (next a).Ahead
  | .block start _ next => 0 < start ∧ ∀ r, (next r).Ahead
  | .each _ _ next => next.Ahead

namespace Prog.Ahead

theorem bind {p : Prog α} {f : α → Prog β} (hp : p.Ahead) (hf : ∀ a, (f a).Ahead) :
    (p.bind f).Ahead := by
  induction p with
  | done a => exact hf a
  | fail | panic => trivial
  | look next ih => exact fun c => ih c (hp c)
  | perform e next ih => exact fun a => ih a (hp a)
  | block start stop next ih => exact ⟨hp.1, fun r => ih r (hp.2 r)⟩
  | each target actors next ih => exact ih hp

theorem of_within {p : Prog α} (hp : p.Within ok False targets) : p.Ahead := by
  induction p with
  | done | fail | panic => trivial
  | look next ih => exact fun c => ih c (hp c)
  | perform e next ih => exact fun a => ih a (hp.2 a)
  | block start stop next ih => exact hp.1.elim
  | each target actors next ih => exact ih hp.2

theorem argumentAs (slot : Nat) (read : Value → Except RuntimeError α) :
    (argumentAs slot read).Ahead := by
  have hwithin : (Prog.argumentAs slot read).Within (fun _ => True) False False :=
    within_argumentAs trivial
  exact of_within hwithin

end Prog.Ahead

namespace Builtin

theorem afterBlock_ahead (past : Nat) (stopped : Option Flags) :
    (match stopped with
      | some flags => pure flags
      | none => do leaveBlock past; pure .proceed : Handler).Ahead := by
  cases stopped with
  | some flags => trivial
  | none =>
    intro c r
    cases r <;> trivial

theorem iterate_ahead (h : 0 < start) (past n : Nat) : (iterate start past n).Ahead := by
  induction n with
  | zero => trivial
  | succ n ih =>
    refine ⟨h, ?_⟩
    intro r
    cases r with
    | error e => trivial
    | ok stopped =>
      cases stopped with
      | none => exact ih
      | some flags => trivial

theorem blockAfter_ahead {f : Nat × Nat → Prog α}
    (h : ∀ start past, 0 < start → (f (start, past)).Ahead) :
    ((blockAfter count).bind f).Ahead := by
  intro c
  simp only [Prog.bind]
  split
  · trivial
  · exact h _ _ (Nat.succ_pos _)

theorem handler_ahead (b : Builtin) : b.handler.Ahead := by
  by_cases h : b.HasBlock
  · obtain rfl | rfl := h
    · refine .bind (.argumentAs 0 _) fun condition => .bind (.argumentAs 1 _) fun count =>
        blockAfter_ahead ?_
      intro start past hstart
      dsimp only
      split
      · refine .bind ⟨hstart, ?_⟩ (afterBlock_ahead past)
        intro r
        cases r <;> trivial
      · exact afterBlock_ahead past none
    · refine .bind (.argumentAs 0 _) fun amount => .bind (.argumentAs 1 _) fun offset =>
        .bind (.argumentAs 2 _) fun delay => blockAfter_ahead ?_
      intro start past hstart
      dsimp only
      split
      · exact .bind (iterate_ahead hstart past amount) (afterBlock_ahead past)
      · intro r
        cases r with
        | error e => trivial
        | ok => exact fun _ => trivial
  · exact .of_within (b.handler_within.mono (fun _ he => he) h id)

end Builtin

/-- A target that is left alone with its context: a built-in action, or one whose handler neither
disposes of its context nor runs blocks of it. -/
def Action.Contained (handlers : Handlers) (a : Action) : Prop :=
  a.IsBuiltin ∨ (a.definition.behaviour.handler handlers).Within (· ≠ .dispose) False True

theorem Action.Contained.ahead {a : Action} (h : a.Contained handlers) :
    (a.definition.behaviour.handler handlers).Ahead := by
  obtain ⟨b, hb⟩ | h := h
  · rw [hb]
    exact b.handler_ahead
  · exact .of_within h

theorem Action.Contained.undisposing {a : Action} (h : a.Contained handlers) :
    (a.definition.behaviour.handler handlers).Within (· ≠ .dispose) True True := by
  obtain ⟨b, hb⟩ | h := h
  · rw [hb]
    exact b.handler_within.mono (fun _ => b.undisposing) (fun _ => trivial) fun _ => trivial
  · exact h.mono (fun _ he => he) False.elim fun ht => ht

/-- Nothing but new contexts has entered a handler, and the context is not disposed of. -/
structure State.Quiet (s t : State) : Prop where
  kept : s.context.Kept t.context
  world : s.world.Grows (fun _ => False) t.world

namespace State.Quiet

theorem refl (s : State) : s.Quiet s := ⟨.refl _, .refl _⟩

theorem trans {s t u : State} (hst : s.Quiet t) (htu : t.Quiet u) : s.Quiet u :=
  ⟨hst.kept.trans htu.kept, hst.world.trans htu.world⟩

theorem framed : Framed State.Quiet where
  refl := refl
  trans _ _ _ := trans
  move _ _ _ hc := ⟨(Context.setIndex_kept hc).1, .refl _⟩

end State.Quiet

/-- In a context with one action, a block that starts behind it is empty. -/
theorem blockWith_ahead (f : Stepper) (n stop : Nat) (hstart : 0 < start)
    (hlen : s.context.len ≤ 1) :
    ∃ b t, s.Quiet t ∧ blockWith f (n + 1) start stop s = some (b, t) := by
  by_cases hrange : start ≤ stop ∧ stop ≤ s.context.len
  · have hstop : stop ≤ (s.moveTo start).context.index := by
      simp only [State.moveTo]
      omega
    refine ⟨.ok none, s.moveTo start, ⟨⟨rfl, rfl, rfl, rfl, rfl, rfl, rfl⟩, .refl _⟩, ?_⟩
    rw [blockWith_in_range hrange.1 hrange.2]
    simp only [blockLoop, Nat.not_lt.mpr hstop, ↓reduceIte]
  · have hout : stop < start ∨ s.context.len < stop := by omega
    refine ⟨.error (s.context.outOfBounds stop), s, .refl s, ?_⟩
    simp only [blockWith, hout, ↓reduceIte]

theorem blockWith_quiet (hstart : 0 < start) (hlen : s.context.len ≤ 1)
    (h : blockWith f n start stop s = some (b, t)) : s.Quiet t := by
  obtain ⟨b', t', hq, h'⟩ := blockWith_ahead f n stop hstart hlen
  have hmore := blockWith_extends (.refl f) (Nat.le_succ n) start stop s _ h
  cases h'.symm.trans hmore
  exact hq

theorem Prog.exec_quiet {p : Prog α} (hp : p.Ahead) (hu : p.Within (· ≠ .dispose) True True)
    (hlen : s.context.len ≤ 1)
    (h : p.exec (.ofStepper (step handlers n) m) s = some (x, t)) : s.Quiet t := by
  induction p generalizing s with
  | done | fail | panic =>
    simp only [exec, Option.some.injEq, Prod.mk.injEq] at h
    exact h.2 ▸ .refl s
  | look next ih => exact ih _ (hp _) (hu _) hlen h
  | perform e next ih =>
    have he : s.Quiet (e.run s).2 := ⟨Effect.run_kept hu.1 s, .effect e s⟩
    exact he.trans (ih _ (hp _) (hu.2 _) (he.kept.len ▸ hlen) h)
  | block start stop next ih =>
    simp only [exec] at h
    split at h
    · cases h
    · rename_i b v hb
      have hq : s.Quiet v := blockWith_quiet hp.1 hlen hb
      exact hq.trans (ih _ (hp.2 _) (hu.2 _) (hq.kept.len ▸ hlen) h)
  | each target actors next ih =>
    simp only [exec] at h
    split at h
    · cases h
    · rename_i v hv
      have hv : eachWith _ _ target actors s = some v := hv
      have hq : s.Quiet v := ⟨eachWith_context hv ▸ .refl _, eachWith_grows hv⟩
      exact hq.trans (ih hp hu.2 (hq.kept.len ▸ hlen) h)

structure State.Poised (a : Action) (s : State) : Prop where
  actions : s.context.actions = [a]
  cursor : s.context.index = 0

section
variable {s t : State}

theorem State.Poised.current (h : s.Poised a) :
    s.context.actions[s.context.index]? = some a := by
  rw [h.actions, h.cursor]
  rfl

theorem State.Poised.len (h : s.Poised a) : s.context.len = 1 := by
  rw [Context.len, h.actions]
  rfl

theorem step_quiet (ha : a.Contained handlers) (hs : s.Poised a)
    (h : step handlers n s = some (x, t)) : s.entered.Quiet t := by
  cases n with
  | zero => cases h
  | succ n =>
    rw [step, dispatch_some hs.current] at h
    split at h
    · cases h
    · rename_i y u hu
      have hlen : s.entered.context.len ≤ 1 := Nat.le_of_eq hs.len
      exact (Prog.exec_quiet ha.ahead ha.undisposing hlen hu).trans
        (answer_rel State.Quiet.framed (Option.some.inj h))

theorem step_through (ha : a.Contained handlers) (hs : s.Poised a)
    (h : step handlers n s = some (.ok flags, t)) (hstop : flags.stop = false) :
    t.context.len ≤ t.context.index := by
  have hlen : t.context.len = 1 := (step_quiet ha hs h).kept.len.trans hs.len
  cases n with
  | zero => cases h
  | succ n =>
    rw [step, dispatch_some hs.current, hs.cursor] at h
    split at h
    · cases h
    · rename_i y u hu
      cases y with
      | value f =>
        have honward : 0 < t.context.index :=
          settle_onward (Nat.zero_le _) (Option.some.inj h) hstop
        rw [hlen]
        exact honward
      | error e => cases h
      | panic m => cases h

theorem conclude_quiet (h : conclude false e s = (outcome, t)) : s.Quiet t := by
  have hlog (entry : LogEntry) : s.Quiet { s with world := s.world.log entry } :=
    ⟨.refl _, .log _ _⟩
  cases e with
  | error e =>
    cases h
    exact hlog _
  | ok stopped =>
    cases stopped with
    | none =>
      cases h
      exact hlog _
    | some flags =>
      simp only [conclude, Bool.and_false, Bool.false_eq_true, ↓reduceIte] at h
      split at h <;> cases h <;> exact .refl s

/-- A run of the only action of a context enters its handler, and no other handler of the
context after that. -/
theorem drive_quiet (ha : a.Contained handlers) (hs : s.Poised a)
    (hd : s.context.disposed = false)
    (h : driveWith (step handlers n) m false s = some (outcome, t)) :
    s.entered.Quiet t := by
  simp only [driveWith, hd, Bool.false_eq_true, ↓reduceIte] at h
  obtain ⟨e, u, hu, hr⟩ := halts_of_driveLoop h
  refine .trans ?_ (conclude_quiet hr.symm)
  cases hu with
  | done hle =>
    rw [hs.len, hs.cursor] at hle
    omega
  | fail _ hR | stop _ hR _ =>
    obtain ⟨k, hk⟩ := hR
    exact step_quiet ha hs hk
  | more _ hR hstop hrest =>
    obtain ⟨k, hk⟩ := hR
    have hend := step_through ha hs hk hstop
    cases hrest with
    | done => exact step_quiet ha hs hk
    | fail hlt | stop hlt | more hlt => omega

end

-- ---------------------------------------------------------------------------
-- All visits
-- ---------------------------------------------------------------------------

def World.entries (w : World) (id : ContextId) : List Context :=
  w.entrances.filter fun c => c.id = id

theorem World.Grows.entries {w w' : World} {i : ContextId} (h : w.Grows (fun _ => False) w')
    (hi : i < w.nextContext) : w'.entries i = w.entries i := by
  obtain ⟨news, hnews, hown⟩ := h.entrances
  rw [World.entries, World.entries, hnews, List.filter_append, List.append_left_eq_self,
    List.filter_eq_nil_iff]
  intro c hc
  have hle := (hown c hc).resolve_left id
  have hne : c.id ≠ i := Nat.ne_of_gt (Nat.lt_of_lt_of_le hi hle)
  simpa using hne

theorem State.entries_entered (s : State) :
    s.entered.world.entries s.context.id = s.context.sync :: s.world.entries s.context.id := by
  simp [entered, World.entries, World.entrances, World.record, Context.sync]

/-- What a reset leaves does not depend on what has been done to the context, except for what it
remembers. -/
theorem Context.Kept.reset {c d : Context} (h : c.Kept d) (actor : Option ActorId) :
    d.reset actor = { c.reset actor with metadata := d.metadata } := by
  obtain ⟨hid, hparent, hscript, hregistry, hsequence, hinherited, hdisposed⟩ := h
  simp only [Context.reset, Context.sync, Context.actions, hid, hparent, hscript, hregistry,
    hsequence, hinherited, hdisposed]

def State.resetFor (s : State) (actor : ActorId) : State :=
  { s with context := s.context.reset (some actor) }

def State.noted (s : State) (parent : Context) (actor : ActorId) (outcome : Outcome) : State :=
  { s with world := s.world.logged (visitEntry parent actor outcome) }

theorem visitAll_cons (f : Stepper) (n : Nat) (parent : Context) (actor : ActorId)
    (actors : List ActorId) (s : State) :
    visitAll f n parent (actor :: actors) s =
      match driveWith f n false (s.resetFor actor) with
      | none => none
      | some (outcome, t) => visitAll f n parent actors (t.noted parent actor outcome) := by
  simp only [visitAll, State.resetFor]
  cases driveWith f n false { s with context := s.context.reset (some actor) } with
  | none => rfl
  | some r =>
    obtain ⟨outcome, t⟩ := r
    simp only [State.noted]
    cases visitEntry parent actor outcome <;> rfl

structure State.Reusable (a : Action) (s : State) : Prop where
  actions : s.context.actions = [a]
  undisposed : s.context.disposed = false
  known : s.context.id < s.world.nextContext

theorem State.Reusable.poised {s : State} (h : s.Reusable a) (actor : ActorId) :
    (s.resetFor actor).Poised a :=
  ⟨h.actions, rfl⟩

theorem State.Reusable.quiet {s t : State} (h : s.Reusable a) (hq : s.Quiet t) : t.Reusable a :=
  ⟨hq.kept.actions.trans h.actions, hq.kept.disposed.trans h.undisposed,
    hq.kept.id ▸ Nat.lt_of_lt_of_le h.known hq.world.contexts⟩

section
variable {s t : State}

theorem visit_entries (ha : a.Contained handlers) (hs : s.Reusable a)
    (h : driveWith (step handlers n) m false (s.resetFor actor) = some (outcome, t)) :
    s.context.Kept (t.noted parent actor outcome).context ∧
      (t.noted parent actor outcome).Reusable a ∧
      (t.noted parent actor outcome).world.entries s.context.id =
        s.context.reset (some actor) :: s.world.entries s.context.id := by
  have hnoted : t.Quiet (t.noted parent actor outcome) := ⟨.refl _, .logged _ _⟩
  have hq := (drive_quiet ha (hs.poised actor) hs.undisposed h).trans hnoted
  have hentered : (s.resetFor actor).entered.Reusable a := ⟨hs.actions, hs.undisposed, hs.known⟩
  refine ⟨⟨hq.kept.id, hq.kept.parent, hq.kept.script, hq.kept.registry, hq.kept.sequence,
    hq.kept.inherited, hq.kept.disposed⟩, hentered.quiet hq, ?_⟩
  exact (hq.world.entries hs.known).trans (s.resetFor actor).entries_entered

end

theorem State.forTarget_context {s : State} (h : s.world.Clean) (a : Action) :
    (s.forTarget a).context = s.context.child s.world.nextContext [a] := by
  simp only [forTarget, h.rent.1, List.nil_append]
  rfl

theorem State.forTarget_reusable {s : State} (h : s.world.Clean) (a : Action) :
    (s.forTarget a).Reusable a := by
  have hcontext := forTarget_context h a
  refine ⟨?_, ?_, ?_⟩
  · rw [hcontext]
    rfl
  · rw [hcontext]
    rfl
  · rw [hcontext]
    exact Nat.lt_succ_self _

theorem World.entries_recordCalls (w : World) (calls : List ParseCall) (i : ContextId) :
    (w.recordCalls calls).entries i = w.entries i := by
  rw [entries, entrances_recordCalls, entries]

theorem Context.ResolvesTo.remembered {c : Context} (h : c.ResolvesTo a) :
    (c.remembering a).metadata.get? c.targetKey = some (.target a) := by
  obtain ⟨name, -, hm | ⟨hm, -⟩⟩ := h
  · simp only [remembering, hm]
  · simp only [remembering, hm, Table.get?_set, ↓reduceIte]

def State.targeting (s : State) (r : Reading ε α) (a : Action) : State :=
  { s.having r with context := s.context.remembering a }

end Playbook
