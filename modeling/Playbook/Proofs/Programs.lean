import Playbook.Proofs.Fuel

/-!
# Programs and what they leave alone

How a program runs, in terms of its parts, and which parts of a context survive it.
A program that never disposes of its context leaves the identity of that context and
its sequence of actions as they are (`Context.Kept`), through blocks, sub-dispatch
and whole runs.
-/

namespace Playbook

-- ---------------------------------------------------------------------------
-- Sequencing
-- ---------------------------------------------------------------------------

namespace Prog

theorem bind_eq (p : Prog α) (f : α → Prog β) : p >>= f = p.bind f := rfl

theorem pure_eq (a : α) : (pure a : Prog α) = .done a := rfl

theorem bind_assoc (p : Prog α) (f : α → Prog β) (g : β → Prog γ) :
    (p.bind f).bind g = p.bind fun a => (f a).bind g := by
  induction p with
  | done | fail | panic => rfl
  | look next ih | perform e next ih | block start stop next ih =>
    simp only [Prog.bind, ih]
  | each target actors next ih => simp only [Prog.bind, ih]

theorem exec_bind (nested : Nested) (p : Prog α) (f : α → Prog β) (s : State) :
    (p.bind f).exec nested s =
      match p.exec nested s with
      | none => none
      | some (.value a, t) => (f a).exec nested t
      | some (.error e, t) => some (.error e, t)
      | some (.panic m, t) => some (.panic m, t) := by
  induction p generalizing s with
  | done | fail | panic => rfl
  | look next ih => exact ih s.context s
  | perform e next ih => exact ih (e.run s).1 (e.run s).2
  | block start stop next ih =>
    simp only [Prog.bind, exec]
    cases nested.block start stop s with
    | none => rfl
    | some x => exact ih x.1 x.2
  | each target actors next ih =>
    simp only [Prog.bind, exec]
    cases nested.each target actors s with
    | none => rfl
    | some t => exact ih t

/-- All effects of a program satisfy `ok`, and it runs blocks only if `blocks` and
actions for actors only if `targets`. -/
def Within (ok : Effect → Prop) (blocks targets : Prop) : Prog α → Prop
  | .done _ => True
  | .fail _ => True
  | .panic _ => True
  | .look next => ∀ c, (next c).Within ok blocks targets
  | .perform e next => ok e ∧ ∀ a, (next a).Within ok blocks targets
  | .block _ _ next => blocks ∧ ∀ r, (next r).Within ok blocks targets
  | .each _ _ next => targets ∧ next.Within ok blocks targets

theorem Within.mono {ok ok' : Effect → Prop} {p : Prog α} (h : p.Within ok blocks targets)
    (hok : ∀ e, ok e → ok' e) (hb : blocks → blocks') (ht : targets → targets') :
    p.Within ok' blocks' targets' := by
  induction p with
  | done | fail | panic => trivial
  | look next ih => exact fun c => ih c (h c)
  | perform e next ih => exact ⟨hok e h.1, fun a => ih a (h.2 a)⟩
  | block start stop next ih => exact ⟨hb h.1, fun r => ih r (h.2 r)⟩
  | each target actors next ih => exact ⟨ht h.1, ih h.2⟩

theorem Within.and {ok ok' : Effect → Prop} {p : Prog α} (h : p.Within ok blocks targets)
    (h' : p.Within ok' blocks' targets') :
    p.Within (fun e => ok e ∧ ok' e) (blocks ∧ blocks') (targets ∧ targets') := by
  induction p with
  | done | fail | panic => trivial
  | look next ih => exact fun c => ih c (h c) (h' c)
  | perform e next ih => exact ⟨⟨h.1, h'.1⟩, fun a => ih a (h.2 a) (h'.2 a)⟩
  | block start stop next ih => exact ⟨⟨h.1, h'.1⟩, fun r => ih r (h.2 r) (h'.2 r)⟩
  | each target actors next ih => exact ⟨⟨h.1, h'.1⟩, ih h.2 h'.2⟩

theorem Within.all {ok : ι → Effect → Prop} {p : Prog α} (h : ∀ i, p.Within (ok i) True True) :
    p.Within (fun e => ∀ i, ok i e) True True := by
  induction p with
  | done | fail | panic => trivial
  | look next ih => exact fun c => ih c fun i => h i c
  | perform e next ih => exact ⟨fun i => (h i).1, fun a => ih a fun i => (h i).2 a⟩
  | block start stop next ih => exact ⟨trivial, fun r => ih r fun i => (h i).2 r⟩
  | each target actors next ih => exact ⟨trivial, ih fun i => (h i).2⟩

theorem Within.bind {p : Prog α} {f : α → Prog β} (hp : p.Within ok blocks targets)
    (hf : ∀ a, (f a).Within ok blocks targets) : (p.bind f).Within ok blocks targets := by
  induction p with
  | done a => exact hf a
  | fail | panic => trivial
  | look next ih => exact fun c => ih c (hp c)
  | perform e next ih => exact ⟨hp.1, fun a => ih a (hp.2 a)⟩
  | block start stop next ih => exact ⟨hp.1, fun r => ih r (hp.2 r)⟩
  | each target actors next ih => exact ⟨hp.1, ih hp.2⟩

theorem within_true (p : Prog α) : p.Within (fun _ => True) True True := by
  induction p with
  | done | fail | panic => trivial
  | look next ih => exact ih
  | perform e next ih => exact ⟨trivial, ih⟩
  | block start stop next ih => exact ⟨trivial, ih⟩
  | each target actors next ih => exact ⟨trivial, ih⟩

/-- A relation between states that composes, and that effects and nested runs keep,
is kept by the program. -/
theorem exec_rel {P : State → State → Prop} {nested : Nested} {p : Prog α}
    (hp : p.Within ok blocks targets) (hrefl : ∀ s, P s s)
    (htrans : ∀ s t u, P s t → P t u → P s u) (heff : ∀ e s, ok e → P s (e.run s).2)
    (hblock : blocks → ∀ start stop s b t, nested.block start stop s = some (b, t) → P s t)
    (heach : targets → ∀ target actors s t, nested.each target actors s = some t → P s t)
    (h : p.exec nested s = some (x, t)) : P s t := by
  induction p generalizing s with
  | done | fail | panic =>
    simp only [exec, Option.some.injEq, Prod.mk.injEq] at h
    exact h.2 ▸ hrefl s
  | look next ih => exact ih _ (hp _) h
  | perform e next ih => exact htrans _ _ _ (heff e s hp.1) (ih _ (hp.2 _) h)
  | block start stop next ih =>
    simp only [exec] at h
    split at h
    · simp at h
    · rename_i b u hb
      exact htrans _ _ _ (hblock hp.1 _ _ _ _ _ hb) (ih _ (hp.2 _) h)
  | each target actors next ih =>
    simp only [exec] at h
    split at h
    · simp at h
    · rename_i u hu
      exact htrans _ _ _ (heach hp.1 _ _ _ _ hu) (ih hp.2 h)

/-- Programs that run no blocks do not depend on how blocks are run. -/
theorem exec_blockless {p : Prog α} (hp : p.Within ok False targets)
    (block : Nat → Nat → State → Option (BlockEnd × State)) (nested : Nested) (s : State) :
    p.exec { nested with block } s = p.exec nested s := by
  induction p generalizing s with
  | done | fail | panic => rfl
  | look next ih => exact ih _ (hp _) s
  | perform e next ih => exact ih _ (hp.2 _) _
  | block start stop next ih => exact hp.1.elim
  | each target actors next ih =>
    simp only [exec]
    cases nested.each target actors s with
    | none => rfl
    | some t => exact ih hp.2 t

section
variable {ok : Effect → Prop}

theorem within_ofExcept (r : Except RuntimeError α) : (ofExcept r).Within ok blocks targets := by
  cases r <;> trivial

theorem within_context : context.Within ok blocks targets := fun _ => trivial

theorem within_argument (h : ok (.readSlot slot)) : (argument slot).Within ok blocks targets :=
  ⟨h, fun r => within_ofExcept r⟩

theorem within_argumentAs {read : Value → Except RuntimeError α} (h : ok (.readSlot slot)) :
    (argumentAs slot read).Within ok blocks targets :=
  .bind (within_argument h) fun _ => within_ofExcept _

theorem within_setIndex (h : ok (.setIndex i)) : (setIndex i).Within ok blocks targets :=
  ⟨h, fun r => within_ofExcept r⟩

theorem within_setResult (h : ∀ name, ok (.setVariable name v)) :
    (setResult v).Within ok blocks targets :=
  fun _ => ⟨h _, fun _ => trivial⟩

theorem within_throwFloat (h : ok (.throwFloat low high)) :
    (throwFloat low high).Within ok blocks targets := by
  refine ⟨h, ?_⟩
  rintro (_ | _) <;> trivial

theorem within_throwDice (h : ok .throwDice) : throwDice.Within ok blocks targets :=
  ⟨h, fun _ => trivial⟩

theorem within_remembered {pack : α → Memo} {make : Prog α}
    (hmake : make.Within ok blocks targets) (h : ∀ a, ok (.remember key (pack a))) :
    (remembered key pack unpack make).Within ok blocks targets := by
  refine .bind within_context fun c => ?_
  split
  · split <;> trivial
  · exact .bind hmake fun a => ⟨h a, fun _ => trivial⟩

end

end Prog

-- ---------------------------------------------------------------------------
-- Arguments
-- ---------------------------------------------------------------------------

def Ending.ofExcept : Except RuntimeError α → Ending α
  | .ok a => .value a
  | .error e => .error e

def State.argument (s : State) (slot : Nat) (read : Value → Except RuntimeError α) :
    Except RuntimeError α × State :=
  ((s.context.readSlot slot).result >>= read,
    { s with world := s.world.recordCalls (s.context.readSlot slot).calls })

theorem State.argument_context {s : State} {read : Value → Except RuntimeError α}
    (h : s.argument slot read = (x, t)) : t.context = s.context := by
  simp only [State.argument, Prod.mk.injEq] at h
  rw [← h.2]

theorem Prog.exec_ofExcept (nested : Nested) (r : Except RuntimeError α) (s : State) :
    (ofExcept r).exec nested s = some (.ofExcept r, s) := by
  cases r <;> rfl

theorem Prog.exec_argumentAs (nested : Nested) (slot : Nat)
    (read : Value → Except RuntimeError α) (s : State) :
    (argumentAs slot read).exec nested s =
      some (.ofExcept (s.argument slot read).1, (s.argument slot read).2) := by
  simp only [argumentAs, argument, bind_eq, exec_bind, exec, exec_ofExcept, Effect.run,
    World.perform, State.argument]
  cases (s.context.readSlot slot).result with
  | error e => rfl
  | ok v => simp [Ending.ofExcept, Bind.bind, Except.bind]

theorem Prog.exec_argumentAs_bind (nested : Nested) (slot : Nat)
    (read : Value → Except RuntimeError α) (f : α → Prog β) (s : State) :
    ((argumentAs slot read).bind f).exec nested s =
      match s.argument slot read with
      | (.ok a, t) => (f a).exec nested t
      | (.error e, t) => some (.error e, t) := by
  rw [exec_bind, exec_argumentAs]
  obtain ⟨x, t⟩ := s.argument slot read
  cases x <;> rfl

-- ---------------------------------------------------------------------------
-- What is kept
-- ---------------------------------------------------------------------------

/-- The parts of a context that only its disposal changes. -/
structure Context.Kept (c d : Context) : Prop where
  id : d.id = c.id
  parent : d.parent = c.parent
  script : d.script = c.script
  registry : d.registry = c.registry
  sequence : d.sequence = c.sequence
  inherited : d.inherited = c.inherited
  disposed : d.disposed = c.disposed

namespace Context.Kept

theorem refl (c : Context) : c.Kept c := ⟨rfl, rfl, rfl, rfl, rfl, rfl, rfl⟩

theorem trans {c d e : Context} (h : c.Kept d) (h' : d.Kept e) : c.Kept e :=
  ⟨h'.id.trans h.id, h'.parent.trans h.parent, h'.script.trans h.script,
    h'.registry.trans h.registry, h'.sequence.trans h.sequence, h'.inherited.trans h.inherited,
    h'.disposed.trans h.disposed⟩

theorem actions {c d : Context} (h : c.Kept d) : d.actions = c.actions := by
  simp [Context.actions, h.sequence]

theorem len {c d : Context} (h : c.Kept d) : d.len = c.len := by
  simp [Context.len, h.actions]

end Context.Kept

theorem Context.setIndex_kept {c d : Context} (h : c.setIndex i = .ok d) :
    c.Kept d ∧ d.index = i ∧ i ≤ c.len := by
  unfold setIndex at h
  split at h
  · simp at h
  · rename_i hle
    simp only [Except.ok.injEq] at h
    subst h
    exact ⟨⟨rfl, rfl, rfl, rfl, rfl, rfl, rfl⟩, rfl, by omega⟩

theorem Effect.run_kept {e : Effect} (h : e ≠ .dispose) (s : State) :
    s.context.Kept (e.run s).2.context := by
  cases e with
  | setIndex i =>
    simp only [run]
    split
    · rename_i c hc; exact (Context.setIndex_kept hc).1
    · exact .refl _
  | dispose => exact absurd rfl h
  | _ => exact ⟨rfl, rfl, rfl, rfl, rfl, rfl, rfl⟩

-- ---------------------------------------------------------------------------
-- Steps and blocks
-- ---------------------------------------------------------------------------

def State.entered (s : State) : State :=
  { context := s.context.sync, world := s.world.record (.dispatch s.context.sync) }

def World.logged (w : World) : Option LogEntry → World
  | some entry => w.log entry
  | none => w

def Ending.answer (entry : Nat) (a : Action) (x : Ending Flags) (s : State) :
    Except RuntimeError Flags × State :=
  match x with
  | .panic m => (.error (.dispatch a.id m), s)
  | .error e => (.error e, s)
  | .value flags => settle entry flags s

theorem dispatch_some {nested : Nested} (ha : s.context.actions[s.context.index]? = some a) :
    dispatch handlers nested s =
      match (a.definition.behaviour.handler handlers).exec nested s.entered with
      | none => none
      | some (x, t) => some (x.answer s.context.index a t) := by
  have hc : s.context.sync.current = some a := ha
  simp only [dispatch, hc, State.entered]
  cases (a.definition.behaviour.handler handlers).exec nested
      { context := s.context.sync, world := s.world.record (.dispatch s.context.sync) } with
  | none => rfl
  | some x =>
    obtain ⟨x, t⟩ := x
    cases x <;> rfl

theorem dispatch_none {nested : Nested} (ha : s.context.actions[s.context.index]? = none) :
    dispatch handlers nested s =
      some (.error .noCurrentAction, { s with context := s.context.sync }) := by
  have hc : s.context.sync.current = none := ha
  simp [dispatch, hc]

theorem settle_stop (h : flags.stop = true) : settle entry flags s = (.ok flags, s) := by
  simp [settle, h]

theorem settle_moved {s : State} (h : s.context.index ≠ entry) :
    settle entry .proceed s = (.ok .proceed, s) := by
  simp [settle, Flags.proceed, h]

def State.moveTo (s : State) (i : Nat) : State :=
  { s with context := { s.context with index := i } }

theorem State.moveTo_self (s : State) : s.moveTo s.context.index = s := rfl

theorem Context.setIndex_ok {c : Context} (h : i ≤ c.len) :
    c.setIndex i = .ok { c with index := i } := by
  simp [setIndex, Nat.not_lt.mpr h]

theorem Effect.run_setIndex (i : Nat) (s : State) :
    ∃ j, (Effect.run (.setIndex i) s).2 = s.moveTo j := by
  simp only [run, Context.setIndex]
  by_cases hlen : s.context.len < i
  · exact ⟨s.context.index, by simp only [hlen, ↓reduceIte, State.moveTo_self]⟩
  · exact ⟨i, by simp only [hlen, ↓reduceIte, State.moveTo]⟩

theorem blockWith_in_range {s : State} (h : start ≤ stop) (hs : stop ≤ s.context.len) :
    blockWith f n start stop s = blockLoop f stop n (s.moveTo start) := by
  simp only [blockWith, Nat.not_lt.mpr h, Nat.not_lt.mpr hs, or_self, ↓reduceIte,
    Context.setIndex_ok (Nat.le_trans h hs), State.moveTo]

/-- What steps and blocks do to a state besides running handlers. -/
structure Framed (P : State → State → Prop) : Prop where
  refl : ∀ s, P s s
  trans : ∀ s t u, P s t → P t u → P s u
  move : ∀ s i c, s.context.setIndex i = .ok c → P s { s with context := c }

section
variable {P : State → State → Prop}

theorem settle_rel (hP : Framed P) (h : settle entry flags s = (x, t)) : P s t := by
  unfold settle at h
  split at h
  · obtain ⟨-, rfl⟩ := Prod.mk.inj h; exact hP.refl _
  · split at h
    · obtain ⟨-, rfl⟩ := Prod.mk.inj h; exact hP.refl _
    · split at h
      · split at h
        · rename_i c hc
          obtain ⟨-, rfl⟩ := Prod.mk.inj h
          exact hP.move s _ c hc
        · obtain ⟨-, rfl⟩ := Prod.mk.inj h; exact hP.refl _
      · obtain ⟨-, rfl⟩ := Prod.mk.inj h; exact hP.refl _

theorem answer_rel (hP : Framed P) {x : Ending Flags} (h : x.answer entry a s = (y, t)) :
    P s t := by
  cases x with
  | value flags => exact settle_rel hP h
  | error e => obtain ⟨-, rfl⟩ := Prod.mk.inj h; exact hP.refl _
  | panic m => obtain ⟨-, rfl⟩ := Prod.mk.inj h; exact hP.refl _

theorem blockLoop_eq_some {f : Stepper} {s : State} (hi : s.context.index < stop)
    (h : blockLoop f stop (n + 1) s = some (b, t)) :
    ∃ r u, f s = some (r, u) ∧ ((∃ e, r = .error e ∧ b = .error e ∧ t = u) ∨
      ∃ flags, r = .ok flags ∧ (flags.stop = true ∧ b = .ok (some flags) ∧ t = u ∨
        flags.stop = false ∧ blockLoop f stop n u = some (b, t))) := by
  unfold blockLoop at h
  rw [if_pos hi] at h
  split at h
  · cases h
  · rename_i e u hu
    cases h
    exact ⟨_, _, hu, .inl ⟨e, rfl, rfl, rfl⟩⟩
  · rename_i flags u hu
    refine ⟨_, u, hu, .inr ⟨flags, rfl, ?_⟩⟩
    split at h
    · rename_i hstop
      cases h
      exact .inl ⟨hstop, rfl, rfl⟩
    · rename_i hstop
      exact .inr ⟨by simpa using hstop, h⟩

theorem blockLoop_rel (hP : Framed P) {f : Stepper} (hf : ∀ s x t, f s = some (x, t) → P s t)
    (h : blockLoop f stop n s = some (b, t)) : P s t := by
  induction n generalizing s with
  | zero => simp [blockLoop] at h
  | succ n ih =>
    by_cases hi : s.context.index < stop
    · obtain ⟨r, u, hs, ⟨e, -, -, rfl⟩ | ⟨flags, -, ⟨-, -, rfl⟩ | ⟨-, hrest⟩⟩⟩ :=
        blockLoop_eq_some hi h
      · exact hf _ _ _ hs
      · exact hf _ _ _ hs
      · exact hP.trans _ _ _ (hf _ _ _ hs) (ih hrest)
    · simp only [blockLoop, hi, ↓reduceIte, Option.some.injEq, Prod.mk.injEq] at h
      exact h.2 ▸ hP.refl s

theorem blockWith_rel (hP : Framed P) {f : Stepper} (hf : ∀ s x t, f s = some (x, t) → P s t)
    (h : blockWith f n start stop s = some (b, t)) : P s t := by
  unfold blockWith at h
  split at h
  · simp only [Option.some.injEq, Prod.mk.injEq] at h
    exact h.2 ▸ hP.refl s
  · split at h
    · simp only [Option.some.injEq, Prod.mk.injEq] at h
      exact h.2 ▸ hP.refl s
    · rename_i c hc
      exact hP.trans _ _ _ (hP.move s _ c hc) (blockLoop_rel hP hf h)

end

def State.forTarget (s : State) (target : Action) : State :=
  { context := s.context.child s.world.rent.2.newContext.1 (s.world.rent.1 ++ [target])
    world := s.world.rent.2.newContext.2 }

theorem eachWith_eq (f : Stepper) (n : Nat) (target : Action) (actors : List ActorId) (s : State) :
    eachWith f n target actors s =
      (visitAll f n s.context actors (s.forTarget target)).map fun t =>
        { context := s.context, world := t.dispose.world } := by
  simp only [eachWith, State.forTarget]
  cases visitAll f n s.context actors _ <;> rfl

theorem eachWith_context (h : eachWith f n target actors s = some t) : t.context = s.context := by
  simp only [eachWith] at h
  split at h
  · simp at h
  · simp only [Option.some.injEq] at h
    rw [← h]

/-- A relation between the contexts before and after that holds along every run of a
context that is `good`: it composes, it carries goodness along, and the moves of the
dispatcher and all effects of the handlers of a good context keep it. -/
structure Along (handlers : Handlers) (good : Context → Prop) (R : Context → Context → Prop) :
    Prop where
  refl : ∀ c, R c c
  trans : ∀ c d e, R c d → R d e → R c e
  carry : ∀ c d, good c → R c d → good d
  sync : ∀ c, R c c.sync
  move : ∀ c i d, c.setIndex i = .ok d → R c d
  handler : ∀ c, good c → ∀ a ∈ c.actions, (a.definition.behaviour.handler handlers).Within
    (fun e => ∀ s : State, good s.context → R s.context (e.run s).2.context) True True

section
variable {good : Context → Prop} {R : Context → Context → Prop}

theorem Along.framed (h : Along handlers good R) :
    Framed fun s t => good s.context → R s.context t.context where
  refl _ _ := h.refl _
  trans _ _ _ hst htu hs := h.trans _ _ _ (hst hs) (htu (h.carry _ _ hs (hst hs)))
  move _ _ _ hc _ := h.move _ _ _ hc

/-- A handler keeps the relation if the steps of its blocks do. -/
theorem Along.exec_of_step {s t : State} (h : Along handlers good R)
    (hstep : ∀ s x t, good s.context → Playbook.step handlers n s = some (x, t) →
      R s.context t.context)
    (hs : good s.context) (ha : s.context.actions[s.context.index]? = some a)
    (hx : (a.definition.behaviour.handler handlers).exec
      (.ofStepper (Playbook.step handlers n) n) s.entered = some (x, t)) :
    R s.context t.context := by
  have hP := h.framed
  have hentered : R s.context s.entered.context := h.sync _
  have hrun := Prog.exec_rel (h.handler _ hs a (List.mem_of_getElem? ha)) hP.refl hP.trans
    (fun e s he => he s)
    (fun _ start stop s b t hb => blockWith_rel hP (fun s x t hx hs => hstep s x t hs hx) hb)
    (fun _ target actors s t ht _ => by
      have ht : eachWith _ _ target actors s = some t := ht
      rw [eachWith_context ht]
      exact h.refl _) hx
  exact h.trans _ _ _ hentered (hrun (h.carry _ _ hs hentered))

theorem Along.step (h : Along handlers good R) (hs : good s.context)
    (hstep : Playbook.step handlers n s = some (x, t)) : R s.context t.context := by
  induction n generalizing s x t with
  | zero => simp [Playbook.step] at hstep
  | succ n ih =>
    simp only [Playbook.step] at hstep
    cases ha : s.context.actions[s.context.index]? with
    | none =>
      rw [dispatch_none ha] at hstep
      simp only [Option.some.injEq, Prod.mk.injEq] at hstep
      rw [← hstep.2]
      exact h.sync _
    | some a =>
      rw [dispatch_some ha] at hstep
      split at hstep
      · simp at hstep
      · rename_i y u hy
        have hu := h.exec_of_step (fun s x t => ih) hs ha hy
        exact h.trans _ _ _ hu (answer_rel h.framed (Option.some.inj hstep) (h.carry _ _ hs hu))

theorem Along.exec {s t : State} (h : Along handlers good R) (hs : good s.context)
    (ha : s.context.actions[s.context.index]? = some a)
    (hx : (a.definition.behaviour.handler handlers).exec
      (.ofStepper (Playbook.step handlers n) n) s.entered = some (x, t)) :
    R s.context t.context :=
  h.exec_of_step (fun _ _ _ => h.step) hs ha hx

end

def Context.Undisposing (handlers : Handlers) (c : Context) : Prop :=
  ∀ a ∈ c.actions, (a.definition.behaviour.handler handlers).Within (· ≠ .dispose) True True

theorem kept_along (handlers : Handlers) :
    Along handlers (Context.Undisposing handlers) Context.Kept where
  refl := .refl
  trans _ _ _ := .trans
  carry _ _ hc hk a ha := hc a (hk.actions ▸ ha)
  sync _ := ⟨rfl, rfl, rfl, rfl, rfl, rfl, rfl⟩
  move _ _ _ hc := (Context.setIndex_kept hc).1
  handler _ hc a ha := (hc a ha).mono (fun _ he s _ => Effect.run_kept he s) id id

def Context.Bounded (c d : Context) : Prop := c.index ≤ c.len → d.index ≤ d.len

theorem Effect.run_bounded (e : Effect) (s : State) : s.context.Bounded (e.run s).2.context := by
  intro hs
  cases e with
  | setIndex i =>
    simp only [run]
    split
    · rename_i c hc
      obtain ⟨hk, hi, hle⟩ := Context.setIndex_kept hc
      rw [hk.len, hi]
      exact hle
    · exact hs
  | reset => exact Nat.zero_le _
  | dispose =>
    simp only [run, World.dispose]
    split
    · exact hs
    · exact Nat.zero_le _
  | _ => exact hs

theorem bounded_along (handlers : Handlers) : Along handlers (fun _ => True) Context.Bounded where
  refl _ := id
  trans _ _ _ h h' := h' ∘ h
  carry _ _ _ _ := trivial
  sync _ := id
  move c i d hc hle := by
    obtain ⟨hk, hi, hle⟩ := Context.setIndex_kept hc
    rw [hk.len, hi]
    exact hle
  handler _ _ a _ := (Prog.within_true _).mono (fun e _ s _ => Effect.run_bounded e s) id id

-- ---------------------------------------------------------------------------
-- Statements given by values
-- ---------------------------------------------------------------------------

def Action.ofValues (id : String) (behaviour : Behaviour) (values : List Value) : Action :=
  { definition := { id, description := "", params := [], variadic := false, behaviour }
    slots := values.map fun v => .literal .any "" (some v)
    output := none, overflow := [], line := 0 }

@[simp] theorem Action.ofValues_behaviour (id : String) (b : Behaviour) (values : List Value) :
    (ofValues id b values).definition.behaviour = b := rfl

end Playbook
