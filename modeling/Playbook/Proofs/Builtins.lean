import Playbook.Proofs.Programs

/-!
# What the built-in actions do

The effects that the handlers of the built-in actions have (`Builtin.handler_within`).
All of them read arguments, write results and log; only the random ones throw the dice
(`Builtin.handler_needs`), only If and Repeat move the cursor, suspend and run blocks, and
only For and ForEach compile, remember and run targets. Repeat reads its arguments and then
runs its block or parks what is to be run later (`exec_repeat`). For and ForEach read for whom
and what to run, and then run it (`exec_for`, `exec_forEach`).
-/

namespace Playbook

namespace Builtin

def HasBlock (b : Builtin) : Prop := b = .ifBlock ∨ b = .repeatBlock

def HasTarget (b : Builtin) : Prop := b = .forActor ∨ b = .forEach

instance (b : Builtin) : Decidable b.HasBlock := inferInstanceAs (Decidable (_ ∨ _))

instance (b : Builtin) : Decidable b.HasTarget := inferInstanceAs (Decidable (_ ∨ _))

def Performs (b : Builtin) : Effect → Prop
  | .readSlot _ | .setVariable _ _ | .throwDice | .throwFloat _ _ | .log _ => True
  | .setIndex _ | .suspend _ => b.HasBlock
  | .compile _ _ => b.HasTarget
  | .remember _ m => b.HasTarget ∧ ∃ a, m = .target a
  | _ => False

theorem undisposing {e : Effect} (b : Builtin) (h : b.Performs e) : e ≠ .dispose := by
  rintro rfl
  exact h

def IsRandom (b : Builtin) : Prop :=
  b = .randomInt ∨ b = .randomFloat ∨ b = .randomElement ∨ b = .selectDistinct

instance (b : Builtin) : Decidable b.IsRandom := inferInstanceAs (Decidable (_ ∨ _))

/-- The effects of a built-in action, with the dice for the random ones only. What it logs is
information. -/
def Needs (b : Builtin) : Effect → Prop
  | .throwDice | .throwFloat _ _ => b.IsRandom
  | .log entry => entry.level = .info
  | e => b.Performs e

theorem Needs.performs {b : Builtin} (h : b.Needs e) : b.Performs e := by
  cases e with
  | throwDice | throwFloat | log => trivial
  | _ => exact h

open Prog

section
variable {b : Builtin}

theorem blockAfter_within (count : Nat) :
    (blockAfter count).Within b.Needs b.HasBlock b.HasTarget := by
  refine .bind within_context fun c => ?_
  dsimp only
  split <;> trivial

theorem leaveBlock_within (h : b.HasBlock) (past : Nat) :
    (leaveBlock past).Within b.Needs b.HasBlock b.HasTarget :=
  fun _ => within_setIndex h

theorem afterBlock_within (h : b.HasBlock) (past : Nat) (stopped : Option Flags) :
    (match stopped with
      | some flags => pure flags
      | none => do leaveBlock past; pure .proceed : Handler).Within
      b.Needs b.HasBlock b.HasTarget := by
  cases stopped with
  | none => exact .bind (leaveBlock_within h past) fun _ => trivial
  | some flags => trivial

theorem iterate_within (h : b.HasBlock) (start past n : Nat) :
    (iterate start past n).Within b.Needs b.HasBlock b.HasTarget := by
  induction n with
  | zero => trivial
  | succ n ih =>
    refine ⟨h, ?_⟩
    intro r
    cases r with
    | error e => trivial
    | ok stopped =>
      cases stopped with
      | none => exact ih
      | some flags => trivial

theorem draw_within (h : b.IsRandom) (items : List Value) (n : Nat) :
    (draw items n).Within b.Needs b.HasBlock b.HasTarget := by
  induction n generalizing items with
  | zero => trivial
  | succ n ih =>
    refine ⟨h, fun (throw : Nat) => ?_⟩
    dsimp only
    split
    · trivial
    · exact (ih _).bind fun _ => trivial

theorem runFor_within (h : b.HasTarget) (actors : List ActorId) :
    (runFor actors).Within b.Needs b.HasBlock b.HasTarget := by
  have hmake (id : String) (overflow : List Token) :
      (.perform (.compile id overflow) fun r => ofExcept (r.mapError RuntimeError.compile) :
        Prog Action).Within b.Needs b.HasBlock b.HasTarget :=
    ⟨h, fun r => within_ofExcept _⟩
  refine .bind (.bind (within_argumentAs trivial) fun id => .bind within_context fun c => ?_)
    fun a => ⟨h, trivial⟩
  exact within_remembered (hmake _ _) fun a => ⟨h, a, rfl⟩

end

theorem handler_needs (b : Builtin) : b.handler.Within b.Needs b.HasBlock b.HasTarget := by
  cases b with
  | stop => trivial
  | stopIf => exact .bind (within_argumentAs trivial) fun _ => trivial
  | ifBlock =>
    have h : HasBlock .ifBlock := .inl rfl
    refine .bind (within_argumentAs trivial) fun condition =>
      .bind (within_argumentAs trivial) fun count => .bind (blockAfter_within count) ?_
    rintro ⟨start, past⟩
    dsimp only
    split
    · exact .bind ⟨h, fun r => within_ofExcept r⟩ (afterBlock_within h past)
    · exact afterBlock_within h past none
  | repeatBlock =>
    have h : HasBlock .repeatBlock := .inr rfl
    refine .bind (within_argumentAs trivial) fun amount =>
      .bind (within_argumentAs trivial) fun offset =>
      .bind (within_argumentAs trivial) fun delay => .bind (blockAfter_within offset) ?_
    rintro ⟨start, past⟩
    dsimp only
    split
    · exact .bind (iterate_within h start past amount) (afterBlock_within h past)
    · exact .bind (within_setIndex h) fun _ => ⟨h, fun _ => trivial⟩
  | forActor => exact .bind (within_argumentAs trivial) fun _ => runFor_within (.inl rfl) _
  | forEach =>
    exact .bind (within_argumentAs trivial) fun _ =>
      .bind (within_ofExcept _) fun _ => runFor_within (.inr rfl) _
  | randomInt =>
    have h : IsRandom .randomInt := by decide
    refine .bind (within_argumentAs trivial) fun low =>
      .bind (within_argumentAs trivial) fun high => ?_
    split
    · trivial
    · exact .bind (within_throwDice h) fun _ =>
        .bind (within_setResult fun _ => trivial) fun _ => trivial
  | randomFloat =>
    have h : IsRandom .randomFloat := by decide
    refine .bind (within_argumentAs trivial) fun low =>
      .bind (within_argumentAs trivial) fun high => ?_
    split
    · trivial
    · split
      · exact .bind (within_setResult fun _ => trivial) fun _ => trivial
      · exact .bind (within_throwFloat h) fun _ =>
          .bind (within_setResult fun _ => trivial) fun _ => trivial
  | randomElement =>
    have h : IsRandom .randomElement := by decide
    refine .bind (within_argumentAs trivial) fun items => ?_
    split
    · trivial
    · refine .bind (within_throwDice h) fun n => ?_
      split
      · trivial
      · exact .bind (within_setResult fun _ => trivial) fun _ => trivial
  | selectDistinct =>
    have h : IsRandom .selectDistinct := by decide
    refine .bind (within_argumentAs trivial) fun items =>
      .bind (within_argumentAs trivial) fun count => ?_
    split
    · trivial
    · exact .bind (draw_within h items count) fun _ =>
        .bind (within_setResult fun _ => trivial) fun _ => trivial
  | isEqualTo =>
    exact .bind (within_argument trivial) fun _ => .bind (within_argument trivial) fun _ =>
      .bind (within_setResult fun _ => trivial) fun _ => trivial
  | negate =>
    exact .bind (within_argumentAs trivial) fun _ =>
      .bind (within_setResult fun _ => trivial) fun _ => trivial
  | store =>
    exact .bind (within_argument trivial) fun _ =>
      .bind (within_setResult fun _ => trivial) fun _ => trivial
  | log =>
    exact .bind (within_argumentAs trivial) fun _ => .bind within_context fun c =>
      .bind (within_ofExcept _) fun _ => ⟨rfl, fun _ => trivial⟩

theorem handler_within (b : Builtin) : b.handler.Within b.Performs b.HasBlock b.HasTarget :=
  b.handler_needs.mono (fun _ => Needs.performs) id id

end Builtin

-- ---------------------------------------------------------------------------
-- Repeat
-- ---------------------------------------------------------------------------

theorem exec_leaveBlock (nested : Nested) (past : Nat) (s : State)
    (h : max past s.context.index ≤ s.context.len) :
    ((Builtin.leaveBlock past).bind fun _ => .done Flags.proceed).exec nested s =
      some (.value .proceed, s.moveTo (max past s.context.index)) := by
  simp only [Builtin.leaveBlock, Prog.bind_eq, Prog.context, Prog.bind, Prog.exec, Prog.setIndex,
    Effect.run, Context.setIndex_ok h]
  rfl

/-- What a Repeat reads before it does anything: the number of iterations, the position behind
its block, and the delay. -/
def State.readRepeat (s : State) : Except RuntimeError (Nat × Nat × Nat) × State :=
  match s.argument 0 Value.toCount? with
  | (.error e, s) => (.error e, s)
  | (.ok amount, s) =>
    match s.argument 1 Value.toCount? with
    | (.error e, s) => (.error e, s)
    | (.ok offset, s) =>
      match s.argument 2 Value.toCount? with
      | (.error e, s) => (.error e, s)
      | (.ok delay, s) =>
        let past := s.context.index + 1 + offset
        if s.context.len < past then (.error (s.context.outOfBounds past), s)
        else (.ok (amount, past, delay), s)

def Builtin.repeating (start past amount delay : Nat) : Handler :=
  if delay = 0 ∨ amount = 0 then
    (iterate start past amount).bind fun
      | some flags => .done flags
      | none => (leaveBlock past).bind fun _ => .done .proceed
  else
    (Prog.setIndex past).bind fun _ =>
      (Prog.suspend { start, stop := past, remaining := amount, interval := delay }).bind fun _ =>
        .done .pause

theorem exec_repeat (nested : Nested) (s : State) :
    Builtin.repeatHandler.exec nested s =
      match s.readRepeat with
      | (.error e, t) => some (.error e, t)
      | (.ok (amount, past, delay), t) =>
        (Builtin.repeating (t.context.index + 1) past amount delay).exec nested t := by
  simp only [Builtin.repeatHandler, Prog.bind_eq, Prog.exec_argumentAs_bind, State.readRepeat]
  obtain ⟨x, t⟩ := s.argument 0 Value.toCount?
  cases x with
  | error e => rfl
  | ok amount =>
    simp only
    obtain ⟨x, u⟩ := t.argument 1 Value.toCount?
    cases x with
    | error e => rfl
    | ok offset =>
      simp only
      obtain ⟨x, v⟩ := u.argument 2 Value.toCount?
      cases x with
      | error e => rfl
      | ok delay =>
        simp only [Builtin.blockAfter, Prog.bind_eq, Prog.context, Prog.bind, Prog.exec]
        split
        · rfl
        · simp only [Prog.pure_eq, Prog.bind]
          unfold Builtin.repeating
          split <;> rfl

theorem State.readRepeat_ok (h : State.readRepeat s = (x, t)) :
    t.context = s.context ∧ ∀ amount past delay, x = .ok (amount, past, delay) →
      s.context.index + 1 ≤ past ∧ past ≤ s.context.len := by
  unfold readRepeat at h
  split at h
  · rename_i h₀
    obtain ⟨rfl, rfl⟩ := Prod.mk.inj h
    exact ⟨argument_context h₀, by simp⟩
  · rename_i u h₀
    split at h
    · rename_i h₁
      obtain ⟨rfl, rfl⟩ := Prod.mk.inj h
      exact ⟨(argument_context h₁).trans (argument_context h₀), by simp⟩
    · rename_i v h₁
      split at h
      · rename_i h₂
        obtain ⟨rfl, rfl⟩ := Prod.mk.inj h
        exact ⟨((argument_context h₂).trans (argument_context h₁)).trans (argument_context h₀),
          by simp⟩
      · rename_i w h₂
        have hc := ((argument_context h₂).trans (argument_context h₁)).trans (argument_context h₀)
        simp only at h
        split at h
        · obtain ⟨rfl, rfl⟩ := Prod.mk.inj h
          exact ⟨hc, by simp⟩
        · rename_i hle
          obtain ⟨rfl, rfl⟩ := Prod.mk.inj h
          refine ⟨hc, ?_⟩
          intro amount past delay hx
          simp only [Except.ok.injEq, Prod.mk.injEq] at hx
          rw [← hx.2.1, ← hc]
          omega

-- ---------------------------------------------------------------------------
-- For and ForEach
-- ---------------------------------------------------------------------------

def Context.targetKey (c : Context) : String := "sub_dispatch.target." ++ Number.natText c.index

def Context.overflow (c : Context) : List Token :=
  match c.current with
  | some a => a.overflow
  | none => []

/-- What a For statement runs: the action that is remembered for its position, or else the one
that its name and further words compile to. -/
def Context.readTarget (c : Context) : Reading RuntimeError Action := do
  let v ← c.readSlot 1
  let id ← (⟨v.toText?, []⟩ : Reading RuntimeError String)
  match c.metadata.get? c.targetKey with
  | some m =>
    match Builtin.unpackTarget m with
    | some a => pure a
    | none => .fail (.metadata c.targetKey)
  | none => (Compile.action c.registry c.script id c.overflow).mapError .compile

def Context.remembering (c : Context) (a : Action) : Context :=
  { c with
    metadata := match c.metadata.get? c.targetKey with
      | some _ => c.metadata
      | none => c.metadata.set c.targetKey (.target a) }

def State.having (s : State) (r : Reading ε α) : State :=
  { s with world := s.world.recordCalls r.calls }

theorem Prog.exec_remembered (nested : Nested) (key : String) (pack : α → Memo)
    (unpack : Memo → Option α) (make : Prog α) (s : State) :
    (remembered key pack unpack make).exec nested s =
      match s.context.metadata.get? key with
      | some m =>
        match unpack m with
        | some a => some (.value a, s)
        | none => some (.error (.metadata key), s)
      | none =>
        (make.bind fun a => .perform (.remember key (pack a)) fun _ => .done a).exec nested s := by
  simp only [remembered, bind_eq, context, Prog.bind, exec]
  cases s.context.metadata.get? key with
  | none => rfl
  | some m =>
    simp only
    cases unpack m <;> rfl

theorem Builtin.target_eq : target =
    (Prog.argumentAs 1 Value.toText?).bind fun id => .look fun c =>
      .remembered c.targetKey .target unpackTarget <|
        .perform (.compile id c.overflow) fun r =>
          Prog.ofExcept (r.mapError RuntimeError.compile) :=
  rfl

theorem Builtin.runFor_eq (actors : List ActorId) : runFor actors =
    (Prog.argumentAs 1 Value.toText?).bind fun id => .look fun c =>
      (Prog.remembered c.targetKey .target unpackTarget <|
        .perform (.compile id c.overflow) fun r =>
          Prog.ofExcept (r.mapError RuntimeError.compile)).bind fun a =>
        .each a actors (.done .proceed) := by
  rw [runFor, Prog.bind_eq, target_eq, Prog.bind_assoc]
  rfl

theorem World.recordCalls_append (w : World) (calls more : List ParseCall) :
    w.recordCalls (calls ++ more) = (w.recordCalls calls).recordCalls more := by
  simp [World.recordCalls]

theorem exec_target (nested : Nested) (s : State) :
    Builtin.target.exec nested s =
      match s.context.readTarget.result with
      | .error e => some (.error e, s.having s.context.readTarget)
      | .ok a =>
        some (.value a,
          { s.having s.context.readTarget with context := s.context.remembering a }) := by
  rw [Builtin.target_eq, Prog.exec_argumentAs_bind]
  simp only [State.argument, State.having, Context.readTarget, Context.remembering]
  cases hv : (s.context.readSlot 1).result with
  | error e => simp [Reading.bind, bind, Except.bind, hv]
  | ok v =>
    cases hid : v.toText? with
    | error e => simp [Reading.bind, bind, Except.bind, hv, hid]
    | ok id =>
      simp only [bind, Except.bind, Reading.bind, hv, hid, Prog.exec, Prog.exec_remembered]
      cases hm : s.context.metadata.get? s.context.targetKey with
      | some m =>
        simp only
        cases Builtin.unpackTarget m <;> simp
      | none =>
        simp only [Prog.exec_bind, Prog.exec, Prog.exec_ofExcept, Effect.run, World.perform,
          Reading.result_mapError, Reading.calls_mapError, List.nil_append,
          World.recordCalls_append]
        cases (Compile.action s.context.registry s.context.script id s.context.overflow).result <;>
          rfl

theorem exec_runFor (nested : Nested) (actors : List ActorId) (s : State) :
    (Builtin.runFor actors).exec nested s =
      match s.context.readTarget.result with
      | .error e => some (.error e, s.having s.context.readTarget)
      | .ok a =>
        (nested.each a actors
          { s.having s.context.readTarget with context := s.context.remembering a }).map
          fun t => (.value .proceed, t) := by
  rw [Builtin.runFor, Prog.bind_eq, Prog.exec_bind, exec_target]
  cases s.context.readTarget.result with
  | error e => rfl
  | ok a =>
    simp only [Prog.exec]
    cases nested.each a actors _ <;> rfl

/-- What a For statement reads before it runs anything: whom it is for, and its target. -/
def Context.readVisit (c : Context) (whom : Value → Except RuntimeError (List ActorId)) :
    Reading RuntimeError (List ActorId × Action) := do
  let v ← c.readSlot 0
  let actors ← (⟨whom v, []⟩ : Reading RuntimeError (List ActorId))
  let a ← c.readTarget
  pure (actors, a)

def State.visiting (nested : Nested) (s : State)
    (r : Reading RuntimeError (List ActorId × Action)) : Option (Ending Flags × State) :=
  match r.result with
  | .error e => some (.error e, s.having r)
  | .ok (actors, a) =>
    (nested.each a actors { s.having r with context := s.context.remembering a }).map fun t =>
      (.value .proceed, t)

theorem exec_visit (nested : Nested) (whom : Value → Except RuntimeError (List ActorId))
    (s : State) :
    ((Prog.argumentAs 0 whom).bind Builtin.runFor).exec nested s =
      s.visiting nested (s.context.readVisit whom) := by
  rw [Prog.exec_argumentAs_bind]
  simp only [State.visiting, Context.readVisit, State.argument, State.having]
  cases hv : (s.context.readSlot 0).result with
  | error e => simp [Reading.bind, bind, Except.bind, hv]
  | ok v =>
    cases hw : whom v with
    | error e => simp [Reading.bind, bind, Except.bind, hv, hw]
    | ok actors =>
      simp only [bind, Except.bind, Reading.bind, hv, hw, exec_runFor, State.having]
      cases s.context.readTarget.result <;> simp [World.recordCalls_append]

def Value.oneActor (v : Value) : Except RuntimeError (List ActorId) :=
  v.toActor? >>= fun id => .ok [id]

def Value.manyActors (v : Value) : Except RuntimeError (List ActorId) :=
  v.toItems? >>= Builtin.actorsOf

theorem exec_for (nested : Nested) (s : State) :
    Builtin.forHandler.exec nested s = s.visiting nested (s.context.readVisit Value.oneActor) := by
  rw [← exec_visit, Builtin.forHandler, Prog.bind_eq, Prog.exec_argumentAs_bind,
    Prog.exec_argumentAs_bind]
  simp only [State.argument]
  cases (s.context.readSlot 0).result with
  | error e => rfl
  | ok v => cases v <;> rfl

theorem exec_forEach (nested : Nested) (s : State) :
    Builtin.forEachHandler.exec nested s =
      s.visiting nested (s.context.readVisit Value.manyActors) := by
  rw [← exec_visit, Builtin.forEachHandler, Prog.bind_eq, Prog.exec_argumentAs_bind,
    Prog.exec_argumentAs_bind]
  simp only [State.argument, Prog.bind_eq, Prog.exec_bind, Prog.exec_ofExcept]
  cases (s.context.readSlot 0).result with
  | error e => rfl
  | ok v =>
    cases hitems : v.toItems? with
    | error e => simp [bind, Except.bind, Value.manyActors, hitems]
    | ok items =>
      simp only [bind, Except.bind, Value.manyActors, hitems]
      cases Builtin.actorsOf items <;> rfl

end Playbook
