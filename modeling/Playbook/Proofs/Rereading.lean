import Playbook.Proofs.Disposal
import Playbook.Proofs.Literals
import Playbook.Proofs.Targets

/-!
# Nothing is read twice

Once sources have been compiled, the value of a literal is at hand whenever it is wanted. Texts are
read from then on for variables that hold them and when a For or ForEach statement compiles its
target, which it does once in each context for which that succeeds
(`Session.literals_parsed_once`).

All readings are those of the instants of a history (`parses_threads`). Handlers may pass on the
actions that they find in their contexts, but make none (`Prog.Honest`). Then every action in reach
holds the values of its literals, only targets are compiled, and each is remembered right away
(`Thrifty`). What a context remembers it keeps until it is disposed of.
-/

namespace Playbook

-- ---------------------------------------------------------------------------
-- Readings
-- ---------------------------------------------------------------------------

def Event.parse? : Event → Option ParseCall
  | .parse call => some call
  | _ => none

def World.parses (w : World) : List ParseCall := w.trace.filterMap Event.parse?

namespace Instant

def calls (m : Instant) : List ParseCall :=
  match m.deed with
  | .effect (.readSlot slot) => (m.before.context.readSlot slot).calls
  | .effect (.compile name args) =>
    (Compile.action m.before.context.registry m.before.context.script name args).calls
  | _ => []

end Instant

theorem World.parses_recordCalls (w : World) (calls : List ParseCall) :
    (w.recordCalls calls).parses = calls.reverse ++ w.parses := by
  have hcalls : (calls.reverse.map Event.parse).filterMap Event.parse? = calls.reverse := by
    rw [List.filterMap_map]
    exact List.filterMap_some
  rw [parses, recordCalls, List.filterMap_append, hcalls]
  rfl

theorem World.parses_cancel (w : World) (i : ContextId) : (w.cancel i).parses = w.parses := by
  obtain ⟨_, h⟩ := w.cancel_eq i
  rw [h]
  rfl

theorem World.parses_release (w : World) (q : Sequence) : (w.release q).parses = w.parses := by
  cases q <;> rfl

theorem Effect.run_parses (e : Effect) (s : State) :
    (e.run s).2.world.parses = (Instant.calls ⟨.effect e, s⟩).reverse ++ s.world.parses := by
  cases e with
  | setIndex i =>
    simp only [run]
    split <;> rfl
  | dispose =>
    simp only [run, World.dispose]
    split
    · rfl
    · exact (World.parses_release _ _).trans (World.parses_cancel _ _)
  | cancel => exact World.parses_cancel _ _
  | revoke i =>
    obtain ⟨_, h⟩ := s.world.revoke_eq i
    simp only [run, h]
    rfl
  | readSlot | compile => exact World.parses_recordCalls _ _
  | _ => rfl

theorem parses_threads : Threads fun s ms t => ∀ u, t = some u →
    u.world.parses = (ms.flatMap Instant.calls).reverse ++ s.world.parses where
  stay s u hu := by
    cases hu
    rfl
  cut _ _ _ _ _ hu := by cases hu
  append s ms t ms' u h h' v hv := by
    rw [h' v hv, h t rfl, List.flatMap_append, List.reverse_append, List.append_assoc]
  effect e s u hu := by
    cases hu
    rw [e.run_parses, List.flatMap_singleton]
  enter s a _ u hu := by
    cases hu
    rfl
  sync s u hu := by
    cases hu
    rfl
  log s entry u hu := by
    cases hu
    rfl
  child s target ms t h _ u hu := by
    obtain ⟨v, hv, rfl⟩ := Option.map_eq_some_iff.mp hu
    exact h v hv

theorem World.Idles.parses (h : World.Idles w w') : w'.parses = w.parses := by
  cases h with
  | log | rent => rfl
  | cancel i => exact w.parses_cancel i
  | release q => exact w.parses_release q

theorem Unfolds.parses (h : Unfolds handlers rules cs w ms r) (hr : ¬ rules.compiles) :
    ∀ ds w', r = some (ds, w') →
      w'.parses = (ms.flatMap Instant.calls).reverse ++ w.parses := by
  induction h with
  | rest =>
    rintro ds w' ⟨⟩
    rfl
  | perm _ _ ih | leave _ _ ih | resume _ ih | make _ _ _ _ ih => exact ih
  | idle hw _ ih =>
    intro ds w' hr
    rw [ih ds w' hr, hw.parses]
  | compile _ hc | child _ _ hc => exact absurd hc hr
  | act u _ ht _ ih =>
    intro ds w' hr
    rw [ih ds w' hr, u.follows parses_threads _ _ ht, List.flatMap_append, List.reverse_append,
      List.append_assoc]
  | cut =>
    rintro ds w' ⟨⟩

-- ---------------------------------------------------------------------------
-- Actions in reach of a context
-- ---------------------------------------------------------------------------

/-- The actions that a handler can find in its context. -/
inductive Context.Holds (c : Context) : Action → Prop
  | sequence : a ∈ c.actions → Holds c a
  | current : c.current = some a → Holds c a
  | previous : c.previous = some a → Holds c a
  | next : c.next = some a → Holds c a
  | remembered : c.metadata.get? key = some (.target a) → Holds c a

/-- In all actions in reach the literals hold what their texts read as, and a context that has been
disposed of has no actions left. -/
structure Context.Primed (c : Context) : Prop where
  held : ∀ a, c.Holds a → a.Primed
  gone : c.disposed = true → c.actions = []

structure State.Primed (s : State) : Prop where
  context : s.context.Primed
  clean : s.world.Clean

namespace Context.Primed

variable {c d : Context}

theorem keep (h : c.Primed) (hsequence : d.sequence = c.sequence) (hcurrent : d.current = c.current)
    (hprevious : d.previous = c.previous) (hnext : d.next = c.next)
    (hmetadata : d.metadata = c.metadata) (hdisposed : d.disposed = c.disposed) : d.Primed := by
  have hactions : d.actions = c.actions := congrArg Sequence.actions hsequence
  refine ⟨fun a ha => h.held a ?_, fun hd => hactions.trans (h.gone (hdisposed ▸ hd))⟩
  cases ha with
  | sequence ha => exact .sequence (hactions ▸ ha)
  | current ha => exact .current (hcurrent ▸ ha)
  | previous ha => exact .previous (hprevious ▸ ha)
  | next ha => exact .next (hnext ▸ ha)
  | remembered ha => exact .remembered (hmetadata ▸ ha)

theorem sync (h : c.Primed) : c.sync.Primed := by
  refine ⟨fun a ha => h.held a ?_, h.gone⟩
  cases ha with
  | sequence ha => exact .sequence ha
  | current ha | next ha => exact .sequence (List.mem_of_getElem? ha)
  | previous ha =>
    simp only [Context.sync] at ha
    split at ha
    · cases ha
    · exact .sequence (List.mem_of_getElem? ha)
  | remembered ha => exact .remembered ha

theorem reset (h : c.Primed) (actor : Option ActorId) : (c.reset actor).Primed :=
  sync (h.keep (d := { c with index := 0, actor, memory := .empty, continuation := none })
    rfl rfl rfl rfl rfl rfl)

theorem remember (h : c.Primed) (key : String) {m : Memo} (hm : ∀ a, m = .target a → a.Primed) :
    Primed { c with metadata := c.metadata.set key m } := by
  refine ⟨fun a ha => ?_, h.gone⟩
  cases ha with
  | sequence ha => exact h.held a (.sequence ha)
  | current ha => exact h.held a (.current ha)
  | previous ha => exact h.held a (.previous ha)
  | next ha => exact h.held a (.next ha)
  | remembered ha =>
    simp only [Table.get?_set] at ha
    split at ha
    · exact hm a (Option.some.inj ha)
    · exact h.held a (.remembered ha)

theorem of_sequence (h : ∀ a ∈ c.actions, a.Primed) (hcurrent : c.current = none)
    (hprevious : c.previous = none) (hnext : c.next = none) (hmetadata : c.metadata = .empty)
    (hgone : c.disposed = true → c.actions = []) : c.Primed := by
  refine ⟨fun a ha => ?_, hgone⟩
  cases ha with
  | sequence ha => exact h a ha
  | current ha => cases hcurrent.symm.trans ha
  | previous ha => cases hprevious.symm.trans ha
  | next ha => cases hnext.symm.trans ha
  | remembered ha =>
    rw [hmetadata] at ha
    cases ha

end Context.Primed

-- ---------------------------------------------------------------------------
-- Programs that make no actions
-- ---------------------------------------------------------------------------

def Effect.Honest (known : Action → Prop) : Effect → Prop
  | .compile _ _ => False
  | .remember _ (.target a) => known a
  | _ => True

/-- The program compiles nothing, and all actions that it remembers or runs are known or have been
found in the context. -/
def Prog.Honest : Prog α → (Action → Prop) → Prop
  | .done _, _ | .fail _, _ | .panic _, _ => True
  | .look next, known => ∀ c, (next c).Honest fun a => known a ∨ c.Holds a
  | .perform e next, known => e.Honest known ∧ ∀ r, (next r).Honest known
  | .block _ _ next, known => ∀ r, (next r).Honest known
  | .each target _ next, known => known target ∧ next.Honest known

def Use.Honest : Use → Prop
  | .effect e => e.Honest fun _ => False
  | .perform p => p.Honest fun _ => False
  | _ => True

theorem Effect.honest_of {e : Effect} (hcompile : ∀ name args, e ≠ .compile name args)
    (hremember : ∀ key a, e ≠ .remember key (.target a)) : e.Honest known := by
  unfold Honest
  split
  · exact hcompile _ _ rfl
  · exact absurd rfl (hremember _ _)
  · trivial

theorem Effect.Honest.mono {e : Effect} (h : e.Honest known) (hknown : ∀ a, known a → more a) :
    e.Honest more := by
  cases e with
  | remember key m =>
    cases m with
    | target a => exact hknown a h
    | _ => trivial
  | compile => exact h
  | _ => trivial

theorem Effect.run_primed {e : Effect} (he : e.Honest Action.Primed) {s : State}
    (hs : s.Primed) : (e.run s).2.Primed := by
  refine ⟨?_, e.run_clean hs.clean⟩
  have hc := hs.context
  cases e with
  | setIndex i =>
    obtain ⟨j, hj⟩ := run_setIndex i s
    rw [hj]
    exact hc.keep rfl rfl rfl rfl rfl rfl
  | reset actor => exact hc.reset actor
  | remember key m =>
    refine hc.remember key fun a ha => ?_
    subst ha
    exact he
  | dispose =>
    simp only [run, World.dispose]
    split
    · exact hc
    · exact .of_sequence (by simp [Context.released, Context.actions, Sequence.actions]) rfl rfl rfl
        rfl fun _ => rfl
  | compile => exact hc
  | _ => exact hc.keep rfl rfl rfl rfl rfl rfl

theorem State.Primed.entered {s : State} (hs : s.Primed) : s.entered.Primed :=
  ⟨hs.context.sync, hs.clean⟩

theorem State.Primed.forTarget {s : State} (hs : s.Primed) {target : Action}
    (ht : target.Primed) : (s.forTarget target).Primed := by
  refine ⟨?_, hs.clean.rent.2⟩
  rw [forTarget_context hs.clean]
  exact .of_sequence (by simpa [Context.child, Context.actions, Sequence.actions, Context.fresh]
    using ht) rfl rfl rfl rfl fun hd => by cases hd

-- ---------------------------------------------------------------------------
-- Targets
-- ---------------------------------------------------------------------------

theorem State.argument_text {s : State} (h : s.argument slot Value.toText? = (.ok name, t)) :
    (s.context.readSlot slot).result = .ok (.str name) := by
  have hresult : (s.context.readSlot slot).result >>= Value.toText? = .ok name :=
    congrArg Prod.fst h
  cases hv : (s.context.readSlot slot).result with
  | error e =>
    rw [hv] at hresult
    cases hresult
  | ok v =>
    rw [hv] at hresult
    rw [Value.toText?_ok_iff.mp hresult]

/-- The current action is a For or ForEach statement that has no target yet, and these are the name
and the words of its target. -/
structure Context.Resolves (c : Context) (name : String) (args : List Token) : Prop where
  statement : ∃ a b, c.current = some a ∧ a.definition.behaviour = .builtin b ∧ b.HasTarget ∧
    a.overflow = args
  named : (c.readSlot 1).result = .ok (.str name)
  missing : c.metadata.get? c.targetKey = none
  alive : c.disposed = false

namespace Instant

def target? (m : Instant) : Option Action :=
  match m.deed with
  | .effect (.compile name args) =>
    (Compile.action m.before.context.registry m.before.context.script name args).result.toOption
  | _ => none

structure Proper (m : Instant) : Prop where
  primed : m.before.context.Primed
  resolves : ∀ name args, m.deed = .effect (.compile name args) →
    m.before.context.Resolves name args

end Instant

/-- A target that has been compiled is remembered right away, for its position. -/
inductive Noted : List Instant → Prop
  | nil : Noted []
  | other : m.target? = none → Noted ms → Noted (m :: ms)
  | target : r.deed = .effect (.remember m.before.context.targetKey (.target a)) →
      r.before.context = m.before.context → Noted ms → Noted (m :: r :: ms)

theorem Noted.append (h : Noted ms) (h' : Noted ms') : Noted (ms ++ ms') := by
  induction h with
  | nil => exact h'
  | other hm _ ih => exact .other hm ih
  | target hr hcontext _ ih => exact .target hr hcontext ih

structure Thrifty (ms : List Instant) (t : Option State) : Prop where
  proper : ∀ m ∈ ms, m.Proper
  noted : Noted ms
  ends : ∀ u, t = some u → u.Primed

theorem Thrifty.silent (ht : t.Primed) : Thrifty [] (some t) :=
  ⟨by simp, .nil, by rintro u ⟨⟩; exact ht⟩

theorem Thrifty.append (h : Thrifty ms (some t)) (h' : Thrifty ms' u) : Thrifty (ms ++ ms') u where
  proper := List.forall_mem_append.mpr ⟨h.proper, h'.proper⟩
  noted := h.noted.append h'.noted
  ends := h'.ends

theorem Thrifty.single {m : Instant} (hm : m.before.Primed)
    (hdeed : ∀ name args, m.deed ≠ .effect (.compile name args)) (ht : t.Primed) :
    Thrifty [m] (some t) := by
  refine ⟨fun m' hm' => ?_, .other ?_ .nil, by rintro u ⟨⟩; exact ht⟩
  · obtain rfl := List.mem_singleton.mp hm'
    exact ⟨hm.context, fun name args h => absurd h (hdeed name args)⟩
  · unfold Instant.target?
    split
    · rename_i name args h
      exact absurd h (hdeed name args)
    · rfl

theorem thrifty_composes : Composes fun s ms t => s.Primed → Thrifty ms t where
  stay s hs := .silent hs
  cut s ms t h hs := ⟨(h hs).proper, (h hs).noted, by rintro u ⟨⟩⟩
  append s ms t ms' u h h' hs := (h hs).append (h' ((h hs).ends t rfl))

theorem Effect.thrifty {e : Effect} (he : e.Honest Action.Primed) {s : State} (hs : s.Primed) :
    Thrifty [⟨.effect e, s⟩] (some (e.run s).2) := by
  refine .single hs ?_ (Effect.run_primed he hs)
  rintro name args ⟨⟩
  exact he

section
variable {s : State} (hs : s.Primed) (hresolves : s.context.Resolves name args)
include hs hresolves

theorem Instant.compile_proper : Proper ⟨.effect (.compile name args), s⟩ := by
  refine ⟨hs.context, ?_⟩
  rintro name' args' ⟨⟩
  exact hresolves

theorem Thrifty.unresolved
    (h : (Compile.action s.context.registry s.context.script name args).result = .error e) :
    Thrifty [⟨.effect (.compile name args), s⟩]
      (some (Effect.run (.compile name args) s).2) := by
  refine ⟨?_, .other ?_ .nil, ?_⟩
  · simpa using Instant.compile_proper hs hresolves
  · simp [Instant.target?, h, Except.toOption]
  · rintro u ⟨⟩
    exact ⟨hs.context, Effect.run_clean _ hs.clean⟩

theorem Thrifty.resolved
    (h : (Compile.action s.context.registry s.context.script name args).result = .ok a) :
    let t := (Effect.run (.compile name args) s).2
    Thrifty [⟨.effect (.compile name args), s⟩,
        ⟨.effect (.remember s.context.targetKey (.target a)), t⟩]
      (some (Effect.run (.remember s.context.targetKey (.target a)) t).2) := by
  intro t
  have ht : t.Primed := ⟨hs.context, Effect.run_clean _ hs.clean⟩
  have hremember : Thrifty [⟨.effect (.remember s.context.targetKey (.target a)), t⟩]
      (some (Effect.run (.remember s.context.targetKey (.target a)) t).2) :=
    Effect.thrifty (e := .remember s.context.targetKey (.target a)) (Compile.action_primed h) ht
  exact ⟨List.forall_mem_cons.mpr ⟨Instant.compile_proper hs hresolves, hremember.proper⟩,
    .target rfl rfl .nil, hremember.ends⟩

end

section
-- what is nested keeps to it, with targets whose literals hold their values
variable {nested : Nested} {inner : NestedTrail}
  (hblock : ∀ start stop s, s.Primed →
    Thrifty (inner.block start stop s) (ended (nested.block start stop s)))
  (heach : ∀ target actors s, target.Primed → s.Primed →
    Thrifty (inner.each target actors s) (nested.each target actors s))
include hblock heach

theorem Prog.Honest.thrifty {p : Prog α} {known : Action → Prop} (hp : p.Honest known)
    (hknown : ∀ a, known a → a.Primed) {s : State} (hs : s.Primed) :
    Thrifty (p.trail nested inner s) (ended (p.exec nested s)) := by
  -- what is known grows with every look at the context, all of whose actions are primed
  induction p generalizing known s with
  | done | fail | panic => exact .silent hs
  | look next ih =>
    refine ih s.context (hp s.context) (fun a ha => ?_) hs
    rcases ha with ha | ha
    · exact hknown a ha
    · exact hs.context.held a ha
  | perform e next ih =>
    have hfirst := Effect.thrifty (hp.1.mono hknown) hs
    exact hfirst.append (ih _ (hp.2 _) hknown (hfirst.ends _ rfl))
  | block start stop next ih =>
    have hfirst := hblock start stop s hs
    simp only [trail, exec]
    cases hb : nested.block start stop s with
    | none => simpa [hb] using hfirst
    | some r =>
      rw [hb] at hfirst
      exact hfirst.append (ih _ (hp _) hknown (hfirst.ends _ rfl))
  | each target actors next ih =>
    have hfirst := heach target actors s (hknown target hp.1) hs
    simp only [trail, exec]
    cases hb : nested.each target actors s with
    | none => simpa [hb] using hfirst
    | some t =>
      rw [hb] at hfirst
      exact hfirst.append (ih hp.2 hknown (hfirst.ends _ rfl))

theorem runFor_thrifty (actors : List ActorId) {s : State} (hs : s.Primed)
    (ha : s.context.current = some a) (hb : a.definition.behaviour = .builtin b)
    (htarget : b.HasTarget) (halive : s.context.disposed = false) :
    Thrifty ((Builtin.runFor actors).trail nested inner s)
      (ended ((Builtin.runFor actors).exec nested s)) := by
  have hrun (a : Action) (t : State) (hprimed : a.Primed) (ht : t.Primed) :
      Thrifty ((Prog.each a actors (.done Flags.proceed)).trail nested inner t)
        (ended ((Prog.each a actors (.done Flags.proceed)).exec nested t)) :=
    Prog.Honest.thrifty (p := .each a actors (.done Flags.proceed)) hblock heach
      ⟨hprimed, trivial⟩ (fun _ h => h) ht
  rw [Builtin.runFor_eq]
  refine thrifty_composes.argumentAs (Effect.thrifty (e := .readSlot 1) trivial)
    (fun name t hname ht => ?_) hs
  have hcontext := State.argument_context hname
  simp only [Prog.remembered, Prog.context, Prog.bind_eq, Prog.bind, Prog.trail, Prog.exec]
  -- a target that is remembered is in reach of the context; any other is compiled, and if that
  -- succeeds it is remembered before anything else happens
  cases hm : t.context.metadata.get? t.context.targetKey with
  | some m =>
    simp only
    cases m with
    | target a => exact hrun a t (ht.context.held a (.remembered hm)) ht
    | _ => exact .silent ht
  | none =>
    have hresolves : t.context.Resolves name t.context.overflow := by
      refine ⟨⟨a, b, hcontext ▸ ha, hb, htarget, ?_⟩, ?_, hm, hcontext ▸ halive⟩
      · simp [Context.overflow, hcontext, ha]
      · rw [hcontext]
        exact State.argument_text hname
    simp only [Prog.bind, Prog.trail, Prog.exec, Effect.run, World.perform]
    cases hresult : (Compile.action t.context.registry t.context.script name
        t.context.overflow).result with
    | error e => exact .unresolved ht hresolves hresult
    | ok a =>
      have hprimed := Compile.action_primed hresult
      have hfirst := Thrifty.resolved ht hresolves hresult
      exact hfirst.append (hrun a _ hprimed (hfirst.ends _ rfl))

theorem Builtin.handler_thrifty {s : State} (hs : s.Primed) (ha : s.context.current = some a)
    (hb : a.definition.behaviour = .builtin b) (halive : s.context.disposed = false) :
    Thrifty (b.handler.trail nested inner s) (ended (b.handler.exec nested s)) := by
  by_cases htarget : b.HasTarget
  · have hnext (actors : List ActorId) (t : State) (ht : t.Primed)
        (hcontext : t.context = s.context) :
        Thrifty ((runFor actors).trail nested inner t)
          (ended ((runFor actors).exec nested t)) :=
      runFor_thrifty hblock heach actors ht (hcontext ▸ ha) hb htarget (hcontext ▸ halive)
    rcases htarget with rfl | rfl
    · exact thrifty_composes.argumentAs (Effect.thrifty (e := .readSlot 0) trivial)
        (fun id t hid ht => hnext [id] t ht (State.argument_context hid)) hs
    · refine thrifty_composes.argumentAs (f := fun items => (Prog.ofExcept (actorsOf items)).bind
        runFor) (Effect.thrifty (e := .readSlot 0) trivial) (fun items t hitems ht => ?_) hs
      cases actorsOf items with
      | error e => exact .silent ht
      | ok actors => exact hnext actors t ht (State.argument_context hitems)
  · refine thrifty_composes.exec nested inner b.handler_needs (fun e s he hs => ?_)
      (fun _ => hblock) (fun h => absurd h htarget) s hs
    refine Effect.thrifty (Effect.honest_of ?_ ?_) hs
    · rintro name args rfl
      exact htarget he
    · rintro key a rfl
      exact htarget he.1

end

/-- Runs whose handlers make no actions compile nothing but targets, and those once. -/
theorem thrifty_weaves (hhandlers : ∀ name, (handlers name).Honest fun _ => False) :
    Weaves handlers Action.Primed (fun s ms t => s.Primed → Thrifty ms t)
      (fun s ms t => s.Primed → Thrifty ms t) where
  toComposes := thrifty_composes
  handler nested inner hblock heach s a ha hs := by
    have hentered := Thrifty.single (m := ⟨.enter, s⟩) hs (by rintro _ _ ⟨⟩) hs.entered
    -- a context that has been disposed of has no action to enter
    have halive : s.context.disposed = false := by
      refine Bool.eq_false_iff.mpr fun hd => ?_
      rw [hs.context.gone hd] at ha
      cases ha
    refine hentered.append ?_
    cases hb : a.definition.behaviour with
    | builtin b => exact b.handler_thrifty hblock heach hs.entered ha hb halive
    | host name => exact (hhandlers name).thrifty hblock heach (fun _ h => h.elim) hs.entered
    | idle => exact .silent hs.entered
  setIndex i s hs := Effect.thrifty (e := .setIndex i) trivial hs
  sync s hs := .silent ⟨hs.context.sync, hs.clean⟩
  whole _ _ _ h := h
  join := thrifty_composes.append
  own s e he hs := by
    refine Effect.thrifty (Effect.honest_of ?_ ?_) hs <;> cases he <;> simp
  note s parent actor outcome hs := .silent ⟨hs.context, hs.clean.logged _⟩
  child s target ms t ht h _ hs := by
    obtain ⟨hproper, hnoted, hends⟩ := h (hs.forTarget ht)
    refine ⟨hproper, hnoted, fun u hu => ?_⟩
    obtain ⟨v, rfl, rfl⟩ := Option.map_eq_some_iff.mp hu
    exact ⟨hs.context, (hends v rfl).clean⟩

theorem Use.thrifty (hhandlers : ∀ name, (handlers name).Honest fun _ => False) {u : Use}
    (hu : u.Honest) {s : State} (hs : s.Primed) (ht : u.result handlers n s = t) :
    Thrifty (u.trail handlers n s) t := by
  subst ht
  have hweaves := thrifty_weaves hhandlers
  have hstep := hweaves.step n
  cases u with
  | effect e => exact Effect.thrifty (hu.mono fun _ h => h.elim) hs
  | perform p =>
    rw [result_perform]
    exact Prog.Honest.thrifty (hweaves.block hstep n)
      (fun target actors s ht => hweaves.each hstep n target actors s ht) hu (fun _ h => h.elim) hs
  | run =>
    rw [result_run]
    exact hweaves.drive hstep n true s hs
  | iterate =>
    rw [result_iterate]
    exact hweaves.drive hstep n false s hs
  | block start stop =>
    rw [result_block]
    exact hweaves.block hstep n start stop s hs

-- ---------------------------------------------------------------------------
-- Histories
-- ---------------------------------------------------------------------------

def Rules.honest : Rules := ⟨Use.Honest, fun script => ∀ a ∈ script.actions, a.Primed, False⟩

theorem World.Idles.clean (h : World.Idles w w') (hw : w.Clean) : w'.Clean := by
  cases h with
  | log => exact hw
  | cancel i =>
    obtain ⟨_, h⟩ := w.cancel_eq i
    rw [h]
    exact hw
  | release q => exact hw.release q
  | rent => exact hw.rent.2

theorem Unfolds.thrifty (hhandlers : ∀ name, (handlers name).Honest fun _ => False)
    (h : Unfolds handlers .honest cs w ms r) (hw : w.Clean) (hcs : ∀ c ∈ cs, c.Primed) :
    (∀ m ∈ ms, m.Proper) ∧ Noted ms := by
  induction h with
  | rest => exact ⟨by simp, .nil⟩
  | perm hp _ ih => exact ih hw fun c hc => hcs c (hp.mem_iff.mpr hc)
  | leave hl _ ih => exact ih hw fun c hc => hcs c (hl.subset hc)
  | idle hi _ ih => exact ih (hi.clean hw) hcs
  | compile _ hc | child _ _ hc => exact hc.elim
  | make script actor hs _ ih =>
    refine ih hw (List.forall_mem_cons.mpr ⟨?_, hcs⟩)
    exact .of_sequence hs rfl rfl rfl rfl fun hd => by cases hd
  | resume _ ih =>
    obtain ⟨hc, hcs⟩ := List.forall_mem_cons.mp hcs
    exact ih hw (List.forall_mem_cons.mpr ⟨hc.keep rfl rfl rfl rfl rfl rfl, hcs⟩)
  | act u hu ht _ ih =>
    obtain ⟨hc, hcs⟩ := List.forall_mem_cons.mp hcs
    obtain ⟨hproper, hnoted, hends⟩ := Use.thrifty hhandlers hu ⟨hc, hw⟩ ht
    have hend := hends _ rfl
    obtain ⟨hproper', hnoted'⟩ := ih hend.clean (List.forall_mem_cons.mpr ⟨hend.context, hcs⟩)
    exact ⟨List.forall_mem_append.mpr ⟨hproper, hproper'⟩, hnoted.append hnoted'⟩
  | cut u hu ht =>
    obtain ⟨hc, -⟩ := List.forall_mem_cons.mp hcs
    obtain ⟨hproper, hnoted, -⟩ := Use.thrifty hhandlers hu ⟨hc, hw⟩ ht
    exact ⟨hproper, hnoted⟩

-- ---------------------------------------------------------------------------
-- Reads of arguments
-- ---------------------------------------------------------------------------

/-- The type says nothing of its own about the values of variables. -/
def ParamType.Plain : ParamType → Prop
  | .custom r => r.accept = Reader.defaultAccept r.name r.parse
  | _ => True

namespace Instant

def slot? (m : Instant) : Option Slot :=
  match m.deed with
  | .effect (.readSlot k) => m.before.context.current.bind fun a => a.slots[k]?
  | _ => none

def read? (m : Instant) : Option (Except RuntimeError Value) :=
  match m.deed with
  | .effect (.readSlot k) => some (m.before.context.readSlot k).result
  | _ => none

theorem slot?_eq_some {m : Instant} (h : m.slot? = some slot) :
    ∃ k a, m.deed = .effect (.readSlot k) ∧ m.before.context.current = some a ∧
      a.slots[k]? = some slot := by
  unfold slot? at h
  split at h
  · rename_i k hdeed
    obtain ⟨a, ha, hslot⟩ := Option.bind_eq_some_iff.mp h
    exact ⟨k, a, hdeed, ha, hslot⟩
  · cases h

theorem slot?_read {m : Instant} (h : m.slot? = some slot) :
    m.calls = (slot.read m.before.context.lookup).calls ∧
      m.read? = some (slot.read m.before.context.lookup).result := by
  obtain ⟨k, a, hdeed, ha, hslot⟩ := slot?_eq_some h
  simp [calls, read?, hdeed, Context.readSlot, ha, hslot]

theorem Proper.slot_primed {m : Instant} (hm : m.Proper) (h : m.slot? = some slot) :
    slot.Primed := by
  obtain ⟨k, a, -, ha, hslot⟩ := slot?_eq_some h
  exact hm.primed.held a (.current ha) slot (List.mem_of_getElem? hslot)

theorem Proper.literal {m : Instant} (hm : m.Proper)
    (h : m.slot? = some (.literal type text cached)) :
    ∃ v, cached = some v ∧ type.parse text = .ok v ∧ m.calls = [] ∧ m.read? = some (.ok v) := by
  obtain ⟨v, hcached, hparse, hread⟩ :=
    (hm.slot_primed h).read_literal m.before.context.lookup
  obtain ⟨hcalls, hvalue⟩ := slot?_read h
  rw [hread] at hcalls hvalue
  exact ⟨v, hcached, hparse, hcalls, hvalue⟩

def resolves (i : ContextId) (p : Nat) (m : Instant) : Bool :=
  match m.deed with
  | .effect (.compile _ _) => m.whose == i && m.before.context.index == p
  | _ => false

end Instant

/-- A statement whose target is remembered has no target to be compiled from then on. -/
theorem Instant.Proper.unresolved {m r m' : Instant} (hm' : m'.Proper)
    (hr : r.deed = .effect (.remember m.before.context.targetKey (.target a)))
    (hcontext : r.before.context = m.before.context) (holder : r.after.Older m'.before)
    (hwhose : m'.whose = m.whose) (hindex : m'.before.context.index = m.before.context.index) :
    m'.deed ≠ .effect (.compile name args) := by
  intro hdeed
  have hresolves := hm'.resolves name args hdeed
  have hkey : m.before.context.targetKey = m'.before.context.targetKey :=
    congrArg targetKeyAt hindex.symm
  have hid : m'.before.context.id = r.after.context.id := by
    rw [r.after_id, Instant.whose, hcontext]
    exact hwhose
  have hremembered :
      (r.after.context.metadata.get? m'.before.context.targetKey).isSome = true := by
    simp [Instant.after, hr, Effect.run, Table.get?_set, hkey]
  have hstill := (holder.context hid).remembers _ hremembered hresolves.alive
  rw [hresolves.missing] at hstill
  cases hstill

def ScriptUnit.Compiled (u : ScriptUnit) : Prop :=
  ∃ r unit source, (compile r unit source).result = .ok u

namespace Session

end Session

end Playbook
