import Playbook.Proofs.Builtins

/-!
# What runs leave behind in the world

A relation between states that every single thing in a run keeps is kept by the run,
through blocks, sub-dispatch and whatever the handlers do (`Pervades.step`,
`Pervades.block`). The one used here says how a run changes the world (`State.Grows`):
identities are not given out again, a cancelled context stays cancelled, the trace only
gets longer, and the handlers that were entered belong to the context that runs or to
one that was made meanwhile. A run also cancels no other context than these, unless a
handler of the host gets hold of it (`spares_pervades`).
-/

namespace Playbook

-- ---------------------------------------------------------------------------
-- Relations along runs
-- ---------------------------------------------------------------------------

def Handlers.Revokes (handlers : Handlers) (i : ContextId) : Prop :=
  ∃ name, ¬ (handlers name).Within (· ≠ .revoke i) True True

def Effect.Occurs (handlers : Handlers) (e : Effect) : Prop :=
  ∀ i, e = .revoke i → handlers.Revokes i

theorem Behaviour.handler_occurs (b : Behaviour) (handlers : Handlers) :
    (b.handler handlers).Within (Effect.Occurs handlers) True True := by
  cases b with
  | builtin b =>
    refine b.handler_needs.mono (fun e he i hi => ?_) (fun _ => trivial) fun _ => trivial
    subst hi
    exact he.elim
  | host name =>
    refine .all fun i => ?_
    by_cases hi : handlers.Revokes i
    · exact (Prog.within_true _).mono (fun _ _ _ => hi) id id
    · have hspared := Classical.not_not.mp (not_exists.mp hi name)
      exact hspared.mono (fun e hne he => absurd he hne) id id
  | idle => trivial

/-- A relation that composes and that everything in a run keeps. A sub-context starts
from the state in which it was made, and gives its world back. -/
structure Pervades (handlers : Handlers) (P : State → State → Prop) : Prop where
  refl : ∀ s, P s s
  trans : ∀ s t u, P s t → P t u → P s u
  effect : ∀ e s, e.Occurs handlers → P s (Effect.run e s).2
  enter : ∀ s, P s s.entered
  sync : ∀ s, P s { s with context := s.context.sync }
  child : ∀ s t items w target, s.world.rent = (items, w) →
    P { context := s.context.child w.newContext.1 (items ++ [target]), world := w.newContext.2 } t →
    P s { context := s.context, world := t.world }

section
variable {handlers : Handlers} {P : State → State → Prop} {f : Stepper}

theorem Pervades.framed (h : Pervades handlers P) : Framed P where
  refl := h.refl
  trans := h.trans
  move s i c hc := by
    have he := h.effect (.setIndex i) s (by simp [Effect.Occurs])
    simpa only [Effect.run, hc] using he

theorem Pervades.log (h : Pervades handlers P) (s : State) (entry : LogEntry) :
    P s { s with world := s.world.log entry } :=
  h.effect (.log entry) s (by simp [Effect.Occurs])

theorem Pervades.dispose (h : Pervades handlers P) (s : State) : P s s.dispose :=
  h.effect .dispose s (by simp [Effect.Occurs])

theorem Pervades.driveLoop (h : Pervades handlers P) (hf : ∀ s x t, f s = some (x, t) → P s t)
    (hd : Playbook.driveLoop f release n s = some (outcome, t)) : P s t := by
  induction n generalizing s with
  | zero => simp [Playbook.driveLoop] at hd
  | succ n ih =>
    simp only [Playbook.driveLoop] at hd
    split at hd
    · simp only [Option.some.injEq, Prod.mk.injEq] at hd
      exact hd.2 ▸ h.log _ _
    · split at hd
      · simp at hd
      · rename_i e u hs
        simp only [Option.some.injEq, Prod.mk.injEq] at hd
        refine h.trans _ _ _ (hf _ _ _ hs) ?_
        rw [← hd.2]
        split
        · exact h.trans _ _ _ (h.log _ _) (h.dispose _)
        · exact h.log _ _
      · rename_i flags u hs
        refine h.trans _ _ _ (hf _ _ _ hs) ?_
        split at hd
        · split at hd
          · simp only [Option.some.injEq, Prod.mk.injEq] at hd
            exact hd.2 ▸ h.dispose _
          · split at hd <;>
              (simp only [Option.some.injEq, Prod.mk.injEq] at hd; exact hd.2 ▸ h.refl _)
        · exact ih hd

theorem Pervades.driveWith (h : Pervades handlers P) (hf : ∀ s x t, f s = some (x, t) → P s t)
    (hd : Playbook.driveWith f n release s = some (outcome, t)) : P s t := by
  unfold Playbook.driveWith at hd
  split at hd
  · simp only [Option.some.injEq, Prod.mk.injEq] at hd
    exact hd.2 ▸ h.refl s
  · exact h.driveLoop hf hd

theorem Pervades.visitAll (h : Pervades handlers P) (hf : ∀ s x t, f s = some (x, t) → P s t)
    (hv : Playbook.visitAll f n parent actors s = some t) : P s t := by
  induction actors generalizing s with
  | nil =>
    simp only [Playbook.visitAll, Option.some.injEq] at hv
    exact hv ▸ h.refl s
  | cons actor actors ih =>
    simp only [Playbook.visitAll] at hv
    split at hv
    · simp at hv
    · rename_i outcome u hd
      refine h.trans _ _ _ (h.effect (.reset (some actor)) s (by simp [Effect.Occurs])) ?_
      refine h.trans _ _ _ (h.driveWith hf hd) ?_
      refine h.trans _ _ _ ?_ (ih hv)
      split
      · exact h.log _ _
      · exact h.refl _

theorem Pervades.eachWith (h : Pervades handlers P) (hf : ∀ s x t, f s = some (x, t) → P s t)
    (he : Playbook.eachWith f n target actors s = some t) : P s t := by
  unfold Playbook.eachWith at he
  cases hr : s.world.rent with
  | mk items w =>
    simp only [hr] at he
    split at he
    · simp at he
    · rename_i u hu
      simp only [Option.some.injEq] at he
      subst he
      exact h.child s _ items w target hr (h.trans _ _ _ (h.visitAll hf hu) (h.dispose u))

theorem Pervades.step (h : Pervades handlers P) (hs : Playbook.step handlers n s = some (x, t)) :
    P s t := by
  induction n generalizing s x t with
  | zero => simp [Playbook.step] at hs
  | succ n ih =>
    simp only [Playbook.step] at hs
    cases ha : s.context.actions[s.context.index]? with
    | none =>
      rw [dispatch_none ha] at hs
      simp only [Option.some.injEq, Prod.mk.injEq] at hs
      exact hs.2 ▸ h.sync s
    | some a =>
      rw [dispatch_some ha] at hs
      split at hs
      · simp at hs
      · rename_i y u hy
        have hrun := Prog.exec_rel (a.definition.behaviour.handler_occurs handlers) h.refl h.trans
          (fun e s he => h.effect e s he)
          (fun _ _ _ _ _ _ hb => blockWith_rel h.framed (fun _ _ _ => ih) hb)
          (fun _ _ _ _ _ he => h.eachWith (fun _ _ _ => ih) he) hy
        refine h.trans _ _ _ (h.enter s) (h.trans _ _ _ hrun ?_)
        exact answer_rel h.framed (Option.some.inj hs)

theorem Pervades.drive (h : Pervades handlers P)
    (hd : Playbook.driveWith (Playbook.step handlers m) n release s = some (outcome, t)) : P s t :=
  h.driveWith (fun _ _ _ => h.step) hd

theorem Pervades.visits (h : Pervades handlers P)
    (hv : Playbook.visitAll (Playbook.step handlers m) n parent actors s = some t) : P s t :=
  h.visitAll (fun _ _ _ => h.step) hv

theorem Pervades.block (h : Pervades handlers P)
    (hb : runBlock handlers n start stop s = some (b, t)) : P s t :=
  blockWith_rel h.framed (fun _ _ _ => h.step) hb

end

-- ---------------------------------------------------------------------------
-- How the world changes
-- ---------------------------------------------------------------------------

theorem World.cancel_eq (w : World) (i : ContextId) :
    ∃ cancelled, w.cancel i = { w with cancelled } := by
  unfold cancel
  split <;> exact ⟨_, rfl⟩

theorem World.revoke_eq (w : World) (i : ContextId) :
    ∃ cancelled, w.revoke i = { w with cancelled } := by
  unfold revoke
  split
  · exact w.cancel_eq i
  · exact ⟨_, rfl⟩

/-- A later world. The handlers entered in between belong to contexts that are `own` or
that were not there before. -/
structure World.Grows (own : ContextId → Prop) (w w' : World) : Prop where
  contexts : w.nextContext ≤ w'.nextContext
  cancelled : ∀ i ∈ w.cancelled, i ∈ w'.cancelled
  trace : ∃ news, w'.trace = news ++ w.trace ∧
    ∀ c, .dispatch c ∈ news → own c.id ∨ w.nextContext ≤ c.id

namespace World.Grows

variable {own : ContextId → Prop}

theorem refl (w : World) : w.Grows own w :=
  ⟨Nat.le_refl _, fun _ hi => hi, [], rfl, by simp⟩

theorem trans {u v w : World} (huv : u.Grows own v) (hvw : v.Grows own w) : u.Grows own w := by
  obtain ⟨news, hnews, hown⟩ := huv.trace
  obtain ⟨more, hmore, hown'⟩ := hvw.trace
  refine ⟨Nat.le_trans huv.contexts hvw.contexts, fun i hi => hvw.cancelled i (huv.cancelled i hi),
    more ++ news, by rw [hmore, hnews, List.append_assoc], ?_⟩
  intro c hc
  obtain hc | hc := List.mem_append.mp hc
  · exact (hown' c hc).imp id fun h => Nat.le_trans huv.contexts h
  · exact hown c hc

theorem mono {own' : ContextId → Prop} {w w' : World} (h : w.Grows own w')
    (hown : ∀ i, own i → own' i) : w.Grows own' w' := by
  obtain ⟨news, hnews, hnew⟩ := h.trace
  exact ⟨h.contexts, h.cancelled, news, hnews, fun c hc => (hnew c hc).imp (hown c.id) id⟩

theorem alive {w w' : World} (h : w.Grows own w') (hi : w'.isAlive i = true) :
    w.isAlive i = true := by
  simp only [isAlive, Bool.not_eq_true', List.contains_eq_mem, decide_eq_false_iff_not] at hi ⊢
  exact fun hmem => hi (h.cancelled i hmem)

theorem dead {w w' : World} (h : w.Grows own w') (hi : w.isAlive i = false) :
    w'.isAlive i = false := by
  cases halive : w'.isAlive i with
  | false => rfl
  | true => exact absurd (h.alive halive) (by simp [hi])

theorem record {w w' : World} (news : List Event) (htrace : w'.trace = news ++ w.trace)
    (hnews : ∀ c, Event.dispatch c ∉ news) (hcontexts : w'.nextContext = w.nextContext)
    (hcancelled : ∀ i ∈ w.cancelled, i ∈ w'.cancelled) : w.Grows own w' :=
  ⟨Nat.le_of_eq hcontexts.symm, hcancelled, news, htrace, fun c hc => absurd hc (hnews c)⟩

theorem log (w : World) (entry : LogEntry) : w.Grows own (w.log entry) :=
  record [.log entry] rfl (by simp) rfl fun _ hi => hi

theorem logged (w : World) (entry : Option LogEntry) : w.Grows own (w.logged entry) := by
  cases entry with
  | some entry => exact log w entry
  | none => exact refl w

theorem cancel (w : World) (i : ContextId) : w.Grows own (w.cancel i) := by
  unfold World.cancel
  split
  · exact refl w
  · exact record [] rfl (by simp) rfl fun _ hj => List.mem_cons_of_mem _ hj

theorem release (w : World) (q : Sequence) : w.Grows own (w.release q) := by
  cases q with
  | shared => exact refl w
  | rented items => exact record [] rfl (by simp) rfl fun _ hi => hi

theorem revoke (w : World) (i : ContextId) : w.Grows own (w.revoke i) := by
  unfold World.revoke
  split
  · exact cancel w i
  · exact refl w

theorem dispose (w : World) (c : Context) : w.Grows own (w.dispose c).2.2 := by
  unfold World.dispose
  split
  · exact refl w
  · exact ((cancel w c.id).trans (log _ _)).trans (release _ _)

theorem recordCalls (w : World) (calls : List ParseCall) : w.Grows own (w.recordCalls calls) :=
  record (calls.reverse.map Event.parse) rfl (by simp) rfl fun _ hi => hi

theorem effect (e : Effect) (s : State) : s.world.Grows own (e.run s).2.world := by
  cases e with
  | setIndex i =>
    simp only [Effect.run]
    split <;> exact refl _
  | dispose => exact dispose _ _
  | setVariable | removeVariable | setActor | suspend | remember | reset | throwDice | throwFloat
  | newObject =>
    exact record [] rfl (by simp) rfl fun _ hi => hi
  | cancel => exact cancel _ _
  | revoke => exact revoke _ _
  | readSlot | compile => exact recordCalls _ _
  | log => exact log _ _
  | note => exact record [.note _] rfl (by simp) rfl fun _ hi => hi

theorem child {s : State} (target : Action)
    (h : (s.forTarget target).world.Grows (· = s.world.nextContext) w) : s.world.Grows own w := by
  obtain ⟨news, hnews, hown⟩ := h.trace
  have hcontexts : s.world.nextContext + 1 ≤ w.nextContext := h.contexts
  refine ⟨Nat.le_of_succ_le hcontexts, h.cancelled, news, hnews, ?_⟩
  intro c hc
  obtain hc | hc := hown c hc
  · exact .inr (Nat.le_of_eq hc.symm)
  · have hc : s.world.nextContext + 1 ≤ c.id := hc
    exact .inr (Nat.le_of_succ_le hc)

end World.Grows

-- ---------------------------------------------------------------------------
-- Released contexts
-- ---------------------------------------------------------------------------

def Context.disposalEntry (c : Context) : LogEntry :=
  .debug ("Disposing " ++ contextText c.id ++ " (" ++ c.script ++ ")")

structure World.Released (w : World) (c : Context) : Prop where
  dead : w.isAlive c.id = false
  logged : .log c.disposalEntry ∈ w.trace

theorem World.Released.grow {w w' : World} (h : w.Released c) (hw : w.Grows own w') :
    w'.Released c := by
  obtain ⟨news, hnews, -⟩ := hw.trace
  exact ⟨hw.dead h.dead, hnews ▸ List.mem_append_right news h.logged⟩

theorem World.cancel_dead (w : World) (i : ContextId) : (w.cancel i).isAlive i = false := by
  unfold World.cancel World.isAlive
  split
  · rename_i h
    simpa using h
  · simp

theorem World.dispose_released {w : World} {c : Context} (h : c.disposed = true → w.Released c) :
    (w.dispose c).2.2.Released c := by
  unfold World.dispose
  split
  · rename_i hd
    exact h hd
  · have hcancel : ((w.cancel c.id).log c.disposalEntry).Released c :=
      ⟨w.cancel_dead c.id, List.mem_cons_self⟩
    have hrelease (v : World) : v.Grows (· = c.id) (v.release c.sequence) := .release v _
    exact hcancel.grow (hrelease _)

theorem State.dispose_disposed (s : State) : s.dispose.context.disposed = true := by
  simp only [State.dispose, World.dispose]
  split
  · rename_i h
    exact h
  · rfl

/-- The context is the same, its world is later, and if it has been released then the
world has seen it. -/
structure State.Grows (s t : State) : Prop where
  id : t.context.id = s.context.id
  parent : t.context.parent = s.context.parent
  script : t.context.script = s.context.script
  world : s.world.Grows (· = s.context.id) t.world
  released : (s.context.disposed = true → s.world.Released s.context) →
    t.context.disposed = true → t.world.Released t.context

theorem World.Released.same {w : World} {c d : Context} (h : w.Released c) (hid : d.id = c.id)
    (hscript : d.script = c.script) : w.Released d := by
  refine ⟨hid ▸ h.dead, ?_⟩
  rw [Context.disposalEntry, hid, hscript]
  exact h.logged

theorem State.Grows.of_kept {s t : State} (hk : s.context.Kept t.context)
    (hw : s.world.Grows (· = s.context.id) t.world) : s.Grows t :=
  ⟨hk.id, hk.parent, hk.script, hw,
    fun h hd => ((h (hk.disposed ▸ hd)).grow hw).same hk.id hk.script⟩

theorem State.Grows.trans {s t u : State} (hst : s.Grows t) (htu : t.Grows u) : s.Grows u :=
  ⟨htu.id.trans hst.id, htu.parent.trans hst.parent, htu.script.trans hst.script,
    hst.world.trans (htu.world.mono fun _ hi => hi.trans hst.id), htu.released ∘ hst.released⟩

theorem State.Grows.effect (e : Effect) (s : State) : s.Grows (e.run s).2 := by
  by_cases h : e = .dispose
  · subst h
    obtain ⟨hid, hparent, hscript⟩ : (Effect.run .dispose s).2.context.id = s.context.id ∧
        (Effect.run .dispose s).2.context.parent = s.context.parent ∧
        (Effect.run .dispose s).2.context.script = s.context.script := by
      simp only [Effect.run, World.dispose]
      split <;> exact ⟨rfl, rfl, rfl⟩
    refine ⟨hid, hparent, hscript, .dispose _ _, fun h _ => ?_⟩
    exact (World.dispose_released h).same hid hscript
  · exact .of_kept (Effect.run_kept h s) (.effect e s)

theorem grows_pervades (handlers : Handlers) : Pervades handlers State.Grows where
  refl s := .of_kept (.refl _) (.refl _)
  trans _ _ _ := .trans
  effect e s _ := .effect e s
  enter s := by
    refine .of_kept ⟨rfl, rfl, rfl, rfl, rfl, rfl, rfl⟩
      ⟨Nat.le_refl _, fun _ hi => hi, [.dispatch s.context.sync], rfl, ?_⟩
    intro c hc
    obtain rfl : c = s.context.sync := by simpa using hc
    exact .inl rfl
  sync s := .of_kept ⟨rfl, rfl, rfl, rfl, rfl, rfl, rfl⟩ (.refl _)
  child s t items w target hr ht := by
    obtain rfl : w = s.world.rent.2 := by rw [hr]
    exact .of_kept (.refl _) (.child target ht.world)

theorem eachWith_grows {own : ContextId → Prop}
    (h : eachWith (step handlers n) m target actors s = some t) : s.world.Grows own t.world := by
  rw [eachWith_eq] at h
  obtain ⟨u, hu, rfl⟩ := Option.map_eq_some_iff.mp h
  have hvisits := (grows_pervades handlers).visits hu
  exact .child target (hvisits.world.trans (.dispose _ _))

-- ---------------------------------------------------------------------------
-- Who stays alive
-- ---------------------------------------------------------------------------

/-- A later world. Contexts that were there before and are not `own` are alive if and only
if they were. -/
structure World.Spares (own : ContextId → Prop) (w w' : World) : Prop where
  contexts : w.nextContext ≤ w'.nextContext
  alive : ∀ i < w.nextContext, ¬ own i → w'.isAlive i = w.isAlive i

namespace World.Spares

variable {own : ContextId → Prop} {u v w : World}

theorem of_eq (hcontexts : v.nextContext = u.nextContext) (hcancelled : v.cancelled = u.cancelled) :
    u.Spares own v :=
  ⟨Nat.le_of_eq hcontexts.symm, fun i _ _ => by rw [isAlive, hcancelled, isAlive]⟩

theorem refl (w : World) : w.Spares own w := of_eq rfl rfl

theorem trans (huv : u.Spares own v) (hvw : v.Spares own w) : u.Spares own w := by
  refine ⟨Nat.le_trans huv.contexts hvw.contexts, ?_⟩
  intro i hi hown
  rw [hvw.alive i (Nat.lt_of_lt_of_le hi huv.contexts) hown, huv.alive i hi hown]

theorem mono {own' : ContextId → Prop} (h : u.Spares own v) (hown : ∀ i, own i → own' i) :
    u.Spares own' v :=
  ⟨h.contexts, fun i hi hnot => h.alive i hi fun ho => hnot (hown i ho)⟩

theorem cancel (w : World) (h : own i) : w.Spares own (w.cancel i) := by
  unfold World.cancel
  split
  · exact refl w
  · refine ⟨Nat.le_refl _, ?_⟩
    intro j _ hj
    have hne : j ≠ i := by
      rintro rfl
      exact hj h
    simp [isAlive, hne]

theorem log (w : World) (entry : LogEntry) : w.Spares own (w.log entry) := of_eq rfl rfl

theorem logged (w : World) (entry : Option LogEntry) : w.Spares own (w.logged entry) := by
  cases entry with
  | some entry => exact log w entry
  | none => exact refl w

theorem release (w : World) (q : Sequence) : w.Spares own (w.release q) := by
  cases q <;> exact of_eq rfl rfl

theorem dispose (w : World) (c : Context) (h : own c.id) : w.Spares own (w.dispose c).2.2 := by
  unfold World.dispose
  split
  · exact refl w
  · exact ((cancel w h).trans (log _ _)).trans (release _ _)

/-- What the run of a sub-context cancels of those that were there before. -/
theorem child {s : State} (target : Action)
    (h : (s.forTarget target).world.Spares (fun i => i = s.world.nextContext ∨ own i) w) :
    s.world.Spares own w := by
  have hcontexts : s.world.nextContext + 1 ≤ w.nextContext := h.contexts
  refine ⟨Nat.le_of_succ_le hcontexts, ?_⟩
  intro i hi hown
  refine h.alive i (Nat.lt_succ_of_lt hi) ?_
  rintro (rfl | hi')
  · exact Nat.lt_irrefl _ hi
  · exact hown hi'

end World.Spares

/-- The context is the same, and no other one that was there has been cancelled, except by
handlers that get hold of it. -/
structure State.Spares (handlers : Handlers) (s t : State) : Prop where
  id : t.context.id = s.context.id
  world : s.world.Spares (fun i => i = s.context.id ∨ handlers.Revokes i) t.world

theorem State.Spares.effect {e : Effect} (he : e.Occurs handlers) (s : State) :
    s.Spares handlers (e.run s).2 := by
  cases e with
  | setIndex i =>
    simp only [Effect.run]
    split
    · rename_i c hc
      exact ⟨(Context.setIndex_kept hc).1.id, .refl _⟩
    · exact ⟨rfl, .refl _⟩
  | dispose =>
    refine ⟨?_, .dispose _ _ (.inl rfl)⟩
    simp only [Effect.run, World.dispose]
    split <;> rfl
  | cancel => exact ⟨rfl, .cancel _ (.inl rfl)⟩
  | revoke i =>
    refine ⟨rfl, ?_⟩
    simp only [Effect.run, World.revoke]
    split
    · exact .cancel _ (.inr (he i rfl))
    · exact .refl _
  | _ => exact ⟨rfl, .of_eq rfl rfl⟩

theorem spares_pervades (handlers : Handlers) : Pervades handlers (State.Spares handlers) where
  refl s := ⟨rfl, .refl _⟩
  trans s t u hst htu := by
    refine ⟨htu.id.trans hst.id, hst.world.trans (htu.world.mono ?_)⟩
    rintro i (rfl | hi)
    · exact .inl hst.id
    · exact .inr hi
  effect e s he := .effect he s
  enter s := ⟨rfl, .of_eq rfl rfl⟩
  sync s := ⟨rfl, .refl _⟩
  child s t items w target hr ht := by
    obtain rfl : w = s.world.rent.2 := by rw [hr]
    exact ⟨rfl, (World.Spares.child target ht.world).mono fun _ => .inr⟩

def World.entrances (w : World) : List Context :=
  w.trace.filterMap fun
    | .dispatch c => some c
    | _ => none

theorem World.Grows.entrances {w w' : World} (h : w.Grows own w') :
    ∃ news, w'.entrances = news ++ w.entrances ∧
      ∀ c ∈ news, own c.id ∨ w.nextContext ≤ c.id := by
  obtain ⟨news, hnews, hown⟩ := h.trace
  refine ⟨World.entrances { w with trace := news }, ?_, ?_⟩
  · simp only [World.entrances, hnews, List.filterMap_append]
  · intro c hc
    obtain ⟨e, he, hc⟩ := List.mem_filterMap.mp hc
    cases e with
    | dispatch d =>
      cases hc
      exact hown c he
    | _ => cases hc

theorem World.entrances_cancel (w : World) (i : ContextId) :
    (w.cancel i).entrances = w.entrances := by
  obtain ⟨_, h⟩ := w.cancel_eq i
  rw [h]
  rfl

theorem World.entrances_release (w : World) (q : Sequence) :
    (w.release q).entrances = w.entrances := by
  cases q <;> rfl

theorem World.entrances_dispose (w : World) (c : Context) :
    (w.dispose c).2.2.entrances = w.entrances := by
  unfold World.dispose
  split
  · rfl
  · rw [entrances_release]
    exact entrances_cancel w c.id

theorem World.entrances_recordCalls (w : World) (calls : List ParseCall) :
    (w.recordCalls calls).entrances = w.entrances := by
  simp [entrances, recordCalls]

theorem Effect.run_entrances (e : Effect) (s : State) :
    (e.run s).2.world.entrances = s.world.entrances := by
  cases e with
  | setIndex i =>
    simp only [Effect.run]
    split <;> rfl
  | dispose => exact s.world.entrances_dispose s.context
  | cancel => exact s.world.entrances_cancel s.context.id
  | revoke i =>
    obtain ⟨_, h⟩ := s.world.revoke_eq i
    simp only [Effect.run, h]
    rfl
  | readSlot | compile => exact s.world.entrances_recordCalls _
  | _ => rfl

-- ---------------------------------------------------------------------------
-- Clean pools
-- ---------------------------------------------------------------------------

def World.Clean (w : World) : Prop := ∀ items ∈ w.pool.idle, items = []

theorem World.Clean.logged {w : World} (h : w.Clean) (entry : Option LogEntry) :
    (w.logged entry).Clean := by
  cases entry <;> exact h

theorem World.Clean.rent {w : World} (h : w.Clean) : w.rent.1 = [] ∧ w.rent.2.Clean := by
  constructor
  · cases hidle : w.pool.idle with
    | nil => simp [World.rent, Pool.rent, hidle]
    | cons items rest =>
      have hitems : items = [] := h items (by simp [hidle])
      simp [World.rent, Pool.rent, hidle, hitems]
  · intro items hitems
    refine h items ?_
    cases hidle : w.pool.idle with
    | nil => simp [World.rent, Pool.rent, hidle] at hitems
    | cons first rest =>
      simp only [World.rent, Pool.rent, hidle] at hitems
      exact List.mem_cons_of_mem _ hitems

theorem World.Clean.giveBack {w : World} (h : w.Clean) (items : List Action) :
    (w.giveBack items).Clean := by
  intro more hmore
  simp only [World.giveBack, Pool.giveBack] at hmore
  split at hmore
  · obtain rfl | hmore := List.mem_cons.mp hmore
    · rfl
    · exact h more hmore
  · exact h more hmore

theorem World.Clean.release {w : World} (h : w.Clean) (q : Sequence) : (w.release q).Clean := by
  cases q with
  | shared => exact h
  | rented items => exact h.giveBack items

theorem World.Clean.dispose {w : World} (h : w.Clean) (c : Context) : (w.dispose c).2.2.Clean := by
  unfold World.dispose
  split
  · exact h
  · refine World.Clean.release ?_ _
    intro items hitems
    simp only [World.log, World.record, World.cancel] at hitems
    split at hitems <;> exact h items hitems

end Playbook
