import Playbook.Proofs.Histories
import Playbook.Proofs.Targets

/-!
# Compiling targets anew

The machine that remembers no targets compiles the target of a For statement every time that the
statement is entered (`stepAnew`). It goes the same way as the one that remembers them as long as
every variable that says what to run says what is remembered (`step_echo`): it gives the same
answers, enters the same handlers, logs the same and leaves the same in the contexts, except for
what they remember. In contexts that For and ForEach make for their targets this always holds
(`visitAll_echo`), because there a statement reads the same name each time.
-/

namespace Playbook

-- ---------------------------------------------------------------------------
-- States that differ in what is remembered
-- ---------------------------------------------------------------------------

def Context.forgetful (c : Context) : Context := { c with metadata := .empty }

/-- What is told of an event: texts are read more often if targets are compiled more often. -/
def Event.told : Event → Option Event
  | .parse _ => none
  | .dispatch c => some (.dispatch c.forgetful)
  | e => some e

def World.story (w : World) : World := { w with trace := w.trace.filterMap Event.told }

namespace World

theorem story_log (w : World) (entry : LogEntry) : (w.log entry).story = w.story.log entry := rfl

theorem story_dispatch (w : World) (c : Context) :
    (w.record (.dispatch c)).story = w.story.record (.dispatch c.forgetful) := rfl

theorem story_recordCalls (w : World) (calls : List ParseCall) :
    (w.recordCalls calls).story = w.story := by
  have hquiet : (calls.reverse.map Event.parse).filterMap Event.told = [] := by
    simp [List.filterMap_map, Function.comp_def, Event.told]
  simp only [story, recordCalls, List.filterMap_append, hquiet, List.nil_append]

theorem story_cancel (w : World) (i : ContextId) : (w.cancel i).story = w.story.cancel i := by
  have hcancelled : w.story.cancelled = w.cancelled := rfl
  unfold cancel
  rw [hcancelled]
  split <;> rfl

theorem story_revoke (w : World) (i : ContextId) : (w.revoke i).story = w.story.revoke i := by
  have hnext : w.story.nextContext = w.nextContext := rfl
  unfold revoke
  rw [hnext]
  split
  · exact w.story_cancel i
  · rfl

theorem story_release (w : World) (q : Sequence) : (w.release q).story = w.story.release q := by
  cases q <;> rfl

end World

/-- States in which only different things are remembered, and texts have been read more or less
often. -/
structure State.Akin (s s' : State) : Prop where
  context : s'.context.forgetful = s.context.forgetful
  world : s'.world.story = s.world.story

theorem Context.eq_of_forgetful {c d : Context} (h : d.forgetful = c.forgetful) :
    d = { c with metadata := d.metadata } :=
  congrArg (fun e : Context => { e with metadata := d.metadata }) h

theorem Effect.run_akin {s s' : State} (e : Effect) (h : s.Akin s') :
    (e.run s').1 = (e.run s).1 ∧ (e.run s).2.Akin (e.run s').2 := by
  obtain ⟨c, w⟩ := s
  obtain ⟨d, w'⟩ := s'
  have hw : w'.story = w.story := h.world
  have hd : d = { c with metadata := d.metadata } := Context.eq_of_forgetful h.context
  generalize d.metadata = m at hd
  subst hd
  cases e with
  | setIndex i =>
    by_cases hi : c.len < i
    · have hc : c.setIndex i = .error (c.outOfBounds i) := if_pos hi
      have hd : Context.setIndex { c with metadata := m } i = .error (c.outOfBounds i) := if_pos hi
      simp only [run, hc, hd]
      exact ⟨rfl, rfl, hw⟩
    · have hc : c.setIndex i = .ok { c with index := i } := if_neg hi
      have hd : Context.setIndex { c with metadata := m } i =
          .ok { c with metadata := m, index := i } := if_neg hi
      simp only [run, hc, hd]
      exact ⟨rfl, rfl, hw⟩
  | setVariable | removeVariable | setActor | suspend | remember | reset =>
    exact ⟨rfl, rfl, hw⟩
  | dispose =>
    simp only [run, World.dispose]
    split
    · exact ⟨rfl, rfl, hw⟩
    · refine ⟨rfl, rfl, ?_⟩
      simp only [World.story_release, World.story_log, World.story_cancel, hw]
  | cancel =>
    refine ⟨rfl, rfl, ?_⟩
    simp only [run, World.story_cancel, hw]
  | revoke i =>
    refine ⟨rfl, rfl, ?_⟩
    simp only [run, World.story_revoke, hw]
  | readSlot | compile =>
    refine ⟨rfl, rfl, ?_⟩
    simp only [run, World.perform, World.story_recordCalls, hw]
  | log entry => exact ⟨rfl, rfl, congrArg (World.log · entry) hw⟩
  | note values => exact ⟨rfl, rfl, congrArg (World.record · _) hw⟩
  | throwDice =>
    have hthrow : w'.story.throwDice.1 = w.story.throwDice.1 := by rw [hw]
    exact ⟨hthrow, rfl,
      congrArg (fun v : World => v.throwDice.2) hw⟩
  | throwFloat low high =>
    have hthrow : (w'.story.throwFloat low high).1 = (w.story.throwFloat low high).1 := by rw [hw]
    exact ⟨hthrow, rfl,
      congrArg (fun v : World => (v.throwFloat low high).2) hw⟩
  | newObject =>
    have hobject := congrArg (fun v : World => Handle.made (v.objects + 1)) hw
    exact ⟨hobject, rfl, congrArg (fun v : World => { v with objects := v.objects + 1 }) hw⟩

namespace State.Akin

variable {s s' : State}

theorem same (h : s.Akin s') (f : Context → α) (hf : ∀ c, f c.forgetful = f c) :
    f s'.context = f s.context := by
  rw [← hf s'.context, h.context, hf]

theorem sameWorld (h : s.Akin s') (f : World → α) (hf : ∀ w : World, f w.story = f w) :
    f s'.world = f s.world := by
  rw [← hf s'.world, h.world, hf]

theorem index (h : s.Akin s') : s'.context.index = s.context.index :=
  h.same Context.index fun _ => rfl

theorem actions (h : s.Akin s') : s'.context.actions = s.context.actions :=
  h.same Context.actions fun _ => rfl

theorem len (h : s.Akin s') : s'.context.len = s.context.len :=
  h.same Context.len fun _ => rfl

end State.Akin

-- ---------------------------------------------------------------------------
-- A machine that remembers no targets
-- ---------------------------------------------------------------------------

def State.forgetting (s : State) : State := { s with context := s.context.forgetful }

/-- Steps that compile the targets of For and ForEach anew: what has been remembered is forgotten
before an action is dispatched. -/
def stepAnew (handlers : Handlers) : Nat → Stepper
  | 0 => fun _ => none
  | fuel + 1 => fun s =>
    dispatch handlers (.ofStepper (stepAnew handlers fuel) fuel) s.forgetting

theorem State.Akin.entered {s s' : State} (h : s.Akin s') :
    s.entered.Akin s'.forgetting.entered := by
  have hsync : s'.context.forgetful.sync.forgetful = s.context.sync.forgetful :=
    congrArg Context.sync h.context
  refine ⟨hsync, ?_⟩
  simp only [State.entered, World.story_dispatch, State.forgetting, h.world, hsync]

/-- A run leads from `s` to `t`, and from every state akin to `s` it goes the same way, as `back`
says, if no variable that says what to run changes meanwhile. -/
def Echo (handlers : Handlers) (s t : State) (back : State → State → Prop) : Prop :=
  Since handlers s t ∧ ∀ s', s.Akin s' → Calm s t → ∃ t', back s' t' ∧ t.Akin t'

def Echoes (handlers : Handlers) (f f' : Stepper) : Prop :=
  ∀ s x t, s.Candid handlers → f s = some (x, t) →
    Echo handlers s t fun s' t' => f' s' = some (x, t')

structure EchoesNested (handlers : Handlers) (nested nested' : Nested) : Prop where
  block : ∀ start stop s b t, s.Candid handlers → nested.block start stop s = some (b, t) →
    Echo handlers s t fun s' t' => nested'.block start stop s' = some (b, t')
  each : ∀ a actors s t, a.definition.behaviour.Discreet handlers → s.Candid handlers →
    nested.each a actors s = some t →
    Echo handlers s t fun s' t' => nested'.each a actors s' = some t'

namespace Echo

variable {s t u : State} {back back' goal : State → State → Prop}

theorem mono (h : Echo handlers s t back)
    (hback : ∀ s' t', s.Akin s' → back s' t' → goal s' t') : Echo handlers s t goal := by
  refine ⟨h.1, fun s' hs' hcalm => ?_⟩
  obtain ⟨t', hst, ht'⟩ := h.2 s' hs' hcalm
  exact ⟨t', hback s' t' hs' hst, ht'⟩

theorem trans (hst : Echo handlers s t back) (htu : Echo handlers t u back')
    (hback : ∀ s' t' u', s.Akin s' → t.Akin t' → back s' t' → back' t' u' → goal s' u') :
    Echo handlers s u goal := by
  refine ⟨hst.1.trans htu.1, fun s' hs' hcalm => ?_⟩
  obtain ⟨t', hst', ht'⟩ := hst.2 s' hs' (hcalm.left htu.1)
  obtain ⟨u', htu', hu'⟩ := htu.2 t' ht' (hcalm.right hst.1)
  exact ⟨u', hback s' t' u' hs' ht' hst' htu', hu'⟩

theorem refl (hs : s.Candid handlers) : Echo handlers s s fun s' t' => t' = s' :=
  ⟨.refl hs, fun s' hs' _ => ⟨s', rfl, hs'⟩⟩

theorem effect {e : Effect} (he : e.Discreet) (hs : s.Candid handlers) :
    Echo handlers s (e.run s).2 fun s' t' => e.run s' = ((e.run s).1, t') := by
  refine ⟨.effect he hs, fun s' hs' _ => ⟨(e.run s').2, ?_, (e.run_akin hs').2⟩⟩
  rw [← (e.run_akin hs').1]

theorem run {e : Effect} (he : e.Discreet) (hs : s.Candid handlers) :
    Echo handlers s (e.run s).2 fun s' t' => t' = (e.run s').2 := by
  refine (effect he hs).mono ?_
  intro s' t' _ ht'
  rw [ht']

theorem entered (hs : s.Candid handlers) :
    Echo handlers s s.entered fun s' t' => t' = s'.forgetting.entered :=
  ⟨.entered hs, fun _ hs' _ => ⟨_, rfl, hs'.entered⟩⟩

end Echo

section
variable {s s' t : State}

-- ---------------------------------------------------------------------------
-- Handlers and blocks
-- ---------------------------------------------------------------------------

theorem Prog.exec_echo {nested nested' : Nested} {p : Prog α}
    (hp : ∀ m, p.Overlooks fun c => { c with metadata := m })
    (hw : p.Within Effect.Discreet True False)
    (hnested : EchoesNested handlers nested nested')
    (hs : s.Candid handlers) (h : p.exec nested s = some (x, t)) :
    Echo handlers s t fun s' t' => p.exec nested' s' = some (x, t') := by
  induction p generalizing s with
  | done | fail | panic =>
    cases h
    refine (Echo.refl hs).mono ?_
    rintro s' t' - rfl
    rfl
  | look next ih =>
    refine (ih _ (fun m => (hp m).2 _) (hw _) hs h).mono ?_
    intro s' t' hs' ht'
    have hnext : next s'.context = next s.context := by
      rw [Context.eq_of_forgetful hs'.context]
      exact (hp _).1 s.context
    simp only [exec, hnext]
    exact ht'
  | perform e next ih =>
    have he := Echo.effect hw.1 hs
    refine he.trans (ih _ (fun m => hp m _) (hw.2 _) he.1.candid h) ?_
    intro s' t' u' _ _ he' hu'
    simp only [exec, he']
    exact hu'
  | block start stop next ih =>
    simp only [exec] at h
    cases hb : nested.block start stop s with
    | none => simp [hb] at h
    | some r =>
      obtain ⟨b, v⟩ := r
      rw [hb] at h
      have hv := hnested.block start stop s b v hs hb
      refine hv.trans (ih b (fun m => hp m b) (hw.2 b) hv.1.candid h) ?_
      intro s' t' u' _ _ hb' hu'
      simp only [exec, hb']
      exact hu'
  | each target actors next => exact hw.1.elim

theorem since_framed : Framed fun s t => s.Candid handlers → Since handlers s t where
  refl _ := .refl
  trans _ _ _ hst htu hs := (hst hs).trans (htu (hst hs).candid)
  move s i c hc hs := by
    have he := Since.effect (e := .setIndex i) (by simp [Effect.Discreet]) hs
    simpa only [Effect.run, hc] using he

theorem settle_akin (h : s.Akin s') (entry : Nat) (flags : Flags) :
    (settle entry flags s').1 = (settle entry flags s).1 ∧
      (settle entry flags s).2.Akin (settle entry flags s').2 := by
  unfold settle
  rw [h.index]
  split
  · exact ⟨rfl, h⟩
  · split
    · exact ⟨rfl, h⟩
    · split
      · have hmove := Effect.run_akin (.setIndex (entry + 1)) h
        simp only [Effect.run] at hmove
        cases hc : s.context.setIndex (entry + 1) <;>
          cases hd : s'.context.setIndex (entry + 1) <;> simp only [hc, hd] at hmove
        · exact ⟨congrArg Except.error (Except.error.inj hmove.1), h⟩
        · cases hmove.1
        · cases hmove.1
        · exact ⟨rfl, hmove.2⟩
      · exact ⟨rfl, h⟩

theorem answer_echo (hs : s.Candid handlers) (entry : Nat) (a : Action) (x : Ending Flags) :
    Echo handlers s (x.answer entry a s).2 fun s' t' =>
      x.answer entry a s' = ((x.answer entry a s).1, t') := by
  refine ⟨answer_rel since_framed rfl hs, fun s' hs' _ => ?_⟩
  cases x with
  | value flags =>
    obtain ⟨hanswer, hakin⟩ := settle_akin hs' entry flags
    refine ⟨(settle entry flags s').2, ?_, hakin⟩
    simp only [Ending.answer, ← hanswer]
  | error e => exact ⟨s', rfl, hs'⟩
  | panic m => exact ⟨s', rfl, hs'⟩

section
variable {f f' : Stepper}

theorem blockLoop_echo (hf : Echoes handlers f f') (hs : s.Candid handlers)
    (h : blockLoop f stop n s = some (b, t)) :
    Echo handlers s t fun s' t' => blockLoop f' stop n s' = some (b, t') := by
  induction n generalizing s with
  | zero => cases h
  | succ n ih =>
    simp only [blockLoop] at h
    split at h
    · rename_i hlt
      cases hx : f s with
      | none => simp [hx] at h
      | some r =>
        obtain ⟨x, u⟩ := r
        have hu := hf s x u hs hx
        rw [hx] at h
        cases x with
        | error e =>
          cases h
          refine hu.mono ?_
          intro s' t' hs' hx'
          simp only [blockLoop, hs'.index, hlt, ↓reduceIte, hx']
        | ok flags =>
          dsimp only at h
          split at h
          · rename_i hstop
            cases h
            refine hu.mono ?_
            intro s' t' hs' hx'
            simp only [blockLoop, hs'.index, hlt, ↓reduceIte, hx', hstop]
          · rename_i hstop
            refine hu.trans (ih hu.1.candid h) ?_
            intro s' u' t' hs' _ hx' ht'
            simp only [blockLoop, hs'.index, hlt, ↓reduceIte, hx', hstop]
            exact ht'
    · rename_i hlt
      cases h
      refine (Echo.refl hs).mono ?_
      rintro s' t' hs' rfl
      simp only [blockLoop, hs'.index, hlt, ↓reduceIte]

theorem blockWith_echo (hf : Echoes handlers f f') (hs : s.Candid handlers)
    (h : blockWith f n start stop s = some (b, t)) :
    Echo handlers s t fun s' t' => blockWith f' n start stop s' = some (b, t') := by
  by_cases hrange : stop < start ∨ s.context.len < stop
  · simp only [blockWith, hrange, ↓reduceIte] at h
    cases h
    refine (Echo.refl hs).mono ?_
    rintro s' t' hs' rfl
    have herror : t'.context.outOfBounds stop = s.context.outOfBounds stop :=
      hs'.same (fun c => c.outOfBounds stop) fun _ => rfl
    simp only [blockWith, hs'.len, hrange, ↓reduceIte, herror]
  · have hstart : start ≤ stop := by omega
    have hstop : stop ≤ s.context.len := by omega
    rw [blockWith_in_range hstart hstop] at h
    have hmove := Echo.effect (e := .setIndex start) (by simp [Effect.Discreet]) hs
    simp only [Effect.run, Context.setIndex_ok (Nat.le_trans hstart hstop)] at hmove
    refine hmove.trans (blockLoop_echo hf hmove.1.candid h) ?_
    intro s' u' t' hs' _ hmove' ht'
    rw [Context.setIndex_ok (hs'.len ▸ Nat.le_trans hstart hstop)] at hmove'
    obtain ⟨-, rfl⟩ := Prod.mk.inj hmove'
    rw [blockWith_in_range hstart (hs'.len ▸ hstop)]
    exact ht'

-- ---------------------------------------------------------------------------
-- Whole runs
-- ---------------------------------------------------------------------------

theorem Echo.log (hs : s.Candid handlers) (entry : LogEntry) :
    Echo handlers s { s with world := s.world.log entry } fun s' t' =>
      t' = { s' with world := s'.world.log entry } :=
  Echo.run (e := .log entry) (by simp [Effect.Discreet]) hs

theorem Echo.dispose (hs : s.Candid handlers) :
    Echo handlers s s.dispose fun s' t' => t' = s'.dispose :=
  Echo.run (e := .dispose) (by simp [Effect.Discreet]) hs

theorem conclude_echo (hs : s.Candid handlers) (h : conclude release e s = (outcome, t)) :
    Echo handlers s t fun s' t' => conclude release e s' = (outcome, t') := by
  rcases e with e | _ | flags
  · have hentry {s' : State} (hs' : s.Akin s') :
        failureEntry s'.context e = failureEntry s.context e :=
      hs'.same (fun c => failureEntry c e) fun _ => rfl
    have hlog := Echo.log hs (failureEntry s.context e)
    cases release with
    | false =>
      cases h
      refine hlog.mono ?_
      rintro s' t' hs' rfl
      simp only [conclude, hentry hs', Bool.false_eq_true, ↓reduceIte]
    | true =>
      cases h
      refine hlog.trans (Echo.dispose hlog.1.candid) ?_
      rintro s' t' u' hs' _ rfl rfl
      simp only [conclude, hentry hs', ↓reduceIte]
  · cases h
    refine (Echo.log hs _).mono ?_
    rintro s' t' hs' rfl
    have hlabel : s'.context.label = s.context.label := hs'.same Context.label fun _ => rfl
    simp only [conclude, hlabel]
  · have hsuspended {s' : State} (hs' : s.Akin s') :
        s'.context.isSuspended = s.context.isSuspended :=
      hs'.same Context.isSuspended fun _ => rfl
    simp only [conclude] at h
    split at h
    · rename_i hdispose
      cases h
      refine (Echo.dispose hs).mono ?_
      rintro s' t' _ rfl
      simp only [conclude, hdispose, ↓reduceIte]
    · rename_i hkeep
      split at h <;> rename_i hparked <;> cases h <;> refine (Echo.refl hs).mono ?_ <;>
        rintro s' t' hs' rfl <;> simp [conclude, hkeep, hsuspended hs', hparked]

theorem driveLoop_echo (hf : Echoes handlers f f') (release : Bool) (hs : s.Candid handlers)
    (h : driveLoop f release n s = some (outcome, t)) :
    Echo handlers s t fun s' t' => driveLoop f' release n s' = some (outcome, t') := by
  induction n generalizing s with
  | zero => cases h
  | succ n ih =>
    have hfinished {s' : State} (hs' : s.Akin s') :
        s'.context.isFinished = s.context.isFinished :=
      hs'.same Context.isFinished fun _ => rfl
    rw [driveLoop_succ] at h
    split at h
    · rename_i hend
      refine (conclude_echo hs (Option.some.inj h)).mono ?_
      intro s' t' hs' hback
      rw [driveLoop_succ, hfinished hs', if_pos hend, hback]
    · rename_i hend
      cases hx : f s with
      | none => simp [hx] at h
      | some r =>
        obtain ⟨x, u⟩ := r
        have hu := hf s x u hs hx
        rw [hx] at h
        cases x with
        | error e =>
          refine hu.trans (conclude_echo hu.1.candid (Option.some.inj h)) ?_
          intro s' u' t' hs' _ hx' hback
          simp only [driveLoop_succ, hfinished hs', hend, hx', hback, Bool.false_eq_true,
            ↓reduceIte]
        | ok flags =>
          dsimp only at h
          split at h
          · rename_i hstop
            refine hu.trans (conclude_echo hu.1.candid (Option.some.inj h)) ?_
            intro s' u' t' hs' _ hx' hback
            simp only [driveLoop_succ, hfinished hs', hend, hx', hstop, hback, Bool.false_eq_true,
              ↓reduceIte]
          · rename_i hstop
            refine hu.trans (ih hu.1.candid h) ?_
            intro s' u' t' hs' _ hx' hback
            simp only [driveLoop_succ, hfinished hs', hend, hx', hstop, Bool.false_eq_true,
              ↓reduceIte]
            exact hback

theorem driveWith_echo (hf : Echoes handlers f f') (release : Bool) (hs : s.Candid handlers)
    (h : driveWith f n release s = some (outcome, t)) :
    Echo handlers s t fun s' t' => driveWith f' n release s' = some (outcome, t') := by
  have hdisposed {s' : State} (hs' : s.Akin s') :
      s'.context.disposed = s.context.disposed :=
    hs'.same Context.disposed fun _ => rfl
  unfold driveWith at h
  split at h
  · rename_i hgone
    cases h
    refine (Echo.refl hs).mono ?_
    rintro s' t' hs' rfl
    rw [driveWith, hdisposed hs', if_pos hgone]
  · rename_i hgone
    refine (driveLoop_echo hf release hs h).mono ?_
    intro s' t' hs' hback
    rw [driveWith, hdisposed hs', if_neg hgone]
    exact hback

end

-- ---------------------------------------------------------------------------
-- Sub-contexts
-- ---------------------------------------------------------------------------

theorem Behaviour.Discreet.contained {a : Action}
    (h : a.definition.behaviour.Discreet handlers) : a.Contained handlers := by
  cases hb : a.definition.behaviour with
  | builtin b => exact .inl ⟨b, hb⟩
  | host name =>
    rw [hb] at h
    refine .inr ?_
    rw [hb]
    exact h.2.mono (fun _ he => he.2) id False.elim
  | idle =>
    refine .inr ?_
    rw [hb]
    trivial

/-- A context between two visits. Each of them reads the same name, which is that of the target
if one is remembered. -/
structure State.Attuned (handlers : Handlers) (a : Action) (s : State) : Prop extends
    s.Reusable a, s.Candid handlers where
  steady : ∀ actor, (s.context.reset (some actor)).Steady

theorem State.forTarget_attuned (hs : s.Candid handlers)
    (ha : a.definition.behaviour.Discreet handlers) : (s.forTarget a).Attuned handlers a := by
  have hcontext := State.forTarget_context hs.clean a
  refine ⟨State.forTarget_reusable hs.clean a, ⟨?_, ?_⟩, ?_⟩
  · rw [hcontext]
    refine .unremembering ?_ hs.context.definitions rfl
    intro b hb
    obtain rfl := List.mem_singleton.mp hb
    exact ha
  · exact hs.clean.rent.2
  · rw [hcontext]
    rintro actor b ⟨⟩

theorem visit_attuned (ha : a.Contained handlers) (hs : s.Attuned handlers a)
    (h : driveWith (step handlers n) m false (s.resetFor actor) = some (outcome, t))
    (hsince : Since handlers s (t.noted parent actor outcome)) :
    Calm s (t.noted parent actor outcome) ∧ (t.noted parent actor outcome).Attuned handlers a := by
  obtain ⟨hkept, hreusable, hentries⟩ := visit_entries ha hs.toReusable h
  have hfirst (news : List Context) (hnews : (t.noted parent actor outcome).world.entries
      s.context.id = news ++ s.world.entries s.context.id) :
      news = [s.context.reset (some actor)] :=
    List.append_cancel_right (hnews.symm.trans hentries)
  refine ⟨?_, hreusable, hsince.candid, ?_⟩
  · intro news hnews c hc
    rw [hfirst news hnews, List.mem_singleton] at hc
    exact hc ▸ hs.steady actor
  · intro other b hb name hname
    obtain ⟨news, hnews, hsourced, -⟩ := hsince.entrances
    rw [hkept.reset] at hb hname
    obtain ⟨-, hbefore⟩ | ⟨b', hb', d, hd, hid, -, -, hanew⟩ :=
      hsourced (s.context.reset (some other)).index (.target b)
        (Context.remembered?_eq_some.mp hb)
    · exact hs.steady other b (Context.remembered?_eq_some.mpr hbefore) name hname
    · -- the target was compiled in this visit, from the name that every visit reads
      cases hb'
      have hmem : d ∈ news.filter fun c => c.id = s.context.id :=
        List.mem_filter.mpr ⟨hd, decide_eq_true (hid.trans hsince.id)⟩
      rw [hfirst _ (World.entries_append hnews _), List.mem_singleton] at hmem
      subst hmem
      obtain ⟨name', hname', hcompile⟩ := Context.readAnew_ok_iff.mp hanew
      have hread := (Context.variableTarget?_eq_some.mp hname).1
      exact (compile_named hcompile).1.trans (Except.ok.inj (hname'.symm.trans hread))

theorem Echo.noted (hs : s.Candid handlers) (parent : Context) (actor : ActorId)
    (outcome : Outcome) (hparent : parent'.forgetful = parent.forgetful) :
    Echo handlers s (s.noted parent actor outcome) fun s' t' =>
      t' = s'.noted parent' actor outcome := by
  have hentry : visitEntry parent' actor outcome = visitEntry parent actor outcome := by
    rw [Context.eq_of_forgetful hparent]
    cases outcome <;> rfl
  simp only [State.noted, hentry]
  cases visitEntry parent actor outcome with
  | none => exact Echo.refl hs
  | some entry => exact Echo.log hs entry

theorem visit_echo (hf : Echoes handlers f f') (hparent : parent'.forgetful = parent.forgetful)
    (hs : s.Candid handlers) (h : driveWith f m false (s.resetFor actor) = some (outcome, t)) :
    Echo handlers s (t.noted parent actor outcome) fun s' u' =>
      ∃ t', driveWith f' m false (s'.resetFor actor) = some (outcome, t') ∧
        u' = t'.noted parent' actor outcome := by
  have hreset : Echo handlers s (s.resetFor actor) fun s' t' => t' = s'.resetFor actor :=
    Echo.run (e := .reset (some actor)) (by simp [Effect.Discreet]) hs
  have hdrive := hreset.trans (driveWith_echo hf false hreset.1.candid h) <| by
    rintro s' v' t' _ _ rfl ht'
    exact ht'
  exact hdrive.trans (Echo.noted hdrive.1.candid parent actor outcome hparent)
    fun _ t' _ _ _ ht' hu' => ⟨t', ht', hu'⟩

/-- In a context that is used for one target, the names that are read do not change. -/
theorem visitAll_echo (hf : Echoes handlers (step handlers n) (stepAnew handlers n))
    (ha : a.Contained handlers) (hparent : parent'.forgetful = parent.forgetful)
    (hs : s.Attuned handlers a) (h : visitAll (step handlers n) m parent actors s = some t) :
    Calm s t ∧ Echo handlers s t fun s' t' =>
      visitAll (stepAnew handlers n) m parent' actors s' = some t' := by
  induction actors generalizing s with
  | nil =>
    cases h
    refine ⟨?_, (Echo.refl hs.toCandid).mono ?_⟩
    · intro news hnews c hc
      rw [List.self_eq_append_left.mp hnews] at hc
      cases hc
    · rintro s' t' _ rfl
      rfl
  | cons actor actors ih =>
    rw [visitAll_cons] at h
    split at h
    · cases h
    · rename_i outcome u hu
      have hvisit := visit_echo hf hparent hs.toCandid hu
      obtain ⟨hcalm, hattuned⟩ := visit_attuned ha hs hu hvisit.1
      obtain ⟨hrest, hecho⟩ := ih hattuned h
      refine ⟨hcalm.trans hvisit.1 hecho.1 hrest, hvisit.trans hecho ?_⟩
      rintro s' v' t' _ _ ⟨u', hu', rfl⟩ ht'
      rw [visitAll_cons, hu']
      exact ht'

theorem State.Akin.forTarget (h : s.Akin s') (a : Action) :
    (s.forTarget a).Akin (s'.forTarget a) := by
  have hid := h.sameWorld (fun w => w.rent.2.newContext.1) fun _ => rfl
  have hitems := h.sameWorld (fun w => w.rent.1) fun _ => rfl
  refine ⟨?_, congrArg (fun w : World => w.rent.2.newContext.2) h.world⟩
  simp only [State.forTarget, hid, hitems]
  rw [Context.eq_of_forgetful h.context]
  rfl

theorem eachWith_echo (hf : Echoes handlers (step handlers n) (stepAnew handlers n))
    (ha : a.definition.behaviour.Discreet handlers) (hs : s.Candid handlers)
    (h : eachWith (step handlers n) m a actors s = some t) :
    Echo handlers s t fun s' t' => eachWith (stepAnew handlers n) m a actors s' = some t' := by
  rw [eachWith_eq] at h
  obtain ⟨u, hu, rfl⟩ := Option.map_eq_some_iff.mp h
  have hattuned := State.forTarget_attuned hs ha
  obtain ⟨hcalm, hecho⟩ := visitAll_echo hf ha.contained (rfl : _ = s.context.forgetful) hattuned hu
  refine ⟨.child hs hecho.1 hcalm, fun s' hs' _ => ?_⟩
  obtain ⟨-, hecho⟩ := visitAll_echo hf ha.contained hs'.context hattuned hu
  obtain ⟨u', hu', hakin⟩ := hecho.2 (s'.forTarget a) (hs'.forTarget a) hcalm
  refine ⟨{ context := s'.context, world := u'.dispose.world }, ?_, hs'.context, ?_⟩
  · simp only [eachWith_eq, hu', Option.map_some]
  · exact (Effect.run_akin .dispose hakin).2.world

theorem Echoes.nested (h : Echoes handlers (step handlers n) (stepAnew handlers n)) :
    EchoesNested handlers (.ofStepper (step handlers n) n) (.ofStepper (stepAnew handlers n) n) :=
  ⟨fun _ _ _ _ _ hs hb => blockWith_echo h hs hb, fun _ _ _ _ ha hs he => eachWith_echo h ha hs he⟩

-- ---------------------------------------------------------------------------
-- Steps
-- ---------------------------------------------------------------------------

theorem Context.readVisit_target {c : Context}
    (h : (c.readVisit whom).result = .ok (actors, a)) : c.readTarget.result = .ok a := by
  simp only [readVisit, Reading.bind_ok, Reading.result_pure] at h
  obtain ⟨v, -, ids, -, b, hb, hpair⟩ := h
  cases hpair
  exact hb

/-- A For statement finds the same when it is entered, if the variable that says what to run has
not changed. -/
theorem State.Akin.readVisit (h : s.Akin s') (hs : s.Candid handlers)
    (hsteady : s.context.sync.Steady) (whom : Value → Except RuntimeError (List ActorId)) :
    (s'.forgetting.entered.context.readVisit whom).result =
      (s.entered.context.readVisit whom).result := by
  have hcontext : s'.forgetting.entered.context = s.context.forgetful.sync :=
    congrArg Context.sync h.context
  have htarget : s.context.forgetful.sync.readTarget.result =
      s.context.sync.readTarget.result :=
    calc s.context.forgetful.sync.readTarget.result
      _ = s.context.forgetful.sync.readAnew.result := Context.readTarget_of_none rfl
      _ = s.context.sync.readAnew.result := rfl
      _ = s.context.sync.readTarget.result :=
        ((hs.context.sync.readTarget_eq_iff rfl).mpr hsteady).symm
  have hslot : (s.context.forgetful.sync.readSlot 0).result =
      (s.context.sync.readSlot 0).result := rfl
  rw [hcontext]
  simp only [Context.readVisit, Reading.result_bind, State.entered, htarget, hslot]

section
variable {nested nested' : Nested}

theorem visiting_echo (hs : s.Candid handlers)
    (hb : s.context.actions[s.context.index]? = some b) (hfor : b.isFor = true)
    (hnested : EchoesNested handlers nested nested')
    (h : s.entered.visiting nested (s.entered.context.readVisit whom) = some (x, t)) :
    Echo handlers s t fun s' t' =>
      s'.forgetting.entered.visiting nested' (s'.forgetting.entered.context.readVisit whom) =
        some (x, t') := by
  generalize hread : s.entered.context.readVisit whom = r at h
  have hentries (u : State) (hu : u.world = s.entered.world.recordCalls r.calls) :
      u.world.entries s.context.id = s.context.sync :: s.world.entries s.context.id := by
    rw [hu, World.entries_recordCalls]
    exact s.entries_entered
  simp only [State.visiting] at h
  split at h
  · rename_i e hr
    cases h
    have hcandid : (s.entered.having r).Candid handlers :=
      ⟨(Since.entered hs).candid.context, hs.clean⟩
    refine ⟨(Since.entered hs).trans ?_, fun s' hs' hcalm => ?_⟩
    · exact .silent hcandid rfl (World.entrances_recordCalls _ _) fun _ _ hm => hm
    · have hsteady := hcalm.first (hentries _ rfl) (.refl hcandid)
      have hr' := hs'.readVisit hs hsteady whom
      rw [hread, hr] at hr'
      refine ⟨s'.forgetting.entered.having (s'.forgetting.entered.context.readVisit whom), ?_,
        hs'.entered.context, ?_⟩
      · simp only [State.visiting, hr']
      · simp only [State.having, World.story_recordCalls, hs'.entered.world]
  · rename_i actors a hr
    obtain ⟨u, hu, hx⟩ := Option.map_eq_some_iff.mp h
    cases hx
    have ha : s.context.sync.readTarget.result = .ok a :=
      Context.readVisit_target ((congrArg Reading.result hread).trans hr)
    have htargeting := Since.targeting hs hb hfor ha r
    have hknown := (Since.entered hs).candid.context.target_known rfl ha
    have hecho := hnested.each a actors _ t (hs.context.definitions _ hknown) htargeting.candid hu
    refine ⟨htargeting.trans hecho.1, fun s' hs' hcalm => ?_⟩
    have hsteady := hcalm.first (hentries _ rfl) hecho.1
    have hr' := hs'.readVisit hs hsteady whom
    rw [hread, hr] at hr'
    have hakin : (s.entered.targeting r a).Akin
        (s'.forgetting.entered.targeting (s'.forgetting.entered.context.readVisit whom) a) := by
      refine ⟨hs'.entered.context, ?_⟩
      simp only [State.targeting, State.having, World.story_recordCalls, hs'.entered.world]
    obtain ⟨t', ht', hlast⟩ := hecho.2 _ hakin (hcalm.right htargeting)
    refine ⟨t', ?_, hlast⟩
    simp only [State.visiting, hr']
    rw [State.targeting] at ht'
    rw [ht']
    rfl

theorem enter_echo (hs : s.Candid handlers) (ha : s.context.actions[s.context.index]? = some a)
    (hnested : EchoesNested handlers nested nested')
    (h : (a.definition.behaviour.handler handlers).exec nested s.entered = some (x, t)) :
    Echo handlers s t fun s' t' =>
      (a.definition.behaviour.handler handlers).exec nested' s'.forgetting.entered =
        some (x, t') := by
  have hentered := Echo.entered hs
  have hplain (hp : ∀ m, (a.definition.behaviour.handler handlers).Overlooks fun c =>
        { c with metadata := m })
      (hw : (a.definition.behaviour.handler handlers).Within Effect.Discreet True False) :
      Echo handlers s t fun s' t' =>
        (a.definition.behaviour.handler handlers).exec nested' s'.forgetting.entered =
          some (x, t') := by
    refine hentered.trans (Prog.exec_echo hp hw hnested hentered.1.candid h) ?_
    rintro s' u' t' _ _ rfl ht'
    exact ht'
  have hdiscreet := hs.context.actions a (List.mem_of_getElem? ha)
  cases hbehaviour : a.definition.behaviour with
  | builtin b =>
    by_cases htarget : b.HasTarget
    · have hfor : a.isFor = true := by
        simpa [Action.isFor, hbehaviour, Builtin.HasTarget] using htarget
      rw [hbehaviour] at h
      rcases htarget with rfl | rfl
      · simp only [Behaviour.handler, Builtin.handler, exec_for] at h ⊢
        exact visiting_echo hs ha hfor hnested h
      · simp only [Behaviour.handler, Builtin.handler, exec_forEach] at h ⊢
        exact visiting_echo hs ha hfor hnested h
    · rw [hbehaviour] at hplain
      refine hplain (fun m => b.handler_overlooks
        (fun c => ⟨c.id, c.parent, c.continuation, m, rfl⟩) fun hb => (htarget hb).elim)
        (b.handler_within.mono ?_ (fun _ => trivial) htarget)
      rintro e he i m rfl
      exact htarget he.1
  | host name =>
    rw [hbehaviour] at hplain hdiscreet
    exact hplain hdiscreet.1 (hdiscreet.2.mono (fun _ he => he.1) False.elim id)
  | idle =>
    rw [hbehaviour] at hplain
    exact hplain (fun _ => trivial) trivial

end

theorem step_echo (handlers : Handlers) (n : Nat) :
    Echoes handlers (step handlers n) (stepAnew handlers n) := by
  -- on the fuel: what a handler nests runs with less of it
  induction n with
  | zero =>
    intro s x t _ h
    cases h
  | succ n ih =>
    intro s x t hs h
    simp only [step] at h
    cases ha : s.context.actions[s.context.index]? with
    | none =>
      rw [dispatch_none ha] at h
      cases h
      refine ⟨.silent ⟨hs.context.sync, hs.clean⟩ rfl rfl fun _ _ hm => hm, fun s' hs' _ => ?_⟩
      have ha' : s'.context.actions[s'.context.index]? = none := by rw [hs'.actions, hs'.index, ha]
      refine ⟨_, dispatch_none ha', ?_, hs'.world⟩
      exact congrArg Context.sync hs'.context
    | some a =>
      rw [dispatch_some ha] at h
      split at h
      · cases h
      · rename_i y u hu
        have hhandler : Echo handlers s u fun s' t' =>
            (a.definition.behaviour.handler handlers).exec
              (.ofStepper (stepAnew handlers n) n) s'.forgetting.entered = some (y, t') :=
          enter_echo hs ha ih.nested hu
        have hanswer := answer_echo hhandler.1.candid s.context.index a y
        rw [Option.some.inj h] at hanswer
        refine hhandler.trans hanswer ?_
        intro s' u' t' hs' _ hu' ht'
        have ha' : s'.forgetting.context.actions[s'.forgetting.context.index]? = some a := by
          have hsame : s'.context.actions[s'.context.index]? = some a := by
            rw [hs'.actions, hs'.index, ha]
          exact hsame
        simp only [stepAnew]
        rw [dispatch_some ha', hu']
        rw [← hs'.index] at ht'
        exact congrArg some ht'

-- ---------------------------------------------------------------------------
-- Histories of a context
-- ---------------------------------------------------------------------------

inductive HostMove where
  | use (u : Use)
  | resume

def Use.Discreet : Use → Prop
  | .effect e => e.Discreet
  | .perform p => (∀ m, p.Overlooks fun c => { c with metadata := m }) ∧
      p.Within Effect.Discreet True False
  | _ => True

def HostMove.Discreet : HostMove → Prop
  | .use u => u.Discreet
  | .resume => True

def playOut (f : Stepper) (fuel : Nat) : List HostMove → State → Option (List Reply × State)
  | [], s => some ([], s)
  | .use u :: moves, s =>
    match u.exec f fuel s with
    | none => none
    | some (reply, t) => (playOut f fuel moves t).map fun r => (reply :: r.1, r.2)
  | .resume :: moves, s =>
    playOut f fuel moves { s with context := { s.context with continuation := none } }

theorem Use.exec_echo {u : Use} (hu : u.Discreet) (hs : s.Candid handlers)
    (h : u.exec (step handlers n) n s = some (reply, t)) :
    Echo handlers s t fun s' t' => u.exec (stepAnew handlers n) n s' = some (reply, t') := by
  have hstep := step_echo handlers n
  cases u with
  | effect e =>
    cases h
    refine (Echo.effect hu hs).mono ?_
    intro s' t' _ he'
    simp only [exec, he']
  | perform p =>
    obtain ⟨⟨x, u⟩, hx, hr⟩ := Option.map_eq_some_iff.mp h
    cases hr
    refine (Prog.exec_echo hu.1 hu.2 hstep.nested hs hx).mono ?_
    intro s' t' _ ht'
    simp only [exec, ht', Option.map_some, Prod.map_apply, id_eq]
  | run | iterate =>
    obtain ⟨⟨o, u⟩, hu, hr⟩ := Option.map_eq_some_iff.mp h
    cases hr
    refine (driveWith_echo hstep _ hs hu).mono ?_
    intro s' t' _ ht'
    simp only [exec, ht', Option.map_some, Prod.map_apply, id_eq]
  | block start stop =>
    obtain ⟨⟨b, u⟩, hu, hr⟩ := Option.map_eq_some_iff.mp h
    cases hr
    refine (blockWith_echo hstep hs hu).mono ?_
    intro s' t' _ ht'
    simp only [exec, ht', Option.map_some, Prod.map_apply, id_eq]

theorem playOut_echo (hmoves : ∀ move ∈ moves, HostMove.Discreet move) (hs : s.Candid handlers)
    (h : playOut (step handlers n) n moves s = some (replies, t)) :
    Echo handlers s t fun s' t' =>
      playOut (stepAnew handlers n) n moves s' = some (replies, t') := by
  induction moves generalizing s replies with
  | nil =>
    cases h
    refine (Echo.refl hs).mono ?_
    rintro s' t' _ rfl
    rfl
  | cons move moves ih =>
    obtain ⟨hmove, hlater⟩ := List.forall_mem_cons.mp hmoves
    cases move with
    | resume =>
      have hkept : State.Candid handlers
          { s with context := { s.context with continuation := none } } :=
        ⟨hs.context.keep rfl rfl rfl fun _ _ hm => hm, hs.clean⟩
      have hfirst : Echo handlers s _ fun s' t' =>
          t' = { s' with context := { s'.context with continuation := none } } :=
        ⟨.silent hkept rfl rfl fun _ _ hm => hm, fun s' hs' _ => ⟨_, rfl,
          congrArg (fun c : Context => { c with continuation := none }) hs'.context, hs'.world⟩⟩
      refine hfirst.trans (ih hlater hkept h) ?_
      rintro s' _ t' _ _ rfl ht'
      exact ht'
    | use u =>
      simp only [playOut] at h
      split at h
      · cases h
      · rename_i reply v hv
        obtain ⟨⟨rest, w⟩, hrest, hr⟩ := Option.map_eq_some_iff.mp h
        cases hr
        have hfirst := Use.exec_echo hmove hs hv
        refine hfirst.trans (ih hlater hfirst.1.candid hrest) ?_
        intro s' u' t' _ _ hu' ht'
        simp only [playOut, hu', ht', Option.map_some]

end

/-- What a For statement runs that is entered in a history from `s` on, if `older` have been
entered before. -/
structure RunsCompiled (s : State) (older : List Context) (c : Context) : Prop where
  /-- It runs what its words compile to now if and only if a variable that says what to run says
  what is remembered. -/
  anew : c.readTarget.result = c.readAnew.result ↔ c.Steady
  steady : c.id ≠ s.context.id → c.Steady
  source : ∀ a, c.remembered? = some a →
    c.id = s.context.id ∧ s.context.metadata.get? c.targetKey = some (.target a) ∨
      CompiledAt older c.id c.index a

structure Transparent (handlers : Handlers) (fuel : Nat) (moves : List HostMove) (s : State)
    (replies : List Reply) (t : State) : Prop where
  entered : ∃ news, t.world.entrances = news ++ s.world.entrances ∧
    ∀ newer c older, news = newer ++ c :: older → ∀ b, c.current = some b → b.isFor = true →
      RunsCompiled s older c
  /-- As long as no statement of the context finds another name in a variable than it has
  remembered, nothing else differs if targets are compiled anew every time. -/
  same : Calm s t → ∀ s', s.Akin s' → ∃ t',
    playOut (stepAnew handlers fuel) fuel moves s' = some (replies, t') ∧ t.Akin t'

theorem targets_transparent (hs : s.Candid handlers)
    (hmoves : ∀ move ∈ moves, HostMove.Discreet move)
    (h : playOut (step handlers fuel) fuel moves s = some (replies, t)) :
    Transparent handlers fuel moves s replies t := by
  obtain ⟨hsince, hback⟩ := playOut_echo hmoves hs h
  obtain ⟨news, hnews, -, hentered⟩ := hsince.entrances
  refine ⟨⟨news, hnews, ?_⟩, fun hcalm s' hs' => hback s' hs' hcalm⟩
  intro newer c older hsplit b _ _
  have hc := hentered newer c older hsplit
  refine ⟨hc.candid.readTarget_eq_iff hc.current, hc.steady, fun a ha => ?_⟩
  obtain hbefore | ⟨a', ha', hcompiled⟩ :=
    hc.sourced c.index (.target a) (Context.remembered?_eq_some.mp ha)
  · exact .inl hbefore
  · cases ha'
    exact .inr hcompiled

-- ---------------------------------------------------------------------------
-- Scripts of built-in actions
-- ---------------------------------------------------------------------------

theorem Script.IsBuiltin.candid (h : Script.IsBuiltin script) (handlers : Handlers)
    (i : ContextId) (actor : Option ActorId) :
    (Context.fresh i script.name .builtins (.shared script.actions) actor).Candid handlers := by
  refine .unremembering ?_ ?_ rfl
  · intro a ha
    obtain ⟨b, hb⟩ := h.actions ha
    rw [hb]
    trivial
  · intro d hd
    obtain ⟨b, hb, -⟩ := Registry.builtins_needWords d hd
    rw [hb]
    trivial

def startOf (source : String) : Option State :=
  ((compile .builtins "test" source).result.toOption.bind ScriptUnit.main?).map fun script =>
    { context := .fresh 1 script.name .builtins (.shared script.actions) none
      world := .initial fun _ => 0 }

theorem startOf_candid (h : startOf source = some s) (handlers : Handlers) :
    s.Candid handlers := by
  obtain ⟨script, hscript, rfl⟩ := Option.map_eq_some_iff.mp h
  obtain ⟨u, hu, hmain⟩ := Option.bind_eq_some_iff.mp hscript
  have hcompile : (compile .builtins "test" source).result = .ok u := by
    cases hr : (compile .builtins "test" source).result with
    | error e =>
      rw [hr] at hu
      cases hu
    | ok v =>
      rw [hr] at hu
      cases hu
      rfl
  have hbuiltin : Script.IsBuiltin script :=
    ⟨"test", source, u, hcompile, List.mem_of_find?_eq_some hmain⟩
  exact ⟨hbuiltin.candid handlers 1 none, by simp [World.Clean, World.initial, Pool.empty]⟩

def State.messages (s : State) : List String :=
  (Event.logs s.world.trace false).map LogEntry.message

def renewing : String :=
  "Set Log -> $t\nRepeat 2 2 0\nForEach 1,2 $t hi\nFor #3 For #4 $t deep\n"

def again : List HostMove := [.use .iterate, .use (.effect (.reset none)), .use .run]

/-- It is run again after a reset, and finds its targets remembered. -/
theorem targets_transparent_renewed : ∃ s replies t, startOf renewing = some s ∧
    playOut (step .none 9) 9 again s = some (replies, t) ∧
    t.messages = ["hi", "hi", "deep", "hi", "hi", "deep", "hi", "hi", "deep", "hi", "hi", "deep"] ∧
    (t.world.entries s.context.id).any (fun c => c.remembered?.isSome) = true ∧
    ∃ t', playOut (stepAnew .none 9) 9 again s =
      some (replies, t') ∧ t.Akin t' := by
  have heval : (startOf renewing).bind (fun s =>
      (playOut (step .none 9) 9 again s).map fun r =>
        (r.2.messages, (r.2.world.entries s.context.id).any fun c => c.remembered?.isSome,
          (r.2.world.entries s.context.id).all fun c => decide c.Steady)) =
      some (["hi", "hi", "deep", "hi", "hi", "deep", "hi", "hi", "deep", "hi", "hi", "deep"],
        true, true) := by
    decide +kernel
  obtain ⟨s, hs, hr⟩ := Option.bind_eq_some_iff.mp heval
  obtain ⟨⟨replies, t⟩, ht, hfacts⟩ := Option.map_eq_some_iff.mp hr
  simp only [Prod.mk.injEq] at hfacts
  obtain ⟨hmessages, hremembered, hsteady⟩ := hfacts
  have htransparent := targets_transparent (startOf_candid hs .none)
    (by simp [again, HostMove.Discreet, Use.Discreet, Effect.Discreet]) ht
  refine ⟨s, replies, t, hs, ht, hmessages, hremembered, htransparent.same ?_ s ⟨rfl, rfl⟩⟩
  intro news hnews c hc
  have hmem : c ∈ t.world.entries s.context.id := hnews ▸ List.mem_append_left _ hc
  exact of_decide_eq_true (List.all_eq_true.mp hsteady c hmem)

def wavering : String := "Set Log -> $t\nRepeat 2 2 0\nFor #1 $t hi\nSet Set -> $t\n"

def forsEntered (source : String) : Option (List Context) :=
  (startOf source).bind fun s => (playOut (step .none 7) 7 [.use .run] s).map fun r =>
    (r.2.world.entries s.context.id).filter fun c => c.current.any Action.isFor

/-- The statement goes on with what it has compiled first, and does something else than if it
compiled its target again. -/
theorem renamed_target_kept :
    (forsEntered wavering).map (·.map fun c => c.readTarget.result.toOption.map Action.id) =
      some [some "Log", some "Log"] ∧
    (forsEntered wavering).map (·.map fun c => c.readAnew.result.toOption.map Action.id) =
      some [some "Set", some "Log"] ∧
    ((startOf wavering).bind fun s => (playOut (step .none 7) 7 [.use .run] s).map fun r =>
      r.2.messages) = some ["hi", "hi"] ∧
    ((startOf wavering).bind fun s => (playOut (stepAnew .none 7) 7 [.use .run] s).map fun r =>
      r.2.messages) = some ["hi"] := by
  decide +kernel

end Playbook
