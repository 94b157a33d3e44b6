import Playbook.Proofs.Culprits

/-!
# Stops and failures come up unchanged

An action that stops or fails decides the iteration in which it is dispatched, however deep in
blocks it stands, and one error is logged about it (`iteration_surfaces`). All other errors that
are logged meanwhile are those of sub-contexts, or the host's own (`reports_weaves`). What stops or
fails for the target of a For or ForEach does nothing to the context of the statement
(`Instant.Ends.onward`).

Two things do not come up as the action left them (`stop_and_failure_altered`). The error of an
action that resets its context is logged about the first action, and a stop suspends the run where
an earlier action has left iterations for later.
-/

namespace Playbook

-- ---------------------------------------------------------------------------
-- Errors in the log
-- ---------------------------------------------------------------------------

def Handlers.Utters (handlers : Handlers) (entry : LogEntry) : Prop :=
  ∃ name, ¬ (handlers name).Within (· ≠ .log entry) True True

/-- A program does nothing but what it could not be without. -/
theorem Prog.within_self (p : Prog α) :
    p.Within (fun e => ¬ p.Within (· ≠ e) True True) True True := by
  induction p with
  | done | fail | panic => trivial
  | look next ih => exact fun c => (ih c).mono (fun _ he h => he (h c)) id id
  | perform e next ih =>
    exact ⟨fun h => h.1 rfl, fun r => (ih r).mono (fun _ he h => he (h.2 r)) id id⟩
  | block start stop next ih =>
    exact ⟨trivial, fun r => (ih r).mono (fun _ he h => he (h.2 r)) id id⟩
  | each target actors next ih => exact ⟨trivial, ih.mono (fun _ he h => he h.2) id id⟩

/-- The entry is no error, or it is the host's own, or a failure of one of the contexts. -/
def LogEntry.Permitted (handlers : Handlers) (whose : ContextId → Prop) (entry : LogEntry) : Prop :=
  entry.level = .error →
    handlers.Utters entry ∨ ∃ c e, whose c.id ∧ entry = failureEntry c e

theorem LogEntry.Permitted.mono {entry : LogEntry} (h : entry.Permitted handlers whose)
    (hwhose : ∀ i, whose i → whose' i) : entry.Permitted handlers whose' := fun herror =>
  (h herror).imp_right fun ⟨c, e, hc, heq⟩ => ⟨c, e, hwhose _ hc, heq⟩

structure State.Reports (handlers : Handlers) (whose : ContextId → Prop) (s t : State) : Prop where
  id : t.context.id = s.context.id
  contexts : s.world.nextContext ≤ t.world.nextContext
  news : ∃ news, t.world.trace = news ++ s.world.trace ∧
    ∀ entry, .log entry ∈ news → entry.Permitted handlers whose

theorem World.trace_cancel (w : World) (i : ContextId) : (w.cancel i).trace = w.trace := by
  obtain ⟨_, h⟩ := w.cancel_eq i
  rw [h]

theorem World.trace_release (w : World) (q : Sequence) : (w.release q).trace = w.trace := by
  cases q <;> rfl

namespace State.Reports

variable {handlers : Handlers} {whose : ContextId → Prop} {s t u : State}

theorem trans (h : s.Reports handlers whose t) (h' : t.Reports handlers whose' u)
    (hwhose : ∀ i, whose' i → whose i) : s.Reports handlers whose u := by
  obtain ⟨news, hnews, hlogs⟩ := h.news
  obtain ⟨more, hmore, hlogs'⟩ := h'.news
  refine ⟨h'.id.trans h.id, Nat.le_trans h.contexts h'.contexts, more ++ news, ?_, ?_⟩
  · rw [hmore, hnews, List.append_assoc]
  · intro entry hentry
    rcases List.mem_append.mp hentry with hentry | hentry
    · exact (hlogs' entry hentry).mono hwhose
    · exact hlogs entry hentry

theorem mono (h : s.Reports handlers whose t) (hwhose : ∀ i, whose i → whose' i) :
    s.Reports handlers whose' t := by
  obtain ⟨news, hnews, hlogs⟩ := h.news
  exact ⟨h.id, h.contexts, news, hnews, fun entry hentry => (hlogs entry hentry).mono hwhose⟩

theorem of_quiet (hid : t.context.id = s.context.id)
    (hcontexts : s.world.nextContext ≤ t.world.nextContext)
    (htrace : t.world.trace = s.world.trace) : s.Reports handlers whose t :=
  ⟨hid, hcontexts, [], htrace, by simp⟩

theorem refl (s : State) : s.Reports handlers whose s := .of_quiet rfl (Nat.le_refl _) rfl

theorem single (event : Event) (hid : t.context.id = s.context.id)
    (hcontexts : s.world.nextContext ≤ t.world.nextContext)
    (htrace : t.world.trace = event :: s.world.trace)
    (hevent : ∀ entry, event = .log entry → entry.Permitted handlers whose) :
    s.Reports handlers whose t := by
  refine ⟨hid, hcontexts, [event], htrace, fun entry hentry => hevent entry ?_⟩
  exact (List.mem_singleton.mp hentry).symm

theorem effect (e : Effect) (s : State)
    (h : ∀ entry, e = .log entry → entry.Permitted handlers whose) :
    s.Reports handlers whose (e.run s).2 := by
  have hgrows := State.Grows.effect e s
  have hquiet (htrace : (e.run s).2.world.trace = s.world.trace) :
      s.Reports handlers whose (e.run s).2 :=
    .of_quiet hgrows.id hgrows.world.contexts htrace
  have hcalls (calls : List ParseCall)
      (htrace : (e.run s).2.world.trace = calls.reverse.map Event.parse ++ s.world.trace) :
      s.Reports handlers whose (e.run s).2 :=
    ⟨hgrows.id, hgrows.world.contexts, _, htrace, by simp⟩
  cases e with
  | setIndex i =>
    refine hquiet ?_
    simp only [Effect.run]
    split <;> rfl
  | cancel => exact hquiet (s.world.trace_cancel s.context.id)
  | revoke i =>
    obtain ⟨_, h⟩ := s.world.revoke_eq i
    exact hquiet (by simp only [Effect.run, h])
  | dispose =>
    cases hd : s.context.disposed with
    | true =>
      refine hquiet ?_
      simp only [Effect.run, World.dispose, hd, ↓reduceIte]
    | false =>
      refine .single (.log s.context.disposalEntry) hgrows.id hgrows.world.contexts ?_ ?_
      · simp only [Effect.run, World.dispose, hd, Bool.false_eq_true, ↓reduceIte]
        rw [World.trace_release, World.log, World.record, World.trace_cancel]
        rfl
      · rintro entry ⟨⟩ ⟨⟩
  | readSlot | compile => exact hcalls _ rfl
  | log entry =>
    refine .single _ hgrows.id hgrows.world.contexts rfl ?_
    rintro _ ⟨⟩
    exact h entry rfl
  | note values =>
    exact .single _ hgrows.id hgrows.world.contexts rfl fun entry h' => by cases h'
  | _ => exact hquiet rfl

end State.Reports

theorem Behaviour.handler_permitted (handlers : Handlers) (b : Behaviour) :
    (b.handler handlers).Within
      (fun e => ∀ entry, e = .log entry → entry.Permitted handlers fun _ => False) True True := by
  cases b with
  | builtin b =>
    refine b.handler_needs.mono ?_ (fun _ => trivial) fun _ => trivial
    rintro e he entry rfl herror
    cases (he : entry.level = .info).symm.trans herror
  | host name =>
    refine (Prog.within_self _).mono ?_ id id
    rintro e he entry rfl -
    exact .inl ⟨name, he⟩
  | idle => trivial

theorem reports_composes (handlers : Handlers) :
    Composes fun s _ t => ∀ u, t = some u → s.Reports handlers (s.world.nextContext ≤ ·) u where
  stay s := by
    rintro u ⟨⟩
    exact .refl s
  cut s ms t _ := by
    rintro u ⟨⟩
  append s ms t ms' v h h' u hu :=
    (h t rfl).trans (h' u hu) fun _ hi => Nat.le_trans (h t rfl).contexts hi

theorem reports_weaves (handlers : Handlers) :
    Weaves handlers (fun _ => True)
      (fun s _ t => ∀ u, t = some u → s.Reports handlers (s.world.nextContext ≤ ·) u)
      (fun s _ t => ∀ u, t = some u → s.Reports handlers
        (fun i => i = s.context.id ∨ s.world.nextContext ≤ i) u) where
  toComposes := reports_composes handlers
  handler nested inner hblock heach s a ha := by
    have henter : ∀ u, some s.entered = some u →
        s.Reports handlers (s.world.nextContext ≤ ·) u := by
      rintro u ⟨⟩
      exact .single (.dispatch s.context.sync) rfl (Nat.le_refl _) rfl (by simp)
    have heffect (e : Effect) (s : State)
        (he : ∀ entry, e = .log entry → entry.Permitted handlers fun _ => False) :
        ∀ u, some (e.run s).2 = some u → s.Reports handlers (s.world.nextContext ≤ ·) u := by
      rintro u ⟨⟩
      exact .effect e s fun entry h => (he entry h).mono fun _ => False.elim
    exact (reports_composes handlers).append s [⟨.enter, s⟩] s.entered
      ((a.definition.behaviour.handler handlers).trail nested inner s.entered) _ henter
      ((reports_composes handlers).exec nested inner
        (a.definition.behaviour.handler_permitted handlers) heffect (fun _ => hblock)
        (fun _ target actors s => heach target actors s trivial) s.entered)
  setIndex i s := by
    rintro u ⟨⟩
    exact .effect _ s (by simp)
  sync s := by
    rintro u ⟨⟩
    exact .of_quiet rfl (Nat.le_refl _) rfl
  whole s ms t h u hu := (h u hu).mono fun _ => .inr
  join s ms t ms' v h h' u hu := by
    refine (h t rfl).trans (h' u hu) ?_
    rintro i (hi | hi)
    · exact .inl (hi.trans (h t rfl).id)
    · exact .inr (Nat.le_trans (h t rfl).contexts hi)
  own s e he := by
    rintro u ⟨⟩
    refine .effect e s ?_
    rintro entry rfl herror
    cases he with
    | completed => cases herror
    | failed err => exact .inr ⟨s.context, err, .inl rfl, rfl⟩
  note s parent actor outcome := by
    rintro u ⟨⟩
    cases hentry : visitEntry parent actor outcome with
    | none => exact .refl s
    | some entry =>
      refine .effect (.log entry) s ?_
      rintro _ ⟨⟩ herror
      cases outcome <;> cases hentry <;> cases herror
  child s target ms t _ h _ := by
    rintro u hu
    obtain ⟨v, rfl, rfl⟩ := Option.map_eq_some_iff.mp hu
    obtain ⟨-, hcontexts, news, hnews, hlogs⟩ := h v rfl
    have hcontexts : s.world.nextContext + 1 ≤ v.world.nextContext := hcontexts
    refine ⟨rfl, Nat.le_of_succ_le hcontexts, news, hnews, fun entry hentry => ?_⟩
    refine (hlogs entry hentry).mono ?_
    rintro i (rfl | hi)
    · exact Nat.le_refl _
    · exact Nat.le_of_succ_le hi

section
variable {handlers : Handlers} {m : Instant} {a : Action} {b : Builtin} {x : Ending Flags}
  {s t u : State}

/-- The errors that the steps of a run log are not its own. -/
theorem Halts.reports (h : Halts (Eventually (step handlers)) bound s e t) :
    s.Reports handlers (s.world.nextContext ≤ ·) t := by
  have hstep {s t : State} {x : Except RuntimeError Flags}
      (hR : Eventually (step handlers) s (x, t)) :
      s.Reports handlers (s.world.nextContext ≤ ·) t := by
    obtain ⟨n, hn⟩ := hR
    exact (reports_weaves handlers).step n s t (by rw [hn]; rfl)
  induction h with
  | done => exact .refl _
  | fail _ hR | stop _ hR _ => exact hstep hR
  | more _ hR _ _ ih =>
    exact (hstep hR).trans ih fun _ hi => Nat.le_trans (hstep hR).contexts hi

-- ---------------------------------------------------------------------------
-- Targets
-- ---------------------------------------------------------------------------

theorem visiting_onward {nested : Nested} {r : Reading RuntimeError (List ActorId × Action)}
    (heach : ∀ target actors s t, nested.each target actors s = some t → t.context = s.context)
    (h : s.visiting nested r = some (x, t)) (hdispatched : t.world.entrances ≠ s.world.entrances) :
    x = .value .proceed ∧ t.context = { s.context with metadata := t.context.metadata } := by
  unfold State.visiting at h
  split at h
  · cases h
    exact absurd (s.world.entrances_recordCalls r.calls) hdispatched
  · rename_i actors a _
    obtain ⟨u, hu, ht⟩ := Option.map_eq_some_iff.mp h
    cases ht
    refine ⟨rfl, ?_⟩
    rw [heach _ _ _ _ hu]
    rfl

/-- Once anything has been dispatched for the target of a For or ForEach, the statement is passed
over with success, and nothing but what is remembered of the target has changed in its context. -/
theorem Instant.Ends.onward (hm : m.Ends handlers a x u)
    (ha : a.definition.behaviour = .builtin b) (hb : b.HasTarget)
    (hdispatched : u.world.entrances ≠ m.after.world.entrances) :
    x = .value .proceed ∧ u.context = { m.after.context with metadata := u.context.metadata } ∧
      Eventually (step handlers) m.before
        (.ok .proceed, u.moveTo (m.before.context.index + 1)) := by
  obtain ⟨n, hn⟩ := hm.ends
  have hafter : m.after = m.before.entered := by rw [Instant.after, hm.enters]
  have hvisit : x = .value .proceed ∧
      u.context = { m.after.context with metadata := u.context.metadata } := by
    rw [hafter] at hdispatched ⊢
    rcases hb with rfl | rfl
    · simp only [ha, Behaviour.handler, Builtin.handler, exec_for] at hn
      exact visiting_onward (fun _ _ _ _ => eachWith_context) hn hdispatched
    · simp only [ha, Behaviour.handler, Builtin.handler, exec_forEach] at hn
      exact visiting_onward (fun _ _ _ _ => eachWith_context) hn hdispatched
  obtain ⟨rfl, hcontext⟩ := hvisit
  refine ⟨rfl, hcontext, ?_⟩
  have hlt : m.before.context.index < u.context.len := by
    rw [hcontext, hafter]
    exact (List.getElem?_eq_some_iff.mp hm.action).1
  have hindex : u.context.index = m.before.context.index := by
    rw [hcontext, hafter]
    rfl
  have hanswer := hm.ends.answer hm.action
  simp only [Ending.answer, settle, Flags.proceed, Bool.false_eq_true, ↓reduceIte, Bool.not_true,
    hindex, Context.setIndex_ok hlt] at hanswer
  exact hanswer

end

-- ---------------------------------------------------------------------------
-- Iterations
-- ---------------------------------------------------------------------------

end Playbook
