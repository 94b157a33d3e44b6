import Playbook.Proofs.Verdicts

/-!
# Which action is to blame

A run that fails does so through the last handler that was entered for its context
(`culprit_driveLoop`): the statements around that action have failed because of it. The action is
still the current one then, because the statements around it do not look at the sequence again,
unless its own handler has reset the context (`Prog.exec_current`).
-/

namespace Playbook

-- ---------------------------------------------------------------------------
-- The action that is to blame
-- ---------------------------------------------------------------------------

def Unentered (id : ContextId) (ms : List Instant) : Prop :=
  ∀ m ∈ ms, m.deed = .enter → m.whose ≠ id

def Action.Resets (handlers : Handlers) (a : Action) : Prop :=
  ¬ (a.definition.behaviour.handler handlers).Within (fun e => ∀ actor, e ≠ .reset actor) True True

/-- The last handler that is entered for a context is that of `a`. It fails with `e`, and leaves `t`
with `a` as the current action, if it does not reset the context. -/
structure Culprit (handlers : Handlers) (id : ContextId) (ms : List Instant) (a : Action)
    (e : RuntimeError) (t : State) : Prop where
  last : ∃ before m after x, ms = before ++ m :: after ∧ m.whose = id ∧
    m.Ends handlers a x t ∧ x.verdict a = some (.error e) ∧ Unentered id after
  named : t.context.current = some a ∨
    a.Resets handlers ∧ t.context.current = t.context.actions[0]?

section
variable {id : ContextId}

theorem Unentered.append (h : Unentered id ms) (h' : Unentered id ms') :
    Unentered id (ms ++ ms') := fun m hm =>
  (List.mem_append.mp hm).elim (h m) (h' m)

theorem unentered_nil : Unentered id [] := fun _ hm => absurd hm List.not_mem_nil

theorem unentered_effect (e : Effect) (s : State) : Unentered id [⟨.effect e, s⟩] := by
  rintro m hm henter
  rw [List.mem_singleton.mp hm] at henter
  cases henter

theorem Culprit.prepend (h : Culprit handlers id ms a e t) (ms' : List Instant) :
    Culprit handlers id (ms' ++ ms) a e t := by
  obtain ⟨⟨before, m, after, x, rfl, h⟩, hnamed⟩ := h
  exact ⟨⟨ms' ++ before, m, after, x, (List.append_assoc _ _ _).symm, h⟩, hnamed⟩

theorem Culprit.append (h : Culprit handlers id ms a e t) (hms' : Unentered id ms') :
    Culprit handlers id (ms ++ ms') a e t := by
  obtain ⟨⟨before, m, after, x, rfl, hwhose, hends, hverdict, hafter⟩, hnamed⟩ := h
  refine ⟨⟨before, m, after ++ ms', x, ?_, hwhose, hends, hverdict, hafter.append hms'⟩, hnamed⟩
  rw [List.append_assoc, List.cons_append]

end

/-! ### The current action -/

theorem Effect.run_current {e : Effect} (h : e ≠ .dispose) (hreset : ∀ actor, e ≠ .reset actor)
    (s : State) : (e.run s).2.context.current = s.context.current := by
  cases e with
  | setIndex i =>
    obtain ⟨j, hj⟩ := run_setIndex i s
    rw [hj]
    rfl
  | dispose => exact absurd rfl h
  | reset actor => exact absurd rfl (hreset actor)
  | _ => rfl

/-- The current action stays while a handler runs no blocks, unless it resets the context. -/
theorem Prog.exec_current {p : Handler} (hp : p.Within (· ≠ .dispose) False True)
    (h : p.exec (.ofStepper f n) s = some (x, t)) :
    t.context.current = s.context.current ∨
      ¬ p.Within (fun e => ∀ actor, e ≠ .reset actor) True True ∧
        t.context.current = t.context.actions[0]? := by
  by_cases hresets : p.Within (fun e => ∀ actor, e ≠ .reset actor) True True
  · left
    exact exec_rel (P := fun s t => t.context.current = s.context.current) (hp.and hresets)
      (fun _ => rfl) (fun _ _ _ hst htu => htu.trans hst) (fun e s he => e.run_current he.1 he.2 s)
      (fun hb => hb.1.elim) (fun _ target actors s t he => by rw [eachWith_context he]) h
  · have hrel := exec_rel (P := fun s t => s.context.Kept t.context ∧
        (t.context.current = s.context.current ∨ t.context.current = t.context.actions[0]?)) hp
      (fun _ => ⟨.refl _, .inl rfl⟩)
      (fun s t u hst htu => ⟨hst.1.trans htu.1, htu.2.elim (fun hcurrent =>
        hst.2.imp hcurrent.trans fun hfirst => by rw [hcurrent, hfirst, htu.1.actions]) .inr⟩)
      (fun e s he => ⟨e.run_kept he s, ?_⟩) False.elim
      (fun _ target actors s t he => by rw [eachWith_context he]; exact ⟨.refl _, .inl rfl⟩) h
    · exact hrel.2.imp id fun hfirst => ⟨hresets, hfirst⟩
    · by_cases hreset : ∃ actor, e = .reset actor
      · obtain ⟨actor, rfl⟩ := hreset
        exact .inr rfl
      · exact .inl (e.run_current he (fun actor h => hreset ⟨actor, h⟩) s)

/-! ### The way down -/

section
variable {handlers : Handlers} {s t : State}

theorem Prog.unentered {p : Handler} (hp : p.Within (· ≠ .dispose) False True)
    (hs : s.Fit handlers) : Unentered s.context.id ((Use.perform p).trail handlers n s) := by
  induction p generalizing s with
  | done | fail | panic => exact unentered_nil
  | look next ih => exact ih _ (hp _) hs
  | perform e next ih =>
    have hk := e.run_keeps hp.1 s
    exact (unentered_effect e s).append (hk.context.id ▸ ih _ (hp.2 _) (hs.keeps hk))
  | block start stop next ih => exact hp.1.elim
  | each target actors next ih =>
    refine Unentered.append (fun m hm _ hwhose => hs.not_eachTrail hwhose hm) ?_
    cases he : (Nested.ofStepper (step handlers n) n).each target actors s with
    | none => exact unentered_nil
    | some t =>
      have hk : s.Keeps t := State.keeps_each he
      exact hk.context.id ▸ ih hp.2 (hs.keeps hk)

def Prog.BlamesBlocks (handlers : Handlers) (n : Nat) (p : Handler) (s : State) : Prop :=
  ∀ x t, p.exec (.ofStepper (step handlers n) n) s = some (x, t) → (∀ flags, x ≠ .value flags) →
    ∃ a e, x = .error e ∧
      Culprit handlers s.context.id ((Use.perform p).trail handlers n s) a e t

/-- If the program fails then an action in one of its blocks is to blame, or it has not run any of
them. -/
def Prog.Blames (handlers : Handlers) (n : Nat) (p : Handler) (s : State) : Prop :=
  ∀ x t, p.exec (.ofStepper (step handlers n) n) s = some (x, t) → (∀ flags, x ≠ .value flags) →
    Unentered s.context.id ((Use.perform p).trail handlers n s) ∧
        t.context.current = s.context.current ∨
      ∃ a e, x = .error e ∧
        Culprit handlers s.context.id ((Use.perform p).trail handlers n s) a e t

theorem Prog.BlamesBlocks.blames {p : Handler} (h : p.BlamesBlocks handlers n s) :
    p.Blames handlers n s := fun x t hx hfails => .inr (h x t hx hfails)

theorem Prog.Blames.argumentAs {read : Value → Except RuntimeError α} {f : α → Handler}
    (h : ∀ a, (f a).Blames handlers n (s.argument slot read).2) :
    ((argumentAs slot read).bind f).Blames handlers n s := by
  intro x t hx hfails
  rw [exec_argumentAs_bind] at hx
  rw [Use.trail, trail_argumentAs_bind]
  cases harg : s.argument slot read with
  | mk r u =>
    have hcontext := State.argument_context harg
    simp only [harg] at hx h ⊢
    cases r with
    | error e =>
      cases hx
      exact .inl ⟨unentered_effect _ _, by rw [hcontext]⟩
    | ok a =>
      have hrest := h a x t hx hfails
      rw [hcontext] at hrest
      rcases hrest with ⟨hun, hcurrent⟩ | ⟨b, e, he, hculprit⟩
      · exact .inl ⟨(unentered_effect _ _).append hun, hcurrent⟩
      · exact .inr ⟨b, e, he, hculprit.prepend [_]⟩

theorem Prog.Blames.blockAfter {count : Nat} {f : Nat × Nat → Handler}
    (h : s.context.index + 1 + count ≤ s.context.len →
      (f (s.context.index + 1, s.context.index + 1 + count)).Blames handlers n s) :
    ((Builtin.blockAfter count).bind f).Blames handlers n s := by
  show Prog.Blames handlers n ((if s.context.len < s.context.index + 1 + count
    then .fail (s.context.outOfBounds (s.context.index + 1 + count))
    else .done (s.context.index + 1, s.context.index + 1 + count) : Prog (Nat × Nat)).bind f) s
  split
  · rintro x t ⟨⟩ -
    exact .inl ⟨unentered_nil, rfl⟩
  · rename_i hrange
    exact h (Nat.not_lt.mp hrange)

-- what the steps with less fuel blame
variable (hstep : ∀ s e t, s.Fit handlers → s.context.index < s.context.len →
  step handlers n s = some (.error e, t) →
  ∃ a, Culprit handlers s.context.id (stepTrail handlers n s) a e t)

include hstep in
theorem culprit_blockLoop
    (hs : s.Fit handlers) (hstop : stop ≤ s.context.len)
    (h : blockLoop (step handlers n) stop k s = some (.error e, t)) :
    ∃ a, Culprit handlers s.context.id
      (blockLoopTrail (step handlers n) (stepTrail handlers n) stop k s) a e t := by
  induction k generalizing s with
  | zero => cases h
  | succ k ih =>
    by_cases hlt : s.context.index < stop
    · simp only [blockLoopTrail, hlt, ↓reduceIte]
      obtain ⟨r, u, hu, hr⟩ := blockLoop_eq_some hlt h
      rcases hr with ⟨err, rfl, herr, rfl⟩ | ⟨flags, rfl, ⟨-, hb, -⟩ | ⟨hgoes, hrest⟩⟩
      · cases herr
        obtain ⟨a, hculprit⟩ := hstep s e t hs (Nat.lt_of_lt_of_le hlt hstop) hu
        refine ⟨a, hculprit.append ?_⟩
        rw [hu]
        exact unentered_nil
      · cases hb
      · have hk := hs.keeps_step hu
        obtain ⟨a, hculprit⟩ := ih (hs.keeps hk) (hk.context.len ▸ hstop) hrest
        rw [hk.context.id] at hculprit
        simp only [hu, hgoes, Bool.false_eq_true, ↓reduceIte]
        exact ⟨a, hculprit.prepend _⟩
    · simp [blockLoop, hlt] at h

include hstep in
theorem culprit_block
    (hs : s.Fit handlers) (hstart : start ≤ stop) (hstop : stop ≤ s.context.len)
    (h : blockWith (step handlers n) n start stop s = some (.error e, t)) :
    ∃ a, Culprit handlers s.context.id
      (blockTrail (step handlers n) (stepTrail handlers n) n start stop s) a e t := by
  rw [blockWith_in_range hstart hstop] at h
  obtain ⟨a, hculprit⟩ := culprit_blockLoop hstep (hs.keeps (s.keeps_moveTo start)) hstop h
  have hrange : ¬ (stop < start ∨ s.context.len < stop) := by omega
  rw [blockTrail, if_neg hrange]
  exact ⟨a, hculprit.prepend [_]⟩

include hstep in
/-- If and Repeat fail through their blocks, once they have read their arguments. -/
theorem repeating_blames
    (hs : s.Fit handlers) (hindex : s.context.index ≤ s.context.len) (hstart : start ≤ past)
    (hpast : past ≤ s.context.len) :
    (Builtin.repeating start past amount delay).BlamesBlocks handlers n s := by
  unfold Builtin.repeating
  split
  · clear ‹delay = 0 ∨ amount = 0›
    -- on the iterations that are left
    induction amount generalizing s with
    | zero =>
      intro x t hx hfails
      have hleave := exec_leaveBlock (.ofStepper (step handlers n) n) past s
        (Nat.max_le.mpr ⟨hpast, hindex⟩)
      cases hx.symm.trans hleave
      exact absurd rfl (hfails _)
    | succ amount ih =>
      intro x t hx hfails
      simp only [Builtin.iterate, Prog.bind, Prog.exec] at hx
      cases hb : (Nested.ofStepper (step handlers n) n).block start past s with
      | none => simp [hb] at hx
      | some r =>
        obtain ⟨b, u⟩ := r
        have hrun : runBlock handlers n start past s = some (b, u) := hb
        have hk := hs.keeps_block hrun
        have hbounded := (bounded_pervades handlers).block hrun hindex
        simp only [hb] at hx
        simp only [Use.trail, Builtin.iterate, Prog.bind, Prog.trail, hb, Option.elim_some]
        rcases b with e | _ | flags
        · cases hx
          obtain ⟨a, hculprit⟩ := culprit_block hstep hs hstart hpast hb
          exact ⟨a, e, rfl, hculprit.append unentered_nil⟩
        · obtain ⟨a, e, he, hculprit⟩ :=
            ih (hs.keeps hk) hbounded (hk.context.len ▸ hpast) x t hx hfails
          rw [hk.context.id] at hculprit
          exact ⟨a, e, he, hculprit.prepend _⟩
        · cases hx
          exact absurd rfl (hfails _)
  · intro x t hx hfails
    simp only [Prog.setIndex, Prog.bind, Prog.exec, Effect.run, Context.setIndex_ok hpast,
      Prog.ofExcept, Prog.suspend] at hx
    cases hx
    exact absurd rfl (hfails _)

include hstep in
theorem handler_blames {b : Builtin} (hb : b.HasBlock) (hs : s.Fit handlers)
    (hindex : s.context.index ≤ s.context.len) :
    b.handler.Blames handlers n s := by
  have hbody {t : State} {count amount delay : Nat} (ht : t.context = s.context)
      (hw : t.world.nextContext = s.world.nextContext)
      (hrange : t.context.index + 1 + count ≤ t.context.len) :
      (Builtin.repeating (t.context.index + 1) (t.context.index + 1 + count) amount delay).Blames
        handlers n t :=
    (repeating_blames hstep (hs.keeps ⟨ht ▸ .refl _, Nat.le_of_eq hw.symm⟩) (ht ▸ hindex)
      (Nat.le_add_right _ _) hrange).blames
  rcases hb with rfl | rfl
  · rw [Builtin.handler, Builtin.ifBlockHandler_eq]
    exact .argumentAs fun condition => .argumentAs fun count => .blockAfter (hbody rfl rfl)
  · rw [Builtin.handler, Builtin.repeatHandler_eq]
    exact .argumentAs fun amount => .argumentAs fun offset => .argumentAs fun delay =>
      .blockAfter (hbody rfl rfl)

include hstep in
/-- A handler that fails has run into an action of its blocks that failed, or has not entered any,
and then its own action is the current one. -/
theorem Action.Contained.blames {a : Action} (h : a.Contained handlers)
    (hs : s.Fit handlers) (hindex : s.context.index ≤ s.context.len)
    (hx : (a.definition.behaviour.handler handlers).exec (.ofStepper (step handlers n) n) s =
      some (x, t)) (hfails : ∀ flags, x ≠ .value flags) :
    Unentered s.context.id
        ((Use.perform (a.definition.behaviour.handler handlers)).trail handlers n s) ∧
        (t.context.current = s.context.current ∨
          a.Resets handlers ∧ t.context.current = t.context.actions[0]?) ∨
      ∃ b e, x = .error e ∧ Culprit handlers s.context.id
        ((Use.perform (a.definition.behaviour.handler handlers)).trail handlers n s) b e t := by
  by_cases hblocks : ∃ b, a.definition.behaviour = .builtin b ∧ b.HasBlock
  · obtain ⟨b, hb, hblock⟩ := hblocks
    have hhandler : a.definition.behaviour.handler handlers = b.handler := by rw [hb]; rfl
    rw [hhandler] at hx ⊢
    exact (handler_blames hstep hblock hs hindex x t hx hfails).imp_left fun hquiet =>
      ⟨hquiet.1, .inl hquiet.2⟩
  · have hwithin : (a.definition.behaviour.handler handlers).Within (· ≠ .dispose) False True := by
      obtain ⟨b, hb⟩ | h := h
      · rw [hb]
        exact b.handler_within.mono (fun _ => b.undisposing) (fun hblock => hblocks ⟨b, hb, hblock⟩)
          fun _ => trivial
      · exact h
    exact .inl ⟨Prog.unentered hwithin hs, Prog.exec_current hwithin hx⟩

end

end Playbook
