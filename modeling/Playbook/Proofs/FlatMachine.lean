import Playbook.Probe
import Playbook.Proofs.Builtins
import Playbook.Proofs.Evaluation

/-!
# Nested conditionals are jumps

A true If runs its block by a loop of its own inside the loop that reached it, and
blocks may overlap or be left by jumps. The flat machine has one loop and no nesting:
an If only moves the cursor, to the action behind it or past its block. Both end in
the same way and in the same state, whatever the depth of nesting, and neither runs
on where the other ends.

The nested run enters a block whose end lies before the end of the sequence, so the
flat machine is still running wherever the nested one is (`Halts.flatten`). In the
other direction the argument goes by the number of steps that the flat machine has
left: each block takes some of them and leaves the rest (`flat_block`).
-/

namespace Playbook

-- ---------------------------------------------------------------------------
-- Conditionals
-- ---------------------------------------------------------------------------

def State.readIf (s : State) : Except RuntimeError (Bool × Nat) × State :=
  match s.argument 0 Value.toBool? with
  | (.error e, s) => (.error e, s)
  | (.ok condition, s) =>
    match s.argument 1 Value.toCount? with
    | (.error e, s) => (.error e, s)
    | (.ok count, s) =>
      let past := s.context.index + 1 + count
      if s.context.len < past then (.error (s.context.outOfBounds past), s)
      else (.ok (condition, past), s)

/-- An If of the flat machine: it goes to the action behind it, or past the block. -/
def flatIf (s : State) : Except RuntimeError Flags × State :=
  match s.readIf with
  | (.error e, t) => (.error e, t)
  | (.ok (true, _), t) => (.ok .proceed, t.moveTo (t.context.index + 1))
  | (.ok (false, past), t) => (.ok .proceed, t.moveTo past)

def Action.isIf (a : Action) : Bool := a.definition.behaviour = .builtin .ifBlock

def flatDispatch (handlers : Handlers) : Nat → Stepper
  | 0 => fun _ => none
  | fuel + 1 =>
    dispatch handlers { Nested.ofStepper (step handlers fuel) fuel with block := fun _ _ _ => none }

def flatStep (handlers : Handlers) (fuel : Nat) : Stepper := fun s =>
  match s.context.actions[s.context.index]? with
  | some a => if a.isIf then some (flatIf s.entered) else flatDispatch handlers fuel s
  | none => flatDispatch handlers fuel s

def flatRun (handlers : Handlers) (fuel : Nat) (release : Bool) (s : State) :
    Option (Outcome × State) :=
  driveWith (flatStep handlers fuel) fuel release s

/-- An action that needs no block of its own, or is an If: any built-in action but
Repeat, and a host's action whose handler neither disposes of its context nor runs
blocks. -/
def Action.Flat (handlers : Handlers) (a : Action) : Prop :=
  match a.definition.behaviour with
  | .builtin b => b ≠ .repeatBlock
  | .host name => (handlers name).Within (· ≠ .dispose) False True
  | .idle => True

def Context.Flat (handlers : Handlers) (c : Context) : Prop := ∀ a ∈ c.actions, a.Flat handlers

theorem Action.Flat.undisposing {a : Action} (h : a.Flat handlers) :
    (a.definition.behaviour.handler handlers).Within (· ≠ .dispose) True True := by
  unfold Action.Flat at h
  cases hb : a.definition.behaviour with
  | builtin b =>
    exact b.handler_within.mono (fun _ => b.undisposing) (fun _ => trivial) fun _ => trivial
  | host name =>
    simp only [hb] at h
    exact h.mono (fun _ he => he) False.elim fun ht => ht
  | idle => trivial

theorem Action.Flat.blockless {a : Action} (h : a.Flat handlers) (hif : a.isIf = false) :
    (a.definition.behaviour.handler handlers).Within (· ≠ .dispose) False True := by
  unfold Action.Flat at h
  cases hb : a.definition.behaviour with
  | builtin b =>
    simp only [hb] at h
    simp only [Action.isIf, hb, Behaviour.builtin.injEq, decide_eq_false_iff_not] at hif
    exact b.handler_within.mono (fun _ => b.undisposing) (Or.rec hif h) fun _ => trivial
  | host name =>
    simp only [hb] at h
    exact h
  | idle => trivial

theorem State.readIf_ok (h : State.readIf s = (x, t)) :
    t.context = s.context ∧
      ∀ b past, x = .ok (b, past) → s.context.index + 1 ≤ past ∧ past ≤ s.context.len := by
  unfold readIf at h
  split at h
  · rename_i h0
    obtain ⟨rfl, rfl⟩ := Prod.mk.inj h
    exact ⟨argument_context h0, by simp⟩
  · rename_i condition u h0
    split at h
    · rename_i h1
      obtain ⟨rfl, rfl⟩ := Prod.mk.inj h
      exact ⟨(argument_context h1).trans (argument_context h0), by simp⟩
    · rename_i count v h1
      have hc := (argument_context h1).trans (argument_context h0)
      simp only at h
      split at h
      · obtain ⟨rfl, rfl⟩ := Prod.mk.inj h
        exact ⟨hc, by simp⟩
      · rename_i hle
        obtain ⟨rfl, rfl⟩ := Prod.mk.inj h
        refine ⟨hc, ?_⟩
        intro b past hx
        simp only [Except.ok.injEq, Prod.mk.injEq] at hx
        rw [← hx.2, ← hc]
        omega

/-- How the handler of an If runs: it reads, runs the block if it is to be run, and
leaves it. -/
theorem exec_ifBlock (nested : Nested) (s : State) :
    Builtin.ifBlockHandler.exec nested s =
      match s.readIf with
      | (.error e, t) => some (.error e, t)
      | (.ok (false, past), t) =>
        ((Builtin.leaveBlock past).bind fun _ => .done Flags.proceed).exec nested t
      | (.ok (true, past), t) =>
        match nested.block (t.context.index + 1) past t with
        | none => none
        | some (.error e, u) => some (.error e, u)
        | some (.ok (some flags), u) => some (.value flags, u)
        | some (.ok none, u) =>
          ((Builtin.leaveBlock past).bind fun _ => .done Flags.proceed).exec nested u := by
  simp only [Builtin.ifBlockHandler, Prog.bind_eq, Prog.exec_argumentAs_bind, State.readIf]
  obtain ⟨x, t⟩ := s.argument 0 Value.toBool?
  cases x with
  | error e => rfl
  | ok condition =>
    simp only
    obtain ⟨x, u⟩ := t.argument 1 Value.toCount?
    cases x with
    | error e => rfl
    | ok count =>
      simp only [Builtin.blockAfter, Prog.bind_eq, Prog.context, Prog.bind, Prog.exec]
      split
      · rfl
      · cases condition with
        | false => rfl
        | true =>
          simp only [↓reduceIte, Prog.pure_eq, Prog.bind, Prog.runBlock, Prog.exec]
          cases nested.block (u.context.index + 1) (u.context.index + 1 + count) u with
          | none => rfl
          | some x =>
            obtain ⟨b, v⟩ := x
            cases b with
            | error e => rfl
            | ok flags => cases flags <;> rfl

-- ---------------------------------------------------------------------------
-- Contexts that stay in range
-- ---------------------------------------------------------------------------

/-- A context of `total` actions that the flat machine can run, with the cursor in
range. -/
structure Ready (handlers : Handlers) (total : Nat) (c : Context) : Prop where
  flat : c.Flat handlers
  len : c.len = total
  bounded : c.index ≤ total

theorem Ready.kept {c d : Context} (h : Ready handlers total c) (hk : c.Kept d)
    (hb : c.Bounded d) : Ready handlers total d := by
  have hlen : d.len = total := hk.len.trans h.len
  refine ⟨fun a ha => h.flat a (hk.actions ▸ ha), hlen, hlen ▸ hb ?_⟩
  rw [h.len]
  exact h.bounded

theorem Ready.step (h : Ready handlers total s.context)
    (hs : Eventually (Playbook.step handlers) s (x, t)) : Ready handlers total t.context := by
  obtain ⟨n, hn⟩ := hs
  exact h.kept ((kept_along handlers).step (fun a ha => (h.flat a ha).undisposing) hn)
    ((bounded_along handlers).step trivial hn)

theorem Ready.moveTo {s : State} (h : Ready handlers total s.context) (hi : i ≤ total) :
    Ready handlers total (s.moveTo i).context :=
  ⟨h.flat, h.len, hi⟩

theorem Ready.entered {s : State} (h : Ready handlers total s.context) :
    Ready handlers total s.entered.context :=
  ⟨h.flat, h.len, h.bounded⟩

theorem Ready.readIf {s : State} (h : Ready handlers total s.context)
    (hr : s.entered.readIf = (.ok (b, past), t)) :
    Ready handlers total t.context ∧ t.context.index = s.context.index ∧
      t.context.index + 1 ≤ past ∧ past ≤ total := by
  obtain ⟨hc, hpast⟩ := State.readIf_ok hr
  obtain ⟨hlt, hle⟩ := hpast _ _ rfl
  rw [← hc] at hlt hle
  have ht : Ready handlers total t.context := hc ▸ h.entered
  exact ⟨ht, by rw [hc]; rfl, hlt, ht.len ▸ hle⟩

section
variable {R : State → Except RuntimeError Flags × State → Prop}

theorem Ready.halts (hR : ∀ s x t, Ready handlers total s.context → R s (x, t) →
    Ready handlers total t.context) (h : Ready handlers total s.context)
    (hs : Halts R bound s b t) : Ready handlers total t.context := by
  induction hs with
  | done => exact h
  | fail _ hs => exact hR _ _ _ h hs
  | stop _ hs => exact hR _ _ _ h hs
  | more _ hs _ _ ih => exact ih (hR _ _ _ h hs)

/-- As long as the sequence keeps its length, running to its end is running to a fixed
position. -/
theorem Ready.halts_len (hR : ∀ s x t, Ready handlers total s.context → R s (x, t) →
    Ready handlers total t.context) (h : Ready handlers total s.context) :
    Halts R Context.len s b t ↔ Halts R (fun _ => total) s b t := by
  constructor
  · intro hs
    induction hs with
    | done hle => exact .done (h.len ▸ hle)
    | fail hlt hs => exact .fail (h.len ▸ hlt) hs
    | stop hlt hs hstop => exact .stop (h.len ▸ hlt) hs hstop
    | more hlt hs hstop _ ih => exact .more (h.len ▸ hlt) hs hstop (ih (hR _ _ _ h hs))
  · intro hs
    induction hs with
    | done hle => exact .done (h.len ▸ hle)
    | fail hlt hs => exact .fail (h.len ▸ hlt) hs
    | stop hlt hs hstop => exact .stop (h.len ▸ hlt) hs hstop
    | more hlt hs hstop _ ih => exact .more (h.len ▸ hlt) hs hstop (ih (hR _ _ _ h hs))

end

-- ---------------------------------------------------------------------------
-- Steps of the flat machine
-- ---------------------------------------------------------------------------

theorem flatStep_if (ha : s.context.actions[s.context.index]? = some a) (hif : a.isIf = true) :
    flatStep handlers n s = some (flatIf s.entered) := by
  simp [flatStep, ha, hif]

theorem flatDispatch_eq (h : ∀ a, s.context.actions[s.context.index]? = some a →
    (a.definition.behaviour.handler handlers).Within ok False targets) :
    flatDispatch handlers n s = step handlers n s := by
  cases n with
  | zero => rfl
  | succ n =>
    simp only [flatDispatch, step]
    cases ha : s.context.actions[s.context.index]? with
    | none => rw [dispatch_none ha, dispatch_none ha]
    | some a => rw [dispatch_some ha, dispatch_some ha, Prog.exec_blockless (h a ha)]

theorem Ready.isIf_or_flat {s : State} (h : Ready handlers total s.context) :
    (∃ a, s.context.actions[s.context.index]? = some a ∧ a.isIf = true) ∨
      ∀ n, Playbook.flatStep handlers n s = Playbook.step handlers n s := by
  by_cases hif : ∃ a, s.context.actions[s.context.index]? = some a ∧ a.isIf = true
  · exact .inl hif
  · have hother : ∀ a, s.context.actions[s.context.index]? = some a → a.isIf = false := by
      intro a ha
      simpa using fun h => hif ⟨a, ha, h⟩
    refine .inr fun n => ?_
    have hflat : Playbook.flatStep handlers n s = flatDispatch handlers n s := by
      unfold Playbook.flatStep
      split
      · rename_i a ha
        simp [hother a ha]
      · rfl
    rw [hflat, flatDispatch_eq]
    intro a ha
    exact (h.flat a (List.mem_of_getElem? ha)).blockless (hother a ha)

theorem flatDispatch_stable (handlers : Handlers) : Stable (flatDispatch handlers) := by
  intro n m hle
  cases n with
  | zero => intro s r hr; simp [flatDispatch] at hr
  | succ n =>
    obtain ⟨m, rfl⟩ : ∃ k, m = k + 1 := ⟨m - 1, by omega⟩
    have hle := Nat.le_of_succ_le_succ hle
    have hnested := nested_extends (step_extends handlers hle) hle
    simp only [flatDispatch]
    apply dispatch_extends
    exact ⟨fun _ _ _ _ h => h, hnested.each⟩

theorem flatStep_stable (handlers : Handlers) : Stable (flatStep handlers) := by
  intro n m hle s r hr
  have hdispatch := flatDispatch_stable handlers n m hle s r
  unfold flatStep at hr ⊢
  split
  · rename_i a ha
    simp only [ha] at hr
    cases hif : a.isIf <;> simp only [hif, Bool.false_eq_true, ↓reduceIte] at hr ⊢
    · exact hdispatch hr
    · exact hr
  · rename_i ha
    simp only [ha] at hr
    exact hdispatch hr

theorem Ready.flatStep (h : Ready handlers total s.context)
    (hs : Eventually (Playbook.flatStep handlers) s (x, t)) : Ready handlers total t.context := by
  obtain ⟨n, hn⟩ := hs
  obtain ⟨a, ha, hif⟩ | hflat := h.isIf_or_flat
  · rw [flatStep_if ha hif, flatIf, Option.some.injEq] at hn
    split at hn
    · rename_i hr
      obtain ⟨-, rfl⟩ := Prod.mk.inj hn
      rw [(State.readIf_ok hr).1]
      exact h.entered
    · rename_i past u hr
      obtain ⟨hu, -, hlt, hle⟩ := h.readIf hr
      obtain ⟨-, rfl⟩ := Prod.mk.inj hn
      exact hu.moveTo (by omega)
    · rename_i past u hr
      obtain ⟨hu, -, -, hle⟩ := h.readIf hr
      obtain ⟨-, rfl⟩ := Prod.mk.inj hn
      exact hu.moveTo hle
  · exact h.step ⟨n, (hflat n).symm.trans hn⟩

-- ---------------------------------------------------------------------------
-- A step of the nested run
-- ---------------------------------------------------------------------------

def ifAnswer : BlockEnd → Except RuntimeError Flags
  | .error e => .error e
  | .ok (some flags) => .ok flags
  | .ok none => .ok .proceed

theorem handler_of_isIf {a : Action} (handlers : Handlers) (h : a.isIf = true) :
    a.definition.behaviour.handler handlers = Builtin.ifBlockHandler := by
  have hb : a.definition.behaviour = .builtin .ifBlock := by simpa [Action.isIf] using h
  rw [hb]
  rfl

theorem step_if_skip (ha : s.context.actions[s.context.index]? = some a) (hif : a.isIf = true)
    (hskip : ∀ past t, s.entered.readIf ≠ (.ok (true, past), t)) :
    step handlers (n + 1) s = some (flatIf s.entered) := by
  rw [step, dispatch_some ha, handler_of_isIf handlers hif, exec_ifBlock, flatIf]
  cases hr : s.entered.readIf with
  | mk x t =>
    obtain ⟨hc, hpast⟩ := State.readIf_ok hr
    rcases x with e | ⟨_ | _, past⟩
    · rfl
    · obtain ⟨hlt, hle⟩ := hpast _ _ rfl
      rw [← hc] at hlt hle
      have hindex : s.context.index = t.context.index := by rw [hc]; rfl
      have hmax : max past t.context.index = past := by omega
      have hleave := exec_leaveBlock (.ofStepper (step handlers n) n) past t (by rwa [hmax])
      rw [hmax] at hleave
      simp only [hleave, Ending.answer]
      rw [settle_moved (by simp only [State.moveTo]; omega)]
    · exact absurd hr (hskip past t)

theorem step_if_block (h : Ready handlers total s.context)
    (ha : s.context.actions[s.context.index]? = some a) (hif : a.isIf = true)
    (hr : s.entered.readIf = (.ok (true, past), t)) :
    step handlers (n + 1) s =
      (blockLoop (step handlers n) past n (t.moveTo (t.context.index + 1))).map
        fun (b, u) => (ifAnswer b, u) := by
  obtain ⟨ht, hindex, hlt, hle⟩ := h.readIf hr
  have hready : Ready handlers total (t.moveTo (t.context.index + 1)).context :=
    ht.moveTo (by omega)
  rw [step, dispatch_some ha, handler_of_isIf handlers hif, exec_ifBlock, hr]
  simp only [Nested.ofStepper, blockWith_in_range hlt (ht.len ▸ hle)]
  cases hb : blockLoop (step handlers n) past n (t.moveTo (t.context.index + 1)) with
  | none => rfl
  | some x =>
    obtain ⟨b, u⟩ := x
    have hhalts := halts_of_blockLoop hb
    have hu := hready.halts (fun _ _ _ h hs => h.step hs) hhalts
    rcases b with e | _ | flags
    · rfl
    · have hmax : max past u.context.index = u.context.index := by have := hhalts.stop_le; omega
      have hleave := exec_leaveBlock (.ofStepper (step handlers n) n) past u
        (by rw [hmax, hu.len]; exact hu.bounded)
      rw [hmax, State.moveTo_self] at hleave
      simp only [Nested.ofStepper] at hleave
      simp only [hleave, Ending.answer, ifAnswer, Option.map_some]
      rw [settle_moved (by have := hhalts.stop_le; omega)]
    · simp [Ending.answer, settle_stop hhalts.flags_stop, ifAnswer]

-- ---------------------------------------------------------------------------
-- Where steps lead
-- ---------------------------------------------------------------------------

def stepEnd : Except RuntimeError Flags → BlockEnd
  | .error e => .error e
  | .ok flags => if flags.stop then .ok (some flags) else .ok none

section
variable {R : State → Except RuntimeError Flags × State → Prop}

/-- The loop gets from `s` to `t`, and if `b` is a failure or a stop it ends there. -/
def Leads (R : State → Except RuntimeError Flags × State → Prop) (past : Nat) (s : State)
    (b : BlockEnd) (t : State) : Prop :=
  match b with
  | .ok none => ∀ b' u, Halts R (fun _ => past) t b' u → Halts R (fun _ => past) s b' u
  | b => Halts R (fun _ => past) s b t

theorem Leads.halts (h : Leads R past s b t) (hb : b ≠ .ok none) :
    Halts R (fun _ => past) s b t := by
  rcases b with e | _ | flags
  · exact h
  · exact absurd rfl hb
  · exact h

theorem Leads.trans (h : Leads R past s (.ok none) t) (h' : Leads R past t b u) :
    Leads R past s b u := by
  rcases b with e | _ | flags
  · exact h _ _ h'
  · exact fun b' v hv => h b' v (h' b' v hv)
  · exact h _ _ h'

theorem leads_of_step (hlt : s.context.index < past) (h : R s (x, t)) :
    Leads R past s (stepEnd x) t := by
  cases x with
  | error e => exact .fail hlt h
  | ok flags =>
    cases hstop : flags.stop with
    | true =>
      simp only [stepEnd, hstop, ↓reduceIte]
      exact .stop hlt h hstop
    | false =>
      simp only [stepEnd, hstop, Bool.false_eq_true, ↓reduceIte]
      exact fun b' u hu => .more hlt h hstop hu

theorem stepEnd_ifAnswer (h : Halts R bound s b t) : stepEnd (ifAnswer b) = b := by
  rcases b with e | _ | flags
  · rfl
  · rfl
  · simp [ifAnswer, stepEnd, h.flags_stop]

end

theorem blockLoop_succ (f : Stepper) (hlt : s.context.index < past) :
    blockLoop f past (k + 1) s =
      match f s with
      | none => none
      | some (x, t) =>
        match stepEnd x with
        | .ok none => blockLoop f past k t
        | b => some (b, t) := by
  simp only [blockLoop, hlt, ↓reduceIte]
  cases f s with
  | none => rfl
  | some x =>
    obtain ⟨x, t⟩ := x
    cases x with
    | error e => rfl
    | ok flags => cases hstop : flags.stop <;> simp [stepEnd, hstop]

-- ---------------------------------------------------------------------------
-- From the nested run to the flat one
-- ---------------------------------------------------------------------------

theorem blockLoop_leads
    (hstep : ∀ s x t, Ready handlers total s.context → s.context.index < total →
      step handlers n s = some (x, t) →
      Leads (Eventually (flatStep handlers)) total s (stepEnd x) t)
    (hpast : past ≤ total) (h : Ready handlers total s.context)
    (hb : blockLoop (step handlers n) past k s = some (b, u)) :
    Leads (Eventually (flatStep handlers)) total s b u := by
  induction k generalizing s with
  | zero => simp [blockLoop] at hb
  | succ k ih =>
    by_cases hlt : s.context.index < past
    · rw [blockLoop_succ _ hlt] at hb
      split at hb
      · simp at hb
      · rename_i x t hs
        have hlead := hstep _ _ _ h (by omega) hs
        split at hb
        · rename_i hnone
          exact (hnone ▸ hlead).trans (ih (h.step ⟨n, hs⟩) hb)
        · obtain ⟨rfl, rfl⟩ := Prod.mk.inj (Option.some.inj hb)
          exact hlead
    · simp only [blockLoop, hlt, ↓reduceIte, Option.some.injEq, Prod.mk.injEq] at hb
      obtain ⟨rfl, rfl⟩ := hb
      exact fun b' u hu => hu

/-- The flat machine follows a step of the nested run, through the blocks in it. -/
theorem step_leads (h : Ready handlers total s.context) (hlt : s.context.index < total)
    (hs : step handlers n s = some (x, t)) :
    Leads (Eventually (flatStep handlers)) total s (stepEnd x) t := by
  induction n generalizing s x t with
  | zero => simp [step] at hs
  | succ n ih =>
    obtain ⟨a, ha, hif⟩ | hflat := h.isIf_or_flat
    · have hflat : flatStep handlers 0 s = some (flatIf s.entered) := flatStep_if ha hif
      by_cases hblock : ∃ past t, s.entered.readIf = (.ok (true, past), t)
      · obtain ⟨past, v, hr⟩ := hblock
        obtain ⟨hv, -, hlt', hle⟩ := h.readIf hr
        rw [step_if_block h ha hif hr, Option.map_eq_some_iff] at hs
        obtain ⟨⟨b, u⟩, hb, hxu⟩ := hs
        obtain ⟨rfl, rfl⟩ := Prod.mk.inj hxu
        -- one step of the flat machine enters the block, and the rest follows the block
        have henter : Leads (Eventually (flatStep handlers)) total s (.ok none)
            (v.moveTo (v.context.index + 1)) := by
          refine leads_of_step (x := .ok .proceed) hlt ⟨0, ?_⟩
          rw [hflat, flatIf, hr]
        rw [stepEnd_ifAnswer (halts_of_blockLoop hb)]
        exact henter.trans (blockLoop_leads (fun _ _ _ => ih) hle (hv.moveTo (by omega)) hb)
      · have hskip : ∀ past t, s.entered.readIf ≠ (.ok (true, past), t) :=
          fun past t hr => hblock ⟨past, t, hr⟩
        rw [step_if_skip ha hif hskip, ← hflat] at hs
        exact leads_of_step hlt ⟨0, hs⟩
    · exact leads_of_step hlt ⟨n + 1, (hflat (n + 1)).trans hs⟩

theorem Halts.flatten (h : Ready handlers total s.context)
    (hs : Halts (Eventually (step handlers)) (fun _ => total) s b t) :
    Halts (Eventually (flatStep handlers)) (fun _ => total) s b t := by
  obtain ⟨n, hn⟩ := blockLoop_of_halts (step_stable handlers) hs
  have hlead := blockLoop_leads (fun _ _ _ => step_leads) (Nat.le_refl total) h hn
  rcases b with e | _ | flags
  · exact hlead
  · exact hlead _ _ (.done hs.stop_le)
  · exact hlead

-- ---------------------------------------------------------------------------
-- From the flat run to the nested one
-- ---------------------------------------------------------------------------

theorem eventually_if_block (h : Ready handlers total s.context)
    (ha : s.context.actions[s.context.index]? = some a) (hif : a.isIf = true)
    (hr : s.entered.readIf = (.ok (true, past), t))
    (hb : Halts (Eventually (step handlers)) (fun _ => past) (t.moveTo (t.context.index + 1)) b u) :
    Eventually (step handlers) s (ifAnswer b, u) := by
  obtain ⟨n, hn⟩ := blockLoop_of_halts (step_stable handlers) hb
  exact ⟨n + 1, by rw [step_if_block h ha hif hr, hn]; rfl⟩

theorem flatStep_cases (h : Ready handlers total s.context)
    (hs : flatStep handlers n s = some (x, t)) :
    Eventually (step handlers) s (x, t) ∨
      ∃ a past v, s.context.actions[s.context.index]? = some a ∧ a.isIf = true ∧
        s.entered.readIf = (.ok (true, past), v) ∧
        x = .ok .proceed ∧ t = v.moveTo (v.context.index + 1) := by
  obtain ⟨a, ha, hif⟩ | hflat := h.isIf_or_flat
  · rw [flatStep_if ha hif] at hs
    by_cases hblock : ∃ past v, s.entered.readIf = (.ok (true, past), v)
    · obtain ⟨past, v, hr⟩ := hblock
      rw [flatIf, hr] at hs
      obtain ⟨rfl, rfl⟩ := Prod.mk.inj (Option.some.inj hs)
      exact .inr ⟨a, past, v, ha, hif, hr, rfl, rfl⟩
    · have hskip : ∀ past v, s.entered.readIf ≠ (.ok (true, past), v) :=
        fun past v hr => hblock ⟨past, v, hr⟩
      exact .inl ⟨1, (step_if_skip ha hif hskip).trans hs⟩
  · exact .inl ⟨n, (hflat n).symm.trans hs⟩

/-- The nested run follows `k` steps of the flat one that end in `e` and `u`: it works
off a block up to `past` and leaves the rest of them to the enclosing level, or it ends
inside the block as the flat one does. -/
def Follows (handlers : Handlers) (n total past k : Nat) (s : State) (e : BlockEnd) (u : State) :
    Prop :=
  (∃ t j, j ≤ k ∧ Halts (Eventually (step handlers)) (fun _ => past) s (.ok none) t ∧
    blockLoop (flatStep handlers n) total j t = some (e, u)) ∨
  (e ≠ .ok none ∧ Halts (Eventually (step handlers)) (fun _ => past) s e u)

theorem Follows.of_leads (hlead : Leads (Eventually (step handlers)) past s (.ok none) t)
    (h : Follows handlers n total past j t e u) (hj : j ≤ k) :
    Follows handlers n total past k s e u := by
  obtain ⟨v, i, hi, hv, hrest⟩ | ⟨hne, hv⟩ := h
  · exact .inl ⟨v, i, by omega, hlead _ _ hv, hrest⟩
  · exact .inr ⟨hne, hlead _ _ hv⟩

-- By induction on the steps that the flat machine has left: the block of an If takes
-- some of them, and what is left then is enough to go on behind it.
theorem flat_block (h : Ready handlers total s.context) (hpast : past ≤ total)
    (hs : blockLoop (flatStep handlers n) total k s = some (e, u)) :
    Follows handlers n total past k s e u := by
  induction k using Nat.strongRecOn generalizing s past with
  | ind k ih =>
    by_cases hlt : s.context.index < past
    · cases k with
      | zero => simp [blockLoop] at hs
      | succ k =>
        rw [blockLoop_succ _ (by omega)] at hs
        split at hs
        · simp at hs
        · rename_i x t hx
          have ht := h.flatStep ⟨n, hx⟩
          obtain hstep | ⟨a, past', v, ha, hif, hr, rfl, rfl⟩ := flatStep_cases h hx
          · have hlead := leads_of_step hlt hstep
            split at hs
            · rename_i hnone
              exact .of_leads (hnone ▸ hlead) (ih k (by omega) ht hpast hs) (by omega)
            · rename_i hnone
              obtain ⟨rfl, rfl⟩ := Prod.mk.inj (Option.some.inj hs)
              exact .inr ⟨hnone, hlead.halts hnone⟩
          · obtain ⟨-, -, -, hle⟩ := h.readIf hr
            obtain ⟨w, j, hj, hw, hrest⟩ | ⟨hne, hw⟩ := ih k (by omega) ht hle hs
            · have hstep := eventually_if_block h ha hif hr hw
              have hrest := ih j (by omega) (h.step hstep) hpast hrest
              exact .of_leads (leads_of_step hlt hstep) hrest (by omega)
            · have hlead := leads_of_step hlt (eventually_if_block h ha hif hr hw)
              rw [stepEnd_ifAnswer hw] at hlead
              exact .inr ⟨hne, hlead.halts hne⟩
    · exact .inl ⟨s, k, Nat.le_refl k, .done (by omega), hs⟩

theorem Halts.nest (h : Ready handlers total s.context)
    (hs : Halts (Eventually (flatStep handlers)) (fun _ => total) s b t) :
    Halts (Eventually (step handlers)) (fun _ => total) s b t := by
  obtain ⟨n, hn⟩ := blockLoop_of_halts (flatStep_stable handlers) hs
  obtain ⟨v, j, -, hv, hrest⟩ | ⟨-, hv⟩ := flat_block h (Nat.le_refl total) hn
  · -- at the end of the sequence the flat machine has nothing left to do
    cases j with
    | zero => simp [blockLoop] at hrest
    | succ j =>
      simp only [blockLoop, Nat.not_lt.mpr hv.stop_le, ↓reduceIte, Option.some.injEq,
        Prod.mk.injEq] at hrest
      obtain ⟨rfl, rfl⟩ := hrest
      exact hv
  · exact hv

-- ---------------------------------------------------------------------------
-- Whole runs
-- ---------------------------------------------------------------------------

theorem halts_iff_flat (h : s.context.Flat handlers) :
    Halts (Eventually (step handlers)) Context.len s b t ↔
      Halts (Eventually (flatStep handlers)) Context.len s b t := by
  by_cases hle : s.context.index ≤ s.context.len
  · have hs : Ready handlers s.context.len s.context := ⟨h, rfl, hle⟩
    rw [hs.halts_len fun _ _ _ h hr => h.step hr, hs.halts_len fun _ _ _ h hr => h.flatStep hr]
    exact ⟨.flatten hs, .nest hs⟩
  · -- behind the end there is nothing to run
    have hdone {R : State → Except RuntimeError Flags × State → Prop}
        (hs : Halts R Context.len s b t) : b = .ok none ∧ t = s := by
      cases hs with
      | done => exact ⟨rfl, rfl⟩
      | fail hlt | stop hlt | more hlt => omega
    constructor
    all_goals
      intro hs
      obtain ⟨rfl, rfl⟩ := hdone hs
      exact .done (by omega)

theorem driveWith_iff_flat (h : s.context.Flat handlers) :
    (∃ n, driveWith (step handlers n) n release s = some r) ↔
      ∃ n, flatRun handlers n release s = some r := by
  unfold flatRun
  rw [driveWith_iff_halts (step_stable handlers), driveWith_iff_halts (flatStep_stable handlers)]
  simp only [halts_iff_flat h]

/-- A run ends if and only if the flat machine does, and then with the same outcome in
the same state: the same context and, in the trace of the world, the same dispatched
actions one after the other. -/
theorem run_iff_flatRun (h : s.context.Flat handlers) (r : Outcome × State) :
    ((∃ n, run handlers n s = some r) ↔ ∃ n, flatRun handlers n true s = some r) ∧
      ((∃ n, runIteration handlers n s = some r) ↔ ∃ n, flatRun handlers n false s = some r) :=
  ⟨driveWith_iff_flat h, driveWith_iff_flat h⟩

/-- An If whose block holds an If with a longer one, in which a jump leaves the first. -/
def overlapping : State :=
  let actions : List Action :=
    [ .ofValues "If" (.builtin .ifBlock) [.bool true, .int 2],
      .ofValues "If" (.builtin .ifBlock) [.bool true, .int 4],
      .ofValues "Jump" (.host "Jump") [.int 5],
      .ofValues "Stop" (.builtin .stop) [],
      .ofValues "Stop" (.builtin .stop) [],
      .ofValues "If" (.builtin .ifBlock) [.bool false, .int 1],
      .ofValues "Stop" (.builtin .stop) [] ]
  { context := .fresh 1 "overlapping" .builtins (.shared actions) none
    world := .initial fun _ => 0 }

theorem run_iff_flatRun_overlapping : overlapping.context.Flat Probe.handlers ∧
    ∃ n r, run Probe.handlers n overlapping = some r ∧ r.1 = .completed ∧
      (r.2.world.trace.filterMap fun | .dispatch c => some c.index | _ => none) = [5, 2, 1, 0] := by
  have hjump : (Probe.handlers "Jump").Within (· ≠ .dispose) False True :=
    .bind (Prog.within_argumentAs (by simp)) fun _ =>
      .bind (Prog.within_setIndex (by simp)) fun _ => trivial
  have hflat : overlapping.context.Flat Probe.handlers := by
    simp [overlapping, Context.Flat, Context.actions, Context.fresh, Sequence.actions, Action.Flat,
      hjump]
  have heval : (flatRun Probe.handlers 5 true overlapping).map (fun r => (r.1,
      r.2.world.trace.filterMap fun | .dispatch c => some c.index | _ => none)) =
      some (.completed, [5, 2, 1, 0]) := by
    decide +kernel
  obtain ⟨r, hr, hout⟩ := Option.map_eq_some_iff.mp heval
  obtain ⟨n, hn⟩ := (run_iff_flatRun hflat r).1.mpr ⟨5, hr⟩
  exact ⟨hflat, n, r, hn, (Prod.mk.inj hout).1, (Prod.mk.inj hout).2⟩

end Playbook
