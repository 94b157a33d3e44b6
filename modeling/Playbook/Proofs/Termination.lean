import Playbook.Proofs.Builtins
import Playbook.Proofs.Evaluation
import Playbook.Proofs.Sources
import Playbook.Proofs.Traces
import Playbook.Scheduler

/-!
# Scripts of built-in actions end

Every run of a script that was compiled against the built-in actions ends, whatever
the dice show and whatever earlier runs have left in the context.

A step that goes on leaves the cursor behind the action it dispatched, so a loop over
steps ends once each of them does. A step ends because the blocks that it runs lie
behind it: the induction is on the number of actions from the cursor on
(`step_ends`), and Repeat counts down in it. For and ForEach run a target in a
context of its own; a target that runs a further one was compiled from fewer words
than it, so there the induction is on the words (`each_ends`).
-/

namespace Playbook

-- ---------------------------------------------------------------------------
-- Built-in actions and their targets
-- ---------------------------------------------------------------------------

def Action.IsBuiltin (a : Action) : Prop := ∃ b, a.definition.behaviour = .builtin b

def Action.isFor (a : Action) : Bool :=
  a.definition.behaviour = .builtin .forActor || a.definition.behaviour = .builtin .forEach

def Action.depth (a : Action) : Nat := if a.isFor then a.overflow.length + 1 else 0

namespace Compile

theorem bindParams_required {id : String} (h : (bindParams site id args specs).result = .ok slots)
    (hp : p ∈ specs) (hd : p.default = none) : p.index < args.length := by
  induction specs generalizing slots with
  | nil => simp at hp
  | cons spec specs ih =>
    simp only [bindParams, Reading.bind_ok] at h
    obtain ⟨slot, hslot, rest, hrest, -⟩ := h
    obtain rfl | hp := List.mem_cons.mp hp
    · cases ht : args[p.index]? with
      | none => simp [bindParam, ht, hd] at hslot
      | some t => exact (List.getElem?_eq_some_iff.mp ht).1
    · exact ih hrest hp

end Compile

/-- A built-in definition; one that runs a target has a parameter without a default. -/
def Definition.NeedsWords (d : Definition) : Prop :=
  ∃ b, d.behaviour = .builtin b ∧ (b.HasTarget → ∃ p ∈ d.params, p.default = none)

instance (d : Definition) : Decidable d.NeedsWords :=
  match hb : d.behaviour with
  | .builtin b =>
    decidable_of_iff (b.HasTarget → d.params.any (·.default.isNone) = true) <| by
      simp [Definition.NeedsWords, hb]
  | .host _ => .isFalse fun ⟨_, h, _⟩ => by simp [hb] at h
  | .idle => .isFalse fun ⟨_, h, _⟩ => by simp [hb] at h

theorem Registry.builtins_needWords : ∀ d ∈ Registry.builtins.definitions, d.NeedsWords := by
  decide +kernel

/-- A target is built in, and one that runs another has used up some of the words that
it was compiled from. -/
theorem compile_target {id : String} (h : (Compile.action .builtins unit id args).result = .ok a) :
    a.IsBuiltin ∧ a.depth ≤ args.length := by
  obtain ⟨head, rest, hts, hd, -, -, hbind⟩ := Compile.tokens_ok h
  obtain ⟨slots, hslots, -, ha⟩ := Compile.bindStatement_ok hbind
  obtain ⟨b, hb, hrequired⟩ := Registry.builtins_needWords _ (Registry.find?_ok hd).1
  refine ⟨⟨b, hb⟩, ?_⟩
  unfold Action.depth
  split
  · rename_i hfor
    obtain ⟨p, hp, hnone⟩ := hrequired (by simpa [Action.isFor, hb, Builtin.HasTarget] using hfor)
    have hlen := Compile.bindParams_required hslots hp hnone
    have hpos := List.length_pos_of_mem hp
    have hover : a.overflow = rest.drop a.definition.params.length := by rw [ha]
    obtain ⟨-, rfl⟩ := List.cons.inj hts
    simp only [hover, List.length_drop, List.length_append]
    omega
  · exact Nat.zero_le _

-- ---------------------------------------------------------------------------
-- Contexts that run built-in actions
-- ---------------------------------------------------------------------------

structure Admits (good : Action → Prop) (actions : List Action) : Prop where
  builtin : ∀ a ∈ actions, a.IsBuiltin
  targets : ∀ a ∈ actions, a.isFor = true → ∀ unit id t,
    (Compile.action .builtins unit id a.overflow).result = .ok t → good t

/-- What a run of a sequence with `good` targets relies on and keeps. Since the world was `w₀`, no
context that was there has been cancelled. -/
structure Tame (w₀ : World) (good : Action → Prop) (actions : List Action) (s : State) : Prop where
  sequence : s.context.actions = actions
  registry : s.context.registry = .builtins
  memos : ∀ key t, s.context.metadata.get? key = some (.target t) → good t
  clean : s.world.Clean
  spared : w₀.Spares (fun _ => False) s.world

section
variable {w₀ : World} {good : Action → Prop} {actions : List Action}

theorem Tame.aside {s t : State} (h : Tame w₀ good actions s)
    (hactions : t.context.actions = s.context.actions)
    (hregistry : t.context.registry = s.context.registry)
    (hmetadata : t.context.metadata = s.context.metadata) (hpool : t.world.pool = s.world.pool)
    (hcontexts : t.world.nextContext = s.world.nextContext)
    (hcancelled : t.world.cancelled = s.world.cancelled) : Tame w₀ good actions t where
  sequence := hactions.trans h.sequence
  registry := hregistry.trans h.registry
  memos := by
    rw [hmetadata]
    exact h.memos
  clean := by
    rw [World.Clean, hpool]
    exact h.clean
  spared := h.spared.trans (.of_eq hcontexts hcancelled)

theorem Tame.setIndex {s : State} (h : Tame w₀ good actions s) (hc : s.context.setIndex i = .ok c) :
    Tame w₀ good actions { s with context := c } := by
  unfold Context.setIndex at hc
  split at hc
  · simp at hc
  · simp only [Except.ok.injEq] at hc
    subst hc
    exact h.aside rfl rfl rfl rfl rfl rfl

theorem tame_framed : Framed fun s t => Tame w₀ good actions s → Tame w₀ good actions t where
  refl _ := id
  trans _ _ _ hst htu := htu ∘ hst
  move _ _ _ hc h := h.setIndex hc

theorem Tame.entered {s : State} (h : Tame w₀ good actions s) : Tame w₀ good actions s.entered :=
  h.aside rfl rfl rfl rfl rfl rfl

theorem Tame.logged {s : State} (h : Tame w₀ good actions s) (entry : Option LogEntry) :
    Tame w₀ good actions { s with world := s.world.logged entry } :=
  ⟨h.sequence, h.registry, h.memos, h.clean.logged entry, h.spared.trans (.logged _ entry)⟩

theorem Tame.remember {s : State} (h : Tame w₀ good actions s) (ht : good t) :
    Tame w₀ good actions (Effect.run (.remember key (.target t)) s).2 := by
  refine ⟨h.sequence, h.registry, ?_, h.clean, h.spared⟩
  intro key' t' hget
  simp only [Effect.run, Table.get?_set] at hget
  split at hget
  · simp only [Option.some.injEq, Memo.target.injEq] at hget
    exact hget ▸ ht
  · exact h.memos key' t' hget

-- ---------------------------------------------------------------------------
-- Handlers end
-- ---------------------------------------------------------------------------

/-- How the handler of a built-in action ends: with the cursor not before where it
was, unless it stops. -/
abbrev HandlerEnds (handlers : Handlers) (w₀ : World) (good : Action → Prop)
    (actions : List Action) (p : Handler) (s : State) (entry : Nat) : Prop :=
  p.Ends handlers s
    (fun flags t => Tame w₀ good actions t ∧ (flags.stop = false → entry ≤ t.context.index))
    (Tame w₀ good actions)

def StepEnds (handlers : Handlers) (w₀ : World) (good : Action → Prop) (actions : List Action)
    (s : State) : Prop :=
  ∃ x t, Eventually (step handlers) s (x, t) ∧ Tame w₀ good actions t ∧
    ∀ flags, x = .ok flags → flags.stop = false → s.context.index < t.context.index

theorem plain_ends {b : Builtin} (hb : ¬ b.HasBlock) (ht : ¬ b.HasTarget)
    (h : Tame w₀ good actions s) :
    HandlerEnds handlers w₀ good actions b.handler s s.context.index := by
  refine .mono (.of_within (P := fun s t => (Tame w₀ good actions s → Tame w₀ good actions t) ∧
      t.context.index = s.context.index) (b.handler_within.mono (fun _ he => he) hb ht)
    (fun s => ⟨id, rfl⟩) (fun s t u hst htu => ⟨htu.1 ∘ hst.1, htu.2.trans hst.2⟩) ?_)
    (fun _ t hP => ⟨hP.1 h, fun _ => hP.2 ▸ Nat.le_refl _⟩) fun t hP => hP.1 h
  intro e s he
  cases e with
  | readSlot | setVariable | throwDice | throwFloat | log =>
    exact ⟨fun h => h.aside rfl rfl rfl rfl rfl rfl, rfl⟩
  | setIndex | suspend => exact absurd he hb
  | compile => exact absurd he ht
  | remember => exact absurd he.1 ht
  | removeVariable | setActor | reset | dispose | cancel | revoke | note | newObject =>
    exact he.elim

theorem argumentAs_ends {read : Value → Except RuntimeError α} (h : Tame w₀ good actions s) :
    (Prog.argumentAs slot read).Ends handlers s
      (fun _ t => Tame w₀ good actions t ∧ t.context = s.context) (Tame w₀ good actions) :=
  have ht : Tame w₀ good actions (s.argument slot read).2 :=
    h.aside rfl rfl rfl rfl rfl rfl
  .argumentAs (fun _ => ⟨ht, rfl⟩) ht

theorem setIndex_ends (h : Tame w₀ good actions s) :
    (Prog.setIndex i).Ends handlers s
      (fun _ t => Tame w₀ good actions t ∧ t.context.index = i) (Tame w₀ good actions) := by
  refine .perform ?_
  cases hc : s.context.setIndex i with
  | error e =>
    simp only [Effect.run, hc]
    exact .fail h
  | ok c =>
    simp only [Effect.run, hc]
    exact .done ⟨h.setIndex hc, (Context.setIndex_kept hc).2.1⟩

theorem blockAfter_ends (h : Tame w₀ good actions s) :
    (Builtin.blockAfter count).Ends handlers s
      (fun r t => t = s ∧ r = (s.context.index + 1, s.context.index + 1 + count))
      (Tame w₀ good actions) := by
  refine .look ?_
  simp only [Prog.bind]
  split
  · exact .fail h
  · exact .done ⟨rfl, rfl⟩

theorem afterBlock_ends (stopped : Option Flags) (h : Tame w₀ good actions s)
    (hstop : ∀ flags, stopped = some flags → flags.stop = true) (hpast : entry ≤ past) :
    HandlerEnds handlers w₀ good actions
      (match stopped with
        | some flags => pure flags
        | none => do Builtin.leaveBlock past; pure .proceed) s entry := by
  cases stopped with
  | some flags => exact .done ⟨h, by simp [hstop flags rfl]⟩
  | none =>
    refine .bind (.look (setIndex_ends h)) ?_
    rintro _ t ⟨ht, hi⟩
    exact .done ⟨ht, fun _ => by omega⟩

/-- A block ends if all steps from `low` on do and it starts there. -/
theorem block_ends (hsteps : ∀ s, Tame w₀ good actions s → low ≤ s.context.index →
      StepEnds handlers w₀ good actions s)
    (hstart : low ≤ start) (past : Nat) (h : Tame w₀ good actions s) :
    ∃ b t, Eventually (fun n => runBlock handlers n start past) s (b, t) ∧ Tame w₀ good actions t ∧
      ∀ flags, b = .ok (some flags) → flags.stop = true := by
  by_cases hrange : start ≤ past ∧ past ≤ s.context.len
  · have hinv : Tame w₀ good actions (s.moveTo start) ∧ low ≤ (s.moveTo start).context.index :=
      ⟨h.aside rfl rfl rfl rfl rfl rfl, hstart⟩
    have hhalts : ∃ b t, Halts (Eventually (step handlers)) (fun _ => past) (s.moveTo start) b t ∧
        Tame w₀ good actions t := by
      refine Halts.of_progress (I := fun s => Tame w₀ good actions s ∧ low ≤ s.context.index)
        (fun _ _ => rfl) (fun _ hs => hs.1) ?_ hinv
      intro s hs _
      obtain ⟨x, t, hx, ht, hmore⟩ := hsteps s hs.1 hs.2
      refine ⟨x, t, hx, ht, ?_⟩
      intro flags hflags hstop
      have hlt := hmore flags hflags hstop
      exact ⟨⟨ht, by omega⟩, hlt⟩
    obtain ⟨b, t, hb, ht⟩ := hhalts
    obtain ⟨n, hn⟩ := blockLoop_of_halts (step_stable handlers) hb
    refine ⟨b, t, ⟨n, ?_⟩, ht, ?_⟩
    · simp only [runBlock, blockWith_in_range hrange.1 hrange.2, hn]
    · rintro flags rfl
      exact hb.flags_stop
  · have hrange : past < start ∨ s.context.len < past := by omega
    exact ⟨.error (s.context.outOfBounds past), s, ⟨0, by simp [runBlock, blockWith, hrange]⟩, h,
      by simp⟩

theorem iterate_ends (hsteps : ∀ s, Tame w₀ good actions s → low ≤ s.context.index →
      StepEnds handlers w₀ good actions s)
    (hstart : low ≤ start) (h : Tame w₀ good actions s) :
    (Builtin.iterate start past n).Ends handlers s
      (fun stopped t => Tame w₀ good actions t ∧ ∀ flags, stopped = some flags → flags.stop = true)
      (Tame w₀ good actions) := by
  induction n generalizing s with
  | zero => exact .done ⟨h, by simp⟩
  | succ n ih =>
    obtain ⟨b, t, hb, ht, hstop⟩ := block_ends hsteps hstart past h
    refine .block hb ?_
    cases b with
    | error e => exact .fail ht
    | ok stopped =>
      cases stopped with
      | none => exact ih ht
      | some flags => exact .done ⟨ht, by rintro _ ⟨⟩; exact hstop _ rfl⟩

theorem ifBlock_ends (hsteps : ∀ s, Tame w₀ good actions s → entry < s.context.index →
      StepEnds handlers w₀ good actions s)
    (h : Tame w₀ good actions s) (hentry : s.context.index = entry) :
    HandlerEnds handlers w₀ good actions Builtin.ifBlockHandler s entry := by
  refine .bind (argumentAs_ends h) ?_
  rintro condition t ⟨ht, hct⟩
  refine .bind (argumentAs_ends ht) ?_
  rintro count u ⟨hu, hcu⟩
  refine .bind (blockAfter_ends hu) ?_
  rintro ⟨start, past⟩ u ⟨rfl, hrange⟩
  obtain ⟨rfl, rfl⟩ := Prod.mk.inj hrange
  have hindex : u.context.index = entry := by rw [hcu, hct, hentry]
  dsimp only
  split
  · have hstart : entry + 1 ≤ u.context.index + 1 := by omega
    obtain ⟨b, v, hb, hv, hstop⟩ := block_ends hsteps hstart (u.context.index + 1 + count) hu
    refine .bind (P := fun stopped w => Tame w₀ good actions w ∧
      ∀ flags, stopped = some flags → flags.stop = true) (.block hb ?_) ?_
    · refine .ofExcept ?_ hv
      rintro stopped rfl
      exact ⟨hv, by rintro flags rfl; exact hstop flags rfl⟩
    · rintro stopped w ⟨hw, hstop⟩
      exact afterBlock_ends stopped hw hstop (by omega)
  · exact afterBlock_ends none hu (by simp) (by omega)

theorem repeatBlock_ends (hsteps : ∀ s, Tame w₀ good actions s → entry < s.context.index →
      StepEnds handlers w₀ good actions s)
    (h : Tame w₀ good actions s) (hentry : s.context.index = entry) :
    HandlerEnds handlers w₀ good actions Builtin.repeatHandler s entry := by
  refine .bind (argumentAs_ends h) ?_
  rintro amount t ⟨ht, hct⟩
  refine .bind (argumentAs_ends ht) ?_
  rintro offset u ⟨hu, hcu⟩
  refine .bind (argumentAs_ends hu) ?_
  rintro delay v ⟨hv, hcv⟩
  refine .bind (blockAfter_ends hv) ?_
  rintro ⟨start, past⟩ v ⟨rfl, hrange⟩
  obtain ⟨rfl, rfl⟩ := Prod.mk.inj hrange
  have hindex : v.context.index = entry := by rw [hcv, hcu, hct, hentry]
  dsimp only
  split
  · have hstart : entry + 1 ≤ v.context.index + 1 := by omega
    refine .bind (iterate_ends hsteps hstart hv) ?_
    rintro stopped w ⟨hw, hstop⟩
    exact afterBlock_ends stopped hw hstop (by omega)
  · refine .bind (setIndex_ends hv) ?_
    rintro _ w ⟨hw, -⟩
    exact .perform (.done ⟨hw.aside rfl rfl rfl rfl rfl rfl, by simp [Flags.pause]⟩)

theorem compile_ends {id : String}
    (hgood : ∀ unit id t, (Compile.action .builtins unit id words).result = .ok t → good t)
    (h : Tame w₀ good actions s) :
    (.perform (.compile id words) fun r => .ofExcept (r.mapError .compile) : Prog Action).Ends
      handlers s (fun t u => good t ∧ Tame w₀ good actions u ∧ u.context = s.context)
      (Tame w₀ good actions) := by
  have hrun : Tame w₀ good actions (Effect.run (.compile id words) s).2 :=
    h.aside rfl rfl rfl rfl rfl rfl
  refine .perform (.ofExcept ?_ hrun)
  intro t ht
  have hcompiled : (Compile.action s.context.registry s.context.script id words).result = .ok t :=
    Except.mapError_ok.mp ht
  rw [h.registry] at hcompiled
  exact ⟨hgood _ _ t hcompiled, hrun, rfl⟩

theorem remembered_ends {make : Prog Action} (h : Tame w₀ good actions s)
    (hmake : make.Ends handlers s
      (fun t u => good t ∧ Tame w₀ good actions u ∧ u.context = s.context)
      (Tame w₀ good actions)) :
    (Prog.remembered key .target Builtin.unpackTarget make).Ends handlers s
      (fun t u => good t ∧ Tame w₀ good actions u ∧ u.context.index = s.context.index)
      (Tame w₀ good actions) := by
  refine .look ?_
  simp only [Prog.bind]
  split
  · rename_i m hm
    cases m with
    | target t => exact .done ⟨h.memos _ _ hm, h, rfl⟩
    | int | text => exact .fail h
  · refine .bind hmake ?_
    rintro t u ⟨ht, hu, hc⟩
    exact .perform (.done ⟨ht, hu.remember ht, by rw [← hc]; rfl⟩)

theorem target_ends (hgood : ∀ unit id t,
      (Compile.action .builtins unit id a.overflow).result = .ok t → good t)
    (h : Tame w₀ good actions s) (ha : s.context.current = some a) :
    Builtin.target.Ends handlers s
      (fun t u => good t ∧ Tame w₀ good actions u ∧ u.context.index = s.context.index)
      (Tame w₀ good actions) := by
  refine .bind (argumentAs_ends h) ?_
  rintro id t ⟨ht, hc⟩
  have hcurrent : t.context.current = some a := hc ▸ ha
  refine .look ?_
  rw [← hc]
  exact remembered_ends ht (compile_ends (by simpa only [hcurrent] using hgood) ht)

def EachEnds (handlers : Handlers) (target : Action) : Prop :=
  ∀ actors s, s.context.registry = .builtins → s.world.Clean →
    ∃ t, Eventually (fun n => eachWith (step handlers n) n target actors) s t ∧ t.world.Clean ∧
      s.world.Spares (fun _ => False) t.world

theorem runFor_ends (hgood : ∀ unit id t,
      (Compile.action .builtins unit id a.overflow).result = .ok t → good t)
    (heach : ∀ t, good t → EachEnds handlers t) (h : Tame w₀ good actions s)
    (ha : s.context.current = some a) (actors : List ActorId) :
    HandlerEnds handlers w₀ good actions (Builtin.runFor actors) s s.context.index := by
  refine .bind (target_ends hgood h ha) ?_
  rintro t u ⟨ht, hu, hindex⟩
  obtain ⟨v, ⟨n, hn⟩, hclean, hspared⟩ := heach t ht actors u hu.registry hu.clean
  have hc := eachWith_context hn
  refine .each ⟨n, hn⟩ (.done ⟨⟨hc ▸ hu.sequence, hc ▸ hu.registry, hc ▸ hu.memos, hclean,
    hu.spared.trans hspared⟩, ?_⟩)
  intro _
  exact Nat.le_of_eq (by rw [hc, hindex])

/-- Every built-in handler ends, if the steps behind it and the targets do. -/
theorem handler_ends (hadm : Admits good actions) (heach : ∀ t, good t → EachEnds handlers t)
    (hsteps : ∀ s, Tame w₀ good actions s → entry < s.context.index →
      StepEnds handlers w₀ good actions s)
    (h : Tame w₀ good actions s) (hentry : s.context.index = entry)
    (ha : s.context.current = some a) (hmem : a ∈ actions)
    (hb : a.definition.behaviour = .builtin b) :
    HandlerEnds handlers w₀ good actions b.handler s entry := by
  have htargets (hfor : b.HasTarget) := hadm.targets a hmem (by
    simpa [Action.isFor, hb, Builtin.HasTarget] using hfor)
  subst hentry
  by_cases hblock : b.HasBlock
  · obtain rfl | rfl := hblock
    · exact ifBlock_ends hsteps h rfl
    · exact repeatBlock_ends hsteps h rfl
  by_cases htarget : b.HasTarget
  · obtain rfl | rfl := htarget
    · refine .bind (argumentAs_ends h) ?_
      rintro id t ⟨ht, hc⟩
      rw [← hc] at ha ⊢
      exact runFor_ends (htargets (.inl rfl)) heach ht ha [id]
    · refine .bind (argumentAs_ends h) ?_
      rintro items t ⟨ht, hc⟩
      rw [← hc] at ha ⊢
      refine .bind (P := fun _ u => u = t) (.ofExcept (fun _ _ => rfl) ht) ?_
      rintro ids t rfl
      exact runFor_ends (htargets (.inr rfl)) heach ht ha ids
  · exact plain_ends hblock htarget h

-- ---------------------------------------------------------------------------
-- Steps end
-- ---------------------------------------------------------------------------

theorem settle_onward (hle : entry ≤ s.context.index) (h : settle entry flags s = (.ok f, t))
    (hf : f.stop = false) : entry < t.context.index := by
  unfold settle at h
  split at h
  · obtain ⟨hflags, -⟩ := Prod.mk.inj h
    simp_all
  · split at h
    · obtain ⟨hflags, -⟩ := Prod.mk.inj h
      simp only [Except.ok.injEq] at hflags
      simp [← hflags, Flags.halt] at hf
    · split at h
      · split at h
        · rename_i c hc
          obtain ⟨-, rfl⟩ := Prod.mk.inj h
          have := (Context.setIndex_kept hc).2.1
          simp only
          omega
        · simp at h
      · rename_i hne
        obtain ⟨-, rfl⟩ := Prod.mk.inj h
        omega

theorem answer_ends {x : Ending Flags}
    (hpost : x.Meets (fun flags t => Tame w₀ good actions t ∧
      (flags.stop = false → entry ≤ t.context.index)) (Tame w₀ good actions) t)
    (h : x.answer entry a t = (y, u)) :
    Tame w₀ good actions u ∧
      ∀ flags, y = .ok flags → flags.stop = false → entry < u.context.index := by
  cases x with
  | value flags =>
    refine ⟨settle_rel tame_framed h hpost.1, ?_⟩
    rintro f rfl hf
    have hstop : flags.stop = false := by
      cases hstop : flags.stop with
      | false => rfl
      | true => simp_all [Ending.answer, settle_stop]
    exact settle_onward (hpost.2 hstop) h hf
  | error e =>
    obtain ⟨rfl, rfl⟩ := Prod.mk.inj h
    exact ⟨hpost, by simp⟩
  | panic m =>
    obtain ⟨rfl, rfl⟩ := Prod.mk.inj h
    exact ⟨hpost, by simp⟩

theorem step_ends (hadm : Admits good actions) (heach : ∀ t, good t → EachEnds handlers t)
    (h : Tame w₀ good actions s) : StepEnds handlers w₀ good actions s := by
  induction hm : actions.length - s.context.index using Nat.strongRecOn generalizing s with
  | ind m ih =>
    cases ha : s.context.actions[s.context.index]? with
    | none =>
      refine ⟨_, _, ⟨1, dispatch_none ha⟩, ?_, by simp⟩
      exact h.aside rfl rfl rfl rfl rfl rfl
    | some a =>
      have hlt : s.context.index < actions.length := by
        rw [← h.sequence]
        exact (List.getElem?_eq_some_iff.mp ha).1
      have hmem : a ∈ actions := h.sequence ▸ List.mem_of_getElem? ha
      obtain ⟨b, hb⟩ := hadm.builtin a hmem
      -- what a block runs lies behind the action that runs it
      have hsteps : ∀ t, Tame w₀ good actions t → s.context.index < t.context.index →
          StepEnds handlers w₀ good actions t := fun t ht hgt => ih _ (by omega) ht rfl
      have hhandler := handler_ends hadm heach hsteps h.entered rfl ha hmem hb
      obtain ⟨x, t, hstep, hpost⟩ := eventually_step ha (by rw [hb]; exact hhandler)
      obtain ⟨hu, hmore⟩ := answer_ends hpost rfl
      exact ⟨_, _, hstep, hu, hmore⟩

-- ---------------------------------------------------------------------------
-- Runs and targets end
-- ---------------------------------------------------------------------------

theorem halts_exists (hadm : Admits good actions) (heach : ∀ t, good t → EachEnds handlers t)
    (h : Tame w₀ good actions s) :
    ∃ e t, Halts (Eventually (step handlers)) Context.len s e t ∧ Tame w₀ good actions t := by
  refine Halts.of_progress (fun s hs => congrArg List.length hs.sequence) (fun _ hs => hs) ?_ h
  intro s hs _
  obtain ⟨x, t, hx, ht, hmore⟩ := step_ends hadm heach hs
  exact ⟨x, t, hx, ht, fun flags hflags hstop => ⟨ht, hmore flags hflags hstop⟩⟩

theorem driveWith_ends (hadm : Admits good actions) (heach : ∀ t, good t → EachEnds handlers t)
    (h : Tame w₀ good actions s) (release : Bool) :
    ∃ r, Eventually (fun n => driveWith (step handlers n) n release) s r ∧
      (r = (.disposed, s) ∨ ∃ e t, Tame w₀ good actions t ∧ r = conclude release e t) := by
  cases hd : s.context.disposed with
  | true =>
    refine ⟨_, (driveWith_iff_halts (step_stable handlers)).mpr ?_, .inl rfl⟩
    simp [hd]
  | false =>
    obtain ⟨e, t, hhalts, ht⟩ := halts_exists hadm heach h
    refine ⟨_, (driveWith_iff_halts (step_stable handlers)).mpr ?_, .inr ⟨e, t, ht, rfl⟩⟩
    simp only [hd, Bool.false_eq_true, ↓reduceIte]
    exact ⟨e, t, hhalts, rfl⟩

theorem conclude_tame (h : Tame w₀ good actions s) :
    Tame w₀ good actions (conclude false e s).2 := by
  cases e with
  | error e => exact h.aside rfl rfl rfl rfl rfl rfl
  | ok stopped =>
    cases stopped with
    | none => exact h.aside rfl rfl rfl rfl rfl rfl
    | some flags =>
      simp only [conclude, Bool.and_false, Bool.false_eq_true, ↓reduceIte]
      split <;> exact h

theorem visitAll_ends (hadm : Admits good actions) (heach : ∀ t, good t → EachEnds handlers t)
    (h : Tame w₀ good actions s) (parent : Context) (actors : List ActorId) :
    ∃ t, Eventually (fun n => visitAll (step handlers n) n parent actors) s t ∧
      Tame w₀ good actions t := by
  induction actors generalizing s with
  | nil => exact ⟨s, ⟨0, rfl⟩, h⟩
  | cons actor actors ih =>
    have hreset : Tame w₀ good actions { s with context := s.context.reset (some actor) } :=
      h.aside rfl rfl rfl rfl rfl rfl
    obtain ⟨⟨outcome, t⟩, ⟨n, hn⟩, hpost⟩ := driveWith_ends hadm heach hreset false
    have ht : Tame w₀ good actions t := by
      obtain hr | ⟨e, u, hu, hr⟩ := hpost
      · obtain ⟨-, rfl⟩ := Prod.mk.inj hr
        exact hreset
      · have := conclude_tame (e := e) hu
        rwa [← hr] at this
    obtain ⟨u, ⟨m, hm⟩, hu⟩ := ih (ht.logged (visitEntry parent actor outcome))
    refine ⟨u, ⟨max n m, ?_⟩, hu⟩
    have hn := driveWith_extends (step_extends handlers (Nat.le_max_left n m))
      (Nat.le_max_left n m) false _ _ hn
    have hm := visitAll_extends (step_extends handlers (Nat.le_max_right n m))
      (Nat.le_max_right n m) parent actors _ _ hm
    simp only [visitAll, hn]
    exact hm

end

-- The context of a target has one action. What it remembers there was compiled from
-- the words of that action, so the induction is on how many targets can follow.
theorem each_ends (handlers : Handlers) (ht : t.IsBuiltin) : EachEnds handlers t := by
  induction hm : t.depth using Nat.strongRecOn generalizing t with
  | ind m ih =>
    intro actors s hregistry hclean
    let good (u : Action) : Prop := u.IsBuiltin ∧ u.depth < t.depth
    have hadm : Admits good [t] := by
      refine ⟨by simpa using ht, ?_⟩
      intro a ha hfor unit id u hu
      obtain rfl := List.mem_singleton.mp ha
      obtain ⟨hbuiltin, hdepth⟩ := compile_target hu
      exact ⟨hbuiltin, by simp only [Action.depth, hfor, ↓reduceIte] at hdepth ⊢; omega⟩
    have heach : ∀ u, good u → EachEnds handlers u := fun u hu => ih _ (hm ▸ hu.2) hu.1 rfl
    obtain ⟨hitems, hpool⟩ := hclean.rent
    have hsub : Tame (s.forTarget t).world good [t] (s.forTarget t) := by
      refine ⟨?_, hregistry, ?_, hpool, .refl _⟩
      · rw [State.forTarget, hitems]
        rfl
      · simp [State.forTarget, Context.child, Context.fresh, Table.get?_empty]
    obtain ⟨u, ⟨n, hn⟩, hu⟩ := visitAll_ends hadm heach hsub s.context actors
    have hid : u.context.id = s.world.nextContext :=
      ((grows_pervades handlers).visits hn).id
    refine ⟨{ context := s.context, world := u.dispose.world }, ⟨n, ?_⟩, hu.clean.dispose u.context,
      .child t ((hu.spared.mono fun _ => False.elim).trans (.dispose _ _ (.inl hid)))⟩
    simp only at hn
    simp only [eachWith_eq, hn]
    rfl

-- ---------------------------------------------------------------------------
-- Contexts over a script
-- ---------------------------------------------------------------------------

def Action.Compiled (t : Action) : Prop :=
  ∃ unit id words, (Compile.action .builtins unit id words).result = .ok t

def Script.IsBuiltin (script : Script) : Prop :=
  ∃ unit source u, (compile .builtins unit source).result = .ok u ∧ script ∈ u.scripts

/-- A context over a script, or what is left of it. The cursor, the memory and the actor
may be any; remembered targets are those of earlier runs. -/
structure Context.Over (script : Script) (c : Context) : Prop where
  registry : c.registry = .builtins
  actions : ∀ a ∈ c.actions, a ∈ script.actions
  memos : ∀ key t, c.metadata.get? key = some (.target t) → t.Compiled

def State.Over (script : Script) (s : State) : Prop := s.context.Over script ∧ s.world.Clean

theorem Script.IsBuiltin.actions (h : Script.IsBuiltin script) (ha : a ∈ script.actions) :
    a.IsBuiltin := by
  obtain ⟨unit, source, u, hu, hs⟩ := h
  have hbound := compile_bound Registry.builtins_writable hu hs ha
  obtain ⟨b, hb, -⟩ := Registry.builtins_needWords _ (Registry.find?_ok hbound.known).1
  exact ⟨b, hb⟩

theorem compiled_ends (handlers : Handlers) (t : Action) (h : t.Compiled) :
    EachEnds handlers t := by
  obtain ⟨unit, id, words, ht⟩ := h
  exact each_ends handlers (compile_target ht).1

theorem State.Over.admits {s : State} (hs : script.IsBuiltin) (h : s.Over script) :
    Admits Action.Compiled s.context.actions :=
  ⟨fun a ha => hs.actions (h.1.actions a ha), fun a _ _ unit id _ ht => ⟨unit, id, a.overflow, ht⟩⟩

theorem State.Over.tame {s : State} (h : s.Over script) :
    Tame s.world Action.Compiled s.context.actions s :=
  ⟨rfl, h.1.registry, h.1.memos, h.2, .refl _⟩

theorem Tame.over (h : Tame w₀ Action.Compiled actions t)
    (hsub : ∀ a ∈ actions, a ∈ script.actions) : t.Over script :=
  ⟨⟨h.registry, h.sequence ▸ hsub, h.memos⟩, h.clean⟩

theorem State.Over.dispose {s : State} (h : s.Over script) : s.dispose.Over script := by
  refine ⟨?_, h.2.dispose s.context⟩
  simp only [State.dispose, World.dispose]
  split
  · exact h.1
  · exact ⟨h.1.registry, by simp [Context.released, Context.actions, Sequence.actions],
      by simp [Context.released, Table.get?_empty]⟩

theorem State.Over.conclude {s : State} (h : s.Over script) :
    (Playbook.conclude release e s).2.Over script := by
  cases e with
  | error e =>
    simp only [Playbook.conclude]
    split
    · exact State.Over.dispose h
    · exact h
  | ok stopped =>
    cases stopped with
    | none => exact h
    | some flags =>
      simp only [Playbook.conclude]
      split
      · exact h.dispose
      · split <;> exact h

theorem State.Over.drive {s : State} (handlers : Handlers) (hs : script.IsBuiltin)
    (h : s.Over script) (release : Bool) :
    ∃ n r, driveWith (Playbook.step handlers n) n release s = some r ∧ r.2.Over script := by
  obtain ⟨r, ⟨n, hn⟩, hr⟩ :=
    driveWith_ends (h.admits hs) (compiled_ends handlers) h.tame release
  refine ⟨n, r, hn, ?_⟩
  obtain rfl | ⟨e, t, ht, rfl⟩ := hr
  · exact h
  · exact (ht.over h.1.actions).conclude

theorem State.Over.block {s : State} (handlers : Handlers) (hs : script.IsBuiltin)
    (h : s.Over script) (start stop : Nat) :
    ∃ n r, runBlock handlers n start stop s = some r ∧ r.2.Over script ∧
      s.world.Spares (fun _ => False) r.2.world := by
  obtain ⟨b, t, ⟨n, hn⟩, ht, -⟩ := block_ends
    (fun _ ht _ => step_ends (h.admits hs) (compiled_ends handlers) ht) (Nat.zero_le start)
    stop h.tame
  exact ⟨n, (b, t), hn, ht.over h.1.actions, ht.spared⟩

theorem State.Over.step_onward {s : State} (hs : script.IsBuiltin) (h : s.Over script)
    (hstep : Playbook.step handlers n s = some (.ok flags, t)) (hstop : flags.stop = false) :
    s.context.index < t.context.index := by
  obtain ⟨x, u, hu, -, hmore⟩ := step_ends (h.admits hs) (compiled_ends handlers) h.tame
  obtain ⟨rfl, rfl⟩ := Prod.mk.inj (hu.unique (step_stable handlers) ⟨n, hstep⟩)
  exact hmore flags rfl hstop

-- ---------------------------------------------------------------------------
-- Ticks
-- ---------------------------------------------------------------------------

namespace Scheduler

theorem fire_stable (handlers : Handlers) (now : Nat) (l : Loop) :
    Stable fun n => fire handlers n now l := by
  intro n m hle w r hr
  simp only [fire] at hr ⊢
  split at hr
  · simp at hr
  · rename_i hb
    have hb := blockWith_extends (step_extends handlers hle) hle _ _ _ _ hb
    simp only [runBlock, hb]
    exact hr

theorem tickLoop_stable (handlers : Handlers) (now : Nat) (l : Loop) :
    Stable fun n => tickLoop handlers n now l := by
  intro n m hle w r hr
  simp only [tickLoop] at hr ⊢
  split at hr
  · rename_i ha; simpa [ha] using hr
  · rename_i ha
    simp only [ha, Bool.false_eq_true, ↓reduceIte]
    split at hr
    · rename_i hlt; simpa [hlt] using hr
    · rename_i hlt
      simp only [hlt, ↓reduceIte]
      split at hr
      · simp at hr
      · rename_i hf
        have hf := fire_stable handlers now l n m hle _ _ hf
        simp only [hf]
        exact hr

theorem tickLoops_stable (handlers : Handlers) (now : Nat) (ls : List Loop) :
    Stable fun n => tickLoops handlers n now ls := by
  intro n m hle
  induction ls with
  | nil => exact .refl _
  | cons l ls ih =>
    intro w r hr
    simp only [tickLoops] at hr ⊢
    split at hr
    · simp at hr
    · rename_i hl
      have hl := tickLoop_stable handlers now l n m hle _ _ hl
      simp only [hl]
      split at hr
      · simp at hr
      · rename_i hls
        have hls := ih _ _ hls
        simp only at hls
        simp only [hls]
        exact hr

end Scheduler

def Loop.IsBuiltin (l : Loop) : Prop :=
  ∃ script : Script, script.IsBuiltin ∧ l.context.Over script

theorem fire_ends (handlers : Handlers) (now : Nat) (hl : Loop.IsBuiltin l) (hw : w.Clean) :
    ∃ n event kept w', Scheduler.fire handlers n now l w = some (event, kept, w') ∧ w'.Clean ∧
      w.Spares (fun i => i = l.context.id ∧ kept = none) w' ∧ ∀ l' ∈ kept, Loop.IsBuiltin l' := by
  obtain ⟨script, hs, hover⟩ := hl
  obtain ⟨n, ⟨r, t⟩, hr, ht, hspared⟩ := State.Over.block handlers hs (s := ⟨l.context, w⟩)
    ⟨hover, hw⟩ l.continuation.start l.continuation.stop
  have hlog : (t.world.logged (Scheduler.iterationEntry t.context r)).Clean :=
    World.Clean.logged ht.2 _
  have hlogged : w.Spares (fun _ => False)
      (t.world.logged (Scheduler.iterationEntry t.context r)) := hspared.trans (.logged _ _)
  have hid : t.context.id = l.context.id := ((grows_pervades handlers).block hr).id
  refine ⟨n, ?_⟩
  simp only [Scheduler.fire, hr]
  split
  · refine ⟨_, _, _, rfl, hlog, hlogged.mono fun _ => False.elim, ?_⟩
    rintro _ ⟨⟩
    exact ⟨script, hs, ht.1⟩
  · exact ⟨_, _, _, rfl, hlog.dispose _,
      (hlogged.mono fun _ => False.elim).trans (.dispose _ _ ⟨hid, rfl⟩), by simp⟩

theorem tickLoop_ends (handlers : Handlers) (now : Nat) (hl : Loop.IsBuiltin l) (hw : w.Clean) :
    ∃ n event kept w', Scheduler.tickLoop handlers n now l w = some (event, kept, w') ∧ w'.Clean ∧
      w.Spares (fun i => i = l.context.id ∧ kept = none) w' ∧ ∀ l' ∈ kept, Loop.IsBuiltin l' := by
  obtain ⟨n, event, kept, w', hfire, hw', hspared, hkept⟩ := fire_ends handlers now hl hw
  refine ⟨n, ?_⟩
  simp only [Scheduler.tickLoop]
  split
  · exact ⟨_, _, _, rfl, World.Clean.release (w := w.log _) hw _, .trans (.log w _) (.release _ _),
      by simp⟩
  · split
    · exact ⟨_, _, _, rfl, hw, .refl _, by rintro _ ⟨⟩; exact hl⟩
    · simp only [hfire]
      exact ⟨_, _, _, rfl, hw', hspared, hkept⟩

theorem tickLoops_ends (handlers : Handlers) (now : Nat) (hls : ∀ l ∈ ls, Loop.IsBuiltin l)
    (hw : w.Clean) :
    ∃ n events rest w', Scheduler.tickLoops handlers n now ls w = some (events, rest, w') ∧
      w'.Clean ∧ ∀ l ∈ rest, Loop.IsBuiltin l := by
  induction ls generalizing w with
  | nil => exact ⟨0, [], [], w, rfl, hw, by simp⟩
  | cons l ls ih =>
    obtain ⟨n, event, kept, w₁, hl, hw₁, -, hkept⟩ :=
      tickLoop_ends handlers now (hls l (by simp)) hw
    obtain ⟨m, events, rest, w₂, hrest, hw₂, hloops⟩ := ih (fun l hl => hls l (by simp [hl])) hw₁
    have hl := Scheduler.tickLoop_stable handlers now l n (max n m) (by omega) _ _ hl
    have hrest := Scheduler.tickLoops_stable handlers now ls m (max n m) (by omega) _ _ hrest
    simp only at hl hrest
    refine ⟨max n m, _, _, w₂, by simp only [Scheduler.tickLoops, hl, hrest]; rfl, hw₂, ?_⟩
    intro l' hl'
    obtain hl' | hl' := List.mem_append.mp hl'
    · exact hkept l' (by simpa using hl')
    · exact hloops l' hl'

/-- Runs over a script of built-in actions end, as do the ticks of loops over such
scripts, and leave the context as one over that script. A step that goes on leaves the
cursor behind the action that it dispatched. -/
theorem builtin_runs_end (handlers : Handlers) (hs : script.IsBuiltin) (h : s.Over script) :
    (∃ n r, run handlers n s = some r ∧ r.2.Over script) ∧
    (∃ n r, runIteration handlers n s = some r ∧ r.2.Over script) ∧
    (∀ start stop, ∃ n r, runBlock handlers n start stop s = some r ∧ r.2.Over script) ∧
    (∃ n r, step handlers n s = some r ∧ r.2.Over script) ∧
    (∀ n flags t, step handlers n s = some (.ok flags, t) → flags.stop = false →
      s.context.index < t.context.index) ∧
    ∀ now (sched : Scheduler), (∀ l ∈ sched.loops, l.IsBuiltin) →
      ∃ n events sched' w, sched.tick handlers n now s.world = some (events, sched', w) ∧
        w.Clean ∧ ∀ l ∈ sched'.loops, l.IsBuiltin := by
  obtain ⟨x, t, ⟨n, hn⟩, ht, -⟩ := step_ends (h.admits hs) (compiled_ends handlers) h.tame
  refine ⟨h.drive handlers hs true, h.drive handlers hs false, ?_,
    ⟨n, (x, t), hn, ht.over h.1.actions⟩, fun n flags t => h.step_onward hs, ?_⟩
  · intro start stop
    obtain ⟨n, r, hr, hover, -⟩ := h.block handlers hs start stop
    exact ⟨n, r, hr, hover⟩
  intro now sched hsched
  obtain ⟨n, events, rest, w, htick, hw, hrest⟩ := tickLoops_ends handlers now hsched h.2
  exact ⟨n, events, _, w, by simp only [Scheduler.tick, htick]; rfl, hw, hrest⟩

def nestedSource : String :=
  "Set For -> $next\nRepeat 2 3 0\nIf true 2\nFor 1 $next 2 ForEach 3 Log deep\nStopIf false\nSet done"

theorem builtin_runs_end_nested : ∃ script : Script, script.IsBuiltin ∧
    script.actions.length = 6 ∧ ∀ dice,
      let s : State :=
        { context := .fresh 1 script.name .builtins (.shared script.actions) none
          world := .initial dice }
      s.Over script ∧ ∃ n r, run .none n s = some r ∧ r.2.Over script := by
  have hlen : (compile .builtins "demo" nestedSource).result.map
      (fun u => u.scripts.map fun s => s.actions.length) = .ok [6] := by
    decide +kernel
  cases h : (compile .builtins "demo" nestedSource).result with
  | error e => simp [h, Except.map] at hlen
  | ok u =>
    simp only [h, Except.map, Except.ok.injEq] at hlen
    obtain ⟨script, hscripts, hactions⟩ := List.map_eq_singleton_iff.mp hlen
    have hs : script.IsBuiltin := ⟨_, _, u, h, by simp [hscripts]⟩
    refine ⟨script, hs, hactions, ?_⟩
    intro dice s
    have hover : s.Over script := by
      refine ⟨⟨rfl, fun a ha => ha, ?_⟩, ?_⟩
      · simp [s, Context.fresh, Table.get?_empty]
      · simp [s, World.Clean, World.initial, Pool.empty]
    exact ⟨hover, (builtin_runs_end .none hs hover).1⟩

end Playbook
