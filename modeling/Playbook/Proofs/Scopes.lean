import Playbook.Proofs.Disposal

/-!
# The scope of variables

A variable of a context has the value that was last written to it there. If there is none, because
it was never written, removed or reset, it has the value that the parent's variable had when the
context was made. So contexts never see each other's writes: what is given to a sub-context is fixed
when it is made, and what it does itself stays with it.

This is said about everything that can be done in a session (`Session.account`), at any depth of
sub-contexts and down to what handlers do in nested blocks.
-/

namespace Playbook

-- ---------------------------------------------------------------------------
-- What a history says about variables
-- ---------------------------------------------------------------------------

inductive Occurrence where
  | made (i : ContextId) (parent : Option ContextId)
  | done (m : Instant)

def Occurrence.whose : Occurrence → ContextId
  | .made i _ => i
  | .done m => m.whose

/-- What is under a name after the deed, if that is known without looking at what was before. -/
def Deed.leaves? (name : String) : Deed → Option (Option Value)
  | .effect (.setVariable other v) => if other = name then some (some v) else none
  | .effect (.removeVariable other) => if other = name then some none else none
  | .effect (.reset _) => some none
  | _ => none

/-- The value last written under a name in the context itself, if it was not removed since. Making
and resetting a context starts over, and so does disposal. Histories are read latest first. -/
def own : List Occurrence → ContextId → String → Option Value
  | [], _, _ => none
  | .made j _ :: past, i, name => if j = i then none else own past i name
  | .done m :: past, i, name =>
    if m.releases i then none
    else if m.whose = i then (m.deed.leaves? name).getD (own past i name)
    else own past i name

/-- The value that the parent had under a name when the context was made. Nothing is left of it
after disposal. -/
def given : List Occurrence → ContextId → String → Option Value
  | [], _, _ => none
  | .made j parent :: past, i, name =>
    if j = i then parent.bind fun p => (own past p name).or (given past p name)
    else given past i name
  | .done m :: past, i, name => if m.releases i then none else given past i name

theorem Instant.whose_of_releases {m : Instant} (h : m.releases i = true) : m.whose = i :=
  (releases_iff.mp h).2.1

theorem own_of_others (h : ∀ e ∈ es, e.whose ≠ i) (name : String) :
    own (es ++ past) i name = own past i name := by
  induction es with
  | nil => rfl
  | cons e es ih =>
    obtain ⟨he, hes⟩ := List.forall_mem_cons.mp h
    cases e with
    | made j parent => simpa [own, show j ≠ i from he] using ih hes
    | done m =>
      have hrelease : m.releases i = false :=
        Bool.eq_false_iff.mpr fun hr => he (m.whose_of_releases hr)
      simpa [own, hrelease, show m.whose ≠ i from he] using ih hes

theorem given_of_others (h : ∀ e ∈ es, e.whose ≠ i) (name : String) :
    given (es ++ past) i name = given past i name := by
  induction es with
  | nil => rfl
  | cons e es ih =>
    obtain ⟨he, hes⟩ := List.forall_mem_cons.mp h
    cases e with
    | made j parent => simpa [given, show j ≠ i from he] using ih hes
    | done m =>
      have hrelease : m.releases i = false :=
        Bool.eq_false_iff.mpr fun hr => he (m.whose_of_releases hr)
      simpa [given, hrelease] using ih hes

structure Context.Described (past : List Occurrence) (c : Context) : Prop where
  own : ∀ name, c.memory.get? name = own past c.id name
  given : ∀ name, c.inherited.get? name = given past c.id name

namespace Context.Described

theorem lookup {c : Context} (h : c.Described past) (name : String) :
    c.lookup name = (Playbook.own past c.id name).or (Playbook.given past c.id name) := by
  rw [Context.lookup, h.own, h.given]

theorem others {c : Context} (h : c.Described past) (hes : ∀ e ∈ es, e.whose ≠ c.id) :
    c.Described (es ++ past) :=
  ⟨fun name => (h.own name).trans (own_of_others hes name).symm,
    fun name => (h.given name).trans (given_of_others hes name).symm⟩

theorem same {c d : Context} (h : c.Described past) (hid : d.id = c.id)
    (hmemory : d.memory = c.memory) (hinherited : d.inherited = c.inherited) :
    d.Described past :=
  ⟨fun name => by rw [hmemory, hid, h.own], fun name => by rw [hinherited, hid, h.given]⟩

end Context.Described

-- ---------------------------------------------------------------------------
-- Effects and runs
-- ---------------------------------------------------------------------------

theorem Effect.run_memory {e : Effect} (he : e ≠ .dispose) (s : State) (name : String) :
    (e.run s).2.context.memory.get? name =
      ((Deed.effect e).leaves? name).getD (s.context.memory.get? name) := by
  cases e with
  | setIndex i =>
    obtain ⟨j, hj⟩ := run_setIndex i s
    rw [hj]
    rfl
  | setVariable other v =>
    simp only [run, Context.setVariable, Table.get?_set, Deed.leaves?, eq_comm (a := other)]
    split <;> rfl
  | removeVariable other =>
    simp only [run, Context.removeVariable, Table.get?_erase, Deed.leaves?, eq_comm (a := other)]
    split <;> rfl
  | dispose => exact absurd rfl he
  | _ => rfl

theorem Context.Described.effect {s : State} (h : s.context.Described past) (e : Effect) :
    (e.run s).2.context.Described (.done ⟨.effect e, s⟩ :: past) := by
  by_cases he : e = .dispose
  · subst he
    cases hd : s.context.disposed with
    | true =>
      have hrelease : Instant.releases s.context.id ⟨.effect .dispose, s⟩ = false :=
        Bool.eq_false_iff.mpr fun hr => by
          cases hd.symm.trans (Instant.releases_iff.mp hr).2.2
      simp only [Effect.run, World.dispose, hd, ↓reduceIte]
      refine ⟨fun name => ?_, fun name => ?_⟩
      · simpa [Playbook.own, hrelease, Instant.whose, Deed.leaves?] using h.own name
      · simpa [Playbook.given, hrelease] using h.given name
    | false =>
      have hrelease : Instant.releases s.context.id ⟨.effect .dispose, s⟩ = true :=
        Instant.releases_iff.mpr ⟨rfl, rfl, hd⟩
      simp only [Effect.run, World.dispose, hd, Bool.false_eq_true, ↓reduceIte, Context.released]
      refine ⟨fun name => ?_, fun name => ?_⟩
      · simp [Playbook.own, hrelease]
      · simp [Playbook.given, hrelease]
  · have hkept := Effect.run_kept he s
    have hrelease : Instant.releases s.context.id ⟨.effect e, s⟩ = false :=
      Bool.eq_false_iff.mpr fun hr => he (by cases (Instant.releases_iff.mp hr).1; rfl)
    refine ⟨fun name => ?_, fun name => ?_⟩
    · rw [Effect.run_memory he, hkept.id, h.own]
      simp [Playbook.own, hrelease, Instant.whose]
    · rw [hkept.inherited, hkept.id, h.given]
      simp [Playbook.given, hrelease]

def Tells (s : State) (ms : List Instant) (t : Option State) : Prop :=
  s.Sound → Passage s ms t ∧ ∀ past, s.context.Described past →
    ∀ u, t = some u → u.context.Described ((ms.map Occurrence.done).reverse ++ past)

theorem Tells.silent {s t : State} (hp : s.Sound → Passage s [] (some t))
    (hid : t.context.id = s.context.id) (hmemory : t.context.memory = s.context.memory)
    (hinherited : t.context.inherited = s.context.inherited) : Tells s [] (some t) := by
  refine fun hs => ⟨hp hs, ?_⟩
  rintro past h u ⟨⟩
  exact h.same hid hmemory hinherited

theorem tells_threads : Threads Tells where
  stay s := .silent (passage_threads.stay s) rfl rfl rfl
  cut s ms t h hs := ⟨passage_threads.cut s ms t (fun hs => (h hs).1) hs, by simp⟩
  append s ms t ms' u h h' hs := by
    obtain ⟨hp, htells⟩ := h hs
    obtain ⟨hp', htells'⟩ := h' (hp.ends t rfl).1
    refine ⟨hp.append hp', fun past hpast v hv => ?_⟩
    rw [List.map_append, List.reverse_append, List.append_assoc]
    exact htells' _ (htells past hpast t rfl) v hv
  effect e s hs := by
    refine ⟨passage_threads.effect e s hs, ?_⟩
    rintro past h u ⟨⟩
    exact h.effect e
  enter s a ha hs := by
    refine ⟨passage_threads.enter s a ha hs, ?_⟩
    rintro past h u ⟨⟩
    have hsame : s.entered.context.Described past := h.same rfl rfl rfl
    have hrelease : Instant.releases s.entered.context.id ⟨.enter, s⟩ = false := rfl
    refine ⟨fun name => ?_, fun name => ?_⟩
    · simpa [own, hrelease, Deed.leaves?] using hsame.own name
    · simpa [given, hrelease] using hsame.given name
  sync s := .silent (passage_threads.sync s) rfl rfl rfl
  log s entry := .silent (passage_threads.log s entry) rfl rfl rfl
  child s target ms t h hdisposed hs := by
    obtain ⟨hp, -⟩ := h (s.forTarget_sound target)
    refine ⟨hp.child hs, fun past hpast u hu => ?_⟩
    obtain ⟨v, -, rfl⟩ := Option.map_eq_some_iff.mp hu
    apply hpast.others
    -- what is done in the sub-context is done to another context
    intro e he hwhose
    obtain ⟨m, hm, rfl⟩ := List.mem_map.mp (List.mem_reverse.mp he)
    have hnew : s.world.nextContext ≤ m.whose := by
      rcases (hp.later m hm).2 with hm | hm
      · exact Nat.le_of_eq hm.symm
      · exact Nat.le_trans (Nat.le_succ _) hm
    exact absurd hs.known (Nat.not_lt.mpr (hwhose ▸ hnew))

-- ---------------------------------------------------------------------------
-- Ticks
-- ---------------------------------------------------------------------------

theorem Scheduler.tickTrail_whose (h : Annals base ms (ls.map Loop.context ++ cs) w)
    (hm : m ∈ tickTrail handlers n now ls w) : ∀ c ∈ cs, m.whose ≠ c.id := by
  intro c hc hwhose
  have hunfolds : Unfolds handlers .none (ls.map Loop.context ++ []) w _ _ :=
    tickLoops_unfolds Rules.none_basic n now ls w
  rw [List.append_nil] at hunfolds
  obtain ⟨d, hd, hid⟩ | hnew := hunfolds.whose (h.sublist (List.sublist_append_left _ _)) m hm
  · exact (List.pairwise_append.mp h.distinct).2.2 d hd c hc (hid.trans hwhose)
  · exact absurd (h.present c (List.mem_append_right _ hc)).known (Nat.not_lt.mpr (hwhose ▸ hnew))

-- ---------------------------------------------------------------------------
-- Sessions
-- ---------------------------------------------------------------------------

namespace Session

def newcomers (s t : Session) (parent : Option ContextId) : List Occurrence :=
  (t.seats.drop s.seats.length).map fun e => .made e.id parent

def Op.occurrences (s : Session) (op : Op) : List Occurrence :=
  match op with
  | .make .. => (op.carryOut s).elim [] fun t => s.newcomers t none
  | .child seat _ =>
    (op.carryOut s).elim [] fun t => s.newcomers t ((s.context? seat).map Context.id)
  | _ => (op.trail s).map Occurrence.done

def account (s : Session) (past : List Occurrence) : List Op → List Occurrence
  | [] => past
  | op :: ops =>
    (op.carryOut s).elim past fun t => t.account ((op.occurrences s).reverse ++ past) ops

def Told (past : List Occurrence) (s : Session) : Prop := ∀ c ∈ s.seated, c.Described past

namespace Told

variable {s t : Session}

theorem others (h : s.Told past) (hseated : ∀ c ∈ t.seated, c ∈ s.seated)
    (hes : ∀ e ∈ es, ∀ c ∈ t.seated, e.whose ≠ c.id) : t.Told (es ++ past) :=
  fun c hc => (h c (hseated c hc)).others fun e he => hes e he c hc

theorem join (h : s.Told past) (hc : c.Described (.made c.id parent :: past))
    (hnew : ∀ d ∈ s.seated, d.id ≠ c.id) : (s.seat c w).2.Told (.made c.id parent :: past) := by
  intro d hd
  simp only [seated, Session.seat, List.filterMap_append, List.mem_append] at hd
  rcases hd with hd | hd
  · have hother : ∀ e ∈ [Occurrence.made c.id parent], e.whose ≠ d.id := by
      rintro e he
      obtain rfl := List.mem_singleton.mp he
      exact (hnew d hd).symm
    exact (h d hd).others hother
  · obtain rfl : d = c := by simpa using hd
    exact hc

end Told

theorem newcomers_seat (s : Session) (c : Context) (w : World) (parent : Option ContextId) :
    s.newcomers (s.seat c w).2 parent = [.made c.id parent] := by
  simp [newcomers, seat]

theorem newcomers_of_seats {s t : Session} (h : t.seats = s.seats) (parent : Option ContextId) :
    s.newcomers t parent = [] := by
  simp [newcomers, h]

theorem compileOnto_nextContext (c : Context) (w : World) (items : List Action)
    (actions : List (String × List Token)) :
    (compileOnto c w items actions).2.nextContext = w.nextContext := by
  induction actions generalizing w items with
  | nil => rfl
  | cons action rest ih =>
    obtain ⟨id, args⟩ := action
    simp only [compileOnto, World.perform]
    cases (Compile.action c.registry c.script id args).result with
    | ok a => exact ih _ _
    | error e => rfl

section
variable {s : Session} (hr : s.Recorded base ms) (h : s.Told past)
include hr h

theorem Told.make (script : String) (actor : Option ActorId)
    (ht : (Op.make script actor).carryOut s = some t) :
    t.Told (((Op.make script actor).occurrences s).reverse ++ past) := by
  simp only [Op.occurrences, ht, Option.elim_some]
  cases hmade : s.newContext script actor with
  | none =>
    simp only [Op.carryOut, hmade, Option.elim_none, Option.some.injEq] at ht
    subst ht
    rw [newcomers_of_seats rfl]
    exact h
  | some r =>
    simp only [Op.carryOut, hmade, Option.elim_some, Option.some.injEq] at ht
    obtain ⟨code, -, hseat⟩ := Option.map_eq_some_iff.mp hmade
    subst ht hseat
    rw [newcomers_seat]
    refine h.join ⟨fun name => ?_, fun name => ?_⟩ fun d hd => ?_
    · simp [own, World.start, Context.fresh]
    · simp [given, World.start, Context.fresh]
    · exact Nat.ne_of_lt (hr.present d (List.mem_append_left _ hd)).known

theorem Told.child (i : Nat) (actions : List (String × List Token))
    (ht : (Op.child i actions).carryOut s = some t) :
    t.Told (((Op.child i actions).occurrences s).reverse ++ past) := by
  simp only [Op.occurrences, ht, Option.elim_some]
  simp only [Op.carryOut, Option.some.injEq] at ht
  subst ht
  cases hc : s.context? i with
  | none =>
    simp only [Option.elim_none]
    rw [newcomers_of_seats rfl]
    exact h
  | some c =>
    have hseated : c ∈ s.seated := by
      obtain ⟨cs, hperm, -⟩ := seated_perm hc
      exact hperm.mem_iff.mpr (.head _)
    simp only [Option.elim_some, Option.map_some, newChild]
    generalize hcompile : compileOnto c s.world.rent.2 s.world.rent.1 actions = r
    obtain ⟨result, w⟩ := r
    have hnext := compileOnto_nextContext c s.world.rent.2 s.world.rent.1 actions
    rw [hcompile] at hnext
    cases result with
    | error e =>
      dsimp only
      rw [newcomers_of_seats (s := s) (t := { s with world := w }) rfl]
      exact h
    | ok items =>
      dsimp only
      rw [newcomers_seat]
      refine h.join ⟨fun name => ?_, fun name => ?_⟩ fun d hd => ?_
      · simp [own, Context.child, Context.fresh]
      · simp only [Context.child, Context.fresh, Table.get?_overlay, given, ↓reduceIte,
          Option.bind_some]
        rw [(h c hseated).own, (h c hseated).given]
      · exact Nat.ne_of_lt (Nat.lt_of_lt_of_eq
          (hr.present d (List.mem_append_left _ hd)).known hnext.symm)

theorem Told.use (hc : s.context? i = some c) (u : Use)
    (ht : u.carryOut i s = some t) :
    t.Told (((u.trail s.handlers s.fuel ⟨c, s.world⟩).map Occurrence.done).reverse ++ past) := by
  obtain ⟨cs, hseated, hput, -⟩ := seated_perm hc
  have hr := hr.perm (hseated.append_right _)
  have hsound := hr.present c (.head _)
  rw [Use.carryOut_eq hc, Option.map_eq_some_iff] at ht
  obtain ⟨v, hv, rfl⟩ := ht
  have htrail : Tells ⟨c, s.world⟩ (u.trail s.handlers s.fuel ⟨c, s.world⟩)
      (u.result s.handlers s.fuel ⟨c, s.world⟩) := u.follows tells_threads _
  obtain ⟨hp, htells⟩ := htrail hsound
  intro d hd
  rcases List.mem_cons.mp ((hput v).mem_iff.mp hd) with rfl | hd
  · exact htells past (h c (hseated.mem_iff.mpr (.head _))) v hv
  · refine (h d (hseated.mem_iff.mpr (.tail _ hd))).others fun e he hwhose => ?_
    obtain ⟨m, hm, rfl⟩ := List.mem_map.mp (List.mem_reverse.mp he)
    have hd := List.mem_append_left (s.scheduler.loops.map Loop.context) hd
    rcases (hp.later m hm).2 with hm | hm
    · exact (List.pairwise_cons.mp hr.distinct).1 d hd (hm.symm.trans hwhose)
    · exact absurd (hr.present d (.tail _ hd)).known (Nat.not_lt.mpr (hwhose ▸ hm))

theorem Told.execute (hc : s.context? i = some c)
    (ht : (s.execute i now).map Prod.snd = some t) :
    t.Told (((Use.run.trail s.handlers s.fuel ⟨c, s.world⟩).map Occurrence.done).reverse ++
      past) := by
  obtain ⟨cs, -, hput, hvacated⟩ := seated_perm hc
  simp only [Session.execute, hc, Option.map_map, Option.map_eq_some_iff] at ht
  obtain ⟨⟨outcome, loop?, scheduler, w⟩, hexecute, rfl⟩ := ht
  obtain ⟨v, hrun, -⟩ := execute_cases hexecute
  -- the seat is empty afterwards, so only the others matter
  have hused := Told.use hr h hc .run (t := s.put i v) (by
    rw [Use.carryOut_eq hc, Use.result_run, hrun]
    rfl)
  intro d hd
  exact hused d ((hput v).mem_iff.mpr (.tail _ (hvacated.mem_iff.mp hd)))

theorem Told.tick (ht : (s.tick now).map Prod.snd = some t) :
    t.Told (((Scheduler.tickTrail s.handlers s.fuel now s.scheduler.loops s.world).map
      Occurrence.done).reverse ++ past) := by
  simp only [Session.tick, Option.map_map, Option.map_eq_some_iff] at ht
  obtain ⟨⟨events, scheduler, w⟩, -, rfl⟩ := ht
  refine h.others (fun d hd => hd) fun e he d hd => ?_
  obtain ⟨m, hm, rfl⟩ := List.mem_map.mp (List.mem_reverse.mp he)
  exact Scheduler.tickTrail_whose (hr.perm List.perm_append_comm) hm d hd

theorem Told.cancelLoop (id : LoopId) :
    (s.cancelLoop id).2.Told
      ((((Op.cancelLoop id).trail s).map Occurrence.done).reverse ++ past) := by
  refine h.others (fun d hd => hd) fun e he d hd => ?_
  obtain ⟨m, hm, rfl⟩ := List.mem_map.mp (List.mem_reverse.mp he)
  simp only [Op.trail] at hm
  cases hl : s.scheduler.loops.find? fun l => l.id == id with
  | none => simp [hl] at hm
  | some l =>
    obtain rfl : m = ⟨.effect .dispose, ⟨l.context, s.world⟩⟩ := by simpa [hl] using hm
    have hmem : l.context ∈ s.scheduler.loops.map Loop.context :=
      List.mem_map_of_mem (List.mem_of_find?_eq_some hl)
    exact ((List.pairwise_append.mp hr.distinct).2.2 d hd _ hmem).symm

end

-- Operations that write to no context.
section
variable {s t : Session} (h : s.Told past)
include h

theorem Told.stay (hseats : t.seats = s.seats) : t.Told past := by
  intro c hc
  exact h c (by simpa only [seated, hseats] using hc)

theorem Told.vacate (hc : s.context? i = some c) : (s.vacate i).Told past := by
  obtain ⟨cs, hseated, -, hvacated⟩ := seated_perm hc
  exact fun d hd => h d (hseated.mem_iff.mpr (.tail _ (hvacated.mem_iff.mp hd)))

theorem Told.addUnit (ht : s.addUnit name source = .ok t) : t.Told past := by
  unfold Session.addUnit at ht
  split at ht
  · cases ht
    exact h
  · cases ht

theorem Told.adopt (i now : Nat) : (s.adopt i now).2.Told past := by
  unfold Session.adopt
  cases hc : s.context? i with
  | none => exact h
  | some c =>
    cases ha : s.scheduler.adopt now c s.world with
    | none => simpa only [ha] using h
    | some r =>
      simp only [ha]
      exact (h.vacate hc).stay rfl

theorem Told.drop (i : Nat) : (s.drop i).Told past := by
  unfold Session.drop
  cases hc : s.context? i with
  | none => exact h
  | some c => exact (h.vacate hc).stay rfl

theorem Told.cancel (i : Nat) : (s.cancel i).Told past := by
  unfold Session.cancel
  split <;> exact h

theorem Told.rent (count : Nat) : (s.rent count).2.Told past := by
  induction count generalizing s with
  | zero => exact h
  | succ count ih => exact ih (h.stay rfl)

theorem Told.giveBack (count : Nat) : (s.giveBack count).Told past := by
  induction count generalizing s with
  | zero => exact h
  | succ count ih =>
    unfold Session.giveBack
    split
    · exact h
    · exact ih (h.stay rfl)

end

theorem Op.told {s : Session} (hr : s.Recorded base ms) (h : s.Told past) (op : Op)
    (ht : op.carryOut s = some t) : t.Told ((op.occurrences s).reverse ++ past) := by
  cases op with
  | make script actor => exact h.make hr script actor ht
  | child i actions => exact h.child hr i actions ht
  | use i u =>
    simp only [carryOut] at ht
    simp only [occurrences, trail]
    cases hc : s.context? i with
    | none =>
      simp only [hc, Option.elim_none, Option.some.injEq] at ht
      exact ht ▸ h
    | some c =>
      rw [hc] at ht
      exact h.use hr hc u ht
  | execute i now =>
    simp only [carryOut] at ht
    simp only [occurrences, trail]
    cases hc : s.context? i with
    | none =>
      simp only [hc, Option.elim_none, Option.some.injEq] at ht
      exact ht ▸ h
    | some c =>
      rw [hc] at ht
      exact h.execute hr hc ht
  | tick now => exact h.tick hr ht
  | cancelLoop id =>
    cases ht
    exact h.cancelLoop hr id
  | addUnit name source =>
    simp only [carryOut] at ht
    split at ht
    · rename_i hadded
      cases ht
      exact h.addUnit hadded
    · cases ht
      exact h
  | allow fuel => cases ht; exact h.stay rfl
  | adopt i now => cases ht; exact h.adopt i now
  | cancel i => cases ht; exact h.cancel i
  | drop i => cases ht; exact h.drop i
  | rent count => cases ht; exact h.rent count
  | giveBack count => cases ht; exact h.giveBack count

theorem account_told {s : Session} (hr : s.Recorded base ms) (h : s.Told past) (ops : List Op)
    (ht : s.afterAll ops = some t) : t.Told (s.account past ops) := by
  induction ops generalizing s ms past with
  | nil =>
    cases ht
    exact h
  | cons op ops ih =>
    obtain ⟨s', hop, hrest⟩ := Option.bind_eq_some_iff.mp ht
    have hr' : s'.Recorded base (ms ++ op.trail s) :=
      (op.continues hr).ends (s'.inPlay, s'.world) (by rw [hop]; rfl)
    simp only [account, hop, Option.elim_some]
    exact ih hr' (op.told hr h hop) hrest

theorem mem_account {s : Session} {ops : List Op} (hm : .done m ∈ s.account past ops) :
    .done m ∈ past ∨ m ∈ s.history ops := by
  induction ops generalizing s past with
  | nil => exact .inl hm
  | cons op ops ih =>
    simp only [account] at hm
    simp only [history, List.mem_append]
    cases hop : op.carryOut s with
    | none =>
      rw [hop] at hm
      exact .inl hm
    | some t =>
      simp only [hop, Option.elim_some] at hm
      rcases ih hm with hm | hm
      · rcases List.mem_append.mp hm with hm | hm
        · refine .inr (.inl ?_)
          have hm := List.mem_reverse.mp hm
          cases op with
          | make | child =>
            simp only [Op.occurrences, hop, Option.elim_some, newcomers, List.mem_map] at hm
            obtain ⟨_, -, hm⟩ := hm
            cases hm
          | _ => simpa [Op.occurrences] using hm
        · exact .inl hm
      · exact .inr (.inr hm)

theorem apart {s : Session} {u : Use} (ht : (Op.use i u).carryOut s = some t) (hk : k ≠ i) :
    t.context? k = s.context? k := by
  simp only [Op.carryOut] at ht
  cases hc : s.context? i with
  | none =>
    simp only [hc, Option.elim_none, Option.some.injEq] at ht
    rw [ht]
  | some c =>
    rw [hc, Option.elim_some, Use.carryOut_eq hc, Option.map_eq_some_iff] at ht
    obtain ⟨v, -, rfl⟩ := ht
    simp [context?, put, Ne.symm hk]

structure Scoped (past : List Occurrence) (s : Session) : Prop where
  /-- A variable has the value last written in the context, else the one that was given to it. -/
  value : ∀ c ∈ s.seated, ∀ name,
    c.lookup name = (own past c.id name).or (given past c.id name)
  intact : ∀ c ∈ s.seated, c.disposed = false → ∀ m, .done m ∈ past → m.releases c.id = false
  apart : ∀ i u t, (Op.use i u).carryOut s = some t → ∀ k, k ≠ i → t.context? k = s.context? k
  result : ∀ i c v, s.context? i = some c →
    (Op.use i (.perform (do Prog.setResult v; return .proceed))).occurrences s =
      [.done ⟨.effect (.setVariable c.outputName v), ⟨c, s.world⟩⟩]

/-- Whatever is done in a session without contexts, a variable always has the value last written
to it in its context, or the value given to it when its context was made. -/
theorem variables_scoped {s : Session} (h : s.inPlay = []) (ops : List Op)
    (ht : s.afterAll ops = some t) : t.Scoped (s.account [] ops) := by
  have hnone : s.seated = [] := (List.append_eq_nil_iff.mp h).1
  have hstart := recorded_of_none h
  have hrecorded : t.Recorded s.world (s.history ops) :=
    (history_continues hstart ops).ends (t.inPlay, t.world) (by rw [ht]; rfl)
  have hnothing : s.Told [] := by simp [Told, hnone]
  have htold := account_told hstart hnothing ops ht
  refine ⟨fun c hc => (htold c hc).lookup, fun c hc hd m hm => ?_, fun i u t' ht' k => apart ht',
    fun i c v hc => ?_⟩
  · refine Bool.eq_false_iff.mpr fun hreleases => ?_
    have hm : m ∈ s.history ops := by simpa using mem_account hm
    have hdisposed := hrecorded.carried m hm c (List.mem_append_left _ hc)
      (m.whose_of_releases hreleases).symm (m.disposed_of_releases hreleases)
    cases hd.symm.trans hdisposed
  · simp only [Op.occurrences, Op.trail, hc, Option.elim_some]
    rfl

end Session

def scopedSession : Session :=
  { Session.start .builtins .none 1 fun _ => 0 with
    units := [⟨"still", [⟨"still", none, [], .builtins⟩]⟩] }

/-- A context, a sub-context and a sub-context of that: each of them writes `x`, the innermost
removes it again, the one in the middle is reset, and the outermost writes last. -/
def scopedOps : List Session.Op :=
  let write (seat : Nat) (v : Int64) : Session.Op :=
    .use seat (.effect (.setVariable "x" (.int v)))
  [.make "still" none, write 0 1, .child 0 [], write 1 2, .child 1 [], write 2 3,
   .use 2 (.effect (.removeVariable "x")), .use 1 (.effect (.reset none)), write 0 4]

theorem Session.variables_scoped_shadowing : scopedSession.inPlay = [] ∧
    ∃ t, scopedSession.afterAll scopedOps = some t ∧ t.Scoped (scopedSession.account [] scopedOps) ∧
      t.seated.map (·.lookup "x") = [some (.int 4), some (.int 1), some (.int 2)] :=
  ⟨rfl, _, rfl, variables_scoped rfl scopedOps rfl, rfl⟩

end Playbook
