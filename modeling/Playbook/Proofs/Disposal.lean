import Playbook.Proofs.Histories

/-!
# Disposal is final

Whatever the operations that a session goes through, a context is disposed of at most once. From
then on nothing is left of it, it may not be run, and no handler is entered for it
(`Session.disposal_final`). The argument needs two things: what happens to one context follows a
`Passage`, and contexts that are in use at the same time have different identities (`Annals`).
-/

namespace Playbook

-- ---------------------------------------------------------------------------
-- What has happened, and the contexts in use
-- ---------------------------------------------------------------------------

theorem World.Idles.grows (h : World.Idles w w') : w.Grows (fun _ => True) w' := by
  cases h with
  | log entry => exact .log w entry
  | cancel i => exact .cancel w i
  | release q => exact .release w q
  | rent => exact ⟨Nat.le_refl _, fun _ => id, [], rfl, by simp⟩

theorem World.Idles.entrances (h : World.Idles w w') : w'.entrances = w.entrances := by
  cases h with
  | log | rent => rfl
  | cancel i => exact w.entrances_cancel i
  | release q => exact w.entrances_release q

/-- What is known when `ms` has happened since `base`: `cs` are the contexts in use, and `w` is
their world. -/
structure Annals (base : World) (ms : List Instant) (cs : List Context) (w : World) :
    Prop extends Chronicle ms where
  began : base.Grows (fun _ => True) w
  past : ∀ m ∈ ms, m.after.world.Grows (fun _ => True) w
  endured : ∀ m ∈ ms, ∀ c ∈ cs, c.id = m.whose → m.after.context.Endures c
  distinct : cs.Pairwise fun c d => c.id ≠ d.id
  present : ∀ c ∈ cs, State.Sound ⟨c, w⟩
  entrances : w.entrances = (ms.filterMap Instant.entrance?).reverse ++ base.entrances

namespace Annals

theorem older (h : Annals base ms cs w) (hm : m ∈ ms) (hc : c ∈ cs) : m.after.Older ⟨c, w⟩ :=
  ⟨h.past m hm, fun hid => h.endured m hm c hc (hid.trans m.after_id)⟩

theorem carried (h : Annals base ms cs w) (m : Instant) (hm : m ∈ ms) (c : Context) (hc : c ∈ cs)
    (hid : c.id = m.whose) (hd : m.after.context.disposed = true) : c.disposed = true :=
  (h.endured m hm c hc hid).disposed hd

theorem perm (h : Annals base ms cs w) (hcs : cs.Perm ds) : Annals base ms ds w where
  toChronicle := h.toChronicle
  began := h.began
  past := h.past
  endured m hm c hc := h.endured m hm c (hcs.mem_iff.mpr hc)
  distinct := (hcs.pairwise_iff fun hne => hne.symm).mp h.distinct
  present c hc := h.present c (hcs.mem_iff.mpr hc)
  entrances := h.entrances

theorem sublist (h : Annals base ms cs w) (hcs : ds.Sublist cs) : Annals base ms ds w where
  toChronicle := h.toChronicle
  began := h.began
  past := h.past
  endured m hm d hd := h.endured m hm d (hcs.subset hd)
  distinct := h.distinct.sublist hcs
  present d hd := h.present d (hcs.subset hd)
  entrances := h.entrances

theorem grow (h : Annals base ms cs w) (hw : w.Grows (fun _ => True) w')
    (hentrances : w'.entrances = w.entrances) : Annals base ms cs w' where
  toChronicle := h.toChronicle
  began := h.began.trans hw
  past m hm := (h.past m hm).trans hw
  endured := h.endured
  distinct := h.distinct
  present c hc :=
    ⟨Nat.lt_of_lt_of_le (h.present c hc).known hw.contexts,
      fun hd => ((h.present c hc).gone hd).imp id hw.dead⟩
  entrances := hentrances.trans h.entrances

theorem join (h : Annals base ms cs w) {c : Context} (hid : c.id = w.nextContext)
    (hfresh : c.disposed = false) :
    Annals base ms (c :: cs) { w with nextContext := w.nextContext + 1 } := by
  have hw : w.Grows (fun _ => True) { w with nextContext := w.nextContext + 1 } :=
    ⟨Nat.le_succ _, fun _ => id, [], rfl, by simp⟩
  have h' := h.grow hw rfl
  refine ⟨h'.toChronicle, h'.began, h'.past, fun m hm d hd hwhose => ?_, ?_, fun d hd => ?_,
    h'.entrances⟩
  · rcases List.mem_cons.mp hd with rfl | hd
    · have hknown : m.whose < w.nextContext :=
        Nat.lt_of_lt_of_le (h.sound m hm).1.known
          (Nat.le_trans m.older.world.contexts (h.past m hm).contexts)
      exact absurd (hid.symm.trans hwhose) (Nat.ne_of_gt hknown)
    · exact h.endured m hm d hd hwhose
  · refine List.pairwise_cons.mpr ⟨fun d hd => ?_, h.distinct⟩
    exact hid ▸ Nat.ne_of_gt (h.present d hd).known
  · rcases List.mem_cons.mp hd with rfl | hd
    · exact ⟨hid ▸ Nat.lt_succ_self _, fun hd => by cases hfresh.symm.trans hd⟩
    · exact h'.present d hd

theorem extend (h : Annals base ms (c :: cs) w) (hp : Passage ⟨c, w⟩ ms' t) :
    Chronicle (ms ++ ms') := by
  refine h.toChronicle.append hp.toChronicle fun m hm m' hm' => ?_
  obtain ⟨holder, hwhose⟩ := hp.later m' hm'
  exact Instant.older_via (h.sound m hm).1 (h.older hm (.head _)) holder hwhose

theorem act (h : Annals base ms (c :: cs) w) (hp : Passage ⟨c, w⟩ ms' (some t)) :
    Annals base (ms ++ ms') (t.context :: cs) t.world := by
  obtain ⟨hsound, hid, holder, hms', hentrances⟩ := hp.ends t rfl
  have hdistinct := List.pairwise_cons.mp h.distinct
  refine ⟨h.extend hp, h.began.trans holder.world, fun m hm => ?_,
    fun m hm d hd hwhose => ?_, ?_, ?_, ?_⟩
  · rcases List.mem_append.mp hm with hm | hm
    · exact (h.past m hm).trans holder.world
    · exact (hms' m hm).world
  · rcases List.mem_append.mp hm with hm | hm <;> rcases List.mem_cons.mp hd with rfl | hd
    · exact (h.endured m hm c (.head _) (hid.symm.trans hwhose)).trans (holder.context hid)
    · exact h.endured m hm d (.tail _ hd) hwhose
    · exact (hms' m hm).context (hwhose.trans m.after_id.symm)
    · rcases (hp.later m hm).2 with hrun | hnew
      · exact absurd (hwhose.trans hrun).symm (hdistinct.1 d hd)
      · exact absurd (h.present d (.tail _ hd)).known (Nat.not_lt.mpr (hwhose ▸ hnew))
  · exact List.pairwise_cons.mpr ⟨fun d hd => hid ▸ hdistinct.1 d hd, hdistinct.2⟩
  · intro d hd
    rcases List.mem_cons.mp hd with rfl | hd
    · exact hsound
    · have hd := h.present d (.tail _ hd)
      exact ⟨Nat.lt_of_lt_of_le hd.known holder.world.contexts,
        fun hgone => (hd.gone hgone).imp id holder.world.dead⟩
  · rw [hentrances, h.entrances, List.filterMap_append, List.reverse_append, List.append_assoc]

theorem resume (h : Annals base ms (c :: cs) w) :
    Annals base ms ({ c with continuation := none } :: cs) w := by
  have hact := h.act (t := ⟨{ c with continuation := none }, w⟩)
    (.silent (h.present c (.head _)) rfl rfl rfl rfl rfl (.refl _) rfl)
  rwa [List.append_nil] at hact

end Annals

/-- What happens next goes on from what has happened, and leads to contexts in use and a world
unless it is cut off. -/
structure Continues (base : World) (ms trail : List Instant)
    (next : Option (List Context × World)) : Prop where
  chronicle : Chronicle (ms ++ trail)
  since : ∀ m ∈ trail, base.Grows (fun _ => True) m.before.world
  ends : ∀ r, next = some r → Annals base (ms ++ trail) r.1 r.2

theorem Annals.continues (h : Annals base ms cs w) : Continues base ms [] (some (cs, w)) where
  chronicle := by
    rw [List.append_nil]
    exact h.toChronicle
  since := by simp
  ends := by
    rintro r ⟨⟩
    rw [List.append_nil]
    exact h

theorem Annals.cut (h : Annals base ms (c :: cs) w) (hp : Passage ⟨c, w⟩ trail t) :
    Continues base ms trail none where
  chronicle := h.extend hp
  since m hm := h.began.trans (hp.later m hm).1.world
  ends := nofun

theorem Continues.append (h : Continues base ms trail next)
    (h' : Continues base (ms ++ trail) trail' next') :
    Continues base ms (trail ++ trail') next' := by
  obtain ⟨hchronicle, hsince, hends⟩ := h'
  rw [List.append_assoc] at hchronicle hends
  refine ⟨hchronicle, fun m hm => ?_, hends⟩
  rcases List.mem_append.mp hm with hm | hm
  · exact h.since m hm
  · exact hsince m hm

theorem Unfolds.continues (hunfolds : Unfolds handlers rules cs w trail r)
    (h : Annals base ms cs w) : Continues base ms trail r := by
  induction hunfolds generalizing ms with
  | rest => exact h.continues
  | perm hcs _ ih => exact ih (h.perm hcs)
  | leave hcs _ ih => exact ih (h.sublist hcs)
  | idle hw _ ih => exact ih (h.grow hw.grows hw.entrances)
  | compile calls _ _ ih =>
    exact ih (h.grow (.recordCalls _ calls) (World.entrances_recordCalls _ calls))
  | make _ _ _ _ ih | child _ _ _ _ ih => exact ih (h.join rfl rfl)
  | resume _ ih => exact ih h.resume
  | act u _ ht _ ih =>
    have hp := u.passage (h.present _ (.head _)) ht
    exact (h.cut hp).append (ih (h.act hp))
  | cut u _ ht => exact h.cut (u.passage (h.present _ (.head _)) ht)

/-- What happens in moves happens to the contexts in use and to those that are made meanwhile. -/
theorem Unfolds.whose (hunfolds : Unfolds handlers rules cs w trail r) (h : Annals base ms cs w) :
    ∀ m ∈ trail, (∃ c ∈ cs, c.id = m.whose) ∨ w.nextContext ≤ m.whose := by
  induction hunfolds generalizing ms with
  | rest => simp
  | perm hcs _ ih =>
    intro m hm
    obtain ⟨c, hc, hid⟩ | hnew := ih (h.perm hcs) m hm
    · exact .inl ⟨c, hcs.mem_iff.mpr hc, hid⟩
    · exact .inr hnew
  | leave hcs _ ih =>
    intro m hm
    obtain ⟨c, hc, hid⟩ | hnew := ih (h.sublist hcs) m hm
    · exact .inl ⟨c, hcs.subset hc, hid⟩
    · exact .inr hnew
  | idle hw _ ih =>
    intro m hm
    exact (ih (h.grow hw.grows hw.entrances) m hm).imp_right (Nat.le_trans hw.grows.contexts)
  | compile calls _ _ ih =>
    exact ih (h.grow (.recordCalls _ calls) (World.entrances_recordCalls _ calls))
  | make _ _ _ _ ih | child _ _ _ _ ih =>
    intro m hm
    obtain ⟨c, hc, hid⟩ | hnew := ih (h.join rfl rfl) m hm
    · rcases List.mem_cons.mp hc with rfl | hc
      · exact .inr (Nat.le_of_eq hid)
      · exact .inl ⟨c, hc, hid⟩
    · exact .inr (Nat.le_of_succ_le hnew)
  | resume _ ih =>
    intro m hm
    obtain ⟨c, hc, hid⟩ | hnew := ih h.resume m hm
    · rcases List.mem_cons.mp hc with rfl | hc
      · exact .inl ⟨_, .head _, hid⟩
      · exact .inl ⟨c, .tail _ hc, hid⟩
    · exact .inr hnew
  | act u _ ht _ ih =>
    have hp := u.passage (h.present _ (.head _)) ht
    intro m hm
    rcases List.mem_append.mp hm with hm | hm
    · exact (hp.later m hm).2.imp_left fun hwhose => ⟨_, .head _, hwhose.symm⟩
    · obtain ⟨-, hsame, holder, -⟩ := hp.ends _ rfl
      obtain ⟨c, hc, hid⟩ | hnew := ih (h.act hp) m hm
      · rcases List.mem_cons.mp hc with rfl | hc
        · exact .inl ⟨_, .head _, hsame.symm.trans hid⟩
        · exact .inl ⟨c, .tail _ hc, hid⟩
      · exact .inr (Nat.le_trans holder.world.contexts hnew)
  | cut u _ ht =>
    intro m hm
    have hp := u.passage (h.present _ (.head _)) ht
    exact (hp.later m hm).2.imp_left fun hwhose => ⟨_, .head _, hwhose.symm⟩

namespace Session

def Recorded (base : World) (ms : List Instant) (s : Session) : Prop :=
  Annals base ms s.inPlay s.world

theorem Op.continues {s : Session} (h : s.Recorded base ms) (op : Op) :
    Continues base ms (op.trail s) ((op.carryOut s).map fun t => (t.inPlay, t.world)) :=
  (op.unfolds Rules.none_basic (fun _ _ _ => trivial) op.obeys_none).continues h

theorem history_continues {s : Session} (h : s.Recorded base ms) (ops : List Op) :
    Continues base ms (s.history ops) ((s.afterAll ops).map fun t => (t.inPlay, t.world)) :=
  have hunfolds := history_unfolds Rules.none_basic (fun _ _ _ => trivial) ops
    fun op _ => op.obeys_none
  hunfolds.continues h

theorem recorded_of_none {s : Session} (h : s.inPlay = []) : s.Recorded s.world [] := by
  unfold Recorded
  rw [h]
  exact ⟨⟨.nil, by simp⟩, .refl _, by simp, by simp, .nil, by simp, rfl⟩

end Session

-- ---------------------------------------------------------------------------
-- The end of a context
-- ---------------------------------------------------------------------------

def Instant.releases (i : ContextId) (m : Instant) : Bool :=
  match m.deed with
  | .effect .dispose => m.whose == i && (m.before.world.dispose m.before.context).1
  | _ => false

/-- In this state the context is over: it may not be run, and nothing is left of it. -/
structure State.Closed (i : ContextId) (s : State) : Prop where
  dead : s.world.isAlive i = false
  gone : s.context.id = i → s.context.Gone

namespace Instant

theorem releases_iff {m : Instant} :
    m.releases i = true ↔
      m.deed = .effect .dispose ∧ m.whose = i ∧ m.before.context.disposed = false := by
  obtain ⟨deed, s⟩ := m
  cases deed with
  | enter => simp [releases]
  | effect e =>
    by_cases he : e = .dispose
    · subst he
      simp only [releases, World.dispose, Bool.and_eq_true, beq_iff_eq, true_and]
      cases s.context.disposed <;> simp
    · have hother : releases i ⟨.effect e, s⟩ = false := by
        unfold releases
        split
        · rename_i hdeed
          cases hdeed
          exact absurd rfl he
        · rfl
      simp [hother, he]

theorem disposed_of_releases {m : Instant} (h : m.releases i = true) :
    m.after.context.disposed = true := by
  obtain ⟨hdeed, -, hdisposed⟩ := releases_iff.mp h
  simp only [after, hdeed, Effect.run, World.dispose, hdisposed, Bool.false_eq_true, ↓reduceIte]
  rfl

/-- A context is over in every state that comes after its disposal. -/
theorem closed_of_older {m : Instant} {t : State} (h : m.releases i = true) (hm : m.after.Sound)
    (ht : t.Sound) (holder : m.after.Older t) : t.Closed i := by
  obtain ⟨-, rfl, -⟩ := releases_iff.mp h
  have hdisposed := disposed_of_releases h
  refine ⟨holder.world.dead (m.after_id ▸ (hm.gone hdisposed).2), fun hid => ?_⟩
  exact (ht.gone (holder.disposed (hid.trans m.after_id.symm) hdisposed)).1

end Instant

theorem Chronicle.after_sound (h : Chronicle ms) (hm : m ∈ ms) : m.after.Sound := by
  obtain ⟨hsound, henter⟩ := h.sound m hm
  obtain ⟨deed, s⟩ := m
  cases deed with
  | enter => exact ⟨hsound.known, fun hd => by cases (henter rfl).symm.trans hd⟩
  | effect e => exact e.run_sound hsound

theorem Chronicle.closed (h : Chronicle ms) (hm : m ∈ ms) (hr : m.releases i = true) :
    m.after.Closed i :=
  m.closed_of_older hr (h.after_sound hm) (h.after_sound hm) (.refl _)

theorem Chronicle.later (h : Chronicle ms) (i : ContextId) :
    ms.Pairwise fun m m' => m.releases i = true →
      m'.before.Closed i ∧ m'.after.Closed i ∧ (m'.whose = i → m'.deed ≠ .enter) := by
  refine h.ordered.imp_of_mem fun {m m'} hm hm' holder hr => ?_
  obtain ⟨hsound, henter⟩ := h.sound m' hm'
  have hbefore := m.closed_of_older hr (h.after_sound hm) hsound holder
  refine ⟨hbefore, ?_, fun hwhose hdeed => ?_⟩
  · refine ⟨m'.older.world.dead hbefore.dead, fun hid => ?_⟩
    have hdisposed := (hbefore.gone (m'.after_id.symm.trans hid)).disposed
    exact ((h.after_sound hm').gone (m'.older.disposed m'.after_id hdisposed)).1
  · cases (henter hdeed).symm.trans (hbefore.gone hwhose).disposed

theorem countP_le_one {p : α → Bool} {l : List α}
    (h : l.Pairwise fun a b => p a = true → p b = false) : l.countP p ≤ 1 := by
  induction h with
  | nil => exact Nat.zero_le 1
  | @cons a l ha _ ih =>
    by_cases hp : p a = true
    · have hnone : l.countP p = 0 := List.countP_eq_zero.mpr fun b hb => by simp [ha b hb hp]
      rw [List.countP_cons_of_pos hp, hnone]
    · rw [List.countP_cons_of_neg hp]
      exact ih

theorem Chronicle.once (h : Chronicle ms) : ms.countP (Instant.releases i) ≤ 1 := by
  refine countP_le_one ((h.later i).imp fun {m m'} hlater hm => ?_)
  obtain ⟨hbefore, -, -⟩ := hlater hm
  refine Bool.eq_false_iff.mpr fun hm' => ?_
  obtain ⟨-, hwhose, hdisposed⟩ := Instant.releases_iff.mp hm'
  cases hdisposed.symm.trans (hbefore.gone hwhose).disposed

namespace Session

def worlds (s : Session) (ops : List Op) : List World :=
  s.world :: (s.history ops).flatMap (fun m => [m.before.world, m.after.world]) ++
    (s.afterAll ops).toList.map Session.world

/-- What operations leave of a context that was disposed of. -/
structure Finality (s : Session) (ops : List Op) (i : ContextId) : Prop where
  once : (s.history ops).countP (Instant.releases i) ≤ 1
  closed : ∀ m ∈ s.history ops, m.releases i = true → m.after.Closed i
  later : (s.history ops).Pairwise fun m m' => m.releases i = true →
    m'.before.Closed i ∧ m'.after.Closed i ∧ (m'.whose = i → m'.deed ≠ .enter)
  rests : ∀ m ∈ s.history ops, m.releases i = true → ∀ t, s.afterAll ops = some t →
    t.world.isAlive i = false ∧ ∀ c ∈ t.inPlay, c.id = i → c.Gone
  dead : (s.worlds ops).Pairwise fun w w' => w.isAlive i = false → w'.isAlive i = false
  entered : ∀ t, s.afterAll ops = some t →
    t.world.entrances = ((s.history ops).filterMap Instant.entrance?).reverse ++ s.world.entrances

theorem worlds_grow {s : Session} {ops : List Op}
    (h : Continues s.world [] (s.history ops)
      ((s.afterAll ops).map fun t => (t.inPlay, t.world))) :
    (s.worlds ops).Pairwise fun w w' => w.Grows (fun _ => True) w' := by
  have hmem : ∀ w ∈ (s.history ops).flatMap (fun m => [m.before.world, m.after.world]),
      ∃ m ∈ s.history ops, s.world.Grows (fun _ => True) w ∧
        w.Grows (fun _ => True) m.after.world := by
    intro w hw
    obtain ⟨m, hm, hw⟩ := List.mem_flatMap.mp hw
    have hbefore := h.since m hm
    have hm' := m.older.world
    rcases List.mem_pair.mp hw with rfl | rfl
    · exact ⟨m, hm, hbefore, hm'⟩
    · exact ⟨m, hm, hbefore.trans hm', .refl _⟩
  refine List.pairwise_append.mpr ⟨List.pairwise_cons.mpr ⟨fun w hw => ?_, ?_⟩, ?_, ?_⟩
  · obtain ⟨-, -, hw, -⟩ := hmem w hw
    exact hw
  · refine List.pairwise_flatMap.mpr ⟨fun m _ => List.pairwise_pair.mpr m.older.world, ?_⟩
    refine h.chronicle.ordered.imp fun {m m'} holder w hw w' hw' => ?_
    have hm := m.older.world
    have hm' := m'.older.world
    rcases List.mem_pair.mp hw with rfl | rfl <;> rcases List.mem_pair.mp hw' with rfl | rfl
    · exact hm.trans holder.world
    · exact (hm.trans holder.world).trans hm'
    · exact holder.world
    · exact holder.world.trans hm'
  · cases s.afterAll ops with
    | none => exact .nil
    | some t => exact List.pairwise_singleton _ _
  · intro w hw w' hw'
    obtain ⟨t, ht, rfl⟩ := List.mem_map.mp hw'
    have hrecorded := h.ends (t.inPlay, t.world) (by rw [Option.mem_toList.mp ht]; rfl)
    rcases List.mem_cons.mp hw with rfl | hw
    · exact hrecorded.began
    · obtain ⟨m, hm, -, hw⟩ := hmem w hw
      exact hw.trans (hrecorded.past m hm)

/-- Disposal is final, whatever is done with a session in which no contexts are in use yet. -/
theorem disposal_final {s : Session} (h : s.inPlay = []) (ops : List Op) (i : ContextId) :
    s.Finality ops i := by
  have hcontinues := history_continues (recorded_of_none h) ops
  have hchronicle : Chronicle (s.history ops) := hcontinues.chronicle
  have hrecorded : ∀ t, s.afterAll ops = some t → t.Recorded s.world (s.history ops) :=
    fun t ht => hcontinues.ends (t.inPlay, t.world) (by rw [ht]; rfl)
  refine ⟨hchronicle.once, fun m => hchronicle.closed, hchronicle.later i, ?_,
    (worlds_grow hcontinues).imp fun hw => hw.dead, fun t ht => (hrecorded t ht).entrances⟩
  intro m hm hr t ht
  have ht := hrecorded t ht
  refine ⟨(ht.past m hm).dead (hchronicle.closed hm hr).dead, fun c hc hid => ?_⟩
  have hclosed := m.closed_of_older hr (hchronicle.after_sound hm) (ht.present c hc)
    (ht.older hm hc)
  exact hclosed.gone hid

end Session

def disposalSession : Session :=
  let actions : List Action :=
    [.ofValues "Repeat" (.builtin .repeatBlock) [.int 3, .int 2, .int 0],
     .ofValues "If" (.builtin .ifBlock) [.bool true, .int 1],
     .ofValues "Burn" (.host "Burn") [], .ofValues "Stop" (.builtin .stop) []]
  let script : Script := { name := "burning", heading := none, actions, registry := .builtins }
  { Session.start .builtins (fun _ => .perform .dispose fun _ => .done .proceed) 8 fun _ => 0 with
    units := [{ name := "burning", scripts := [script] }] }

/-- After the disposal the context is reset, suspended, run again, handed to the scheduler and
ticked, and a second context is made. -/
def disposalOps : List Session.Op :=
  [.make "burning" none, .use 0 .run, .use 0 (.effect (.reset none)), .use 0 .run,
   .use 0 (.effect (.suspend ⟨0, 0, 2, 1⟩)), .use 0 (.block 0 0), .make "burning" none,
   .adopt 0 5, .use 1 (.effect .dispose), .tick 9, .cancel 0]

/-- Three handlers are entered, and none after the disposal. -/
theorem Session.disposal_final_burning : disposalSession.inPlay = [] ∧
    (disposalSession.history disposalOps).countP (Instant.releases 1) = 1 ∧
    (((disposalSession.history disposalOps).filterMap Instant.entrance?).map Context.currentId =
      ["Repeat", "If", "Burn"]) ∧
    (disposalSession.afterAll disposalOps).isSome ∧ disposalSession.Finality disposalOps 1 :=
  ⟨rfl, by decide +kernel, by decide +kernel, by decide +kernel, disposal_final rfl disposalOps 1⟩

end Playbook
