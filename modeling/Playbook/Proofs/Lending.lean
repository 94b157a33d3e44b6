import Playbook.Proofs.Disposal

/-!
# Rented sequences are given back

A pool lends out empty sequences and counts them. Sequences are held from outside, where things are
put into them and they are given back in any order, and by the sub-contexts of runs. A sub-context
is disposed of in the end, however the runs in it went, so what a run has rented is given back when
it is over (`Use.audited`). The count is right at every instant of a run as well, also of one that
does not end: it is the number of sequences held outside, and one for each sub-context that has not
given its sequence back (`Lending.givenBack`).
-/

namespace Playbook

-- ---------------------------------------------------------------------------
-- The pool
-- ---------------------------------------------------------------------------

/-- What is kept for reuse is empty, and there is not too much of it. -/
structure Pool.Tidy (p : Pool) : Prop where
  few : p.idle.length ≤ 64
  empty : ∀ items ∈ p.idle, items = []

namespace Pool

theorem empty_tidy : empty.Tidy := ⟨Nat.zero_le _, by simp [empty]⟩

theorem rent_outstanding (p : Pool) : p.rent.2.outstanding = p.outstanding + 1 := by
  unfold rent
  split <;> rfl

theorem Tidy.rent_empty {p : Pool} (h : p.Tidy) : p.rent.1 = [] := by
  unfold Pool.rent
  split
  · rfl
  · rename_i items rest hidle
    exact h.empty items (hidle ▸ List.mem_cons_self)

theorem Tidy.rent {p : Pool} (h : p.Tidy) : p.rent.2.Tidy := by
  unfold Pool.rent
  split
  · exact ⟨h.few, h.empty⟩
  · rename_i items rest hidle
    refine ⟨?_, fun q hq => h.empty q (hidle ▸ List.mem_cons_of_mem _ hq)⟩
    have hfew := h.few
    rw [hidle] at hfew
    exact Nat.le_of_succ_le hfew

theorem Tidy.giveBack {p : Pool} (h : p.Tidy) (items : List Action) : (p.giveBack items).Tidy := by
  unfold Pool.giveBack
  by_cases hroom : p.idle.length < maxIdle
  · simp only [hroom, ↓reduceIte]
    refine ⟨hroom, fun q hq => ?_⟩
    rcases List.mem_cons.mp hq with rfl | hq
    · rfl
    · exact h.empty q hq
  · simp only [hroom, ↓reduceIte]
    exact ⟨h.few, h.empty⟩

end Pool

-- ---------------------------------------------------------------------------
-- Stretches of runs
-- ---------------------------------------------------------------------------

def Context.borrows (c : Context) : Bool :=
  match c.sequence with
  | .shared _ => false
  | .rented _ => true

def Instant.returns (m : Instant) : Bool :=
  match m.deed with
  | .effect .dispose => !m.before.context.disposed && m.before.context.borrows
  | _ => false

namespace State

abbrev lent (s : State) : Nat := s.world.pool.outstanding

abbrev own (s : State) : Nat := s.context.borrows.toNat

structure Tidy (s : State) : Prop where
  pool : s.world.pool.Tidy
  counted : s.own ≤ s.lent
  gone : s.context.disposed = true → s.context.borrows = false

end State

/-- What has become of the pool when `ms` has happened since `s`. What is rented by others than the
context is still there, and every context that was made has rented a sequence. -/
structure Balanced (s : State) (ms : List Instant) (t : State) : Prop where
  tidy : t.Tidy
  floor : s.lent + t.own ≤ t.lent + s.own
  ledger : t.lent + ms.countP Instant.returns + s.world.nextContext =
    s.lent + t.world.nextContext

theorem Balanced.trans {s t u : State} (h : Balanced s ms t) (h' : Balanced t ms' u) :
    Balanced s (ms ++ ms') u := by
  have hfloor := h.floor
  have hfloor' := h'.floor
  have hledger := h.ledger
  have hledger' := h'.ledger
  refine ⟨h'.tidy, by omega, ?_⟩
  rw [List.countP_append]
  omega

/-- When a stretch of a run has ended, the context alone can have given back what it held. -/
structure Settled (s : State) (ms : List Instant) (t : State) : Prop extends Balanced s ms t where
  repaid : t.lent + s.own ≤ s.lent + t.own
  kept : t.own ≤ s.own

theorem Settled.trans {s t u : State} (h : Settled s ms t) (h' : Settled t ms' u) :
    Settled s (ms ++ ms') u := by
  have hrepaid := h.repaid
  have hrepaid' := h'.repaid
  exact ⟨h.toBalanced.trans h'.toBalanced, by omega, Nat.le_trans h'.kept h.kept⟩

theorem Settled.of_same {s t : State} (hs : s.Tidy) (hpool : t.world.pool = s.world.pool)
    (hnext : t.world.nextContext = s.world.nextContext)
    (hborrows : t.context.borrows = s.context.borrows)
    (hgone : t.context.disposed = true → t.context.borrows = false)
    (hms : ms.countP Instant.returns = 0) : Settled s ms t := by
  have hlent : t.lent = s.lent := by rw [State.lent, hpool]
  have hown : t.own = s.own := by rw [State.own, hborrows]
  refine ⟨⟨⟨hpool ▸ hs.pool, ?_, hgone⟩, ?_, ?_⟩, ?_, Nat.le_of_eq hown⟩
  · rw [hown, hlent]
    exact hs.counted
  · rw [hown, hlent]
  · rw [hms, hnext, hlent, Nat.add_zero]
  · rw [hown, hlent]

theorem World.cancel_pool (w : World) (i : ContextId) :
    (w.cancel i).pool = w.pool ∧ (w.cancel i).nextContext = w.nextContext := by
  obtain ⟨_, h⟩ := w.cancel_eq i
  rw [h]
  exact ⟨rfl, rfl⟩

theorem Effect.run_pool {e : Effect} (he : e ≠ .dispose) (s : State) :
    (e.run s).2.world.pool = s.world.pool ∧
      (e.run s).2.world.nextContext = s.world.nextContext := by
  cases e with
  | setIndex i =>
    simp only [Effect.run]
    split <;> exact ⟨rfl, rfl⟩
  | dispose => exact absurd rfl he
  | cancel => exact s.world.cancel_pool _
  | revoke i =>
    obtain ⟨_, h⟩ := s.world.revoke_eq i
    simp [Effect.run, h]
  | _ => exact ⟨rfl, rfl⟩

theorem State.dispose_pool {s : State} (h : s.context.disposed = false) :
    s.dispose.world.pool =
        (if s.context.borrows then s.world.pool.giveBack s.context.actions else s.world.pool) ∧
      s.dispose.world.nextContext = s.world.nextContext ∧ s.dispose.context.borrows = false := by
  obtain ⟨hpool, hnext⟩ := s.world.cancel_pool s.context.id
  have hdispose : s.dispose = ⟨s.context.released,
      ((s.world.cancel s.context.id).log s.context.disposalEntry).release s.context.sequence⟩ := by
    simp only [State.dispose, World.dispose, h, Bool.false_eq_true, ↓reduceIte]
    rfl
  rw [hdispose]
  cases hsequence : s.context.sequence with
  | shared actions =>
    refine ⟨?_, hnext, rfl⟩
    simp only [Context.borrows, hsequence, Bool.false_eq_true, ↓reduceIte]
    exact hpool
  | rented actions =>
    refine ⟨?_, hnext, rfl⟩
    simp only [Context.borrows, Context.actions, hsequence, ↓reduceIte, ← hpool]
    rfl

/-- A context that is disposed of gives back what it holds, which was counted. -/
theorem State.Tidy.dispose {s : State} (hs : s.Tidy) :
    Settled s [⟨.effect .dispose, s⟩] s.dispose := by
  cases hdisposed : s.context.disposed with
  | true =>
    have hsame : s.dispose = s := by simp [State.dispose, World.dispose, hdisposed]
    rw [hsame]
    exact .of_same hs rfl rfl rfl hs.gone (by simp [Instant.returns, hdisposed])
  | false =>
    obtain ⟨hpool, hnext, hleft⟩ := State.dispose_pool hdisposed
    cases hborrows : s.context.borrows with
    | false =>
      rw [hborrows] at hpool
      exact .of_same hs hpool hnext (hleft.trans hborrows.symm) (fun _ => hleft)
        (by simp [Instant.returns, hborrows])
    | true =>
      have hown : s.own = 1 := by rw [State.own, hborrows]; rfl
      have hown' : s.dispose.own = 0 := by rw [State.own, hleft]; rfl
      have hcounted := hs.counted
      rw [hborrows] at hpool
      have hlent : s.dispose.lent = s.lent - 1 := by rw [State.lent, hpool]; rfl
      have hreturns : [(⟨.effect .dispose, s⟩ : Instant)].countP Instant.returns = 1 := by
        simp [Instant.returns, hdisposed, hborrows]
      refine ⟨⟨⟨?_, by omega, fun _ => hleft⟩, by omega, ?_⟩, by omega, by omega⟩
      · rw [hpool]
        exact hs.pool.giveBack s.context.actions
      · rw [hreturns, hnext]
        omega

-- ---------------------------------------------------------------------------
-- Runs
-- ---------------------------------------------------------------------------

structure Audit (s : State) (ms : List Instant) (t : Option State) : Prop where
  instants : ∀ before m after, ms = before ++ m :: after → Balanced s before m.before
  ends : ∀ u, t = some u → Settled s ms u

theorem Audit.silent {s t : State} (h : Settled s [] t) : Audit s [] (some t) where
  instants := by simp
  ends := by
    rintro u ⟨⟩
    exact h

theorem Audit.single {m : Instant} (hm : m.before.Tidy) (h : Settled m.before [m] t) :
    Audit m.before [m] (some t) where
  instants before m' after hsplit := by
    obtain ⟨rfl, hcons⟩ | ⟨hsingle, hnil⟩ := List.singleton_eq_append_iff.mp hsplit
    · obtain ⟨rfl, -⟩ := List.cons.inj hcons
      exact (Settled.of_same hm rfl rfl rfl hm.gone rfl).toBalanced
    · cases hnil
  ends := by
    rintro u ⟨⟩
    exact h

theorem Audit.append {s t : State} (h : Audit s ms (some t)) (h' : Audit t ms' u) :
    Audit s (ms ++ ms') u where
  instants before m after hsplit := by
    have hsettled := h.ends t rfl
    rcases List.append_eq_append_iff.mp hsplit with ⟨more, rfl, hms'⟩ | ⟨more, hms, hafter⟩
    · exact hsettled.toBalanced.trans (h'.instants more m after hms')
    · cases more with
      | nil =>
        obtain rfl : ms = before := by simpa using hms
        have hfirst := hsettled.toBalanced.trans (h'.instants [] m after hafter.symm)
        rw [List.append_nil] at hfirst
        exact hfirst
      | cons m' more =>
        obtain ⟨rfl, -⟩ := List.cons.inj hafter
        exact h.instants before m more hms
  ends u hu := (h.ends t rfl).trans (h'.ends u hu)

theorem State.forTarget_tidy {s : State} (hs : s.Tidy) (target : Action) :
    (s.forTarget target).Tidy where
  pool := hs.pool.rent
  counted := by
    have hlent : (s.forTarget target).lent = s.lent + 1 := s.world.pool.rent_outstanding
    have hown : (s.forTarget target).own = 1 := rfl
    omega
  gone := by
    intro hgone
    cases hgone

/-- A sub-context holds the sequence that was rented for it, until it gives it back. -/
theorem Balanced.child {s : State} {target : Action} (h : Balanced (s.forTarget target) ms t) :
    s.lent + t.own ≤ t.lent ∧ t.lent + ms.countP Instant.returns + s.world.nextContext =
      s.lent + t.world.nextContext := by
  have hlent : (s.forTarget target).lent = s.lent + 1 := s.world.pool.rent_outstanding
  have hown : (s.forTarget target).own = 1 := rfl
  have hfloor := h.floor
  have hledger := h.ledger
  rw [show (s.forTarget target).world.nextContext = s.world.nextContext + 1 from rfl] at hledger
  omega

theorem Audit.child {s : State} {target : Action} (hs : s.Tidy)
    (h : Audit (s.forTarget target) ms t) (ht : ∀ u, t = some u → u.context.disposed = true) :
    Audit s ms (t.map fun t => { context := s.context, world := t.world }) where
  instants before m after hsplit := by
    have hm := h.instants before m after hsplit
    obtain ⟨hfloor, hledger⟩ := hm.child
    exact ⟨hm.tidy, by omega, hledger⟩
  ends u hu := by
    obtain ⟨v, rfl, rfl⟩ := Option.map_eq_some_iff.mp hu
    have hv := h.ends v rfl
    obtain ⟨hfloor, hledger⟩ := hv.toBalanced.child
    have hown : v.own = 0 := by
      rw [State.own, hv.tidy.gone (ht v rfl)]
      rfl
    have hlent : (s.forTarget target).lent = s.lent + 1 := s.world.pool.rent_outstanding
    have hrented : (s.forTarget target).own = 1 := rfl
    have hrepaid := hv.repaid
    have hcounted := hs.counted
    have hsame : v.lent = s.lent := by omega
    refine ⟨⟨⟨hv.tidy.pool, ?_, hs.gone⟩, ?_, hledger⟩, ?_, Nat.le_refl _⟩
    · exact hsame ▸ hs.counted
    · exact Nat.le_of_eq (by rw [← hsame])
    · exact Nat.le_of_eq (by rw [← hsame])

theorem audit_threads : Threads fun s ms t => s.Tidy → Audit s ms t where
  stay s hs := .silent (.of_same hs rfl rfl rfl hs.gone rfl)
  cut s ms t h hs := ⟨(h hs).instants, fun _ ht => by cases ht⟩
  append s ms t ms' u h h' hs := (h hs).append (h' ((h hs).ends t rfl).tidy)
  effect e s hs := by
    by_cases he : e = .dispose
    · subst he
      exact .single (m := ⟨.effect .dispose, s⟩) hs hs.dispose
    · have hkept := Effect.run_kept he s
      obtain ⟨hpool, hnext⟩ := Effect.run_pool he s
      have hborrows : (e.run s).2.context.borrows = s.context.borrows := by
        rw [Context.borrows, hkept.sequence, Context.borrows]
      refine .single (m := ⟨.effect e, s⟩) hs (.of_same hs hpool hnext hborrows ?_ ?_)
      · rw [hborrows, hkept.disposed]
        exact hs.gone
      · cases e <;> first | rfl | exact absurd rfl he
  enter s _ _ hs := .single (m := ⟨.enter, s⟩) hs (.of_same hs rfl rfl rfl hs.gone rfl)
  sync s hs := .silent (.of_same hs rfl rfl rfl hs.gone rfl)
  log s entry hs := .silent (.of_same hs rfl rfl rfl hs.gone rfl)
  child s target ms t h ht hs := (h (s.forTarget_tidy hs target)).child hs ht

theorem Use.audited (u : Use) {s : State} (hs : s.Tidy) :
    Audit s (u.trail handlers n s) (u.result handlers n s) :=
  u.follows audit_threads s hs

-- ---------------------------------------------------------------------------
-- Lending
-- ---------------------------------------------------------------------------

/-- What can become of a pool that was empty once: `guards` are the sequences that are held from
outside, with what was put into them, and `contexts` are contexts of scripts that use the pool. -/
inductive Lending : List (List Action) → List Context → World → Prop
  | start (w : World) : Lending [] [] { w with pool := .empty }
  | rent : Lending guards contexts w → Lending (w.rent.1 :: guards) contexts w.rent.2
  | push (a : Action) : Lending (items :: guards) contexts w →
      Lending ((items ++ [a]) :: guards) contexts w
  | drop : Lending (items :: guards) contexts w → Lending guards contexts (w.giveBack items)
  | make (script : Script) (actor : Option ActorId) : Lending guards contexts w →
      Lending guards ((w.start script actor).1 :: contexts) (w.start script actor).2
  | use (u : Use) : Lending guards (c :: contexts) w →
      u.result handlers n ⟨c, w⟩ = some t → Lending guards (t.context :: contexts) t.world
  | resume : Lending guards (c :: contexts) w →
      Lending guards ({ c with continuation := none } :: contexts) w
  | letGo : Lending guards (c :: contexts) w → Lending guards contexts (w.release c.sequence)
  | reorder : Lending guards contexts w → guards.Perm guards' → contexts.Perm contexts' →
      Lending guards' contexts' w
  | elsewhere : Lending guards contexts w → w'.pool = w.pool → Lending guards contexts w'

theorem State.tidy_of_shared {w : World} {c : Context} (hpool : w.pool.Tidy)
    (hc : c.borrows = false) : State.Tidy ⟨c, w⟩ := by
  refine ⟨hpool, ?_, fun _ => hc⟩
  rw [State.own, hc]
  exact Nat.zero_le _

/-- Whatever is done with a context of a script, what is rented in it is given back. -/
theorem Use.lent_eq {w : World} {c : Context} (hpool : w.pool.Tidy) (hc : c.borrows = false)
    (u : Use) (ht : u.result handlers n ⟨c, w⟩ = some t) :
    t.lent = w.pool.outstanding ∧ t.world.pool.Tidy ∧ t.context.borrows = false := by
  have hsettled := (u.audited (State.tidy_of_shared hpool hc)).ends t ht
  have hown : State.own ⟨c, w⟩ = 0 := by
    rw [State.own, hc]
    rfl
  have hkept : t.own = 0 := Nat.le_zero.mp (hown ▸ hsettled.kept)
  have hfloor := hsettled.floor
  have hrepaid := hsettled.repaid
  refine ⟨?_, hsettled.tidy.pool, by simpa using hkept⟩
  rw [hown, hkept] at hfloor hrepaid
  exact Nat.le_antisymm hrepaid hfloor

theorem Lending.counted (h : Lending guards contexts w) :
    w.pool.outstanding = guards.length ∧ w.pool.Tidy ∧ ∀ c ∈ contexts, c.borrows = false := by
  induction h with
  | start w => exact ⟨rfl, Pool.empty_tidy, by simp⟩
  | @rent guards contexts w _ ih =>
    obtain ⟨hlent, htidy, hshared⟩ := ih
    exact ⟨w.pool.rent_outstanding.trans (congrArg (· + 1) hlent), htidy.rent, hshared⟩
  | push _ _ ih => exact ih
  | @drop items guards contexts w _ ih =>
    obtain ⟨hlent, htidy, hshared⟩ := ih
    exact ⟨congrArg (· - 1) hlent, htidy.giveBack items, hshared⟩
  | make script actor _ ih =>
    obtain ⟨hlent, htidy, hshared⟩ := ih
    exact ⟨hlent, htidy, List.forall_mem_cons.mpr ⟨rfl, hshared⟩⟩
  | use u _ ht ih =>
    obtain ⟨hlent, htidy, hshared⟩ := ih
    obtain ⟨hc, hothers⟩ := List.forall_mem_cons.mp hshared
    obtain ⟨hlent', htidy', hc'⟩ := u.lent_eq htidy hc ht
    exact ⟨hlent'.trans hlent, htidy', List.forall_mem_cons.mpr ⟨hc', hothers⟩⟩
  | resume _ ih =>
    obtain ⟨hlent, htidy, hshared⟩ := ih
    obtain ⟨hc, hothers⟩ := List.forall_mem_cons.mp hshared
    exact ⟨hlent, htidy, List.forall_mem_cons.mpr ⟨hc, hothers⟩⟩
  | @letGo guards c contexts w _ ih =>
    obtain ⟨hlent, htidy, hshared⟩ := ih
    obtain ⟨hc, hothers⟩ := List.forall_mem_cons.mp hshared
    have hsame : w.release c.sequence = w := by
      cases hsequence : c.sequence with
      | shared => rfl
      | rented => simp [Context.borrows, hsequence] at hc
    rw [hsame]
    exact ⟨hlent, htidy, hothers⟩
  | reorder _ hguards hcontexts ih =>
    obtain ⟨hlent, htidy, hshared⟩ := ih
    exact ⟨hlent.trans hguards.length_eq, htidy, fun c hc => hshared c (hcontexts.mem_iff.mpr hc)⟩
  | elsewhere _ hpool ih =>
    obtain ⟨hlent, htidy, hshared⟩ := ih
    exact ⟨hpool ▸ hlent, hpool ▸ htidy, hshared⟩

/-- What is known at the instant `m` of something that is done in the world `w`, after the instants
`before`, while `held` sequences are held from outside. -/
structure InstantCounted (held : Nat) (w : World) (before : List Instant) (m : Instant) : Prop where
  /-- One for each sequence that is held from outside, and one for each sub-context that has been
  made and has not given its sequence back. -/
  outstanding : ∃ made, m.before.world.nextContext = w.nextContext + made ∧
    m.before.world.pool.outstanding + before.countP Instant.returns = held + made
  returned : m.returns = true → held < m.before.world.pool.outstanding
  tidy : m.before.world.pool.Tidy
  rented : m.before.world.rent.1 = [] ∧ m.after.world.rent.1 = []

structure Counted (guards : List (List Action)) (contexts : List Context) (w : World) : Prop where
  outstanding : w.pool.outstanding = guards.length
  dropped : ∀ items ∈ guards, (w.giveBack items).pool.outstanding + 1 = w.pool.outstanding
  tidy : w.pool.Tidy
  rented : w.rent.1 = []
  runs : ∀ c ∈ contexts, ∀ handlers n (u : Use),
    (∀ t, u.result handlers n ⟨c, w⟩ = some t →
      t.world.pool.outstanding = w.pool.outstanding) ∧
    ∀ before m after, u.trail handlers n ⟨c, w⟩ = before ++ m :: after →
      InstantCounted guards.length w before m

theorem Instant.after_tidy {m : Instant} (h : m.before.Tidy) : m.after.world.pool.Tidy := by
  rcases m with ⟨_ | e, s⟩
  · exact h.pool
  · exact ((audit_threads.effect e s h).ends _ rfl).tidy.pool

theorem Balanced.instantCounted {m : Instant} (hc : c.borrows = false)
    (h : Balanced ⟨c, w⟩ before m.before) : InstantCounted w.pool.outstanding w before m := by
  have hown : State.own ⟨c, w⟩ = 0 := by
    rw [State.own, hc]
    rfl
  have hfloor : w.pool.outstanding + m.before.own ≤ m.before.world.pool.outstanding := by
    have hfloor := h.floor
    rw [hown] at hfloor
    exact hfloor
  have hledger : m.before.world.pool.outstanding + before.countP Instant.returns + w.nextContext =
      w.pool.outstanding + m.before.world.nextContext := h.ledger
  obtain ⟨made, hmade⟩ : ∃ made, m.before.world.nextContext = w.nextContext + made :=
    Nat.exists_eq_add_of_le (by omega)
  refine ⟨⟨made, hmade, ?_⟩, fun hreturns => ?_, h.tidy.pool, h.tidy.pool.rent_empty,
    (Instant.after_tidy h.tidy).rent_empty⟩
  · rw [hmade] at hledger
    omega
  · have hborrows : m.before.own = 1 := by
      unfold Instant.returns at hreturns
      split at hreturns
      · simp only [Bool.and_eq_true] at hreturns
        rw [State.own, hreturns.2]
        rfl
      · cases hreturns
    omega

theorem Lending.givenBack (h : Lending guards contexts w) : Counted guards contexts w := by
  obtain ⟨hlent, htidy, hshared⟩ := h.counted
  refine ⟨hlent, ?_, htidy, htidy.rent_empty, fun c hc handlers n u => ⟨fun t ht => ?_, ?_⟩⟩
  · intro items hitems
    have hpos := List.length_pos_of_mem hitems
    have hless : (w.giveBack items).pool.outstanding = w.pool.outstanding - 1 := rfl
    omega
  · exact (u.lent_eq htidy (hshared c hc) ht).1
  · intro before m after hsplit
    have hs := State.tidy_of_shared htidy (hshared c hc)
    rw [← hlent]
    exact ((u.audited hs).instants before m after hsplit).instantCounted (hshared c hc)

/-- A sub-dispatch inside of a sub-dispatch, while one sequence is held from outside: three are
rented out at times, and one in the end. -/
theorem givenBack_nested :
    ∃ script, (compile .builtins "nested" "ForEach 1,2 For #3 Log hi\n").result.toOption.bind
        ScriptUnit.main? = some script ∧
      let (c, w) := (World.initial fun _ => 0).rent.2.start script none
      Lending [[]] [c] w ∧ Counted [[]] [c] w ∧
      (Use.run.trail .none 9 ⟨c, w⟩).any (fun m => m.before.world.pool.outstanding = 3) = true ∧
      ∃ t, run .none 9 ⟨c, w⟩ = some (.completed, t) ∧ t.world.pool.outstanding = 1 := by
  have heval : ((compile .builtins "nested" "ForEach 1,2 For #3 Log hi\n").result.toOption.bind
      ScriptUnit.main?).bind (fun script =>
        let (c, w) := (World.initial fun _ => 0).rent.2.start script none
        (run .none 9 ⟨c, w⟩).map fun r => (r.1, (Use.run.trail .none 9 ⟨c, w⟩).any fun m =>
          m.before.world.pool.outstanding = 3)) = some (.completed, true) := by
    decide +kernel
  obtain ⟨script, hscript, hrun⟩ := Option.bind_eq_some_iff.mp heval
  obtain ⟨⟨outcome, t⟩, ht, heq⟩ := Option.map_eq_some_iff.mp hrun
  obtain ⟨rfl, hthree⟩ := Prod.mk.inj heq
  have hlending : Lending [[]] [_] _ :=
    ((Lending.start (World.initial fun _ => 0)).rent).make script none
  have hcounted := hlending.givenBack
  refine ⟨script, hscript, hlending, hcounted, hthree, t, ht, ?_⟩
  have hended := (Use.result_run .none 9 _).trans (congrArg ended ht)
  exact ((hcounted.runs _ (.head _) .none 9 .run).1 t hended).trans hcounted.outstanding

end Playbook
