import Mathlib.Data.List.Forall2
import Playbook.Proofs.Traces

/-!
# Runs that go in lockstep

What a run does depends on its context and on a small part of the world: not on the trace, nor
on who has been cancelled, nor on which sequences the pool has, as long as they are empty. The
dice matter. What else does is up to the handlers of the host: a continuation that is pending in
the context, the identities that new contexts get and the objects that are made matter to handlers
that look at the one or make the other, and to no built-in action. Two runs that start alike give
the same answers, enter the same handlers and end alike (`step_locked`, `block_locked`).
-/

namespace Playbook

-- ---------------------------------------------------------------------------
-- States that are alike
-- ---------------------------------------------------------------------------

def Context.bare (c : Context) : Context := { c with continuation := none }

/-- Contexts that differ in their identities, as `ids` allows, and in the pending continuation
only, and in that not at all if `exact`. -/
def Context.Like (exact : Prop) (ids : ContextId → ContextId → Prop) (c d : Context) : Prop :=
  ∃ i p k, d = { c with id := i, parent := p, continuation := k } ∧
    ids c.id i ∧ Option.Rel ids c.parent p ∧ (exact → k = c.continuation)

/-- What worlds agree in besides the dice: the identities that new contexts get, and the objects
that have been made. -/
structure Accord where
  names : Prop
  objects : Prop

/-- Worlds that a run cannot tell apart if it makes no use of what they do not agree in. -/
structure World.Same (g : Accord) (w w' : World) : Prop where
  dice : w'.dice = w.dice
  thrown : w'.thrown = w.thrown
  contexts : g.names → w'.nextContext = w.nextContext
  objects : g.objects → w'.objects = w.objects
  pool : w'.pool = w.pool ∨ w.Clean ∧ w'.Clean

theorem World.Same.refl (w : World) : w.Same g w :=
  ⟨rfl, rfl, fun _ => rfl, fun _ => rfl, .inl rfl⟩

theorem World.Same.trans {u v w : World} (huv : u.Same g v) (hvw : v.Same g w) : u.Same g w := by
  refine ⟨hvw.dice.trans huv.dice, hvw.thrown.trans huv.thrown,
    fun h => (hvw.contexts h).trans (huv.contexts h),
    fun h => (hvw.objects h).trans (huv.objects h), ?_⟩
  have hclean {u v : World} (h : v.pool = u.pool) : u.Clean ↔ v.Clean := by
    rw [World.Clean, World.Clean, h]
  rcases huv.pool with huv | ⟨hu, hv⟩ <;> rcases hvw.pool with hvw | ⟨hv', hw⟩
  · exact .inl (hvw.trans huv)
  · exact .inr ⟨(hclean huv).mpr hv', hw⟩
  · exact .inr ⟨hu, (hclean hvw).mp hv⟩
  · exact .inr ⟨hu, hw⟩

/-- The world `v` is `w` but for what no run looks at. -/
def World.Resembles (w v : World) : Prop :=
  ∃ trace cancelled, v = { w with trace, cancelled } ∧ v.entrances = w.entrances

namespace World.Resembles

theorem log (w : World) (entry : LogEntry) : w.Resembles (w.log entry) := ⟨_, _, rfl, rfl⟩

theorem logged (w : World) (entry : Option LogEntry) : w.Resembles (w.logged entry) := by
  cases entry <;> exact ⟨_, _, rfl, rfl⟩

theorem cancel (w : World) (i : ContextId) : w.Resembles (w.cancel i) := by
  obtain ⟨_, h⟩ := w.cancel_eq i
  exact ⟨_, _, h, by rw [h]; rfl⟩

theorem revoke (w : World) (i : ContextId) : w.Resembles (w.revoke i) := by
  obtain ⟨_, h⟩ := w.revoke_eq i
  exact ⟨_, _, h, by rw [h]; rfl⟩

theorem recordCalls (w : World) (calls : List ParseCall) : w.Resembles (w.recordCalls calls) :=
  ⟨_, _, rfl, w.entrances_recordCalls calls⟩

theorem same {w v : World} (h : w.Resembles v) : w.Same g v := by
  obtain ⟨trace, cancelled, rfl, -⟩ := h
  exact ⟨rfl, rfl, fun _ => rfl, fun _ => rfl, .inl rfl⟩

end World.Resembles

/-- The identities of a context in a run from the world `o` and in one from `o'`: they are the
same, or those of contexts that the runs have made at the same place. -/
def Renames (o o' : World) (i i' : ContextId) : Prop :=
  i' = i ∨ o.nextContext ≤ i ∧ i' + o.nextContext = i + o'.nextContext

/-- Such worlds in which as many contexts have been made and the same handlers have been entered
since `o` and `o'`. -/
structure World.Alike (g : Accord) (w o o' w' : World) : Prop extends World.Same g w w' where
  later : o.nextContext ≤ w.nextContext
  made : w'.nextContext + o.nextContext = w.nextContext + o'.nextContext
  entered : ∃ news news', w.entrances = news ++ o.entrances ∧ w'.entrances = news' ++ o'.entrances ∧
    List.Forall₂ (Context.Like False (Renames o o')) news news'

structure State.Twin (exact : Prop) (g : Accord) (o o' : World) (s s' : State) : Prop where
  context : s.context.Like exact (Renames o o') s'.context
  world : s.world.Alike g o o' s'.world

def Agree (exact : Prop) (g : Accord) (o o' : World) (x x' : Option (α × State)) : Prop :=
  Option.Rel (fun r r' => r'.1 = r.1 ∧ r.2.Twin exact g o o' r'.2) x x'

section
variable {exact : Prop} {g : Accord} {o o' : World}

theorem eq_of_rel {r : α → α → Prop} (hr : ∀ a b, r a b → b = a) {p q : Option α}
    (h : Option.Rel r p q) : q = p := by
  cases h with
  | none => rfl
  | some h => rw [hr _ _ h]

namespace Context.Like

variable {ids : ContextId → ContextId → Prop} {c d : Context}

theorem mono {exact' : Prop} {ids' : ContextId → ContextId → Prop} (h : c.Like exact ids d)
    (he : exact' → exact) (hids : ∀ i j, ids i j → ids' i j) : c.Like exact' ids' d := by
  obtain ⟨i, p, k, hd, hi, hp, hk⟩ := h
  refine ⟨i, p, k, hd, hids _ _ hi, ?_, hk ∘ he⟩
  generalize c.parent = q at hp
  cases hp with
  | none => exact .none
  | some hq => exact .some (hids _ _ hq)

/-- The same context, but for a pending continuation. -/
theorem same_iff : c.Like exact Eq d ↔
    d.bare = c.bare ∧ (exact → d.continuation = c.continuation) := by
  constructor
  · rintro ⟨i, p, k, rfl, rfl, hp, hk⟩
    obtain rfl : p = c.parent := eq_of_rel (fun _ _ => Eq.symm) hp
    exact ⟨rfl, hk⟩
  · rintro ⟨hbare, hk⟩
    refine ⟨c.id, c.parent, d.continuation, ?_, rfl, ?_, hk⟩
    · have h : { d.bare with continuation := d.continuation } =
          { c.bare with continuation := d.continuation } := by rw [hbare]
      exact h
    · cases c.parent with
      | none => exact .none
      | some p => exact .some rfl

theorem same (h : c.Like exact ids d) (hid : d.id = c.id) (hparent : d.parent = c.parent) :
    c.Like exact Eq d := by
  obtain ⟨i, p, k, rfl, -, -, hk⟩ := h
  obtain rfl : i = c.id := hid
  obtain rfl : p = c.parent := hparent
  exact same_iff.mpr ⟨rfl, hk⟩

theorem index (h : c.Like exact ids d) : d.index = c.index := by
  obtain ⟨i, p, k, rfl, -⟩ := h
  rfl

theorem actions (h : c.Like exact ids d) : d.actions = c.actions := by
  obtain ⟨i, p, k, rfl, -⟩ := h
  rfl

theorem len (h : c.Like exact ids d) : d.len = c.len := congrArg List.length h.actions

theorem sync (h : c.Like exact ids d) : c.sync.Like exact ids d.sync := by
  obtain ⟨i, p, k, rfl, h⟩ := h
  exact ⟨i, p, k, rfl, h⟩

theorem setIndex (h : c.Like exact ids d) (index : Nat) :
    (∃ e, c.setIndex index = .error e ∧ d.setIndex index = .error e) ∨
      ∃ c' d', c.setIndex index = .ok c' ∧ d.setIndex index = .ok d' ∧ c'.Like exact ids d' := by
  obtain ⟨i, p, k, rfl, h⟩ := h
  by_cases hi : c.len < index
  · exact .inl ⟨c.outOfBounds index, if_pos hi, if_pos hi⟩
  · exact .inr ⟨_, _, if_neg hi, if_neg hi, i, p, k, rfl, h⟩

end Context.Like

theorem Renames.eq (h : Renames o o' i i') (ho : o'.nextContext = o.nextContext) : i' = i := by
  rcases h with h | ⟨-, h⟩
  · exact h
  · exact Nat.add_right_cancel (ho ▸ h)

namespace World.Alike

variable {w w' v v' : World}

theorem keep (h : w.Alike g o o' w') (hsame : v.Same g v')
    (hcontexts : v.nextContext = w.nextContext ∧ v'.nextContext = w'.nextContext)
    (hentered : v.entrances = w.entrances ∧ v'.entrances = w'.entrances) :
    v.Alike g o o' v' := by
  refine ⟨hsame, hcontexts.1 ▸ h.later, ?_, ?_⟩
  · rw [hcontexts.1, hcontexts.2]
    exact h.made
  · rw [hentered.1, hentered.2]
    exact h.entered

theorem aside (h : w.Alike g o o' w') (hv : w.Resembles v) (hv' : w'.Resembles v') :
    v.Alike g o o' v' := by
  obtain ⟨trace, cancelled, rfl, hentered⟩ := hv
  obtain ⟨trace', cancelled', rfl, hentered'⟩ := hv'
  exact h.keep ⟨h.dice, h.thrown, h.contexts, h.objects, h.pool⟩ ⟨rfl, rfl⟩ ⟨hentered, hentered'⟩

theorem log (h : w.Alike g o o' w') (entry entry' : LogEntry) :
    (w.log entry).Alike g o o' (w'.log entry') :=
  h.aside (.log w entry) (.log w' entry')

theorem cancel (h : w.Alike g o o' w') (i i' : ContextId) :
    (w.cancel i).Alike g o o' (w'.cancel i') :=
  h.aside (.cancel w i) (.cancel w' i')

theorem recordCalls (h : w.Alike g o o' w') (calls : List ParseCall) :
    (w.recordCalls calls).Alike g o o' (w'.recordCalls calls) :=
  h.aside (.recordCalls w calls) (.recordCalls w' calls)

theorem release (h : w.Alike g o o' w') (q : Sequence) :
    (w.release q).Alike g o o' (w'.release q) := by
  cases q with
  | shared => exact h
  | rented items =>
    refine h.keep ⟨h.dice, h.thrown, h.contexts, h.objects, ?_⟩ ⟨rfl, rfl⟩ ⟨rfl, rfl⟩
    rcases h.pool with hpool | ⟨hw, hw'⟩
    · exact .inl (congrArg (Pool.giveBack · items) hpool)
    · exact .inr ⟨hw.giveBack items, hw'.giveBack items⟩

theorem enter (h : w.Alike g o o' w') {c d : Context} (hcd : c.Like exact (Renames o o') d) :
    (w.record (.dispatch c)).Alike g o o' (w'.record (.dispatch d)) := by
  obtain ⟨news, news', hnews, hnews', hlike⟩ := h.entered
  exact ⟨⟨h.dice, h.thrown, h.contexts, h.objects, h.pool⟩, h.later, h.made, c :: news, d :: news',
    congrArg (c :: ·) hnews, congrArg (d :: ·) hnews',
    .cons (hcd.mono False.elim fun _ _ h => h) hlike⟩

theorem rent (h : w.Alike g o o' w') :
    w'.rent.1 = w.rent.1 ∧ w.rent.2.Alike g o o' w'.rent.2 := by
  rcases h.pool with hpool | ⟨hw, hw'⟩
  · refine ⟨congrArg (fun p => (Pool.rent p).1) hpool, h.keep ?_ ⟨rfl, rfl⟩ ⟨rfl, rfl⟩⟩
    exact ⟨h.dice, h.thrown, h.contexts, h.objects,
      .inl (congrArg (fun p => (Pool.rent p).2) hpool)⟩
  · refine ⟨hw'.rent.1.trans hw.rent.1.symm, h.keep ?_ ⟨rfl, rfl⟩ ⟨rfl, rfl⟩⟩
    exact ⟨h.dice, h.thrown, h.contexts, h.objects, .inr ⟨hw.rent.2, hw'.rent.2⟩⟩

theorem newContext (h : w.Alike g o o' w') :
    Renames o o' w.newContext.1 w'.newContext.1 ∧ w.newContext.2.Alike g o o' w'.newContext.2 := by
  refine ⟨.inr ⟨h.later, h.made⟩, ⟨h.dice, h.thrown, fun hn => ?_, h.objects, h.pool⟩,
    Nat.le_succ_of_le h.later, ?_, h.entered⟩
  · exact congrArg (· + 1) (h.contexts hn)
  · simp only [World.newContext]
    rw [Nat.add_right_comm, h.made, Nat.add_right_comm]

/-- Where worlds agree in the identities of new contexts, all identities are the same. -/
theorem unrenamed (h : w.Alike g o o' w') (hn : g.names) (hi : Renames o o' i i') : i' = i := by
  have hmade := h.made
  rw [h.contexts hn] at hmade
  exact hi.eq (Nat.add_left_cancel hmade).symm

end World.Alike

namespace State.Twin

variable {s s' : State}

theorem dispose (h : s.Twin exact g o o' s') :
    (s'.world.dispose s'.context).1 = (s.world.dispose s.context).1 ∧
      s.dispose.Twin exact g o o' s'.dispose := by
  obtain ⟨⟨i, p, k, hc, hi, hp, hk⟩, hw⟩ := h
  obtain ⟨c, w⟩ := s
  obtain ⟨d, w'⟩ := s'
  obtain rfl : d = { c with id := i, parent := p, continuation := k } := hc
  simp only [State.dispose, World.dispose]
  split
  · exact ⟨rfl, ⟨i, p, k, rfl, hi, hp, hk⟩, hw⟩
  · exact ⟨rfl, ⟨i, p, none, rfl, hi, hp, fun _ => rfl⟩,
      ((hw.cancel c.id i).log _ _).release c.sequence⟩

theorem entered (h : s.Twin exact g o o' s') : s.entered.Twin exact g o o' s'.entered :=
  ⟨h.context.sync, h.world.enter h.context.sync⟩

theorem forTarget (h : s.Twin exact g o o' s') (target : Action) :
    (s.forTarget target).Twin True g o o' (s'.forTarget target) := by
  obtain ⟨⟨i, p, k, hc, hi, -⟩, hw⟩ := h
  obtain ⟨hitems, hrent⟩ := hw.rent
  obtain ⟨hid, hnew⟩ := hrent.newContext
  refine ⟨⟨_, some i, none, ?_, hid, .some hi, fun _ => rfl⟩, hnew⟩
  rw [State.forTarget, State.forTarget, hitems, hc]
  rfl

theorem look (h : s.Twin exact g o o' s') {next : Context → α}
    (hpending : exact ∨ ∀ k c, next { c with continuation := k } = next c)
    (hnames : g.names ∨ ∀ i p c, next { c with id := i, parent := p } = next c) :
    next s'.context = next s.context := by
  obtain ⟨⟨i, p, k, hc, hi, hp, hk⟩, hw⟩ := h
  have hids : next { s.context with id := i, parent := p } = next s.context := by
    rcases hnames with hn | hnames
    · obtain rfl := hw.unrenamed hn hi
      obtain rfl : p = s.context.parent := eq_of_rel (fun _ _ => hw.unrenamed hn) hp
      rfl
    · exact hnames i p s.context
  rw [hc, ← hids]
  rcases hpending with hexact | hpending
  · rw [hk hexact]
  · exact hpending k { s.context with id := i, parent := p }

end State.Twin

theorem Effect.run_twin {s s' : State} (e : Effect) (he : g.objects ∨ e ≠ .newObject)
    (h : s.Twin exact g o o' s') :
    (e.run s').1 = (e.run s).1 ∧ (e.run s).2.Twin exact g o o' (e.run s').2 := by
  obtain ⟨c, w⟩ := s
  obtain ⟨d, w'⟩ := s'
  have hw : w.Alike g o o' w' := h.world
  obtain ⟨i, p, k, rfl, hi, hp, hk⟩ : c.Like exact (Renames o o') d := h.context
  -- an effect on the source of chance or on the objects
  have hcount {v v' : World} (hv : v.Same g v')
      (hcontexts : v.nextContext = w.nextContext ∧ v'.nextContext = w'.nextContext)
      (hentered : v.entrances = w.entrances ∧ v'.entrances = w'.entrances) :
      State.Twin exact g o o' ⟨c, v⟩ ⟨{ c with id := i, parent := p, continuation := k }, v'⟩ :=
    ⟨⟨i, p, k, rfl, hi, hp, hk⟩, hw.keep hv hcontexts hentered⟩
  cases e with
  | setIndex index =>
    obtain ⟨e, he, he'⟩ | ⟨c', d', hc, hd, hlike⟩ := h.context.setIndex index
    · simp only [Effect.run, he, he']
      exact ⟨rfl, h⟩
    · simp only [Effect.run, hc, hd]
      exact ⟨rfl, hlike, hw⟩
  | setVariable | removeVariable | setActor | remember =>
    exact ⟨rfl, ⟨i, p, k, rfl, hi, hp, hk⟩, hw⟩
  | suspend k' => exact ⟨rfl, ⟨i, p, some k', rfl, hi, hp, fun _ => rfl⟩, hw⟩
  | reset => exact ⟨rfl, ⟨i, p, none, rfl, hi, hp, fun _ => rfl⟩, hw⟩
  | dispose => exact h.dispose
  | cancel => exact ⟨rfl, ⟨i, p, k, rfl, hi, hp, hk⟩, hw.cancel c.id i⟩
  | revoke other =>
    exact ⟨rfl, ⟨i, p, k, rfl, hi, hp, hk⟩, hw.aside (.revoke w other) (.revoke w' other)⟩
  | readSlot | compile => exact ⟨rfl, ⟨i, p, k, rfl, hi, hp, hk⟩, hw.recordCalls _⟩
  | log => exact ⟨rfl, ⟨i, p, k, rfl, hi, hp, hk⟩, hw.log _ _⟩
  | note =>
    exact ⟨rfl, ⟨i, p, k, rfl, hi, hp, hk⟩, hw.aside ⟨_, _, rfl, rfl⟩ ⟨_, _, rfl, rfl⟩⟩
  | throwDice =>
    refine ⟨?_, hcount ⟨hw.dice, ?_, hw.contexts, hw.objects, hw.pool⟩ ⟨rfl, rfl⟩ ⟨rfl, rfl⟩⟩
    · show w'.dice.numbers w'.thrown = w.dice.numbers w.thrown
      rw [hw.dice, hw.thrown]
    · exact congrArg (· + 1) hw.thrown
  | throwFloat low high =>
    refine ⟨?_, hcount ⟨hw.dice, ?_, hw.contexts, hw.objects, hw.pool⟩ ⟨rfl, rfl⟩ ⟨rfl, rfl⟩⟩
    · show (w'.throwFloat low high).1 = (w.throwFloat low high).1
      simp only [World.throwFloat, World.throwDice, hw.dice, hw.thrown]
    · exact congrArg (· + 1) hw.thrown
  | newObject =>
    obtain hobjects := hw.objects (he.resolve_right (not_not_intro rfl))
    refine ⟨?_, hcount ⟨hw.dice, hw.thrown, hw.contexts, fun _ => ?_, hw.pool⟩ ⟨rfl, rfl⟩
      ⟨rfl, rfl⟩⟩
    · exact congrArg (fun n => Handle.made (n + 1)) hobjects
    · exact congrArg (· + 1) hobjects

end

-- ---------------------------------------------------------------------------
-- What handlers do not look at
-- ---------------------------------------------------------------------------

/-- The program sees no difference between a context and what `f` makes of it. -/
def Prog.Overlooks (f : Context → Context) : Prog α → Prop
  | .done _ => True
  | .fail _ => True
  | .panic _ => True
  | .look next => (∀ c, next (f c) = next c) ∧ ∀ c, (next c).Overlooks f
  | .perform _ next => ∀ a, (next a).Overlooks f
  | .block _ _ next => ∀ r, (next r).Overlooks f
  | .each _ _ next => next.Overlooks f

def Prog.Blind (p : Prog α) : Prop := ∀ k, p.Overlooks fun c => { c with continuation := k }

def Prog.Nameless (p : Prog α) : Prop :=
  ∀ i parent, p.Overlooks fun c => { c with id := i, parent := parent }

/-- Nothing changes but identities, a pending continuation and what is remembered. -/
def Incidental (f : Context → Context) : Prop :=
  ∀ c, ∃ i p k m, f c = { c with id := i, parent := p, continuation := k, metadata := m }

namespace Prog

section
variable {f : Context → Context}

theorem Overlooks.bind {p : Prog α} {g : α → Prog β} (hp : p.Overlooks f)
    (hg : ∀ a, (g a).Overlooks f) : (p.bind g).Overlooks f := by
  induction p with
  | done a => exact hg a
  | fail | panic => trivial
  | look next ih => exact ⟨fun c => congrArg (Prog.bind · g) (hp.1 c), fun c => ih c (hp.2 c)⟩
  | perform e next ih => exact fun a => ih a (hp a)
  | block start stop next ih => exact fun r => ih r (hp r)
  | each target actors next ih => exact ih hp

theorem overlooks_ofExcept (r : Except RuntimeError α) : (ofExcept r).Overlooks f := by
  cases r <;> trivial

theorem overlooks_argument (slot : Nat) : (argument slot).Overlooks f :=
  fun r => overlooks_ofExcept r

theorem overlooks_argumentAs (slot : Nat) (read : Value → Except RuntimeError α) :
    (argumentAs slot read).Overlooks f :=
  .bind (overlooks_argument slot) fun _ => overlooks_ofExcept _

theorem overlooks_setIndex (i : Nat) : (setIndex i).Overlooks f := fun r => overlooks_ofExcept r

theorem overlooks_throwDice : throwDice.Overlooks f := fun _ => trivial

theorem overlooks_throwFloat (low high : Float) : (throwFloat low high).Overlooks f := by
  intro r
  cases r <;> trivial

theorem Overlooks.context {g : Context → Prog β} (hf : Incidental f)
    (hg : ∀ c i p k m,
      g { c with id := i, parent := p, continuation := k, metadata := m } = g c)
    (h : ∀ c, (g c).Overlooks f) : (Prog.context.bind g).Overlooks f := by
  refine ⟨fun c => ?_, h⟩
  obtain ⟨i, p, k, m, hc⟩ := hf c
  rw [hc]
  exact hg c i p k m

theorem overlooks_setResult (hf : Incidental f) (v : Value) : (setResult v).Overlooks f :=
  .context hf (fun _ _ _ _ _ => rfl) fun _ _ => trivial

theorem overlooks_remembered {make : Prog α} (hf : ∀ c, (f c).metadata = c.metadata)
    (hmake : make.Overlooks f) : (remembered key pack unpack make).Overlooks f := by
  refine ⟨fun c => ?_, fun c => ?_⟩
  · dsimp only [Prog.bind]
    rw [hf c]
  · dsimp only [Prog.bind]
    split
    · split <;> trivial
    · exact .bind hmake fun a _ => trivial

end

end Prog

namespace Builtin

open Prog

section
variable {f : Context → Context}

theorem overlooks_blockAfter (hf : Incidental f) (count : Nat) :
    (blockAfter count).Overlooks f := by
  refine .context hf (fun _ _ _ _ _ => rfl) fun c => ?_
  dsimp only
  split <;> trivial

theorem overlooks_leaveBlock (hf : Incidental f) (past : Nat) : (leaveBlock past).Overlooks f :=
  .context hf (fun _ _ _ _ _ => rfl) fun _ => overlooks_setIndex _

theorem overlooks_afterBlock (hf : Incidental f) (past : Nat) (stopped : Option Flags) :
    (match stopped with
      | some flags => pure flags
      | none => do leaveBlock past; pure .proceed : Handler).Overlooks f := by
  cases stopped with
  | none => exact .bind (overlooks_leaveBlock hf past) fun _ => trivial
  | some flags => trivial

theorem overlooks_iterate (start past n : Nat) : (iterate start past n).Overlooks f := by
  induction n with
  | zero => trivial
  | succ n ih =>
    intro r
    rcases r with e | _ | flags
    · trivial
    · exact ih
    · trivial

theorem overlooks_draw (items : List Value) (n : Nat) : (draw items n).Overlooks f := by
  induction n generalizing items with
  | zero => trivial
  | succ n ih =>
    intro (throw : Nat)
    dsimp only
    split
    · trivial
    · exact (ih _).bind fun _ => trivial

theorem logWords_like (c : Context) (i : ContextId) (p : Option ContextId)
    (k : Option Continuation) (m : Table Memo) (ts : List Token) :
    logWords { c with id := i, parent := p, continuation := k, metadata := m } ts =
      logWords c ts := by
  induction ts with
  | nil => rfl
  | cons t ts ih =>
    rw [logWords, ih, logWords]
    rfl

theorem overlooks_runFor (hf : Incidental f) (hm : ∀ c, (f c).metadata = c.metadata)
    (actors : List ActorId) : (runFor actors).Overlooks f := by
  refine .bind (.bind (overlooks_argumentAs 1 _) fun name => ⟨fun c => ?_, fun c => ?_⟩)
    fun _ => trivial
  · obtain ⟨i, p, k, m, hc⟩ := hf c
    rw [hc]
    rfl
  · exact overlooks_remembered hm fun r => overlooks_ofExcept _

/-- Only For and ForEach look at what is remembered. -/
theorem handler_overlooks (b : Builtin) (hf : Incidental f)
    (hm : b.HasTarget → ∀ c, (f c).metadata = c.metadata) : b.handler.Overlooks f := by
  cases b with
  | stop => trivial
  | stopIf => exact .bind (overlooks_argumentAs 0 _) fun _ => trivial
  | ifBlock =>
    refine .bind (overlooks_argumentAs 0 _) fun condition =>
      .bind (overlooks_argumentAs 1 _) fun count => .bind (overlooks_blockAfter hf count) ?_
    rintro ⟨start, past⟩
    dsimp only
    split
    · exact .bind (fun r => overlooks_ofExcept r) (overlooks_afterBlock hf past)
    · exact overlooks_afterBlock hf past none
  | repeatBlock =>
    refine .bind (overlooks_argumentAs 0 _) fun amount =>
      .bind (overlooks_argumentAs 1 _) fun offset => .bind (overlooks_argumentAs 2 _) fun delay =>
      .bind (overlooks_blockAfter hf offset) ?_
    rintro ⟨start, past⟩
    dsimp only
    split
    · exact .bind (overlooks_iterate start past amount) (overlooks_afterBlock hf past)
    · exact .bind (overlooks_setIndex past) fun _ _ => trivial
  | forActor =>
    exact .bind (overlooks_argumentAs 0 _) fun _ => overlooks_runFor hf (hm (.inl rfl)) _
  | forEach =>
    exact .bind (overlooks_argumentAs 0 _) fun _ => .bind (overlooks_ofExcept _) fun _ =>
      overlooks_runFor hf (hm (.inr rfl)) _
  | randomInt =>
    refine .bind (overlooks_argumentAs 0 _) fun low =>
      .bind (overlooks_argumentAs 1 _) fun high => ?_
    split
    · trivial
    · exact .bind overlooks_throwDice fun _ => .bind (overlooks_setResult hf _) fun _ => trivial
  | randomFloat =>
    refine .bind (overlooks_argumentAs 0 _) fun low =>
      .bind (overlooks_argumentAs 1 _) fun high => ?_
    split
    · trivial
    · split
      · exact .bind (overlooks_setResult hf _) fun _ => trivial
      · exact .bind (overlooks_throwFloat low high) fun _ =>
          .bind (overlooks_setResult hf _) fun _ => trivial
  | randomElement =>
    refine .bind (overlooks_argumentAs 0 _) fun items => ?_
    split
    · trivial
    · refine .bind overlooks_throwDice fun n => ?_
      split
      · trivial
      · exact .bind (overlooks_setResult hf _) fun _ => trivial
  | selectDistinct =>
    refine .bind (overlooks_argumentAs 0 _) fun items =>
      .bind (overlooks_argumentAs 1 _) fun count => ?_
    split
    · trivial
    · exact .bind (overlooks_draw items count) fun _ =>
        .bind (overlooks_setResult hf _) fun _ => trivial
  | isEqualTo =>
    exact .bind (overlooks_argument 0) fun _ => .bind (overlooks_argument 1) fun _ =>
      .bind (overlooks_setResult hf _) fun _ => trivial
  | negate =>
    exact .bind (overlooks_argumentAs 0 _) fun _ =>
      .bind (overlooks_setResult hf _) fun _ => trivial
  | store =>
    exact .bind (overlooks_argument 0) fun _ => .bind (overlooks_setResult hf _) fun _ => trivial
  | log =>
    refine .bind (overlooks_argumentAs 0 _) fun first => .context hf (fun c i p k m => ?_) fun c =>
      .bind (overlooks_ofExcept _) fun _ _ => trivial
    dsimp only
    rw [logWords_like]

end

end Builtin

/-- What a program makes use of is the same in states that are twins. -/
structure Prog.Suits (exact : Prop) (g : Accord) (p : Prog α) : Prop where
  pending : exact ∨ p.Blind
  names : g.names ∨ p.Nameless
  objects : g.objects ∨ p.Within (· ≠ .newObject) True True

theorem Builtin.handler_suits (b : Builtin) : b.handler.Suits exact g where
  pending := .inr fun k =>
    b.handler_overlooks (fun c => ⟨c.id, c.parent, k, c.metadata, rfl⟩) fun _ _ => rfl
  names := .inr fun i p =>
    b.handler_overlooks (fun c => ⟨i, p, c.continuation, c.metadata, rfl⟩) fun _ _ => rfl
  objects := .inr <| b.handler_needs.mono (fun e he heq => by subst heq; exact he.elim)
    (fun _ => trivial) fun _ => trivial

namespace Prog.Suits

variable {exact : Prop} {g : Accord}

theorem look {next : Context → Prog α} (h : (Prog.look next).Suits exact g) (c : Context) :
    (next c).Suits exact g :=
  ⟨h.pending.imp id fun h k => (h k).2 c, h.names.imp id fun h i p => (h i p).2 c,
    h.objects.imp id fun h => h c⟩

theorem perform {e : Effect} {next : e.Answer → Prog α} (h : (Prog.perform e next).Suits exact g)
    (a : e.Answer) : (next a).Suits exact g :=
  ⟨h.pending.imp id fun h k => h k a, h.names.imp id fun h i p => h i p a,
    h.objects.imp id fun h => h.2 a⟩

theorem block {next : BlockEnd → Prog α} (h : (Prog.block start stop next).Suits exact g)
    (b : BlockEnd) : (next b).Suits exact g :=
  ⟨h.pending.imp id fun h k => h k b, h.names.imp id fun h i p => h i p b,
    h.objects.imp id fun h => h.2 b⟩

theorem each {next : Prog α} (h : (Prog.each target actors next).Suits exact g) :
    next.Suits exact g :=
  ⟨h.pending.imp id fun h k => h k, h.names.imp id fun h i p => h i p,
    h.objects.imp id fun h => h.2⟩

end Prog.Suits

def Handlers.Blind (handlers : Handlers) : Prop := ∀ name, (handlers name).Blind

/-- The handlers of the host look at a pending continuation, look at identities and make objects
only where twins agree in these. -/
structure Handlers.Suit (exact : Prop) (g : Accord) (handlers : Handlers) : Prop where
  pending : exact ∨ handlers.Blind
  names : g.names ∨ ∀ name, (handlers name).Nameless
  objects : g.objects ∨ ∀ name, (handlers name).Within (· ≠ .newObject) True True

theorem Handlers.Suit.handler {handlers : Handlers} (h : handlers.Suit exact g) (b : Behaviour) :
    (b.handler handlers).Suits exact g := by
  cases b with
  | builtin b => exact b.handler_suits
  | host name =>
    exact ⟨h.pending.imp id (· name), h.names.imp id (· name), h.objects.imp id (· name)⟩
  | idle => exact ⟨.inr fun _ => trivial, .inr fun _ _ => trivial, .inr trivial⟩

-- ---------------------------------------------------------------------------
-- Lockstep
-- ---------------------------------------------------------------------------

def Locked (exact : Prop) (g : Accord) (o o' : World) (f : Stepper) : Prop :=
  ∀ s s', s.Twin exact g o o' s' → Agree exact g o o' (f s) (f s')

section
variable {exact : Prop} {g : Accord} {o o' : World} {s s' : State}

theorem Agree.some {t t' : State} (x : α) (h : t.Twin exact g o o' t') :
    Agree exact g o o' (some (x, t)) (some (x, t')) :=
  Option.Rel.some ⟨rfl, h⟩

theorem Agree.none : Agree exact g o o' (none : Option (α × State)) none := Option.Rel.none

theorem Agree.cases {x x' : Option (α × State)} (h : Agree exact g o o' x x') :
    (x = .none ∧ x' = .none) ∨
      ∃ a t t', x = .some (a, t) ∧ x' = .some (a, t') ∧ t.Twin exact g o o' t' := by
  cases h with
  | none => exact .inl ⟨rfl, rfl⟩
  | @some r r' h =>
    obtain ⟨ha, ht⟩ := h
    exact .inr ⟨r.1, r.2, r'.2, rfl, congrArg (fun a => Option.some (a, r'.2)) ha, ht⟩

/-- Programs whose nested runs are in lockstep are so themselves. -/
theorem Prog.exec_agree (nested : Nested) {p : Prog α} (hp : p.Suits exact g)
    (hblock : ∀ start stop s s', s.Twin exact g o o' s' →
      Agree exact g o o' (nested.block start stop s) (nested.block start stop s'))
    (heach : ∀ target actors s s', s.Twin exact g o o' s' →
      Option.Rel (State.Twin exact g o o') (nested.each target actors s)
        (nested.each target actors s'))
    (h : s.Twin exact g o o' s') : Agree exact g o o' (p.exec nested s) (p.exec nested s') := by
  induction p generalizing s s' with
  | done a => exact .some _ h
  | fail e => exact .some _ h
  | panic m => exact .some _ h
  | look next ih =>
    have hnext : next s'.context = next s.context :=
      h.look (hp.pending.imp id fun hp k => (hp k).1) (hp.names.imp id fun hp i p => (hp i p).1)
    simp only [exec, hnext]
    exact ih _ (hp.look s.context) h
  | perform e next ih =>
    obtain ⟨hanswer, htwin⟩ := e.run_twin (hp.objects.imp id And.left) h
    simp only [exec, hanswer]
    exact ih _ (hp.perform _) htwin
  | block start stop next ih =>
    obtain ⟨hx, hx'⟩ | ⟨b, t, t', hx, hx', ht⟩ := (hblock start stop s s' h).cases
    · simp only [exec, hx, hx']
      exact .none
    · simp only [exec, hx, hx']
      exact ih _ (hp.block b) ht
  | each target actors next ih =>
    simp only [exec]
    have he := heach target actors s s' h
    generalize nested.each target actors s = x, nested.each target actors s' = x' at he
    cases he with
    | none => exact .none
    | some ht => exact ih hp.each ht

theorem settle_twin (h : s.Twin exact g o o' s') (entry : Nat) (flags : Flags) :
    (settle entry flags s').1 = (settle entry flags s).1 ∧
      (settle entry flags s).2.Twin exact g o o' (settle entry flags s').2 := by
  unfold settle
  rw [h.context.index]
  split
  · exact ⟨rfl, h⟩
  · split
    · exact ⟨rfl, h⟩
    · split
      · obtain ⟨e, he, he'⟩ | ⟨c, d, hc, hd, hlike⟩ := h.context.setIndex (entry + 1)
        · simp only [he, he']
          exact ⟨trivial, h⟩
        · simp only [hc, hd]
          exact ⟨trivial, hlike, h.world⟩
      · exact ⟨rfl, h⟩

theorem answer_agree (h : s.Twin exact g o o' s') (entry : Nat) (a : Action) (x : Ending Flags) :
    Agree exact g o o' (some (x.answer entry a s)) (some (x.answer entry a s')) := by
  cases x with
  | value flags => exact Option.Rel.some (settle_twin h entry flags)
  | error e => exact .some _ h
  | panic m => exact .some _ h

section
variable {f : Stepper}

theorem blockLoop_locked (hf : Locked exact g o o' f) (h : s.Twin exact g o o' s') :
    Agree exact g o o' (blockLoop f stop n s) (blockLoop f stop n s') := by
  induction n generalizing s s' with
  | zero => exact .none
  | succ n ih =>
    simp only [blockLoop, h.context.index]
    split
    · obtain ⟨hx, hx'⟩ | ⟨y, t, t', hx, hx', ht⟩ := (hf s s' h).cases
      · simp only [hx, hx']
        exact .none
      · simp only [hx, hx']
        cases y with
        | error e => exact .some _ ht
        | ok flags =>
          dsimp only
          split
          · exact .some _ ht
          · exact ih ht
    · exact .some _ h

theorem blockWith_locked (hf : Locked exact g o o' f) (start stop : Nat)
    (h : s.Twin exact g o o' s') :
    Agree exact g o o' (blockWith f n start stop s) (blockWith f n start stop s') := by
  unfold blockWith
  rw [h.context.len]
  split
  · have herror : s'.context.outOfBounds stop = s.context.outOfBounds stop := by
      obtain ⟨⟨i, p, k, hc, -⟩, -⟩ := h
      rw [hc]
      rfl
    rw [herror]
    exact .some _ h
  · obtain ⟨e, he, he'⟩ | ⟨c, d, hc, hd, hlike⟩ := h.context.setIndex start
    · simp only [he, he']
      exact .some _ h
    · simp only [hc, hd]
      exact blockLoop_locked hf ⟨hlike, h.world⟩

-- A whole run says whether a continuation is pending in the end, so that from here on contexts
-- agree in it. They do in sub-dispatch: a sub-context starts without a continuation.

theorem driveLoop_locked (hf : Locked True g o o' f) (release : Bool) (h : s.Twin True g o o' s') :
    Agree True g o o' (driveLoop f release n s) (driveLoop f release n s') := by
  induction n generalizing s s' with
  | zero => exact .none
  | succ n ih =>
    have hfinished : s'.context.isFinished = s.context.isFinished := by
      rw [Context.isFinished, Context.isFinished, h.context.len, h.context.index]
    simp only [driveLoop, hfinished]
    split
    · exact .some _ ⟨h.context, h.world.log _ _⟩
    · obtain ⟨hx, hx'⟩ | ⟨y, t, t', hx, hx', ht⟩ := (hf s s' h).cases
      · simp only [hx, hx']
        exact .none
      · simp only [hx, hx']
        cases y with
        | error e =>
          have hlog : State.Twin True g o o'
              { t with world := t.world.log (failureEntry t.context e) }
              { t' with world := t'.world.log (failureEntry t'.context e) } :=
            ⟨ht.context, ht.world.log _ _⟩
          cases release with
          | false => exact .some _ hlog
          | true => exact .some _ hlog.dispose.2
        | ok flags =>
          have hsuspended : t'.context.isSuspended = t.context.isSuspended := by
            obtain ⟨i, p, k, hc, -, -, hk⟩ := ht.context
            rw [hc, Context.isSuspended, Context.isSuspended, hk trivial]
          dsimp only
          rw [hsuspended]
          split
          · split
            · exact .some _ ht.dispose.2
            · split <;> exact .some _ ht
          · exact ih ht

theorem driveWith_locked (hf : Locked True g o o' f) (release : Bool) (h : s.Twin True g o o' s') :
    Agree True g o o' (driveWith f n release s) (driveWith f n release s') := by
  have hdisposed : s'.context.disposed = s.context.disposed := by
    obtain ⟨i, p, k, hc, -⟩ := h.context
    rw [hc]
  simp only [driveWith, hdisposed]
  split
  · exact .some _ h
  · exact driveLoop_locked hf release h

theorem visitAll_locked (hf : Locked True g o o' f) (parent parent' : Context)
    (actors : List ActorId) (h : s.Twin True g o o' s') :
    Option.Rel (State.Twin True g o o') (visitAll f n parent actors s)
      (visitAll f n parent' actors s') := by
  induction actors generalizing s s' with
  | nil => exact .some h
  | cons actor actors ih =>
    simp only [visitAll]
    have hreset := ((Effect.reset (some actor)).run_twin (.inr (by simp)) h).2
    obtain ⟨hx, hx'⟩ | ⟨outcome, t, t', hx, hx', ht⟩ :=
      (driveWith_locked (n := n) hf false hreset).cases <;> simp only [Effect.run] at hx hx'
    · simp only [hx, hx']
      exact .none
    · simp only [hx, hx']
      exact ih ⟨ht.context, ht.world.aside (.logged _ _) (.logged _ _)⟩

theorem eachWith_locked (hf : Locked True g o o' f) (target : Action) (actors : List ActorId)
    (h : s.Twin exact g o o' s') :
    Option.Rel (State.Twin exact g o o') (eachWith f n target actors s)
      (eachWith f n target actors s') := by
  have hv := visitAll_locked (n := n) hf s.context s'.context actors (h.forTarget target)
  rw [eachWith_eq, eachWith_eq]
  generalize visitAll f n s.context actors (s.forTarget target) = x,
    visitAll f n s'.context actors (s'.forTarget target) = x' at hv
  cases hv with
  | none => exact .none
  | some ht => exact .some ⟨h.context, ht.dispose.2.world⟩

end

theorem Handlers.Suit.exactly {handlers : Handlers} (h : handlers.Suit exact g) :
    handlers.Suit True g :=
  { h with pending := .inl trivial }

theorem step_locked {handlers : Handlers} (h : handlers.Suit exact g) (n : Nat) :
    Locked exact g o o' (step handlers n) := by
  induction n generalizing exact with
  | zero => exact fun _ _ _ => .none
  | succ n ih =>
    intro s s' hs
    simp only [step]
    cases ha : s.context.actions[s.context.index]? with
    | none =>
      have ha' : s'.context.actions[s'.context.index]? = none := by
        rw [hs.context.actions, hs.context.index, ha]
      rw [dispatch_none ha, dispatch_none ha']
      exact .some _ ⟨hs.context.sync, hs.world⟩
    | some a =>
      have ha' : s'.context.actions[s'.context.index]? = some a := by
        rw [hs.context.actions, hs.context.index, ha]
      rw [dispatch_some ha, dispatch_some ha', hs.context.index]
      have hrun := Prog.exec_agree (.ofStepper (step handlers n) n)
        (h.handler a.definition.behaviour)
        (fun start stop s s' hs => blockWith_locked (n := n) (ih h) start stop hs)
        (fun target actors s s' hs => eachWith_locked (n := n) (ih h.exactly) target actors hs)
        hs.entered
      obtain ⟨hx, hx'⟩ | ⟨y, t, t', hx, hx', ht⟩ := hrun.cases
      · rw [hx, hx']
        exact .none
      · rw [hx, hx']
        exact answer_agree ht s.context.index a y

theorem block_locked {handlers : Handlers} (h : handlers.Suit exact g) (start stop : Nat)
    (hs : s.Twin exact g o o' s') :
    Agree exact g o o' (runBlock handlers n start stop s) (runBlock handlers n start stop s') :=
  blockWith_locked (step_locked h n) start stop hs

end

end Playbook
