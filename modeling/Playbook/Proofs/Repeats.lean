import Mathlib.Data.List.Forall2
import Playbook.Proofs.Cursor
import Playbook.Proofs.Lockstep
import Playbook.Proofs.Timelines

/-!
# Repeat with a delay and without

Without a delay, Repeat runs the iterations of its block one after the other, in place. With
one it parks them, and a scheduler runs them as the rounds of a loop. The rounds are the
iterations (`Course.mirrored`): they enter the same handlers, end in the same way and leave
the context as the iterations do, up to the round that ends the loop, as long as nobody else
throws the dice between rounds (`Undisturbed`). Handlers that look at the identities of contexts
or make objects need these to be undisturbed as well. Parking replaces a continuation that was
pending before, so handlers that look for one may tell the rounds from iterations in place
(`repeat_out_of_step`).
-/

namespace Playbook

-- ---------------------------------------------------------------------------
-- Iterations in place
-- ---------------------------------------------------------------------------

def Iteration.onward (i : Iteration) : Option State :=
  match i.ended with
  | .ok none => some i.after
  | _ => none

/-- The iterations of a block in place, each from where the one before it ended, and the state
from which the next one starts, unless one has stopped or failed. -/
inductive Iterated (handlers : Handlers) (start past : Nat) (s : State) :
    List Iteration → Option State → Prop
  | initial : Iterated handlers start past s [] (some s)
  | next {i : Iteration} : Iterated handlers start past s is (some i.before) →
      Eventually (fun n => runBlock handlers n start past) i.before (i.ended, i.after) →
      Iterated handlers start past s (is ++ [i]) i.onward

theorem Iteration.onward_eq_some {i : Iteration} :
    i.onward = some u ↔ i.ended = .ok none ∧ i.after = u := by
  unfold onward
  rcases i.ended with e | _ | flags <;> simp

section
variable {handlers : Handlers}

/-- Where the cursor is in front of a block in range does not matter. -/
theorem runBlock_moveTo {s : State} (hstart : start ≤ past) (hpast : past ≤ s.context.len)
    (i : Nat) :
    runBlock handlers n start past (s.moveTo i) = runBlock handlers n start past s := by
  have hmoved : past ≤ (s.moveTo i).context.len := hpast
  rw [runBlock, runBlock, blockWith_in_range hstart hpast, blockWith_in_range hstart hmoved]
  rfl

theorem runBlock_past (h : runBlock handlers n start past s = some (.ok none, t)) :
    past ≤ t.context.index := by
  by_cases hrange : past < start ∨ s.context.len < past
  · simp [runBlock, blockWith, hrange] at h
  · rw [runBlock, blockWith_in_range (by omega) (by omega)] at h
    exact (halts_of_blockLoop h).stop_le

theorem Iterated.in_range (h : Iterated handlers start past s is onward) (ho : onward = some u)
    (hs : s.context.index ≤ s.context.len) (hpast : past ≤ s.context.len) :
    u.context.index ≤ u.context.len ∧ past ≤ u.context.len := by
  induction h generalizing u with
  | initial =>
    cases ho
    exact ⟨hs, hpast⟩
  | next _ hrun ih =>
    obtain ⟨hended, rfl⟩ := Iteration.onward_eq_some.mp ho
    obtain ⟨n, hn⟩ := hrun
    rw [hended] at hn
    have hindex := (bounded_pervades handlers).block hn (ih rfl).1
    exact ⟨hindex, Nat.le_trans (runBlock_past hn) hindex⟩

def BlockEnd.answer : BlockEnd → Ending Flags
  | .error e => .error e
  | .ok (some flags) => .value flags
  | .ok none => .value .proceed

abbrev Runs (handlers : Handlers) (p : Prog α) (s : State) (r : Ending α × State) : Prop :=
  Eventually (fun n => p.exec (.ofStepper (step handlers n) n)) s r

theorem runs_iterate_last
    (h : Eventually (fun n => runBlock handlers n start past) s (b, t))
    (hlast : b = .ok none → m = 0) :
    Runs handlers (Builtin.iterate start past (m + 1)) s (.ofExcept b, t) := by
  refine Prog.eventually_block h ⟨0, ?_⟩
  rcases b with e | _ | flags
  · rfl
  · rw [hlast rfl]
    rfl
  · rfl

theorem Iterated.runs_iterate (h : Iterated handlers start past s is onward)
    (ho : onward = some u) (hrest : Runs handlers (Builtin.iterate start past m) u r) :
    Runs handlers (Builtin.iterate start past (is.length + m)) s r := by
  induction h generalizing u m with
  | initial =>
    cases ho
    simpa using hrest
  | @next is i _ hrun ih =>
    obtain ⟨hended, rfl⟩ := Iteration.onward_eq_some.mp ho
    rw [hended] at hrun
    have hnext : Runs handlers (Builtin.iterate start past (m + 1)) i.before r :=
      Prog.eventually_block hrun hrest
    have hlength : (is ++ [i]).length + m = is.length + (m + 1) := by
      simp only [List.length_append, List.length_singleton]
      omega
    rw [hlength]
    exact ih rfl hnext

/-- A Repeat without a delay goes through its iterations and answers as the last one says. The
cursor is behind the block already. -/
theorem Iterated.runs_repeating {i : Iteration}
    (h : Iterated handlers start past s is (some i.before))
    (hrun : Eventually (fun n => runBlock handlers n start past) i.before (i.ended, i.after))
    (hamount : is.length < amount) (hlast : i.ended = .ok none → is.length + 1 = amount)
    (hs : s.context.index ≤ s.context.len) (hpast : past ≤ s.context.len) :
    Runs handlers (Builtin.repeating start past amount 0) s (BlockEnd.answer i.ended, i.after) := by
  have hiterate : Runs handlers (Builtin.iterate start past amount) s
      (.ofExcept i.ended, i.after) := by
    have hrest := runs_iterate_last (m := amount - is.length - 1) hrun fun hended => by
      have := hlast hended
      omega
    have hall := h.runs_iterate rfl hrest
    rwa [show is.length + (amount - is.length - 1 + 1) = amount by omega] at hall
  obtain ⟨n, hn⟩ := hiterate
  refine ⟨n, ?_⟩
  simp only [Builtin.repeating, true_or, ↓reduceIte, Prog.exec_bind, hn]
  cases hended : i.ended with
  | error e => rfl
  | ok stopped =>
    cases stopped with
    | some flags => rfl
    | none =>
      have hreached := (Iterated.next h hrun).in_range (Iteration.onward_eq_some.mpr ⟨hended, rfl⟩)
        hs hpast
      obtain ⟨m, hm⟩ := hrun
      rw [hended] at hm
      have hmax : max past i.after.context.index = i.after.context.index :=
        Nat.max_eq_right (runBlock_past hm)
      have hleave := exec_leaveBlock (.ofStepper (step handlers n) n) past i.after
      rw [hmax] at hleave
      exact hleave hreached.1

end

-- ---------------------------------------------------------------------------
-- Rounds as iterations
-- ---------------------------------------------------------------------------

def lastWorld (w : World) (rs : List Round) : World :=
  match rs.getLast? with
  | none => w
  | some r => r.after.world

/-- Between the world and the first round, and between rounds, the dice stay as they are, and
whatever else `g` asks for. -/
def Undisturbed (g : Accord) (w : World) (rs : List Round) : Prop :=
  ∀ before r, before ++ [r] <+: rs → (lastWorld w before).Same g r.before.world

theorem undisturbed_nil (w : World) : Undisturbed g w [] := by
  intro before r h
  simp at h

theorem undisturbed_concat {r : Round} :
    Undisturbed g w (rs ++ [r]) ↔ Undisturbed g w rs ∧ (lastWorld w rs).Same g r.before.world := by
  constructor
  · intro h
    exact ⟨fun before r' hpre => h before r' (hpre.trans (List.prefix_append _ _)),
      h rs r (List.prefix_refl _)⟩
  · rintro ⟨h, hr⟩ before r' hpre
    rcases List.prefix_concat_iff.mp hpre with heq | hpre
    · obtain ⟨rfl, rfl⟩ := List.append_singleton_inj.mp heq
      exact hr
    · exact h before r' hpre

/-- A round is an iteration: it ends in the same way, leaves the same context but for a pending
continuation, and the same handlers are entered in it, for contexts that are the same or are made
at the same place. -/
structure Round.Mirrors (r : Round) (i : Iteration) : Prop where
  ended : r.ended = i.ended
  context : r.after.context.bare = i.after.context.bare
  entered : ∃ news news', i.after.world.entrances = news ++ i.before.world.entrances ∧
    r.after.world.entrances = news' ++ r.before.world.entrances ∧
    List.Forall₂ (Context.Like False (Renames i.before.world r.before.world)) news news'

theorem exists_twin_of_agree {x : Option (α × State)}
    (h : Agree exact g o o' x (some (a, t'))) : ∃ t, x = some (a, t) ∧ t.Twin exact g o o' t' := by
  obtain ⟨-, hx'⟩ | ⟨b, t, u, hx, hx', ht⟩ := h.cases
  · cases hx'
  · cases hx'
    exact ⟨t, hx, ht⟩

theorem Agree.exists_iff {x x' : Option (α × State)} (h : Agree exact g o o' x x') :
    (∃ r, x' = Option.some r) ↔ ∃ r, x = Option.some r := by
  cases h with
  | none => rfl
  | some => simp

section
variable {handlers : Handlers} {exact : Prop} {g : Accord}

theorem runBlock_mirrors {u s : State} (hsuit : handlers.Suit exact g) (hstart : start ≤ past)
    (hpast : past ≤ u.context.len)
    (hcontext : u.context.Like exact Eq { s.context with index := u.context.index })
    (hworld : u.world.Same g s.world) :
    Agree exact g u.world s.world (runBlock handlers n start past u)
      (runBlock handlers n start past s) := by
  have htwin : u.Twin exact g u.world s.world (s.moveTo u.context.index) :=
    ⟨hcontext.mono id fun _ _ h => .inl h.symm, hworld, Nat.le_refl _, Nat.add_comm _ _,
      [], [], rfl, rfl, .nil⟩
  have hlen : past ≤ s.context.len := htwin.context.len ▸ hpast
  rw [← runBlock_moveTo hstart hlen u.context.index]
  exact block_locked hsuit start past htwin

structure Mirrored (handlers : Handlers) (exact : Prop) (g : Accord) (start past : Nat) (t : State)
    (rs : List Round) (kept : Option Loop) (is : List Iteration) (onward : Option State) :
    Prop where
  iterated : Iterated handlers start past t is onward
  rounds : List.Forall₂ Round.Mirrors rs is
  goesOn : ∀ l, kept = some l → ∃ u, onward = some u ∧
    u.context.Like exact Eq { l.context with index := u.context.index } ∧
    u.world.Same g (lastWorld t.world rs)

/-- Twins that two runs of a block have led to are the same context if they started from one. -/
theorem State.Twin.same {u v s s' : State} (h : v.Twin exact g o o' s')
    (hu : runBlock handlers n start past u = some (b, v))
    (hs : runBlock handlers m start past s = some (b', s'))
    (hcontext : u.context.Like exact Eq { s.context with index := u.context.index }) :
    v.context.Like exact Eq s'.context := by
  have hbare := (Context.Like.same_iff.mp hcontext).1
  have hv := (grows_pervades handlers).block hu
  have hs' := (grows_pervades handlers).block hs
  have hid : s.context.id = u.context.id := (congrArg Context.id hbare :)
  have hparent : s.context.parent = u.context.parent := (congrArg Context.parent hbare :)
  exact h.context.same (by rw [hv.id, hs'.id, hid]) (by rw [hv.parent, hs'.parent, hparent])

theorem Course.mirrored {t : State} (h : Course handlers l₀ rs kept)
    (hsuit : handlers.Suit exact g)
    (hcontext : t.context.Like exact Eq { l₀.context with index := t.context.index })
    (hstart : l₀.continuation.start ≤ l₀.continuation.stop)
    (hindex : t.context.index ≤ t.context.len) (hpast : l₀.continuation.stop ≤ t.context.len)
    (hund : Undisturbed g t.world rs) :
    ∃ is onward, Mirrored handlers exact g l₀.continuation.start l₀.continuation.stop t rs kept is
      onward := by
  induction h with
  | start =>
    refine ⟨[], some t, .initial, .nil, ?_⟩
    rintro l ⟨⟩
    exact ⟨t, rfl, hcontext, .refl _⟩
  | @round rs l n r hc _ hbefore hb hevent ih =>
    obtain ⟨hund, hsame⟩ := undisturbed_concat.mp hund
    obtain ⟨is, onward, hm⟩ := ih hund
    obtain ⟨u, rfl, hlike, hworld⟩ := hm.goesOn l rfl
    rw [← hbefore] at hlike
    rw [hc.continuation_eq rfl] at hb
    obtain ⟨-, hrange⟩ := hm.iterated.in_range rfl hindex hpast
    have hagree := runBlock_mirrors (n := n) (s := r.before) hsuit hstart hrange hlike
      (hworld.trans hsame)
    rw [hb] at hagree
    obtain ⟨v, hv, htwin⟩ := exists_twin_of_agree hagree
    have hafter := htwin.same hv hb hlike
    let i : Iteration := ⟨u, r.ended, v⟩
    have hnext : Iterated handlers _ _ t (is ++ [i]) i.onward :=
      .next (i := i) hm.iterated ⟨n, hv⟩
    have hmirrors : r.Mirrors i :=
      ⟨rfl, (Context.Like.same_iff.mp hafter).1, htwin.world.entered⟩
    refine ⟨is ++ [i], i.onward, hnext, List.rel_append hm.rounds (.cons hmirrors .nil), ?_⟩
    intro l' hl'
    obtain ⟨hran, rfl⟩ := Round.next_eq_some hl'
    obtain ⟨hended, -⟩ := Scheduler.conclude_eq_ran.mp (hevent.symm.trans hran)
    refine ⟨v, Iteration.onward_eq_some.mpr ⟨hended, rfl⟩, ?_, ?_⟩
    · rw [← htwin.context.index]
      exact hafter
    · simp only [lastWorld, List.getLast?_concat]
      exact htwin.world.toSame

theorem Mirrored.last {r : Round} (h : Mirrored handlers exact g start past t rs kept is onward)
    (hr : rs.getLast? = some r) :
    ∃ is' i, Iterated handlers start past t is' (some i.before) ∧
      Eventually (fun n => runBlock handlers n start past) i.before (i.ended, i.after) ∧
      r.Mirrors i ∧ is'.length + 1 = rs.length := by
  have hlength := h.rounds.length_eq
  have hreverse := List.rel_reverse h.rounds
  rw [← List.head?_reverse] at hr
  cases h.iterated with
  | initial =>
    obtain rfl := List.eq_nil_of_length_eq_zero hlength
    cases hr
  | @next is' i hiter hrun =>
    rw [List.reverse_append] at hreverse
    generalize rs.reverse = rev at hr hreverse
    cases hreverse with
    | cons hmirrors _ =>
      cases hr
      exact ⟨is', i, hiter, hrun, hmirrors, by simpa using hlength.symm⟩

theorem Mirrored.ends_iff {l : Loop} (h : Mirrored handlers exact g start past t rs kept is onward)
    (hsuit : handlers.Suit exact g) (hstart : start ≤ past)
    (hindex : t.context.index ≤ t.context.len) (hpast : past ≤ t.context.len)
    (hl : kept = some l) :
    ∃ u, onward = some u ∧ ∀ w, (lastWorld t.world rs).Same g w →
      ((∃ r, Eventually (fun n => runBlock handlers n start past) ⟨l.context, w⟩ r) ↔
        ∃ r, Eventually (fun n => runBlock handlers n start past) u r) := by
  obtain ⟨u, rfl, hlike, hworld⟩ := h.goesOn l hl
  refine ⟨u, rfl, ?_⟩
  intro w hw
  obtain ⟨-, hrange⟩ := h.iterated.in_range rfl hindex hpast
  have hagree := fun n => runBlock_mirrors (n := n) (s := ⟨l.context, w⟩) hsuit hstart hrange
    hlike (hworld.trans hw)
  constructor
  · rintro ⟨r, n, hn⟩
    obtain ⟨r', hr'⟩ := (hagree n).exists_iff.mp ⟨r, hn⟩
    exact ⟨r', n, hr'⟩
  · rintro ⟨r, n, hn⟩
    obtain ⟨r', hr'⟩ := (hagree n).exists_iff.mpr ⟨r, hn⟩
    exact ⟨r', n, hr'⟩

/-- A Repeat in place ends with the answer of the last round, if no iterations are left after
it. -/
theorem Mirrored.answer_iff {r : Round}
    (h : Mirrored handlers exact g start past t rs kept is onward)
    (hindex : t.context.index ≤ t.context.len) (hpast : past ≤ t.context.len)
    (hr : rs.getLast? = some r) (hlength : rs.length ≤ amount)
    (hended : r.ended = .ok none → rs.length = amount) (x : Ending Flags) :
    (∃ v, Runs handlers (Builtin.repeating start past amount 0) t (x, v)) ↔
      x = BlockEnd.answer r.ended := by
  obtain ⟨is', i, hiter, hrun, hmirrors, hlen⟩ := h.last hr
  rw [hmirrors.ended] at hended ⊢
  have hruns := hiter.runs_repeating hrun (by omega) (fun h => hlen.trans (hended h)) hindex hpast
  constructor
  · rintro ⟨v, hv⟩
    exact congrArg Prod.fst (hv.unique (Prog.exec_stable handlers _) hruns)
  · rintro rfl
    exact ⟨_, hruns⟩

end

-- ---------------------------------------------------------------------------
-- How loops end
-- ---------------------------------------------------------------------------

theorem conclude_eq_failed {k : Continuation} {b : BlockEnd} :
    (Scheduler.conclude k b).1 = .failed ↔ ∃ e, b = .error e := by
  rcases b with e | _ | flags
  · simp [Scheduler.conclude]
  · simp only [Scheduler.conclude]
    split <;> simp
  · simp [Scheduler.conclude]

theorem conclude_eq_stopped {k : Continuation} {b : BlockEnd} :
    (Scheduler.conclude k b).1 = .stopped ↔ ∃ flags, b = .ok (some flags) := by
  rcases b with e | _ | flags
  · simp [Scheduler.conclude]
  · simp only [Scheduler.conclude]
    split <;> simp
  · simp [Scheduler.conclude]

theorem Course.event_eq {r : Round} (h : Course handlers l₀ rs kept) (hr : rs[i]? = some r) :
    r.event = (Scheduler.conclude
      { l₀.continuation with remaining := l₀.continuation.remaining - i } r.ended).1 := by
  induction h with
  | start => simp at hr
  | @round rs l n r' hc _ _ _ hevent ih =>
    rcases Nat.lt_or_ge i rs.length with hi | hi
    · rw [List.getElem?_append_left hi] at hr
      exact ih hr
    · obtain ⟨rfl, rfl⟩ : i = rs.length ∧ r' = r := by
        rw [List.getElem?_append_right hi] at hr
        have hzero : i - rs.length = 0 := by
          by_contra hne
          simp [hne] at hr
        exact ⟨by omega, by simpa [hzero] using hr⟩
      rw [hevent, hc.continuation_eq rfl]

theorem Course.length_le (h : Course handlers l₀ rs kept)
    (hpos : 1 ≤ l₀.continuation.remaining) :
    rs.length ≤ l₀.continuation.remaining ∧
      ∀ l, kept = some l → rs.length < l₀.continuation.remaining := by
  induction h with
  | start => exact ⟨Nat.zero_le _, fun _ _ => hpos⟩
  | @round rs l n r hc _ _ _ hevent ih =>
    have hlt := ih.2 l rfl
    simp only [List.length_append, List.length_singleton]
    refine ⟨hlt, ?_⟩
    intro l' hl'
    obtain ⟨hran, -⟩ := Round.next_eq_some hl'
    obtain ⟨-, hleft⟩ := Scheduler.conclude_eq_ran.mp (hevent.symm.trans hran)
    simp only [hc.continuation_eq rfl] at hleft
    omega

/-- The rounds `rs` of a loop go with the iterations that a Repeat in place makes from the
state `t`. -/
structure InStep (handlers : Handlers) (g : Accord) (start past amount delay : Nat) (t : State)
    (sched : Scheduler) (id : LoopId) (rs : List Round) : Prop where
  iterations : ∃ is onward, Iterated handlers start past t is onward ∧
    List.Forall₂ Round.Mirrors rs is ∧
    -- while the loop is scheduled, its next round ends if the next iteration does
    ∀ l ∈ sched.loops, l.id = id →
      l.continuation = ⟨start, past, amount - rs.length, delay⟩ ∧
      ∃ u, onward = some u ∧ ∀ w, (lastWorld t.world rs).Same g w →
        ((∃ r, Eventually (fun n => runBlock handlers n start past) ⟨l.context, w⟩ r) ↔
          ∃ r, Eventually (fun n => runBlock handlers n start past) u r)
  length : rs.length ≤ amount
  events : ∀ i r, rs[i]? = some r →
    (r.event = .failed ↔ ∃ e, r.ended = .error e) ∧
    (r.event = .stopped ↔ ∃ flags, r.ended = .ok (some flags)) ∧
    (r.event = .finished ↔ r.ended = .ok none ∧ i + 1 = amount) ∧
    (r.event = .ran ↔ r.ended = .ok none ∧ i + 1 < amount)
  outcome : ∀ r, rs.getLast? = some r → r.event ≠ .ran → ∀ x,
    (∃ v, Runs handlers (Builtin.repeating start past amount 0) t (x, v)) ↔
      x = BlockEnd.answer r.ended

section
variable {handlers : Handlers}

theorem inStep_of_course {t : State} {sched : Scheduler} {id : LoopId}
    (h : Course handlers l₀ rs kept)
    (hkept : ∀ l ∈ sched.loops, l.id = id → kept = some l)
    (hsuit : handlers.Suit (t.context.continuation = none) g)
    (hcontext : { l₀.context with index := t.context.index } = t.context.bare)
    (hk : l₀.continuation = ⟨start, past, amount, delay⟩) (hamount : 1 ≤ amount)
    (hstart : start ≤ past) (hindex : t.context.index ≤ t.context.len)
    (hpast : past ≤ t.context.len) (hund : Undisturbed g t.world rs) :
    InStep handlers g start past amount delay t sched id rs := by
  have hlike : t.context.Like (t.context.continuation = none) Eq
      { l₀.context with index := t.context.index } := by
    rw [hcontext]
    exact Context.Like.same_iff.mpr ⟨rfl, Eq.symm⟩
  obtain ⟨is, onward, hm⟩ := h.mirrored hsuit hlike (by simpa [hk] using hstart) hindex
    (by simpa [hk] using hpast) hund
  simp only [hk] at hm
  have hlength := h.length_le (by simpa [hk] using hamount)
  simp only [hk] at hlength
  have hevent : ∀ i r, rs[i]? = some r →
      r.event = (Scheduler.conclude ⟨start, past, amount - i, delay⟩ r.ended).1 := by
    intro i r hr
    rw [h.event_eq hr, hk]
  constructor
  · refine ⟨is, onward, hm.iterated, hm.rounds, ?_⟩
    intro l hl hid
    have hl := hkept l hl hid
    exact ⟨by rw [h.continuation_eq hl, hk], hm.ends_iff hsuit hstart hindex hpast hl⟩
  · exact hlength.1
  · intro i r hr
    have hi : i < rs.length := (List.getElem?_eq_some_iff.mp hr).1
    rw [hevent i r hr, conclude_eq_failed, conclude_eq_stopped,
      Scheduler.conclude_eq_finished, Scheduler.conclude_eq_ran]
    refine ⟨Iff.rfl, Iff.rfl, ?_, ?_⟩
    · refine and_congr_right fun _ => ?_
      dsimp only
      omega
    · refine and_congr_right fun _ => ?_
      dsimp only
      omega
  · intro r hr hran x
    refine hm.answer_iff hindex hpast hr hlength.1 ?_ x
    intro hended
    have hlast : rs[rs.length - 1]? = some r := by rwa [← List.getLast?_eq_getElem?]
    rw [hevent _ r hlast, hended, ne_eq, Scheduler.conclude_eq_ran] at hran
    simp only [true_and, Nat.not_lt] at hran
    have hpos : rs ≠ [] := by
      rintro rfl
      cases hr
    have hpos := List.length_pos_iff.mpr hpos
    omega

def State.park (s : State) (k : Continuation) : State :=
  { s with context := { s.context with index := k.stop, continuation := some k } }

theorem exec_repeating_delayed (nested : Nested) {t : State} (hamount : 1 ≤ amount)
    (hdelay : 0 < delay) (hpast : past ≤ t.context.len) :
    (Builtin.repeating start past amount delay).exec nested t =
      some (.value .pause, t.park ⟨start, past, amount, delay⟩) := by
  have hlater : ¬ (delay = 0 ∨ amount = 0) := by omega
  simp only [Builtin.repeating, hlater, ↓reduceIte, Prog.setIndex, Prog.bind, Prog.exec, Effect.run,
    Context.setIndex_ok hpast]
  rfl

/-- A Repeat that parks its iterations does in the rounds of its loop what it would do in place,
whatever happens between the rounds that neither throws the dice nor touches what else the
handlers of the host make use of. Parking replaces a continuation that was pending before, so a
handler that looks for one finds what it would find in place once that one is taken away. -/
theorem repeat_inStep (handlers : Handlers) (g : Accord)
    (hread : State.readRepeat s = (.ok (amount, past, delay), t)) (hamount : 1 ≤ amount)
    (hdelay : 0 < delay) :
    ∃ u : State, u.world = t.world ∧
      (∀ nested, Builtin.repeatHandler.exec nested s = some (.value .pause, u)) ∧
      ∀ H sched w now id, Scheduler.Timed handlers H sched w → .adopted now id u.context ∈ H →
        Undisturbed g t.world (H.roundsOf id) →
        (handlers.Suit True g →
          InStep handlers g (t.context.index + 1) past amount delay
            { t with context := t.context.bare } sched id (H.roundsOf id)) ∧
        (handlers.Suit (t.context.continuation = none) g →
          InStep handlers g (t.context.index + 1) past amount delay t sched id
            (H.roundsOf id)) := by
  obtain ⟨hcontext, hbounds⟩ := State.readRepeat_ok hread
  obtain ⟨hstart, hpast⟩ := hbounds amount past delay rfl
  rw [← hcontext] at hstart hpast
  refine ⟨t.park ⟨t.context.index + 1, past, amount, delay⟩, rfl, fun nested => ?_, ?_⟩
  · rw [exec_repeat, hread]
    exact exec_repeating_delayed nested hamount hdelay hpast
  · intro H sched w now id htimed hadopted hund
    obtain ⟨kept, hc, hkept⟩ := htimed.timely.followed now id _ _ hadopted rfl
    have hindex : t.context.index ≤ t.context.len :=
      Nat.le_trans (Nat.le_of_succ_le hstart) hpast
    constructor
    · intro hsuit
      exact inStep_of_course hc hkept { hsuit with pending := .inl rfl } rfl rfl hamount hstart
        hindex hpast hund
    · intro hsuit
      exact inStep_of_course hc hkept hsuit rfl rfl hamount hstart hindex hpast hund

end

def rewriting : State :=
  let actions : List Action :=
    [.ofValues "Repeat" (.builtin .repeatBlock) [.int 2, .int 2, .int 100],
     .ofValues "Set" (.builtin .store) [.int 7],
     .ofValues "For" (.builtin .forActor) [.actor 5, .str "Stop"]]
  State.entered
    { context := .fresh 1 "rewriting" .builtins (.shared actions) none
      world := { World.initial (fun _ => 0) with nextContext := 2 } }

def crowd (w : World) : World :=
  { w with nextContext := w.nextContext + 1, objects := w.objects + 1 }

theorem crowd_grows (w : World) : w.Grows own (crowd w) :=
  ⟨Nat.le_succ _, fun _ hi => hi, [], rfl, by simp⟩

theorem crowd_same (w : World) : w.Same ⟨False, False⟩ (crowd w) :=
  ⟨rfl, rfl, False.elim, False.elim, .inl rfl⟩

/-- The loop has two rounds, at the second of which it finishes. Before each of them contexts and
objects are made elsewhere. -/
theorem repeat_inStep_rewriting : ∃ t H sched w, State.readRepeat rewriting = (.ok (2, 3, 100), t) ∧
    Scheduler.Timed .none H sched w ∧ (H.roundsOf 0).map Round.event = [.ran, .finished] ∧
    Undisturbed ⟨False, False⟩ t.world (H.roundsOf 0) ∧
    InStep .none ⟨False, False⟩ 1 3 2 100 t sched 0 (H.roundsOf 0) := by
  have hread : State.readRepeat rewriting = (.ok (2, 3, 100), rewriting) := rfl
  obtain ⟨u, -, hexec, hinStep⟩ :=
    repeat_inStep .none ⟨False, False⟩ hread (by decide) (by decide)
  obtain rfl : u = rewriting.park ⟨1, 3, 2, 100⟩ := by
    have h := hexec ⟨fun _ _ _ => none, fun _ _ _ => none⟩
    rw [exec_repeat, hread] at h
    exact (congrArg Prod.snd (Option.some.inj h)).symm
  have hstart : Scheduler.Timed .none [] .empty rewriting.world := .start _
  have hadopted := hstart.adopt (c := (rewriting.park ⟨1, 3, 2, 100⟩).context) (by decide)
    (by simp [Scheduler.empty]) (show Scheduler.adopt _ 0 _ _ = some (0, _, _) from rfl)
  have hsame : rewriting.world.Same ⟨False, False⟩ (rewriting.world.log
      (Scheduler.adoptionEntry (rewriting.park ⟨1, 3, 2, 100⟩).context ⟨1, 3, 2, 100⟩)) :=
    ⟨rfl, rfl, False.elim, False.elim, .inl rfl⟩
  generalize hsched : Scheduler.mk _ _ = sched, hw : World.log _ _ = w at hadopted
  have heval : (do
      let r₁ ← sched.tick .none 8 100 (crowd w)
      let r₂ ← r₁.2.1.tick .none 8 200 (crowd r₁.2.2)
      some (r₁.1, r₂.1, sched.loops.map fun l => l.isDue 100 (crowd w),
        r₁.2.1.loops.map fun l => l.isDue 200 (crowd r₁.2.2))) =
      some ([(0, .ran)], [(0, .finished)], [true], [true]) := by
    rw [← hsched, ← hw]
    decide +kernel
  simp only [Option.bind_eq_bind, Option.bind_eq_some_iff, Option.some.injEq,
    Prod.mk.injEq] at heval
  obtain ⟨⟨e₁, s₁, w₁⟩, h₁, ⟨e₂, s₂, w₂⟩, h₂, rfl, rfl, hdue₁, hdue₂⟩ := heval
  obtain ⟨l₁, hl₁, hdue₁⟩ := List.map_eq_singleton_iff.mp hdue₁
  obtain ⟨l₂, hl₂, hdue₂⟩ := List.map_eq_singleton_iff.mp hdue₂
  obtain ⟨r₁, hr₁, hbefore₁, hevent₁, -, hleft₁⟩ := Scheduler.tick_alone hl₁ hdue₁ h₁
  obtain ⟨r₂, hr₂, hbefore₂, hevent₂, -, -⟩ := Scheduler.tick_alone hl₂ hdue₂ h₂
  have hrun := (((hadopted.elsewhere (crowd_grows w)).tick h₁).elsewhere (crowd_grows w₁)).tick h₂
  obtain ⟨hid₁, hran⟩ : l₁.id = 0 ∧ r₁.event = .ran := by simpa [eq_comm] using hevent₁
  obtain ⟨hid₂, hfinished⟩ : l₂.id = 0 ∧ r₂.event = .finished := by simpa [eq_comm] using hevent₂
  rw [hr₁, hr₂, hid₁, hid₂] at hrun
  generalize hH : _ ++ [Moment.ticked 200 _ _] = H at hrun
  have hrounds : Timeline.roundsOf H 0 = [] ++ [r₁] ++ [r₂] := by rw [← hH]; rfl
  have hund : Undisturbed ⟨False, False⟩ rewriting.world (Timeline.roundsOf H 0) := by
    rw [hrounds, undisturbed_concat, undisturbed_concat]
    refine ⟨⟨undisturbed_nil _, ?_⟩, ?_⟩
    · rw [hbefore₁, ← hw]
      exact hsame.trans (crowd_same _)
    · rw [hbefore₂, hleft₁, Round.left, if_pos hran]
      exact (World.Resembles.logged _ _).same.trans (crowd_same _)
  refine ⟨rewriting, H, s₂, w₂, hread, hrun, by simp [hrounds, hran, hfinished], hund, ?_⟩
  exact (hinStep H s₂ w₂ 0 0 hrun (by simp [← hH]) hund).2
    ⟨.inl rfl, .inr fun _ _ _ => trivial, .inr fun _ => trivial⟩

def prying : Handlers := fun _ =>
  .look fun c => .perform (.setVariable "suspended" (.bool c.isSuspended)) fun _ =>
    .perform .newObject fun h =>
      .perform (.setVariable "object" (.object h)) fun _ => .done .proceed

def jottings (c : Context) : Option Bool × Option Nat :=
  ((c.lookup "suspended").bind fun | .bool b => some b | _ => none,
   (c.lookup "object").bind fun | .object (.made n) => some n | _ => none)

def pried : State :=
  let actions : List Action :=
    [.ofValues "Repeat" (.builtin .repeatBlock) [.int 2, .int 1, .int 100],
     .ofValues "Pry" (.host "Pry") []]
  let c : Context := .fresh 1 "pried" .builtins (.shared actions) none
  State.entered
    { context := c.suspend ⟨0, 1, 1, 1⟩
      world := { World.initial (fun _ => 0) with nextContext := 2 } }

/-- The rounds of a loop are not those of the iterations in place. In place the action finds its
context suspended, and in the rounds it does not; and if an object is made between the rounds then
the second of them makes another one than the second iteration. -/
theorem repeat_out_of_step : ∃ H sched w is onward,
    State.readRepeat pried = (.ok (2, 2, 100), pried) ∧ Scheduler.Timed prying H sched w ∧
    .adopted 0 0 (pried.park ⟨1, 2, 2, 100⟩).context ∈ H ∧
    (H.roundsOf 0).map (fun r => (r.event, jottings r.after.context)) =
      [(.ran, some false, some 1), (.finished, some false, some 3)] ∧
    Iterated prying 1 2 pried is onward ∧
    is.map (fun i => jottings i.after.context) = [(some true, some 1), (some true, some 2)] := by
  have hstart : Scheduler.Timed prying [] .empty pried.world := .start _
  have hadopted := hstart.adopt (c := (pried.park ⟨1, 2, 2, 100⟩).context) (by decide)
    (by simp [Scheduler.empty]) (show Scheduler.adopt _ 0 _ _ = some (0, _, _) from rfl)
  generalize hsched : Scheduler.mk _ _ = sched, hw : World.log _ _ = w at hadopted
  have hplaces : (do
      let i₁ ← runBlock prying 3 1 2 pried
      let i₂ ← runBlock prying 3 1 2 i₁.2
      some (i₁.1.toOption.map Option.isNone, i₂.1.toOption.map Option.isNone,
        [jottings i₁.2.context, jottings i₂.2.context])) =
      some (some true, some true, [(some true, some 1), (some true, some 2)]) := by
    decide +kernel
  have hturns : (do
      let seen (now : Nat) (s : Scheduler) (w : World) :=
        (Scheduler.rounds prying 3 now s.loops w).map fun r =>
          (r.1, r.2.event, jottings r.2.after.context)
      let r₁ ← sched.tick prying 3 100 w
      let r₂ ← r₁.2.1.tick prying 3 200 (crowd r₁.2.2)
      some (decide (seen 100 sched w = [(0, .ran, some false, some 1)] ∧
        seen 200 r₁.2.1 (crowd r₁.2.2) = [(0, .finished, some false, some 3)]))) = some true := by
    rw [← hsched, ← hw]
    decide +kernel
  simp only [Option.bind_eq_bind, Option.bind_eq_some_iff, Option.some.injEq, Prod.mk.injEq,
    decide_eq_true_eq] at hplaces hturns
  obtain ⟨⟨b₁, t₁⟩, hi₁, ⟨b₂, t₂⟩, hi₂, hb₁, hb₂, hpried⟩ := hplaces
  obtain ⟨⟨e₁, s₁, w₁⟩, h₁, ⟨e₂, s₂, w₂⟩, h₂, hr₁, hr₂⟩ := hturns
  have hended {b : BlockEnd} (hb : b.toOption.map Option.isNone = some true) : b = .ok none := by
    rcases b with e | _ | flags <;> simp [Except.toOption] at hb ⊢
  obtain rfl := hended hb₁
  obtain rfl := hended hb₂
  have hfirst : Iterated prying 1 2 pried ([] ++ [⟨pried, .ok none, t₁⟩]) (some t₁) :=
    .next (i := ⟨pried, .ok none, t₁⟩) .initial ⟨3, hi₁⟩
  have hboth := Iterated.next (i := ⟨t₁, .ok none, t₂⟩) hfirst ⟨3, hi₂⟩
  have hrun := ((hadopted.tick h₁).elsewhere (crowd_grows w₁)).tick h₂
  refine ⟨_, s₂, w₂, _, _, rfl, hrun, by simp, ?_, hboth, by simpa using hpried⟩
  simp only [Timeline.roundsOf_concat, Moment.roundsOf, List.map_append, map_about, hr₁, hr₂]
  rfl

end Playbook
