import Playbook.Proofs.Traces
import Playbook.Scheduler

/-!
# Ticks

What a tick does to a single loop is its turn (`Turn`): the loop is dropped, waits, or has
a round. A tick gives every loop one turn, in the order of the loops, and reports the
events in that order; seen from one loop, it is the turns of some others, its own and
those of the rest (`tickLoops_took`).
-/

namespace Playbook

def Loop.isDue (now : Nat) (w : World) (l : Loop) : Bool :=
  w.isAlive l.context.id && decide (l.nextFire ≤ now)

-- ---------------------------------------------------------------------------
-- Lists about loops
-- ---------------------------------------------------------------------------

def about (id : LoopId) (entries : List (LoopId × α)) : List α :=
  entries.filterMap fun e => if e.1 = id then some e.2 else none

theorem about_append (id : LoopId) (entries more : List (LoopId × α)) :
    about id (entries ++ more) = about id entries ++ about id more := by
  simp [about]

theorem about_of_not_mem {id : LoopId} {entries : List (LoopId × α)}
    (h : id ∉ entries.map Prod.fst) : about id entries = [] := by
  simp only [about, List.filterMap_eq_nil_iff]
  intro e he
  have hne : e.1 ≠ id := fun heq => h (heq ▸ List.mem_map_of_mem he)
  simp [hne]

theorem about_ne_nil {id : LoopId} {entries : List (LoopId × α)}
    (h : id ∈ entries.map Prod.fst) : about id entries ≠ [] := by
  obtain ⟨e, he, rfl⟩ := List.mem_map.mp h
  refine List.ne_nil_of_mem (a := e.2) ?_
  rw [about, List.mem_filterMap]
  exact ⟨e, he, by simp⟩

theorem map_about (f : α → β) (id : LoopId) (entries : List (LoopId × α)) :
    (about id entries).map f = about id (entries.map fun e => (e.1, f e.2)) := by
  rw [about, about, List.map_filterMap, List.filterMap_map]
  congr 1
  funext e
  by_cases he : e.1 = id <;> simp [he]

theorem about_between {id : LoopId} {before after : List (LoopId × α)}
    (hbefore : id ∉ before.map Prod.fst) (hafter : id ∉ after.map Prod.fst) (entry : Option α) :
    about id (before ++ ((entry.map fun e => (id, e)).toList ++ after)) = entry.toList := by
  rw [about_append, about_append, about_of_not_mem hbefore, about_of_not_mem hafter]
  cases entry <;> simp [about]

theorem keys_sublist {ids : List LoopId} (h : (entries.map Prod.fst).Sublist ids) (id : LoopId)
    (entry : Option α) :
    (((entry.map fun e => (id, e)).toList ++ entries).map Prod.fst).Sublist (id :: ids) := by
  have hentry : ((entry.map fun e => (id, e)).toList.map Prod.fst).Sublist [id] := by
    cases entry <;> simp
  rw [List.map_append]
  exact hentry.append h

-- ---------------------------------------------------------------------------
-- Rounds
-- ---------------------------------------------------------------------------

structure Iteration where
  before : State
  ended : BlockEnd
  after : State

/-- One firing of a loop: an iteration with its time and the event that it comes to. -/
structure Round extends Iteration where
  time : Nat
  event : LoopEvent

def Round.next (r : Round) (l : Loop) : Option Loop :=
  if r.event = .ran then
    some { l with
      context := r.after.context
      continuation := (Scheduler.conclude l.continuation r.ended).2
      nextFire := r.time + l.continuation.interval }
  else none

/-- The world as a round leaves it. The context of a loop that has ended is released. -/
def Round.left (r : Round) : World :=
  let w := r.after.world.logged (Scheduler.iterationEntry r.after.context r.ended)
  if r.event = .ran then w else (w.dispose r.after.context).2.2

theorem Round.next_eq_some {r : Round} (h : r.next l = some l') :
    r.event = .ran ∧ l' = { l with
      context := r.after.context
      continuation := (Scheduler.conclude l.continuation r.ended).2
      nextFire := r.time + l.continuation.interval } := by
  unfold next at h
  split at h
  · rename_i hran
    exact ⟨hran, (Option.some.inj h).symm⟩
  · cases h

theorem Round.left_grows (r : Round) : r.after.world.Grows own r.left := by
  unfold left
  split
  · exact .logged _ _
  · exact (World.Grows.logged _ _).trans (.dispose _ _)

theorem Round.left_spares (r : Round) (h : own r.after.context.id) :
    r.after.world.Spares own r.left := by
  unfold left
  split
  · exact .logged _ _
  · exact (World.Spares.logged _ _).trans (.dispose _ _ h)

theorem Round.left_released {r : Round} (hover : r.event ≠ .ran)
    (hseen : r.after.context.disposed = true → r.after.world.Released r.after.context) :
    r.left.Released r.after.context := by
  simp only [left, hover, ↓reduceIte]
  have hlogged (entry : Option LogEntry) :
      r.after.world.Grows (fun _ => True) (r.after.world.logged entry) := .logged _ entry
  exact World.dispose_released fun hd => (hseen hd).grow (hlogged _)

namespace Scheduler

def round (handlers : Handlers) (fuel now : Nat) (l : Loop) (w : World) : Option Round :=
  if l.isDue now w then
    (runBlock handlers fuel l.continuation.start l.continuation.stop
      { context := l.context, world := w }).map fun (b, t) =>
        { time := now, event := (conclude l.continuation b).1
          before := { context := l.context, world := w }, ended := b, after := t }
  else none

def rounds (handlers : Handlers) (fuel now : Nat) : List Loop → World → List (LoopId × Round)
  | [], _ => []
  | l :: ls, w =>
    ((round handlers fuel now l w).map fun r => (l.id, r)).toList ++
      match tickLoop handlers fuel now l w with
      | none => []
      | some (_, _, w) => rounds handlers fuel now ls w

def firings (handlers : Handlers) (fuel now : Nat) (ls : List Loop) (w : World) :
    List (LoopId × BlockEnd) :=
  (rounds handlers fuel now ls w).map fun e => (e.1, e.2.ended)

/-- The world in which a tick comes to the loop `id`. -/
def worldAt (handlers : Handlers) (fuel now : Nat) (id : LoopId) : List Loop → World → World
  | [], w => w
  | l :: ls, w =>
    if l.id = id then w
    else match tickLoop handlers fuel now l w with
      | none => w
      | some (_, _, w) => worldAt handlers fuel now id ls w

theorem conclude_interval (k : Continuation) (b : BlockEnd) :
    (conclude k b).2.interval = k.interval := by
  rcases b with e | _ | flags <;> rfl

theorem conclude_ne_cancelled (k : Continuation) (b : BlockEnd) :
    (conclude k b).1 ≠ .cancelled := by
  rcases b with e | _ | flags
  · simp [conclude]
  · simp only [conclude]
    split <;> simp
  · simp [conclude]

theorem conclude_eq_ran {k : Continuation} {b : BlockEnd} :
    (conclude k b).1 = .ran ↔ b = .ok none ∧ 1 < k.remaining := by
  rcases b with e | _ | flags
  · simp [conclude]
  · by_cases hleft : k.remaining - 1 = 0
    · simp only [conclude, hleft, ↓reduceIte, reduceCtorEq, true_and, false_iff]
      omega
    · simp only [conclude, hleft, ↓reduceIte, true_and, true_iff]
      omega
  · simp [conclude]

theorem conclude_eq_finished {k : Continuation} {b : BlockEnd} :
    (conclude k b).1 = .finished ↔ b = .ok none ∧ k.remaining ≤ 1 := by
  rcases b with e | _ | flags
  · simp [conclude]
  · by_cases hleft : k.remaining - 1 = 0
    · simp only [conclude, hleft, ↓reduceIte, true_and, true_iff]
      omega
    · simp only [conclude, hleft, ↓reduceIte, reduceCtorEq, true_and, false_iff]
      omega
  · simp [conclude]

-- ---------------------------------------------------------------------------
-- The turn of one loop
-- ---------------------------------------------------------------------------

/-- What a tick does to one loop: the event, what is kept of the loop, and the round that
it has. -/
inductive Turn (handlers : Handlers) (l : Loop) (now : Nat) (w : World) :
    World → Option LoopEvent → Option Loop → Option Round → Prop
  | dropped : w.isAlive l.context.id = false →
      w' = (w.log (.warn ("Dropping cancelled loop in " ++ l.context.label))).release
        l.context.sequence →
      Turn handlers l now w w' (some .cancelled) none none
  | waited : w.isAlive l.context.id = true → now < l.nextFire →
      Turn handlers l now w w none (some l) none
  | fired {r : Round} : w.isAlive l.context.id = true → l.nextFire ≤ now → r.time = now →
      r.before = ⟨l.context, w⟩ →
      runBlock handlers n l.continuation.start l.continuation.stop r.before =
        some (r.ended, r.after) →
      r.event = (conclude l.continuation r.ended).1 →
      Turn handlers l now w r.left (some r.event) (r.next l) (some r)

theorem round_eq_some (h : round handlers n now l w = some r) :
    l.isDue now w = true ∧ r.time = now ∧ r.before = ⟨l.context, w⟩ ∧
      runBlock handlers n l.continuation.start l.continuation.stop r.before =
        some (r.ended, r.after) ∧
      r.event = (conclude l.continuation r.ended).1 := by
  unfold round at h
  split at h
  · rename_i hdue
    obtain ⟨⟨b, t⟩, hb, rfl⟩ := Option.map_eq_some_iff.mp h
    exact ⟨hdue, rfl, rfl, hb, rfl⟩
  · cases h

theorem fire_eq (hdue : l.isDue now w = true) :
    fire handlers n now l w =
      (round handlers n now l w).map fun r => (r.event, r.next l, r.left) := by
  simp only [fire, round, hdue, ↓reduceIte]
  cases runBlock handlers n l.continuation.start l.continuation.stop ⟨l.context, w⟩ with
  | none => rfl
  | some r =>
    obtain ⟨b, t⟩ := r
    simp only [Option.map_some, Round.next, Round.left]
    split
    · rw [conclude_interval]
      rfl
    · rfl

theorem tickLoop_of_due (hdue : l.isDue now w = true) :
    tickLoop handlers n now l w =
      (round handlers n now l w).map fun r => (some r.event, r.next l, r.left) := by
  obtain ⟨halive, hle⟩ : w.isAlive l.context.id = true ∧ l.nextFire ≤ now := by
    simpa [Loop.isDue] using hdue
  unfold tickLoop
  rw [if_neg (by simp [halive]), if_neg (Nat.not_lt.mpr hle), fire_eq hdue]
  cases round handlers n now l w <;> rfl

theorem tickLoop_turn (h : tickLoop handlers n now l w = some (event, kept, w')) :
    Turn handlers l now w w' event kept (round handlers n now l w) := by
  cases hdue : l.isDue now w with
  | true =>
    obtain ⟨halive, hle⟩ : w.isAlive l.context.id = true ∧ l.nextFire ≤ now := by
      simpa [Loop.isDue] using hdue
    rw [tickLoop_of_due hdue, Option.map_eq_some_iff] at h
    obtain ⟨r, hr, h⟩ := h
    cases h
    obtain ⟨-, htime, hbefore, hb, hevent⟩ := round_eq_some hr
    exact hr ▸ .fired halive hle htime hbefore hb hevent
  | false =>
    have hround : round handlers n now l w = none := by simp [round, hdue]
    rw [hround]
    unfold tickLoop at h
    split at h
    · rename_i hdead
      cases h
      exact .dropped (by simpa using hdead) rfl
    · rename_i halive
      have halive : w.isAlive l.context.id = true := by simpa using halive
      have hlt : now < l.nextFire := by simpa [Loop.isDue, halive] using hdue
      rw [if_pos hlt] at h
      cases h
      exact .waited halive hlt

namespace Turn

theorem grows (h : Turn handlers l now w w' event kept r) :
    w.Grows (fun i => w.isAlive i = true) w' := by
  cases h with
  | dropped _ hw => exact hw ▸ .trans (.log w _) (.release _ _)
  | waited => exact .refl _
  | @fired n r halive _ _ hbefore hb _ =>
    have hgrows := ((grows_pervades handlers).block hb).world
    rw [hbefore] at hgrows
    have hrun : w.Grows (fun i => w.isAlive i = true) r.after.world :=
      hgrows.mono fun i hi => hi ▸ halive
    exact hrun.trans r.left_grows

/-- The turn of a loop cancels its own context at most, unless a handler gets hold of another. -/
theorem spares (h : Turn handlers l now w w' event kept r) :
    w.Spares (fun i => i = l.context.id ∨ handlers.Revokes i) w' := by
  cases h with
  | dropped _ hw => exact hw ▸ .trans (.log w _) (.release _ _)
  | waited => exact .refl _
  | @fired n r _ _ _ hbefore hb _ =>
    have hspared := (spares_pervades handlers).block hb
    rw [hbefore] at hspared
    exact hspared.world.trans (r.left_spares (.inl hspared.id))

theorem kept_id (h : Turn handlers l now w w' event (some l') r) :
    l'.id = l.id ∧ l'.context.id = l.context.id := by
  generalize hkept : some l' = kept at h
  cases h with
  | dropped => cases hkept
  | waited => cases hkept; exact ⟨rfl, rfl⟩
  | fired _ _ _ hbefore hb _ =>
    obtain ⟨-, rfl⟩ := Round.next_eq_some hkept.symm
    have hgrows := (grows_pervades handlers).block hb
    rw [hbefore] at hgrows
    exact ⟨rfl, hgrows.id⟩

theorem event_eq (h : Turn handlers l now w w' event kept (some r)) : event = some r.event := by
  cases h
  rfl

/-- A loop that goes on after a round has an iteration less to go. -/
theorem goesOn (h : Turn handlers l now w w' event kept (some r)) (hran : r.event = .ran) :
    r.ended = .ok none ∧ ∃ l', kept = some l' ∧ l'.id = l.id ∧
      State.Grows ⟨l.context, w⟩ ⟨l'.context, w'⟩ ∧
      l'.continuation.remaining + 1 = l.continuation.remaining ∧
      1 ≤ l'.continuation.remaining := by
  cases h with
  | fired _ _ _ hbefore hb hevent =>
    obtain ⟨hended, hmore⟩ := conclude_eq_ran.mp (hevent.symm.trans hran)
    have hgrows := (grows_pervades handlers).block hb
    rw [hbefore] at hgrows
    have hleft : r.after.Grows ⟨r.after.context, r.left⟩ := .of_kept (.refl _) r.left_grows
    refine ⟨hended, _, if_pos hran, rfl, hgrows.trans hleft, ?_⟩
    simp only [hended, conclude]
    omega

theorem ends (h : Turn handlers l now w w' event kept (some r)) (hover : r.event ≠ .ran) :
    kept = none ∧
      (r.event = .finished → r.ended = .ok none ∧ l.continuation.remaining ≤ 1) ∧
      ((l.context.disposed = true → w.Released l.context) → w'.Released l.context) := by
  cases h with
  | fired _ _ _ hbefore hb hevent =>
    have hgrows := (grows_pervades handlers).block hb
    rw [hbefore] at hgrows
    refine ⟨if_neg hover, fun hfinished => ?_, fun hseen => ?_⟩
    · exact conclude_eq_finished.mp (hevent.symm.trans hfinished)
    · exact (Round.left_released hover (hgrows.released hseen)).same hgrows.id.symm
        hgrows.script.symm

theorem reported (h : Turn handlers l now w w' event kept r) :
    event.toList.filter (· ≠ .cancelled) = r.toList.map Round.event := by
  cases h with
  | dropped => simp
  | waited => rfl
  | fired _ _ _ _ _ hevent => simp [hevent, conclude_ne_cancelled]

end Turn

-- ---------------------------------------------------------------------------
-- The turns of all loops
-- ---------------------------------------------------------------------------

theorem tickLoops_cons (h : tickLoops handlers n now (l :: ls) w = some (events, rest, w')) :
    ∃ event kept w₁ events' rest', tickLoop handlers n now l w = some (event, kept, w₁) ∧
      tickLoops handlers n now ls w₁ = some (events', rest', w') ∧
      events = (event.map fun e => (l.id, e)).toList ++ events' ∧ rest = kept.toList ++ rest' ∧
      rounds handlers n now (l :: ls) w =
        ((round handlers n now l w).map fun r => (l.id, r)).toList ++
          rounds handlers n now ls w₁ := by
  simp only [tickLoops] at h
  split at h
  · cases h
  · rename_i event kept w₁ hl
    split at h
    · cases h
    · rename_i events' rest' w₂ hls
      cases h
      exact ⟨event, kept, w₁, events', rest', hl, hls, rfl, rfl, by simp only [rounds, hl]⟩

/-- What composes and every turn keeps is kept by a tick. -/
theorem tickLoops_keeps {R : World → World → Prop} (hrefl : ∀ w, R w w)
    (htrans : ∀ u v w, R u v → R v w → R u w)
    (hturn : ∀ l ∈ ls, ∀ w event kept w',
      tickLoop handlers n now l w = some (event, kept, w') → R w w')
    (h : tickLoops handlers n now ls w = some (events, rest, w')) : R w w' := by
  induction ls generalizing w events rest with
  | nil => cases h; exact hrefl _
  | cons l ls ih =>
    obtain ⟨event, kept, w₁, events', rest', hl, hls, -⟩ := tickLoops_cons h
    exact htrans _ _ _ (hturn l List.mem_cons_self _ _ _ _ hl)
      (ih (fun l' hl' => hturn l' (.tail _ hl')) hls)

theorem tickLoops_grows (h : tickLoops handlers n now ls w = some (events, rest, w')) :
    w.Grows (fun i => w.isAlive i = true) w' := by
  refine tickLoops_keeps (R := fun u v => u.Grows (fun i => u.isAlive i = true) v)
    (fun w => .refl w) ?_ (fun l _ w event kept w' hl => (tickLoop_turn hl).grows) h
  intro u v w huv hvw
  exact huv.trans (hvw.mono fun i hi => huv.alive hi)

/-- The loops, events and rounds of a tick come in the order of the loops that it goes through. -/
structure InOrder (ls : List Loop) (events : List (LoopId × LoopEvent)) (rest : List Loop)
    (played : List (LoopId × Round)) : Prop where
  kept : ∀ l' ∈ rest, ∃ l ∈ ls, l'.id = l.id ∧ l'.context.id = l.context.id
  events : (events.map Prod.fst).Sublist (ls.map Loop.id)
  rest : (rest.map Loop.id).Sublist (ls.map Loop.id)
  played : (played.map Prod.fst).Sublist (ls.map Loop.id)

theorem tickLoops_inOrder (h : tickLoops handlers n now ls w = some (events, rest, w')) :
    InOrder ls events rest (rounds handlers n now ls w) := by
  induction ls generalizing w events rest with
  | nil => cases h; exact ⟨by simp, by simp, by simp, by simp [rounds]⟩
  | cons l ls ih =>
    obtain ⟨event, kept, w₁, events', rest', hl, hls, rfl, rfl, hrounds⟩ := tickLoops_cons h
    have hturn := tickLoop_turn hl
    have hlater := ih hls
    rw [hrounds]
    refine ⟨?_, keys_sublist hlater.events _ _, ?_, keys_sublist hlater.played _ _⟩
    · intro l' hl'
      rcases List.mem_append.mp hl' with hl' | hl'
      · obtain rfl : kept = some l' := by simpa using hl'
        exact ⟨l, List.mem_cons_self, hturn.kept_id⟩
      · obtain ⟨l₁, hl₁, hid⟩ := hlater.kept l' hl'
        exact ⟨l₁, .tail _ hl₁, hid⟩
    · have hkept : (kept.toList.map Loop.id).Sublist [l.id] := by
        cases kept with
        | none => simp
        | some l' => simp [hturn.kept_id.1]
      rw [List.map_append]
      exact hkept.append hlater.rest

/-- The turns of loops other than `l` lead from `w` to `w'`. -/
def Aside (handlers : Handlers) (fuel now : Nat) (ls : List Loop) (l : Loop) (w w' : World) :
    Prop :=
  ∃ others events rest, (∀ o ∈ others, o ∈ ls ∧ o.id ≠ l.id) ∧
    tickLoops handlers fuel now others w = some (events, rest, w')

theorem Aside.keeps (h : Aside handlers n now ls l w w') {R : World → World → Prop}
    (hrefl : ∀ w, R w w) (htrans : ∀ u v w, R u v → R v w → R u w)
    (hturn : ∀ o ∈ ls, o.id ≠ l.id → ∀ w event kept w',
      tickLoop handlers n now o w = some (event, kept, w') → R w w') : R w w' := by
  obtain ⟨others, events, rest, hothers, h⟩ := h
  exact tickLoops_keeps hrefl htrans
    (fun o ho => hturn o (hothers o ho).1 (hothers o ho).2) h

theorem Aside.grows (h : Aside handlers n now ls l w w') : w.Grows (fun _ => True) w' := by
  obtain ⟨others, events, rest, -, h⟩ := h
  exact (tickLoops_grows h).mono fun _ _ => trivial

/-- What a tick from `w` to `w'` did to one of its loops, whose turn came in `w₁`. -/
structure Took (handlers : Handlers) (fuel now : Nat) (ls : List Loop) (w w₁ w' : World)
    (events : List (LoopId × LoopEvent)) (rest : List Loop) (l : Loop) (event : Option LoopEvent)
    (kept : Option Loop) (w₂ : World) : Prop where
  before : Aside handlers fuel now ls l w w₁
  turn : tickLoop handlers fuel now l w₁ = some (event, kept, w₂)
  after : Aside handlers fuel now ls l w₂ w'
  reported : about l.id events = event.toList
  played : about l.id (rounds handlers fuel now ls w) = (round handlers fuel now l w₁).toList
  stays : ∀ l' ∈ rest, l'.id = l.id → kept = some l'
  remains : ∀ l', kept = some l' → l' ∈ rest

theorem tickLoops_split (h : tickLoops handlers n now (ls ++ l :: ls') w = some (events, rest, w'))
    (hnot : l.id ∉ ls.map Loop.id) :
    let w₁ := worldAt handlers n now l.id (ls ++ l :: ls') w
    ∃ events₁ rest₁ event kept w₂ events₂ rest₂,
      tickLoops handlers n now ls w = some (events₁, rest₁, w₁) ∧
      tickLoop handlers n now l w₁ = some (event, kept, w₂) ∧
      tickLoops handlers n now ls' w₂ = some (events₂, rest₂, w') ∧
      events = events₁ ++ ((event.map fun e => (l.id, e)).toList ++ events₂) ∧
      rest = rest₁ ++ (kept.toList ++ rest₂) ∧
      rounds handlers n now (ls ++ l :: ls') w = rounds handlers n now ls w ++
        (((round handlers n now l w₁).map fun r => (l.id, r)).toList ++
          rounds handlers n now ls' w₂) := by
  induction ls generalizing w events rest with
  | nil =>
    obtain ⟨event, kept, w₂, events₂, rest₂, hl, hls, rfl, rfl, hrounds⟩ := tickLoops_cons h
    have hat : worldAt handlers n now l.id ([] ++ l :: ls') w = w := by simp [worldAt]
    rw [hat]
    exact ⟨[], [], event, kept, w₂, events₂, rest₂, rfl, hl, hls, rfl, rfl, hrounds⟩
  | cons o ls ih =>
    simp only [List.map_cons, List.mem_cons, not_or] at hnot
    rw [List.cons_append] at h
    obtain ⟨event₀, kept₀, w₀, events₀, rest₀, ho, hls, rfl, rfl, hrounds⟩ := tickLoops_cons h
    obtain ⟨events₁, rest₁, event, kept, w₂, events₂, rest₂, hbefore, hl, hafter, rfl, rfl,
      hrounds'⟩ := ih hls hnot.2
    have hat : worldAt handlers n now l.id (o :: ls ++ l :: ls') w =
        worldAt handlers n now l.id (ls ++ l :: ls') w₀ := by
      simp [worldAt, Ne.symm hnot.1, ho]
    rw [hat]
    refine ⟨_, _, event, kept, w₂, events₂, rest₂, ?_, hl, hafter,
      (List.append_assoc _ _ _).symm, (List.append_assoc _ _ _).symm, ?_⟩
    · simp only [tickLoops, ho, hbefore]
    · rw [List.cons_append, hrounds, hrounds']
      simp only [rounds, ho, List.append_assoc]

theorem tickLoops_took (h : tickLoops handlers n now ls w = some (events, rest, w'))
    (hord : (ls.map Loop.id).Pairwise (· < ·)) (hl : l ∈ ls) :
    ∃ event kept w₂, Took handlers n now ls w (worldAt handlers n now l.id ls w) w' events rest l
      event kept w₂ := by
  obtain ⟨before, after, rfl⟩ := List.append_of_mem hl
  simp only [List.map_append, List.map_cons, List.pairwise_append, List.pairwise_cons] at hord
  obtain ⟨-, ⟨hlater, -⟩, hearlier⟩ := hord
  have hbefore : l.id ∉ before.map Loop.id := fun hmem =>
    Nat.lt_irrefl _ (hearlier _ hmem _ List.mem_cons_self)
  have hafter : l.id ∉ after.map Loop.id := fun hmem => Nat.lt_irrefl _ (hlater _ hmem)
  obtain ⟨events₁, rest₁, event, kept, w₂, events₂, rest₂, hticks₁, hturn, hticks₂, rfl, rfl,
    hrounds⟩ := tickLoops_split h hbefore
  have hfirst := tickLoops_inOrder hticks₁
  have hsecond := tickLoops_inOrder hticks₂
  refine ⟨event, kept, w₂, ?_, hturn, ?_, ?_, ?_, ?_, ?_⟩
  · refine ⟨before, _, _, fun o ho => ⟨List.mem_append_left _ ho, fun heq => ?_⟩, hticks₁⟩
    exact hbefore (heq ▸ List.mem_map_of_mem ho)
  · refine ⟨after, _, _, fun o ho => ⟨List.mem_append_right _ (.tail _ ho), fun heq => ?_⟩,
      hticks₂⟩
    exact hafter (heq ▸ List.mem_map_of_mem ho)
  · exact about_between (fun hmem => hbefore (hfirst.events.subset hmem))
      (fun hmem => hafter (hsecond.events.subset hmem)) event
  · rw [hrounds]
    exact about_between (fun hmem => hbefore (hfirst.played.subset hmem))
      (fun hmem => hafter (hsecond.played.subset hmem)) _
  · intro l' hl' hid
    rcases List.mem_append.mp hl' with hl' | hl'
    · exact absurd (hfirst.rest.subset (hid ▸ List.mem_map_of_mem hl')) hbefore
    · rcases List.mem_append.mp hl' with hl' | hl'
      · simpa using hl'
      · exact absurd (hsecond.rest.subset (hid ▸ List.mem_map_of_mem hl')) hafter
  · intro l' hl'
    simp [hl']

theorem firings_keys :
    (firings handlers n now ls w).map Prod.fst = (rounds handlers n now ls w).map Prod.fst := by
  simp [firings, Function.comp_def]

theorem Took.fired (h : Took handlers n now ls w w₁ w' events rest l event kept w₂) :
    about l.id (firings handlers n now ls w) =
      (round handlers n now l w₁).toList.map (·.ended) := by
  rw [firings, ← map_about (fun r : Round => r.ended), h.played]

/-- A tick runs no block of a context that was cancelled before. -/
theorem firings_alive {id : LoopId} (h : tickLoops handlers n now ls w = some (events, rest, w'))
    (hord : (ls.map Loop.id).Pairwise (· < ·))
    (hmem : id ∈ (firings handlers n now ls w).map Prod.fst) :
    ∃ l ∈ ls, l.id = id ∧ w.isAlive l.context.id = true := by
  rw [firings_keys] at hmem
  obtain ⟨l, hl, rfl⟩ := List.mem_map.mp ((tickLoops_inOrder h).played.subset hmem)
  obtain ⟨event, kept, w₂, htook⟩ := tickLoops_took h hord hl
  refine ⟨l, hl, rfl, htook.before.grows.alive ?_⟩
  have hplayed := about_ne_nil hmem
  rw [htook.played] at hplayed
  cases hturn : round handlers n now l (worldAt handlers n now l.id ls w) with
  | none => simp [hturn] at hplayed
  | some r =>
    have hdue := (round_eq_some hturn).1
    simp only [Loop.isDue, Bool.and_eq_true] at hdue
    exact hdue.1

end Scheduler

end Playbook
