import Playbook.Proofs.Programs

/-!
# Running without counting fuel

A run ends in an answer when it gives that answer with some fuel (`Eventually`). This
module says how the parts of a run end in terms of how their own parts end, so that
later proofs need not speak of fuel: the loop that blocks and whole runs share
(`Halts`), and programs (`Prog.Ends`).
-/

namespace Playbook

def Eventually (F : Nat → α → Option β) (a : α) (b : β) : Prop := ∃ n, F n a = some b

def Stable (F : Nat → α → Option β) : Prop := ∀ n m, n ≤ m → Extends (F n) (F m)

theorem step_stable (handlers : Handlers) : Stable (step handlers) :=
  fun _ _ h => step_extends handlers h

theorem Eventually.unique {F : Nat → α → Option β} (hF : Stable F) (hb : Eventually F a b)
    (hc : Eventually F a c) : b = c := by
  obtain ⟨n, hn⟩ := hb
  obtain ⟨m, hm⟩ := hc
  have hn := hF n (max n m) (by omega) a b hn
  have hm := hF m (max n m) (by omega) a c hm
  exact Option.some.inj (hn.symm.trans hm)

-- ---------------------------------------------------------------------------
-- The loop
-- ---------------------------------------------------------------------------

/-- How steps follow each other as long as the cursor is in front of `bound`: until
one of them fails or stops, or the cursor has got there. -/
inductive Halts (R : State → Except RuntimeError Flags × State → Prop) (bound : Context → Nat) :
    State → BlockEnd → State → Prop
  | done : bound s.context ≤ s.context.index → Halts R bound s (.ok none) s
  | fail : s.context.index < bound s.context → R s (.error e, t) → Halts R bound s (.error e) t
  | stop : s.context.index < bound s.context → R s (.ok flags, t) → flags.stop = true →
      Halts R bound s (.ok (some flags)) t
  | more : s.context.index < bound s.context → R s (.ok flags, t) → flags.stop = false →
      Halts R bound t e u → Halts R bound s e u

section
variable {R : State → Except RuntimeError Flags × State → Prop}

theorem Halts.stop_le (h : Halts R bound s (.ok none) t) : bound t.context ≤ t.context.index := by
  generalize hb : (.ok none : BlockEnd) = b at h
  induction h with
  | done hle => exact hle
  | fail | stop => simp at hb
  | more _ _ _ _ ih => exact ih hb

theorem Halts.flags_stop (h : Halts R bound s (.ok (some flags)) t) : flags.stop = true := by
  generalize hb : (.ok (some flags) : BlockEnd) = b at h
  induction h with
  | done | fail => simp at hb
  | stop _ _ hstop =>
    simp only [Except.ok.injEq, Option.some.injEq] at hb
    exact hb ▸ hstop
  | more _ _ _ _ ih => exact ih hb

/-- Steps that always end, and move the cursor ahead if they go on, bring the loop to
its end: `I` holds as long as it goes on, and `P` in the end. -/
theorem Halts.of_progress {I P : State → Prop} (hbound : ∀ s, I s → bound s.context = total)
    (hpost : ∀ s, I s → P s)
    (hstep : ∀ s, I s → s.context.index < total → ∃ x t, R s (x, t) ∧ P t ∧
      ∀ flags, x = .ok flags → flags.stop = false → I t ∧ s.context.index < t.context.index)
    (hs : I s) : ∃ e t, Halts R bound s e t ∧ P t := by
  induction hm : total - s.context.index using Nat.strongRecOn generalizing s with
  | ind m ih =>
    have hb := hbound s hs
    by_cases hlt : s.context.index < total
    · obtain ⟨x, t, hx, ht, hmore⟩ := hstep s hs hlt
      rw [← hb] at hlt
      cases x with
      | error e => exact ⟨_, t, .fail hlt hx, ht⟩
      | ok flags =>
        cases hstop : flags.stop with
        | true => exact ⟨_, t, .stop hlt hx hstop, ht⟩
        | false =>
          obtain ⟨hinv, hlt'⟩ := hmore flags rfl hstop
          obtain ⟨e, u, hu, hpu⟩ := ih _ (by omega) hinv rfl
          exact ⟨e, u, .more hlt hx hstop hu, hpu⟩
    · exact ⟨_, s, .done (by omega), hpost s hs⟩

end

section
variable {F : Nat → Stepper}

theorem halts_of_blockLoop (h : blockLoop (F n) stop k s = some (e, t)) :
    Halts (Eventually F) (fun _ => stop) s e t := by
  induction k generalizing s with
  | zero => simp [blockLoop] at h
  | succ k ih =>
    by_cases hlt : s.context.index < stop
    · obtain ⟨r, u, hs, ⟨err, rfl, rfl, rfl⟩ | ⟨flags, rfl, hgo⟩⟩ := blockLoop_eq_some hlt h
      · exact .fail hlt ⟨n, hs⟩
      · obtain ⟨hstop, rfl, rfl⟩ | ⟨hstop, hrest⟩ := hgo
        · exact .stop hlt ⟨n, hs⟩ hstop
        · exact .more hlt ⟨n, hs⟩ hstop (ih hrest)
    · simp only [blockLoop, hlt, ↓reduceIte, Option.some.injEq, Prod.mk.injEq] at h
      obtain ⟨rfl, rfl⟩ := h
      exact .done (Nat.not_lt.mp hlt)

theorem blockLoop_of_halts (hF : Stable F) (h : Halts (Eventually F) (fun _ => stop) s e t) :
    ∃ n, blockLoop (F n) stop n s = some (e, t) := by
  induction h with
  | done hle => exact ⟨1, by simp [blockLoop, Nat.not_lt.mpr hle]⟩
  | fail hlt hs =>
    obtain ⟨n, hn⟩ := hs
    exact ⟨n + 1, by simp [blockLoop, hlt, hF n (n + 1) (by omega) _ _ hn]⟩
  | stop hlt hs hstop =>
    obtain ⟨n, hn⟩ := hs
    exact ⟨n + 1, by simp [blockLoop, hlt, hF n (n + 1) (by omega) _ _ hn, hstop]⟩
  | more hlt hs hstop _ ih =>
    obtain ⟨n, hn⟩ := hs
    obtain ⟨m, hm⟩ := ih
    refine ⟨max n m + 1, ?_⟩
    have hstep := hF n (max n m + 1) (by omega) _ _ hn
    have hrest := blockLoop_extends (hF m (max n m + 1) (by omega)) _ (Nat.le_max_right n m) _ _ hm
    simp [blockLoop, hlt, hstep, hstop, hrest]

def conclude (release : Bool) (e : BlockEnd) (s : State) : Outcome × State :=
  match e with
  | .ok none =>
    (.completed, { s with world := s.world.log (.debug (s.context.label ++ " completed")) })
  | .error e =>
    let s := { s with world := s.world.log (failureEntry s.context e) }
    (.failed e, if release then s.dispose else s)
  | .ok (some flags) =>
    if flags.dispose && release then (.disposed, s.dispose)
    else if s.context.isSuspended then (.suspended, s)
    else (.stopped, s)

theorem driveLoop_succ (f : Stepper) (release : Bool) (n : Nat) (s : State) :
    driveLoop f release (n + 1) s =
      if s.context.isFinished then some (conclude release (.ok none) s)
      else match f s with
        | none => none
        | some (.error e, t) => some (conclude release (.error e) t)
        | some (.ok flags, t) =>
          if flags.stop then some (conclude release (.ok (some flags)) t)
          else driveLoop f release n t := by
  simp only [driveLoop, conclude]
  split
  · rfl
  · rcases f s with _ | ⟨_ | flags, t⟩
    · rfl
    · rfl
    · dsimp only
      split
      · split
        · rfl
        · split <;> rfl
      · rfl

theorem halts_of_driveLoop (h : driveLoop (F n) release k s = some r) :
    ∃ e t, Halts (Eventually F) Context.len s e t ∧ r = conclude release e t := by
  induction k generalizing s with
  | zero => simp [driveLoop] at h
  | succ k ih =>
    rw [driveLoop_succ] at h
    split at h
    · rename_i hfin
      exact ⟨_, s, .done (by simpa [Context.isFinished] using hfin), (Option.some.inj h).symm⟩
    · rename_i hfin
      have hlt : s.context.index < s.context.len := by simpa [Context.isFinished] using hfin
      split at h
      · simp at h
      · rename_i err u hs
        exact ⟨_, u, .fail hlt ⟨n, hs⟩, (Option.some.inj h).symm⟩
      · rename_i flags u hs
        split at h
        · rename_i hstop
          exact ⟨_, u, .stop hlt ⟨n, hs⟩ hstop, (Option.some.inj h).symm⟩
        · rename_i hstop
          obtain ⟨e, t, ht, hr⟩ := ih h
          exact ⟨e, t, .more hlt ⟨n, hs⟩ (by simpa using hstop) ht, hr⟩

theorem driveLoop_of_halts (hF : Stable F) (h : Halts (Eventually F) Context.len s e t)
    (release : Bool) : ∃ n, driveLoop (F n) release n s = some (conclude release e t) := by
  induction h with
  | done hle =>
    exact ⟨1, by simp [driveLoop_succ, Context.isFinished, hle]⟩
  | fail hlt hs =>
    obtain ⟨n, hn⟩ := hs
    refine ⟨n + 1, ?_⟩
    simp [driveLoop_succ, Context.isFinished, Nat.not_le.mpr hlt, hF n (n + 1) (by omega) _ _ hn]
  | stop hlt hs hstop =>
    obtain ⟨n, hn⟩ := hs
    refine ⟨n + 1, ?_⟩
    simp [driveLoop_succ, Context.isFinished, Nat.not_le.mpr hlt, hF n (n + 1) (by omega) _ _ hn,
      hstop]
  | more hlt hs hstop _ ih =>
    obtain ⟨n, hn⟩ := hs
    obtain ⟨m, hm⟩ := ih
    refine ⟨max n m + 1, ?_⟩
    have hstep := hF n (max n m + 1) (by omega) _ _ hn
    have hrest := driveLoop_extends (hF m (max n m + 1) (by omega)) release
      (Nat.le_max_right n m) _ _ hm
    simp [driveLoop_succ, Context.isFinished, Nat.not_le.mpr hlt, hstep, hstop, hrest]

theorem driveWith_iff_halts (hF : Stable F) :
    (∃ n, driveWith (F n) n release s = some r) ↔
      if s.context.disposed then r = (.disposed, s)
      else ∃ e t, Halts (Eventually F) Context.len s e t ∧ r = conclude release e t := by
  unfold driveWith
  split
  · simp [eq_comm]
  · constructor
    · rintro ⟨n, h⟩
      exact halts_of_driveLoop h
    · rintro ⟨e, t, h, rfl⟩
      exact driveLoop_of_halts hF h release

end

-- ---------------------------------------------------------------------------
-- Programs
-- ---------------------------------------------------------------------------

theorem Prog.exec_stable (handlers : Handlers) (p : Prog α) :
    Stable fun n => p.exec (.ofStepper (step handlers n) n) :=
  fun _ _ h => exec_extends (nested_extends (step_extends handlers h) h) p

theorem Prog.eventually_block {next : BlockEnd → Prog α}
    (hb : Eventually (fun n => Playbook.runBlock handlers n start stop) s (b, t))
    (h : Eventually (fun n => (next b).exec (.ofStepper (step handlers n) n)) t r) :
    Eventually (fun n => (Prog.block start stop next).exec (.ofStepper (step handlers n) n)) s
      r := by
  obtain ⟨n, hn⟩ := hb
  obtain ⟨m, hm⟩ := h
  have hn : blockWith _ _ start stop s = _ :=
    blockWith_extends (step_extends handlers (Nat.le_max_left n m)) (Nat.le_max_left n m) start stop
      _ _ hn
  have hm := exec_stable handlers (next b) m (max n m) (by omega) _ _ hm
  exact ⟨max n m, by simp only [exec, Nested.ofStepper, hn]; exact hm⟩

theorem Prog.eventually_each {next : Prog α}
    (he : Eventually (fun n => eachWith (step handlers n) n target actors) s t)
    (h : Eventually (fun n => next.exec (.ofStepper (step handlers n) n)) t r) :
    Eventually (fun n => (Prog.each target actors next).exec (.ofStepper (step handlers n) n)) s
      r := by
  obtain ⟨n, hn⟩ := he
  obtain ⟨m, hm⟩ := h
  have hstep := step_extends handlers (Nat.le_max_left n m)
  have hn := eachWith_extends hstep (Nat.le_max_left n m) target actors _ _ hn
  have hm := exec_stable handlers next m (max n m) (by omega) _ _ hm
  exact ⟨max n m, by simp only [exec, Nested.ofStepper, hn]; exact hm⟩

/-- An ending in a value with `Q`, or in an error or a panic with `E`. -/
def Ending.Meets (Q : α → State → Prop) (E : State → Prop) (t : State) : Ending α → Prop
  | .value a => Q a t
  | .error _ | .panic _ => E t

def Prog.Ends (handlers : Handlers) (p : Prog α) (s : State) (Q : α → State → Prop)
    (E : State → Prop) : Prop :=
  ∃ n x t, p.exec (.ofStepper (step handlers n) n) s = some (x, t) ∧ x.Meets Q E t

namespace Prog.Ends

variable {Q : α → State → Prop} {E : State → Prop}

theorem done (h : Q a s) : Ends handlers (.done a) s Q E := ⟨0, _, s, rfl, h⟩

theorem fail (h : E s) : Ends handlers (.fail e : Prog α) s Q E := ⟨0, _, s, rfl, h⟩

theorem panic (h : E s) : Ends handlers (.panic m : Prog α) s Q E := ⟨0, _, s, rfl, h⟩

theorem look (h : Ends handlers (next s.context) s Q E) : Ends handlers (.look next) s Q E := h

theorem perform {e : Effect} {next : e.Answer → Prog α}
    (h : Ends handlers (next (e.run s).1) (e.run s).2 Q E) :
    Ends handlers (.perform e next) s Q E := h

theorem ofExcept {r : Except RuntimeError α} (h : ∀ a, r = .ok a → Q a s) (he : E s) :
    Ends handlers (ofExcept r) s Q E := by
  cases r with
  | ok a => exact done (h a rfl)
  | error e => exact fail he

theorem mono {Q' : α → State → Prop} {E' : State → Prop} (h : Ends handlers p s Q E)
    (hQ : ∀ a t, Q a t → Q' a t) (hE : ∀ t, E t → E' t) : Ends handlers p s Q' E' := by
  obtain ⟨n, x, t, hx, hpost⟩ := h
  refine ⟨n, x, t, hx, ?_⟩
  cases x with
  | value a => exact hQ a t hpost
  | error e => exact hE t hpost
  | panic m => exact hE t hpost

theorem bind {p : Prog α} {f : α → Prog β} {P : α → State → Prop} {Q : β → State → Prop}
    (hp : Ends handlers p s P E) (hf : ∀ a t, P a t → Ends handlers (f a) t Q E) :
    Ends handlers (p.bind f) s Q E := by
  obtain ⟨n, x, t, hx, hpost⟩ := hp
  cases x with
  | value a =>
    obtain ⟨m, y, u, hy, hu⟩ := hf a t hpost
    have hx := exec_stable handlers p n (max n m) (by omega) _ _ hx
    have hy := exec_stable handlers (f a) m (max n m) (by omega) _ _ hy
    exact ⟨max n m, y, u, by simp only [exec_bind, hx, hy], hu⟩
  | error e => exact ⟨n, .error e, t, by simp only [exec_bind, hx], hpost⟩
  | panic m => exact ⟨n, .panic m, t, by simp only [exec_bind, hx], hpost⟩

theorem block {next : BlockEnd → Prog α}
    (hb : Eventually (fun n => Playbook.runBlock handlers n start stop) s (b, t))
    (h : Ends handlers (next b) t Q E) : Ends handlers (.block start stop next) s Q E := by
  obtain ⟨m, x, u, hx, hu⟩ := h
  obtain ⟨n, hn⟩ := eventually_block hb ⟨m, hx⟩
  exact ⟨n, x, u, hn, hu⟩

theorem each {next : Prog α}
    (he : Eventually (fun n => eachWith (step handlers n) n target actors) s t)
    (h : Ends handlers next t Q E) : Ends handlers (.each target actors next) s Q E := by
  obtain ⟨m, x, u, hx, hu⟩ := h
  obtain ⟨n, hn⟩ := eventually_each he ⟨m, hx⟩
  exact ⟨n, x, u, hn, hu⟩

theorem argumentAs {read : Value → Except RuntimeError α}
    (h : ∀ a, Q a (s.argument slot read).2) (he : E (s.argument slot read).2) :
    Ends handlers (argumentAs slot read) s Q E := by
  refine ⟨0, _, _, exec_argumentAs _ slot read s, ?_⟩
  cases (s.argument slot read).1 with
  | ok a => exact h a
  | error e => exact he

theorem of_within {p : Prog α} {P : State → State → Prop} (hp : p.Within ok False False)
    (hrefl : ∀ s, P s s) (htrans : ∀ s t u, P s t → P t u → P s u)
    (heff : ∀ e s, ok e → P s (e.run s).2) : Ends handlers p s (fun _ => P s) (P s) := by
  induction p generalizing s with
  | done a => exact done (hrefl s)
  | fail e => exact fail (hrefl s)
  | panic m => exact panic (hrefl s)
  | look next ih => exact look (ih _ (hp _))
  | perform e next ih =>
    have hs := heff e s hp.1
    exact perform ((ih _ (hp.2 _)).mono (fun _ _ => htrans _ _ _ hs) fun _ => htrans _ _ _ hs)
  | block start stop next => exact hp.1.elim
  | each target actors next => exact hp.1.elim

end Prog.Ends

theorem eventually_step (ha : s.context.actions[s.context.index]? = some a)
    (h : (a.definition.behaviour.handler handlers).Ends handlers s.entered Q E) :
    ∃ (x : Ending Flags) (t : State),
      Eventually (step handlers) s (x.answer s.context.index a t) ∧ x.Meets Q E t := by
  obtain ⟨n, x, t, hx, hpost⟩ := h
  refine ⟨x, t, ⟨n + 1, ?_⟩, hpost⟩
  rw [step, dispatch_some ha, hx]

end Playbook
