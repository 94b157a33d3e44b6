import Mathlib.Logic.Relation
import Playbook.Proofs.FlatMachine
import Playbook.Proofs.Repeats
import Playbook.Proofs.Termination

/-!
# Where blocks leave the cursor

If and Repeat go on behind their block, or from where the actions in it have left the cursor if
that is further on. For If this is behind everything that was dispatched inside. Repeat takes the
cursor back for every iteration and goes on from where the last one has left it, so it goes on
behind everything exactly if no iteration has left the cursor further on than the last
(`onward_iff_endsFurthest`).

When it is not so, actions behind the block that were run from inside of it are run again
(`not_onward_shrinking`).
-/

namespace Playbook

-- ---------------------------------------------------------------------------
-- Going on
-- ---------------------------------------------------------------------------

/-- The action under the cursor is dispatched, and the run goes on from `t`. -/
def Proceeds (handlers : Handlers) (s t : State) : Prop :=
  ∃ flags, Eventually (step handlers) s (.ok flags, t) ∧ flags.stop = false

def State.IsAt (s : State) (b : Builtin) : Prop :=
  ∃ a, s.context.actions[s.context.index]? = some a ∧ a.definition.behaviour = .builtin b

def Context.IsBuiltin (c : Context) : Prop := ∀ a ∈ c.actions, a.IsBuiltin

section
variable {handlers : Handlers} {s t : State}

theorem Context.IsBuiltin.undisposing {c : Context} (h : c.IsBuiltin) :
    c.Undisposing handlers := by
  intro a ha
  obtain ⟨b, hb⟩ := h a ha
  rw [hb]
  exact b.handler_within.mono (fun _ => b.undisposing) (fun _ => trivial) fun _ => trivial

theorem Context.IsBuiltin.step (h : s.context.IsBuiltin)
    (hs : Eventually (Playbook.step handlers) s (x, t)) : t.context.IsBuiltin := by
  obtain ⟨n, hn⟩ := hs
  intro a ha
  rw [((kept_along handlers).step h.undisposing hn).actions] at ha
  exact h a ha

theorem Context.IsBuiltin.block (h : s.context.IsBuiltin)
    (hs : Eventually (fun n => runBlock handlers n start past) s (b, t)) :
    t.context.IsBuiltin := by
  obtain ⟨n, hn⟩ := hs
  have hk := blockWith_rel (kept_along handlers).framed
    (fun s x t hx hs => (kept_along handlers).step hs hx) hn h.undisposing
  intro a ha
  rw [hk.actions] at ha
  exact h a ha

theorem Proceeds.unique (h : Proceeds handlers s t)
    (h' : Eventually (step handlers) s (x, u)) : u = t := by
  obtain ⟨flags, hs, -⟩ := h
  obtain ⟨-, rfl⟩ := Prod.mk.inj (h'.unique (step_stable handlers) hs)
  rfl

theorem settle_cases (h : settle entry flags s = (.ok f, t)) (hf : f.stop = false) :
    flags.stop = false ∧
      (s.context.index = entry ∧ t = s.moveTo (entry + 1) ∨ s.context.index ≠ entry ∧ t = s) := by
  unfold settle at h
  split at h
  · rename_i hstop
    cases h
    cases hf.symm.trans hstop
  · rename_i hstop
    refine ⟨by simpa using hstop, ?_⟩
    split at h
    · cases h
      cases hf
    · split at h
      · rename_i hindex
        split at h
        · rename_i c hc
          cases h
          rw [Context.setIndex_ok (Context.setIndex_kept hc).2.2] at hc
          cases hc
          exact .inl ⟨hindex, rfl⟩
        · cases h
      · rename_i hindex
        cases h
        exact .inr ⟨hindex, rfl⟩

theorem Proceeds.handler (h : Proceeds handlers s t) (hs : s.IsAt b) :
    ∃ n flags u, b.handler.exec (.ofStepper (step handlers n) n) s.entered =
      some (.value flags, u) ∧ flags.stop = false ∧
      (u.context.index = s.context.index → t = u.moveTo (s.context.index + 1)) ∧
      (s.context.index < u.context.index → t = u) := by
  obtain ⟨f, ⟨n, hn⟩, hf⟩ := h
  obtain ⟨a, ha, hb⟩ := hs
  cases n with
  | zero => cases hn
  | succ n =>
    rw [step, dispatch_some ha, hb] at hn
    cases hx : (Behaviour.handler handlers (.builtin b)).exec (.ofStepper (step handlers n) n)
        s.entered with
    | none => simp [hx] at hn
    | some r =>
      obtain ⟨x, u⟩ := r
      simp only [hx, Option.some.injEq] at hn
      cases x with
      | error e => cases hn
      | panic m => cases hn
      | value flags =>
        obtain ⟨hstop, hmoved⟩ := settle_cases hn hf
        refine ⟨n, flags, u, hx, hstop, fun hsame => ?_, fun hlt => ?_⟩
        · exact (hmoved.resolve_right fun h => h.1 hsame).2
        · exact (hmoved.resolve_left fun h => Nat.ne_of_gt hlt h.1).2

theorem runBlock_stopped (h : runBlock handlers n start past s = some (.ok (some flags), t)) :
    flags.stop = true := by
  by_cases hrange : past < start ∨ s.context.len < past
  · simp [runBlock, blockWith, hrange] at h
  · rw [runBlock, blockWith_in_range (by omega) (by omega)] at h
    exact (halts_of_blockLoop h).flags_stop

/-- How a statement leaves its block: behind it, or where the cursor is if that is further on. -/
theorem leaveBlock_value {nested : Nested} {v : State}
    (h : ((Builtin.leaveBlock past).bind fun _ => .done Flags.proceed).exec nested v =
      some (.value flags, u))
    (hcursor : v.context.index ≤ v.context.len) (hpast : past ≤ v.context.len) :
    u = v.moveTo (max past v.context.index) := by
  rw [exec_leaveBlock _ _ _ (Nat.max_le.mpr ⟨hpast, hcursor⟩)] at h
  cases h
  rfl

theorem Proceeds.conditional (h : Proceeds handlers s t) (hs : s.IsAt .ifBlock) :
    ∃ condition past v, s.entered.readIf = (.ok (condition, past), v) ∧
      if condition then
        Eventually (fun n => runBlock handlers n (s.context.index + 1) past) v (.ok none, t)
      else t = v.moveTo past := by
  obtain ⟨n, flags, u, hx, hstop, -, hmoved⟩ := h.handler hs
  have hx : Builtin.ifBlockHandler.exec (.ofStepper (step handlers n) n) s.entered = _ := hx
  rw [exec_ifBlock] at hx
  generalize hr : s.entered.readIf = r at hx ⊢
  obtain ⟨x, v⟩ := r
  obtain ⟨hcontext, hrange⟩ := State.readIf_ok hr
  have hindex : v.context.index = s.context.index := by rw [hcontext]; rfl
  rcases x with e | ⟨condition, past⟩
  · cases hx
  · obtain ⟨hstart, hpast⟩ := hrange condition past rfl
    have hstart : s.context.index < past := hstart
    rw [← hcontext] at hpast
    have hcursor : v.context.index ≤ v.context.len := by omega
    refine ⟨condition, past, v, rfl, ?_⟩
    cases condition with
    | false =>
      obtain rfl := leaveBlock_value hx hcursor hpast
      rw [hindex, Nat.max_eq_left (Nat.le_of_lt hstart)] at hmoved
      exact hmoved hstart
    | true =>
      simp only [hindex] at hx
      split at hx
      · cases hx
      · cases hx
      · rename_i hb
        cases hx
        cases hstop.symm.trans (runBlock_stopped hb)
      · rename_i x hb
        have hreached := runBlock_past hb
        have hcursor := (bounded_pervades handlers).block hb hcursor
        obtain rfl := leaveBlock_value hx hcursor (Nat.le_trans hreached hcursor)
        rw [Nat.max_eq_right hreached, State.moveTo_self] at hmoved
        obtain rfl := hmoved (Nat.lt_of_lt_of_le hstart hreached)
        exact ⟨n, hb⟩

theorem Iterated.iterate (h : Iterated handlers start past w is (some v))
    (hx : (Builtin.iterate start past k).exec (.ofStepper (step handlers n) n) v =
      some (.value none, u)) :
    ∃ is', is'.length = is.length + k ∧ Iterated handlers start past w is' (some u) := by
  induction k generalizing is v with
  | zero =>
    cases hx
    exact ⟨is, rfl, h⟩
  | succ k ih =>
    simp only [Builtin.iterate, Prog.exec] at hx
    split at hx
    · cases hx
    · rename_i b x hb
      rcases b with e | _ | flags
      · cases hx
      · have hnext : Iterated handlers start past w (is ++ [⟨v, .ok none, x⟩]) (some x) :=
          .next h ⟨n, hb⟩
        obtain ⟨is', hlength, h'⟩ := ih hnext hx
        refine ⟨is', ?_, h'⟩
        rw [hlength, List.length_append, List.length_singleton]
        omega
      · cases hx

theorem iterate_stopped
    (h : (Builtin.iterate start past k).exec (.ofStepper (step handlers n) n) s =
      some (.value (some flags), t)) : flags.stop = true := by
  induction k generalizing s with
  | zero => cases h
  | succ k ih =>
    simp only [Builtin.iterate, Prog.exec] at h
    split at h
    · cases h
    · rename_i b x hb
      rcases b with e | _ | flags
      · cases h
      · exact ih h
      · cases h
        exact runBlock_stopped hb

theorem Proceeds.loop (h : Proceeds handlers s t) (hs : s.IsAt .repeatBlock) :
    ∃ amount past delay w is v, s.entered.readRepeat = (.ok (amount, past, delay), w) ∧
      Iterated handlers (s.context.index + 1) past w is (some v) ∧ is.length = amount ∧
      t = v.moveTo (max past v.context.index) := by
  obtain ⟨n, flags, u, hx, hstop, -, hmoved⟩ := h.handler hs
  have hx : Builtin.repeatHandler.exec (.ofStepper (step handlers n) n) s.entered = _ := hx
  rw [exec_repeat] at hx
  generalize hr : s.entered.readRepeat = r at hx ⊢
  obtain ⟨x, w⟩ := r
  obtain ⟨hcontext, hrange⟩ := State.readRepeat_ok hr
  have hindex : w.context.index = s.context.index := by rw [hcontext]; rfl
  rcases x with e | ⟨amount, past, delay⟩
  · cases hx
  · obtain ⟨hstart, hpast⟩ := hrange amount past delay rfl
    have hstart : s.context.index < past := hstart
    rw [← hcontext] at hpast
    have hcursor : w.context.index ≤ w.context.len := by omega
    simp only [hindex] at hx
    by_cases hnow : delay = 0 ∨ amount = 0
    · simp only [Builtin.repeating, hnow, ↓reduceIte, Prog.exec_bind] at hx
      split at hx
      · cases hx
      · rename_i stopped v hv
        cases stopped with
        | some flags =>
          cases hx
          cases hstop.symm.trans (iterate_stopped hv)
        | none =>
          obtain ⟨is, hlength, his⟩ := Iterated.iterate .initial hv
          obtain ⟨hcursor, hpast⟩ := his.in_range rfl hcursor hpast
          obtain rfl := leaveBlock_value hx hcursor hpast
          refine ⟨amount, past, delay, w, is, v, rfl, his, by simpa using hlength, ?_⟩
          exact hmoved (Nat.lt_of_lt_of_le hstart (Nat.le_max_left _ _))
      · cases hx
      · cases hx
    · rw [exec_repeating_delayed _ (by omega) (by omega) hpast] at hx
      cases hx
      cases hstop

theorem exec_still {b : Builtin} (hb : ¬ b.HasBlock)
    (h : b.handler.exec (.ofStepper (step handlers n) n) s = some (x, t)) :
    t.context.index = s.context.index := by
  refine Prog.exec_rel (P := fun s t => t.context.index = s.context.index) b.handler_within
    (fun _ => rfl) (fun _ _ _ hst htu => htu.trans hst) ?_ (fun hblock => absurd hblock hb) ?_ h
  · intro e s he
    cases e with
    | setIndex | suspend => exact absurd he hb
    | reset | dispose | cancel => exact he.elim
    | _ => rfl
  · intro _ target actors s t ht
    have ht : eachWith (step handlers n) n target actors s = some t := ht
    rw [eachWith_context ht]

theorem Proceeds.ahead (h : Proceeds handlers s t) (hs : s.context.IsBuiltin) :
    s.context.index < t.context.index := by
  cases ha : s.context.actions[s.context.index]? with
  | none =>
    obtain ⟨flags, ⟨n, hn⟩, -⟩ := h
    cases n with
    | zero => cases hn
    | succ n =>
      rw [step, dispatch_none ha] at hn
      cases hn
  | some a =>
    obtain ⟨b, hb⟩ := hs a (List.mem_of_getElem? ha)
    have hat : s.IsAt b := ⟨a, ha, hb⟩
    by_cases hblock : b.HasBlock
    · rcases hblock with rfl | rfl
      · obtain ⟨condition, past, v, hr, ht⟩ := h.conditional hat
        have hstart := ((State.readIf_ok hr).2 condition past rfl).1
        cases condition with
        | false =>
          obtain rfl : t = v.moveTo past := ht
          exact hstart
        | true =>
          obtain ⟨n, hn⟩ := ht
          exact Nat.lt_of_lt_of_le hstart (runBlock_past hn)
      · obtain ⟨amount, past, delay, w, is, v, hr, -, -, rfl⟩ := h.loop hat
        have hstart := ((State.readRepeat_ok hr).2 amount past delay rfl).1
        exact Nat.lt_of_lt_of_le hstart (Nat.le_max_left _ _)
    · obtain ⟨n, flags, u, hx, -, hsame, -⟩ := h.handler hat
      have hindex : u.context.index = s.entered.context.index := exec_still hblock hx
      obtain rfl := hsame hindex
      exact Nat.lt_succ_self _

end

-- ---------------------------------------------------------------------------
-- Actions inside of a statement
-- ---------------------------------------------------------------------------

/-- The states in which the statement under the cursor runs its block, and where the block ends. -/
inductive Opens (handlers : Handlers) (s : State) : Nat → State → Prop
  | conditional : s.IsAt .ifBlock → s.entered.readIf = (.ok (true, past), v) →
      Opens handlers s past v
  | loop : s.IsAt .repeatBlock → s.entered.readRepeat = (.ok (amount, past, 0), w) →
      Iterated handlers (s.context.index + 1) past w is (some v) → is.length < amount →
      Opens handlers s past v

def Encloses (handlers : Handlers) (s u : State) : Prop :=
  ∃ past v, Opens handlers s past v ∧
    Visits (Eventually (step handlers)) (fun _ => past) (v.moveTo (s.context.index + 1)) u

/-- If the run goes on after the statement under the cursor, then behind everything that was
dispatched inside, at any depth, and not before anywhere that these actions had gone on to. -/
def Onward (handlers : Handlers) (s : State) : Prop :=
  ∀ t, Proceeds handlers s t → ∀ u, Relation.TransGen (Encloses handlers) s u →
    u.context.index < t.context.index ∧
      ∀ x v, Eventually (step handlers) u (x, v) → v.context.index ≤ t.context.index

/-- If the run goes on after the statement under the cursor and this is a Repeat, then none of its
iterations has left the cursor further on than the last one. -/
def EndsFurthest (handlers : Handlers) (s : State) : Prop :=
  ∀ t, Proceeds handlers s t → s.IsAt .repeatBlock → ∀ amount past w,
    s.entered.readRepeat = (.ok (amount, past, 0), w) →
    ∀ is v all last, Iterated handlers (s.context.index + 1) past w is (some v) →
      is.length ≤ amount → Iterated handlers (s.context.index + 1) past w all (some last) →
      all.length = amount → v.context.index ≤ last.context.index

section
variable {handlers : Handlers} {s t : State}

theorem Iterated.unique (h : Iterated handlers start past w is (some v))
    (h' : Iterated handlers start past w is' (some v')) (hlength : is.length = is'.length) :
    v = v' := by
  have hend {is : List Iteration} {v : State} (h : Iterated handlers start past w is (some v)) :
      Runs handlers (Builtin.iterate start past is.length) w (.value none, v) :=
    h.runs_iterate (m := 0) rfl ⟨0, rfl⟩
  have hv := hend h
  rw [hlength] at hv
  exact (Prod.mk.inj (hv.unique (Prog.exec_stable handlers _) (hend h'))).2

theorem Iterated.lap (h : Iterated handlers start past w all onward) (ho : onward = some last)
    (hk : k < all.length) :
    ∃ is v x, is.length = k ∧ Iterated handlers start past w is (some v) ∧
      Eventually (fun n => runBlock handlers n start past) v (.ok none, x) := by
  induction h generalizing last with
  | initial => cases hk
  | @next is i h hrun ih =>
    obtain ⟨hended, -⟩ := Iteration.onward_eq_some.mp ho
    rw [List.length_append, List.length_singleton] at hk
    rcases Nat.lt_or_eq_of_le (Nat.le_of_lt_succ hk) with hk | rfl
    · exact ih rfl hk
    · rw [hended] at hrun
      exact ⟨is, i.before, i.after, rfl, h, hrun⟩

theorem Iterated.last (h : Iterated handlers start past w is (some v)) :
    is = [] ∧ v = w ∨ ∃ is' before, is.length = is'.length + 1 ∧
      Iterated handlers start past w is' (some before) ∧
      Eventually (fun n => runBlock handlers n start past) before (.ok none, v) := by
  generalize ho : some v = onward at h
  cases h with
  | initial =>
    cases ho
    exact .inl ⟨rfl, rfl⟩
  | @next is i h hrun =>
    obtain ⟨hended, rfl⟩ := Iteration.onward_eq_some.mp ho.symm
    rw [hended] at hrun
    exact .inr ⟨is, i.before, List.length_append, h, hrun⟩

theorem Iterated.isBuiltin (h : Iterated handlers start past w is onward) (ho : onward = some v)
    (hw : w.context.IsBuiltin) : v.context.IsBuiltin := by
  induction h generalizing v with
  | initial =>
    cases ho
    exact hw
  | next _ hrun ih =>
    obtain ⟨-, rfl⟩ := Iteration.onward_eq_some.mp ho
    exact (ih rfl).block hrun

theorem Visits.isBuiltin {bound : Context → Nat}
    (h : Visits (Eventually (step handlers)) bound s u) (hs : s.context.IsBuiltin) :
    u.context.IsBuiltin := by
  induction h with
  | here => exact hs
  | later _ hR _ _ ih => exact ih (hs.step hR)

theorem Opens.isBuiltin (h : Opens handlers s past v) (hs : s.context.IsBuiltin) :
    v.context.IsBuiltin := by
  have hentered : s.entered.context.IsBuiltin := hs
  cases h with
  | conditional _ hr =>
    rw [(State.readIf_ok hr).1]
    exact hentered
  | loop _ hr his _ =>
    refine his.isBuiltin rfl ?_
    rw [(State.readRepeat_ok hr).1]
    exact hentered

theorem Encloses.isBuiltin (h : Encloses handlers s u) (hs : s.context.IsBuiltin) :
    u.context.IsBuiltin := by
  obtain ⟨past, v, hopens, hvisits⟩ := h
  have hv : (v.moveTo (s.context.index + 1)).context.IsBuiltin := hopens.isBuiltin hs
  exact hvisits.isBuiltin hv

/-- When the run goes on after a statement, it has run its block to the end each time. -/
theorem Opens.runs (h : Opens handlers s past v) (ht : Proceeds handlers s t) :
    ∃ x, Eventually (fun n => runBlock handlers n (s.context.index + 1) past) v (.ok none, x) ∧
      (EndsFurthest handlers s → x.context.index ≤ t.context.index) := by
  cases h with
  | conditional hs hr =>
    obtain ⟨condition, past', v', hr', hblock⟩ := ht.conditional hs
    rw [hr] at hr'
    cases hr'
    exact ⟨t, hblock, fun _ => Nat.le_refl _⟩
  | loop hs hr his hlength =>
    obtain ⟨amount', past', delay, w', all, last, hr', hall, hamount, rfl⟩ := ht.loop hs
    rw [hr] at hr'
    cases hr'
    obtain ⟨is', v', x, hlength', his', hx⟩ := hall.lap rfl (hamount ▸ hlength)
    obtain rfl := his.unique his' hlength'.symm
    refine ⟨x, hx, fun hfurthest => ?_⟩
    have hnext : Iterated handlers _ past _ (_ ++ [⟨v, .ok none, x⟩]) (some x) := .next his hx
    have hle := hfurthest _ ht hs _ _ _ hr _ _ _ _ hnext
      (by rw [List.length_append]; exact hlength) hall hamount
    exact Nat.le_trans hle (Nat.le_max_right _ _)

theorem Visits.goesOn (h : Visits (Eventually (step handlers)) bound s u)
    (hend : Halts (Eventually (step handlers)) bound s (.ok none) x) :
    ∃ v, Proceeds handlers u v ∧ Halts (Eventually (step handlers)) bound v (.ok none) x := by
  induction h with
  | here hlt =>
    cases hend with
    | done hle => exact absurd hlt (Nat.not_lt.mpr hle)
    | more _ hR hstop hrest => exact ⟨_, ⟨_, hR, hstop⟩, hrest⟩
  | later hlt hR hstop _ ih =>
    cases hend with
    | done hle => exact absurd hlt (Nat.not_lt.mpr hle)
    | more _ hR' _ hrest =>
      obtain ⟨-, rfl⟩ := Prod.mk.inj (hR.unique (step_stable handlers) hR')
      exact ih hrest

theorem Halts.index_le (h : Halts (Eventually (step handlers)) bound s e x)
    (he : e = .ok none) (hs : s.context.IsBuiltin) : s.context.index ≤ x.context.index := by
  induction h with
  | done => exact Nat.le_refl _
  | fail | stop => cases he
  | more _ hR hstop _ ih =>
    have hahead := Proceeds.ahead ⟨_, hR, hstop⟩ hs
    exact Nat.le_trans (Nat.le_of_lt hahead) (ih he (hs.step hR))

theorem Halts.last (h : Halts (Eventually (step handlers)) bound s e x) (he : e = .ok none) :
    x = s ∨ ∃ u y, Visits (Eventually (step handlers)) bound s u ∧
      Eventually (step handlers) u (y, x) := by
  induction h with
  | done => exact .inl rfl
  | fail | stop => cases he
  | more hlt hR hstop _ ih =>
    rcases ih he with rfl | ⟨u, y, hvisits, hu⟩
    · exact .inr ⟨_, _, .here hlt, hR⟩
    · exact .inr ⟨u, y, .later hlt hR hstop hvisits, hu⟩

theorem halts_of_runBlock
    (h : Eventually (fun n => runBlock handlers n start past) s (.ok none, t)) :
    Halts (Eventually (step handlers)) (fun _ => past) (s.moveTo start) (.ok none) t := by
  obtain ⟨n, hn⟩ := h
  have hn : blockWith (step handlers n) n start past s = some (.ok none, t) := hn
  by_cases hrange : past < start ∨ s.context.len < past
  · simp [blockWith, hrange] at hn
  · rw [blockWith_in_range (by omega) (by omega)] at hn
    exact halts_of_blockLoop hn

theorem Encloses.inside (h : Encloses handlers s u) (hs : s.context.IsBuiltin)
    (ht : Proceeds handlers s t) (hfurthest : EndsFurthest handlers s) :
    ∃ v, Proceeds handlers u v ∧ u.context.index < v.context.index ∧
      v.context.index ≤ t.context.index := by
  have hu := h.isBuiltin hs
  obtain ⟨past, v, hopens, hvisits⟩ := h
  obtain ⟨x, hx, hle⟩ := hopens.runs ht
  obtain ⟨v', hv', hrest⟩ := hvisits.goesOn (halts_of_runBlock hx)
  refine ⟨v', hv', hv'.ahead hu, ?_⟩
  obtain ⟨flags, hstep, -⟩ := hv'
  exact Nat.le_trans (hrest.index_le rfl (hu.step hstep)) (hle hfurthest)

theorem onward_of_endsFurthest (hs : s.context.IsBuiltin)
    (h : ∀ u, Relation.ReflTransGen (Encloses handlers) s u → EndsFurthest handlers u) :
    Onward handlers s := by
  intro t ht u hu
  induction hu using Relation.TransGen.head_induction_on generalizing t with
  | @single s hsu =>
    obtain ⟨v, hv, hlt, hle⟩ := hsu.inside hs ht (h s .refl)
    refine ⟨Nat.lt_of_lt_of_le hlt hle, fun x v' hx => ?_⟩
    rw [hv.unique hx]
    exact hle
  | @head s m hsm hmu ih =>
    obtain ⟨v, hv, -, hle⟩ := hsm.inside hs ht (h s .refl)
    obtain ⟨hlt, hall⟩ := ih (hsm.isBuiltin hs) (fun u hu => h u (.head hsm hu)) v hv
    exact ⟨Nat.lt_of_lt_of_le hlt hle, fun x v' hx => Nat.le_trans (hall x v' hx) hle⟩

theorem endsFurthest_of_onward (h : Onward handlers s) : EndsFurthest handlers s := by
  intro t ht hat amount past w hr is v all last his hle hall hamount
  obtain ⟨amount', past', delay, w', all', last', hr', hall', hamount', rfl⟩ := ht.loop hat
  rw [hr] at hr'
  cases hr'
  obtain rfl := hall.unique hall' (hamount.trans hamount'.symm)
  obtain ⟨hcontext, hrange⟩ := State.readRepeat_ok hr
  obtain ⟨hstart, -⟩ := hrange amount past 0 rfl
  have hstart : s.context.index < past := hstart
  rcases hall.last with ⟨hnone, -⟩ | ⟨is', before, hlength, -, hrun⟩
  · have hzero : is.length = 0 := Nat.le_zero.mp (by rw [← hamount, hnone] at hle; exact hle)
    rw [his.unique hall (by rw [hnone, hzero]; rfl)]
  · have hpast : past ≤ last.context.index := by
      obtain ⟨n, hn⟩ := hrun
      exact runBlock_past hn
    rcases his.last with ⟨-, rfl⟩ | ⟨is', before, hlength, his', hrun⟩
    · have hindex : v.context.index = s.context.index := by rw [hcontext]; rfl
      omega
    · -- the iteration has left the cursor where its last action has
      rcases (halts_of_runBlock hrun).last rfl with rfl | ⟨u, y, hvisits, hu⟩
      · exact Nat.le_trans hstart hpast
      · have hopens : Opens handlers s past before := .loop hat hr his' (by omega)
        have hmoved := (h _ ht u (.single ⟨past, before, hopens, hvisits⟩)).2 y v hu
        have hmoved : v.context.index ≤ max past last.context.index := hmoved
        omega

/-- A statement and all that are dispatched in it, at any depth: each of them goes on behind
everything that was dispatched inside of it, exactly if every Repeat among them is left furthest on
by its last iteration. -/
theorem onward_iff_endsFurthest (hs : s.context.IsBuiltin) :
    (∀ u, Relation.ReflTransGen (Encloses handlers) s u → Onward handlers u) ↔
      ∀ u, Relation.ReflTransGen (Encloses handlers) s u → EndsFurthest handlers u := by
  constructor
  · intro h u hu
    exact endsFurthest_of_onward (h u hu)
  · intro h u hu
    have hu' : u.context.IsBuiltin := by
      induction hu with
      | refl => exact hs
      | tail _ hstep ih => exact hstep.isBuiltin ih
    exact onward_of_endsFurthest hu' fun v hv => h v (hu.trans hv)

end

/-- The block of the Repeat at the cursor is a conditional block, which reaches behind it in the
first iteration only. -/
def shrinking : State :=
  let conditional : Action := .ofValues "If" (.builtin .ifBlock) [.bool true]
  let actions : List Action :=
    [{ Action.ofValues "Set" (.builtin .store) [.int 2] with output := some "n" },
     .ofValues "Repeat" (.builtin .repeatBlock) [.int 2, .int 1, .int 0],
     { conditional with slots := conditional.slots ++ [.ref .any "n"] },
     { Action.ofValues "Set" (.builtin .store) [.int 0] with output := some "n" },
     .ofValues "Log" (.builtin .log) [.str "once"], .ofValues "Log" (.builtin .log) [.str "end"]]
  let c := (Context.fresh 1 "shrinking" .builtins (.shared actions) none).setVariable "n" (.int 2)
  { context := { c with index := 1 }, world := .initial fun _ => 0 }

theorem shrinking_isBuiltin : shrinking.context.IsBuiltin := by
  have hall : shrinking.context.actions.all
      (fun a => match a.definition.behaviour with | .builtin _ => true | _ => false) = true := rfl
  intro a ha
  have ha := List.all_eq_true.mp hall a ha
  split at ha
  · exact ⟨_, ‹_›⟩
  · cases ha

theorem shrinking_not_onward : ¬ Onward .none shrinking := by
  intro h
  have heval : (step .none 5 shrinking).map
      (fun r => (r.1.toOption.map Flags.stop, r.2.context.index)) = some (some false, 3) := by
    decide +kernel
  obtain ⟨⟨x, t⟩, ht, heq⟩ := Option.map_eq_some_iff.mp heval
  cases x with
  | error e => cases heq
  | ok flags =>
    simp only [Except.toOption, Option.map_some, Prod.mk.injEq, Option.some.injEq] at heq
    -- the conditional block in the first iteration, and the first action in that
    let w := shrinking.entered.readRepeat.2
    have hloop : Opens .none shrinking 3 w := .loop ⟨_, rfl, rfl⟩ rfl .initial (by decide)
    let u := w.moveTo 2
    let v := u.entered.readIf.2
    have hblock : Opens .none u 5 v := .conditional ⟨_, rfl, rfl⟩ rfl
    have hinner : Encloses .none shrinking u := ⟨3, w, hloop, .here (by decide)⟩
    have hdeeper : Encloses .none u (v.moveTo 3) := ⟨5, v, hblock, .here (by decide)⟩
    have hlt := (h t ⟨flags, ⟨5, ht⟩, heq.1⟩ (v.moveTo 3) (.tail (.single hinner) hdeeper)).1
    rw [heq.2] at hlt
    exact Nat.lt_irrefl 3 hlt

/-- One of the statements is a Repeat that an earlier iteration has left further on. -/
theorem onward_iff_endsFurthest_shrinking : shrinking.context.IsBuiltin ∧
    ∃ u, Relation.ReflTransGen (Encloses .none) shrinking u ∧ ¬ EndsFurthest .none u := by
  refine ⟨shrinking_isBuiltin, ?_⟩
  by_contra hnone
  have hall := (onward_iff_endsFurthest shrinking_isBuiltin).mpr fun u hu =>
    not_not.mp fun hu' => hnone ⟨u, hu, hu'⟩
  exact shrinking_not_onward (hall shrinking .refl)

/-- The second iteration leaves the cursor in front of what the first one has run, and the script
does that again. -/
theorem not_onward_shrinking : shrinking.context.IsBuiltin ∧ ¬ Onward .none shrinking ∧
    ((compile .builtins "test"
      "Set 2 -> $n\nRepeat 2 1 0\nIf true $n\nSet 0 -> $n\nLog once\nLog end\n").result.toOption.bind
        ScriptUnit.main?).bind (fun script =>
          let r := (World.initial fun _ => 0).start script none
          (run .none 9 ⟨r.1, r.2⟩).map fun r =>
            (Event.logs r.2.world.trace false).map LogEntry.message) =
      some ["once", "once", "end"] :=
  ⟨shrinking_isBuiltin, shrinking_not_onward, by decide +kernel⟩

end Playbook
