import Playbook.Dispatch

/-!
# More fuel gives the same answer

Where a run has an answer, it has the same one with more fuel. So a run that ends
is one that ends with some fuel, and two of them can be put together at the larger
fuel of the two.
-/

namespace Playbook

/-- `g` gives every answer that `f` gives. -/
def Extends (f g : α → Option β) : Prop := ∀ a b, f a = some b → g a = some b

theorem Extends.refl (f : α → Option β) : Extends f f := fun _ _ h => h

structure Nested.Extends (m n : Nested) : Prop where
  block : ∀ start stop, Playbook.Extends (m.block start stop) (n.block start stop)
  each : ∀ target actors, Playbook.Extends (m.each target actors) (n.each target actors)

theorem Prog.exec_extends {m n : Nested} (h : m.Extends n) (p : Prog α) :
    Extends (p.exec m) (p.exec n) := by
  induction p with
  | done | fail | panic => exact .refl _
  | look next ih => exact fun s r hr => ih s.context s r hr
  | perform e next ih => exact fun s r hr => ih (e.run s).1 (e.run s).2 r hr
  | block start stop next ih =>
    intro s r hr
    simp only [Prog.exec] at hr ⊢
    cases hb : m.block start stop s with
    | none => simp [hb] at hr
    | some x =>
      rw [h.block start stop s x hb]
      rw [hb] at hr
      exact ih x.1 x.2 r hr
  | each target actors next ih =>
    intro s r hr
    simp only [Prog.exec] at hr ⊢
    cases hb : m.each target actors s with
    | none => simp [hb] at hr
    | some t =>
      rw [h.each target actors s t hb]
      rw [hb] at hr
      exact ih t r hr

theorem dispatch_extends {m n : Nested} (h : m.Extends n) (handlers : Handlers) :
    Extends (dispatch handlers m) (dispatch handlers n) := by
  intro s r hr
  simp only [dispatch] at hr ⊢
  split
  · rename_i hc
    simpa [hc] using hr
  · rename_i a hc
    simp only [hc] at hr
    split at hr
    · simp at hr
    all_goals
      rename_i hx
      simpa [Prog.exec_extends h _ _ _ hx] using hr

section
variable {f g : Stepper}

theorem blockLoop_extends (h : Extends f g) (stop : Nat) (hn : n ≤ m) :
    Extends (blockLoop f stop n) (blockLoop g stop m) := by
  induction n generalizing m with
  | zero => intro s r hr; simp [blockLoop] at hr
  | succ n ih =>
    obtain ⟨m, rfl⟩ : ∃ k, m = k + 1 := ⟨m - 1, by omega⟩
    intro s r hr
    simp only [blockLoop] at hr ⊢
    split at hr
    · rename_i hlt
      simp only [hlt, ↓reduceIte]
      cases hf : f s with
      | none => simp [hf] at hr
      | some x =>
        obtain ⟨x, t⟩ := x
        rw [hf] at hr
        rw [h s _ hf]
        cases x with
        | error e => exact hr
        | ok flags =>
          simp only at hr ⊢
          split at hr
          · rename_i hs; simpa [hs] using hr
          · rename_i hs
            simpa [hs] using ih (by omega) t r hr
    · rename_i hlt
      simpa [hlt] using hr

theorem driveLoop_extends (h : Extends f g) (release : Bool) (hn : n ≤ m) :
    Extends (driveLoop f release n) (driveLoop g release m) := by
  induction n generalizing m with
  | zero => intro s r hr; simp [driveLoop] at hr
  | succ n ih =>
    obtain ⟨m, rfl⟩ : ∃ k, m = k + 1 := ⟨m - 1, by omega⟩
    intro s r hr
    simp only [driveLoop] at hr ⊢
    split at hr
    · rename_i hlt
      simpa [hlt] using hr
    · rename_i hlt
      simp only [hlt, Bool.false_eq_true, ↓reduceIte]
      cases hf : f s with
      | none => simp [hf] at hr
      | some x =>
        obtain ⟨x, t⟩ := x
        rw [hf] at hr
        rw [h s _ hf]
        cases x with
        | error e => exact hr
        | ok flags =>
          simp only at hr ⊢
          split at hr
          · rename_i hs; simpa [hs] using hr
          · rename_i hs
            simpa [hs] using ih (by omega) t r hr

theorem blockWith_extends (h : Extends f g) (hn : n ≤ m) (start stop : Nat) :
    Extends (blockWith f n start stop) (blockWith g m start stop) := by
  intro s r hr
  unfold blockWith at hr ⊢
  split at hr
  · rename_i hb; simpa [hb] using hr
  · rename_i hb
    simp only [hb, ↓reduceIte]
    split at hr
    · rename_i hx; simpa [hx] using hr
    · rename_i hx
      simpa [hx] using blockLoop_extends h stop hn _ r hr

theorem driveWith_extends (h : Extends f g) (hn : n ≤ m) (release : Bool) :
    Extends (driveWith f n release) (driveWith g m release) := by
  intro s r hr
  unfold driveWith at hr ⊢
  split at hr
  · rename_i hd; simpa [hd] using hr
  · rename_i hd
    simpa [hd] using driveLoop_extends h release hn s r hr

theorem visitAll_extends (h : Extends f g) (hn : n ≤ m) (parent : Context)
    (actors : List ActorId) :
    Extends (visitAll f n parent actors) (visitAll g m parent actors) := by
  induction actors with
  | nil => exact .refl _
  | cons actor actors ih =>
    intro s r hr
    simp only [visitAll] at hr ⊢
    cases hd : driveWith f n false { s with context := s.context.reset (some actor) } with
    | none => simp [hd] at hr
    | some x =>
      obtain ⟨outcome, t⟩ := x
      rw [driveWith_extends h hn false _ _ hd]
      rw [hd] at hr
      exact ih _ r hr

theorem eachWith_extends (h : Extends f g) (hn : n ≤ m) (target : Action)
    (actors : List ActorId) :
    Extends (eachWith f n target actors) (eachWith g m target actors) := by
  intro s r hr
  unfold eachWith at hr ⊢
  simp only at hr ⊢
  split at hr
  · simp at hr
  · rename_i t hv
    simpa [visitAll_extends h hn _ _ _ _ hv] using hr

theorem nested_extends (h : Extends f g) (hn : n ≤ m) :
    (Nested.ofStepper f n).Extends (Nested.ofStepper g m) :=
  ⟨blockWith_extends h hn, eachWith_extends h hn⟩

end

theorem step_extends (handlers : Handlers) (h : n ≤ m) :
    Extends (step handlers n) (step handlers m) := by
  induction n generalizing m with
  | zero => intro s r hr; simp [step] at hr
  | succ n ih =>
    obtain ⟨m, rfl⟩ : ∃ k, m = k + 1 := ⟨m - 1, by omega⟩
    have hle : n ≤ m := by omega
    exact dispatch_extends (nested_extends (ih hle) hle) handlers

end Playbook
