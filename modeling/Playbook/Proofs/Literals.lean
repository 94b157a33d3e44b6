import Playbook.Proofs.Contents

/-!
# Literals are read when they are compiled

A slot is made without a value. Compiling primes it, and a literal that is primed holds the value of
its text from then on; a variable is not read then. So the readings that compiling makes are those
of the literals of the unit, one for each and in their order (`compile_literals`). A slot that is
primed is not read again, and nothing is written to it any more (`Slot.Primed.resolve`).
-/

namespace Playbook

-- ---------------------------------------------------------------------------
-- What readings make sure of
-- ---------------------------------------------------------------------------

/-- If the reading succeeds, `P` holds of its calls and of what it gives. -/
def Reading.Ensures (x : Reading ε α) (P : List ParseCall → α → Prop) : Prop :=
  ∀ a, x.result = .ok a → P x.calls a

namespace Reading.Ensures

variable {P : List ParseCall → α → Prop}

theorem ok (h : P [] a) : (Reading.ok a : Reading ε α).Ensures P := by
  rintro _ ⟨⟩
  exact h

theorem fail (e : ε) : (Reading.fail e : Reading ε α).Ensures P := by
  rintro _ ⟨⟩

theorem bind {x : Reading ε α} {f : α → Reading ε β} {Q : List ParseCall → β → Prop}
    (hx : x.Ensures P)
    (hf : ∀ calls a, P calls a → (f a).Ensures fun more b => Q (calls ++ more) b) :
    (x >>= f).Ensures Q := by
  intro b hb
  obtain ⟨a, ha, hb⟩ := Reading.bind_ok.mp hb
  have hcalls : (x >>= f).calls = x.calls ++ (f a).calls := by
    simp [Bind.bind, Reading.bind, ha]
  rw [hcalls]
  exact hf _ a (hx a ha) b hb

theorem mapError {x : Reading ε α} (hx : x.Ensures P) (f : ε → ε') :
    (x.mapError f).Ensures P := by
  intro a ha
  exact hx a (Except.mapError_ok.mp ha)

end Reading.Ensures

-- ---------------------------------------------------------------------------
-- Literals
-- ---------------------------------------------------------------------------

def Slot.call? : Slot → Option ParseCall
  | .literal type text _ => some ⟨type, text⟩
  | .ref _ _ => none

/-- A literal holds the value that its text reads as. -/
def Slot.Primed : Slot → Prop
  | .literal type text cached => ∃ v, cached = some v ∧ type.parse text = .ok v
  | .ref _ _ => True

namespace Slot

/-- A slot that was empty is primed with one reading, if it is a literal. -/
theorem prime_empty {s : Slot} (h : s.value? = none) :
    s.prime.Ensures fun calls s' => calls = s'.call?.toList ∧ s'.Primed := by
  cases s with
  | ref type name => exact .ok ⟨rfl, trivial⟩
  | literal type text cached =>
    obtain rfl : cached = none := h
    have hread : (type.read text).Ensures fun calls v =>
        calls = [⟨type, text⟩] ∧ type.parse text = .ok v :=
      fun v hv => ⟨rfl, hv⟩
    refine .bind hread ?_
    rintro calls v ⟨rfl, hv⟩
    exact .ok ⟨rfl, v, rfl, hv⟩

theorem Primed.resolve {s : Slot} (h : s.Primed) (lookup : String → Option Value) :
    (s.resolve lookup).Ensures fun _ r => r.2 = s := by
  cases s with
  | literal type text cached =>
    obtain ⟨v, rfl, -⟩ := h
    exact .ok rfl
  | ref type name =>
    simp only [Slot.resolve]
    split
    · exact .fail _
    · rename_i v _
      have hread : (type.accept v).Ensures fun _ _ => True := fun _ _ => trivial
      exact .bind hread fun _ _ _ => .ok rfl

theorem Primed.read_literal {type : ParamType} (h : (literal type text cached).Primed)
    (lookup : String → Option Value) :
    ∃ v, cached = some v ∧ type.parse text = .ok v ∧
      (literal type text cached).read lookup = .ok v := by
  obtain ⟨v, rfl, hv⟩ := h
  exact ⟨v, rfl, hv, rfl⟩

end Slot

namespace Action

def calls (a : Action) : List ParseCall := a.slots.filterMap Slot.call?

def Primed (a : Action) : Prop := ∀ s ∈ a.slots, s.Primed

end Action

def ScriptUnit.calls (u : ScriptUnit) : List ParseCall :=
  (u.scripts.flatMap Script.actions).flatMap Action.calls

def ScriptUnit.Primed (u : ScriptUnit) : Prop :=
  ∀ script ∈ u.scripts, ∀ a ∈ script.actions, a.Primed

namespace Compile

theorem slotOf?_empty (h : slotOf? type t = some s) : s.value? = none := by
  unfold slotOf? at h
  split at h
  · split at h
    · cases h
    · cases h
      rfl
  · cases h
    rfl

theorem bindToken_literals (site : Site) (action : String) (spec : ParamSpec) (t : Token) :
    (bindToken site action spec t).Ensures fun calls s => calls = s.call?.toList ∧ s.Primed := by
  unfold bindToken
  split
  · exact .fail _
  · rename_i slot hslot
    exact .mapError (Slot.prime_empty (slotOf?_empty hslot)) _

theorem bindParam_literals (site : Site) (action : String) (args : List Token)
    (spec : ParamSpec) :
    (bindParam site action args spec).Ensures fun calls s =>
      calls = s.call?.toList ∧ s.Primed := by
  unfold bindParam
  split
  · exact bindToken_literals site action spec _
  · exact bindToken_literals site action spec _
  · exact .fail _

theorem bindParams_literals (site : Site) (action : String) (args : List Token)
    (specs : List ParamSpec) :
    (bindParams site action args specs).Ensures fun calls slots =>
      calls = slots.filterMap Slot.call? ∧ ∀ s ∈ slots, s.Primed := by
  induction specs with
  | nil => exact .ok ⟨rfl, by simp⟩
  | cons spec specs ih =>
    refine .bind (bindParam_literals site action args spec) ?_
    rintro calls s ⟨rfl, hs⟩
    refine .bind ih ?_
    rintro calls slots ⟨rfl, hslots⟩
    refine .ok ⟨?_, List.forall_mem_cons.mpr ⟨hs, hslots⟩⟩
    cases hcall : s.call? <;> simp [hcall]

theorem tokens_literals (r : Registry) (site : Site) (ts : List Token) :
    (tokens r site ts).Ensures fun calls a => calls = a.calls ∧ a.Primed := by
  cases ts with
  | nil => exact .fail _
  | cons head rest =>
    simp only [tokens]
    split
    · exact .fail _
    · rename_i d _
      split
      · exact .fail _
      · rename_i args output _
        refine .bind (bindParams_literals site d.id args d.params) ?_
        rintro calls slots ⟨rfl, hslots⟩
        dsimp only
        split
        · exact .fail _
        · exact .ok ⟨by simp [Action.calls], hslots⟩

theorem action_primed (h : (action r unit name args).result = .ok a) : a.Primed :=
  (tokens_literals r ⟨unit, 0⟩ _ a h).2

/-- What compiling has read is what the draft has grown by. -/
def Draft.Reads (d : Draft) (calls : List ParseCall) (d' : Draft) : Prop :=
  d'.actions.flatMap Action.calls = d.actions.flatMap Action.calls ++ calls ∧
    ((∀ a ∈ d.actions, a.Primed) → ∀ a ∈ d'.actions, a.Primed)

theorem Draft.Reads.trans {d : Draft} (h : d.Reads calls d') (h' : d'.Reads more d'') :
    d.Reads (calls ++ more) d'' :=
  ⟨by rw [h'.1, h.1, List.append_assoc], fun hd => h'.2 (h.2 hd)⟩

theorem line_literals (r : Registry) (site : Site) (d : Draft) (cs : List Char) :
    (line r site d cs).Ensures d.Reads := by
  have hsame (d' : Draft) (hd' : d'.actions = d.actions) : d.Reads [] d' := by
    simp [Draft.Reads, hd']
  unfold line
  split
  · exact .ok (hsame d rfl)
  · split
    · exact .fail _
    · split
      · exact .fail _
      · exact .ok (hsame _ (d.actions_openSection _))
  · split
    · exact .fail _
    · refine .bind (tokens_literals r site _) ?_
      rintro calls a ⟨rfl, ha⟩
      refine .ok ⟨by simp [d.actions_push], fun hd => ?_⟩
      rw [d.actions_push]
      exact List.forall_mem_append.mpr ⟨hd, by simpa using ha⟩

theorem linesFrom_literals (r : Registry) (unit : String) (n : Nat) (d : Draft)
    (ls : List (List Char)) : (linesFrom r unit n d ls).Ensures d.Reads := by
  induction ls generalizing n d with
  | nil => exact .ok ⟨by simp, id⟩
  | cons cs rest ih =>
    refine .bind (line_literals r ⟨unit, n⟩ d cs) fun calls d' hd' d'' hd'' => ?_
    exact hd'.trans (ih (n + 1) d' d'' hd'')

end Compile

/-- Compiling reads every literal once, and nothing else. -/
theorem compile_literals (r : Registry) (unit source : String) :
    (compile r unit source).Ensures fun calls u => calls = u.calls ∧ u.Primed := by
  refine .bind (Compile.linesFrom_literals r unit 1 .empty (Text.lines source.toList)) ?_
  rintro calls d ⟨hcalls, hprimed⟩
  refine .ok ⟨?_, fun script hscript a ha => ?_⟩
  · rw [List.append_nil, ScriptUnit.calls, Compile.Draft.actions_scripts, hcalls]
    rfl
  · have hmem : a ∈ (d.scripts r unit).flatMap Script.actions :=
      List.mem_flatMap.mpr ⟨script, hscript, ha⟩
    rw [Compile.Draft.actions_scripts] at hmem
    exact hprimed (by simp [Compile.Draft.actions, Compile.Draft.empty]) a hmem

end Playbook
