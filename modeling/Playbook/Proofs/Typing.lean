import Playbook.Proofs.Literals
import Playbook.Proofs.Programs

/-!
# Arguments have their declared types

A declared type with a variant of its own gives values of that variant only, whether it reads a text
or converts the value of a variable (`parse_has`, `accept_cases`). So a handler that reads an
argument with the accessor of its type never meets a value of another variant (`arguments_sound`):
what can go wrong is that the variable of the argument is undefined, or that its value is none of
the type.
-/

namespace Playbook

theorem Value.toCount?_int (k : Int64) : (Value.int k).toCount? =
    if k.toInt < 0 then
      .error (.type "non-negative int" "int" (Number.intText k.toInt ++ " is negative"))
    else .ok k.toInt.toNat := rfl

namespace ParamType

def isExact : ParamType → Bool
  | .any => false
  | .custom _ => false
  | _ => true

inductive Has : ParamType → Value → Prop
  | bool (b : Bool) : Has .bool (.bool b)
  | int (i : Int64) : Has .int (.int i)
  | float (x : Float) : Has .float (.float x)
  | str (s : String) : Has .str (.str s)
  | list (items : List Value) : Has .list (.list items)
  | actor (id : ActorId) : Has .actor (.actor id)

def Meaning : ParamType → Type
  | .bool => Bool
  | .int => Int64
  | .float => Float
  | .str => String
  | .list => List Value
  | .actor => ActorId
  | .any => Value
  | .custom _ => Value

def accessor : (type : ParamType) → Value → Except RuntimeError type.Meaning
  | .bool => Value.toBool?
  | .int => Value.toInt?
  | .float => Value.toFloat?
  | .str => Value.toText?
  | .list => Value.toItems?
  | .actor => Value.toActor?
  | .any => .ok
  | .custom _ => .ok

-- ---------------------------------------------------------------------------
-- Readings and conversions
-- ---------------------------------------------------------------------------

variable {type : ParamType}

theorem Has.accessor_ok (h : type.Has v) : ∃ m, type.accessor v = .ok m := by
  cases h <;> exact ⟨_, rfl⟩

theorem parse_has (hexact : type.isExact = true) (h : type.parse text = .ok v) : type.Has v := by
  cases type with
  | bool =>
    simp only [parse, parseBool] at h
    split at h
    · cases h; exact .bool true
    · split at h
      · cases h; exact .bool false
      · cases h
  | int =>
    simp only [parse] at h
    split at h
    · cases h; exact .int _
    · cases h
  | float =>
    simp only [parse] at h
    split at h
    · cases h; exact .float _
    · cases h
  | str => cases h; exact .str text
  | list => cases h; exact .list _
  | actor =>
    simp only [parse] at h
    split at h
    · cases h; exact .actor _
    · cases h
  | any => cases hexact
  | custom => cases hexact

theorem accept_text (hexact : type.isExact = true) (hstr : type ≠ .str) (text : String) :
    type.accept (.str text) = type.readValue text := by
  cases type with
  | str => exact absurd rfl hstr
  | any => cases hexact
  | custom => cases hexact
  | _ => rfl

theorem readValue_ok : (type.readValue text).result = .ok v ↔ type.parse text = .ok v := by
  rw [readValue, Reading.result_mapError, Except.mapError_ok]
  rfl

theorem readValue_error (h : (type.readValue text).result = .error e) :
    ∃ reason, e = .type type.name "string" reason := by
  rw [readValue, Reading.result_mapError] at h
  cases hread : (type.read text).result with
  | ok w => rw [hread] at h; cases h
  | error reason =>
    rw [hread] at h
    cases h
    exact ⟨reason, rfl⟩

/-- A conversion gives a value of the type, or an error that names the type. -/
theorem accept_cases (hexact : type.isExact = true) (v : Value) :
    (∃ w, (type.accept v).result = .ok w ∧ type.Has w) ∨
      ∃ detail, (type.accept v).result = .error (.type type.name v.typeName detail) := by
  cases v with
  | str text =>
    by_cases hstr : type = .str
    · subst hstr
      exact .inl ⟨_, rfl, .str text⟩
    · rw [accept_text hexact hstr]
      cases hread : (type.readValue text).result with
      | ok w => exact .inl ⟨w, rfl, parse_has hexact (readValue_ok.mp hread)⟩
      | error e =>
        obtain ⟨reason, rfl⟩ := readValue_error hread
        exact .inr ⟨reason, rfl⟩
  | int i =>
    cases type with
    | actor =>
      simp only [accept]
      split
      · exact .inr ⟨_, rfl⟩
      · exact .inl ⟨_, rfl, .actor _⟩
    | any => cases hexact
    | custom => cases hexact
    | _ => first | exact .inr ⟨_, rfl⟩ | exact .inl ⟨_, rfl, by constructor⟩
  | _ =>
    cases type with
    | any => cases hexact
    | custom => cases hexact
    | _ => first | exact .inr ⟨_, rfl⟩ | exact .inl ⟨_, rfl, by constructor⟩

theorem accept_has (hexact : type.isExact = true) (h : (type.accept v).result = .ok w) :
    type.Has w := by
  rcases accept_cases hexact v with ⟨w', hw', hhas⟩ | ⟨detail, herror⟩
  · cases h.symm.trans hw'
    exact hhas
  · cases h.symm.trans herror

theorem Has.accept (h : type.Has v) : type.accept v = .ok v := by
  cases h <;> rfl

end ParamType

-- ---------------------------------------------------------------------------
-- Arguments
-- ---------------------------------------------------------------------------

/-- The errors of an argument itself: its variable is undefined, or holds a value that is none of
the declared type. -/
inductive Slot.Complains (lookup : String → Option Value) : Slot → RuntimeError → Prop
  | undefined : lookup name = none → Slot.Complains lookup (.ref T name) (.undefinedVariable name)
  | type : lookup name = some v →
      Slot.Complains lookup (.ref T name) (.type T.name v.typeName detail)

theorem Slot.Primed.read_cases {s : Slot} (hs : s.Primed) (hexact : s.type.isExact = true)
    (lookup : String → Option Value) :
    (∃ v, (s.read lookup).result = .ok v ∧ s.type.Has v) ∨
      ∃ e, (s.read lookup).result = .error e ∧ s.Complains lookup e := by
  cases s with
  | literal T text cached =>
    obtain ⟨v, rfl, hv⟩ := hs
    exact .inl ⟨v, rfl, ParamType.parse_has hexact hv⟩
  | ref T name =>
    cases hname : lookup name with
    | none => exact .inr ⟨.undefinedVariable name, by simp [read_ref, hname], .undefined hname⟩
    | some v =>
      have hread : (Slot.ref T name).read lookup = T.accept v := by simp [read_ref, hname]
      rw [hread]
      rcases ParamType.accept_cases hexact v with hw | ⟨detail, herror⟩
      · exact .inl hw
      · exact .inr ⟨_, herror, .type hname⟩

inductive Action.IsCompiled (a : Action) : Prop
  | words : (Compile.tokens r site ts).result = .ok a → Action.IsCompiled a
  | source : (compile r unit text).result = .ok u → script ∈ u.scripts → a ∈ script.actions →
      Action.IsCompiled a

theorem Action.IsCompiled.primed {a : Action} (h : a.IsCompiled) : a.Primed := by
  rcases h with hwords | ⟨hu, hscript, ha⟩
  · exact (Compile.tokens_literals _ _ _ a hwords).2
  · exact (compile_literals _ _ _ _ hu).2 _ hscript a ha

def State.HasArgument (st : State) (i : Nat) (s : Slot) : Prop :=
  ∃ a, st.context.current = some a ∧ a.slots[i]? = some s

def Slot.FailsIn (s : Slot) (st : State) (x : Ending α) : Prop :=
  ∃ e, x = .error e ∧ (s.read st.context.lookup).result = .error e ∧
    s.Complains st.context.lookup e

structure Slot.Sound (s : Slot) : Prop where
  value : ∀ lookup v, (s.read lookup).result = .ok v → s.type.Has v
  /-- A handler that uses the accessor of the type fails only as the argument does. -/
  handler : ∀ nested st i, st.HasArgument i s →
    ∃ x t, (Prog.argumentAs i s.type.accessor).exec nested st = some (x, t) ∧
      ((∃ m, x = .value m) ∨ s.FailsIn st x)
  /-- A handler that wants a count fails in addition on a negative number, and on nothing else. -/
  count : s.type = .int → ∀ nested st i, st.HasArgument i s →
    ∃ x t, (Prog.argumentAs i Value.toCount?).exec nested st = some (x, t) ∧
      ((∃ n, x = .value n) ∨ s.FailsIn st x ∨
        ∃ k : Int64, (s.read st.context.lookup).result = .ok (.int k) ∧ k.toInt < 0 ∧
          x = .error (.type "non-negative int" "int" (Number.intText k.toInt ++ " is negative")))

theorem State.HasArgument.exec {st : State} (h : st.HasArgument i s) (nested : Nested)
    (get : Value → Except RuntimeError α) :
    ∃ t, (Prog.argumentAs i get).exec nested st =
      some (.ofExcept ((s.read st.context.lookup).result >>= get), t) := by
  obtain ⟨a, ha, hs⟩ := h
  refine ⟨(st.argument i get).2, ?_⟩
  have hslot : st.context.readSlot i = s.read st.context.lookup := by
    simp [Context.readSlot, ha, hs]
  rw [Prog.exec_argumentAs, State.argument, hslot]

theorem Slot.Primed.sound {s : Slot} (hs : s.Primed) (hexact : s.type.isExact = true) :
    s.Sound where
  value lookup v hv := by
    rcases hs.read_cases hexact lookup with ⟨w, hw, hhas⟩ | ⟨e, he, -⟩
    · cases hv.symm.trans hw
      exact hhas
    · cases hv.symm.trans he
  handler nested st i hst := by
    obtain ⟨t, ht⟩ := hst.exec nested s.type.accessor
    refine ⟨_, t, ht, ?_⟩
    rcases hs.read_cases hexact st.context.lookup with ⟨v, hv, hhas⟩ | ⟨e, he, hcomplains⟩
    · obtain ⟨m, hm⟩ := hhas.accessor_ok
      rw [hv]
      exact .inl ⟨m, congrArg Ending.ofExcept hm⟩
    · refine .inr ⟨e, ?_, he, hcomplains⟩
      rw [he]
      rfl
  count hint nested st i hst := by
    obtain ⟨t, ht⟩ := hst.exec nested Value.toCount?
    refine ⟨_, t, ht, ?_⟩
    rcases hs.read_cases hexact st.context.lookup with ⟨v, hv, hhas⟩ | ⟨e, he, hcomplains⟩
    · obtain ⟨k, rfl⟩ : ∃ k, v = .int k := by
        rw [hint] at hhas
        cases hhas with
        | int k => exact ⟨k, rfl⟩
      rw [hv]
      have hcount := Value.toCount?_int k
      by_cases hneg : k.toInt < 0
      · rw [if_pos hneg] at hcount
        exact .inr (.inr ⟨k, rfl, hneg, congrArg Ending.ofExcept hcount⟩)
      · rw [if_neg hneg] at hcount
        exact .inl ⟨_, congrArg Ending.ofExcept hcount⟩
    · refine .inr (.inl ⟨e, ?_, he, hcomplains⟩)
      rw [he]
      rfl

/-- Arguments of a type with a variant of its own are read as values of that variant; converting a
value twice is converting it once, and a text in a variable is converted as it is read as a
literal. -/
theorem arguments_sound {T : ParamType} (hexact : T.isExact = true) :
    (∀ a : Action, a.IsCompiled → ∀ s ∈ a.slots, s.type = T → s.Sound) ∧
    (∀ v w, (T.accept v).result = .ok w → (T.accept w).result = .ok w) ∧
    (T ≠ .str → ∀ text v, (T.accept (.str text)).result = .ok v ↔ T.parse text = .ok v) := by
  refine ⟨?_, ?_, ?_⟩
  · rintro a ha s hs rfl
    exact (ha.primed s hs).sound hexact
  · intro v w h
    rw [(ParamType.accept_has hexact h).accept]
    rfl
  · intro hstr text v
    rw [ParamType.accept_text hexact hstr, ParamType.readValue_ok]

/-- The actor of a For statement comes from a variable, which may hold a number or a text. -/
theorem arguments_sound_actor : ParamType.actor.isExact = true ∧
    (∃ a, (Compile.tokens .builtins ⟨"crew", 1⟩
        [.bare "For", .bare "$who", .bare "Stop"]).result = .ok a ∧
      Slot.ref .actor "who" ∈ a.slots ∧ (Slot.ref .actor "who").Sound) ∧
    (ParamType.actor.accept (.int 7)).result = .ok (.actor 7) ∧
    (ParamType.actor.accept (.actor 7)).result = .ok (.actor 7) ∧
    (ParamType.actor.accept (.str "7")).result = .ok (.actor 7) := by
  obtain ⟨hsound, hagain, htext⟩ := arguments_sound (T := .actor) rfl
  have hint : (ParamType.actor.accept (.int 7)).result = .ok (.actor 7) := rfl
  have hparse : ParamType.actor.parse "7" = .ok (.actor 7) := rfl
  let a : Action :=
    { definition := (Registry.builtins.find? "For").get rfl
      slots := [.ref .actor "who", .literal .str "Stop" (some (.str "Stop"))]
      output := none
      overflow := [], line := 1 }
  have ha : (Compile.tokens .builtins ⟨"crew", 1⟩
      [.bare "For", .bare "$who", .bare "Stop"]).result = .ok a := rfl
  have hmem : Slot.ref .actor "who" ∈ a.slots := List.mem_cons_self
  exact ⟨rfl, ⟨a, ha, hmem, hsound a (.words ha) _ hmem rfl⟩, hint, hagain _ _ hint,
    (htext (by simp) "7" _).mpr hparse⟩

end Playbook
