import Playbook.Proofs.Acceptance
import Playbook.Proofs.Typing

/-!
# Literals that are stored first

A Set statement with a literal stores the value that the text alone suggests, before it is known
what the variable will be used for. For conditions, counts and arguments of any type this makes no
difference (`stored_literal_read`): the variable is taken exactly if the literal itself would have
compiled, and gives the same value. A text that spells a truth value in capitals is stored as a
text, and a number that does not fit as a float or a text, and each is then read as the literal
would have been.
-/

namespace Playbook

-- ---------------------------------------------------------------------------
-- Truth values are no numbers
-- ---------------------------------------------------------------------------

namespace Number

theorem toLower_of_digit (h : digit? c = some d) : c.toLower = c := by
  unfold digit? at h
  split at h
  · rename_i hc
    have hsmall : ¬ 'A'.val ≤ c.val := by
      have hnine : c.val ≤ '9'.val := hc.2
      rw [UInt32.le_iff_toNat_le] at hnine ⊢
      simp at hnine ⊢
      omega
    exact dif_neg fun hupper => hsmall hupper.1
  · cases h

structure StartsNoNumber (c : Char) : Prop where
  digit : digit? c = none
  minus : c ≠ '-'
  plus : c ≠ '+'
  point : c ≠ '.'

theorem startsNoNumber_of_toLower (h : c.toLower = 't' ∨ c.toLower = 'f') : StartsNoNumber c := by
  refine ⟨?_, ?_, ?_, ?_⟩
  · cases hd : digit? c with
    | none => rfl
    | some d =>
      rw [toLower_of_digit hd] at h
      rcases h with rfl | rfl <;> cases hd
  all_goals
    rintro rfl
    revert h
    decide

theorem readSigned_of_startsNoNumber (h : StartsNoNumber c) :
    readSigned (c :: cs) = .error .invalidDigit := by
  rw [readSigned]
  · simp [readMagnitude, readDigits, h.digit, Except.map]
  · simp
  · simp [h.minus]
  · simp [h.plus]

theorem readDecimal_of_startsNoNumber (h : StartsNoNumber c) : readDecimal (c :: cs) = none := by
  have hc : isDigit c = false := by simp [isDigit, h.digit]
  have hrest : (c :: cs).dropWhile isDigit = c :: cs := by simp [hc]
  have hwhole : (c :: cs).takeWhile isDigit = [] := by simp [hc]
  unfold readDecimal
  simp only [hrest, hwhole]
  split
  · rename_i heq
    exact absurd (List.cons.inj heq).1 h.point
  · simp

theorem readFloat_of_startsNoNumber (h : StartsNoNumber c) (hword : readWord (c :: cs) = none) :
    readFloat (c :: cs) = .error .invalid := by
  rw [readFloat]
  · simp [readUnsignedFloat, readDecimal_of_startsNoNumber h, hword]
  · simp
  · simp [h.minus]
  · simp [h.plus]

end Number

theorem ParamType.parseBool_toString (b : Bool) : parseBool (toString b) = .ok (.bool b) := by
  cases b <;> rfl

/-- A text that reads as a truth value is read neither as an integer nor as a float. -/
theorem ParamType.parseBool_no_number (h : parseBool text = .ok v) :
    (∀ i, Number.readSigned text.toList ≠ .ok i) ∧
      ∀ x, Number.readFloat text.toList ≠ .ok x := by
  have hword : text.toList.map Char.toLower = ['t', 'r', 'u', 'e'] ∨
      text.toList.map Char.toLower = ['f', 'a', 'l', 's', 'e'] := by
    simp only [parseBool] at h
    split at h
    · exact .inl ‹_›
    · split at h
      · exact .inr ‹_›
      · cases h
  obtain ⟨c, cs, hcs⟩ : ∃ c cs, text.toList = c :: cs := by
    cases hcs : text.toList with
    | nil => simp [hcs] at hword
    | cons c cs => exact ⟨c, cs, rfl⟩
  rw [hcs] at hword ⊢
  have hstart : Number.StartsNoNumber c := by
    refine Number.startsNoNumber_of_toLower ?_
    rcases hword with hword | hword
    · exact .inl (List.cons.inj hword).1
    · exact .inr (List.cons.inj hword).1
  have hnone : Number.readWord (c :: cs) = none := by
    unfold Number.readWord
    rcases hword with hword | hword <;> rw [hword] <;> rfl
  rw [Number.readSigned_of_startsNoNumber hstart, Number.readFloat_of_startsNoNumber hstart hnone]
  exact ⟨by simp, by simp⟩

-- ---------------------------------------------------------------------------
-- Values inferred from texts
-- ---------------------------------------------------------------------------

inductive Value.Inferred (text : String) : Value → Prop
  | truth : text = toString b → Value.Inferred text (.bool b)
  | int : Number.readSigned text.toList = .ok i → Value.Inferred text (.int i)
  | float : (∀ i, Number.readSigned text.toList ≠ .ok i) → Number.readFloat text.toList = .ok x →
      Value.Inferred text (.float x)
  | str : (∀ i, Number.readSigned text.toList ≠ .ok i) → Value.Inferred text (.str text)

theorem Value.infer_inferred (text : String) : Value.Inferred text (infer text) := by
  unfold infer
  split
  · exact .truth ‹_›
  split
  · exact .truth ‹_›
  cases hint : Number.readSigned text.toList with
  | ok i => exact .int hint
  | error e =>
    have hno : ∀ i, Number.readSigned text.toList ≠ .ok i := by simp [hint]
    cases hfloat : Number.readFloat text.toList with
    | error e => exact .str hno
    | ok x =>
      dsimp only
      split
      · exact .float hno hfloat
      · exact .str hno

namespace ParamType

theorem accept_infer_bool (text : String) :
    (bool.accept (Value.infer text)).result = .ok v ↔ bool.parse text = .ok v := by
  have hinferred := Value.infer_inferred text
  generalize Value.infer text = w at hinferred ⊢
  cases hinferred with
  | @truth b htext =>
    have hparse : bool.parse text = .ok (.bool b) := htext ▸ parseBool_toString b
    simp only [hparse, (Has.bool b).accept, Reading.result_ok, Except.ok.injEq]
  | int hint => exact iff_of_false (by simp [accept]) fun h => (parseBool_no_number h).1 _ hint
  | float _ hfloat =>
    exact iff_of_false (by simp [accept]) fun h => (parseBool_no_number h).2 _ hfloat
  | str => exact readValue_ok

theorem parse_int_ok : int.parse text = .ok v ↔
    ∃ i, Number.readSigned text.toList = .ok i ∧ v = .int i := by
  simp only [parse]
  cases Number.readSigned text.toList with
  | ok i => simp [eq_comm]
  | error e => simp

theorem accept_infer_int (text : String) :
    (int.accept (Value.infer text)).result = .ok v ↔ int.parse text = .ok v := by
  have hinferred := Value.infer_inferred text
  have hnone (hno : ∀ i, Number.readSigned text.toList ≠ .ok i) : int.parse text ≠ .ok v := by
    rw [ne_eq, parse_int_ok]
    rintro ⟨i, hi, -⟩
    exact hno i hi
  generalize Value.infer text = w at hinferred ⊢
  cases hinferred with
  | @truth b htext =>
    have hno := (parseBool_no_number (htext ▸ parseBool_toString b)).1
    exact iff_of_false (by simp [accept]) (hnone hno)
  | @int i hint =>
    have hparse : int.parse text = .ok (.int i) := parse_int_ok.mpr ⟨i, hint, rfl⟩
    simp only [hparse, (Has.int i).accept, Reading.result_ok, Except.ok.injEq]
  | float hno => exact iff_of_false (by simp [accept]) (hnone hno)
  | str => exact readValue_ok

/-- A stored literal is taken exactly if it could have been written in its place. -/
theorem accept_infer {T : ParamType} (hT : T = .bool ∨ T = .int ∨ T = .any) (text : String) :
    (T.accept (Value.infer text)).result = .ok v ↔ T.parse text = .ok v := by
  rcases hT with rfl | rfl | rfl
  · exact accept_infer_bool text
  · exact accept_infer_int text
  · simp only [accept, parse, Reading.result_ok, Except.ok.injEq]

end ParamType

-- ---------------------------------------------------------------------------
-- Set statements
-- ---------------------------------------------------------------------------

namespace Builtin

def storeDefinition : Definition :=
  definition .store "Set" "Store a value" [.required "value" "" .any] false

theorem find?_store : Registry.builtins.find? "Set" = some storeDefinition := rfl

def storing (text : String) (output : Option String) (line : Nat) : Action :=
  { definition := storeDefinition, slots := [.literal .any text (some (Value.infer text))],
    output, overflow := [], line }

theorem exec_store (nested : Nested) {st : State} (h : (st.context.readSlot 0).result = .ok v) :
    ∃ w, storeHandler.exec nested st = some (.value .proceed, ⟨st.context.setResult v, w⟩) := by
  simp only [storeHandler, Prog.argument, Prog.setResult, Prog.context, Prog.setVariable,
    Prog.bind_eq, Prog.exec_bind, Prog.exec, Effect.run, World.perform, h, Prog.ofExcept]
  exact ⟨_, rfl⟩

end Builtin

open Builtin Compile

theorem Compile.tokens_store {r : Registry} (hr : r.find? "Set" = some storeDefinition)
    {word : Token} (hword : ¬ word.IsReference) (harrow : word ≠ .bare "->")
    (hout : output ≠ some "") (site : Site) :
    (tokens r site (.bare "Set" :: word :: outputWords output)).result =
      .ok (storing word.text output site.line) := by
  have hsplit : splitOutput (word :: outputWords output) = some ([word], output) := by
    have hargs : ∀ t ∈ [word], isArrow t = false := by simpa [isArrow_eq] using harrow
    exact splitOutput_words hargs hout
  have hslots : (bindParams site "Set" [word] storeDefinition.params).result =
      .ok [.literal .any word.text (some (Value.infer word.text))] :=
    bindParams_ok_iff.mpr (.cons (bindParam_ok_iff.mpr ⟨word, rfl, .literal hword rfl⟩) .nil)
  simp only [tokens, Token.bare, hr, hsplit]
  exact bindStatement_ok_iff.mpr ⟨_, hslots, .inr (Nat.le_refl 1), rfl⟩

theorem step_store {st : State} {line : Nat}
    (ha : st.context.actions[st.context.index]? = some (storing text output line)) :
    ∃ t, step handlers (n + 1) st = some (.ok .proceed, t) ∧
      t.context.lookup (output.getD "result") = some (Value.infer text) := by
  have hcurrent : st.entered.context.current = some (storing text output line) := ha
  have hread : (st.entered.context.readSlot 0).result = .ok (Value.infer text) := by
    simp [Context.readSlot, hcurrent, storing]
  obtain ⟨w, hexec⟩ := exec_store (.ofStepper (step handlers n) n) hread
  let c := st.entered.context.setResult (Value.infer text)
  have hname : st.entered.context.outputName = output.getD "result" := by
    simp only [Context.outputName, hcurrent, storing]
  have hlookup : c.lookup (output.getD "result") = some (Value.infer text) := by
    simp [c, Context.lookup, Context.setResult, Context.setVariable, hname, Table.get?_set]
  have hmove : c.setIndex (st.context.index + 1) = .ok { c with index := st.context.index + 1 } :=
    Context.setIndex_ok (List.getElem?_eq_some_iff.mp ha).1
  have hsettle : settle st.context.index .proceed ⟨c, w⟩ =
      (.ok .proceed, ⟨{ c with index := st.context.index + 1 }, w⟩) := by
    have hindex : c.index = st.context.index := rfl
    simp [settle, Flags.proceed, hindex, hmove]
  refine ⟨⟨{ c with index := st.context.index + 1 }, w⟩, ?_, hlookup⟩
  rw [step, dispatch_some ha]
  simp only [storing, storeDefinition, definition, Behaviour.handler, handler, hexec, Ending.answer]
  exact congrArg some hsettle

/-- A word and a variable do the same for a parameter: the one compiles exactly if the other can be
read, and both give the same value. -/
structure Token.SameAs (word : Token) (name : String) (spec : ParamSpec)
    (lookup : String → Option Value) : Prop where
  compiles : ∀ site id, (∃ s, (bindToken site id spec word).result = .ok s) ↔
    ∃ v, ((Slot.ref spec.type name).read lookup).result = .ok v
  value : ∀ site id s v, (bindToken site id spec word).result = .ok s →
    ((Slot.ref spec.type name).read lookup).result = .ok v →
    ∀ anywhere, (s.read anywhere).result = .ok v

theorem Token.sameAs_stored {word : Token} (hword : ¬ word.IsReference) {spec : ParamSpec}
    (hT : spec.type = .bool ∨ spec.type = .int ∨ spec.type = .any)
    (hlookup : lookup name = some (Value.infer word.text)) :
    word.SameAs name spec lookup := by
  have hread : (Slot.ref spec.type name).read lookup =
      spec.type.accept (Value.infer word.text) := by
    simp [Slot.read_ref, hlookup]
  have hliteral {s : Slot} : s.Binds spec word ↔
      ∃ v, spec.type.parse word.text = .ok v ∧ s = .literal spec.type word.text (some v) := by
    constructor
    · rintro (⟨heq, -⟩ | ⟨-, hparse⟩)
      · exact absurd ⟨_, heq⟩ hword
      · exact ⟨_, hparse, rfl⟩
    · rintro ⟨v, hparse, rfl⟩
      exact .literal hword hparse
  refine ⟨fun site id => ?_, fun site id s v hs hv => ?_⟩
  · simp only [bindToken_ok_iff, hliteral, hread, ParamType.accept_infer hT]
    rw [exists_comm]
    simp only [exists_and_left, exists_eq, and_true]
  · rw [hread, ParamType.accept_infer hT] at hv
    obtain ⟨v', hv', rfl⟩ := hliteral.mp (bindToken_ok_iff.mp hs)
    cases hv.symm.trans hv'
    exact fun _ => rfl

/-- An argument can be written as a literal exactly if it can be read from the variable in which a
Set statement has stored the same text, and is then the same value. -/
theorem stored_literal_read {r : Registry} (hr : r.find? "Set" = some storeDefinition)
    {stored : Token} (hstored : ¬ stored.IsReference) (harrow : stored ≠ .bare "->")
    {output : Option String} (hout : output ≠ some "") (site : Site) :
    ∃ a, (tokens r site (.bare "Set" :: stored :: outputWords output)).result = .ok a ∧
      ∀ handlers n st, st.context.actions[st.context.index]? = some a →
        ∃ t, step handlers (n + 1) st = some (.ok .proceed, t) ∧
          ∀ lookup, lookup (output.getD "result") = t.context.lookup (output.getD "result") →
            ∀ (word : Token) (spec : ParamSpec), ¬ word.IsReference → word.text = stored.text →
              spec.type = .bool ∨ spec.type = .int ∨ spec.type = .any →
              word.SameAs (output.getD "result") spec lookup := by
  refine ⟨_, tokens_store hr hstored harrow hout site, fun handlers n st ha => ?_⟩
  obtain ⟨t, hstep, hlookup⟩ := step_store ha
  refine ⟨t, hstep, fun lookup hkept word spec hword htext hT => ?_⟩
  rw [← htext] at hlookup
  exact Token.sameAs_stored hword hT (hkept.trans hlookup)

/-- A truth value in capitals is stored as a text, and read as a truth value where one is wanted. -/
theorem stored_literal_read_capitals : Registry.builtins.find? "Set" = some storeDefinition ∧
    ¬ (Token.bare "TRUE").IsReference ∧ Value.infer "TRUE" = .str "TRUE" ∧
    ∃ a, (tokens .builtins ⟨"flags", 1⟩ [.bare "Set", .bare "TRUE"]).result = .ok a ∧
      ∃ t, step .none 1 ⟨.fresh 1 "flags" .builtins (.shared [a]) none, .initial fun _ => 0⟩ =
          some (.ok .proceed, t) ∧
        (Token.bare "TRUE").SameAs "result" (.required "condition" "" .bool) t.context.lookup ∧
        ((Slot.ref .bool "result").read t.context.lookup).result = .ok (.bool true) := by
  have hword : ¬ (Token.bare "TRUE").IsReference := variableName?_eq_none.mp rfl
  have hout : (none : Option String) ≠ some "" := by simp
  obtain ⟨a, ha, hstored⟩ :=
    stored_literal_read find?_store hword (by decide) hout ⟨"flags", 1⟩
  obtain ⟨t, hstep, hread⟩ := hstored .none 0
    ⟨.fresh 1 "flags" .builtins (.shared [a]) none, .initial fun _ => 0⟩ rfl
  have hsame : (Token.bare "TRUE").SameAs "result" (.required "condition" "" .bool)
      t.context.lookup := hread _ rfl _ _ hword rfl (.inl rfl)
  have hparse : ParamType.parse .bool "TRUE" = .ok (.bool true) := rfl
  have hbind : (bindToken ⟨"flags", 2⟩ "If" (.required "condition" "" .bool)
      (.bare "TRUE")).result = .ok (.literal .bool "TRUE" (some (.bool true))) :=
    bindToken_ok_iff.mpr (.literal hword hparse)
  obtain ⟨v, hv⟩ := (hsame.compiles ⟨"flags", 2⟩ "If").mp ⟨_, hbind⟩
  cases hsame.value _ _ _ _ hbind hv t.context.lookup
  exact ⟨find?_store, hword, rfl, a, ha, t, hstep, hsame, hv⟩

end Playbook
