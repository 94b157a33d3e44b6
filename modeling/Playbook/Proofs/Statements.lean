import Mathlib.Data.List.Forall2
import Playbook.Compile
import Playbook.Proofs.Registries
import Playbook.Proofs.Words

/-!
# Statements and their words

What compiling the words of a statement gives (`Action.Bound`), and that the
words of an action that was compiled compile to that action again
(`tokens_words`). Each lemma of the first part reads one function's success as
the rule it decides.
-/

namespace Playbook

-- ---------------------------------------------------------------------------
-- Readings that succeed
-- ---------------------------------------------------------------------------

theorem Reading.bind_ok {x : Reading ε α} {f : α → Reading ε β} :
    (x >>= f).result = .ok b ↔ ∃ a, x.result = .ok a ∧ (f a).result = .ok b := by
  rw [Reading.result_bind]
  cases x.result <;> simp [Bind.bind, Except.bind]

@[simp] theorem Reading.result_ok (a : α) : (Reading.ok a : Reading ε α).result = .ok a := rfl

@[simp] theorem Compile.Site.fail_ok {site : Compile.Site} :
    (site.fail fault : Reading CompileError α).result = .ok a ↔ False := by
  simp [Compile.Site.fail]

theorem Except.mapError_ok {x : Except ε α} {f : ε → ε'} : x.mapError f = .ok a ↔ x = .ok a := by
  cases x <;> simp [Except.mapError]

theorem forall₂_mem_left {R : α → β → Prop} (h : List.Forall₂ R as bs) (ha : a ∈ as) :
    ∃ b ∈ bs, R a b := by
  induction h with
  | nil => simp at ha
  | cons hab _ ih =>
    rcases List.mem_cons.mp ha with rfl | ha
    · exact ⟨_, List.mem_cons_self, hab⟩
    · obtain ⟨b, hb, hR⟩ := ih ha
      exact ⟨b, List.mem_cons_of_mem _ hb, hR⟩

theorem forall₂_mem_right {R : α → β → Prop} (h : List.Forall₂ R as bs) (hb : b ∈ bs) :
    ∃ a ∈ as, R a b :=
  forall₂_mem_left (R := flip R) h.flip hb

-- ---------------------------------------------------------------------------
-- Arguments
-- ---------------------------------------------------------------------------

def Slot.word : Slot → Token
  | .literal _ text _ => .literal text
  | .ref _ name => .bare ("$" ++ name)

theorem Slot.word_toSource (s : Slot) : s.word.toSource = s.toSource := by
  cases s <;> rfl

/-- An argument that fits a parameter: a literal has the value its text is read
as, and a variable has a name. -/
inductive Slot.Fits (spec : ParamSpec) : Slot → Prop
  | literal : spec.type.parse text = .ok v → Slot.Fits spec (.literal spec.type text (some v))
  | ref : name ≠ "" → Slot.Fits spec (.ref spec.type name)

namespace Compile

variable {site : Site} {action : String}

theorem variableName?_bare (name : String) : variableName? (.bare ("$" ++ name)) = some name := by
  simp [variableName?, Token.bare]

theorem variableName?_quoted {t : Token} (h : t.quoted = true) : variableName? t = none := by
  simp [variableName?, h]

theorem variableName?_ok {t : Token} (h : variableName? t = some name) :
    t = .bare ("$" ++ name) := by
  obtain ⟨text, quoted⟩ := t
  unfold variableName? at h
  split at h
  · simp at h
  · rename_i hq
    split at h
    · rename_i cs htext
      simp only [Option.some.injEq] at h
      simp only [Token.bare, Token.mk.injEq]
      refine ⟨String.toList_inj.mp ?_, by simpa using hq⟩
      simpa [← h] using htext
    · simp at h

theorem head_of_variableName? {t : Token} (h : variableName? t = some name) :
    t.text.toList.head? = some '$' := by
  rw [variableName?_ok h]
  simp [Token.bare]

/-- A literal that is written and read is never taken for a variable. -/
theorem variableName?_reread_literal (text : String) :
    variableName? (Token.literal text).reread = none := by
  cases hn : Token.needsQuotes text.toList with
  | true => exact variableName?_quoted (by simp [Token.reread, Token.literal, hn])
  | false =>
    cases hv : variableName? (Token.literal text).reread with
    | none => rfl
    | some name =>
      have hhead := head_of_variableName? hv
      simp only [Token.reread_text, Token.literal] at hhead
      cases hl : text.toList with
      | nil => simp [hl] at hhead
      | cons c cs =>
        obtain rfl : c = '$' := by simpa [hl] using hhead
        simp [hl, Token.needsQuotes] at hn

theorem bindToken_variable (h : variableName? t = some name) :
    bindToken site action spec t =
      if name = "" then site.fail (.invalidVariable t.text) else .ok (.ref spec.type name) := by
  by_cases hempty : name = "" <;> simp only [bindToken, slotOf?, h, hempty, ↓reduceIte]
  rfl

theorem bindToken_literal (h : variableName? t = none) :
    (bindToken site action spec t).result = .ok s ↔
      ∃ v, spec.type.parse t.text = .ok v ∧ .literal spec.type t.text (some v) = s := by
  simp only [bindToken, slotOf?, h, Slot.prime, Reading.result_mapError, Except.mapError_ok,
    Reading.bind_ok, Reading.result_pure, Except.ok.injEq]
  rfl

theorem bindToken_ok (h : (bindToken site action spec t).result = .ok s) :
    s.Fits spec ∧ (s.word = t ∨ s.word = .literal t.text) := by
  cases hv : variableName? t with
  | some name =>
    rw [bindToken_variable hv] at h
    split at h
    · simp at h
    · rename_i hne
      simp only [Reading.result_ok, Except.ok.injEq] at h
      subst h
      exact ⟨.ref hne, .inl (variableName?_ok hv).symm⟩
  | none =>
    obtain ⟨v, hparse, rfl⟩ := (bindToken_literal hv).mp h
    exact ⟨.literal hparse, .inr rfl⟩

theorem bindToken_word {s : Slot} (h : s.Fits spec) :
    (bindToken site action spec s.word.reread).result = .ok s := by
  cases h with
  | @literal text v hparse =>
    refine (bindToken_literal (variableName?_reread_literal text)).mpr ⟨v, ?_, ?_⟩
    · simpa [Slot.word, Token.literal] using hparse
    · simp [Token.literal]
  | @ref name hne =>
    have hv : variableName? (Slot.ref spec.type name).word.reread = some name :=
      variableName?_bare name
    rw [bindToken_variable hv, if_neg hne]
    rfl

/-- Where the word of a bound argument comes from: the statement, or the default
text of the parameter. -/
theorem bindParam_ok (h : (bindParam site action args spec).result = .ok s) :
    s.Fits spec ∧ ∃ t, (t ∈ args ∨ spec.default = some t.text) ∧
      (s.word = t ∨ s.word = .literal t.text) := by
  unfold bindParam at h
  split at h
  · rename_i t ht
    obtain ⟨hfit, hword⟩ := bindToken_ok h
    exact ⟨hfit, t, .inl (List.mem_of_getElem? ht), hword⟩
  · rename_i text _ hdef
    obtain ⟨hfit, hword⟩ := bindToken_ok h
    exact ⟨hfit, .bare text, .inr hdef, hword⟩
  · simp at h

theorem bindParams_ok (h : (bindParams site action args specs).result = .ok slots) :
    List.Forall₂ (fun spec s => (bindParam site action args spec).result = .ok s) specs slots := by
  induction specs generalizing slots with
  | nil =>
    simp only [bindParams, Reading.result_ok, Except.ok.injEq] at h
    subst h
    exact .nil
  | cons spec specs ih =>
    simp only [bindParams, Reading.bind_ok, Reading.result_pure, Except.ok.injEq] at h
    obtain ⟨s, hs, rest, hrest, rfl⟩ := h
    exact .cons hs (ih hrest)

theorem bindParams_mem (h : (bindParams site action args specs).result = .ok slots)
    (hs : s ∈ slots) : ∃ spec ∈ specs, (bindParam site action args spec).result = .ok s := by
  obtain ⟨spec, hspec, hb⟩ := forall₂_mem_right (bindParams_ok h) hs
  exact ⟨spec, hspec, hb⟩

-- The parameters still to be bound are numbered from `k` on, and the words from
-- position `k` on are theirs.
theorem bindParams_words {args more : List Token} (hslots : List.Forall₂ Slot.Fits specs slots)
    (hindex : ∀ i p, specs[i]? = some p → p.index = k + i)
    (hargs : args.drop k = slots.map (fun s => s.word.reread) ++ more) :
    (bindParams site action args specs).result = .ok slots := by
  induction hslots generalizing k with
  | nil => rfl
  | @cons spec s specs slots hfit _ ih =>
    have hk : spec.index = k := hindex 0 spec rfl
    have hword : args[k]? = some s.word.reread := by
      have := congrArg List.head? hargs
      simpa [List.head?_drop] using this
    have hbind : (bindParam site action args spec).result = .ok s := by
      simp only [bindParam, hk, hword]
      exact bindToken_word hfit
    have hrest : (bindParams site action args specs).result = .ok slots := by
      apply ih (k := k + 1)
      · intro i p hp
        rw [hindex (i + 1) p hp]
        omega
      · rw [← List.tail_drop, hargs]
        rfl
    simp only [bindParams, Reading.bind_ok]
    exact ⟨s, hbind, slots, hrest, rfl⟩

-- ---------------------------------------------------------------------------
-- The output variable
-- ---------------------------------------------------------------------------

def outputWords : Option String → List Token
  | some name => [.bare "->", .bare ("$" ++ name)]
  | none => []

theorem splitOutput_ok (h : splitOutput ts = some (args, output)) :
    ts = args ++ outputWords output ∧ (∀ t ∈ args, isArrow t = false) ∧ output ≠ some "" := by
  induction ts generalizing args with
  | nil =>
    simp only [splitOutput, Option.some.injEq, Prod.mk.injEq] at h
    obtain ⟨rfl, rfl⟩ := h
    simp [outputWords]
  | cons t ts ih =>
    unfold splitOutput at h
    split at h
    · rename_i harrow
      have ht : t = .bare "->" := by
        obtain ⟨text, quoted⟩ := t
        simpa [isArrow, Token.bare, and_comm] using harrow
      split at h
      · rename_i target
        split at h
        · rename_i name hv
          split at h
          · simp at h
          · rename_i hne
            simp only [Option.some.injEq, Prod.mk.injEq] at h
            obtain ⟨rfl, rfl⟩ := h
            simp [outputWords, ht, variableName?_ok hv, hne]
        · simp at h
      · simp at h
    · rename_i harrow
      simp only [Option.map_eq_some_iff, Prod.mk.injEq] at h
      obtain ⟨r, hr, rfl, rfl⟩ := h
      obtain ⟨hts, hargs, hout⟩ := ih hr
      refine ⟨by rw [hts]; rfl, ?_, hout⟩
      intro u hu
      obtain rfl | hu := List.mem_cons.mp hu
      · simpa using harrow
      · exact hargs u hu

theorem splitOutput_words {args : List Token} (hargs : ∀ t ∈ args, isArrow t = false)
    (hout : output ≠ some "") :
    splitOutput (args ++ outputWords output) = some (args, output) := by
  induction args with
  | nil =>
    cases output with
    | none => rfl
    | some name =>
      have hne : name ≠ "" := fun e => hout (by rw [e])
      have harrow : isArrow (.bare "->") = true := rfl
      simp [outputWords, splitOutput, harrow, variableName?_bare, hne]
  | cons t args ih =>
    have ht : isArrow t = false := hargs t (by simp)
    simp only [List.cons_append, splitOutput, ht, Bool.false_eq_true, ↓reduceIte]
    rw [ih fun u hu => hargs u (by simp [hu])]
    rfl

end Compile

-- ---------------------------------------------------------------------------
-- Statements
-- ---------------------------------------------------------------------------

def Action.tokens (a : Action) : List Token :=
  .bare a.id :: (a.slots.map Slot.word ++ a.overflow ++ Compile.outputWords a.output)

theorem Action.words_eq (a : Action) : a.words = a.tokens.map Token.toSource := by
  have hslots : a.slots.map Slot.toSource = a.slots.map (Token.toSource ∘ Slot.word) := by
    simp [Slot.word_toSource]
  cases ho : a.output <;>
    simp [words, tokens, hslots, ho, Compile.outputWords, Token.toSource, Token.bare]

/-- What every compiled action satisfies: its id leads to its definition, its
arguments fit the parameters, only a variadic action has further ones, none of
these is an arrow, and an output variable has a name. -/
structure Action.Bound (r : Registry) (a : Action) : Prop where
  known : r.find? a.id = some a.definition
  fits : List.Forall₂ Slot.Fits a.definition.params a.slots
  variadic : a.overflow ≠ [] → a.definition.variadic = true
  plain : ∀ t ∈ a.overflow, Compile.isArrow t = false
  named : a.output ≠ some ""

namespace Compile

theorem bindStatement_ok (h : (bindStatement site d args output).result = .ok a) :
    ∃ slots, (bindParams site d.id args d.params).result = .ok slots ∧
      (args.drop d.params.length ≠ [] → d.variadic = true) ∧
      a = { definition := d, slots, output, overflow := args.drop d.params.length,
            line := site.line } := by
  simp only [bindStatement, Reading.bind_ok] at h
  obtain ⟨slots, hslots, h⟩ := h
  refine ⟨slots, hslots, ?_⟩
  split at h
  · simp at h
  · rename_i hover
    simp only [Reading.result_pure, Except.ok.injEq] at h
    refine ⟨fun hne => ?_, h.symm⟩
    simpa [List.isEmpty_iff, hne] using hover

theorem tokens_ok (h : (tokens r site ts).result = .ok a) :
    ∃ head args, ts = head :: (args ++ outputWords a.output) ∧
      r.find? head.text = some a.definition ∧ (∀ t ∈ args, isArrow t = false) ∧ a.output ≠ some "" ∧
      (bindStatement site a.definition args a.output).result = .ok a := by
  cases ts with
  | nil => simp [tokens] at h
  | cons head rest =>
    simp only [tokens] at h
    split at h
    · simp at h
    · rename_i d hd
      split at h
      · simp at h
      · rename_i args output hsplit
        obtain ⟨hrest, hargs, hout⟩ := splitOutput_ok hsplit
        obtain ⟨slots, -, -, ha⟩ := bindStatement_ok h
        have hdef : a.definition = d := by rw [ha]
        have houtput : a.output = output := by rw [ha]
        rw [hdef, houtput]
        exact ⟨head, args, by rw [hrest], hd, hargs, hout, h⟩

theorem tokens_bound (h : (tokens r site ts).result = .ok a) : a.Bound r := by
  obtain ⟨head, args, -, hd, hargs, hout, hbind⟩ := tokens_ok h
  obtain ⟨slots, hslots, hvar, ha⟩ := bindStatement_ok hbind
  have hover : a.overflow = args.drop a.definition.params.length := by rw [ha]
  have hid : head.text = a.id := (Registry.find?_ok hd).2.symm
  have hs : a.slots = slots := by rw [ha]
  refine ⟨hid ▸ hd, ?_, by rwa [hover], ?_, hout⟩
  · rw [hs]
    exact (bindParams_ok hslots).imp fun _ _ hb => (bindParam_ok hb).1
  · intro t ht
    rw [hover] at ht
    exact hargs t (List.mem_of_mem_drop ht)

/-- A property of words that the statement's words have, and the default texts of
the parameters, and that quoting keeps, is one of all words of the action. -/
theorem tokens_origin (Q : Token → Prop) (h : (tokens r site ts).result = .ok a)
    (hts : ∀ t ∈ ts, Q t) (hquote : ∀ t, Q t → Q (.literal t.text)) (hid : Q (.bare a.id))
    (hdefault : ∀ p ∈ a.definition.params, ∀ text, p.default = some text →
      Q (.literal text) ∧ (text.toList.head? = some '$' → Q (.bare text))) :
    ∀ t ∈ a.tokens, Q t := by
  obtain ⟨head, args, hsplit, -, -, -, hbind⟩ := tokens_ok h
  obtain ⟨slots, hslots, -, ha⟩ := bindStatement_ok hbind
  have hargs : ∀ t ∈ args, Q t := fun t ht => hts t (by rw [hsplit]; simp [ht])
  have hword : ∀ s ∈ slots, Q s.word := by
    intro s hs
    obtain ⟨p, hp, hb⟩ := bindParams_mem hslots hs
    obtain ⟨-, t, ht, hw⟩ := bindParam_ok hb
    obtain ht | ht := ht
    · obtain hw | hw := hw
      · rw [hw]; exact hargs t ht
      · rw [hw]; exact hquote t (hargs t ht)
    · obtain ⟨hlit, hbare⟩ := hdefault p hp t.text ht
      have htext : s.word.text = t.text := by obtain hw | hw := hw <;> rw [hw]; rfl
      rw [← htext] at hlit hbare
      cases s with
      | literal _ text _ => exact hlit
      | ref _ name => exact hbare (by simp [Slot.word, Token.bare])
  have hs : a.slots = slots := by rw [ha]
  have hover : a.overflow = args.drop a.definition.params.length := by rw [ha]
  intro t ht
  simp only [Action.tokens, List.mem_cons, List.mem_append, List.mem_map, hs, hover] at ht
  obtain rfl | (⟨s, hs, rfl⟩ | ht) | ht := ht
  · exact hid
  · exact hword s hs
  · exact hargs t (List.mem_of_mem_drop ht)
  · exact hts t (by rw [hsplit]; simp [ht])

theorem isArrow_word (s : Slot) : isArrow s.word = false := by
  cases s with
  | literal => rfl
  | ref _ name =>
    have hne : "$" ++ name ≠ "->" := by
      intro h
      have := congrArg (fun text => text.toList.head?) h
      simp at this
    simpa [isArrow, Slot.word, Token.bare] using hne

theorem isArrow_reread {t : Token} (h : isArrow t = false) : isArrow t.reread = false := by
  obtain ⟨text, quoted⟩ := t
  cases quoted with
  | false => simpa [Token.reread, isArrow] using h
  | true =>
    by_cases ht : text = "->"
    · subst ht; rfl
    · simp [Token.reread, isArrow, ht]

theorem reread_outputWords (output : Option String) :
    (outputWords output).map Token.reread = outputWords output := by
  cases output <;> rfl

/-- The words of a compiled action compile to it again, on any line. Quotes that
were not needed are gone from its further arguments. -/
theorem tokens_words {r : Registry} {a : Action} (hr : r.Built) (ha : a.Bound r) :
    (tokens r site (a.tokens.map Token.reread)).result =
      .ok { a with overflow := a.overflow.map Token.reread, line := site.line } := by
  let args := a.slots.map (fun s => s.word.reread) ++ a.overflow.map Token.reread
  have hwords : a.tokens.map Token.reread = .bare a.id :: (args ++ outputWords a.output) := by
    simp [args, Action.tokens, reread_outputWords]
  have hlen : a.definition.params.length = a.slots.length := ha.fits.length_eq
  have hslots :
      (bindParams site a.definition.id args a.definition.params).result = .ok a.slots := by
    apply bindParams_words (k := 0) ha.fits
    · intro i p hp
      simpa using hr.index (Registry.find?_ok ha.known).1 hp
    · rfl
  have hargs : ∀ t ∈ args, isArrow t = false := by
    intro t ht
    simp only [args, List.mem_append, List.mem_map] at ht
    obtain ⟨s, hs, rfl⟩ | ⟨t, ht, rfl⟩ := ht
    · exact isArrow_reread (isArrow_word s)
    · exact isArrow_reread (ha.plain t ht)
  have hdrop : args.drop a.definition.params.length = a.overflow.map Token.reread := by
    simp [args, hlen]
  have hover : (!(a.overflow.map Token.reread).isEmpty && !a.definition.variadic) = false := by
    cases ho : a.overflow with
    | nil => rfl
    | cons t ts => simp [ha.variadic (by simp [ho])]
  rw [hwords]
  simp only [tokens, Token.bare, ha.known, splitOutput_words hargs ha.named, bindStatement]
  rw [Reading.bind_ok]
  refine ⟨a.slots, hslots, ?_⟩
  simp only [hdrop, hover, Bool.false_eq_true, ↓reduceIte, Reading.result_pure]

end Compile

end Playbook
