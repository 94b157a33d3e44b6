import Mathlib.Data.List.TakeWhile
import Playbook.Proofs.Statements

/-!
# Statements that compile

The words of a statement compile exactly if they are in order for the action that they name
(`Definition.Takes`), and then every parameter is bound to the word at its position, or to the
default text where there is none (`Action.Binds`). Each lemma reads the success of one function as
the rule that it decides.

Registration gives parameters their positions and refuses a required one behind an optional one, so
that the number of words decides whether one is missing.
-/

namespace Playbook

-- ---------------------------------------------------------------------------
-- Parameters in the order of registration
-- ---------------------------------------------------------------------------

theorem Definition.misplaced_eq_none {params : List ParamSpec} (h : misplaced params = none) :
    params.Pairwise fun p q => p.isOptional = true → q.isOptional = true := by
  induction params with
  | nil => exact .nil
  | cons p params ih =>
    unfold misplaced at h
    split at h
    · rename_i hp
      have hall : ∀ q ∈ params, q.isOptional = true := by simpa using h
      refine .cons (fun q hq _ => hall q hq) ?_
      exact List.pairwise_iff_getElem.mpr fun _ j _ hj _ _ => hall _ (List.getElem_mem hj)
    · rename_i hp
      exact .cons (fun q _ hp' => absurd hp' hp) (ih h)

theorem Registry.register_fresh {r r' : Registry} (h : r.register d = .ok r') :
    r.find? d.id = none ∧ Definition.misplaced d.params = none := by
  unfold register at h
  split at h
  · cases h
  · rename_i hfree
    split at h
    · cases h
    · rename_i horder
      exact ⟨by simpa [contains] using hfree, horder⟩

/-- Ids are not given twice, so that every definition is the one found under its id. -/
theorem Registry.Built.find?_iff {r : Registry} {id : String} (hr : r.Built) :
    r.find? id = some d ↔ d ∈ r.definitions ∧ d.id = id := by
  refine ⟨find?_ok, ?_⟩
  rintro ⟨hd, rfl⟩
  induction hr with
  | empty => simp [Registry.empty] at hd
  | @register r r' d' _ hreg ih =>
    rw [register_ok hreg, List.mem_append, List.mem_singleton] at hd
    rw [find?, register_ok hreg, List.find?_append]
    rcases hd with hd | rfl
    · rw [← find?, ih hd, Option.some_or]
    · rw [← find?, (register_fresh hreg).1]
      simp

theorem Registry.Built.trailing {r : Registry} (hr : r.Built) (hd : d ∈ r.definitions) :
    d.params.Pairwise fun p q => p.isOptional = true → q.isOptional = true := by
  induction hr with
  | empty => simp [Registry.empty] at hd
  | @register r r' d' _ hreg ih =>
    rw [register_ok hreg, List.mem_append, List.mem_singleton] at hd
    rcases hd with hd | rfl
    · exact ih hd
    · have horder := Definition.misplaced_eq_none (register_fresh hreg).2
      simp only [Definition.numbered, List.pairwise_iff_getElem, List.getElem_mapIdx,
        List.length_mapIdx] at horder ⊢
      exact horder

def Definition.required (d : Definition) : List ParamSpec :=
  d.params.filter fun p => !p.isOptional

/-- Parameters from some position on are optional exactly if there are no more required ones than
positions before it. -/
theorem Definition.required_le_iff {d : Definition}
    (h : d.params.Pairwise fun p q => p.isOptional = true → q.isOptional = true) (n : Nat) :
    d.required.length ≤ n ↔ ∀ i p, n ≤ i → d.params[i]? = some p → p.isOptional = true := by
  constructor
  · intro hle i p hi hp
    by_contra hrequired
    obtain ⟨hlt, rfl⟩ := List.getElem?_eq_some_iff.mp hp
    -- all parameters up to this one are required, and that is more than `n`
    have hall : ∀ q ∈ d.params.take (i + 1), (!q.isOptional) = true := by
      intro q hq
      obtain ⟨j, hj, rfl⟩ := List.mem_iff_getElem.mp hq
      rw [List.length_take] at hj
      rw [List.getElem_take, Bool.not_eq_true']
      rcases Nat.lt_or_ge j i with hji | hji
      · exact Bool.eq_false_iff.mpr fun hopt =>
          hrequired (List.pairwise_iff_getElem.mp h j i _ hlt hji hopt)
      · obtain rfl : j = i := by omega
        exact Bool.eq_false_iff.mpr hrequired
    have hcount : (d.params.take (i + 1)).length ≤ d.required.length := by
      rw [← List.filter_eq_self.mpr hall]
      exact ((List.take_sublist _ _).filter _).length_le
    rw [List.length_take] at hcount
    omega
  · intro hopt
    have hrest : (d.params.drop n).filter (fun p => !p.isOptional) = [] := by
      rw [List.filter_eq_nil_iff]
      intro p hp
      obtain ⟨i, hi⟩ := List.mem_iff_getElem?.mp hp
      rw [List.getElem?_drop] at hi
      simp [hopt _ p (Nat.le_add_right n i) hi]
    have hsplit : d.required = (d.params.take n).filter fun p => !p.isOptional := by
      rw [required, ← List.take_append_drop n d.params, List.filter_append, hrest,
        List.append_nil, List.take_append_drop]
    rw [hsplit]
    exact Nat.le_trans (List.length_filter_le _ _) (List.length_take_le n _)

-- ---------------------------------------------------------------------------
-- Words and arguments
-- ---------------------------------------------------------------------------

def Token.IsReference (t : Token) : Prop := ∃ name, t = .bare ("$" ++ name)

namespace Compile

variable {site : Site} {action : String}

theorem variableName?_iff {t : Token} : variableName? t = some name ↔ t = .bare ("$" ++ name) :=
  ⟨variableName?_ok, fun h => h ▸ variableName?_bare name⟩

theorem variableName?_eq_none {t : Token} : variableName? t = none ↔ ¬ t.IsReference := by
  rw [Option.eq_none_iff_forall_ne_some]
  simp only [ne_eq, variableName?_iff, Token.IsReference, not_exists]

def arguments (words : List Token) : List Token := words.takeWhile fun t => t ≠ .bare "->"

def arrowed (words : List Token) : List Token := words.dropWhile fun t => t ≠ .bare "->"

/-- The word for the parameter at a position: the argument there, or the default text. -/
def given (args : List Token) (spec : ParamSpec) (i : Nat) : Option Token :=
  args[i]?.or (spec.default.map .bare)

end Compile

/-- What a word gives for a parameter. A variable has a name, and a literal has the value that its
text is read as. -/
inductive Slot.Binds (spec : ParamSpec) (t : Token) : Slot → Prop
  | ref : t = .bare ("$" ++ name) → name ≠ "" → Slot.Binds spec t (.ref spec.type name)
  | literal : ¬ t.IsReference → spec.type.parse t.text = .ok v →
      Slot.Binds spec t (.literal spec.type t.text (some v))

structure Definition.Takes (d : Definition) (words : List Token) : Prop where
  output : Compile.arrowed words = [] ∨
    ∃ name, name ≠ "" ∧ Compile.arrowed words = [.bare "->", .bare ("$" ++ name)]
  enough : d.required.length ≤ (Compile.arguments words).length
  few : d.variadic = true ∨ (Compile.arguments words).length ≤ d.params.length
  named : ∀ i p t, d.params[i]? = some p → Compile.given (Compile.arguments words) p i = some t →
    t ≠ .bare "$"
  read : ∀ i p t, d.params[i]? = some p → Compile.given (Compile.arguments words) p i = some t →
    ¬ t.IsReference → ∃ v, p.type.parse t.text = .ok v

structure Action.Binds (site : Compile.Site) (d : Definition) (words : List Token) (a : Action) :
    Prop where
  definition : a.definition = d
  length : a.slots.length = d.params.length
  slot : ∀ i p s, d.params[i]? = some p → a.slots[i]? = some s →
    ∃ t, Compile.given (Compile.arguments words) p i = some t ∧ s.Binds p t
  overflow : a.overflow = (Compile.arguments words).drop d.params.length
  output : Compile.arrowed words = Compile.outputWords a.output ∧ a.output ≠ some ""
  line : a.line = site.line

namespace Compile

variable {site : Site} {action : String}

theorem bindToken_ok_iff : (bindToken site action spec t).result = .ok s ↔ s.Binds spec t := by
  cases hv : variableName? t with
  | some name =>
    obtain rfl := variableName?_ok hv
    have href (s' : Slot) : s'.Binds spec (.bare ("$" ++ name)) ↔
        name ≠ "" ∧ s' = .ref spec.type name := by
      constructor
      · rintro (⟨heq, hne⟩ | ⟨hno, -⟩)
        · cases Option.some.inj (hv.symm.trans (variableName?_iff.mpr heq))
          exact ⟨hne, rfl⟩
        · exact absurd ⟨name, rfl⟩ hno
      · rintro ⟨hne, rfl⟩
        exact .ref rfl hne
    rw [href, bindToken_variable hv]
    split
    · rename_i hempty
      simp [hempty]
    · rename_i hne
      simp [hne, eq_comm]
  | none =>
    have hno := variableName?_eq_none.mp hv
    rw [bindToken_literal hv]
    constructor
    · rintro ⟨v, hparse, rfl⟩
      exact .literal hno hparse
    · rintro (⟨heq, -⟩ | ⟨-, hparse⟩)
      · exact absurd ⟨_, heq⟩ hno
      · exact ⟨_, hparse, rfl⟩

theorem bindParam_ok_iff : (bindParam site action args spec).result = .ok s ↔
    ∃ t, given args spec spec.index = some t ∧ s.Binds spec t := by
  unfold bindParam given
  cases args[spec.index]? with
  | some t => simp [bindToken_ok_iff]
  | none =>
    cases spec.default with
    | some text => simp [bindToken_ok_iff]
    | none => simp

theorem bindParams_ok_iff : (bindParams site action args specs).result = .ok slots ↔
    List.Forall₂ (fun spec s => (bindParam site action args spec).result = .ok s) specs slots := by
  refine ⟨bindParams_ok, fun h => ?_⟩
  induction h with
  | nil => rfl
  | cons hs _ ih =>
    simp only [bindParams, Reading.bind_ok]
    exact ⟨_, hs, _, ih, rfl⟩

theorem bindParams_positions {specs : List ParamSpec} {slots : List Slot}
    (hindex : ∀ (i : Nat) p, specs[i]? = some p → p.index = i) :
    (bindParams site action args specs).result = .ok slots ↔ slots.length = specs.length ∧
      ∀ i p s, specs[i]? = some p → slots[i]? = some s →
        ∃ t, given args p i = some t ∧ s.Binds p t := by
  rw [bindParams_ok_iff, List.forall₂_iff_get, eq_comm]
  refine and_congr_right fun hlength => ?_
  simp only [List.get_eq_getElem, bindParam_ok_iff]
  constructor
  · intro h i p s hp hs
    obtain ⟨hi, rfl⟩ := List.getElem?_eq_some_iff.mp hp
    obtain ⟨hi', rfl⟩ := List.getElem?_eq_some_iff.mp hs
    simpa only [hindex i _ hp] using h i hi hi'
  · intro h i hi hi'
    have hp := List.getElem?_eq_getElem hi
    rw [hindex i _ hp]
    exact h i _ _ hp (List.getElem?_eq_getElem hi')

theorem isArrow_eq (t : Token) : isArrow t = decide (t = .bare "->") := by
  obtain ⟨text, quoted⟩ := t
  cases quoted <;> simp [isArrow, Token.bare, beq_eq_decide]

theorem splitOutput_eq_some : splitOutput words = some (args, output) ↔
    args = arguments words ∧ arrowed words = outputWords output ∧ output ≠ some "" := by
  constructor
  · intro h
    obtain ⟨rfl, hargs, hout⟩ := splitOutput_ok h
    have hplain : ∀ t ∈ args, t ≠ .bare "->" := fun t ht => by
      simpa [isArrow_eq] using hargs t ht
    have hall : ∀ t ∈ args, decide (t ≠ .bare "->") = true := fun t ht =>
      decide_eq_true (hplain t ht)
    rw [arguments, arrowed, List.takeWhile_append_of_pos hall, List.dropWhile_append_of_pos hall]
    cases output with
    | none => simp [outputWords]
    | some name => exact ⟨by simp [outputWords], by simp [outputWords], hout⟩
  · rintro ⟨rfl, harrow, hout⟩
    have hargs : ∀ t ∈ arguments words, isArrow t = false := fun t ht => by
      have hne := List.mem_takeWhile_imp ht
      rw [isArrow_eq]
      simpa using hne
    have hwords : words = arguments words ++ outputWords output := by
      rw [← harrow]
      exact List.takeWhile_append_dropWhile.symm
    rw [hwords, splitOutput_words hargs hout, ← hwords]

theorem bindStatement_ok_iff : (bindStatement site d args output).result = .ok a ↔
    ∃ slots, (bindParams site d.id args d.params).result = .ok slots ∧
      (d.variadic = true ∨ args.length ≤ d.params.length) ∧
      a = { definition := d, slots, output, overflow := args.drop d.params.length,
            line := site.line } := by
  have hover : (!(args.drop d.params.length).isEmpty && !d.variadic) = true ↔
      ¬ (d.variadic = true ∨ args.length ≤ d.params.length) := by
    rw [Bool.and_eq_true, Bool.not_eq_true', Bool.not_eq_true', List.isEmpty_eq_false_iff, ne_eq,
      List.drop_eq_nil_iff, not_or, Bool.not_eq_true, and_comm]
  simp only [bindStatement, Reading.bind_ok]
  refine exists_congr fun slots => and_congr_right fun _ => ?_
  split
  · rename_i htoo
    simp [hover.mp htoo]
  · rename_i hfits
    rw [Reading.result_pure, Except.ok.injEq, eq_comm, and_iff_right]
    exact not_not.mp (mt hover.mpr hfits)

theorem tokens_ok_iff : (tokens r site (head :: words)).result = .ok a ↔
    ∃ d output, r.find? head.text = some d ∧ arrowed words = outputWords output ∧
      output ≠ some "" ∧ (bindStatement site d (arguments words) output).result = .ok a := by
  simp only [tokens]
  cases r.find? head.text with
  | none => simp
  | some d =>
    simp only [Option.some.injEq, exists_and_left, exists_eq_left']
    cases hsplit : splitOutput words with
    | none =>
      have hnone (output : Option String) :
          ¬ (arrowed words = outputWords output ∧ output ≠ some "") := fun h => by
        have hsome := splitOutput_eq_some.mpr ⟨rfl, h⟩
        cases hsplit.symm.trans hsome
      simp only [Site.fail_ok, false_iff, not_exists]
      exact fun output h => hnone output ⟨h.1, h.2.1⟩
    | some r =>
      obtain ⟨args, output⟩ := r
      obtain ⟨rfl, harrow, hout⟩ := splitOutput_eq_some.mp hsplit
      constructor
      · exact fun h => ⟨output, harrow, hout, h⟩
      · rintro ⟨output', harrow', hout', h⟩
        have hsplit' := splitOutput_eq_some.mpr ⟨rfl, harrow', hout'⟩
        obtain ⟨-, rfl⟩ := Prod.mk.inj (Option.some.inj (hsplit.symm.trans hsplit'))
        exact h

theorem tokens_binds_iff {r : Registry} (hr : r.Built) :
    (tokens r site (head :: words)).result = .ok a ↔
      ∃ d, (d ∈ r.definitions ∧ d.id = head.text) ∧ a.Binds site d words ∧
        (d.variadic = true ∨ (arguments words).length ≤ d.params.length) := by
  rw [tokens_ok_iff]
  refine exists_congr fun d => ?_
  simp only [hr.find?_iff]
  constructor
  · rintro ⟨output, hd, harrow, hout, hbind⟩
    have hindex := fun i p => hr.index (i := i) (p := p) hd.1
    obtain ⟨slots, hslots, hfew, rfl⟩ := bindStatement_ok_iff.mp hbind
    obtain ⟨hlength, hslot⟩ := (bindParams_positions hindex).mp hslots
    exact ⟨hd, ⟨rfl, hlength, hslot, rfl, ⟨harrow, hout⟩, rfl⟩, hfew⟩
  · rintro ⟨hd, ⟨rfl, hlength, hslot, hover, ⟨harrow, hout⟩, hline⟩, hfew⟩
    have hindex := fun i p => hr.index (i := i) (p := p) hd.1
    have hslots : (bindParams site a.definition.id (arguments words) a.definition.params).result =
        .ok a.slots := (bindParams_positions hindex).mpr ⟨hlength, hslot⟩
    refine ⟨a.output, hd, harrow, hout, bindStatement_ok_iff.mpr ⟨a.slots, hslots, hfew, ?_⟩⟩
    rw [← hover, ← hline]

theorem exists_slots {d : Definition} {args : List Token}
    (hgiven : ∀ i p, d.params[i]? = some p → ∃ t, given args p i = some t)
    (hnamed : ∀ i p t, d.params[i]? = some p → given args p i = some t → t ≠ .bare "$")
    (hread : ∀ i p t, d.params[i]? = some p → given args p i = some t → ¬ t.IsReference →
      ∃ v, p.type.parse t.text = .ok v) :
    ∃ slots : List Slot, slots.length = d.params.length ∧ ∀ i p s, d.params[i]? = some p →
      slots[i]? = some s → ∃ t, given args p i = some t ∧ s.Binds p t := by
  have hslot (i : Fin d.params.length) :
      ∃ s t, given args d.params[i] i = some t ∧ Slot.Binds d.params[i] t s := by
    have hp : d.params[i.val]? = some d.params[i] := List.getElem?_eq_getElem i.isLt
    obtain ⟨t, ht⟩ := hgiven i _ hp
    by_cases href : t.IsReference
    · obtain ⟨name, rfl⟩ := href
      refine ⟨.ref _ name, _, ht, .ref rfl ?_⟩
      rintro rfl
      exact hnamed i _ _ hp ht rfl
    · obtain ⟨v, hv⟩ := hread i _ _ hp ht href
      exact ⟨.literal _ t.text (some v), t, ht, .literal href hv⟩
  choose s hs using hslot
  refine ⟨List.ofFn s, List.length_ofFn, fun i p x hp hx => ?_⟩
  obtain ⟨hi, rfl⟩ := List.getElem?_eq_some_iff.mp hp
  obtain ⟨hi', rfl⟩ := List.getElem?_eq_some_iff.mp hx
  rw [List.getElem_ofFn]
  exact hs ⟨i, hi⟩

theorem given_eq_none : given args spec i = none ↔ args.length ≤ i ∧ spec.isOptional = false := by
  simp [given, ParamSpec.isOptional, Option.or_eq_none_iff]

end Compile

open Compile in
theorem Action.Binds.takes {site : Site} {a : Action} {d : Definition} {words : List Token}
    (hd : d.params.Pairwise fun p q => p.isOptional = true → q.isOptional = true)
    (h : a.Binds site d words)
    (hfew : d.variadic = true ∨ (arguments words).length ≤ d.params.length) : d.Takes words := by
  have hbound (i : Nat) (p : ParamSpec) (hp : d.params[i]? = some p) :
      ∃ s t, given (arguments words) p i = some t ∧ Slot.Binds p t s := by
    obtain ⟨hi, -⟩ := List.getElem?_eq_some_iff.mp hp
    have hs := List.getElem?_eq_getElem (h.length ▸ hi)
    exact ⟨_, h.slot i p _ hp hs⟩
  refine ⟨?_, ?_, hfew, ?_, ?_⟩
  · obtain ⟨harrow, hout⟩ := h.output
    cases ho : a.output with
    | none => exact .inl (harrow.trans (by rw [ho]; rfl))
    | some name =>
      refine .inr ⟨name, fun hempty => hout (by rw [ho, hempty]), harrow.trans ?_⟩
      rw [ho]
      rfl
  · refine (Definition.required_le_iff hd _).mpr fun i p hi hp => ?_
    obtain ⟨s, t, ht, -⟩ := hbound i p hp
    by_contra hrequired
    have hnone := given_eq_none.mpr ⟨hi, Bool.eq_false_iff.mpr hrequired⟩
    cases hnone.symm.trans ht
  · rintro i p t hp ht rfl
    obtain ⟨s, t', ht', hs⟩ := hbound i p hp
    cases ht.symm.trans ht'
    rcases hs with ⟨heq, hne⟩ | ⟨hno, -⟩
    · have hname : variableName? (.bare "$") = some "" := variableName?_bare ""
      cases hname.symm.trans (variableName?_iff.mpr heq)
      exact hne rfl
    · exact hno ⟨"", rfl⟩
  · intro i p t hp ht hno
    obtain ⟨s, t', ht', hs⟩ := hbound i p hp
    cases ht.symm.trans ht'
    rcases hs with ⟨heq, -⟩ | ⟨-, hparse⟩
    · exact absurd ⟨_, heq⟩ hno
    · exact ⟨_, hparse⟩

namespace Compile

/-- The words of a statement compile exactly if its action is registered and takes them, and then
the action has them as its arguments. -/
theorem tokens_accepted {r : Registry} (hr : r.Built) (site : Site) (head : Token)
    (words : List Token) :
    ((∃ a, (tokens r site (head :: words)).result = .ok a) ↔
      ∃ d ∈ r.definitions, d.id = head.text ∧ d.Takes words) ∧
    ∀ a, (tokens r site (head :: words)).result = .ok a →
      ∃ d ∈ r.definitions, d.id = head.text ∧ a.Binds site d words := by
  refine ⟨⟨?_, ?_⟩, ?_⟩
  · rintro ⟨a, ha⟩
    obtain ⟨d, ⟨hd, hid⟩, hbinds, hfew⟩ := (tokens_binds_iff hr).mp ha
    exact ⟨d, hd, hid, hbinds.takes (hr.trailing hd) hfew⟩
  · rintro ⟨d, hd, hid, htakes⟩
    have hrest := (Definition.required_le_iff (hr.trailing hd) _).mp htakes.enough
    have hgiven (i : Nat) (p : ParamSpec) (hp : d.params[i]? = some p) :
        ∃ t, given (arguments words) p i = some t := by
      refine Option.ne_none_iff_exists'.mp fun hnone => ?_
      obtain ⟨hi, hrequired⟩ := given_eq_none.mp hnone
      cases hrequired.symm.trans (hrest i p hi hp)
    obtain ⟨slots, hlength, hslot⟩ := exists_slots hgiven htakes.named htakes.read
    obtain ⟨output, hout⟩ : ∃ output, arrowed words = outputWords output ∧ output ≠ some "" := by
      rcases htakes.output with hnone | ⟨name, hne, hsome⟩
      · exact ⟨none, hnone, by simp⟩
      · exact ⟨some name, hsome, by simpa using hne⟩
    refine ⟨{ definition := d, slots, output, overflow := (arguments words).drop d.params.length,
              line := site.line }, ?_⟩
    rw [tokens_binds_iff hr]
    exact ⟨d, ⟨hd, hid⟩, ⟨rfl, hlength, hslot, rfl, hout, rfl⟩, htakes.few⟩
  · intro a ha
    obtain ⟨d, ⟨hd, hid⟩, hbinds, -⟩ := (tokens_binds_iff hr).mp ha
    exact ⟨d, hd, hid, hbinds⟩

/-- A quoted arrow is an argument, and a dollar sign alone will do where no parameter is bound. -/
theorem tokens_accepted_quoted_arrow :
    let words : List Token :=
      [.bare "$who", .bare "Log", ⟨"->", true⟩, .bare "$", .bare "->", .bare "$out"]
    Registry.builtins.Built ∧
    ∃ a, (tokens .builtins ⟨"demo", 3⟩ (.bare "ForEach" :: words)).result = .ok a ∧
      ∃ d ∈ Registry.builtins.definitions, d.id = "ForEach" ∧ d.Takes words ∧
        ∃ d ∈ Registry.builtins.definitions, d.id = "ForEach" ∧ a.Binds ⟨"demo", 3⟩ d words := by
  intro words
  have hbuilt := Registry.builtins_built
  have hok : (tokens .builtins ⟨"demo", 3⟩ (.bare "ForEach" :: words)).result.isOk = true := by
    decide +kernel
  obtain ⟨a, ha⟩ :
      ∃ a, (tokens .builtins ⟨"demo", 3⟩ (.bare "ForEach" :: words)).result = .ok a := by
    cases h : (tokens .builtins ⟨"demo", 3⟩ (.bare "ForEach" :: words)).result with
    | ok a => exact ⟨a, rfl⟩
    | error e => rw [h] at hok; cases hok
  obtain ⟨haccepted, hbinds⟩ := tokens_accepted hbuilt ⟨"demo", 3⟩ (.bare "ForEach") words
  obtain ⟨d, hd, hid, htakes⟩ := haccepted.mp ⟨a, ha⟩
  exact ⟨hbuilt, a, ha, d, hd, hid, htakes, hbinds a ha⟩

end Compile

end Playbook
