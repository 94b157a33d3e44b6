import Playbook.Proofs.Lines
import Playbook.Proofs.Statements

/-!
# Units written and compiled again

The source that a compiled unit is written as compiles, and to the same
scripts: the same names and sections in the same order, with the same
statements. Only quotes around further arguments that did not need them, and the
line numbers, may differ, and the source of the second unit is that of the
first.

A draft is followed through its items, the headers and statements in the order
in which they were added. Writing goes from the items to lines, and compiling
the lines adds the same items again.
-/

namespace Playbook

-- ---------------------------------------------------------------------------
-- Registries whose actions can be written
-- ---------------------------------------------------------------------------

structure Definition.HasBareId (d : Definition) : Prop where
  bare : Token.IsBare d.id.toList
  noComment : d.id.toList.head? ≠ some '#'
  noHeader : d.id.toList.head? ≠ some ';'

instance (d : Definition) : Decidable d.HasBareId :=
  decidable_of_iff
    (Token.IsBare d.id.toList ∧ d.id.toList.head? ≠ some '#' ∧ d.id.toList.head? ≠ some ';')
    ⟨fun h => ⟨h.1, h.2.1, h.2.2⟩, fun h => ⟨h.bare, h.noComment, h.noHeader⟩⟩

/-- A default text that can be written as an argument: on one line, and without
blanks if it names a variable. -/
def ParamSpec.HasPlainDefault (p : ParamSpec) : Prop :=
  ∀ text ∈ p.default, '\n' ∉ text.toList ∧
    (text.toList.head? = some '$' → ∀ c ∈ text.toList, Text.isBlank c = false)

instance (p : ParamSpec) : Decidable p.HasPlainDefault :=
  inferInstanceAs (Decidable (∀ text ∈ p.default, _))

def Registry.Writable (r : Registry) : Prop :=
  ∀ d ∈ r.definitions, d.HasBareId ∧ ∀ p ∈ d.params, p.HasPlainDefault

instance (r : Registry) : Decidable r.Writable :=
  inferInstanceAs (Decidable (∀ d ∈ r.definitions, _))

theorem Registry.builtins_writable : Registry.builtins.Writable := by decide +kernel

-- ---------------------------------------------------------------------------
-- Statements on their lines
-- ---------------------------------------------------------------------------

abbrev Token.Legible (t : Token) : Prop := t.TakenFrom (· ≠ '\n')

/-- What a compiled action needs in order to be written and read. -/
structure Action.Legible (r : Registry) (a : Action) : Prop where
  bound : a.Bound r
  words : ∀ t ∈ a.tokens, t.Legible

theorem ParamSpec.HasPlainDefault.legible {p : ParamSpec} (h : p.HasPlainDefault)
    (hd : p.default = some text) :
    (Token.literal text).Legible ∧ (text.toList.head? = some '$' → (Token.bare text).Legible) := by
  obtain ⟨hline, hsolid⟩ := h text hd
  have hchars : ∀ c ∈ text.toList, c ≠ '\n' := fun c hc e => hline (e ▸ hc)
  refine ⟨⟨Token.wellFormed_literal _, hchars⟩, fun hhead => ⟨?_, hchars⟩⟩
  apply Token.wellFormed_bare
  refine ⟨fun e => by simp [e] at hhead, by simp [hhead], hsolid hhead⟩

theorem Token.Legible.literal {t : Token} (h : t.Legible) : (Token.literal t.text).Legible :=
  ⟨Token.wellFormed_literal _, h.chars⟩

theorem Compile.tokens_legible {r : Registry} (hr : r.Writable) (hts : ∀ t ∈ ts, t.Legible)
    (h : (Compile.tokens r site ts).result = .ok a) : a.Legible r := by
  have hbound := Compile.tokens_bound h
  have hdef := (Registry.find?_ok hbound.known).1
  refine ⟨hbound, Compile.tokens_origin _ h hts (fun t ht => ht.literal) ?_ ?_⟩
  · have hid := (hr _ hdef).1.bare
    refine ⟨Token.wellFormed_bare hid, ?_⟩
    rintro c hc rfl
    have hblank : Text.isBlank '\n' = true := rfl
    simp [hid.solid _ hc] at hblank
  · intro p hp text hd
    exact ((hr _ hdef).2 p hp).legible hd

theorem Action.toSource_toList (a : Action) :
    a.toSource.toList = List.intercalate [' '] (a.tokens.map fun t => t.toSource.toList) := by
  simp [toSource, words_eq, String.toList_intercalate, Function.comp_def]

theorem Action.Legible.firm {a : Action} (h : a.Legible r) : Text.Firm a.toSource.toList := by
  rw [toSource_toList]
  apply Text.firm_intercalate (by simp [tokens])
  intro w hw
  obtain ⟨t, ht, rfl⟩ := List.mem_map.mp hw
  exact Text.firm_toSource (h.words t ht).wellFormed

theorem Action.Legible.oneLine {a : Action} (h : a.Legible r) : '\n' ∉ a.toSource.toList := by
  intro hc
  rw [toSource_toList] at hc
  obtain hc | ⟨w, hw, hc⟩ := Text.mem_intercalate hc
  · simp at hc
  · obtain ⟨t, ht, rfl⟩ := List.mem_map.mp hw
    obtain hc | hc | hc := Token.mem_toSource hc
    · exact (h.words t ht).chars _ hc rfl
    · simp at hc
    · simp at hc

theorem Action.head_toSource (a : Action) (h : a.id.toList ≠ []) :
    a.toSource.toList.head? = a.id.toList.head? := by
  have hid : (Token.bare a.id).toSource.toList = a.id.toList := rfl
  obtain ⟨c, cs, hcs⟩ := List.exists_cons_of_ne_nil h
  rw [toSource_toList, tokens, List.map_cons, hid, hcs]
  cases (a.slots.map Slot.word ++ a.overflow ++ Compile.outputWords a.output).map
      fun t => t.toSource.toList with
  | nil => simp
  | cons w ws => simp [List.intercalate_cons_cons]

namespace Compile

theorem Line.read_statement (h : Text.Firm cs) (hc : cs.head? ≠ some '#')
    (hh : cs.head? ≠ some ';') : Line.read cs = .statement cs := by
  obtain ⟨c, cs, rfl⟩ := List.exists_cons_of_ne_nil h.nonempty
  unfold Line.read
  rw [h.trim]
  split <;> simp_all

theorem Line.read_header (hne : name ≠ []) (h : ∀ c ∈ name, Text.isBlank c = false) :
    Line.read (';' :: name) = .header name (';' :: name) := by
  have hsemi : Text.isBlank ';' = false := rfl
  have hfirm : Text.Firm (';' :: name) := Text.firm_of_solid (by simp) (by simpa [hsemi] using h)
  unfold Line.read
  rw [hfirm.trim]
  simp [(Text.firm_of_solid hne h).trim]

theorem line_header {name : String} (hne : name.toList ≠ [])
    (h : ∀ c ∈ name.toList, Text.isBlank c = false) (hfresh : name ∉ d.sections.map Prod.fst) :
    (line r site d (';' :: name.toList)).result = .ok (d.openSection name) := by
  have hname : (name.toList.isEmpty || name.toList.any Text.isBlank) = false := by
    simp only [Bool.or_eq_false_iff, List.isEmpty_eq_false_iff, List.any_eq_false]
    exact ⟨hne, fun c hc => by simp [h c hc]⟩
  have hnew : (d.sections.any fun s => s.1 == name) = false := by
    rw [List.any_eq_false]
    intro s hs he
    exact hfresh (List.mem_map.mpr ⟨s, hs, by simpa using he⟩)
  simp [line, Line.read_header hne h, hname, hnew]

theorem Line.eq_trim_of_read (h : Line.read cs = .statement text) : text = Text.trim cs := by
  unfold Line.read at h
  split at h <;> simp at h
  exact h.symm

/-- The statement an action is written as compiles to that action, with only the
quotes it needs. -/
theorem line_toSource {r : Registry} {a : Action} (hb : r.Built) (hw : r.Writable)
    (ha : a.Legible r) :
    (line r site d a.toSource.toList).result =
      .ok (d.push { a with overflow := a.overflow.map Token.reread, line := site.line }) := by
  obtain ⟨hid, hc, hh⟩ := (hw _ (Registry.find?_ok ha.bound.known).1).1
  have hhead := a.head_toSource hid.nonempty
  have hscan := Token.scan_sentence fun t ht => (ha.words t ht).wellFormed
  rw [← a.toSource_toList] at hscan
  simp only [line, Line.read_statement ha.firm (hhead ▸ hc) (hhead ▸ hh), hscan]
  rw [Reading.bind_ok]
  exact ⟨_, tokens_words hb ha.bound, rfl⟩

theorem line_ok {r : Registry} (hw : r.Writable) (hcs : '\n' ∉ cs)
    (h : (line r site d cs).result = .ok d') :
    d' = d ∨
    (∃ name : List Char, name ≠ [] ∧ (∀ c ∈ name, Text.isBlank c = false) ∧
      String.ofList name ∉ d.sections.map Prod.fst ∧ d' = d.openSection (String.ofList name)) ∨
    ∃ a : Action, a.Legible r ∧ d' = d.push a := by
  unfold line at h
  split at h
  · simp only [Reading.result_ok, Except.ok.injEq] at h
    exact .inl h.symm
  · rename_i name text _
    split at h
    · simp at h
    · split at h
      · simp at h
      · rename_i hname hfresh
        simp only [Reading.result_ok, Except.ok.injEq] at h
        simp only [Bool.or_eq_true, not_or, List.isEmpty_iff, List.any_eq_true, not_exists,
          not_and, Bool.not_eq_true] at hname
        refine .inr (.inl ⟨name, hname.1, hname.2, ?_, h.symm⟩)
        simpa using hfresh
  · rename_i text hread
    split at h
    · simp at h
    · rename_i ts hscan
      rw [Reading.bind_ok] at h
      obtain ⟨a, ha, h⟩ := h
      simp only [Reading.result_pure, Except.ok.injEq] at h
      refine .inr (.inr ⟨a, tokens_legible hw ?_ ha, h.symm⟩)
      apply Token.scan_takenFrom _ hscan
      rintro c hc rfl
      rw [Line.eq_trim_of_read hread] at hc
      exact hcs (Text.mem_of_mem_trim hc)

-- ---------------------------------------------------------------------------
-- Drafts by their items
-- ---------------------------------------------------------------------------

inductive Item where
  | header (name : String)
  | statement (a : Action)

def Item.text : Item → List Char
  | .header name => ';' :: name.toList
  | .statement a => a.toSource.toList

namespace Draft

def items (d : Draft) : List Item :=
  d.main.map .statement ++ d.sections.flatMap fun s => .header s.1 :: s.2.map .statement

def add (d : Draft) : Item → Draft
  | .header name => d.openSection name
  | .statement a => d.push a

def names (d : Draft) : List String := d.sections.map Prod.fst

theorem push_main (d : Draft) (a : Action) (h : d.sections = []) :
    d.push a = { main := d.main ++ [a], sections := [] } := by
  simp [push, h]

theorem push_section (main : List Action) (earlier : List (String × List Action)) (name : String)
    (actions : List Action) (a : Action) :
    push { main, sections := earlier ++ [(name, actions)] } a =
      { main, sections := earlier ++ [(name, actions ++ [a])] } := by
  simp [push]

theorem cases_sections (d : Draft) :
    (∃ main, d = { main, sections := [] }) ∨
    ∃ main earlier name actions, d = { main, sections := earlier ++ [(name, actions)] } := by
  obtain ⟨main, sections⟩ := d
  obtain rfl | ⟨earlier, ⟨name, actions⟩, rfl⟩ := List.eq_nil_or_concat' sections
  · exact .inl ⟨main, rfl⟩
  · exact .inr ⟨main, earlier, name, actions, rfl⟩

theorem items_add (d : Draft) (i : Item) : (d.add i).items = d.items ++ [i] := by
  cases i with
  | header name => simp [add, openSection, items]
  | statement a =>
    obtain ⟨main, rfl⟩ | ⟨main, earlier, name, actions, rfl⟩ := d.cases_sections
    · simp [add, push_main, items]
    · simp [add, push_section, items]

theorem names_push (d : Draft) (a : Action) : (d.push a).names = d.names := by
  obtain ⟨main, rfl⟩ | ⟨main, earlier, name, actions, rfl⟩ := d.cases_sections
  · simp [push_main, names]
  · simp [push_section, names]

theorem names_openSection (d : Draft) (name : String) :
    (d.openSection name).names = d.names ++ [name] := by
  simp [openSection, names]

theorem add_statements (main : List Action) (earlier : List (String × List Action))
    (name : String) (actions more : List Action) :
    (more.map Item.statement).foldl add { main, sections := earlier ++ [(name, actions)] } =
      { main, sections := earlier ++ [(name, actions ++ more)] } := by
  induction more generalizing actions with
  | nil => simp
  | cons a more ih =>
    rw [List.map_cons, List.foldl_cons, add, push_section, ih]
    simp

theorem add_main (main more : List Action) :
    (more.map Item.statement).foldl add { main, sections := [] } =
      { main := main ++ more, sections := [] } := by
  induction more generalizing main with
  | nil => simp
  | cons a more ih =>
    rw [List.map_cons, List.foldl_cons, add, push_main _ _ rfl, ih]
    simp

theorem foldl_items (d : Draft) : d.items.foldl add .empty = d := by
  obtain ⟨main, sections⟩ := d
  have hmain : (main.map Item.statement).foldl add .empty = { main, sections := [] } :=
    add_main [] main
  rw [items, List.foldl_append, hmain]
  -- the sections in front of the ones still to be added
  suffices ∀ earlier,
      (sections.flatMap fun s => Item.header s.1 :: s.2.map Item.statement).foldl add
        { main, sections := earlier } = { main, sections := earlier ++ sections } from this []
  induction sections with
  | nil => simp
  | cons s sections ih =>
    intro earlier
    rw [List.flatMap_cons, List.cons_append, List.foldl_cons, List.foldl_append, add, openSection,
      add_statements, ih]
    simp

def opened (is : List Item) : List String :=
  is.filterMap fun
    | .header name => some name
    | .statement _ => none

theorem opened_statements (as : List Action) : opened (as.map .statement) = [] := by
  induction as with
  | nil => rfl
  | cons a as ih => exact ih

theorem opened_items (d : Draft) : opened d.items = d.names := by
  obtain ⟨main, sections⟩ := d
  have hmain := opened_statements main
  simp only [opened] at hmain
  simp only [opened, items, names, List.filterMap_append, hmain, List.nil_append]
  induction sections with
  | nil => rfl
  | cons s sections ih =>
    have hs := opened_statements s.2
    simp only [opened] at hs
    simp only [List.flatMap_cons, List.cons_append, List.filterMap_cons, List.filterMap_append, hs,
      List.nil_append, ih, List.map_cons]

end Draft

end Compile

-- ---------------------------------------------------------------------------
-- What is left of an action after it was written and read
-- ---------------------------------------------------------------------------

/-- An action apart from its line and from quotes that it does not need. -/
def Action.settled (a : Action) : Action :=
  { a with overflow := a.overflow.map Token.reread, line := 0 }

theorem Token.reread_reread (t : Token) : t.reread.reread = t.reread := by
  simp [reread]

theorem Action.settled_reread (a : Action) (line : Nat) :
    { a with overflow := a.overflow.map Token.reread, line : Action }.settled = a.settled := by
  simp [settled, Function.comp_def, Token.reread_reread]

theorem Action.settled_toSource (a : Action) : a.settled.toSource = a.toSource := by
  have : a.settled.words = a.words := by
    simp [words, settled, id, Function.comp_def, Token.reread_toSource]
  simp [toSource, this]

namespace Compile

def Draft.settled (d : Draft) : Draft :=
  { main := d.main.map Action.settled
    sections := d.sections.map fun s => (s.1, s.2.map Action.settled) }

theorem Draft.settled_openSection (d : Draft) (name : String) :
    (d.openSection name).settled = d.settled.openSection name := by
  simp [settled, openSection]

theorem Draft.settled_push (d : Draft) (a : Action) :
    (d.push a).settled = d.settled.push a.settled := by
  obtain ⟨main, rfl⟩ | ⟨main, earlier, name, actions, rfl⟩ := d.cases_sections
  · simp [push_main, settled]
  · simp [push_section, settled]

-- ---------------------------------------------------------------------------
-- Drafts that can be written
-- ---------------------------------------------------------------------------

def Item.Legible (r : Registry) : Item → Prop
  | .header name => name.toList ≠ [] ∧ ∀ c ∈ name.toList, Text.isBlank c = false
  | .statement a => a.Legible r

theorem Item.Legible.oneLine {i : Item} (h : i.Legible r) : '\n' ∉ i.text := by
  cases i with
  | header name =>
    intro hc
    have hc : '\n' ∈ name.toList := by simpa [Item.text] using hc
    have hblank : Text.isBlank '\n' = true := rfl
    simp [h.2 _ hc] at hblank
  | statement a => exact Action.Legible.oneLine h

structure Draft.Legible (r : Registry) (d : Draft) : Prop where
  items : ∀ i ∈ d.items, i.Legible r
  names : d.names.Nodup

theorem Draft.legible_empty (r : Registry) : Draft.empty.Legible r :=
  ⟨by simp [Draft.items, empty], by simp [Draft.names, empty]⟩

theorem line_legible {r : Registry} (hw : r.Writable) (hcs : '\n' ∉ cs) (hd : d.Legible r)
    (h : (line r site d cs).result = .ok d') : d'.Legible r := by
  obtain rfl | ⟨name, hne, hsolid, hfresh, rfl⟩ | ⟨a, ha, rfl⟩ := line_ok hw hcs h
  · exact hd
  · constructor
    · intro i hi
      rw [show d.openSection _ = d.add (.header (String.ofList name)) from rfl,
        Draft.items_add, List.mem_append, List.mem_singleton] at hi
      obtain hi | rfl := hi
      · exact hd.items i hi
      · exact ⟨by simpa using hne, by simpa using hsolid⟩
    · rw [Draft.names_openSection]
      refine List.nodup_append.mpr ⟨hd.names, by simp, ?_⟩
      rintro a ha b hb rfl
      obtain rfl := List.mem_singleton.mp hb
      exact hfresh ha
  · constructor
    · intro i hi
      rw [show d.push a = d.add (.statement a) from rfl, Draft.items_add, List.mem_append,
        List.mem_singleton] at hi
      obtain hi | rfl := hi
      · exact hd.items i hi
      · exact ha
    · rw [Draft.names_push]
      exact hd.names

theorem linesFrom_legible {r : Registry} (hw : r.Writable) (hls : ∀ l ∈ ls, '\n' ∉ l)
    (hd : d.Legible r) (h : (linesFrom r unit n d ls).result = .ok d') : d'.Legible r := by
  induction ls generalizing n d with
  | nil =>
    simp only [linesFrom, Reading.result_ok, Except.ok.injEq] at h
    exact h ▸ hd
  | cons l ls ih =>
    rw [linesFrom, Reading.bind_ok] at h
    obtain ⟨d₁, hline, hrest⟩ := h
    exact ih (fun m hm => hls m (by simp [hm])) (line_legible hw (hls l (by simp)) hd hline) hrest

-- The draft made so far and the one that is being copied agree up to lines and
-- needless quotes; the items still to come open sections that neither has.
theorem linesFrom_items {r : Registry} (unit : String) (hb : r.Built) (hw : r.Writable)
    (his : ∀ i ∈ is, i.Legible r) (hnames : (d.names ++ Draft.opened is).Nodup)
    (hd : d.settled = e.settled) :
    ∃ d', (linesFrom r unit n d (is.map Item.text ++ [[]])).result = .ok d' ∧
      d'.settled = (is.foldl Draft.add e).settled := by
  induction is generalizing n d e with
  | nil => exact ⟨d, rfl, hd⟩
  | cons i is ih =>
    have hi := his i (by simp)
    have hrest : ∀ j ∈ is, j.Legible r := fun j hj => his j (by simp [hj])
    simp only [List.map_cons, List.cons_append, linesFrom, Reading.bind_ok]
    cases i with
    | header name =>
      have hfresh : name ∉ d.names := by
        intro hmem
        exact (List.nodup_append.mp hnames).2.2 name hmem name (by simp [Draft.opened]) rfl
      obtain ⟨d', hd', hs⟩ := ih (n := n + 1) (d := d.openSection name)
        (e := e.openSection name) hrest
        (by simpa [Draft.names_openSection, Draft.opened] using hnames)
        (by rw [Draft.settled_openSection, Draft.settled_openSection, hd])
      exact ⟨d', ⟨_, line_header hi.1 hi.2 hfresh, hd'⟩, hs⟩
    | statement a =>
      obtain ⟨d', hd', hs⟩ := ih (n := n + 1) (e := e.push a)
        (d := d.push { a with overflow := a.overflow.map Token.reread, line := n }) hrest
        (by rw [Draft.names_push]; exact hnames)
        (by rw [Draft.settled_push, Draft.settled_push, Action.settled_reread, hd])
      exact ⟨d', ⟨_, line_toSource hb hw hi, hd'⟩, hs⟩

end Compile

-- ---------------------------------------------------------------------------
-- The source of a unit
-- ---------------------------------------------------------------------------

theorem Script.toSource_ne_empty {s : Script} (h : ∀ a ∈ s.actions, a.toSource ≠ "")
    (hne : s.actions ≠ []) : s.toSource ≠ "" := by
  intro he
  obtain ⟨a, actions, hs⟩ := List.exists_cons_of_ne_nil hne
  have ha : a.toSource ≠ "" := h a (by simp [hs])
  rw [toSource, hs] at he
  cases actions with
  | nil => exact ha (by simpa using he)
  | cons b actions => simp [ha] at he

theorem Script.toSource_toList {s : Script} (hne : s.actions ≠ []) :
    s.toSource.toList ++ ['\n'] =
      (s.actions.map Compile.Item.statement).flatMap fun i => i.text ++ ['\n'] := by
  have hlines := Text.intercalate_newline
    (s.actions.map fun a => a.toSource.toList) (by simpa using hne)
  simpa [toSource, String.toList_intercalate, List.flatMap_map, Compile.Item.text,
    Function.comp_def] using hlines

theorem ScriptUnit.scriptSource_toList {s : Script} (h : ∀ a ∈ s.actions, a.toSource ≠ "") :
    (scriptSource s).toList =
      ((s.heading.map Compile.Item.header).toList ++ s.actions.map Compile.Item.statement).flatMap
        fun i => i.text ++ ['\n'] := by
  have hbody : (if s.toSource = "" then "" else s.toSource ++ "\n").toList =
      (s.actions.map Compile.Item.statement).flatMap fun i => i.text ++ ['\n'] := by
    by_cases hne : s.actions = []
    · simp [Script.toSource, hne]
    · rw [if_neg (Script.toSource_ne_empty h hne), ← Script.toSource_toList hne]
      simp
  rw [scriptSource, String.toList_append, hbody, List.flatMap_append]
  cases s.heading with
  | none => simp
  | some name => simp [Compile.Item.text]

namespace Compile

theorem Draft.actions_of_items {d : Draft} (P : Action → Prop)
    (h : ∀ a, Item.statement a ∈ d.items → P a) :
    (∀ a ∈ d.main, P a) ∧ ∀ s ∈ d.sections, ∀ a ∈ s.2, P a := by
  constructor
  · intro a ha
    exact h a (List.mem_append_left _ (List.mem_map_of_mem ha))
  · intro s hs a ha
    refine h a (List.mem_append_right _ (List.mem_flatMap.mpr ⟨s, hs, ?_⟩))
    exact List.mem_cons_of_mem _ (List.mem_map_of_mem ha)

/-- A unit is written as the items of its draft, one to a line. An empty default
script is written as nothing, so it does not matter whether it is there. -/
theorem Draft.toSource_scripts {d : Draft} (h : ∀ a, Item.statement a ∈ d.items → a.toSource ≠ "") :
    (String.join ((d.scripts r unit).map ScriptUnit.scriptSource)).toList =
      d.items.flatMap fun i => i.text ++ ['\n'] := by
  obtain ⟨hmain, hsections⟩ := actions_of_items (fun a => a.toSource ≠ "") h
  have hmain := ScriptUnit.scriptSource_toList
    (s := { name := unit, heading := none, actions := d.main, registry := r }) hmain
  have hsections : ((d.sections.map fun s =>
      (⟨unit ++ "." ++ s.1, some s.1, s.2, r⟩ : Script)).map ScriptUnit.scriptSource).flatMap
        String.toList =
      (d.sections.flatMap fun s => Item.header s.1 :: s.2.map Item.statement).flatMap
        fun i => i.text ++ ['\n'] := by
    rw [List.map_map, List.flatMap_map, List.flatMap_assoc]
    apply List.flatMap_congr
    intro s hs
    rw [Function.comp_apply, ScriptUnit.scriptSource_toList (hsections s hs)]
    rfl
  rw [String.toList_join, items, List.flatMap_append, ← hsections]
  unfold scripts
  split
  · rename_i hempty
    have hnil : d.main = [] := by simp_all
    simp [hnil]
  · rw [List.map_cons, List.flatMap_cons, hmain]
    simp

end Compile

-- ---------------------------------------------------------------------------
-- Writing and compiling again
-- ---------------------------------------------------------------------------

/-- A word that keeps its text, and keeps being quoted or not where that decides
whether it is a variable or an arrow. -/
def Token.SameWord (t u : Token) : Prop :=
  u.text = t.text ∧ (t.text.toList.head? = some '$' ∨ t.text = "->" → u.quoted = t.quoted)

structure Action.SameStatement (a b : Action) : Prop where
  definition : b.definition = a.definition
  slots : b.slots = a.slots
  output : b.output = a.output
  overflow : List.Forall₂ Token.SameWord a.overflow b.overflow

structure Script.SameScript (s t : Script) : Prop where
  name : t.name = s.name
  heading : t.heading = s.heading
  actions : List.Forall₂ Action.SameStatement s.actions t.actions

theorem Token.sameWord_of_reread {t u : Token} (h : t.reread = u.reread) : t.SameWord u := by
  simp only [reread, Token.mk.injEq] at h
  obtain ⟨htext, hquoted⟩ := h
  refine ⟨htext.symm, fun hspecial => ?_⟩
  have hneeds : needsQuotes t.text.toList = true := by
    obtain hhead | harrow := hspecial
    · obtain ⟨c, cs, hcs⟩ : ∃ c cs, t.text.toList = c :: cs :=
        List.exists_cons_of_ne_nil (by rintro hnil; simp [hnil] at hhead)
      obtain rfl : c = '$' := by simpa [hcs] using hhead
      simp [needsQuotes, hcs]
    · rw [harrow]; rfl
  simpa [← htext, hneeds] using hquoted.symm

theorem forall₂_of_map_eq {f : α → β} {as bs : List α} (h : as.map f = bs.map f) :
    List.Forall₂ (fun a b => f a = f b) as bs := by
  rw [← List.forall₂_eq_eq_eq, List.forall₂_map_left_iff, List.forall₂_map_right_iff] at h
  exact h

theorem Action.sameStatement_of_settled {a b : Action} (h : a.settled = b.settled) :
    a.SameStatement b := by
  simp only [settled, Action.mk.injEq] at h
  obtain ⟨hdef, hslots, hout, hover, -⟩ := h
  exact ⟨hdef.symm, hslots.symm, hout.symm,
    (forall₂_of_map_eq hover).imp fun _ _ => Token.sameWord_of_reread⟩

def Script.settled (s : Script) : Script := { s with actions := s.actions.map Action.settled }

theorem Script.sameScript_of_settled {s t : Script} (h : s.settled = t.settled) :
    s.SameScript t := by
  simp only [settled, Script.mk.injEq] at h
  obtain ⟨hname, hheading, hactions, -⟩ := h
  exact ⟨hname.symm, hheading.symm,
    (forall₂_of_map_eq hactions).imp fun _ _ => Action.sameStatement_of_settled⟩

theorem Compile.Draft.scripts_settled (d : Draft) (r : Registry) (unit : String) :
    d.settled.scripts r unit = (d.scripts r unit).map Script.settled := by
  unfold Draft.scripts Draft.settled
  simp only [List.isEmpty_map]
  split <;> simp [Script.settled]

theorem ScriptUnit.scriptSource_settled (s : Script) : scriptSource s.settled = scriptSource s := by
  have : s.settled.toSource = s.toSource := by
    simp [Script.toSource, Script.settled, Function.comp_def, Action.settled_toSource]
  have hheading : s.settled.heading = s.heading := rfl
  simp only [scriptSource, this, hheading]

theorem compile_ok (h : (compile r unit source).result = .ok u) :
    ∃ d, (Compile.linesFrom r unit 1 .empty (Text.lines source.toList)).result = .ok d ∧
      u = { name := unit, scripts := d.scripts r unit } := by
  rw [compile, Reading.bind_ok] at h
  obtain ⟨d, hd, h⟩ := h
  simp only [Reading.result_pure, Except.ok.injEq] at h
  exact ⟨d, hd, h.symm⟩

theorem compile_bound {r : Registry} (hw : r.Writable) (h : (compile r unit source).result = .ok u)
    (hs : script ∈ u.scripts) (ha : a ∈ script.actions) : a.Bound r := by
  obtain ⟨d, hd, rfl⟩ := compile_ok h
  have hlegible := Compile.linesFrom_legible hw (fun _ => Text.sep_not_mem_pieces _)
    (Compile.Draft.legible_empty r) hd
  obtain ⟨hmain, hsections⟩ := Compile.Draft.actions_of_items (fun a => a.Bound r)
    fun a ha => (hlegible.items _ ha).bound
  have hscript : script ∈ ({ name := unit, heading := none, actions := d.main, registry := r } ::
      d.sections.map fun s => ⟨unit ++ "." ++ s.1, some s.1, s.2, r⟩ : List Script) := by
    simp only [Compile.Draft.scripts] at hs
    split at hs
    · exact List.mem_cons_of_mem _ hs
    · exact hs
  obtain rfl | hscript := List.mem_cons.mp hscript
  · exact hmain a ha
  · obtain ⟨section', hmem, rfl⟩ := List.mem_map.mp hscript
    exact hsections section' hmem a ha

/-- A unit that was compiled is written as a source that compiles to the same
scripts, and that is the source of the new unit too. -/
theorem compile_toSource {r : Registry} (hb : r.Built) (hw : r.Writable)
    (h : (compile r unit source).result = .ok u) :
    ∃ u', (compile r unit u.toSource).result = .ok u' ∧ u'.name = u.name ∧
      List.Forall₂ Script.SameScript u.scripts u'.scripts ∧ u'.toSource = u.toSource := by
  obtain ⟨d, hd, rfl⟩ := compile_ok h
  have hlegible := Compile.linesFrom_legible hw (fun _ => Text.sep_not_mem_pieces _)
    (Compile.Draft.legible_empty r) hd
  -- the lines of the new source are the items of the draft
  have hsource : Text.lines (ScriptUnit.toSource ⟨unit, d.scripts r unit⟩).toList =
      d.items.map Compile.Item.text ++ [[]] := by
    have hwritten : ∀ a, Compile.Item.statement a ∈ d.items → a.toSource ≠ "" := by
      intro a ha he
      exact (Action.Legible.firm (hlegible.items _ ha)).nonempty (by simp [he])
    have hlines := Text.lines_flatMap (d.items.map Compile.Item.text) <| by
      intro l hl
      obtain ⟨i, hi, rfl⟩ := List.mem_map.mp hl
      exact (hlegible.items i hi).oneLine
    rwa [List.flatMap_map, ← Compile.Draft.toSource_scripts hwritten] at hlines
  obtain ⟨d', hd', hsettled⟩ := Compile.linesFrom_items (n := 1) (d := .empty) (e := .empty) unit
    hb hw hlegible.items (by rw [Compile.Draft.opened_items]; exact hlegible.names) rfl
  rw [Compile.Draft.foldl_items] at hsettled
  have hscripts :
      (d.scripts r unit).map Script.settled = (d'.scripts r unit).map Script.settled := by
    rw [← Compile.Draft.scripts_settled, ← Compile.Draft.scripts_settled, hsettled]
  refine ⟨⟨unit, d'.scripts r unit⟩, ?_, rfl, ?_, ?_⟩
  · rw [compile, hsource, Reading.bind_ok]
    exact ⟨d', hd', rfl⟩
  · exact (forall₂_of_map_eq hscripts).imp fun _ _ => Script.sameScript_of_settled
  · have hwritten := congrArg (List.map ScriptUnit.scriptSource) hscripts
    simp only [List.map_map, Function.comp_def, ScriptUnit.scriptSource_settled] at hwritten
    rw [ScriptUnit.toSource, ScriptUnit.toSource, hwritten]

/-- A source with a default argument, words that only look special, quotes that
are needed and some that are not, and a section without statements. -/
def sampleSource : String :=
  "StopIf\n\"Log\" \"say \\\"hi\\\"\" \"->\" \"plain\" $who # -> $out\n; Empty\n;Last\nLog \"$x\""

theorem compile_toSource_sample : Registry.builtins.Writable ∧
    ∃ u u', (compile .builtins "demo" sampleSource).result = .ok u ∧ u.scripts.length = 3 ∧
      (compile .builtins "demo" u.toSource).result = .ok u' ∧ u'.name = u.name ∧
      List.Forall₂ Script.SameScript u.scripts u'.scripts ∧ u'.toSource = u.toSource := by
  refine ⟨Registry.builtins_writable, ?_⟩
  have hlen : (compile .builtins "demo" sampleSource).result.map (fun u => u.scripts.length) =
      .ok 3 := by
    decide +kernel
  cases h : (compile .builtins "demo" sampleSource).result with
  | error e => simp [h, Except.map] at hlen
  | ok u =>
    obtain ⟨u', h', hname, hscripts, hsource⟩ :=
      compile_toSource Registry.builtins_built Registry.builtins_writable h
    exact ⟨u, u', rfl, by simpa [h, Except.map] using hlen, h', hname, hscripts, hsource⟩

end Playbook
