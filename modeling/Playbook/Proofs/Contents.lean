import Playbook.Proofs.Faults
import Playbook.Proofs.ScriptNames

/-!
# What a unit is made of

A unit that was compiled holds the statements of its source, all of them and nothing else, in their
order and with the numbers of their lines. Each is in the script of the nearest header above it, or
in the default script; the scripts are those of the headers in their order, after the default script
if there is one.
-/

namespace Playbook

namespace Compile

-- ---------------------------------------------------------------------------
-- Statements and the headers above them
-- ---------------------------------------------------------------------------

def statements (ts : List (List Char)) : List (List Char × Nat) :=
  (ts.zipIdx 1).filter fun p => isStatement p.1

def headingAbove (ts : List (List Char)) (line : Nat) : Option String :=
  (headings (ts.take (line - 1))).getLast?

/-- Whether there is a default script: unless all statements are below headers. -/
def hasDefault (ts : List (List Char)) : Bool :=
  (headings ts).isEmpty || (statements ts).any fun p => (headingAbove ts p.2).isNone

def Means (r : Registry) (unit : String) (p : List Char × Nat) (a : Action) : Prop :=
  a.line = p.2 ∧
    ∃ words, Token.scan p.1 = some words ∧ (tokens r ⟨unit, p.2⟩ words).result = .ok a

theorem statements_append (ts : List (List Char)) (t : List Char) :
    statements (ts ++ [t]) =
      statements ts ++ if isStatement t then [(t, ts.length + 1)] else [] := by
  simp [statements, List.zipIdx_append, List.filter_append, List.filter_cons, Nat.add_comm]

theorem headingAbove_append (t : List Char) (h : n ≤ ts.length + 1) :
    headingAbove (ts ++ [t]) n = headingAbove ts n := by
  rw [headingAbove, headingAbove, List.take_append_of_le_length (by omega)]

theorem headingAbove_last (ts : List (List Char)) (t : List Char) :
    headingAbove (ts ++ [t]) (ts.length + 1) = (headings ts).getLast? := by
  simp [headingAbove]

theorem line_le_of_statements (h : p ∈ statements ts) : p.2 ≤ ts.length := by
  have hmem := List.mem_zipIdx (List.mem_of_mem_filter h)
  omega

theorem statements_increase (ts : List (List Char)) :
    ((statements ts).map Prod.snd).Pairwise (· < ·) := by
  have hsub : ((statements ts).map Prod.snd).Sublist (List.range' 1 ts.length) := by
    rw [← List.zipIdx_map_snd 1 ts]
    exact List.filter_sublist.map Prod.snd
  exact (List.pairwise_lt_range' (s := 1) (n := ts.length)).sublist hsub

-- ---------------------------------------------------------------------------
-- Drafts
-- ---------------------------------------------------------------------------

def Draft.actions (d : Draft) : List Action := d.main ++ d.sections.flatMap Prod.snd

theorem Draft.actions_push (d : Draft) (a : Action) : (d.push a).actions = d.actions ++ [a] := by
  obtain ⟨main, rfl⟩ | ⟨main, earlier, name, actions, rfl⟩ := d.cases_sections
  · simp [push_main, Draft.actions]
  · simp [push_section, Draft.actions]

theorem Draft.actions_openSection (d : Draft) (name : String) :
    (d.openSection name).actions = d.actions := by
  simp [openSection, Draft.actions]

/-- The draft has the headers and statements of the lines, each in its place. -/
structure Records (r : Registry) (unit : String) (ts : List (List Char)) (d : Draft) : Prop where
  actions : List.Forall₂ (Means r unit) (statements ts) d.actions
  names : d.names = headings ts
  main : ∀ a ∈ d.main, headingAbove ts a.line = none
  sections : ∀ s ∈ d.sections, ∀ a ∈ s.2, headingAbove ts a.line = some s.1

namespace Records

theorem empty (r : Registry) (unit : String) : Records r unit [] .empty :=
  ⟨.nil, rfl, by simp [Draft.empty], by simp [Draft.empty]⟩

theorem line_le (h : Records r unit ts d) (ha : a ∈ d.actions) : a.line ≤ ts.length := by
  obtain ⟨p, hp, hline, -⟩ := forall₂_mem_right h.actions ha
  exact hline ▸ line_le_of_statements hp

theorem main_append (h : Records r unit ts d) (t : List Char) :
    ∀ a ∈ d.main, headingAbove (ts ++ [t]) a.line = none := by
  intro a ha
  have hle := h.line_le (List.mem_append_left _ ha)
  rw [headingAbove_append t (Nat.le_succ_of_le hle)]
  exact h.main a ha

theorem sections_append (h : Records r unit ts d) (t : List Char) :
    ∀ s ∈ d.sections, ∀ a ∈ s.2, headingAbove (ts ++ [t]) a.line = some s.1 := by
  intro s hs a ha
  have hle := h.line_le (List.mem_append_right _ (List.mem_flatMap.mpr ⟨s, hs, ha⟩))
  rw [headingAbove_append t (Nat.le_succ_of_le hle)]
  exact h.sections s hs a ha

theorem adds_header (h : Records r unit ts d) (hh : heading? t = some name) :
    Records r unit (ts ++ [t]) (d.openSection name) := by
  refine ⟨?_, ?_, h.main_append t, ?_⟩
  · rw [statements_append, isStatement_of_heading? hh, Draft.actions_openSection]
    simpa using h.actions
  · rw [Draft.names_openSection, h.names, headings_append]
    simp [headings, hh]
  · intro s hs
    rcases List.mem_append.mp hs with hs | hs
    · exact h.sections_append t s hs
    · obtain rfl := List.mem_singleton.mp hs
      simp

theorem adds_statement (h : Records r unit ts d) (hs : isStatement t = true)
    (ha : Means r unit (t, ts.length + 1) a) : Records r unit (ts ++ [t]) (d.push a) := by
  have hheadings : headings (ts ++ [t]) = headings ts := by
    simp [headings, heading?_of_isStatement hs]
  have hplace : headingAbove (ts ++ [t]) a.line = d.names.getLast? := by
    rw [ha.1, headingAbove_last, h.names]
  -- an action goes to the last section, and to the default script if there is none
  have hplaced : (∀ b ∈ (d.push a).main, headingAbove (ts ++ [t]) b.line = none) ∧
      ∀ s ∈ (d.push a).sections, ∀ b ∈ s.2, headingAbove (ts ++ [t]) b.line = some s.1 := by
    have hmain := h.main_append t
    have hsections := h.sections_append t
    obtain ⟨main, rfl⟩ | ⟨main, earlier, name, actions, rfl⟩ := d.cases_sections
    · rw [Draft.push_main _ _ rfl]
      refine ⟨fun b hb => ?_, by simp⟩
      rcases List.mem_append.mp hb with hb | hb
      · exact hmain b hb
      · obtain rfl := List.mem_singleton.mp hb
        exact hplace
    · rw [Draft.push_section]
      refine ⟨hmain, fun s hs b hb => ?_⟩
      rcases List.mem_append.mp hs with hs | hs
      · exact hsections s (List.mem_append_left _ hs) b hb
      · obtain rfl := List.mem_singleton.mp hs
        rcases List.mem_append.mp hb with hb | hb
        · exact hsections (name, actions) (by simp) b hb
        · obtain rfl := List.mem_singleton.mp hb
          simpa [Draft.names] using hplace
  refine ⟨?_, by rw [Draft.names_push, h.names, hheadings], hplaced.1, hplaced.2⟩
  rw [statements_append, hs, Draft.actions_push]
  exact List.rel_append h.actions (.cons ha .nil)

theorem adds (h : Records r unit ts d) (hadds : Adds r ⟨unit, ts.length + 1⟩ t d d') :
    Records r unit (ts ++ [t]) d' := by
  cases hadds with
  | nothing hh hs =>
    refine ⟨?_, ?_, h.main_append t, h.sections_append t⟩
    · simpa [statements_append, hs] using h.actions
    · simpa [headings, hh] using h.names
  | header hh => exact h.adds_header hh
  | statement hh hs hscan ha =>
    obtain ⟨_, _, -, -, -, -, hbind⟩ := tokens_ok ha
    obtain ⟨slots, -, -, hline⟩ := bindStatement_ok hbind
    exact h.adds_statement hs ⟨by rw [hline], _, hscan, ha⟩

end Records

theorem linesFrom_records (h : Records r unit above d)
    (hls : (linesFrom r unit (above.length + 1) d ls).result = .ok d') :
    Records r unit (above ++ ls.map Text.trim) d' := by
  induction ls generalizing above d with
  | nil =>
    cases hls
    simpa using h
  | cons l ls ih =>
    rw [linesFrom, Reading.bind_ok] at hls
    obtain ⟨d₁, hline, hrest⟩ := hls
    have h₁ := h.adds (line_adds hline)
    simpa using ih h₁ (by simpa using hrest)

/-- The default script of a draft is left out exactly if all statements are below headers. -/
theorem Records.hasDefault_iff (h : Records r unit ts d) :
    hasDefault ts = !(d.main.isEmpty && !d.sections.isEmpty) := by
  have hsections : d.sections.isEmpty = (headings ts).isEmpty := by
    rw [← h.names, Draft.names, List.isEmpty_map]
  have hmain : ((statements ts).any fun p => (headingAbove ts p.2).isNone) = !d.main.isEmpty := by
    rw [Bool.eq_iff_iff]
    simp only [List.any_eq_true, Option.isNone_iff_eq_none, Bool.not_eq_true',
      List.isEmpty_eq_false_iff_exists_mem]
    constructor
    · rintro ⟨p, hp, hnone⟩
      obtain ⟨a, ha, hline, -⟩ := forall₂_mem_left h.actions hp
      rcases List.mem_append.mp ha with ha | ha
      · exact ⟨a, ha⟩
      · obtain ⟨s, hs, ha⟩ := List.mem_flatMap.mp ha
        rw [← hline, h.sections s hs a ha] at hnone
        cases hnone
    · rintro ⟨a, ha⟩
      obtain ⟨p, hp, hline, -⟩ := forall₂_mem_right h.actions (List.mem_append_left _ ha)
      exact ⟨p, hp, hline ▸ h.main a ha⟩
  rw [hasDefault, hmain, hsections]
  cases d.main.isEmpty <;> cases (headings ts).isEmpty <;> rfl

end Compile

-- ---------------------------------------------------------------------------
-- Units
-- ---------------------------------------------------------------------------

open Compile

/-- Everything the unit holds is accounted for by lines with these texts, and the other way
round. -/
structure ScriptUnit.Contents (r : Registry) (ts : List (List Char)) (u : ScriptUnit) : Prop where
  actions : List.Forall₂ (Means r u.name) (statements ts) (u.scripts.flatMap Script.actions)
  increasing : ((u.scripts.flatMap Script.actions).map Action.line).Pairwise (· < ·)
  placed : ∀ s ∈ u.scripts, ∀ a ∈ s.actions, s.heading = headingAbove ts a.line
  headings : u.scripts.map Script.heading =
    (if hasDefault ts then [none] else []) ++ (headings ts).map some
  names : (u.scripts.map Script.name).Nodup
  main : ∀ s, u.main? = some s ↔ s ∈ u.scripts ∧ s.heading = none
  bySection : ∀ name s, u.bySection? name = some s ↔ s ∈ u.scripts ∧ s.heading = some name

namespace Titled

variable {u : ScriptUnit} {s : Script}

theorem main?_iff (h : Titled u.name u.scripts) :
    u.main? = some s ↔ s ∈ u.scripts ∧ s.heading = none := by
  unfold ScriptUnit.main? ScriptUnit.script?
  constructor
  · intro hfind
    have hmem := List.mem_of_find?_eq_some hfind
    have hname : s.name = u.name := by simpa using List.find?_some hfind
    rw [h.name s hmem] at hname
    have hnone : dotted u.name s.heading = dotted u.name none := hname
    exact ⟨hmem, dotted_inj hnone⟩
  · rintro ⟨hmem, hnone⟩
    have hname : s.name = u.name := by rw [h.name s hmem, hnone, dotted]
    rw [← hname]
    exact h.find? hmem

theorem bySection?_iff {name : String} (h : Titled u.name u.scripts) :
    u.bySection? name = some s ↔ s ∈ u.scripts ∧ s.heading = some name := by
  unfold ScriptUnit.bySection?
  constructor
  · intro hfind
    exact ⟨List.mem_of_find?_eq_some hfind, by simpa using List.find?_some hfind⟩
  · rintro ⟨hmem, hname⟩
    cases hfind : u.scripts.find? fun t => t.heading == some name with
    | none => simpa [hname] using List.find?_eq_none.mp hfind s hmem
    | some t =>
      have ht : t.heading = s.heading := by simpa [hname] using List.find?_some hfind
      exact congrArg some
        (List.inj_on_of_nodup_map h.headings (List.mem_of_find?_eq_some hfind) hmem ht)

end Titled

namespace Compile.Draft

theorem actions_scripts (d : Draft) (r : Registry) (unit : String) :
    (d.scripts r unit).flatMap Script.actions = d.actions := by
  unfold Draft.scripts Draft.actions
  split
  · rename_i hempty
    have hmain : d.main = [] := by simp_all
    simp [hmain, List.flatMap_map]
  · simp [List.flatMap_map]

theorem headings_scripts (d : Draft) (r : Registry) (unit : String) :
    (d.scripts r unit).map Script.heading =
      (if !(d.main.isEmpty && !d.sections.isEmpty) then [none] else []) ++ d.names.map some := by
  have hsections : (d.sections.map fun s =>
      (⟨unit ++ "." ++ s.1, some s.1, s.2, r⟩ : Script)).map Script.heading =
        d.names.map some := by
    simp [Draft.names, Function.comp_def]
  unfold Draft.scripts
  split
  · rename_i hleftOut
    rw [hsections]
    simp [hleftOut]
  · rename_i hkept
    rw [List.map_cons, hsections]
    simp [hkept]

theorem mem_scripts {d : Draft} (hs : s ∈ d.scripts r unit) :
    (s.heading = none ∧ s.actions = d.main) ∨
      ∃ sec ∈ d.sections, s.heading = some sec.1 ∧ s.actions = sec.2 := by
  unfold Draft.scripts at hs
  split at hs
  · obtain ⟨sec, hsec, rfl⟩ := List.mem_map.mp hs
    exact .inr ⟨sec, hsec, rfl, rfl⟩
  · rcases List.mem_cons.mp hs with rfl | hs
    · exact .inl ⟨rfl, rfl⟩
    · obtain ⟨sec, hsec, rfl⟩ := List.mem_map.mp hs
      exact .inr ⟨sec, hsec, rfl, rfl⟩

end Compile.Draft

/-- Compiling loses nothing, adds nothing and puts nothing in the wrong place. -/
theorem compile_contents (h : (compile r unit source).result = .ok u) :
    u.name = unit ∧ u.Contents r (texts source) := by
  obtain ⟨hname, htitled⟩ := compile_titled h
  obtain ⟨d, hd, rfl⟩ := compile_ok h
  have hrecords : Records r unit (texts source) d := linesFrom_records (Records.empty r unit) hd
  refine ⟨rfl, ?_, ?_, ?_, ?_, htitled.names, fun s => htitled.main?_iff,
    fun name s => htitled.bySection?_iff⟩
  · rw [Draft.actions_scripts]
    exact hrecords.actions
  · have hlines : d.actions.map Action.line = (statements (texts source)).map Prod.snd := by
      rw [← List.forall₂_eq_eq_eq, List.forall₂_map_left_iff, List.forall₂_map_right_iff]
      exact hrecords.actions.flip.imp fun a p hp => hp.1
    rw [Draft.actions_scripts, hlines]
    exact statements_increase _
  · intro s hs a ha
    rcases Draft.mem_scripts hs with ⟨hnone, hactions⟩ | ⟨sec, hsec, hsome, hactions⟩
    · rw [hnone, hrecords.main a (hactions ▸ ha)]
    · rw [hsome, hrecords.sections sec hsec a (hactions ▸ ha)]
  · rw [Draft.headings_scripts, ← hrecords.hasDefault_iff, hrecords.names]

theorem compile_contents_sample :
    ∃ u, (compile .builtins "demo" "\n# first\n  Log a\n;Empty\n\n;Last\nLog b\nLog c\n").result =
        .ok u ∧
      u.name = "demo" ∧
      u.Contents .builtins (texts "\n# first\n  Log a\n;Empty\n\n;Last\nLog b\nLog c\n") ∧
      u.scripts.map (fun s => (s.heading, s.actions.map Action.line)) =
        [(none, [3]), (some "Empty", []), (some "Last", [7, 8])] := by
  have hmap : (compile .builtins "demo"
      "\n# first\n  Log a\n;Empty\n\n;Last\nLog b\nLog c\n").result.map
      (fun u => u.scripts.map fun s => (s.heading, s.actions.map Action.line)) =
        .ok [(none, [3]), (some "Empty", []), (some "Last", [7, 8])] := by
    decide +kernel
  cases h : (compile .builtins "demo"
      "\n# first\n  Log a\n;Empty\n\n;Last\nLog b\nLog c\n").result with
  | error e => simp [h, Except.map] at hmap
  | ok u =>
    obtain ⟨hname, hcontents⟩ := compile_contents h
    exact ⟨u, rfl, hname, hcontents, by simpa [h, Except.map] using hmap⟩

end Playbook
