import Mathlib.Data.List.Nodup
import Mathlib.Data.List.Pairwise
import Playbook.Proofs.HotReload
import Playbook.Proofs.Sources

/-!
# The names of scripts

The default script of a unit has the name of the unit, and that of a section the names of the unit
and the section with a dot in between (`dotted`). No two scripts of a unit have the same name. Since
there may be dots in the names of units and sections themselves, scripts of two units can have the
same name: exactly if one of the units is named like a section of the other, or like the beginning
of one (`Library.Clashes`). Then the script of the unit with the shorter name is found under that
name, and the other one is not (`Supplied.namesTold`, `same_name_twice`).
-/

namespace Playbook

-- ---------------------------------------------------------------------------
-- Dotted names
-- ---------------------------------------------------------------------------

def dotted (unit : String) : Option String → String
  | none => unit
  | some heading => unit ++ "." ++ heading

def dottedTail : Option String → List Char
  | none => []
  | some heading => '.' :: heading.toList

theorem dotted_toList (unit : String) (heading : Option String) :
    (dotted unit heading).toList = unit.toList ++ dottedTail heading := by
  cases heading <;> simp [dotted, dottedTail]

theorem dotted_dotted (unit part : String) (heading : Option String) :
    dotted (dotted unit (some part)) heading = dotted unit (some (dotted part heading)) := by
  apply String.ext
  simp [dotted_toList, dottedTail]

theorem lt_dotted (unit part : String) : unit < dotted unit (some part) := by
  rw [String.lt_iff, dotted_toList]
  generalize unit.toList = cs
  induction cs with
  | nil => exact .nil
  | cons c cs ih => exact List.cons_lt_cons_iff.mpr (.inr ⟨rfl, ih⟩)

theorem dotted_right_inj (h : dotted u heading = dotted v heading) : u = v := by
  have h := congrArg String.toList h
  rw [dotted_toList, dotted_toList] at h
  exact String.ext (List.append_cancel_right h)

theorem dotted_inj (h : dotted unit heading = dotted unit heading') : heading = heading' := by
  have h := congrArg String.toList h
  rw [dotted_toList, dotted_toList] at h
  have h := List.append_cancel_left h
  cases heading with
  | none =>
    cases heading' with
    | none => rfl
    | some part => cases h
  | some part =>
    cases heading' with
    | none => cases h
    | some part' => exact congrArg some (String.ext (List.cons.inj h).2)

theorem heading_of_append {u v : String} (hv : v.toList = u.toList ++ more)
    (h : dottedTail heading = more ++ dottedTail heading') (hne : u ≠ v) :
    ∃ part, v = dotted u (some part) ∧ heading = some (dotted part heading') := by
  cases more with
  | nil => exact absurd (String.ext (by simpa using hv)).symm hne
  | cons c part =>
    cases heading with
    | none => simp [dottedTail] at h
    | some name =>
      obtain ⟨rfl, htail⟩ := List.cons.inj h
      refine ⟨String.ofList part, String.ext ?_, congrArg some (String.ext ?_)⟩
      · simpa [dotted_toList, dottedTail] using hv
      · simpa [dotted_toList] using htail

/-- How scripts of different units come by the same name. -/
theorem dotted_eq_dotted (h : dotted u heading = dotted v heading') (hne : u ≠ v) :
    (∃ part, v = dotted u (some part) ∧ heading = some (dotted part heading')) ∨
      ∃ part, u = dotted v (some part) ∧ heading' = some (dotted part heading) := by
  have h := congrArg String.toList h
  rw [dotted_toList, dotted_toList] at h
  rcases List.append_eq_append_iff.mp h with ⟨more, hv, htail⟩ | ⟨more, hu, htail⟩
  · exact .inl (heading_of_append hv htail hne)
  · exact .inr (heading_of_append hu htail hne.symm)

-- ---------------------------------------------------------------------------
-- Names inside of a unit
-- ---------------------------------------------------------------------------

namespace Compile

theorem line_names (h : (line r site d cs).result = .ok d') (hd : d.names.Nodup) :
    d'.names.Nodup := by
  unfold line at h
  split at h
  · cases h
    exact hd
  · rename_i name text _
    split at h
    · cases h
    · split at h
      · cases h
      · rename_i hfresh
        cases h
        rw [Draft.names_openSection]
        refine List.nodup_append.mpr ⟨hd, List.nodup_singleton _, ?_⟩
        rintro a ha b hb rfl
        obtain ⟨s, hs, hname⟩ := List.mem_map.mp ha
        rw [List.mem_singleton] at hb
        exact hfresh (List.any_eq_true.mpr ⟨s, hs, by simp [hname, hb]⟩)
  · split at h
    · cases h
    · obtain ⟨a, -, h⟩ := Reading.bind_ok.mp h
      cases h
      rw [Draft.names_push]
      exact hd

theorem linesFrom_names (h : (linesFrom r unit n d ls).result = .ok d') (hd : d.names.Nodup) :
    d'.names.Nodup := by
  induction ls generalizing n d with
  | nil =>
    cases h
    exact hd
  | cons l ls ih =>
    obtain ⟨e, he, h⟩ := Reading.bind_ok.mp h
    exact ih h (line_names he hd)

end Compile

structure Titled (unit : String) (scripts : List Script) : Prop where
  name : ∀ s ∈ scripts, s.name = dotted unit s.heading
  headings : (scripts.map Script.heading).Nodup

theorem compile_titled (h : (compile r unit source).result = .ok u) :
    u.name = unit ∧ Titled unit u.scripts := by
  obtain ⟨draft, hdraft, hu⟩ := Reading.bind_ok.mp h
  cases hu
  have hnames : draft.names.Nodup := Compile.linesFrom_names hdraft List.nodup_nil
  have hheadings : (draft.names.map some).Nodup :=
    (List.nodup_map_iff fun _ _ h => Option.some.inj h).mpr hnames
  refine ⟨rfl, ?_, ?_⟩
  · intro s hs
    simp only [Compile.Draft.scripts] at hs
    split at hs
    · obtain ⟨sec, -, rfl⟩ := List.mem_map.mp hs
      rfl
    · rcases List.mem_cons.mp hs with rfl | hs
      · rfl
      · obtain ⟨sec, -, rfl⟩ := List.mem_map.mp hs
        rfl
  · have hsections : (draft.sections.map fun s =>
        ({ name := unit ++ "." ++ s.1, heading := some s.1, actions := s.2, registry := r } :
          Script)).map Script.heading = draft.names.map some := by
      simp [Compile.Draft.names, Function.comp_def]
    simp only [Compile.Draft.scripts]
    split
    · rw [hsections]
      exact hheadings
    · rw [List.map_cons, hsections]
      exact List.nodup_cons.mpr ⟨by simp, hheadings⟩

namespace Titled

variable {unit : String} {scripts : List Script}

theorem eq_of_name (h : Titled unit scripts) (hs : s ∈ scripts) (ht : t ∈ scripts)
    (hname : s.name = t.name) : s = t := by
  rw [h.name s hs, h.name t ht] at hname
  exact List.inj_on_of_nodup_map h.headings hs ht (dotted_inj hname)

theorem names (h : Titled unit scripts) : (scripts.map Script.name).Nodup := by
  have hnodup : scripts.Nodup := List.Nodup.of_map _ h.headings
  exact List.Nodup.map_on (fun s hs t ht => h.eq_of_name hs ht) hnodup

theorem find? (h : Titled unit scripts) (hs : s ∈ scripts) :
    scripts.find? (fun t => t.name == s.name) = some s := by
  cases hfind : scripts.find? fun t => t.name == s.name with
  | none => simpa using List.find?_eq_none.mp hfind s hs
  | some t =>
    have hname : t.name = s.name := by simpa using List.find?_some hfind
    exact congrArg some (h.eq_of_name (List.mem_of_find?_eq_some hfind) hs hname)

end Titled

-- ---------------------------------------------------------------------------
-- Libraries
-- ---------------------------------------------------------------------------

namespace Library

structure Composed (l : Library) : Prop where
  distinct : (l.units.entries.map Prod.fst).Nodup
  titled : ∀ e ∈ l.units.entries, Titled e.1 e.2

theorem composed_empty : empty.Composed := ⟨List.nodup_nil, by simp [empty, Table.empty]⟩

theorem Composed.filter {l : Library} (h : l.Composed) (keep : String × List Script → Bool) :
    Composed { units := { entries := l.units.entries.filter keep } } :=
  ⟨h.distinct.sublist (List.filter_sublist.map Prod.fst),
    fun e he => h.titled e (List.mem_of_mem_filter he)⟩

theorem Composed.insert {l : Library} (h : l.Composed) (hu : Titled u.name u.scripts) :
    (l.insert u).Composed := by
  have hothers : Composed { units := l.units.erase u.name } := h.filter _
  refine ⟨List.nodup_cons.mpr ⟨?_, hothers.distinct⟩, ?_⟩
  · simp [Table.erase]
  · intro e he
    rcases List.mem_cons.mp he with rfl | he
    · exact hu
    · exact hothers.titled e he

theorem Composed.insertAll {l : Library} {us : List ScriptUnit} (h : l.Composed)
    (hus : ∀ u ∈ us, Titled u.name u.scripts) : (us.foldl Library.insert l).Composed := by
  induction us generalizing l with
  | nil => exact h
  | cons u us ih =>
    obtain ⟨hu, hus⟩ := List.forall_mem_cons.mp hus
    exact ih (h.insert hu) hus

end Library

theorem loaded_titled (h : loaded r name content = .ok u) : Titled u.name u.scripts := by
  unfold loaded at h
  split at h
  · cases h
  · split at h
    · cases h
    · obtain ⟨rfl, htitled⟩ := compile_titled (Except.mapError_ok.mp h)
      exact htitled

theorem LoadReport.units_titled (r : Registry) (files : List (FileName × Entry)) :
    ∀ u ∈ (LoadReport.of r files).units, Titled u.name u.scripts := by
  intro u hu
  obtain ⟨e, -, he⟩ := List.mem_filterMap.mp hu
  cases hloaded : loaded r e.1 e.2.content with
  | error fault => simp [hloaded, Except.toOption] at he
  | ok u' =>
    obtain rfl : u' = u := by simpa [hloaded, Except.toOption] using he
    exact loaded_titled hloaded

theorem Library.Composed.refreshed {l : Library} (h : l.Composed) (r : Registry)
    (files : List (FileName × Entry)) : (l.refreshed (.of r files)).Composed :=
  (h.filter _).insertAll (LoadReport.units_titled r files)

-- ---------------------------------------------------------------------------
-- Runners
-- ---------------------------------------------------------------------------

inductive Supplied : Runner → Prop
  | start (registry : Registry) (handlers : Handlers) (fuel : Nat) (settings : Settings)
      (dice : Nat → Nat) (sampler : Sampler) :
      Supplied (.start registry handlers fuel settings dice sampler)
  | load (d : Directory) : Supplied x → Supplied (x.load d).2
  | reload (d : Directory) : Supplied x → Supplied (x.reload d).2
  | insert : Supplied x → (compile r name source).result = .ok u → Supplied (x.insert u)
  | insertSource (name source : String) : Supplied x → Supplied (x.insertSource name source).2
  | tick : Supplied x → x.tick now d = some (events, y) → Supplied y
  | elsewhere : Supplied x → y.library = x.library → Supplied y

namespace Runner

theorem load_library (x : Runner) (d : Directory) :
    (x.load d).2.library = x.library ∨
      (x.load d).2.library =
        (LoadReport.of x.registry d.scripts).units.foldl Library.insert x.library := by
  obtain ⟨trace, hsurvey⟩ := survey_eq (x.log (.debug ("Loading scripts from " ++ d.path))) d
  obtain ⟨trace', hinsert⟩ := insertAll_eq (x.stocked x.library trace)
    (LoadReport.of x.registry d.scripts).units
  have hwatch (y : Runner) : (y.watch d).library = y.library := by
    unfold watch
    split <;> rfl
  unfold load
  split
  · right
    dsimp only
    rw [hsurvey]
    dsimp only
    split
    · rw [hwatch]
      exact congrArg Runner.library hinsert
    · have hlog (y : Runner) (entry : LogEntry) : (y.log entry).library = y.library := rfl
      rw [hlog, hwatch]
      exact congrArg Runner.library hinsert
  · exact .inl rfl

theorem reload_library (x : Runner) (d : Directory) :
    (x.reload d).2.library = x.library ∨
      (x.reload d).2.library = x.library.refreshed (.of x.registry d.scripts) := by
  cases henabled : x.settings.enabled with
  | true =>
    obtain ⟨trace, hreload⟩ := reload_eq henabled d
    rw [hreload]
    exact .inr rfl
  | false =>
    refine .inl ?_
    simp [reload, henabled]

theorem refresh_library (x : Runner) (now : Nat) (d : Directory) :
    (x.refresh now d).library = x.library ∨
      (x.refresh now d).library = x.library.refreshed (.of x.registry d.scripts) := by
  obtain ⟨signal, world, hsignal⟩ := x.pollSignal_eq
  obtain ⟨world', hfiles⟩ := pollFiles_eq { x with signal, world } now d
  unfold refresh
  rw [hsignal]
  dsimp only
  rw [hfiles]
  dsimp only
  split
  · exact reload_library _ d
  · exact .inl rfl

theorem tick_library {x : Runner} (h : x.tick now d = some (events, y)) :
    y.library = x.library ∨ y.library = x.library.refreshed (.of x.registry d.scripts) := by
  unfold tick at h
  split at h
  · cases h
    exact .inl rfl
  · unfold advance at h
    split at h
    · cases h
    · cases h
      exact refresh_library { x with lastTick := some now } now d

end Runner

theorem Supplied.composed (h : Supplied x) : x.library.Composed := by
  induction h with
  | start => exact Library.composed_empty
  | @load x d _ ih =>
    rcases x.load_library d with hsame | hadded
    · rw [hsame]
      exact ih
    · rw [hadded]
      exact ih.insertAll (LoadReport.units_titled _ _)
  | @reload x d _ ih =>
    rcases x.reload_library d with hsame | hrefreshed
    · rw [hsame]
      exact ih
    · rw [hrefreshed]
      exact ih.refreshed _ _
  | insert _ hu ih =>
    obtain ⟨rfl, htitled⟩ := compile_titled hu
    exact ih.insert htitled
  | @insertSource x name source _ ih =>
    unfold Runner.insertSource World.compile World.perform
    cases hr : (compile x.registry name source).result with
    | error e => exact ih
    | ok u =>
      obtain ⟨rfl, htitled⟩ := compile_titled hr
      exact ih.insert htitled
  | tick _ htick ih =>
    rcases Runner.tick_library htick with hsame | hrefreshed
    · rw [hsame]
      exact ih
    · rw [hrefreshed]
      exact ih.refreshed _ _
  | elsewhere _ hsame ih =>
    rw [hsame]
    exact ih

-- ---------------------------------------------------------------------------
-- The same name twice
-- ---------------------------------------------------------------------------

namespace Library

def Holds (l : Library) (unit : String) (heading : Option String) : Prop :=
  ∃ scripts, l.units.get? unit = some scripts ∧ ∃ s ∈ scripts, s.heading = heading

theorem holds_iff {l : Library} : l.Holds unit heading ↔
    (l.units.get? unit).any (fun scripts => scripts.any fun s => s.heading == heading) = true := by
  simp [Holds, Option.any_eq_true, List.any_eq_true]

/-- One loaded unit is named like a section of another one, or like the beginning of one, and has
the script that is left. -/
def Clashes (l : Library) : Prop :=
  ∃ unit part heading, l.Holds unit (some (dotted part heading)) ∧
    l.Holds (dotted unit (some part)) heading

def FindsAll (l : Library) : Prop :=
  ∀ unit scripts s, l.units.get? unit = some scripts → s ∈ scripts → l.script? s.name = some s

structure NamesTold (l : Library) : Prop where
  titled : ∀ unit scripts, l.units.get? unit = some scripts → Titled unit scripts
  distinct_iff : l.scriptNames.Nodup ↔ ¬ l.Clashes
  /-- A script is found under its name unless a unit of which the name is the beginning has a script
  of that name. -/
  found_iff : ∀ unit scripts s, l.units.get? unit = some scripts → s ∈ scripts →
    (l.script? s.name = some s ↔ ∀ shorter part others, unit = dotted shorter (some part) →
      l.units.get? shorter = some others → ∀ t ∈ others, t.name ≠ s.name)
  findsAll_iff : l.FindsAll ↔ ¬ l.Clashes
  undotted : (∀ unit, l.contains unit = true → '.' ∉ unit.toList) →
    l.scriptNames.Nodup ∧ l.FindsAll

section
variable {l : Library} {unit : String} {scripts : List Script}

theorem Composed.mem_sorted (h : l.Composed) :
    (unit, scripts) ∈ l.units.sorted ↔ l.units.get? unit = some scripts := by
  rw [Table.sorted, List.mem_mergeSort]
  exact ⟨lookup_of_mem h.distinct, mem_of_lookup⟩

theorem Composed.sorted (h : l.Composed) : l.units.sorted.Pairwise fun e e' => e.1 < e'.1 :=
  pairwise_sorted h.distinct rfl

theorem Composed.titled_of_get? (h : l.Composed) (hu : l.units.get? unit = some scripts) :
    Titled unit scripts :=
  h.titled _ (mem_of_lookup hu)

theorem Composed.same_name (h : l.Composed) (hu : l.units.get? u = some ss) (hs : s ∈ ss)
    (hv : l.units.get? v = some ts) (ht : t ∈ ts) (hname : s.name = t.name) (hne : u ≠ v) :
    (∃ part, v = dotted u (some part) ∧ s.heading = some (dotted part t.heading)) ∨
      ∃ part, u = dotted v (some part) ∧ t.heading = some (dotted part s.heading) := by
  rw [(h.titled_of_get? hu).name s hs, (h.titled_of_get? hv).name t ht] at hname
  exact dotted_eq_dotted hname hne

theorem Composed.clashes (h : l.Composed) (hu : l.units.get? u = some ss) (hs : s ∈ ss)
    (hv : l.units.get? v = some ts) (ht : t ∈ ts) (hname : s.name = t.name) (hne : u ≠ v) :
    l.Clashes := by
  rcases h.same_name hu hs hv ht hname hne with ⟨part, rfl, hheading⟩ | ⟨part, rfl, hheading⟩
  · exact ⟨u, part, t.heading, ⟨ss, hu, s, hs, hheading⟩, ts, hv, t, ht, rfl⟩
  · exact ⟨v, part, s.heading, ⟨ts, hv, t, ht, hheading⟩, ss, hu, s, hs, rfl⟩

theorem Clashes.namesakes (h : l.Clashes) (hl : l.Composed) :
    ∃ unit part ss ts s t, l.units.get? unit = some ss ∧ s ∈ ss ∧
      l.units.get? (dotted unit (some part)) = some ts ∧ t ∈ ts ∧ s.name = t.name := by
  obtain ⟨unit, part, heading, ⟨ss, hss, s, hs, hheading⟩, ts, hts, t, ht, rfl⟩ := h
  refine ⟨unit, part, ss, ts, s, t, hss, hs, hts, ht, ?_⟩
  rw [(hl.titled_of_get? hss).name s hs, (hl.titled_of_get? hts).name t ht, hheading,
    dotted_dotted]

theorem Composed.distinct_iff (h : l.Composed) : l.scriptNames.Nodup ↔ ¬ l.Clashes := by
  have hperm : l.scriptNames.Perm (l.scripts.map Script.name) := List.mergeSort_perm _ _
  rw [hperm.nodup_iff, Library.scripts, List.map_flatMap, List.nodup_flatMap]
  constructor
  · rintro ⟨-, hdisjoint⟩ hclashes
    obtain ⟨unit, part, ss, ts, s, t, hss, hs, hts, ht, hname⟩ := hclashes.namesakes h
    have hne : (unit, ss) ≠ (dotted unit (some part), ts) := fun heq =>
      String.ne_of_lt (lt_dotted unit part) (Prod.mk.inj heq).1
    have hsymm : Std.Symm (Function.onFun List.Disjoint
        fun e : String × List Script => e.2.map Script.name) := ⟨fun _ _ hd _ ha hb => hd hb ha⟩
    have hdisjoint := hdisjoint.forall (h.mem_sorted.mpr hss) (h.mem_sorted.mpr hts) hne
    exact hdisjoint (List.mem_map_of_mem hs) (hname ▸ List.mem_map_of_mem ht)
  · intro hnone
    refine ⟨fun e he => (h.titled e (List.mem_mergeSort.mp he)).names, ?_⟩
    refine h.sorted.imp_of_mem fun {e e'} he he' hlt name hname hname' => ?_
    obtain ⟨s, hs, rfl⟩ := List.mem_map.mp hname
    obtain ⟨t, ht, hts⟩ := List.mem_map.mp hname'
    exact hnone (h.clashes (h.mem_sorted.mp he) hs (h.mem_sorted.mp he') ht hts.symm
      (String.ne_of_lt hlt))

theorem Composed.script?_eq (h : l.Composed) (hunit : l.units.get? unit = some scripts)
    (hs : s ∈ scripts) :
    l.script? s.name = some s ↔
      ∀ u others, u < unit → l.units.get? u = some others → ∀ t ∈ others, t.name ≠ s.name := by
  obtain ⟨before, after, hsplit⟩ := List.append_of_mem (h.mem_sorted.mpr hunit)
  have hsorted := h.sorted
  rw [hsplit, List.pairwise_append, List.pairwise_cons] at hsorted
  obtain ⟨-, ⟨hafter, -⟩, hbefore⟩ := hsorted
  have hfind : l.script? s.name =
      (before.findSome? fun e => e.2.find? fun t => t.name == s.name).or (some s) := by
    rw [script?, Library.scripts, List.find?_flatMap, hsplit, List.findSome?_append,
      List.findSome?_cons, (h.titled_of_get? hunit).find? hs]
  have hmem : ∀ u others, u < unit → l.units.get? u = some others → (u, others) ∈ before := by
    intro u others hlt hu
    have hin := h.mem_sorted.mpr hu
    rw [hsplit, List.mem_append, List.mem_cons] at hin
    rcases hin with hin | heq | hin
    · exact hin
    · exact absurd (Prod.mk.inj heq).1 (String.ne_of_lt hlt)
    · exact absurd (String.lt_trans hlt (hafter _ hin)) (String.lt_irrefl u)
  rw [hfind]
  constructor
  · intro hfound u others hlt hu t ht hname
    cases hfirst : before.findSome? fun e => e.2.find? fun t => t.name == s.name with
    | none =>
      have hnone := List.findSome?_eq_none_iff.mp hfirst _ (hmem u others hlt hu)
      exact List.find?_eq_none.mp hnone t ht (by simpa using hname)
    | some t' =>
      rw [hfirst] at hfound
      obtain rfl : t' = s := by simpa using hfound
      obtain ⟨e, he, het⟩ := List.exists_of_findSome?_eq_some hfirst
      have hin : e ∈ l.units.sorted := by rw [hsplit]; exact List.mem_append_left _ he
      have htitled := h.titled_of_get? (h.mem_sorted.mp hin)
      have hname' := htitled.name t' (List.mem_of_find?_eq_some het)
      rw [(h.titled_of_get? hunit).name t' hs] at hname'
      exact String.ne_of_lt (hbefore e he _ (.head _)) (dotted_right_inj hname').symm
  · intro hnone
    have hfirst : (before.findSome? fun e => e.2.find? fun t => t.name == s.name) = none := by
      rw [List.findSome?_eq_none_iff]
      intro e he
      rw [List.find?_eq_none]
      intro t ht hname
      have hin : e ∈ l.units.sorted := by rw [hsplit]; exact List.mem_append_left _ he
      exact hnone e.1 e.2 (hbefore e he _ (.head _)) (h.mem_sorted.mp hin) t ht
        (by simpa using hname)
    rw [hfirst]
    rfl

theorem Composed.found_iff (h : l.Composed) (hunit : l.units.get? unit = some scripts)
    (hs : s ∈ scripts) :
    l.script? s.name = some s ↔ ∀ shorter part others, unit = dotted shorter (some part) →
      l.units.get? shorter = some others → ∀ t ∈ others, t.name ≠ s.name := by
  rw [h.script?_eq hunit hs]
  constructor
  · rintro hearlier shorter part others rfl
    exact hearlier shorter others (lt_dotted shorter part)
  · intro hshorter u others hlt hu t ht hname
    rcases h.same_name hu ht hunit hs hname (String.ne_of_lt hlt) with
      ⟨part, hpart, -⟩ | ⟨part, rfl, -⟩
    · exact hshorter u part others hpart hu t ht hname
    · exact String.lt_irrefl unit (String.lt_trans (lt_dotted unit part) hlt)

theorem Composed.findsAll_iff (h : l.Composed) : l.FindsAll ↔ ¬ l.Clashes := by
  constructor
  · intro hall hclashes
    obtain ⟨unit, part, ss, ts, s, t, hss, hs, hts, ht, hname⟩ := hclashes.namesakes h
    exact (h.found_iff hts ht).mp (hall _ ts t hts ht) unit part ss rfl hss s hs hname
  · intro hnone unit scripts s hunit hs
    refine (h.found_iff hunit hs).mpr fun shorter part others hpart hshorter t ht hname => ?_
    refine hnone (h.clashes hshorter ht hunit hs hname ?_)
    rw [hpart]
    exact String.ne_of_lt (lt_dotted shorter part)

theorem not_clashes_of_undotted (h : ∀ unit, l.contains unit = true → '.' ∉ unit.toList) :
    ¬ l.Clashes := by
  rintro ⟨unit, part, heading, -, scripts, hscripts, -⟩
  refine h (dotted unit (some part)) ?_ ?_
  · rw [contains, Table.contains, hscripts]
    rfl
  · rw [dotted_toList]
    exact List.mem_append_right _ (.head _)

end

end Library

theorem Supplied.namesTold (h : Supplied x) : x.library.NamesTold where
  titled _ _ := h.composed.titled_of_get?
  distinct_iff := h.composed.distinct_iff
  found_iff _ _ _ := h.composed.found_iff
  findsAll_iff := h.composed.findsAll_iff
  undotted hunits :=
    ⟨h.composed.distinct_iff.mpr (Library.not_clashes_of_undotted hunits),
      h.composed.findsAll_iff.mpr (Library.not_clashes_of_undotted hunits)⟩

def crowded : Runner :=
  ((Runner.start .builtins .none 9 .standard fun _ => 0).insertSource "a" ";b\nLog one\n").2
    |>.insertSource "a.b" "Log two\n" |>.2

theorem crowded_supplied : Supplied crowded :=
  ((Supplied.start _ _ _ _ _ _).insertSource _ _).insertSource _ _

theorem crowded_section : crowded.library.Holds "a" (some "b") :=
  Library.holds_iff.mpr (by decide +kernel)

theorem crowded_main : crowded.library.Holds "a.b" none :=
  Library.holds_iff.mpr (by decide +kernel)

theorem namesTold_crowded : Supplied crowded ∧ crowded.library.NamesTold ∧
    crowded.library.Clashes ∧ ¬ crowded.library.FindsAll := by
  have htold := crowded_supplied.namesTold
  have hclashes : crowded.library.Clashes := ⟨"a", "b", none, crowded_section, crowded_main⟩
  exact ⟨crowded_supplied, htold, hclashes, fun hall => htold.findsAll_iff.mp hall hclashes⟩

/-- The name is there twice, and the unit of that name does not get its own script. -/
theorem same_name_twice : Supplied crowded ∧ ¬ crowded.library.scriptNames.Nodup ∧
    ∃ scripts s t, crowded.library.units.get? "a.b" = some scripts ∧ s ∈ scripts ∧
      s.heading = none ∧ crowded.library.script? s.name = some t ∧ t.heading = some "b" := by
  have hcomposed := crowded_supplied.composed
  have hclashes : crowded.library.Clashes := ⟨"a", "b", none, crowded_section, crowded_main⟩
  obtain ⟨ts, hts, t, ht, htb⟩ := crowded_section
  obtain ⟨scripts, hscripts, s, hs, hsn⟩ := crowded_main
  have hname : s.name = t.name := by
    rw [(hcomposed.titled_of_get? hscripts).name s hs,
      (hcomposed.titled_of_get? hts).name t ht, hsn, htb]
    rfl
  refine ⟨crowded_supplied, fun hnodup => hcomposed.distinct_iff.mp hnodup hclashes, scripts, s, t,
    hscripts, hs, hsn, ?_, htb⟩
  rw [hname, hcomposed.found_iff hts ht]
  intro shorter part others hdotted
  have hdot : '.' ∈ "a".toList := by
    rw [hdotted, dotted_toList]
    exact List.mem_append_right _ (.head _)
  exact absurd hdot (by decide)

end Playbook
