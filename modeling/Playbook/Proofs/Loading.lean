import Mathlib.Data.List.Induction
import Mathlib.Data.List.Perm.Basic
import Playbook.Proofs.FileNames
import Playbook.Proofs.Statements
import Playbook.Runner

/-!
# What a library holds after reloads

What becomes of a script file is a matter of its name and of what is in it (`loaded`), and a report
says it of every script file in order (`Directory.load_eq`). A reload puts the units that compile
in the place of their former versions, keeps those whose files do not compile, and drops the rest
(`Library.get?_refreshed`). So after any number of reloads a library holds the units that have had a
file ever since they compiled, in their latest version, and the former ones that have had a file all
along (`Runner.reloads_settle`).
-/

namespace Playbook

-- ---------------------------------------------------------------------------
-- Script files
-- ---------------------------------------------------------------------------

def Content.text : Content → Except ReadFault String
  | .folder => .error .isADirectory
  | .file bytes =>
    match Text.ofBytes? bytes with
    | none => .error .invalidText
    | some s => .ok s

def loaded (r : Registry) (name : FileName) (content : Content) : Except LoadFault ScriptUnit :=
  match name.unit? with
  | none => .error .noName
  | some unit =>
    match content.text with
    | .error f => .error (.unreadable f)
    | .ok source => (compile r unit source).result.mapError .uncompilable

theorem loaded_name {r : Registry} (h : loaded r name content = .ok u) :
    name.unit? = some u.name := by
  unfold loaded at h
  cases hunit : name.unit? with
  | none => simp [hunit] at h
  | some unit =>
    simp only [hunit] at h
    split at h
    · cases h
    · obtain ⟨draft, -, hu⟩ := Reading.bind_ok.mp (Except.mapError_ok.mp h)
      cases hu
      rfl

def LoadReport.of (r : Registry) (files : List (FileName × Entry)) : LoadReport :=
  { units := files.filterMap fun e => (loaded r e.1 e.2.content).toOption
    failures := files.filterMap fun e =>
      match loaded r e.1 e.2.content with
      | .ok _ => none
      | .error fault => some { file := e.1, fault } }

theorem LoadReport.of_cons (r : Registry) (e : FileName × Entry) (files : List (FileName × Entry)) :
    of r (e :: files) =
      match loaded r e.1 e.2.content with
      | .ok u => { of r files with units := u :: (of r files).units }
      | .error fault =>
        { of r files with failures := { file := e.1, fault } :: (of r files).failures } := by
  cases h : loaded r e.1 e.2.content <;> simp [of, h, Except.toOption]

theorem lookup_of_mem [BEq α] [LawfulBEq α] {entries : List (α × β)}
    (hdistinct : (entries.map Prod.fst).Nodup) (h : (name, e) ∈ entries) :
    entries.lookup name = some e := by
  obtain ⟨before, after, rfl⟩ := List.append_of_mem h
  refine List.lookup_eq_some_iff.mpr ⟨before, after, rfl, fun p hp => ?_⟩
  rw [List.map_append, List.nodup_append] at hdistinct
  have hne := hdistinct.2.2 p.1 (List.mem_map_of_mem hp) name (by simp)
  simpa using Ne.symm hne

theorem mem_of_lookup [BEq α] [LawfulBEq α] {entries : List (α × β)}
    (h : entries.lookup name = some e) : (name, e) ∈ entries := by
  obtain ⟨before, after, rfl, -⟩ := List.lookup_eq_some_iff.mp h
  simp

theorem pairwise_sorted [LE α] [LT α] [DecidableLE α] [Std.IsLinearOrder α] [Std.LawfulOrderLT α]
    {entries sorted : List (α × β)} (hdistinct : (entries.map Prod.fst).Nodup)
    (h : sorted = entries.mergeSort fun a b => decide (a.1 ≤ b.1)) :
    sorted.Pairwise fun e e' => e.1 < e'.1 := by
  subst h
  have hle := @List.pairwise_mergeSort _ (fun a b : α × β => decide (a.1 ≤ b.1))
    (fun a b c hab hbc => by
      simp only [decide_eq_true_eq] at hab hbc ⊢
      exact Std.le_trans hab hbc)
    (fun a b => by
      simp only [Bool.or_eq_true, decide_eq_true_eq]
      exact Std.le_total) entries
  have hperm := (List.mergeSort_perm entries fun a b => decide (a.1 ≤ b.1)).map Prod.fst
  have hne := List.pairwise_map.mp (hperm.nodup_iff.mpr hdistinct)
  exact (hle.and hne).imp fun h => Std.lt_of_le_of_ne (of_decide_eq_true h.1) h.2

namespace Folder

theorem mem_scripts {f : Folder} :
    (name, e) ∈ f.scripts ↔ f.get? name = some e ∧ name.isScript = true := by
  rw [scripts, List.mem_mergeSort, List.mem_filter]
  constructor
  · rintro ⟨hmem, hscript⟩
    exact ⟨lookup_of_mem f.distinct hmem, hscript⟩
  · rintro ⟨hget, hscript⟩
    exact ⟨mem_of_lookup hget, hscript⟩

theorem scripts_sorted (f : Folder) : f.scripts.Pairwise fun e e' => e.1 < e'.1 :=
  pairwise_sorted (f.distinct.sublist (List.filter_sublist.map Prod.fst)) rfl

end Folder

namespace Directory

def scripts (d : Directory) : List (FileName × Entry) :=
  match d.folder with
  | .ok f => f.scripts
  | .error _ => []

def listed (d : Directory) : List (FileName × Entry) :=
  match d.folder with
  | .ok f => f.entries.filter fun e => FileName.isScript e.1
  | .error _ => []

theorem scripts_eq_listed {d : Directory} (h : d.listed.Pairwise fun e e' => e.1 ≤ e'.1) :
    d.scripts = d.listed := by
  unfold scripts listed at *
  cases hfolder : d.folder with
  | ok f => exact List.mergeSort_of_pairwise (by simpa [hfolder] using h)
  | error fault => rfl

theorem scripts_sorted (d : Directory) : d.scripts.Pairwise fun e e' => e.1 < e'.1 := by
  unfold scripts
  split
  · exact Folder.scripts_sorted _
  · exact .nil

/-- The names of the units in the script files; a file whose name is no text has a nameless one. -/
def names (d : Directory) : List String := d.scripts.map fun e => e.1.unit?.getD ""

def file? (d : Directory) (n : String) : Option (FileName × Entry) :=
  d.scripts.find? fun e => e.1.unit? == some n

def Holds (d : Directory) (n : String) : Prop := (d.file? n).isSome

def compiled? (d : Directory) (r : Registry) (n : String) : Option (List Script) :=
  (d.file? n).bind fun e => (loaded r e.1 e.2.content).toOption.map ScriptUnit.scripts

theorem mem_scripts {d : Directory} : (name, e) ∈ d.scripts ↔
    (∃ f, d.folder = .ok f ∧ f.get? name = some e) ∧ name.isScript = true := by
  unfold scripts
  cases d.folder with
  | ok f => simp [Folder.mem_scripts]
  | error fault => simp

theorem scripts_apart (d : Directory) :
    d.scripts.Pairwise fun e e' => ∀ n, e.1.unit? = some n → e'.1.unit? ≠ some n := by
  refine d.scripts_sorted.imp_of_mem fun {e e'} he he' hlt n hn hn' => ?_
  have heq := FileName.unit?_inj (mem_scripts.mp he).2 (mem_scripts.mp he').2 hn hn'
  exact absurd (heq ▸ hlt) (List.lt_irrefl _)

theorem holds_iff {d : Directory} : d.Holds n ↔ ∃ e ∈ d.scripts, e.1.unit? = some n := by
  simp [Holds, file?]

theorem loadFile_eq {d : Directory} {r : Registry} (h : d.read name = content.text) (w : World) :
    ∃ trace, d.loadFile r name w = (loaded r name content, { w with trace }) := by
  unfold loadFile loaded
  rw [h]
  cases name.unit? with
  | none => exact ⟨_, rfl⟩
  | some unit =>
    cases content.text with
    | error fault => exact ⟨_, rfl⟩
    | ok source =>
      simp only [World.compile, World.perform]
      cases (compile r unit source).result <;> exact ⟨_, rfl⟩

theorem loadFiles_eq {d : Directory} {files : List (FileName × Entry)}
    (h : ∀ e ∈ files, d.read e.1 = e.2.content.text) (r : Registry) (w : World) :
    ∃ trace, d.loadFiles r (files.map Prod.fst) w = (.of r files, { w with trace }) := by
  induction files generalizing w with
  | nil => exact ⟨_, rfl⟩
  | cons e files ih =>
    obtain ⟨trace, hfile⟩ := loadFile_eq (r := r) (h e (.head _)) w
    obtain ⟨trace', hrest⟩ := ih (fun e' he' => h e' (.tail _ he'))
      (World.log { w with trace } (d.loadEntry e.1 (loaded r e.1 e.2.content)))
    refine ⟨trace', ?_⟩
    simp only [List.map_cons, loadFiles, hfile, hrest, LoadReport.of_cons]
    cases loaded r e.1 e.2.content <;> rfl

theorem load_eq (d : Directory) (r : Registry) (w : World) :
    ∃ trace, d.load r w = (.of r d.scripts, { w with trace }) := by
  unfold load scripts
  cases hfolder : d.folder with
  | error fault => cases fault <;> exact ⟨_, rfl⟩
  | ok f =>
    refine loadFiles_eq (fun e he => ?_) r w
    obtain ⟨hget, -⟩ := Folder.mem_scripts.mp he
    simp only [read, hfolder, hget]
    cases e.2.content with
    | folder => rfl
    | file bytes =>
      cases htext : Text.ofBytes? bytes <;> simp only [Content.text, htext]

end Directory

-- ---------------------------------------------------------------------------
-- Reports and libraries
-- ---------------------------------------------------------------------------

def compiles (r : Registry) (e : FileName × Entry) : Bool := (loaded r e.1 e.2.content).isOk

namespace LoadReport

theorem units_of (r : Registry) (files : List (FileName × Entry)) :
    (of r files).units.map ScriptUnit.name =
      (files.filter (compiles r)).map fun e => e.1.unit?.getD "" := by
  induction files with
  | nil => rfl
  | cons e files ih =>
    rw [of_cons]
    cases h : loaded r e.1 e.2.content with
    | ok u => simp [compiles, h, Except.isOk, Except.toBool, loaded_name h, ih]
    | error fault => simp [compiles, h, Except.isOk, Except.toBool, ih]

theorem failures_of (r : Registry) (files : List (FileName × Entry)) :
    (of r files).failures.map LoadFailure.file =
      (files.filter fun e => !compiles r e).map Prod.fst := by
  induction files with
  | nil => rfl
  | cons e files ih =>
    rw [of_cons]
    cases h : loaded r e.1 e.2.content with
    | ok u => simp [compiles, h, Except.isOk, Except.toBool, ih]
    | error fault => simp [compiles, h, Except.isOk, Except.toBool, ih]

theorem present_perm (r : Registry) (files : List (FileName × Entry)) :
    (of r files).present.Perm (files.map fun e => e.1.unit?.getD "") := by
  have hfailures : (of r files).failures.map LoadFailure.unit =
      (files.filter fun e => !compiles r e).map fun e => e.1.unit?.getD "" := by
    have h := congrArg (List.map fun name : FileName => name.unit?.getD "") (failures_of r files)
    simp only [List.map_map] at h
    exact h
  rw [present, units_of, hfailures, ← List.map_append]
  exact (List.filter_append_perm (compiles r) files).map _

end LoadReport

namespace Library

def refreshed (l : Library) (report : LoadReport) : Library :=
  report.units.foldl insert (l.retain report.present)

theorem get?_insertAll {r : Registry} {files : List (FileName × Entry)}
    (hapart : files.Pairwise fun e e' => ∀ n, e.1.unit? = some n → e'.1.unit? ≠ some n)
    (l : Library) (n : String) :
    ((LoadReport.of r files).units.foldl insert l).units.get? n =
      ((files.find? fun e => e.1.unit? == some n).bind fun e =>
        (loaded r e.1 e.2.content).toOption.map ScriptUnit.scripts).or (l.units.get? n) := by
  induction files generalizing l with
  | nil => rfl
  | cons e files ih =>
    obtain ⟨hhead, hrest⟩ := List.pairwise_cons.mp hapart
    -- no later file has the same unit
    have hother : e.1.unit? = some n → files.find? (fun e => e.1.unit? == some n) = none := by
      intro hn
      rw [List.find?_eq_none]
      intro e' he'
      simpa using hhead e' he' n hn
    rw [LoadReport.of_cons]
    cases h : loaded r e.1 e.2.content with
    | ok u =>
      have hunit := loaded_name h
      rw [List.foldl_cons, ih hrest, insert, Table.get?_set]
      by_cases hn : n = u.name
      · subst hn
        rw [hother hunit]
        simp [hunit, h, Except.toOption]
      · simp [hunit, hn, Ne.symm hn]
    | error fault =>
      rw [ih hrest]
      by_cases hn : e.1.unit? = some n
      · rw [hother hn]
        simp [hn, h, Except.toOption]
      · simp [hn]

theorem get?_added (l : Library) (r : Registry) (d : Directory) (n : String) :
    ((LoadReport.of r d.scripts).units.foldl insert l).units.get? n =
      (d.compiled? r n).or (l.units.get? n) :=
  get?_insertAll d.scripts_apart l n

theorem get?_retain (l : Library) (names : List String) (n : String) :
    (l.retain names).units.get? n = if n ∈ names then l.units.get? n else none := by
  split
  next h =>
    exact Table.lookup_filter_of_keep l.units.entries (fun m => names.contains m) n
      (List.contains_iff_mem.mpr h)
  next h =>
    simp only [retain, Table.get?, List.lookup_eq_none_iff, List.mem_filter]
    rintro e ⟨-, hkeep⟩
    have hmem := List.contains_iff_mem.mp hkeep
    rw [bne_iff_ne]
    rintro rfl
    exact h hmem

theorem get?_refreshed (l : Library) (r : Registry) (d : Directory) (n : String) :
    (l.refreshed (.of r d.scripts)).units.get? n =
      (d.compiled? r n).or (if n ∈ d.names then l.units.get? n else none) := by
  rw [refreshed, get?_added, get?_retain]
  simp only [(LoadReport.present_perm r d.scripts).mem_iff]
  rfl

end Library

-- ---------------------------------------------------------------------------
-- Runners
-- ---------------------------------------------------------------------------

namespace Runner

def stocked (x : Runner) (library : Library) (trace : List Event) : Runner :=
  { x with library, world := { x.world with trace } }

theorem logAll_eq (x : Runner) (entries : List LogEntry) :
    ∃ trace, entries.foldl log x = x.stocked x.library trace := by
  induction entries generalizing x with
  | nil => exact ⟨x.world.trace, rfl⟩
  | cons entry entries ih => exact ih (x.log entry)

theorem insertAll_eq (x : Runner) (us : List ScriptUnit) :
    ∃ trace, x.insertAll us = x.stocked (us.foldl Library.insert x.library) trace := by
  induction us generalizing x with
  | nil => exact ⟨x.world.trace, rfl⟩
  | cons u us ih => exact ih (x.insert u)

theorem survey_eq (x : Runner) (d : Directory) :
    ∃ trace, x.survey d = (.of x.registry d.scripts, x.stocked x.library trace) := by
  obtain ⟨trace, hload⟩ := d.load_eq x.registry x.world
  exact ⟨trace, by rw [survey, hload]; rfl⟩

theorem restock_eq {x y : Runner} (report : LoadReport) (trace : List Event)
    (h : y = (x.stocked (x.library.retain report.present) trace).insertAll report.units) :
    ∃ trace', (keptEntries y.library report).foldl log y =
      x.stocked (x.library.refreshed report) trace' := by
  obtain ⟨trace', hinsert⟩ :=
    insertAll_eq (x.stocked (x.library.retain report.present) trace) report.units
  rw [h, hinsert]
  exact logAll_eq (x.stocked (x.library.refreshed report) trace') _

theorem reload_eq {x : Runner} (h : x.settings.enabled = true) (d : Directory) :
    ∃ trace, x.reload d = (.of x.registry d.scripts,
      x.stocked (x.library.refreshed (.of x.registry d.scripts)) trace) := by
  obtain ⟨trace, hsurvey⟩ := survey_eq (x.log (.debug ("Reloading scripts from " ++ d.path))) d
  obtain ⟨trace', hrestock⟩ := restock_eq (x := x) (.of x.registry d.scripts) trace rfl
  rw [reload, if_pos h]
  dsimp only
  rw [hsurvey]
  exact ⟨_, congrArg (fun y : Runner => (LoadReport.of x.registry d.scripts,
    y.log (reloadEntry x.library.scriptCount y.library.scriptCount))) hrestock⟩

/-- Loads directories one after another; a directory is what the runner's is at that time. -/
def reloadAll (x : Runner) : List Directory → List LoadReport × Runner
  | [] => ([], x)
  | d :: ds =>
    let (report, x) := x.reload d
    let (reports, x) := x.reloadAll ds
    (report :: reports, x)

end Runner

def Library.through (l : Library) (r : Registry) (ds : List Directory) : Library :=
  ds.foldl (fun l d => l.refreshed (.of r d.scripts)) l

theorem Runner.reloadAll_eq {x : Runner} (h : x.settings.enabled = true) (ds : List Directory) :
    ∃ trace, x.reloadAll ds = (ds.map fun d => .of x.registry d.scripts,
      x.stocked (x.library.through x.registry ds) trace) := by
  induction ds generalizing x with
  | nil => exact ⟨x.world.trace, rfl⟩
  | cons d ds ih =>
    obtain ⟨trace, hreload⟩ := reload_eq h d
    obtain ⟨trace', hrest⟩ := ih (x := (x.reload d).2) (by rw [hreload]; exact h)
    refine ⟨trace', ?_⟩
    simp only [hreload] at hrest
    simp only [reloadAll, hreload, hrest]
    rfl

namespace Library

variable {l : Library} {r : Registry} {ds : List Directory}

theorem through_append (l : Library) (r : Registry) (ds ds' : List Directory) :
    l.through r (ds ++ ds') = (l.through r ds).through r ds' :=
  List.foldl_append

theorem get?_through_concat (l : Library) (r : Registry) (ds : List Directory) (d : Directory)
    (n : String) : (l.through r (ds ++ [d])).units.get? n =
      (d.compiled? r n).or (if n ∈ d.names then (l.through r ds).units.get? n else none) := by
  rw [through_append]
  exact get?_refreshed _ r d n

theorem get?_through_held (l : Library) (r : Registry) (hheld : ∀ d ∈ ds, n ∈ d.names) :
    (l.through r ds).units.get? n =
      (ds.reverse.findSome? fun d => d.compiled? r n).or (l.units.get? n) := by
  induction ds using List.reverseRecOn with
  | nil => rfl
  | append_singleton ds d ih =>
    rw [get?_through_concat, if_pos (hheld d (by simp)), ih fun d' hd' => hheld d' (by simp [hd']),
      List.reverse_concat, List.findSome?_cons]
    cases d.compiled? r n <;> rfl

end Library

def Directory.Named (d : Directory) : Prop := ∀ e ∈ d.scripts, e.1.unit?.isSome

theorem Directory.mem_names {d : Directory} (h : n ≠ "" ∨ d.Named) : n ∈ d.names ↔ d.Holds n := by
  rw [holds_iff, names, List.mem_map]
  refine exists_congr fun e => and_congr_right fun he => ?_
  cases hunit : e.1.unit? with
  | some unit => simp
  | none =>
    have hne : n ≠ "" := h.resolve_right fun hd => by simpa [hunit] using hd e he
    simp [Ne.symm hne]

def compiledAt (r : Registry) (ds : List Directory) (n : String) (k : Nat) :
    Option (List Script) :=
  ds[k]?.bind fun d => d.compiled? r n

/-- The unit had a file at that reload and at all later ones. -/
def HeldSince (ds : List Directory) (n : String) (k : Nat) : Prop := ∀ d ∈ ds.drop k, d.Holds n

theorem HeldSince.concat {ds : List Directory} (h : HeldSince ds n k) (hd : d.Holds n) :
    HeldSince (ds ++ [d]) n k := by
  intro d' hd'
  rw [List.drop_append, List.mem_append] at hd'
  rcases hd' with hd' | hd'
  · exact h d' hd'
  · rw [List.mem_singleton.mp (List.mem_of_mem_drop hd')]
    exact hd

theorem compiledAt_concat {r : Registry} (h : compiledAt r ds n k = some found) (d : Directory) :
    compiledAt r (ds ++ [d]) n k = some found := by
  obtain ⟨d', hd', hfound⟩ := Option.bind_eq_some_iff.mp h
  obtain ⟨hk, -⟩ := List.getElem?_eq_some_iff.mp hd'
  rw [compiledAt, List.getElem?_append_left hk, hd']
  exact hfound

theorem HeldSince.mono {ds : List Directory} (h : HeldSince ds n k) (hle : k ≤ j) :
    HeldSince ds n j :=
  fun d hd => h d (List.drop_subset_drop_left ds hle hd)

theorem HeldSince.getLast? {ds : List Directory} (h : HeldSince ds n k) (hk : k < ds.length) :
    ∀ d ∈ ds.getLast?, d.Holds n := by
  intro d hd
  have hlast : (ds.drop k).getLast? = some d := by
    rw [List.getLast?_drop, if_neg (Nat.not_le.mpr hk)]
    exact hd
  exact h d (List.mem_of_getLast? hlast)

theorem compiled?_of_later {r : Registry} (h : ∀ j, k ≤ j → compiledAt r ds n j = none) :
    (ds.drop k).reverse.findSome? (fun d => d.compiled? r n) = none := by
  rw [List.findSome?_eq_none_iff]
  intro d hd
  obtain ⟨i, hi⟩ := List.mem_iff_getElem?.mp (List.mem_reverse.mp hd)
  rw [List.getElem?_drop] at hi
  have hnone := h (k + i) (Nat.le_add_right k i)
  rw [compiledAt, hi] at hnone
  exact hnone

namespace Library

variable {l : Library} {r : Registry} {ds : List Directory}

theorem through_split {k : Nat} (hd : ds[k]? = some d) (l : Library) :
    l.through r ds =
      ((l.through r (ds.take k)).refreshed (.of r d.scripts)).through r (ds.drop (k + 1)) := by
  obtain ⟨hk, rfl⟩ := List.getElem?_eq_some_iff.mp hd
  conv_lhs => rw [← List.take_append_drop k ds, List.drop_eq_getElem_cons hk]
  exact through_append l r _ _

theorem get?_through_compiled (hnamed : ∀ d ∈ ds, d.Named)
    (hk : compiledAt r ds n k = some found) (hheld : HeldSince ds n k) (l : Library) :
    (l.through r ds).units.get? n =
      ((ds.drop (k + 1)).reverse.findSome? fun d => d.compiled? r n).or (some found) := by
  obtain ⟨d, hd, hfound⟩ := Option.bind_eq_some_iff.mp hk
  have hrest : ∀ d' ∈ ds.drop (k + 1), n ∈ d'.names := by
    intro d' hd'
    exact (Directory.mem_names (.inr (hnamed d' (List.mem_of_mem_drop hd')))).mpr
      (hheld.mono (Nat.le_succ k) d' hd')
  rw [through_split hd, get?_through_held _ r hrest, get?_refreshed, hfound]
  rfl

theorem get?_through_former (hnamed : ∀ d ∈ ds, d.Named) (hheld : HeldSince ds n 0)
    (l : Library) : (l.through r ds).units.get? n =
      (ds.reverse.findSome? fun d => d.compiled? r n).or (l.units.get? n) :=
  get?_through_held l r fun d hd =>
    (Directory.mem_names (.inr (hnamed d hd))).mpr (hheld d hd)

theorem origin_of_through (hnamed : ∀ d ∈ ds, d.Named)
    (h : ((l.through r ds).units.get? n).isSome) :
    (∃ k, (compiledAt r ds n k).isSome ∧ HeldSince ds n k) ∨
      (l.units.get? n).isSome ∧ HeldSince ds n 0 := by
  induction ds using List.reverseRecOn with
  | nil => exact .inr ⟨h, nofun⟩
  | append_singleton ds d ih =>
    rw [get?_through_concat] at h
    cases hfound : d.compiled? r n with
    | some found =>
      -- the last reload is the one from which the unit comes
      refine .inl ⟨ds.length, by simp [compiledAt, hfound], fun d' hd' => ?_⟩
      obtain rfl : d' = d := by simpa using hd'
      obtain ⟨e, hfile, -⟩ := Option.bind_eq_some_iff.mp hfound
      exact Option.isSome_of_eq_some hfile
    | none =>
      rw [hfound, Option.none_or] at h
      split at h
      next hmem =>
        have hd := (Directory.mem_names (.inr (hnamed d (by simp)))).mp hmem
        rcases ih (fun d' hd' => hnamed d' (by simp [hd'])) h with ⟨k, hk, hheld⟩ | ⟨hl, hheld⟩
        · obtain ⟨found, hk⟩ := Option.isSome_iff_exists.mp hk
          exact .inl ⟨k, Option.isSome_of_eq_some (compiledAt_concat hk d), hheld.concat hd⟩
        · exact .inr ⟨hl, hheld.concat hd⟩
      next => cases h

theorem contains_through (hnamed : ∀ d ∈ ds, d.Named) :
    (l.through r ds).contains n = true ↔ (∀ d ∈ ds.getLast?, d.Holds n) ∧
      ((∃ k, (compiledAt r ds n k).isSome ∧ HeldSince ds n k) ∨
        l.contains n = true ∧ HeldSince ds n 0) := by
  constructor
  · intro h
    have horigin := origin_of_through hnamed h
    refine ⟨?_, horigin⟩
    rcases horigin with ⟨k, hk, hheld⟩ | ⟨-, hheld⟩
    · obtain ⟨found, hk⟩ := Option.isSome_iff_exists.mp hk
      obtain ⟨d, hd, -⟩ := Option.bind_eq_some_iff.mp hk
      exact hheld.getLast? (List.getElem?_eq_some_iff.mp hd).1
    · exact fun d hd => hheld d (List.mem_of_getLast? hd)
  · rintro ⟨-, ⟨k, hk, hheld⟩ | ⟨hl, hheld⟩⟩
    · obtain ⟨found, hk⟩ := Option.isSome_iff_exists.mp hk
      rw [contains, Table.contains, get?_through_compiled hnamed hk hheld]
      simp
    · rw [contains, Table.contains] at hl ⊢
      rw [get?_through_former hnamed hheld, Option.isSome_or, hl, Bool.or_true]

end Library

/-- What reloads of directories one after another do to a runner. -/
structure Runner.Settles (x : Runner) (ds : List Directory) (reports : List LoadReport)
    (y : Runner) : Prop where
  reported : reports = ds.map fun d => .of x.registry d.scripts
  files : ∀ d ∈ ds, ∀ name e, (name, e) ∈ d.scripts ↔
    (∃ f, d.folder = .ok f ∧ f.get? name = some e) ∧ name.isScript = true
  sorted : ∀ d ∈ ds, d.scripts.Pairwise fun e e' => e.1 < e'.1
  units : ∀ d ∈ ds, (LoadReport.of x.registry d.scripts).units.map ScriptUnit.name =
    (d.scripts.filter (compiles x.registry)).map fun e => e.1.unit?.getD ""
  failures : ∀ d ∈ ds, (LoadReport.of x.registry d.scripts).failures.map LoadFailure.file =
    (d.scripts.filter fun e => !compiles x.registry e).map Prod.fst
  untouched : y = x.stocked y.library y.world.trace
  loaded_iff : ∀ n, y.library.contains n = true ↔ (∀ d ∈ ds.getLast?, d.Holds n) ∧
    ((∃ k, (compiledAt x.registry ds n k).isSome ∧ HeldSince ds n k) ∨
      x.library.contains n = true ∧ HeldSince ds n 0)
  latest : ∀ n k found, compiledAt x.registry ds n k = some found → HeldSince ds n k →
    (∀ j, k < j → compiledAt x.registry ds n j = none) → y.library.units.get? n = some found
  former : ∀ n, (∀ k, (compiledAt x.registry ds n k).isSome → ¬ HeldSince ds n k) →
    HeldSince ds n 0 → y.library.units.get? n = x.library.units.get? n

namespace Runner

theorem reloads_settle {x : Runner} {ds : List Directory} (henabled : x.settings.enabled = true)
    (hnamed : ∀ d ∈ ds, d.Named) : x.Settles ds (x.reloadAll ds).1 (x.reloadAll ds).2 := by
  obtain ⟨trace, h⟩ := reloadAll_eq henabled ds
  rw [h]
  exact
    { reported := rfl
      files := fun d _ name e => Directory.mem_scripts
      sorted := fun d _ => d.scripts_sorted
      units := fun d _ => LoadReport.units_of x.registry d.scripts
      failures := fun d _ => LoadReport.failures_of x.registry d.scripts
      untouched := rfl
      loaded_iff := fun n => Library.contains_through hnamed
      latest := by
        intro n k found hk hheld hlater
        have hget := Library.get?_through_compiled hnamed hk hheld x.library
        rw [compiled?_of_later hlater] at hget
        exact hget
      former := by
        intro n hnever hheld
        have hnone : ∀ k, 0 ≤ k → compiledAt x.registry ds n k = none := fun k hk =>
          Option.not_isSome_iff_eq_none.mp fun hsome => hnever k hsome (hheld.mono hk)
        have hbroken := compiled?_of_later hnone
        have hget := Library.get?_through_former (r := x.registry) hnamed hheld x.library
        rw [List.drop_zero] at hbroken
        rw [hbroken] at hget
        exact hget }

def sampleDirectory (files : List (String × String)) : Directory :=
  { path := "scripts"
    place := .folder (files.foldr
      (fun f folder => folder.put (Text.toBytes f.1) ⟨.file (Text.toBytes f.2), 0⟩) .empty) }

def sampleReloads : List Directory :=
  [sampleDirectory [("a.txt", "Log one"), ("b.txt", "Log one"), ("c.txt", "Nothing")],
   sampleDirectory [("a.txt", "Log one\nLog two"), ("b.txt", "Nothing"), ("c.txt", "Nothing")],
   sampleDirectory [("a.txt", "Nothing"), ("c.txt", "Nothing")]]

def sampleRunner : Runner :=
  (Runner.start .builtins .none 9 .standard fun _ => 0).insertAll [⟨"c", []⟩, ⟨"d", []⟩]

theorem sampleReloads_scripts : ∀ d ∈ sampleReloads, d.scripts = d.listed := by
  have hsorted : ∀ d ∈ sampleReloads, d.listed.Pairwise fun e e' => e.1 ≤ e'.1 := by
    decide +kernel
  exact fun d hd => Directory.scripts_eq_listed (hsorted d hd)

theorem reloads_settle_breaking : sampleRunner.settings.enabled = true ∧
    (∀ d ∈ sampleReloads, d.Named) ∧
    sampleRunner.Settles sampleReloads (sampleRunner.reloadAll sampleReloads).1
      (sampleRunner.reloadAll sampleReloads).2 ∧
    (sampleRunner.reloadAll sampleReloads).2.library.units.entries.map
      (fun u => (u.1, u.2.map fun s => s.actions.length)) = [("a", [2]), ("c", [])] := by
  have hnamed : ∀ d ∈ sampleReloads, d.Named := by
    have hlisted : ∀ d ∈ sampleReloads, ∀ e ∈ d.listed, e.1.unit?.isSome := by decide +kernel
    intro d hd
    rw [Directory.Named, sampleReloads_scripts d hd]
    exact hlisted d hd
  refine ⟨rfl, hnamed, reloads_settle rfl hnamed, ?_⟩
  obtain ⟨trace, h⟩ := reloadAll_eq (x := sampleRunner) rfl sampleReloads
  have hlibrary : (sampleRunner.reloadAll sampleReloads).2.library =
      sampleReloads.foldl (fun l d => l.refreshed (.of sampleRunner.registry d.listed))
        sampleRunner.library := by
    rw [h]
    exact List.foldl_ext _ _ _ fun l d hd => by rw [sampleReloads_scripts d hd]
  rw [hlibrary]
  decide +kernel

end Runner

end Playbook
