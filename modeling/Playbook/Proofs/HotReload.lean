import Playbook.Proofs.Loading

/-!
# Picking up changed files

A runner that watches its directory compares modification times with those of its last look. While
no file gets a time that it had before, a file whose time is the one the watcher knows is loaded as
it is (`Tracks.current`). So after a look every file that compiles is loaded in its present version.

A look drops a unit only together with a file that the watcher knew. A file that is made after a
look, loaded by a reload in between and gone again at the next look leaves its unit behind
(`left_behind`). No other unit is left behind (`Tended.inStep_iff_of_look`).
-/

namespace Playbook

-- ---------------------------------------------------------------------------
-- Directories that change
-- ---------------------------------------------------------------------------

namespace Directory

theorem file?_of_mem {d : Directory} (h : e ∈ d.scripts) (hn : e.1.unit? = some n) :
    d.file? n = some e := by
  cases hfile : d.file? n with
  | none =>
    have hnone := List.find?_eq_none.mp hfile e h
    simp [hn] at hnone
  | some e' =>
    have hmem := List.mem_of_find?_eq_some hfile
    have hn' : e'.1.unit? = some n := by simpa using List.find?_some hfile
    obtain ⟨⟨f, hf, hget⟩, hscript⟩ := mem_scripts.mp h
    obtain ⟨⟨f', hf', hget'⟩, hscript'⟩ := mem_scripts.mp hmem
    have hname := FileName.unit?_inj hscript' hscript hn' hn
    obtain rfl : f = f' := by simpa [hf] using hf'
    rw [hname, hget, Option.some.injEq] at hget'
    exact congrArg some (Prod.ext hname hget'.symm)

theorem compiled?_of_loaded {d : Directory} {r : Registry} (h : e ∈ d.scripts)
    (hu : loaded r e.1 e.2.content = .ok u) : d.compiled? r u.name = some u.scripts := by
  rw [compiled?, file?_of_mem h (loaded_name hu)]
  simp [hu, Except.toOption]

theorem Holds.ne_empty {d : Directory} (h : d.Holds n) : n ≠ "" := by
  obtain ⟨e, he, hn⟩ := holds_iff.mp h
  exact FileName.unit?_ne_empty (mem_scripts.mp he).2 hn

theorem holds_of_compiled? {d : Directory} {r : Registry} (h : d.compiled? r n = some found) :
    d.Holds n := by
  obtain ⟨e, hfile, -⟩ := Option.bind_eq_some_iff.mp h
  exact Option.isSome_of_eq_some hfile

theorem mem_scripts_put {d : Directory} (h : p ∈ (d.put name e).scripts) :
    p = (name, e) ∨ p ∈ d.scripts := by
  obtain ⟨path, place⟩ := d
  cases place with
  | plainFile => exact .inr h
  | missing =>
    simp only [put, scripts, folder, Folder.scripts, Folder.put, Folder.erase, Folder.empty,
      List.mem_mergeSort, List.mem_filter] at h
    exact .inl (by simpa using h.1)
  | folder f =>
    simp only [put, scripts, folder, Folder.scripts, Folder.put, Folder.erase, List.mem_mergeSort,
      List.mem_filter, List.mem_cons] at h ⊢
    exact h.1.imp_right fun hp => ⟨hp.1, h.2⟩

theorem mem_scripts_erase {d : Directory} (h : p ∈ (d.erase name).scripts) : p ∈ d.scripts := by
  obtain ⟨path, place⟩ := d
  cases place with
  | plainFile => exact h
  | missing => exact h
  | folder f =>
    simp only [erase, scripts, folder, Folder.scripts, Folder.erase, List.mem_mergeSort,
      List.mem_filter] at h ⊢
    exact ⟨h.1.1, h.2⟩

end Directory

namespace Snapshot

theorem take_eq (d : Directory) : take d = d.scripts.map fun e => (e.1, e.2.modified) := by
  unfold take Directory.scripts
  cases d.folder <;> rfl

/-- A look finds nothing if the files that are there are known with their times, and those that are
known are there. -/
theorem changes_any_eq_false {old new : Snapshot} : (old.changes new).any = false ↔
    (∀ p ∈ new, old.lookup p.1 = some p.2) ∧ ∀ p ∈ old, (new.lookup p.1).isSome := by
  simp only [Changes.any, changes, select, Bool.or_eq_false_iff, Bool.not_eq_false',
    List.isEmpty_iff, List.map_eq_nil_iff, List.filter_eq_nil_iff]
  refine and_congr ?_ (forall₂_congr fun p _ => by cases new.lookup p.1 <;> simp)
  rw [← forall₂_and]
  refine forall₂_congr fun p _ => ?_
  cases old.lookup p.1 <;> simp

end Snapshot

-- ---------------------------------------------------------------------------
-- What runners do
-- ---------------------------------------------------------------------------

def Watcher.looked (w : Watcher) (now : Nat) (d : Directory) : Watcher :=
  { w with lastScan := some now, known := .take d }

namespace Runner

def isLookDue (x : Runner) (now : Nat) : Bool := x.watcher.any fun w => w.isDue now

def seesChanges (x : Runner) (now : Nat) (d : Directory) : Bool :=
  x.watcher.any fun w => w.isDue now && (w.known.changes (.take d)).any

def watcherAfter (x : Runner) (now : Nat) (d : Directory) : Option Watcher :=
  x.watcher.map fun w => if w.isDue now then w.looked now d else w

def libraryAfter (x : Runner) (now : Nat) (d : Directory) : Library :=
  if x.signal.isRaised || x.seesChanges now d then x.library.refreshed (.of x.registry d.scripts)
  else x.library

theorem pollSignal_eq (x : Runner) :
    ∃ signal world, x.pollSignal = (x.signal.isRaised, { x with signal, world }) := by
  unfold pollSignal
  cases x.signal.isRaised
  · exact ⟨x.signal, x.world, rfl⟩
  · exact ⟨_, _, rfl⟩

theorem pollFiles_eq (x : Runner) (now : Nat) (d : Directory) :
    ∃ world, x.pollFiles now d =
      (x.seesChanges now d, { x with watcher := x.watcherAfter now d, world }) := by
  obtain ⟨registry, handlers, fuel, settings, library, scheduler, watcher, signal, last, world⟩ := x
  cases watcher with
  | none => exact ⟨world, rfl⟩
  | some w =>
    unfold pollFiles seesChanges watcherAfter
    simp only [Option.any_some, Option.map_some]
    by_cases hdue : w.isDue now = true
    · simp only [hdue, Bool.true_and, ↓reduceIte]
      split
      next hany =>
        have hany : (w.known.changes (.take d)).any = true := hany
        exact ⟨_, by rw [hany]; rfl⟩
      next hnone =>
        have hnone : (w.known.changes (.take d)).any = false := Bool.eq_false_iff.mpr hnone
        exact ⟨_, by rw [hnone]; rfl⟩
    · exact ⟨world, by simp [hdue]⟩

theorem refresh_eq {x : Runner} (h : x.settings.enabled = true) (now : Nat) (d : Directory) :
    ∃ signal world, x.refresh now d =
      { x with
        library := x.libraryAfter now d, watcher := x.watcherAfter now d, signal, world } := by
  obtain ⟨signal, world, hsignal⟩ := x.pollSignal_eq
  obtain ⟨world', hfiles⟩ := pollFiles_eq { x with signal, world } now d
  have hrefresh : x.refresh now d =
      if x.signal.isRaised || x.seesChanges now d then
        (Runner.reload { x with watcher := x.watcherAfter now d, signal, world := world' } d).2
      else { x with watcher := x.watcherAfter now d, signal, world := world' } := by
    rw [refresh, hsignal]
    dsimp only
    rw [hfiles]
    rfl
  rw [hrefresh, libraryAfter]
  split
  next =>
    obtain ⟨trace, hreload⟩ := reload_eq (x :=
      { x with watcher := x.watcherAfter now d, signal, world := world' }) h d
    exact ⟨signal, _, congrArg Prod.snd hreload⟩
  next => exact ⟨signal, world', rfl⟩

theorem tick_eq {x : Runner} (h : x.settings.enabled = true) (hsoon : x.isTooSoon now = false)
    (htick : x.tick now d = some (events, y)) : ∃ scheduler signal lastTick world, y =
      { x with
        library := x.libraryAfter now d, watcher := x.watcherAfter now d
        scheduler, signal, lastTick, world } := by
  obtain ⟨signal, world, hrefresh⟩ := refresh_eq (x := { x with lastTick := some now }) h now d
  simp only [tick, hsoon, Bool.false_eq_true, ↓reduceIte, hrefresh, advance] at htick
  split at htick
  · cases htick
  · cases htick
    exact ⟨_, signal, some now, _, rfl⟩

theorem watch_eq {x : Runner} (h : x.settings.hotReload = true) (d : Directory) :
    ∃ world, x.watch d = { x with
      watcher := some { interval := x.settings.scanInterval, lastScan := none, known := .take d }
      world } := by
  rw [watch, if_pos h]
  exact ⟨_, rfl⟩

theorem load_eq {x : Runner} (h : x.settings.enabled = true) (hwatch : x.settings.hotReload = true)
    (d : Directory) : ∃ world, (x.load d).2 = { x with
      library := (LoadReport.of x.registry d.scripts).units.foldl Library.insert x.library
      watcher := some { interval := x.settings.scanInterval, lastScan := none, known := .take d }
      world } := by
  obtain ⟨trace, hsurvey⟩ := survey_eq (x.log (.debug ("Loading scripts from " ++ d.path))) d
  obtain ⟨trace', hinsert⟩ := insertAll_eq (x.stocked x.library trace)
    (LoadReport.of x.registry d.scripts).units
  obtain ⟨world, hlook⟩ := watch_eq (x := x.stocked
    ((LoadReport.of x.registry d.scripts).units.foldl Library.insert x.library) trace') hwatch d
  have hlook := (congrArg (fun y : Runner => y.watch d) hinsert).trans hlook
  rw [load, if_pos h]
  dsimp only
  rw [hsurvey]
  dsimp only
  split
  · exact ⟨world, hlook⟩
  · exact ⟨_, congrArg (fun y : Runner =>
      y.log (.info ("Loaded " ++ Number.natText y.library.scriptCount ++ " script(s)"))) hlook⟩

theorem run_eq {x : Runner} (h : x.run name actor now = some (result, y)) :
    ∃ scheduler world, y = { x with scheduler, world } := by
  unfold run at h
  split at h
  · cases h
    exact ⟨y.scheduler, y.world, rfl⟩
  · dsimp only at h
    split at h
    · cases h
    · cases h
      exact ⟨_, _, rfl⟩

theorem tick_idle {x : Runner} (now : Nat) (d : Directory) (h : x.settings.enabled = true)
    (hsoon : x.isTooSoon now = false) (hidle : x.scheduler.loops = []) :
    ∃ y, x.tick now d = some ([], y) := by
  obtain ⟨signal, world, hrefresh⟩ := refresh_eq (x := { x with lastTick := some now }) h now d
  simp only [tick, hsoon, Bool.false_eq_true, ↓reduceIte, hrefresh, advance, Scheduler.tick, hidle,
    Scheduler.tickLoops]
  exact ⟨_, rfl⟩

end Runner

-- ---------------------------------------------------------------------------
-- Keeping up with the files
-- ---------------------------------------------------------------------------

namespace Library

variable {l : Library} {r : Registry} {d : Directory}

theorem get?_refreshed_loaded (l : Library) (he : e ∈ d.scripts)
    (hu : loaded r e.1 e.2.content = .ok u) :
    (l.refreshed (.of r d.scripts)).units.get? u.name = some u.scripts := by
  rw [get?_refreshed, Directory.compiled?_of_loaded he hu]
  rfl

theorem get?_added_loaded (l : Library) (he : e ∈ d.scripts)
    (hu : loaded r e.1 e.2.content = .ok u) :
    ((LoadReport.of r d.scripts).units.foldl insert l).units.get? u.name = some u.scripts := by
  rw [get?_added, Directory.compiled?_of_loaded he hu]
  rfl

theorem of_contains_refreshed (h : (l.refreshed (.of r d.scripts)).contains n = true) :
    d.Holds n ∨ n ∈ d.names ∧ l.contains n = true := by
  rw [contains, Table.contains, get?_refreshed, Option.isSome_or, Bool.or_eq_true] at h
  rcases h with h | h
  · obtain ⟨found, hfound⟩ := Option.isSome_iff_exists.mp h
    exact .inl (Directory.holds_of_compiled? hfound)
  · split at h
    next hmem => exact .inr ⟨hmem, h⟩
    next => cases h

end Library

def Watcher.Knows (w : Watcher) (n : String) : Prop := ∃ p ∈ w.known, p.1.unit? = some n

theorem Watcher.knows_take {w : Watcher} {d : Directory} (h : w.known = .take d) :
    w.Knows n ↔ d.Holds n := by
  simp [Knows, h, Snapshot.take_eq, Directory.holds_iff]

theorem Watcher.knows_of_unchanged {w : Watcher} {d : Directory}
    (hsame : (w.known.changes (.take d)).any = false) : w.Knows n ↔ d.Holds n := by
  obtain ⟨hthere, hknown⟩ := Snapshot.changes_any_eq_false.mp hsame
  rw [← knows_take (w := w.looked 0 d) rfl]
  constructor
  · rintro ⟨p, hp, hn⟩
    obtain ⟨t, ht⟩ := Option.isSome_iff_exists.mp (hknown p hp)
    exact ⟨(p.1, t), mem_of_lookup ht, hn⟩
  · rintro ⟨p, hp, hn⟩
    exact ⟨p, mem_of_lookup (hthere p hp), hn⟩

/-- Every script file that compiles is loaded as it is. -/
def Library.UpToDate (l : Library) (r : Registry) (d : Directory) : Prop :=
  ∀ e ∈ d.scripts, ∀ u, loaded r e.1 e.2.content = .ok u → l.units.get? u.name = some u.scripts

structure Library.InStep (l : Library) (r : Registry) (d : Directory) : Prop where
  held : ∀ n, l.contains n = true → d.Holds n
  upToDate : l.UpToDate r d

/-- How a library and a watcher keep up with a directory in which no file has a time twice. If
`calm`, no scripts have been loaded again without a look at the files. -/
structure Tracks (r : Registry) (l : Library) (w : Watcher) (d : Directory)
    (stamps : List (FileName × Nat)) (calm : Bool) : Prop where
  named : ∀ n, l.contains n = true → n ≠ ""
  stamped : ∀ e ∈ d.scripts, (e.1, e.2.modified) ∈ stamps
  known : ∀ p ∈ w.known, p ∈ stamps
  /-- A file with the time that is known is loaded as it is. -/
  current : ∀ e ∈ d.scripts, w.known.lookup e.1 = some e.2.modified →
    ∀ u, loaded r e.1 e.2.content = .ok u → l.units.get? u.name = some u.scripts
  covered : calm = true → ∀ n, l.contains n = true → w.Knows n

namespace Tracks

variable {r : Registry} {l : Library} {w : Watcher} {d d' : Directory}

theorem put (h : Tracks r l w d stamps calm) (hfresh : (name, e.modified) ∉ stamps) :
    Tracks r l w (d.put name e) ((name, e.modified) :: stamps) calm where
  named := h.named
  stamped := by
    intro p hp
    rcases Directory.mem_scripts_put hp with rfl | hp
    · exact .head _
    · exact .tail _ (h.stamped p hp)
  known p hp := .tail _ (h.known p hp)
  current := by
    intro p hp hlookup
    rcases Directory.mem_scripts_put hp with rfl | hp
    · -- the watcher cannot know a time that is new
      exact absurd (h.known _ (mem_of_lookup hlookup)) hfresh
    · exact h.current p hp hlookup
  covered := h.covered

theorem shrink (h : Tracks r l w d stamps calm) (hd : ∀ e ∈ d'.scripts, e ∈ d.scripts) :
    Tracks r l w d' stamps calm where
  named := h.named
  stamped e he := h.stamped e (hd e he)
  known := h.known
  current e he := h.current e (hd e he)
  covered := h.covered

theorem named_refreshed (h : Tracks r l w d stamps calm)
    (hn : (l.refreshed (.of r d.scripts)).contains n = true) : n ≠ "" := by
  rcases Library.of_contains_refreshed hn with hheld | ⟨-, hold⟩
  · exact hheld.ne_empty
  · exact h.named n hold

theorem held_refreshed (h : Tracks r l w d stamps calm)
    (hn : (l.refreshed (.of r d.scripts)).contains n = true) : d.Holds n := by
  rcases Library.of_contains_refreshed hn with hheld | ⟨hmem, hold⟩
  · exact hheld
  · exact (Directory.mem_names (.inl (h.named n hold))).mp hmem

theorem start (hw : w.known = .take d)
    (hheld : ∀ n, ((LoadReport.of r d.scripts).units.foldl Library.insert l).contains n = true →
      d.Holds n)
    (hstamps : ∀ p ∈ Snapshot.take d, p ∈ stamps) :
    Tracks r ((LoadReport.of r d.scripts).units.foldl Library.insert l) w d stamps true where
  named n hn := (hheld n hn).ne_empty
  stamped e he := hstamps _ (by rw [Snapshot.take_eq]; exact List.mem_map_of_mem he)
  known := by rw [hw]; exact hstamps
  current _ he _ _ hu := Library.get?_added_loaded l he hu
  covered _ n hn := (Watcher.knows_take hw).mpr (hheld n hn)

theorem reload (h : Tracks r l w d stamps calm) :
    Tracks r (l.refreshed (.of r d.scripts)) w d stamps false where
  named _ hn := h.named_refreshed hn
  stamped := h.stamped
  known := h.known
  current _ he _ _ hu := Library.get?_refreshed_loaded l he hu
  covered := nofun

theorem known_looked (h : Tracks r l w d stamps calm) :
    ∀ p ∈ (w.looked now d).known, p ∈ stamps := by
  simp only [Watcher.looked, Snapshot.take_eq, List.mem_map]
  rintro _ ⟨e, he, rfl⟩
  exact h.stamped e he

theorem look (h : Tracks r l w d stamps calm) (calm' : Bool) :
    Tracks r (l.refreshed (.of r d.scripts)) (w.looked now d) d stamps calm' where
  named _ hn := h.named_refreshed hn
  stamped := h.stamped
  known := h.known_looked
  current _ he _ _ hu := Library.get?_refreshed_loaded l he hu
  covered _ _ hn := (Watcher.knows_take rfl).mpr (h.held_refreshed hn)

theorem upToDate (h : Tracks r l w d stamps calm)
    (hsame : (w.known.changes (.take d)).any = false) : l.UpToDate r d := by
  intro e he
  refine h.current e he ((Snapshot.changes_any_eq_false.mp hsame).1 (e.1, e.2.modified) ?_)
  rw [Snapshot.take_eq]
  exact List.mem_map_of_mem he

theorem inStep_refreshed (h : Tracks r l w d stamps calm) :
    (l.refreshed (.of r d.scripts)).InStep r d :=
  ⟨fun _ hn => h.held_refreshed hn, fun _ he _ hu => Library.get?_refreshed_loaded l he hu⟩

theorem lookUnchanged (h : Tracks r l w d stamps calm)
    (hsame : (w.known.changes (.take d)).any = false) :
    Tracks r l (w.looked now d) d stamps calm where
  named := h.named
  stamped := h.stamped
  known := h.known_looked
  current e he _ := h.upToDate hsame e he
  covered hcalm n hn := (Watcher.knows_take rfl).mpr
    ((Watcher.knows_of_unchanged hsame).mp (h.covered hcalm n hn))

theorem inStep_iff (h : Tracks r l w d stamps calm)
    (hsame : (w.known.changes (.take d)).any = false) :
    l.InStep r d ↔ ∀ n, l.contains n = true → w.Knows n := by
  constructor
  · intro hin n hn
    exact (Watcher.knows_of_unchanged hsame).mpr (hin.held n hn)
  · intro hknown
    exact ⟨fun n hn => (Watcher.knows_of_unchanged hsame).mp (hknown n hn), h.upToDate hsame⟩

end Tracks

def Runner.reloadsUnseen (x : Runner) (now : Nat) : Bool :=
  !x.isTooSoon now && x.signal.isRaised && !x.isLookDue now

theorem Tracks.tick {x : Runner} (h : Tracks x.registry x.library w d stamps calm)
    (hw : x.watcher = some w) (hsoon : x.isTooSoon now = false) :
    Tracks x.registry (x.libraryAfter now d) (if w.isDue now then w.looked now d else w) d stamps
      (calm && !x.reloadsUnseen now) := by
  unfold Runner.libraryAfter Runner.reloadsUnseen Runner.seesChanges Runner.isLookDue
  simp only [hsoon, hw, Option.any_some, Bool.not_false, Bool.true_and]
  cases w.isDue now with
  | true =>
    simp only [Bool.true_and, Bool.not_true, Bool.and_false, Bool.not_false, Bool.and_true,
      ↓reduceIte]
    split
    next => exact h.look calm
    next hnone =>
      simp only [Bool.or_eq_true, not_or, Bool.not_eq_true] at hnone
      exact h.lookUnchanged hnone.2
  | false =>
    simp only [Bool.false_and, Bool.or_false, Bool.not_false, Bool.and_true, Bool.false_eq_true,
      ↓reduceIte]
    cases x.signal.isRaised with
    | true => simpa using h.reload
    | false => simpa using h

/-- A runner that has loaded its directory, and all that may have happened since then. No file gets
a modification time that it has had: all of them are in `stamps`. If `calm`, scripts were loaded
again only with a look at the files. -/
inductive Tended : Runner → Directory → List (FileName × Nat) → Bool → Prop where
  | load (x : Runner) : x.settings.enabled = true → x.settings.hotReload = true →
    (∀ n, (x.load d).2.library.contains n = true → d.Holds n) →
    (∀ p ∈ Snapshot.take d, p ∈ stamps) → Tended (x.load d).2 d stamps true
  | write : Tended x d stamps calm → (name, e.modified) ∉ stamps →
    Tended x (d.put name e) ((name, e.modified) :: stamps) calm
  | erase : Tended x d stamps calm → Tended x (d.erase name) stamps calm
  | eraseAll : Tended x d stamps calm → Tended x d.eraseAll stamps calm
  | request : Tended x d stamps calm → Tended { x with signal := x.signal.raise } d stamps calm
  | close : Tended x d stamps calm → Tended { x with signal := x.signal.close } d stamps calm
  | reload : Tended x d stamps calm → Tended (x.reload d).2 d stamps false
  | tick : Tended x d stamps calm → x.tick now d = some (events, y) →
    Tended y d stamps (calm && !x.reloadsUnseen now)
  | run : Tended x d stamps calm → x.run name actor now = some (result, y) → Tended y d stamps calm
  | cancelLoop : Tended x d stamps calm → Tended (x.cancelLoop loop).2 d stamps calm

def Runner.KeepsUp (x : Runner) (d : Directory) (stamps : List (FileName × Nat)) (calm : Bool) :
    Prop :=
  x.settings.enabled = true ∧
    ∃ w, x.watcher = some w ∧ Tracks x.registry x.library w d stamps calm

theorem Runner.KeepsUp.tick {x : Runner} (h : x.KeepsUp d stamps calm)
    (htick : x.tick now d = some (events, y)) :
    y.KeepsUp d stamps (calm && !x.reloadsUnseen now) := by
  obtain ⟨henabled, w, hw, htracks⟩ := h
  cases hsoon : x.isTooSoon now with
  | true =>
    simp only [Runner.tick, hsoon, ↓reduceIte, Option.some.injEq, Prod.mk.injEq] at htick
    obtain ⟨-, rfl⟩ := htick
    rw [reloadsUnseen, hsoon]
    exact ⟨henabled, w, hw, by simpa using htracks⟩
  | false =>
    have htracks := htracks.tick hw hsoon
    obtain ⟨scheduler, signal, lastTick, world, rfl⟩ := tick_eq henabled hsoon htick
    exact ⟨henabled, _, by rw [watcherAfter, hw]; rfl, htracks⟩

theorem Tended.keepsUp (h : Tended x d stamps calm) : x.KeepsUp d stamps calm := by
  induction h with
  | load x henabled hwatch hheld hstamps =>
    obtain ⟨world, hload⟩ := Runner.load_eq henabled hwatch _
    rw [hload] at hheld ⊢
    exact ⟨henabled, _, rfl, .start rfl hheld hstamps⟩
  | write _ hfresh ih =>
    obtain ⟨henabled, w, hw, h⟩ := ih
    exact ⟨henabled, w, hw, h.put hfresh⟩
  | erase _ ih =>
    obtain ⟨henabled, w, hw, h⟩ := ih
    exact ⟨henabled, w, hw, h.shrink fun e he => Directory.mem_scripts_erase he⟩
  | eraseAll _ ih =>
    obtain ⟨henabled, w, hw, h⟩ := ih
    exact ⟨henabled, w, hw, h.shrink nofun⟩
  | request _ ih => exact ih
  | close _ ih => exact ih
  | reload _ ih =>
    obtain ⟨henabled, w, hw, h⟩ := ih
    obtain ⟨trace, hreload⟩ := Runner.reload_eq henabled _
    rw [hreload]
    exact ⟨henabled, w, hw, h.reload⟩
  | tick _ htick ih => exact ih.tick htick
  | run _ hrun ih =>
    obtain ⟨scheduler, world, rfl⟩ := Runner.run_eq hrun
    exact ih
  | cancelLoop _ ih => exact ih

/-- After a look at the files those that compile are loaded as they are. All loaded units have files
if there was a request or a change, or else if the watcher knew files of all units that were loaded
before. It did, if scripts have been loaded again only with a look at the files. -/
theorem Tended.inStep_iff_of_look (h : Tended x d stamps calm) (hsoon : x.isTooSoon now = false)
    (hdue : x.isLookDue now = true) (htick : x.tick now d = some (events, y)) :
    y.library.UpToDate y.registry d ∧
    (y.library.InStep y.registry d ↔ x.signal.isRaised = true ∨ x.seesChanges now d = true ∨
      ∀ n, x.library.contains n = true → ∃ w ∈ x.watcher, w.Knows n) ∧
    (calm = true → y.library.InStep y.registry d) := by
  obtain ⟨henabled, w, hw, htracks⟩ := h.keepsUp
  obtain ⟨scheduler, signal, lastTick, world, rfl⟩ := Runner.tick_eq henabled hsoon htick
  simp only [Runner.isLookDue, hw, Option.any_some] at hdue
  simp only [Runner.libraryAfter, Runner.seesChanges, hw, Option.any_some, hdue, Bool.true_and,
    Option.mem_some_iff, exists_eq_left', ← or_assoc, ← Bool.or_eq_true]
  cases hreload : x.signal.isRaised || (w.known.changes (.take d)).any with
  | true =>
    have hin := htracks.inStep_refreshed
    exact ⟨hin.upToDate, by simp [hin], fun _ => hin⟩
  | false =>
    have hsame := (Bool.or_eq_false_iff.mp hreload).2
    have hiff := htracks.inStep_iff hsame
    exact ⟨htracks.upToDate hsame, by simpa using hiff,
      fun hcalm => hiff.mpr (htracks.covered hcalm)⟩

def noFiles : Directory := { path := "scripts", place := .missing }

def oneFile : Directory :=
  noFiles.put (Text.toBytes "a.txt") { content := .file (Text.toBytes "Log one"), modified := 5 }

theorem oneFile_compiled : ∃ found, oneFile.compiled? .builtins "a" = some found := by
  have hscripts : oneFile.scripts = oneFile.listed :=
    Directory.scripts_eq_listed (by decide +kernel)
  refine Option.isSome_iff_exists.mp ?_
  rw [Directory.compiled?, Directory.file?, hscripts]
  decide +kernel

def watchingRunner (world : World) : Runner :=
  { Runner.start .builtins .none 9 .standard (fun _ => 0) with
    watcher := some { interval := 1000, lastScan := none, known := [] }, world }

theorem watchingRunner_tended :
    ∃ world, Tended (watchingRunner world) oneFile [(Text.toBytes "a.txt", 5)] true := by
  obtain ⟨world, hload⟩ := Runner.load_eq
    (x := .start .builtins .none 9 .standard fun _ => 0) rfl rfl noFiles
  refine ⟨world, ?_⟩
  have h : Tended _ noFiles [] true :=
    .load (.start .builtins .none 9 .standard fun _ => 0) rfl rfl (by rw [hload]; nofun) nofun
  rw [hload] at h
  exact h.write (by simp)

theorem look_added : ∃ x events y, Tended x oneFile [(Text.toBytes "a.txt", 5)] true ∧
    x.isTooSoon 1000 = false ∧ x.isLookDue 1000 = true ∧
    x.tick 1000 oneFile = some (events, y) ∧ y.library.InStep y.registry oneFile ∧
    oneFile.Holds "a" := by
  obtain ⟨world, h⟩ := watchingRunner_tended
  obtain ⟨y, htick⟩ := Runner.tick_idle (x := watchingRunner world) 1000 oneFile rfl rfl rfl
  obtain ⟨found, hfound⟩ := oneFile_compiled
  exact ⟨_, [], y, h, rfl, rfl, htick, (h.inStep_iff_of_look rfl rfl htick).2.2 rfl,
    Directory.holds_of_compiled? hfound⟩

def emptied : Directory := oneFile.erase (Text.toBytes "a.txt")

theorem emptied_scripts : emptied.scripts = [] := by
  have hlisted : emptied.listed = [] := by decide +kernel
  rw [Directory.scripts_eq_listed (by rw [hlisted]; exact .nil), hlisted]

theorem emptied_unchanged (world : World) (l : Library) (trace : List Event) :
    ((watchingRunner world).stocked l trace).libraryAfter 1000 emptied = l := by
  have htake : Snapshot.take emptied = [] := by rw [Snapshot.take_eq, emptied_scripts]; rfl
  simp only [Runner.libraryAfter, Runner.seesChanges, htake]
  rfl

/-- The file is loaded by a reload and removed before the look, which keeps its unit. -/
theorem left_behind : ∃ x events y, Tended x emptied [(Text.toBytes "a.txt", 5)] false ∧
    x.isTooSoon 1000 = false ∧ x.isLookDue 1000 = true ∧ x.tick 1000 emptied = some (events, y) ∧
    y.library.contains "a" = true ∧ ¬ emptied.Holds "a" := by
  obtain ⟨world, h⟩ := watchingRunner_tended
  obtain ⟨found, hfound⟩ := oneFile_compiled
  obtain ⟨trace, hreload⟩ := Runner.reload_eq (x := watchingRunner world) rfl oneFile
  have h : Tended _ emptied _ false := h.reload.erase
  rw [hreload] at h
  obtain ⟨y, htick⟩ := Runner.tick_idle 1000 emptied (x := (watchingRunner world).stocked _ trace)
    rfl rfl rfl
  refine ⟨_, [], y, h, rfl, rfl, htick, ?_, by simp [Directory.holds_iff, emptied_scripts]⟩
  obtain ⟨scheduler, signal, lastTick, world', rfl⟩ := Runner.tick_eq rfl rfl htick
  rw [emptied_unchanged, Library.contains, Table.contains, Library.get?_refreshed]
  rw [show (watchingRunner world).registry = .builtins from rfl, hfound]
  rfl

end Playbook
