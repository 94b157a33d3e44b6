import Playbook.Proofs.HotReload

/-!
# The pace of ticks

Ticks and requests come in any order and at any times. When a tick has an effect, and whether it
loads the scripts again, follows from the ticks and requests before it alone: `Tempo` keeps the
times of those that had an effect and counts the requests since the last one. A runner is in step
with the tempo of its history (`Runner.Keeps`), and so a request is never lost on a tick without
effect and never met twice.

How often the scripts were loaded again is read off the trace (`World.reloads`).
-/

namespace Playbook

-- ---------------------------------------------------------------------------
-- Reloads in the trace
-- ---------------------------------------------------------------------------

def Event.tellsReload (d : Directory) : Event → Bool
  | .log entry => entry = .debug ("Reloading scripts from " ++ d.path)
  | _ => false

def World.reloads (w : World) (d : Directory) : Nat := w.trace.countP (Event.tellsReload d)

/-- Only the trace is another one, and it tells of `n` more reloads. -/
def World.Tells (d : Directory) (n : Nat) (w w' : World) : Prop :=
  (∃ trace, w' = { w with trace }) ∧ w'.reloads d = w.reloads d + n

namespace World.Tells

variable {d : Directory} {w w' w'' : World}

theorem refl (w : World) : Tells d 0 w w := ⟨⟨w.trace, rfl⟩, rfl⟩

theorem trans (h : Tells d m w w') (h' : Tells d n w' w'') : Tells d (m + n) w w'' := by
  obtain ⟨⟨trace, rfl⟩, hm⟩ := h
  obtain ⟨⟨trace', rfl⟩, hn⟩ := h'
  exact ⟨⟨trace', rfl⟩, by rw [hn, hm, Nat.add_assoc]⟩

theorem after (h : Tells d 0 w w') (h' : Tells d n w' w'') : Tells d n w w'' := by
  simpa using h.trans h'

theorem reload (w : World) : Tells d 1 w (w.log (.debug ("Reloading scripts from " ++ d.path))) :=
  ⟨⟨_, rfl⟩, List.countP_cons_of_pos (by simp [Event.tellsReload])⟩

theorem log {entry : LogEntry} (h : entry ≠ .debug ("Reloading scripts from " ++ d.path))
    (w : World) : Tells d 0 w (w.log entry) :=
  ⟨⟨_, rfl⟩, List.countP_cons_of_neg (by simpa [Event.tellsReload] using h)⟩

theorem logAll {entries : List LogEntry}
    (h : ∀ entry ∈ entries, entry ≠ .debug ("Reloading scripts from " ++ d.path)) (w : World) :
    Tells d 0 w (entries.foldl World.log w) := by
  induction entries generalizing w with
  | nil => exact refl w
  | cons entry entries ih =>
    exact (log (h entry (.head _)) w).after (ih (fun e he => h e (.tail _ he)) _)

theorem recordCalls (w : World) (calls : List ParseCall) : Tells d 0 w (w.recordCalls calls) := by
  refine ⟨⟨_, rfl⟩, ?_⟩
  have hcalls : (calls.reverse.map Event.parse).countP (Event.tellsReload d) = 0 := by
    rw [List.countP_eq_zero]
    simp [Event.tellsReload]
  rw [reloads, World.recordCalls, List.countP_append, hcalls, Nat.zero_add]
  rfl

end World.Tells

theorem debug_ne_reload {text : String} {d : Directory}
    (h : text.toList.take 4 ≠ ['R', 'e', 'l', 'o']) :
    LogEntry.debug text ≠ .debug ("Reloading scripts from " ++ d.path) := by
  intro heq
  have htext : text = "Reloading scripts from " ++ d.path := congrArg LogEntry.message heq
  refine h ?_
  rw [htext, String.toList_append]
  rfl

namespace World.Tells

variable {d : Directory}

theorem compile (w : World) (r : Registry) (unit source : String) :
    Tells d 0 w (w.compile r unit source).2 := by
  have hcalls := recordCalls (d := d) w (Playbook.compile r unit source).calls
  simp only [World.compile, perform]
  cases (Playbook.compile r unit source).result with
  | error e => exact hcalls
  | ok u =>
    refine hcalls.after (log (debug_ne_reload ?_) _)
    simp [String.toList_append]

theorem loadFile (w : World) (r : Registry) (name : FileName) :
    Tells d 0 w (d.loadFile r name w).2 := by
  unfold Directory.loadFile
  cases name.unit? with
  | none => exact refl w
  | some unit =>
    cases d.read name with
    | error fault => exact refl w
    | ok source =>
      have hcompile := compile (d := d) w r unit source
      dsimp only
      cases hresult : w.compile r unit source with
      | mk result w' =>
        rw [hresult] at hcompile
        cases result <;> exact hcompile

theorem loadEntry (w : World) (name : FileName) (result : Except LoadFault ScriptUnit) :
    Tells d 0 w (w.log (d.loadEntry name result)) := by
  cases result with
  | ok u =>
    refine log (debug_ne_reload ?_) w
    simp [String.toList_append]
  | error fault => exact log (by simp [Directory.loadEntry, LogEntry.warn, LogEntry.debug]) w

theorem loadFiles (w : World) (r : Registry) (names : List FileName) :
    Tells d 0 w (d.loadFiles r names w).2 := by
  induction names generalizing w with
  | nil => exact refl w
  | cons name names ih =>
    have hall := ((loadFile w r name).after (loadEntry _ name (d.loadFile r name w).1)).after (ih _)
    unfold Directory.loadFiles
    dsimp only
    split <;> exact hall

theorem load (w : World) (r : Registry) : Tells d 0 w (d.load r w).2 := by
  unfold Directory.load
  cases d.folder with
  | ok f => exact loadFiles w r _
  | error fault =>
    cases fault <;> exact log (by simp [LogEntry.warn, LogEntry.info, LogEntry.debug]) w

theorem insertAll (x : Runner) (us : List ScriptUnit) :
    Tells d 0 x.world (x.insertAll us).world := by
  induction us generalizing x with
  | nil => exact refl _
  | cons u us ih =>
    refine (log (debug_ne_reload ?_) x.world).after (ih (x.insert u))
    simp [String.toList_append]

theorem logEntries {x : Runner} {entries : List LogEntry}
    (h : ∀ entry ∈ entries, entry ≠ .debug ("Reloading scripts from " ++ d.path)) :
    Tells d 0 x.world (entries.foldl Runner.log x).world := by
  have hworld : (entries.foldl Runner.log x).world = entries.foldl World.log x.world := by
    induction entries generalizing x with
    | nil => rfl
    | cons entry entries ih => exact ih fun e he => h e (.tail _ he)
  rw [hworld]
  exact logAll h x.world

theorem reloading {x : Runner} (h : x.settings.enabled = true) :
    Tells d 1 x.world (x.reload d).2.world := by
  have hkept (l : Library) (report : LoadReport) : ∀ entry ∈ Runner.keptEntries l report,
      entry ≠ .debug ("Reloading scripts from " ++ d.path) := by
    simp only [Runner.keptEntries, List.mem_map]
    rintro _ ⟨f, -, rfl⟩
    simp [LogEntry.warn, LogEntry.debug]
  have hentry (old new : Nat) :
      Runner.reloadEntry old new ≠ .debug ("Reloading scripts from " ++ d.path) := by
    unfold Runner.reloadEntry
    split <;> simp [LogEntry.warn, LogEntry.info, LogEntry.debug]
  have hrest {w : World} (y : Runner) (us : List ScriptUnit) (l : Library) (report : LoadReport)
      (old new : Nat) (hw : y.world = w) : Tells d 0 w (((Runner.keptEntries l report).foldl
        Runner.log (y.insertAll us)).log (Runner.reloadEntry old new)).world :=
    hw ▸ ((insertAll y us).after (logEntries (hkept l report))).after (log (hentry old new) _)
  rw [Runner.reload, if_pos h]
  refine trans (m := 1) (n := 0) (reload x.world) ((load _ x.registry).after ?_)
  exact hrest _ _ _ _ _ _ rfl

theorem scan (w : World) (watcher : Watcher) (now : Nat) :
    Tells d 0 w (watcher.scan now d w).2.2 := by
  refine logAll ?_ w
  intro entry hentry
  rcases List.mem_append.mp hentry with hentry | hentry
  · cases hfolder : d.folder with
    | ok f => simp [Snapshot.entry?, hfolder] at hentry
    | error fault =>
      simp only [Snapshot.entry?, hfolder, Option.toList_some, List.mem_singleton] at hentry
      subst hentry
      refine debug_ne_reload ?_
      simp [String.toList_append]
  · have hscript (verb : String) (name : FileName) :
        LogEntry.debug ("Script " ++ verb ++ ": " ++ d.pathOf name) ≠
          .debug ("Reloading scripts from " ++ d.path) := by
      refine debug_ne_reload ?_
      simp [String.toList_append]
    simp only [Changes.entries, List.mem_append, List.mem_filterMap, List.mem_map] at hentry
    rcases hentry with ⟨e, -, he⟩ | ⟨name, -, rfl⟩
    · split at he
      · cases he
        exact hscript _ _
      · split at he
        · cases he
          exact hscript _ _
        · cases he
    · exact hscript _ _

end World.Tells

-- ---------------------------------------------------------------------------
-- Ticks with an effect
-- ---------------------------------------------------------------------------

namespace Runner

variable {x : Runner} {d : Directory}

theorem pollSignal_noticed (d : Directory) (h : x.signal.closed = false) :
    ∃ world, World.Tells d 0 x.world world ∧
      x.pollSignal = (x.signal.isRaised, { x with signal := x.signal.notice, world }) := by
  unfold pollSignal
  cases hraised : x.signal.isRaised with
  | true => exact ⟨_, .log (by simp [LogEntry.info, LogEntry.debug]) x.world, rfl⟩
  | false =>
    have hseen : x.signal.notice = x.signal := by
      simp only [Signal.isRaised, h, Bool.not_false, Bool.true_and, bne_eq_false_iff_eq] at hraised
      exact congrArg (fun seen => { x.signal with seen }) hraised
    exact ⟨x.world, .refl _, by rw [hseen]; rfl⟩

theorem pollFiles_tells (x : Runner) (now : Nat) (d : Directory) :
    World.Tells d 0 x.world (x.pollFiles now d).2.world := by
  unfold pollFiles
  cases x.watcher with
  | none => exact .refl _
  | some watcher =>
    have hscan := World.Tells.scan (d := d) x.world watcher now
    dsimp only
    split
    · split
      · exact hscan.after (.log (by simp [LogEntry.info, LogEntry.debug]) _)
      · exact hscan
    · exact .refl _

theorem refresh_told (henabled : x.settings.enabled = true) (hopen : x.signal.closed = false)
    (now : Nat) (d : Directory) :
    ∃ world, World.Tells d (if x.signal.isRaised || x.seesChanges now d then 1 else 0) x.world
        world ∧
      x.refresh now d =
        { x with
          library := x.libraryAfter now d, watcher := x.watcherAfter now d
          signal := x.signal.notice, world } := by
  obtain ⟨world, hrequests, hsignal⟩ := x.pollSignal_noticed d hopen
  obtain ⟨world', hfiles⟩ := pollFiles_eq { x with signal := x.signal.notice, world } now d
  have hlook := pollFiles_tells { x with signal := x.signal.notice, world } now d
  rw [hfiles] at hlook
  have hpolled := hrequests.after hlook
  have hrefresh : x.refresh now d =
      if x.signal.isRaised || x.seesChanges now d then
        (Runner.reload { x with
          watcher := x.watcherAfter now d, signal := x.signal.notice, world := world' } d).2
      else { x with
        watcher := x.watcherAfter now d, signal := x.signal.notice, world := world' } := by
    rw [refresh, hsignal]
    dsimp only
    rw [hfiles]
    rfl
  rw [hrefresh, libraryAfter]
  split
  · obtain ⟨trace, hreload⟩ := reload_eq (x := { x with
      watcher := x.watcherAfter now d, signal := x.signal.notice, world := world' }) henabled d
    have htold := World.Tells.reloading (d := d) (x := { x with
      watcher := x.watcherAfter now d, signal := x.signal.notice, world := world' }) henabled
    rw [hreload] at htold ⊢
    exact ⟨_, hpolled.after htold, rfl⟩
  · exact ⟨world', hpolled, rfl⟩

end Runner

-- ---------------------------------------------------------------------------
-- Histories and their tempo
-- ---------------------------------------------------------------------------

inductive Runner.Act where
  | request
  | tick (now : Nat) (d : Directory)
  | load (d : Directory)
  | reload (d : Directory)
  | insert (name source : String)
  | run (name : String) (actor : Option ActorId) (now : Nat)
  | cancelLoop (id : LoopId)

namespace Runner

def Act.carryOut (x : Runner) : Act → Option Runner
  | .request => some { x with signal := x.signal.raise }
  | .tick now d => (x.tick now d).map Prod.snd
  | .load d => some (x.load d).2
  | .reload d => some (x.reload d).2
  | .insert name source => some (x.insertSource name source).2
  | .run name actor now => (x.run name actor now).map Prod.snd
  | .cancelLoop id => some (x.cancelLoop id).2

def after (x : Runner) (acts : List Act) : Option Runner := acts.foldlM Act.carryOut x

end Runner

/-- The times of the ticks that had an effect, latest first, and the number of requests since the
latest. -/
structure Tempo where
  times : List Nat
  waiting : Nat
  deriving DecidableEq

namespace Tempo

def initial : Tempo := { times := [], waiting := 0 }

/-- There was a tick with an effect, and it is less than the interval ago or still to come. -/
def Skips (interval : Nat) (t : Tempo) (now : Nat) : Prop :=
  ∃ last ∈ t.times.head?, now < last + interval

instance (interval : Nat) (t : Tempo) (now : Nat) : Decidable (t.Skips interval now) :=
  inferInstanceAs (Decidable (∃ last ∈ t.times.head?, now < last + interval))

def next (interval : Nat) (t : Tempo) : Runner.Act → Tempo
  | .request => { t with waiting := t.waiting + 1 }
  | .tick now _ => if t.Skips interval now then t else { times := now :: t.times, waiting := 0 }
  | _ => t

def after (interval : Nat) (acts : List Runner.Act) : Tempo := acts.foldl (next interval) initial

def Spaced (interval : Nat) (t : Tempo) : Prop :=
  t.times.Pairwise fun later earlier => earlier + interval ≤ later

variable {interval : Nat}

theorem Spaced.next {t : Tempo} (h : t.Spaced interval) (a : Runner.Act) :
    (t.next interval a).Spaced interval := by
  cases a with
  | tick now d =>
    unfold Tempo.next
    dsimp only
    split
    · exact h
    · rename_i hdue
      refine .cons (fun earlier hearlier => ?_) h
      obtain ⟨times, waiting⟩ := t
      cases times with
      | nil => cases hearlier
      | cons last times =>
        have hlast : last + interval ≤ now := by simpa [Skips] using hdue
        rcases List.mem_cons.mp hearlier with rfl | hmem
        · exact hlast
        · have hbefore := List.rel_of_pairwise_cons h hmem
          omega
  | _ => exact h

theorem spaced_after (interval : Nat) (acts : List Runner.Act) :
    (after interval acts).Spaced interval :=
  List.foldlRecOn acts (Tempo.next interval) .nil fun _ ht a _ => ht.next a

end Tempo

namespace Runner

structure Aside (x y : Runner) : Prop where
  settings : y.settings = x.settings
  signal : y.signal = x.signal
  lastTick : y.lastTick = x.lastTick

namespace Aside

theorem trans {x y z : Runner} (h : x.Aside y) (h' : y.Aside z) : x.Aside z :=
  ⟨h'.settings.trans h.settings, h'.signal.trans h.signal, h'.lastTick.trans h.lastTick⟩

theorem insertAll (x : Runner) (us : List ScriptUnit) : x.Aside (x.insertAll us) := by
  obtain ⟨trace, hinsert⟩ := insertAll_eq x us
  rw [hinsert]
  exact ⟨rfl, rfl, rfl⟩

theorem watch (x : Runner) (d : Directory) : x.Aside (x.watch d) := by
  unfold Runner.watch
  split <;> exact ⟨rfl, rfl, rfl⟩

theorem load (x : Runner) (d : Directory) : x.Aside (x.load d).2 := by
  unfold Runner.load
  split
  · have hloaded (y : Runner) (us : List ScriptUnit) (h : x.Aside y) :
        x.Aside ((y.insertAll us).watch d) := (h.trans (insertAll y us)).trans (watch _ d)
    have hlogged {y : Runner} (entry : LogEntry) (h : x.Aside y) : x.Aside (y.log entry) :=
      h.trans ⟨rfl, rfl, rfl⟩
    dsimp only
    split
    · exact hloaded _ _ ⟨rfl, rfl, rfl⟩
    · exact hlogged _ (hloaded _ _ ⟨rfl, rfl, rfl⟩)
  · exact ⟨rfl, rfl, rfl⟩

theorem insertSource (x : Runner) (name source : String) :
    x.Aside (x.insertSource name source).2 := by
  unfold Runner.insertSource
  split <;> exact ⟨rfl, rfl, rfl⟩

end Aside

structure Keeps (interval : Nat) (t : Tempo) (x : Runner) : Prop where
  enabled : x.settings.enabled = true
  interval : x.settings.tickInterval = interval
  last : x.lastTick = t.times.head?
  unclosed : x.signal.closed = false
  waiting : x.signal.generation = x.signal.seen + t.waiting

namespace Keeps

variable {interval : Nat} {t : Tempo} {x : Runner}

theorem isTooSoon (h : x.Keeps interval t) (hpos : 0 < interval) (now : Nat) :
    x.isTooSoon now = true ↔ t.Skips interval now := by
  unfold Runner.isTooSoon Tempo.Skips
  rw [h.last, h.interval]
  cases t.times.head? with
  | none => simp
  | some last =>
    simp only [decide_eq_true_eq, Option.mem_some_iff, exists_eq_left']
    omega

theorem isRaised (h : x.Keeps interval t) : x.signal.isRaised = decide (0 < t.waiting) := by
  rw [Bool.eq_iff_iff, decide_eq_true_iff, Signal.isRaised, h.unclosed, Bool.not_false,
    Bool.true_and, bne_iff_ne, h.waiting]
  omega

theorem aside (h : x.Keeps interval t) (hy : x.Aside y) : y.Keeps interval t :=
  ⟨hy.settings ▸ h.enabled, hy.settings ▸ h.interval, hy.lastTick ▸ h.last,
    hy.signal ▸ h.unclosed, hy.signal ▸ h.waiting⟩

theorem tick_skipped (h : x.Keeps interval t) (hpos : 0 < interval)
    (hskips : t.Skips interval now) : x.tick now d = some ([], x) := by
  rw [Runner.tick, if_pos ((h.isTooSoon hpos now).mpr hskips)]

theorem tick_effective (h : x.Keeps interval t) (hpos : 0 < interval)
    (hdue : ¬ t.Skips interval now) (d : Directory) :
    ∃ world, World.Tells d (if 0 < t.waiting ∨ x.seesChanges now d = true then 1 else 0) x.world
        world ∧
      x.tick now d = advance { x with
        library := if 0 < t.waiting ∨ x.seesChanges now d = true then
            x.library.refreshed (.of x.registry d.scripts)
          else x.library
        watcher := x.watcherAfter now d, signal := x.signal.notice, lastTick := some now
        world } now := by
  obtain ⟨world, htells, hrefresh⟩ : ∃ world,
      World.Tells d (if x.signal.isRaised || x.seesChanges now d then 1 else 0) x.world world ∧
      refresh { x with lastTick := some now } now d = { x with
        library := x.libraryAfter now d, watcher := x.watcherAfter now d
        signal := x.signal.notice, lastTick := some now, world } :=
    refresh_told (x := { x with lastTick := some now }) h.enabled h.unclosed now d
  have hreloads : (x.signal.isRaised || x.seesChanges now d) = true ↔
      0 < t.waiting ∨ x.seesChanges now d = true := by
    rw [h.isRaised, Bool.or_eq_true, decide_eq_true_iff]
  refine ⟨world, ?_, ?_⟩
  · simpa only [hreloads] using htells
  · rw [Runner.tick, if_neg (mt (h.isTooSoon hpos now).mp hdue), hrefresh]
    simp only [libraryAfter, hreloads]

theorem tick (h : x.Keeps interval t) (hpos : 0 < interval)
    (htick : x.tick now d = some (events, y)) :
    y.Keeps interval (t.next interval (.tick now d)) := by
  unfold Tempo.next
  dsimp only
  split
  · rename_i hskips
    rw [h.tick_skipped hpos hskips] at htick
    cases htick
    exact h
  · rename_i hdue
    obtain ⟨world, -, heq⟩ := h.tick_effective hpos hdue d
    rw [heq] at htick
    unfold advance at htick
    split at htick
    · cases htick
    · cases htick
      exact ⟨h.enabled, h.interval, rfl, h.unclosed, rfl⟩

theorem request (h : x.Keeps interval t) :
    Keeps interval (t.next interval .request) { x with signal := x.signal.raise } := by
  have hraise : x.signal.raise = { x.signal with generation := x.signal.generation + 1 } := by
    rw [Signal.raise, if_neg (by rw [h.unclosed]; decide)]
  refine ⟨h.enabled, h.interval, h.last, ?_, ?_⟩
  · rw [hraise]
    exact h.unclosed
  · rw [hraise]
    simp only [Tempo.next, h.waiting, Nat.add_assoc]

end Keeps

theorem Keeps.carryOut {interval : Nat} {t : Tempo} {x : Runner} {a : Act}
    (h : x.Keeps interval t) (hpos : 0 < interval) (hact : a.carryOut x = some y) :
    y.Keeps interval (t.next interval a) := by
  cases a with
  | request =>
    cases hact
    exact h.request
  | tick now d =>
    obtain ⟨⟨events, z⟩, htick, rfl⟩ := Option.map_eq_some_iff.mp hact
    exact h.tick hpos htick
  | load d =>
    cases hact
    exact h.aside (.load x d)
  | reload d =>
    cases hact
    obtain ⟨trace, hreload⟩ := reload_eq h.enabled d
    rw [hreload]
    exact h.aside ⟨rfl, rfl, rfl⟩
  | insert name source =>
    cases hact
    exact h.aside (.insertSource x name source)
  | run name actor now =>
    obtain ⟨⟨result, z⟩, hrun, rfl⟩ := Option.map_eq_some_iff.mp hact
    obtain ⟨scheduler, world, rfl⟩ := run_eq hrun
    exact h.aside ⟨rfl, rfl, rfl⟩
  | cancelLoop id =>
    cases hact
    exact h.aside ⟨rfl, rfl, rfl⟩

theorem Keeps.after {interval : Nat} {t : Tempo} {x : Runner} (h : x.Keeps interval t)
    (hpos : 0 < interval) (hacts : x.after acts = some y) :
    y.Keeps interval (acts.foldl (Tempo.next interval) t) := by
  induction acts generalizing x t with
  | nil =>
    cases hacts
    exact h
  | cons a acts ih =>
    obtain ⟨z, hz, hrest⟩ := Option.bind_eq_some_iff.mp hacts
    exact ih (h.carryOut hpos hz) hrest

end Runner

structure Runner.Paced (interval : Nat) (t : Tempo) (x : Runner) : Prop where
  spaced : t.times.Pairwise fun later earlier => earlier + interval ≤ later
  skipped : ∀ now d, t.Skips interval now ↔ x.tick now d = some ([], x)
  /-- Before the loops are advanced the scripts are loaded again, once, if there was a request since
  the last tick that had an effect or if a look at the files was due and found changes. -/
  effective : ∀ now d, ¬ t.Skips interval now →
    ∃ world, World.Tells d (if 0 < t.waiting ∨ x.seesChanges now d = true then 1 else 0) x.world
        world ∧
      x.tick now d = advance { x with
        library := if 0 < t.waiting ∨ x.seesChanges now d = true then
            x.library.refreshed (.of x.registry d.scripts)
          else x.library
        watcher := x.watcherAfter now d, signal := x.signal.notice, lastTick := some now
        world } now

/-- Ticks are paced by the ticks and requests before them, whatever else happens to the runner. -/
theorem Runner.ticks_paced {x y : Runner} {acts : List Act}
    (henabled : x.settings.enabled = true) (hinterval : 0 < x.settings.tickInterval)
    (hnew : x.lastTick = none) (hopen : x.signal.closed = false)
    (hquiet : x.signal.isRaised = false) (hacts : x.after acts = some y) :
    y.Paced x.settings.tickInterval (.after x.settings.tickInterval acts) := by
  have hseen : x.signal.generation = x.signal.seen := by
    simpa [Signal.isRaised, hopen] using hquiet
  have hstart : x.Keeps x.settings.tickInterval .initial := ⟨henabled, rfl, hnew, hopen, hseen⟩
  have hkeeps : y.Keeps x.settings.tickInterval (.after x.settings.tickInterval acts) :=
    hstart.after hinterval hacts
  refine ⟨Tempo.spaced_after _ acts, fun now d => ⟨hkeeps.tick_skipped hinterval, ?_⟩,
    fun now d hdue => hkeeps.tick_effective hinterval hdue d⟩
  -- a tick with an effect moves the time of the last one
  intro htick
  by_contra hdue
  have hlast := (hkeeps.tick hinterval htick).last
  rw [Tempo.next, if_neg hdue, hkeeps.last] at hlast
  refine hdue ⟨now, hlast, ?_⟩
  omega

/-- Two requests wait over a tick that comes too soon. -/
theorem Runner.ticks_paced_waiting :
    let x : Runner := .start .builtins .none 9 .standard fun _ => 0
    let acts : List Act :=
      [.request, .tick 100 noFiles, .request, .tick 120 noFiles, .request, .tick 90 noFiles]
    (x.settings.enabled = true ∧ 0 < x.settings.tickInterval ∧ x.lastTick = none ∧
      x.signal.closed = false ∧ x.signal.isRaised = false) ∧
    Tempo.after 50 acts = { times := [100], waiting := 2 } ∧
    ∃ y, x.after acts = some y ∧ y.Paced 50 (.after 50 acts) := by
  intro x acts
  have hacts : (x.after acts).isSome := by decide +kernel
  obtain ⟨y, hy⟩ := Option.isSome_iff_exists.mp hacts
  refine ⟨⟨rfl, by decide, rfl, rfl, rfl⟩, by decide, y, hy, ?_⟩
  exact ticks_paced (x := x) rfl (by decide) rfl rfl rfl hy

end Playbook
