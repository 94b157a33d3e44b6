import Mathlib.Data.Finset.Card
import Mathlib.Data.Finset.Dedup
import Mathlib.Data.Finset.Lattice.Basic
import Mathlib.Data.Finset.SDiff
import Playbook.Proofs.HotReload

/-!
# What a watcher tells

A snapshot says of every name when the script file of that name was modified
(`Snapshot.lookup_take`), so that the differences between two of them are differences between two
states of a directory (`Changes.Tells`). A watcher remembers the snapshot of its last look, and each
look tells what has happened since the one before. What it tells can be replayed: beginning with the
files that were there at first, it leads to the files that are there in the end (`Watcher.Exact`).
-/

namespace Playbook

-- ---------------------------------------------------------------------------
-- States of a directory
-- ---------------------------------------------------------------------------

namespace Directory

/-- The modification time of a script file. A directory that cannot be read has no files. -/
def modified? (d : Directory) (name : FileName) : Option Nat :=
  match d.folder with
  | .ok f => if name.isScript then (f.get? name).map Entry.modified else none
  | .error _ => none

def files (d : Directory) : Finset FileName := (d.listed.map Prod.fst).toFinset

theorem modified?_eq_some {d : Directory} :
    d.modified? name = some t ↔ ∃ e, (name, e) ∈ d.scripts ∧ e.modified = t := by
  simp only [mem_scripts, modified?]
  cases d.folder with
  | error fault => simp
  | ok f => by_cases hname : name.isScript = true <;> simp [hname]

theorem mem_files {d : Directory} : name ∈ d.files ↔ (d.modified? name).isSome := by
  simp only [Option.isSome_iff_exists, modified?_eq_some, files, List.mem_toFinset, List.mem_map]
  have hlisted {p} : p ∈ d.listed ↔ p ∈ d.scripts := by
    unfold listed scripts
    cases d.folder <;> simp [Folder.scripts]
  constructor
  · rintro ⟨⟨_, e⟩, he, rfl⟩
    exact ⟨e.modified, e, hlisted.mp he, rfl⟩
  · rintro ⟨t, e, he, -⟩
    exact ⟨(name, e), hlisted.mpr he, rfl⟩

end Directory

-- ---------------------------------------------------------------------------
-- Snapshots
-- ---------------------------------------------------------------------------

namespace Snapshot

def Sorted (s : Snapshot) : Prop := (s.map Prod.fst).Pairwise (· < ·)

theorem sorted_take (d : Directory) : (take d).Sorted := by
  rw [Sorted, take_eq, List.map_map]
  exact List.pairwise_map.mpr d.scripts_sorted

theorem Sorted.nodup {s : Snapshot} (h : s.Sorted) : (s.map Prod.fst).Nodup := by
  refine List.Pairwise.imp ?_ h
  rintro name _ hlt rfl
  exact List.lt_irrefl _ hlt

theorem Sorted.lookup_eq_some {s : Snapshot} (h : s.Sorted) :
    s.lookup name = some t ↔ (name, t) ∈ s :=
  ⟨mem_of_lookup, lookup_of_mem h.nodup⟩

theorem lookup_take (d : Directory) (name : FileName) :
    (take d).lookup name = d.modified? name := by
  ext t
  rw [(sorted_take d).lookup_eq_some, Directory.modified?_eq_some, take_eq, List.mem_map]
  constructor
  · rintro ⟨⟨_, e⟩, he, heq⟩
    cases heq
    exact ⟨e, he, rfl⟩
  · rintro ⟨e, he, rfl⟩
    exact ⟨(name, e), he, rfl⟩

theorem Sorted.select {s : Snapshot} (h : s.Sorted) (other : Snapshot)
    (test : Nat → Option Nat → Bool) : (s.select other test).Pairwise (· < ·) :=
  h.sublist (List.filter_sublist.map Prod.fst)

theorem Sorted.changes {old new : Snapshot} (hold : old.Sorted) (hnew : new.Sorted) :
    (old.changes new).changed.Pairwise (· < ·) ∧ (old.changes new).added.Pairwise (· < ·) ∧
      (old.changes new).removed.Pairwise (· < ·) := by
  simp only [Snapshot.changes]
  exact ⟨hnew.select _ _, hnew.select _ _, hold.select _ _⟩

theorem mem_select {s other : Snapshot} (h : s.Sorted) {test : Nat → Option Nat → Bool} :
    name ∈ s.select other test ↔
      ∃ t, s.lookup name = some t ∧ test t (other.lookup name) = true := by
  simp only [Snapshot.select, List.mem_map, List.mem_filter, h.lookup_eq_some]
  constructor
  · rintro ⟨⟨_, t⟩, ⟨hmem, htest⟩, rfl⟩
    exact ⟨t, hmem, htest⟩
  · rintro ⟨t, hmem, htest⟩
    exact ⟨(name, t), ⟨hmem, htest⟩, rfl⟩

end Snapshot

-- ---------------------------------------------------------------------------
-- The differences between two states
-- ---------------------------------------------------------------------------

namespace Changes

/-- Every difference between two states of a directory is told once and in order, and no other. -/
structure Tells (c : Changes) (old new : Directory) : Prop where
  changed_sorted : c.changed.Pairwise (· < ·)
  added_sorted : c.added.Pairwise (· < ·)
  removed_sorted : c.removed.Pairwise (· < ·)
  changed_added : c.changed.Disjoint c.added
  changed_removed : c.changed.Disjoint c.removed
  added_removed : c.added.Disjoint c.removed
  mem_changed : ∀ name, name ∈ c.changed ↔
    ∃ before now, old.modified? name = some before ∧ new.modified? name = some now ∧ before ≠ now
  mem_added : ∀ name, name ∈ c.added ↔ old.modified? name = none ∧ (new.modified? name).isSome
  mem_removed : ∀ name, name ∈ c.removed ↔ (old.modified? name).isSome ∧ new.modified? name = none
  any : c.any = false ↔ ∀ name, old.modified? name = new.modified? name

def apply (c : Changes) (files : Finset FileName) : Finset FileName :=
  (files \ c.removed.toFinset) ∪ c.added.toFinset

theorem any_eq_false {c : Changes} : c.any = false ↔
    ∀ name, name ∉ c.changed ∧ name ∉ c.added ∧ name ∉ c.removed := by
  simp [any, List.eq_nil_iff_forall_not_mem, forall_and, and_assoc]

theorem tells_changes (old new : Directory) :
    ((Snapshot.take old).changes (Snapshot.take new)).Tells old new := by
  have hold := Snapshot.sorted_take old
  have hnew := Snapshot.sorted_take new
  have hchanged : ∀ name, name ∈ ((Snapshot.take old).changes (Snapshot.take new)).changed ↔
      ∃ before now, old.modified? name = some before ∧ new.modified? name = some now ∧
        before ≠ now := fun name => by
    simp only [Snapshot.changes, Snapshot.mem_select hnew, Snapshot.lookup_take]
    cases old.modified? name <;> cases new.modified? name <;> simp
  have hadded : ∀ name, name ∈ ((Snapshot.take old).changes (Snapshot.take new)).added ↔
      old.modified? name = none ∧ (new.modified? name).isSome := fun name => by
    simp only [Snapshot.changes, Snapshot.mem_select hnew, Snapshot.lookup_take]
    cases old.modified? name <;> cases new.modified? name <;> simp
  have hremoved : ∀ name, name ∈ ((Snapshot.take old).changes (Snapshot.take new)).removed ↔
      (old.modified? name).isSome ∧ new.modified? name = none := fun name => by
    simp only [Snapshot.changes, Snapshot.mem_select hold, Snapshot.lookup_take]
    cases old.modified? name <;> cases new.modified? name <;> simp
  exact
    { changed_sorted := (hold.changes hnew).1
      added_sorted := (hold.changes hnew).2.1
      removed_sorted := (hold.changes hnew).2.2
      changed_added := fun name hc ha => by
        obtain ⟨_, _, hbefore, -, -⟩ := (hchanged name).mp hc
        simp [((hadded name).mp ha).1] at hbefore
      changed_removed := fun name hc hr => by
        obtain ⟨_, _, -, hnow, -⟩ := (hchanged name).mp hc
        simp [((hremoved name).mp hr).2] at hnow
      added_removed := fun name ha hr => by
        simpa [((hadded name).mp ha).1] using ((hremoved name).mp hr).1
      mem_changed := hchanged
      mem_added := hadded
      mem_removed := hremoved
      any := by
        rw [any_eq_false]
        refine forall_congr' fun name => ?_
        rw [hchanged, hadded, hremoved]
        cases old.modified? name <;> cases new.modified? name <;> simp }

theorem Tells.apply_files {c : Changes} (h : c.Tells old new) : c.apply old.files = new.files := by
  ext name
  simp only [apply, Finset.mem_union, Finset.mem_sdiff, List.mem_toFinset, Directory.mem_files,
    h.mem_added, h.mem_removed]
  cases old.modified? name <;> cases new.modified? name <;> simp

end Changes

-- ---------------------------------------------------------------------------
-- One look after the other
-- ---------------------------------------------------------------------------

namespace Watcher

def scanEach (x : Watcher) (w : World) : List (Nat × Directory) → List Changes × Watcher × World
  | [] => ([], x, w)
  | (now, d) :: looks =>
    let first := x.scan now d w
    let rest := first.2.1.scanEach first.2.2 looks
    (first.1 :: rest.1, rest.2)

def replay (files : Finset FileName) (told : List Changes) : Finset FileName :=
  told.foldl (fun files c => c.apply files) files

structure Exact (d : Directory) (looks : List (Nat × Directory)) (told : List Changes)
    (x : Watcher) : Prop where
  length : told.length = looks.length
  /-- Each look tells what happened since the look before it. -/
  tells : ∀ k c old new, told[k]? = some c → (d :: looks.map Prod.snd)[k]? = some old →
    (d :: looks.map Prod.snd)[k + 1]? = some new → c.Tells old new
  replayed : replay d.files told = ((looks.map Prod.snd).getLastD d).files
  tracked : x.tracked = ((looks.map Prod.snd).getLastD d).files.card

theorem tracked_eq {x : Watcher} (h : x.known = .take d) : x.tracked = d.files.card := by
  have hfiles : d.files = ((Snapshot.take d).map Prod.fst).toFinset := by
    ext name
    rw [Directory.mem_files, ← Snapshot.lookup_take, List.mem_toFinset, List.mem_map,
      Option.isSome_iff_exists]
    simp [(Snapshot.sorted_take d).lookup_eq_some]
  rw [tracked, h, hfiles, List.toFinset_card_of_nodup (Snapshot.sorted_take d).nodup,
    List.length_map]

theorem scanEach_exact {x : Watcher} (h : x.known = .take d) (w : World)
    (looks : List (Nat × Directory)) :
    Exact d looks (x.scanEach w looks).1 (x.scanEach w looks).2.1 := by
  induction looks generalizing x d w with
  | nil => exact ⟨rfl, by simp [scanEach], rfl, tracked_eq h⟩
  | cons look looks ih =>
    obtain ⟨now, new⟩ := look
    have hfirst : (x.scan now new w).1.Tells d new := by
      have htells := Changes.tells_changes d new
      rw [← h] at htells
      exact htells
    have hrest := ih (x := (x.scan now new w).2.1) (d := new) rfl (x.scan now new w).2.2
    refine ⟨congrArg (· + 1) hrest.length, ?_, ?_, ?_⟩
    · intro k c old next hc hold hnext
      cases k with
      | zero =>
        cases hc
        cases hold
        cases hnext
        exact hfirst
      | succ k => exact hrest.tells k c old next hc hold hnext
    · have hreplayed := hrest.replayed
      rw [← hfirst.apply_files] at hreplayed
      rw [List.map_cons, List.getLastD_cons]
      exact hreplayed
    · rw [List.map_cons, List.getLastD_cons]
      exact hrest.tracked

/-- Whatever states a directory goes through, the looks of a watcher that was made in the first of
them tell every difference between one state and the next. -/
theorem scans_exact (interval : Nat) (d : Directory) (w : World) (looks : List (Nat × Directory)) :
    Exact d looks ((start interval d w).1.scanEach (start interval d w).2 looks).1
      ((start interval d w).1.scanEach (start interval d w).2 looks).2.1 :=
  scanEach_exact rfl _ looks

end Watcher

end Playbook
