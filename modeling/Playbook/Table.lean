/-! Finite maps from names, as association lists in which the first entry of a name counts. -/

namespace Playbook

structure Table (α : Type) where
  entries : List (String × α)

namespace Table

variable {α : Type}

def empty : Table α := { entries := [] }

def get? (t : Table α) (name : String) : Option α := t.entries.lookup name

def contains (t : Table α) (name : String) : Bool := (t.get? name).isSome

def erase (t : Table α) (name : String) : Table α :=
  { entries := t.entries.filter fun e => e.1 != name }

def set (t : Table α) (name : String) (a : α) : Table α :=
  { entries := (name, a) :: (t.erase name).entries }

/-- All entries of `upper`, and those of `t` under other names. -/
def overlay (t upper : Table α) : Table α :=
  { entries := upper.entries ++ t.entries.filter fun e => !upper.contains e.1 }

def sorted (t : Table α) : List (String × α) :=
  t.entries.mergeSort fun a b => decide (a.1 ≤ b.1)

@[simp] theorem get?_empty (name : String) : (empty : Table α).get? name = none := rfl

theorem lookup_filter_ne (entries : List (String × α)) (name other : String) :
    (entries.filter fun e => e.1 != name).lookup other =
      if other = name then none else entries.lookup other := by
  induction entries with
  | nil => simp
  | cons e es ih => grind

theorem get?_erase (t : Table α) (name other : String) :
    (t.erase name).get? other = if other = name then none else t.get? other :=
  lookup_filter_ne t.entries name other

theorem get?_set (t : Table α) (name other : String) (a : α) :
    (t.set name a).get? other = if other = name then some a else t.get? other := by
  have h := get?_erase t name other
  simp only [get?, set, List.lookup_cons] at h ⊢
  grind

theorem lookup_filter_of_keep (entries : List (String × α)) (keep : String → Bool) (name : String)
    (h : keep name = true) :
    (entries.filter fun e => keep e.1).lookup name = entries.lookup name := by
  induction entries with
  | nil => rfl
  | cons e es ih => grind

theorem get?_overlay (t upper : Table α) (name : String) :
    (t.overlay upper).get? name = (upper.get? name).or (t.get? name) := by
  simp only [get?, overlay, List.lookup_append]
  cases h : upper.entries.lookup name with
  | some a => rfl
  | none =>
    simp only [Option.none_or]
    exact lookup_filter_of_keep t.entries (fun n => !upper.contains n) name
      (by simp [contains, get?, h])

end Table

end Playbook
