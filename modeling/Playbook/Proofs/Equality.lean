import Playbook.Proofs.Doubles

/-!
# Equality of values

`Value.Alike` are the rules of `Value.same`. Equality is symmetric. It is not transitive, because
two integers are compared as integers, but each of them with a float as a float: two large integers
that are rounded to the same float are equal to it and not to each other. This is the only way
(`Value.Bridged`), whatever lists the values stand in.
-/

namespace Playbook.Value

-- ---------------------------------------------------------------------------
-- The rules
-- ---------------------------------------------------------------------------

inductive Alike : Value → Value → Prop
  | bool : Alike (.bool t) (.bool t)
  | int : Alike (.int i) (.int i)
  | intFloat : (floatOfInt i == x) = true → Alike (.int i) (.float x)
  | floatInt : (x == floatOfInt i) = true → Alike (.float x) (.int i)
  | float : (x == y) = true → Alike (.float x) (.float y)
  | str : Alike (.str s) (.str s)
  | list {as bs : List Value} : as.length = bs.length →
      (∀ (k : Nat) a b, as[k]? = some a → bs[k]? = some b → Alike a b) →
      Alike (.list as) (.list bs)
  | actor : Alike (.actor n) (.actor n)
  | object : Alike (.object o) (.object o)

/-- How equality fails to be transitive: somewhere a float stands between two different integers,
both of at least 54 bits. -/
inductive Bridged : Value → Value → Value → Prop
  | ints {i j : Int64} : i ≠ j → 2 ^ 53 ≤ i.toInt.natAbs → 2 ^ 53 ≤ j.toInt.natAbs →
      Bridged (.int i) (.float x) (.int j)
  | items {as bs cs : List Value} {k : Nat} : as[k]? = some a → bs[k]? = some b →
      cs[k]? = some c → Bridged a b c → Bridged (.list as) (.list bs) (.list cs)

variable {a b c : Value} {as bs cs : List Value} {i j : Int64} {x : Float}

theorem sameItems_iff : sameItems as bs = true ↔ as.length = bs.length ∧
    ∀ (k : Nat) (a b : Value), as[k]? = some a → bs[k]? = some b → a.same b = true := by
  induction as generalizing bs with
  | nil => cases bs <;> simp [sameItems]
  | cons a as ih =>
    cases bs with
    | nil => simp [sameItems]
    | cons b bs =>
      rw [sameItems, Bool.and_eq_true, ih]
      constructor
      · rintro ⟨hhead, hlength, htail⟩
        refine ⟨congrArg (· + 1) hlength, ?_⟩
        rintro (_ | k) a' b' ha hb
        · cases ha
          cases hb
          exact hhead
        · exact htail k a' b' ha hb
      · rintro ⟨hlength, hitems⟩
        exact ⟨hitems 0 a b rfl rfl, Nat.succ.inj hlength, fun k => hitems (k + 1)⟩

theorem sizeOf_item_lt {k : Nat} (h : as[k]? = some a) : sizeOf a < sizeOf (list as) := by
  have hlt := List.sizeOf_lt_of_mem (List.mem_of_getElem? h)
  simp only [list.sizeOf_spec]
  omega

theorem alike_of_same (h : a.same b = true) : a.Alike b := by
  induction hsize : sizeOf a using Nat.strongRecOn generalizing a b with | ind size ih =>
  fun_cases same a b with
  | case1 s t =>
    obtain rfl := eq_of_beq h
    exact .bool
  | case2 i j =>
    obtain rfl := eq_of_beq h
    exact .int
  | case3 i x => exact .intFloat h
  | case4 x i => exact .floatInt h
  | case5 x y => exact .float h
  | case6 s t =>
    obtain rfl := eq_of_beq h
    exact .str
  | case7 as bs =>
    obtain ⟨hlength, hitems⟩ := sameItems_iff.mp h
    exact .list hlength fun k a b ha hb =>
      ih _ (hsize ▸ sizeOf_item_lt ha) (hitems k a b ha hb) rfl
  | case8 m n =>
    obtain rfl := eq_of_beq h
    exact .actor
  | case9 o p =>
    obtain rfl := eq_of_beq h
    exact .object
  | case10 => simp [same] at h

theorem Alike.same (h : a.Alike b) : a.same b = true := by
  induction h with
  | intFloat h => exact h
  | floatInt h => exact h
  | float h => exact h
  | list hlength _ ih => exact sameItems_iff.mpr ⟨hlength, ih⟩
  | _ => exact beq_self_eq_true _

theorem same_iff_alike : a.same b = true ↔ a.Alike b := ⟨alike_of_same, Alike.same⟩

-- ---------------------------------------------------------------------------
-- Integers around a float
-- ---------------------------------------------------------------------------

theorem natAbs_toInt_lt (i : Int64) : i.toInt.natAbs < 2 ^ 64 := by
  have hlow := i.le_toInt
  have hhigh := i.toInt_lt
  omega

theorem floatOfInt_inj (h : (floatOfInt i == floatOfInt j) = true)
    (hi : i.toInt.natAbs < 2 ^ 53) : i = j :=
  Int64.toInt_inj.mp (Number.ofInt_inj hi (natAbs_toInt_lt j) h)

/-- Only large integers share a float. -/
theorem large_of_ne (h : (floatOfInt i == floatOfInt j) = true) (hne : i ≠ j) :
    2 ^ 53 ≤ i.toInt.natAbs :=
  Nat.le_of_not_lt fun hlt => hne (floatOfInt_inj h hlt)

theorem bridged_of_ne (hi : (floatOfInt i == x) = true) (hj : (x == floatOfInt j) = true)
    (hne : i ≠ j) : Bridged (.int i) (.float x) (.int j) := by
  have h := BEq.trans hi hj
  exact .ints hne (large_of_ne h hne) (large_of_ne (BEq.symm h) hne.symm)

-- ---------------------------------------------------------------------------
-- Symmetry and transitivity
-- ---------------------------------------------------------------------------

theorem Alike.symm (h : a.Alike b) : b.Alike a := by
  induction h with
  | intFloat h => exact .floatInt (BEq.symm h)
  | floatInt h => exact .intFloat (BEq.symm h)
  | float h => exact .float (BEq.symm h)
  | list hlength _ ih => exact .list hlength.symm fun k b a hb ha => ih k a b ha hb
  | _ => constructor

theorem Alike.ints_iff (hi : (floatOfInt i == x) = true) (hj : (x == floatOfInt j) = true) :
    Alike (.int i) (.int j) ↔ ¬ Bridged (.int i) (.float x) (.int j) := by
  constructor
  · rintro ⟨⟩ ⟨hne⟩
    exact hne rfl
  · intro h
    by_cases hij : i = j
    · rw [hij]
      exact .int
    · exact absurd (bridged_of_ne hi hj hij) h

theorem Alike.lists_iff (hab : as.length = bs.length) (hbc : bs.length = cs.length)
    (h : ∀ (k : Nat) (a b c : Value), as[k]? = some a → bs[k]? = some b → cs[k]? = some c →
      (a.Alike c ↔ ¬ Bridged a b c)) :
    Alike (.list as) (.list cs) ↔ ¬ Bridged (.list as) (.list bs) (.list cs) := by
  constructor
  · intro halike hbridged
    cases halike with | list _ hitems =>
    cases hbridged with | items ha hb hc hbridged =>
    exact (h _ _ _ _ ha hb hc).mp (hitems _ _ _ ha hc) hbridged
  · intro hnot
    refine .list (hab.trans hbc) fun k a c ha hc => ?_
    obtain ⟨hk, -⟩ := List.getElem?_eq_some_iff.mp ha
    have hb : bs[k]? = some bs[k] := List.getElem?_eq_getElem (hab ▸ hk)
    exact (h k a _ c ha hb hc).mpr fun hbridged => hnot (.items ha hb hc hbridged)

theorem Alike.trans_iff (hab : a.Alike b) (hbc : b.Alike c) : a.Alike c ↔ ¬ Bridged a b c := by
  induction hab generalizing c with
  | intFloat hi =>
    cases hbc with
    | floatInt hj => exact ints_iff hi hj
    | float hy => exact iff_of_true (.intFloat (BEq.trans hi hy)) (by rintro ⟨⟩)
  | floatInt hi =>
    cases hbc with
    | int => exact iff_of_true (.floatInt hi) (by rintro ⟨⟩)
    | intFloat hy => exact iff_of_true (.float (BEq.trans hi hy)) (by rintro ⟨⟩)
  | float hx =>
    cases hbc with
    | floatInt hj => exact iff_of_true (.floatInt (BEq.trans hx hj)) (by rintro ⟨⟩)
    | float hy => exact iff_of_true (.float (BEq.trans hx hy)) (by rintro ⟨⟩)
  | list hlength _ ih =>
    cases hbc with
    | list hlength' hitems' =>
      exact lists_iff hlength hlength' fun k a b c ha hb hc => ih k a b ha hb (hitems' k b c hb hc)
  | _ => exact iff_of_true hbc (by rintro ⟨⟩)

/-- Equality is symmetric. Values that are equal to the same one are equal, unless somewhere a
float stands between two different integers of at least 54 bits. Then they are not. -/
theorem same_symm_trans (a b c : Value) : (a.same b = true → b.same a = true) ∧
    (a.same b = true → b.same c = true → (a.same c = true ↔ ¬ Bridged a b c)) := by
  simp only [same_iff_alike]
  exact ⟨Alike.symm, Alike.trans_iff⟩

def inLists (v w : Value) : Value := .list [.str "x", .list [v, w]]

/-- The small integers agree with the float between them, the large ones are bridged by theirs. -/
theorem same_symm_trans_inLists :
    let a := inLists (.int 5) (.int 9007199254740993)
    let b := inLists (.float 5) (.float 9007199254740992)
    let c := inLists (.int 5) (.int 9007199254740992)
    a.same b = true ∧ b.same c = true ∧ b.same a = true ∧ ¬ a.same c = true := by
  intro a b c
  have hab : a.same b = true := by decide
  have hbc : b.same c = true := by decide
  have hbridged : Bridged a b c := by
    have hints : Bridged (.int 9007199254740993) (.float 9007199254740992)
        (.int 9007199254740992) := .ints (by decide) (by decide) (by decide)
    have hinner : Bridged (.list [.int 5, .int 9007199254740993])
        (.list [.float 5, .float 9007199254740992]) (.list [.int 5, .int 9007199254740992]) :=
      .items (k := 1) rfl rfl rfl hints
    exact .items (k := 1) rfl rfl rfl hinner
  obtain ⟨hsymm, htrans⟩ := same_symm_trans a b c
  exact ⟨hab, hbc, hsymm hab, fun hac => (htrans hab hbc).mp hac hbridged⟩

/-- The lowest positive integers that share a float. -/
theorem same_not_transitive :
    (Value.int 9007199254740993).same (.float 9007199254740992) = true ∧
      (Value.float 9007199254740992).same (.int 9007199254740992) = true ∧
      ¬ (Value.int 9007199254740993).same (.int 9007199254740992) = true := by
  decide

end Playbook.Value
