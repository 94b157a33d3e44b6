import Mathlib.Data.List.Induction
import Playbook.Proofs.Acceptance

/-!
# What registrations leave behind

Registrations are made one after the other, and each of them gets its answer, also behind one that
was refused. The answer rests on the ids in the registry and on the order of the parameters, and a
registration that is refused changes nothing (`Builder.register_refused`). So a registry holds the
definitions whose registration was accepted, with their parameters numbered (`Builder.mem_after`),
and the ids that are taken are those of the calls that were accepted before
(`Builder.contains_after`).
-/

namespace Playbook

-- ---------------------------------------------------------------------------
-- The order of parameters
-- ---------------------------------------------------------------------------

namespace Definition

variable {params : List ParamSpec} {p : ParamSpec}

def InOrder (params : List ParamSpec) : Prop :=
  params.Pairwise fun p q => p.isOptional = true → q.isOptional = true

/-- The first required parameter behind an optional one: up to it, all are in order. -/
def FirstMisplaced (params : List ParamSpec) (p : ParamSpec) : Prop :=
  ∃ before after, params = before ++ p :: after ∧ InOrder before ∧
    (∃ q ∈ before, q.isOptional = true) ∧ p.isOptional = false

theorem FirstMisplaced.cons (hq : q.isOptional = false) (h : FirstMisplaced params p) :
    FirstMisplaced (q :: params) p := by
  obtain ⟨before, after, rfl, horder, ⟨o, ho, hoptional⟩, hp⟩ := h
  refine ⟨q :: before, after, rfl, .cons (fun _ _ hq' => ?_) horder, ⟨o, .tail _ ho, hoptional⟩, hp⟩
  exact absurd hq' (by simp [hq])

theorem firstMisplaced_of_misplaced (h : misplaced params = some p) :
    FirstMisplaced params p := by
  induction params with
  | nil => simp [misplaced] at h
  | cons q params ih =>
    unfold misplaced at h
    split at h
    · -- behind an optional parameter the first required one is out of place
      rename_i hq
      obtain ⟨hp, before, after, rfl, hbefore⟩ := List.find?_eq_some_iff_append.mp h
      have hall : ∀ o ∈ before, o.isOptional = true := by simpa using hbefore
      refine ⟨q :: before, after, rfl, .cons (fun o ho _ => hall o ho) ?_, ⟨q, .head _, hq⟩,
        by simpa using hp⟩
      exact List.pairwise_iff_getElem.mpr fun _ j _ hj _ _ => hall _ (List.getElem_mem hj)
    · rename_i hq
      exact (ih h).cons (by simpa using hq)

theorem misplaced_of_firstMisplaced (h : FirstMisplaced params p) : misplaced params = some p := by
  obtain ⟨before, after, rfl, horder, ⟨o, ho, hoptional⟩, hp⟩ := h
  induction before with
  | nil => simp at ho
  | cons q before ih =>
    obtain ⟨hq, horder⟩ := List.pairwise_cons.mp horder
    rw [List.cons_append, misplaced]
    split
    · rename_i hopt
      rw [List.find?_append, List.find?_eq_none.mpr fun r hr => by simp [hq r hr hopt]]
      simp [hp]
    · rename_i hrequired
      obtain rfl | ho := List.mem_cons.mp ho
      · exact absurd hoptional hrequired
      · exact ih horder ho

theorem misplaced_eq_some : misplaced params = some p ↔ FirstMisplaced params p :=
  ⟨firstMisplaced_of_misplaced, misplaced_of_firstMisplaced⟩

theorem InOrder.split (h : InOrder params) : ∃ required optional,
    params = required ++ optional ∧ (∀ p ∈ required, p.isOptional = false) ∧
      ∀ p ∈ optional, p.isOptional = true := by
  induction params with
  | nil => exact ⟨[], [], rfl, by simp, by simp⟩
  | cons p params ih =>
    obtain ⟨hp, horder⟩ := List.pairwise_cons.mp h
    by_cases hopt : p.isOptional = true
    · exact ⟨[], p :: params, rfl, by simp,
        List.forall_mem_cons.mpr ⟨hopt, fun q hq => hp q hq hopt⟩⟩
    · obtain ⟨required, optional, rfl, hrequired, hoptional⟩ := ih horder
      exact ⟨p :: required, optional, rfl,
        List.forall_mem_cons.mpr ⟨by simpa using hopt, hrequired⟩, hoptional⟩

structure Keeps (d kept : Definition) : Prop where
  rest : kept = { d with params := kept.params }
  params : ∀ i, kept.params[i]? = d.params[i]?.map fun p : ParamSpec => { p with index := i }

theorem keeps_iff {d kept : Definition} :
    d.Keeps kept ↔ kept = { d with params := numbered d.params } := by
  constructor
  · rintro ⟨hrest, hparams⟩
    rw [hrest]
    congr 1
    exact List.ext_getElem? fun i => by rw [hparams, numbered, List.getElem?_mapIdx]
  · rintro rfl
    exact ⟨rfl, fun i => List.getElem?_mapIdx⟩

end Definition

-- ---------------------------------------------------------------------------
-- One registration
-- ---------------------------------------------------------------------------

namespace Registry

theorem contains_iff {r : Registry} {id : String} :
    r.contains id = true ↔ ∃ d ∈ r.definitions, d.id = id := by
  simp [contains, find?]

theorem Built.nodup {r : Registry} (h : r.Built) : (r.definitions.map Definition.id).Nodup := by
  induction h with
  | empty => exact List.nodup_nil
  | @register r r' d _ hreg ih =>
    rw [register_ok hreg, List.map_append, List.nodup_append]
    refine ⟨ih, by simp, ?_⟩
    have hfree := List.find?_eq_none.mp (register_fresh hreg).1
    rintro a ha b hb rfl
    obtain ⟨e, he, rfl⟩ := List.mem_map.mp ha
    exact hfree e he (by simpa using hb)

theorem ids_perm (r : Registry) : r.ids.Perm (r.definitions.map Definition.id) :=
  List.mergeSort_perm _ _

theorem Built.ids_sorted {r : Registry} (h : r.Built) : r.ids.Pairwise (· < ·) := by
  have hle := @List.pairwise_mergeSort _ (fun a b : String => decide (a ≤ b))
    (fun a b c hab hbc => by
      simp only [decide_eq_true_eq] at hab hbc ⊢
      exact Std.le_trans hab hbc)
    (fun a b => by
      simp only [Bool.or_eq_true, decide_eq_true_eq]
      exact Std.le_total) (r.definitions.map Definition.id)
  exact (hle.and (r.ids_perm.nodup_iff.mpr h.nodup)).imp fun h =>
    Std.lt_of_le_of_ne (of_decide_eq_true h.1) h.2

end Registry

namespace Builder

/-- How a registration is answered: first an id that is taken is refused, then a required parameter
behind an optional one. -/
structure Answers (taken : Prop) (d : Definition) (answer : Except RegistryError Unit) : Prop where
  duplicate : answer = .error (.duplicateId d.id) ↔ taken
  misplaced : ∀ name, answer = .error (.requiredAfterOptional d.id name) ↔
    ¬ taken ∧ ∃ p, Definition.FirstMisplaced d.params p ∧ p.name = name
  accepted : answer = .ok () ↔ ¬ taken ∧ ¬ ∃ p, Definition.FirstMisplaced d.params p

theorem register_answers (b : Builder) (d : Definition) :
    Answers (b.registry.contains d.id = true) d (b.register d).1 := by
  unfold register Registry.register
  cases b.registry.contains d.id with
  | true => exact ⟨by simp, by simp, by simp⟩
  | false =>
    cases h : Definition.misplaced d.params with
    | some p =>
      exact ⟨by simp, by simp [← Definition.misplaced_eq_some, h],
        by simp [← Definition.misplaced_eq_some, h]⟩
    | none =>
      exact ⟨by simp, by simp [← Definition.misplaced_eq_some, h],
        by simp [← Definition.misplaced_eq_some, h]⟩

theorem register_refused {b : Builder} (h : (b.register d).1 = .error e) :
    (b.register d).2 = b := by
  unfold register at h ⊢
  split at h
  · rfl
  · cases h

theorem mem_register {b : Builder} : kept ∈ (b.register d).2.registry.definitions ↔
    kept ∈ b.registry.definitions ∨ (b.register d).1 = .ok () ∧ d.Keeps kept := by
  unfold register
  cases hr : b.registry.register d with
  | error e => simp
  | ok r => simp [Registry.register_ok hr, Definition.keeps_iff]

-- ---------------------------------------------------------------------------
-- One registration after the other
-- ---------------------------------------------------------------------------

def registerEach (b : Builder) : List Definition → List (Except RegistryError Unit) × Builder
  | [] => ([], b)
  | d :: ds =>
    let rest := (b.register d).2.registerEach ds
    ((b.register d).1 :: rest.1, rest.2)

def answers (ds : List Definition) : List (Except RegistryError Unit) := (empty.registerEach ds).1

def after (ds : List Definition) : Builder := (empty.registerEach ds).2

def Accepted (ds : List Definition) (k : Nat) (d : Definition) : Prop :=
  ds[k]? = some d ∧ (answers ds)[k]? = some (.ok ())

def Taken (ds : List Definition) (k : Nat) (id : String) : Prop :=
  ∃ j < k, ∃ d, Accepted ds j d ∧ d.id = id

theorem registerEach_concat (b : Builder) (ds : List Definition) (d : Definition) :
    b.registerEach (ds ++ [d]) =
      ((b.registerEach ds).1 ++ [((b.registerEach ds).2.register d).1],
        ((b.registerEach ds).2.register d).2) := by
  induction ds generalizing b with
  | nil => rfl
  | cons e ds ih => simp [registerEach, ih]

theorem answers_concat (ds : List Definition) (d : Definition) :
    answers (ds ++ [d]) = answers ds ++ [((after ds).register d).1] := by
  simp [answers, after, registerEach_concat]

theorem after_concat (ds : List Definition) (d : Definition) :
    after (ds ++ [d]) = ((after ds).register d).2 := by
  simp [after, registerEach_concat]

theorem length_answers (ds : List Definition) : (answers ds).length = ds.length := by
  induction ds using List.reverseRecOn with
  | nil => rfl
  | append_singleton ds d ih => simp [answers_concat, ih]

theorem after_built (ds : List Definition) : (after ds).registry.Built := by
  induction ds using List.reverseRecOn with
  | nil => exact .empty
  | append_singleton ds d ih =>
    rw [after_concat]
    exact register_built ih

theorem answers_take (ds : List Definition) (k : Nat) :
    answers (ds.take k) = (answers ds).take k := by
  induction ds using List.reverseRecOn with
  | nil => simp [answers, registerEach]
  | append_singleton ds d ih =>
    rcases Nat.lt_or_ge ds.length k with hk | hk
    · rw [List.take_of_length_le (by simp; omega),
        List.take_of_length_le (by simp [length_answers]; omega)]
    · rw [List.take_append_of_le_length hk, ih, answers_concat,
        List.take_append_of_le_length (by rwa [length_answers])]

theorem accepted_take : Accepted (ds.take k) j d ↔ j < k ∧ Accepted ds j d := by
  simp only [Accepted, answers_take, List.getElem?_take]
  by_cases h : j < k <;> simp [h]

theorem take_succ_eq {ds : List Definition} (h : ds[k]? = some d) :
    ds.take (k + 1) = ds.take k ++ [d] := by
  rw [List.take_add_one, h]
  rfl

theorem answers_getElem? {ds : List Definition} (h : ds[k]? = some d) :
    (answers ds)[k]? = some ((after (ds.take k)).register d).1 := by
  have hk : (ds.take k).length = k := by
    have := (List.getElem?_eq_some_iff.mp h).1
    simp; omega
  rw [← List.getElem?_take_of_succ, ← answers_take, take_succ_eq h, answers_concat,
    List.getElem?_append_right (by rw [length_answers, hk]), length_answers, hk]
  simp

theorem mem_after : kept ∈ (after ds).registry.definitions ↔
    ∃ k d, Accepted ds k d ∧ d.Keeps kept := by
  induction ds using List.reverseRecOn with
  | nil => simp [after, registerEach, empty, Registry.empty, Accepted]
  | append_singleton ds d ih =>
    have hlast : (ds ++ [d])[ds.length]? = some d := by simp
    have hanswer : (answers (ds ++ [d]))[ds.length]? = some ((after ds).register d).1 := by
      simpa using answers_getElem? hlast
    have hearlier {j e} : Accepted ds j e ↔ j < ds.length ∧ Accepted (ds ++ [d]) j e := by
      rw [← accepted_take, List.take_left]
    rw [after_concat, mem_register, ih]
    constructor
    · rintro (⟨k, e, he, hkept⟩ | ⟨hok, hkept⟩)
      · exact ⟨k, e, (hearlier.mp he).2, hkept⟩
      · exact ⟨ds.length, d, ⟨hlast, hanswer.trans (congrArg some hok)⟩, hkept⟩
    · rintro ⟨k, e, he, hkept⟩
      have hk : k < (ds ++ [d]).length := (List.getElem?_eq_some_iff.mp he.1).1
      rcases Nat.lt_or_ge k ds.length with hlt | hge
      · exact .inl ⟨k, e, hearlier.mpr ⟨hlt, he⟩, hkept⟩
      · obtain rfl : k = ds.length := by simp at hk; omega
        obtain rfl := Option.some.inj (hlast.symm.trans he.1)
        exact .inr ⟨Option.some.inj (hanswer.symm.trans he.2), hkept⟩

theorem exists_mem_after {id : String} : (∃ kept ∈ (after ds).registry.definitions, kept.id = id) ↔
    ∃ k d, Accepted ds k d ∧ d.id = id := by
  constructor
  · rintro ⟨kept, hmem, rfl⟩
    obtain ⟨k, d, hd, hkept⟩ := mem_after.mp hmem
    exact ⟨k, d, hd, by rw [hkept.rest]⟩
  · rintro ⟨k, d, hd, rfl⟩
    exact ⟨_, mem_after.mpr ⟨k, d, hd, Definition.keeps_iff.mpr rfl⟩, rfl⟩

theorem contains_after {id : String} :
    (after (ds.take k)).registry.contains id = true ↔ Taken ds k id := by
  rw [Registry.contains_iff, exists_mem_after]
  simp only [accepted_take, Taken, and_assoc, exists_and_left]

theorem Accepted.not_taken (h : Accepted ds k d) : ¬ Taken ds k d.id := by
  have hanswers := register_answers (after (ds.take k)) d
  have hok := Option.some.inj ((answers_getElem? h.1).symm.trans h.2)
  exact contains_after.not.mp (hanswers.accepted.mp hok).1

/-- What is found after registrations: the definitions that were accepted, each under its id. -/
theorem lookup_after {id : String} : (after ds).registry.lookup id = .ok kept ↔
    ∃ k d, Accepted ds k d ∧ d.id = id ∧ ¬ Taken ds k id ∧ d.Keeps kept := by
  have hfind : (after ds).registry.lookup id = .ok kept ↔
      (after ds).registry.find? id = some kept := by
    unfold Registry.lookup
    cases (after ds).registry.find? id <;> simp
  rw [hfind, (after_built ds).find?_iff, mem_after]
  constructor
  · rintro ⟨⟨k, d, hd, hkept⟩, rfl⟩
    have hid : d.id = kept.id := by rw [hkept.rest]
    exact ⟨k, d, hd, hid, hid ▸ hd.not_taken, hkept⟩
  · rintro ⟨k, d, hd, rfl, -, hkept⟩
    exact ⟨⟨k, d, hd, hkept⟩, by rw [hkept.rest]⟩

-- ---------------------------------------------------------------------------
-- Every sequence of registrations
-- ---------------------------------------------------------------------------

structure Settles (ds : List Definition) : Prop where
  length_answers : (answers ds).length = ds.length
  answer : ∀ k d answer, ds[k]? = some d → (answers ds)[k]? = some answer →
    Answers (Taken ds k d.id) d answer
  /-- A call that is refused leaves the builder as the calls before it did. -/
  refused : ∀ k e, (answers ds)[k]? = some (.error e) → after (ds.take (k + 1)) = after (ds.take k)
  found : ∀ id kept, (after ds).registry.lookup id = .ok kept ↔
    ∃ k d, Accepted ds k d ∧ d.id = id ∧ ¬ Taken ds k id ∧ d.Keeps kept
  missing : ∀ id, (after ds).registry.lookup id = .error (.notFound id) ↔
    ¬ ∃ k d, Accepted ds k d ∧ d.id = id
  index : ∀ id kept i (p : ParamSpec), (after ds).registry.lookup id = .ok kept →
    kept.params[i]? = some p → p.index = i
  trailing : ∀ id kept, (after ds).registry.lookup id = .ok kept → ∃ required optional,
    kept.params = required ++ optional ∧ (∀ p ∈ required, p.isOptional = false) ∧
      ∀ p ∈ optional, p.isOptional = true
  ids_sorted : (after ds).registry.ids.Pairwise (· < ·)
  mem_ids : ∀ id, id ∈ (after ds).registry.ids ↔ ∃ k d, Accepted ds k d ∧ d.id = id
  length_ids : (after ds).registry.ids.length = (after ds).registry.size

theorem registrations_settle (ds : List Definition) : Settles ds where
  length_answers := length_answers ds
  answer k d answer hd ha := by
    obtain rfl := Option.some.inj ((answers_getElem? hd).symm.trans ha)
    exact propext contains_after ▸ register_answers (after (ds.take k)) d
  refused k e he := by
    obtain ⟨d, hd⟩ : ∃ d, ds[k]? = some d := by
      have hk := (List.getElem?_eq_some_iff.mp he).1
      rw [length_answers] at hk
      exact ⟨_, List.getElem?_eq_getElem hk⟩
    rw [take_succ_eq hd, after_concat]
    exact register_refused (Option.some.inj ((answers_getElem? hd).symm.trans he))
  found id kept := lookup_after
  missing id := by
    rw [← exists_mem_after, ← Registry.contains_iff, Registry.contains, Registry.lookup]
    cases (after ds).registry.find? id <;> simp
  index id kept i p h hp := by
    obtain ⟨k, d, -, -, -, hkept⟩ := lookup_after.mp h
    rw [hkept.params, Option.map_eq_some_iff] at hp
    obtain ⟨q, -, rfl⟩ := hp
    rfl
  trailing id kept h := by
    obtain ⟨k, d, hd, -, -, hkept⟩ := lookup_after.mp h
    exact Definition.InOrder.split ((after_built ds).trailing (mem_after.mpr ⟨k, d, hd, hkept⟩))
  ids_sorted := (after_built ds).ids_sorted
  mem_ids id := by
    rw [(Registry.ids_perm _).mem_iff, List.mem_map]
    exact exists_mem_after
  length_ids := by
    rw [(Registry.ids_perm _).length_eq, List.length_map, Registry.size]

end Builder

end Playbook
