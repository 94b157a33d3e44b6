import Playbook.Builtin

/-!
# Registries come from registration

A registry is made by registering definitions one after the other. What holds
of every definition in it, such as the numbering of its parameters, is what
registration gives.
-/

namespace Playbook

inductive Registry.Built : Registry → Prop
  | empty : Registry.Built .empty
  | register : Registry.Built r → r.register d = .ok r' → Registry.Built r'

namespace Registry

theorem find?_ok {r : Registry} {id : String} (h : r.find? id = some d) :
    d ∈ r.definitions ∧ d.id = id :=
  ⟨List.mem_of_find?_eq_some h, by simpa using List.find?_some h⟩

theorem register_ok {r r' : Registry} (h : r.register d = .ok r') :
    r'.definitions = r.definitions ++ [{ d with params := Definition.numbered d.params }] := by
  unfold register at h
  split at h
  · simp at h
  · split at h
    · simp at h
    · simp only [Except.ok.injEq] at h
      simp [← h]

theorem numbered_index {params : List ParamSpec} {i : Nat} {p : ParamSpec}
    (h : (Definition.numbered params)[i]? = some p) : p.index = i := by
  simp only [Definition.numbered, List.getElem?_mapIdx, Option.map_eq_some_iff] at h
  obtain ⟨q, -, rfl⟩ := h
  rfl

theorem Built.index {r : Registry} {d : Definition} {i : Nat} {p : ParamSpec} (hr : r.Built)
    (hd : d ∈ r.definitions) (hp : d.params[i]? = some p) : p.index = i := by
  induction hr with
  | empty => simp [Registry.empty] at hd
  | register _ hreg ih =>
    rw [register_ok hreg, List.mem_append, List.mem_singleton] at hd
    obtain hd | rfl := hd
    · exact ih hd
    · exact numbered_index hp

end Registry

theorem Builder.register_built {b : Builder} (h : b.registry.Built) :
    (b.register d).2.registry.Built := by
  unfold Builder.register
  split
  · exact h
  · rename_i hr; exact .register h hr

theorem Builder.registerAll_built {b : Builder} (h : b.registry.Built) :
    (b.registerAll ds).2.registry.Built := by
  induction ds generalizing b with
  | nil => exact h
  | cons d ds ih =>
    have hd := register_built (d := d) h
    unfold Builder.registerAll
    split
    · rename_i hb
      exact ih (by simpa [hb] using hd)
    · rename_i hb
      simpa [hb] using hd

theorem Registry.builtins_built : Registry.builtins.Built :=
  Builder.registerAll_built .empty

end Playbook
