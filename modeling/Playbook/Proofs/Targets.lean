import Playbook.Proofs.Isolation
import Playbook.Proofs.Lockstep
import Playbook.Proofs.Trails

/-!
# Targets that are remembered

A For statement compiles its target once in a context and remembers it for its position. The
target that it runs later is the one that its words would compile to at that time if and only if
its argument still gives the name of what is remembered (`Context.Candid.readTarget_eq_iff`).

Contexts in which nothing else is remembered for statements stay so in every run, and every
target that they remember was compiled when the statement was entered before (`Since`).
-/

namespace Playbook

-- ---------------------------------------------------------------------------
-- What a statement runs
-- ---------------------------------------------------------------------------

def targetKeyAt (i : Nat) : String := "sub_dispatch.target." ++ Number.natText i

theorem natText_inj (h : Number.natText i = Number.natText j) : i = j := by
  have hdigits := congrArg String.toList h
  rw [Number.natText, Number.natText, String.toList_ofList, String.toList_ofList] at hdigits
  calc i = Nat.ofDigitChars 10 (Nat.toDigits 10 i) 0 := Nat.ofDigitChars_ten_toDigits.symm
    _ = Nat.ofDigitChars 10 (Nat.toDigits 10 j) 0 := by rw [hdigits]
    _ = j := Nat.ofDigitChars_ten_toDigits

theorem targetKeyAt_inj (h : targetKeyAt i = targetKeyAt j) : i = j :=
  natText_inj ((String.append_right_inj _).mp h)

theorem compile_named {name : String} (h : (Compile.action r unit name args).result = .ok a) :
    a.id = name ∧ a.definition ∈ r.definitions := by
  obtain ⟨head, rest, hwords, hd, -⟩ := Compile.tokens_ok h
  obtain ⟨rfl, -⟩ := List.cons.inj hwords
  exact (Registry.find?_ok hd).symm

def Slot.Says (s : Slot) (text : String) : Prop :=
  ∀ lookup, (s.read lookup).result = .ok (.str text)

theorem Slot.Says.unique {s : Slot} {text text' : String} (h : s.Says text) (h' : s.Says text') :
    text = text' :=
  Value.str.inj (Except.ok.inj ((h fun _ => none).symm.trans (h' fun _ => none)))

/-- What a literal says when it is read once, it says always. -/
theorem Slot.says_of_read {s : Slot} {text : String}
    (hs : s = .literal T written cached) (h : (s.read lookup).result = .ok (.str text)) :
    s.Says text := by
  subst hs
  intro lookup'
  rw [← h]
  cases cached <;> rfl

namespace Context

def readName (c : Context) : Reading RuntimeError String := do
  let v ← c.readSlot 1
  ⟨v.toText?, []⟩

def readAnew (c : Context) : Reading RuntimeError Action := do
  let name ← c.readName
  (Compile.action c.registry c.script name c.overflow).mapError .compile

theorem readName_ok_iff {c : Context} {name : String} :
    c.readName.result = .ok name ↔ (c.readSlot 1).result = .ok (.str name) := by
  simp only [readName, Reading.bind_ok, Value.toText?_ok_iff]
  constructor
  · rintro ⟨v, hv, rfl⟩
    exact hv
  · exact fun hv => ⟨_, hv, rfl⟩

theorem readAnew_ok_iff {c : Context} :
    c.readAnew.result = .ok a ↔ ∃ name, c.readName.result = .ok name ∧
      (Compile.action c.registry c.script name c.overflow).result = .ok a := by
  simp only [readAnew, Reading.bind_ok, Reading.result_mapError, Except.mapError_ok]

theorem readTarget_of_none {c : Context} (h : c.metadata.get? c.targetKey = none) :
    c.readTarget.result = c.readAnew.result := by
  simp only [readTarget, readAnew, readName, h, Reading.result_bind]
  cases (c.readSlot 1).result <;> rfl

theorem readTarget_of_some {c : Context} (h : c.metadata.get? c.targetKey = some (.target a)) :
    c.readTarget.result = (c.readName.result >>= fun _ => .ok a) := by
  simp only [readTarget, readName, h, Reading.result_bind]
  cases (c.readSlot 1).result <;> rfl

def remembered? (c : Context) : Option Action :=
  (c.metadata.get? c.targetKey).bind Builtin.unpackTarget

theorem remembered?_eq_some {c : Context} :
    c.remembered? = some a ↔ c.metadata.get? c.targetKey = some (.target a) := by
  simp only [remembered?, Option.bind_eq_some_iff]
  constructor
  · rintro ⟨m, hm, ha⟩
    cases m with
    | target b =>
      cases ha
      exact hm
    | int | text => cases ha
  · exact fun hm => ⟨_, hm, rfl⟩

def variableTarget? (c : Context) : Option String :=
  match (c.current.bind fun b => b.slots[1]? : Option Slot), c.readName.result with
  | some (.ref _ _), .ok name => some name
  | _, _ => none

/-- A variable that says what to run says what is remembered. -/
def Steady (c : Context) : Prop := ∀ a ∈ c.remembered?, ∀ name ∈ c.variableTarget?, a.id = name

instance (c : Context) : Decidable c.Steady :=
  inferInstanceAs (Decidable (∀ a ∈ c.remembered?, ∀ name ∈ c.variableTarget?, a.id = name))

theorem variableTarget?_eq_some {c : Context} {name : String} :
    c.variableTarget? = some name ↔ c.readName.result = .ok name ∧
      ∃ b type x, c.current = some b ∧ b.slots[1]? = some (.ref type x) := by
  unfold variableTarget?
  split
  · rename_i hslot hname
    obtain ⟨b, hb, hslot⟩ := Option.bind_eq_some_iff.mp hslot
    simp only [hname, Option.some.injEq, Except.ok.injEq]
    exact ⟨fun h => ⟨h, b, _, _, hb, hslot⟩, And.left⟩
  · rename_i hno
    refine ⟨nofun, ?_⟩
    rintro ⟨hname, b, type, x, hb, hslot⟩
    exact (hno type x name (Option.bind_eq_some_iff.mpr ⟨b, hb, hslot⟩) hname).elim

theorem readName_cases {c : Context} {name : String} (hb : c.current = some b)
    (hname : c.readName.result = .ok name) :
    (∃ type text cached, b.slots[1]? = some (.literal type text cached) ∧
      (Slot.literal type text cached).Says name) ∨ c.variableTarget? = some name := by
  have hread := readName_ok_iff.mp hname
  simp only [readSlot, hb] at hread
  cases hslot : b.slots[1]? with
  | none => simp [hslot] at hread
  | some slot =>
    cases slot with
    | ref type x => exact .inr (variableTarget?_eq_some.mpr ⟨hname, b, type, x, hb, hslot⟩)
    | literal type text cached =>
      rw [hslot] at hread
      exact .inl ⟨type, text, cached, rfl, Slot.says_of_read rfl hread⟩

end Context

-- ---------------------------------------------------------------------------
-- Candid contexts
-- ---------------------------------------------------------------------------

def Effect.Discreet (e : Effect) : Prop := ∀ i m, e ≠ .remember (targetKeyAt i) m

/-- The action is built in, or its handler minds its own business: it neither looks at what is
remembered nor stores anything in the place of a target, does not dispose of its context, and
runs no other actions. -/
def Behaviour.Discreet (handlers : Handlers) : Behaviour → Prop
  | .builtin _ => True
  | .host name => (∀ m, (handlers name).Overlooks fun c => { c with metadata := m }) ∧
      (handlers name).Within (fun e => e.Discreet ∧ e ≠ .dispose) False False
  | .idle => True

namespace Context

/-- The action is what a statement of the context compiles to under the name of the action. If
the name is written down in the statement then it is that name. -/
structure Yields (c : Context) (b a : Action) : Prop where
  compiled : (Compile.action c.registry c.script a.id b.overflow).result = .ok a
  literal : ∀ type text cached, b.slots[1]? = some (.literal type text cached) →
    (Slot.literal type text cached).Says a.id

structure Candid (handlers : Handlers) (c : Context) : Prop where
  actions : ∀ a ∈ c.actions, a.definition.behaviour.Discreet handlers
  definitions : ∀ d ∈ c.registry.definitions, d.behaviour.Discreet handlers
  targets : ∀ i m, c.metadata.get? (targetKeyAt i) = some m →
    ∃ b a, c.actions[i]? = some b ∧ b.isFor = true ∧ m = .target a ∧ c.Yields b a

namespace Candid

variable {c d : Context}

theorem keep (h : c.Candid handlers) (hsequence : d.sequence = c.sequence)
    (hregistry : d.registry = c.registry) (hscript : d.script = c.script)
    (hmemos : ∀ i m, d.metadata.get? (targetKeyAt i) = some m →
      c.metadata.get? (targetKeyAt i) = some m) : d.Candid handlers := by
  have hactions : d.actions = c.actions := congrArg Sequence.actions hsequence
  refine ⟨hactions ▸ h.actions, hregistry ▸ h.definitions, ?_⟩
  intro i m hm
  obtain ⟨b, a, hb, hfor, rfl, hyields⟩ := h.targets i m (hmemos i m hm)
  refine ⟨b, a, hactions ▸ hb, hfor, rfl, ?_, hyields.literal⟩
  rw [hregistry, hscript]
  exact hyields.compiled

theorem unremembering (hactions : ∀ a ∈ c.actions, a.definition.behaviour.Discreet handlers)
    (hdefinitions : ∀ d ∈ c.registry.definitions, d.behaviour.Discreet handlers)
    (hempty : c.metadata = .empty) : c.Candid handlers := by
  refine ⟨hactions, hdefinitions, ?_⟩
  intro i m hm
  rw [hempty, Table.get?_empty] at hm
  cases hm

theorem sync (h : c.Candid handlers) : c.sync.Candid handlers :=
  h.keep rfl rfl rfl fun _ _ hm => hm

theorem released (h : c.Candid handlers) : c.released.Candid handlers :=
  unremembering (by simp [Context.released, Context.actions, Sequence.actions]) h.definitions rfl

theorem remembered (h : c.Candid handlers) (hcurrent : c.current = c.actions[c.index]?)
    (hm : c.metadata.get? c.targetKey = some m) :
    ∃ b a, c.current = some b ∧ m = .target a ∧ c.Yields b a ∧ c.overflow = b.overflow := by
  obtain ⟨b, a, hb, -, rfl, hyields⟩ := h.targets c.index m hm
  have hb : c.current = some b := hcurrent.trans hb
  exact ⟨b, a, hb, rfl, hyields, by simp only [overflow, hb]⟩

/-- A For statement runs what its words compile to now if and only if the variable that says what
to run, if there is one, has not changed since. -/
theorem readTarget_eq_iff (h : c.Candid handlers) (hcurrent : c.current = c.actions[c.index]?) :
    c.readTarget.result = c.readAnew.result ↔ c.Steady := by
  cases hm : c.metadata.get? c.targetKey with
  | none =>
    rw [readTarget_of_none hm]
    refine ⟨fun _ a ha => ?_, fun _ => rfl⟩
    rw [remembered?_eq_some.mp ha] at hm
    cases hm
  | some m =>
    obtain ⟨b, a, hb, rfl, hyields, hover⟩ := h.remembered hcurrent hm
    have hremembered : c.remembered? = some a := remembered?_eq_some.mpr hm
    rw [readTarget_of_some hm]
    cases hname : c.readName.result with
    | error e =>
      refine ⟨fun _ _ _ name hvar => ?_, fun _ => ?_⟩
      · rw [(variableTarget?_eq_some.mp hvar).1] at hname
        cases hname
      · rw [readAnew, Reading.result_bind, hname]
        rfl
    | ok name =>
      refine Iff.trans (eq_comm.trans readAnew_ok_iff) ⟨?_, fun hsteady => ?_⟩
      · rintro ⟨name', hname', hcompile⟩ a' ha' name'' hvar
        obtain rfl := Option.some.inj (hremembered.symm.trans ha')
        obtain rfl := Except.ok.inj (hname'.symm.trans (variableTarget?_eq_some.mp hvar).1)
        exact (compile_named hcompile).1
      · refine ⟨name, hname, ?_⟩
        have hid : a.id = name := by
          obtain ⟨type, text, cached, hslot, hsays⟩ | hvar := readName_cases hb hname
          · exact (hyields.literal type text cached hslot).unique hsays
          · exact hsteady a hremembered name hvar
        rw [← hid, hover]
        exact hyields.compiled

theorem target_known (h : c.Candid handlers) (hcurrent : c.current = c.actions[c.index]?)
    (ha : c.readTarget.result = .ok a) : a.definition ∈ c.registry.definitions := by
  cases hm : c.metadata.get? c.targetKey with
  | none =>
    rw [readTarget_of_none hm] at ha
    obtain ⟨name, -, hcompile⟩ := readAnew_ok_iff.mp ha
    exact (compile_named hcompile).2
  | some m =>
    obtain ⟨b, a', -, rfl, hyields, -⟩ := h.remembered hcurrent hm
    obtain rfl : a' = a := by
      rw [readTarget_of_some hm] at ha
      cases hname : c.readName.result with
      | error e =>
        rw [hname] at ha
        cases ha
      | ok name =>
        rw [hname] at ha
        exact Except.ok.inj ha
    exact (compile_named hyields.compiled).2

theorem remembering (h : c.Candid handlers) (hcurrent : c.current = c.actions[c.index]?)
    (hb : c.current = some b) (hfor : b.isFor = true) (ha : c.readTarget.result = .ok a) :
    (c.remembering a).Candid handlers := by
  cases hm : c.metadata.get? c.targetKey with
  | some m =>
    have hsame : c.remembering a = c := by simp only [Context.remembering, hm]
    rw [hsame]
    exact h
  | none =>
    refine ⟨h.actions, h.definitions, ?_⟩
    intro i m hget
    simp only [Context.remembering, hm, Table.get?_set] at hget
    split at hget
    · rename_i hkey
      obtain rfl := targetKeyAt_inj hkey
      cases hget
      rw [readTarget_of_none hm] at ha
      obtain ⟨name, hname, hcompile⟩ := readAnew_ok_iff.mp ha
      obtain rfl := (compile_named hcompile).1
      refine ⟨b, a, hcurrent.symm.trans hb, hfor, rfl, ?_, ?_⟩
      · have hover : c.overflow = b.overflow := by simp only [overflow, hb]
        rw [hover] at hcompile
        exact hcompile
      · intro type text cached hslot
        have hread := readName_ok_iff.mp hname
        simp only [readSlot, hb, hslot] at hread
        exact Slot.says_of_read rfl hread
    · obtain ⟨b, a, hb, hfor, rfl, hyields⟩ := h.targets i m hget
      exact ⟨b, a, hb, hfor, rfl, hyields.compiled, hyields.literal⟩

end Candid

end Context

-- ---------------------------------------------------------------------------
-- Where remembered targets come from
-- ---------------------------------------------------------------------------

/-- The statement at a position of a context was entered when nothing was remembered for it, and
this is what its words compiled to then. -/
def CompiledAt (entrances : List Context) (owner : ContextId) (i : Nat) (a : Action) : Prop :=
  ∃ d ∈ entrances, d.id = owner ∧ d.index = i ∧ d.metadata.get? d.targetKey = none ∧
    d.readAnew.result = .ok a

def Sourced (s : State) (news : List Context) (c : Context) : Prop :=
  ∀ i m, c.metadata.get? (targetKeyAt i) = some m →
    c.id = s.context.id ∧ s.context.metadata.get? (targetKeyAt i) = some m ∨
      ∃ a, m = .target a ∧ CompiledAt news c.id i a

theorem CompiledAt.mono (h : CompiledAt news owner i a) (hsub : news ⊆ more) :
    CompiledAt more owner i a := by
  obtain ⟨d, hd, hwhere⟩ := h
  exact ⟨d, hsub hd, hwhere⟩

theorem Sourced.trans {s t : State} (h : Sourced s news t.context)
    (hid : t.context.id = s.context.id) (hc : Sourced t more c) : Sourced s (more ++ news) c := by
  intro i m hm
  obtain ⟨hct, hmt⟩ | ⟨a, rfl, hcompiled⟩ := hc i m hm
  · obtain ⟨-, hms⟩ | ⟨a, rfl, hcompiled⟩ := h i m hmt
    · exact .inl ⟨hct.trans hid, hms⟩
    · refine .inr ⟨a, rfl, ?_⟩
      rw [hct]
      exact hcompiled.mono (List.subset_append_right more news)
  · exact .inr ⟨a, rfl, hcompiled.mono (List.subset_append_left more news)⟩

structure State.Candid (handlers : Handlers) (s : State) : Prop where
  context : s.context.Candid handlers
  clean : s.world.Clean

/-- The context that a handler finds in a run from `s` on, if `older` have been entered by then. In
contexts that were made in the run, no statement finds another name than the one that it has
remembered. -/
structure Entrance (handlers : Handlers) (s : State) (older : List Context) (c : Context) :
    Prop where
  candid : c.Candid handlers
  current : c.current = c.actions[c.index]?
  sourced : Sourced s older c
  steady : c.id ≠ s.context.id → c.Steady

structure Since (handlers : Handlers) (s t : State) : Prop where
  candid : t.Candid handlers
  id : t.context.id = s.context.id
  entrances : ∃ news, t.world.entrances = news ++ s.world.entrances ∧
    Sourced s news t.context ∧
    ∀ newer c older, news = newer ++ c :: older → Entrance handlers s older c

namespace Since

variable {s t u : State}

theorem silent (ht : t.Candid handlers) (hid : t.context.id = s.context.id)
    (hentrances : t.world.entrances = s.world.entrances)
    (hmemos : ∀ i m, t.context.metadata.get? (targetKeyAt i) = some m →
      s.context.metadata.get? (targetKeyAt i) = some m) : Since handlers s t := by
  refine ⟨ht, hid, [], hentrances, fun i m hm => .inl ⟨hid, hmemos i m hm⟩, ?_⟩
  intro newer c older h
  simp at h

theorem refl (hs : s.Candid handlers) : Since handlers s s :=
  silent hs rfl rfl fun _ _ hm => hm

theorem trans (hst : Since handlers s t) (htu : Since handlers t u) : Since handlers s u := by
  obtain ⟨news, hnews, hsourced, hentered⟩ := hst.entrances
  obtain ⟨more, hmore, hsourced', hentered'⟩ := htu.entrances
  refine ⟨htu.candid, htu.id.trans hst.id, more ++ news, ?_, hsourced.trans hst.id hsourced', ?_⟩
  · rw [hmore, hnews, List.append_assoc]
  · intro newer c older h
    obtain ⟨between, rfl, hbetween⟩ | ⟨between, hmore, hbetween⟩ :=
      List.append_eq_append_iff.mp h
    · exact hentered between c older hbetween
    · cases between with
      | nil => exact hentered [] c older hbetween.symm
      | cons d between =>
        obtain ⟨rfl, rfl⟩ := List.cons.inj hbetween
        have hc := hentered' newer c between hmore
        exact ⟨hc.candid, hc.current, hsourced.trans hst.id hc.sourced,
          fun hid => hc.steady fun hct => hid (hct.trans hst.id)⟩

end Since

theorem Effect.run_memos {e : Effect} (he : e.Discreet) (s : State)
    (h : (e.run s).2.context.metadata.get? (targetKeyAt i) = some m) :
    s.context.metadata.get? (targetKeyAt i) = some m := by
  cases e with
  | setIndex index =>
    obtain ⟨j, hj⟩ := run_setIndex index s
    rw [hj] at h
    exact h
  | remember key m' =>
    simp only [run, Table.get?_set] at h
    split at h
    · rename_i hkey
      exact (he i m' (hkey ▸ rfl)).elim
    · exact h
  | dispose =>
    simp only [run, World.dispose] at h
    split at h
    · exact h
    · cases h
  | _ => exact h

theorem Effect.run_clean (e : Effect) {s : State} (h : s.world.Clean) :
    (e.run s).2.world.Clean := by
  cases e with
  | setIndex index =>
    simp only [run]
    split <;> exact h
  | dispose => exact h.dispose s.context
  | cancel =>
    obtain ⟨_, hw⟩ := s.world.cancel_eq s.context.id
    simp only [run, hw]
    exact h
  | revoke i =>
    obtain ⟨_, hw⟩ := s.world.revoke_eq i
    simp only [run, hw]
    exact h
  | _ => exact h

theorem Effect.run_candid {e : Effect} (he : e.Discreet) {s : State} (h : s.Candid handlers) :
    (e.run s).2.Candid handlers := by
  refine ⟨?_, e.run_clean h.clean⟩
  by_cases hdispose : e = .dispose
  · subst hdispose
    simp only [run, World.dispose]
    split
    · exact h.context
    · exact h.context.released
  · have hkept := Effect.run_kept hdispose s
    exact h.context.keep hkept.sequence hkept.registry hkept.script fun _ _ => run_memos he s

namespace Since

variable {s t u : State}

theorem effect {e : Effect} (he : e.Discreet) (hs : s.Candid handlers) :
    Since handlers s (e.run s).2 :=
  silent (e.run_candid he hs) (State.Grows.effect e s).id (e.run_entrances s) fun _ _ =>
    e.run_memos he s

theorem enter (hs : s.Candid handlers) (ht : t.Candid handlers)
    (hid : t.context.id = s.context.id)
    (hentrances : t.world.entrances = s.context.sync :: s.world.entrances)
    (hsourced : Sourced s [s.context.sync] t.context) : Since handlers s t := by
  refine ⟨ht, hid, [s.context.sync], hentrances, hsourced, ?_⟩
  intro newer c older h
  obtain ⟨rfl, rfl, rfl⟩ : newer = [] ∧ c = s.context.sync ∧ older = [] := by
    cases newer with
    | nil =>
      obtain ⟨hc, holder⟩ := List.cons.inj h
      exact ⟨rfl, hc.symm, holder.symm⟩
    | cons d newer => simp at h
  exact ⟨hs.context.sync, rfl, fun i m hm => .inl ⟨rfl, hm⟩, fun hne => (hne rfl).elim⟩

theorem entered (hs : s.Candid handlers) : Since handlers s s.entered :=
  enter hs ⟨hs.context.sync, hs.clean⟩ rfl rfl fun _ _ hm => .inl ⟨rfl, hm⟩

theorem targeting (hs : s.Candid handlers) (hb : s.context.actions[s.context.index]? = some b)
    (hfor : b.isFor = true) (ha : s.context.sync.readTarget.result = .ok a)
    (r : Reading ε α) : Since handlers s (s.entered.targeting r a) := by
  refine enter hs ⟨hs.context.sync.remembering rfl hb hfor ha, hs.clean⟩ rfl
    (World.entrances_recordCalls _ _) ?_
  intro i m hm
  simp only [State.targeting, State.entered, Context.remembering] at hm
  cases hmemo : s.context.sync.metadata.get? s.context.sync.targetKey with
  | some m' =>
    rw [hmemo] at hm
    exact .inl ⟨rfl, hm⟩
  | none =>
    simp only [hmemo, Table.get?_set] at hm
    split at hm
    · rename_i hkey
      obtain rfl : i = s.context.index := targetKeyAt_inj hkey
      cases hm
      refine .inr ⟨a, rfl, s.context.sync, List.mem_singleton_self _, rfl, rfl, hmemo, ?_⟩
      rw [← Context.readTarget_of_none hmemo]
      exact ha
    · exact .inl ⟨rfl, hm⟩

end Since

-- ---------------------------------------------------------------------------
-- Names that do not change
-- ---------------------------------------------------------------------------

theorem World.entries_append {w w' : World} (h : w'.entrances = news ++ w.entrances)
    (i : ContextId) : w'.entries i = (news.filter fun c => c.id = i) ++ w.entries i := by
  rw [entries, h, List.filter_append, entries]

/-- Whenever a handler of the context of `s` has been entered on the way to `t`, a variable that
says what to run has said what was remembered. -/
def Calm (s t : State) : Prop :=
  ∀ news, t.world.entries s.context.id = news ++ s.world.entries s.context.id →
    ∀ c ∈ news, c.Steady

theorem Since.entries {s t : State} (h : Since handlers s t) (i : ContextId) :
    ∃ news, t.world.entries i = news ++ s.world.entries i := by
  obtain ⟨news, hnews, -⟩ := h.entrances
  exact ⟨_, World.entries_append hnews i⟩

section
variable {s t u : State}

theorem Calm.left (h : Calm s u) (htu : Since handlers t u) : Calm s t := by
  intro news hnews c hc
  obtain ⟨more, hmore⟩ := htu.entries s.context.id
  refine h (more ++ news) ?_ c (List.mem_append_right more hc)
  rw [hmore, hnews, List.append_assoc]

theorem Calm.right (h : Calm s u) (hst : Since handlers s t) : Calm t u := by
  intro more hmore c hc
  obtain ⟨news, hnews⟩ := hst.entries s.context.id
  rw [hst.id, hnews, ← List.append_assoc] at hmore
  exact h (more ++ news) hmore c (List.mem_append_left news hc)

theorem Calm.trans (hst : Since handlers s t) (htu : Since handlers t u) (h : Calm s t)
    (h' : Calm t u) : Calm s u := by
  intro all hall c hc
  obtain ⟨news, hnews⟩ := hst.entries s.context.id
  obtain ⟨more, hmore⟩ := htu.entries s.context.id
  obtain rfl : all = more ++ news := by
    rw [hmore, hnews, ← List.append_assoc] at hall
    exact (List.append_cancel_right hall).symm
  rcases List.mem_append.mp hc with hc | hc
  · exact h' more (hst.id ▸ hmore) c hc
  · exact h news hnews c hc

theorem Calm.first (h : Calm s u)
    (ht : t.world.entries s.context.id = s.context.sync :: s.world.entries s.context.id)
    (htu : Since handlers t u) : s.context.sync.Steady := by
  obtain ⟨news, hnews⟩ := htu.entries s.context.id
  refine h (news ++ [s.context.sync]) ?_ _ (List.mem_append_right news List.mem_cons_self)
  rw [hnews, ht, List.append_assoc]
  rfl

theorem Since.child (hs : s.Candid handlers) (h : Since handlers (s.forTarget a) t)
    (hcalm : Calm (s.forTarget a) t) :
    Since handlers s { context := s.context, world := t.dispose.world } := by
  obtain ⟨news, hnews, -, hentered⟩ := h.entrances
  have hown (c : Context) (hc : c ∈ news) (hid : c.id = (s.forTarget a).context.id) :
      c.Steady :=
    hcalm _ (World.entries_append hnews _) c (List.mem_filter.mpr ⟨hc, decide_eq_true hid⟩)
  refine ⟨⟨hs.context, h.candid.clean.dispose t.context⟩, rfl, news, ?_,
    fun i m hm => .inl ⟨rfl, hm⟩, ?_⟩
  · exact (World.entrances_dispose t.world t.context).trans hnews
  · intro newer c older hsplit
    have hc := hentered newer c older hsplit
    refine ⟨hc.candid, hc.current, ?_, fun _ => ?_⟩
    · intro i m hm
      -- a context that has just been made remembers nothing
      obtain ⟨-, hnothing⟩ | hcompiled := hc.sourced i m hm
      · cases hnothing
      · exact .inr hcompiled
    · by_cases hid : c.id = (s.forTarget a).context.id
      · exact hown c (hsplit ▸ List.mem_append_right newer List.mem_cons_self) hid
      · exact hc.steady hid

end

end Playbook
