import XmBase.Telemetry.Binding
import Mathlib.Algebra.Order.Ring.Nat
import Mathlib.Data.List.Basic
/-!
# XmBase.Telemetry.EventSource

Who an event is attributed to (`telemetry/event.hpp`, and the source registry of
`src/telemetry_console_binding.cpp`). A binding numbers the sources it is told of,
from one on; an `EventSource` keeps the number it got from the binding that was
active when it was registered, and the binding that is active when an event is
emitted looks that number up in its own registry.

A number means something to the binding that issued it, and to nobody else. Which name
another binding has under it is decided by the calls alone: a registry is the list of the
distinct names that were registered while its binding was active (`run_recorded`). So
**attribution survives a rebinding exactly when an event only reaches a binding other than
its source's own if fewer names were registered there than the source's number, or the
same name with that number** (`attribution_survives_iff`).

Proof shape: a record of the calls (`Registrations`) is kept beside the state, the two stay
related under every step, and the name that `LookupSource` finds is then read off the
record.
-/

namespace XmBase.Telemetry.Sources

open XmBase.Atomic

inductive Severity
  | kTrace
  | kDebug
  | kInfo
  | kWarn
  | kError
  | kFatal
  | kOff
  deriving DecidableEq, Repr

def Severity.value : Severity → Nat
  | .kTrace => 0
  | .kDebug => 1
  | .kInfo => 2
  | .kWarn => 3
  | .kError => 4
  | .kFatal => 5
  | .kOff => 6

/-! ### A registry

The console binding's table of names, as `InternSourceImpl` and `LookupSource` use it under
their lock. An id is a position counted from one, and zero is nobody. -/

/-- `InternSourceImpl`: the id, and the names after it. -/
def internSource (names : List String) (name : String) : UInt32 × List String :=
  match names.findIdx? fun n => n == name with
  | some i => (.ofNat (i + 1), names)
  | none => (.ofNat (names ++ [name]).length, names ++ [name])

/-- `LookupSource`; `none` is the anonymous or unknown source. -/
def lookupSource (names : List String) (id : UInt32) : Option String :=
  if id = 0 then none
  else if id.toNat > names.length then none
  else names[id.toNat - 1]?

/-- `EventSource`. -/
structure EventSource where
  id : UInt32
  name : String
  deriving DecidableEq, Repr

/-! ### The system

The calls are taken whole and one after the other; what the accesses of two of them can do
to each other is the subject of `XmBase.Telemetry.Binding`. Every binding has a registry of
its own, which keeps its names while another binding is active. -/

variable {B : Type}

/-- `ActiveBinding()`, with no other thread in between. -/
def active (env : Env B) (m : Mem B) : Mem B × Option B :=
  let r := (activeBinding env).alone 4 m (.inl .loadBinding)
  (r.1, match r.2 with
    | .inr b => b
    | .inl _ => none)

/-- Alone, `ActiveBinding()` returns after at most four accesses. -/
theorem active_returns (env : Env B) (m : Mem B) :
    (activeBinding env).alone 4 m (.inl .loadBinding) = ((active env m).1, .inr (active env m).2) := by
  suffices hret : ∃ b, ((activeBinding env).alone 4 m (.inl .loadBinding)).2 = .inr b by
    obtain ⟨b, hb⟩ := hret
    refine Prod.ext rfl ?_
    simp only [active, hb]
  cases hm : m .binding with
  | some b => exact ⟨some b, by simp [Code.alone, activeBinding, hm]⟩
  | none =>
      cases he : m .explicitlySet with
      | true => exact ⟨none, by simp [Code.alone, activeBinding, hm, he]⟩
      | false =>
          cases hd : env.defaultConsoleBinding with
          | none => exact ⟨none, by simp [Code.alone, activeBinding, hm, hd]⟩
          | some d => exact ⟨some d, by simp [Code.alone, activeBinding, hm, he, hd]⟩

/-- `InstallBinding(binding)`, with no other thread in between. -/
def install (env : Env B) (binding : Option B) (m : Mem B) : Mem B :=
  match enterInstall env binding with
  | .inr _ => m
  | .inl pc => (installBinding.alone 2 m (.inl pc)).1

/-- Where an event went. -/
inductive Delivery (B : Type)
  /-- To a binding, which resolves the source's id. -/
  | received (b : B) (source : EventSource) (resolved : Option String)
  /-- To stderr, with the source's own name. -/
  | stderr (source : EventSource)
  deriving DecidableEq, Repr

/-- The globals, the registry of each binding, the sources registered so far and
the events delivered. Which binding issued a source's id is a history variable. -/
structure World (B : Type) where
  mem : Mem B
  registry : B → List String
  sources : List (EventSource × Option B)
  delivered : List (Delivery B)

def World.init (B : Type) : World B where
  mem
    | .binding => (none : Option B)
    | .explicitlySet => false
  registry _ := []
  sources := []
  delivered := []

inductive Label (B : Type)
  | install (binding : Option B)
  | getEventSource (name : String)
  /-- An event of source `k`, by `EmitEvent` or `EmitEventDyn`. -/
  | emit (k : Nat) (sev : Severity)
  deriving DecidableEq, Repr

section

variable [DecidableEq B] (env : Env B) (shouldLog : B → Severity → Bool)

/-- What becomes of an event of this source. -/
def deliver (w : World B) (source : EventSource) (sev : Severity) : List (Delivery B) :=
  match (active env w.mem).2 with
  | some b =>
      if !shouldLog b sev then []
      else [.received b source (lookupSource (w.registry b) source.id)]
  | none => if sev.value ≥ Severity.kWarn.value then [.stderr source] else []

def step (w : World B) : Label B → Option (World B)
  | .install binding => some { w with mem := install env binding w.mem }
  | .getEventSource name =>
      let (m, b) := active env w.mem
      match b with
      | none => some { w with mem := m, sources := w.sources ++ [(⟨0, name⟩, none)] }
      | some b =>
          let (id, names) := internSource (w.registry b) name
          some { w with
            mem := m
            registry := Function.update w.registry b names
            sources := w.sources ++ [(⟨id, name⟩, some b)] }
  | .emit k sev => do
      let (source, _) ← w.sources[k]?
      some { w with
        mem := (active env w.mem).1
        delivered := w.delivered ++ deliver env shouldLog w source sev }

end

/-- The event carries its own source's name, or none. -/
def Delivery.Attributed : Delivery B → Prop
  | .received _ source resolved => resolved = none ∨ resolved = some source.name
  | .stderr _ => True

def World.Attributed (w : World B) : Prop := ∀ d ∈ w.delivered, d.Attributed

/-! ### What the calls say

The condition of the theorem below speaks of calls only: which binding each install made
active, and which names were registered while it was. Nothing here looks at a registry, at
an id or at what `LookupSource` returns. -/

/-- The calls so far: the binding they leave active, and the registrations made, each with
the binding that was active then. -/
structure Registrations (B : Type) where
  active : Option B
  made : List (String × Option B)
  deriving DecidableEq, Repr

namespace Registrations

/-- Before the first call the console binding is there to be adopted. -/
def init (env : Env B) : Registrations B := ⟨env.defaultConsoleBinding, []⟩

/-- An install of a table with the wrong version changes nothing. -/
def after (env : Env B) (h : Registrations B) : Label B → Registrations B
  | .install binding => if env.accepts binding then { h with active := binding } else h
  | .getEventSource name => { h with made := h.made ++ [(name, h.active)] }
  | .emit _ _ => h

variable [DecidableEq B]

/-- The distinct names registered while `b` was active, in first-come order. -/
def names (h : Registrations B) (b : B) : List String :=
  ((h.made.filter fun r => r.2 = some b).map Prod.fst).eraseDups

/-- An event of source `k` cannot be mistaken: if the active binding logs it and is not the
one the source was registered with, then either no more names were registered with the
active one than stand before the source's name at its own, or the same name has that place. -/
def Unmistaken (shouldLog : B → Severity → Bool) (h : Registrations B) (k : Nat)
    (sev : Severity) : Prop :=
  ∀ name issuer b, h.made[k]? = some (name, some issuer) → h.active = some b →
    shouldLog b sev = true → b ≠ issuer →
      (h.names b).length ≤ (h.names issuer).idxOf name ∨
        (h.names b)[(h.names issuer).idxOf name]? = some name

end Registrations

/-- The record of a list of calls. -/
def registrations (env : Env B) (ls : List (Label B)) : Registrations B :=
  ls.foldl (Registrations.after env) (.init env)

/-! ### Ids stay valid where they were issued

`InternSourceImpl` finds a name or appends it, so a registry is a list without repetitions
to which names are only added: the position of a name, once it has one, is for good. -/

/-- What is under the number of a position is what stands at the position. -/
theorem lookupSource_ofNat {names : List String} {i : Nat} (hi : i + 1 < 2 ^ 32) :
    lookupSource names (.ofNat (i + 1)) = names[i]? := by
  have hnat : (UInt32.ofNat (i + 1)).toNat = i + 1 := UInt32.toNat_ofNat_of_lt' hi
  have hne : UInt32.ofNat (i + 1) ≠ 0 := by
    intro h0
    rw [h0] at hnat
    exact absurd hnat (by simp)
  rw [lookupSource, if_neg hne, hnat, Nat.add_sub_cancel]
  split
  · next hlt => exact (List.getElem?_eq_none (by omega)).symm
  · rfl

theorem eraseDups_concat (xs : List String) (name : String) :
    (xs ++ [name]).eraseDups =
      if name ∈ xs.eraseDups then xs.eraseDups else xs.eraseDups ++ [name] := by
  rw [List.eraseDups_append]
  by_cases h : name ∈ xs
  · simp [List.removeAll, h]
  · simp [List.removeAll, h, List.eraseDups_cons]

/-- The registry after `InternSourceImpl`. -/
theorem internSource_names (names : List String) (name : String) :
    (internSource names name).2 = if name ∈ names then names else names ++ [name] := by
  unfold internSource
  split
  · next i hi =>
    obtain ⟨h, hname, -⟩ := List.findIdx?_eq_some_iff_getElem.mp hi
    rw [if_pos (beq_iff_eq.mp hname ▸ List.getElem_mem h)]
  · next hi =>
    rw [if_neg]
    intro hmem
    exact absurd (List.findIdx?_eq_none_iff.mp hi name hmem) (by simp)

/-- The id just issued is the position of the name, counted from one. -/
theorem internSource_id (names : List String) (name : String) :
    (internSource names name).1 = .ofNat ((internSource names name).2.idxOf name + 1) := by
  unfold internSource
  split
  · next i hi =>
    show UInt32.ofNat (i + 1) = .ofNat (names.idxOf name + 1)
    rw [List.idxOf, (List.findIdx?_eq_some_iff_findIdx_eq.mp hi).2]
  · next hi =>
    have hnot : name ∉ names := by
      intro hmem
      exact absurd (List.findIdx?_eq_none_iff.mp hi name hmem) (by simp)
    show UInt32.ofNat (names ++ [name]).length = .ofNat ((names ++ [name]).idxOf name + 1)
    rw [List.idxOf_append_of_notMem hnot, List.length_append]
    simp

/-! ### The record follows the run

The invariant. It has one field for each thing a delivery depends on, and each field says it
in terms of the calls. -/

/-- An install that is accepted decides what `ActiveBinding()` returns, one that is not
leaves it as it was. -/
theorem active_install (env : Env B) (binding : Option B) (m : Mem B) :
    (active env (install env binding m)).2 =
      if env.accepts binding then binding else (active env m).2 := by
  unfold install enterInstall
  cases env.accepts binding with
  | false => rfl
  | true =>
      cases binding with
      | none => simp [active, Code.alone, installBinding, activeBinding]
      | some b => simp [active, Code.alone, installBinding, activeBinding]

/-- To adopt the console binding does not change what the next call returns. -/
theorem active_active (env : Env B) (m : Mem B) :
    (active env (active env m).1).2 = (active env m).2 := by
  cases hm : m .binding with
  | some b => simp [active, Code.alone, activeBinding, hm]
  | none =>
      cases he : m .explicitlySet with
      | true => simp [active, Code.alone, activeBinding, hm, he]
      | false =>
          cases hd : env.defaultConsoleBinding with
          | none => simp [active, Code.alone, activeBinding, hm, hd]
          | some d => simp [active, Code.alone, activeBinding, hm, he, hd]

section

variable [DecidableEq B] {env : Env B} {shouldLog : B → Severity → Bool} {w w' : World B}
  {h : Registrations B} {l : Label B}

/-- The state is the one that the calls in the record lead to, as far as attribution goes:
the binding they leave active, their names in the registries, and for every source the
position of its name. -/
structure World.Recorded (env : Env B) (w : World B) (h : Registrations B) : Prop where
  active : (active env w.mem).2 = h.active
  registry : ∀ b, w.registry b = h.names b
  sources : w.sources.map (fun s => (s.1.name, s.2)) = h.made
  issued : ∀ source b, (source, some b) ∈ w.sources →
    source.name ∈ h.names b ∧ source.id = .ofNat ((h.names b).idxOf source.name + 1)
  anonymous : ∀ source, (source, none) ∈ w.sources → source.id = 0

theorem World.recorded_init : (World.init B).Recorded env (.init env) where
  active := by
    cases hd : env.defaultConsoleBinding with
    | none => simp [Sources.active, Code.alone, activeBinding, World.init, Registrations.init, hd]
    | some d => simp [Sources.active, Code.alone, activeBinding, World.init, Registrations.init, hd]
  registry _ := rfl
  sources := rfl
  issued _ _ hmem := by cases hmem
  anonymous _ hmem := by cases hmem

/-- A registration adds its name where it was made, if it is new there. -/
theorem Registrations.names_after (h : Registrations B) (name : String) (b : B) :
    (h.after env (.getEventSource name)).names b =
      if h.active = some b then
        if name ∈ h.names b then h.names b else h.names b ++ [name]
      else h.names b := by
  unfold Registrations.names Registrations.after
  rw [List.filter_append, List.map_append]
  by_cases hb : h.active = some b
  · simp only [hb, List.filter_cons, decide_true, if_true, List.filter_nil, List.map_cons,
      List.map_nil]
    exact eraseDups_concat _ _
  · simp [hb]

/-- Names are only added. So a name keeps its position, and an id what it stands for. -/
theorem Registrations.names_grow (env : Env B) (h : Registrations B) (l : Label B) (b : B) :
    ∃ more, (h.after env l).names b = h.names b ++ more := by
  cases l with
  | install binding =>
      refine ⟨[], ?_⟩
      simp only [Registrations.after, List.append_nil]
      split <;> rfl
  | getEventSource name =>
      rw [Registrations.names_after]
      split
      · split
        · exact ⟨[], (List.append_nil _).symm⟩
        · exact ⟨[name], rfl⟩
      · exact ⟨[], (List.append_nil _).symm⟩
  | emit k sev => exact ⟨[], (List.append_nil _).symm⟩

/-- What a step can do. -/
theorem step_cases (hstep : step env shouldLog w l = some w') :
    (∃ binding, l = .install binding ∧ w' = { w with mem := install env binding w.mem }) ∨
    (∃ name, l = .getEventSource name ∧ (active env w.mem).2 = none ∧
      w' = { w with mem := (active env w.mem).1, sources := w.sources ++ [(⟨0, name⟩, none)] }) ∨
    (∃ name b, l = .getEventSource name ∧ (active env w.mem).2 = some b ∧
      w' = { w with
        mem := (active env w.mem).1
        registry := Function.update w.registry b (internSource (w.registry b) name).2
        sources := w.sources ++ [(⟨(internSource (w.registry b) name).1, name⟩, some b)] }) ∨
    (∃ k sev source issuer, l = .emit k sev ∧ w.sources[k]? = some (source, issuer) ∧
      w' = { w with
        mem := (active env w.mem).1
        delivered := w.delivered ++ deliver env shouldLog w source sev }) := by
  cases l with
  | install binding => exact .inl ⟨binding, rfl, (Option.some.inj hstep).symm⟩
  | getEventSource name =>
      simp only [step] at hstep
      split at hstep
      · next hb => exact .inr (.inl ⟨name, rfl, hb, (Option.some.inj hstep).symm⟩)
      · next b hb => exact .inr (.inr (.inl ⟨name, b, rfl, hb, (Option.some.inj hstep).symm⟩))
  | emit k sev =>
      simp only [step, Option.bind_eq_bind, Option.bind_eq_some_iff] at hstep
      obtain ⟨⟨source, issuer⟩, hk, hw'⟩ := hstep
      exact .inr (.inr (.inr ⟨k, sev, source, issuer, rfl, hk, (Option.some.inj hw').symm⟩))

/-- A number issued before a call is the position of its name after it. -/
theorem World.Recorded.issued_after (hw : w.Recorded env h) (l : Label B)
    {source : EventSource} {b : B} (hmem : (source, some b) ∈ w.sources) :
    source.name ∈ (h.after env l).names b ∧
      source.id = .ofNat (((h.after env l).names b).idxOf source.name + 1) := by
  obtain ⟨hname, hid⟩ := hw.issued source b hmem
  obtain ⟨more, hmore⟩ := h.names_grow env l b
  rw [hmore, List.idxOf_append_of_mem hname]
  exact ⟨List.mem_append_left _ hname, hid⟩

/-- A source is registered, with the binding that is active or with none: its id and the
registries have to be those of the record. -/
theorem World.Recorded.register (hw : w.Recorded env h) {name : String} {id : UInt32} {m : Mem B}
    {registry : B → List String} (hactive : (Sources.active env m).2 = h.active)
    (hregistry : ∀ b, registry b = (h.after env (.getEventSource name)).names b)
    (hid : ∀ b, h.active = some b →
      id = .ofNat (((h.after env (.getEventSource name)).names b).idxOf name + 1))
    (hzero : h.active = none → id = 0) :
    World.Recorded env
      { w with
        mem := m
        registry := registry
        sources := w.sources ++ [(⟨id, name⟩, h.active)] }
      (h.after env (.getEventSource name)) where
  active := hactive
  registry := hregistry
  sources := by
    rw [List.map_append, hw.sources]
    rfl
  issued := fun source b hmem => by
    rcases List.mem_append.mp hmem with hmem | hmem
    · exact hw.issued_after _ hmem
    · obtain ⟨rfl, hb⟩ := Prod.mk.inj (List.mem_singleton.mp hmem)
      refine ⟨?_, hid b hb.symm⟩
      rw [Registrations.names_after, if_pos hb.symm]
      split
      · assumption
      · exact List.mem_append_right _ (List.mem_singleton.mpr rfl)
  anonymous := fun source hmem => by
    rcases List.mem_append.mp hmem with hmem | hmem
    · exact hw.anonymous source hmem
    · obtain ⟨rfl, hnone⟩ := Prod.mk.inj (List.mem_singleton.mp hmem)
      exact hzero hnone.symm

/-- The step lemma: the record of the calls stays the record of the state. -/
theorem World.Recorded.step (hw : w.Recorded env h)
    (hstep : step env shouldLog w l = some w') : w'.Recorded env (h.after env l) := by
  rcases step_cases hstep with ⟨binding, rfl, rfl⟩ | ⟨name, rfl, hb, rfl⟩ | ⟨name, b, rfl, hb, rfl⟩ |
    ⟨k, sev, source, issuer, rfl, hk, rfl⟩
  · exact
      { active := by
          rw [active_install, hw.active, Registrations.after]
          split <;> rfl
        registry := fun b => by
          rw [hw.registry b, Registrations.after]
          split <;> rfl
        sources := by
          rw [hw.sources, Registrations.after]
          split <;> rfl
        issued := fun _ _ hmem => hw.issued_after _ hmem
        anonymous := hw.anonymous }
  · have hnone : h.active = none := hw.active.symm.trans hb
    have hregistry (b : B) : w.registry b = (h.after env (.getEventSource name)).names b := by
      rw [Registrations.names_after, if_neg (by rw [hnone]; exact nofun)]
      exact hw.registry b
    rw [← hnone]
    exact hw.register ((active_active env w.mem).trans hw.active) hregistry
      (fun b hb => by rw [hnone] at hb; cases hb) fun _ => rfl
  · have hsome : h.active = some b := hw.active.symm.trans hb
    have hnames : (internSource (w.registry b) name).2 =
        (h.after env (.getEventSource name)).names b := by
      rw [internSource_names, Registrations.names_after, if_pos hsome, hw.registry b]
    have hregistry (b' : B) : Function.update w.registry b (internSource (w.registry b) name).2 b' =
        (h.after env (.getEventSource name)).names b' := by
      by_cases hb' : b' = b
      · subst hb'
        exact (Function.update_self ..).trans hnames
      · rw [Registrations.names_after, if_neg (by rw [hsome]; exact fun h => hb' (Option.some.inj h).symm)]
        exact (Function.update_of_ne hb' ..).trans (hw.registry b')
    have hid (b' : B) (hb' : h.active = some b') : (internSource (w.registry b) name).1 =
        .ofNat (((h.after env (.getEventSource name)).names b').idxOf name + 1) := by
      obtain rfl := Option.some.inj (hsome.symm.trans hb')
      rw [internSource_id, hnames]
    rw [← hsome]
    exact hw.register ((active_active env w.mem).trans hw.active) hregistry hid
      fun hnone => by rw [hsome] at hnone; cases hnone
  · exact
      { active := (active_active env w.mem).trans hw.active
        registry := hw.registry
        sources := hw.sources
        issued := hw.issued
        anonymous := hw.anonymous }

/-- **What the calls decide**: after every run the registry of each binding is the list of
the distinct names that were registered while it was active, in first-come order, and the
id of a source is the place of its name there, counted from one. -/
theorem run_recorded {ls : List (Label B)}
    (hrun : Run.exec (step env shouldLog) (World.init B) ls = some w) :
    w.Recorded env (registrations env ls) :=
  Run.exec_recorded (R := World.Recorded env) (f := Registrations.after env)
    World.Recorded.step World.recorded_init hrun

/-! ### Attribution -/

/-- No binding has been told of 2^32 names: then no id is cut to 32 bits. -/
def Registrations.Bounded (h : Registrations B) : Prop := ∀ b, (h.names b).length < 2 ^ 32

theorem Registrations.Bounded.before (hbound : (h.after env l).Bounded) : h.Bounded := by
  intro b
  obtain ⟨more, hmore⟩ := h.names_grow env l b
  have hlt := hbound b
  rw [hmore, List.length_append] at hlt
  omega

/-- The name that a binding finds under the id of a source, read off the record. -/
theorem World.Recorded.lookupSource_eq (hw : w.Recorded env h) (hbound : h.Bounded)
    {source : EventSource} {issuer : B} (hmem : (source, some issuer) ∈ w.sources) (b : B) :
    lookupSource (w.registry b) source.id =
      (h.names b)[(h.names issuer).idxOf source.name]? := by
  obtain ⟨hname, hid⟩ := hw.issued source issuer hmem
  have hlt := List.idxOf_lt_length_of_mem hname
  have hlen := hbound issuer
  rw [hid, hw.registry b, lookupSource_ofNat (by omega)]

/-- An event of a source is attributed exactly when it cannot be mistaken. -/
theorem deliver_attributed_iff (hw : w.Recorded env h) (hbound : h.Bounded) {k : Nat}
    {sev : Severity} {source : EventSource} {issuer : Option B}
    (hk : w.sources[k]? = some (source, issuer)) :
    (∀ d ∈ deliver env shouldLog w source sev, d.Attributed) ↔ h.Unmistaken shouldLog k sev := by
  have hmade : h.made[k]? = some (source.name, issuer) := by
    rw [← hw.sources, List.getElem?_map, hk, Option.map_some]
  have hmem : (source, issuer) ∈ w.sources := List.mem_of_getElem? hk
  unfold deliver Registrations.Unmistaken
  rw [hmade, hw.active]
  cases h.active with
  | none =>
      refine ⟨fun _ _ _ _ _ hactive => (by cases hactive), fun _ d hd => ?_⟩
      simp only at hd
      split at hd
      · rw [List.mem_singleton.mp hd]
        trivial
      · cases hd
  | some b =>
      cases hlog : shouldLog b sev with
      | false =>
          refine ⟨fun _ _ _ b' _ hactive hlog' => ?_, fun _ d hd => ?_⟩
          · obtain rfl := Option.some.inj hactive
            rw [hlog] at hlog'
            cases hlog'
          · simp [hlog] at hd
      | true =>
          simp only [hlog, Bool.not_true, Bool.false_eq_true, if_false, List.mem_singleton,
            forall_eq, Delivery.Attributed]
          cases issuer with
          | none =>
              -- the id 0 is nobody's
              refine ⟨fun _ _ _ _ hissuer => (by cases hissuer), fun _ => .inl ?_⟩
              rw [hw.anonymous source hmem, lookupSource, if_pos rfl]
          | some issuer =>
              rw [hw.lookupSource_eq hbound hmem b, List.getElem?_eq_none_iff]
              constructor
              · intro hattr name issuer' b' hsource hactive _ _
                obtain ⟨rfl, hissuer⟩ := Prod.mk.inj (Option.some.inj hsource)
                obtain rfl := Option.some.inj hissuer
                obtain rfl := Option.some.inj hactive
                exact hattr
              · intro hmistaken
                by_cases hb : b = issuer
                · -- the binding that issued the id still knows the source by it
                  subst hb
                  exact .inr (List.getElem?_idxOf (hw.issued source b hmem).1)
                · exact hmistaken source.name issuer b rfl rfl hlog hb

/-- What the record must say before a call. -/
def Registrations.Admits (shouldLog : B → Severity → Bool) (h : Registrations B) :
    Label B → Prop
  | .install _ | .getEventSource _ => True
  | .emit k sev => h.Unmistaken shouldLog k sev

theorem step_attributed_iff (hbound : (h.after env l).Bounded) (hw : w.Recorded env h)
    (hattr : w.Attributed) (hstep : step env shouldLog w l = some w') :
    w'.Attributed ↔ h.Admits shouldLog l := by
  rcases step_cases hstep with ⟨_, rfl, rfl⟩ | ⟨_, rfl, _, rfl⟩ | ⟨_, _, rfl, _, rfl⟩ |
    ⟨k, sev, source, issuer, rfl, hk, rfl⟩
  · exact ⟨fun _ => trivial, fun _ => hattr⟩
  · exact ⟨fun _ => trivial, fun _ => hattr⟩
  · exact ⟨fun _ => trivial, fun _ => hattr⟩
  · refine Iff.trans ?_ (deliver_attributed_iff hw hbound.before hk)
    constructor
    · exact fun hall d hd => hall d (List.mem_append_right _ hd)
    · intro hnew d hd
      rcases List.mem_append.mp hd with hd | hd
      · exact hattr d hd
      · exact hnew d hd

/-- **Attribution survives rebinding exactly in the runs in which no event can be
mistaken**: whenever one is logged by another binding than its source's, no more names
were registered there than stand before the source's at its own binding, or the same name
has that place (as long as no binding has been told of 2^32 names). -/
theorem attribution_survives_iff {ls : List (Label B)}
    (hrun : Run.exec (step env shouldLog) (World.init B) ls = some w)
    (hbound : ∀ b, ((registrations env ls).names b).length < 2 ^ 32) :
    Run.Along (step env shouldLog) World.Attributed (World.init B) ls ↔
      ∀ past k sev rest, ls = past ++ .emit k sev :: rest →
        (registrations env past).Unmistaken shouldLog k sev := by
  have hiff := Run.along_iff_recorded (B := Registrations.Bounded)
    (C := Registrations.Admits shouldLog) Registrations.Bounded.before World.Recorded.step
    step_attributed_iff World.recorded_init nofun hrun hbound
  refine hiff.trans ⟨fun h past k sev rest hls => h past _ rest hls, fun h past l rest hls => ?_⟩
  cases l with
  | install binding => trivial
  | getEventSource name => trivial
  | emit k sev => exact h past k sev rest hls

end

/-- A source of the console binding whose name the SDK has at the same place. -/
theorem attribution_survives_namesake :
    ∃ w, Run.exec (step consoleAndSdk fun _ _ => true) (World.init Bool)
        [.getEventSource "imu", .install (some true), .getEventSource "imu", .emit 0 .kInfo] =
          some w ∧
      Run.Along (step consoleAndSdk fun _ _ => true) World.Attributed (World.init Bool)
        [.getEventSource "imu", .install (some true), .getEventSource "imu", .emit 0 .kInfo] := by
  have hrun : ∃ w, Run.exec (step consoleAndSdk fun _ _ => true) (World.init Bool)
      [.getEventSource "imu", .install (some true), .getEventSource "imu", .emit 0 .kInfo] =
        some w ∧ w.delivered = [.received true ⟨1, "imu"⟩ (some "imu")] :=
    Run.exists_exec (by decide +kernel)
  obtain ⟨w, hw, -⟩ := hrun
  refine ⟨w, hw, (attribution_survives_iff hw (by decide +kernel)).mpr ?_⟩
  intro past k sev rest hls
  obtain ⟨rfl, rfl⟩ : past = [.getEventSource "imu", .install (some true),
      .getEventSource "imu"] ∧ k = 0 := by
    rcases past with _ | ⟨_, _ | ⟨_, _ | ⟨_, _ | ⟨_, _⟩⟩⟩⟩
    · cases hls
    · cases hls
    · cases hls
    · cases hls
      exact ⟨rfl, rfl⟩
    · simp at hls
  intro name issuer b hmade hactive _ _
  obtain ⟨rfl, hissuer⟩ := Prod.mk.inj (Option.some.inj hmade)
  obtain rfl := Option.some.inj hissuer
  obtain rfl := Option.some.inj hactive
  exact .inr (by decide +kernel)

/-- The console binding registers `imu`; then an SDK is installed that registers
`motor` first. -/
def rebound : List (Label Bool) :=
  [.getEventSource "imu", .install (some true), .getEventSource "motor"]

/-- The event of `imu` reaches the SDK under the number of `motor`. -/
theorem attribution_lost_foreign :
    ∃ w, Run.exec (step consoleAndSdk fun _ _ => true) (World.init Bool)
        (rebound ++ [.emit 0 .kInfo]) = some w ∧
      w.delivered = [.received true ⟨1, "imu"⟩ (some "motor")] ∧ ¬ w.Attributed := by
  have hrun : ∃ w, Run.exec (step consoleAndSdk fun _ _ => true) (World.init Bool)
      (rebound ++ [.emit 0 .kInfo]) = some w ∧
      w.delivered = [.received true ⟨1, "imu"⟩ (some "motor")] :=
    Run.exists_exec (by decide +kernel)
  obtain ⟨w, hw, hdelivered⟩ := hrun
  refine ⟨w, hw, hdelivered, fun h => ?_⟩
  have hattr := h _ (hdelivered ▸ List.mem_singleton.mpr rfl)
  rcases hattr with hattr | hattr
  · cases hattr
  · exact absurd (Option.some.inj hattr) (by decide)

end XmBase.Telemetry.Sources
