import XmBase.Lib.Bytes
import XmBase.Lib.Run
import XmBase.Lib.Word
import XmBase.Telemetry.Ids
/-!
# XmBase.Telemetry.Propagation

Traces across threads (`telemetry/context.hpp`, `telemetry/span.hpp`, as the worker pool of
`examples/worker_pool_context_example.cpp` and the pipeline of
`examples/trace_pipeline_example.cpp` use them). Every thread has its own current context
and its own id generator. All that goes from one thread to another are envelopes: 24 bytes,
which may arrive cut short.

A thread that takes an envelope guards its context, and everything below nests. Then
**what the threads record together are trees**: from every span the parents, on whichever
threads, lead through older spans of its own trace to a root
(`records_rooted`). **A thread with no open scope has no context** to carry into its
next task (`no_residue`).
-/

namespace XmBase.Telemetry.Propagation

/-! ### Envelopes

The two functions of `context.hpp` and their round trip. An envelope that was cut is no
context at all, rather than a part of one. -/

/-- The zero `Context`. -/
def noContext : Context := ⟨⟨0, 0⟩, ⟨0⟩⟩

def kContextWireSize : Nat := 24

/-- `Inject`. -/
def inject (ctx : Context) : List UInt8 :=
  Bytes.wordBytes ctx.trace.hi ++ Bytes.wordBytes ctx.trace.lo ++ Bytes.wordBytes ctx.span.value

/-- `Extract`, of the bytes at a pointer if it is not null. -/
def extract : Option (List UInt8) → Context
  | none => noContext
  | some bytes =>
      if bytes.length < kContextWireSize then noContext
      else
        ⟨⟨Bytes.ofWordBytes (bytes.take 8), Bytes.ofWordBytes ((bytes.drop 8).take 8)⟩,
          ⟨Bytes.ofWordBytes ((bytes.drop 16).take 8)⟩⟩

theorem length_inject (ctx : Context) : (inject ctx).length = kContextWireSize := by
  simp [inject, kContextWireSize]

/-- **What is injected is extracted**, whatever comes behind it. -/
theorem extract_inject (ctx : Context) (rest : List UInt8) :
    extract (some (inject ctx ++ rest)) = ctx := by
  have hlen : ¬ (inject ctx ++ rest).length < kContextWireSize := by
    rw [List.length_append, length_inject]
    omega
  rw [extract, if_neg hlen]
  simp only [inject, List.append_assoc]
  rw [List.take_left' (Bytes.length_wordBytes _), List.drop_left' (Bytes.length_wordBytes _),
    List.take_left' (Bytes.length_wordBytes _), ← List.append_assoc,
    List.drop_left' (by simp), List.take_left' (Bytes.length_wordBytes _)]
  simp

/-- An envelope that was cut short is none. Its length is tested before anything is read. -/
theorem extract_take (ctx : Context) (n : Nat) :
    extract (some ((inject ctx).take n)) = if n < kContextWireSize then noContext else ctx := by
  split
  · next hn =>
    rw [extract, if_pos]
    rw [List.length_take, length_inject]
    omega
  · next hn =>
    rw [List.take_of_length_le (by rw [length_inject]; omega)]
    simpa using extract_inject ctx []

/-! ### The system

Threads that open and close scopes and pass envelopes to each other. An envelope can be
taken by any thread at any later time, cut to any length, and more than once. -/

/-- An open scope, with the context it has made current. -/
inductive Scope
  | span (s : Span) (own : Context)
  | guard (saved inner : Context)
  deriving DecidableEq, Repr

/-- A thread: its current context, its id generator, its open scopes. -/
structure Local where
  current : Context
  ids : UInt64
  scopes : List Scope
  deriving DecidableEq, Repr

/-- The threads, the envelopes on their way and the records. `minted` has the contexts that
were made so far, each with its parent. -/
structure World (ι : Type) where
  threads : ι → Local
  mailbox : List (List UInt8)
  minted : List (Context × SpanId)
  records : List SpanRecord

/-- What a thread does; `now` is what its clock says. -/
inductive Label (ι : Type)
  /-- `ContextGuard g(NewTrace())`. -/
  | newTrace (i : ι)
  /-- `ContextGuard g(Extract(..))` of the first `len` bytes of an envelope. -/
  | guard (i : ι) (k len : Nat)
  | closeGuard (i : ι)
  | span (i : ι) (name : String) (now : Int)
  /-- `AddLink(Extract(..))` on the span that `depth` scopes are nested in. -/
  | addLink (i : ι) (depth k len : Nat)
  /-- `~Span`; `bound` says whether a binding is active. -/
  | closeSpan (i : ι) (bound : Bool) (now : Int)
  /-- `Inject(CurrentContext())` into an envelope. -/
  | submit (i : ι)
  deriving DecidableEq, Repr

/-- Link a span. -/
def Scope.addLink (link : Context) : Scope → Scope
  | .span s own => .span (s.addLink link) own
  | scope => scope

variable {ι : Type} [DecidableEq ι]

/-- The context in an envelope. -/
def World.received (w : World ι) (k len : Nat) : Context :=
  extract (w.mailbox[k]?.map fun bytes => bytes.take len)

def World.set (w : World ι) (i : ι) (l : Local) : World ι :=
  { w with threads := Function.update w.threads i l }

def World.step (w : World ι) : Label ι → Option (World ι)
  | .newTrace i =>
      let l := w.threads i
      let made := Telemetry.newTrace l.ids
      some { w.set i ⟨made.1, made.2, .guard l.current made.1 :: l.scopes⟩ with
        minted := w.minted ++ [(made.1, ⟨0⟩)] }
  | .guard i k len =>
      let l := w.threads i
      let ctx := w.received k len
      some (w.set i ⟨ctx, l.ids, .guard l.current ctx :: l.scopes⟩)
  | .closeGuard i =>
      let l := w.threads i
      match l.scopes with
      | .guard saved _ :: scopes => some (w.set i ⟨saved, l.ids, scopes⟩)
      | _ => none
  | .span i name now =>
      let l := w.threads i
      let made := begin l.current l.ids
      let s : Span := ⟨name, now, l.current, made.2.1, []⟩
      some { w.set i ⟨made.1, made.2.2, .span s made.1 :: l.scopes⟩ with
        minted := w.minted ++ [(made.1, made.2.1)] }
  | .addLink i depth k len =>
      let l := w.threads i
      some (w.set i { l with scopes := l.scopes.modify depth (Scope.addLink (w.received k len)) })
  | .closeSpan i bound now =>
      let l := w.threads i
      match l.scopes with
      | .span s _ :: scopes =>
          some { w.set i ⟨s.saved, l.ids, scopes⟩ with
            records := if bound then
                w.records ++ [⟨s.name, l.current, s.parent, s.beginTime, now, s.links⟩]
              else w.records }
      | _ => none
  | .submit i => some { w with mailbox := w.mailbox ++ [inject (w.threads i).current] }

/-- Threads with their generators seeded. -/
def World.init (seed : ι → UInt64) : World ι where
  threads := fun i => ⟨noContext, seed i, []⟩
  mailbox := []
  minted := []
  records := []

def World.run (seed : ι → UInt64) (ls : List (Label ι)) : Option (World ι) :=
  Run.exec World.step (World.init seed) ls

/-! ### The invariant

Two things in one. Per thread, the open scopes nest, which is what restores the context.
Over all threads, everything that is current, saved, on its way or linked was made by
somebody, and what was made has its parent further up in the list. The age of a context, its
place in that list, is what makes the parents end. -/

/-- A context that was made by some thread, or none. -/
def Known (minted : List (Context × SpanId)) (ctx : Context) : Prop :=
  ctx = noContext ∨ ∃ parent, (ctx, parent) ∈ minted

/-- A link leads to a context that was made. -/
def Linked (minted : List (Context × SpanId)) (links : List Context) : Prop :=
  links.length ≤ kMaxSpanLinks ∧ ∀ link ∈ links, ∃ parent, (link, parent) ∈ minted

/-- What holds of an open scope. -/
def Scope.Good (minted : List (Context × SpanId)) : Scope → Prop
  | .span s own => (own, s.parent) ∈ minted ∧ Linked minted s.links
  | .guard _ inner => Known minted inner

/-- The scopes nest: each has saved what the one around it made current. -/
def Nest : Context → List Scope → Prop
  | ctx, [] => ctx = noContext
  | ctx, .span s own :: scopes => ctx = own ∧ Nest s.saved scopes
  | ctx, .guard saved inner :: scopes => ctx = inner ∧ Nest saved scopes

/-- The `n`-th context that was made is a root, or it has an older parent in its trace. Zero
is no span's id, so a parent of zero says that there is none. -/
def Parented (minted : List (Context × SpanId)) (n : Nat) (ctx : Context) (parent : SpanId) : Prop :=
  parent = ⟨0⟩ ∨ ∃ m < n, ∃ grandparent, minted[m]? = some (⟨ctx.trace, parent⟩, grandparent)

/-- The invariant of the system: scopes nest and hold contexts that were made, so do the
envelopes, and every context that was made has a valid trace and an older parent, or none. -/
structure Inv (w : World ι) : Prop where
  nest : ∀ i, Nest (w.threads i).current (w.threads i).scopes
  scopes : ∀ i, ∀ scope ∈ (w.threads i).scopes, scope.Good w.minted
  mailbox : ∀ bytes ∈ w.mailbox, ∃ ctx, Known w.minted ctx ∧ bytes = inject ctx
  valid : ∀ e ∈ w.minted, e.1.trace.valid = true
  parented : ∀ n ctx parent, w.minted[n]? = some (ctx, parent) →
    Parented w.minted n ctx parent
  records : ∀ r ∈ w.records, (r.ctx, r.parent) ∈ w.minted ∧ Linked w.minted r.links

variable {w w' : World ι} {l : Label ι} {i : ι} {minted minted' : List (Context × SpanId)}

/-! ### What is known stays known

The list of what was made only grows, so all of it is stable, and what a thread receives is
known because what was sent is. -/

theorem Known.mono {ctx : Context} (h : Known minted ctx) (hm : minted <+: minted') :
    Known minted' ctx :=
  h.imp_right fun ⟨parent, hmem⟩ => ⟨parent, hm.mem hmem⟩

theorem Linked.mono {links : List Context} (h : Linked minted links) (hm : minted <+: minted') :
    Linked minted' links :=
  ⟨h.1, fun link hlink => (h.2 link hlink).imp fun _ hmem => hm.mem hmem⟩

theorem Scope.Good.mono {scope : Scope} (h : scope.Good minted) (hm : minted <+: minted') :
    scope.Good minted' := by
  cases scope with
  | span s own => exact ⟨hm.mem h.1, h.2.mono hm⟩
  | guard saved inner => exact Known.mono h hm

theorem Parented.mono {n : Nat} {ctx : Context} {parent : SpanId}
    (h : Parented minted n ctx parent) (hm : minted <+: minted') :
    Parented minted' n ctx parent := by
  refine h.imp_right ?_
  rintro ⟨m, hlt, q, hget⟩
  exact ⟨m, hlt, q, Word.getElem?_of_prefix hm hget⟩

omit [DecidableEq ι] in
/-- The current context of a thread is known. It is the innermost scope's, or there is none. -/
theorem Inv.known (hw : Inv w) (i : ι) : Known w.minted (w.threads i).current := by
  have hnest := hw.nest i
  have hgood := hw.scopes i
  cases hs : (w.threads i).scopes with
  | nil =>
      rw [hs] at hnest
      exact .inl hnest
  | cons scope scopes =>
      rw [hs] at hnest hgood
      have hscope := hgood scope List.mem_cons_self
      cases scope with
      | span s own =>
          rw [hnest.1]
          exact .inr ⟨s.parent, hscope.1⟩
      | guard saved inner =>
          rw [hnest.1]
          exact hscope

omit [DecidableEq ι] in
/-- So is what an envelope holds, whole or not. -/
theorem Inv.received (hw : Inv w) (k len : Nat) : Known w.minted (w.received k len) := by
  unfold World.received
  cases hk : w.mailbox[k]? with
  | none => exact .inl rfl
  | some bytes =>
      obtain ⟨ctx, hctx, rfl⟩ := hw.mailbox bytes (List.mem_of_getElem? hk)
      rw [Option.map_some, extract_take]
      split
      · exact .inl rfl
      · exact hctx

theorem noContext_invalid : noContext.trace.valid = false := by decide

/-- A link that is kept was made by somebody. -/
theorem Linked.addLink {s : Span} {link : Context} (h : Linked minted s.links)
    (hlink : Known minted link) : Linked minted (s.addLink link).links := by
  unfold Span.addLink
  split
  · next hkeep =>
    obtain ⟨hlt, hvalid⟩ := Bool.and_eq_true_iff.mp hkeep
    have hlt := of_decide_eq_true hlt
    obtain rfl | ⟨parent, hmem⟩ := hlink
    · cases noContext_invalid.symm.trans hvalid
    · refine ⟨by rw [List.length_append, List.length_singleton]; omega, ?_⟩
      intro x hx
      rcases List.mem_append.mp hx with hx | hx
      · exact h.2 x hx
      · obtain rfl := List.mem_singleton.mp hx
        exact ⟨parent, hmem⟩
  · exact h

theorem newTrace_valid (ids : UInt64) : (Telemetry.newTrace ids).1.trace.valid = true := by
  have hrun := run_newTrace ids
  simp only [Minting.run, Prod.mk.injEq, Option.some.injEq] at hrun
  rw [hrun.1]
  exact valid_of_hi_ne_zero (nthId_ne_zero ids 0)

theorem begin_valid (ctx : Context) (ids : UInt64) : (begin ctx ids).1.trace.valid = true := by
  cases hvalid : ctx.trace.valid with
  | true =>
      simpa only [begin_child hvalid] using hvalid
  | false =>
      rw [begin_root hvalid]
      exact valid_of_hi_ne_zero (nthId_ne_zero ids 0)

/-- A span is a root, or the child of the context it begins in. -/
theorem begin_parent (ctx : Context) (ids : UInt64) :
    (begin ctx ids).2.1 = ⟨0⟩ ∨
      ctx.trace.valid = true ∧ Context.mk (begin ctx ids).1.trace (begin ctx ids).2.1 = ctx := by
  cases hvalid : ctx.trace.valid with
  | true =>
      simp only [begin_child hvalid, true_and]
      exact .inr trivial
  | false =>
      rw [begin_root hvalid]
      exact .inl rfl

/-- The parent of a new span, under a context that is known. -/
theorem begin_parented {ctx : Context} (h : Known minted ctx) (ids : UInt64) :
    Parented minted minted.length (begin ctx ids).1 (begin ctx ids).2.1 := by
  refine (begin_parent ctx ids).imp_right ?_
  rintro ⟨hvalid, heq⟩
  rcases h with hnone | ⟨parent, hmem⟩
  · rw [hnone, noContext_invalid] at hvalid
    cases hvalid
  · obtain ⟨m, hget⟩ := List.getElem?_of_mem hmem
    have hlt := (List.getElem?_eq_some_iff.mp hget).1
    exact ⟨m, hlt, parent, hget.trans (congrArg (fun c => some (c, parent)) heq.symm)⟩

/-! ### Every step -/

/-- A thread moves, and perhaps makes a context. -/
theorem Inv.set (hw : Inv w) {t : Local} {more : List (Context × SpanId)}
    (hnest : Nest t.current t.scopes)
    (hscopes : ∀ scope ∈ t.scopes, scope.Good (w.minted ++ more))
    (hvalid : ∀ e ∈ more, e.1.trace.valid = true)
    (hparented : ∀ n ctx parent, (w.minted ++ more)[n]? = some (ctx, parent) →
      w.minted.length ≤ n → Parented (w.minted ++ more) n ctx parent) :
    Inv { w.set i t with minted := w.minted ++ more } := by
  have hm : w.minted <+: w.minted ++ more := List.prefix_append _ _
  refine ⟨?_, ?_, ?_, ?_, ?_, ?_⟩
  · intro j
    by_cases hj : j = i
    · subst hj
      simpa only [World.set, Function.update_self] using hnest
    · simpa only [World.set, Function.update_of_ne hj] using hw.nest j
  · intro j scope hscope
    by_cases hj : j = i
    · subst hj
      simp only [World.set, Function.update_self] at hscope
      exact hscopes scope hscope
    · simp only [World.set, Function.update_of_ne hj] at hscope
      exact (hw.scopes j scope hscope).mono hm
  · intro bytes hbytes
    obtain ⟨ctx, hctx, rfl⟩ := hw.mailbox bytes hbytes
    exact ⟨ctx, hctx.mono hm, rfl⟩
  · intro e he
    exact (List.mem_append.mp he).elim (hw.valid e) (hvalid e)
  · intro n ctx parent hget
    rcases Nat.lt_or_ge n w.minted.length with hlt | hge
    · rw [List.getElem?_append_left hlt] at hget
      exact (hw.parented n ctx parent hget).mono hm
    · exact hparented n ctx parent hget hge
  · intro r hr
    exact ⟨hm.mem (hw.records r hr).1, (hw.records r hr).2.mono hm⟩

/-- One more context, made under a parent. It is the youngest, so its parent is older. -/
theorem parented_concat {ctx : Context} {parent : SpanId}
    (h : Parented minted minted.length ctx parent) {n : Nat} {c : Context} {p : SpanId}
    (hget : (minted ++ [(ctx, parent)])[n]? = some (c, p)) (hn : minted.length ≤ n) :
    Parented (minted ++ [(ctx, parent)]) n c p := by
  rw [List.getElem?_append_right hn, List.getElem?_singleton] at hget
  split at hget
  · next hzero =>
    obtain ⟨rfl, rfl⟩ := Prod.mk.inj (Option.some.inj hget)
    obtain rfl : n = minted.length := by omega
    exact h.mono (List.prefix_append _ _)
  · cases hget

/-- A thread that makes no context. -/
theorem Inv.moves (hw : Inv w) {t : Local} (hnest : Nest t.current t.scopes)
    (hscopes : ∀ scope ∈ t.scopes, scope.Good w.minted) : Inv (w.set i t) := by
  have hnone : ∀ n ctx parent, (w.minted ++ [])[n]? = some (ctx, parent) →
      w.minted.length ≤ n → Parented (w.minted ++ []) n ctx parent := by
    intro n ctx parent hget hge
    rw [List.append_nil] at hget
    have := (List.getElem?_eq_some_iff.mp hget).1
    omega
  have hset := hw.set (i := i) hnest (by simpa using hscopes) (by simp) hnone
  simp only [List.append_nil] at hset
  exact hset

/-- A scope is opened on a context that was just made. -/
theorem Inv.opens (hw : Inv w) {t : Local} {scope : Scope} {ctx : Context} {parent : SpanId}
    (ht : t.scopes = scope :: (w.threads i).scopes) (hnest : Nest t.current t.scopes)
    (hgood : scope.Good (w.minted ++ [(ctx, parent)])) (hvalid : ctx.trace.valid = true)
    (hparented : Parented w.minted w.minted.length ctx parent) :
    Inv { w.set i t with minted := w.minted ++ [(ctx, parent)] } := by
  refine hw.set hnest ?_ ?_ (fun n c p => parented_concat hparented)
  · intro s hs
    rw [ht] at hs
    rcases List.mem_cons.mp hs with rfl | hs
    · exact hgood
    · exact (hw.scopes i s hs).mono (List.prefix_append _ _)
  · intro e he
    obtain rfl := List.mem_singleton.mp he
    exact hvalid

/-- The innermost scope is closed. What it has saved is what the scope around it made
current. -/
theorem Inv.closes (hw : Inv w) {scope : Scope} {t : Local}
    (hs : (w.threads i).scopes = scope :: t.scopes) (hnest : Nest t.current t.scopes) :
    Inv (w.set i t) := by
  have hscopes := hw.scopes i
  rw [hs] at hscopes
  exact hw.moves hnest fun s hmem => hscopes s (List.mem_cons_of_mem _ hmem)

theorem Span.addLink_fixed (s : Span) (link : Context) :
    (s.addLink link).saved = s.saved ∧ (s.addLink link).parent = s.parent := by
  unfold Span.addLink
  split <;> exact ⟨rfl, rfl⟩

theorem Nest.addLink {ctx link : Context} {scopes : List Scope} (h : Nest ctx scopes) (depth : Nat) :
    Nest ctx (scopes.modify depth (Scope.addLink link)) := by
  induction scopes generalizing ctx depth with
  | nil => simpa using h
  | cons scope scopes ih =>
      cases depth with
      | zero =>
          rw [List.modify_zero_cons]
          cases scope with
          | span s own =>
              refine ⟨h.1, ?_⟩
              rw [(Span.addLink_fixed s link).1]
              exact h.2
          | guard saved inner => exact h
      | succ depth =>
          rw [List.modify_succ_cons]
          cases scope with
          | span s own => exact ⟨h.1, ih h.2 depth⟩
          | guard saved inner => exact ⟨h.1, ih h.2 depth⟩

theorem good_addLink {scopes : List Scope} {link : Context}
    (h : ∀ scope ∈ scopes, scope.Good minted) (hlink : Known minted link) (depth : Nat) :
    ∀ scope ∈ scopes.modify depth (Scope.addLink link), scope.Good minted := by
  intro scope hscope
  obtain ⟨n, hget⟩ := List.getElem?_of_mem hscope
  rw [List.getElem?_modify] at hget
  obtain ⟨old, hold, rfl⟩ := Option.map_eq_some_iff.mp hget
  have hgood := h old (List.mem_of_getElem? hold)
  split
  · cases old with
    | span s own =>
        refine ⟨?_, hgood.2.addLink hlink⟩
        rw [(Span.addLink_fixed s _).2]
        exact hgood.1
    | guard saved inner => exact hgood
  · exact hgood

/-- **Every step keeps the invariant.** -/
theorem Inv.step (hw : Inv w) (h : w.step l = some w') : Inv w' := by
  cases l with
  | newTrace i =>
      obtain rfl := Option.some.inj h
      exact hw.opens rfl ⟨rfl, hw.nest i⟩
        (.inr ⟨⟨0⟩, List.mem_append_right _ (List.mem_singleton_self _)⟩) (newTrace_valid _) (.inl rfl)
  | guard i k len =>
      obtain rfl := Option.some.inj h
      refine hw.moves ⟨rfl, hw.nest i⟩ ?_
      intro scope hscope
      rcases List.mem_cons.mp hscope with rfl | hscope
      · exact hw.received k len
      · exact hw.scopes i scope hscope
  | closeGuard i =>
      simp only [World.step] at h
      split at h
      · next saved inner scopes hs =>
        obtain rfl := Option.some.inj h
        have hnest := hw.nest i
        rw [hs] at hnest
        exact hw.closes hs hnest.2
      · cases h
  | span i name now =>
      obtain rfl := Option.some.inj h
      have hparented := begin_parented (hw.known i) (w.threads i).ids
      exact hw.opens rfl ⟨rfl, hw.nest i⟩
        ⟨List.mem_append_right _ (List.mem_singleton_self _), Nat.zero_le _, by simp⟩
        (begin_valid _ _) hparented
  | addLink i depth k len =>
      obtain rfl := Option.some.inj h
      exact hw.moves ((hw.nest i).addLink depth)
        (good_addLink (hw.scopes i) (hw.received k len) depth)
  | closeSpan i bound now =>
      simp only [World.step] at h
      split at h
      · next s own scopes hs =>
        obtain rfl := Option.some.inj h
        have hnest := hw.nest i
        rw [hs] at hnest
        obtain ⟨hown, hlinks⟩ := hw.scopes i (.span s own) (by rw [hs]; exact List.mem_cons_self)
        have hcloses := hw.closes (i := i) (t := ⟨s.saved, (w.threads i).ids, scopes⟩) hs hnest.2
        refine { hcloses with records := ?_ }
        intro r hr
        dsimp only at hr
        split at hr
        · rcases List.mem_append.mp hr with hr | hr
          · exact hw.records r hr
          · obtain rfl := List.mem_singleton.mp hr
            exact ⟨hnest.1.symm ▸ hown, hlinks⟩
        · exact hw.records r hr
      · cases h
  | submit i =>
      obtain rfl := Option.some.inj h
      refine { hw with mailbox := ?_ }
      intro bytes hbytes
      rcases List.mem_append.mp hbytes with hbytes | hbytes
      · exact hw.mailbox bytes hbytes
      · obtain rfl := List.mem_singleton.mp hbytes
        exact ⟨_, hw.known i, rfl⟩

omit [DecidableEq ι] in
theorem Inv.init (seed : ι → UInt64) : Inv (World.init seed) where
  nest := fun _ => rfl
  scopes := by simp [World.init]
  mailbox := by simp [World.init]
  valid := by simp [World.init]
  parented := by simp [World.init]
  records := by simp [World.init]

theorem World.run_inv {seed : ι → UInt64} {ls : List (Label ι)} (h : World.run seed ls = some w) :
    Inv w :=
  Run.exec_invariant (fun hw hstep => hw.step hstep) (.init seed) h

/-! ### The results -/

/-- The parents of the `n`-th context that was made, one after the other, up to a root: each
of them is an older context of the same trace. -/
inductive Rooted (minted : List (Context × SpanId)) : Nat → Context → SpanId → Prop
  | root {n : Nat} {ctx : Context} (hmade : minted[n]? = some (ctx, ⟨0⟩)) : Rooted minted n ctx ⟨0⟩
  | child {n m : Nat} {ctx : Context} {parent grandparent : SpanId}
      (hmade : minted[n]? = some (ctx, parent)) (holder : m < n)
      (hparent : Rooted minted m ⟨ctx.trace, parent⟩ grandparent) : Rooted minted n ctx parent

/-- Where every context is a root or has an older parent, following the parents ends. The
induction is on the age. -/
theorem rooted_of_parented (hparented : ∀ n ctx parent, minted[n]? = some (ctx, parent) →
      Parented minted n ctx parent) (n : Nat) :
    ∀ ctx parent, minted[n]? = some (ctx, parent) → Rooted minted n ctx parent := by
  induction n using Nat.strongRecOn with
  | _ n ih =>
      intro ctx parent hmade
      rcases hparented n ctx parent hmade with rfl | ⟨m, holder, grandparent, hparent⟩
      · exact .root hmade
      · exact .child hmade holder (ih m holder _ _ hparent)

/-- **The records of all threads make up trees.** A span has a valid context, and its
parents, one after the other, are older contexts of the same trace that were made, up to a
root. Its links are at most four, to contexts that were made. -/
theorem records_rooted {seed : ι → UInt64} {ls : List (Label ι)}
    (hrun : World.run seed ls = some w) {r : SpanRecord} (hr : r ∈ w.records) :
    r.ctx.trace.valid = true ∧ Linked w.minted r.links ∧ ∃ n, Rooted w.minted n r.ctx r.parent := by
  have hw := World.run_inv hrun
  obtain ⟨hmem, hlinks⟩ := hw.records r hr
  obtain ⟨n, hn⟩ := List.getElem?_of_mem hmem
  exact ⟨hw.valid _ hmem, hlinks, n, rooted_of_parented hw.parented n _ _ hn⟩

/-- One iteration of the pool: a tile on another thread, and one whose envelope was cut. -/
def pool : List (Label Bool) :=
  [.newTrace false, .span false "iteration" 0, .submit false, .submit false,
   .guard true 0 24, .span true "tile" 1, .submit true, .closeSpan true true 2, .closeGuard true,
   .guard true 1 23, .span true "cut" 3, .closeSpan true true 4, .closeGuard true,
   .addLink false 0 2 24, .closeSpan false true 5, .closeGuard false]

theorem records_rooted_pool : ∃ w : World Bool,
    World.run (fun i => if i then 1 else 2) pool = some w ∧
    w.records.map (fun r => (r.name, r.links.length)) = [("tile", 0), ("cut", 0), ("iteration", 1)] ∧
    (w.records.map fun r => w.minted.findIdx fun e => e.1.span = r.parent) = [1, 4, 0] ∧
    ∀ r ∈ w.records, r.ctx.trace.valid = true ∧ ∃ n, Rooted w.minted n r.ctx r.parent := by
  have hex : ∃ w : World Bool, World.run (fun i => if i then 1 else 2) pool = some w ∧
      w.records.map (fun r => (r.name, r.links.length)) =
        [("tile", 0), ("cut", 0), ("iteration", 1)] ∧
      (w.records.map fun r => w.minted.findIdx fun e => e.1.span = r.parent) = [1, 4, 0] :=
    Run.exists_exec (by decide +kernel)
  obtain ⟨w, hrun, hnames, hparents⟩ := hex
  refine ⟨w, hrun, hnames, hparents, fun r hr => ?_⟩
  obtain ⟨hvalid, -, hrooted⟩ := records_rooted hrun hr
  exact ⟨hvalid, hrooted⟩

/-- **A thread takes nothing from one task to the next**: with no scope open, it has no
context. This is what a pool relies on when a worker takes its next task: nothing of the
last one is left. -/
theorem no_residue {seed : ι → UInt64} {ls : List (Label ι)} (hrun : World.run seed ls = some w)
    (i : ι) (hidle : (w.threads i).scopes = []) : (w.threads i).current = noContext := by
  have hnest := (World.run_inv hrun).nest i
  rw [hidle] at hnest
  exact hnest

theorem no_residue_pool : ∃ w : World Bool,
    World.run (fun i => if i then 1 else 2) (pool.take 9) = some w ∧
    (w.threads false).scopes.length = 2 ∧ (w.threads true).current = noContext := by
  have hex : ∃ w : World Bool, World.run (fun i => if i then 1 else 2) (pool.take 9) = some w ∧
      (w.threads false).scopes.length = 2 ∧ (w.threads true).scopes = [] :=
    Run.exists_exec (by decide +kernel)
  obtain ⟨w, hrun, hopen, hidle⟩ := hex
  exact ⟨w, hrun, hopen, no_residue hrun true hidle⟩

end XmBase.Telemetry.Propagation
