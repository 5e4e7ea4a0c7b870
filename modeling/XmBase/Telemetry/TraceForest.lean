import XmBase.Telemetry.Span
import Mathlib.Data.List.Forall2
/-!
# XmBase.Telemetry.TraceForest

Programs whose only context writes are scopes: what they trace, apart from the
thread-local state it comes from. `Traced` relates a program to the forest of its
spans, lexically: a span takes its trace and its parent from the scope around it, or
starts a trace of its own; a guard replaces the scope's context.

**A run leaves the context as it found it and emits the forest children first**
(`run_traced`), and no span directly inside another has a parent other than it. Without a
binding nothing is emitted, but the scopes do the same: the body of each span runs in the
context of its node, and its `Span` object holds the node's parent and links.

Proof shape: one induction on the program gives the forest, its records and the bodies
together (`exists_traced`); everything about parents is then by induction on `Traced`,
where the thread-local state is gone.
-/

namespace XmBase.Telemetry

/-- The spans of a program, with the guards between them. -/
inductive Forest
  | nil
  | span (r : SpanRecord) (inner rest : Forest)
  | guard (inner rest : Forest)

namespace Forest

/-- Children before their parents. -/
def records : Forest → List SpanRecord
  | .nil => []
  | .span r inner rest => inner.records ++ (r :: rest.records)
  | .guard inner rest => inner.records ++ rest.records

/-- All its spans, parents before their children. -/
def spans : Forest → List SpanRecord
  | .nil => []
  | .span r inner rest => r :: (inner.spans ++ rest.spans)
  | .guard inner rest => inner.spans ++ rest.spans

/-- The spans that no other span and no guard is around. -/
def direct : Forest → List SpanRecord
  | .nil => []
  | .span r _ rest => r :: rest.direct
  | .guard _ rest => rest.direct

/-- Every span is the parent of those directly inside it. -/
def Nested : Forest → Prop
  | .nil => True
  | .span r inner rest =>
      (∀ q ∈ inner.direct, q.parent = r.ctx.span) ∧ inner.Nested ∧ rest.Nested
  | .guard inner rest => inner.Nested ∧ rest.Nested

end Forest

/-- The program writes the context through scopes only. -/
def Prog.setFree : Prog → Bool
  | .done => true
  | .span _ _ body rest => body.setFree && rest.setFree
  | .guard _ body rest => body.setFree && rest.setFree
  | .set _ _ => false
  | .addLink _ _ rest => rest.setFree

/-- The state of the generator after `k` ids. -/
def afterIds (ids : UInt64) : Nat → UInt64
  | 0 => ids
  | k + 1 => (nextId (afterIds ids k)).2

/-- The `k`-th id the generator yields from here on. -/
def nthId (ids : UInt64) (k : Nat) : UInt64 := (nextId (afterIds ids k)).1

/-- The first four valid contexts, in the order of the calls. -/
def firstLinks (link : Option Context) (body : Prog) : List Context :=
  ((link.toList ++ linksFor 0 body).filter Context.valid).take kMaxSpanLinks

/-- The forest a program traces in a scope with context `e`, and the state of the id
generator before and after. A guard puts another context in the place of `e` and gives it
back. -/
inductive Traced : Prog → Context → UInt64 → Forest → UInt64 → Prop
  | done (e : Context) (ids : UInt64) : Traced .done e ids .nil ids
  /-- In a scope with a trace: a child of the scope's span. -/
  | child {name : String} {link : Option Context} {body rest : Prog} {e : Context} {r : SpanRecord}
      {inner rest' : Forest} {ids ids' ids'' : UInt64} (he : e.trace.valid = true)
      (hname : r.name = name) (hctx : r.ctx = ⟨e.trace, ⟨nthId ids 0⟩⟩) (hparent : r.parent = e.span)
      (hlinks : r.links = firstLinks link body) (hbody : Traced body r.ctx (afterIds ids 1) inner ids')
      (hrest : Traced rest e ids' rest' ids'') :
      Traced (.span name link body rest) e ids (.span r inner rest') ids''
  /-- In a scope without one: the root of a new trace. -/
  | root {name : String} {link : Option Context} {body rest : Prog} {e : Context} {r : SpanRecord}
      {inner rest' : Forest} {ids ids' ids'' : UInt64} (he : e.trace.valid = false)
      (hname : r.name = name) (hctx : r.ctx = ⟨⟨nthId ids 0, nthId ids 1⟩, ⟨nthId ids 2⟩⟩)
      (hparent : r.parent = ⟨0⟩) (hlinks : r.links = firstLinks link body)
      (hbody : Traced body r.ctx (afterIds ids 3) inner ids') (hrest : Traced rest e ids' rest' ids'') :
      Traced (.span name link body rest) e ids (.span r inner rest') ids''
  | guard {ctx e : Context} {body rest : Prog} {inner rest' : Forest} {ids ids' ids'' : UInt64}
      (hbody : Traced body ctx ids inner ids') (hrest : Traced rest e ids' rest' ids'') :
      Traced (.guard ctx body rest) e ids (.guard inner rest') ids''
  | addLink {k : Nat} {link e : Context} {rest : Prog} {f : Forest} {ids ids' : UInt64}
      (hrest : Traced rest e ids f ids') : Traced (.addLink k link rest) e ids f ids'

/-! ### Parents -/

/-- A trace that was just minted is valid. -/
theorem valid_of_hi_ne_zero {hi lo : UInt64} (h : hi ≠ 0) : (TraceId.mk hi lo).valid = true := by
  rw [TraceId.valid, bne_iff_ne]
  intro hor
  exact h (UInt64.or_eq_zero_iff.mp hor).1

theorem Traced.parent_direct {p : Prog} {e : Context} {ids ids' : UInt64} {f : Forest}
    (h : Traced p e ids f ids') (he : e.trace.valid = true) :
    ∀ q ∈ f.direct, q.parent = e.span := by
  induction h with
  | done => nofun
  | child _ _ _ hparent _ _ _ _ ih => exact List.forall_mem_cons.mpr ⟨hparent, ih he⟩
  | root hinvalid => rw [he] at hinvalid; cases hinvalid
  | guard _ _ _ ih => exact ih he
  | addLink _ ih => exact ih he

/-- **Spans directly nested in a span have it as their parent.** -/
theorem Traced.nested {p : Prog} {e : Context} {ids ids' : UInt64} {f : Forest}
    (h : Traced p e ids f ids') : f.Nested := by
  induction h with
  | done => trivial
  | child he _ hctx _ _ hbody _ ihb ihr =>
      refine ⟨hbody.parent_direct ?_, ihb, ihr⟩
      rw [hctx]
      exact he
  | root _ _ hctx _ _ hbody _ ihb ihr =>
      refine ⟨hbody.parent_direct ?_, ihb, ihr⟩
      rw [hctx]
      exact valid_of_hi_ne_zero (nextId_ne_zero _)
  | guard _ _ ihb ihr => exact ⟨ihb, ihr⟩
  | addLink _ ih => exact ih

/-! ### Runs

The step from the thread to the forest: the context of the thread is that of the scope it is
in, and the generator is where the forest says. -/

section

variable {now : Nat → Int} {bound : Bool}

theorem lastSet_of_setFree {p : Prog} (hp : p.setFree = true) (c : Context) : lastSet p c = c := by
  induction p with
  | done => rfl
  | span _ _ body rest _ ihr => exact ihr (Bool.and_eq_true_iff.mp hp).2
  | guard _ body rest _ ihr => exact ihr (Bool.and_eq_true_iff.mp hp).2
  | set => cases hp
  | addLink _ _ rest ih => exact ih hp

/-- A span keeps the first four valid links. -/
theorem Span.addLinks_links (s : Span) (hs : s.links.length ≤ kMaxSpanLinks) (links : List Context) :
    (s.addLinks links).links = (s.links ++ links.filter Context.valid).take kMaxSpanLinks := by
  induction links generalizing s with
  | nil => rw [List.filter_nil, List.append_nil, List.take_of_length_le hs]; rfl
  | cons link links ih =>
      show ((s.addLink link).addLinks links).links = _
      unfold Span.addLink
      by_cases hv : link.valid = true
      · by_cases hroom : s.links.length < kMaxSpanLinks
        · rw [hv, decide_eq_true hroom, Bool.and_true, if_pos rfl,
            ih _ (by rw [List.length_append]; exact hroom), List.filter_cons_of_pos hv,
            List.append_assoc, List.singleton_append]
        · -- full: neither this link nor a later one is taken
          have hfull : s.links.length = kMaxSpanLinks := Nat.le_antisymm hs (Nat.le_of_not_lt hroom)
          rw [decide_eq_false hroom, Bool.false_and, if_neg Bool.false_ne_true, ih s hs, ← hfull,
            List.take_left, List.take_left]
      · rw [Bool.eq_false_iff.mpr hv, Bool.and_false, if_neg Bool.false_ne_true, ih s hs,
          List.filter_cons_of_neg hv]

theorem endedSpan_links (name : String) (link : Option Context) (body : Prog) (t : ThreadLocal) :
    (endedSpan now name link body t).links = firstLinks link body := by
  have hnew : (newSpan now name link t).addLinks (linksFor 0 body) =
      Span.addLinks ⟨name, now t.readings, t.current, (begin t.current t.ids).2.1, []⟩
        (link.toList ++ linksFor 0 body) := by
    rw [newSpan, Span.addLinks, Span.addLinks, Span.addLinks, List.foldl_append]
  rw [endedSpan, hnew, Span.addLinks_links _ (Nat.zero_le _), firstLinks, List.nil_append]

theorem endedSpan_parent (name : String) (link : Option Context) (body : Prog) (t : ThreadLocal) :
    (endedSpan now name link body t).parent = (begin t.current t.ids).2.1 := by
  rw [endedSpan, newSpan, (Span.addLinks_fixed _ _).2.2.2, (Span.addLinks_fixed _ _).2.2.2]

theorem begin_child {e : Context} (he : e.trace.valid = true) (ids : UInt64) :
    begin e ids = (⟨e.trace, ⟨nthId ids 0⟩⟩, e.span, afterIds ids 1) := by
  rw [begin, he]
  rfl

theorem begin_root {e : Context} (he : e.trace.valid = false) (ids : UInt64) :
    begin e ids = (⟨⟨nthId ids 0, nthId ids 1⟩, ⟨nthId ids 2⟩⟩, ⟨0⟩, afterIds ids 3) := by
  rw [begin, he]
  rfl

/-- The scope of a span, both ways to begin it. -/
theorem Traced.span {name : String} {link : Option Context} {body rest : Prog} {e : Context}
    {r : SpanRecord} {inner rest' : Forest} {ids ids' ids'' : UInt64} (hname : r.name = name)
    (hctx : r.ctx = (begin e ids).1) (hparent : r.parent = (begin e ids).2.1)
    (hlinks : r.links = firstLinks link body)
    (hbody : Traced body (begin e ids).1 (begin e ids).2.2 inner ids')
    (hrest : Traced rest e ids' rest' ids'') :
    Traced (.span name link body rest) e ids (.span r inner rest') ids'' := by
  rw [← hctx] at hbody
  cases he : e.trace.valid with
  | true =>
      rw [begin_child he] at hctx hparent hbody
      exact .child he hname hctx hparent hlinks hbody hrest
  | false =>
      rw [begin_root he] at hctx hparent hbody
      exact .root he hname hctx hparent hlinks hbody hrest

/-- The thread when the body of each span starts and when it has ended, parents before their
children. Nothing of this depends on what is emitted, so it says as much of a run without a
binding as of one with. -/
def bodies (now : Nat → Int) (bound : Bool) : Prog → ThreadLocal → List (ThreadLocal × ThreadLocal)
  | .done, _ => []
  | .span name link body rest, t =>
      let t' := openSpan now name link t
      (t', run now bound body t') ::
        (bodies now bound body t' ++ bodies now bound rest (closeSpan now bound (run now bound body t')))
  | .guard ctx body rest, t =>
      bodies now bound body { t with current := ctx } ++
        bodies now bound rest { run now bound body { t with current := ctx } with current := t.current }
  | .set ctx rest, t => bodies now bound rest { t with current := ctx }
  | .addLink k link rest, t =>
      bodies now bound rest { t with spans := t.spans.modify k fun s => s.addLink link }

/-- The body of a span runs in the context of its node, from its start to its end, and the
innermost `Span` object then has the node's name, parent and links. -/
def RunsIn (b : ThreadLocal × ThreadLocal) (r : SpanRecord) : Prop :=
  b.1.current = r.ctx ∧ b.2.current = r.ctx ∧
    ∃ s, b.2.spans.head? = some s ∧ s.name = r.name ∧ s.parent = r.parent ∧ s.links = r.links

variable (now bound) in
/-- The forest of a run, by induction on the program. The records, the bodies and the state
of the generator come with it, since the induction needs them together. -/
theorem exists_traced (p : Prog) (hp : p.setFree = true) (t : ThreadLocal) :
    ∃ f, Traced p t.current t.ids f (run now bound p t).ids ∧
      emitted now bound p t = (if bound then f.records else []) ∧
      List.Forall₂ RunsIn (bodies now bound p t) f.spans := by
  induction p generalizing t with
  | done => exact ⟨.nil, .done _ _, by cases bound <;> rfl, .nil⟩
  | span name link body rest ihb ihr =>
      obtain ⟨hpb, hpr⟩ := Bool.and_eq_true_iff.mp hp
      obtain ⟨inner, hinner, hemit, hin⟩ := ihb hpb (openSpan now name link t)
      obtain ⟨rest', hrest, hemit', hin'⟩ := ihr hpr
        (closeSpan now bound (run now bound body (openSpan now name link t)))
      rw [closeSpan_run_current, closeSpan_ids] at hrest
      rw [openSpan_current, openSpan_ids] at hinner
      let t' := run now bound body (openSpan now name link t)
      let s := endedSpan now name link body t
      let r : SpanRecord := ⟨s.name, t'.current, s.parent, s.beginTime, now t'.readings, s.links⟩
      have hctx : r.ctx = (begin t.current t.ids).1 := by
        show t'.current = _
        rw [run_current, lastSet_of_setFree hpb, openSpan_current]
      refine ⟨.span r inner rest', .span (endedSpan_name name link body t) hctx
        (endedSpan_parent name link body t) (endedSpan_links name link body t) hinner hrest, ?_, ?_⟩
      · rw [emitted, hemit, hemit']
        cases bound <;> rfl
      · obtain ⟨spans, hspans⟩ := run_body_spans now bound name link body t
        have hhere : RunsIn (openSpan now name link t, t') r :=
          ⟨(openSpan_current name link t).trans hctx.symm, rfl, s, by rw [hspans]; rfl, rfl, rfl, rfl⟩
        exact .cons hhere (List.rel_append hin hin')
  | guard ctx body rest ihb ihr =>
      obtain ⟨hpb, hpr⟩ := Bool.and_eq_true_iff.mp hp
      obtain ⟨inner, hinner, hemit, hin⟩ := ihb hpb { t with current := ctx }
      obtain ⟨rest', hrest, hemit', hin'⟩ := ihr hpr
        { run now bound body { t with current := ctx } with current := t.current }
      refine ⟨.guard inner rest', .guard hinner hrest, ?_, List.rel_append hin hin'⟩
      rw [emitted, hemit, hemit']
      cases bound <;> rfl
  | set => cases hp
  | addLink k link rest ih =>
      obtain ⟨f, hf, hemit, hin⟩ :=
        ih hp { t with spans := t.spans.modify k fun s => s.addLink link }
      exact ⟨f, .addLink hf, hemit, hin⟩

variable (now bound) in
/-- **Nested scopes trace a forest and leave no residue**, from any state of the
thread, bound or unbound: the program itself, and a span or a guard around it,
restore the context; the bodies of the spans run in the contexts of the forest, and what is
emitted is the forest of the program's spans. -/
theorem run_traced (p : Prog) (hp : p.setFree = true) (t : ThreadLocal) :
    (run now bound p t).current = t.current ∧
      (∀ name link, (run now bound (.span name link p .done) t).current = t.current) ∧
      (∀ ctx, (run now bound (.guard ctx p .done) t).current = t.current) ∧
      ∃ f, Traced p t.current t.ids f (run now bound p t).ids ∧ f.Nested ∧
        List.Forall₂ RunsIn (bodies now bound p t) f.spans ∧
        (run now bound p t).records = t.records ++ if bound then f.records else [] := by
  refine ⟨?_, ?_, ?_, ?_⟩
  · rw [run_current, lastSet_of_setFree hp]
  · intro name link
    exact closeSpan_run_current name link p t
  · intro ctx
    rfl
  · obtain ⟨f, hf, hemit, hin⟩ := exists_traced now bound p hp t
    exact ⟨f, hf, hf.nested, hin, by rw [run_records, hemit]⟩

end

/-- A linked span in a root span, with a guard to no context in between. -/
def guardedProg : Prog :=
  .span "outer" none
    (.guard ⟨⟨0, 0⟩, ⟨0⟩⟩ (.span "orphan" (some ⟨⟨7, 7⟩, ⟨7⟩⟩) .done .done)
      (.span "inner" none (.addLink 1 ⟨⟨8, 8⟩, ⟨8⟩⟩ .done) .done)) .done

theorem run_traced_guarded :
    guardedProg.setFree = true ∧
      ∃ f, Traced guardedProg freshThread.current freshThread.ids f
          (run (fun _ => 0) true guardedProg freshThread).ids ∧
        f.records.map (fun r => r.name) = ["orphan", "inner", "outer"] := by
  refine ⟨by decide, ?_⟩
  obtain ⟨_, _, _, f, hf, _, _, hrecords⟩ :=
    run_traced (fun _ => 0) true guardedProg (by decide) freshThread
  refine ⟨f, hf, ?_⟩
  have hnames : (run (fun _ => 0) true guardedProg freshThread).records.map (fun r => r.name) =
      ["orphan", "inner", "outer"] := by decide +kernel
  rw [hrecords] at hnames
  exact hnames

end XmBase.Telemetry
