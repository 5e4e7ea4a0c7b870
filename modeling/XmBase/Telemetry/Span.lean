import Mathlib.Data.List.Basic
/-!
# XmBase.Telemetry.Span

Scopes of one thread: `Span` (`telemetry/span.hpp`), `ContextGuard` and
`SetCurrentContext` (`telemetry/context.hpp`), over the thread-local current context
and the id generator. A program is a tree of properly nested scopes (`Prog`), with
context writes and `AddLink` calls anywhere in it.

A `Span` restores the context it has saved, but it does not keep the context it
minted: its record is filed under whatever is current when it ends. So the record
carries the span's identity **exactly when the last `SetCurrentContext` made directly
in the scope, if there is one, puts the span's own context back**
(`records_identity_iff`).
-/

namespace XmBase.Telemetry

/-! ### Contexts and ids -/

structure TraceId where
  hi : UInt64
  lo : UInt64
  deriving DecidableEq, Repr

def TraceId.valid (t : TraceId) : Bool := (t.hi ||| t.lo) != 0

structure SpanId where
  value : UInt64
  deriving DecidableEq, Repr

structure Context where
  trace : TraceId
  span : SpanId
  deriving DecidableEq, Repr

def Context.valid (c : Context) : Bool := c.trace.valid

/-- `NextId()`: splitmix64 over the thread's state. Returns the id and the new state. -/
def nextId (state : UInt64) : UInt64 × UInt64 :=
  let state := state + 0x9E3779B97F4A7C15
  let z := state
  let z := (z ^^^ (z >>> 30)) * 0xBF58476D1CE4E5B9
  let z := (z ^^^ (z >>> 27)) * 0x94D049BB133111EB
  let z := z ^^^ (z >>> 31)
  (if z != 0 then z else 1, state)

theorem nextId_ne_zero (state : UInt64) : (nextId state).1 ≠ 0 := by
  simp only [nextId]
  split
  · next h => exact bne_iff_ne.mp h
  · decide

/-! ### Spans

The constructors, the destructor and `AddLink`, on the state of one thread, and programs
that use them. The open spans are a stack, because scopes nest; but what is current can be
written at any time, and the destructor looks at what is current then. -/

def kMaxSpanLinks : Nat := 4

/-- What `emit_span` receives. -/
structure SpanRecord where
  name : String
  ctx : Context
  parent : SpanId
  beginTime : Int
  endTime : Int
  links : List Context
  deriving DecidableEq, Repr

/-- A `Span` object. -/
structure Span where
  name : String
  beginTime : Int
  saved : Context
  parent : SpanId
  links : List Context
  deriving DecidableEq, Repr

/-- `AddLink`. -/
def Span.addLink (s : Span) (link : Context) : Span :=
  if s.links.length < kMaxSpanLinks && link.valid then { s with links := s.links ++ [link] } else s

/-- The thread: its current context, the state of its id generator, the number of
clock readings it has made, its open `Span` objects (the innermost first) and the
records it has emitted. -/
structure ThreadLocal where
  current : Context
  ids : UInt64
  readings : Nat
  spans : List Span
  records : List SpanRecord
  deriving DecidableEq, Repr

/-- `Begin`: the context the span mints, its parent, and the state of the generator. -/
def begin (saved : Context) (ids : UInt64) : Context × SpanId × UInt64 :=
  if !saved.trace.valid then
    -- no enclosing trace: become a root
    let (hi, ids) := nextId ids
    let (lo, ids) := nextId ids
    let (span, ids) := nextId ids
    (⟨⟨hi, lo⟩, ⟨span⟩⟩, ⟨0⟩, ids)
  else
    let (span, ids) := nextId ids
    (⟨saved.trace, ⟨span⟩⟩, saved.span, ids)

section

variable (now : Nat → Int)

/-- The two constructors of `Span`. -/
def openSpan (name : String) (link : Option Context) (t : ThreadLocal) : ThreadLocal :=
  let (child, parent, ids) := begin t.current t.ids
  let s : Span := ⟨name, now t.readings, t.current, parent, []⟩
  let s := match link with
    | none => s
    | some link => s.addLink link
  { t with current := child, ids := ids, readings := t.readings + 1, spans := s :: t.spans }

/-- `~Span` of the innermost open span. -/
def closeSpan (bound : Bool) (t : ThreadLocal) : ThreadLocal :=
  match t.spans with
  | [] => t
  | s :: spans =>
      let ctx := t.current
      let t := { t with current := s.saved, spans := spans }
      if bound then
        { t with
          readings := t.readings + 1
          records := t.records ++ [⟨s.name, ctx, s.parent, s.beginTime, now t.readings, s.links⟩] }
      else t

/-- A program of properly nested scopes. The constructors are the statements, each with the
rest of its block. -/
inductive Prog
  | done
  /-- `{ Span s(name); body }`, or with the linking constructor. -/
  | span (name : String) (link : Option Context) (body rest : Prog)
  /-- `{ ContextGuard g(ctx); body }`. -/
  | guard (ctx : Context) (body rest : Prog)
  /-- `SetCurrentContext(ctx)`. -/
  | set (ctx : Context) (rest : Prog)
  /-- `AddLink(link)` on the open span that `k` others are nested in. -/
  | addLink (k : Nat) (link : Context) (rest : Prog)
  deriving DecidableEq, Repr

/-- Run the program. -/
def run (bound : Bool) : Prog → ThreadLocal → ThreadLocal
  | .done, t => t
  | .span name link body rest, t =>
      run bound rest (closeSpan now bound (run bound body (openSpan now name link t)))
  | .guard ctx body rest, t =>
      run bound rest { run bound body { t with current := ctx } with current := t.current }
  | .set ctx rest, t => run bound rest { t with current := ctx }
  | .addLink k link rest, t =>
      run bound rest { t with spans := t.spans.modify k fun s => s.addLink link }

end

/-! ### What a program does to the open spans

A program leaves the spans that are open around it open, and all it can do to them is to add
links. So each span ends with the name, the parent and the saved context it began with, and
what it restores does not depend on its body. -/

/-- The links a program passes to the open span that `k` others are nested in, in
the order of the calls. -/
def linksFor : Nat → Prog → List Context
  | _, .done => []
  | k, .span _ _ body rest => linksFor (k + 1) body ++ linksFor k rest
  | k, .guard _ body rest => linksFor k body ++ linksFor k rest
  | k, .set _ rest => linksFor k rest
  | k, .addLink j link rest => if j = k then link :: linksFor k rest else linksFor k rest

/-- The context that the last `SetCurrentContext` directly in the program, outside
of its scopes, leaves current. -/
def lastSet : Prog → Context → Context
  | .done, c => c
  | .span _ _ _ rest, c => lastSet rest c
  | .guard _ _ rest, c => lastSet rest c
  | .set ctx rest, _ => lastSet rest ctx
  | .addLink _ _ rest, c => lastSet rest c

def Span.addLinks (s : Span) (links : List Context) : Span := links.foldl Span.addLink s

/-- Links are all that changes in a span while it is open. -/
theorem Span.addLinks_fixed (s : Span) (links : List Context) :
    (s.addLinks links).name = s.name ∧ (s.addLinks links).beginTime = s.beginTime ∧
      (s.addLinks links).saved = s.saved ∧ (s.addLinks links).parent = s.parent := by
  induction links generalizing s with
  | nil => exact ⟨rfl, rfl, rfl, rfl⟩
  | cons link links ih =>
      have hone : (s.addLink link).name = s.name ∧ (s.addLink link).beginTime = s.beginTime ∧
          (s.addLink link).saved = s.saved ∧ (s.addLink link).parent = s.parent := by
        unfold Span.addLink
        split <;> exact ⟨rfl, rfl, rfl, rfl⟩
      obtain ⟨h1, h2, h3, h4⟩ := ih (s.addLink link)
      exact ⟨h1.trans hone.1, h2.trans hone.2.1, h3.trans hone.2.2.1, h4.trans hone.2.2.2⟩

/-- The object the constructors build. -/
def newSpan (now : Nat → Int) (name : String) (link : Option Context) (t : ThreadLocal) : Span :=
  Span.addLinks ⟨name, now t.readings, t.current, (begin t.current t.ids).2.1, []⟩ link.toList

section

variable {now : Nat → Int} {bound : Bool}

theorem openSpan_spans (name : String) (link : Option Context) (t : ThreadLocal) :
    (openSpan now name link t).spans = newSpan now name link t :: t.spans := by
  cases link <;> rfl

theorem openSpan_current (name : String) (link : Option Context) (t : ThreadLocal) :
    (openSpan now name link t).current = (begin t.current t.ids).1 := by
  cases link <;> rfl

theorem openSpan_ids (name : String) (link : Option Context) (t : ThreadLocal) :
    (openSpan now name link t).ids = (begin t.current t.ids).2.2 := by
  cases link <;> rfl

theorem openSpan_records (name : String) (link : Option Context) (t : ThreadLocal) :
    (openSpan now name link t).records = t.records := by
  cases link <;> rfl

theorem closeSpan_spans (t : ThreadLocal) : (closeSpan now bound t).spans = t.spans.tail := by
  unfold closeSpan
  cases hs : t.spans with
  | nil => exact hs
  | cons s spans => cases bound <;> rfl

variable (now bound) in
/-- **The open spans stay open**, and take the links that are for them. -/
theorem run_spans (p : Prog) (t : ThreadLocal) (k : Nat) :
    (run now bound p t).spans[k]? = t.spans[k]?.map fun s => s.addLinks (linksFor k p) := by
  induction p generalizing t k with
  | done => simp [run, linksFor, Span.addLinks]
  | span name link body rest ihb ihr =>
      rw [run, ihr, closeSpan_spans, List.getElem?_tail, ihb, openSpan_spans,
        List.getElem?_cons_succ, Option.map_map, linksFor]
      congr 1
      funext s
      simp [Span.addLinks]
  | guard ctx body rest ihb ihr =>
      rw [run, ihr, ihb, Option.map_map, linksFor]
      congr 1
      funext s
      simp [Span.addLinks]
  | set ctx rest ih => rw [run, ih, linksFor]
  | addLink j link rest ih =>
      rw [run, ih, linksFor, List.getElem?_modify, Option.map_eq_map, Option.map_map]
      congr 1
      funext s
      by_cases hj : j = k
      · simp only [Function.comp_apply, if_pos hj]
        rfl
      · simp only [Function.comp_apply, if_neg hj]

/-- What a span is when its body has run. -/
def endedSpan (now : Nat → Int) (name : String) (link : Option Context) (body : Prog)
    (t : ThreadLocal) : Span :=
  (newSpan now name link t).addLinks (linksFor 0 body)

variable (now bound) in
theorem run_body_spans (name : String) (link : Option Context) (body : Prog) (t : ThreadLocal) :
    ∃ spans, (run now bound body (openSpan now name link t)).spans =
      endedSpan now name link body t :: spans := by
  have h := run_spans now bound body (openSpan now name link t) 0
  rw [openSpan_spans, List.getElem?_cons_zero, Option.map_some, ← List.head?_eq_getElem?] at h
  exact List.head?_eq_some_iff.mp h

theorem endedSpan_saved (name : String) (link : Option Context) (body : Prog) (t : ThreadLocal) :
    (endedSpan now name link body t).saved = t.current := by
  rw [endedSpan, newSpan, (Span.addLinks_fixed _ _).2.2.1, (Span.addLinks_fixed _ _).2.2.1]

/-- **Whatever the body does, a span leaves the context as it found it.** -/
theorem closeSpan_run_current (name : String) (link : Option Context) (body : Prog)
    (t : ThreadLocal) :
    (closeSpan now bound (run now bound body (openSpan now name link t))).current = t.current := by
  obtain ⟨spans, hs⟩ := run_body_spans now bound name link body t
  unfold closeSpan
  rw [hs]
  cases bound <;> exact endedSpan_saved name link body t

theorem closeSpan_ids (t : ThreadLocal) : (closeSpan now bound t).ids = t.ids := by
  unfold closeSpan
  cases t.spans with
  | nil => rfl
  | cons s spans => cases bound <;> rfl

theorem closeSpan_run_records (name : String) (link : Option Context) (body : Prog)
    (t : ThreadLocal) :
    let t' := run now bound body (openSpan now name link t)
    let s := endedSpan now name link body t
    (closeSpan now bound t').records = t'.records ++
      if bound then [⟨s.name, t'.current, s.parent, s.beginTime, now t'.readings, s.links⟩]
      else [] := by
  obtain ⟨spans, hs⟩ := run_body_spans now bound name link body t
  intro t' s
  unfold closeSpan
  rw [hs]
  cases bound
  · exact (List.append_nil _).symm
  · rfl

theorem run_current (p : Prog) (t : ThreadLocal) :
    (run now bound p t).current = lastSet p t.current := by
  induction p generalizing t with
  | done => rfl
  | span name link body rest _ ihr => rw [run, ihr, closeSpan_run_current, lastSet]
  | guard ctx body rest _ ihr => rw [run, ihr, lastSet]
  | set ctx rest ih => rw [run, ih, lastSet]
  | addLink k link rest ih => rw [run, ih, lastSet]

/-! ### The records of a program -/

/-- The records a program emits, in order. -/
def emitted (now : Nat → Int) (bound : Bool) : Prog → ThreadLocal → List SpanRecord
  | .done, _ => []
  | .span name link body rest, t =>
      let t' := run now bound body (openSpan now name link t)
      let s := endedSpan now name link body t
      emitted now bound body (openSpan now name link t) ++
        ((if bound then [⟨s.name, t'.current, s.parent, s.beginTime, now t'.readings, s.links⟩]
          else []) ++ emitted now bound rest (closeSpan now bound t'))
  | .guard ctx body rest, t =>
      emitted now bound body { t with current := ctx } ++
        emitted now bound rest { run now bound body { t with current := ctx } with current := t.current }
  | .set ctx rest, t => emitted now bound rest { t with current := ctx }
  | .addLink k link rest, t =>
      emitted now bound rest { t with spans := t.spans.modify k fun s => s.addLink link }

theorem run_records (p : Prog) (t : ThreadLocal) :
    (run now bound p t).records = t.records ++ emitted now bound p t := by
  induction p generalizing t with
  | done => exact (List.append_nil _).symm
  | span name link body rest ihb ihr =>
      rw [run, ihr, closeSpan_run_records, ihb, openSpan_records, emitted]
      simp only [List.append_assoc]
  | guard ctx body rest ihb ihr => rw [run, ihr, ihb, emitted, List.append_assoc]
  | set ctx rest ih => rw [run, ih, emitted]
  | addLink k link rest ih => rw [run, ih, emitted]

end

/-! ### Whose identity a record carries

What is meant and what is recorded, span by span. They differ only in the context, which is
the one the span minted or the one that a write in its scope has left. -/

/-- What is meant: one entry for every `Span`, at its end, with its name and the
context it minted when it was constructed. -/
def ends (now : Nat → Int) : Prog → ThreadLocal → List (String × Context)
  | .done, _ => []
  | .span name link body rest, t =>
      let t' := openSpan now name link t
      ends now body t' ++
        ((name, t'.current) :: ends now rest (closeSpan now true (run now true body t')))
  | .guard ctx body rest, t =>
      ends now body { t with current := ctx } ++
        ends now rest { run now true body { t with current := ctx } with current := t.current }
  | .set ctx rest, t => ends now rest { t with current := ctx }
  | .addLink k link rest, t =>
      ends now rest { t with spans := t.spans.modify k fun s => s.addLink link }

/-- In every `Span` of the program, the last `SetCurrentContext` made directly in its
scope, if there is one, passes the span's own context. -/
def Reinstalls (now : Nat → Int) : Prog → ThreadLocal → Prop
  | .done, _ => True
  | .span name link body rest, t =>
      let t' := openSpan now name link t
      lastSet body t'.current = t'.current ∧ Reinstalls now body t' ∧
        Reinstalls now rest (closeSpan now true (run now true body t'))
  | .guard ctx body rest, t =>
      Reinstalls now body { t with current := ctx } ∧
        Reinstalls now rest { run now true body { t with current := ctx } with current := t.current }
  | .set ctx rest, t => Reinstalls now rest { t with current := ctx }
  | .addLink k link rest, t =>
      Reinstalls now rest { t with spans := t.spans.modify k fun s => s.addLink link }

def SpanRecord.identity (r : SpanRecord) : String × Context := (r.name, r.ctx)

section

variable {now : Nat → Int}

theorem length_emitted (p : Prog) (t : ThreadLocal) :
    (emitted now true p t).length = (ends now p t).length := by
  induction p generalizing t with
  | done => rfl
  | span name link body rest ihb ihr =>
      simp only [emitted, ends, List.length_append, List.length_cons, ihb, ihr, if_true,
        List.length_nil]
      omega
  | guard ctx body rest ihb ihr => simp only [emitted, ends, List.length_append, ihb, ihr]
  | set ctx rest ih => exact ih _
  | addLink k link rest ih => exact ih _

theorem endedSpan_name (name : String) (link : Option Context) (body : Prog) (t : ThreadLocal) :
    (endedSpan now name link body t).name = name := by
  rw [endedSpan, newSpan, (Span.addLinks_fixed _ _).1, (Span.addLinks_fixed _ _).1]

theorem append_eq_append_iff_of_length {α : Type} {a b c d : List α} (h : a.length = c.length) :
    a ++ b = c ++ d ↔ a = c ∧ b = d :=
  ⟨fun heq => List.append_inj heq h, fun ⟨hac, hbd⟩ => by rw [hac, hbd]⟩

/-- The records are the expected ones, span by span. -/
theorem emitted_identity_iff (p : Prog) (t : ThreadLocal) :
    (emitted now true p t).map SpanRecord.identity = ends now p t ↔ Reinstalls now p t := by
  induction p generalizing t with
  | done => exact ⟨fun _ => trivial, fun _ => rfl⟩
  | span name link body rest ihb ihr =>
      have hlen : ((emitted now true body (openSpan now name link t)).map
          SpanRecord.identity).length = (ends now body (openSpan now name link t)).length := by
        rw [List.length_map, length_emitted]
      simp only [emitted, ends, Reinstalls, List.map_append, if_true, List.map_cons,
        List.singleton_append]
      rw [append_eq_append_iff_of_length hlen, List.cons_eq_cons, ihb, ihr]
      simp only [SpanRecord.identity, Prod.mk.injEq, endedSpan_name, true_and, run_current]
      tauto
  | guard ctx body rest ihb ihr =>
      have hlen : ((emitted now true body { t with current := ctx }).map
          SpanRecord.identity).length = (ends now body { t with current := ctx }).length := by
        rw [List.length_map, length_emitted]
      rw [emitted, ends, Reinstalls, List.map_append, append_eq_append_iff_of_length hlen, ihb, ihr]
  | set ctx rest ih => exact ih _
  | addLink k link rest ih => exact ih _

/-- **Every span's record, emitted at its end, carries the context the span minted
exactly when that context is back in place there**: the last `SetCurrentContext` made
directly in the scope, if there is one, passes it. -/
theorem records_identity_iff (p : Prog) (t : ThreadLocal) :
    (run now true p t).records.map SpanRecord.identity =
        t.records.map SpanRecord.identity ++ ends now p t ↔ Reinstalls now p t := by
  rw [run_records, List.map_append, List.append_cancel_left_eq]
  exact emitted_identity_iff p t

end

/-- A thread without a context. -/
def freshThread : ThreadLocal := ⟨⟨⟨0, 0⟩, ⟨0⟩⟩, 1, 0, [], []⟩

/-- A handler that makes the context of its message current inside a span: the span
is recorded under the message's identity. -/
theorem records_identity_foreign :
    ¬ ∀ p t, (run (fun _ => 0) true p t).records.map SpanRecord.identity =
      t.records.map SpanRecord.identity ++ ends (fun _ => 0) p t := by
  intro h
  have hone := h (.span "handle" none (.set ⟨⟨7, 7⟩, ⟨7⟩⟩ .done) .done) freshThread
  revert hone
  decide +kernel

end XmBase.Telemetry
