import XmBase.Lib.Regex
import XmBase.Telemetry.Printf
/-!
# XmBase.Telemetry.SpecGrammar

`ParseSpec` (`src/telemetry_console_binding.cpp`) for itself. Here it runs on the range it
is given, a pointer into it at a time: a read at or behind `end` fails, and so does an
`int` that overflows. Neither happens, and what is computed is the `parseSpec` of
`XmBase.Telemetry.ConsoleFormat` (`parseSpecIn_eq`).

The texts that are accepted are a regular language (`specGrammar`). The parts of the
pattern overlap: a `0` in front is the flag, every other one belongs to the width. What
the fields of the result are is therefore said in terms of the text, not of the parts.
-/

namespace XmBase.Telemetry

open RegularExpression (char star)
open Regex (oneOf opt many)

/-! ### `ParseSpec` on its range

The function on a pointer and an end, with every read and every sum checked. It follows the
source statement by statement; the parts are its `if`s and the digit loop that two of them
share. -/

/-- The value of an expression of type `int`. -/
def int (n : Int) : Option Int := if -2 ^ 31 ≤ n ∧ n < 2 ^ 31 then some n else none

section

variable (range : Text)

/-- `*s`. -/
def readAt (s : Nat) : Option UInt8 := range[s]?

/-- `s < end && p(*s)`. -/
def testAt (p : UInt8 → Bool) (s : Nat) : Option Bool :=
  if s < range.length then (readAt range s).map p else some false

/-- The digit loops: `w` when they end, and `s`. -/
def digitsFrom (max w : Int) (s : Nat) : Option (Int × Nat) := do
  if hs : s < range.length then
    let c ← readAt range s
    if isDigit c then
      let digit ← int (c.toNat - (ch '0').toNat)
      let scaled ← int (w * 10)
      let w ← int (scaled + digit)
      digitsFrom max (if w > max then max else w) (s + 1)
    else some (w, s)
  else some (w, s)
termination_by range.length - s

/-- The flag. -/
def zeroIn (s : Nat) : Option (FmtSpec × Nat) := do
  if ← testAt range (fun c => c = ch '0') s then
    some ({ FmtSpec.none with zero := true }, s + 1)
  else some (.none, s)

/-- The width. -/
def widthIn (spec : FmtSpec) (s : Nat) : Option (FmtSpec × Nat) := do
  if ← testAt range isDigit s then
    let (w, s) ← digitsFrom range kMaxWidth 0 s
    some ({ spec with width := w }, s)
  else some (spec, s)

/-- The last part: the type letter and the end. -/
def typeIn (spec : FmtSpec) (s : Nat) : Option FmtSpec := do
  if s < range.length then
    let c ← readAt range s
    if strchr (ascii "fFeEgGdxXos") c then
      some { spec with type := c, ok := s + 1 = range.length }
    else some spec
  else some { spec with ok := s = range.length }

/-- The precision and what follows; a point without a digit behind it is the end. -/
def precIn (spec : FmtSpec) (s : Nat) : Option FmtSpec := do
  if ← testAt range (fun c => c = ch '.') s then
    if ← testAt range isDigit (s + 1) then
      let (p, s) ← digitsFrom range kMaxPrec 0 (s + 1)
      typeIn range { spec with prec := p } s
    else some spec
  else typeIn range spec s

/-- `ParseSpec(s, end)`. -/
def parseSpecIn : Option FmtSpec := do
  let (spec, s) ← zeroIn range 0
  let (spec, s) ← widthIn range spec s
  precIn range spec s

end

/-! ### No check fails -/

section

variable {range : Text} {s : Nat} {t : Text}

/-- `s` points into the range or to its end, and `t` is left. -/
def At (range : Text) (s : Nat) (t : Text) : Prop := s ≤ range.length ∧ range.drop s = t

theorem At.nil (h : At range s []) : s = range.length :=
  Nat.le_antisymm h.1 (List.drop_eq_nil_iff.mp h.2)

theorem At.cons {c : UInt8} (h : At range s (c :: t)) :
    s < range.length ∧ readAt range s = some c ∧ At range (s + 1) t := by
  have hlt : s < range.length := by
    by_contra hge
    have hdrop := h.2
    rw [List.drop_eq_nil_of_le (Nat.le_of_not_lt hge)] at hdrop
    cases hdrop
  refine ⟨hlt, ?_, hlt, ?_⟩
  · rw [readAt, ← List.head?_drop, h.2, List.head?_cons]
  · rw [← List.drop_drop, h.2]
    rfl

theorem testAt_eq (h : At range s t) (p : UInt8 → Bool) : testAt range p s = some (t.head?.any p) := by
  cases t with
  | nil => rw [testAt, if_neg (Nat.not_lt.mpr h.nil.ge), List.head?_nil, Option.any_none]
  | cons c t =>
      obtain ⟨hlt, hread, -⟩ := h.cons
      rw [testAt, if_pos hlt, hread, Option.map_some, List.head?_cons, Option.any_some]

theorem int_eq {n : Int} (h0 : 0 ≤ n) (hn : n < 2 ^ 31) : int n = some n :=
  if_pos ⟨h0.trans' (by decide), hn⟩

/-- The value stays below the clamp, so ten times it and a digit fit in an `int`. -/
theorem digitsFrom_eq {max w : Int} (hmax : max ≤ 96) (h0 : 0 ≤ w) (hw : w ≤ max)
    (h : At range s t) :
    ∃ s', digitsFrom range max w s = some ((parseDigits max w t).1, s') ∧
      At range s' (parseDigits max w t).2 := by
  induction t generalizing w s with
  | nil =>
      rw [digitsFrom, dif_neg (Nat.not_lt.mpr h.nil.ge)]
      exact ⟨s, rfl, h⟩
  | cons c t ih =>
      obtain ⟨hlt, hread, hnext⟩ := h.cons
      rw [digitsFrom, dif_pos hlt, hread, bind_some_eq, parseDigits]
      by_cases hc : isDigit c = true
      · have hdigit0 := digit_nonneg hc
        have hdigit9 : (c.toNat : Int) - (ch '0').toNat ≤ 9 := by
          rw [isDigit, Bool.and_eq_true, decide_eq_true_eq, decide_eq_true_eq] at hc
          have hle : c.toNat ≤ (ch '9').toNat := UInt8.le_iff_toNat_le.mp hc.2
          have hnine : (ch '9').toNat = (ch '0').toNat + 9 := rfl
          omega
        rw [if_pos hc, if_pos hc, int_eq hdigit0 (by omega), bind_some_eq,
          int_eq (n := w * 10) (by omega) (by omega), bind_some_eq,
          int_eq (by omega) (by omega), bind_some_eq]
        exact ih (by split <;> omega) (by split <;> omega) hnext
      · rw [if_neg hc, if_neg hc]
        exact ⟨s, rfl, h⟩

theorem typeIn_eq (spec : FmtSpec) (h : At range s t) :
    typeIn range spec s = some (parseType spec t) := by
  cases t with
  | nil =>
      have hend := h.nil
      rw [typeIn, if_neg (Nat.not_lt.mpr hend.ge), decide_eq_true hend, parseType]
  | cons c t =>
      obtain ⟨hlt, hread, hnext⟩ := h.cons
      have hend : decide (s + 1 = range.length) = t.isEmpty := by
        cases t with
        | nil => exact decide_eq_true hnext.nil
        | cons d t => exact decide_eq_false hnext.cons.1.ne
      rw [typeIn, if_pos hlt, hread, bind_some_eq, hend, parseType]
      split <;> rfl

theorem precIn_eq (spec : FmtSpec) (h : At range s t) :
    precIn range spec s = some (parsePrec spec t) := by
  rw [precIn, testAt_eq h, bind_some_eq]
  cases t with
  | nil =>
      rw [parsePrec]
      exact typeIn_eq spec h
  | cons c t =>
      obtain ⟨-, -, hnext⟩ := h.cons
      by_cases hpoint : c = ch '.'
      · rw [List.head?_cons, Option.any_some, decide_eq_true hpoint, if_pos rfl, testAt_eq hnext,
          bind_some_eq]
        cases t with
        | nil =>
            simp only [parsePrec, if_pos hpoint]
            rfl
        | cons d t =>
            simp only [parsePrec, if_pos hpoint]
            rw [List.head?_cons, Option.any_some]
            by_cases hd : isDigit d = true
            · obtain ⟨s', hdigits, hrest⟩ := digitsFrom_eq (by decide : kMaxPrec ≤ 96)
                (Int.le_refl 0) (by decide) hnext
              rw [if_pos hd, if_pos hd, hdigits, bind_some_eq]
              exact typeIn_eq _ hrest
            · rw [if_neg hd, if_neg hd]
      · rw [List.head?_cons, Option.any_some, decide_eq_false hpoint, if_neg Bool.false_ne_true]
        simp only [parsePrec, if_neg hpoint]
        exact typeIn_eq spec h

theorem widthIn_eq (spec : FmtSpec) (h : At range s t) :
    ∃ spec' s' t', widthIn range spec s = some (spec', s') ∧ At range s' t' ∧
      parseWidth spec t = parsePrec spec' t' := by
  rw [widthIn, testAt_eq h, bind_some_eq]
  cases t with
  | nil => exact ⟨spec, s, [], rfl, h, rfl⟩
  | cons c t =>
      rw [List.head?_cons, Option.any_some]
      by_cases hc : isDigit c = true
      · obtain ⟨s', hdigits, hrest⟩ := digitsFrom_eq (by decide : kMaxWidth ≤ 96) (Int.le_refl 0)
          (by decide) h
        rw [if_pos hc, hdigits, bind_some_eq]
        exact ⟨_, s', _, rfl, hrest, by rw [parseWidth, if_pos hc]⟩
      · rw [if_neg hc]
        exact ⟨spec, s, c :: t, rfl, h, by rw [parseWidth, if_neg hc]⟩

theorem zeroIn_eq (range : Text) :
    ∃ spec s t, zeroIn range 0 = some (spec, s) ∧ At range s t ∧
      parseSpec range = parseWidth spec t := by
  have h : At range 0 range := ⟨Nat.zero_le _, rfl⟩
  rw [zeroIn, testAt_eq h, bind_some_eq]
  cases hrange : range with
  | nil =>
      rw [hrange] at h
      exact ⟨.none, 0, [], rfl, h, rfl⟩
  | cons c t =>
      rw [hrange] at h
      rw [List.head?_cons, Option.any_some]
      by_cases hzero : c = ch '0'
      · rw [decide_eq_true hzero, if_pos rfl, parseSpec, if_pos hzero]
        exact ⟨_, 1, t, rfl, h.cons.2.2, rfl⟩
      · rw [decide_eq_false hzero, if_neg Bool.false_ne_true, parseSpec, if_neg hzero]
        exact ⟨_, 0, c :: t, rfl, h, rfl⟩

/-- **`ParseSpec` reads nothing outside its range, and no `int` overflows.** -/
theorem parseSpecIn_eq (range : Text) : parseSpecIn range = some (parseSpec range) := by
  obtain ⟨spec, s, t, hzero, hs, hspec⟩ := zeroIn_eq range
  obtain ⟨spec', s', t', hwidth, hs', hspec'⟩ := widthIn_eq spec hs
  rw [parseSpecIn, hzero, bind_some_eq]
  simp only [hwidth, bind_some_eq]
  rw [hspec, hspec']
  exact precIn_eq spec' hs'

end

/-! ### The grammar

The pattern, and what it means to take a text apart along it. Since the parts overlap this
can be done in several ways; `ParseSpec` does it in one, and a text of the pattern can
always be taken apart in that one. -/

/-- `[0-9]`. -/
def digitChars : Text := ascii "0123456789"

/-- `0?[0-9]*(\.[0-9]+)?[fFeEgGdxXos]?`. -/
def specGrammar : RegularExpression UInt8 :=
  opt (char (ch '0')) * (star (oneOf digitChars) *
    (opt (char (ch '.') * many (oneOf digitChars)) * opt (oneOf (ascii "fFeEgGdxXos"))))

theorem mem_digitChars {c : UInt8} : c ∈ digitChars ↔ isDigit c = true := by
  have hall : ∀ k : Fin 256, digitChars.contains (UInt8.ofNat k.val) = isDigit (.ofNat k.val) := by
    decide +kernel
  have hc := hall ⟨c.toNat, c.toNat_lt⟩
  rw [UInt8.ofNat_toNat] at hc
  rw [← hc, List.contains_iff_mem]

theorem mem_prec {t : Text} :
    t ∈ (opt (char (ch '.') * many (oneOf digitChars))).matches' ↔ IsPrec t := by
  have hdigits : ∀ {u : Text}, (∀ c ∈ u, c ∈ digitChars) ↔ Digits u :=
    forall₂_congr fun _ _ => mem_digitChars
  rw [Regex.mem_opt, RegularExpression.matches'_mul, Language.mem_mul]
  refine or_congr_right ⟨?_, ?_⟩
  · rintro ⟨point, hpoint, u, hu, rfl⟩
    obtain rfl : point = [ch '.'] := hpoint
    obtain ⟨d, ds, hds, rfl⟩ := Regex.mem_many_oneOf.mp hu
    exact ⟨d, ds, hdigits.mp hds, rfl⟩
  · rintro ⟨d, ds, hds, rfl⟩
    exact ⟨[ch '.'], rfl, d :: ds, Regex.mem_many_oneOf.mpr ⟨d, ds, hdigits.mpr hds, rfl⟩, rfl⟩

theorem mem_type {t : Text} : t ∈ (opt (oneOf (ascii "fFeEgGdxXos"))).matches' ↔ IsType t := by
  rw [Regex.mem_opt, Regex.mem_oneOf]
  rfl

/-- A text taken apart as `ParseSpec` takes it: a `0` in front is the flag. -/
structure Parts (s : Text) (zero : Bool) (width prec type : Text) : Prop where
  text : s = (if zero then ascii "0" else []) ++ (width ++ (prec ++ type))
  digits : Digits width
  flag : zero = false → width.head? ≠ some (ch '0')
  isPrec : IsPrec prec
  isType : IsType type

theorem mem_specGrammar {s : Text} :
    s ∈ specGrammar.matches' ↔ ∃ zero width prec type, Parts s zero width prec type := by
  have hdigits : ∀ {u : Text}, u ∈ (star (oneOf digitChars)).matches' ↔ Digits u :=
    Regex.mem_star_oneOf.trans (forall₂_congr fun _ _ => mem_digitChars)
  simp only [specGrammar, RegularExpression.matches'_mul, Language.mem_mul, mem_prec, mem_type,
    hdigits]
  constructor
  · rintro ⟨front, hfront, _, ⟨width, hwidth, _, ⟨prec, hprec, type, htype, rfl⟩, rfl⟩, rfl⟩
    rcases hfront with rfl | hfront
    · -- the pattern may leave the flag to the width
      by_cases hhead : width.head? = some (ch '0')
      · obtain ⟨width, rfl⟩ := List.head?_eq_some_iff.mp hhead
        exact ⟨true, width, prec, type, rfl, fun c hc => hwidth c (List.mem_cons_of_mem _ hc), nofun,
          hprec, htype⟩
      · exact ⟨false, width, prec, type, rfl, hwidth, fun _ => hhead, hprec, htype⟩
    · obtain rfl : front = [ch '0'] := hfront
      exact ⟨true, width, prec, type, rfl, hwidth, nofun, hprec, htype⟩
  · rintro ⟨zero, width, prec, type, rfl, hwidth, -, hprec, htype⟩
    refine ⟨if zero then ascii "0" else [], ?_, _, ⟨width, hwidth, _, ⟨prec, hprec, type, htype, rfl⟩,
      rfl⟩, rfl⟩
    cases zero with
    | true => exact .inr rfl
    | false => exact .inl rfl

/-! ### What a text of the grammar says -/

/-- The digits behind the optional `0` in front. -/
def widthDigits (s : Text) : Text :=
  (if s.head? = some (ch '0') then s.tail else s).takeWhile isDigit

/-- The digits behind the point. -/
def precDigits (s : Text) : Text := (s.dropWhile (· ≠ ch '.')).tail.takeWhile isDigit

/-- The letter at the end. -/
def typeLetter (s : Text) : UInt8 :=
  match s.getLast? with
  | some c => if c ∈ ascii "fFeEgGdxXos" then c else 0
  | none => 0

def specOf (s : Text) : FmtSpec where
  ok := true
  zero := s.head? = some (ch '0')
  width := if widthDigits s = [] then -1 else min 96 (number (widthDigits s))
  prec := if ch '.' ∈ s then min 64 (number (precDigits s)) else -1
  type := typeLetter s

namespace Parts

variable {s : Text} {zero : Bool} {width prec type : Text}

theorem stops (h : Parts s zero width prec type) : Stops (prec ++ type) :=
  stops_prec_type h.isPrec h.isType

theorem head?_iff (h : Parts s zero width prec type) : s.head? = some (ch '0') ↔ zero = true := by
  rw [h.text]
  cases zero with
  | true => exact iff_of_true rfl rfl
  | false =>
      refine iff_of_false (fun hhead => ?_) Bool.false_ne_true
      cases width with
      | nil => exact absurd (h.stops _ hhead) (by decide)
      | cons d ds => exact h.flag rfl hhead

theorem widthDigits_eq (h : Parts s zero width prec type) : widthDigits s = width := by
  have hbehind : (if s.head? = some (ch '0') then s.tail else s) = width ++ (prec ++ type) := by
    cases zero with
    | true =>
        rw [if_pos (h.head?_iff.mpr rfl), h.text]
        rfl
    | false =>
        rw [if_neg fun hhead => Bool.false_ne_true (h.head?_iff.mp hhead), h.text]
        rfl
  rw [widthDigits, hbehind]
  exact (takeWhile_append_stop h.digits h.stops).1

/-- In front of the precision there are digits only. -/
theorem digits_front (h : Parts s zero width prec type) :
    Digits ((if zero then ascii "0" else []) ++ width) := by
  intro c hc
  rcases List.mem_append.mp hc with hc | hc
  · cases zero with
    | true =>
        obtain rfl := List.mem_singleton.mp hc
        decide
    | false => cases hc
  · exact h.digits c hc

theorem point_mem_iff (h : Parts s zero width prec type) : ch '.' ∈ s ↔ prec ≠ [] := by
  have hfront : ch '.' ∉ (if zero then ascii "0" else []) ++ width := fun hmem =>
    absurd (h.digits_front _ hmem) (by decide)
  have htype : ch '.' ∉ type := by
    rcases h.isType with rfl | ⟨c, hc, rfl⟩
    · exact List.not_mem_nil
    · intro hmem
      obtain rfl := List.mem_singleton.mp hmem
      exact absurd hc (by decide)
  rw [h.text, ← List.append_assoc, List.mem_append, or_iff_right hfront, List.mem_append,
    or_iff_left htype]
  rcases h.isPrec with rfl | ⟨d, ds, -, rfl⟩
  · exact iff_of_false List.not_mem_nil (not_not_intro rfl)
  · exact iff_of_true List.mem_cons_self (List.cons_ne_nil _ _)

theorem precDigits_eq (h : Parts s zero width prec type) (hprec : prec ≠ []) :
    precDigits s = prec.tail := by
  obtain ⟨d, ds, hds, rfl⟩ := h.isPrec.resolve_left hprec
  have hfront : ∀ c ∈ (if zero then ascii "0" else []) ++ width, decide (c ≠ ch '.') = true := by
    intro c hc
    apply decide_eq_true
    rintro rfl
    exact absurd (h.digits_front _ hc) (by decide)
  have hpoint : ∀ c, (ch '.' :: d :: ds ++ type).head? = some c → decide (c ≠ ch '.') = false := by
    intro c hc
    obtain rfl : ch '.' = c := Option.some.inj hc
    decide
  have hdrop := (takeWhile_append_stop hfront hpoint).2
  have htake := (takeWhile_append_stop hds (isDigit_of_isType h.isType)).1
  rw [precDigits, h.text, ← List.append_assoc, hdrop]
  exact htake

theorem typeLetter_eq (h : Parts s zero width prec type) : typeLetter s = type.headD 0 := by
  rcases h.isType with rfl | ⟨c, hc, rfl⟩
  · -- without a letter the text is digits and a point
    have hother : ∀ c ∈ s, c ∉ ascii "fFeEgGdxXos" := by
      have hletters : (ascii "fFeEgGdxXos").all (fun c => isDigit c = false ∧ c ≠ ch '.') = true := by
        decide
      intro c hc hletter
      obtain ⟨hdigit, hpoint⟩ := of_decide_eq_true (List.all_eq_true.mp hletters c hletter)
      rw [h.text, ← List.append_assoc, List.append_nil] at hc
      rcases List.mem_append.mp hc with hc | hc
      · exact Bool.false_ne_true (hdigit.symm.trans (h.digits_front c hc))
      · rcases h.isPrec with rfl | ⟨d, ds, hds, rfl⟩
        · cases hc
        · rcases List.mem_cons.mp hc with hc | hc
          · exact hpoint hc
          · exact Bool.false_ne_true (hdigit.symm.trans (hds c hc))
    rw [typeLetter]
    cases hlast : s.getLast? with
    | none => rfl
    | some c => exact if_neg (hother c (List.mem_of_getLast? hlast))
  · have hlast : s.getLast? = some c := by
      rw [h.text, ← List.append_assoc, ← List.append_assoc, List.getLast?_append]
      rfl
    rw [typeLetter, hlast]
    exact if_pos hc

/-- **What `ParseSpec` makes of a text of the grammar.** -/
theorem parseSpec_eq (h : Parts s zero width prec type) : parseSpec s = specOf s := by
  have hin := (InSubset.spec zero h.digits h.flag h.isPrec h.isType).bodySpec_eq
  rw [← h.text, bodySpec, if_pos rfl] at hin
  have hzero : decide (s.head? = some (ch '0')) = zero := by
    rw [Bool.eq_iff_iff, decide_eq_true_eq]
    exact h.head?_iff
  have hwidth : (if widthDigits s = [] then (-1 : Int) else min 96 (number (widthDigits s))) =
      clamped kMaxWidth width := by
    rw [h.widthDigits_eq]
    cases width with
    | nil => rfl
    | cons d ds => exact if_neg (List.cons_ne_nil d ds)
  have hprec : (if ch '.' ∈ s then min (64 : Int) (number (precDigits s)) else -1) =
      clamped kMaxPrec prec.tail := by
    by_cases hempty : prec = []
    · rw [if_neg fun hmem => h.point_mem_iff.mp hmem hempty, hempty]
      rfl
    · obtain ⟨d, ds, -, rfl⟩ := h.isPrec.resolve_left hempty
      rw [if_pos (h.point_mem_iff.mpr hempty), h.precDigits_eq hempty]
      rfl
  rw [hin, specOf, hzero, hwidth, hprec, h.typeLetter_eq]

end Parts

/-- A text without a terminator in it is taken apart if it is accepted. -/
theorem exists_parts_of_ok {s : Text} (h0 : 0 ∉ s) (hok : (parseSpec s).ok = true) :
    ∃ zero width prec type, Parts s zero width prec type := by
  have hbody : bodySpec (ch ':' :: s) = parseSpec s := by rw [bodySpec, if_pos rfl]
  have hnot : (0 : UInt8) ∉ ch ':' :: s := List.not_mem_cons_of_ne_of_not_mem (by decide) h0
  have hin := inSubset_of_ok hnot (hbody ▸ hok)
  generalize bodySpec (ch ':' :: s) = spec at hin
  generalize hs : ch ':' :: s = body at hin
  cases hin with
  | empty => cases hs
  | spec zero hwidth hzero hprec htype =>
      exact ⟨zero, _, _, _, List.tail_eq_of_cons_eq hs, hwidth, hzero, hprec, htype⟩

/-- **`ParseSpec` accepts its grammar and nothing else.** On every range without a
terminator in it the run reads only characters of the range and overflows no `int`; the
result is `ok` exactly for the texts of the pattern, and then its fields are what the
text says. -/
theorem parseSpec_exact {s : Text} (h0 : 0 ∉ s) :
    parseSpecIn s = some (parseSpec s) ∧
      ((parseSpec s).ok = true ↔ s ∈ specGrammar.matches') ∧
      ((parseSpec s).ok = true → parseSpec s = specOf s) := by
  refine ⟨parseSpecIn_eq s, ⟨fun hok => ?_, fun hmem => ?_⟩, fun hok => ?_⟩
  · exact mem_specGrammar.mpr (exists_parts_of_ok h0 hok)
  · obtain ⟨zero, width, prec, type, h⟩ := mem_specGrammar.mp hmem
    rw [h.parseSpec_eq]
    rfl
  · obtain ⟨zero, width, prec, type, h⟩ := exists_parts_of_ok h0 hok
    exact h.parseSpec_eq

/-- The flag, a width and a precision that are clamped, and a letter. -/
theorem parseSpec_exact_clamped :
    parseSpecIn (ascii "00120.70e") = some ⟨true, true, 96, 64, ch 'e'⟩ ∧
      ascii "00120.70e" ∈ specGrammar.matches' := by
  obtain ⟨hrun, hiff, hspec⟩ :=
    parseSpec_exact (s := ascii "00120.70e") (by decide)
  have hok : (parseSpec (ascii "00120.70e")).ok = true := by decide +kernel
  refine ⟨?_, hiff.mp hok⟩
  rw [hrun, hspec hok]
  decide +kernel

end XmBase.Telemetry
