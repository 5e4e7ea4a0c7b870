import XmBase.Telemetry.FormatSpec
/-!
# XmBase.Telemetry.Printf

What the C standard says about the conversions that `RenderNumeric`
(`src/telemetry_console_binding.cpp`) has `snprintf` do. A conversion is read off its
text (`readConversion`); integers and strings have one rendering each
(`IntegerConversions`, `StringConversions`). Of a double the standard fixes the
layout, and with `f` all digits of a whole number (`DoubleText`).

The other half joins this to the specs: the conversion that a spec of `ParseSpec` stands
for reads as what the spec says, flag, width and precision
(`readConversion_fullConversion`), and so does the text `RenderNumeric` builds in `pf[24]`
(`readConversion_conversion`).
-/

namespace XmBase.Telemetry

/-! ### Conversion specifications -/

/-- `%[0][width][.prec][ll]<letter>`. -/
structure Conversion where
  zero : Bool
  width : Nat
  prec : Option Nat
  longLong : Bool
  letter : UInt8
  deriving DecidableEq, Repr

def readPrec : Text → Option Nat × Text
  | [] => (none, [])
  | c :: s =>
      if c = ch '.' then (some (number (s.takeWhile isDigit)), s.dropWhile isDigit)
      else (none, c :: s)

/-- The length modifier and the letter. -/
def readLetter : Text → Option (Bool × UInt8)
  | [letter] => some (false, letter)
  | [a, b, letter] => if a = ch 'l' ∧ b = ch 'l' then some (true, letter) else none
  | _ => none

def readConversion : Text → Option Conversion
  | [] => none
  | c :: s =>
      if c = ch '%' then
        let flags := s.takeWhile (· = ch '0')
        let s := s.dropWhile (· = ch '0')
        let width := s.takeWhile isDigit
        let rest := readPrec (s.dropWhile isDigit)
        (readLetter rest.2).map fun letter =>
          ⟨!flags.isEmpty, number width, rest.1, letter.1, letter.2⟩
      else none

example : readConversion (ascii "%08.3f") = some ⟨true, 8, some 3, false, ch 'f'⟩ := by
  decide +kernel

/-! ### Rendering

What `printf` does under a conversion, as three assumptions that stand for the standard
library: integers and strings are determined, and of a double it is said what its rendering
may be. They hold together, since `cPrintf` satisfies all three. -/

/-- A sign and digits in a field: zeros go between the two, spaces before them. -/
def padded (zero : Bool) (width : Nat) (sign body : Text) : Text :=
  let fill := width - (sign.length + body.length)
  if zero then sign ++ List.replicate fill (ch '0') ++ body
  else List.replicate fill (ch ' ') ++ sign ++ body

theorem length_padded (zero : Bool) (width : Nat) (sign body : Text) :
    (padded zero width sign body).length = max width (sign.length + body.length) := by
  unfold padded
  cases zero <;> simp only [if_true, Bool.false_eq_true, if_false, List.length_append,
    List.length_replicate] <;> omega

def signText (negative : Bool) : Text := if negative then ascii "-" else []

/-- The digits of a number in the base of a conversion letter. -/
def magnitude (letter : UInt8) (n : Nat) : Text :=
  if letter = ch 'x' then (Nat.toDigits 16 n).map ch
  else if letter = ch 'X' then (Nat.toDigits 16 n).map fun c => ch c.toUpper
  else if letter = ch 'o' then (Nat.toDigits 8 n).map ch
  else (Nat.toDigits 10 n).map ch

/-- A `long long` under `d`, an `unsigned long long` under `u`, `x`, `X` or `o`. A
non-negative `long long` may stand for an unsigned one. -/
def Conversion.integer (c : Conversion) : PrintfArg → Option Text
  | .int v =>
      if c.letter = ch 'd' then
        some (padded c.zero c.width (signText (v.toInt < 0)) (magnitude c.letter v.toInt.natAbs))
      else if (ascii "xXo").contains c.letter ∧ 0 ≤ v.toInt then
        some (padded c.zero c.width [] (magnitude c.letter v.toInt.natAbs))
      else none
  | .uint v =>
      if (ascii "uxXo").contains c.letter then
        some (padded c.zero c.width [] (magnitude c.letter v.toNat))
      else none
  | .str _ | .double _ => none

theorem Conversion.integer_signed {c : Conversion} (h : c.letter = ch 'd') (v : Int64) :
    c.integer (.int v) =
      some (padded c.zero c.width (signText (v.toInt < 0)) (magnitude c.letter v.toInt.natAbs)) :=
  if_pos h

theorem Conversion.integer_unsigned {c : Conversion} (h : c.letter ∈ ascii "uxXo") (v : UInt64) :
    c.integer (.uint v) =
      some (padded c.zero c.width (signText false) (magnitude c.letter v.toNat)) :=
  if_pos (List.contains_iff_mem.mpr h)

/-- `printf` renders integers as the standard says. -/
def IntegerConversions (printf : Printf) : Prop :=
  ∀ {pf : Text} {c : Conversion} {arg : PrintfArg} {text : Text},
    readConversion pf = some c → c.longLong = true → c.prec = none → c.integer arg = some text →
      printf pf arg = text

/-- `printf` renders strings as the standard says. -/
def StringConversions (printf : Printf) : Prop :=
  ∀ {pf : Text} {c : Conversion} {s : Text},
    readConversion pf = some c → c.longLong = false → c.prec = none → c.zero = false →
      c.letter = ch 's' → printf pf (.str s) = padded false c.width [] s

/-! A double of the IEEE format with 64 bits. -/

namespace Double

variable (bits : UInt64)

def negative : Bool := 2 ^ 63 ≤ bits.toNat

def exponent : Nat := bits.toNat / 2 ^ 52 % 2 ^ 11

def significand : Nat := bits.toNat % 2 ^ 52 + if exponent bits = 0 then 0 else 2 ^ 52

/-- Neither an infinity nor a NaN. -/
def Finite : Prop := exponent bits < 2047

/-- The magnitude, in units of `2 ^ -1075`. -/
def scaled : Nat := significand bits * 2 ^ max 1 (exponent bits)

def floor : Nat := scaled bits / 2 ^ 1075

def Whole : Prop := Finite bits ∧ scaled bits % 2 ^ 1075 = 0

instance : Decidable (Finite bits) := inferInstanceAs (Decidable (_ < _))

instance : Decidable (Whole bits) := inferInstanceAs (Decidable (_ ∧ _))

end Double

/-- The digits behind the point, and the point where there are any. -/
def fraction (ds : Text) : Text := if ds = [] then [] else ch '.' :: ds

/-- What a conversion of a double may be. -/
inductive DoubleText (c : Conversion) (bits : UInt64) : Text → Prop
  /-- A whole number under `f` is written out. -/
  | whole (hletter : c.letter ∈ ascii "fF") (hwhole : Double.Whole bits) :
      DoubleText c bits (padded c.zero c.width (signText (Double.negative bits))
        (decimal (Double.floor bits) ++ fraction (List.replicate (c.prec.getD 6) (ch '0'))))
  /-- Any other number under `f` is rounded to the digits that are asked for. -/
  | rounded (hletter : c.letter ∈ ascii "fF") (hfinite : Double.Finite bits)
      (hwhole : ¬ Double.Whole bits) {n : Nat}
      (hn : n = Double.floor bits ∨ n = Double.floor bits + 1) {ds : Text}
      (hds : ds.length = c.prec.getD 6) (hdigits : Digits ds) :
      DoubleText c bits (padded c.zero c.width (signText (Double.negative bits))
        (decimal n ++ fraction ds))
  /-- One digit, the digits that are asked for, and an exponent of two or three digits. -/
  | scientific (hletter : c.letter ∈ ascii "eE") (hfinite : Double.Finite bits) (d sign : UInt8)
      {ds es : Text} (hds : ds.length = c.prec.getD 6) (hes : es.length = 2 ∨ es.length = 3) :
      DoubleText c bits (padded c.zero c.width (signText (Double.negative bits))
        (d :: fraction ds ++ c.letter :: sign :: es))
  /-- `g` of an exponent from `-4` to below the precision: as under `f`, with at most
  as many significant digits as the precision says. -/
  | generalFixed (hletter : c.letter ∈ ascii "gG") (hfinite : Double.Finite bits) {ws ds : Text}
      (hds : ws.length + ds.length ≤ max 1 (c.prec.getD 6) + 4) :
      DoubleText c bits (padded c.zero c.width (signText (Double.negative bits))
        (ws ++ fraction ds))
  /-- `g` of any other exponent: as under `e`. -/
  | generalScientific (hletter : c.letter ∈ ascii "gG") (hfinite : Double.Finite bits)
      (d letter sign : UInt8) {ds es : Text} (hds : ds.length < max 1 (c.prec.getD 6))
      (hes : es.length = 2 ∨ es.length = 3) :
      DoubleText c bits (padded c.zero c.width (signText (Double.negative bits))
        (d :: fraction ds ++ letter :: sign :: es))
  | nonfinite (hfinite : ¬ Double.Finite bits) {word : Text}
      (hword : word ∈ ["inf", "infinity", "nan", "INF", "INFINITY", "NAN"].map ascii) :
      DoubleText c bits (padded false c.width (signText (Double.negative bits)) word)

/-- `printf` renders doubles as the standard says. -/
def DoubleConversions (printf : Printf) : Prop :=
  ∀ {pf : Text} {c : Conversion} (bits : UInt64),
    readConversion pf = some c → c.longLong = false → c.letter ∈ ascii "fFeEgG" →
      DoubleText c bits (printf pf (.double bits))

/-- A `printf`: whole numbers, infinities and NaNs as they are, and zeros for the
digits of every other double. -/
def cPrintf : Printf := fun pf arg =>
  match readConversion pf with
  | none => []
  | some c =>
      match arg with
      | .str s => padded false c.width [] s
      | .int _ | .uint _ => (c.integer arg).getD []
      | .double bits =>
          let sign := signText (Double.negative bits)
          let zeros := List.replicate (c.prec.getD 6) (ch '0')
          if ¬ Double.Finite bits then
            padded false c.width sign
              (if Double.significand bits = 2 ^ 52 then ascii "inf" else ascii "nan")
          else if (ascii "fF").contains c.letter then
            padded c.zero c.width sign (decimal (Double.floor bits) ++ fraction zeros)
          else if (ascii "eE").contains c.letter then
            padded c.zero c.width sign (ch '0' :: fraction zeros ++ c.letter :: ascii "+00")
          else padded c.zero c.width sign (ascii "0" ++ fraction [])

theorem cPrintf_integers : IntegerConversions cPrintf := by
  intro pf c arg text hread hlong hprec htext
  unfold cPrintf
  rw [hread]
  cases arg with
  | int v => simp only [htext, Option.getD_some]
  | uint v => simp only [htext, Option.getD_some]
  | str s => cases htext
  | double bits => cases htext

theorem cPrintf_strings : StringConversions cPrintf := by
  intro pf c s hread _ _ _ _
  unfold cPrintf
  rw [hread]

theorem cPrintf_doubles : DoubleConversions cPrintf := by
  intro pf c bits hread hlong hletter
  unfold cPrintf
  rw [hread]
  simp only
  by_cases hfinite : Double.Finite bits
  · rw [if_neg (not_not_intro hfinite)]
    by_cases hf : (ascii "fF").contains c.letter = true
    · rw [if_pos hf]
      rw [List.contains_iff_mem] at hf
      by_cases hwhole : Double.Whole bits
      · exact .whole hf hwhole
      · exact .rounded hf hfinite hwhole (.inl rfl) List.length_replicate fun d hd =>
          List.eq_of_mem_replicate hd ▸ (by decide : isDigit (ch '0') = true)
    · rw [if_neg hf]
      by_cases he : (ascii "eE").contains c.letter = true
      · rw [if_pos he]
        rw [List.contains_iff_mem] at he
        exact .scientific he hfinite _ _ List.length_replicate (.inl rfl)
      · rw [if_neg he]
        have hg : c.letter ∈ ascii "gG" := by
          rw [List.contains_iff_mem] at hf he
          have hsplit : (ascii "fFeEgG").all (fun c => c ∈ ascii "fF" ∨ c ∈ ascii "eE" ∨
            c ∈ ascii "gG") = true := by decide
          have := of_decide_eq_true (List.all_eq_true.mp hsplit c.letter hletter)
          tauto
        refine .generalFixed hg hfinite ?_
        show (ascii "0").length + 0 ≤ _
        exact (by decide : (ascii "0").length + 0 ≤ 4).trans (Nat.le_add_left _ _)
  · rw [if_pos hfinite]
    refine .nonfinite hfinite ?_
    split <;> decide

/-! ### The conversions of `RenderNumeric`

That the text built in `pf[24]` reads as what the spec says. A width of zero would read as a
second flag, and it is one: the spec has the flag then (`FmtSpec.Bounded`). -/

theorem takeWhile_append_stop {p : UInt8 → Bool} {ds rest : Text} (hds : ∀ c ∈ ds, p c = true)
    (hrest : ∀ c, rest.head? = some c → p c = false) :
    (ds ++ rest).takeWhile p = ds ∧ (ds ++ rest).dropWhile p = rest := by
  induction ds with
  | nil =>
      cases rest with
      | nil => exact ⟨rfl, rfl⟩
      | cons c rest =>
          have hc : p c = false := hrest c rfl
          rw [List.nil_append, List.takeWhile_cons_of_neg (by rw [hc]; exact nofun),
            List.dropWhile_cons_of_neg (by rw [hc]; exact nofun)]
          exact ⟨rfl, rfl⟩
  | cons d ds ih =>
      have hd : p d = true := hds d List.mem_cons_self
      obtain ⟨htake, hdrop⟩ := ih fun c hc => hds c (List.mem_cons_of_mem d hc)
      rw [List.cons_append, List.takeWhile_cons_of_pos hd, List.dropWhile_cons_of_pos hd, htake, hdrop]
      exact ⟨rfl, rfl⟩

/-- The precision a text of a precision stands for. -/
def precValue : Text → Option Nat
  | [] => none
  | _ :: ds => some (number ds)

theorem readPrec_append {prec conv : Text} (hprec : IsPrec prec) (hdigit : Stops conv)
    (hpoint : conv.head? ≠ some (ch '.')) : readPrec (prec ++ conv) = (precValue prec, conv) := by
  rcases hprec with rfl | ⟨d, ds, hds, rfl⟩
  · cases conv with
    | nil => rfl
    | cons c conv =>
        rw [List.nil_append, readPrec, if_neg fun h => hpoint (congrArg some h)]
        rfl
  · obtain ⟨htake, hdrop⟩ := takeWhile_append_stop hds hdigit
    rw [List.cons_append, readPrec, if_pos rfl, htake, hdrop]
    rfl

theorem readConversion_append {flags width prec conv : Text} (hflags : ∀ c ∈ flags, c = ch '0')
    (hwidth : Digits width) (hhead : width.head? ≠ some (ch '0')) (hprec : IsPrec prec)
    (hdigit : Stops conv) (hpoint : conv.head? ≠ some (ch '.')) :
    readConversion (ch '%' :: (flags ++ (width ++ (prec ++ conv)))) =
      (readLetter conv).map fun letter =>
        ⟨!flags.isEmpty, number width, precValue prec, letter.1, letter.2⟩ := by
  have hstops : Stops (prec ++ conv) := by
    rcases hprec with rfl | ⟨d, ds, hds, rfl⟩
    · exact hdigit
    · intro c hc
      obtain rfl : ch '.' = c := Option.some.inj hc
      decide
  have hrest : ∀ c, (width ++ (prec ++ conv)).head? = some c → (decide (c = ch '0')) = false := by
    intro c hc
    apply decide_eq_false
    rintro rfl
    cases width with
    | nil => exact absurd (hstops _ hc) (by decide)
    | cons d ds => exact hhead hc
  obtain ⟨hflag, hafter⟩ := takeWhile_append_stop (p := fun c => decide (c = ch '0'))
    (fun c hc => decide_eq_true (hflags c hc)) hrest
  obtain ⟨htake, hdrop⟩ := takeWhile_append_stop hwidth hstops
  rw [readConversion, if_pos rfl]
  simp only [hflag, hafter, htake, hdrop, readPrec_append hprec hdigit hpoint]

/-- The text of a precision. -/
theorem FmtSpec.Bounded.prec_text {spec : FmtSpec} (h : spec.Bounded) :
    IsPrec (if spec.prec ≥ 0 then ascii "." ++ decimal spec.prec else []) ∧
      precValue (if spec.prec ≥ 0 then ascii "." ++ decimal spec.prec else []) =
        if 0 ≤ spec.prec then some spec.prec.toNat else Option.none := by
  by_cases h0 : 0 ≤ spec.prec
  · obtain ⟨hdigits, hnumber, -, -⟩ := decimal_bounded h0 (h.prec_le.trans (by decide))
    rw [if_pos h0, if_pos h0, show ascii "." = [ch '.'] by decide, List.singleton_append]
    refine ⟨.inr ?_, congrArg some hnumber⟩
    cases hdecimal : decimal spec.prec with
    | nil => exact absurd (List.map_eq_nil_iff.mp hdecimal) Nat.toDigits_ne_nil
    | cons d ds => exact ⟨d, ds, hdecimal ▸ hdigits, rfl⟩
  · rw [if_neg h0, if_neg h0]
    exact ⟨.inl rfl, rfl⟩

/-- The flag and the text of a width. A width of zero reads as a second flag. -/
theorem FmtSpec.Bounded.width_text {spec : FmtSpec} (h : spec.Bounded) :
    ∃ flags width, (∀ c ∈ flags, c = ch '0') ∧ Digits width ∧ width.head? ≠ some (ch '0') ∧
      (!flags.isEmpty) = spec.zero ∧ number width = spec.width.toNat ∧
      (if spec.zero then ascii "0" else []) ++
        (if spec.width ≥ 0 then decimal spec.width else []) = flags ++ width := by
  have hflag : (∀ c ∈ (if spec.zero then ascii "0" else []), c = ch '0') ∧
      (!(if spec.zero then ascii "0" else []).isEmpty) = spec.zero := by
    cases spec.zero with
    | true =>
        have hall : (ascii "0").all (fun c => c = ch '0') = true := by decide
        exact ⟨fun c hc => of_decide_eq_true (List.all_eq_true.mp hall c hc), by decide⟩
    | false => exact ⟨nofun, rfl⟩
  rcases lt_trichotomy spec.width 0 with hneg | hzero | hpos
  · refine ⟨_, [], hflag.1, nofun, nofun, hflag.2, ?_, ?_⟩
    · rw [Int.toNat_of_nonpos hneg.le]
      rfl
    · rw [if_neg (not_le.mpr hneg)]
  · have hset := h.zero_of_width hzero
    refine ⟨ascii "00", [], ?_, nofun, nofun, ?_, ?_, ?_⟩
    · have hall : (ascii "00").all (fun c => c = ch '0') = true := by decide
      exact fun c hc => of_decide_eq_true (List.all_eq_true.mp hall c hc)
    · rw [hset]
      decide
    · rw [hzero]
      rfl
    · rw [hset, hzero]
      decide
  · obtain ⟨hdigits, hnumber, -, hhead⟩ := decimal_bounded hpos.le h.width_le
    refine ⟨_, decimal spec.width, hflag.1, hdigits, hhead hpos.ne', hflag.2, hnumber, ?_⟩
    rw [if_pos hpos.le]

/-- **The conversion says what the spec says.** -/
theorem readConversion_fullConversion {spec : FmtSpec} (h : spec.Bounded) (conv : Text)
    (hdigit : Stops conv) (hpoint : conv.head? ≠ some (ch '.')) :
    readConversion (fullConversion spec conv) =
      (readLetter conv).map fun letter =>
        ⟨spec.zero, spec.width.toNat, if 0 ≤ spec.prec then some spec.prec.toNat else none,
          letter.1, letter.2⟩ := by
  obtain ⟨hprec, hvalue⟩ := h.prec_text
  obtain ⟨flags, width, hflags, hwidth, hhead, hzero, hnumber, htext⟩ := h.width_text
  have hfull : fullConversion spec conv = ch '%' :: (flags ++ (width ++
      ((if spec.prec ≥ 0 then ascii "." ++ decimal spec.prec else []) ++ conv))) := by
    rw [fullConversion, List.append_assoc (ascii "%"), htext, show ascii "%" = [ch '%'] by decide]
    simp only [List.append_assoc, List.cons_append, List.nil_append]
  rw [hfull, readConversion_append hflags hwidth hhead hprec hdigit hpoint, hzero, hnumber, hvalue]

/-- So does the one in `pf[24]`. -/
theorem readConversion_conversion {spec : FmtSpec} (h : spec.Bounded) (conv : Text)
    (hconv : conv.length ≤ 3) (hdigit : Stops conv) (hpoint : conv.head? ≠ some (ch '.')) :
    readConversion (conversion spec conv) =
      (readLetter conv).map fun letter =>
        ⟨spec.zero, spec.width.toNat, if 0 ≤ spec.prec then some spec.prec.toNat else none,
          letter.1, letter.2⟩ := by
  rw [conversion_eq_full h hconv, readConversion_fullConversion h conv hdigit hpoint]

/-! ### Integers -/

theorem length_magnitude_le (letter : UInt8) {n : Nat} (hn : n < 2 ^ 64) :
    (magnitude letter n).length ≤ 22 := by
  have hlength : ∀ {b : Nat}, 1 < b → 2 ^ 64 ≤ b ^ 22 → (Nat.toDigits b n).length ≤ 22 :=
    fun hb hpow => (Nat.length_toDigits_le_iff hb (by decide)).mpr (hn.trans_le hpow)
  unfold magnitude
  split_ifs
  all_goals
    rw [List.length_map]
    exact hlength (by decide) (by decide)

theorem length_signText (negative : Bool) :
    (signText negative).length = if negative then 1 else 0 := by
  cases negative <;> decide

theorem length_signText_le (negative : Bool) : (signText negative).length ≤ 1 := by
  rw [length_signText]
  split <;> decide

theorem FmtSpec.Bounded.width_toNat_le {spec : FmtSpec} (h : spec.Bounded) :
    spec.width.toNat ≤ 96 := Int.toNat_le.mpr h.width_le

/-- What `snprintf` makes of the conversion of an integer. -/
theorem printf_integer {printf : Printf} (hp : IntegerConversions printf) {spec : FmtSpec}
    (hspec : spec.Bounded) (hprec : spec.prec < 0) {letter : UInt8} {arg : PrintfArg} {text : Text}
    (htext : Conversion.integer ⟨spec.zero, spec.width.toNat, none, true, letter⟩ arg =
      some text) :
    printf (conversion spec (ascii "ll" ++ [letter])) arg = text := by
  have hconv : ascii "ll" ++ [letter] = [ch 'l', ch 'l', letter] := rfl
  have hread := readConversion_conversion hspec [ch 'l', ch 'l', letter] (by simp)
    (by intro c hc; obtain rfl := Option.some.inj hc; decide)
    (show some (ch 'l') ≠ some (ch '.') by decide)
  have hletter : readLetter [ch 'l', ch 'l', letter] = some (true, letter) := by
    rw [readLetter, if_pos ⟨rfl, rfl⟩]
  rw [hletter, if_neg (by omega), Option.map_some] at hread
  rw [hconv, hp hread rfl rfl htext]

/-- It is far shorter than `tmp[192]`. -/
theorem length_integer_le {spec : FmtSpec} (hspec : spec.Bounded) (negative : Bool)
    (letter : UInt8) {n : Nat} (hn : n < 2 ^ 64) :
    (padded spec.zero spec.width.toNat (signText negative) (magnitude letter n)).length ≤ 96 := by
  have hwidth := hspec.width_toNat_le
  have hsign := length_signText_le negative
  have hdigits := length_magnitude_le letter hn
  rw [length_padded]
  omega

/-- `RenderNumeric` of an integer. -/
theorem numericText_integer {printf : Printf} (hp : IntegerConversions printf) {spec : FmtSpec}
    (hspec : spec.Bounded) (hprec : spec.prec < 0) {letter : UInt8} {arg : PrintfArg}
    (negative : Bool) {n : Nat} (hn : n < 2 ^ 64)
    (htext : Conversion.integer ⟨spec.zero, spec.width.toNat, none, true, letter⟩ arg =
      some (padded spec.zero spec.width.toNat (signText negative) (magnitude letter n))) :
    numericText printf spec (ascii "ll" ++ [letter]) arg =
      padded spec.zero spec.width.toNat (signText negative) (magnitude letter n) := by
  rw [numericText, printf_integer hp hspec hprec htext]
  exact List.take_of_length_le ((length_integer_le hspec negative letter hn).trans (by decide))

theorem numericText_signed {printf : Printf} (hp : IntegerConversions printf) {spec : FmtSpec}
    (hspec : spec.Bounded) (hprec : spec.prec < 0) (v : Int64) :
    numericText printf spec (ascii "lld") (.int v) =
      padded spec.zero spec.width.toNat (signText (v.toInt < 0))
        (magnitude (ch 'd') v.toInt.natAbs) := by
  have hlo := v.le_toInt
  have hhi := v.toInt_lt
  exact numericText_integer hp hspec hprec (v.toInt < 0) (by omega) (Conversion.integer_signed rfl v)

theorem numericText_unsigned {printf : Printf} (hp : IntegerConversions printf) {spec : FmtSpec}
    (hspec : spec.Bounded) (hprec : spec.prec < 0) {letter : UInt8}
    (hletter : letter ∈ ascii "uxXo") (v : UInt64) :
    numericText printf spec (ascii "ll" ++ [letter]) (.uint v) =
      padded spec.zero spec.width.toNat [] (magnitude letter v.toNat) :=
  numericText_integer hp hspec hprec false v.toNat_lt (Conversion.integer_unsigned hletter v)

end XmBase.Telemetry
