import XmBase.Telemetry.Printf
/-!
# XmBase.Telemetry.IntegerRendering

Integers under the specs `[0][width][d|x|X|o]`, against the `{fmt}` syntax they
follow (`src/telemetry_console_binding.cpp`, `RenderArg`). In `{fmt}` a negative number
has a sign and the digits of its absolute value in every base. `RenderArg` casts an
`int64_t` to `unsigned long long` for `x`, `X` and `o`, so **a negative number under one
of these letters is rendered as another number** (`integer_rendered_iff`).
-/

namespace XmBase.Telemetry

/-- The `{fmt}` rendering of an integer. -/
def fmtInteger (zero : Bool) (width : Nat) (letter : UInt8) (n : Int) : Text :=
  padded zero width (signText (n < 0)) (magnitude letter n.natAbs)

/-- The value of an integer argument. -/
def Value.integer : Value → Option Int
  | .i64 v => some v.toInt
  | .u64 v => some v.toNat
  | _ => none

/-- A spec of the form `[0][width][d|x|X|o]`. The fields say how the text is taken apart; a
text of this form can be taken apart in one way only. -/
structure IntegerSpec where
  zero : Bool
  width : Text
  type : Text
  digits : Digits width
  /-- A first zero is the flag. -/
  width_head : zero = false → width.head? ≠ some (ch '0')
  type_mem : type ∈ ["", "d", "x", "X", "o"].map ascii

namespace IntegerSpec

variable (s : IntegerSpec)

def text : Text := (if s.zero then ascii "0" else []) ++ (s.width ++ s.type)

/-- What `ParseSpec` makes of it. -/
theorem parseSpec_eq :
    parseSpec s.text = ⟨true, s.zero, clamped kMaxWidth s.width, -1, s.type.headD 0⟩ := by
  have htype : IsType s.type := by
    have h := s.type_mem
    simp only [List.map_cons, List.map_nil, List.mem_cons, List.not_mem_nil, or_false] at h
    rcases h with h | h | h | h | h
    · exact .inl h
    · exact .inr ⟨ch 'd', by decide, h⟩
    · exact .inr ⟨ch 'x', by decide, h⟩
    · exact .inr ⟨ch 'X', by decide, h⟩
    · exact .inr ⟨ch 'o', by decide, h⟩
  have hsubset : InSubset (ch ':' :: s.text) _ :=
    .spec s.zero s.digits s.width_head (.inl rfl) htype
  exact hsubset.bodySpec_eq

/-- The width, clamped to 96. -/
def fieldWidth : Nat := min 96 (number s.width)

/-- The letter; none means `d`. -/
def letter : UInt8 := s.type.headD 0

theorem letter_mem : s.letter = 0 ∨ s.letter ∈ ascii "dxXo" := by
  have h := s.type_mem
  simp only [List.map_cons, List.map_nil, List.mem_cons, List.not_mem_nil, or_false] at h
  rcases h with h | h | h | h | h
  · exact .inl (by rw [letter, h]; decide)
  all_goals exact .inr (by rw [letter, h]; decide)

theorem toNat_clamped : (clamped kMaxWidth s.width).toNat = s.fieldWidth := by
  rw [fieldWidth]
  cases s.width with
  | nil => rfl
  | cons d ds =>
      have hmax : kMaxWidth = 96 := rfl
      rw [clamped, hmax]
      omega

/-- The cast of an `int64_t` to `unsigned long long`. -/
theorem toNat_toUInt64 (v : Int64) : v.toUInt64.toNat = (v.toInt % 2 ^ 64).toNat := by
  rw [← Int64.toInt_toBitVec, ← UInt64.toNat_toBitVec, Int64.toBitVec_toUInt64,
    BitVec.toInt_eq_toNat_cond]
  have hlt := v.toBitVec.isLt
  split <;> omega

/-- No letter and `d` are decimal, as is `u`. -/
theorem magnitude_of_not_mem {letter : UInt8} (h : letter ∉ ascii "xXo") (n : Nat) :
    magnitude letter n = magnitude (ch 'd') n := by
  have hne : ∀ {c : UInt8}, c ∈ ascii "xXo" → letter ≠ c := fun hc heq => h (heq ▸ hc)
  simp only [magnitude, if_neg (hne (by decide : ch 'x' ∈ ascii "xXo")),
    if_neg (hne (by decide : ch 'X' ∈ ascii "xXo")),
    if_neg (hne (by decide : ch 'o' ∈ ascii "xXo"))]
  rfl

/-- What `RenderArg` appends: under `x`, `X` and `o` the number modulo `2 ^ 64`. -/
theorem valueText_eq {printf : Printf} (hp : IntegerConversions printf) {v : Value} {n : Int}
    (hv : v.integer = some n) :
    valueText printf (parseSpec s.text) v =
      if s.letter ∈ ascii "xXo" then
        padded s.zero s.fieldWidth [] (magnitude s.letter (n % 2 ^ 64).toNat)
      else fmtInteger s.zero s.fieldWidth s.letter n := by
  have hbounded := parseSpec_bounded s.text
  obtain ⟨spec, hspec, hok, hzero, hwidth, hprec, htype⟩ : ∃ spec, parseSpec s.text = spec ∧
      spec.ok = true ∧ spec.zero = s.zero ∧ spec.width.toNat = s.fieldWidth ∧ spec.prec < 0 ∧
      spec.type = s.letter :=
    ⟨_, s.parseSpec_eq, rfl, rfl, s.toNat_clamped, (by decide : (-1 : Int) < 0), rfl⟩
  rw [hspec] at hbounded ⊢
  have happlies : spec.type = 0 ∨ spec.typeIn "dxXo" = true := by
    rw [FmtSpec.typeIn, htype]
    exact s.letter_mem.imp_right List.contains_iff_mem.mpr
  have htypeIn : spec.typeIn "xXo" = true ↔ s.letter ∈ ascii "xXo" := by
    rw [FmtSpec.typeIn, htype]
    exact List.contains_iff_mem
  -- the specification applies, so no default rendering is in play
  have hrule : valueText printf spec v = ruleText printf spec v := by
    apply valueText_applies printf hok hbounded
    cases v with
    | i64 v => exact ⟨hprec, happlies⟩
    | u64 v => exact ⟨hprec, happlies⟩
    | bool b => cases hv
    | f64 bits => cases hv
    | str t => cases hv
  rw [hrule, ← hzero, ← hwidth]
  by_cases hx : s.letter ∈ ascii "xXo"
  · rw [if_pos hx]
    have huxXo : s.letter ∈ ascii "uxXo" := List.mem_cons_of_mem _ hx
    cases v with
    | i64 v =>
        obtain rfl : v.toInt = n := Option.some.inj hv
        -- a negative value goes out with the bits of its unsigned reading
        rw [ruleText, if_pos (htypeIn.mpr hx), htype,
          ← numericText_eq printf hbounded (length_longLong _),
          numericText_unsigned hp hbounded hprec huxXo, toNat_toUInt64]
    | u64 v =>
        obtain rfl : (v.toNat : Int) = n := Option.some.inj hv
        have hlt := v.toNat_lt
        rw [ruleText, if_pos (htypeIn.mpr hx), htype,
          ← numericText_eq printf hbounded (length_longLong _),
          numericText_unsigned hp hbounded hprec huxXo]
        congr 2
        omega
    | bool b => cases hv
    | f64 bits => cases hv
    | str t => cases hv
  · rw [if_neg hx]
    cases v with
    | i64 v =>
        obtain rfl : v.toInt = n := Option.some.inj hv
        rw [ruleText, if_neg (mt htypeIn.mp hx), ← numericText_eq printf hbounded (by decide),
          numericText_signed hp hbounded hprec, fmtInteger, magnitude_of_not_mem hx]
    | u64 v =>
        obtain rfl : (v.toNat : Int) = n := Option.some.inj hv
        -- `%llu` writes what `%lld` would for a value that is not negative
        have hpos : ¬ (v.toNat : Int) < 0 := by omega
        rw [ruleText, if_neg (mt htypeIn.mp hx), ← numericText_eq printf hbounded (by decide),
          show ascii "llu" = ascii "ll" ++ [ch 'u'] from rfl,
          numericText_unsigned hp hbounded hprec (by decide), fmtInteger, magnitude_of_not_mem hx,
          magnitude_of_not_mem (by decide : ch 'u' ∉ ascii "xXo"),
          decide_eq_false hpos]
        rfl
    | bool b => cases hv
    | f64 bits => cases hv
    | str t => cases hv

end IntegerSpec

/-! ### Where the two differ

The cast turns a negative number into one without a sign, and a sign is neither a digit nor
padding. That is enough to tell the two renderings apart, whatever the width is. -/

/-- What the digits of a number are. -/
theorem exists_digit_of_mem_toDigits {b n : Nat} (hb : 1 < b) {c : Char}
    (h : c ∈ Nat.toDigits b n) : ∃ d < b, c = Nat.digitChar d := by
  induction n using Nat.strongRecOn with
  | _ n ih =>
      rw [Nat.toDigits_eq_if hb] at h
      split at h
      · next hn => exact ⟨n, hn, List.mem_singleton.mp h⟩
      · next hn =>
        rcases List.mem_append.mp h with hc | hc
        · exact ih (n / b) (Nat.div_lt_self (by omega) hb) hc
        · exact ⟨n % b, Nat.mod_lt n (by omega), List.mem_singleton.mp hc⟩

/-- A number has no sign among its digits. -/
theorem sign_notMem_magnitude (letter : UInt8) (n : Nat) :
    ch '-' ∉ magnitude letter n := by
  have hdigits : ∀ d : Fin 16, ch (Nat.digitChar d) ≠ ch '-' ∧
      ch (Nat.digitChar d).toUpper ≠ ch '-' := by decide
  intro hmem
  have hb : ∃ b, (1 < b ∧ b ≤ 16) ∧ ∃ c ∈ Nat.toDigits b n, ch c = ch '-' ∨ ch c.toUpper = ch '-' := by
    unfold magnitude at hmem
    split_ifs at hmem
    all_goals obtain ⟨c, hc, heq⟩ := List.mem_map.mp hmem
    · exact ⟨16, by decide, c, hc, .inl heq⟩
    · exact ⟨16, by decide, c, hc, .inr heq⟩
    · exact ⟨8, by decide, c, hc, .inl heq⟩
    · exact ⟨10, by decide, c, hc, .inl heq⟩
  obtain ⟨b, ⟨hb, hle⟩, c, hc, heq⟩ := hb
  obtain ⟨d, hd, rfl⟩ := exists_digit_of_mem_toDigits hb hc
  exact heq.elim (hdigits ⟨d, by omega⟩).1 (hdigits ⟨d, by omega⟩).2

theorem sign_notMem_padded (zero : Bool) (width : Nat) (letter : UInt8) (n : Nat) :
    ch '-' ∉ padded zero width [] (magnitude letter n) := by
  have hfill : ∀ {c : UInt8} {k : Nat}, ch '-' ≠ c → ch '-' ∉ List.replicate k c :=
    fun hne hmem => hne (List.eq_of_mem_replicate hmem)
  unfold padded
  intro hmem
  cases zero with
  | true =>
      rw [if_pos rfl, List.nil_append] at hmem
      exact (List.mem_append.mp hmem).elim (hfill (by decide)) (sign_notMem_magnitude letter n)
  | false =>
      rw [if_neg Bool.false_ne_true, List.append_nil] at hmem
      exact (List.mem_append.mp hmem).elim (hfill (by decide)) (sign_notMem_magnitude letter n)

theorem sign_mem_fmtInteger (zero : Bool) (width : Nat) (letter : UInt8) {n : Int} (hn : n < 0) :
    ch '-' ∈ fmtInteger zero width letter n := by
  have hsign : ch '-' ∈ signText (decide (n < 0)) := by
    rw [decide_eq_true hn]
    decide
  unfold fmtInteger padded
  cases zero with
  | true =>
      rw [if_pos rfl]
      exact List.mem_append_left _ (List.mem_append_left _ hsign)
  | false =>
      rw [if_neg Bool.false_ne_true]
      exact List.mem_append_left _ (List.mem_append_right _ hsign)

theorem Value.integer_lt {v : Value} {n : Int} (h : v.integer = some n) : n < 2 ^ 64 := by
  cases v with
  | i64 v =>
      obtain rfl : v.toInt = n := Option.some.inj h
      have hlt := v.toInt_lt
      omega
  | u64 v =>
      obtain rfl : (v.toNat : Int) = n := Option.some.inj h
      have hlt := v.toNat_lt
      omega
  | bool b => cases h
  | f64 bits => cases h
  | str t => cases h

/-- What is appended is determined by what a large enough buffer holds. -/
theorem eq_of_cut_eq {s t : Text} (h : ∀ cap out, out.length ≤ cap - 1 →
    cut cap (out ++ s) = cut cap (out ++ t)) : s = t := by
  have hcut := h (s.length + t.length + 1) [] (Nat.zero_le _)
  rw [List.nil_append, List.nil_append, cut, cut, List.take_of_length_le (by omega),
    List.take_of_length_le (by omega)] at hcut
  exact hcut

/-- **Integers under a spec.** `RenderArg` appends the `{fmt}` rendering, with the width
clamped to 96, exactly where the number is not negative or the letter is not `x`, `X` or
`o`. -/
theorem integer_rendered_iff (printf : Printf) (hp : IntegerConversions printf) (s : IntegerSpec)
    (p : ArgPack) (i : UInt8) {n : Int} (hn : (p.entry i.toNat).integer = some n) :
    (∀ cap out, out.length ≤ cap - 1 →
      renderArg printf cap out p i (parseSpec s.text) =
        cut cap (out ++ fmtInteger s.zero s.fieldWidth s.letter n)) ↔
      0 ≤ n ∨ s.letter ∉ ascii "xXo" := by
  have htext := s.valueText_eq hp hn
  constructor
  · intro h
    by_contra hneg
    rw [not_or, not_le, not_not] at hneg
    obtain ⟨hneg, hx⟩ := hneg
    rw [if_pos hx] at htext
    have heq : valueText printf (parseSpec s.text) (p.entry i.toNat) =
        fmtInteger s.zero s.fieldWidth s.letter n := by
      apply eq_of_cut_eq
      intro cap out hout
      rw [← renderValue_eq printf _ _ hout]
      exact h cap out hout
    have hsign := sign_mem_fmtInteger s.zero s.fieldWidth s.letter hneg
    rw [← heq, htext] at hsign
    exact sign_notMem_padded _ _ _ _ hsign
  · intro h cap out hout
    rw [renderArg, renderValue_eq printf _ _ hout, htext]
    by_cases hx : s.letter ∈ ascii "xXo"
    · have hnonneg : 0 ≤ n := h.resolve_right (not_not_intro hx)
      have hlt := Value.integer_lt hn
      have hnat : (n % 2 ^ 64).toNat = n.natAbs := by omega
      rw [if_pos hx, hnat, fmtInteger, decide_eq_false (not_lt.mpr hnonneg)]
      rfl
    · rw [if_neg hx]

/-- `08x`. -/
def IntegerSpec.zeroEightHex : IntegerSpec where
  zero := true
  width := ascii "8"
  type := ascii "x"
  digits := List.all_eq_true.mp (by decide)
  width_head := nofun
  type_mem := by decide

/-- `{:08x}` of 255. -/
theorem integer_rendered_zeroEightHex :
    renderArg cPrintf 64 (ascii "a=") (packArgs [.signed 255]) 0
        (parseSpec IntegerSpec.zeroEightHex.text) =
      cut 64 (ascii "a=" ++ fmtInteger true 8 (ch 'x') 255) ∧
    fmtInteger true 8 (ch 'x') 255 = ascii "000000ff" :=
  ⟨(integer_rendered_iff cPrintf cPrintf_integers .zeroEightHex (packArgs [.signed 255]) 0
    (by decide +kernel)).mpr (.inl (by decide)) 64 (ascii "a=") (by decide), by decide +kernel⟩

/-- `{:x}` of -1. -/
theorem integer_rendered_negative :
    IntegerConversions cPrintf ∧
      renderArg cPrintf 64 [] (packArgs [.signed (-1)]) 0 (parseSpec (ascii "x")) =
        ascii "ffffffffffffffff" ∧
      renderArg cPrintf 64 [] (packArgs [.signed (-1)]) 0 (parseSpec (ascii "x")) ≠
        cut 64 ([] ++ fmtInteger false 0 (ch 'x') (-1)) ∧
      fmtInteger false 0 (ch 'x') (-1) = ascii "-1" :=
  ⟨cPrintf_integers, by decide +kernel, by decide +kernel, by decide +kernel⟩

end XmBase.Telemetry
