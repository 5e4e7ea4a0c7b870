import XmBase.Telemetry.IntegerRendering
/-!
# XmBase.Telemetry.NumberRoom

The two buffers of `RenderNumeric` (`src/telemetry_console_binding.cpp`): the
conversion in `pf[24]` and its rendering in `tmp[192]`, of which 191 characters are
appended at most. The first is always large enough. So is the second for a bool, an
integer, and a double under `e`, `g` or no letter, where width and precision bound the
rendering. Under `f` a double has as many digits before the point as it needs, up to
309, and **a large whole number is cut** (`number_uncut_iff`).
-/

namespace XmBase.Telemetry

/-- A call of `RenderNumeric`. It is what reaches `snprintf`. -/
structure NumericCall where
  spec : FmtSpec
  conv : Text
  arg : PrintfArg
  deriving DecidableEq, Repr

/-- The call `RenderArg` makes for a bool or a number; none where it appends the text
of a bool as it is. -/
def numericCall (spec : FmtSpec) : Value → Option NumericCall
  | .bool v =>
      if spec.ok && spec.prec < 0 && spec.typeIn "dxXo" then
        some ⟨spec, ascii "ll" ++ [spec.type], .int (if v then 1 else 0)⟩
      else if spec.ok && (spec.type = ch 's' || spec.type = 0) && !spec.zero then
        some ⟨{ spec with prec := -1 }, ascii "s",
          .str (if v then ascii "true" else ascii "false")⟩
      else none
  | .i64 v =>
      if spec.ok && spec.prec < 0 && (spec.type = ch 'd' || spec.type = 0) then
        some ⟨spec, ascii "lld", .int v⟩
      else if spec.ok && spec.prec < 0 && spec.typeIn "xXo" then
        some ⟨spec, ascii "ll" ++ [spec.type], .uint v.toUInt64⟩
      else some ⟨.none, ascii "lld", .int v⟩
  | .u64 v =>
      if spec.ok && spec.prec < 0 && (spec.type = 0 || spec.type = ch 'd') then
        some ⟨spec, ascii "llu", .uint v⟩
      else if spec.ok && spec.prec < 0 && spec.typeIn "xXo" then
        some ⟨spec, ascii "ll" ++ [spec.type], .uint v⟩
      else some ⟨.none, ascii "llu", .uint v⟩
  | .f64 bits =>
      if spec.ok && (spec.typeIn "fFeEgG" || spec.type = 0) then
        some ⟨spec, [if spec.type = 0 then ch 'g' else spec.type], .double bits⟩
      else some ⟨.none, ascii "g", .double bits⟩
  | .str _ => none

theorem renderValue_of_numericCall {printf : Printf} {spec : FmtSpec} {v : Value}
    {call : NumericCall} (h : numericCall spec v = some call) (cap : Nat) (out : Text) :
    renderValue printf cap out spec v = renderNumeric printf cap out call.spec call.conv call.arg := by
  cases v with
  | bool v =>
      simp only [numericCall] at h
      simp only [renderValue]
      split_ifs at h ⊢
      all_goals
        cases h
        rfl
  | i64 v =>
      simp only [numericCall] at h
      simp only [renderValue]
      split_ifs at h ⊢
      all_goals
        cases h
        rfl
  | u64 v =>
      simp only [numericCall] at h
      simp only [renderValue]
      split_ifs at h ⊢
      all_goals
        cases h
        rfl
  | f64 bits =>
      simp only [numericCall] at h
      simp only [renderValue]
      split_ifs at h ⊢
      all_goals
        cases h
        rfl
  | str s => cases h

/-- What `snprintf` would write for a call, given enough room. -/
def NumericCall.rendering (printf : Printf) (call : NumericCall) : Text :=
  printf (fullConversion call.spec call.conv) call.arg

/-- The precision of a spec for `f`. -/
def FmtSpec.fixedPrec (spec : FmtSpec) : Nat := if spec.prec < 0 then 6 else spec.prec.toNat

/-- A whole number under `f` with its sign, its digits, and the point and zeros behind
it comes to at most 191 characters. -/
def FitsTmp (spec : FmtSpec) : Value → Prop
  | .f64 bits =>
      spec.ok = true → spec.type ∈ ascii "fF" → Double.Whole bits →
        (if Double.negative bits then 1 else 0) + (decimal (Double.floor bits)).length +
          (if spec.fixedPrec = 0 then 0 else 1 + spec.fixedPrec) ≤ 191
  | _ => True

instance (spec : FmtSpec) : (v : Value) → Decidable (FitsTmp spec v)
  | .f64 _ => inferInstanceAs (Decidable (_ → _ → _ → _ ≤ _))
  | .bool _ | .i64 _ | .u64 _ | .str _ => .isTrue trivial

/-! ### How long a rendering is

The width is at most 96 and the precision at most 64, so what can be long is only the part
in front of the point. A double with a fraction is below `2 ^ 53` and has 16 digits there;
one without a fraction may have 309. -/

theorem length_fraction (ds : Text) :
    (fraction ds).length = if ds.length = 0 then 0 else 1 + ds.length := by
  cases ds with
  | nil => rfl
  | cons d ds =>
      have hne : (d :: ds).length ≠ 0 := Nat.succ_ne_zero ds.length
      rw [fraction, if_neg (List.cons_ne_nil d ds), if_neg hne, List.length_cons, Nat.add_comm]

theorem length_fraction_le (ds : Text) : (fraction ds).length ≤ 1 + ds.length := by
  rw [length_fraction]
  split <;> omega

theorem mul_pow_mod_pow (a : Nat) {m k : Nat} (h : m ≤ k) : a * 2 ^ k % 2 ^ m = 0 :=
  Nat.mod_eq_zero_of_dvd ((Nat.pow_dvd_pow 2 h).mul_left a)

/-- A double that is no whole number is below `2 ^ 53`. -/
theorem Double.floor_lt {bits : UInt64} (hfinite : Double.Finite bits)
    (hwhole : ¬ Double.Whole bits) : Double.floor bits < 2 ^ 53 := by
  have hexp : max 1 (exponent bits) < 1075 := by
    by_contra hge
    exact hwhole ⟨hfinite, mul_pow_mod_pow (significand bits) (Nat.le_of_not_lt hge)⟩
  have hsig : significand bits < 2 ^ 53 := by
    unfold significand
    have hlt : bits.toNat % 2 ^ 52 < 2 ^ 52 := Nat.mod_lt _ (by decide)
    split <;> omega
  rw [floor, Nat.div_lt_iff_lt_mul (Nat.pow_pos (by decide)), scaled]
  calc significand bits * 2 ^ max 1 (exponent bits)
      < 2 ^ 53 * 2 ^ max 1 (exponent bits) := Nat.mul_lt_mul_of_pos_right hsig (Nat.pow_pos (by decide))
    _ ≤ 2 ^ 53 * 2 ^ 1075 :=
      Nat.mul_le_mul_left _ (Nat.pow_le_pow_right (by decide) hexp.le)

/-- The digits of a double with a fraction before its point. -/
theorem length_decimal_le_sixteen {n : Nat} (hn : n ≤ 2 ^ 53) : (decimal n).length ≤ 16 := by
  have hpow : (2 : Nat) ^ 53 < 10 ^ 16 := by decide
  exact length_decimal_le (by decide) (by exact_mod_cast hn.trans_lt hpow)

/-- Whatever is not a whole number under `f` is short. -/
theorem DoubleText.length_le {c : Conversion} {bits : UInt64} {text : Text}
    (h : DoubleText c bits text) (hwidth : c.width ≤ 96) (hprec : c.prec.getD 6 ≤ 64)
    (hwhole : c.letter ∈ ascii "fF" → ¬ Double.Whole bits) : text.length ≤ 191 := by
  have hsign := length_signText_le (Double.negative bits)
  cases h with
  | whole hletter hw => exact absurd hw (hwhole hletter)
  | rounded hletter hfinite hw hn hds hdigits =>
      rename_i n ds
      have hfloor := Double.floor_lt hfinite hw
      have hdecimal : (decimal n).length ≤ 16 := length_decimal_le_sixteen (by omega)
      have hfrac := length_fraction_le ds
      rw [length_padded, List.length_append]
      omega
  | scientific hletter hfinite d sign hds hes =>
      rename_i ds es
      have hfrac := length_fraction_le ds
      rw [length_padded, List.length_append, List.length_cons, List.length_cons, List.length_cons]
      omega
  | generalFixed hletter hfinite hds =>
      rename_i ws ds
      have hfrac := length_fraction_le ds
      rw [length_padded, List.length_append]
      omega
  | generalScientific hletter hfinite d letter sign hds hes =>
      rename_i ds es
      have hfrac := length_fraction_le ds
      rw [length_padded, List.length_append, List.length_cons, List.length_cons, List.length_cons]
      omega
  | nonfinite hfinite hword =>
      rename_i word
      have hall : (["inf", "infinity", "nan", "INF", "INFINITY", "NAN"].map ascii).all
          (fun word => word.length ≤ 8) = true := by decide
      have hlength : word.length ≤ 8 := of_decide_eq_true (List.all_eq_true.mp hall word hword)
      rw [length_padded]
      omega

/-- A whole number under `f`. -/
theorem DoubleText.length_le_iff {c : Conversion} {bits : UInt64} {text : Text}
    (h : DoubleText c bits text) (hletter : c.letter ∈ ascii "fF") (hwhole : Double.Whole bits)
    (hwidth : c.width ≤ 96) :
    text.length ≤ 191 ↔
      (if Double.negative bits then 1 else 0) + (decimal (Double.floor bits)).length +
        (if c.prec.getD 6 = 0 then 0 else 1 + c.prec.getD 6) ≤ 191 := by
  have hother : ∀ {letters : String}, c.letter ∈ ascii letters →
      (ascii "fF").all (fun c => c ∉ ascii letters) = true → False := by
    intro letters hin hall
    exact of_decide_eq_true (List.all_eq_true.mp hall c.letter hletter) hin
  cases h with
  | whole _ _ =>
      rw [length_padded, List.length_append, length_fraction, List.length_replicate, length_signText]
      omega
  | rounded _ _ hw _ _ _ => exact absurd hwhole hw
  | scientific he _ _ _ _ _ => exact (hother he (by decide)).elim
  | generalFixed hg _ _ => exact (hother hg (by decide)).elim
  | generalScientific hg _ _ _ _ _ _ => exact (hother hg (by decide)).elim
  | nonfinite hf _ => exact absurd hwhole.1 hf

/-! ### The calls -/

theorem FmtSpec.fixedPrec_eq (spec : FmtSpec) :
    (if 0 ≤ spec.prec then some spec.prec.toNat else Option.none).getD 6 = spec.fixedPrec := by
  rw [fixedPrec]
  by_cases h : 0 ≤ spec.prec
  · rw [if_pos h, if_neg (not_lt.mpr h)]
    rfl
  · rw [if_neg h, if_pos (not_le.mp h)]
    rfl

/-- What `snprintf` makes of the conversion of a double. -/
theorem printf_double {printf : Printf} (hp : DoubleConversions printf) {spec : FmtSpec}
    (hspec : spec.Bounded) {letter : UInt8} (hletter : letter ∈ ascii "fFeEgG") (bits : UInt64) :
    DoubleText ⟨spec.zero, spec.width.toNat,
      if 0 ≤ spec.prec then some spec.prec.toNat else none, false, letter⟩ bits
      (printf (conversion spec [letter]) (.double bits)) := by
  have hstop : ∀ {c : UInt8}, c ∈ ascii "fFeEgG" → isDigit c = false ∧ c ≠ ch '.' := by
    intro c hc
    have hall : (ascii "fFeEgG").all (fun c => isDigit c = false ∧ c ≠ ch '.') = true := by decide
    exact of_decide_eq_true (List.all_eq_true.mp hall c hc)
  refine hp bits (readConversion_conversion hspec [letter] (by simp) ?_ ?_) rfl hletter
  · intro c hc
    obtain rfl : letter = c := Option.some.inj hc
    exact (hstop hletter).1
  · exact fun h => (hstop hletter).2 (Option.some.inj h)

/-- A double is cut only where it is a whole number under `f`. -/
theorem length_double_le_iff {printf : Printf} (hp : DoubleConversions printf) {spec : FmtSpec}
    (hspec : spec.Bounded) {letter : UInt8} (hletter : letter ∈ ascii "fFeEgG") (bits : UInt64) :
    (printf (conversion spec [letter]) (.double bits)).length ≤ 191 ↔
      (letter ∈ ascii "fF" → Double.Whole bits →
        (if Double.negative bits then 1 else 0) + (decimal (Double.floor bits)).length +
          (if spec.fixedPrec = 0 then 0 else 1 + spec.fixedPrec) ≤ 191) := by
  have htext := printf_double hp hspec hletter bits
  have hprec : spec.fixedPrec ≤ 64 := by
    have hle := hspec.prec_le
    have hmax : kMaxPrec = 64 := rfl
    rw [FmtSpec.fixedPrec]
    split <;> omega
  rw [← FmtSpec.fixedPrec_eq] at hprec ⊢
  by_cases hf : letter ∈ ascii "fF" ∧ Double.Whole bits
  · rw [htext.length_le_iff hf.1 hf.2 hspec.width_toNat_le]
    exact ⟨fun h _ _ => h, fun h => h hf.1 hf.2⟩
  · have hle := htext.length_le hspec.width_toNat_le hprec fun h1 h2 => hf ⟨h1, h2⟩
    exact ⟨fun _ h1 h2 => absurd ⟨h1, h2⟩ hf, fun _ => hle⟩

/-- Room for the whole of a rendering is enough exactly where it has at most 191
characters. -/
theorem uncut_iff {printf : Printf} {spec : FmtSpec} {conv : Text} {arg : PrintfArg} {text : Text}
    (htext : printf (conversion spec conv) arg = text) :
    (∀ cap out, out.length + text.length ≤ cap - 1 →
      renderNumeric printf cap out spec conv arg = out ++ text) ↔ text.length ≤ 191 := by
  constructor
  · intro h
    have hroom := h (text.length + 1) [] (by simp)
    rw [renderNumeric_eq printf _ _ _ (Nat.zero_le _), numericText, htext, List.nil_append, cut] at hroom
    have hlength := congrArg List.length hroom
    rw [List.length_take, List.length_take] at hlength
    simp only [List.nil_append] at hlength
    omega
  · intro hle cap out hroom
    rw [renderNumeric_eq printf _ _ _ (by omega), numericText, htext, List.take_of_length_le hle, cut]
    exact List.take_of_length_le (by rw [List.length_append]; exact hroom)

/-- What the calls of `RenderArg` are. -/
inductive Calls (spec : FmtSpec) : Value → NumericCall → Prop
  | boolNumber (b : Bool) (hprec : spec.prec < 0) (htype : spec.type ∈ ascii "dxXo") :
      Calls spec (.bool b) ⟨spec, ascii "ll" ++ [spec.type], .int (if b then 1 else 0)⟩
  | boolText (b : Bool) (hzero : spec.zero = false) :
      Calls spec (.bool b)
        ⟨{ spec with prec := -1 }, ascii "s", .str (if b then ascii "true" else ascii "false")⟩
  | signed (v : Int64) {spec' : FmtSpec} (hspec : spec' = .none ∨ (spec' = spec ∧ spec.prec < 0)) :
      Calls spec (.i64 v) ⟨spec', ascii "ll" ++ [ch 'd'], .int v⟩
  | signedBase (v : Int64) (hprec : spec.prec < 0) (htype : spec.type ∈ ascii "xXo") :
      Calls spec (.i64 v) ⟨spec, ascii "ll" ++ [spec.type], .uint v.toUInt64⟩
  | unsigned (v : UInt64) {spec' : FmtSpec} (hspec : spec' = .none ∨ (spec' = spec ∧ spec.prec < 0))
      {letter : UInt8} (hletter : letter ∈ ascii "uxXo") :
      Calls spec (.u64 v) ⟨spec', ascii "ll" ++ [letter], .uint v⟩
  | double (bits : UInt64) (hok : spec.ok = true) {letter : UInt8}
      (hletter : letter ∈ ascii "fFeEgG") (htype : letter ∈ ascii "fF" ↔ spec.type ∈ ascii "fF") :
      Calls spec (.f64 bits) ⟨spec, [letter], .double bits⟩
  | doubleDefault (bits : UInt64) (hdeclined : ¬ (spec.ok = true ∧ spec.type ∈ ascii "fF")) :
      Calls spec (.f64 bits) ⟨.none, [ch 'g'], .double bits⟩

theorem calls_of_numericCall {spec : FmtSpec} {v : Value} {call : NumericCall}
    (h : numericCall spec v = some call) : Calls spec v call := by
  cases v with
  | bool b =>
      simp only [numericCall] at h
      by_cases hnum : (spec.ok && decide (spec.prec < 0) && spec.typeIn "dxXo") = true
      · rw [if_pos hnum] at h
        cases h
        simp only [Bool.and_eq_true, decide_eq_true_eq] at hnum
        exact .boolNumber b hnum.1.2 (List.contains_iff_mem.mp hnum.2)
      · rw [if_neg hnum] at h
        by_cases htext : (spec.ok && (decide (spec.type = ch 's') || decide (spec.type = 0)) &&
            !spec.zero) = true
        · rw [if_pos htext] at h
          cases h
          simp only [Bool.and_eq_true, Bool.not_eq_true'] at htext
          exact .boolText b htext.2
        · rw [if_neg htext] at h
          cases h
  | i64 v =>
      simp only [numericCall] at h
      split_ifs at h with hd hx
      all_goals cases h
      · simp only [Bool.and_eq_true, decide_eq_true_eq] at hd
        exact .signed v (.inr ⟨rfl, hd.1.2⟩)
      · simp only [Bool.and_eq_true, decide_eq_true_eq] at hx
        exact .signedBase v hx.1.2 (List.contains_iff_mem.mp hx.2)
      · exact .signed v (.inl rfl)
  | u64 v =>
      simp only [numericCall] at h
      split_ifs at h with hd hx
      all_goals cases h
      · simp only [Bool.and_eq_true, decide_eq_true_eq] at hd
        exact .unsigned v (.inr ⟨rfl, hd.1.2⟩) (by decide : ch 'u' ∈ ascii "uxXo")
      · simp only [Bool.and_eq_true, decide_eq_true_eq] at hx
        exact .unsigned v (.inr ⟨rfl, hx.1.2⟩)
          (List.mem_cons_of_mem _ (List.contains_iff_mem.mp hx.2))
      · exact .unsigned v (.inl rfl) (by decide : ch 'u' ∈ ascii "uxXo")
  | f64 bits =>
      simp only [numericCall] at h
      by_cases hg : (spec.ok && (spec.typeIn "fFeEgG" || decide (spec.type = 0))) = true
      · rw [if_pos hg] at h
        cases h
        simp only [Bool.and_eq_true, Bool.or_eq_true, decide_eq_true_eq] at hg
        -- without a letter the conversion is `%g`
        by_cases h0 : spec.type = 0
        · rw [if_pos h0]
          refine .double bits hg.1 (by decide) ?_
          rw [h0]
          decide
        · rw [if_neg h0]
          exact .double bits hg.1 (List.contains_iff_mem.mp (hg.2.resolve_right h0)) Iff.rfl
      · rw [if_neg hg] at h
        cases h
        refine .doubleDefault bits fun hf => hg ?_
        have hsub : ∀ {c : UInt8}, c ∈ ascii "fF" → c ∈ ascii "fFeEgG" :=
          fun hc => List.mem_append_left (ascii "eEgG") hc
        rw [hf.1, FmtSpec.typeIn, List.contains_iff_mem.mpr (hsub hf.2)]
        rfl
  | str s => cases h

/-- Every call has a bounded spec and a short conversion. -/
theorem Calls.bounded {spec : FmtSpec} (hspec : spec.Bounded) {v : Value} {call : NumericCall}
    (h : Calls spec v call) : call.spec.Bounded ∧ call.conv.length ≤ 3 := by
  have hnone : FmtSpec.none.Bounded := FmtSpec.none_bounded false
  have hlong : ∀ letter : UInt8, (ascii "ll" ++ [letter]).length ≤ 3 := fun _ => Nat.le_refl 3
  cases h with
  | boolNumber b hprec htype => exact ⟨hspec, hlong _⟩
  | boolText b hzero => exact ⟨hspec.withoutPrec, (by decide : (ascii "s").length ≤ 3)⟩
  | signed v hspec' =>
      rcases hspec' with rfl | ⟨rfl, hprec⟩
      · exact ⟨hnone, hlong _⟩
      · exact ⟨hspec, hlong _⟩
  | signedBase v hprec htype => exact ⟨hspec, hlong _⟩
  | unsigned v hspec' hletter =>
      rcases hspec' with rfl | ⟨rfl, hprec⟩
      · exact ⟨hnone, hlong _⟩
      · exact ⟨hspec, hlong _⟩
  | double bits hok hletter htype => exact ⟨hspec, Nat.le_add_left 1 2⟩
  | doubleDefault bits hdeclined => exact ⟨hnone, Nat.le_add_left 1 2⟩

/-- The rendering of an integer is not cut. -/
theorem length_printf_integer_le {printf : Printf} (hp : IntegerConversions printf) {spec : FmtSpec}
    (hspec : spec.Bounded) (hprec : spec.prec < 0) {letter : UInt8} {arg : PrintfArg}
    (negative : Bool) {n : Nat} (hn : n < 2 ^ 64)
    (htext : Conversion.integer ⟨spec.zero, spec.width.toNat, none, true, letter⟩ arg =
      some (padded spec.zero spec.width.toNat (signText negative) (magnitude letter n))) :
    (printf (conversion spec (ascii "ll" ++ [letter])) arg).length ≤ 191 := by
  rw [printf_integer hp hspec hprec htext]
  exact (length_integer_le hspec negative letter hn).trans (by decide)

theorem length_printf_lld_le {printf : Printf} (hp : IntegerConversions printf) {spec : FmtSpec}
    (hspec : spec.Bounded) (hprec : spec.prec < 0) (v : Int64) :
    (printf (conversion spec (ascii "lld")) (.int v)).length ≤ 191 := by
  have hlo := v.le_toInt
  have hhi := v.toInt_lt
  show (printf (conversion spec (ascii "ll" ++ [ch 'd'])) (.int v)).length ≤ 191
  refine length_printf_integer_le hp hspec hprec (v.toInt < 0) (n := v.toInt.natAbs) (by omega) ?_
  exact Conversion.integer_signed rfl v

theorem length_printf_unsigned_le {printf : Printf} (hp : IntegerConversions printf)
    {spec : FmtSpec} (hspec : spec.Bounded) (hprec : spec.prec < 0) {letter : UInt8}
    (hletter : letter ∈ ascii "uxXo") (v : UInt64) :
    (printf (conversion spec (ascii "ll" ++ [letter])) (.uint v)).length ≤ 191 := by
  refine length_printf_integer_le hp hspec hprec false v.toNat_lt ?_
  exact Conversion.integer_unsigned hletter v

/-- How long the rendering of a call is. -/
theorem Calls.length_le_iff {printf : Printf} (hi : IntegerConversions printf)
    (hs : StringConversions printf) (hd : DoubleConversions printf) {spec : FmtSpec}
    (hspec : spec.Bounded) {v : Value} {call : NumericCall} (h : Calls spec v call) :
    (printf (conversion call.spec call.conv) call.arg).length ≤ 191 ↔ FitsTmp spec v := by
  have hnone : FmtSpec.none.Bounded := FmtSpec.none_bounded false
  cases h with
  | boolNumber b hprec htype =>
      refine iff_of_true ?_ trivial
      refine length_printf_integer_le hi hspec hprec false (n := if b then 1 else 0)
        (by cases b <;> decide) ?_
      by_cases hdec : spec.type = ch 'd'
      · rw [Conversion.integer, if_pos hdec]
        cases b <;> rfl
      · have hbase : (ascii "xXo").contains spec.type = true ∧
            0 ≤ (if b then 1 else 0 : Int64).toInt := by
          refine ⟨List.contains_iff_mem.mpr ((List.mem_cons.mp htype).resolve_left hdec), ?_⟩
          cases b <;> decide
        rw [Conversion.integer, if_neg hdec, if_pos hbase]
        cases b <;> rfl
  | boolText b hzero =>
      refine iff_of_true ?_ trivial
      have hread := readConversion_conversion hspec.withoutPrec (ascii "s") (by decide)
        (by intro c hc; obtain rfl := Option.some.inj hc; decide) (by decide)
      have hwidth := hspec.width_toNat_le
      rw [hs hread rfl rfl hzero rfl, length_padded]
      have htext : (if b then ascii "true" else ascii "false").length ≤ 5 := by cases b <;> decide
      simp only [List.length_nil]
      omega
  | signed v hspec' =>
      refine iff_of_true ?_ trivial
      rcases hspec' with rfl | ⟨rfl, hprec⟩
      · exact length_printf_lld_le hi hnone (by decide) v
      · exact length_printf_lld_le hi hspec hprec v
  | signedBase v hprec htype =>
      exact iff_of_true
        (length_printf_unsigned_le hi hspec hprec (List.mem_cons_of_mem _ htype) _) trivial
  | unsigned v hspec' hletter =>
      refine iff_of_true ?_ trivial
      rcases hspec' with rfl | ⟨rfl, hprec⟩
      · exact length_printf_unsigned_le hi hnone (by decide) hletter v
      · exact length_printf_unsigned_le hi hspec hprec hletter v
  | double bits hok hletter htype =>
      show (printf (conversion spec [_]) (.double bits)).length ≤ 191 ↔ _
      rw [length_double_le_iff hd hspec hletter, htype]
      exact ⟨fun h _ => h, fun h => h hok⟩
  | doubleDefault bits hdeclined =>
      show (printf (conversion .none [ch 'g']) (.double bits)).length ≤ 191 ↔ _
      rw [length_double_le_iff hd hnone (by decide)]
      -- `%g` always fits, and a declined specification is not a fixed-point one
      refine iff_of_true (fun hg => absurd hg (by decide)) ?_
      exact fun hok htype => absurd ⟨hok, htype⟩ hdeclined

/-- **What `RenderNumeric` appends.** For every bool or number and every spec of
`ParseSpec` the conversion fits in `pf[24]`. Where the message has room, all of the
rendering is appended, except for a whole number under `f` of more than 191 characters. -/
theorem number_uncut_iff (printf : Printf) (hi : IntegerConversions printf)
    (hs : StringConversions printf) (hd : DoubleConversions printf) (s : Text) (p : ArgPack)
    (i : UInt8) {call : NumericCall}
    (hcall : numericCall (parseSpec s) (p.entry i.toNat) = some call) :
    (fullConversion call.spec call.conv).length < 24 ∧
      ((∀ cap out, out.length + (call.rendering printf).length ≤ cap - 1 →
          renderArg printf cap out p i (parseSpec s) = out ++ call.rendering printf) ↔
        FitsTmp (parseSpec s) (p.entry i.toNat)) := by
  have hspec := parseSpec_bounded s
  have hcalls := calls_of_numericCall hcall
  obtain ⟨hbounded, hconv⟩ := hcalls.bounded hspec
  have hfull := conversion_eq_full hbounded hconv
  constructor
  · have hlength := length_fullConversion hbounded call.conv
    omega
  · rw [← hcalls.length_le_iff hi hs hd hspec, ← uncut_iff rfl, hfull]
    simp only [renderArg, renderValue_of_numericCall hcall]
    rfl

/-- The double `1e22`. -/
def tenToTheTwentyTwo : UInt64 := 0x4480F0CF064DD592

/-- The double `2 ^ 1023`. -/
def twoToTheTenTwentyThree : UInt64 := 0x7FE0000000000000

/-- `{:f}` of `1e22`. -/
theorem number_uncut_tenToTheTwentyTwo :
    renderArg cPrintf 64 (ascii "x=") (packArgs [.floating tenToTheTwentyTwo]) 0
        (parseSpec (ascii "f")) =
      ascii "x=" ++ ascii "10000000000000000000000.000000" := by
  have hcall : numericCall (parseSpec (ascii "f"))
      ((packArgs [.floating tenToTheTwentyTwo]).entry (0 : UInt8).toNat) =
        some ⟨⟨true, false, -1, -1, ch 'f'⟩, ascii "f", .double tenToTheTwentyTwo⟩ := by
    decide +kernel
  have huncut := (number_uncut_iff cPrintf cPrintf_integers cPrintf_strings cPrintf_doubles
    (ascii "f") (packArgs [.floating tenToTheTwentyTwo]) 0 hcall).2.mpr (by decide +kernel) 64
    (ascii "x=") (by decide +kernel)
  exact huncut.trans (by decide +kernel)

/-- `{:f}` of `2 ^ 1023` has 315 characters, of which 191 are appended, whatever room
there is. -/
theorem number_cut_twoToTheTenTwentyThree :
    IntegerConversions cPrintf ∧ StringConversions cPrintf ∧ DoubleConversions cPrintf ∧
      (cPrintf (ascii "%f") (.double twoToTheTenTwentyThree)).length = 315 ∧
      (renderArg cPrintf 400 [] (packArgs [.floating twoToTheTenTwentyThree]) 0
        (parseSpec (ascii "f"))).length = 191 ∧
      renderArg cPrintf 400 [] (packArgs [.floating twoToTheTenTwentyThree]) 0
          (parseSpec (ascii "f")) ≠
        cPrintf (ascii "%f") (.double twoToTheTenTwentyThree) :=
  ⟨cPrintf_integers, cPrintf_strings, cPrintf_doubles, by decide +kernel, by decide +kernel,
    by decide +kernel⟩

end XmBase.Telemetry
