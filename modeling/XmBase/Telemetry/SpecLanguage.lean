import XmBase.Telemetry.FormatterAgreement
/-!
# XmBase.Telemetry.SpecLanguage

What a placeholder may ask for, apart from how it is scanned: the subset of the spec
language as a grammar (`InSubset`), and the conversion of `snprintf` that a spec of it
stands for, written out (`fullConversion`).

`ParseSpec` (`src/telemetry_console_binding.cpp`) accepts the subset and reads it as it is
meant (`InSubset.bodySpec_eq`, `inSubset_of_ok`). Whatever it reads, it returns numbers
within bounds (`FmtSpec.Bounded`), and that is why `pf[24]` is large enough: **what
`RenderNumeric` builds there is the whole conversion** (`conversion_eq_full`).
-/

namespace XmBase.Telemetry

/-! ### The spec language

The grammar, with what each text of it means, and that `ParseSpec` accepts it and nothing
else. Digit loops clamp on the way, so that a long number cannot overflow; clamping at the
end gives the same. -/

def Digits (s : Text) : Prop := ∀ c ∈ s, isDigit c = true

/-- The number a sequence of digits stands for. -/
def number (ds : Text) : Nat := ds.foldl (fun n c => n * 10 + (c.toNat - (ch '0').toNat)) 0

/-- `.` and at least one digit, or nothing. -/
def IsPrec (s : Text) : Prop := s = [] ∨ ∃ d ds, Digits (d :: ds) ∧ s = ch '.' :: d :: ds

/-- One of the type letters, or nothing. -/
def IsType (s : Text) : Prop := s = [] ∨ ∃ c ∈ ascii "fFeEgGdxXos", s = [c]

/-- A number of a spec, clamped; `-1` where there is none. -/
def clamped (max : Int) : Text → Int
  | [] => -1
  | d :: ds => min max (number (d :: ds))

/-- The bodies `FormatMessage` honours, with what they say: nothing at all, or
`:[0][width][.prec][type]`. -/
inductive InSubset : Text → FmtSpec → Prop
  | empty : InSubset [] { FmtSpec.none with ok := true }
  | spec (zero : Bool) {width prec type : Text} (hwidth : Digits width)
      (hzero : zero = false → width.head? ≠ some (ch '0')) (hprec : IsPrec prec)
      (htype : IsType type) :
      InSubset (ch ':' :: ((if zero then ascii "0" else []) ++ (width ++ (prec ++ type))))
        ⟨true, zero, clamped kMaxWidth width, clamped kMaxPrec prec.tail, type.headD 0⟩

/-- What follows a number does not go on with it. -/
def Stops (s : Text) : Prop := ∀ c, s.head? = some c → isDigit c = false

theorem parseDigits_of_stops {s : Text} (h : Stops s) (max w : Int) :
    parseDigits max w s = (w, s) := by
  cases s with
  | nil => rw [parseDigits]
  | cons c s => rw [parseDigits, h c rfl, if_neg Bool.false_ne_true]

/-- Clamping on the way is clamping at the end. Once the bound is reached, more digits do
not change it. -/
theorem parseDigits_append {max : Int} (hmax : 0 ≤ max) {ds rest : Text} (hds : Digits ds)
    (hrest : Stops rest) (n : Nat) :
    parseDigits max (min max n) (ds ++ rest) =
      (min max (ds.foldl (fun n c => n * 10 + (c.toNat - (ch '0').toNat)) n : Nat), rest) := by
  induction ds generalizing n with
  | nil => exact parseDigits_of_stops hrest max _
  | cons c ds ih =>
      have hc : isDigit c = true := hds c List.mem_cons_self
      have hds' : Digits ds := fun d hd => hds d (List.mem_cons_of_mem c hd)
      have hge : (ch '0').toNat ≤ c.toNat := by
        rw [isDigit, Bool.and_eq_true, decide_eq_true_eq, decide_eq_true_eq] at hc
        exact UInt8.le_iff_toNat_le.mp hc.1
      have hclamp : (if min max (n : Int) * 10 + (c.toNat - (ch '0').toNat) > max then max
          else min max (n : Int) * 10 + (c.toNat - (ch '0').toNat)) =
          min max ((n * 10 + (c.toNat - (ch '0').toNat) : Nat) : Int) := by
        split <;> omega
      rw [List.cons_append, parseDigits, if_pos hc, List.foldl_cons, ← ih hds']
      exact congrArg (parseDigits max · (ds ++ rest)) hclamp

theorem parseDigits_number (max : Int) (hmax : 0 ≤ max) {d : UInt8} {ds rest : Text}
    (hds : Digits (d :: ds)) (hrest : Stops rest) :
    parseDigits max 0 (d :: (ds ++ rest)) = (clamped max (d :: ds), rest) := by
  have h := parseDigits_append hmax hds hrest 0
  rw [Int.natCast_zero, min_eq_right hmax] at h
  exact h

theorem isDigit_of_isType {type : Text} (h : IsType type) : Stops type := by
  rcases h with rfl | ⟨c, hc, rfl⟩
  · intro c hc
    cases hc
  · intro d hd
    obtain rfl : c = d := Option.some.inj hd
    have hletters : (ascii "fFeEgGdxXos").all (fun c => isDigit c = false) = true := by decide
    exact of_decide_eq_true (List.all_eq_true.mp hletters c hc)

theorem parseType_eq (spec : FmtSpec) (hspec : spec.type = 0) {type : Text} (h : IsType type) :
    parseType spec type = { spec with type := type.headD 0, ok := true } := by
  rcases h with rfl | ⟨c, hc, rfl⟩
  · cases spec
    cases hspec
    rfl
  · have hin : strchr (ascii "fFeEgGdxXos") c = true := by
      rw [strchr, List.contains_iff_mem.mpr hc, Bool.or_true]
    rw [parseType, if_pos hin]
    rfl

theorem parsePrec_eq (spec : FmtSpec) (htype0 : spec.type = 0) (hprec0 : spec.prec = -1)
    {prec type : Text} (hprec : IsPrec prec) (htype : IsType type) :
    parsePrec spec (prec ++ type) =
      { spec with prec := clamped kMaxPrec prec.tail, type := type.headD 0, ok := true } := by
  rcases hprec with rfl | ⟨d, ds, hds, rfl⟩
  · -- a type letter is no point
    have hskip : parsePrec spec type = parseType spec type := by
      rcases htype with rfl | ⟨c, hc, rfl⟩
      · rfl
      · have hletters : (ascii "fFeEgGdxXos").all (fun c => c ≠ ch '.') = true := by decide
        rw [parsePrec, if_neg (of_decide_eq_true (List.all_eq_true.mp hletters c hc))]
    rw [List.nil_append, hskip, parseType_eq spec htype0 htype]
    cases spec
    cases hprec0
    rfl
  · have hparse := parseDigits_number kMaxPrec (by decide) hds (isDigit_of_isType htype)
    rw [List.cons_append, List.cons_append, parsePrec, if_pos rfl]
    simp only [hds d List.mem_cons_self, if_true, hparse]
    exact parseType_eq { spec with prec := clamped kMaxPrec (d :: ds) } htype0 htype

/-- Neither a point nor a type letter is a digit. -/
theorem stops_prec_type {prec type : Text} (hprec : IsPrec prec) (htype : IsType type) :
    Stops (prec ++ type) := by
  rcases hprec with rfl | ⟨d, ds, hds, rfl⟩
  · exact isDigit_of_isType htype
  · intro c hc
    obtain rfl : ch '.' = c := Option.some.inj hc
    decide

theorem parseWidth_eq (spec : FmtSpec) (htype0 : spec.type = 0) (hprec0 : spec.prec = -1)
    (hwidth0 : spec.width = -1) {width prec type : Text} (hwidth : Digits width)
    (hprec : IsPrec prec) (htype : IsType type) :
    parseWidth spec (width ++ (prec ++ type)) =
      ⟨true, spec.zero, clamped kMaxWidth width, clamped kMaxPrec prec.tail, type.headD 0⟩ := by
  have hstops := stops_prec_type hprec htype
  cases width with
  | nil =>
      have hskip : parseWidth spec (prec ++ type) = parsePrec spec (prec ++ type) := by
        cases hs : prec ++ type with
        | nil => rfl
        | cons c s =>
            rw [parseWidth, hstops c (by rw [hs]; rfl), if_neg Bool.false_ne_true]
      rw [List.nil_append, hskip, parsePrec_eq spec htype0 hprec0 hprec htype, hwidth0]
      rfl
  | cons d ds =>
      have hparse := parseDigits_number kMaxWidth (by decide) hwidth hstops
      rw [List.cons_append, parseWidth]
      simp only [hwidth d List.mem_cons_self, if_true, hparse]
      exact parsePrec_eq { spec with width := clamped kMaxWidth (d :: ds) } htype0 hprec0 hprec
        htype

/-- **`FormatMessage` reads a body of the subset as it is meant.** -/
theorem InSubset.bodySpec_eq {body : Text} {spec : FmtSpec} (h : InSubset body spec) :
    bodySpec body = spec := by
  cases h with
  | empty => rfl
  | spec zero hwidth hzero hprec htype =>
      rename_i width prec type
      rw [bodySpec, if_pos rfl]
      cases zero with
      | true =>
          rw [if_pos rfl, show ascii "0" = [ch '0'] from by decide, List.singleton_append, parseSpec,
            if_pos rfl]
          exact parseWidth_eq _ rfl rfl rfl hwidth hprec htype
      | false =>
          have hskip : parseSpec (width ++ (prec ++ type)) =
              parseWidth .none (width ++ (prec ++ type)) := by
            cases hs : width ++ (prec ++ type) with
            | nil => rfl
            | cons c s =>
                have hc : c ≠ ch '0' := by
                  rintro rfl
                  cases width with
                  | nil =>
                      have hdigit := stops_prec_type hprec htype (ch '0') (by
                        rw [← List.nil_append (prec ++ type), hs]; rfl)
                      revert hdigit
                      decide
                  | cons d ds =>
                      injection hs with hd _
                      exact hzero rfl (by rw [hd]; rfl)
                rw [parseSpec, if_neg hc]
          rw [if_neg Bool.false_ne_true, List.nil_append, hskip]
          exact parseWidth_eq _ rfl rfl rfl hwidth hprec htype

/-! What is accepted is in the subset. -/

theorem parseDigits_split (max w : Int) (s : Text) :
    ∃ ds, Digits ds ∧ s = ds ++ (parseDigits max w s).2 := by
  induction s generalizing w with
  | nil => exact ⟨[], nofun, rfl⟩
  | cons c s ih =>
      rw [parseDigits]
      by_cases hc : isDigit c = true
      · rw [if_pos hc]
        obtain ⟨ds, hds, hs⟩ := ih (if w * 10 + (c.toNat - (ch '0').toNat) > max then max
          else w * 10 + (c.toNat - (ch '0').toNat))
        exact ⟨c :: ds, List.forall_mem_cons.mpr ⟨hc, hds⟩, congrArg (c :: ·) hs⟩
      · rw [if_neg hc]
        exact ⟨[], nofun, rfl⟩

theorem isType_of_parseType {spec : FmtSpec} {s : Text} (h : (parseType spec s).ok = true)
    (hspec : spec.ok = false) (h0 : 0 ∉ s) : IsType s := by
  cases s with
  | nil => exact .inl rfl
  | cons c s =>
      rw [parseType] at h
      split at h
      · next hin =>
        have hc : c ≠ 0 := fun hc => h0 (hc ▸ List.mem_cons_self)
        rw [strchr, decide_eq_false hc, Bool.false_or, List.contains_iff_mem] at hin
        exact .inr ⟨c, hin, by rw [List.isEmpty_iff.mp h]⟩
      · rw [hspec] at h
        cases h

/-- A number that has begun has a digit. -/
theorem parseDigits_cons_split {d : UInt8} (hd : isDigit d = true) (max w : Int) (s : Text) :
    ∃ ds, Digits (d :: ds) ∧ d :: s = d :: ds ++ (parseDigits max w (d :: s)).2 := by
  rw [parseDigits, if_pos hd]
  obtain ⟨ds, hds, hs⟩ := parseDigits_split max (if w * 10 + (d.toNat - (ch '0').toNat) > max then max
    else w * 10 + (d.toNat - (ch '0').toNat)) s
  exact ⟨ds, List.forall_mem_cons.mpr ⟨hd, hds⟩, congrArg (d :: ·) hs⟩

theorem isPrec_of_parsePrec {spec : FmtSpec} {s : Text} (h : (parsePrec spec s).ok = true)
    (hspec : spec.ok = false) (h0 : 0 ∉ s) :
    ∃ prec type, s = prec ++ type ∧ IsPrec prec ∧ IsType type := by
  cases s with
  | nil => exact ⟨[], [], rfl, .inl rfl, .inl rfl⟩
  | cons c s =>
      by_cases hc : c = ch '.'
      · subst hc
        cases s with
        | nil =>
            simp only [parsePrec, if_true, hspec] at h
            cases h
        | cons d s =>
            by_cases hd : isDigit d = true
            · simp only [parsePrec, hd, if_true] at h
              obtain ⟨ds, hds, hs⟩ := parseDigits_cons_split hd kMaxPrec 0 s
              have htype := isType_of_parseType h hspec (fun hmem => h0 (List.mem_cons_of_mem _
                (hs ▸ List.mem_append_right _ hmem)))
              exact ⟨ch '.' :: d :: ds, _, congrArg (ch '.' :: ·) hs, .inr ⟨d, ds, hds, rfl⟩, htype⟩
            · simp only [parsePrec, hd, if_true, Bool.false_eq_true, if_false, hspec] at h
      · simp only [parsePrec, hc, if_false] at h
        exact ⟨[], c :: s, rfl, .inl rfl, isType_of_parseType h hspec h0⟩

theorem digits_of_parseWidth {spec : FmtSpec} {s : Text} (h : (parseWidth spec s).ok = true)
    (hspec : spec.ok = false) (h0 : 0 ∉ s) :
    ∃ width prec type, s = width ++ (prec ++ type) ∧ Digits width ∧ IsPrec prec ∧ IsType type := by
  cases s with
  | nil => exact ⟨[], [], [], rfl, nofun, .inl rfl, .inl rfl⟩
  | cons c s =>
      by_cases hc : isDigit c = true
      · simp only [parseWidth, hc, if_true] at h
        obtain ⟨ds, hds, hs⟩ := parseDigits_cons_split hc kMaxWidth 0 s
        obtain ⟨prec, type, hrest, hprec, htype⟩ := isPrec_of_parsePrec h hspec
          (fun hmem => h0 (hs ▸ List.mem_append_right _ hmem))
        exact ⟨c :: ds, prec, type, by rw [← hrest]; exact hs, hds, hprec, htype⟩
      · simp only [parseWidth, hc, Bool.false_eq_true, if_false] at h
        obtain ⟨prec, type, hs, hprec, htype⟩ := isPrec_of_parsePrec h hspec h0
        exact ⟨[], prec, type, hs, nofun, hprec, htype⟩

/-- **A body that is accepted is in the subset.** -/
theorem inSubset_of_ok {body : Text} (h0 : 0 ∉ body) (h : (bodySpec body).ok = true) :
    InSubset body (bodySpec body) := by
  suffices hin : ∃ spec, InSubset body spec by
    obtain ⟨spec, hspec⟩ := hin
    rw [hspec.bodySpec_eq]
    exact hspec
  cases body with
  | nil => exact ⟨_, .empty⟩
  | cons c s =>
      replace h0 : 0 ∉ s := fun hmem => h0 (List.mem_cons_of_mem c hmem)
      by_cases hc : c = ch ':'
      · subst hc
        rw [bodySpec, if_pos rfl] at h
        by_cases hz : s.head? = some (ch '0')
        · obtain ⟨s, rfl⟩ := List.head?_eq_some_iff.mp hz
          rw [parseSpec, if_pos rfl] at h
          obtain ⟨width, prec, type, rfl, hwidth, hprec, htype⟩ :=
            digits_of_parseWidth h rfl (fun hmem => h0 (List.mem_cons_of_mem _ hmem))
          exact ⟨_, .spec true hwidth nofun hprec htype⟩
        · have hskip : parseSpec s = parseWidth .none s := by
            cases s with
            | nil => rfl
            | cons d s => rw [parseSpec, if_neg fun hd => hz (by rw [hd]; rfl)]
          rw [hskip] at h
          obtain ⟨width, prec, type, rfl, hwidth, hprec, htype⟩ := digits_of_parseWidth h rfl h0
          refine ⟨_, .spec false hwidth (fun _ hw => hz ?_) hprec htype⟩
          rw [List.head?_append, hw]
          rfl
      · rw [bodySpec, if_neg hc] at h
        cases h

/-! ### The specs of `ParseSpec` -/

/-- What every spec that `ParseSpec` returns is like. A width of zero can only follow
a first zero, which is the flag. -/
structure FmtSpec.Bounded (spec : FmtSpec) : Prop where
  neg_one_le_width : -1 ≤ spec.width
  width_le : spec.width ≤ kMaxWidth
  neg_one_le_prec : -1 ≤ spec.prec
  prec_le : spec.prec ≤ kMaxPrec
  zero_of_width : spec.width = 0 → spec.zero = true

theorem FmtSpec.none_bounded (zero : Bool) : { FmtSpec.none with zero := zero }.Bounded :=
  ⟨Int.le_refl _, (by decide : (-1 : Int) ≤ 96), Int.le_refl _, (by decide : (-1 : Int) ≤ 64), nofun⟩

theorem digit_nonneg {c : UInt8} (h : isDigit c = true) : (0 : Int) ≤ c.toNat - (ch '0').toNat := by
  rw [isDigit, Bool.and_eq_true, decide_eq_true_eq, decide_eq_true_eq] at h
  exact Int.sub_nonneg.mpr (Int.ofNat_le.mpr (UInt8.le_iff_toNat_le.mp h.1))

/-- The digit loops stay within their bound, and do not fall. -/
theorem parseDigits_bounds {max lo w : Int} (hlo : 0 ≤ lo) (hw : lo ≤ w) (hmax : lo ≤ max)
    (hle : w ≤ max) (s : Text) : lo ≤ (parseDigits max w s).1 ∧ (parseDigits max w s).1 ≤ max := by
  induction s generalizing w with
  | nil => exact ⟨hw, hle⟩
  | cons c s ih =>
      rw [parseDigits]
      by_cases hc : isDigit c = true
      · rw [if_pos hc]
        have hdigit := digit_nonneg hc
        apply ih
        · split <;> omega
        · split <;> omega
      · rw [if_neg hc]
        exact ⟨hw, hle⟩

theorem FmtSpec.Bounded.parseType {spec : FmtSpec} (h : spec.Bounded) (s : Text) :
    (parseType spec s).Bounded := by
  obtain ⟨h1, h2, h3, h4, h5⟩ := h
  cases s with
  | nil => exact ⟨h1, h2, h3, h4, h5⟩
  | cons c s =>
      rw [Telemetry.parseType]
      split
      · exact ⟨h1, h2, h3, h4, h5⟩
      · exact ⟨h1, h2, h3, h4, h5⟩

theorem FmtSpec.Bounded.parsePrec {spec : FmtSpec} (h : spec.Bounded) (s : Text) :
    (parsePrec spec s).Bounded := by
  cases s with
  | nil => exact h.parseType []
  | cons c s =>
      rw [Telemetry.parsePrec.eq_def]
      simp only
      split
      · cases s with
        | nil => exact h
        | cons d s =>
            simp only
            split
            · have hp := @parseDigits_bounds kMaxPrec 0 0 (Int.le_refl 0) (by decide)
                (by decide) (by decide) (d :: s)
              refine FmtSpec.Bounded.parseType ?_ _
              exact ⟨h.1, h.2, Int.le_trans (by decide) hp.1, hp.2, h.5⟩
            · exact h
      · exact h.parseType (c :: s)

/-- A number that does not begin with a zero is not zero. -/
theorem parseDigits_pos {c : UInt8} (hc : isDigit c = true) (hne : c ≠ ch '0') (s : Text) :
    1 ≤ (parseDigits kMaxWidth 0 (c :: s)).1 := by
  have hnonneg := digit_nonneg hc
  have hdigit : (c.toNat : Int) - (ch '0').toNat ≠ 0 := by
    intro h
    apply hne
    apply UInt8.toNat_inj.mp
    omega
  have hmax : kMaxWidth = 96 := rfl
  rw [parseDigits, if_pos hc]
  refine (parseDigits_bounds (by decide) ?_ (by decide) ?_ s).1
  · split <;> omega
  · split <;> omega

/-- The digits of a width that does not begin with the flag. -/
theorem FmtSpec.Bounded.parseWidth (zero : Bool) {s : Text}
    (hs : zero = false → s.head? ≠ some (ch '0')) :
    (parseWidth { FmtSpec.none with zero := zero } s).Bounded := by
  have hnone := FmtSpec.none_bounded zero
  cases s with
  | nil => exact hnone.parsePrec []
  | cons c s =>
      rw [Telemetry.parseWidth]
      split
      · next hc =>
        have hw := @parseDigits_bounds kMaxWidth 0 0 (Int.le_refl 0) (by decide)
          (by decide) (by decide) (c :: s)
        have hspec : ({ FmtSpec.none with
            zero := zero, width := (parseDigits kMaxWidth 0 (c :: s)).1 } : FmtSpec).Bounded := by
          refine ⟨Int.le_trans (by decide : (-1 : Int) ≤ 0) hw.1, hw.2, hnone.3, hnone.4, ?_⟩
          intro hwidth
          by_contra hzero
          have hne : c ≠ ch '0' := fun h =>
            hs (Bool.eq_false_of_not_eq_true hzero) (congrArg some h)
          have hpos := parseDigits_pos hc hne s
          replace hwidth : (parseDigits kMaxWidth 0 (c :: s)).1 = 0 := hwidth
          omega
        exact hspec.parsePrec _
      · exact hnone.parsePrec (c :: s)

/-- **Every spec is bounded.** -/
theorem parseSpec_bounded (s : Text) : (parseSpec s).Bounded := by
  cases s with
  | nil => exact FmtSpec.Bounded.parseWidth false (s := []) (fun _ => by simp)
  | cons c s =>
      rw [parseSpec]
      split
      · exact FmtSpec.Bounded.parseWidth true (fun h => by cases h)
      · next hc =>
        exact FmtSpec.Bounded.parseWidth false (s := c :: s) fun _ h => hc (Option.some.inj h)

/-- So is what `FormatMessage` takes from the body of a placeholder. -/
theorem bodySpec_bounded (body : Text) : (bodySpec body).Bounded := by
  have hnone := FmtSpec.none_bounded false
  cases body with
  | nil => exact ⟨hnone.1, hnone.2, hnone.3, hnone.4, hnone.5⟩
  | cons c s =>
      rw [bodySpec]
      split
      · exact parseSpec_bounded s
      · exact hnone

theorem InSubset.bounded {body : Text} {spec : FmtSpec} (h : InSubset body spec) :
    spec.Bounded := by
  rw [← h.bodySpec_eq]
  exact bodySpec_bounded body

theorem FmtSpec.Bounded.withoutPrec {spec : FmtSpec} (h : spec.Bounded) :
    { spec with prec := -1 }.Bounded :=
  ⟨h.1, h.2, Int.le_refl _, (by decide : (-1 : Int) ≤ 64), h.5⟩

/-! ### The conversions of `RenderNumeric` -/

/-- `conversion`, whatever room there is for it. -/
def fullConversion (spec : FmtSpec) (conv : Text) : Text :=
  let zero := if spec.zero then ascii "0" else []
  let width := if spec.width ≥ 0 then decimal spec.width else []
  let prec := if spec.prec ≥ 0 then ascii "." ++ decimal spec.prec else []
  ascii "%" ++ zero ++ width ++ prec ++ conv

/-- A number within the bounds in decimal. -/
theorem decimal_bounded {n : Int} (h0 : 0 ≤ n) (hn : n ≤ kMaxWidth) :
    Digits (decimal n) ∧ number (decimal n) = n.toNat ∧ (decimal n).length ≤ 2 ∧
      (n ≠ 0 → (decimal n).head? ≠ some (ch '0')) := by
  have hall : ∀ k : Fin 97, (decimal k.val).all isDigit = true ∧ number (decimal k.val) = k.val ∧
      (decimal k.val).length ≤ 2 ∧ (k.val ≠ 0 → (decimal k.val).head? ≠ some (ch '0')) := by
    decide +kernel
  obtain ⟨k, rfl⟩ := Int.eq_ofNat_of_zero_le h0
  have hk : k < 97 := by
    have hmax : kMaxWidth = 96 := rfl
    omega
  obtain ⟨h1, h2, h3, h4⟩ := hall ⟨k, hk⟩
  exact ⟨List.all_eq_true.mp h1, h2, h3, fun hne => h4 fun h => hne (congrArg Int.ofNat h)⟩

/-- The conversion fits in `pf[24]`. -/
theorem length_fullConversion {spec : FmtSpec} (h : spec.Bounded) (conv : Text) :
    (fullConversion spec conv).length ≤ 7 + conv.length := by
  have hprec : kMaxPrec ≤ kMaxWidth := by decide
  have hzero : (if spec.zero then ascii "0" else []).length ≤ 1 := by
    split <;> decide
  have hwidth : (if spec.width ≥ 0 then decimal spec.width else []).length ≤ 2 := by
    split
    · next h0 => exact (decimal_bounded h0 h.width_le).2.2.1
    · decide
  have hprec : (if spec.prec ≥ 0 then ascii "." ++ decimal spec.prec else []).length ≤ 3 := by
    split
    · next h0 =>
      rw [List.length_append]
      exact Nat.add_le_add (by decide : (ascii ".").length ≤ 1)
        (decimal_bounded h0 (h.prec_le.trans hprec)).2.2.1
    · decide
  have hpercent : (ascii "%").length = 1 := by decide
  rw [fullConversion]
  simp only [List.length_append, hpercent] at hprec ⊢
  omega

theorem conversion_eq_full {spec : FmtSpec} (h : spec.Bounded) {conv : Text}
    (hconv : conv.length ≤ 3) : conversion spec conv = fullConversion spec conv := by
  have hlength : (fullConversion spec conv).length ≤ 23 :=
    (length_fullConversion h conv).trans (by omega)
  exact List.take_of_length_le hlength

end XmBase.Telemetry
