import XmBase.Telemetry.SpecLanguage
/-!
# XmBase.Telemetry.FormatSpec

What `FormatMessage` is meant to compute, apart from how it scans: the specs that apply
to a type of argument (`Applies`), and the text of an argument under a spec that does
(`ruleText`). Every other spec is as good as none (`valueText_fallback`).

The second half runs `FormatMessage` on the memory it is given: the format's bytes
up to the terminator and the `cap` bytes at `out`, where every read and every write
is checked. `formatFrom_eq` says that **no check fails**, from any point of the format on:
along its tokens, each is one turn of the loop.
-/

namespace XmBase.Telemetry

/-! ### The text of an argument

The rule is written without the renderer: which conversion a number asks for, in full, and
how much of it is shown. The renderer builds its conversion in `pf[24]` and prints it to
`tmp[192]`; for the specs that `ParseSpec` returns both come to the same
(`numericText_eq`). -/

/-- The specs that mean something for a value of this type. For every other pair of spec and
type the text is that of `{}`. -/
def Applies (spec : FmtSpec) : Value → Prop
  | .bool _ =>
      (spec.prec < 0 ∧ spec.typeIn "dxXo") ∨
        ((spec.type = ch 's' ∨ spec.type = 0) ∧ spec.zero = false)
  | .i64 _ => spec.prec < 0 ∧ (spec.type = 0 ∨ spec.typeIn "dxXo")
  | .u64 _ => spec.prec < 0 ∧ (spec.type = 0 ∨ spec.typeIn "dxXo")
  | .f64 _ => spec.type = 0 ∨ spec.typeIn "fFeEgG"
  | .str _ => (spec.type = ch 's' ∨ spec.type = 0) ∧ spec.zero = false

/-- A number under `%[0][width][.prec]<conv>`: the first 191 characters. -/
def ruleNumber (printf : Printf) (spec : FmtSpec) (conv : Text) (arg : PrintfArg) : Text :=
  (printf (fullConversion spec conv) arg).take 191

/-- The text of a value under a spec that applies to it: a number or a bool goes
through `snprintf`, a string is cut to the precision and padded on the right. -/
def ruleText (printf : Printf) (spec : FmtSpec) : Value → Text
  | .bool v =>
      if spec.typeIn "dxXo" then
        ruleNumber printf spec (ascii "ll" ++ [spec.type]) (.int (if v then 1 else 0))
      else
        ruleNumber printf { spec with prec := -1 } (ascii "s")
          (.str (if v then ascii "true" else ascii "false"))
  | .i64 v =>
      if spec.typeIn "xXo" then
        ruleNumber printf spec (ascii "ll" ++ [spec.type]) (.uint v.toUInt64)
      else ruleNumber printf spec (ascii "lld") (.int v)
  | .u64 v =>
      if spec.typeIn "xXo" then ruleNumber printf spec (ascii "ll" ++ [spec.type]) (.uint v)
      else ruleNumber printf spec (ascii "llu") (.uint v)
  | .f64 bits =>
      ruleNumber printf spec (if spec.type = 0 then ascii "g" else [spec.type]) (.double bits)
  | .str s =>
      let kept := if 0 ≤ spec.prec then s.take spec.prec.toNat else s
      kept ++ List.replicate (spec.width.toNat - kept.length) (ch ' ')

/-- What `RenderNumeric` appends is the rule. -/
theorem numericText_eq (printf : Printf) {spec : FmtSpec} (hspec : spec.Bounded) {conv : Text}
    (hconv : conv.length ≤ 3) (arg : PrintfArg) :
    numericText printf spec conv arg = ruleNumber printf spec conv arg := by
  rw [numericText, ruleNumber, conversion_eq_full hspec hconv]

theorem length_longLong (letter : UInt8) : (ascii "ll" ++ [letter]).length ≤ 3 := by
  rw [List.length_append]
  exact (by decide : (ascii "ll").length + 1 ≤ 3)

/-- The letters of the integer conversions. -/
theorem FmtSpec.typeIn_dxXo (spec : FmtSpec) :
    spec.typeIn "dxXo" = true ↔ spec.type = ch 'd' ∨ spec.typeIn "xXo" = true := by
  have hsplit : ascii "dxXo" = ch 'd' :: ascii "xXo" := by decide
  rw [FmtSpec.typeIn, FmtSpec.typeIn, hsplit, List.contains_cons, Bool.or_eq_true, beq_iff_eq]

/-- None of them is the letter of a string, or no letter at all. -/
theorem FmtSpec.ne_of_typeIn {spec : FmtSpec} (h : spec.typeIn "dxXo" = true) :
    spec.type ≠ 0 ∧ spec.type ≠ ch 's' := by
  have hletters : (ascii "dxXo").all (fun c => c ≠ 0 ∧ c ≠ ch 's') = true := by decide
  exact of_decide_eq_true (List.all_eq_true.mp hletters spec.type (List.contains_iff_mem.mp h))

theorem FmtSpec.ne_of_typeIn_xXo {spec : FmtSpec} (h : spec.typeIn "xXo" = true) :
    spec.type ≠ 0 ∧ spec.type ≠ ch 'd' := by
  have hletters : (ascii "xXo").all (fun c => c ≠ 0 ∧ c ≠ ch 'd') = true := by decide
  exact of_decide_eq_true (List.all_eq_true.mp hletters spec.type (List.contains_iff_mem.mp h))

/-- A string cut to the precision. Without one it is the whole string. -/
theorem take_prec (prec : Int) (s : Text) :
    s.take (if prec ≥ 0 ∧ prec.toNat < s.length then prec.toNat else s.length) =
      (if 0 ≤ prec then s.take prec.toNat else s) := by
  by_cases hprec : 0 ≤ prec
  · rw [if_pos hprec]
    split
    · rfl
    · next h =>
      rw [List.take_length, List.take_of_length_le]
      omega
  · rw [if_neg hprec, if_neg fun h => hprec h.1, List.take_length]

/-- **A spec that applies is honoured**: the branch of the renderer that it reaches computes
the rule's text for it. -/
theorem valueText_applies (printf : Printf) {spec : FmtSpec} (hok : spec.ok = true)
    (hspec : spec.Bounded) {v : Value} (h : Applies spec v) :
    valueText printf spec v = ruleText printf spec v := by
  cases v with
  | bool v =>
      simp only [valueText, ruleText, hok, Bool.true_and]
      rcases h with ⟨hprec, htype⟩ | ⟨htype, hzero⟩
      · rw [htype, decide_eq_true hprec]
        exact numericText_eq printf hspec (length_longLong _) _
      -- `s` or no letter: the branch for numbers, which is asked first, is not taken
      · have hnot : spec.typeIn "dxXo" = false := by
          by_contra hin
          obtain ⟨h0, hs⟩ := FmtSpec.ne_of_typeIn (Bool.eq_true_of_not_eq_false hin)
          exact htype.elim hs h0
        rw [hnot, Bool.and_false, if_neg Bool.false_ne_true, if_neg Bool.false_ne_true, hzero,
          if_pos]
        · have htext := numericText_eq printf hspec.withoutPrec
            (by decide : (ascii "s").length ≤ 3) (.str (if v then ascii "true" else ascii "false"))
          rw [hok, hzero] at htext
          exact htext
        · rcases htype with htype | htype <;> simp [htype]
  | i64 v =>
      obtain ⟨hprec, htype⟩ := h
      simp only [valueText, ruleText, hok, decide_eq_true hprec, Bool.true_and]
      by_cases hx : spec.typeIn "xXo" = true
      · obtain ⟨h0, hd⟩ := FmtSpec.ne_of_typeIn_xXo hx
        simp only [h0, hd, hx, decide_false, Bool.or_false, Bool.false_eq_true, if_false, if_true]
        exact numericText_eq printf hspec (length_longLong _) _
      · have hd : spec.type = ch 'd' ∨ spec.type = 0 := by
          rw [FmtSpec.typeIn_dxXo] at htype
          tauto
        simp only [hx, Bool.or_eq_true, decide_eq_true_eq, hd, if_true, Bool.false_eq_true, if_false]
        exact numericText_eq printf hspec (by decide : (ascii "lld").length ≤ 3) _
  | u64 v =>
      obtain ⟨hprec, htype⟩ := h
      simp only [valueText, ruleText, hok, decide_eq_true hprec, Bool.true_and]
      by_cases hx : spec.typeIn "xXo" = true
      · obtain ⟨h0, hd⟩ := FmtSpec.ne_of_typeIn_xXo hx
        simp only [h0, hd, hx, decide_false, Bool.or_false, Bool.false_eq_true, if_false, if_true]
        exact numericText_eq printf hspec (length_longLong _) _
      · have hd : spec.type = 0 ∨ spec.type = ch 'd' := by
          rw [FmtSpec.typeIn_dxXo] at htype
          tauto
        simp only [hx, Bool.or_eq_true, decide_eq_true_eq, hd, if_true, Bool.false_eq_true, if_false]
        exact numericText_eq printf hspec (by decide : (ascii "llu").length ≤ 3) _
  | f64 bits =>
      have happly : (spec.ok && (spec.typeIn "fFeEgG" || decide (spec.type = 0))) = true := by
        rw [hok, Bool.true_and, Bool.or_eq_true, decide_eq_true_eq]
        exact h.symm
      have hletter : [if spec.type = 0 then ch 'g' else spec.type] =
          if spec.type = 0 then ascii "g" else [spec.type] := by
        split <;> rfl
      simp only [valueText, ruleText, happly, if_true]
      rw [← hletter]
      exact numericText_eq printf hspec (Nat.le_of_ble_eq_true rfl) _
  | str s =>
      obtain ⟨htype, hzero⟩ := h
      have happly : (spec.ok && (decide (spec.type = ch 's') || decide (spec.type = 0)) &&
          !spec.zero) = true := by
        rw [hok, hzero, Bool.true_and, Bool.not_false, Bool.and_true, Bool.or_eq_true,
          decide_eq_true_eq, decide_eq_true_eq]
        exact htype
      -- the padding is counted from what the precision leaves of the text
      have hlen : (s.take (if spec.prec ≥ 0 ∧ spec.prec.toNat < s.length then spec.prec.toNat
          else s.length)).length =
          (if spec.prec ≥ 0 ∧ spec.prec.toNat < s.length then spec.prec.toNat else s.length) := by
        rw [List.length_take]
        split <;> omega
      simp only [valueText, ruleText, happly, if_true]
      rw [← take_prec, hlen]

/-- The text of a bool, which `%s` copies. -/
theorem numericText_bool {printf : Printf} (hs : ∀ s, printf (ascii "%s") (.str s) = s) (b : Bool) :
    numericText printf { FmtSpec.none with ok := true } (ascii "s")
        (.str (if b then ascii "true" else ascii "false")) =
      if b then ascii "true" else ascii "false" := by
  rw [numericText, conversion_default (ascii "s") (by decide),
    show ascii "%" ++ ascii "s" = ascii "%s" from rfl, hs]
  cases b <;> decide

/-- Where no integer conversion applies, neither branch for one is taken. -/
theorem FmtSpec.integer_declined {spec : FmtSpec}
    (h : spec.ok = true → ¬ (spec.prec < 0 ∧ (spec.type = 0 ∨ spec.typeIn "dxXo" = true))) :
    (spec.ok && decide (spec.prec < 0) &&
        (decide (spec.type = ch 'd') || decide (spec.type = 0))) = false ∧
      (spec.ok && decide (spec.prec < 0) && spec.typeIn "xXo") = false := by
  constructor
  · by_contra hall
    simp only [Bool.not_eq_false, Bool.and_eq_true, Bool.or_eq_true, decide_eq_true_eq] at hall
    exact h hall.1.1 ⟨hall.1.2, hall.2.elim (fun hd => .inr (spec.typeIn_dxXo.mpr (.inl hd))) .inl⟩
  · by_contra hall
    simp only [Bool.not_eq_false, Bool.and_eq_true, decide_eq_true_eq] at hall
    exact h hall.1.1 ⟨hall.1.2, .inr (spec.typeIn_dxXo.mpr (.inr hall.2))⟩

/-- **Any other spec is as good as none.** -/
theorem valueText_fallback {printf : Printf} (hs : ∀ s, printf (ascii "%s") (.str s) = s)
    {spec : FmtSpec} {v : Value} (h : spec.ok = true → ¬ Applies spec v) :
    valueText printf spec v = valueText printf (bodySpec []) v := by
  cases v with
  | bool v =>
      have hnum : (spec.ok && decide (spec.prec < 0) && spec.typeIn "dxXo") = false := by
        by_contra hall
        simp only [Bool.not_eq_false, Bool.and_eq_true, decide_eq_true_eq] at hall
        exact h hall.1.1 (.inl ⟨hall.1.2, hall.2⟩)
      have htext : (spec.ok && (decide (spec.type = ch 's') || decide (spec.type = 0)) &&
          !spec.zero) = false := by
        by_contra hall
        simp only [Bool.not_eq_false, Bool.and_eq_true, Bool.or_eq_true, decide_eq_true_eq,
          Bool.not_eq_true'] at hall
        exact h hall.1.1 (.inr ⟨hall.1.2, hall.2⟩)
      simp only [valueText, hnum, htext, Bool.false_eq_true, if_false]
      exact (numericText_bool hs v).symm
  | i64 v =>
      obtain ⟨hd, hx⟩ := FmtSpec.integer_declined h
      simp only [valueText, hd, hx, Bool.false_eq_true, if_false]
      rfl
  | u64 v =>
      obtain ⟨hd, hx⟩ := FmtSpec.integer_declined h
      rw [Bool.or_comm] at hd
      simp only [valueText, hd, hx, Bool.false_eq_true, if_false]
      rfl
  | f64 bits =>
      have hg : (spec.ok && (spec.typeIn "fFeEgG" || decide (spec.type = 0))) = false := by
        by_contra hall
        simp only [Bool.not_eq_false, Bool.and_eq_true, Bool.or_eq_true, decide_eq_true_eq] at hall
        exact h hall.1 hall.2.symm
      simp only [valueText, hg, Bool.false_eq_true, if_false]
      rfl
  | str s =>
      have htext : (spec.ok && (decide (spec.type = ch 's') || decide (spec.type = 0)) &&
          !spec.zero) = false := by
        by_contra hall
        simp only [Bool.not_eq_false, Bool.and_eq_true, Bool.or_eq_true, decide_eq_true_eq,
          Bool.not_eq_true'] at hall
        exact h hall.1.1 ⟨hall.1.2, hall.2⟩
      simp only [valueText, htext, Bool.false_eq_true, if_false]
      show s = s.take s.length ++ List.replicate (0 - s.length) (ch ' ')
      rw [Nat.zero_sub, List.replicate_zero, List.append_nil, List.take_length]

/-! ### The memory `FormatMessage` is given

The function again, now on indices, with each read and each write an operation that can
fail. It is not another specification: it is the code, closer to the source than the scanner
over lists. -/

/-- A C string: its bytes before the terminator. The field keeps a terminator out of the
middle. -/
structure CString where
  text : Text
  zero_notMem : 0 ∉ text

/-- `fmt[i]`; beyond the terminator there is nothing to read. -/
def CString.read (fmt : CString) (i : Nat) : Option UInt8 :=
  if i < fmt.text.length then fmt.text[i]? else if i = fmt.text.length then some 0 else none

/-- The bytes `[i, j)` of the format, each of them read. -/
def CString.readRange (fmt : CString) (i j : Nat) : Option Text :=
  (List.range' i (j - i)).mapM fmt.read

/-- `out[len++] = c`, where `len` bytes have been written; behind the `cap` bytes
there is nothing to write. -/
def push (cap : Nat) (out : Text) (c : UInt8) : Option Text :=
  if out.length < cap then some (out ++ [c]) else none

/-- `AppendRaw` on that memory. -/
def appendRawIn (cap : Nat) (out : Text) : Text → Option Text
  | [] => some out
  | c :: s =>
      if out.length < cap - 1 then do
        let out ← push cap out c
        appendRawIn cap out s
      else some out

/-- `RenderArg` on that memory. -/
def renderValueIn (printf : Printf) (cap : Nat) (out : Text) (spec : FmtSpec) :
    Value → Option Text
  | .bool v =>
      let s := if v then ascii "true" else ascii "false"
      if spec.ok && spec.prec < 0 && spec.typeIn "dxXo" then
        appendRawIn cap out
          (numericText printf spec (ascii "ll" ++ [spec.type]) (.int (if v then 1 else 0)))
      else if spec.ok && (spec.type = ch 's' || spec.type = 0) && !spec.zero then
        appendRawIn cap out (numericText printf { spec with prec := -1 } (ascii "s") (.str s))
      else appendRawIn cap out s
  | .i64 v =>
      if spec.ok && spec.prec < 0 && (spec.type = ch 'd' || spec.type = 0) then
        appendRawIn cap out (numericText printf spec (ascii "lld") (.int v))
      else if spec.ok && spec.prec < 0 && spec.typeIn "xXo" then
        appendRawIn cap out (numericText printf spec (ascii "ll" ++ [spec.type]) (.uint v.toUInt64))
      else appendRawIn cap out (numericText printf .none (ascii "lld") (.int v))
  | .u64 v =>
      if spec.ok && spec.prec < 0 && (spec.type = 0 || spec.type = ch 'd') then
        appendRawIn cap out (numericText printf spec (ascii "llu") (.uint v))
      else if spec.ok && spec.prec < 0 && spec.typeIn "xXo" then
        appendRawIn cap out (numericText printf spec (ascii "ll" ++ [spec.type]) (.uint v))
      else appendRawIn cap out (numericText printf .none (ascii "llu") (.uint v))
  | .f64 bits =>
      if spec.ok && (spec.typeIn "fFeEgG" || spec.type = 0) then
        appendRawIn cap out
          (numericText printf spec [if spec.type = 0 then ch 'g' else spec.type] (.double bits))
      else appendRawIn cap out (numericText printf .none (ascii "g") (.double bits))
  | .str s =>
      if spec.ok && (spec.type = ch 's' || spec.type = 0) && !spec.zero then
        let n := if spec.prec ≥ 0 ∧ spec.prec.toNat < s.length then spec.prec.toNat else s.length
        if spec.width > n then do
          let out ← appendRawIn cap out (s.take n)
          -- the padding loop has the guard of `AppendRaw`
          appendRawIn cap out (List.replicate (spec.width.toNat - n) (ch ' '))
        else appendRawIn cap out (s.take n)
      else appendRawIn cap out s

/-- The inner `while` loop: the index of the next `}`, or of the terminator. -/
def CString.closing (fmt : CString) : (fuel : Nat) → (c : Nat) → Option Nat
  | 0, _ => none
  | fuel + 1, c => do
      let b ← fmt.read c
      if b ≠ 0 ∧ b ≠ rbrace then fmt.closing fuel (c + 1) else some c

section

variable (printf : Printf) (cap : Nat) (fmt : CString) (args : ArgPack)

/-- The `for` loop, at index `c` of the format, and the terminator after it. -/
def formatFrom : (fuel : Nat) → (c : Nat) → (next : UInt8) → (out : Text) → Option Text
  | 0, _, _, _ => none
  | fuel + 1, c, next, out => do
      let b ← fmt.read c
      if b ≠ 0 ∧ out.length < cap - 1 then
        if b = lbrace then
          let b' ← fmt.read (c + 1)
          if b' = lbrace then
            let out ← push cap out lbrace
            formatFrom fuel (c + 2) next out
          else
            let e ← fmt.closing (fuel + 1) c
            let b ← fmt.read e
            if b = 0 then push cap out 0
            else
              let body ← fmt.readRange (c + 1) e
              if next < args.count then
                let out ← renderValueIn printf cap out (bodySpec body) (args.entry next.toNat)
                formatFrom fuel (e + 1) (next + 1) out
              else
                let out ← appendRawIn cap out missing
                formatFrom fuel (e + 1) next out
        else if b = rbrace then
          let b' ← fmt.read (c + 1)
          let out ← push cap out rbrace
          if b' = rbrace then formatFrom fuel (c + 2) next out
          else formatFrom fuel (c + 1) next out
        else
          let out ← push cap out b
          formatFrom fuel (c + 1) next out
      else push cap out 0

/-- `FormatMessage` on its memory: the bytes of `out` up to the terminator. -/
def formatMessageIn : Option Text := formatFrom printf cap fmt args (fmt.text.length + 1) 0 0 []

end

/-! ### No check fails

Reads stay in front of the terminator because every loop looks at a byte before it goes on,
and writes stay in front of `cap - 1` because every append tests the room. By induction on
how the format reads, the loop on its memory is the scanner. -/

theorem bind_some_eq {α β : Type} (a : α) (f : α → Option β) : (some a >>= f) = f a := rfl

section

variable {fmt : CString} {cap i : Nat}

/-- A character of the format is read as it is, and is not the terminator. -/
theorem CString.read_cons {b : UInt8} {cs : Text} (h : fmt.text.drop i = b :: cs) :
    fmt.read i = some b ∧ b ≠ 0 ∧ fmt.text.drop (i + 1) = cs := by
  have hlt : i < fmt.text.length := by
    by_contra hge
    rw [List.drop_eq_nil_of_le (Nat.le_of_not_lt hge)] at h
    cases h
  have hb : fmt.text[i]? = some b := by
    rw [← List.head?_drop, h, List.head?_cons]
  refine ⟨by rw [CString.read, if_pos hlt, hb], ?_, ?_⟩
  · rintro rfl
    exact fmt.zero_notMem (List.mem_of_getElem? hb)
  · rw [← List.drop_drop, h]
    rfl

theorem CString.read_nil (hi : i ≤ fmt.text.length) (h : fmt.text.drop i = []) :
    fmt.read i = some 0 := by
  have heq : i = fmt.text.length := Nat.le_antisymm hi (List.drop_eq_nil_iff.mp h)
  rw [CString.read, if_neg (Nat.not_lt.mpr (Nat.le_of_eq heq.symm)), if_pos heq]

theorem drop_append_right {s t u : Text} {i : Nat} (h : s.drop i = t ++ u) :
    s.drop (i + t.length) = u := by
  rw [← List.drop_drop, h, List.drop_left]

/-- What comes next, the terminator included. -/
theorem CString.read_head (hi : i ≤ fmt.text.length) :
    fmt.read i = some ((fmt.text.drop i).headD 0) := by
  cases h : fmt.text.drop i with
  | nil => exact read_nil hi h
  | cons b cs => exact (read_cons h).1

theorem CString.readRange_eq {body rest : Text} (h : fmt.text.drop i = body ++ rest) :
    fmt.readRange i (i + body.length) = some body := by
  have hlen : i + body.length - i = body.length := Nat.add_sub_cancel_left i body.length
  rw [CString.readRange, hlen]
  clear hlen
  induction body generalizing i with
  | nil => rfl
  | cons b body ih =>
      obtain ⟨hread, _, hdrop⟩ := read_cons h
      rw [List.length_cons, List.range'_succ, List.mapM_cons, hread, ih hdrop]
      rfl

/-- The inner loop passes what is neither `}` nor the terminator. -/
theorem CString.closing_append {body rest : Text} (h : fmt.text.drop i = body ++ rest)
    (hbody : rbrace ∉ body) (hi : i + body.length ≤ fmt.text.length)
    (hrest : rest.headD 0 = 0 ∨ rest.headD 0 = rbrace) {fuel : Nat} (hfuel : body.length < fuel) :
    fmt.closing fuel i = some (i + body.length) := by
  induction body generalizing i fuel with
  | nil =>
      obtain ⟨fuel, rfl⟩ := Nat.exists_eq_succ_of_ne_zero (Nat.ne_of_gt hfuel)
      have hstop : ¬ (rest.headD 0 ≠ 0 ∧ rest.headD 0 ≠ rbrace) := by tauto
      rw [List.nil_append] at h
      rw [closing, read_head (i := i) hi, h, bind_some_eq, if_neg hstop]
      rfl
  | cons b body ih =>
      obtain ⟨fuel, rfl⟩ := Nat.exists_eq_succ_of_ne_zero (Nat.ne_of_gt (Nat.zero_lt_of_lt hfuel))
      obtain ⟨hread, hb, hdrop⟩ := read_cons h
      obtain ⟨hb', hbody⟩ := not_or.mp (fun h => hbody (List.mem_cons.mpr h))
      rw [List.length_cons] at hi hfuel
      rw [closing, hread, bind_some_eq, if_pos ⟨hb, Ne.symm hb'⟩,
        ih hdrop hbody (by omega) (Nat.lt_of_succ_lt_succ hfuel), List.length_cons, Nat.add_assoc,
        Nat.add_comm 1]

theorem push_eq {out : Text} (hcap : 1 ≤ cap) (h : out.length ≤ cap - 1) (c : UInt8) :
    push cap out c = some (out ++ [c]) := by
  rw [push, if_pos (by omega)]

theorem appendRawIn_eq (hcap : 1 ≤ cap) (out s : Text) :
    appendRawIn cap out s = some (appendRaw cap out s) := by
  induction s generalizing out with
  | nil => rw [appendRawIn, appendRaw]
  | cons c s ih =>
      rw [appendRawIn, appendRaw]
      by_cases hroom : out.length < cap - 1
      · rw [if_pos hroom, if_pos hroom, push_eq hcap (Nat.le_of_lt hroom)]
        exact ih (out ++ [c])
      · rw [if_neg hroom, if_neg hroom]

theorem renderValueIn_eq (printf : Printf) (hcap : 1 ≤ cap) (out : Text) (spec : FmtSpec)
    (v : Value) : renderValueIn printf cap out spec v = some (renderValue printf cap out spec v) := by
  cases v <;> simp only [renderValueIn, renderValue, renderNumeric, appendRawIn_eq hcap,
    bind_some_eq] <;> split_ifs <;> rfl

/-- A full buffer ends the loop. -/
theorem formatFrom_full (printf : Printf) (hcap : 1 ≤ cap) {args : ArgPack} {out : Text} {b : UInt8}
    (hread : fmt.read i = some b) (hout : out.length ≤ cap - 1) (hfull : ¬ out.length < cap - 1)
    (fuel : Nat) (next : UInt8) (s : Text) :
    formatFrom printf cap fmt args (fuel + 1) i next out = some (cut cap (out ++ s) ++ [0]) := by
  rw [formatFrom, hread, bind_some_eq, if_neg fun h => hfull h.2,
    push_eq hcap hout, cut_append_of_full s hout hfull]

/-- So in front of a byte of the format one turn of the loop is left, and the buffer has
room. -/
theorem formatFrom_of_room {printf : Printf} (hcap : 1 ≤ cap) {args : ArgPack} {out cs s : Text}
    {b : UInt8} {fuel : Nat} {next : UInt8} (hdrop : fmt.text.drop i = b :: cs)
    (hfuel : (b :: cs).length < fuel) (hout : out.length ≤ cap - 1)
    (h : ∀ fuel', (b :: cs).length < fuel' + 1 → out.length < cap - 1 →
      formatFrom printf cap fmt args (fuel' + 1) i next out = some (cut cap (out ++ s) ++ [0])) :
    formatFrom printf cap fmt args fuel i next out = some (cut cap (out ++ s) ++ [0]) := by
  obtain ⟨fuel', rfl⟩ := Nat.exists_eq_succ_of_ne_zero (Nat.ne_of_gt (Nat.zero_lt_of_lt hfuel))
  by_cases hroom : out.length < cap - 1
  · exact h fuel' hfuel hroom
  · exact formatFrom_full printf hcap (CString.read_cons hdrop).1 hout hroom fuel' next s

/-! One turn of the loop while there is room, by what the format goes on with. -/

section

variable {printf : Printf} {args : ArgPack} {out : Text} {cs : Text}

theorem formatFrom_lbraces (hcap : 1 ≤ cap) (hroom : out.length < cap - 1)
    (h : fmt.text.drop i = lbrace :: lbrace :: cs) (fuel : Nat) (next : UInt8) :
    formatFrom printf cap fmt args (fuel + 1) i next out =
      formatFrom printf cap fmt args fuel (i + 2) next (out ++ [lbrace]) := by
  obtain ⟨hread, hb, hdrop⟩ := CString.read_cons h
  rw [formatFrom, hread, bind_some_eq, if_pos ⟨hb, hroom⟩, if_pos rfl,
    (CString.read_cons hdrop).1, bind_some_eq, if_pos rfl, push_eq hcap (Nat.le_of_lt hroom),
    bind_some_eq]

theorem formatFrom_rbraces (hcap : 1 ≤ cap) (hroom : out.length < cap - 1)
    (h : fmt.text.drop i = rbrace :: rbrace :: cs) (fuel : Nat) (next : UInt8) :
    formatFrom printf cap fmt args (fuel + 1) i next out =
      formatFrom printf cap fmt args fuel (i + 2) next (out ++ [rbrace]) := by
  have hne : rbrace ≠ lbrace := by decide
  obtain ⟨hread, hb, hdrop⟩ := CString.read_cons h
  rw [formatFrom, hread, bind_some_eq, if_pos ⟨hb, hroom⟩, if_neg hne,
    if_pos rfl, (CString.read_cons hdrop).1, bind_some_eq, push_eq hcap (Nat.le_of_lt hroom),
    bind_some_eq, if_pos rfl]

theorem formatFrom_char (hcap : 1 ≤ cap) (hroom : out.length < cap - 1) {b : UInt8}
    (h : fmt.text.drop i = b :: cs) (hi : i + 1 ≤ fmt.text.length) (hl : b ≠ lbrace)
    (hr : b = rbrace → cs.head? ≠ some rbrace) (fuel : Nat) (next : UInt8) :
    formatFrom printf cap fmt args (fuel + 1) i next out =
      formatFrom printf cap fmt args fuel (i + 1) next (out ++ [b]) := by
  obtain ⟨hread, hb, hdrop⟩ := CString.read_cons h
  rw [formatFrom, hread, bind_some_eq, if_pos ⟨hb, hroom⟩, if_neg hl]
  by_cases hbr : b = rbrace
  · -- a lone `}`: what follows it is read, and is something else
    have hnext : cs.headD 0 ≠ rbrace := by
      cases cs with
      | nil => decide
      | cons c cs => exact fun hc => hr hbr (congrArg some hc)
    rw [if_pos hbr, CString.read_head hi, hdrop, bind_some_eq, ← hbr,
      push_eq hcap (Nat.le_of_lt hroom), bind_some_eq, if_neg (hbr ▸ hnext)]
  · rw [if_neg hbr, push_eq hcap (Nat.le_of_lt hroom), bind_some_eq]

/-- The search for the closing brace starts at the opening one. -/
theorem formatFrom_body {body rest : Text} (hroom : out.length < cap - 1)
    (h : fmt.text.drop i = lbrace :: (body ++ rest)) (hbody : rbrace ∉ body)
    (hopen : (body ++ rest).head? ≠ some lbrace)
    (hrest : rest.headD 0 = 0 ∨ rest.headD 0 = rbrace) {fuel : Nat}
    (hi : i + 1 + body.length ≤ fmt.text.length) (hfuel : body.length < fuel) (next : UInt8) :
    formatFrom printf cap fmt args (fuel + 1) i next out =
      if rest.headD 0 = 0 then push cap out 0
      else if next < args.count then
        renderValueIn printf cap out (bodySpec body) (args.entry next.toNat) >>= fun out =>
          formatFrom printf cap fmt args fuel (i + 1 + body.length + 1) (next + 1) out
      else
        appendRawIn cap out missing >>= fun out =>
          formatFrom printf cap fmt args fuel (i + 1 + body.length + 1) next out := by
  obtain ⟨hread, hb, hdrop⟩ := CString.read_cons h
  have hread' : (body ++ rest).headD 0 ≠ lbrace := by
    cases hs : body ++ rest with
    | nil => decide
    | cons c cs => exact fun hc => hopen (by rw [hs]; exact congrArg some hc)
  have hclose : fmt.closing (fuel + 1) i = some (i + 1 + body.length) := by
    have hnot : rbrace ∉ lbrace :: body := List.not_mem_cons_of_ne_of_not_mem (by decide) hbody
    have hlen : i + (lbrace :: body).length = i + 1 + body.length := by
      rw [List.length_cons]
      omega
    rw [← hlen] at hi ⊢
    exact CString.closing_append h hnot hi hrest (Nat.succ_lt_succ hfuel)
  rw [formatFrom, hread, bind_some_eq, if_pos ⟨hb, hroom⟩, if_pos rfl,
    CString.read_head (by omega), hdrop, bind_some_eq, if_neg hread', hclose, bind_some_eq,
    CString.read_head hi, drop_append_right hdrop, bind_some_eq, CString.readRange_eq hdrop]
  rfl

end

/-- **The loop on its memory**, from any point of the format on: the induction is on
how the rest of the format reads. -/
theorem formatFrom_eq (printf : Printf) (hcap : 1 ≤ cap) {args : ArgPack} {vs : List Value}
    (hstores : Stores args vs) {cs : Text} {ts : List Token} (hreads : Reads cs ts) :
    ∀ {i fuel : Nat} {next : UInt8} {out : Text}, fmt.text.drop i = cs → i ≤ fmt.text.length →
      cs.length < fuel → next.toNat ≤ vs.length → out.length ≤ cap - 1 →
      formatFrom printf cap fmt args fuel i next out =
        some (cut cap (out ++ expand (fun body => valueText printf (bodySpec body)) ts
          (vs.drop next.toNat)) ++ [0]) := by
  -- along the tokens: each is one turn of the loop, unless the buffer is full before it
  induction hreads with
  | nil =>
      intro i fuel next out hdrop hi hfuel hnext hout
      obtain ⟨fuel, rfl⟩ := Nat.exists_eq_succ_of_ne_zero (Nat.ne_of_gt hfuel)
      rw [formatFrom, CString.read_nil hi hdrop, bind_some_eq,
        if_neg fun h => h.1 rfl, push_eq hcap hout, expand, List.append_nil, cut,
        List.take_of_length_le hout]
  | lbraces hcs ih =>
      intro i fuel next out hdrop hi hfuel hnext hout
      refine formatFrom_of_room hcap hdrop hfuel hout ?_
      intro fuel hfuel hroom
      have hlen := congrArg List.length hdrop
      simp only [List.length_drop, List.length_cons] at hlen hfuel
      have hdrop' : fmt.text.drop (i + 2) = _ := drop_append_right (t := [lbrace, lbrace]) hdrop
      rw [formatFrom_lbraces hcap hroom hdrop, ih hdrop' (by omega) (by omega) hnext
        (by rw [List.length_append]; exact hroom), expand, List.append_assoc,
        List.singleton_append]
  | rbraces hcs ih =>
      intro i fuel next out hdrop hi hfuel hnext hout
      refine formatFrom_of_room hcap hdrop hfuel hout ?_
      intro fuel hfuel hroom
      have hlen := congrArg List.length hdrop
      simp only [List.length_drop, List.length_cons] at hlen hfuel
      have hdrop' : fmt.text.drop (i + 2) = _ := drop_append_right (t := [rbrace, rbrace]) hdrop
      rw [formatFrom_rbraces hcap hroom hdrop, ih hdrop' (by omega) (by omega) hnext
        (by rw [List.length_append]; exact hroom), expand, List.append_assoc,
        List.singleton_append]
  | placeholder body hbody hopen hcs ih =>
      rename_i cs ts
      intro i fuel next out hdrop hi hfuel hnext hout
      refine formatFrom_of_room hcap hdrop hfuel hout ?_
      intro fuel hfuel hroom
      have hlen := congrArg List.length hdrop
      simp only [List.length_drop, List.length_cons, List.length_append] at hlen hfuel
      have hrest : fmt.text.drop (i + 1 + body.length + 1) = cs := by
        have h := drop_append_right (t := lbrace :: body ++ [rbrace]) (u := cs)
          (by rw [hdrop, List.append_assoc]; rfl)
        rw [List.length_append, List.length_cons] at h
        rw [← h]
        congr 1
        rw [List.length_singleton]
        omega
      have hclose : ¬ (rbrace :: cs).headD 0 = 0 := by
        show ¬ rbrace = 0
        decide
      rw [← head?_append_cons body cs] at hopen
      rw [formatFrom_body hroom hdrop hbody hopen (.inr rfl) (by omega) (by omega), if_neg hclose]
      -- an argument is rendered; when none is left the text that says so goes out
      by_cases hlt : next < args.count
      · have hlt' : next.toNat < vs.length := by
          rw [← hstores.count]
          exact UInt8.lt_iff_toNat_lt.mp hlt
        rw [if_pos hlt, renderValueIn_eq printf hcap, bind_some_eq,
          hstores.entry (List.getElem?_eq_getElem hlt'), renderValue_eq printf _ _ hout,
          ih hrest (by omega) (by omega) (by rw [toNat_add_one_of_lt hlt]; exact hlt')
          (length_cut_le _ _), cut_cut_append, toNat_add_one_of_lt hlt,
          List.drop_eq_getElem_cons hlt', expand, List.append_assoc]
      · have hge : vs.length ≤ next.toNat := by
          rw [← hstores.count]
          exact Nat.le_of_not_lt fun h => hlt (UInt8.lt_iff_toNat_lt.mpr h)
        rw [if_neg hlt, appendRawIn_eq hcap, bind_some_eq, appendRaw_eq _ hout,
          ih hrest (by omega) (by omega) hnext (length_cut_le _ _), cut_cut_append,
          List.drop_eq_nil_of_le hge, expand, List.append_assoc]
  | unterminated hbody hopen =>
      rename_i body
      intro i fuel next out hdrop hi hfuel hnext hout
      refine formatFrom_of_room hcap hdrop hfuel hout ?_
      intro fuel hfuel hroom
      have hlen := congrArg List.length hdrop
      simp only [List.length_drop, List.length_cons] at hlen hfuel
      rw [← List.append_nil body] at hdrop hopen
      have hend : ([] : Text).headD 0 = 0 := rfl
      rw [formatFrom_body hroom hdrop hbody hopen (.inl rfl) (by omega) (by omega), if_pos hend,
        push_eq hcap hout, expand, List.append_nil, cut, List.take_of_length_le hout]
  | char hl hr hcs ih =>
      intro i fuel next out hdrop hi hfuel hnext hout
      refine formatFrom_of_room hcap hdrop hfuel hout ?_
      intro fuel hfuel hroom
      have hlen := congrArg List.length hdrop
      simp only [List.length_drop, List.length_cons] at hlen hfuel
      rw [formatFrom_char hcap hroom hdrop (by omega) hl hr,
        ih (CString.read_cons hdrop).2.2 (by omega) (by omega) hnext
        (by rw [List.length_append]; exact hroom), expand, List.append_assoc,
        List.singleton_append]

end

/-! ### The specification -/

/-- The text of a value in a placeholder with this body. -/
def bodyText (printf : Printf) (body : Text) : Value → Text := valueText printf (bodySpec body)

/-- A body of the format has no terminator in it. -/
theorem Reads.zero_notMem {cs : Text} {ts : List Token} (h : Reads cs ts) (h0 : 0 ∉ cs)
    {body : Text} (hbody : .placeholder body ∈ ts) : 0 ∉ body := by
  induction h with
  | nil => cases hbody
  | unterminated => cases hbody
  | lbraces _ ih =>
      refine ih (fun h => h0 ?_) ((List.mem_cons.mp hbody).resolve_left nofun)
      exact List.mem_cons_of_mem _ (List.mem_cons_of_mem _ h)
  | rbraces _ ih =>
      refine ih (fun h => h0 ?_) ((List.mem_cons.mp hbody).resolve_left nofun)
      exact List.mem_cons_of_mem _ (List.mem_cons_of_mem _ h)
  | placeholder body' _ _ _ ih =>
      rcases List.mem_cons.mp hbody with heq | hbody
      · obtain rfl : body = body' := by injection heq
        exact fun h => h0 (List.mem_cons_of_mem _ (List.mem_append_left _ h))
      · refine ih (fun h => h0 ?_) hbody
        exact List.mem_cons_of_mem _ (List.mem_append_right _ (List.mem_cons_of_mem _ h))
  | char _ _ _ ih =>
      refine ih (fun h => h0 (List.mem_cons_of_mem _ h)) ?_
      exact (List.mem_cons.mp hbody).resolve_left nofun

/-- **`FormatMessage` meets its specification, cut to the buffer.** The format reads
as tokens whose placeholders take the packed arguments in turn; a placeholder with a
spec of the subset that applies renders under it, any other one as `{}` does. Every
byte read lies before the terminator or is it, every byte written lies in `out`. -/
theorem formatMessage_spec (printf : Printf) (hs : ∀ s, printf (ascii "%s") (.str s) = s)
    (args : List Arg) (cap : Nat) (hcap : 1 ≤ cap) (fmt : CString) :
    ∃ ts, Reads fmt.text ts ∧
      formatMessage printf cap fmt.text (packArgs args) =
        cut cap (expand (bodyText printf) ts (packArgs args).values) ∧
      formatMessageIn printf cap fmt (packArgs args) =
        some (formatMessage printf cap fmt.text (packArgs args) ++ [0]) ∧
      ∀ body, .placeholder body ∈ ts → ∀ v,
        (∀ spec, InSubset body spec → Applies spec v →
          bodyText printf body v = ruleText printf spec v) ∧
        ((∀ spec, InSubset body spec → ¬ Applies spec v) →
          bodyText printf body v = bodyText printf [] v) := by
  have hstores := packArgs_stores args
  have hreads := reads_tokens fmt.text
  have hmsg := formatMessage_eq printf cap fmt.text hstores
  refine ⟨tokens fmt.text, hreads, ?_, ?_, ?_⟩
  · rw [hmsg, hstores.values]
    rfl
  · rw [hmsg]
    exact formatFrom_eq printf hcap hstores hreads rfl (Nat.zero_le _) (Nat.lt_succ_self _)
      (Nat.zero_le _) (Nat.zero_le _)
  · intro body hbody v
    constructor
    · intro spec hspec happly
      rw [bodyText, hspec.bodySpec_eq]
      refine valueText_applies printf ?_ hspec.bounded happly
      cases hspec <;> rfl
    · intro hnot
      refine valueText_fallback hs fun hok => hnot _ ?_
      exact inSubset_of_ok (hreads.zero_notMem fmt.zero_notMem hbody) hok

/-- Escapes, a cut and padded string, a positional body, an argument that is not
there and an unterminated placeholder. -/
theorem formatMessage_spec_example :
    (∀ s, plainPrintf (ascii "%s") (.str s) = s) ∧ 1 ≤ 16 ∧
      formatMessageIn plainPrintf 16
          ⟨ascii "\x7b\x7b\x7b:4.2s\x7d|\x7b0\x7d\x7b\x7d\x7b:", by decide⟩
          (packArgs [.text (ascii "xyz"), .signed (-7)]) =
        some (ascii "\x7bxy  |-7\x7b?\x7d" ++ [0]) := by
  refine ⟨plainPrintf_default.str, by decide, ?_⟩
  obtain ⟨ts, _, _, hin, _⟩ := formatMessage_spec plainPrintf plainPrintf_default.str
    [.text (ascii "xyz"), .signed (-7)] 16 (by decide)
    ⟨ascii "\x7b\x7b\x7b:4.2s\x7d|\x7b0\x7d\x7b\x7d\x7b:", by decide⟩
  rw [hin]
  decide +kernel

end XmBase.Telemetry
