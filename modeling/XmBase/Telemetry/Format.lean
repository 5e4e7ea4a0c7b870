import XmBase.Telemetry.ArgPack
/-!
# XmBase.Telemetry.Format

The deferred formatter: `FormatInto` (`src/telemetry_unbound.cpp`) and
`FormatMessage` (`src/telemetry_console_binding.cpp`) scan the format the same way
and differ in how they render an argument, so the scanner is one definition with
the renderer as a parameter.

`scan_eq` says what it computes: **the format's tokens expanded, with the `k`-th
placeholder taking the `k`-th value, cut to `cap - 1` bytes**.
-/

namespace XmBase.Telemetry

/-- The character `{`. -/
def lbrace : UInt8 := 123

/-- The character `}`. -/
def rbrace : UInt8 := 125

/-- What stands for an argument that is not there. -/
def missing : Text := ascii "\x7b?\x7d"

/-- An argument passed to `snprintf`. -/
inductive PrintfArg
  | str (s : Text)
  | int (v : Int64)
  | uint (v : UInt64)
  | double (bits : UInt64)
  deriving DecidableEq, Repr

/-- What `snprintf` would write, given enough room, for a format with one
conversion and its argument. -/
abbrev Printf := Text → PrintfArg → Text

/-- `AppendRaw`: append to the `cap` bytes at `out`, of which the last is kept for
the terminator. -/
def appendRaw (cap : Nat) (out : Text) : Text → Text
  | [] => out
  | c :: s => if out.length < cap - 1 then appendRaw cap (out ++ [c]) s else out

section

variable (cap : Nat) (count : UInt8) (render : Text → UInt8 → Text → Text)

mutual

/-- The `for` loop over the format; `c` is the rest of it. -/
def scan : (c : Text) → (next : UInt8) → (out : Text) → Text
  | [], _, out => out
  | c :: cs, next, out =>
      if out.length < cap - 1 then
        if c = lbrace then
          match cs with
          | [] => out
          | c' :: cs' =>
              if c' = lbrace then scan cs' next (out ++ [lbrace])
              else scanBody (c' :: cs') [] next out
        else if c = rbrace then
          match cs with
          | [] => scan [] next (out ++ [rbrace])
          | c' :: cs' =>
              if c' = rbrace then scan cs' next (out ++ [rbrace])
              else scan (c' :: cs') next (out ++ [rbrace])
        else scan cs next (out ++ [c])
      else out

/-- The inner `while` loop, to the closing brace; `body` is what it has passed. -/
def scanBody : (c : Text) → (body : Text) → (next : UInt8) → (out : Text) → Text
  -- an unterminated placeholder drops the tail
  | [], _, _, out => out
  | c :: cs, body, next, out =>
      if c = rbrace then
        if next < count then scan cs (next + 1) (render body next out)
        else scan cs next (appendRaw cap out missing)
      else scanBody cs (body ++ [c]) next out

end

end

/-! ### The pieces of a format -/

/-- A piece of a format. -/
inductive Token
  | char (c : UInt8)
  | placeholder (body : Text)
  deriving DecidableEq, Repr

mutual

/-- The pieces of a format, in order. -/
def tokens : Text → List Token
  | [] => []
  | c :: cs =>
      if c = lbrace then
        match cs with
        | [] => []
        | c' :: cs' =>
            if c' = lbrace then .char lbrace :: tokens cs' else bodyTokens (c' :: cs') []
      else if c = rbrace then
        match cs with
        | [] => .char rbrace :: tokens []
        | c' :: cs' =>
            if c' = rbrace then .char rbrace :: tokens cs' else .char rbrace :: tokens (c' :: cs')
      else .char c :: tokens cs

/-- The pieces from inside a placeholder on. -/
def bodyTokens : Text → Text → List Token
  | [], _ => []
  | c :: cs, body =>
      if c = rbrace then .placeholder body :: tokens cs else bodyTokens cs (body ++ [c])

end

/-! ### How a format reads

The grammar, as a relation: escapes, placeholders, other characters, and a tail that is
dropped when its placeholder is not closed. Every format reads in exactly one way, and later
inductions are over that reading rather than over the code's two loops. -/

section

variable {cs body : Text}

theorem tokens_lbrace_lbrace (cs : Text) :
    tokens (lbrace :: lbrace :: cs) = .char lbrace :: tokens cs := by
  rw [tokens.eq_def]
  simp only [if_true]

theorem tokens_lbrace (h : cs.head? ≠ some lbrace) : tokens (lbrace :: cs) = bodyTokens cs [] := by
  rw [tokens.eq_def]
  cases cs with
  | nil => rfl
  | cons c cs =>
      have hc : c ≠ lbrace := fun hc => h (by rw [hc, List.head?_cons])
      simp only [if_true, if_neg hc]

theorem tokens_rbrace_rbrace (cs : Text) :
    tokens (rbrace :: rbrace :: cs) = .char rbrace :: tokens cs := by
  have hne : rbrace ≠ lbrace := by decide
  rw [tokens.eq_def]
  simp only [if_true, if_neg hne]

theorem tokens_char {c : UInt8} (hl : c ≠ lbrace) (hr : c = rbrace → cs.head? ≠ some rbrace) :
    tokens (c :: cs) = .char c :: tokens cs := by
  rw [tokens.eq_def]
  simp only [if_neg hl]
  by_cases hc : c = rbrace
  · subst hc
    cases cs with
    | nil => rfl
    | cons c' cs =>
        have hc' : c' ≠ rbrace := fun h => hr rfl (by rw [h, List.head?_cons])
        simp only [if_true, if_neg hc']
  · simp only [if_neg hc]

/-- A body runs to the first closing brace. -/
theorem bodyTokens_append (hbody : rbrace ∉ body) (seen cs : Text) :
    bodyTokens (body ++ rbrace :: cs) seen = .placeholder (seen ++ body) :: tokens cs := by
  induction body generalizing seen with
  | nil => rw [List.nil_append, bodyTokens, if_pos rfl, List.append_nil]
  | cons c body ih =>
      obtain ⟨hc, hbody⟩ := not_or.mp (fun h => hbody (List.mem_cons.mpr h))
      rw [List.cons_append, bodyTokens, if_neg (Ne.symm hc), ih hbody, List.append_assoc,
        List.singleton_append]

theorem bodyTokens_eq_nil (hbody : rbrace ∉ body) (seen : Text) : bodyTokens body seen = [] := by
  induction body generalizing seen with
  | nil => rw [bodyTokens]
  | cons c body ih =>
      obtain ⟨hc, hbody⟩ := not_or.mp (fun h => hbody (List.mem_cons.mpr h))
      rw [bodyTokens, if_neg (Ne.symm hc), ih hbody]

end

/-- Reading a format left to right. -/
inductive Reads : Text → List Token → Prop
  | nil : Reads [] []
  | lbraces {cs : Text} {ts : List Token} (h : Reads cs ts) :
      Reads (lbrace :: lbrace :: cs) (.char lbrace :: ts)
  | rbraces {cs : Text} {ts : List Token} (h : Reads cs ts) :
      Reads (rbrace :: rbrace :: cs) (.char rbrace :: ts)
  | placeholder (body : Text) {cs : Text} {ts : List Token} (hbody : rbrace ∉ body)
      (hopen : (body ++ [rbrace]).head? ≠ some lbrace) (h : Reads cs ts) :
      Reads (lbrace :: (body ++ rbrace :: cs)) (.placeholder body :: ts)
  /-- A placeholder without its closing brace ends the message. -/
  | unterminated {body : Text} (hbody : rbrace ∉ body) (hopen : body.head? ≠ some lbrace) :
      Reads (lbrace :: body) []
  /-- Any other character is itself, a lone closing brace too. -/
  | char {c : UInt8} {cs : Text} {ts : List Token} (hl : c ≠ lbrace)
      (hr : c = rbrace → cs.head? ≠ some rbrace) (h : Reads cs ts) : Reads (c :: cs) (.char c :: ts)

theorem head?_append_cons (body cs : Text) (c : UInt8) :
    (body ++ c :: cs).head? = (body ++ [c]).head? := by
  cases body <;> rfl

theorem Reads.eq_tokens {cs : Text} {ts : List Token} (h : Reads cs ts) : ts = tokens cs := by
  induction h with
  | nil => rw [tokens]
  | lbraces _ ih => rw [tokens_lbrace_lbrace, ih]
  | rbraces _ ih => rw [tokens_rbrace_rbrace, ih]
  | placeholder body hbody hopen _ ih =>
      rw [tokens_lbrace (by rw [head?_append_cons]; exact hopen), bodyTokens_append hbody,
        List.nil_append, ih]
  | unterminated hbody hopen => rw [tokens_lbrace hopen, bodyTokens_eq_nil hbody]
  | char hl hr _ ih => rw [tokens_char hl hr, ih]

/-- Every format reads in some way. With `Reads.eq_tokens` there is exactly one way. -/
theorem exists_reads (n : Nat) : ∀ cs : Text, cs.length ≤ n → ∃ ts, Reads cs ts := by
  induction n with
  | zero =>
      intro cs hcs
      obtain rfl := List.length_eq_zero_iff.mp (Nat.le_zero.mp hcs)
      exact ⟨[], .nil⟩
  | succ n ih =>
      intro cs hcs
      cases cs with
      | nil => exact ⟨[], .nil⟩
      | cons c cs =>
          replace hcs : cs.length ≤ n := Nat.le_of_succ_le_succ hcs
          by_cases hl : c = lbrace
          · subst hl
            by_cases hopen : cs.head? = some lbrace
            · obtain ⟨cs, rfl⟩ := List.head?_eq_some_iff.mp hopen
              obtain ⟨ts, hts⟩ := ih cs (Nat.le_of_succ_le hcs)
              exact ⟨_, .lbraces hts⟩
            · by_cases hclose : rbrace ∈ cs
              · obtain ⟨body, rest, rfl, hbody⟩ := List.eq_append_cons_of_mem hclose
                rw [head?_append_cons] at hopen
                rw [List.length_append, List.length_cons] at hcs
                obtain ⟨ts, hts⟩ := ih rest (by omega)
                exact ⟨_, .placeholder body hbody hopen hts⟩
              · exact ⟨[], .unterminated hclose hopen⟩
          · by_cases hr : c = rbrace ∧ cs.head? = some rbrace
            · obtain ⟨rfl, hcs'⟩ := hr
              obtain ⟨cs, rfl⟩ := List.head?_eq_some_iff.mp hcs'
              obtain ⟨ts, hts⟩ := ih cs (Nat.le_of_succ_le hcs)
              exact ⟨_, .rbraces hts⟩
            · obtain ⟨ts, hts⟩ := ih cs hcs
              exact ⟨_, .char hl (fun hc h => hr ⟨hc, h⟩) hts⟩

/-- `tokens` is how the format reads. -/
theorem reads_tokens (fmt : Text) : Reads fmt (tokens fmt) := by
  obtain ⟨ts, hts⟩ := exists_reads fmt.length fmt (Nat.le_refl _)
  rw [← hts.eq_tokens]
  exact hts

/-! ### What the scanner computes

The scanner stops as soon as the buffer is full, and the specification cuts at the end. That
these are the same is the content of `scan_eq`; it needs of the renderer only that it
appends. -/

/-- The text of a format: each placeholder takes the next value. A placeholder without a
value becomes `missing`. -/
def expand {α : Type} (text : Text → α → Text) : List Token → List α → Text
  | [], _ => []
  | .char c :: ts, vs => c :: expand text ts vs
  | .placeholder body :: ts, v :: vs => text body v ++ expand text ts vs
  | .placeholder _ :: ts, [] => missing ++ expand text ts []

/-- What fits in a buffer of `cap` bytes. -/
def cut (cap : Nat) (s : Text) : Text := s.take (cap - 1)

theorem length_cut_le (cap : Nat) (s : Text) : (cut cap s).length ≤ cap - 1 :=
  List.length_take_le _ _

/-- Cutting early loses nothing. What the buffer has no room for now it has no room for
later. -/
theorem cut_cut_append (cap : Nat) (s t : Text) : cut cap (cut cap s ++ t) = cut cap (s ++ t) := by
  unfold cut
  rcases Nat.le_total s.length (cap - 1) with h | h
  · rw [List.take_of_length_le h]
  · have hlen : (s.take (cap - 1)).length = cap - 1 := by rw [List.length_take]; omega
    rw [List.take_append_of_le_length (Nat.le_of_eq hlen.symm), List.take_append_of_le_length h,
      List.take_take, Nat.min_self]

/-- A full buffer takes nothing more. -/
theorem cut_append_of_full {cap : Nat} {out : Text} (s : Text) (hle : out.length ≤ cap - 1)
    (hfull : ¬ out.length < cap - 1) : cut cap (out ++ s) = out := by
  have hlen : cap - 1 = out.length := by omega
  rw [cut, hlen, List.take_left]

theorem appendRaw_eq {cap : Nat} (s : Text) {out : Text} (h : out.length ≤ cap - 1) :
    appendRaw cap out s = cut cap (out ++ s) := by
  induction s generalizing out with
  | nil => rw [appendRaw, List.append_nil, cut, List.take_of_length_le h]
  | cons c s ih =>
      rw [appendRaw]
      split
      · next hroom =>
        rw [ih (by rw [List.length_append]; exact hroom), List.append_assoc, List.singleton_append]
      · next hfull => exact (cut_append_of_full _ h hfull).symm

/-- An index below a count does not wrap. -/
theorem toNat_add_one_of_lt {next count : UInt8} (h : next < count) :
    (next + 1).toNat = next.toNat + 1 := by
  have hlt := UInt8.lt_iff_toNat_lt.mp h
  have hle := count.toNat_lt
  rw [UInt8.toNat_add]
  show (next.toNat + 1) % 256 = _
  omega

section

variable {α : Type} {cap : Nat} {count : UInt8} {render : Text → UInt8 → Text → Text}
  {text : Text → α → Text} {values : List α}

/-- The closing brace of a placeholder: render the next value, or `missing`. -/
theorem scan_placeholder (hcount : count.toNat = values.length)
    (hrender : ∀ body (next : UInt8) v out, values[next.toNat]? = some v → out.length ≤ cap - 1 →
      render body next out = cut cap (out ++ text body v))
    {cs body out : Text} {next : UInt8} (hnext : next.toNat ≤ values.length)
    (hout : out.length ≤ cap - 1)
    (ih : ∀ (next : UInt8) (out : Text), next.toNat ≤ values.length → out.length ≤ cap - 1 →
      scan cap count render cs next out =
        cut cap (out ++ expand text (tokens cs) (values.drop next.toNat))) :
    (if next < count then scan cap count render cs (next + 1) (render body next out)
      else scan cap count render cs next (appendRaw cap out missing)) =
      cut cap (out ++ expand text (.placeholder body :: tokens cs) (values.drop next.toNat)) := by
  by_cases hlt : next < count
  · have hlt' : next.toNat < values.length := by
      rw [← hcount]
      exact UInt8.lt_iff_toNat_lt.mp hlt
    have hsucc : (next + 1).toNat = next.toNat + 1 := toNat_add_one_of_lt hlt
    rw [if_pos hlt, hrender body next _ out (List.getElem?_eq_getElem hlt') hout,
      ih _ _ (by rw [hsucc]; exact hlt') (length_cut_le _ _), cut_cut_append, hsucc,
      List.drop_eq_getElem_cons hlt', expand, List.append_assoc]
  · have hge : values.length ≤ next.toNat := by
      rw [← hcount]
      exact Nat.le_of_not_lt fun h => hlt (UInt8.lt_iff_toNat_lt.mpr h)
    rw [if_neg hlt, appendRaw_eq _ hout, ih _ _ hnext (length_cut_le _ _), cut_cut_append,
      List.drop_eq_nil_of_le hge, expand, List.append_assoc]

/-- Both loops, from any point on. The induction is on the length, since each loop hands a
shorter rest to the other. -/
theorem scan_eq_aux (hcount : count.toNat = values.length)
    (hrender : ∀ body (next : UInt8) v out, values[next.toNat]? = some v → out.length ≤ cap - 1 →
      render body next out = cut cap (out ++ text body v)) (n : Nat) :
    ∀ c : Text, c.length ≤ n → ∀ (next : UInt8) (out : Text),
      next.toNat ≤ values.length → out.length ≤ cap - 1 →
      scan cap count render c next out =
          cut cap (out ++ expand text (tokens c) (values.drop next.toNat)) ∧
        ∀ body, scanBody cap count render c body next out =
          cut cap (out ++ expand text (bodyTokens c body) (values.drop next.toNat)) := by
  have hdone : ∀ {out : Text} (vs : List α), out.length ≤ cap - 1 →
      out = cut cap (out ++ expand text [] vs) := by
    intro out vs hout
    rw [expand, List.append_nil, cut, List.take_of_length_le hout]
  -- both loops at once: each hands a shorter rest to the other
  induction n with
  | zero =>
      intro c hc next out hnext hout
      obtain rfl := List.length_eq_zero_iff.mp (Nat.le_zero.mp hc)
      exact ⟨by rw [scan, tokens]; exact hdone _ hout,
        fun body => by rw [scanBody, bodyTokens]; exact hdone _ hout⟩
  | succ n ih =>
      intro c hc next out hnext hout
      cases c with
      | nil =>
          exact ⟨by rw [scan, tokens]; exact hdone _ hout,
            fun body => by rw [scanBody, bodyTokens]; exact hdone _ hout⟩
      | cons c cs =>
          have hcs : cs.length ≤ n := Nat.le_of_succ_le_succ hc
          constructor
          · by_cases hroom : out.length < cap - 1
            · -- one character goes out, and the loop goes on
              have hpush : ∀ (b : UInt8) (cs' : Text), cs'.length ≤ n →
                  scan cap count render cs' next (out ++ [b]) =
                    cut cap (out ++ expand text (.char b :: tokens cs') (values.drop next.toNat)) := by
                intro b cs' hcs'
                rw [(ih cs' hcs' next (out ++ [b]) hnext (by rw [List.length_append]; exact hroom)).1,
                  expand, List.append_assoc, List.singleton_append]
              rw [scan.eq_def, tokens.eq_def]
              simp only [if_pos hroom]
              by_cases hl : c = lbrace
              · rw [if_pos hl, if_pos hl]
                cases cs with
                | nil => exact hdone _ hout
                | cons c' cs' =>
                    have hcs' : cs'.length ≤ n := Nat.le_of_succ_le hcs
                    by_cases hl' : c' = lbrace
                    · simp only [if_pos hl']
                      exact hpush lbrace cs' hcs'
                    · simp only [if_neg hl']
                      exact (ih (c' :: cs') hcs next out hnext hout).2 []
              · rw [if_neg hl, if_neg hl]
                by_cases hr : c = rbrace
                · rw [if_pos hr, if_pos hr]
                  cases cs with
                  | nil => exact hpush rbrace [] hcs
                  | cons c' cs' =>
                      have hcs' : cs'.length ≤ n := Nat.le_of_succ_le hcs
                      by_cases hr' : c' = rbrace
                      · simp only [if_pos hr']
                        exact hpush rbrace cs' hcs'
                      · simp only [if_neg hr']
                        exact hpush rbrace (c' :: cs') hcs
                · rw [if_neg hr, if_neg hr]
                  exact hpush c cs hcs
            -- the buffer is full: the loop ends, and nothing more would fit
            · rw [scan.eq_def]
              simp only [if_neg hroom]
              exact (cut_append_of_full _ hout hroom).symm
          · intro body
            rw [scanBody, bodyTokens]
            by_cases hr : c = rbrace
            · rw [if_pos hr, if_pos hr]
              exact scan_placeholder hcount hrender hnext hout
                (fun next out hnext hout => (ih cs hcs next out hnext hout).1)
            · rw [if_neg hr, if_neg hr]
              exact (ih cs hcs next out hnext hout).2 (body ++ [c])

/-- **What the formatter writes**, if its renderer appends the text of the value
as far as there is room. -/
theorem scan_eq (hcount : count.toNat = values.length)
    (hrender : ∀ body (next : UInt8) v out, values[next.toNat]? = some v → out.length ≤ cap - 1 →
      render body next out = cut cap (out ++ text body v)) (fmt : Text) :
    scan cap count render fmt 0 [] = cut cap (expand text (tokens fmt) values) :=
  (scan_eq_aux hcount hrender fmt.length fmt (Nat.le_refl _) 0 [] (Nat.zero_le _)
    (Nat.zero_le _)).1

end

end XmBase.Telemetry
