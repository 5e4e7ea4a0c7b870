import XmBase.Telemetry.ConsoleFormat
import XmBase.Telemetry.UnboundFormat
/-!
# XmBase.Telemetry.Attribution

Does the `k`-th placeholder of a message show the `k`-th argument? The formatters
hand out packed entries in order (`formatMessage_eq`, `formatInto_eq`), so it does
if what is packed is a prefix of the arguments. But `PackArgs` goes on after a
dropped argument: a number that does not fit is dropped, and a bool or a string
behind it may still be packed, in its place. **Exactly when an argument overflows
the buffer and a later one still fits, values are shown at the wrong place**
(`wellAttributed_iff`).
-/

namespace XmBase.Telemetry

open ArgPack (kMaxArgs kBufBytes)

namespace Value

/-- The packed value is the given one, a string possibly shortened. -/
def Shows : Value → Value → Prop
  | str s, str t => s <+: t
  | v, u => v = u

def isStr : Value → Bool
  | str _ => true
  | _ => false

def isBool : Value → Bool
  | bool _ => true
  | _ => false

/-- Strings take what there is, bools one byte and numbers eight. -/
theorem kind (v : Value) :
    (v.isStr = true ∧ v.isBool = false) ∨
      (v.isStr = false ∧ v.isBool = true ∧ v.bytes.length = 1) ∨
      (v.isStr = false ∧ v.isBool = false ∧ v.bytes.length = 8) := by
  cases v with
  | bool b => exact Or.inr (Or.inl ⟨rfl, rfl, rfl⟩)
  | i64 w => exact Or.inr (Or.inr ⟨rfl, rfl, Bytes.length_wordBytes _⟩)
  | u64 w => exact Or.inr (Or.inr ⟨rfl, rfl, Bytes.length_wordBytes _⟩)
  | f64 w => exact Or.inr (Or.inr ⟨rfl, rfl, Bytes.length_wordBytes _⟩)
  | str s => exact Or.inl ⟨rfl, rfl⟩

theorem fits_iff (v : Value) (used : Nat) :
    v.fits used = true ↔ v.isStr = true ∨ used + v.bytes.length ≤ kBufBytes := by
  cases v <;> simp [fits, isStr]

theorem clip_shows (v : Value) (used : Nat) : (v.clip used).Shows v := by
  cases v with
  | str s => exact List.take_prefix _ _
  | _ => rfl

theorem clip_of_not_isStr {v : Value} (h : v.isStr = false) (used : Nat) : v.clip used = v := by
  cases v with
  | str s => cases h
  | _ => rfl

theorem Shows.eq_of_not_isStr {v u : Value} (h : v.Shows u) (hu : u.isStr = false) : v = u := by
  cases u with
  | str s => cases hu
  | _ => cases v <;> exact h

/-- A packed value leaves the cursor at the end of the buffer or behind itself. -/
theorem used_clip {v : Value} {used base : Nat} (hused : used = min base kBufBytes)
    (hfits : v.fits used = true) :
    used + (v.clip used).bytes.length = min (base + v.bytes.length) kBufBytes := by
  rcases v.kind with ⟨hstr, -⟩ | hbool | hnum
  · cases v with
    | str s =>
        simp only [clip, bytes, List.length_take]
        omega
    | _ => cases hstr
  · have hroom := ((v.fits_iff used).mp hfits).resolve_left (by rw [hbool.1]; decide)
    rw [clip_of_not_isStr hbool.1]
    omega
  · have hroom := ((v.fits_iff used).mp hfits).resolve_left (by rw [hnum.1]; decide)
    rw [clip_of_not_isStr hnum.1]
    omega

end Value

/-! ### What is packed is a prefix

When the values that `keep` keeps are the arguments in their places. Up to the first value
that is dropped for want of room they are, and behind one it is decided by whether anything
fits any more: what is packed there is in the dropped one's place, and of a smaller kind, so
it cannot pass for it. -/

/-- Each of `shown` shows the value at its place. -/
def ShowsPrefix (shown ws : List Value) : Prop :=
  ∀ (i : Nat) (v : Value), shown[i]? = some v → ∃ w, ws[i]? = some w ∧ v.Shows w

theorem showsPrefix_nil (ws : List Value) : ShowsPrefix [] ws := by
  intro i v hi
  simp at hi

theorem showsPrefix_cons {v w : Value} {shown ws : List Value} (hv : v.Shows w) :
    ShowsPrefix (v :: shown) (w :: ws) ↔ ShowsPrefix shown ws := by
  constructor
  · intro h i u hi
    exact h (i + 1) u hi
  · intro h i u hi
    cases i with
    | zero =>
        obtain rfl : v = u := by simpa using hi
        exact ⟨w, rfl, hv⟩
    | succ i => exact h i u hi

theorem keep_full {used n : Nat} (hn : ¬ n < kMaxArgs) (ws : List Value) : keep used n ws = [] := by
  induction ws with
  | nil => rfl
  | cons w ws ih => rw [keep, if_neg (fun h => hn h.1), ih]

theorem keep_eq_nil {used n : Nat} {ws : List Value} (h : ∀ w ∈ ws, w.fits used = false) :
    keep used n ws = [] := by
  induction ws with
  | nil => rfl
  | cons w ws ih =>
      have hw := h w List.mem_cons_self
      rw [keep, if_neg (fun hf => by rw [hw] at hf; cases hf.2),
        ih fun w' hw' => h w' (List.mem_cons_of_mem w hw')]

/-- The first value packed is the first that fits. Those before it are lost, and everything
behind it is packed as if they had not been there. -/
theorem keep_eq_cons {used n : Nat} {ws : List Value} (hn : n < kMaxArgs) {w : Value}
    (hw : w ∈ ws) (hf : w.fits used = true) :
    ∃ (w' : Value) (shown : List Value), w'.fits used = true ∧ keep used n ws = w'.clip used :: shown := by
  induction ws with
  | nil => cases hw
  | cons u ws ih =>
      rw [keep]
      by_cases hu : u.fits used = true
      · rw [if_pos ⟨hn, hu⟩]
        exact ⟨u, _, hu, rfl⟩
      · rw [if_neg (fun h => hu h.2)]
        rcases List.mem_cons.mp hw with rfl | hw
        · exact absurd hf hu
        · exact ih hw

/-- A value that was dropped for want of room is made up for by nothing: what is
packed next is of a smaller kind. -/
theorem not_showsPrefix_dropped {used n : Nat} {w w' : Value} {ws : List Value}
    (hn : n < kMaxArgs) (hw : w.fits used = false) (hw' : w' ∈ ws) (hf : w'.fits used = true) :
    ¬ ShowsPrefix (keep used n ws) (w :: ws) := by
  intro h
  obtain ⟨u, shown, hu, hkeep⟩ := keep_eq_cons hn hw' hf
  rw [hkeep] at h
  obtain ⟨x, hx, hshows⟩ := h 0 _ rfl
  obtain rfl : w = x := by simpa using hx
  have hstr : w.isStr = false := by
    cases hs : w.isStr with
    | false => rfl
    | true => rw [(w.fits_iff used).mpr (Or.inl hs)] at hw; cases hw
  have heq := hshows.eq_of_not_isStr hstr
  cases hus : u.isStr with
  | false =>
      rw [Value.clip_of_not_isStr hus] at heq
      rw [heq, hw] at hu
      cases hu
  | true =>
      cases u with
      | str s => rw [← heq] at hstr; cases hstr
      | _ => cases hus

/-- With `used` bytes and `n` entries taken: once a value is dropped for want of
room, none of the later ones fits. -/
def Aligned (used n : Nat) : List Value → Prop
  | [] => True
  | w :: ws => n < kMaxArgs →
      if w.fits used then Aligned (used + (w.clip used).bytes.length) (n + 1) ws
      else ∀ w' ∈ ws, w'.fits used = false

theorem showsPrefix_keep_iff (used n : Nat) (ws : List Value) :
    ShowsPrefix (keep used n ws) ws ↔ Aligned used n ws := by
  induction ws generalizing used n with
  | nil => exact iff_of_true (showsPrefix_nil []) trivial
  | cons w ws ih =>
      by_cases hn : n < kMaxArgs
      · by_cases hf : w.fits used = true
        · rw [keep, if_pos ⟨hn, hf⟩, showsPrefix_cons (w.clip_shows used), ih]
          simp only [Aligned, hn, hf, if_true, forall_const]
        · have hf' : w.fits used = false := Bool.eq_false_iff.mpr hf
          rw [keep, if_neg (fun h => hf h.2)]
          simp only [Aligned, hn, hf', forall_const]
          constructor
          · intro h w' hw'
            by_contra hfit
            exact not_showsPrefix_dropped hn hf' hw' (Bool.eq_true_of_not_eq_false hfit) h
          · intro h
            rw [keep_eq_nil h]
            exact showsPrefix_nil _
      · rw [keep_full hn]
        exact iff_of_true (showsPrefix_nil _) fun h => absurd h hn

/-! ### The condition on the arguments

The same from the sizes of the arguments, without packing: a bool takes one byte, a number
eight, and a string shrinks to what there is. -/

/-- The bytes that the arguments ask for. -/
def bytesOf (ws : List Value) : Nat := (packedBytes ws).length

theorem bytesOf_cons (w : Value) (ws : List Value) :
    bytesOf (w :: ws) = w.bytes.length + bytesOf ws := by
  simp [bytesOf, packedBytes]

/-- With `base` bytes and `n` entries asked for before: a bool or a number that goes over
the end of the buffer is followed by no string and, if there are bytes left, by no bool. A
string fits anywhere, be it with no byte, so none may follow. -/
def NothingFitsAfterOverflow (base n : Nat) (ws : List Value) : Prop :=
  ∀ (i : Nat) (w : Value), n + i < kMaxArgs → ws[i]? = some w → w.isStr = false →
    kBufBytes < base + bytesOf (ws.take i) + w.bytes.length →
    ∀ w' ∈ ws.drop (i + 1), w'.isStr = false ∧
      (base + bytesOf (ws.take i) < kBufBytes → w'.isBool = false)

/-- The first argument, and the others. So the condition can be checked argument by
argument, like packing. -/
theorem nothingFitsAfterOverflow_cons (base n : Nat) (w : Value) (ws : List Value) :
    NothingFitsAfterOverflow base n (w :: ws) ↔
      (n < kMaxArgs → w.isStr = false → kBufBytes < base + w.bytes.length →
        ∀ w' ∈ ws, w'.isStr = false ∧ (base < kBufBytes → w'.isBool = false)) ∧
      NothingFitsAfterOverflow (base + w.bytes.length) (n + 1) ws := by
  constructor
  · intro h
    refine ⟨fun hn hstr hover => h 0 w hn rfl hstr hover, ?_⟩
    intro i u hn hi hstr hover
    have := h (i + 1) u (by omega) hi hstr
    rw [List.take_succ_cons, bytesOf_cons, ← Nat.add_assoc] at this
    exact this hover
  · rintro ⟨h0, hs⟩ i u hn hi hstr hover
    cases i with
    | zero =>
        obtain rfl : w = u := by simpa using hi
        exact h0 hn hstr hover
    | succ i =>
        rw [List.take_succ_cons, bytesOf_cons, ← Nat.add_assoc] at hover ⊢
        exact hs i u (by omega) hi hstr hover

/-- A value is dropped for want of room exactly when it is no string and goes over
the end of the buffer. -/
theorem fits_eq_false_iff {base used : Nat} (w : Value) (hused : used = min base kBufBytes) :
    w.fits used = false ↔ w.isStr = false ∧ kBufBytes < base + w.bytes.length := by
  rw [← Bool.not_eq_true, w.fits_iff]
  rcases w.kind with ⟨hs, -⟩ | ⟨hs, -, hl⟩ | ⟨hs, -, hl⟩
  · simp [hs]
  · simp only [hs, hl, true_and, Bool.false_eq_true, false_or]
    omega
  · simp only [hs, hl, true_and, Bool.false_eq_true, false_or]
    omega

/-- Behind a value that does not fit, only strings and bools could. -/
theorem later_fits_eq_false_iff {base used : Nat} {w : Value} (hused : used = min base kBufBytes)
    (hw : w.fits used = false) (w' : Value) :
    w'.fits used = false ↔ w'.isStr = false ∧ (base < kBufBytes → w'.isBool = false) := by
  obtain ⟨hstr, hover⟩ := (fits_eq_false_iff w hused).mp hw
  have hlen : w.bytes.length ≤ 8 := by
    rcases w.kind with ⟨h, -⟩ | ⟨-, -, h⟩ | ⟨-, -, h⟩
    · rw [hstr] at h
      cases h
    · omega
    · omega
  rw [fits_eq_false_iff w' hused]
  rcases w'.kind with ⟨hs, -⟩ | ⟨hs, hb, hl⟩ | ⟨hs, hb, hl⟩
  · simp [hs]
  · simp only [hs, hb, hl, true_and, Bool.true_eq_false, imp_false]
    omega
  · simp only [hs, hb, hl, true_and, implies_true, iff_true]
    omega

/-- **The condition on the arguments says that packing never goes out of step.** -/
theorem aligned_iff (base used n : Nat) (ws : List Value) (hused : used = min base kBufBytes) :
    Aligned used n ws ↔ NothingFitsAfterOverflow base n ws := by
  induction ws generalizing base used n with
  | nil =>
      refine iff_of_true trivial ?_
      intro i w _ hi
      simp at hi
  | cons w ws ih =>
      rw [nothingFitsAfterOverflow_cons, Aligned]
      by_cases hn : n < kMaxArgs
      · by_cases hf : w.fits used = true
        · rw [if_pos hf, ih _ _ (n + 1) (Value.used_clip hused hf)]
          refine ⟨fun h => ⟨?_, h hn⟩, fun h _ => h.2⟩
          intro _ hstr hover
          rw [(fits_eq_false_iff w hused).mpr ⟨hstr, hover⟩] at hf
          cases hf
        · have hf' : w.fits used = false := Bool.eq_false_iff.mpr hf
          obtain ⟨hstr, hover⟩ := (fits_eq_false_iff w hused).mp hf'
          rw [if_neg hf]
          constructor
          · intro h
            have hlater : ∀ w' ∈ ws, w'.isStr = false ∧ (base < kBufBytes → w'.isBool = false) :=
              fun w' hw' => (later_fits_eq_false_iff hused hf' w').mp (h hn w' hw')
            refine ⟨fun _ _ _ => hlater, ?_⟩
            -- a second overflow asks for no more than the first
            intro i u _ _ _ _ w' hw'
            obtain ⟨hs, hb⟩ := hlater w' (List.mem_of_mem_drop hw')
            exact ⟨hs, fun hroom => hb (by omega)⟩
          · intro h _ w' hw'
            exact (later_fits_eq_false_iff hused hf' w').mpr (h.1 hn hstr hover w' hw')
      · refine iff_of_true (fun h => absurd h hn) ⟨fun h => absurd h hn, ?_⟩
        intro i u hi
        omega

/-! ### Placeholders and arguments

From the packed values to what the two formatters show. Both hand out the entries in order,
so the condition on the pack is one on every message. -/

/-- Everything `PackArgs` packs is the argument at its place, and so the `k`-th
placeholder of every message shows the `k`-th argument, or `missing`. -/
structure WellAttributed (args : List Arg) : Prop where
  packed : ∀ i < (packArgs args).count.toNat, ∃ a, args[i]? = some a ∧
    ((packArgs args).entry i).Shows a.value
  message : ∀ (printf : Printf) (cap : Nat) (fmt : Text), 1 ≤ cap →
    ∃ shown, ShowsPrefix shown (args.map Arg.value) ∧ formatMessage printf cap fmt (packArgs args) =
      cut cap (expand (fun body => valueText printf (bodySpec body)) (tokens fmt) shown)
  into : ∀ (printf : Printf) (cap : Nat) (fmt : Text), 1 ≤ cap →
    ∃ shown, ShowsPrefix shown (args.map Arg.value) ∧ formatInto printf cap fmt (packArgs args) =
      cut cap (expand (fun _ => defaultText printf) (tokens fmt) shown)

/-- What is packed is in place exactly when the values kept are. -/
theorem packed_iff (args : List Arg) :
    (∀ i < (packArgs args).count.toNat, ∃ a, args[i]? = some a ∧
        ((packArgs args).entry i).Shows a.value) ↔
      ShowsPrefix (keep 0 0 (args.map Arg.value)) (args.map Arg.value) := by
  have h := packArgs_stores args
  constructor
  · intro hp i v hi
    have hlt := (List.getElem?_eq_some_iff.mp hi).1
    obtain ⟨a, ha, hshows⟩ := hp i (by rw [h.count]; exact hlt)
    rw [h.entry hi] at hshows
    exact ⟨a.value, by rw [List.getElem?_map, ha]; rfl, hshows⟩
  · intro hp i hi
    rw [h.count] at hi
    obtain ⟨w, hw, hshows⟩ := hp i _ (List.getElem?_eq_getElem hi)
    rw [List.getElem?_map, Option.map_eq_some_iff] at hw
    obtain ⟨a, ha, rfl⟩ := hw
    exact ⟨a, ha, by rw [h.entry (List.getElem?_eq_getElem hi)]; exact hshows⟩

/-- **When every placeholder shows its own argument**: exactly when no bool or number
among the first eight arguments goes over the end of the buffer with an argument
behind it that still fits. -/
theorem wellAttributed_iff (args : List Arg) :
    WellAttributed args ↔ NothingFitsAfterOverflow 0 0 (args.map Arg.value) := by
  rw [← aligned_iff 0 0 0 _ rfl, ← showsPrefix_keep_iff]
  constructor
  · exact fun h => (packed_iff args).mp h.packed
  · intro h
    exact ⟨(packed_iff args).mpr h,
      fun printf cap fmt _ => ⟨_, h, formatMessage_eq printf cap fmt (packArgs_stores args)⟩,
      fun printf cap fmt _ => ⟨_, h, formatInto_eq printf cap fmt (packArgs_stores args)⟩⟩

/-- A string that leaves five bytes, a number that does not fit, and a bool that does. -/
def shiftedArgs : List Arg := [.text (List.replicate 155 (ch 'x')), .signed 7, .bool true]

/-- The bool is packed in the number's place, and the second placeholder shows it. -/
theorem shiftedArgs_not_wellAttributed :
    (packArgs shiftedArgs).values = [.str (List.replicate 155 (ch 'x')), .bool true] ∧
      (∀ printf : Printf, printf (ascii "%s") (.str (ascii "true")) = ascii "true" →
        formatInto printf 512 (ascii "\x7b\x7d|\x7b\x7d|\x7b\x7d") (packArgs shiftedArgs) =
          List.replicate 155 (ch 'x') ++ ascii "|true|\x7b?\x7d") ∧
      ¬ WellAttributed shiftedArgs := by
  have hkept : keep 0 0 (shiftedArgs.map Arg.value) =
      [.str (List.replicate 155 (ch 'x')), .bool true] := by decide +kernel
  have hstores := packArgs_stores shiftedArgs
  rw [hkept] at hstores
  refine ⟨hstores.values, ?_, ?_⟩
  · intro printf htrue
    have htokens : tokens (ascii "\x7b\x7d|\x7b\x7d|\x7b\x7d") =
        [.placeholder [], .char (ch '|'), .placeholder [], .char (ch '|'), .placeholder []] := by
      decide +kernel
    have hbool : defaultText printf (.bool true) = ascii "true" := by
      rw [defaultText, if_pos rfl, htrue]
      decide
    rw [formatInto_eq printf 512 _ hstores, htokens]
    simp only [expand, hbool]
    show cut 512 (List.replicate 155 (ch 'x') ++ _) = _
    decide +kernel
  · intro h
    have hprefix := (packed_iff shiftedArgs).mp h.packed
    rw [hkept] at hprefix
    obtain ⟨w, hw, hshows⟩ := hprefix 1 (.bool true) rfl
    obtain rfl : Value.i64 7 = w := Option.some.inj hw
    cases hshows

end XmBase.Telemetry
