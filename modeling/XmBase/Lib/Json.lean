import Mathlib.Data.List.Basic
import Mathlib.Tactic.SplitIfs
/-!
# XmBase.Lib.Json

**JSON texts, byte by byte.** Reading is two folds: a lexer over the bytes
(`lexStep`) and a pushdown automaton over the tokens (`parseStep`). Neither needs
fuel, both evaluate, and both compose along the concatenation of their input, which is
how a writer that appends piece after piece is verified:

* `Lexed P t ts` — where something follows, the piece `t` is read as the tokens `ts`
  if `P`, and no text that contains it there is JSON otherwise; `Lexed.append` composes;
* `parseTokens_tokens` — the tokens of a value are read as that value.

A string is a string of bytes, and every byte from `0x20` on stands for itself. An
escaped surrogate is not decoded. A number is kept as it is written.
-/

namespace XmBase.Json

abbrev Bytes := List UInt8

/-- The code of a character. -/
def byte (c : Char) : UInt8 := .ofNat c.toNat

inductive Value
  | null
  | bool (b : Bool)
  | number (lexeme : Bytes)
  | string (s : Bytes)
  | array (items : List Value)
  | object (fields : List (Bytes × Value))

inductive Token
  | null
  | bool (b : Bool)
  | number (lexeme : Bytes)
  | string (s : Bytes)
  | comma
  | colon
  | openArray
  | closeArray
  | openObject
  | closeObject
  deriving DecidableEq, Repr

/-! ### Numbers

The grammar of a number, on its lexeme. The lexer first takes all the bytes a number can
have, and only what it took is held against the grammar, so a text like `1-2` is an error
here as well. -/

def isDigit (c : UInt8) : Bool := byte '0' ≤ c && c ≤ byte '9'

/-- Nothing, or an exponent. -/
def isExponent : Bytes → Bool
  | [] => true
  | c :: s =>
      let digits := if s.head? = some (byte '+') ∨ s.head? = some (byte '-') then s.tail else s
      (c = byte 'e' || c = byte 'E') && !digits.isEmpty && digits.all isDigit

/-- Nothing, or a fraction and an exponent. -/
def isFraction : Bytes → Bool
  | [] => true
  | c :: s =>
      if c = byte '.' then !(s.takeWhile isDigit).isEmpty && isExponent (s.dropWhile isDigit)
      else isExponent (c :: s)

/-- `-? (0 | [1-9][0-9]*) fraction? exponent?`. -/
def isNumber (s : Bytes) : Bool :=
  let s := if s.head? = some (byte '-') then s.tail else s
  let whole := s.takeWhile isDigit
  !whole.isEmpty && (whole = [byte '0'] || whole.head? ≠ some (byte '0')) &&
    isFraction (s.dropWhile isDigit)

/-- The bytes a number can have. -/
def isNumberByte (c : UInt8) : Bool :=
  isDigit c || c = byte '-' || c = byte '+' || c = byte '.' || c = byte 'e' || c = byte 'E'

/-! ### The lexer

One byte a step. The mode is what has been begun, and a byte that ends a number or a word is
looked at again as a byte between two tokens. -/

def isSpace (c : UInt8) : Bool :=
  c = byte ' ' || c = byte '\n' || c = byte '\t' || c = byte '\r'

def isLetter (c : UInt8) : Bool := byte 'a' ≤ c && c ≤ byte 'z'

/-- What is being read. What has been read of it so far is part of the mode. -/
inductive Mode
  | between
  | string (s : Bytes)
  | escape (s : Bytes)
  /-- The hexadecimal digits of an escape. -/
  | unicode (s : Bytes) (digits : List Nat)
  | number (lexeme : Bytes)
  | word (letters : Bytes)
  deriving DecidableEq, Repr

structure LexState where
  mode : Mode
  tokens : List Token
  deriving DecidableEq, Repr

/-- The byte an escape with one letter stands for. -/
def unescape (c : UInt8) : Option UInt8 :=
  if c = byte '"' ∨ c = byte '\\' ∨ c = byte '/' then some c
  else if c = byte 'b' then some 8
  else if c = byte 'f' then some 12
  else if c = byte 'n' then some (byte '\n')
  else if c = byte 'r' then some (byte '\r')
  else if c = byte 't' then some (byte '\t')
  else none

def hexDigit (c : UInt8) : Option Nat :=
  if isDigit c then some (c.toNat - (byte '0').toNat)
  else if byte 'a' ≤ c ∧ c ≤ byte 'f' then some (c.toNat - (byte 'a').toNat + 10)
  else if byte 'A' ≤ c ∧ c ≤ byte 'F' then some (c.toNat - (byte 'A').toNat + 10)
  else none

/-- A code unit in UTF-8; none for a surrogate. -/
def utf8 (n : Nat) : Option Bytes :=
  if n < 0x80 then some [.ofNat n]
  else if n < 0x800 then some [.ofNat (0xC0 + n / 0x40), .ofNat (0x80 + n % 0x40)]
  else if 0xD800 ≤ n ∧ n < 0xE000 then none
  else some [.ofNat (0xE0 + n / 0x1000), .ofNat (0x80 + n / 0x40 % 0x40), .ofNat (0x80 + n % 0x40)]

/-- The tokens of one byte. -/
def punctuation (c : UInt8) : Option Token :=
  if c = byte ',' then some .comma
  else if c = byte ':' then some .colon
  else if c = 91 then some .openArray
  else if c = 93 then some .closeArray
  else if c = 123 then some .openObject
  else if c = 125 then some .closeObject
  else none

def keyword (letters : Bytes) : Option Token :=
  if letters = "null".toList.map byte then some .null
  else if letters = "true".toList.map byte then some (.bool true)
  else if letters = "false".toList.map byte then some (.bool false)
  else none

/-- A byte between two tokens. -/
def lexBetween (tokens : List Token) (c : UInt8) : Option LexState :=
  if isSpace c then some ⟨.between, tokens⟩
  else if c = byte '"' then some ⟨.string [], tokens⟩
  else if isDigit c ∨ c = byte '-' then some ⟨.number [c], tokens⟩
  else if isLetter c then some ⟨.word [c], tokens⟩
  else (punctuation c).map fun token => ⟨.between, tokens ++ [token]⟩

def lexStep (st : LexState) (c : UInt8) : Option LexState :=
  match st.mode with
  | .between => lexBetween st.tokens c
  | .string s =>
      if c = byte '"' then some ⟨.between, st.tokens ++ [.string s]⟩
      else if c = byte '\\' then some ⟨.escape s, st.tokens⟩
      else if c < 0x20 then none
      else some ⟨.string (s ++ [c]), st.tokens⟩
  | .escape s =>
      if c = byte 'u' then some ⟨.unicode s [], st.tokens⟩
      else (unescape c).map fun d => ⟨.string (s ++ [d]), st.tokens⟩
  | .unicode s digits => do
      let d ← hexDigit c
      if digits.length < 3 then some ⟨.unicode s (digits ++ [d]), st.tokens⟩
      else
        let encoded ← utf8 ((digits ++ [d]).foldl (fun n d => n * 16 + d) 0)
        some ⟨.string (s ++ encoded), st.tokens⟩
  | .number lexeme =>
      if isNumberByte c then some ⟨.number (lexeme ++ [c]), st.tokens⟩
      else if isNumber lexeme then lexBetween (st.tokens ++ [.number lexeme]) c
      else none
  | .word letters =>
      if isLetter c then some ⟨.word (letters ++ [c]), st.tokens⟩
      else (keyword letters).bind fun token => lexBetween (st.tokens ++ [token]) c

def lexFrom (st : LexState) (t : Bytes) : Option LexState := t.foldlM lexStep st

/-- The tokens at the end of a text. -/
def LexState.finish (st : LexState) : Option (List Token) :=
  match st.mode with
  | .between => some st.tokens
  | .number lexeme => if isNumber lexeme then some (st.tokens ++ [.number lexeme]) else none
  | .word letters => (keyword letters).map fun token => st.tokens ++ [token]
  | .string _ | .escape _ | .unicode .. => none

def lex (t : Bytes) : Option (List Token) := (lexFrom ⟨.between, []⟩ t).bind LexState.finish

/-! ### The parser

One token a step. The state says what may come next, with the open containers on a stack, so
there is no recursion and no fuel. -/

/-- A container that has been opened, with what it holds so far. It is the stack frame of
the pushdown automaton. -/
inductive Frame
  | array (items : List Value)
  /-- An object whose next value belongs to `key`. -/
  | object (fields : List (Bytes × Value)) (key : Bytes)

/-- What may come next. The state also holds all that has been read, in the open containers
on its stack. -/
inductive ParseState
  | value (stack : List Frame)
  | firstItem (stack : List Frame)
  | firstKey (stack : List Frame)
  | key (fields : List (Bytes × Value)) (stack : List Frame)
  | afterKey (fields : List (Bytes × Value)) (key : Bytes) (stack : List Frame)
  | afterItem (items : List Value) (stack : List Frame)
  | afterField (fields : List (Bytes × Value)) (stack : List Frame)
  | done (v : Value)

/-- A value is complete. -/
def deliver (v : Value) : List Frame → ParseState
  | [] => .done v
  | .array items :: stack => .afterItem (items ++ [v]) stack
  | .object fields key :: stack => .afterField (fields ++ [(key, v)]) stack

def startValue (stack : List Frame) : Token → Option ParseState
  | .null => some (deliver .null stack)
  | .bool b => some (deliver (.bool b) stack)
  | .number lexeme => some (deliver (.number lexeme) stack)
  | .string s => some (deliver (.string s) stack)
  | .openArray => some (.firstItem stack)
  | .openObject => some (.firstKey stack)
  | .comma | .colon | .closeArray | .closeObject => none

def parseStep : ParseState → Token → Option ParseState
  | .value stack, token => startValue stack token
  | .firstItem stack, .closeArray => some (deliver (.array []) stack)
  | .firstItem stack, token => startValue (.array [] :: stack) token
  | .firstKey stack, .closeObject => some (deliver (.object []) stack)
  | .firstKey stack, .string key => some (.afterKey [] key stack)
  | .key fields stack, .string key => some (.afterKey fields key stack)
  | .afterKey fields key stack, .colon => some (.value (.object fields key :: stack))
  | .afterItem items stack, .comma => some (.value (.array items :: stack))
  | .afterItem items stack, .closeArray => some (deliver (.array items) stack)
  | .afterField fields stack, .comma => some (.key fields stack)
  | .afterField fields stack, .closeObject => some (deliver (.object fields) stack)
  | _, _ => none

def parseFrom (st : ParseState) (ts : List Token) : Option ParseState := ts.foldlM parseStep st

def parseTokens (ts : List Token) : Option Value :=
  match parseFrom (.value []) ts with
  | some (.done v) => some v
  | _ => none

/-- **Reading a JSON text.** -/
def parse (t : Bytes) : Option Value := (lex t).bind parseTokens

/-! ### The tokens of a value

The inverse of the parser, by recursion on the value. The induction needs the parser in the
middle of a text, with any stack and any tokens behind (`parseFrom_tokens`); the theorem for
a whole text is the case of an empty stack. -/

mutual

def Value.tokens : Value → List Token
  | .null => [.null]
  | .bool b => [.bool b]
  | .number lexeme => [.number lexeme]
  | .string s => [.string s]
  | .array [] => [.openArray, .closeArray]
  | .array (v :: vs) => .openArray :: (v.tokens ++ restItems vs)
  | .object [] => [.openObject, .closeObject]
  | .object (f :: fs) => .openObject :: (fieldTokens f ++ restFields fs)

/-- The items of an array behind the first. -/
def restItems : List Value → List Token
  | [] => [.closeArray]
  | v :: vs => .comma :: (v.tokens ++ restItems vs)

def fieldTokens : Bytes × Value → List Token
  | (key, v) => .string key :: .colon :: v.tokens

/-- The fields of an object behind the first. -/
def restFields : List (Bytes × Value) → List Token
  | [] => [.closeObject]
  | f :: fs => .comma :: (fieldTokens f ++ restFields fs)

end

theorem parseFrom_cons (st : ParseState) (t : Token) (ts : List Token) :
    parseFrom st (t :: ts) = (parseStep st t).bind fun st' => parseFrom st' ts :=
  List.foldlM_cons

theorem parseFrom_cons_some {st u : ParseState} {t : Token} (h : parseStep st t = some u)
    (ts : List Token) : parseFrom st (t :: ts) = parseFrom u ts := by
  rw [parseFrom_cons, h]
  rfl

/-- The first item of an array begins like any value. -/
theorem parseFrom_firstItem (v : Value) (stack : List Frame) (ts : List Token) :
    parseFrom (.firstItem stack) (v.tokens ++ ts) =
      parseFrom (.value (.array [] :: stack)) (v.tokens ++ ts) := by
  cases v with
  | null => rw [Value.tokens]; rfl
  | bool b => rw [Value.tokens]; rfl
  | number lexeme => rw [Value.tokens]; rfl
  | string s => rw [Value.tokens]; rfl
  | array items => cases items <;> rw [Value.tokens] <;> rfl
  | object fields => cases fields <;> rw [Value.tokens] <;> rfl

mutual

/-- What `parseTokens` makes of the tokens of a value where one is expected. The value is
delivered to the stack, whatever is on it. -/
theorem parseFrom_tokens (v : Value) (stack : List Frame) (ts : List Token) :
    parseFrom (.value stack) (v.tokens ++ ts) = parseFrom (deliver v stack) ts := by
  match v with
  | .null => rw [Value.tokens]; rfl
  | .bool b => rw [Value.tokens]; rfl
  | .number lexeme => rw [Value.tokens]; rfl
  | .string s => rw [Value.tokens]; rfl
  | .array [] => rw [Value.tokens]; rfl
  | .array (v :: vs) =>
      rw [Value.tokens, List.cons_append, List.append_assoc,
        parseFrom_cons_some (u := .firstItem stack) rfl, parseFrom_firstItem,
        parseFrom_tokens v, deliver, parseFrom_restItems vs]
      rfl
  | .object [] => rw [Value.tokens]; rfl
  | .object (f :: fs) =>
      rw [Value.tokens, List.cons_append, List.append_assoc,
        parseFrom_cons_some (u := .firstKey stack) rfl, parseFrom_fieldTokens f [] (.firstKey stack)
        (fun _ => rfl), parseFrom_restFields fs]
      rfl

theorem parseFrom_restItems (vs items : List Value) (stack : List Frame) (ts : List Token) :
    parseFrom (.afterItem items stack) (restItems vs ++ ts) =
      parseFrom (deliver (.array (items ++ vs)) stack) ts := by
  match vs with
  | [] =>
      rw [restItems, List.append_nil]
      rfl
  | v :: vs =>
      rw [restItems, List.cons_append, List.append_assoc,
        parseFrom_cons_some (u := .value (.array items :: stack)) rfl, parseFrom_tokens v, deliver,
        parseFrom_restItems vs, List.append_assoc]
      rfl

/-- A field, where a key is expected. -/
theorem parseFrom_fieldTokens (f : Bytes × Value) (fields : List (Bytes × Value))
    {stack : List Frame} (st : ParseState)
    (hst : ∀ key, parseStep st (.string key) = some (.afterKey fields key stack)) (ts : List Token) :
    parseFrom st (fieldTokens f ++ ts) = parseFrom (.afterField (fields ++ [f]) stack) ts := by
  match f with
  | (key, v) =>
      rw [fieldTokens, List.cons_append, List.cons_append, parseFrom_cons_some (hst key),
        parseFrom_cons_some (u := .value (.object fields key :: stack)) rfl, parseFrom_tokens v]
      rfl

theorem parseFrom_restFields (fs fields : List (Bytes × Value)) (stack : List Frame)
    (ts : List Token) :
    parseFrom (.afterField fields stack) (restFields fs ++ ts) =
      parseFrom (deliver (.object (fields ++ fs)) stack) ts := by
  match fs with
  | [] =>
      rw [restFields, List.append_nil]
      rfl
  | f :: fs =>
      rw [restFields, List.cons_append, List.append_assoc,
        parseFrom_cons_some (u := .key fields stack) rfl, parseFrom_fieldTokens f fields
        (.key fields stack) (fun _ => rfl), parseFrom_restFields fs, List.append_assoc]
      rfl

end

/-- **The tokens of a value are read as that value.** -/
theorem parseTokens_tokens (v : Value) : parseTokens v.tokens = some v := by
  have h := parseFrom_tokens v [] []
  rw [List.append_nil] at h
  rw [parseTokens, h]
  rfl

/-! ### Lexing piece by piece

A writer appends pieces, and a piece can be bad: a number that is none, a string with a byte
that needs an escape. `Lexed` says both what a good piece is read as and that a bad one
cannot be repaired by what follows, so that for the whole text "is read as" and "is JSON"
become one condition on the pieces. -/

theorem lexFrom_append (st : LexState) (s t : Bytes) :
    lexFrom st (s ++ t) = (lexFrom st s).bind fun st' => lexFrom st' t :=
  List.foldlM_append

theorem lexFrom_cons (st : LexState) (c : UInt8) (t : Bytes) :
    lexFrom st (c :: t) = (lexStep st c).bind fun st' => lexFrom st' t :=
  List.foldlM_cons

/-- A byte that goes on with neither a number nor a word. -/
def Delimits (c : UInt8) : Prop := isNumberByte c = false ∧ isLetter c = false

instance (c : UInt8) : Decidable (Delimits c) := inferInstanceAs (Decidable (_ ∧ _))

/-- A text that begins with such a byte. Behind a number or a word something has to stand
that ends it. -/
def Delimited (t : Bytes) : Prop := ∃ c s, Delimits c ∧ t = c :: s

theorem Delimited.append {s : Bytes} (h : Delimited s) (t : Bytes) : Delimited (s ++ t) := by
  obtain ⟨c, u, hc, rfl⟩ := h
  exact ⟨c, u ++ t, hc, rfl⟩

/-- Before a delimited text, `t` is read as the tokens `ts` if `P`, and is in the way of
any reading otherwise. -/
structure Lexed (P : Prop) (t : Bytes) (ts : List Token) : Prop where
  reads : P → ∀ tokens rest, Delimited rest →
    lexFrom ⟨.between, tokens⟩ (t ++ rest) = lexFrom ⟨.between, tokens ++ ts⟩ rest
  fails : ¬ P → ∀ tokens rest, Delimited rest → lexFrom ⟨.between, tokens⟩ (t ++ rest) = none

theorem Lexed.of_reads {t : Bytes} {ts : List Token}
    (h : ∀ tokens rest, Delimited rest →
      lexFrom ⟨.between, tokens⟩ (t ++ rest) = lexFrom ⟨.between, tokens ++ ts⟩ rest) :
    Lexed True t ts :=
  ⟨fun _ => h, fun hfalse => absurd trivial hfalse⟩

theorem Lexed.congr {P Q : Prop} {t : Bytes} {ts : List Token} (h : Lexed P t ts) (hPQ : P ↔ Q) :
    Lexed Q t ts :=
  ⟨fun hq => h.reads (hPQ.mpr hq), fun hq => h.fails fun hp => hq (hPQ.mp hp)⟩

theorem Lexed.nil : Lexed True [] [] :=
  .of_reads fun tokens rest _ => by rw [List.nil_append, List.append_nil]

/-- **Pieces compose.** Both must be good, and the tokens are one behind the other. -/
theorem Lexed.append {P Q : Prop} {s t : Bytes} {ts us : List Token} (hs : Lexed P s ts)
    (ht : Lexed Q t us) (hdelim : Delimited t) : Lexed (P ∧ Q) (s ++ t) (ts ++ us) where
  reads := by
    intro hPQ tokens rest hrest
    rw [List.append_assoc, hs.reads hPQ.1 tokens _ (hdelim.append rest),
      ht.reads hPQ.2 _ rest hrest, List.append_assoc]
  fails := by
    intro hPQ tokens rest hrest
    rw [List.append_assoc]
    by_cases hP : P
    · rw [hs.reads hP tokens _ (hdelim.append rest)]
      exact ht.fails (fun hQ => hPQ ⟨hP, hQ⟩) _ rest hrest
    · exact hs.fails hP tokens _ (hdelim.append rest)

/-- `t` is read as the tokens `ts`, whatever follows. -/
def Closed (t : Bytes) (ts : List Token) : Prop :=
  ∀ tokens, lexFrom ⟨.between, tokens⟩ t = some ⟨.between, tokens ++ ts⟩

theorem Closed.lexed {t : Bytes} {ts : List Token} (h : Closed t ts) : Lexed True t ts :=
  .of_reads fun tokens rest _ => by
    rw [lexFrom_append, h tokens]
    rfl

theorem Closed.append {P : Prop} {s t : Bytes} {ts us : List Token} (hs : Closed s ts)
    (ht : Lexed P t us) : Lexed P (s ++ t) (ts ++ us) where
  reads := by
    intro hP tokens rest hrest
    rw [List.append_assoc, lexFrom_append, hs tokens, Option.bind_some,
      ht.reads hP _ rest hrest, List.append_assoc]
  fails := by
    intro hP tokens rest hrest
    rw [List.append_assoc, lexFrom_append, hs tokens, Option.bind_some]
    exact ht.fails hP _ rest hrest

theorem Closed.closed_append {s t : Bytes} {ts us : List Token} (hs : Closed s ts)
    (ht : Closed t us) : Closed (s ++ t) (ts ++ us) := by
  intro tokens
  rw [lexFrom_append, hs tokens, Option.bind_some, ht, List.append_assoc]

/-! Strings. Inside of one every piece stands for bytes of its own, and nothing in it can end
the string. -/

/-- Inside a string, `t` stands for the bytes `s`. -/
def Quotes (t s : Bytes) : Prop :=
  ∀ acc tokens, lexFrom ⟨.string acc, tokens⟩ t = some ⟨.string (acc ++ s), tokens⟩

theorem Quotes.nil : Quotes [] [] := fun acc tokens => by
  rw [List.append_nil]
  rfl

theorem Quotes.append {t t' s s' : Bytes} (h : Quotes t s) (h' : Quotes t' s') :
    Quotes (t ++ t') (s ++ s') := by
  intro acc tokens
  rw [lexFrom_append, h acc tokens, Option.bind_some, h', List.append_assoc]

/-- A byte that needs no escape. -/
def Plain (c : UInt8) : Prop := c ≠ byte '"' ∧ c ≠ byte '\\' ∧ ¬ c < 0x20

instance (c : UInt8) : Decidable (Plain c) := inferInstanceAs (Decidable (_ ∧ _ ∧ _))

theorem quotes_plain {c : UInt8} (h : Plain c) : Quotes [c] [c] := by
  intro acc tokens
  rw [lexFrom_cons, lexStep]
  simp only [if_neg h.1, if_neg h.2.1, if_neg h.2.2]
  rfl

theorem quotes_escape {c d : UInt8} (hu : c ≠ byte 'u') (h : unescape c = some d) :
    Quotes [byte '\\', c] [d] := by
  intro acc tokens
  have hfirst : lexStep ⟨.string acc, tokens⟩ (byte '\\') = some ⟨.escape acc, tokens⟩ := rfl
  have hsecond : lexStep ⟨.escape acc, tokens⟩ c = some ⟨.string (acc ++ [d]), tokens⟩ := by
    simp only [lexStep, if_neg hu, h, Option.map_some]
  rw [lexFrom_cons, hfirst, Option.bind_some, lexFrom_cons, hsecond]
  rfl

theorem quotes_of_plain {s : Bytes} (h : ∀ c ∈ s, Plain c) : Quotes s s := by
  induction s with
  | nil => exact .nil
  | cons c s ih =>
      exact (quotes_plain (h c List.mem_cons_self)).append
        (ih fun d hd => h d (List.mem_cons_of_mem c hd))

theorem Quotes.closed {t s : Bytes} (h : Quotes t s) :
    Closed (byte '"' :: t ++ [byte '"']) [.string s] := by
  intro tokens
  have hopen : lexStep ⟨.between, tokens⟩ (byte '"') = some ⟨.string [], tokens⟩ := rfl
  rw [lexFrom_append, lexFrom_cons, hopen, Option.bind_some, h [] tokens]
  rfl

/-! Numbers and words. They end at the first byte that cannot belong to them, so these pieces
need a delimiter behind them. -/

theorem lexFrom_number {w : Bytes} (h : ∀ c ∈ w, isNumberByte c = true) (lexeme rest : Bytes)
    (tokens : List Token) :
    lexFrom ⟨.number lexeme, tokens⟩ (w ++ rest) = lexFrom ⟨.number (lexeme ++ w), tokens⟩ rest := by
  induction w generalizing lexeme with
  | nil => rw [List.nil_append, List.append_nil]
  | cons c w ih =>
      have hc : isNumberByte c = true := h c List.mem_cons_self
      have hstep : lexStep ⟨.number lexeme, tokens⟩ c = some ⟨.number (lexeme ++ [c]), tokens⟩ := by
        simp only [lexStep, if_pos hc]
      rw [List.cons_append, lexFrom_cons, hstep, Option.bind_some,
        ih (fun d hd => h d (List.mem_cons_of_mem c hd)), List.append_assoc]
      rfl

/-- A text of the bytes of a number is read as one, if it is one. -/
theorem lexed_number {c : UInt8} {w : Bytes} (hc : isDigit c = true ∨ c = byte '-')
    (hw : ∀ c ∈ w, isNumberByte c = true) :
    Lexed (isNumber (c :: w) = true) (c :: w) [.number (c :: w)] := by
  have hspace : isSpace c = false ∧ c ≠ byte '"' := by
    rcases hc with hc | rfl
    · have hne : ∀ {d}, isDigit d = false → c ≠ d := by
        intro d hd heq
        rw [heq, hd] at hc
        cases hc
      refine ⟨?_, hne (by decide)⟩
      simp only [isSpace, decide_eq_false (hne (by decide : isDigit (byte ' ') = false)),
        decide_eq_false (hne (by decide : isDigit (byte '\n') = false)),
        decide_eq_false (hne (by decide : isDigit (byte '\t') = false)),
        decide_eq_false (hne (by decide : isDigit (byte '\r') = false)), Bool.or_false]
    · exact ⟨by decide, by decide⟩
  have hfirst : ∀ tokens, lexStep ⟨.between, tokens⟩ c = some ⟨.number [c], tokens⟩ := by
    intro tokens
    simp only [lexStep, lexBetween, hspace.1, Bool.false_eq_true, if_false, if_neg hspace.2, if_pos hc]
  -- up to the delimiter, which decides
  have hread : ∀ tokens d rest, Delimits d →
      lexFrom ⟨.between, tokens⟩ (c :: w ++ d :: rest) =
        if isNumber (c :: w) = true then
          lexFrom ⟨.between, tokens ++ [.number (c :: w)]⟩ (d :: rest)
        else none := by
    intro tokens d rest hd
    rw [List.cons_append, lexFrom_cons, hfirst, Option.bind_some, lexFrom_number hw, lexFrom_cons,
      lexFrom_cons]
    simp only [lexStep, hd.1, Bool.false_eq_true, if_false, List.singleton_append]
    by_cases hnum : isNumber (c :: w) = true
    · rw [if_pos hnum, if_pos hnum]
    · rw [if_neg hnum, if_neg hnum]
      rfl
  constructor
  · intro hP tokens rest hrest
    obtain ⟨d, s, hd, rfl⟩ := hrest
    rw [hread tokens d s hd, if_pos hP]
  · intro hP tokens rest hrest
    obtain ⟨d, s, hd, rfl⟩ := hrest
    rw [hread tokens d s hd, if_neg hP]

theorem lexFrom_word {w : Bytes} (h : ∀ c ∈ w, isLetter c = true) (letters rest : Bytes)
    (tokens : List Token) :
    lexFrom ⟨.word letters, tokens⟩ (w ++ rest) = lexFrom ⟨.word (letters ++ w), tokens⟩ rest := by
  induction w generalizing letters with
  | nil => rw [List.nil_append, List.append_nil]
  | cons c w ih =>
      have hc : isLetter c = true := h c List.mem_cons_self
      have hstep : lexStep ⟨.word letters, tokens⟩ c = some ⟨.word (letters ++ [c]), tokens⟩ := by
        simp only [lexStep, if_pos hc]
      rw [List.cons_append, lexFrom_cons, hstep, Option.bind_some,
        ih (fun d hd => h d (List.mem_cons_of_mem c hd)), List.append_assoc]
      rfl

theorem lexed_word {c : UInt8} {w : Bytes} {token : Token} (hc : isLetter c = true)
    (hw : ∀ c ∈ w, isLetter c = true) (hword : keyword (c :: w) = some token) :
    Lexed True (c :: w) [token] := by
  have hne : ∀ {d}, isLetter d = false → c ≠ d := by
    intro d hd heq
    rw [heq, hd] at hc
    cases hc
  have hspace : isSpace c = false := by
    simp only [isSpace, decide_eq_false (hne (by decide : isLetter (byte ' ') = false)),
      decide_eq_false (hne (by decide : isLetter (byte '\n') = false)),
      decide_eq_false (hne (by decide : isLetter (byte '\t') = false)),
      decide_eq_false (hne (by decide : isLetter (byte '\r') = false)), Bool.or_false]
  have hdigit : ¬ (isDigit c = true ∨ c = byte '-') := by
    rintro (hd | hd)
    · rw [isDigit, Bool.and_eq_true, decide_eq_true_eq, decide_eq_true_eq] at hd
      rw [isLetter, Bool.and_eq_true, decide_eq_true_eq, decide_eq_true_eq] at hc
      exact absurd (UInt8.le_trans hc.1 hd.2) (by decide)
    · exact hne (by decide) hd
  have hfirst : ∀ tokens, lexStep ⟨.between, tokens⟩ c = some ⟨.word [c], tokens⟩ := by
    intro tokens
    simp only [lexStep, lexBetween, hspace, Bool.false_eq_true, if_false,
      if_neg (hne (by decide : isLetter (byte '"') = false)), if_neg hdigit, if_pos hc]
  apply Lexed.of_reads
  intro tokens rest hrest
  obtain ⟨d, s, hd, rfl⟩ := hrest
  rw [List.cons_append, lexFrom_cons, hfirst, Option.bind_some, lexFrom_word hw, lexFrom_cons,
    lexFrom_cons]
  simp only [lexStep, hd.2, Bool.false_eq_true, if_false, List.singleton_append, hword,
    Option.bind_some]

/-! Containers. The brackets and commas are pieces that are always good, so a container is
as good as what it holds. -/

/-- The tokens of an object behind its opening brace. -/
def memberTokens : List (Bytes × Value) → List Token
  | [] => [.closeObject]
  | f :: fs => fieldTokens f ++ restFields fs

/-- The tokens of an array behind its opening bracket. -/
def itemTokens : List Value → List Token
  | [] => [.closeArray]
  | v :: vs => v.tokens ++ restItems vs

theorem tokens_object (fs : List (Bytes × Value)) :
    (Value.object fs).tokens = [.openObject] ++ memberTokens fs := by
  cases fs <;> rw [Value.tokens] <;> rfl

theorem tokens_array (vs : List Value) : (Value.array vs).tokens = [.openArray] ++ itemTokens vs := by
  cases vs <;> rw [Value.tokens] <;> rfl

theorem restFields_eq {fs : List (Bytes × Value)} (h : fs ≠ []) :
    restFields fs = [.comma] ++ memberTokens fs := by
  cases fs with
  | nil => exact absurd rfl h
  | cons f fs => rw [restFields]; rfl

theorem restItems_eq {vs : List Value} (h : vs ≠ []) : restItems vs = [.comma] ++ itemTokens vs := by
  cases vs with
  | nil => exact absurd rfl h
  | cons v vs => rw [restItems]; rfl

section

variable {P Q : Prop} {s t sep close : Bytes}

theorem Lexed.field {key : Bytes} {v : Value} (hkey : Closed s [.string key, .colon])
    (hv : Lexed P t v.tokens) : Lexed P (s ++ t) (fieldTokens (key, v)) := by
  rw [fieldTokens]
  exact hkey.append hv

/-- A field, a comma and more fields. The comma is a piece of its own between the two. -/
theorem Lexed.member {f : Bytes × Value} {fs : List (Bytes × Value)} (hf : Lexed P s (fieldTokens f))
    (hsep : Closed sep [.comma]) (hdelim : Delimited sep) (ht : Lexed Q t (memberTokens fs))
    (hfs : fs ≠ []) : Lexed (P ∧ Q) (s ++ (sep ++ t)) (memberTokens (f :: fs)) := by
  rw [memberTokens, restFields_eq hfs]
  exact hf.append (hsep.append ht) (hdelim.append t)

theorem Lexed.lastMember {f : Bytes × Value} (hf : Lexed P s (fieldTokens f))
    (hclose : Closed close [.closeObject]) (hdelim : Delimited close) :
    Lexed P (s ++ close) (memberTokens [f]) := by
  have h := hf.append hclose.lexed hdelim
  rw [memberTokens, restFields]
  exact h.congr (and_iff_left trivial)

theorem Lexed.object {fs : List (Bytes × Value)} (hopen : Closed s [.openObject])
    (ht : Lexed P t (memberTokens fs)) : Lexed P (s ++ t) (Value.object fs).tokens := by
  rw [tokens_object]
  exact hopen.append ht

/-- An item, a comma and more items. -/
theorem Lexed.item {v : Value} {vs : List Value} (hv : Lexed P s v.tokens)
    (hsep : Closed sep [.comma]) (hdelim : Delimited sep) (ht : Lexed Q t (itemTokens vs))
    (hvs : vs ≠ []) : Lexed (P ∧ Q) (s ++ (sep ++ t)) (itemTokens (v :: vs)) := by
  rw [itemTokens, restItems_eq hvs]
  exact hv.append (hsep.append ht) (hdelim.append t)

theorem Lexed.lastItem {v : Value} (hv : Lexed P s v.tokens)
    (hclose : Closed close [.closeArray]) (hdelim : Delimited close) :
    Lexed P (s ++ close) (itemTokens [v]) := by
  have h := hv.append hclose.lexed hdelim
  rw [itemTokens, restItems]
  exact h.congr (and_iff_left trivial)

theorem Lexed.array {vs : List Value} (hopen : Closed s [.openArray])
    (ht : Lexed P t (itemTokens vs)) : Lexed P (s ++ t) (Value.array vs).tokens := by
  rw [tokens_array]
  exact hopen.append ht

end

/-- **A text is JSON exactly where its pieces are read.** -/
theorem Lexed.parse_eq {P : Prop} {t : Bytes} {v : Value} (h : Lexed P t v.tokens) :
    (P → parse (t ++ [byte '\n']) = some v) ∧ (¬ P → parse (t ++ [byte '\n']) = none) := by
  have hdelim : Delimited [byte '\n'] := ⟨byte '\n', [], by decide, rfl⟩
  constructor
  · intro hP
    have hlex : lex (t ++ [byte '\n']) = some v.tokens := by
      rw [lex, h.reads hP [] _ hdelim, List.nil_append]
      rfl
    rw [parse, hlex]
    exact parseTokens_tokens v
  · intro hP
    rw [parse, lex, h.fails hP [] _ hdelim]
    rfl

end XmBase.Json
