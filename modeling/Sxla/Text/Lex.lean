import Sxla.Library.Binary64Text
import Sxla.Library.CheckedInt

/-!
# The lexer

Tokens with the byte offsets they start at. Only ASCII characters start or
continue a token and any other one ends the run with an error, so offsets
count characters here.

`Lexed` describes the tokens of a text without offsets and fuel; `lex`
computes them.
-/

namespace Sxla

inductive ParseError where
  | unexpectedToken (offset : Nat)
  | unknownOp (offset : Nat)
  | unknownType (offset : Nat)
  | badInt (offset : Nat)
  | badFloat (offset : Nat)
  | truncated
  | nestingTooDeep (offset : Nat)
  | arenaExhausted
deriving DecidableEq, Repr

inductive Tok where
  | word (w : String)
  | valueRef (n : UInt32)
  | int (v : Int64)
  | float (v : F64)
  | bool (b : Bool)
  | sym (c : Char)
  | eol
deriving DecidableEq, Repr

namespace Lex

def isWordStart (c : Char) : Bool := c.isAlpha || c == '_' || c == '.' || c == '@'

def isWordChar (c : Char) : Bool :=
  c.isAlphanum || c == '_' || c == '.' || c == '@' || c == '<' || c == '>'

def isSymbol (c : Char) : Bool := c ∈ ['(', ')', '[', ']', '\x7b', '\x7d', ',', ':', '=', ';']

/-- `parse::<u32>` of a run of digits. -/
def parseU32 (digits : List Char) : Option UInt32 :=
  if digits = [] then none
  else if Decimal.value digits < 2 ^ 32 then some (.ofNat (Decimal.value digits))
  else none

/-- `parse::<i64>` of a sign and a run of digits. -/
def parseI64 (negative : Bool) (digits : List Char) : Option Int64 :=
  if digits = [] then none
  else CheckedInt.ofInt
    (if negative then -(Decimal.value digits : Int) else Decimal.value digits)

/-- What the lexer finds at one place: a blank, a token, or an error that
wants the offset; the first two with the text behind. -/
inductive Scan where
  | blank (rest : List Char)
  | token (t : Tok) (rest : List Char)
  | failed (e : Nat → ParseError)

def scanRef (cs : List Char) : Scan :=
  match parseU32 (cs.takeWhile Char.isDigit) with
  | some n => .token (.valueRef n) (cs.dropWhile Char.isDigit)
  | none => .failed .badInt

/-- A number, behind its sign. -/
def scanNumber (negative : Bool) (cs : List Char) : Scan :=
  let int := cs.takeWhile Char.isDigit
  match cs.dropWhile Char.isDigit with
  | '.' :: rest =>
    match F64.ofDecimal negative int (rest.takeWhile Char.isDigit) with
    | some v => .token (.float v) (rest.dropWhile Char.isDigit)
    | none => .failed .badFloat
  | rest =>
    match parseI64 negative int with
    | some v => .token (.int v) rest
    | none => .failed .badInt

def wordToken (w : String) : Tok :=
  if w = "true" then .bool true else if w = "false" then .bool false else .word w

def scanWord (cs : List Char) : Scan :=
  .token (wordToken (.ofList (cs.takeWhile isWordChar))) (cs.dropWhile isWordChar)

def scan (c : Char) (cs : List Char) : Scan :=
  if c = '\n' then .token .eol cs
  else if c = ' ' ∨ c = '\t' ∨ c = '\r' then .blank cs
  else if c = '%' then scanRef cs
  else if c = '-' then scanNumber true cs
  else if c.isDigit then scanNumber false (c :: cs)
  else if isWordStart c then scanWord (c :: cs)
  else if isSymbol c then .token (.sym c) cs
  else .failed .unexpectedToken

/-- Fuel is the length of the text; every step consumes a character. -/
def lexFrom : Nat → Nat → List Char → Except ParseError (List (Tok × Nat))
  | _, _, [] => .ok []
  | 0, _, _ :: _ => .error .truncated
  | fuel + 1, offset, c :: cs =>
    match scan c cs with
    | .blank rest => lexFrom fuel (offset + (cs.length + 1 - rest.length)) rest
    | .token t rest =>
      (lexFrom fuel (offset + (cs.length + 1 - rest.length)) rest).map ((t, offset) :: ·)
    | .failed e => .error (e offset)

end Lex

def lex (src : List Char) : Except ParseError (List (Tok × Nat)) := Lex.lexFrom src.length 0 src

namespace Lex

-- ---------------------------------------------------------------------------
-- The tokens of a text
-- ---------------------------------------------------------------------------

inductive Lexed : List Char → List Tok → Prop
  | nil : Lexed [] []
  | blank (h : scan c cs = .blank rest) (hr : Lexed rest ts) : Lexed (c :: cs) ts
  | token (h : scan c cs = .token t rest) (hr : Lexed rest ts) : Lexed (c :: cs) (t :: ts)

/-- The lexer meets an error somewhere in the text. -/
inductive LexFails : List Char → Prop
  | here (h : scan c cs = .failed e) : LexFails (c :: cs)
  | blank (h : scan c cs = .blank rest) (hr : LexFails rest) : LexFails (c :: cs)
  | token (h : scan c cs = .token t rest) (hr : LexFails rest) : LexFails (c :: cs)

variable {cs rest : List Char} {ts us : List Tok}

theorem length_dropWhile_le (p : Char → Bool) (cs : List Char) :
    (cs.dropWhile p).length ≤ cs.length :=
  (List.dropWhile_sublist p).length_le

theorem scanRef_le (h : scanRef cs = .token t rest) : rest.length ≤ cs.length := by
  unfold scanRef at h
  split at h
  · cases h
    exact length_dropWhile_le ..
  · cases h

theorem scanNumber_le (h : scanNumber negative cs = .token t rest) : rest.length ≤ cs.length := by
  have hle := length_dropWhile_le Char.isDigit cs
  simp only [scanNumber] at h
  split at h
  · next r hr =>
    rw [hr, List.length_cons] at hle
    split at h
    · cases h
      have := length_dropWhile_le Char.isDigit r
      omega
    · cases h
  · split at h
    · cases h
      exact hle
    · cases h

theorem scan_blank (h : scan c cs = .blank rest) : rest = cs := by
  unfold scan at h
  split at h
  · cases h
  split at h
  · cases h
    rfl
  split at h
  · unfold scanRef at h
    split at h <;> cases h
  split at h
  · simp only [scanNumber] at h
    split at h <;> split at h <;> cases h
  split at h
  · simp only [scanNumber] at h
    split at h <;> split at h <;> cases h
  split at h
  · cases h
  split at h <;> cases h

theorem scanWord_le (hc : isWordChar c = true) (h : scanWord (c :: cs) = .token t rest) :
    rest.length ≤ cs.length := by
  cases h
  rw [List.dropWhile_cons_of_pos hc]
  exact length_dropWhile_le ..

theorem isWordChar_of_start (h : isWordStart c = true) : isWordChar c = true := by
  simp only [isWordStart, isWordChar, Bool.or_eq_true, Char.isAlphanum] at h ⊢
  tauto

/-- A number that starts with a digit has that digit behind it. -/
theorem scanNumber_digit_le (hc : c.isDigit = true)
    (h : scanNumber negative (c :: cs) = .token t rest) : rest.length ≤ cs.length := by
  have hle := length_dropWhile_le Char.isDigit cs
  simp only [scanNumber, List.dropWhile_cons_of_pos hc] at h
  split at h
  · next r hr =>
    rw [hr, List.length_cons] at hle
    split at h
    · cases h
      have := length_dropWhile_le Char.isDigit r
      omega
    · cases h
  · split at h
    · cases h
      exact hle
    · cases h

/-- Every step of the lexer consumes a character. -/
theorem scan_token (h : scan c cs = .token t rest) : rest.length ≤ cs.length := by
  unfold scan at h
  split at h
  · cases h
    exact le_rfl
  split at h
  · cases h
  split at h
  · exact scanRef_le h
  split at h
  · exact scanNumber_le h
  split at h
  · exact scanNumber_digit_le ‹_› h
  split at h
  · exact scanWord_le (isWordChar_of_start ‹_›) h
  split at h
  · cases h
    exact le_rfl
  · cases h

theorem lexFrom_of_lexed (h : Lexed cs ts) :
    ∀ fuel offset, cs.length ≤ fuel →
      ∃ toks, lexFrom fuel offset cs = .ok toks ∧ toks.map (·.1) = ts := by
  induction h with
  | nil =>
    rintro (_ | fuel) offset _ <;> exact ⟨[], rfl, rfl⟩
  | blank h _ ih =>
    rintro (_ | fuel) offset hf
    · simp at hf
    obtain rfl := scan_blank h
    obtain ⟨toks, htoks, hts⟩ := ih fuel _ (Nat.le_of_succ_le_succ hf)
    exact ⟨toks, by simp only [lexFrom, h]; exact htoks, hts⟩
  | token h _ ih =>
    rintro (_ | fuel) offset hf
    · simp at hf
    obtain ⟨toks, htoks, hts⟩ := ih fuel _ ((scan_token h).trans (Nat.le_of_succ_le_succ hf))
    refine ⟨(_, offset) :: toks, ?_, by rw [List.map_cons, hts]⟩
    simp only [lexFrom, h]
    rw [htoks]
    rfl

theorem lexFrom_of_fails (h : LexFails cs) :
    ∀ fuel offset, cs.length ≤ fuel → ∃ e, lexFrom fuel offset cs = .error e := by
  induction h with
  | here h =>
    rintro (_ | fuel) offset hf
    · simp at hf
    exact ⟨_, by simp only [lexFrom, h]; rfl⟩
  | blank h _ ih =>
    rintro (_ | fuel) offset hf
    · simp at hf
    obtain rfl := scan_blank h
    obtain ⟨e, he⟩ := ih fuel _ (Nat.le_of_succ_le_succ hf)
    exact ⟨e, by simp only [lexFrom, h]; exact he⟩
  | token h _ ih =>
    rintro (_ | fuel) offset hf
    · simp at hf
    obtain ⟨e, he⟩ := ih fuel _ ((scan_token h).trans (Nat.le_of_succ_le_succ hf))
    refine ⟨e, ?_⟩
    simp only [lexFrom, h]
    rw [he]
    rfl

theorem lexed_or_fails (cs : List Char) : (∃ ts, Lexed cs ts) ∨ LexFails cs := by
  induction hn : cs.length using Nat.strong_induction_on generalizing cs with
  | _ n ih =>
    cases cs with
    | nil => exact .inl ⟨[], .nil⟩
    | cons c cs =>
      rw [List.length_cons] at hn
      cases h : scan c cs with
      | failed e => exact .inr (.here h)
      | blank rest =>
        obtain rfl := scan_blank h
        rcases ih _ (by omega) rest rfl with ⟨ts, hr⟩ | hr
        · exact .inl ⟨ts, .blank h hr⟩
        · exact .inr (.blank h hr)
      | token t rest =>
        have hle := scan_token h
        rcases ih _ (by omega) rest rfl with ⟨ts, hr⟩ | hr
        · exact .inl ⟨t :: ts, .token h hr⟩
        · exact .inr (.token h hr)

end Lex

/-- The lexer never runs out of fuel: its result is that of the description. -/
theorem lex_total (src : List Char) :
    (∃ toks, lex src = .ok toks ∧ Lex.Lexed src (toks.map (·.1))) ∨
      (∃ e, lex src = .error e) ∧ Lex.LexFails src := by
  rcases Lex.lexed_or_fails src with ⟨ts, h⟩ | h
  · obtain ⟨toks, htoks, rfl⟩ := Lex.lexFrom_of_lexed h _ 0 le_rfl
    exact .inl ⟨toks, htoks, h⟩
  · exact .inr ⟨Lex.lexFrom_of_fails h _ 0 le_rfl, h⟩

end Sxla
