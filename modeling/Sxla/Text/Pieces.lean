import Sxla.Text.Lex

/-!
# Pieces of text

What the printer writes is cut into blanks, symbols, words and numbers. A
sequence of pieces is closed when a blank, a line end or a symbol follows
every word and number, and then the lexer finds exactly the pieces' tokens,
or fails where a number does not fit its type.
-/

namespace Sxla

open Decimal (digits signed)

inductive Piece where
  | blank
  | eol
  | sym (c : Char)
  | word (w : String)
  | bool (b : Bool)
  | ref (n : Nat)
  | int (v : Int)
  /-- The double with the digits on both sides of its point. -/
  | float (x : F64) (whole : Nat) (frac : List Char)

namespace Piece

def spell : Piece → List Char
  | .blank => [' ']
  | .eol => ['\n']
  | .sym c => [c]
  | .word w => w.toList
  | .bool b => (if b then "true" else "false").toList
  | .ref n => '%' :: digits n
  | .int v => signed v
  | .float x whole frac => x.sign ++ (digits whole ++ '.' :: frac)

def tok : Piece → Option Tok
  | .blank => none
  | .eol => some .eol
  | .sym c => some (.sym c)
  | .word w => some (.word w)
  | .bool b => some (.bool b)
  | .ref n => some (.valueRef (.ofNat n))
  | .int v => some (.int (.ofInt v))
  | .float x _ _ => some (.float x)

/-- Ends only where no further word character follows. -/
def wordy : Piece → Bool
  | .blank | .eol | .sym _ => false
  | _ => true

def IsWord (w : String) : Prop :=
  w ≠ "true" ∧ w ≠ "false" ∧ w.toList.head?.any Lex.isWordStart = true ∧
    w.toList.all Lex.isWordChar = true

instance : DecidablePred IsWord := fun w => by unfold IsWord; infer_instance

/-- What holds of a piece by the way it is made. -/
def Good : Piece → Prop
  | .sym c => Lex.isSymbol c = true
  | .word w => IsWord w
  | .float x whole frac =>
    F64.ofDecimal x.isNegative (digits whole) frac = some x ∧ ∀ c ∈ frac, c.isDigit = true
  | _ => True

/-- The number is one that the lexer can hold. -/
def Fits : Piece → Prop
  | .ref n => n < 2 ^ 32
  | .int v => -0x8000000000000000 ≤ v ∧ v < 0x8000000000000000
  | _ => True

def startsPlain : List Piece → Bool
  | [] => false
  | p :: _ => !p.wordy

def closed : List Piece → Bool
  | [] => true
  | p :: ps => (!p.wordy || startsPlain ps) && closed ps

def text (ps : List Piece) : List Char := ps.flatMap spell

def toks (ps : List Piece) : List Tok := ps.filterMap tok

theorem startsPlain_cons : startsPlain (p :: ps) = !p.wordy := rfl

@[simp] theorem text_nil : text [] = [] := rfl

@[simp] theorem text_cons : text (p :: ps) = p.spell ++ text ps := rfl

@[simp] theorem text_append : text (ps ++ qs) = text ps ++ text qs := List.flatMap_append

@[simp] theorem toks_nil : toks [] = [] := rfl

@[simp] theorem toks_append : toks (ps ++ qs) = toks ps ++ toks qs := List.filterMap_append

@[simp] theorem good_blank : blank.Good := trivial

@[simp] theorem good_eol : eol.Good := trivial

@[simp] theorem good_sym : (sym c).Good ↔ Lex.isSymbol c = true := Iff.rfl

@[simp] theorem good_word : (word w).Good ↔ IsWord w := Iff.rfl

@[simp] theorem good_bool : (bool b).Good := trivial

@[simp] theorem good_ref : (ref n).Good := trivial

@[simp] theorem good_int : (int v).Good := trivial

@[simp] theorem fits_blank : blank.Fits := trivial

@[simp] theorem fits_eol : eol.Fits := trivial

@[simp] theorem fits_sym : (sym c).Fits := trivial

@[simp] theorem fits_word : (word w).Fits := trivial

@[simp] theorem fits_bool : (bool b).Fits := trivial

@[simp] theorem fits_ref : (ref n).Fits ↔ n < 2 ^ 32 := Iff.rfl

@[simp] theorem fits_int : (int v).Fits ↔ -0x8000000000000000 ≤ v ∧ v < 0x8000000000000000 := Iff.rfl

@[simp] theorem fits_float : (float x m frac).Fits := trivial

theorem closed_append (hp : closed ps = true) (hq : closed qs = true) :
    closed (ps ++ qs) = true := by
  induction ps with
  | nil => exact hq
  | cons p ps ih =>
    rw [closed, Bool.and_eq_true] at hp
    rw [List.cons_append, closed, ih hp.2, Bool.and_true]
    cases hw : p.wordy with
    | false => rfl
    | true =>
      cases ps with
      | nil => simp [hw, startsPlain] at hp
      | cons q ps => simpa [hw, startsPlain] using hp.1

-- ---------------------------------------------------------------------------
-- Runs of characters
-- ---------------------------------------------------------------------------

/-- The text behind a word or number cannot continue it. -/
def Stops (rest : List Char) : Prop := ∀ c ∈ rest.head?, Lex.isWordChar c = false

theorem takeWhile_run {p : Char → Bool} {l rest : List Char} (hl : ∀ c ∈ l, p c = true)
    (hr : ∀ c ∈ rest.head?, p c = false) :
    (l ++ rest).takeWhile p = l ∧ (l ++ rest).dropWhile p = rest := by
  have hrest : rest.takeWhile p = [] ∧ rest.dropWhile p = rest := by
    cases rest with
    | nil => exact ⟨rfl, rfl⟩
    | cons c rest => simp [hr c rfl]
  rw [List.takeWhile_append_of_pos hl, List.dropWhile_append_of_pos hl, hrest.1, hrest.2]
  exact ⟨List.append_nil l, rfl⟩

theorem isWordChar_of_isDigit (h : c.isDigit = true) : Lex.isWordChar c = true := by
  simp [Lex.isWordChar, Char.isAlphanum, h]

theorem Stops.digit {rest : List Char} (h : Stops rest) : ∀ c ∈ rest.head?, c.isDigit = false := by
  intro c hc
  cases hd : c.isDigit with
  | false => rfl
  | true => simpa [isWordChar_of_isDigit hd] using h c hc

theorem Stops.ne_dot {rest : List Char} (h : Stops (c :: rest)) : c ≠ '.' := by
  rintro rfl
  exact absurd (h '.' rfl) (by decide)

theorem digits_run {rest : List Char} (n : Nat) (h : ∀ c ∈ rest.head?, c.isDigit = false) :
    (digits n ++ rest).takeWhile Char.isDigit = digits n ∧
      (digits n ++ rest).dropWhile Char.isDigit = rest :=
  takeWhile_run (fun _ hc => Decimal.isDigit_of_mem_digits hc) h

theorem isDigit_cases (h : c.isDigit = true) : c ∈ "0123456789".toList := by
  have hv : 48 ≤ c.val.toNat ∧ c.val.toNat ≤ 57 := by
    simpa [Char.isDigit, UInt32.le_iff_toNat_le] using h
  obtain ⟨n, hn⟩ : ∃ n, n = c.val.toNat := ⟨_, rfl⟩
  have hc : c = Char.ofNat n := by rw [hn]; exact (Char.ofNat_toNat c).symm
  have hmem : ∀ n, 48 ≤ n → n ≤ 57 → Char.ofNat n ∈ "0123456789".toList := by decide
  exact hc ▸ hmem n (by omega) (by omega)

-- ---------------------------------------------------------------------------
-- One piece
-- ---------------------------------------------------------------------------

open Sxla.Lex

theorem scan_digit {cs : List Char} (h : c.isDigit = true) :
    scan c cs = scanNumber false (c :: cs) := by
  have hc := isDigit_cases h
  simp only [show "0123456789".toList = ['0', '1', '2', '3', '4', '5', '6', '7', '8', '9'] from by
    decide, List.mem_cons, List.not_mem_nil, or_false] at hc
  rcases hc with rfl | rfl | rfl | rfl | rfl | rfl | rfl | rfl | rfl | rfl <;> rfl

theorem scan_symbol {cs : List Char} (h : isSymbol c = true) : scan c cs = .token (.sym c) cs := by
  simp only [isSymbol, List.mem_cons, List.not_mem_nil, or_false, decide_eq_true_eq] at h
  rcases h with rfl | rfl | rfl | rfl | rfl | rfl | rfl | rfl | rfl | rfl <;> rfl

/-- A word starts with a character that no other branch of the lexer takes. -/
theorem scan_start {cs : List Char} (h : isWordStart c = true) : scan c cs = scanWord (c :: cs) := by
  have hne : ∀ d ∈ ['\n', ' ', '\t', '\r', '%', '-'], c ≠ d := by
    intro d hd he
    have hall : ['\n', ' ', '\t', '\r', '%', '-'].all (!isWordStart ·) = true := by decide
    simpa [← he, h] using List.all_eq_true.mp hall d hd
  have hdigit : c.isDigit = false := by
    cases hd : c.isDigit with
    | false => rfl
    | true =>
      have hall : "0123456789".toList.all (!isWordStart ·) = true := by decide
      simpa [h] using List.all_eq_true.mp hall c (isDigit_cases hd)
  simp only [List.mem_cons, List.not_mem_nil, or_false, forall_eq_or_imp, forall_eq] at hne
  obtain ⟨h₁, h₂, h₃, h₄, h₅, h₆⟩ := hne
  simp [scan, h, h₁, h₂, h₃, h₄, h₅, h₆, hdigit]

theorem scan_run {w rest : List Char} (hstart : w.head?.any isWordStart = true)
    (hall : w.all isWordChar = true) (hs : Stops rest) :
    ∃ c cs, w ++ rest = c :: cs ∧ scan c cs = .token (wordToken (.ofList w)) rest := by
  cases w with
  | nil => simp at hstart
  | cons c w =>
    refine ⟨c, w ++ rest, rfl, ?_⟩
    have hrun := takeWhile_run (l := c :: w) (by simpa using hall) hs
    rw [scan_start (by simpa using hstart), scanWord, ← List.cons_append, hrun.1, hrun.2]

theorem scanRef_digits {rest : List Char} (n : Nat) (hs : Stops rest) :
    scanRef (digits n ++ rest) =
      if n < 2 ^ 32 then .token (.valueRef (.ofNat n)) rest else .failed .badInt := by
  obtain ⟨ht, hd⟩ := digits_run n hs.digit
  rw [scanRef, ht, hd, parseU32, if_neg (Decimal.digits_ne_nil n), Decimal.value_digits]
  by_cases h : n < 2 ^ 32
  · rw [if_pos h, if_pos h]
  · rw [if_neg h, if_neg h]

theorem scanNumber_int {rest : List Char} (negative : Bool) (n : Nat) (hs : Stops rest) :
    scanNumber negative (digits n ++ rest) =
      match CheckedInt.ofInt (if negative then -(n : Int) else n) with
      | some v => .token (.int v) rest
      | none => .failed .badInt := by
  obtain ⟨ht, hd⟩ := digits_run n hs.digit
  simp only [scanNumber, ht, hd, parseI64, if_neg (Decimal.digits_ne_nil n), Decimal.value_digits]
  split
  · exact absurd rfl hs.ne_dot
  · rfl

theorem scanNumber_float {rest frac : List Char} {x : F64} {n : Nat}
    (hx : F64.ofDecimal x.isNegative (digits n) frac = some x)
    (hfrac : ∀ c ∈ frac, c.isDigit = true) (hs : Stops rest) :
    scanNumber x.isNegative (digits n ++ '.' :: (frac ++ rest)) = .token (.float x) rest := by
  obtain ⟨ht, hd⟩ := @digits_run ('.' :: (frac ++ rest)) n (by simp)
  obtain ⟨ht', hd'⟩ := takeWhile_run hfrac hs.digit
  simp only [scanNumber, ht, hd, ht', hd', hx]

/-- The text of a number behind its sign, if any. -/
theorem scan_number {rest : List Char} (negative : Bool) (n : Nat) :
    ∃ c cs, (if negative then ['-'] else []) ++ (digits n ++ rest) = c :: cs ∧
      scan c cs = scanNumber negative (digits n ++ rest) := by
  cases negative
  · cases hd : digits n with
    | nil => exact absurd hd (Decimal.digits_ne_nil n)
    | cons c cs =>
      refine ⟨c, cs ++ rest, by simp, ?_⟩
      exact scan_digit (Decimal.isDigit_of_mem_digits (hd ▸ List.mem_cons_self))
  · exact ⟨'-', digits n ++ rest, rfl, rfl⟩

theorem signed_eq (v : Int) :
    signed v = (if decide (v < 0) then ['-'] else []) ++ digits v.natAbs := by
  by_cases h : v < 0 <;> simp [signed, h]

theorem signed_value (v : Int) : (if decide (v < 0) then -(v.natAbs : Int) else v.natAbs) = v := by
  by_cases h : v < 0
  · simp only [h, decide_true, ↓reduceIte]
    omega
  · simp only [h, decide_false, Bool.false_eq_true, ↓reduceIte]
    omega

theorem scan_int {rest : List Char} (v : Int) (hs : Stops rest) :
    ∃ c cs, signed v ++ rest = c :: cs ∧
      scan c cs = match CheckedInt.ofInt v with
        | some v => .token (.int v) rest
        | none => .failed .badInt := by
  obtain ⟨c, cs, he, hscan⟩ := @scan_number rest (decide (v < 0)) v.natAbs
  refine ⟨c, cs, by rw [signed_eq, List.append_assoc, he], ?_⟩
  rw [hscan, scanNumber_int _ _ hs, signed_value]

variable {rest : List Char} {us : List Tok} {p : Piece} {ps : List Piece}

/-- The lexer's step at a piece that fits. -/
theorem scan_piece (hg : p.Good) (hf : p.Fits) (hs : p.wordy = true → Stops rest) :
    ∃ c cs, p.spell ++ rest = c :: cs ∧
      scan c cs = match p.tok with
        | none => .blank rest
        | some t => .token t rest := by
  cases p with
  | blank => exact ⟨' ', rest, rfl, rfl⟩
  | eol => exact ⟨'\n', rest, rfl, rfl⟩
  | sym c => exact ⟨c, rest, rfl, scan_symbol hg⟩
  | word w =>
    obtain ⟨htrue, hfalse, hstart, hall⟩ := hg
    obtain ⟨c, cs, he, hscan⟩ := scan_run hstart hall (hs rfl)
    rw [String.ofList_toList, wordToken, if_neg htrue, if_neg hfalse] at hscan
    exact ⟨c, cs, he, hscan⟩
  | bool b =>
    cases b
    · exact scan_run (w := "false".toList) (by decide) (by decide) (hs rfl)
    · exact scan_run (w := "true".toList) (by decide) (by decide) (hs rfl)
  | ref n => exact ⟨'%', digits n ++ rest, rfl, (scanRef_digits n (hs rfl)).trans (if_pos hf)⟩
  | int v =>
    obtain ⟨c, cs, he, hscan⟩ := scan_int v (hs rfl)
    have hfit : -0x8000000000000000 ≤ v ∧ v < 0x8000000000000000 := hf
    rw [CheckedInt.ofInt, if_pos hfit] at hscan
    exact ⟨c, cs, he, hscan⟩
  | float x n frac =>
    obtain ⟨c, cs, he, hscan⟩ := @scan_number ('.' :: (frac ++ rest)) x.isNegative n
    rw [scanNumber_float hg.1 hg.2 (hs rfl)] at hscan
    refine ⟨c, cs, ?_, hscan⟩
    rw [← he]
    simp [spell, F64.sign]

theorem fails_piece (hf : ¬ p.Fits) (hs : p.wordy = true → Stops rest) :
    LexFails (p.spell ++ rest) := by
  cases p with
  | ref n =>
    refine .here (c := '%') (e := .badInt) ?_
    exact (scanRef_digits n (hs rfl)).trans (if_neg hf)
  | int v =>
    obtain ⟨c, cs, he, hscan⟩ := scan_int v (hs rfl)
    have hfit : ¬ (-0x8000000000000000 ≤ v ∧ v < 0x8000000000000000) := hf
    rw [CheckedInt.ofInt, if_neg hfit] at hscan
    rw [spell, he]
    exact .here hscan
  | _ => exact absurd trivial hf

-- ---------------------------------------------------------------------------
-- Sequences of pieces
-- ---------------------------------------------------------------------------

theorem stops_of_plain (hg : ∀ q ∈ ps, q.Good) (h : startsPlain ps = true) :
    Stops (text ps ++ rest) := by
  cases ps with
  | nil => simp [startsPlain] at h
  | cons q ps =>
    intro c hc
    cases q with
    | blank =>
      obtain rfl : ' ' = c := Option.some.inj hc
      decide
    | eol =>
      obtain rfl : '\n' = c := Option.some.inj hc
      decide
    | sym d =>
      obtain rfl : d = c := Option.some.inj hc
      have hd : isSymbol d = true := hg _ List.mem_cons_self
      simp only [isSymbol, List.mem_cons, List.not_mem_nil, or_false, decide_eq_true_eq] at hd
      rcases hd with rfl | rfl | rfl | rfl | rfl | rfl | rfl | rfl | rfl | rfl <;> decide
    | _ => simp [startsPlain, wordy] at h

theorem stops_of_closed (hg : ∀ q ∈ ps, q.Good) (hc : closed (p :: ps) = true)
    (hw : p.wordy = true) : Stops (text ps ++ rest) := by
  rw [closed, hw, Bool.not_true, Bool.false_or, Bool.and_eq_true] at hc
  exact stops_of_plain hg hc.1

theorem closed_tail (h : closed (p :: ps) = true) : closed ps = true := by
  rw [closed, Bool.and_eq_true] at h
  exact h.2

theorem lexed_pieces (hg : ∀ p ∈ ps, p.Good) (hf : ∀ p ∈ ps, p.Fits) (hc : closed ps = true)
    (hr : Lexed rest us) : Lexed (text ps ++ rest) (toks ps ++ us) := by
  induction ps with
  | nil => exact hr
  | cons p ps ih =>
    rw [List.forall_mem_cons] at hg hf
    have hps := ih hg.2 hf.2 (closed_tail hc)
    obtain ⟨c, cs, he, hscan⟩ := scan_piece hg.1 hf.1 (stops_of_closed hg.2 hc)
    rw [text_cons, List.append_assoc, he]
    cases ht : p.tok with
    | none =>
      rw [ht] at hscan
      simpa [toks, ht] using Lexed.blank hscan hps
    | some t =>
      rw [ht] at hscan
      simpa [toks, ht] using Lexed.token hscan hps

theorem fails_pieces (hg : ∀ p ∈ ps, p.Good) (hf : ∃ p ∈ ps, ¬ p.Fits) (hc : closed ps = true) :
    LexFails (text ps ++ rest) := by
  induction ps with
  | nil => simp at hf
  | cons p ps ih =>
    rw [List.forall_mem_cons] at hg
    have hs := @stops_of_closed rest _ _ hg.2 hc
    rw [text_cons, List.append_assoc]
    by_cases hp : p.Fits
    · have hps := ih hg.2 (by simpa [hp] using hf) (closed_tail hc)
      obtain ⟨c, cs, he, hscan⟩ := scan_piece hg.1 hp hs
      rw [he]
      cases ht : p.tok with
      | none =>
        rw [ht] at hscan
        exact .blank hscan hps
      | some t =>
        rw [ht] at hscan
        exact .token hscan hps
    · exact fails_piece hp hs

end Piece

end Sxla
