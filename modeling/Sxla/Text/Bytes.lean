import Sxla.Library.Checked
import Sxla.Text.Pieces

/-!
# The lexer over bytes

The source lexes the UTF-8 bytes of its text and slices the text at byte
indices, which panics off a character boundary. Here a place in the text is
the bytes from it on, and a slice the bytes between two places. `lexBytes_eq`
shows that no slice panics and that the tokens are those of `lex`.
-/

namespace Sxla

/-- How a call that can panic ends without a result. -/
inductive ParseStop where
  | error (e : ParseError)
  | panic
deriving DecidableEq, Repr

namespace Bytes

def asBytes (src : List Char) : List UInt8 := src.flatMap String.utf8EncodeChar

/-- `b as char`. -/
def asChar (b : UInt8) : Char := .ofUInt8 b

/-- `is_char_boundary`, at the place where these bytes start. -/
def isCharBoundary : List UInt8 → Bool
  | [] => true
  | b :: _ => b < 0x80 || 0xc0 ≤ b

/-- `&src[start..stop]`, the places given by the bytes from them on. -/
def slice (start stop : List UInt8) : Except ParseStop (List Char) :=
  if isCharBoundary start && isCharBoundary stop then
    .ok ((start.take (start.length - stop.length)).map asChar)
  else .error .panic

def skip (p : Char → Bool) (bs : List UInt8) : List UInt8 := bs.dropWhile fun b => p (asChar b)

def lexRef (start : Nat) (bs : List UInt8) : Except ParseStop (Tok × List UInt8) := do
  let rest := skip Char.isDigit bs
  match Lex.parseU32 (← slice bs rest) with
  | some n => return (.valueRef n, rest)
  | none => throw (.error (.badInt start))

/-- `text.parse::<f64>()` of a text with a point. -/
def parseFloat (text : List Char) : Option F64 :=
  let negative := text.head? == some '-'
  let digits := if negative then text.drop 1 else text
  F64.ofDecimal negative (digits.takeWhile Char.isDigit)
    ((digits.dropWhile Char.isDigit).drop 1)

/-- `text.parse::<i64>()`. -/
def parseInt (text : List Char) : Option Int64 :=
  let negative := text.head? == some '-'
  Lex.parseI64 negative (if negative then text.drop 1 else text)

def skipSign : List UInt8 → List UInt8
  | [] => []
  | b :: bs => if asChar b = '-' then bs else b :: bs

def lexNumber (start : Nat) (bs : List UInt8) : Except ParseStop (Tok × List UInt8) := do
  match skip Char.isDigit (skipSign bs) with
  | [] => integer []
  | b :: rest =>
    if asChar b = '.' then
      let rest := skip Char.isDigit rest
      match parseFloat (← slice bs rest) with
      | some v => return (.float v, rest)
      | none => throw (.error (.badFloat start))
    else integer (b :: rest)
where
  integer (rest : List UInt8) : Except ParseStop (Tok × List UInt8) := do
    match parseInt (← slice bs rest) with
    | some v => return (.int v, rest)
    | none => throw (.error (.badInt start))

/-- The second loop of a word, up to the closing bracket. -/
def skipBracket (bs : List UInt8) : List UInt8 :=
  match bs with
  | b :: _ => if asChar b = '<' then (skip (· != '>') bs).drop 1 else bs
  | [] => bs

def lexWord (bs : List UInt8) : Except ParseStop (Tok × List UInt8) := do
  let rest := skipBracket (skip Lex.isWordChar bs)
  return (Lex.wordToken (.ofList (← slice bs rest)), rest)

/-- One round of the loop at a byte: the token it pushes, if any, and the
bytes behind. -/
def scan (start : Nat) (b : UInt8) (bs : List UInt8) :
    Except ParseStop (Option Tok × List UInt8) :=
  let c := asChar b
  if c = '\n' then .ok (some .eol, bs)
  else if c = ' ' ∨ c = '\t' ∨ c = '\r' then .ok (none, bs)
  else if c = '%' then (lexRef start bs).map fun (t, rest) => (some t, rest)
  else if c = '-' ∨ c.isDigit then (lexNumber start (b :: bs)).map fun (t, rest) => (some t, rest)
  else if Lex.isWordStart c then (lexWord (b :: bs)).map fun (t, rest) => (some t, rest)
  else if Lex.isSymbol c then .ok (some (.sym c), bs)
  else .error (.error (.unexpectedToken start))

/-- Fuel is the number of bytes. -/
def lexFrom : Nat → Nat → List UInt8 → Except ParseStop (List (Tok × Nat))
  | _, _, [] => .ok []
  | 0, _, _ :: _ => .error (.error .truncated)
  | fuel + 1, i, b :: bs => do
    let (t, rest) ← scan i b bs
    let toks ← lexFrom fuel (i + (bs.length + 1 - rest.length)) rest
    return t.toList.map (·, i) ++ toks

end Bytes

def lexBytes (src : List Char) : Except ParseStop (List (Tok × Nat)) :=
  Bytes.lexFrom (Bytes.asBytes src).length 0 (Bytes.asBytes src)

namespace Bytes

-- ---------------------------------------------------------------------------
-- Encoding
-- ---------------------------------------------------------------------------

def Ascii (c : Char) : Prop := c.toNat < 0x80

instance : DecidablePred Ascii := fun c => inferInstanceAs (Decidable (c.toNat < 0x80))

variable {c : Char} {cs pre rest : List Char} {p : Char → Bool} {start : Nat}

theorem asBytes_cons : asBytes (c :: cs) = String.utf8EncodeChar c ++ asBytes cs := rfl

theorem asBytes_ascii (h : Ascii c) :
    ∃ b, asBytes (c :: cs) = b :: asBytes cs ∧ asChar b = c ∧ b < 0x80 := by
  have hv : c.val.toNat < 0x80 := h
  have hb : (UInt8.ofNat c.val.toNat).toNat = c.val.toNat := UInt8.toNat_ofNat_of_lt' (Nat.lt_trans hv (by decide))
  refine ⟨.ofNat c.val.toNat, ?_, ?_, ?_⟩
  · rw [asBytes_cons, String.utf8EncodeChar, if_pos (Nat.le_of_lt_succ hv)]
    rfl
  · refine Char.ext (UInt32.toNat_inj.mp ?_)
    show (UInt8.ofNat c.val.toNat).toUInt32.toNat = c.val.toNat
    rw [UInt8.toNat_toUInt32, hb]
  · rw [UInt8.lt_iff_toNat_lt, hb]
    exact hv

/-- Beyond ASCII a character starts with a byte that is no ASCII character
either. -/
theorem asBytes_wide (h : ¬ Ascii c) :
    ∃ b bs, asBytes (c :: cs) = b :: bs ∧ ¬ Ascii (asChar b) ∧ 0xc0 ≤ b := by
  have hv : ¬ c.val.toNat ≤ 0x7f := fun hle => h (Nat.lt_succ_of_le hle)
  have hlead : ∀ n, 0xc0 ≤ n → n < 256 → ¬ Ascii (asChar (.ofNat n)) ∧ 0xc0 ≤ UInt8.ofNat n := by
    intro n hlo hhi
    have hn : (UInt8.ofNat n).toNat = n := UInt8.toNat_ofNat_of_lt' hhi
    constructor
    · show ¬ (UInt8.ofNat n).toUInt32.toNat < 0x80
      rw [UInt8.toNat_toUInt32, hn]
      omega
    · rw [UInt8.le_iff_toNat_le, hn]
      exact hlo
  rw [asBytes_cons, String.utf8EncodeChar, if_neg hv]
  split
  · exact ⟨_, _, rfl, hlead _ (by omega) (by omega)⟩
  split
  · exact ⟨_, _, rfl, hlead _ (by omega) (by omega)⟩
  · exact ⟨_, _, rfl, hlead _ (by omega) (by omega)⟩

theorem isCharBoundary_asBytes (cs : List Char) : isCharBoundary (asBytes cs) = true := by
  cases cs with
  | nil => rfl
  | cons c cs =>
    by_cases h : Ascii c
    · obtain ⟨b, hb, -, hlt⟩ := @asBytes_ascii c cs h
      simp [hb, isCharBoundary, hlt]
    · obtain ⟨b, bs, hb, -, hle⟩ := @asBytes_wide c cs h
      simp [hb, isCharBoundary, hle]

theorem asBytes_append (h : ∀ x ∈ pre, Ascii x) : ∃ bs, asBytes (pre ++ rest) = bs ++ asBytes rest ∧
    bs.length = pre.length ∧ bs.map asChar = pre := by
  induction pre with
  | nil => exact ⟨[], rfl, rfl, rfl⟩
  | cons c pre ih =>
    obtain ⟨hc, hpre⟩ := List.forall_mem_cons.mp h
    obtain ⟨bs, hbs, hlen, hmap⟩ := ih hpre
    obtain ⟨b, hb, hchar, -⟩ := @asBytes_ascii c (pre ++ rest) hc
    exact ⟨b :: bs, by rw [List.cons_append, hb, hbs, List.cons_append], by simp [hlen],
      by simp [hchar, hmap]⟩

/-- A slice of ASCII characters. -/
theorem slice_asBytes (h : ∀ x ∈ pre, Ascii x) :
    slice (asBytes (pre ++ rest)) (asBytes rest) = .ok pre := by
  obtain ⟨bs, hbs, hlen, hmap⟩ := @asBytes_append pre rest h
  rw [slice, isCharBoundary_asBytes, isCharBoundary_asBytes, hbs]
  simp [hmap]

theorem length_asBytes (h : ∀ x ∈ pre, Ascii x) :
    (asBytes (pre ++ rest)).length = pre.length + (asBytes rest).length := by
  obtain ⟨bs, hbs, hlen, -⟩ := @asBytes_append pre rest h
  rw [hbs, List.length_append, hlen]

theorem skip_asBytes (hp : ∀ c, p c = true → Ascii c) :
    skip p (asBytes cs) = asBytes (cs.dropWhile p) := by
  induction cs with
  | nil => rfl
  | cons c cs ih =>
    by_cases h : Ascii c
    · obtain ⟨b, hb, hchar, -⟩ := @asBytes_ascii c cs h
      rw [hb, skip, List.dropWhile_cons, hchar, List.dropWhile_cons]
      split
      · exact ih
      · exact hb.symm
    · obtain ⟨b, bs, hb, hwide, -⟩ := @asBytes_wide c cs h
      have hpb : p (asChar b) = false := Bool.eq_false_iff.mpr fun ht => hwide (hp _ ht)
      have hpc : p c = false := Bool.eq_false_iff.mpr fun ht => h (hp _ ht)
      rw [hb, skip, List.dropWhile_cons, hpb, List.dropWhile_cons, hpc]
      exact hb.symm

-- ---------------------------------------------------------------------------
-- Tokens
-- ---------------------------------------------------------------------------

theorem ascii_of_le (h : c.toNat ≤ 0x7f) : Ascii c := Nat.lt_succ_of_le h

theorem isDigit_ascii (h : c.isDigit = true) : Ascii c := by
  simp only [Char.isDigit, Bool.and_eq_true, decide_eq_true_eq, UInt32.le_iff_toNat_le] at h
  exact ascii_of_le (h.2.trans (by decide))

theorem isAlpha_ascii (h : c.isAlpha = true) : Ascii c := by
  rcases (Bool.or_eq_true _ _).mp h with h | h
  · have hle := (of_decide_eq_true h).2
    exact ascii_of_le (hle.trans (by decide))
  · have hle := of_decide_eq_true ((Bool.and_eq_true _ _).mp h).2
    exact ascii_of_le (hle.trans (by decide))

theorem isWordChar_ascii (h : Lex.isWordChar c = true) : Ascii c := by
  simp only [Lex.isWordChar, Char.isAlphanum, Bool.or_eq_true, beq_iff_eq] at h
  rcases h with (((((h | h) | rfl) | rfl) | rfl) | rfl) | rfl
  · exact isAlpha_ascii h
  · exact isDigit_ascii h
  all_goals decide

theorem isSymbol_ascii (h : Lex.isSymbol c = true) : Ascii c := by
  simp only [Lex.isSymbol, List.mem_cons, List.not_mem_nil, or_false, decide_eq_true_eq] at h
  rcases h with rfl | rfl | rfl | rfl | rfl | rfl | rfl | rfl | rfl | rfl
  all_goals decide

theorem takeWhile_ascii (hp : ∀ c, p c = true → Ascii c) : ∀ x ∈ cs.takeWhile p, Ascii x :=
  fun x hx => hp x (List.all_eq_true.mp List.all_takeWhile x hx)

/-- The lexer has read some ASCII characters. -/
def Consumes (src rest : List Char) : Prop := ∃ pre, (∀ x ∈ pre, Ascii x) ∧ src = pre ++ rest

/-- A round of the byte loop gives what the scan of the characters gives. -/
def Agrees (start : Nat) (src : List Char) (r : Except ParseStop (Option Tok × List UInt8)) :
    Lex.Scan → Prop
  | .blank rest => r = .ok (none, asBytes rest) ∧ Consumes src rest
  | .token t rest => r = .ok (some t, asBytes rest) ∧ Consumes src rest
  | .failed e => r = .error (.error (e start))

theorem lexRef_agrees {src : List Char} (hsrc : Consumes src cs) :
    Agrees start src ((lexRef start (asBytes cs)).map fun (t, rest) => (some t, rest))
      (Lex.scanRef cs) := by
  obtain ⟨pre, hpre, rfl⟩ := hsrc
  have hascii : ∀ x ∈ cs.takeWhile Char.isDigit, Ascii x := takeWhile_ascii fun _ => isDigit_ascii
  have hslice := @slice_asBytes (cs.takeWhile Char.isDigit) (cs.dropWhile Char.isDigit) hascii
  rw [List.takeWhile_append_dropWhile] at hslice
  rw [lexRef, skip_asBytes fun _ => isDigit_ascii, hslice, Lex.scanRef]
  cases h : Lex.parseU32 (cs.takeWhile Char.isDigit) with
  | none => simp [Agrees, h, bind, Except.bind, Except.map, throw, throwThe, MonadExceptOf.throw]
  | some n =>
    refine ⟨by simp [h, bind, Except.bind, Except.map, pure, Except.pure], ?_⟩
    refine ⟨pre ++ cs.takeWhile Char.isDigit, ?_, by
      rw [List.append_assoc, List.takeWhile_append_dropWhile]⟩
    simpa [or_imp, forall_and] using ⟨hpre, fun x hx => hascii x hx⟩

/-- The characters of a number, its sign before the digits. -/
def withSign (negative : Bool) (cs : List Char) : List Char := if negative then '-' :: cs else cs

theorem withSign_append (negative : Bool) (cs ds : List Char) :
    withSign negative cs ++ ds = withSign negative (cs ++ ds) := by
  cases negative <;> rfl

theorem withSign_ascii {negative : Bool} (h : ∀ x ∈ pre, Ascii x) :
    ∀ x ∈ withSign negative pre, Ascii x := by
  cases negative with
  | false => exact h
  | true => exact List.forall_mem_cons.mpr ⟨by decide, h⟩

theorem head_not_sign (h : ∀ x ∈ cs.head?, x = '-' → False) : (cs.head? == some '-') = false := by
  cases cs with
  | nil => rfl
  | cons d cs => simpa using h d rfl

theorem head_digits (h : ∀ x ∈ cs, x.isDigit = true) : ∀ x ∈ cs.head?, x = '-' → False := by
  rintro x hx rfl
  cases h '-' (List.mem_of_mem_head? hx)

theorem parseInt_withSign {negative : Bool} (h : ∀ x ∈ cs, x.isDigit = true) :
    parseInt (withSign negative cs) = Lex.parseI64 negative cs := by
  cases negative with
  | false =>
    simp only [parseInt, withSign, Bool.false_eq_true, ↓reduceIte, head_not_sign (head_digits h)]
  | true => rfl

theorem parseFloat_withSign {negative : Bool} {int frac : List Char}
    (h : ∀ x ∈ int, x.isDigit = true) :
    parseFloat (withSign negative (int ++ '.' :: frac)) = F64.ofDecimal negative int frac := by
  obtain ⟨htake, hdrop⟩ := @Piece.takeWhile_run Char.isDigit int ('.' :: frac) h (by simp)
  cases negative with
  | false =>
    have hhead : ((int ++ '.' :: frac).head? == some '-') = false := by
      refine head_not_sign ?_
      cases int with
      | nil => simp
      | cons d int => exact @head_digits [d] (by simpa using h d List.mem_cons_self)
    simp only [parseFloat, withSign, Bool.false_eq_true, ↓reduceIte, hhead, htake, hdrop,
      List.drop_succ_cons, List.drop_zero]
  | true =>
    simp only [parseFloat, withSign, ↓reduceIte, List.head?_cons, beq_self_eq_true,
      List.drop_succ_cons, List.drop_zero, htake, hdrop]

/-- The digits behind the sign. -/
theorem skipSign_asBytes {negative : Bool} (h : negative = false → ∀ x ∈ cs.head?, x = '-' → False) :
    skipSign (asBytes (withSign negative cs)) = asBytes cs := by
  cases negative with
  | true =>
    obtain ⟨b, hb, hchar, -⟩ := @asBytes_ascii '-' cs (by decide)
    simp [withSign, hb, skipSign, hchar]
  | false =>
    cases cs with
    | nil => rfl
    | cons c cs =>
      have hne : c ≠ '-' := h rfl c rfl
      by_cases hc : Ascii c
      · obtain ⟨b, hb, hchar, -⟩ := @asBytes_ascii c cs hc
        simp [withSign, hb, skipSign, hchar, hne]
      · obtain ⟨b, bs, hb, hwide, -⟩ := @asBytes_wide c cs hc
        have hdash : asChar b ≠ '-' := fun he => hwide (he ▸ by decide)
        simp [withSign, hb, skipSign, hdash]

theorem integer_agrees {negative : Bool} {ds rest : List Char} (h : ∀ x ∈ ds, x.isDigit = true) :
    lexNumber.integer start (asBytes (withSign negative (ds ++ rest))) (asBytes rest) =
      match Lex.parseI64 negative ds with
      | some v => .ok (.int v, asBytes rest)
      | none => .error (.error (.badInt start)) := by
  have hslice := @slice_asBytes (withSign negative ds) rest
    (withSign_ascii fun x hx => isDigit_ascii (h x hx))
  rw [withSign_append] at hslice
  rw [lexNumber.integer, hslice, ← parseInt_withSign h]
  cases hp : parseInt (withSign negative ds) <;>
    simp [hp, bind, Except.bind, pure, Except.pure, throw, throwThe, MonadExceptOf.throw]

theorem float_agrees {negative : Bool} {int rest : List Char} (h : ∀ x ∈ int, x.isDigit = true) :
    slice (asBytes (withSign negative (int ++ '.' :: rest)))
        (asBytes (rest.dropWhile Char.isDigit)) =
      .ok (withSign negative (int ++ '.' :: rest.takeWhile Char.isDigit)) := by
  have hascii : ∀ x ∈ int ++ '.' :: rest.takeWhile Char.isDigit, Ascii x := by
    intro x hx
    rcases List.mem_append.mp hx with hx | hx
    · exact isDigit_ascii (h x hx)
    · rcases List.mem_cons.mp hx with rfl | hx
      · decide
      · exact takeWhile_ascii (fun _ => isDigit_ascii) x hx
  have hslice := @slice_asBytes _ (rest.dropWhile Char.isDigit)
    (@withSign_ascii _ negative hascii)
  rwa [withSign_append, List.append_assoc, List.cons_append,
    List.takeWhile_append_dropWhile] at hslice

theorem Consumes.signed {negative : Bool} {ds rest : List Char} (h : ∀ x ∈ ds, Ascii x)
    (hcs : cs = ds ++ rest) : Consumes (withSign negative cs) rest :=
  ⟨withSign negative ds, withSign_ascii h, by rw [withSign_append, hcs]⟩

theorem lexNumber_agrees {negative : Bool}
    (hsign : negative = false → ∀ x ∈ cs.head?, x = '-' → False) :
    Agrees start (withSign negative cs)
      ((lexNumber start (asBytes (withSign negative cs))).map fun (t, rest) => (some t, rest))
      (Lex.scanNumber negative cs) := by
  have hdigits : ∀ x ∈ cs.takeWhile Char.isDigit, x.isDigit = true :=
    List.all_eq_true.mp List.all_takeWhile
  have hascii : ∀ x ∈ cs.takeWhile Char.isDigit, Ascii x := fun x hx => isDigit_ascii (hdigits x hx)
  have hsplit := (List.takeWhile_append_dropWhile (p := Char.isDigit) (l := cs)).symm
  rw [lexNumber, skipSign_asBytes hsign, skip_asBytes fun _ => isDigit_ascii, Lex.scanNumber]
  generalize cs.takeWhile Char.isDigit = ds at *
  generalize cs.dropWhile Char.isDigit = rest at *
  subst hsplit
  have hint := @integer_agrees start negative ds rest hdigits
  have hinteger : Agrees start (withSign negative (ds ++ rest))
      ((lexNumber.integer start (asBytes (withSign negative (ds ++ rest))) (asBytes rest)).map
        fun (t, rest) => (some t, rest))
      (match Lex.parseI64 negative ds with
        | some v => .token (.int v) rest
        | none => .failed .badInt) := by
    rw [hint]
    cases Lex.parseI64 negative ds with
    | none => rfl
    | some v => exact ⟨rfl, .signed hascii rfl⟩
  cases rest with
  | nil => exact hinteger
  | cons c rest =>
    by_cases hdot : c = '.'
    · subst hdot
      obtain ⟨b, hb, hchar, -⟩ := @asBytes_ascii '.' rest (by decide)
      have hslice := @float_agrees negative ds rest hdigits
      rw [hb]
      simp only [hchar, ↓reduceIte, skip_asBytes fun _ => isDigit_ascii, hslice, bind, Except.bind,
        parseFloat_withSign hdigits]
      cases F64.ofDecimal negative ds (rest.takeWhile Char.isDigit) with
      | none => rfl
      | some v =>
        refine ⟨rfl, withSign negative (ds ++ '.' :: rest.takeWhile Char.isDigit), ?_, ?_⟩
        · refine withSign_ascii fun x hx => ?_
          rcases List.mem_append.mp hx with hx | hx
          · exact hascii x hx
          · rcases List.mem_cons.mp hx with rfl | hx
            · decide
            · exact takeWhile_ascii (fun _ => isDigit_ascii) x hx
        · rw [withSign_append, List.append_assoc, List.cons_append,
            List.takeWhile_append_dropWhile]
    · obtain ⟨b, bs, hb, hne⟩ : ∃ b bs, asBytes (c :: rest) = b :: bs ∧ asChar b ≠ '.' := by
        by_cases hc : Ascii c
        · obtain ⟨b, hb, hchar, -⟩ := @asBytes_ascii c rest hc
          exact ⟨b, _, hb, hchar ▸ hdot⟩
        · obtain ⟨b, bs, hb, hwide, -⟩ := @asBytes_wide c rest hc
          exact ⟨b, bs, hb, fun he => hwide (he ▸ by decide)⟩
      rw [hb] at hinteger ⊢
      simp only [if_neg hne]
      split
      · next hrest =>
        cases hrest
        exact absurd rfl hdot
      · exact hinteger

theorem skipBracket_asBytes (h : ∀ x ∈ cs.head?, Lex.isWordChar x = false) :
    skipBracket (asBytes cs) = asBytes cs := by
  cases cs with
  | nil => rfl
  | cons c cs =>
    obtain ⟨b, bs, hb, hne⟩ : ∃ b bs, asBytes (c :: cs) = b :: bs ∧ asChar b ≠ '<' := by
      by_cases hc : Ascii c
      · obtain ⟨b, hb, hchar, -⟩ := @asBytes_ascii c cs hc
        refine ⟨b, _, hb, fun he => ?_⟩
        rw [hchar] at he
        subst he
        cases h '<' rfl
      · obtain ⟨b, bs, hb, hwide, -⟩ := @asBytes_wide c cs hc
        exact ⟨b, bs, hb, fun he => hwide (he ▸ by decide)⟩
    rw [hb, skipBracket, if_neg hne]

/-- The loop behind a word finds nothing: the word has taken the bracket. -/
theorem lexWord_agrees :
    Agrees start cs ((lexWord (asBytes cs)).map fun (t, rest) => (some t, rest))
      (Lex.scanWord cs) := by
  have hascii : ∀ x ∈ cs.takeWhile Lex.isWordChar, Ascii x :=
    takeWhile_ascii fun _ => isWordChar_ascii
  have hslice := @slice_asBytes _ (cs.dropWhile Lex.isWordChar) hascii
  rw [List.takeWhile_append_dropWhile] at hslice
  have hstop : ∀ x ∈ (cs.dropWhile Lex.isWordChar).head?, Lex.isWordChar x = false := by
    intro x hx
    have hnot := List.head?_dropWhile_not Lex.isWordChar cs
    rw [Option.mem_def.mp hx] at hnot
    simpa using hnot
  rw [lexWord, skip_asBytes fun _ => isWordChar_ascii, skipBracket_asBytes hstop, hslice]
  exact ⟨rfl, cs.takeWhile Lex.isWordChar, hascii,
    List.takeWhile_append_dropWhile.symm⟩

theorem Consumes.one (h : Ascii c) : Consumes (c :: cs) cs :=
  ⟨[c], by simpa using h, rfl⟩

theorem scan_agrees_ascii {b : UInt8} (h : Ascii c) (hb : asBytes (c :: cs) = b :: asBytes cs)
    (hchar : asChar b = c) : Agrees start (c :: cs) (scan start b (asBytes cs)) (Lex.scan c cs) := by
  simp only [scan, Lex.scan, hchar]
  split
  · exact ⟨rfl, .one h⟩
  split
  · exact ⟨rfl, .one h⟩
  split
  · exact lexRef_agrees (.one h)
  by_cases hdash : c = '-'
  · subst hdash
    rw [if_pos (.inl rfl), if_pos rfl, ← hb]
    exact @lexNumber_agrees cs start true (by simp)
  by_cases hdigit : c.isDigit = true
  · rw [if_pos (.inr hdigit), if_neg hdash, if_pos hdigit, ← hb]
    exact @lexNumber_agrees (c :: cs) start false (by simpa using hdash)
  rw [if_neg (by simp [hdash, hdigit]), if_neg hdash, if_neg hdigit]
  split
  · rw [← hb]
    exact lexWord_agrees
  split
  · exact ⟨rfl, .one h⟩
  · rfl

/-- A character beyond ASCII is an error to both. -/
theorem scan_agrees_wide {b : UInt8} {bs : List UInt8} (h : ¬ Ascii c) (hb : ¬ Ascii (asChar b)) :
    Agrees start (c :: cs) (scan start b bs) (Lex.scan c cs) := by
  have hne : ∀ d, Ascii d → c ≠ d ∧ asChar b ≠ d := by
    rintro d hd
    exact ⟨fun he => h (he ▸ hd), fun he => hb (he ▸ hd)⟩
  have hnot : ∀ p : Char → Bool, (∀ x, p x = true → Ascii x) → ¬ p c = true ∧ ¬ p (asChar b) = true :=
    fun p hp => ⟨fun ht => h (hp _ ht), fun ht => hb (hp _ ht)⟩
  obtain ⟨hdc, hdb⟩ := hnot Char.isDigit fun _ => isDigit_ascii
  obtain ⟨hwc, hwb⟩ := hnot Lex.isWordStart fun _ ht => isWordChar_ascii (Lex.isWordChar_of_start ht)
  obtain ⟨hsc, hsb⟩ := hnot Lex.isSymbol fun _ => isSymbol_ascii
  simp only [scan, Lex.scan, hne '\n' (by decide), hne ' ' (by decide), hne '\t' (by decide),
    hne '\r' (by decide), hne '%' (by decide), hne '-' (by decide), hdc, hdb, hwc, hwb, hsc, hsb,
    or_self, ↓reduceIte, Bool.false_eq_true]
  rfl

theorem scan_agrees {b : UInt8} {bs : List UInt8} (h : asBytes (c :: cs) = b :: bs) :
    Agrees start (c :: cs) (scan start b bs) (Lex.scan c cs) := by
  by_cases hc : Ascii c
  · obtain ⟨b', hb, hchar, -⟩ := @asBytes_ascii c cs hc
    obtain ⟨rfl, rfl⟩ := List.cons_eq_cons.mp (hb.symm.trans h)
    exact scan_agrees_ascii hc hb hchar
  · obtain ⟨b', bs', hb, hwide, -⟩ := @asBytes_wide c cs hc
    obtain ⟨rfl, rfl⟩ := List.cons_eq_cons.mp (hb.symm.trans h)
    exact scan_agrees_wide hc hwide

theorem Consumes.length {src : List Char} (h : Consumes src rest) : ∃ n,
    src.length = n + rest.length ∧ (asBytes src).length = n + (asBytes rest).length := by
  obtain ⟨pre, hpre, rfl⟩ := h
  exact ⟨pre.length, List.length_append, length_asBytes hpre⟩

/-- The offsets count the same: what was read is ASCII. -/
theorem Consumes.offset {bs : List UInt8} {b : UInt8} (h : Consumes (c :: cs) rest)
    (hb : asBytes (c :: cs) = b :: bs) (hle : rest.length ≤ cs.length) :
    bs.length + 1 - (asBytes rest).length = cs.length + 1 - rest.length ∧
      (asBytes rest).length ≤ bs.length := by
  obtain ⟨n, hcs, hbs⟩ := h.length
  rw [hb] at hbs
  simp only [List.length_cons] at hcs hbs
  omega

theorem lexFrom_eq (cs : List Char) : ∀ fuel fuel' i, (asBytes cs).length ≤ fuel →
    cs.length ≤ fuel' →
    lexFrom fuel i (asBytes cs) = (Lex.lexFrom fuel' i cs).mapError .error := by
  induction hn : cs.length using Nat.strong_induction_on generalizing cs with
  | _ n ih =>
    rintro fuel fuel' i hfuel hfuel'
    cases cs with
    | nil => cases fuel <;> cases fuel' <;> rfl
    | cons c cs =>
      obtain ⟨b, bs, hb⟩ : ∃ b bs, asBytes (c :: cs) = b :: bs := by
        by_cases hc : Ascii c
        · obtain ⟨b, hb, -, -⟩ := @asBytes_ascii c cs hc
          exact ⟨b, _, hb⟩
        · obtain ⟨b, bs, hb, -, -⟩ := @asBytes_wide c cs hc
          exact ⟨b, bs, hb⟩
      rw [hb] at hfuel ⊢
      obtain ⟨fuel, rfl⟩ := Nat.exists_eq_add_one_of_ne_zero (Nat.ne_of_gt (Nat.lt_of_lt_of_le
        (Nat.succ_pos _) hfuel))
      obtain ⟨fuel', rfl⟩ := Nat.exists_eq_add_one_of_ne_zero (Nat.ne_of_gt (Nat.lt_of_lt_of_le
        (Nat.succ_pos _) (hn.le.trans hfuel')))
      rw [List.length_cons] at hn hfuel
      have hscan := @scan_agrees c cs i b bs hb
      simp only [lexFrom, Lex.lexFrom]
      cases hs : Lex.scan c cs with
      | failed e =>
        rw [hs] at hscan
        rw [show scan i b bs = .error (.error (e i)) from hscan]
        rfl
      | blank rest =>
        rw [hs] at hscan
        have hle : rest.length ≤ cs.length := (congrArg List.length (Lex.scan_blank hs)).le
        obtain ⟨hoff, hlen⟩ := hscan.2.offset hb hle
        have hrest := ih rest.length (by omega) rest rfl fuel fuel'
          (i + (cs.length + 1 - rest.length)) (by omega) (by omega)
        rw [hscan.1]
        simp only [bind, Except.bind, hoff, hrest]
        cases Lex.lexFrom fuel' (i + (cs.length + 1 - rest.length)) rest <;> rfl
      | token t rest =>
        rw [hs] at hscan
        have hle := Lex.scan_token hs
        obtain ⟨hoff, hlen⟩ := hscan.2.offset hb hle
        have hrest := ih rest.length (by omega) rest rfl fuel fuel'
          (i + (cs.length + 1 - rest.length)) (by omega) (by omega)
        rw [hscan.1]
        simp only [bind, Except.bind, hoff, hrest]
        cases Lex.lexFrom fuel' (i + (cs.length + 1 - rest.length)) rest <;> rfl

end Bytes

/-- No slice panics: the bytes have the tokens, or the error, of the
characters. -/
theorem lexBytes_eq (src : List Char) : lexBytes src = (lex src).mapError .error :=
  Bytes.lexFrom_eq src _ _ 0 le_rfl le_rfl

end Sxla
