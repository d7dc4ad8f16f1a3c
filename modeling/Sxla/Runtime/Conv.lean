import Mathlib.Algebra.Order.Floor.Div
import Sxla.Runtime.Reduce

/-!
# The convolution kernel

NCHW input, FCHW filter. An output entry is the sum over the taps that fall
inside the input, channel by channel and row by row; the rest of the window
lies in the padding. `conv_spec` says so of every result of the kernel.
-/

namespace Sxla

open Checked RowMajor Interp

variable {table table' : List Value} {xa xb : List F64} {sa sb : Shape} {padding : Padding}
  {stride : UInt8} {step dst a b n c h w f kh kw oh ow top left bn bf oy ox : Nat}

/-- The extent of the output along one axis. -/
def outExtent (padding : Padding) (step extent kernel : Nat) : Nat :=
  match padding with
  | .valid => (extent - kernel) / step + 1
  | .same => extent ⌈/⌉ step

/-- The padding in front of one axis: half of all padding, rounded down. -/
def padBefore (padding : Padding) (step extent kernel : Nat) : Nat :=
  match padding with
  | .valid => 0
  | .same => ((outExtent .same step extent kernel - 1) * step + kernel - extent) / 2

/-- The taps of the filter in loop order. -/
def taps (c kh kw : Nat) : List (Nat × Nat × Nat) :=
  (List.range c).flatMap fun cc => (List.range kh).flatMap fun ky =>
    (List.range kw).map fun kx => (cc, ky, kx)

/-- Where a window sits: its output place, its step and the padding. -/
structure Window where
  bn : Nat
  bf : Nat
  oy : Nat
  ox : Nat
  step : Nat
  top : Nat
  left : Nat

namespace Window

variable (win : Window)

/-- The tap's row and column, counted from the padding's edge. -/
def row (ky : Nat) : Nat := win.oy * win.step + ky

def col (kx : Nat) : Nat := win.ox * win.step + kx

/-- The tap falls inside the input. -/
def Inside (h w ky kx : Nat) : Prop :=
  (win.top ≤ win.row ky ∧ win.row ky < win.top + h) ∧
    win.left ≤ win.col kx ∧ win.col kx < win.left + w

instance : Decidable (Inside win h w ky kx) := inferInstanceAs (Decidable (_ ∧ _))

/-- The place of the input entry under a tap. -/
def inputPlace (n c h w cc ky kx : Nat) : Nat :=
  offset [n, c, h, w] [win.bn, cc, win.row ky - win.top, win.col kx - win.left]

def filterPlace (f c kh kw cc ky kx : Nat) : Nat := offset [f, c, kh, kw] [win.bf, cc, ky, kx]

/-- The sum of input times filter over the taps inside, in loop order. -/
def entry (xa xb : List F64) (n c h w f kh kw : Nat) : F64 :=
  ((taps c kh kw).filter fun t => win.Inside h w t.2.1 t.2.2).foldl
    (fun acc t => acc.add
      ((xa.getD (win.inputPlace n c h w t.1 t.2.1 t.2.2) (.zero false)).mul
        (xb.getD (win.filterPlace f c kh kw t.1 t.2.1 t.2.2) (.zero false))))
    (.zero false)

end Window

/-- A result of the convolution of `xa` with `xb`. -/
structure IsConvolution (padding : Padding) (step : Nat) (xa xb : List F64)
    (n c h w f kh kw : Nat) (out : List F64) (s : Shape) : Prop where
  fits : padding = .valid → kh ≤ h ∧ kw ≤ w
  dims_eq : s.dims = [n, f, outExtent padding step h kh, outExtent padding step w kw]
  length_eq : out.length = s.dims.prod
  entry : ∀ bn < n, ∀ bf < f, ∀ oy < outExtent padding step h kh, ∀ ox < outExtent padding step w kw,
    let win : Window := ⟨bn, bf, oy, ox, step, padBefore padding step h kh, padBefore padding step w kw⟩
    out[offset s.dims [bn, bf, oy, ox]]? = some (win.entry xa xb n c h w f kh kw) ∧
      ∀ cc < c, ∀ ky < kh, ∀ kx < kw, win.Inside h w ky kx →
        win.inputPlace n c h w cc ky kx < xa.length ∧ win.filterPlace f c kh kw cc ky kx < xb.length

-- ---------------------------------------------------------------------------
-- One output entry
-- ---------------------------------------------------------------------------

namespace Interp

/-- The loops over the taps. -/
def tapLoops (xa xb : List F64) (c h w kh kw : Nat) (win : Window) : Run F64 :=
  forRange c (F64.zero false) fun cc acc =>
    forRange kh acc fun ky acc =>
      forRange kw acc fun kx acc =>
        if win.row ky < win.top ∨ win.row ky - win.top ≥ h ∨
            win.col kx < win.left ∨ win.col kx - win.left ≥ w then
          return acc
        else do
          let iv ← index xa (((win.bn * c + cc) * h + (win.row ky - win.top)) * w + (win.col kx - win.left))
          let wv ← index xb (((win.bf * c + cc) * kh + ky) * kw + kx)
          return acc.add (iv.mul wv)

theorem offset_four (d i j k l : Nat) :
    offset [d, c, h, w] [i, j, k, l] = ((i * c + j) * h + k) * w + l := by
  simp only [offset, List.prod_cons, List.prod_nil]
  ring

theorem places_lt {win : Window} (hbn : win.bn < n) (hbf : win.bf < f) (hcc : cc < c)
    (hky : ky < kh) (hkx : kx < kw) (hin : win.Inside h w ky kx) :
    win.inputPlace n c h w cc ky kx < n * c * h * w ∧
      win.filterPlace f c kh kw cc ky kx < f * c * kh * kw := by
  obtain ⟨⟨_, hrow⟩, _, hcol⟩ := hin
  rw [Window.inputPlace, Window.filterPlace, offset_four, offset_four]
  exact ⟨flat_lt (flat_lt (flat_lt hbn hcc) (by omega)) (by omega),
    flat_lt (flat_lt (flat_lt hbf hcc) hky) hkx⟩

theorem tapLoops_eq {win : Window} (hla : xa.length = n * c * h * w)
    (hlb : xb.length = f * c * kh * kw) (hbn : win.bn < n) (hbf : win.bf < f) :
    tapLoops xa xb c h w kh kw win = .ok (win.entry xa xb n c h w f kh kw) := by
  have hfold : win.entry xa xb n c h w f kh kw =
      (List.range c).foldl (fun acc cc => (List.range kh).foldl (fun acc ky =>
        (List.range kw).foldl (fun acc kx => if win.Inside h w ky kx then
          acc.add ((xa.getD (win.inputPlace n c h w cc ky kx) (.zero false)).mul
            (xb.getD (win.filterPlace f c kh kw cc ky kx) (.zero false))) else acc) acc) acc)
        (.zero false) := by
    rw [Window.entry, List.foldl_filter, taps, List.foldl_flatMap]
    simp only [List.foldl_flatMap, List.foldl_map, decide_eq_true_eq]
  rw [hfold]
  refine forRange_eq (fun cc hcc acc => forRange_eq (fun ky hky acc => forRange_eq
    (fun kx hkx acc => ?_) _) _) _
  by_cases hin : win.Inside h w ky kx
  · obtain ⟨hxa, hxb⟩ := places_lt (n := n) (f := f) hbn hbf hcc hky hkx hin
    have hnot : ¬ (win.row ky < win.top ∨ win.row ky - win.top ≥ h ∨
        win.col kx < win.left ∨ win.col kx - win.left ≥ w) := by
      obtain ⟨⟨htop, hrow⟩, hleft, hcol⟩ := hin
      omega
    rw [if_neg hnot, if_pos hin]
    rw [← hla, Window.inputPlace, offset_four] at hxa
    rw [← hlb, Window.filterPlace, offset_four] at hxb
    rw [index_eq hxa (.zero false), index_eq hxb (.zero false), Window.inputPlace,
      Window.filterPlace, offset_four, offset_four]
    rfl
  · have hout : win.row ky < win.top ∨ win.row ky - win.top ≥ h ∨
        win.col kx < win.left ∨ win.col kx - win.left ≥ w := by
      by_contra hno
      exact hin ⟨⟨by omega, by omega⟩, by omega, by omega⟩
    rw [if_neg hin, if_pos hout]
    rfl

-- ---------------------------------------------------------------------------
-- All output entries
-- ---------------------------------------------------------------------------

/-- The loops over the output. -/
def convLoops (xa xb : List F64) (n c h w f kh kw oh ow step top left : Nat) : Run (List F64) :=
  forRange n (List.replicate (n * f * oh * ow) (F64.zero false)) fun bn out =>
    forRange f out fun bf out =>
      forRange oh out fun oy out =>
        forRange ow out fun ox out => do
          let acc ← tapLoops xa xb c h w kh kw ⟨bn, bf, oy, ox, step, top, left⟩
          write out (((bn * f + bf) * oh + oy) * ow + ox) acc

theorem convLoops_fills (hla : xa.length = n * c * h * w) (hlb : xb.length = f * c * kh * kw) :
    Ends (fun _ => False)
      (Fills 0 [n, f, oh, ow] (fun idx => Window.entry
        ⟨idx.getD 0 0, idx.getD 1 0, idx.getD 2 0, idx.getD 3 0, step, top, left⟩ xa xb n c h w f kh kw)
        (List.replicate (n * f * oh * ow) (F64.zero false)))
      (convLoops xa xb n c h w f kh kw oh ow step top left) := by
  refine ends_fills fun bn hbn out₁ h₁ => ends_fills fun bf hbf out₂ h₂ =>
    ends_fills fun oy hoy out₃ h₃ => ends_fills fun ox hox out₄ h₄ => ?_
  change Ends _ _ (tapLoops xa xb c h w kh kw _ >>= fun acc => write out₄ _ acc)
  rw [tapLoops_eq hla hlb hbn hbf, ok_bind]
  have hlt : ((bn * f + bf) * oh + oy) * ow + ox < out₄.length := by
    rw [h₄, h₃, h₂, h₁, List.length_replicate]
    exact flat_lt (flat_lt (flat_lt hbn hbf) hoy) hox
  simpa using write_fills hlt _

theorem convAxis_eq (padding : Padding) (step extent kernel : Nat) :
    ∃ pad, convAxis padding step extent kernel = (outExtent padding step extent kernel, pad) ∧
      pad / 2 = padBefore padding step extent kernel := by
  cases padding with
  | valid => exact ⟨0, rfl, Nat.zero_div 2⟩
  | same => exact ⟨_, rfl, rfl⟩

/-- The kernel on operands with equal channel counts. -/
theorem conv_eq (ha : table[a]? = some (.tensor xa sa)) (hb : table[b]? = some (.tensor xb sb))
    (hda : sa.dims = [n, c, h, w]) (hdb : sb.dims = [f, c, kh, kw]) (hs : stride ≠ 0)
    (hoh : oh = outExtent padding stride.toNat h kh)
    (how : ow = outExtent padding stride.toNat w kw) :
    conv table dst a b padding stride =
      if padding = .valid ∧ (kh > h ∨ kw > w) then fail .shapeMismatch
      else if n = 0 ∨ f = 0 ∨ c = 0 ∨ oh = 0 ∨ ow = 0 then fail .shapeMismatch
      else (do
        let out ← convLoops xa xb n c h w f kh kw oh ow stride.toNat
          (padBefore padding stride.toNat h kh) (padBefore padding stride.toNat w kw)
        store table dst (.tensor out (← shapeOf [n, f, oh, ow]))) := by
  obtain ⟨hxa, hsa⟩ := load_tensor ha
  obtain ⟨hxb, hsb⟩ := load_tensor hb
  obtain ⟨padH, haxisH, htop⟩ := convAxis_eq padding stride.toNat h kh
  obtain ⟨padW, haxisW, hleft⟩ := convAxis_eq padding stride.toNat w kw
  unfold conv
  rw [hxa, hsa, hxb, hsb]
  simp only [ok_bind, hda, hdb]
  rw [haxisH, haxisW, if_neg (by simp [hs]), hoh, how, ← htop, ← hleft]
  rfl

end Interp

theorem conv_ends (ha : table[a]? = some (.tensor xa sa)) (hb : table[b]? = some (.tensor xb sb))
    (hta : Value.mkTensor xa sa = .ok (.tensor xa sa))
    (htb : Value.mkTensor xb sb = .ok (.tensor xb sb))
    (hva : xa.length < 0x1000000000000000) (hvb : xb.length < 0x1000000000000000)
    (hda : sa.dims = [n, c, h, w]) (hdb : sb.dims = [f, c, kh, kw]) (hs : stride ≠ 0) :
    Ends (· ≠ .panic) (fun table' => ∃ out s, table' = table.set dst (.tensor out s) ∧
        IsConvolution padding stride.toNat xa xb n c h w f kh kw out s)
      (conv table dst a b padding stride) := by
  have hla : xa.length = n * c * h * w := by
    rw [length_of_mkTensor hta hva, hda]
    simp [Nat.mul_assoc]
  have hlb : xb.length = f * c * kh * kw := by
    rw [length_of_mkTensor htb hvb, hdb]
    simp [Nat.mul_assoc]
  rw [conv_eq ha hb hda hdb hs rfl rfl]
  refine .ite (fun _ => fail_noPanic) fun hfit => .ite (fun _ => fail_noPanic) fun _ => ?_
  have hfits : padding = .valid → kh ≤ h ∧ kw ≤ w := fun hp => by
    have hno := not_and.mp hfit hp
    omega
  refine ((convLoops_fills hla hlb).mono (fun _ h => absurd h id) fun _ h => h).bind fun out hout => ?_
  refine (shapeOf_noPanic _).bind fun s hsd => ?_
  refine .ite (fun _ => ⟨out, s, rfl, hfits, hsd, ?_, ?_⟩) fun _ => fail_noPanic
  · rw [hout.length_eq, hsd]
    simp [Nat.mul_assoc]
  · intro bn hbn bf hbf oy hoy ox hox
    refine ⟨?_, fun cc hcc ky hky kx hkx hin => ?_⟩
    · have hentry := hout.entry [bn, bf, oy, ox] (.cons hbn (.cons hbf (.cons hoy (.cons hox .nil))))
      rw [Nat.zero_mul, Nat.zero_add, ← hsd] at hentry
      exact hentry
    · rw [hla, hlb]
      exact places_lt hbn hbf hcc hky hkx hin

/-- Convolution never leaves its buffers, and what it returns is the
convolution. A vector of doubles has fewer than `2 ^ 60` entries. -/
theorem conv_spec (ha : table[a]? = some (.tensor xa sa)) (hb : table[b]? = some (.tensor xb sb))
    (hta : Value.mkTensor xa sa = .ok (.tensor xa sa))
    (htb : Value.mkTensor xb sb = .ok (.tensor xb sb))
    (hva : xa.length < 0x1000000000000000) (hvb : xb.length < 0x1000000000000000)
    (hda : sa.dims = [n, c, h, w]) (hdb : sb.dims = [f, c, kh, kw]) (hs : stride ≠ 0) :
    conv table dst a b padding stride ≠ .error .panic ∧
      ∀ table', conv table dst a b padding stride = .ok table' →
        ∃ out s, table' = table.set dst (.tensor out s) ∧
          IsConvolution padding stride.toNat xa xb n c h w f kh kw out s := by
  have hends : Ends (· ≠ .panic) _ (conv table dst a b padding stride) :=
    conv_ends ha hb hta htb hva hvb hda hdb hs
  constructor
  · intro hpanic
    rw [hpanic] at hends
    exact hends rfl
  · intro table' hok
    rw [hok] at hends
    exact hends

def imageShape : Shape := ⟨[1, 1, 2, 3], by decide, by decide, by decide⟩

def filterShape : Shape := ⟨[1, 1, 2, 2], by decide, by decide, by decide⟩

/-- A filter of even size over an image, with padding on one side only. -/
theorem conv_spec_image :
    conv [.tensor (indicator 2 6) imageShape, .tensor (List.replicate 4 one) filterShape] 0 0 1 .same 1
        ≠ .error .panic ∧
      ∀ table', conv [.tensor (indicator 2 6) imageShape,
          .tensor (List.replicate 4 one) filterShape] 0 0 1 .same 1 = .ok table' →
        ∃ out s, table' = [.tensor out s, .tensor (List.replicate 4 one) filterShape] ∧
          IsConvolution .same 1 (indicator 2 6) (List.replicate 4 one) 1 1 2 3 1 2 2 out s := by
  have ha : ([.tensor (indicator 2 6) imageShape,
      .tensor (List.replicate 4 one) filterShape] : List Value)[0]? =
      some (.tensor (indicator 2 6) imageShape) := rfl
  have hb : ([.tensor (indicator 2 6) imageShape,
      .tensor (List.replicate 4 one) filterShape] : List Value)[1]? =
      some (.tensor (List.replicate 4 one) filterShape) := rfl
  have hda : imageShape.dims = [1, 1, 2, 3] := rfl
  have hdb : filterShape.dims = [1, 1, 2, 2] := rfl
  exact conv_spec ha hb rfl rfl (by decide) (by decide) hda hdb (by decide)

end Sxla
