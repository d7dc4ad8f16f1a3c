import Sxla.Ir.Hash
import Sxla.Library.Blocks

/-!
# Cache keys

The key of a kernel is the hash of the fingerprint, the dims of the
parameter shapes and the tier, eight bytes each. Nothing marks where one
shape ends and the next begins, so the dims of all shapes count as one list.
-/

namespace Sxla.Jit

open Blocks

inductive Tier where
  | tier0
  | tier1
  | tier2
  | tier3
deriving DecidableEq, Repr

def Tier.code : Tier → UInt64
  | .tier0 => 0
  | .tier1 => 1
  | .tier2 => 2
  | .tier3 => 3

def writeShape (h : Fnv64) (s : Shape) : Fnv64 :=
  s.dims.foldl (fun h d => h.writeI64 (.ofNat d)) h

def cacheKey (fingerprint : UInt64) (paramShapes : List Shape) (tier : Tier) : UInt64 :=
  ((paramShapes.foldl writeShape (Fnv64.new.writeU64 fingerprint)).writeU64 tier.code).finish

-- ---------------------------------------------------------------------------
-- The bytes behind a key
-- ---------------------------------------------------------------------------

def dimWord (d : Nat) : UInt64 := (Int64.ofNat d).toUInt64

/-- The words that `cacheKey` writes, in order. -/
def keyWords (fingerprint : UInt64) (paramShapes : List Shape) (tier : Tier) : List UInt64 :=
  fingerprint :: ((paramShapes.flatMap Shape.dims).map dimWord ++ [tier.code])

def keyBytes (fingerprint : UInt64) (paramShapes : List Shape) (tier : Tier) : List UInt8 :=
  (keyWords fingerprint paramShapes tier).flatMap fun w => littleEndian 8 w.toNat

variable {fingerprint fingerprint' : UInt64} {shapes shapes' : List Shape} {tier tier' : Tier}

theorem foldl_writeU64 (h : Fnv64) (words : List UInt64) :
    words.foldl Fnv64.writeU64 h =
      (words.flatMap fun w => littleEndian 8 w.toNat).foldl Fnv64.writeByte h :=
  Fnv64.foldl_write (fun h w => h.writeLe_eq 8 w.toNat) h words

theorem foldl_writeShape (h : Fnv64) :
    shapes.foldl writeShape h =
      ((shapes.flatMap Shape.dims).map dimWord).foldl Fnv64.writeU64 h := by
  induction shapes generalizing h with
  | nil => rfl
  | cons s shapes ih =>
    rw [List.foldl_cons, ih, List.flatMap_cons, List.map_append, List.foldl_append]
    congr 1
    rw [writeShape, List.foldl_map]
    rfl

/-- The key is the hash of these bytes. -/
theorem cacheKey_eq : cacheKey fingerprint shapes tier =
    ((keyBytes fingerprint shapes tier).foldl Fnv64.writeByte .new).finish := by
  rw [cacheKey, keyBytes, ← foldl_writeU64, keyWords, List.foldl_cons, List.foldl_append,
    List.foldl_cons, List.foldl_nil, foldl_writeShape]

theorem Tier.code_inj (h : tier.code = tier'.code) : tier = tier' := by
  cases tier <;> cases tier' <;> first | rfl | exact absurd h (by decide)

theorem dimWord_inj {d e : Nat} (hd : d < 0x8000000000000000) (he : e < 0x8000000000000000)
    (h : dimWord d = dimWord e) : d = e := by
  have hint : (Int64.ofNat d).toInt = (Int64.ofNat e).toInt :=
    congrArg (fun w : UInt64 => w.toInt64.toInt) h
  rw [Int64.toInt_ofNat_of_lt hd, Int64.toInt_ofNat_of_lt he] at hint
  exact Int.ofNat_inj.mp hint

theorem word_inj {w w' : UInt64} (h : littleEndian 8 w.toNat = littleEndian 8 w'.toNat) :
    w = w' := by
  have hword : ∀ w : UInt64, w.toNat < 256 ^ 8 := fun w => w.toNat_lt
  have hmod := mod_eq_of_littleEndian h
  rw [Nat.mod_eq_of_lt (hword w), Nat.mod_eq_of_lt (hword w')] at hmod
  exact UInt64.toNat_inj.mp hmod

theorem mem_dims_lt {d : Nat} (h : d ∈ shapes.flatMap Shape.dims) : d < 0x8000000000000000 := by
  obtain ⟨s, _, hd⟩ := List.mem_flatMap.mp h
  exact s.dims_lt d hd

/-- The bytes tell the fingerprint, the dims of all shapes in a row and the
tier, and nothing more. -/
theorem keyBytes_eq_iff :
    keyBytes fingerprint shapes tier = keyBytes fingerprint' shapes' tier' ↔
      fingerprint = fingerprint' ∧
        shapes.flatMap Shape.dims = shapes'.flatMap Shape.dims ∧ tier = tier' := by
  constructor
  · intro h
    have hwords := flatMap_injOn (fun w : UInt64 => length_littleEndian 8 w.toNat) (by decide)
      (fun _ _ _ _ => word_inj) h
    obtain ⟨hfp, hrest⟩ := List.cons.inj hwords
    obtain ⟨hdims, htier⟩ := List.append_inj' hrest rfl
    refine ⟨hfp, ?_, Tier.code_inj (List.cons.inj htier).1⟩
    have hlen := congrArg List.length hdims
    rw [List.length_map, List.length_map] at hlen
    refine List.ext_getElem hlen fun i hi hi' => ?_
    have hword := congrArg (·[i]?) hdims
    simp only [List.getElem?_map, List.getElem?_eq_getElem hi, List.getElem?_eq_getElem hi',
      Option.map_some, Option.some.injEq] at hword
    exact dimWord_inj (mem_dims_lt (List.getElem_mem hi)) (mem_dims_lt (List.getElem_mem hi')) hword
  · rintro ⟨rfl, hdims, rfl⟩
    rw [keyBytes, keyBytes, keyWords, keyWords, hdims]

/-- The dims in a row are cut by the ranks. -/
theorem shapes_eq (hdims : shapes.flatMap Shape.dims = shapes'.flatMap Shape.dims)
    (hranks : shapes.map Shape.rank = shapes'.map Shape.rank) : shapes = shapes' := by
  induction shapes generalizing shapes' with
  | nil =>
    cases shapes' with
    | nil => rfl
    | cons s shapes' => cases hranks
  | cons s shapes ih =>
    cases shapes' with
    | nil => cases hranks
    | cons s' shapes' =>
      obtain ⟨hrank, hranks⟩ := List.cons.inj hranks
      rw [List.flatMap_cons, List.flatMap_cons] at hdims
      obtain ⟨hs, hdims⟩ := List.append_inj hdims hrank
      rw [Shape.eq_of_dims hs, ih hdims hranks]

/-- Equal bytes are of equal triples, unless one list of dims is cut into
different ranks. -/
theorem keyBytes_separate_iff (fingerprint fingerprint' : UInt64) (shapes shapes' : List Shape)
    (tier tier' : Tier) :
    (keyBytes fingerprint shapes tier = keyBytes fingerprint' shapes' tier' →
      fingerprint = fingerprint' ∧ shapes = shapes' ∧ tier = tier') ↔
    ¬ (fingerprint = fingerprint' ∧ tier = tier' ∧
      shapes.flatMap Shape.dims = shapes'.flatMap Shape.dims ∧
      shapes.map Shape.rank ≠ shapes'.map Shape.rank) := by
  rw [keyBytes_eq_iff]
  constructor
  · rintro h ⟨hfp, htier, hdims, hranks⟩
    exact hranks (congrArg (List.map Shape.rank) (h ⟨hfp, hdims, htier⟩).2.1)
  · rintro h ⟨hfp, hdims, htier⟩
    refine ⟨hfp, shapes_eq hdims ?_, htier⟩
    by_contra hranks
    exact h ⟨hfp, htier, hdims, hranks⟩

def threeByFour : Shape := ⟨[3, 4], by decide, by decide, by decide⟩

def vector (d : Nat) (h : 0 < d ∧ d < 0x8000000000000000) : Shape :=
  ⟨[d], by simp [MAX_RANK], by simpa using h.1, by simpa using h.2⟩

/-- One matrix and two vectors with its dims. -/
theorem matrix_vectors_not_separate :
    ¬ ∀ fingerprint fingerprint' shapes shapes' tier tier',
      keyBytes fingerprint shapes tier = keyBytes fingerprint' shapes' tier' →
      fingerprint = fingerprint' ∧ shapes = shapes' ∧ tier = tier' := by
  intro hall
  have heq := (hall 7 7 [threeByFour] [vector 3 (by decide), vector 4 (by decide)] .tier1 .tier1
    (keyBytes_eq_iff.mpr ⟨rfl, rfl, rfl⟩)).2.1
  exact absurd (congrArg List.length heq) (by decide)

end Sxla.Jit
