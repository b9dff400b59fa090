/-
One is the unit of doubles.

A double is multiplied by one in four steps: both factors are unpacked into mantissa and exponent,
mantissas multiply and exponents add, the product is rounded, and the result is packed again.  The
mantissa of one is `2 ^ 52`, so the product has fifty-two bits too many, all of them zero, and
rounding takes off exactly these.

* `componentsOf_unpack` : what the bits of a double stand for, in five cases,
* `ComponentsOf.pack_eq` : packing gives the bits back,
* `ComponentsOf.isRounded` : and what the bits stand for has the exponent that rounding aims at,
* `mul_one_of_isRounded` : rounding takes off what one has added,
* `double_mul_one` : a double times one is that double, with all its bits.
-/
import Mathlib.Algebra.Order.Ring.Nat

namespace QuantityCalculus

open Float.Model (Format UnpackedFloat totalExponent)
open Float.Model.UnpackedFloat

/-! ### The bits of a double -/

/-- Sign, exponent bits and mantissa bits of an unpacked double. -/
inductive ComponentsOf (s : Sign) : BitVec 11 → BitVec 52 → UnpackedFloat → Prop
  | infinity : ComponentsOf s (-1#11) 0#52 (.infinity s)
  | nan {m : BitVec 52} (hm : m ≠ 0#52) : ComponentsOf s (-1#11) m .notANumber
  | zero : ComponentsOf s 0#11 0#52 (.zero s)
  | subnormal {m : BitVec 52} (hm : 0 < m.toNat) :
      ComponentsOf s 0#11 m (.finite s m.toNat (-1074) hm)
  | normal {e : BitVec 11} {m : BitVec 52} (hones : e ≠ -1#11) (hzero : e ≠ 0#11)
      (hm : 0 < 2 ^ 52 + m.toNat) :
      ComponentsOf s e m (.finite s (2 ^ 52 + m.toNat) (e.toNat - 1075) hm)

theorem toNat_implicit (m : BitVec 52) : (1#1 ++ m).toNat = 2 ^ 52 + m.toNat := by
  rw [BitVec.toNat_append, ← Nat.shiftLeft_add_eq_or_of_lt m.isLt]
  rfl

/-- Every bit pattern unpacks to one of the kinds of doubles. -/
theorem componentsOf_unpack (b : BitVec Format.binary64.numBits) :
    ComponentsOf (.ofBitVec (unpackSign b)) (unpackExponent b) (unpackMantissa b)
      (unpack .binary64 b) := by
  -- the exponent tells the kinds apart: all ones, zero, or a leading bit that is not stored
  by_cases hones : unpackExponent b = -1#11
  · by_cases hm : unpackMantissa b = 0#52
    · have hunpack : unpack .binary64 b = .infinity (.ofBitVec (unpackSign b)) :=
        (if_pos hones).trans (if_pos hm)
      rw [hunpack, hones, hm]
      exact .infinity
    · have hunpack : unpack .binary64 b = .notANumber := (if_pos hones).trans (if_neg hm)
      rw [hunpack, hones]
      exact .nan hm
  · by_cases hzero : unpackExponent b = 0#11
    · by_cases hm : unpackMantissa b = 0#52
      · have hunpack : unpack .binary64 b = .zero (.ofBitVec (unpackSign b)) :=
          (if_neg hones).trans ((if_pos hzero).trans (dif_pos hm))
        rw [hunpack, hzero, hm]
        exact .zero
      · have hpos : 0 < (unpackMantissa b).toNat := BitVec.toNat_pos_of_ne_zero hm
        have hexponent : ((unpackExponent b).toNat : Int) - ((1023 : Nat) + (52 : Nat)) + 1 =
            -1074 := by
          rw [hzero]
          rfl
        have hunpack : unpack .binary64 b =
            .finite (.ofBitVec (unpackSign b)) (unpackMantissa b).toNat (-1074) hpos :=
          (if_neg hones).trans ((if_pos hzero).trans ((dif_neg hm).trans
            (UnpackedFloat.finite.injEq .. ▸ ⟨rfl, rfl, hexponent⟩)))
        rw [hunpack, hzero]
        exact .subnormal hpos
    · have hpos : 0 < 2 ^ 52 + (unpackMantissa b).toNat := by omega
      have hunpack : unpack .binary64 b =
          .finite (.ofBitVec (unpackSign b)) (2 ^ 52 + (unpackMantissa b).toNat)
            ((unpackExponent b).toNat - 1075) hpos :=
        (if_neg hones).trans ((if_neg hzero).trans
          (UnpackedFloat.finite.injEq .. ▸ ⟨rfl, toNat_implicit _, rfl⟩))
      rw [hunpack]
      exact .normal hones hzero hpos

/-- The components of a double make up all its bits. -/
theorem packComponents_unpack (b : BitVec Format.binary64.numBits) :
    packComponents .binary64 (.ofBitVec (unpackSign b)) (unpackExponent b) (unpackMantissa b) =
      b := by
  have hsign (v : BitVec 1) : (Sign.ofBitVec v).toBitVec = v := by
    revert v
    decide
  have hhigh : b.extractLsb' 63 1 ++ b.extractLsb' 52 11 = b.extractLsb' 52 12 :=
    BitVec.extractLsb'_append_extractLsb'_eq_extractLsb' rfl
  have hall : b.extractLsb' 52 12 ++ b.extractLsb' 0 52 = b.extractLsb' 0 64 :=
    BitVec.extractLsb'_append_extractLsb'_eq_extractLsb' rfl
  rw [packComponents, hsign]
  show (b.extractLsb' 63 1 ++ b.extractLsb' 52 11) ++ b.extractLsb' 0 52 = b
  rw [hhigh, hall]
  exact BitVec.extractLsb'_eq_self

/-! ### Packing -/

theorem log2_subnormal {m : BitVec 52} (hm : 0 < m.toNat) : m.toNat.log2 < 52 :=
  (Nat.log2_lt (Nat.ne_of_gt hm)).mpr m.isLt

/-- A normal significand has fifty-three bits. -/
theorem log2_normal (m : BitVec 52) : (2 ^ 52 + m.toNat).log2 = 52 := by
  have hlt := m.isLt
  rw [Nat.log2_eq_iff (by omega)]
  omega

/-- The conditions under which a finite double is packed, with the numbers of its format. -/
theorem pack_finite (s : Sign) {n : Nat} {e : Int} (hn : 0 < n) :
    pack .binary64 (.finite s n e hn) =
      if 2048 ≤ (e + 1075).toNat + 1 then packedInfinity .binary64 s
      else if n.log2 + 1 = 53 then
        packComponents .binary64 s (BitVec.ofNat 11 (e + 1075).toNat) (BitVec.ofNat 52 n)
      else packComponents .binary64 s 0#11 (BitVec.ofNat 52 n) := by
  have hbias : e + 1075 = e + (1023 : Nat) + (52 : Nat) := by omega
  rw [hbias]
  rfl

/-- A double packs to the fields it was unpacked from, provided that what is not a number came from
the one word that packing makes of it. -/
theorem ComponentsOf.pack_eq {s : Sign} {e : BitVec 11} {m : BitVec 52} {u : UnpackedFloat}
    (h : ComponentsOf s e m u)
    (hnan : e = -1#11 → m ≠ 0#52 → packComponents .binary64 s e m = packedNaN .binary64) :
    pack .binary64 u = packComponents .binary64 s e m := by
  cases h with
  | infinity => rfl
  | nan hm => exact (hnan rfl hm).symm
  | zero => rfl
  | subnormal hm =>
    have hlog := log2_subnormal hm
    rw [pack_finite, if_neg (by decide), if_neg (by omega), BitVec.ofNat_toNat,
      BitVec.setWidth_eq]
  | normal hones hzero hm =>
    have hmax : e.toNat ≠ 2047 := fun h => hones (BitVec.eq_of_toNat_eq h)
    have hlt := e.isLt
    have hbiased : ((e.toNat : Int) - 1075 + 1075).toNat = e.toNat := by omega
    have hmantissa : BitVec.ofNat 52 (2 ^ 52 + m.toNat) = m := by
      refine BitVec.eq_of_toNat_eq ?_
      rw [BitVec.toNat_ofNat, Nat.add_mod_left, Nat.mod_eq_of_lt m.isLt]
    rw [pack_finite, hbiased, if_neg (by omega), log2_normal, if_pos rfl, hmantissa,
      BitVec.ofNat_toNat, BitVec.setWidth_eq]

/-- Packing inverts unpacking: the one pattern of bits that is not a number is kept as well. -/
theorem pack_unpack (x : Float.Model) : Float.Model.pack x.unpack = x := by
  obtain ⟨bits, hvalid⟩ := x
  have hcomponents := packComponents_unpack bits.toBitVec
  have hpack : pack .binary64 (unpack .binary64 bits.toBitVec) = bits.toBitVec := by
    rw [(componentsOf_unpack bits.toBitVec).pack_eq ?_, hcomponents]
    intro he hm
    rw [hcomponents]
    exact hvalid.eq_packedNaN he hm
  rw [Float.Model.pack, Float.Model.mk.injEq]
  exact UInt64.eq_of_toBitVec_eq hpack

/-! ### Rounding -/

/-- The exponent is the one that rounding aims at, if there is one. -/
def IsRounded : UnpackedFloat → Prop
  | .finite _ m e _ => Format.binary64.targetExponent (totalExponent m e) = e
  | _ => True

theorem targetExponent_eq (n : Nat) (e : Int) :
    Format.binary64.targetExponent (totalExponent n e) = max (n.log2 + 1 + e - 53) (-1074) := rfl

/-- What unpacking gives needs no more rounding. -/
theorem ComponentsOf.isRounded {s : Sign} {e : BitVec 11} {m : BitVec 52} {u : UnpackedFloat}
    (h : ComponentsOf s e m u) : IsRounded u := by
  cases h with
  | infinity => trivial
  | nan hm => trivial
  | zero => trivial
  | subnormal hm =>
    have hlog := log2_subnormal hm
    show Format.binary64.targetExponent (totalExponent _ (-1074)) = -1074
    rw [targetExponent_eq]
    omega
  | normal hones hzero hm =>
    have hpos := BitVec.toNat_pos_of_ne_zero hzero
    show Format.binary64.targetExponent (totalExponent _ (e.toNat - 1075)) = e.toNat - 1075
    rw [targetExponent_eq, log2_normal]
    omega

theorem log2_mul_two_pow {n : Nat} (hn : n ≠ 0) (k : Nat) : (n * 2 ^ k).log2 = n.log2 + k := by
  induction k with
  | zero => rw [Nat.pow_zero, Nat.mul_one, Nat.add_zero]
  | succ k ih =>
    have hpow : n * 2 ^ (k + 1) = 2 * (n * 2 ^ k) := by
      rw [Nat.pow_succ, ← Nat.mul_assoc, Nat.mul_comm]
    have hne : n * 2 ^ k ≠ 0 := Nat.mul_ne_zero hn (Nat.ne_of_gt (Nat.two_pow_pos k))
    rw [hpow, Nat.log2_two_mul hne, ih, Nat.add_assoc]

theorem shiftRight_zeros (n k : Nat) :
    (⟨n * 2 ^ k, false, false⟩ : ExtendedMantissa) >>> k = ⟨n, false, false⟩ := by
  induction k generalizing n with
  | zero => rw [Nat.pow_zero, Nat.mul_one]; rfl
  | succ k ih =>
    have hpow : n * 2 ^ (k + 1) = n * 2 * 2 ^ k := by
      rw [Nat.pow_succ, Nat.mul_comm (2 ^ k), Nat.mul_assoc]
    show ExtendedMantissa.shiftRightOne
      ((⟨n * 2 ^ (k + 1), false, false⟩ : ExtendedMantissa) >>> k) = _
    rw [hpow, ih, ExtendedMantissa.shiftRightOne, Nat.mul_div_cancel n (by decide),
      Nat.mul_mod_left]
    rfl

/-- Shifting takes off zero bits down to the exponent that is aimed at. -/
theorem shiftToTargetExponent_zeros {n k : Nat} {e : Int} (hn : 0 < n)
    (he : Format.binary64.targetExponent (totalExponent n e) = e) :
    shiftToTargetExponent .binary64 (n * 2 ^ k) (e - k) .exact = (⟨n, false, false⟩, e) := by
  have hlog : (n * 2 ^ k).log2 = n.log2 + k := log2_mul_two_pow (Nat.ne_of_gt hn) k
  have htotal : totalExponent (n * 2 ^ k) (e - k) = totalExponent n e := by
    rw [totalExponent, totalExponent, hlog]
    omega
  have hshift : (e - (e - k)).toNat = k := by omega
  have hexponent : e - k + k = e := by omega
  rw [shiftToTargetExponent, htotal, he, shiftToExponent, hshift, hexponent]
  exact congrArg (·, e) (shiftRight_zeros n k)

/-- Rounding takes off the zeros behind a significand that fits. -/
theorem roundWithAccuracy_zeros (s : Sign) {n : Nat} {e : Int} (k : Nat) (hn : 0 < n)
    (he : Format.binary64.targetExponent (totalExponent n e) = e) :
    roundWithAccuracy .binary64 s (n * 2 ^ k) (e - k) .exact = .finite s n e hn := by
  have hagain := shiftToTargetExponent_zeros (k := 0) hn he
  rw [Nat.pow_zero, Nat.mul_one, Int.natCast_zero, Int.sub_zero] at hagain
  have hrounded : (⟨n, false, false⟩ : ExtendedMantissa).roundedMantissa = n := rfl
  rw [roundWithAccuracy, shiftToTargetExponent_zeros hn he]
  dsimp only
  rw [hrounded, hagain]
  exact dif_neg (Nat.ne_of_gt hn)

/-! ### Multiplying by one -/

theorem unpack_one :
    (1.0 : Float).toModel.unpack = .finite .positive (2 ^ 52) (-52) (by decide) := rfl

/-- A product with one is the other factor, if that one needs no more rounding. -/
theorem mul_one_of_isRounded {u : UnpackedFloat} (h : IsRounded u) :
    mul .binary64 u (.finite .positive (2 ^ 52) (-52) (by decide)) = u := by
  have hsign (s : Sign) : s * .positive = s := by cases s <;> rfl
  cases u with
  | infinity s => exact congrArg UnpackedFloat.infinity (hsign s)
  | notANumber => rfl
  | zero s => exact congrArg UnpackedFloat.zero (hsign s)
  | finite s n e hn =>
    show roundWithAccuracy .binary64 (s * .positive) (n * 2 ^ 52) (e - 52) .exact = _
    rw [hsign]
    exact roundWithAccuracy_zeros s 52 hn h

/-- **One is the unit of doubles**: a double times one is that double, also if it is infinite or
not a number. -/
theorem double_mul_one (x : Float) : x * 1.0 = x := by
  have hrounded : IsRounded x.toModel.unpack := (componentsOf_unpack _).isRounded
  show Float.ofModel (Float.Model.pack (mul .binary64 x.toModel.unpack
    (1.0 : Float).toModel.unpack)) = x
  rw [unpack_one, mul_one_of_isRounded hrounded, pack_unpack]

end QuantityCalculus
