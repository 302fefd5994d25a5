import Mathlib.Algebra.Order.Ring.Int
import RepairCorpus.Json.Value

/-!
# Finite numbers

Only finite doubles can be written as JSON numbers.  The integers of a JSON text give no other ones: an
integer of at most sixty-four bits rounds to a finite double.

Seeing this takes a bound on exponents, which is passed along the steps that turn a number into a
double.  `Moderate` is the bound that packing asks for; rounding may leave it only when it starts from
something very large.

* `Binary64.isFinite_ofFloat`: holding a finite double as bits keeps it finite.
* `Binary64.isFinite_ofInt`: **integers are finite.**
-/

namespace RepairCorpus

open Float.Model Float.Model.UnpackedFloat

/-! ## Packing -/

/-- The exponent of a number is at most that of the largest double. -/
def Moderate : UnpackedFloat → Prop
  | .zero _ => True
  | .finite _ _ e _ => e ≤ 971
  | .infinity _ => False
  | .notANumber => False

theorem Moderate.neg {x : UnpackedFloat} (h : Moderate x) : Moderate x.neg := by
  cases x with
  | infinity s => cases h
  | notANumber => cases h
  | zero s => exact h
  | finite s m e hm => exact h

/-- What is read from bits that do not stand for infinity or for no number at all. -/
theorem moderate_unpack {b : BitVec Format.binary64.numBits}
    (h : unpackExponent b ≠ -BitVec.ofNat Format.binary64.exponentBits 1) :
    Moderate (UnpackedFloat.unpack .binary64 b) := by
  have hbias : (Format.binary64.exponentBias : Int) = 1023 := rfl
  have hlt : (unpackExponent b).toNat < 2047 := by
    have hle : (unpackExponent b).toNat < 2048 := (unpackExponent b).isLt
    have hne : (unpackExponent b).toNat ≠ 2047 := fun heq => h (BitVec.eq_of_toNat_eq heq)
    omega
  have hexponent : ((unpackExponent b).toNat : Int) - (Format.binary64.exponentBias + (52 : Nat)) ≤ 971 := by
    omega
  have hsubnormal (hzero : unpackExponent b = BitVec.ofNat Format.binary64.exponentBits 0) :
      ((unpackExponent b).toNat : Int) - (Format.binary64.exponentBias + (52 : Nat)) + 1 ≤ 971 := by
    rw [hzero, hbias]
    decide
  show Moderate (if unpackExponent b = -BitVec.ofNat Format.binary64.exponentBits 1 then _
    else if unpackExponent b = BitVec.ofNat Format.binary64.exponentBits 0 then
      dite _ _ _ else .finite _ _ _ _)
  rw [if_neg h]
  by_cases hzero : unpackExponent b = BitVec.ofNat Format.binary64.exponentBits 0
  · rw [if_pos hzero]
    by_cases hmantissa : unpackMantissa b = BitVec.ofNat Format.binary64.mantissaBitsWithoutImplicit 0
    · rw [dif_pos hmantissa]
      trivial
    · rw [dif_neg hmantissa]
      exact hsubnormal hzero
  · rw [if_neg hzero]
    exact hexponent

theorem isFinite_of_moderate {x : UnpackedFloat} (h : Moderate x) : x.isFinite = true := by
  cases x with
  | infinity s => cases h
  | notANumber => cases h
  | zero s => rfl
  | finite s m e hm => rfl

theorem moderate_of_isFinite {b : BitVec Format.binary64.numBits}
    (h : (UnpackedFloat.unpack .binary64 b).isFinite = true) :
    Moderate (UnpackedFloat.unpack .binary64 b) := by
  refine moderate_unpack fun hones => ?_
  have hspecial : UnpackedFloat.unpack .binary64 b =
      if unpackMantissa b = BitVec.ofNat Format.binary64.mantissaBitsWithoutImplicit 0 then
        .infinity (Sign.ofBitVec (unpackSign b))
      else .notANumber := if_pos hones
  rw [hspecial] at h
  split at h <;> cases h

/-- **Packing keeps moderate numbers.** -/
theorem moderate_unpack_pack {x : UnpackedFloat} (h : Moderate x) :
    Moderate (UnpackedFloat.unpack .binary64 (UnpackedFloat.pack .binary64 x)) := by
  refine moderate_unpack ?_
  cases x with
  | infinity s => cases h
  | notANumber => cases h
  | zero s =>
    show unpackExponent (packComponents .binary64 s 0 0) ≠ _
    rw [unpackExponent_packComponents]
    decide
  | finite s m e hm =>
    have he : e ≤ 971 := h
    have hbias : (Format.binary64.exponentBias : Int) = 1023 := rfl
    have hlt : (e + Format.binary64.exponentBias + (52 : Nat)).toNat < 2047 := by
      rw [hbias]
      omega
    have hsmall : ¬ 2 ^ 11 ≤ (e + Format.binary64.exponentBias + (52 : Nat)).toNat + 1 := by
      rw [show 2 ^ 11 = 2048 from rfl]
      omega
    have hpack : UnpackedFloat.pack .binary64 (.finite s m e hm) =
        if m.log2 + 1 = Format.binary64.mantissaBits then
          packComponents .binary64 s
            (BitVec.ofNat 11 (e + Format.binary64.exponentBias + (52 : Nat)).toNat) (BitVec.ofNat 52 m)
        else packComponents .binary64 s (BitVec.ofNat 11 0) (BitVec.ofNat 52 m) := if_neg hsmall
    rw [hpack]
    split
    next =>
      rw [unpackExponent_packComponents]
      intro heq
      have hnat := congrArg BitVec.toNat heq
      rw [BitVec.toNat_ofNat, Nat.mod_eq_of_lt (by rw [show 2 ^ 11 = 2048 from rfl]; omega)] at hnat
      exact absurd hnat (Nat.ne_of_lt hlt)
    next =>
      rw [unpackExponent_packComponents]
      decide

/-! ## Rounding -/

theorem mantissa_shiftRight_le (em : ExtendedMantissa) (n : Nat) :
    (em >>> n).mantissa ≤ em.mantissa := by
  show (Nat.repeat ExtendedMantissa.shiftRightOne n em).mantissa ≤ em.mantissa
  induction n with
  | zero => exact Nat.le_refl _
  | succ n ih =>
    rw [Nat.repeat]
    exact (Nat.div_le_self _ 2).trans ih

theorem mantissa_ofMantissaAndAccuracy (m : Nat) (a : Accuracy) :
    (ExtendedMantissa.ofMantissaAndAccuracy m a).mantissa = m := by
  cases a with
  | exact => rfl
  | inexact o => cases o <;> rfl

theorem roundToNearestEven_le (m : Nat) (a : Accuracy) : a.roundToNearestEven m ≤ m + 1 := by
  cases a with
  | exact => exact Nat.le_succ m
  | inexact o =>
    cases o with
    | lt => exact Nat.le_succ m
    | eq => exact Nat.add_le_add_left (Nat.le_of_lt_succ (Nat.mod_lt m Nat.two_pos)) m
    | gt => exact Nat.le_refl _

/-- What shifting to the target exponent does to a number of at most `k` bits. -/
theorem shiftToTargetExponent_le {m k : Nat} {e : Int} (hm : m < 2 ^ (k + 1)) (a : Accuracy) :
    (shiftToTargetExponent .binary64 m e a).1.mantissa ≤ m ∧
      (shiftToTargetExponent .binary64 m e a).2 ≤ max e (max (k + 1 + e - 53) (-1074)) := by
  have hlog : m.log2 ≤ k := by
    rcases Nat.eq_zero_or_pos m with rfl | hpos
    · exact Nat.zero_le k
    · exact Nat.le_of_lt_succ ((Nat.log2_lt hpos.ne').mpr hm)
  constructor
  · rw [shiftToTargetExponent, shiftToExponent]
    refine (mantissa_shiftRight_le _ _).trans (Nat.le_of_eq ?_)
    exact mantissa_ofMantissaAndAccuracy m a
  · show e + (((max ((m.log2 : Int) + 1 + e - 53) (-1074)) - e).toNat : Int) ≤ _
    omega

/-- Rounding a number of at most `k` bits. -/
theorem moderate_roundWithAccuracy {m k : Nat} {e : Int} (hm : m < 2 ^ (k + 1)) (he : e ≤ 0)
    (hk : k ≤ 500) (s : Sign) (a : Accuracy) :
    Moderate (roundWithAccuracy .binary64 s m e a) := by
  obtain ⟨hm₁, he₁⟩ := shiftToTargetExponent_le (e := e) hm a
  rw [roundWithAccuracy]
  generalize shiftToTargetExponent .binary64 m e a = shifted at hm₁ he₁ ⊢
  obtain ⟨em, e₁⟩ := shifted
  have hrounded : em.roundedMantissa < 2 ^ (k + 1 + 1) := by
    have hle : em.roundedMantissa ≤ em.mantissa + 1 := roundToNearestEven_le _ _
    have hmantissa : em.mantissa ≤ m := hm₁
    have hpow : 2 ^ (k + 1 + 1) = 2 * 2 ^ (k + 1) := Nat.pow_succ'
    omega
  have hexponent : e₁ ≤ max e (max (k + 1 + e - 53) (-1074)) := he₁
  obtain ⟨-, he₂⟩ := shiftToTargetExponent_le (e := e₁) hrounded .exact
  show Moderate (if h : (shiftToTargetExponent .binary64 em.roundedMantissa e₁ .exact).1.mantissa = 0
    then _ else .finite _ _ _ _)
  by_cases hzero : (shiftToTargetExponent .binary64 em.roundedMantissa e₁ .exact).1.mantissa = 0
  · rw [dif_pos hzero]
    trivial
  · rw [dif_neg hzero]
    show (shiftToTargetExponent .binary64 em.roundedMantissa e₁ .exact).2 ≤ 971
    omega

theorem moderate_round {m : Nat} (hm : m < 2 ^ 64) (s : Sign) : Moderate (round .binary64 s m 0) := by
  rw [UnpackedFloat.round, decreaseExponent]
  dsimp only
  have hamount : (0 - Format.binary64.targetExponent (totalExponent m 0)).toNat ≤ 52 := by
    show (0 - max ((m.log2 : Int) + 1 + 0 - 53) (-1074)).toNat ≤ 52
    omega
  generalize (0 - Format.binary64.targetExponent (totalExponent m 0)).toNat = amount at hamount ⊢
  have hlt : m <<< amount < 2 ^ (115 + 1) := by
    rw [Nat.shiftLeft_eq]
    calc m * 2 ^ amount < 2 ^ 64 * 2 ^ amount := Nat.mul_lt_mul_of_pos_right hm (Nat.two_pow_pos _)
      _ ≤ 2 ^ 64 * 2 ^ 52 := Nat.mul_le_mul_left _ (Nat.pow_le_pow_right Nat.two_pos hamount)
      _ = 2 ^ (115 + 1) := by decide
  exact moderate_roundWithAccuracy hlt (by omega) (by decide) s .exact

/-! ## Doubles -/

theorem isFinite_toFloat (n : UInt64) : n.toFloat.isFinite = true := by
  refine isFinite_of_moderate (moderate_unpack_pack ?_)
  show Moderate (normalize .binary64 (n.toNat : Int) 0 .positive)
  rw [UnpackedFloat.normalize]
  split
  next hlt =>
    have hneg : (n.toNat : Int) < 0 := compare_lt_iff_lt.mp hlt
    omega
  next => trivial
  next => exact moderate_round n.toNat_lt .positive

theorem isFinite_neg {x : Float} (h : x.isFinite = true) : (-x).isFinite = true :=
  isFinite_of_moderate (moderate_unpack_pack (moderate_of_isFinite h).neg)

namespace Binary64

/-- Holding a finite double as bits keeps it finite. -/
theorem isFinite_ofFloat {x : Float} (h : x.isFinite = true) : (ofFloat x).isFinite = true :=
  isFinite_of_moderate (moderate_unpack_pack (moderate_of_isFinite h))

/-- **Integers are finite.** -/
theorem isFinite_ofInt (n : Int) : (ofInt n).isFinite = true := by
  have hmagnitude := isFinite_toFloat n.natAbs.toUInt64
  refine isFinite_ofFloat ?_
  split
  next => exact isFinite_neg hmagnitude
  next => exact hmagnitude

end Binary64

end RepairCorpus
