import Mathlib.Algebra.Order.Field.Rat
import Mathlib.Data.Nat.Log
import Mathlib.Tactic.Ring
import NativeBackend.Number.Binary

namespace NativeBackend

/-- What a bit pattern stands for. What is not a number keeps its sign and its fraction field, as a part of the
largest fraction and one. -/
inductive FloatValue where
  | nan (negative : Bool) (fraction : ℚ)
  | infinite (negative : Bool)
  | finite (negative : Bool) (magnitude : ℚ)

/-- The first bit of the fraction tells a quiet pattern from a signalling one. -/
def FloatValue.quiet : FloatValue → FloatValue
  | .nan negative fraction => .nan negative (if fraction < 1 / 2 then fraction + 1 / 2 else fraction)
  | v => v

namespace BinaryFormat

def value (f : BinaryFormat) (bits : Nat) : FloatValue :=
  let x := f.fields bits
  if x.exponent = f.topExponent then
    if x.fraction = 0 then .infinite x.negative else .nan x.negative (x.fraction / 2 ^ f.fractionBits)
  else .finite x.negative ((f.significand x).1 * 2 ^ (f.significand x).2)

theorem fields_assemble_double (negative : Bool) {magnitude : Nat} (h : magnitude < 2 ^ 63) :
    double.fields (double.assemble negative magnitude) =
      ⟨negative, magnitude / 2 ^ 52, magnitude % 2 ^ 52⟩ := by
  cases negative <;> simp [fields, assemble, double, Nat.shiftRight_eq_div_pow] <;> omega

theorem significand_single_bounds {x : Fields} (hexponent : x.exponent < 255) (hfraction : x.fraction < 2 ^ 23) :
    (single.significand x).1 < 2 ^ 24 ∧ -149 ≤ (single.significand x).2 ∧ (single.significand x).2 ≤ 104 := by
  have hleast : single.leastUnit = -149 := rfl
  rw [significand, hleast]
  split <;> simp only [single] <;> omega

theorem nearest_double {m : Nat} {e : Int} (hm : m ≠ 0) (hlt : m < 2 ^ 24) (hlow : -149 ≤ e) (hhigh : e ≤ 104) :
    double.nearest m e = (e + m.log2 + 1022).toNat * 2 ^ 52 + m * 2 ^ (52 - m.log2) ∧
      2 ^ 52 ≤ m * 2 ^ (52 - m.log2) ∧ m * 2 ^ (52 - m.log2) < 2 ^ 53 := by
  have hlog : m.log2 < 24 := (Nat.log2_lt hm).2 hlt
  have hdigits : 2 ^ m.log2 ≤ m ∧ m < 2 ^ (m.log2 + 1) := ⟨Nat.log2_self_le hm, Nat.lt_log2_self⟩
  have hleast : double.leastUnit = -1074 := rfl
  have htop : double.topExponent = 2047 := rfl
  have hscaled : 2 ^ 52 ≤ m * 2 ^ (52 - m.log2) ∧ m * 2 ^ (52 - m.log2) < 2 ^ 53 := by
    have hpow : 2 ^ 52 = 2 ^ m.log2 * 2 ^ (52 - m.log2) := by
      rw [← Nat.pow_add]
      congr 1
      omega
    have hpow' : 2 ^ 53 = 2 ^ (m.log2 + 1) * 2 ^ (52 - m.log2) := by
      rw [← Nat.pow_add]
      congr 1
      omega
    rw [hpow, hpow']
    exact ⟨Nat.mul_le_mul_right _ hdigits.1, Nat.mul_lt_mul_of_pos_right hdigits.2 (Nat.two_pow_pos _)⟩
  refine ⟨?_, hscaled⟩
  have hfraction : double.fractionBits = 52 := rfl
  -- the subnormal numbers of single precision are normal doubles, so the least exponent does not clamp the unit
  have hunit : max (e + m.log2 - (52 : Nat)) (-1074) = e + m.log2 - 52 := by omega
  have hle : e + m.log2 - 52 ≤ e := by omega
  have hplace : (e + m.log2 - 52 - -1074).toNat = (e + m.log2 + 1022).toNat := by omega
  have hshift : (e - (e + m.log2 - 52)).toNat = 52 - m.log2 := by omega
  simp only [nearest, hleast, htop, hfraction, hunit, hle, hplace, hshift, if_true, Nat.shiftLeft_eq]
  rw [Nat.min_eq_left]
  omega

theorem value_assemble_nearest {m : Nat} {e : Int} (negative : Bool) (hm : m ≠ 0) (hlt : m < 2 ^ 24)
    (hlow : -149 ≤ e) (hhigh : e ≤ 104) :
    double.value (double.assemble negative (double.nearest m e)) = .finite negative (m * 2 ^ e) := by
  obtain ⟨hnearest, hmin, hmax⟩ := nearest_double hm hlt hlow hhigh
  have hlog : m.log2 < 24 := (Nat.log2_lt hm).2 hlt
  have htop : double.topExponent = 2047 := rfl
  have hleast : double.leastUnit = -1074 := rfl
  have hexponent : double.nearest m e / 2 ^ 52 = (e + m.log2 + 1022).toNat + 1 := by omega
  have hfraction : double.nearest m e % 2 ^ 52 = m * 2 ^ (52 - m.log2) - 2 ^ 52 := by omega
  rw [value, fields_assemble_double negative (by omega), hexponent, hfraction]
  dsimp only
  rw [htop, if_neg (by omega), significand, if_neg (Nat.succ_ne_zero _), hleast]
  dsimp only [double]
  rw [show m * 2 ^ (52 - m.log2) - 2 ^ 52 + (1 <<< 52) = m * 2 ^ (52 - m.log2) by
    rw [Nat.shiftLeft_eq]; omega]
  congr 1
  have hexp : (-1074 + (((e + m.log2 + 1022).toNat + 1 : Nat) - 1) : Int) = e - (52 - m.log2 : Nat) := by omega
  rw [hexp, Nat.cast_mul, Nat.cast_pow, Nat.cast_ofNat, mul_assoc, ← zpow_natCast, ← zpow_add₀ (by norm_num)]
  congr 2
  omega

theorem toNat_assemble (negative : Bool) {magnitude : Nat} (h : magnitude < 2 ^ 63) :
    (UInt64.ofNat (double.assemble negative magnitude)).toNat = double.assemble negative magnitude := by
  refine UInt64.toNat_ofNat_of_lt ?_
  cases negative <;> simp [assemble, double, UInt64.size] <;> omega

theorem quietFraction_single (fraction : Nat) :
    quietFraction single double fraction = 2 ^ 51 + fraction % 2 ^ 22 * 2 ^ 29 := by
  simp only [quietFraction, single, double, Nat.shiftLeft_eq, Nat.shiftRight_eq_div_pow, Nat.one_mul]
  omega

theorem quietFraction_part {fraction : Nat} (h : fraction < 2 ^ 23) :
    (quietFraction single double fraction : ℚ) / 2 ^ 52 =
      if (fraction : ℚ) / 2 ^ 23 < 1 / 2 then (fraction : ℚ) / 2 ^ 23 + 1 / 2 else (fraction : ℚ) / 2 ^ 23 := by
  rw [quietFraction_single]
  have hhalf : (fraction : ℚ) / 2 ^ 23 < 1 / 2 ↔ fraction < 2 ^ 22 := by
    rw [div_lt_iff₀ (by norm_num), ← Nat.cast_lt (α := ℚ)]
    norm_num
  by_cases hsmall : fraction < 2 ^ 22
  · rw [if_pos (hhalf.2 hsmall), Nat.mod_eq_of_lt hsmall]
    push_cast
    ring
  · rw [if_neg (mt hhalf.1 hsmall)]
    have hmod : fraction = 2 ^ 22 + fraction % 2 ^ 22 := by omega
    rw [hmod, Nat.add_mod_left, Nat.mod_mod]
    push_cast
    ring

/-- Going from single to double precision keeps the value, but that a signalling pattern becomes quiet. -/
theorem value_widenSingle (bits : UInt32) :
    double.value (widenSingle bits).toNat = (single.value bits.toNat).quiet := by
  have hexponent : (single.fields bits.toNat).exponent < 2 ^ 8 := Nat.mod_lt _ (by decide)
  have hfraction : (single.fields bits.toNat).fraction < 2 ^ 23 := Nat.mod_lt _ (by decide)
  have htop : double.topExponent = 2047 := rfl
  have htop' : single.topExponent = 255 := rfl
  rw [widenSingle, convert, value.eq_def single]
  generalize single.fields bits.toNat = x at hexponent hfraction
  dsimp only
  by_cases hx : x.exponent = single.topExponent
  · rw [if_pos hx, if_pos hx, htop]
    by_cases hzero : x.fraction = 0
    · rw [if_pos hzero, if_pos hzero, toNat_assemble _ (by decide), value, fields_assemble_double _ (by decide)]
      rfl
    · have hquiet := quietFraction_single x.fraction
      have hshift : 2047 <<< double.fractionBits = 2047 * 2 ^ 52 := rfl
      rw [if_neg hzero, if_neg hzero, hshift, toNat_assemble _ (by omega), value, fields_assemble_double _ (by omega)]
      dsimp only
      rw [if_pos (by omega), if_neg (by omega), FloatValue.quiet]
      congr 1
      rw [show single.fractionBits = 23 from rfl, ← quietFraction_part hfraction,
        show (2047 * 2 ^ 52 + quietFraction single double x.fraction) % 2 ^ 52 =
          quietFraction single double x.fraction by omega]
      rfl
  · have hbounds := significand_single_bounds (x := x) (by omega) hfraction
    rw [if_neg hx, if_neg hx]
    by_cases hm : (single.significand x).1 = 0
    · rw [if_pos hm, toNat_assemble _ (by decide), value, fields_assemble_double _ (by decide), hm]
      simp [htop, significand, FloatValue.quiet]
    · have hnearest := nearest_double hm hbounds.1 hbounds.2.1 hbounds.2.2
      have hlog : (single.significand x).1.log2 < 24 := (Nat.log2_lt hm).2 hbounds.1
      rw [if_neg hm, toNat_assemble _ (by omega),
        value_assemble_nearest x.negative hm hbounds.1 hbounds.2.1 hbounds.2.2]
      rfl

end BinaryFormat

end NativeBackend
