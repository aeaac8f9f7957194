import Workflow.Decimal.Binary

/-!
# Whole numbers as floats

A whole number of at most fifty-three bits is a float as it stands. Its significand is the number
shifted up until it fills the fifty-three bits, and then no arithmetic that brings it there has
anything to round: `Float.ofNat` reads the number, multiplies it by one and packs it into bits, and
every step only shifts up and down by the same number of places.

So such floats compare as the numbers do, and all of them are finite.
-/

namespace Workflow

open Float.Model Float.Model.UnpackedFloat

/-! ## Shifting -/

theorem log2_shiftLeft {n : Nat} (h : n ≠ 0) (k : Nat) : (n <<< k).log2 = n.log2 + k := by
  induction k with
  | zero => rfl
  | succ k ih =>
    have hne : n <<< k ≠ 0 := mt Nat.shiftLeft_eq_zero_iff.mp h
    rw [Nat.shiftLeft_succ, Nat.log2_two_mul hne, ih, Nat.add_assoc]

/-- What has been shifted up is shifted down again without a rest. -/
theorem shiftRight_shiftLeft (m k : Nat) :
    ExtendedMantissa.mk (m <<< k) false false >>> k = ⟨m, false, false⟩ := by
  induction k generalizing m with
  | zero => rfl
  | succ k ih =>
    have htwice : ExtendedMantissa.mk (m <<< (k + 1)) false false >>> k = ⟨2 * m, false, false⟩ :=
      ih (2 * m)
    have hlast : ExtendedMantissa.shiftRightOne ⟨2 * m, false, false⟩ = ⟨m, false, false⟩ := by
      rw [ExtendedMantissa.shiftRightOne, Nat.mul_div_cancel_left m Nat.two_pos,
        Nat.mul_mod_right]
      rfl
    rw [← hlast, ← htwice]
    rfl

theorem finite_congr {m m' : Nat} {e e' : Int} {h : 0 < m} {h' : 0 < m'} (hm : m = m')
    (he : e = e') : UnpackedFloat.finite .positive m e h = .finite .positive m' e' h' := by
  subst hm he
  rfl

/-- A significand fills its fifty-three bits. -/
def Fills (m : Nat) : Prop := m.log2 = 52

theorem Fills.pos {m : Nat} (h : Fills m) : 0 < m := by
  refine Nat.pos_of_ne_zero fun hzero ↦ ?_
  rw [Fills, hzero] at h
  exact absurd h (by decide)

theorem Fills.shiftToTargetExponent {m : Nat} (h : Fills m) (k : Nat) {e : Int}
    (he : -1074 ≤ e + k) :
    shiftToTargetExponent Format.binary64 (m <<< k) e .exact = (⟨m, false, false⟩, e + k) := by
  have htarget : Format.binary64.targetExponent (totalExponent (m <<< k) e) = e + k := by
    have hlog : (m <<< k).log2 = 52 + k := by rw [log2_shiftLeft (Nat.ne_of_gt h.pos), h]
    rw [totalExponent, hlog]
    change max (((52 + k : Nat) : Int) + 1 + e - 53) (-1074) = e + k
    omega
  have hamount : (e + k - e).toNat = k := by omega
  rw [UnpackedFloat.shiftToTargetExponent]
  simp only [htarget, shiftToExponent, hamount]
  rw [ExtendedMantissa.ofMantissaAndAccuracy, shiftRight_shiftLeft]

/-- **Nothing is rounded** when the places that do not fit are those of a shift. -/
theorem Fills.roundWithAccuracy {m : Nat} (h : Fills m) (k : Nat) {e : Int} (he : -1074 ≤ e + k) :
    roundWithAccuracy Format.binary64 .positive (m <<< k) e .exact
      = .finite .positive m (e + k) h.pos := by
  have hagain := h.shiftToTargetExponent 0 (e := e + k) (by omega)
  rw [Nat.shiftLeft_zero] at hagain
  have hm : m ≠ 0 := Nat.ne_of_gt h.pos
  rw [UnpackedFloat.roundWithAccuracy, h.shiftToTargetExponent k he]
  -- the significand is the rounded one already, and is looked at once more for a carry
  change (if hzero : (UnpackedFloat.shiftToTargetExponent Format.binary64 m (e + k)
      .exact).1.mantissa = 0 then UnpackedFloat.zero .positive
    else .finite .positive _ (UnpackedFloat.shiftToTargetExponent Format.binary64 m (e + k)
      .exact).2 (Nat.pos_of_ne_zero hzero)) = _
  rw [hagain]
  exact (dif_neg hm).trans (finite_congr rfl (by omega))

/-! ## Packing -/

/-- The bits of a positive float whose significand fills its places: the exponent, counted from
its least value on, and then the significand without its first bit. -/
theorem Fills.pack_eq {m : Nat} (h : Fills m) {e : Int} (he : e + 1075 < 2047) :
    UnpackedFloat.pack Format.binary64 (.finite .positive m e h.pos)
      = packComponents Format.binary64 .positive (BitVec.ofNat 11 (e + 1075).toNat)
        (BitVec.ofNat 52 m) := by
  have hbiased : (e + (1023 : Nat) + (52 : Nat)).toNat = (e + 1075).toNat := by omega
  have hfits : ¬2048 ≤ (e + (1023 : Nat) + (52 : Nat)).toNat + 1 := by omega
  have hbits : m.log2 + 1 = 53 := by rw [h]
  refine (if_neg hfits).trans ((if_pos hbits).trans ?_)
  rw [← hbiased]
  rfl

theorem Fills.toNat_append {m : Nat} (h : Fills m) : (1#1 ++ BitVec.ofNat 52 m).toNat = m := by
  obtain ⟨hlow, hhigh⟩ := (Nat.log2_eq_iff (Nat.ne_of_gt h.pos)).mp h
  have hmod : m % 0x10000000000000 < 0x10000000000000 := Nat.mod_lt m (by decide)
  rw [BitVec.toNat_append, BitVec.toNat_ofNat, ← Nat.shiftLeft_add_eq_or_of_lt hmod]
  change 0x10000000000000 + m % 0x10000000000000 = m
  omega

theorem unpackSign_packComponents_positive (exponent : BitVec 11) (mantissa : BitVec 52) :
    unpackSign (packComponents Format.binary64 .positive exponent mantissa) = 0#1 := by
  change (0#1 ++ exponent ++ mantissa).extractLsb' 63 1 = 0#1
  rw [BitVec.extractLsb'_append_eq_of_le (by decide),
    BitVec.extractLsb'_append_eq_of_le (by decide)]
  rfl

/-- Such a float is unpacked to what was packed. -/
theorem Fills.unpack_pack {m : Nat} (h : Fills m) {e : Int} (hpos : 0 < e + 1075)
    (he : e + 1075 < 2047) :
    (Float.Model.pack (.finite .positive m e h.pos)).unpack = .finite .positive m e h.pos := by
  have hexponent : (BitVec.ofNat 11 (e + 1075).toNat).toNat = (e + 1075).toNat := by
    rw [BitVec.toNat_ofNat]
    exact Nat.mod_eq_of_lt (show (e + 1075).toNat < 2048 by omega)
  have hnotAll : BitVec.ofNat 11 (e + 1075).toNat ≠ -1#11 := by
    intro heq
    have htoNat : (e + 1075).toNat = 2047 := hexponent.symm.trans (congrArg BitVec.toNat heq)
    omega
  have hnotZero : BitVec.ofNat 11 (e + 1075).toNat ≠ 0#11 := by
    intro heq
    have htoNat : (e + 1075).toNat = 0 := hexponent.symm.trans (congrArg BitVec.toNat heq)
    omega
  change UnpackedFloat.unpack Format.binary64
    (UnpackedFloat.pack Format.binary64 (.finite .positive m e h.pos)) = _
  rw [h.pack_eq he]
  -- the exponent is neither that of an infinity nor that of a small number
  have hexponentBits := @unpackExponent_packComponents Format.binary64 .positive
    (BitVec.ofNat 11 (e + 1075).toNat) (BitVec.ofNat 52 m)
  have hmantissaBits := @unpackMantissa_packComponents Format.binary64 .positive
    (BitVec.ofNat 11 (e + 1075).toNat) (BitVec.ofNat 52 m)
  have hsignBit := unpackSign_packComponents_positive (BitVec.ofNat 11 (e + 1075).toNat)
    (BitVec.ofNat 52 m)
  generalize packComponents Format.binary64 .positive (BitVec.ofNat 11 (e + 1075).toNat)
    (BitVec.ofNat 52 m) = bits at hexponentBits hmantissaBits hsignBit
  rw [← hexponentBits] at hnotAll hnotZero
  refine (if_neg hnotAll).trans ((if_neg hnotZero).trans ?_)
  rw [hsignBit]
  refine finite_congr ?_ ?_
  · rw [hmantissaBits]
    exact h.toNat_append
  · rw [hexponentBits, hexponent]
    change ((e + 1075).toNat : Int) - ((1023 : Nat) + (52 : Nat)) = e
    omega

/-! ## Whole numbers -/

/-- The significand of a number: the number shifted up to fifty-three bits. -/
def significandOf (n : Nat) : Nat := n <<< (52 - n.log2)

theorem log2_le_of_lt {n : Nat} (hn : n < 0x20000000000000) : n.log2 ≤ 52 := by
  by_cases hzero : n = 0
  · rw [hzero, Nat.log2_zero]
    exact Nat.zero_le 52
  · exact Nat.le_of_lt_succ ((Nat.log2_lt hzero).mpr hn)

theorem fills_significandOf {n : Nat} (hpos : 0 < n) (hn : n < 0x20000000000000) :
    Fills (significandOf n) := by
  have hle := log2_le_of_lt hn
  rw [Fills, significandOf, log2_shiftLeft (Nat.ne_of_gt hpos)]
  omega

/-- The float of a number before it is packed. -/
theorem unpacked_ofNat {n : Nat} (hpos : 0 < n) (hn : n < 0x20000000000000) :
    UnpackedFloat.ofNat Format.binary64 n
      = .finite .positive (significandOf n) ((n.log2 : Int) - 52)
        (fills_significandOf hpos hn).pos := by
  have hfills := fills_significandOf hpos hn
  have hle := log2_le_of_lt hn
  have hsign : compare (n : Int) 0 = .gt := Int.compare_eq_gt.mpr (Int.natCast_pos.mpr hpos)
  have htarget : Format.binary64.targetExponent (totalExponent n 0) = (n.log2 : Int) - 52 := by
    rw [totalExponent]
    change max ((n.log2 : Int) + 1 + 0 - 53) (-1074) = (n.log2 : Int) - 52
    omega
  have hshifted : decreaseExponent n 0 ((n.log2 : Int) - 52)
      = (significandOf n, (n.log2 : Int) - 52) := by
    have hamount : (0 - ((n.log2 : Int) - 52)).toNat = 52 - n.log2 := by omega
    have hexponent : (0 : Int) - (52 - n.log2 : Nat) = (n.log2 : Int) - 52 := by omega
    rw [decreaseExponent, hamount, hexponent]
    rfl
  have hround := hfills.roundWithAccuracy 0 (e := (n.log2 : Int) - 52) (by omega)
  rw [Nat.shiftLeft_zero] at hround
  rw [UnpackedFloat.ofNat, UnpackedFloat.ofInt, UnpackedFloat.normalize, hsign]
  change UnpackedFloat.round Format.binary64 .positive n 0 = _
  rw [UnpackedFloat.round, htarget, hshifted]
  exact hround.trans (finite_congr rfl (by omega))

/-- One as a float. -/
theorem unpack_one :
    (Float.exactlyRepresentablePowersOfTen[0]).toModel.unpack
      = .finite .positive 0x10000000000000 (-52) (by decide) := rfl

/-- **A whole number is a float as it stands.** -/
theorem toModel_ofNat {n : Nat} (hpos : 0 < n) (hn : n < 0x20000000000000) :
    (Float.ofNat n).toModel = .pack (.finite .positive (significandOf n) ((n.log2 : Int) - 52)
      (fills_significandOf hpos hn).pos) := by
  have hfills := fills_significandOf hpos hn
  have hle := log2_le_of_lt hn
  have hword : n.toUInt64.toNat = n :=
    Nat.mod_eq_of_lt (Nat.lt_trans hn (by decide : 0x20000000000000 < UInt64.size))
  have hunpack : n.toUInt64.toFloat.toModel.unpack
      = .finite .positive (significandOf n) ((n.log2 : Int) - 52) hfills.pos := by
    change (Float.Model.pack (UnpackedFloat.ofNat Format.binary64 n.toUInt64.toNat)).unpack = _
    rw [hword, unpacked_ofNat hpos hn]
    exact hfills.unpack_pack (by omega) (by omega)
  have hround := hfills.roundWithAccuracy 52 (e := (n.log2 : Int) - 52 + -52) (by omega)
  rw [Float.ofNat]
  change (Float.ofScientific n false 0).toModel = _
  rw [Float.ofScientific, dif_pos ⟨hn, Nat.zero_le 22⟩]
  change Float.Model.pack (UnpackedFloat.mul Format.binary64 n.toUInt64.toFloat.toModel.unpack
    (Float.exactlyRepresentablePowersOfTen[0]).toModel.unpack) = _
  rw [hunpack, unpack_one]
  -- one has the significand `2 ^ 52`, so multiplying by it shifts up
  have hshift : significandOf n * 0x10000000000000 = significandOf n <<< 52 :=
    (Nat.shiftLeft_eq (significandOf n) 52).symm
  change Float.Model.pack (UnpackedFloat.roundWithAccuracy Format.binary64 .positive
    (significandOf n * 0x10000000000000) ((n.log2 : Int) - 52 + -52) .exact) = _
  rw [hshift, hround]
  exact congrArg Float.Model.pack (finite_congr rfl (by omega))

theorem unpack_ofNat {n : Nat} (hpos : 0 < n) (hn : n < 0x20000000000000) :
    (Float.ofNat n).toModel.unpack = .finite .positive (significandOf n) ((n.log2 : Int) - 52)
      (fills_significandOf hpos hn).pos := by
  have hle := log2_le_of_lt hn
  rw [toModel_ofNat hpos hn]
  exact (fills_significandOf hpos hn).unpack_pack (by omega) (by omega)

/-! ## Comparing -/

theorem float_lt_iff {x y : Float} :
    x < y ↔ x.toModel.unpack.compare y.toModel.unpack = some .lt := by
  change decide (x.toModel < y.toModel) = true ↔ _
  rw [decide_eq_true_iff]
  change (x.toModel.unpack.compare y.toModel.unpack == some .lt) = true ↔ _
  rw [beq_iff_eq]

/-- Numbers compare as the places of their first bits do, and where these are the same as their
significands do. -/
theorem lt_iff_log2 {n k : Nat} (hn : 0 < n) (hk : 0 < k) :
    n < k ↔ n.log2 < k.log2 ∨ n.log2 = k.log2 ∧ significandOf n < significandOf k := by
  have hn0 : n ≠ 0 := Nat.ne_of_gt hn
  have hk0 : k ≠ 0 := Nat.ne_of_gt hk
  have hsame : n.log2 = k.log2 → (significandOf n < significandOf k ↔ n < k) := by
    intro hlog
    rw [significandOf, significandOf, hlog, Nat.shiftLeft_eq, Nat.shiftLeft_eq,
      Nat.mul_lt_mul_right (Nat.two_pow_pos _)]
  constructor
  · intro h
    have hle : n.log2 ≤ k.log2 :=
      (Nat.le_log2 hk0).mpr (Nat.le_trans (Nat.log2_self_le hn0) (Nat.le_of_lt h))
    rcases Nat.lt_or_eq_of_le hle with hlt | heq
    · exact .inl hlt
    · exact .inr ⟨heq, (hsame heq).mpr h⟩
  · rintro (hlt | ⟨heq, hlt⟩)
    · exact Nat.lt_of_lt_of_le ((Nat.log2_lt hn0).mp hlt) (Nat.log2_self_le hk0)
    · exact (hsame heq).mp hlt

/-- **Whole numbers compare as floats as they do as numbers.** -/
theorem float_ofNat_lt_iff {n k : Nat} (hn : n < 0x20000000000000) (hk : k < 0x20000000000000) :
    Float.ofNat n < Float.ofNat k ↔ n < k := by
  have hzero : (Float.ofNat 0).toModel.unpack = .zero .positive := rfl
  rw [float_lt_iff]
  rcases Nat.eq_zero_or_pos n with rfl | hnpos <;> rcases Nat.eq_zero_or_pos k with rfl | hkpos
  · rw [hzero]
    exact iff_of_false (show some Ordering.eq ≠ some .lt by decide) (Nat.lt_irrefl 0)
  · rw [hzero, unpack_ofNat hkpos hk]
    exact iff_of_true rfl hkpos
  · rw [hzero, unpack_ofNat hnpos hn]
    exact iff_of_false (show some Ordering.gt ≠ some .lt by decide) (Nat.not_lt_zero n)
  · rw [unpack_ofNat hnpos hn, unpack_ofNat hkpos hk, lt_iff_log2 hnpos hkpos]
    change some ((compare ((n.log2 : Int) - 52) ((k.log2 : Int) - 52)).then
      (compare (significandOf n) (significandOf k))) = some .lt ↔ _
    rw [Option.some.injEq, Ordering.then_eq_lt, Int.compare_eq_lt, Int.compare_eq_eq,
      Nat.compare_eq_lt]
    refine or_congr ?_ (and_congr_left fun _ ↦ ?_) <;> omega

/-! ## Finite floats -/

/-- The exponent as `FloatClass.of` reads it. -/
theorem exponentField_eq (x : Float) :
    x.toBits.toNat / 0x10000000000000 % 0x800
      = (@unpackExponent Format.binary64 x.toModel.toBits.toBitVec).toNat := by
  rw [unpackExponent, BitVec.toNat_cast, BitVec.extractLsb_toNat, Nat.shiftRight_eq_div_pow]
  rfl

theorem isFiniteFloat_of_exponent {x : Float}
    (h : (@unpackExponent Format.binary64 x.toModel.toBits.toBitVec).toNat ≠ 0x7FF) :
    isFiniteFloat x = true := by
  rw [← exponentField_eq] at h
  rw [isFiniteFloat, FloatClass.of]
  simp only [h, if_false]
  by_cases hleast : x.toBits.toNat / 0x10000000000000 % 0x800 = 0
  · rw [if_pos hleast]
  · rw [if_neg hleast]

/-- A whole number is a finite float. -/
theorem isFiniteFloat_ofNat {n : Nat} (hn : n < 0x20000000000000) :
    isFiniteFloat (Float.ofNat n) = true := by
  refine isFiniteFloat_of_exponent ?_
  rcases Nat.eq_zero_or_pos n with rfl | hpos
  · decide
  · have hle := log2_le_of_lt hn
    have hbits : (Float.ofNat n).toModel.toBits.toBitVec
        = packComponents Format.binary64 .positive
          (BitVec.ofNat 11 ((n.log2 : Int) - 52 + 1075).toNat)
          (BitVec.ofNat 52 (significandOf n)) := by
      rw [toModel_ofNat hpos hn]
      exact (fills_significandOf hpos hn).pack_eq (by omega)
    rw [hbits, unpackExponent_packComponents, BitVec.toNat_ofNat]
    change ((n.log2 : Int) - 52 + 1075).toNat % 2048 ≠ 2047
    omega

end Workflow
