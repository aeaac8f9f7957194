import Mathlib.Algebra.Group.Nat.Defs
import Workflow.Decimal.Reading
import Workflow.Proofs.Decimal.Exact

/-!
# Finite floats

A float stands for a real number unless its exponent field has all bits set. So a float is known to
be finite when its exponent is known to be small, and what arithmetic does to exponents is easily
bounded: rounding adds at most one to the place of the first bit.

Two finite floats can always be compared, so that of two of them one is at most the other.
-/

namespace Workflow

open Float.Model Float.Model.UnpackedFloat

/-- The exponent field of a packed float, which counts from the least exponent on. -/
def exponentField (x : Float.Model) : Nat :=
  (@unpackExponent Format.binary64 x.toBits.toBitVec).toNat

theorem isFiniteFloat_iff {x : Float} :
    isFiniteFloat x = true ↔ exponentField x.toModel ≠ 0x7FF := by
  refine ⟨fun h hfield ↦ ?_, isFiniteFloat_of_exponent⟩
  rw [exponentField, ← exponentField_eq] at hfield
  rw [isFiniteFloat, FloatClass.of] at h
  simp only [hfield, if_true] at h
  by_cases hfraction : x.toBits.toNat % 0x10000000000000 = 0
  · rw [if_pos hfraction] at h
    cases h
  · rw [if_neg hfraction] at h
    cases h

theorem exponentField_lt (x : Float.Model) : exponentField x < 0x800 := BitVec.isLt _

/-! ## Exponents of unpacked floats -/

/-- Zero, or finite with an exponent of at most `b`. -/
inductive ExponentAtMost (b : Int) : UnpackedFloat → Prop
  | zero (s : Sign) : ExponentAtMost b (.zero s)
  | finite (s : Sign) {m : Nat} {e : Int} (hm : 0 < m) (he : e ≤ b) :
    ExponentAtMost b (.finite s m e hm)

/-- Zero, or finite with an exponent of at most `b` and a significand that fits its places. -/
inductive Fitting (b : Int) : UnpackedFloat → Prop
  | zero (s : Sign) : Fitting b (.zero s)
  | finite (s : Sign) {m : Nat} {e : Int} (hm : 0 < m) (hlog : m.log2 ≤ 52) (he : e ≤ b) :
    Fitting b (.finite s m e hm)

theorem fitting_unpack {x : Float.Model} {b : Nat} (h : exponentField x ≤ b) (hpos : 0 < b)
    (hb : b < 0x7FF) : Fitting (b - 1075) x.unpack := by
  have hnotAll : @unpackExponent Format.binary64 x.toBits.toBitVec ≠ -1#11 := by
    intro heq
    have hfield : exponentField x = 0x7FF := congrArg BitVec.toNat heq
    omega
  by_cases hleast : @unpackExponent Format.binary64 x.toBits.toBitVec = 0#11
  · have hfield : exponentField x = 0 := congrArg BitVec.toNat hleast
    by_cases hfraction : @unpackMantissa Format.binary64 x.toBits.toBitVec = 0#52
    · have hunpack : x.unpack = .zero _ :=
        (if_neg hnotAll).trans ((if_pos hleast).trans (dif_pos hfraction))
      rw [hunpack]
      exact .zero _
    · have hunpack : x.unpack = .finite _ _ _ _ :=
        (if_neg hnotAll).trans ((if_pos hleast).trans (dif_neg hfraction))
      rw [hunpack]
      refine .finite _ _ (log2_le_of_lt (Nat.lt_trans (BitVec.isLt _) (by decide))) ?_
      change (exponentField x : Int) - ((1023 : Nat) + (52 : Nat)) + 1 ≤ _
      omega
  · have hunpack : x.unpack = .finite _ _ _ _ := (if_neg hnotAll).trans (if_neg hleast)
    rw [hunpack]
    refine .finite _ _ (log2_le_of_lt (BitVec.isLt _)) ?_
    change (exponentField x : Int) - ((1023 : Nat) + (52 : Nat)) ≤ _
    omega

/-- A finite float whose exponent fits is packed with it, or without it if it is small. -/
theorem exists_pack_eq (s : Sign) {m : Nat} {e : Int} (hm : 0 < m) {b : Nat} (he : e ≤ b - 1075)
    (hb : b < 0x7FF) :
    ∃ (field : BitVec 11) (fraction : BitVec 52), field.toNat ≤ b ∧
      UnpackedFloat.pack Format.binary64 (.finite s m e hm)
        = packComponents Format.binary64 s field fraction := by
  have hfits : ¬2048 ≤ (e + (1023 : Nat) + (52 : Nat)).toNat + 1 := by omega
  by_cases hbits : m.log2 + 1 = 53
  · refine ⟨BitVec.ofNat 11 (e + (1023 : Nat) + (52 : Nat)).toNat, BitVec.ofNat 52 m, ?_,
      (if_neg hfits).trans (if_pos hbits)⟩
    refine Nat.le_trans (Nat.mod_le _ _) ?_
    omega
  · exact ⟨0#11, BitVec.ofNat 52 m, Nat.zero_le b, (if_neg hfits).trans (if_neg hbits)⟩

theorem exponentField_pack {u : UnpackedFloat} {b : Nat} (h : ExponentAtMost (b - 1075) u)
    (hb : b < 0x7FF) : exponentField (.pack u) ≤ b := by
  change (@unpackExponent Format.binary64 (UnpackedFloat.pack Format.binary64 u)).toNat ≤ b
  cases h with
  | zero s =>
    change (@unpackExponent Format.binary64 (packComponents Format.binary64 s 0 0)).toNat ≤ b
    rw [unpackExponent_packComponents]
    exact Nat.zero_le b
  | finite s hm he =>
    obtain ⟨field, fraction, hfield, hpack⟩ := exists_pack_eq s hm he hb
    rw [hpack, unpackExponent_packComponents]
    exact hfield

/-! ## Rounding -/

theorem mantissa_shiftRight (em : ExtendedMantissa) (k : Nat) :
    (em >>> k).mantissa = em.mantissa / 2 ^ k := by
  induction k with
  | zero => exact (Nat.div_one _).symm
  | succ k ih =>
    change (em >>> k).mantissa / 2 = _
    rw [ih, Nat.div_div_eq_div_mul, Nat.pow_succ]

theorem mantissa_ofMantissaAndAccuracy (m : Nat) (a : Accuracy) :
    (ExtendedMantissa.ofMantissaAndAccuracy m a).mantissa = m := by
  cases a with
  | exact => rfl
  | inexact o => cases o <;> rfl

/-- A significand is rounded down, or up by one. -/
theorem exists_roundToNearestEven_eq (m : Nat) (a : Accuracy) :
    ∃ carry ≤ 1, a.roundToNearestEven m = m + carry := by
  cases a with
  | exact => exact ⟨0, Nat.zero_le 1, rfl⟩
  | inexact o =>
    cases o with
    | lt => exact ⟨0, Nat.zero_le 1, rfl⟩
    | eq => exact ⟨m % 2, Nat.le_of_lt_succ (Nat.mod_lt m Nat.two_pos), rfl⟩
    | gt => exact ⟨1, Nat.le_refl 1, rfl⟩

/-- By how many places a significand is shifted down so that it fits. -/
def excessPlaces (m : Nat) (e : Int) : Nat := (max ((m.log2 : Int) + 1 + e - 53) (-1074) - e).toNat

/-- A significand is shifted down until it fits, rounded, and shifted once more for a carry. -/
theorem exists_roundWithAccuracy_eq (s : Sign) (m : Nat) (e : Int) (a : Accuracy) :
    ∃ carry ≤ 1, ∃ k j r : Nat, k = excessPlaces m e ∧ r = m / 2 ^ k + carry ∧
      j = excessPlaces r (e + k) ∧
        (r / 2 ^ j = 0 ∧ roundWithAccuracy Format.binary64 s m e a = .zero s ∨
          ∃ h, roundWithAccuracy Format.binary64 s m e a
            = .finite s (r / 2 ^ j) (e + k + j) h) := by
  generalize hem : ExtendedMantissa.ofMantissaAndAccuracy m a >>> excessPlaces m e = em
  have hmantissa : em.mantissa = m / 2 ^ excessPlaces m e := by
    rw [← hem, mantissa_shiftRight, mantissa_ofMantissaAndAccuracy]
  obtain ⟨carry, hcarry, hround⟩ := exists_roundToNearestEven_eq em.mantissa em.accuracy
  have hr : em.roundedMantissa = m / 2 ^ excessPlaces m e + carry :=
    hround.trans (by rw [hmantissa])
  refine ⟨carry, hcarry, _, _, _, rfl, rfl, rfl, ?_⟩
  rw [← hr]
  generalize hj : excessPlaces em.roundedMantissa (e + excessPlaces m e) = j
  have hlast : (ExtendedMantissa.ofMantissaAndAccuracy em.roundedMantissa .exact >>> j).mantissa
      = em.roundedMantissa / 2 ^ j := by
    rw [mantissa_shiftRight, mantissa_ofMantissaAndAccuracy]
  rw [← hlast]
  subst hj hem
  by_cases hzero : (ExtendedMantissa.ofMantissaAndAccuracy (ExtendedMantissa.roundedMantissa
      (ExtendedMantissa.ofMantissaAndAccuracy m a >>> excessPlaces m e)) .exact >>>
        excessPlaces (ExtendedMantissa.roundedMantissa
          (ExtendedMantissa.ofMantissaAndAccuracy m a >>> excessPlaces m e))
            (e + excessPlaces m e)).mantissa = 0
  · exact .inl ⟨hzero, dif_pos hzero⟩
  · exact .inr ⟨Nat.pos_of_ne_zero hzero, dif_neg hzero⟩

/-- A carry moves the first bit of what is left after a shift up by one place at most. -/
theorem log2_le_of_le_div {r m k : Nat} (h : r ≤ m / 2 ^ k + 1) : r.log2 ≤ m.log2 - k + 1 := by
  by_cases hzero : r = 0
  · rw [hzero, Nat.log2_zero]
    exact Nat.zero_le _
  have hm : m < 2 ^ (m.log2 - k + 1) * 2 ^ k := by
    rw [← Nat.pow_add]
    exact Nat.lt_of_lt_of_le Nat.lt_log2_self (Nat.pow_le_pow_right Nat.two_pos (by omega))
  have hr : r ≤ 2 ^ (m.log2 - k + 1) :=
    Nat.le_trans h ((Nat.div_lt_iff_lt_mul (Nat.two_pow_pos k)).mpr hm)
  have hlt : r < 2 ^ (m.log2 - k + 2) :=
    Nat.lt_of_le_of_lt hr (Nat.pow_lt_pow_right Nat.one_lt_two (Nat.lt_succ_self _))
  exact Nat.le_of_lt_succ ((Nat.log2_lt hzero).mpr hlt)

/-- The exponent after rounding is bounded by the exponent before and the place of the first bit. -/
theorem exponentAtMost_roundWithAccuracy (s : Sign) {m : Nat} {e b : Int} (a : Accuracy)
    (he : e ≤ b) (hm : m.log2 + e - 51 ≤ b) (hb : -1074 ≤ b) :
    ExponentAtMost b (roundWithAccuracy Format.binary64 s m e a) := by
  obtain ⟨carry, hcarry, k, j, r, hk, hr, hj, heq⟩ := exists_roundWithAccuracy_eq s m e a
  rcases heq with ⟨-, heq⟩ | ⟨hpos, heq⟩
  · rw [heq]
    exact .zero s
  · have hlog : r.log2 ≤ m.log2 - k + 1 := log2_le_of_le_div (by omega)
    rw [heq]
    rw [excessPlaces] at hk hj
    exact .finite s hpos (by omega)

theorem exponentAtMost_round (s : Sign) {m : Nat} {e b : Int} (he : e ≤ b)
    (hm : m.log2 + e - 51 ≤ b) (hb : -1074 ≤ b) :
    ExponentAtMost b (UnpackedFloat.round Format.binary64 s m e) := by
  rw [UnpackedFloat.round, decreaseExponent]
  generalize (e - Format.binary64.targetExponent (totalExponent m e)).toNat = k
  by_cases hzero : m = 0
  · rw [hzero, Nat.zero_shiftLeft]
    exact exponentAtMost_roundWithAccuracy s .exact (by omega) (by rw [Nat.log2_zero]; omega) hb
  · refine exponentAtMost_roundWithAccuracy s .exact (by omega) ?_ hb
    rw [log2_shiftLeft hzero]
    omega

/-! ## Whole numbers -/

theorem log2_le_of_lt_size {n : Nat} (hn : n < UInt64.size) : n.log2 ≤ 63 := by
  by_cases hzero : n = 0
  · rw [hzero, Nat.log2_zero]
    exact Nat.zero_le 63
  · exact Nat.le_of_lt_succ ((Nat.log2_lt hzero).mpr hn)

/-- A number of sixty-four bits as a float. -/
theorem exponentField_toFloat (n : UInt64) : exponentField n.toFloat.toModel ≤ 1087 := by
  have hlog := log2_le_of_lt_size n.toNat_lt
  change exponentField (.pack (UnpackedFloat.ofNat Format.binary64 n.toNat)) ≤ 1087
  refine exponentField_pack ?_ (by decide)
  rw [UnpackedFloat.ofNat, UnpackedFloat.ofInt, UnpackedFloat.normalize]
  split
  · next hneg =>
    rw [Int.compare_eq_lt] at hneg
    omega
  · exact .zero .positive
  · rw [Int.toNat_natCast]
    exact exponentAtMost_round .positive (by decide) (by omega) (by decide)

/-- A decimal without a point, unless it is far too large, is a product that is rounded once. -/
theorem ofScientific_eq_round {n k : Nat} (hn : n ≠ 0) (hk : ¬(k : Int) > (2 ^ 11 : Nat)) :
    UnpackedFloat.ofScientific Format.binary64 n k
      = roundWithAccuracy Format.binary64 .positive (n <<< 53 * 10 ^ k) (-53) .exact := by
  have hlow : ¬(k : Int) < -((2 ^ 11 : Nat) + n.log2) := by omega
  exact (dif_neg hn).trans ((if_neg hk).trans ((if_neg hlow).trans
    (if_pos (Int.natCast_nonneg k))))

theorem exponentField_ofNat {n : Nat} (hn : n < UInt64.size) :
    exponentField (Float.ofNat n).toModel ≤ 1087 := by
  have hlog := log2_le_of_lt_size hn
  by_cases hzero : n = 0
  · rw [hzero]
    decide
  by_cases hexact : n < 0x20000000000000
  · rw [toModel_ofNat (Nat.pos_of_ne_zero hzero) hexact]
    exact exponentField_pack (.finite .positive _ (by omega)) (by decide)
  · rw [Float.ofNat]
    change exponentField (Float.ofScientific n false 0).toModel ≤ 1087
    rw [Float.ofScientific, dif_neg fun h ↦ hexact h.1]
    change exponentField (.pack (UnpackedFloat.ofScientific Format.binary64 n (0 : Nat))) ≤ 1087
    refine exponentField_pack ?_ (by decide)
    rw [ofScientific_eq_round hzero (by decide), Nat.pow_zero, Nat.mul_one]
    refine exponentAtMost_roundWithAccuracy _ .exact (by decide) ?_ (by decide)
    rw [log2_shiftLeft hzero]
    omega

/-- A change of sign leaves the exponent. -/
theorem exponentField_neg {x : Float} {b : Nat} (h : exponentField x.toModel ≤ b) (hpos : 0 < b)
    (hb : b < 0x7FF) : exponentField (-x).toModel ≤ b := by
  have hfits := fitting_unpack h hpos hb
  change exponentField (.pack x.toModel.unpack.neg) ≤ b
  refine exponentField_pack ?_ hb
  generalize x.toModel.unpack = u at hfits ⊢
  cases hfits with
  | zero s => exact .zero _
  | finite s hm hlog he => exact .finite _ hm he

theorem isFiniteFloat_of_exponentField {x : Float} {b : Nat} (h : exponentField x.toModel ≤ b)
    (hb : b < 0x7FF) : isFiniteFloat x = true :=
  isFiniteFloat_iff.mpr (by omega)

/-- **The integers of a document are finite as floats.** -/
theorem isFiniteFloat_ofInt {n : Int} (hlower : -0x8000000000000000 ≤ n)
    (hupper : n < 0x10000000000000000) : isFiniteFloat (Float.ofInt n) = true := by
  cases n with
  | ofNat n =>
    exact isFiniteFloat_of_exponentField (exponentField_ofNat (Int.ofNat_lt.mp hupper)) (by decide)
  | negSucc n =>
    have hn : n.succ < UInt64.size := by
      rw [UInt64.size]
      omega
    have hfield := exponentField_neg (exponentField_ofNat hn) (by decide) (by decide)
    exact isFiniteFloat_of_exponentField hfield (by decide)

/-! ## Division -/

/-- An infinity, or finite with an exponent of at least that of one. -/
inductive ReachesOne : UnpackedFloat → Prop
  | infinity (s : Sign) : ReachesOne (.infinity s)
  | finite (s : Sign) {m : Nat} {e : Int} (hm : 0 < m) (he : -52 ≤ e) :
    ReachesOne (.finite s m e hm)

instance : DecidablePred ReachesOne := fun u ↦
  match u with
  | .infinity s => .isTrue (.infinity s)
  | .finite s _ e hm =>
    if he : -52 ≤ e then .isTrue (.finite s hm he) else .isFalse fun | .finite _ _ h => he h
  | .zero _ => .isFalse nofun
  | .notANumber => .isFalse nofun

theorem log2_le_log2 {n m : Nat} (h : n ≤ m) : n.log2 ≤ m.log2 := by
  by_cases hzero : n = 0
  · rw [hzero, Nat.log2_zero]
    exact Nat.zero_le _
  · exact (Nat.le_log2 (by omega)).mpr (Nat.le_trans (Nat.log2_self_le hzero) h)

/-- The quotient of two significands has no more places than the first with its zeros. -/
theorem log2_div_le (m k n : Nat) : (m <<< k / n).log2 ≤ m.log2 + k := by
  by_cases hzero : m = 0
  · rw [hzero, Nat.zero_shiftLeft, Nat.zero_div, Nat.log2_zero]
    exact Nat.zero_le _
  · rw [← log2_shiftLeft hzero k]
    exact log2_le_log2 (Nat.div_le_self _ _)

/-- A quotient is the quotient of two significands, rounded once. -/
theorem exists_div_eq (s t : Sign) {m n : Nat} {e f : Int} (hm : 0 < m) (hn : 0 < n) :
    ∃ g a, g ≤ e - f ∧ UnpackedFloat.div Format.binary64 (.finite s m e hm) (.finite t n f hn)
      = roundWithAccuracy Format.binary64 (s / t) (m <<< (e - f - g).toNat / n) g a :=
  ⟨_, _, Int.min_le_left _ _, rfl⟩

/-- Dividing by one or more does not raise the exponent by more than the places of a significand. -/
theorem exponentField_div {x y : Float} {b : Nat} (hx : exponentField x.toModel ≤ b)
    (hy : ReachesOne y.toModel.unpack) (hpos : 0 < b) (hb : b + 53 < 0x7FF) :
    exponentField (x / y).toModel ≤ b + 53 := by
  have hfits := fitting_unpack hx hpos (by omega)
  change exponentField (.pack (UnpackedFloat.div Format.binary64 x.toModel.unpack
    y.toModel.unpack)) ≤ b + 53
  refine exponentField_pack ?_ hb
  generalize x.toModel.unpack = u at hfits ⊢
  generalize y.toModel.unpack = v at hy ⊢
  cases hfits with
  | zero s =>
    cases hy with
    | infinity t => exact .zero _
    | finite t hn hf => exact .zero _
  | @finite s m e hm hlog he =>
    cases hy with
    | infinity t => exact .zero _
    | @finite t n f hn hf =>
      obtain ⟨g, a, hg, hdiv⟩ := exists_div_eq s t hm hn (e := e) (f := f)
      have hplaces := log2_div_le m (e - f - g).toNat n
      rw [hdiv]
      exact exponentAtMost_roundWithAccuracy _ _ (by omega) (by omega) (by omega)

/-- A significand with more places than fit fills them after rounding, and its first bit does not
move down. -/
theorem exists_fills_roundWithAccuracy {m : Nat} {e : Int} (a : Accuracy) (hm : 52 ≤ m.log2)
    (he : -1074 ≤ m.log2 + e - 52) :
    ∃ (r : Nat) (f : Int) (h : Fills r), m.log2 + e - 52 ≤ f ∧
      roundWithAccuracy Format.binary64 .positive m e a = .finite .positive r f h.pos := by
  obtain ⟨carry, hcarry, k, j, r, hk, hr, hj, heq⟩ :=
    exists_roundWithAccuracy_eq .positive m e a
  have hplaces : k = m.log2 - 52 := by
    rw [hk, excessPlaces]
    omega
  have hne : m ≠ 0 := by
    intro hzero
    rw [hzero, Nat.log2_zero] at hm
    exact absurd hm (by decide)
  -- what is left after the shift has the places of a significand, and a carry may fill them all
  have hlow : 2 ^ 52 ≤ m / 2 ^ k := by
    rw [Nat.le_div_iff_mul_le (Nat.two_pow_pos k), ← Nat.pow_add, hplaces]
    exact Nat.le_trans (Nat.pow_le_pow_right Nat.two_pos (by omega)) (Nat.log2_self_le hne)
  have hhigh : m / 2 ^ k < 2 ^ 53 := by
    rw [Nat.div_lt_iff_lt_mul (Nat.two_pow_pos k), ← Nat.pow_add, hplaces]
    exact Nat.lt_of_lt_of_le Nat.lt_log2_self (Nat.pow_le_pow_right Nat.two_pos (by omega))
  have hfills : Fills (r / 2 ^ j) := by
    by_cases hfull : r = 2 ^ 53
    · have hone : j = 1 := by
        rw [hj, excessPlaces, hfull, Nat.log2_two_pow]
        omega
      rw [hfull, hone]
      exact @Nat.log2_two_pow 52
    · have hlog : r.log2 = 52 := (Nat.log2_eq_iff (by omega)).mpr ⟨by omega, by omega⟩
      have hnone : j = 0 := by
        rw [hj, excessPlaces, hlog]
        omega
      rw [hnone, Nat.pow_zero, Nat.div_one]
      exact hlog
  rcases heq with ⟨hzero, -⟩ | ⟨hpos, heq⟩
  · exact absurd hzero (Nat.ne_of_gt hfills.pos)
  · exact ⟨r / 2 ^ j, e + k + j, hfills, by omega, heq⟩

theorem reachesOne_unpack_pack {r : Nat} (h : Fills r) {e : Int} (he : -52 ≤ e) :
    ReachesOne (Float.Model.pack (.finite .positive r e h.pos)).unpack := by
  by_cases hfits : e + 1075 < 2047
  · rw [h.unpack_pack (by omega) hfits]
    exact .finite .positive _ he
  · have hlarge : 2048 ≤ (e + (1023 : Nat) + (52 : Nat)).toNat + 1 := by omega
    have hpack : UnpackedFloat.pack Format.binary64 (.finite .positive r e h.pos)
        = packedInfinity Format.binary64 .positive := if_pos hlarge
    have hunpack : UnpackedFloat.unpack Format.binary64 (packedInfinity Format.binary64 .positive)
        = .infinity .positive := rfl
    change ReachesOne (UnpackedFloat.unpack Format.binary64 (UnpackedFloat.pack Format.binary64 _))
    rw [hpack, hunpack]
    exact .infinity .positive

/-- The table of small powers of ten starts at one. -/
theorem reachesOne_small :
    ∀ k : Fin 23, ReachesOne (Float.ofScientific 1 false k).toModel.unpack := by
  decide +kernel

/-- Powers of ten are one or more as floats. -/
theorem reachesOne_ofScientific (k : Nat) :
    ReachesOne (Float.ofScientific 1 false k).toModel.unpack := by
  by_cases hk : k ≤ 22
  · exact reachesOne_small ⟨k, Nat.lt_succ_of_le hk⟩
  · rw [Float.ofScientific, dif_neg fun h ↦ hk h.2]
    change ReachesOne (Float.Model.pack (UnpackedFloat.ofScientific Format.binary64 1 k)).unpack
    by_cases hlarge : (k : Int) > (2 ^ 11 : Nat)
    · have hinfinite : UnpackedFloat.ofScientific Format.binary64 1 k = .infinity .positive :=
        (dif_neg Nat.one_ne_zero).trans (if_pos hlarge)
      rw [hinfinite]
      exact .infinity .positive
    · have hten : 1 ≤ 10 ^ k := Nat.one_le_pow _ _ (by decide)
      have hlog : 53 ≤ (1 <<< 53 * 10 ^ k).log2 :=
        (Nat.le_log2 (by omega)).mpr (Nat.le_mul_of_pos_right _ hten)
      obtain ⟨r, f, hr, hf, heq⟩ := exists_fills_roundWithAccuracy (e := -53) .exact
        (Nat.le_trans (by decide) hlog) (by omega)
      rw [ofScientific_eq_round Nat.one_ne_zero hlarge, heq]
      exact reachesOne_unpack_pack hr (by omega)

/-! ## Reading decimals -/

theorem isFiniteFloat_neg {x : Float} (h : isFiniteFloat x = true) : isFiniteFloat (-x) = true := by
  have hne := isFiniteFloat_iff.mp h
  have hlt := exponentField_lt x.toModel
  have hfield : exponentField (-x).toModel ≤ 0x7FE :=
    exponentField_neg (by omega) (by decide) (by decide)
  exact isFiniteFloat_of_exponentField hfield (by decide)

/-- Scaling up is refused when it overflows, and every step down adds a bounded number of places. -/
theorem isFiniteFloat_scaledBy {fuel b : Nat} {x y : Float} {exponent : Int}
    (h : scaledBy fuel x exponent = some y) (hx : exponentField x.toModel ≤ b) (hpos : 0 < b)
    (hb : b + 53 * fuel < 0x7FF) : isFiniteFloat y = true := by
  induction fuel generalizing x exponent b with
  | zero =>
    rw [← Option.some.inj h]
    exact isFiniteFloat_of_exponentField hx (by omega)
  | succ fuel ih =>
    have hdown : ∀ k, exponentField (x / Float.ofScientific 1 false k).toModel ≤ b + 53 := fun k ↦
      exponentField_div hx (reachesOne_ofScientific k) hpos (by omega)
    rw [scaledBy] at h
    split at h
    · split at h
      · dsimp only at h
        split at h
        · next hfinite => exact Option.some.inj h ▸ hfinite
        · cases h
      · rw [← Option.some.inj h]
        exact isFiniteFloat_of_exponentField (hdown _) (by omega)
    · split at h
      · rw [← Option.some.inj h]
        exact isFiniteFloat_of_exponentField hx (by omega)
      · split at h
        · cases h
        · exact ih h (hdown 308) (by omega) (by omega)

theorem isFiniteFloat_scaledFloat {significand : UInt64} {exponent : Int} {y : Float}
    (h : scaledFloat significand exponent = some y) : isFiniteFloat y = true :=
  isFiniteFloat_scaledBy h (exponentField_toFloat significand) (by decide) (by decide)

/-! ## Comparing -/

theorem exists_compare {b c : Int} {u v : UnpackedFloat} (hu : Fitting b u) (hv : Fitting c v) :
    ∃ o, u.compare v = some o ∧ v.compare u = some o.swap := by
  have hswap : ∀ (m n : Nat) (e f : Int), (compare f e).then (compare n m)
      = ((compare e f).then (compare m n)).swap := by
    intro m n e f
    rw [Ordering.swap_then, Int.compare_swap, Nat.compare_swap]
  cases hu with
  | zero s =>
    cases hv with
    | zero t => exact ⟨.eq, rfl, rfl⟩
    | finite t hn _ _ =>
      cases t with
      | positive => exact ⟨.lt, rfl, rfl⟩
      | negative => exact ⟨.gt, rfl, rfl⟩
  | @finite s m e hm _ _ =>
    cases hv with
    | zero t =>
      cases s with
      | positive => exact ⟨.gt, rfl, rfl⟩
      | negative => exact ⟨.lt, rfl, rfl⟩
    | @finite t n f hn _ _ =>
      cases s with
      | positive =>
        cases t with
        | positive => exact ⟨_, rfl, congrArg some (hswap m n e f)⟩
        | negative => exact ⟨.gt, rfl, rfl⟩
      | negative =>
        cases t with
        | positive => exact ⟨.lt, rfl, rfl⟩
        | negative => exact ⟨_, rfl, congrArg (some ∘ Ordering.swap) (hswap m n e f)⟩

theorem float_le_iff {x y : Float} :
    x ≤ y ↔ (x.toModel.unpack.compare y.toModel.unpack).any (·.isLE) = true := by
  change decide (x.toModel ≤ y.toModel) = true ↔ _
  rw [decide_eq_true_iff]
  rfl

theorem fitting_of_isFiniteFloat {x : Float} (h : isFiniteFloat x = true) :
    Fitting 971 x.toModel.unpack := by
  have hne := isFiniteFloat_iff.mp h
  have hlt := exponentField_lt x.toModel
  exact fitting_unpack (b := 2046) (by omega) (by decide) (by decide)

/-- **Finite floats are in a total order.** -/
theorem float_not_lt_iff {x y : Float} (hx : isFiniteFloat x = true) (hy : isFiniteFloat y = true) :
    ¬x < y ↔ y ≤ x := by
  obtain ⟨o, ho, hswap⟩ :=
    exists_compare (fitting_of_isFiniteFloat hx) (fitting_of_isFiniteFloat hy)
  rw [float_lt_iff, float_le_iff, ho, hswap]
  cases o <;> decide

end Workflow
