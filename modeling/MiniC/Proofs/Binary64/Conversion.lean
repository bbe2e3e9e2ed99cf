import MiniC.Proofs.Binary64.Order

/-!
# Integers as doubles

Where the double nearest to an integer lies in the order of doubles (`place_ofInt`). Greater
integers have doubles that are not less (`intPlace_le`), and of two integers that one double stands
for both are at least `2 ^ 53` or both at most `-2 ^ 53` (`intPlace_lt`).

An integer is rounded by shifting its digits out to the right one by one, and a bit remembers
whether any of those behind the last one was set. A shift keeps the order of what it is given
(`weight_shiftRightOne`), and so does rounding in the end (`roundedMantissa_le`). So nothing has to
be known about what is rounded up and what is rounded down.
-/

namespace MiniC.Binary64

open Float.Model (Format UnpackedFloat totalExponent)
open Float.Model.UnpackedFloat (Sign ExtendedMantissa)

-- ---------------------------------------------------------------------------
-- Shifting
-- ---------------------------------------------------------------------------

/-- A mantissa and what has been shifted out of it, as one number. -/
def weight (em : ExtendedMantissa) : Nat :=
  4 * em.mantissa + 2 * em.roundBit.toNat + em.stickyBit.toNat

variable {em other : ExtendedMantissa} {m n s : Nat} {e : Int}

theorem weight_bits (em : ExtendedMantissa) :
    em.mantissa = weight em / 4 ∧
      2 * em.roundBit.toNat + em.stickyBit.toNat = weight em % 4 := by
  have hround := em.roundBit.toNat_le
  have hsticky := em.stickyBit.toNat_le
  unfold weight
  omega

theorem toNat_or (r t : Bool) : (r || t).toNat = min 1 (2 * r.toNat + t.toNat) := by
  cases r <;> cases t <;> rfl

theorem toNat_odd (m : Nat) : (m % 2 != 0).toNat = m % 2 := by
  rcases Nat.mod_two_eq_zero_or_one m with h | h <;> rw [h] <;> rfl

theorem weight_shiftRightOne (em : ExtendedMantissa) :
    weight em.shiftRightOne = 2 * (weight em / 4) + min 1 (weight em % 4) := by
  obtain ⟨hmantissa, hbits⟩ := weight_bits em
  have hhalves := Nat.div_add_mod em.mantissa 2
  change 4 * (em.mantissa / 2) + 2 * (em.mantissa % 2 != 0).toNat +
    (em.roundBit || em.stickyBit).toNat = _
  rw [toNat_odd, toNat_or, hbits]
  omega

theorem weight_shiftRightOne_le (h : weight em ≤ weight other) :
    weight em.shiftRightOne ≤ weight other.shiftRightOne := by
  rw [weight_shiftRightOne, weight_shiftRightOne]
  omega

/-- To the nearest mantissa, and to the even one of two. -/
theorem roundedMantissa_eq (em : ExtendedMantissa) :
    em.roundedMantissa = (weight em + 1 + em.mantissa % 2) / 4 := by
  obtain ⟨m, r, t⟩ := em
  cases r with
  | false =>
    cases t with
    | false =>
      change m = (4 * m + 0 + 0 + 1 + m % 2) / 4
      omega
    | true =>
      change m = (4 * m + 0 + 1 + 1 + m % 2) / 4
      omega
  | true =>
    cases t with
    | false =>
      change m + m % 2 = (4 * m + 2 + 0 + 1 + m % 2) / 4
      omega
    | true =>
      change m + 1 = (4 * m + 2 + 1 + 1 + m % 2) / 4
      omega

theorem roundedMantissa_bounds (em : ExtendedMantissa) :
    em.mantissa ≤ em.roundedMantissa ∧ em.roundedMantissa ≤ em.mantissa + 1 := by
  obtain ⟨hmantissa, hbits⟩ := weight_bits em
  have hodd := Nat.mod_lt em.mantissa Nat.two_pos
  rw [roundedMantissa_eq]
  generalize em.mantissa % 2 = odd at hodd
  omega

theorem roundedMantissa_le (h : weight em ≤ weight other) :
    em.roundedMantissa ≤ other.roundedMantissa := by
  have hmantissa : em.mantissa ≤ other.mantissa := by
    rw [(weight_bits em).1, (weight_bits other).1]
    exact Nat.div_le_div_right h
  rcases Nat.lt_or_eq_of_le hmantissa with hlt | heq
  · exact Nat.le_trans (roundedMantissa_bounds em).2
      (Nat.le_trans hlt (roundedMantissa_bounds other).1)
  · rw [roundedMantissa_eq, roundedMantissa_eq, heq]
    exact Nat.div_le_div_right (Nat.add_le_add_right (Nat.add_le_add_right h 1) _)

def shifted (m s : Nat) : ExtendedMantissa :=
  (⟨m, false, false⟩ : ExtendedMantissa) >>> s

theorem shifted_zero (m : Nat) : shifted m 0 = ⟨m, false, false⟩ := rfl

theorem shifted_succ (m s : Nat) : shifted m (s + 1) = (shifted m s).shiftRightOne := rfl

theorem mantissa_shifted (m s : Nat) : (shifted m s).mantissa = m / 2 ^ s := by
  induction s with
  | zero => exact (Nat.div_one m).symm
  | succ s ih =>
    change (shifted m s).mantissa / 2 = _
    rw [ih, Nat.div_div_eq_div_mul, Nat.pow_succ]

theorem weight_shifted (h : m ≤ n) (s : Nat) : weight (shifted m s) ≤ weight (shifted n s) := by
  induction s with
  | zero => exact Nat.mul_le_mul_left 4 h
  | succ s ih => exact weight_shiftRightOne_le ih

theorem shifted_mul (m s : Nat) : shifted (m * 2 ^ s) s = ⟨m, false, false⟩ := by
  induction s generalizing m with
  | zero => rw [Nat.pow_zero, Nat.mul_one, shifted_zero]
  | succ s ih =>
    have heven : m * 2 ^ (s + 1) = 2 * m * 2 ^ s := by
      rw [Nat.pow_succ, Nat.mul_comm (2 ^ s), ← Nat.mul_assoc, Nat.mul_comm m]
    rw [shifted_succ, heven, ih, ExtendedMantissa.shiftRightOne]
    simp

-- ---------------------------------------------------------------------------
-- Rounding
-- ---------------------------------------------------------------------------

structure Full (m : Nat) : Prop where
  low : 2 ^ 52 ≤ m
  high : m < 2 ^ 53

theorem Full.pos (h : Full m) : 0 < m :=
  Nat.lt_of_lt_of_le (by decide) h.low

theorem full_iff (hm : m ≠ 0) : Full m ↔ m.log2 = 52 :=
  ⟨fun h => (Nat.log2_eq_iff hm).2 ⟨h.low, h.high⟩,
    fun h => ⟨((Nat.log2_eq_iff hm).1 h).1, ((Nat.log2_eq_iff hm).1 h).2⟩⟩

theorem Full.log2_eq (h : Full m) : m.log2 = 52 :=
  (full_iff (Nat.ne_of_gt h.pos)).1 h

theorem magnitude_inj {f : Int} (hm : Full m) (hn : Full n) (h : magnitude m e = magnitude n f) :
    m = n ∧ e = f := by
  obtain ⟨hmlow, hmhigh⟩ := hm
  obtain ⟨hnlow, hnhigh⟩ := hn
  unfold magnitude at h
  omega

theorem targetExponent_eq (he : -1022 ≤ m.log2 + e) :
    Format.binary64.targetExponent (totalExponent m e) = m.log2 + e - 52 := by
  have hbits : Format.binary64.mantissaBits = 53 := rfl
  have hleast : Format.binary64.minExponent = -1074 := rfl
  rw [Format.targetExponent, totalExponent, hbits, hleast]
  omega

theorem shiftToTargetExponent_eq (hlog : m.log2 = 52 + s) (he : -1074 ≤ e + s) :
    UnpackedFloat.shiftToTargetExponent .binary64 m e .exact = (shifted m s, e + s) := by
  have htarget : Format.binary64.targetExponent (totalExponent m e) = e + s := by
    rw [targetExponent_eq (by omega)]
    omega
  have hamount : (e + s - e).toNat = s := by omega
  unfold UnpackedFloat.shiftToTargetExponent UnpackedFloat.shiftToExponent
  dsimp only
  rw [htarget, hamount]
  rfl

theorem rounded_bounds (hlog : m.log2 = 52 + s) :
    2 ^ 52 ≤ (shifted m s).roundedMantissa ∧ (shifted m s).roundedMantissa ≤ 2 ^ 53 := by
  have hm : m ≠ 0 := by
    rintro rfl
    rw [Nat.log2_zero] at hlog
    omega
  obtain ⟨hlow, hhigh⟩ := roundedMantissa_bounds (shifted m s)
  rw [mantissa_shifted] at hlow hhigh
  have hpow : 2 ^ 52 * 2 ^ s ≤ m := by
    rw [← Nat.pow_add, ← hlog]
    exact Nat.log2_self_le hm
  have hless : m < 2 ^ s * 2 ^ 53 := by
    rw [Nat.mul_comm, ← Nat.pow_add, Nat.add_right_comm 52 1 s, ← hlog]
    exact Nat.lt_log2_self
  have hleast := (Nat.le_div_iff_mul_le (Nat.two_pow_pos s)).2 hpow
  have hmost := Nat.div_lt_of_lt_mul hless
  omega

theorem roundWithAccuracy_eq (hlog : m.log2 = 52 + s) (he : -1074 ≤ e + s) (sign : Sign) :
    ∃ n f, ∃ hn : Full n,
      UnpackedFloat.roundWithAccuracy .binary64 sign m e .exact = .finite sign n f hn.pos ∧
      f ≤ e + s + 1 ∧ magnitude n f = magnitude (shifted m s).roundedMantissa (e + s) := by
  obtain ⟨hlow, hhigh⟩ := rounded_bounds hlog
  unfold UnpackedFloat.roundWithAccuracy
  rw [shiftToTargetExponent_eq hlog he]
  dsimp only
  generalize (shifted m s).roundedMantissa = q at hlow hhigh ⊢
  rcases Nat.lt_or_eq_of_le hhigh with hlt | rfl
  · have hq : Full q := ⟨hlow, hlt⟩
    rw [shiftToTargetExponent_eq (s := 0) hq.log2_eq (by omega), shifted_zero]
    refine ⟨q, e + s + (0 : Nat), hq, dif_neg (Nat.ne_of_gt hq.pos), by omega, ?_⟩
    rw [Int.natCast_zero, Int.add_zero]
  · have hcarry : shifted (2 ^ 53) 1 = ⟨2 ^ 52, false, false⟩ := shifted_mul (2 ^ 52) 1
    rw [shiftToTargetExponent_eq (s := 1) Nat.log2_two_pow (by omega), hcarry]
    refine ⟨2 ^ 52, e + s + (1 : Nat), ⟨Nat.le_refl _, by decide⟩, rfl, by omega, ?_⟩
    unfold magnitude
    omega

theorem log2_mul_two_pow (hm : m ≠ 0) (s : Nat) : (m * 2 ^ s).log2 = m.log2 + s := by
  refine (Nat.log2_eq_iff (Nat.mul_ne_zero hm (Nat.ne_of_gt (Nat.two_pow_pos s)))).2 ⟨?_, ?_⟩
  · rw [Nat.pow_add]
    exact Nat.mul_le_mul_right _ (Nat.log2_self_le hm)
  · rw [Nat.add_right_comm, Nat.pow_add]
    exact Nat.mul_lt_mul_of_pos_right Nat.lt_log2_self (Nat.two_pow_pos s)

theorem roundWithAccuracy_mul (hm : Full m) (he : -1074 ≤ e + s) (sign : Sign) :
    UnpackedFloat.roundWithAccuracy .binary64 sign (m * 2 ^ s) e .exact =
      .finite sign m (e + s) hm.pos := by
  have hlog : (m * 2 ^ s).log2 = 52 + s := by
    rw [log2_mul_two_pow (Nat.ne_of_gt hm.pos), hm.log2_eq]
  obtain ⟨n, f, hn, hround, -, hmagnitude⟩ := roundWithAccuracy_eq hlog he sign
  rw [shifted_mul] at hmagnitude
  change magnitude n f = magnitude m (e + s) at hmagnitude
  obtain ⟨rfl, rfl⟩ : n = m ∧ f = e + s := magnitude_inj hn hm hmagnitude
  exact hround

-- ---------------------------------------------------------------------------
-- Bits
-- ---------------------------------------------------------------------------

theorem unpack_packComponents (sign : Sign) {w : BitVec 11} (v : BitVec 52) (htop : w ≠ -1#11)
    (hzero : w ≠ 0#11) :
    UnpackedFloat.unpack .binary64 (UnpackedFloat.packComponents .binary64 sign w v) =
      .finite sign (1#1 ++ v).toNat (w.toNat - 1075) (by rw [toNat_one_append]; omega) := by
  unfold UnpackedFloat.unpack
  simp only [UnpackedFloat.unpackExponent_packComponents,
    UnpackedFloat.unpackMantissa_packComponents, UnpackedFloat.unpackSign_packComponents,
    Sign.ofBitVec_toBitVec, htop, hzero, if_false]
  rfl

theorem pack_eq (hm : Full m) (htop : e ≤ 971) (sign : Sign) :
    UnpackedFloat.pack .binary64 (.finite sign m e hm.pos) =
      UnpackedFloat.packComponents .binary64 sign (BitVec.ofNat 11 (e + 1075).toNat)
        (BitVec.ofNat 52 m) := by
  have hbias : Format.binary64.exponentBias = 1023 := rfl
  have hbits : Format.binary64.mantissaBits = 53 := rfl
  have hbiased : (e + (1023 : Nat) + (52 : Nat)).toNat = (e + 1075).toNat := by omega
  have hin : ¬2 ^ 11 ≤ (e + 1075).toNat + 1 := by omega
  unfold UnpackedFloat.pack
  dsimp only
  rw [hbias, hbits, hm.log2_eq, hbiased, if_neg hin, if_pos rfl]

theorem unpack_pack (hm : Full m) (he : -1074 ≤ e) (htop : e ≤ 971) (sign : Sign) :
    (Float.Model.pack (.finite sign m e hm.pos)).unpack = .finite sign m e hm.pos := by
  obtain ⟨hlow, hhigh⟩ := hm
  have hw : (BitVec.ofNat 11 (e + 1075).toNat).toNat = (e + 1075).toNat := by
    rw [BitVec.toNat_ofNat]
    omega
  have hv : (1#1 ++ BitVec.ofNat 52 m).toNat = m := by
    rw [toNat_one_append, BitVec.toNat_ofNat]
    omega
  have hall : BitVec.ofNat 11 (e + 1075).toNat ≠ -1#11 := by
    intro h
    rw [h] at hw
    change 2047 = _ at hw
    omega
  have hnone : BitVec.ofNat 11 (e + 1075).toNat ≠ 0#11 := by
    intro h
    rw [h] at hw
    change 0 = _ at hw
    omega
  have hunpack := unpack_packComponents sign (BitVec.ofNat 52 m) hall hnone
  rw [← pack_eq ⟨hlow, hhigh⟩ htop sign] at hunpack
  refine hunpack.trans ?_
  have hexponent : ((e + 1075).toNat : Int) - 1075 = e := by omega
  simp only [hv, hw, hexponent]

-- ---------------------------------------------------------------------------
-- Natural numbers
-- ---------------------------------------------------------------------------

/-- The leading 53 digits of a number, rounded, with zeros behind where it has fewer. -/
def leading (n : Nat) : Nat :=
  (shifted (n * 2 ^ 53) (n.log2 + 1)).roundedMantissa

def natPlace (n : Nat) : Int :=
  if n = 0 then 0 else magnitude (leading n) (n.log2 - 52)

theorem natPlace_of_ne (hn : n ≠ 0) : natPlace n = magnitude (leading n) (n.log2 - 52) :=
  if_neg hn

theorem log2_leading (hn : n ≠ 0) : (n * 2 ^ 53).log2 = 52 + (n.log2 + 1) := by
  rw [log2_mul_two_pow hn]
  omega

theorem ofScientific_eq_round (hn : n ≠ 0) :
    UnpackedFloat.ofScientific .binary64 n 0 =
      UnpackedFloat.roundWithAccuracy .binary64 .positive (n * 2 ^ 53) (-53) .exact := by
  have hpow : (2 : Int) ^ Format.binary64.exponentBits = 2048 := rfl
  have hmost : ¬(0 : Int) > 2 ^ Format.binary64.exponentBits := by
    rw [hpow]
    decide
  have hleast : ¬(0 : Int) < -(2 ^ Format.binary64.exponentBits + (n.log2 : Int)) := by
    rw [hpow]
    omega
  have hbits : Format.binary64.mantissaBits = 53 := rfl
  have hexponent : -((53 : Nat) : Int) = -53 := rfl
  have hsign : Sign.positive * Sign.positive = Sign.positive := rfl
  rw [UnpackedFloat.ofScientific, dif_neg hn, if_neg hmost, if_neg hleast,
    if_pos (Int.le_refl _)]
  unfold UnpackedFloat.mul
  dsimp only
  rw [Nat.shiftLeft_eq, hbits, hexponent, hsign, Int.toNat_zero, Nat.pow_zero, Nat.mul_one,
    Int.add_zero]

theorem full_padded (hn : n ≠ 0) (hlt : n < 2 ^ 53) : Full (n * 2 ^ (52 - n.log2)) := by
  have hlog : n.log2 < 53 := (Nat.log2_lt hn).2 hlt
  refine (full_iff (Nat.mul_ne_zero hn (Nat.ne_of_gt (Nat.two_pow_pos _)))).2 ?_
  rw [log2_mul_two_pow hn]
  omega

theorem leading_of_lt (hn : n ≠ 0) (hlt : n < 2 ^ 53) : leading n = n * 2 ^ (52 - n.log2) := by
  have hlog : n.log2 < 53 := (Nat.log2_lt hn).2 hlt
  have hpad : n * 2 ^ 53 = n * 2 ^ (52 - n.log2) * 2 ^ (n.log2 + 1) := by
    rw [Nat.mul_assoc, ← Nat.pow_add]
    congr 2
    omega
  rw [leading, hpad, shifted_mul]
  rfl

/-- Numbers of at most 53 digits are doubles. -/
theorem ofNat_of_lt (hn : n ≠ 0) (hlt : n < 2 ^ 53) :
    UnpackedFloat.ofNat .binary64 n = .finite .positive (n * 2 ^ (52 - n.log2)) (n.log2 - 52)
      (full_padded hn hlt).pos := by
  have hlog : n.log2 < 53 := (Nat.log2_lt hn).2 hlt
  have hpos : compare (n : Int) 0 = .gt := Int.compare_eq_gt.2 (by omega)
  have htarget : Format.binary64.targetExponent (totalExponent n 0) = n.log2 - 52 := by
    rw [targetExponent_eq (by omega), Int.add_zero]
  have hamount : (0 - ((n.log2 : Int) - 52)).toNat = 52 - n.log2 := by omega
  rw [UnpackedFloat.ofNat, UnpackedFloat.ofInt, UnpackedFloat.normalize, hpos]
  dsimp only
  rw [Int.toNat_natCast, UnpackedFloat.round, htarget, UnpackedFloat.decreaseExponent]
  dsimp only
  rw [hamount, Nat.shiftLeft_eq]
  have hround := roundWithAccuracy_mul (full_padded hn hlt) (e := (n.log2 : Int) - 52) (s := 0)
    (by omega) .positive
  have hexponent : (0 : Int) - ((52 - n.log2 : Nat) : Int) = (n.log2 : Int) - 52 := by omega
  rw [hexponent]
  simpa using hround

theorem pack_mul_one (hm : Full m) (he : -1022 ≤ e) (htop : e ≤ 971) :
    (⟨Float.Model.pack (.finite .positive m e hm.pos)⟩ : Float) *
      Float.ofBits 4607182418800017408 = ⟨Float.Model.pack (.finite .positive m e hm.pos)⟩ := by
  have hone : (Float.ofBits 4607182418800017408).toModel.unpack =
      .finite .positive (2 ^ 52) (-52) (by decide) := rfl
  have hsign : Sign.positive * Sign.positive = Sign.positive := rfl
  have hproduct := roundWithAccuracy_mul hm (e := e + -52) (s := 52) (by omega) .positive
  have hexponent : e + -52 + (52 : Nat) = e := by omega
  change (⟨Float.Model.pack (UnpackedFloat.mul .binary64
    (Float.Model.pack (.finite .positive m e hm.pos)).unpack
    (Float.ofBits 4607182418800017408).toModel.unpack)⟩ : Float) = _
  rw [unpack_pack hm (by omega) htop, hone]
  unfold UnpackedFloat.mul
  dsimp only
  rw [hsign, hproduct]
  simp only [hexponent]

/-- A number of at most 53 digits is read as a word, and then multiplied by one. -/
theorem ofNat_eq_mul_one (hlt : n < 2 ^ 53) :
    Float.ofNat n = (⟨Float.Model.pack (UnpackedFloat.ofNat .binary64 n)⟩ : Float) *
      Float.ofBits 4607182418800017408 := by
  have hword : n.toUInt64.toFloat = ⟨Float.Model.pack (UnpackedFloat.ofNat .binary64 n)⟩ := by
    have htoNat : n.toUInt64.toNat = n := Nat.mod_eq_of_lt (by omega)
    rw [UInt64.toFloat, Float.Model.ofUInt64, UnpackedFloat.ofUInt64, htoNat]
  rw [← hword]
  unfold Float.ofNat
  change Float.ofScientific n false 0 = _
  rw [Float.ofScientific, dif_pos ⟨hlt, Nat.zero_le _⟩]
  rfl

theorem ofNat_eq_round (hlong : 2 ^ 53 ≤ n) :
    Float.ofNat n = ⟨Float.Model.pack
      (UnpackedFloat.roundWithAccuracy .binary64 .positive (n * 2 ^ 53) (-53) .exact)⟩ := by
  unfold Float.ofNat
  change Float.ofScientific n false 0 = _
  rw [Float.ofScientific, dif_neg fun h => Nat.not_lt.2 hlong h.1,
    ← ofScientific_eq_round (by omega)]
  rfl

theorem ofNat_eq_pack (hn : n ≠ 0) (hlt : n < 2 ^ 64) :
    ∃ m e, ∃ hm : Full m,
      Float.ofNat n = ⟨Float.Model.pack (.finite .positive m e hm.pos)⟩ ∧
      -1074 ≤ e ∧ e ≤ 971 ∧ magnitude m e = natPlace n := by
  rcases Nat.lt_or_ge n (2 ^ 53) with hshort | hlong
  · have hlog : n.log2 < 53 := (Nat.log2_lt hn).2 hshort
    refine ⟨n * 2 ^ (52 - n.log2), n.log2 - 52, full_padded hn hshort, ?_, by omega, by omega, ?_⟩
    · rw [ofNat_eq_mul_one hshort, ofNat_of_lt hn hshort]
      exact pack_mul_one (full_padded hn hshort) (by omega) (by omega)
    · rw [natPlace_of_ne hn, leading_of_lt hn hshort]
  · have hlog : n.log2 < 64 := (Nat.log2_lt hn).2 hlt
    obtain ⟨m, e, hm, hround, hle, hmagnitude⟩ :=
      roundWithAccuracy_eq (log2_leading hn) (e := -53) (by omega) .positive
    have hexponent : (-53 : Int) + (n.log2 + 1 : Nat) = n.log2 - 52 := by omega
    rw [hexponent] at hle hmagnitude
    refine ⟨m, e, hm, ?_, ?_, by omega, hmagnitude.trans (natPlace_of_ne hn).symm⟩
    · rw [ofNat_eq_round hlong, hround]
    · have hhigh := hm.high
      unfold magnitude at hmagnitude
      omega

theorem place_pack (hm : Full m) (he : -1074 ≤ e) (htop : e ≤ 971) (sign : Sign) :
    place? ⟨Float.Model.pack (.finite sign m e hm.pos)⟩ = some (sign.apply (magnitude m e)) := by
  rw [place?, unpack_pack hm he htop]
  rfl

theorem place_ofNat (hlt : n < 2 ^ 64) : place? (Float.ofNat n) = some (natPlace n) := by
  by_cases hn : n = 0
  · subst hn
    rfl
  · obtain ⟨m, e, hm, hof, he, htop, hmagnitude⟩ := ofNat_eq_pack hn hlt
    rw [hof, place_pack hm he htop, ← hmagnitude]
    rfl

theorem place_neg_ofNat (hn : n ≠ 0) (hlt : n < 2 ^ 64) :
    place? (Float.ofNat n).neg = some (-natPlace n) := by
  obtain ⟨m, e, hm, hof, he, htop, hmagnitude⟩ := ofNat_eq_pack hn hlt
  have hneg : (Float.ofNat n).neg = ⟨Float.Model.pack (.finite .negative m e hm.pos)⟩ := by
    change (⟨Float.Model.pack (Float.ofNat n).toModel.unpack.neg⟩ : Float) = _
    rw [hof, unpack_pack hm he htop]
    rfl
  rw [hneg, place_pack hm he htop, ← hmagnitude]
  rfl

theorem leading_bounds (hn : n ≠ 0) : 2 ^ 52 ≤ leading n ∧ leading n ≤ 2 ^ 53 :=
  rounded_bounds (log2_leading hn)

theorem natPlace_pos (hn : n ≠ 0) : 0 < natPlace n := by
  have hlow := (leading_bounds hn).1
  rw [natPlace_of_ne hn, magnitude]
  omega

theorem log2_le_log2 (hm : m ≠ 0) (h : m ≤ n) : m.log2 ≤ n.log2 := by
  have hn : n ≠ 0 := by omega
  exact (Nat.le_log2 hn).2 (Nat.le_trans (Nat.log2_self_le hm) h)

theorem natPlace_le (h : m ≤ n) : natPlace m ≤ natPlace n := by
  by_cases hm : m = 0
  · by_cases hn : n = 0
    · rw [hm, hn]
    · rw [hm]
      exact Int.le_of_lt (natPlace_pos hn)
  · have hn : n ≠ 0 := by omega
    obtain ⟨hlow, hhigh⟩ := leading_bounds hm
    obtain ⟨klow, khigh⟩ := leading_bounds hn
    rw [natPlace_of_ne hm, natPlace_of_ne hn, magnitude, magnitude]
    rcases Nat.lt_or_eq_of_le (log2_le_log2 hm h) with hlt | heq
    · omega
    · have hleading : leading m ≤ leading n := by
        rw [leading, leading, heq]
        exact roundedMantissa_le (weight_shifted (Nat.mul_le_mul_right _ h) _)
      omega

theorem natPlace_lt (h : m < n) (hlt : m < 2 ^ 53) : natPlace m < natPlace n := by
  have hn : n ≠ 0 := by omega
  by_cases hm : m = 0
  · rw [hm]
    exact natPlace_pos hn
  · obtain ⟨hlow, hhigh⟩ := full_padded hm hlt
    obtain ⟨klow, khigh⟩ := leading_bounds hn
    rw [natPlace_of_ne hm, natPlace_of_ne hn, magnitude, magnitude, leading_of_lt hm hlt]
    rcases Nat.lt_or_eq_of_le (log2_le_log2 hm (Nat.le_of_lt h)) with hlog | heq
    · omega
    · have hnlt : n < 2 ^ 53 := by
        rw [← Nat.log2_lt hn, ← heq, Nat.log2_lt hm]
        exact hlt
      have hpad : m * 2 ^ (52 - m.log2) < n * 2 ^ (52 - m.log2) :=
        Nat.mul_lt_mul_of_pos_right h (Nat.two_pow_pos _)
      rw [leading_of_lt hn hnlt, ← heq]
      omega

-- ---------------------------------------------------------------------------
-- Integers
-- ---------------------------------------------------------------------------

def intPlace : Int → Int
  | .ofNat n => natPlace n
  | .negSucc n => -natPlace (n + 1)

theorem place_ofInt {n : Int} (hlt : n.natAbs < 2 ^ 64) :
    place? (Float.ofInt n) = some (intPlace n) := by
  cases n with
  | ofNat n => exact place_ofNat hlt
  | negSucc n => exact place_neg_ofNat (Nat.succ_ne_zero n) hlt

/-- Two integers so far from zero, on one side of it, that a double may stand for both. -/
def Crowded (m n : Int) : Prop :=
  2 ^ 53 ≤ m ∧ 2 ^ 53 ≤ n ∨ m ≤ -2 ^ 53 ∧ n ≤ -2 ^ 53

variable {a b : Int}

theorem intPlace_of_nonneg (h : 0 ≤ a) : intPlace a = natPlace a.natAbs := by
  cases a with
  | ofNat n => rfl
  | negSucc n => exact absurd h (by omega)

theorem intPlace_of_neg (h : a < 0) : intPlace a = -natPlace a.natAbs := by
  cases a with
  | ofNat n => exact absurd h (Int.not_lt.2 (Int.natCast_nonneg n))
  | negSucc n => rfl

theorem intPlace_le (h : a ≤ b) : intPlace a ≤ intPlace b := by
  rcases lt_or_ge a 0 with ha | ha
  · rw [intPlace_of_neg ha]
    have hapos := natPlace_pos (n := a.natAbs) (by omega)
    rcases lt_or_ge b 0 with hb | hb
    · rw [intPlace_of_neg hb]
      exact Int.neg_le_neg (natPlace_le (by omega))
    · rw [intPlace_of_nonneg hb]
      have hbnonneg := natPlace_le (Nat.zero_le b.natAbs)
      exact Int.le_trans (Int.le_of_lt (Int.neg_neg_of_pos hapos)) hbnonneg
  · rw [intPlace_of_nonneg ha, intPlace_of_nonneg (Int.le_trans ha h)]
    exact natPlace_le (by omega)

theorem intPlace_lt (h : a < b) (hcrowded : ¬Crowded a b) : intPlace a < intPlace b := by
  unfold Crowded at hcrowded
  rcases lt_or_ge a 0 with ha | ha
  · rw [intPlace_of_neg ha]
    have hapos := natPlace_pos (n := a.natAbs) (by omega)
    rcases lt_or_ge b 0 with hb | hb
    · rw [intPlace_of_neg hb]
      exact Int.neg_lt_neg (natPlace_lt (by omega) (by omega))
    · rw [intPlace_of_nonneg hb]
      have hbnonneg := natPlace_le (Nat.zero_le b.natAbs)
      exact Int.lt_of_lt_of_le (Int.neg_neg_of_pos hapos) hbnonneg
  · rw [intPlace_of_nonneg ha, intPlace_of_nonneg (Int.le_trans ha (Int.le_of_lt h))]
    exact natPlace_lt (by omega) (by omega)

end MiniC.Binary64
