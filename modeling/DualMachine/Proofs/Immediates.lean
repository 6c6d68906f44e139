import DualMachine.Proofs.Spelling

/-!
# What an immediate keeps of a value

`size` bytes tell values apart up to a multiple of `2 ^ (8 * size)`. The signed value they are read
back as is the one of its class in the signed range (`normalize_eq_iff`), and two values have the
same bytes exactly when they are of one class (`encode_eq_encode_iff`). What `fits` accepts lies in
the signed or in the unsigned range; the two overlap in the lower half of the unsigned one, so a
class has at most two values that fit, one `2 ^ (8 * size)` above the other (`codec_exact`).
-/

namespace DualMachine.Immediate

/-- The values that `size` bytes represent as signed numbers. -/
def Signed (size : Nat) (v : Int) : Prop := -2 ^ (8 * size - 1) ≤ v ∧ v < 2 ^ (8 * size - 1)

/-- The values that `size` bytes represent as unsigned numbers. -/
def Unsigned (size : Nat) (v : Int) : Prop := 0 ≤ v ∧ v < 2 ^ (8 * size)

instance (size : Nat) (v : Int) : Decidable (Signed size v) := inferInstanceAs (Decidable (_ ∧ _))

instance (size : Nat) (v : Int) : Decidable (Unsigned size v) := inferInstanceAs (Decidable (_ ∧ _))

variable {size : Nat} {u v n : Int}

theorem pos_of_mem_sizes (h : size ∈ sizes) : 0 < size := by
  rcases mem_sizes.mp h with rfl | rfl | rfl | rfl <;> decide

/-- Half of the values are negative when they are read as signed. -/
theorem two_pow_eq_two_mul (h : 0 < size) : (2 : Int) ^ (8 * size) = 2 * 2 ^ (8 * size - 1) := by
  rw [← pow_succ', Nat.sub_add_cancel (by omega)]

theorem normalize_modEq (h : size ∈ sizes) (v : Int) :
    normalize size v ≡ v [ZMOD 2 ^ (8 * size)] := by
  have hmod : v.bmod (2 ^ (8 * size)) % (2 ^ (8 * size) : Nat) = v % (2 ^ (8 * size) : Nat) :=
    Int.bmod_emod
  rw [normalize_eq h]
  exact_mod_cast hmod

theorem signed_normalize (h : size ∈ sizes) (v : Int) : Signed size (normalize size v) := by
  have hlow := Int.le_bmod (x := v) (m := 2 ^ (8 * size)) (Nat.two_pow_pos _)
  have hhigh := Int.bmod_lt (x := v) (m := 2 ^ (8 * size)) (Nat.two_pow_pos _)
  have htwo := two_pow_eq_two_mul (pos_of_mem_sizes h)
  rw [normalize_eq h]
  push_cast at hlow hhigh
  exact ⟨by omega, by omega⟩

/-- Values of one class that are less than two periods apart are equal or one period apart. -/
theorem eq_or_abs_sub_eq {m : Int} (hmod : u ≡ v [ZMOD m]) (hlt : |u - v| < 2 * m) :
    u = v ∨ |u - v| = m := by
  obtain ⟨k, hk⟩ := hmod.symm.dvd
  have hm : 0 < m := by
    have := abs_nonneg (u - v)
    omega
  have habs : |u - v| = m * |k| := by rw [hk, abs_mul, abs_of_pos hm]
  have hk₂ : |k| < 2 := by
    refine lt_of_mul_lt_mul_left ?_ hm.le
    rwa [← habs, mul_comm m 2]
  obtain hk₀ | hk₁ : |k| = 0 ∨ |k| = 1 := by
    have := abs_nonneg k
    omega
  · left
    rw [abs_eq_zero.mp hk₀, mul_zero] at hk
    omega
  · right
    rw [habs, hk₁, mul_one]

theorem normalize_eq_iff (h : size ∈ sizes) :
    n = normalize size v ↔ Signed size n ∧ n ≡ v [ZMOD 2 ^ (8 * size)] := by
  constructor
  · rintro rfl
    exact ⟨signed_normalize h v, normalize_modEq h v⟩
  · rintro ⟨hsigned, hmod⟩
    obtain ⟨hn₁, hn₂⟩ := hsigned
    obtain ⟨hv₁, hv₂⟩ := signed_normalize h v
    have htwo := two_pow_eq_two_mul (pos_of_mem_sizes h)
    have hclose : |n - normalize size v| < 2 ^ (8 * size) := abs_lt.mpr ⟨by omega, by omega⟩
    refine (eq_or_abs_sub_eq (hmod.trans (normalize_modEq h v).symm) ?_).resolve_right hclose.ne
    omega

theorem encode_eq_encode_iff (h : size ∈ sizes) :
    encode size u = encode size v ↔ u ≡ v [ZMOD 2 ^ (8 * size)] := by
  constructor
  · intro hbytes
    have hread : normalize size u = normalize size v := by
      rw [← decode_encode h u [], ← decode_encode h v [], hbytes]
    calc u ≡ normalize size u [ZMOD 2 ^ (8 * size)] := (normalize_modEq h u).symm
      _ ≡ v [ZMOD 2 ^ (8 * size)] := hread ▸ normalize_modEq h v
  · intro hmod
    rw [encode_eq h, encode_eq h, cast_range, hmod]

/-- What fits is represented as signed or as unsigned, where eight bytes are only asked for numbers
of 64 signed bits. -/
theorem fits_iff (h : size ∈ sizes) (hv : Signed 8 v) :
    fits size v = true ↔ Signed size v ∨ Unsigned size v := by
  have htwo := two_pow_eq_two_mul (pos_of_mem_sizes h)
  have hpos : (0 : Int) < 2 ^ (8 * size - 1) := by positivity
  rw [fits_eq_true_iff]
  by_cases hsize : 8 ≤ size
  · obtain rfl : size = 8 := Nat.le_antisymm (le_of_mem_sizes h) hsize
    exact iff_of_true (.inl hsize) (.inl hv)
  · simp only [hsize, false_or, Signed, Unsigned]
    omega

/-- Values that fit have the same bytes if they are equal or one period apart. -/
theorem encode_eq_encode_iff_of_fits (h : size ∈ sizes) (hu : Signed size u ∨ Unsigned size u)
    (hv : Signed size v ∨ Unsigned size v) :
    encode size u = encode size v ↔ u = v ∨ |u - v| = 2 ^ (8 * size) := by
  rw [encode_eq_encode_iff h]
  constructor
  · intro hmod
    have htwo := two_pow_eq_two_mul (pos_of_mem_sizes h)
    refine eq_or_abs_sub_eq hmod (abs_lt.mpr ?_)
    unfold Signed Unsigned at hu hv
    omega
  · rintro (rfl | hperiod)
    · rfl
    · refine (Int.modEq_iff_dvd.mpr ?_).symm
      exact (dvd_abs _ _).mp (hperiod ▸ dvd_refl _)

theorem signed_toInt (v : Int64) : Signed 8 v.toInt := ⟨v.le_toInt, v.toInt_lt⟩

/-- An immediate takes its width in bytes, and whatever follows these, they are read back as the one
value of the signed range that differs from the value written by a multiple of `2 ^ (8 * size)`.
Every string of `size` bytes is written for the value read from it. What fits is what the bytes
represent as signed or as unsigned, which for eight bytes is everything, and values that fit are
confused only if they are `2 ^ (8 * size)` apart. -/
theorem codec_exact {size : Nat} (hsize : size ∈ sizes) (v : Int64) (rest : Bytes) :
    ((encode size v.toInt).length = size ∧
      decode size (encode size v.toInt ++ rest) = normalize size v.toInt) ∧
    ((∀ n, n = normalize size v.toInt ↔
        Signed size n ∧ n ≡ v.toInt [ZMOD 2 ^ (8 * size)]) ∧
      normalize size (normalize size v.toInt) = normalize size v.toInt) ∧
    (∀ bytes : Bytes, bytes.length = size →
      encode size (decode size (bytes ++ rest)) = bytes) ∧
    (fits size v.toInt = true ↔ Signed size v.toInt ∨ Unsigned size v.toInt) ∧
    (size = 8 → fits size v.toInt = true) ∧
    ∀ u : Int64, fits size u.toInt = true → fits size v.toInt = true →
      (encode size u.toInt = encode size v.toInt ↔
        u = v ∨ |u.toInt - v.toInt| = 2 ^ (8 * size)) := by
  have hfits (u : Int64) := fits_iff hsize (signed_toInt u)
  refine ⟨⟨length_encode (le_of_mem_sizes hsize) _, decode_encode hsize _ _⟩,
    ⟨fun n => normalize_eq_iff hsize, normalize_normalize _ _⟩, fun bytes hbytes => ?_, hfits v, ?_,
    fun u hu hv => ?_⟩
  · rw [encode_decode hsize (by simp [hbytes]), List.take_left' hbytes]
  · rintro rfl
    exact (hfits v).mpr (.inl (signed_toInt v))
  · rw [encode_eq_encode_iff_of_fits hsize ((hfits u).mp hu) ((hfits v).mp hv), Int64.toInt_inj]

/-- 40000 fits in two bytes as unsigned only; they are read back as the value one period below. -/
theorem codec_exact_upper_half :
    ¬Signed 2 40000 ∧ fits 2 40000 = true ∧ decode 2 (encode 2 40000 ++ [7]) = -25536 ∧
      encode 2 (-25536) = encode 2 40000 := by
  have hsize : 2 ∈ sizes := by decide
  obtain ⟨⟨-, hread⟩, -, -, hfits, -, hconfused⟩ := codec_exact hsize 40000 [7]
  refine ⟨by decide, hfits.mpr (.inr (by decide)), hread, ?_⟩
  exact (hconfused (-25536) (by decide) (by decide)).mpr (.inr (by decide))

end DualMachine.Immediate
