import Mathlib

/-!
# Double-precision numbers

Enough of binary64 for the heights of the separators: values, comparisons, and the arithmetic on
finite values, each result rounded to nearest with ties to even. A finite value is its rational;
the sign of zero is not kept, since nothing here reads it.

* `Double.ofRat` — the double nearest to a rational.
* `one_le_rounded`, `rounded_le` — rounding stays between bounds that are doubles themselves.
-/

namespace Axan.Base

/-- A `double`. -/
inductive Double where
  | nan
  | inf (negative : Bool)
  | finite (q : ℚ)
  deriving DecidableEq, Repr

/-- The integer nearest to a rational, the even one of two. -/
def roundEven (q : ℚ) : ℤ :=
  let f := ⌊q⌋
  if q - f < 1 / 2 then f
  else if 1 / 2 < q - f then f + 1
  else if f % 2 = 0 then f else f + 1

/-- Rounding does not pass a whole number above. -/
theorem roundEven_le {q : ℚ} {n : ℤ} (h : q ≤ n) : roundEven q ≤ n := by
  have hf : ⌊q⌋ ≤ n := by
    have : ((⌊q⌋ : ℤ) : ℚ) ≤ n := (Int.floor_le q).trans h
    exact_mod_cast this
  -- only below `n` can the floor be left
  have hup : 1 / 2 ≤ q - ⌊q⌋ → ⌊q⌋ + 1 ≤ n := by
    intro hq
    have hlt : ((⌊q⌋ : ℤ) : ℚ) < n := by linarith
    have : ⌊q⌋ < n := by exact_mod_cast hlt
    omega
  unfold roundEven
  simp only
  split_ifs with h₁ h₂ h₃
  · exact hf
  · exact hup h₂.le
  · exact hf
  · exact hup (not_lt.mp h₁)

/-- Rounding does not pass a whole number below. -/
theorem le_roundEven {q : ℚ} {n : ℤ} (h : (n : ℚ) ≤ q) : n ≤ roundEven q := by
  have hf : n ≤ ⌊q⌋ := Int.le_floor.mpr h
  unfold roundEven
  simp only
  split_ifs <;> omega

namespace Double

/-- The exponent of the last place of a number: 53 bits down from its first, and no lower than
that of the subnormal numbers. -/
def ulpExp (q : ℚ) : ℤ := max (Int.log 2 |q| - 52) (-1074)

/-- A rational rounded to the last place of its binade. -/
def rounded (q : ℚ) : ℚ := roundEven (q / 2 ^ ulpExp q) * 2 ^ ulpExp q

/-- The double nearest to a rational. -/
def ofRat (q : ℚ) : Double :=
  if |rounded q| < 2 ^ 1024 then finite (rounded q) else inf (q < 0)

/-- `a < b`, false when either is not a number. -/
def lt : Double → Double → Bool
  | nan, _ => false
  | _, nan => false
  | inf a, inf b => a && !b
  | inf a, finite _ => a
  | finite _, inf b => !b
  | finite a, finite b => a < b

/-- `a > b` -/
def gt (a b : Double) : Bool := b.lt a

/-- An operation on finite operands, rounded. No other operands reach it here. -/
def lift (f : ℚ → ℚ → ℚ) : Double → Double → Double
  | finite a, finite b => ofRat (f a b)
  | _, _ => nan

/-- `a * b` -/
def mul : Double → Double → Double := lift (· * ·)

/-- `a + b` -/
def add : Double → Double → Double := lift (· + ·)

/-- `a - b` -/
def sub : Double → Double → Double := lift (· - ·)

/-- `a / b` -/
def div : Double → Double → Double := lift (· / ·)

/-- `static_cast<long long>`, on finite values: toward zero. -/
def toInt : Double → ℤ
  | finite q => if 0 ≤ q then ⌊q⌋ else ⌈q⌉
  | _ => 0

/-- `std::lround`, on finite values: a half goes away from zero. -/
def lround : Double → ℤ
  | finite q => if 0 ≤ q then ⌊q + 1 / 2⌋ else ⌈q - 1 / 2⌉
  | _ => 0

/-- `std::fabs` -/
def fabs : Double → Double
  | finite q => finite |q|
  | inf _ => inf false
  | nan => nan

/-- `static_cast<double>` of an integer. -/
def ofInt (n : ℤ) : Double := ofRat n

/-! ### Bounds -/

theorem two_zpow_pos (e : ℤ) : (0 : ℚ) < 2 ^ e := zpow_pos (by norm_num) e

/-- Rounding stays below a bound on the grid of the number's binade. -/
theorem rounded_le_grid {q : ℚ} {n : ℤ} (h : q ≤ n * 2 ^ ulpExp q) :
    rounded q ≤ n * 2 ^ ulpExp q := by
  have hpos := two_zpow_pos (ulpExp q)
  have hq : q / 2 ^ ulpExp q ≤ n := (div_le_iff₀ hpos).mpr h
  have hr : ((roundEven (q / 2 ^ ulpExp q) : ℤ) : ℚ) ≤ n := by exact_mod_cast roundEven_le hq
  unfold rounded
  gcongr

/-- Rounding stays above a bound on that grid. -/
theorem grid_le_rounded {q : ℚ} {n : ℤ} (h : n * 2 ^ ulpExp q ≤ q) :
    n * 2 ^ ulpExp q ≤ rounded q := by
  have hpos := two_zpow_pos (ulpExp q)
  have hq : (n : ℚ) ≤ q / 2 ^ ulpExp q := (le_div_iff₀ hpos).mpr h
  have hr : (n : ℚ) ≤ ((roundEven (q / 2 ^ ulpExp q) : ℤ) : ℚ) := by exact_mod_cast le_roundEven hq
  unfold rounded
  gcongr

/-- Rounding a number from one on keeps it there. -/
theorem one_le_rounded {q : ℚ} (h : 1 ≤ q) : 1 ≤ rounded q := by
  have hpos : 0 < q := lt_of_lt_of_le one_pos h
  have habs : |q| = q := abs_of_pos hpos
  have hlog : 0 ≤ Int.log 2 q := by
    rw [Int.log_of_one_le_right 2 h]
    exact Int.natCast_nonneg _
  have hexp : ulpExp q = Int.log 2 q - 52 := by
    unfold ulpExp
    rw [habs]
    omega
  -- the first place of the number is on the grid
  have hgrid : ((2 ^ 52 : ℤ) : ℚ) * 2 ^ ulpExp q = 2 ^ Int.log 2 q := by
    rw [hexp, zpow_sub₀ (by norm_num)]
    norm_num
    ring
  have hle : ((2 ^ 52 : ℤ) : ℚ) * 2 ^ ulpExp q ≤ q := by
    rw [hgrid]
    exact_mod_cast Int.zpow_log_le_self (by norm_num) hpos
  have hone : (1 : ℚ) ≤ 2 ^ Int.log 2 q := one_le_zpow₀ (by norm_num) hlog
  calc (1 : ℚ) ≤ 2 ^ Int.log 2 q := hone
    _ = ((2 ^ 52 : ℤ) : ℚ) * 2 ^ ulpExp q := hgrid.symm
    _ ≤ rounded q := grid_le_rounded hle

/-- Rounding a positive number keeps it below a half-integer bound under `128`. -/
theorem rounded_le {q b : ℚ} (hpos : 0 < q) (h : q ≤ b) (hb : b < 128) {n : ℤ}
    (hn : (n : ℚ) = 2 * b) : rounded q ≤ b := by
  have hlog : Int.log 2 q < 7 := by
    refine (Int.lt_zpow_iff_log_lt (by norm_num) hpos).mp ?_
    have : ((2 : ℕ) : ℚ) ^ (7 : ℤ) = 128 := by norm_num
    rw [this]
    linarith
  have hexp : ulpExp q ≤ -1 := by
    unfold ulpExp
    rw [abs_of_pos hpos]
    omega
  obtain ⟨k, hk⟩ := Int.eq_ofNat_of_zero_le (show 0 ≤ -1 - ulpExp q by omega)
  -- the bound is on the grid
  have hgrid : ((n * 2 ^ k : ℤ) : ℚ) * 2 ^ ulpExp q = b := by
    have he : ulpExp q = -1 - (k : ℤ) := by omega
    rw [he, zpow_sub₀ (by norm_num), zpow_natCast]
    push_cast
    rw [hn]
    field_simp
  have hle : q ≤ ((n * 2 ^ k : ℤ) : ℚ) * 2 ^ ulpExp q := by
    rw [hgrid]
    exact h
  calc rounded q ≤ ((n * 2 ^ k : ℤ) : ℚ) * 2 ^ ulpExp q := rounded_le_grid hle
    _ = b := hgrid

/-- A number that rounds to less than the bound is finite. -/
theorem ofRat_of_lt {q : ℚ} (h : |rounded q| < 2 ^ 1024) : ofRat q = finite (rounded q) :=
  if_pos h

end Double

end Axan.Base
