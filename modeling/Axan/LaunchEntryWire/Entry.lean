import Axan.Base.Double
import Axan.Base.Text

/-!
# Startup entries

The row of the startup tree as the settings hold it, the words its kind, style and placement are
written in, and the height of a separator.

* `LaunchEntry` — `LaunchEntry.h`, field for field.
* `normalizeSeparatorHeight` — tenths of a session row, between `0.1` and `10`.
  `exists_tenths` says that it returns one of those hundred values, and
  `normalizeSeparatorHeight_idem` that it leaves them alone.
-/

namespace Axan.LaunchEntryWire

open Axan.Base

/-! ### The words -/

/-- Source: `KindSessionW` -/
def kindSessionW : WString := L "session"
/-- Source: `KindSeparatorW` -/
def kindSeparatorW : WString := L "separator"
/-- Source: `StyleLineW` -/
def styleLineW : WString := L "line"
/-- Source: `StyleSpaceW` -/
def styleSpaceW : WString := L "space"
/-- Source: `PlacementInlineW` -/
def placementInlineW : WString := L "inline"
/-- Source: `PlacementBottomW` -/
def placementBottomW : WString := L "bottom"

/-! ### Heights -/

/-- Source: `kSeparatorHeightMin` -/
def kSeparatorHeightMin : Double := Double.ofRat (1 / 10)
/-- Source: `kSeparatorHeightMax` -/
def kSeparatorHeightMax : Double := .finite 10
/-- Source: `kSeparatorHeightDefault` -/
def kSeparatorHeightDefault : Double := .finite 1

/-- Clamp to the range of a height. -/
def clampHeight (h : Double) : Double :=
  if h.lt kSeparatorHeightMin then kSeparatorHeightMin
  else if h.gt kSeparatorHeightMax then kSeparatorHeightMax
  else h

/-- Source: `NormalizeSeparatorHeight` -/
def normalizeSeparatorHeight (h : Double) : Double :=
  if !h.gt (.finite 0) then kSeparatorHeightDefault
  else
    -- round to tenths
    let n := (((clampHeight h).mul (.finite 10)).add (.finite (1 / 2))).toInt
    (Double.ofInt n).div (.finite 10)

/-- A number of tenths as a double. -/
def tenths (n : ℤ) : Double := (Double.ofInt n).div (.finite 10)

/-- A clamped height is a number from the least height to the greatest. -/
theorem clampHeight_bounds {h : Double} (hpos : h.gt (.finite 0) = true) :
    ∃ q : ℚ, clampHeight h = .finite q ∧ 1 / 10 ≤ q ∧ q ≤ 10 := by
  have hmin : kSeparatorHeightMin = .finite (Double.rounded (1 / 10)) := by decide +kernel
  have hlow : (1 / 10 : ℚ) ≤ Double.rounded (1 / 10) := by decide +kernel
  have hhigh : Double.rounded (1 / 10) ≤ 10 := by decide +kernel
  unfold clampHeight
  split_ifs with h₁ h₂
  · exact ⟨_, hmin, hlow, hhigh⟩
  · exact ⟨10, rfl, by norm_num, le_refl _⟩
  · cases h with
    | nan => cases hpos
    | inf negative =>
        cases negative with
        | true => cases hpos
        | false => exact absurd rfl h₂
    | finite q =>
        rw [hmin] at h₁
        simp only [Double.gt, Double.lt, kSeparatorHeightMax, decide_eq_true_eq, not_lt] at h₁ h₂
        exact ⟨q, rfl, hlow.trans h₁, h₂⟩

/-- A height in the range is finite. -/
theorem ofRat_of_bounds {q : ℚ} (h₁ : 1 ≤ Double.rounded q) (h₂ : Double.rounded q ≤ 128) :
    Double.ofRat q = .finite (Double.rounded q) := by
  refine Double.ofRat_of_lt ?_
  rw [abs_of_pos (by linarith)]
  calc Double.rounded q ≤ 128 := h₂
    _ = 2 ^ 7 := by norm_num
    _ < 2 ^ 1024 := pow_lt_pow_right₀ (by norm_num) (by norm_num)

/-- **A normalized height is a number of tenths between one and a hundred.** -/
theorem exists_tenths (h : Double) :
    ∃ n : ℤ, 1 ≤ n ∧ n ≤ 100 ∧ normalizeSeparatorHeight h = tenths n := by
  unfold normalizeSeparatorHeight
  split_ifs with hpos
  · exact ⟨10, by norm_num, by norm_num, by decide +kernel⟩
  · obtain ⟨q, hq, hlow, hhigh⟩ := clampHeight_bounds (by simpa using hpos)
    -- the product and the sum stay in range when rounded
    have hx₁ : 1 ≤ Double.rounded (q * 10) := Double.one_le_rounded (by linarith)
    have hx₂ : Double.rounded (q * 10) ≤ 100 :=
      Double.rounded_le (by linarith) (by linarith) (by norm_num) (n := 200) (by norm_num)
    have hx := ofRat_of_bounds hx₁ (by linarith)
    have hy₁ : 1 ≤ Double.rounded (Double.rounded (q * 10) + 1 / 2) :=
      Double.one_le_rounded (by linarith)
    have hy₂ : Double.rounded (Double.rounded (q * 10) + 1 / 2) ≤ 201 / 2 :=
      Double.rounded_le (by linarith) (by linarith) (by norm_num) (n := 201) (by norm_num)
    have hy := ofRat_of_bounds hy₁ (by linarith)
    simp only [hq, Double.mul, Double.add, Double.lift, hx, hy, Double.toInt]
    rw [if_pos (by linarith)]
    refine ⟨_, ?_, ?_, rfl⟩
    · exact Int.le_floor.mpr (by exact_mod_cast hy₁)
    · have : Double.rounded (Double.rounded (q * 10) + 1 / 2) < ((101 : ℤ) : ℚ) := by
        push_cast
        linarith
      have := Int.floor_lt.mpr this
      omega

/-- What holds of the hundred values holds of every normalized height. -/
theorem normalizeSeparatorHeight_cases {P : Double → Prop}
    (hP : ∀ k < 100, P (tenths (k + 1 : ℕ))) (h : Double) : P (normalizeSeparatorHeight h) := by
  obtain ⟨n, h₁, h₂, hn⟩ := exists_tenths h
  obtain ⟨k, hk⟩ := Int.eq_ofNat_of_zero_le (show 0 ≤ n - 1 by omega)
  have hn' : n = ((k + 1 : ℕ) : ℤ) := by
    push_cast
    omega
  rw [hn, hn']
  exact hP k (by omega)

/-- The tenths from 0.1 to 10 are normalized heights. -/
theorem tenths_normalized :
    ∀ k < 100, normalizeSeparatorHeight (tenths (k + 1 : ℕ)) = tenths (k + 1 : ℕ) ∧
      (tenths (k + 1 : ℕ)).gt (.finite 0) = true := by
  decide +kernel

/-- **Normalizing twice is normalizing once.** -/
theorem normalizeSeparatorHeight_idem (h : Double) :
    normalizeSeparatorHeight (normalizeSeparatorHeight h) = normalizeSeparatorHeight h :=
  normalizeSeparatorHeight_cases (P := fun x => normalizeSeparatorHeight x = x)
    (fun k hk => (tenths_normalized k hk).1) h

/-- A normalized height is positive. -/
theorem normalizeSeparatorHeight_pos (h : Double) :
    (normalizeSeparatorHeight h).gt (.finite 0) = true :=
  normalizeSeparatorHeight_cases (P := fun x => x.gt (.finite 0) = true)
    (fun k hk => (tenths_normalized k hk).2) h

/-! ### The entry -/

/-- One row of the startup tree. Source: `LaunchEntry.h` -/
structure LaunchEntry where
  id : WString := []
  parentId : WString := []
  profile : WString := []
  name : WString := []
  directory : WString := []
  command : WString := []
  icon : WString := []
  color : WString := []
  colorTarget : WString := []
  kind : WString := []
  separatorStyle : WString := []
  height : Double := .finite 0
  placement : WString := []
  collapsed : Bool := false
  hoist : WString := []
  deriving DecidableEq, Repr

/-- Source: `LaunchEntry::IsSeparator` -/
def LaunchEntry.isSeparator (e : LaunchEntry) : Bool := e.kind = kindSeparatorW

end Axan.LaunchEntryWire
