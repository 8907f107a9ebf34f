import Mathlib.Algebra.Ring.Int.Defs
import Mathlib.Algebra.Ring.Nat

/-! Values kept by 64-bit and 32-bit words. A sum outside the range of its
word is kept modulo two to the width of the word. -/
namespace Word

/-- What an unsigned 64-bit word keeps of a value. -/
def unsigned64 (value : Int) : Nat := (value % 2 ^ 64).toNat

/-- What a signed 64-bit word keeps of a value. -/
def signed64 (value : Int) : Int := value.bmod (2 ^ 64)

theorem unsigned64_lt (value : Int) : unsigned64 value < 2 ^ 64 := by
  unfold unsigned64
  omega

@[simp] theorem unsigned64_natCast (value : Nat) : unsigned64 value = value % 2 ^ 64 := by
  unfold unsigned64
  omega

theorem unsigned64_of_lt {value : Nat} (h : value < 2 ^ 64) : unsigned64 value = value := by
  rw [unsigned64_natCast, Nat.mod_eq_of_lt h]

theorem unsigned64_add {value : Int} {more : Nat} (h : unsigned64 value + more < 2 ^ 64) :
    unsigned64 (value + more) = unsigned64 value + more := by
  unfold unsigned64 at h ⊢
  omega

theorem signed64_of_range {value : Int} (hLow : -2 ^ 63 ≤ value) (hHigh : value < 2 ^ 63) :
    signed64 value = value := by
  refine Int.bmod_eq_of_le ?_ ?_
  · omega
  · omega

theorem signed64_range (value : Int) : -2 ^ 63 ≤ signed64 value ∧ signed64 value < 2 ^ 63 := by
  have hLow := Int.le_bmod (x := value) (m := 2 ^ 64) (by decide)
  have hHigh := Int.bmod_lt (x := value) (m := 2 ^ 64) (by decide)
  unfold signed64
  omega

/-- A signed word and the unsigned word with its bits name one residue. -/
theorem unsigned64_signed64 (value : Int) : unsigned64 (signed64 value) = unsigned64 value := by
  have h : (signed64 value) % 2 ^ 64 = value % 2 ^ 64 := Int.bmod_emod
  unfold unsigned64
  rw [h]

/-- A sum that is wrapped on the way is the wrapped sum. -/
theorem signed64_signed64_add (value more : Int) :
    signed64 (signed64 value + more) = signed64 (value + more) := by
  unfold signed64
  exact Int.bmod_add_bmod

/-- Above the signed range a word turns negative. -/
theorem signed64_neg_of_large {value : Int} (hLow : 2 ^ 63 ≤ value) (hHigh : value < 2 ^ 64) :
    signed64 value < 0 := by
  have h : (signed64 value) % 2 ^ 64 = value % 2 ^ 64 := Int.bmod_emod
  have hRange := signed64_range value
  omega

/-- A sum that wraps upwards at most once has its sign wrong if it does. -/
theorem signed64_neg_iff {value : Int} (hLow : -2 ^ 63 ≤ value) (hHigh : value < 2 ^ 64) :
    signed64 value < 0 ↔ value < 0 ∨ 2 ^ 63 ≤ value := by
  by_cases hFits : value < 2 ^ 63
  · rw [signed64_of_range hLow hFits]
    omega
  · exact iff_of_true (signed64_neg_of_large (Int.not_lt.mp hFits) hHigh) (Or.inr (Int.not_lt.mp hFits))

end Word
