import Mathlib.Algebra.Group.Nat.Defs
import Mathlib.Order.Nat
import TagHeap.Proofs.Searching

/-!
# The classes of sizes

A class has a limit, and `Index.classOf` looks for the first limit that is not below a size. The
limits double from `16` on, but sizes have an end, and from there on the limits SATURATE: they stay
at the largest size, which is no power of two.

`Index.limit c` is the limit that the search compares with at the class `c`. It stands for
`16 * 2 ^ c`: no size tells the two apart (`le_limit_iff`), because whatever saturates does so above
all sizes. The search is a loop along the limits. Started at the limit of the class `c`, it passes
the limits of just the classes from `c` to the first one that is large enough
(`limitsBelow_limit`). From the first limit on, that gives the class of a size
(`classOf_isLeast`).
-/

namespace TagHeap.Index

variable {n size c i : Nat}

/-- The largest size of the class `c`, unless it is the last class, which takes all that is left. -/
def limit (c : Nat) : Nat := min (16 * 2 ^ c) (Size.bound - 1)

/-- The next limit is twice as large, as far as sizes reach. -/
theorem limit_succ (c : Nat) : limit (c + 1) = min (limit c * 2) (Size.bound - 1) := by
  have hpow : 16 * 2 ^ (c + 1) = 16 * 2 ^ c * 2 := by rw [Nat.pow_succ, Nat.mul_assoc]
  rw [limit, limit, hpow]
  omega

/-- No size tells a saturated limit from the one that it stands for. -/
theorem le_limit_iff (h : size < Size.bound) : size ≤ limit c ↔ size ≤ 16 * 2 ^ c := by
  rw [limit]
  omega

/-- Limits without saturation exceed every size at last. -/
theorem exists_least_limit (size : Nat) : ∃ i, IsLeast {i | size ≤ 16 * 2 ^ i} i := by
  have hsome : ∃ i, size ≤ 16 * 2 ^ i := by
    have hlt := Nat.lt_two_pow_self (n := size)
    exact ⟨size, by omega⟩
  exact ⟨_, Nat.isLeast_find hsome⟩

/-- **THE LOOP.** From the limit of the class `c` on, as many limits lie below a size as there are
classes from `c` to the first one that is large enough, or as many as are left. -/
theorem limitsBelow_limit (h : size < Size.bound) (hi : IsLeast {i | size ≤ 16 * 2 ^ i} i)
    (hc : c ≤ i) (classes : Nat) : limitsBelow size classes (limit c) = min (i - c) classes := by
  induction classes generalizing c with
  | zero => rw [limitsBelow, Nat.min_zero]
  | succ classes ih =>
      rw [limitsBelow]
      by_cases hle : size ≤ limit c
      · have hic : i ≤ c := hi.2 ((le_limit_iff h).1 hle)
        rw [if_pos hle]
        omega
      · have hne : c ≠ i := by
          rintro rfl
          exact hle ((le_limit_iff h).2 hi.1)
        rw [if_neg hle, ← limit_succ, ih (by omega)]
        omega

/-- **THE CLASS OF A SIZE** is the least one with a limit that is not below it, or the last one if
that is not among the classes before. So sizes are in the order of their classes. -/
theorem classOf_isLeast [HasClass n] (h : size < Size.bound) :
    (∃ i, IsLeast {i | size ≤ 16 * 2 ^ i} i ∧
      (classOf n size).val = if i < n - 1 then i else n - 1) ∧
    (classOf n size).val < n ∧
    ∀ other, (size ≤ other → classOf n size ≤ classOf n other) ∧
      (classOf n size < classOf n other → size < other) := by
  obtain ⟨i, hi⟩ := exists_least_limit size
  refine ⟨⟨i, hi, ?_⟩, (classOf n size).isLt, fun other => ⟨classOf_mono, fun hlt => ?_⟩⟩
  · show limitsBelow size (n - 1) (limit 0) = _
    rw [limitsBelow_limit h hi (Nat.zero_le i)]
    split <;> omega
  · by_contra hle
    exact absurd (classOf_mono (Nat.le_of_not_lt hle)) (Fin.not_le.2 hlt)

/-- With `70` classes the limits saturate at the class `60`, which takes the largest sizes. Half of
the range of sizes is still the limit of the class before. -/
theorem classOf_isLeast_saturated :
    (∃ i, IsLeast {i | Size.bound - 1 ≤ 16 * 2 ^ i} i ∧
      (classOf 70 (Size.bound - 1)).val = if i < 69 then i else 69) ∧
    (classOf 70 (Size.bound - 1)).val = 60 ∧
    limit 60 = Size.bound - 1 ∧ limit 61 = Size.bound - 1 ∧
    classOf 70 9223372036854775808 < classOf 70 (Size.bound - 1) ∧
    9223372036854775808 < Size.bound - 1 := by
  have hsize : Size.bound - 1 < Size.bound := by decide
  have hhalf : 9223372036854775808 < Size.bound := by decide
  have hlt : classOf 70 9223372036854775808 < classOf 70 (Size.bound - 1) := by decide
  obtain ⟨hleast, -, -⟩ := classOf_isLeast (n := 70) hsize
  obtain ⟨-, -, horder⟩ := classOf_isLeast (n := 70) hhalf
  exact ⟨hleast, rfl, rfl, rfl, hlt, (horder (Size.bound - 1)).2 hlt⟩

end TagHeap.Index
