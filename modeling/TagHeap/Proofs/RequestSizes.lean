import TagHeap.Proofs.Allocation

/-!
# The sizes of requests

`Size.ofRequest?` gives the LEAST BLOCK that can serve a request. A block of a legal size is at
least as large as the answer exactly when its payload has room for the request, and there is no
answer exactly when no block has that much room (`ofRequest?_least`).

The numbers of `ofRequest?` have no bound. A machine computes with words of 64 bits instead, whose
sums wrap around, and rounds by clearing bits. `ofRequest64?` is that computation. What it has to
rule out is a wrapped sum, and then it agrees with `ofRequest?` on every word (`map_ofRequest64?`).
-/

namespace TagHeap.Size

/-! ## In words of 64 bits -/

/-- `ofRequest?` in words. A sum that has wrapped around is less than its parts, and then there is
no answer. -/
def ofRequest64? (request : UInt64) : Option UInt64 :=
  if request ≤ .ofNat granule then some (.ofNat minBlock)
  else
    let sum := request + .ofNat (overhead + granule - 1)
    if sum < request then none
    else
      let size := sum &&& ~~~ .ofNat (granule - 1)
      if size ≤ .ofNat maxBlock then some size else none

/-- Clearing the low bits of a word rounds it down. -/
theorem toNat_clearLow (word : UInt64) :
    (word &&& ~~~ .ofNat (granule - 1)).toNat = word.toNat / 8 * 8 := by
  have hmask : (~~~ UInt64.ofNat (granule - 1)).toNat = (2 ^ 61 - 1) * 2 ^ 3 := by decide
  have hlt := word.toNat_lt
  have high : (word.toNat &&& (2 ^ 61 - 1) * 2 ^ 3) / 2 ^ 3 = word.toNat / 2 ^ 3 := by
    rw [Nat.and_div_two_pow, Nat.mul_div_cancel _ (by decide), Nat.and_two_pow_sub_one_eq_mod]
    exact Nat.mod_eq_of_lt (by omega)
  have low : (word.toNat &&& (2 ^ 61 - 1) * 2 ^ 3) % 2 ^ 3 = 0 := by
    rw [Nat.and_mod_two_pow, Nat.mul_mod_left, Nat.and_zero]
  rw [UInt64.toNat_and, hmask]
  omega

/-- Words and unbounded numbers give the same answer. -/
theorem map_ofRequest64? (request : UInt64) :
    (ofRequest64? request).map (·.toNat) = ofRequest? request.toNat := by
  have hlt := request.toNat_lt
  have hsum : (request + .ofNat (overhead + granule - 1)).toNat =
      (request.toNat + 15) % 2 ^ 64 := UInt64.toNat_add ..
  have hmax : (UInt64.ofNat maxBlock).toNat = maxBlock := rfl
  rw [ofRequest64?, ofRequest?]
  by_cases hsmall : request.toNat ≤ granule
  · rw [if_pos (UInt64.le_iff_toNat_le.2 hsmall), if_pos hsmall]
    rfl
  · rw [if_neg fun h => hsmall (UInt64.le_iff_toNat_le.1 h), if_neg hsmall]
    simp only [UInt64.lt_iff_toNat_lt, UInt64.le_iff_toNat_le, toNat_clearLow, hsum, hmax]
    by_cases hwrap : request.toNat + 15 < 2 ^ 64
    · rw [Nat.mod_eq_of_lt hwrap, if_neg (by omega), ceil]
      have hrange : request.toNat + (overhead + granule - 1) < bound := hwrap
      split
      · next hfits =>
        rw [if_pos ⟨hrange, hfits⟩, Option.map_some, toNat_clearLow, hsum, Nat.mod_eq_of_lt hwrap]
      · next hlarge =>
        rw [if_neg fun h => hlarge h.2]
        rfl
    · have hwrapped : (request.toNat + 15) % 2 ^ 64 < request.toNat := by omega
      rw [if_pos hwrapped, if_neg fun h => hwrap h.1]
      rfl

/-! ## Requests and blocks -/

variable {request need size : Nat}

/-- The answer is a legal size. -/
theorem legal_of_ofRequest? (h : ofRequest? request = some need) : Legal need := by
  obtain ⟨hmin, h8, hmax, -⟩ := ofRequest?_eq_some h
  exact ⟨h8, hmin, hmax⟩

/-- **A BLOCK SERVES A REQUEST** when it is no smaller than the answer, and then only. -/
theorem Legal.serves_iff (h : Legal size) :
    (∃ need, ofRequest? request = some need ∧ need ≤ size) ↔ request ≤ size - overhead := by
  have hover : overhead ≤ size := Nat.le_trans (by decide) h.minBlock_le
  rw [Nat.le_sub_iff_add_le hover]
  constructor
  · rintro ⟨need, hneed, hle⟩
    exact Nat.le_trans (ofRequest?_eq_some hneed).2.2.2 hle
  · exact exists_ofRequest?_le h.minBlock_le h.aligned h.le_maxBlock

/-- Without an answer there is no block that has room for the request. -/
theorem ofRequest?_eq_none_iff :
    ofRequest? request = none ↔ ∀ size, Legal size → size - overhead < request := by
  constructor
  · intro hnone size hsize
    by_contra hroom
    obtain ⟨need, hneed, -⟩ := hsize.serves_iff.2 (Nat.le_of_not_lt hroom)
    rw [hnone] at hneed
    cases hneed
  · intro hall
    cases hneed : ofRequest? request with
    | none => rfl
    | some need =>
        have hlegal := legal_of_ofRequest? hneed
        have hroom := hlegal.serves_iff.1 ⟨need, hneed, Nat.le_refl need⟩
        exact absurd (hall need hlegal) (Nat.not_lt.2 hroom)

/-- **THE LEAST BLOCK** that can serve a request: the answer is legal, the legal sizes from it on
are those of the blocks that have room, and there is no answer when no block has. Words of 64 bits
give the same answer to every request that is one. -/
theorem ofRequest?_least (request : Nat) :
    (∀ size, Legal size →
      ((∃ need, ofRequest? request = some need ∧ need ≤ size) ↔ request ≤ size - overhead)) ∧
    (∀ need, ofRequest? request = some need → Legal need) ∧
    (ofRequest? request = none ↔ ∀ size, Legal size → size - overhead < request) ∧
    (request < bound →
      (ofRequest64? (.ofNat request)).map (·.toNat) = ofRequest? request) := by
  refine ⟨fun _ hsize => hsize.serves_iff, fun _ => legal_of_ofRequest?, ofRequest?_eq_none_iff, ?_⟩
  intro hlt
  rw [map_ofRequest64?, UInt64.toNat_ofNat', Nat.mod_eq_of_lt hlt]

/-- The largest request that is served, the first one that is not, and one whose sum wraps
around. -/
theorem ofRequest?_least_atLimits :
    (∃ need, ofRequest? 4294967280 = some need ∧ need ≤ maxBlock) ∧
    maxBlock - overhead < 4294967281 ∧
    (ofRequest64? (.ofNat (bound - 1))).map (·.toNat) = none := by
  have hlegal : Legal maxBlock := by decide
  obtain ⟨hlast, -, -, -⟩ := ofRequest?_least 4294967280
  obtain ⟨-, -, hnone, -⟩ := ofRequest?_least 4294967281
  obtain ⟨-, -, -, hwords⟩ := ofRequest?_least (bound - 1)
  exact ⟨(hlast maxBlock hlegal).2 (by decide), hnone.1 (by decide) maxBlock hlegal,
    hwords (by decide)⟩

end TagHeap.Size
