/-
# How the seed spreads a key

The constructor draws the seed of the hash once. For any buffer, of any length, the hash
before the last modulo is a bijection of the seed: over all seeds the buffer falls into
every slot equally often, up to one, and among the seeds that `rand()` can give no slot is
drawn more often than that. So a set of keys that crowds one home does so for few seeds.

Key definitions: `drawnSeed`.
Key theorems: `murmur_seed_bijective`, `drawnSeed_injective`, `seeds_spread_homes`.
-/
import LFHash.Bytes
import Mathlib.Data.Set.Card

namespace LFHash

open Mixing

/-- `rand() % LONG_MAX + 1`, line 29, stored in an `unsigned int`. -/
def drawnSeed (r : ℕ) : BitVec 32 := BitVec.ofNat 32 (r % (2 ^ 63 - 1) + 1)

/-- The values that `rand()` returns. -/
def randValues : Finset ℕ := Finset.range (2 ^ 31)

theorem toNat_drawnSeed {r : ℕ} (hr : r ∈ randValues) : (drawnSeed r).toNat = r + 1 := by
  have hlt : r < 2 ^ 31 := Finset.mem_range.mp hr
  have hmod : r % (2 ^ 63 - 1) = r := Nat.mod_eq_of_lt (by omega)
  rw [drawnSeed, BitVec.toNat_ofNat, hmod, Nat.mod_eq_of_lt (by omega)]

theorem drawnSeed_injective : Set.InjOn drawnSeed randValues := by
  intro r hr r' hr' he
  have h := congrArg BitVec.toNat he
  rw [toNat_drawnSeed hr, toNat_drawnSeed hr'] at h
  omega

/-- Every step of the hash is injective in the hash so far, and the bytes that it reads do not
depend on it. -/
theorem murmur_seed_bijective (data : List (BitVec 8)) :
    Function.Bijective fun seed => murmur seed data := by
  refine bijective fun seed seed' he => ?_
  have he' : murmur seed data = murmur seed' data := he
  rw [murmur_eq, murmur_eq, mixBlocks_snd seed seed' data] at he'
  have hlen := mmix_injective _ (finish_injective he')
  have htail := mmix_injective _ hlen
  exact mixBlocks_injective data htail

/-- As many seeds as values of `rand()` lead a buffer to a slot, or more. -/
theorem card_draws_le (data : List (BitVec 8)) (tabsize b : ℕ) :
    (randValues.filter fun r => murmurHash2A (drawnSeed r) data tabsize = b).card ≤
      Nat.card {seed : BitVec 32 // murmurHash2A seed data tabsize = b} := by
  have hle : (randValues.filter fun r => murmurHash2A (drawnSeed r) data tabsize = b).card ≤
      Set.ncard {seed : BitVec 32 | murmurHash2A seed data tabsize = b} := by
    rw [← Set.ncard_coe_finset]
    refine Set.ncard_le_ncard_of_injOn drawnSeed (fun r hr => ?_) (fun r hr r' hr' he => ?_)
      (Set.toFinite _)
    · exact (Finset.mem_filter.mp hr).2
    · exact drawnSeed_injective (Finset.mem_filter.mp hr).1 (Finset.mem_filter.mp hr').1 he
  exact hle

/-- For every buffer each slot is drawn by the same number of seeds, up to one, and by no more
of those that the constructor can draw. -/
theorem seeds_spread_homes (data : List (BitVec 8)) {tabsize b : ℕ} (hn : 0 < tabsize)
    (hb : b < tabsize) :
    (Nat.card {seed : BitVec 32 // murmurHash2A seed data tabsize = b} = 2 ^ 32 / tabsize ∨
      Nat.card {seed : BitVec 32 // murmurHash2A seed data tabsize = b} = 2 ^ 32 / tabsize + 1) ∧
    (randValues.filter fun r => murmurHash2A (drawnSeed r) data tabsize = b).card ≤
      2 ^ 32 / tabsize + 1 := by
  have hcard := card_mod (murmur_seed_bijective data) hn hb
  have hor : Nat.card {seed : BitVec 32 // murmurHash2A seed data tabsize = b} =
      2 ^ 32 / tabsize ∨
      Nat.card {seed : BitVec 32 // murmurHash2A seed data tabsize = b} =
        2 ^ 32 / tabsize + 1 := by
    unfold murmurHash2A
    rw [hcard]
    split_ifs
    · exact Or.inr rfl
    · exact Or.inl (Nat.add_zero _)
  have hdraws := card_draws_le data tabsize b
  exact ⟨hor, by omega⟩

theorem seven_is_spread :
    (randValues.filter fun r => murmurHash2A (drawnSeed r) (keyBytes 7) TotalBuckets = 1000).card ≤
      2 ^ 32 / TotalBuckets + 1 :=
  (seeds_spread_homes (keyBytes 7) (by decide) (by decide)).2

end LFHash
