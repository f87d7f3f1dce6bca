/-
# How keys are spread over home buckets

Every step of `MurmurHash2A` is injective in the hash so far, and in the block that is
mixed in. On keys of four bytes the hash before the last modulo is a bijection, for
every seed, so the home buckets of the keys are spread as evenly as the residues of the
numbers below 2^32.

Key definitions: `mixBlock`, `finish`.
Key theorems: `mmix_injective`, `mmix_injective_block`, `finish_injective`,
`murmur_bijective`, `keys_are_spread_evenly`.
-/
import LFHash.Mixing
import LFHash.Murmur

namespace LFHash

open Mixing

/-! ### The steps of the hash -/

/-- The inverse of `murmurM` modulo 2^32. -/
theorem murmurM_inv : murmurM * 0xe59b19bd#32 = 1#32 := by decide

/-- What `mmix` makes of a block before it is mixed in. -/
def mixBlock (k : BitVec 32) : BitVec 32 := ((k * murmurM) ^^^ ((k * murmurM) >>> 24)) * murmurM

theorem mixBlock_injective : Function.Injective mixBlock := by
  have hm := mul_injective murmurM_inv
  have hs : Function.Injective fun x : BitVec 32 => x ^^^ (x >>> 24) :=
    xor_ushiftRight_injective (by decide)
  exact hm.comp (hs.comp hm)

/-- `mmix` loses nothing of the hash so far. -/
theorem mmix_injective (k : BitVec 32) : Function.Injective fun h => mmix h k := by
  intro h h' he
  have hx : (h * murmurM) ^^^ mixBlock k = (h' * murmurM) ^^^ mixBlock k := he
  exact mul_injective murmurM_inv ((BitVec.xor_left_inj _).mp hx)

/-- `mmix` loses nothing of the block. -/
theorem mmix_injective_block (h : BitVec 32) : Function.Injective (mmix h) := by
  intro k k' he
  have hx : (h * murmurM) ^^^ mixBlock k = (h * murmurM) ^^^ mixBlock k' := he
  exact mixBlock_injective ((BitVec.xor_right_inj _).mp hx)

/-- The last steps of the hash, lines 64 to 66. -/
def finish (h : BitVec 32) : BitVec 32 :=
  let h := h ^^^ (h >>> 13)
  let h := h * murmurM
  h ^^^ (h >>> 15)

theorem finish_injective : Function.Injective finish := by
  have h13 : Function.Injective fun x : BitVec 32 => x ^^^ (x >>> 13) :=
    xor_ushiftRight_injective (by decide)
  have h15 : Function.Injective fun x : BitVec 32 => x ^^^ (x >>> 15) :=
    xor_ushiftRight_injective (by decide)
  exact h15.comp ((mul_injective murmurM_inv).comp h13)

theorem murmur_eq (seed : BitVec 32) (data : List (BitVec 8)) : murmur seed data =
    finish (mmix (mmix (mixBlocks seed data).1 (tailWord (mixBlocks seed data).2))
      (BitVec.ofNat 32 data.length)) := rfl

/-! ### Keys of four bytes -/

/-- The one block of a key is the key. -/
theorem block_keyBytes (key : Key) : key.extractLsb' 24 8 ++ key.extractLsb' 16 8 ++
    key.extractLsb' 8 8 ++ key.extractLsb' 0 8 = key := by
  apply BitVec.eq_of_getLsbD_eq
  intro i hi
  simp only [BitVec.getLsbD_append, BitVec.getLsbD_extractLsb']
  split_ifs with h0 h1 h2
  · simp [h0]
  · have e : 8 + (i - 8) = i := by omega
    simp [h1, e]
  · have e : 16 + (i - 8 - 8) = i := by omega
    simp [h2, e]
  · have e : 24 + (i - 8 - 8 - 8) = i := by omega
    have h3 : i - 8 - 8 - 8 < 8 := by omega
    simp [h3, e]

theorem mixBlocks_keyBytes (seed : BitVec 32) (key : Key) :
    mixBlocks seed (keyBytes key) = (mmix seed key, []) := by
  rw [keyBytes, mixBlocks, block_keyBytes, mixBlocks]
  simp

theorem murmur_keyBytes (seed : BitVec 32) (key : Key) : murmur seed (keyBytes key) =
    finish (mmix (mmix (mmix seed key) 0#32) 4#32) := by
  rw [murmur_eq, mixBlocks_keyBytes]
  rfl

/-- On keys the hash before the last modulo is a bijection. -/
theorem murmur_bijective (seed : BitVec 32) :
    Function.Bijective fun key : Key => murmur seed (keyBytes key) := by
  refine bijective fun key key' he => ?_
  have hk : finish (mmix (mmix (mmix seed key) 0#32) 4#32) =
      finish (mmix (mmix (mmix seed key') 0#32) 4#32) := by
    rw [← murmur_keyBytes, ← murmur_keyBytes]
    exact he
  have h4 := mmix_injective 4#32 (finish_injective hk)
  have h0 := mmix_injective 0#32 h4
  exact mmix_injective_block seed h0

/-- Each slot is the home of the same number of keys, up to one. -/
theorem keys_are_spread_evenly (seed : BitVec 32) :
    Function.Bijective (fun key : Key => murmur seed (keyBytes key)) ∧
    (∀ tabsize b, 0 < tabsize → b < tabsize →
      (Nat.card {key : Key // murmurHash2A seed (keyBytes key) tabsize = b} = 2 ^ 32 / tabsize ∨
        Nat.card {key : Key // murmurHash2A seed (keyBytes key) tabsize = b} =
          2 ^ 32 / tabsize + 1)) ∧
    ∀ b < TotalBuckets, Nat.card {key : Key // home seed key = b} = 132 ∨
      Nat.card {key : Key // home seed key = b} = 133 := by
  have hcard : ∀ tabsize b, 0 < tabsize → b < tabsize →
      (Nat.card {key : Key // murmurHash2A seed (keyBytes key) tabsize = b} = 2 ^ 32 / tabsize ∨
        Nat.card {key : Key // murmurHash2A seed (keyBytes key) tabsize = b} =
          2 ^ 32 / tabsize + 1) := by
    intro tabsize b hn hb
    have h := card_mod (murmur_bijective seed) hn hb
    unfold murmurHash2A
    rw [h]
    split_ifs
    · exact Or.inr rfl
    · exact Or.inl (Nat.add_zero _)
  refine ⟨murmur_bijective seed, hcard, fun b hb => ?_⟩
  exact hcard TotalBuckets b (by decide) hb

theorem keys_are_spread_over_three_slots :
    (Nat.card {key : Key // murmurHash2A 1 (keyBytes key) 3 = 2} = 1431655765 ∨
      Nat.card {key : Key // murmurHash2A 1 (keyBytes key) 3 = 2} = 1431655766) ∧
    (Nat.card {key : Key // home 1 key = 1000} = 132 ∨
      Nat.card {key : Key // home 1 key = 1000} = 133) :=
  ⟨(keys_are_spread_evenly 1).2.1 3 2 (by decide) (by decide),
    (keys_are_spread_evenly 1).2.2 1000 (by decide)⟩

end LFHash
