/-
# Mixing words

The steps a hash mixes a word with are bijections: the product with a constant that has
an inverse, and the xor with the word's own shift. The residues of a bijection of words
are spread as evenly as those of the numbers below `2 ^ w` (`card_mod`).

Key theorems: `mul_injective`, `xor_ushiftRight_injective`, `bijective`, `card_mod`.
-/
import Mathlib.Data.BitVec
import Mathlib.Data.Int.CardIntervalMod
import Mathlib.SetTheory.Cardinal.Finite

namespace Mixing

open scoped Count

variable {w : ℕ}

instance instFiniteBitVec : Finite (BitVec w) := Finite.of_equiv _ BitVec.equivFin.symm.toEquiv

theorem mul_injective {a b : BitVec w} (h : a * b = 1#w) :
    Function.Injective fun x : BitVec w => x * a := by
  intro x y hxy
  have hxy' : x * a = y * a := hxy
  calc x = x * (a * b) := by rw [h, BitVec.mul_one]
    _ = y * (a * b) := by rw [← BitVec.mul_assoc, hxy', BitVec.mul_assoc]
    _ = y := by rw [h, BitVec.mul_one]

/-- A word that is its own shift is 0. -/
theorem eq_zero_of_ushiftRight {s : ℕ} (hs : 0 < s) {x : BitVec w} (h : x >>> s = x) :
    x = 0#w := by
  have hn : x.toNat / 2 ^ s = x.toNat := by
    rw [← Nat.shiftRight_eq_div_pow, ← BitVec.toNat_ushiftRight, h]
  have h0 : x.toNat = 0 := by
    by_contra hne
    have hlt := Nat.div_lt_self (Nat.pos_of_ne_zero hne) (Nat.one_lt_two_pow (Nat.ne_of_gt hs))
    omega
  exact BitVec.eq_of_toNat_eq (by rw [h0, BitVec.toNat_zero])

theorem xor_ushiftRight_injective {s : ℕ} (hs : 0 < s) :
    Function.Injective fun x : BitVec w => x ^^^ (x >>> s) := by
  intro x y hxy
  have hxy' : x ^^^ (x >>> s) = y ^^^ (y >>> s) := hxy
  -- the difference of the two words is its own shift
  have hd : (x ^^^ y) >>> s = x ^^^ y := by
    calc (x ^^^ y) >>> s = (x >>> s) ^^^ (y >>> s) := BitVec.ushiftRight_xor_distrib ..
      _ = x ^^^ (x ^^^ (x >>> s)) ^^^ (y >>> s) := by rw [← BitVec.xor_assoc x x, BitVec.xor_self,
            BitVec.zero_xor]
      _ = x ^^^ (y ^^^ (y >>> s)) ^^^ (y >>> s) := by rw [hxy']
      _ = x ^^^ y := by rw [BitVec.xor_assoc, BitVec.xor_assoc, BitVec.xor_self, BitVec.xor_zero]
  exact BitVec.xor_eq_zero_iff.mp (eq_zero_of_ushiftRight hs hd)

theorem bijective {f : BitVec w → BitVec w} (h : Function.Injective f) : Function.Bijective f :=
  Finite.injective_iff_bijective.mp h

/-- The words whose residue is `b` are the numbers below `2 ^ w` whose residue is `b`. -/
def residueEquiv (n b : ℕ) :
    {x : BitVec w // x.toNat % n = b} ≃ {i : ℕ // i < 2 ^ w ∧ i % n = b} where
  toFun x := ⟨x.val.toNat, x.val.isLt, x.property⟩
  invFun i := ⟨BitVec.ofNat w i.val, by
    rw [BitVec.toNat_ofNat, Nat.mod_eq_of_lt i.property.1]
    exact i.property.2⟩
  left_inv x := Subtype.ext (by simp)
  right_inv i := Subtype.ext (by
    show (BitVec.ofNat w i.val).toNat = i.val
    rw [BitVec.toNat_ofNat, Nat.mod_eq_of_lt i.property.1])

/-- A bijection of words hits each residue `b` modulo `n` equally often, up to one. -/
theorem card_mod {f : BitVec w → BitVec w} (hf : Function.Bijective f) {n b : ℕ} (hn : 0 < n)
    (hb : b < n) : Nat.card {x : BitVec w // (f x).toNat % n = b} =
      2 ^ w / n + if b < 2 ^ w % n then 1 else 0 := by
  have e : {x : BitVec w // (f x).toNat % n = b} ≃ {x : BitVec w // x.toNat % n = b} :=
    (Equiv.ofBijective f hf).subtypeEquiv fun x => Iff.rfl
  have hcount := Nat.count_modEq_card (2 ^ w) hn b
  simp only [Nat.ModEq, Nat.mod_eq_of_lt hb] at hcount
  rw [Nat.card_congr e, Nat.card_congr (residueEquiv n b), Nat.card_eq_fintype_card,
    ← Nat.count_eq_card_fintype, hcount]

end Mixing
