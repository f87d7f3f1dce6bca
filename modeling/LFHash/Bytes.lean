/-
# The bytes a hash depends on

Two buffers that differ in one byte. A byte of a whole block changes the block, and every
later step is injective in the hash so far, so the hash changes. Of the bytes that remain
the switch reads the last one only, since each of its cases breaks: the one or two before
it change nothing.

Key definitions: `DifferAt`.
Key theorems: `mixBlocks_injective`, `mixBlocks_differ`, `tailWord_differ`,
`byte_influences_iff`, `byte_without_influence`.
-/
import LFHash.Homes

namespace LFHash

/-- The buffers are of one length and differ in byte `i`, and in no other. -/
def DifferAt (i : ℕ) (data data' : List (BitVec 8)) : Prop :=
  data.length = data'.length ∧ ∀ j, data[j]? ≠ data'[j]? ↔ j = i

variable {i : ℕ} {data data' rest rest' : List (BitVec 8)} {b b' : BitVec 8}

namespace DifferAt

theorem lt (h : DifferAt i data data') : i < data.length := by
  by_contra hi
  refine (h.2 i).mpr rfl ?_
  rw [List.getElem?_eq_none (not_lt.mp hi), List.getElem?_eq_none (h.1 ▸ not_lt.mp hi)]

theorem head (h : DifferAt 0 (b :: rest) (b' :: rest')) : b ≠ b' ∧ rest = rest' := by
  refine ⟨by simpa using (h.2 0).mpr rfl, List.ext_getElem? fun j => ?_⟩
  by_contra hj
  exact Nat.succ_ne_zero j ((h.2 (j + 1)).mp hj)

theorem tail (h : DifferAt (i + 1) (b :: rest) (b' :: rest')) :
    b = b' ∧ DifferAt i rest rest' := by
  refine ⟨?_, Nat.succ.inj h.1, fun j => (h.2 (j + 1)).trans Nat.succ_inj⟩
  by_contra hb
  refine Nat.succ_ne_zero i ((h.2 0).mp ?_).symm
  simpa using hb

theorem set (hi : i < data.length) (hb : data[i] ≠ b) : DifferAt i data (data.set i b) := by
  refine ⟨List.length_set.symm, fun j => ?_⟩
  by_cases hj : i = j
  · subst hj
    simpa [hi] using hb
  · simp [List.getElem?_set_ne hj, eq_comm, hj]

end DifferAt

/-! ### The block loop -/

/-- The later blocks lose nothing of the hash so far. -/
theorem mixBlocks_injective : ∀ data, Function.Injective fun h => (mixBlocks h data).1
  | b0 :: b1 :: b2 :: b3 :: rest => fun _ _ he =>
    mmix_injective (b3 ++ b2 ++ b1 ++ b0) (mixBlocks_injective rest he)
  | [] | [_] | [_, _] | [_, _, _] => fun _ _ he => he

theorem mixBlocks_of_lt (h : BitVec 32) (hlen : data.length < 4) :
    mixBlocks h data = (h, data) := by
  match data, hlen with
  | [], _ | [_], _ | [_, _], _ | [_, _, _], _ => simp [mixBlocks]

/-- The bytes that remain do not depend on the hash. -/
theorem mixBlocks_snd : ∀ (h h' : BitVec 32) data, (mixBlocks h data).2 = (mixBlocks h' data).2
  | h, h', b0 :: b1 :: b2 :: b3 :: rest => mixBlocks_snd (mmix h (b3 ++ b2 ++ b1 ++ b0)) _ rest
  | h, h', [] | h, h', [_] | h, h', [_, _] | h, h', [_, _, _] => by simp [mixBlocks]

/-- A byte of the first block changes the block, and the later bytes are the same. -/
theorem block_differ {b0 b1 b2 b3 c0 c1 c2 c3 : BitVec 8}
    (hd : DifferAt i (b0 :: b1 :: b2 :: b3 :: rest) (c0 :: c1 :: c2 :: c3 :: rest'))
    (hi : i < 4) : b3 ++ b2 ++ b1 ++ b0 ≠ c3 ++ c2 ++ c1 ++ c0 ∧ rest = rest' := by
  match i, hi with
  | 0, _ =>
    obtain ⟨hb, he⟩ := hd.head
    cases he
    exact ⟨fun he => hb ((BitVec.append_right_inj _).mp he), rfl⟩
  | 1, _ =>
    obtain ⟨rfl, h1⟩ := hd.tail
    obtain ⟨hb, he⟩ := h1.head
    cases he
    refine ⟨fun he => hb ?_, rfl⟩
    rwa [BitVec.append_left_inj, BitVec.append_right_inj] at he
  | 2, _ =>
    obtain ⟨rfl, h1⟩ := hd.tail
    obtain ⟨rfl, h2⟩ := h1.tail
    obtain ⟨hb, he⟩ := h2.head
    cases he
    refine ⟨fun he => hb ?_, rfl⟩
    rwa [BitVec.append_left_inj, BitVec.append_left_inj, BitVec.append_right_inj] at he
  | 3, _ =>
    obtain ⟨rfl, h1⟩ := hd.tail
    obtain ⟨rfl, h2⟩ := h1.tail
    obtain ⟨rfl, h3⟩ := h2.tail
    obtain ⟨hb, rfl⟩ := h3.head
    refine ⟨fun he => hb ?_, rfl⟩
    rwa [BitVec.append_left_inj, BitVec.append_left_inj, BitVec.append_left_inj] at he

/-- A byte of a whole block changes the hash; the bytes that remain are the same then. Else
the hash is the same, and the byte is among those that remain. -/
theorem mixBlocks_differ : ∀ {data data' : List (BitVec 8)} {i : ℕ} (h : BitVec 32),
    DifferAt i data data' →
    (i < 4 * (data.length / 4) ∧ (mixBlocks h data).1 ≠ (mixBlocks h data').1 ∧
      (mixBlocks h data).2 = (mixBlocks h data').2) ∨
    ∃ j, i = 4 * (data.length / 4) + j ∧ (mixBlocks h data).1 = (mixBlocks h data').1 ∧
      DifferAt j (mixBlocks h data).2 (mixBlocks h data').2 ∧
      (mixBlocks h data).2.length = data.length % 4
  | b0 :: b1 :: b2 :: b3 :: rest, c0 :: c1 :: c2 :: c3 :: rest', i, h, hd => by
    have hlen : (b0 :: b1 :: b2 :: b3 :: rest).length = rest.length + 4 := rfl
    by_cases hi : i < 4
    · obtain ⟨hblock, rfl⟩ := block_differ hd hi
      refine Or.inl ⟨by omega, fun he => hblock ?_, mixBlocks_snd _ _ rest⟩
      exact mmix_injective_block h (mixBlocks_injective rest he)
    · obtain ⟨i, rfl⟩ := Nat.exists_eq_add_of_le' (not_lt.mp hi)
      obtain ⟨rfl, h1⟩ := hd.tail
      obtain ⟨rfl, h2⟩ := h1.tail
      obtain ⟨rfl, h3⟩ := h2.tail
      obtain ⟨rfl, h4⟩ := h3.tail
      rcases mixBlocks_differ (mmix h (b3 ++ b2 ++ b1 ++ b0)) h4 with
        ⟨hi, hne, htail⟩ | ⟨j, rfl, he, hj, htail⟩
      · exact Or.inl ⟨by omega, hne, htail⟩
      · exact Or.inr ⟨j, by omega, he, hj, by rw [hlen, Nat.add_mod_right]; exact htail⟩
  | [], data', i, h, hd | [_], data', i, h, hd | [_, _], data', i, h, hd
  | [_, _, _], data', i, h, hd => by
    rw [mixBlocks_of_lt h (by simp), mixBlocks_of_lt h (by rw [← hd.1]; simp)]
    exact Or.inr ⟨i, by simp, rfl, hd, rfl⟩

/-! ### The bytes that remain -/

/-- A byte is not lost when it is shifted inside the word. -/
theorem shifted_injective {s : ℕ} (hs : s + 8 ≤ 32) :
    Function.Injective fun b : BitVec 8 => b.setWidth 32 <<< s := by
  intro b c he
  refine BitVec.eq_of_getLsbD_eq fun j hj => ?_
  have hbit : (b.setWidth 32 <<< s).getLsbD (s + j) = (c.setWidth 32 <<< s).getLsbD (s + j) :=
    congrArg (fun x : BitVec 32 => x.getLsbD (s + j)) he
  have hlt : s + j < 32 := by omega
  have hj' : j < 32 := by omega
  simpa [hlt, hj', Nat.add_sub_cancel_left] using hbit

/-- The switch reads the last byte, and no other. -/
theorem tailWord_differ (h : DifferAt i data data') (hlen : data.length < 4) :
    tailWord data ≠ tailWord data' ↔ i + 1 = data.length := by
  match data, data', i, h.1, h.lt, hlen with
  | [b], [c], 0, _, _, _ =>
    refine iff_of_true (fun he => h.head.1 ?_) rfl
    exact shifted_injective (s := 0) (by decide) (by simpa [tailWord] using he)
  | [b0, b1], [c0, c1], 0, _, _, _ =>
    obtain ⟨-, he⟩ := h.head
    cases he
    exact iff_of_false (not_not.mpr rfl) (by simp)
  | [b0, b1], [c0, c1], 1, _, _, _ =>
    obtain ⟨rfl, h1⟩ := h.tail
    exact iff_of_true (fun he => h1.head.1 (shifted_injective (by decide) he)) rfl
  | [b0, b1, b2], [c0, c1, c2], 0, _, _, _ =>
    obtain ⟨-, he⟩ := h.head
    cases he
    exact iff_of_false (not_not.mpr rfl) (by simp)
  | [b0, b1, b2], [c0, c1, c2], 1, _, _, _ =>
    obtain ⟨rfl, h1⟩ := h.tail
    obtain ⟨-, he⟩ := h1.head
    cases he
    exact iff_of_false (not_not.mpr rfl) (by simp)
  | [b0, b1, b2], [c0, c1, c2], 2, _, _, _ =>
    obtain ⟨rfl, h1⟩ := h.tail
    obtain ⟨rfl, h2⟩ := h1.tail
    exact iff_of_true (fun he => h2.head.1 (shifted_injective (by decide) he)) rfl

/-- A byte influences the hash exactly if it is in a whole block or is the last one. -/
theorem byte_influences_iff (seed : BitVec 32) (h : DifferAt i data data') :
    murmur seed data ≠ murmur seed data' ↔ i < 4 * (data.length / 4) ∨ i + 1 = data.length := by
  rw [murmur_eq, murmur_eq, ← h.1, finish_injective.ne_iff, (mmix_injective _).ne_iff]
  rcases mixBlocks_differ seed h with ⟨hi, hne, htail⟩ | ⟨j, rfl, he, hj, hlen⟩
  · rw [htail, (mmix_injective _).ne_iff]
    exact iff_of_true hne (Or.inl hi)
  · rw [he, (mmix_injective_block _).ne_iff, tailWord_differ hj (by omega), hlen]
    omega

theorem last_byte_influences : murmur 1 [0, 0, 0] ≠ murmur 1 [0, 0, 7] :=
  (byte_influences_iff 1 (DifferAt.set (i := 2) (b := 7) (by decide) (by decide))).mpr (Or.inr rfl)

/-- The first of three bytes. -/
theorem byte_without_influence : DifferAt 0 [0, 0, 0] [7, 0, 0] ∧
    murmur 1 [0, 0, 0] = murmur 1 [7, 0, 0] :=
  ⟨DifferAt.set (by decide) (by decide), by decide⟩

end LFHash
