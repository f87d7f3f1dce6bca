/-
# The logical table

A slot that `add` has reserved, or that `Relocate` is moving a key out of,
holds a tagged word. The logical table `L` is the table without them: a reserved
slot is empty, the moved key is at its old slot until line 197 copies it and at
its new one from then on. `Sim` relates the slots, what each thread owns (its
`Role`), and `L`; each thing a thread can do to the slots keeps it, and only
four of them change `L` (`Sim.copy` moves a key, `Sim.put` writes a word).

Key definitions: `Role`, `Sim`.
Key theorems: `Sim.step`, `Sim.reserve`, `Sim.mark`, `Sim.copy`,
`Sim.overwrite`, `Sim.release`, `Sim.put`.
-/
import LFHash.Local
import LFHash.Window

namespace LFHash

open Interleave Hopscotch

/-- What a thread owns: nothing; the slot it has reserved; the reserved slot
`l` and the slot `r` it moves a key out of; the slot `r` once the key is copied. -/
inductive Role
  | free
  | hold (i : ℕ)
  | marking (l r : ℕ)
  | copied (r : ℕ)

def Role.Owns : Role → ℕ → Prop
  | free, _ => False
  | hold i, j => j = i
  | marking l r, j => j = l ∨ j = r
  | copied r, j => j = r

/-- What the owned slots hold, in the table and in the logical one. -/
def Role.Fits (T L : ℕ → Word) : Role → Prop
  | free => True
  | hold i => tag (T i) = 3#64 ∧ L i = 0#64
  | marking l r => tag (T l) = 3#64 ∧ L l = 0#64 ∧ T r = moving (L r)
  | copied r => tag (T r) = 1#64 ∧ L r = 0#64

/-- The slots `T` with the owners `ρ` stand for the logical table `L`. -/
structure Sim (T : ℕ → Word) (ρ : ℕ → Role) (L : ℕ → Word) : Prop where
  untagged : ∀ i, tag (L i) = 0#64
  agree : ∀ i, (∀ t, ¬ (ρ t).Owns i) → T i = L i
  fits : ∀ t, (ρ t).Fits T L
  excl : ∀ t u i, (ρ t).Owns i → (ρ u).Owns i → t = u

theorem Role.Fits.tag_ne {T L : ℕ → Word} {a : Role} {i : ℕ} (h : a.Fits T L) (hi : a.Owns i) :
    tag (T i) ≠ 0#64 := by
  cases a with
  | free => exact hi.elim
  | hold j => cases hi; rw [h.1]; decide
  | marking l r =>
    rcases hi with rfl | rfl
    · rw [h.1]; decide
    · rw [h.2.2, tag_moving]; decide
  | copied r => cases hi; rw [h.1]; decide

theorem Role.Fits.congr {T T' L L' : ℕ → Word} {a : Role} (h : a.Fits T L)
    (hs : ∀ i, a.Owns i → T' i = T i ∧ L' i = L i) : a.Fits T' L' := by
  cases a with
  | free => trivial
  | hold i => obtain ⟨e1, e2⟩ := hs i rfl; simpa only [Fits, e1, e2] using h
  | marking l r =>
    obtain ⟨e1, e2⟩ := hs l (Or.inl rfl)
    obtain ⟨e3, e4⟩ := hs r (Or.inr rfl)
    simpa only [Fits, e1, e2, e3, e4] using h
  | copied r => obtain ⟨e1, e2⟩ := hs r rfl; simpa only [Fits, e1, e2] using h

namespace Sim

variable {T T' : ℕ → Word} {ρ : ℕ → Role} {L L' : ℕ → Word} {t : ℕ} {a : Role}

theorem unowned (h : Sim T ρ L) {i : ℕ} (hi : tag (T i) = 0#64) (u : ℕ) : ¬ (ρ u).Owns i :=
  fun ho => (h.fits u).tag_ne ho hi

theorem eq_of_tag (h : Sim T ρ L) {i : ℕ} (hi : tag (T i) = 0#64) : T i = L i :=
  h.agree i (h.unowned hi)

theorem eq_of_read (h : Sim T ρ L) {i : ℕ} {v : Word} (hi : T i = v) (hv : tag v = 0#64) :
    L i = v := by
  rw [← h.eq_of_tag (by rw [hi, hv]), hi]

/-- A stored word is read as it is, or as moving. -/
theorem read (h : Sim T ρ L) {i : ℕ} (hi : L i ≠ 0#64) : T i = L i ∨ T i = moving (L i) := by
  by_cases ho : ∃ u, (ρ u).Owns i
  · obtain ⟨u, hu⟩ := ho
    have hf := h.fits u
    cases hr : ρ u with
    | free => rw [hr] at hu; exact hu.elim
    | hold j => rw [hr] at hu hf; cases hu; exact absurd hf.2 hi
    | marking l r =>
      rw [hr] at hu hf
      rcases hu with rfl | rfl
      · exact absurd hf.2.1 hi
      · exact Or.inr hf.2.2
    | copied r => rw [hr] at hu hf; cases hu; exact absurd hf.2 hi
  · push Not at ho
    exact Or.inl (h.agree i ho)

/-- Thread `t` takes the role `a`: it changes only slots no other thread owns,
and what it no longer owns agrees with the logical table. -/
theorem step (h : Sim T ρ L) (hL : ∀ i, tag (L' i) = 0#64) (ha : a.Fits T' L')
    (hother : ∀ u ≠ t, ∀ i, (ρ u).Owns i → T' i = T i ∧ L' i = L i ∧ ¬ a.Owns i)
    (hagree : ∀ i, ¬ a.Owns i → (∀ u ≠ t, ¬ (ρ u).Owns i) → T' i = L' i) :
    Sim T' (Function.update ρ t a) L' := by
  refine ⟨hL, fun i hi => ?_, fun u => ?_, fun u v i hu hv => ?_⟩
  · refine hagree i ?_ fun u hu => ?_
    · simpa using hi t
    · simpa [Function.update_of_ne hu] using hi u
  · by_cases hut : u = t
    · subst hut
      simpa using ha
    · rw [Function.update_of_ne hut]
      exact (h.fits u).congr fun i hi => ⟨(hother u hut i hi).1, (hother u hut i hi).2.1⟩
  · by_cases hut : u = t <;> by_cases hvt : v = t
    · rw [hut, hvt]
    · subst hut
      rw [Function.update_self] at hu
      rw [Function.update_of_ne hvt] at hv
      exact absurd hu (hother v hvt i hv).2.2
    · subst hvt
      rw [Function.update_self] at hv
      rw [Function.update_of_ne hut] at hu
      exact absurd hv (hother u hut i hu).2.2
    · rw [Function.update_of_ne hut] at hu
      rw [Function.update_of_ne hvt] at hv
      exact h.excl u v i hu hv

theorem agree_of_ne (h : Sim T ρ L) {i : ℕ} (ht : ¬ (ρ t).Owns i)
    (hu : ∀ u ≠ t, ¬ (ρ u).Owns i) : T i = L i := by
  refine h.agree i fun u => ?_
  by_cases hut : u = t
  · exact hut ▸ ht
  · exact hu u hut

theorem other (h : Sim T ρ L) {u i : ℕ} (hut : u ≠ t) (hu : (ρ u).Owns i) : ¬ (ρ t).Owns i :=
  fun ht => hut (h.excl u t i hu ht)

/-- Line 156: an empty slot is reserved. -/
theorem reserve (h : Sim T ρ L) (ht : ρ t = .free) {i : ℕ} {w : Word} (hi : T i = 0#64)
    (hw : tag w = 3#64) : Sim (Function.update T i w) (Function.update ρ t (.hold i)) L := by
  have hun := h.unowned (i := i) (by rw [hi, tag_zero])
  refine h.step h.untagged ⟨by rwa [Function.update_self], ?_⟩ (fun u hut j hj => ?_)
    fun j hj hu => ?_
  · rw [← h.agree i hun, hi]
  · have hji : j ≠ i := fun e => hun u (e ▸ hj)
    exact ⟨Function.update_of_ne hji _ _, rfl, hji⟩
  · rw [Function.update_of_ne hj]
    exact h.agree_of_ne (t := t) (by rw [ht]; exact id) hu

/-- Line 191: the key in an untagged slot is marked. -/
theorem mark (h : Sim T ρ L) {l r : ℕ} (ht : ρ t = .hold l) (hr : tag (T r) = 0#64) :
    Sim (Function.update T r (moving (T r))) (Function.update ρ t (.marking l r)) L := by
  have hun := h.unowned hr
  have hf := h.fits t
  rw [ht] at hf
  have hlr : l ≠ r := by
    rintro rfl
    rw [hf.1] at hr
    exact absurd hr (by decide)
  refine h.step h.untagged ⟨?_, hf.2, ?_⟩ (fun u hut j hj => ?_) fun j hj hu => ?_
  · rw [Function.update_of_ne hlr]; exact hf.1
  · rw [Function.update_self, h.eq_of_tag hr]
  · have hjr : j ≠ r := fun e => hun u (e ▸ hj)
    have hjl := h.other hut hj
    rw [ht] at hjl
    exact ⟨Function.update_of_ne hjr _ _, rfl, fun hc => hc.elim hjl hjr⟩
  · simp only [Role.Owns, not_or] at hj
    rw [Function.update_of_ne hj.2]
    exact h.agree_of_ne (t := t) (by rw [ht]; exact hj.1) hu

/-- Line 197: the marked key is copied into the reserved slot. -/
theorem copy (h : Sim T ρ L) {l r : ℕ} (ht : ρ t = .marking l r) :
    Sim (Function.update T l (strip (T r))) (Function.update ρ t (.copied r))
      (move 0#64 L r l) := by
  have hf := h.fits t
  rw [ht] at hf
  obtain ⟨h1, h2, h3⟩ := hf
  have hlr : r ≠ l := by
    rintro rfl
    rw [h3, tag_moving] at h1
    exact absurd h1 (by decide)
  have hstrip : strip (T r) = L r := by rw [h3, strip_moving, strip_of_tag (h.untagged r)]
  refine h.step (fun i => ?_) ⟨?_, move_apply_src⟩ (fun u hut j hj => ?_) fun j hj hu => ?_
  · rcases move_cases L 0#64 hlr i with ⟨-, e⟩ | ⟨-, e⟩ | ⟨-, -, e⟩ <;> rw [e]
    · exact tag_zero
    · exact h.untagged r
    · exact h.untagged i
  · rw [Function.update_of_ne hlr, h3, tag_moving]
  · have hj' := h.other hut hj
    rw [ht] at hj'
    simp only [Role.Owns, not_or] at hj'
    exact ⟨Function.update_of_ne hj'.1 _ _, move_apply hj'.2 hj'.1, hj'.2⟩
  · by_cases hjl : j = l
    · subst hjl
      rw [Function.update_self, move_apply_dst hlr, hstrip]
    · rw [Function.update_of_ne hjl, move_apply hj hjl]
      exact h.agree_of_ne (t := t) (by rw [ht]; exact fun hc => hc.elim hjl hj) hu

/-- Line 201: the slot the key has left is reserved. -/
theorem overwrite (h : Sim T ρ L) {r : ℕ} {w : Word} (ht : ρ t = .copied r)
    (hw : tag w = 3#64) : Sim (Function.update T r w) (Function.update ρ t (.hold r)) L := by
  have hf := h.fits t
  rw [ht] at hf
  refine h.step h.untagged ⟨by rwa [Function.update_self], hf.2⟩ (fun u hut j hj => ?_)
    fun j hj hu => ?_
  · have hj' := h.other hut hj
    rw [ht] at hj'
    exact ⟨Function.update_of_ne hj' _ _, rfl, hj'⟩
  · rw [Function.update_of_ne hj]
    exact h.agree_of_ne (t := t) (by rw [ht]; exact hj) hu

/-- Line 166: the reserved slot is released. -/
theorem release (h : Sim T ρ L) {i : ℕ} (ht : ρ t = .hold i) :
    Sim (Function.update T i 0#64) (Function.update ρ t .free) L := by
  have hf := h.fits t
  rw [ht] at hf
  refine h.step h.untagged trivial (fun u hut j hj => ?_) fun j _ hu => ?_
  · have hj' := h.other hut hj
    rw [ht] at hj'
    exact ⟨Function.update_of_ne hj' _ _, rfl, id⟩
  · by_cases hji : j = i
    · subst hji
      rw [Function.update_self, hf.2]
    · rw [Function.update_of_ne hji]
      exact h.agree_of_ne (t := t) (by rw [ht]; exact hji) hu

/-- Lines 123 and 253: an untagged slot gets another untagged word. -/
theorem put (h : Sim T ρ L) {i : ℕ} {w : Word} (hi : tag (T i) = 0#64) (hw : tag w = 0#64) :
    Sim (Function.update T i w) ρ (Function.update L i w) := by
  have hun := h.unowned hi
  have hne : ∀ u j, (ρ u).Owns j → j ≠ i := fun u j hj e => hun u (e ▸ hj)
  refine ⟨fun j => ?_, fun j hj => ?_, fun u => (h.fits u).congr fun j hj => ?_, h.excl⟩
  · by_cases hji : j = i
    · rw [hji, Function.update_self, hw]
    · rw [Function.update_of_ne hji]; exact h.untagged j
  · by_cases hji : j = i
    · rw [hji, Function.update_self, Function.update_self]
    · rw [Function.update_of_ne hji, Function.update_of_ne hji]; exact h.agree j hj
  · exact ⟨Function.update_of_ne (hne u j hj) _ _, Function.update_of_ne (hne u j hj) _ _⟩

end Sim

end LFHash
