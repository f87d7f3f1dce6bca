/-
# Hopscotch tables

A table gives each slot a value, and one value means that the slot is empty.
Every value has a home slot; its window is the `H + 1` slots from its home on,
and a lookup reads the window and nothing else. Three things change a table: a
value is put into an empty slot, a value is replaced, and a value moves forward
into an empty slot of its window.

Key definitions: `Window`, `Placed`, `Distinct`, `Member`, `MemberFrom`, `move`,
`Lone`, `Eroded`, `Single`, `Represents`.
Key theorems: `Placed.move`, `Distinct.move`, `above_move`, `MemberFrom.move`,
`MemberFrom.put`, `Single.there_or_gone`, `Represents.move`, `Represents.insert`,
`Represents.erase`.
-/
import Mathlib.Logic.Function.Basic
import Mathlib.Data.Nat.Basic

namespace Hopscotch

variable {V : Type} (home : V → ℕ) (H : ℕ) (empty : V)

/-- The slots where `v` may be stored. -/
def Window (v : V) (i : ℕ) : Prop := home v ≤ i ∧ i ≤ home v + H

instance (v : V) (i : ℕ) : Decidable (Window home H v i) :=
  inferInstanceAs (Decidable (_ ∧ _))

/-- Every stored value is in its window. -/
def Placed (L : ℕ → V) : Prop := ∀ i, L i ≠ empty → Window home H (L i) i

/-- No value is stored twice. -/
def Distinct (L : ℕ → V) : Prop := ∀ i j, L i ≠ empty → L i = L j → i = j

/-- The value is stored somewhere. -/
def Has (L : ℕ → V) (v : V) : Prop := ∃ i, L i = v

/-- The value is stored in its window, where a lookup finds it. -/
def Member (L : ℕ → V) (v : V) : Prop := ∃ i, Window home H v i ∧ L i = v

/-- The value is stored in its window, at slot `n` or above. -/
def MemberFrom (L : ℕ → V) (v : V) (n : ℕ) : Prop :=
  ∃ i, n ≤ i ∧ Window home H v i ∧ L i = v

/-- The value is stored at most once in its window. -/
def Once (L : ℕ → V) (v : V) : Prop :=
  ∀ i j, Window home H v i → Window home H v j → L i = v → L j = v → i = j

/-- The value in slot `r` moves to slot `l`. -/
def move (L : ℕ → V) (r l : ℕ) : ℕ → V :=
  Function.update (Function.update L l (L r)) r empty

variable {home H empty} {L : ℕ → V} {v w : V} {i l r : ℕ}

theorem move_apply_src : move empty L r l r = empty := Function.update_self ..

theorem move_apply_dst (h : r ≠ l) : move empty L r l l = L r := by
  rw [move, Function.update_of_ne h.symm, Function.update_self]

theorem move_apply (hr : i ≠ r) (hl : i ≠ l) : move empty L r l i = L i := by
  rw [move, Function.update_of_ne hr, Function.update_of_ne hl]

/-- What a slot holds after a move. -/
theorem move_cases (L : ℕ → V) (empty : V) (h : r ≠ l) (i : ℕ) : (i = r ∧ move empty L r l i = empty) ∨
    (i = l ∧ move empty L r l i = L r) ∨ (i ≠ r ∧ i ≠ l ∧ move empty L r l i = L i) := by
  by_cases hr : i = r
  · exact Or.inl ⟨hr, hr ▸ move_apply_src⟩
  · by_cases hl : i = l
    · exact Or.inr (Or.inl ⟨hl, by rw [hl, move_apply_dst h]⟩)
    · exact Or.inr (Or.inr ⟨hr, hl, move_apply hr hl⟩)

/-! ### Placement -/

theorem Placed.move (hp : Placed home H empty L) (hne : r ≠ l)
    (hw : L r = empty ∨ Window home H (L r) l) : Placed home H empty (move empty L r l) := by
  intro i hi
  rcases move_cases L empty hne i with ⟨-, e⟩ | ⟨rfl, e⟩ | ⟨-, -, e⟩
  · exact absurd e hi
  · rw [e] at hi ⊢
    exact hw.resolve_left hi
  · rw [e] at hi ⊢
    exact hp i hi

theorem Placed.put (hp : Placed home H empty L) (hw : Window home H v i) :
    Placed home H empty (Function.update L i v) := by
  intro j hj
  by_cases hji : j = i
  · subst hji
    rwa [Function.update_self]
  · rw [Function.update_of_ne hji] at hj ⊢
    exact hp j hj

theorem Placed.member (hp : Placed home H empty L) (hv : v ≠ empty) (h : Has L v) :
    Member home H L v := by
  obtain ⟨i, rfl⟩ := h
  exact ⟨i, hp i hv, rfl⟩

/-! ### No value twice -/

theorem Distinct.move (hd : Distinct empty L) (hne : r ≠ l) (hl : L l = empty) :
    Distinct empty (move empty L r l) := by
  intro i j hi hij
  rcases move_cases L empty hne i with ⟨-, e⟩ | ⟨rfl, e⟩ | ⟨h1, h2, e⟩ <;>
    rcases move_cases L empty hne j with ⟨-, e'⟩ | ⟨rfl, e'⟩ | ⟨h1', h2', e'⟩ <;>
    rw [e] at hi hij <;> rw [e'] at hij
  · exact absurd rfl hi
  · exact absurd rfl hi
  · exact absurd rfl hi
  · exact absurd hij hi
  · exact absurd (hd _ _ hi hij).symm h1'
  · exact absurd hij hi
  · exact absurd (hd _ _ hi hij) h1
  · exact hd _ _ hi hij

theorem Distinct.put (hd : Distinct empty L) (hv : ¬ Has L v) :
    Distinct empty (Function.update L i v) := by
  intro a b ha hab
  by_cases h1 : a = i <;> by_cases h2 : b = i
  · rw [h1, h2]
  · rw [h1, Function.update_self, Function.update_of_ne h2] at hab
    exact absurd ⟨b, hab.symm⟩ hv
  · rw [h2, Function.update_self, Function.update_of_ne h1] at hab
    exact absurd ⟨a, hab⟩ hv
  · rw [Function.update_of_ne h1] at ha hab
    rw [Function.update_of_ne h2] at hab
    exact hd a b ha hab

/-! ### What is stored -/

/-- A move keeps what is stored, and stores nothing new. -/
theorem has_move (hne : r ≠ l) (hl : L l = empty) (hv : v ≠ empty) :
    Has (move empty L r l) v ↔ Has L v := by
  constructor
  · rintro ⟨i, rfl⟩
    rcases move_cases L empty hne i with ⟨-, e⟩ | ⟨-, e⟩ | ⟨-, -, e⟩
    · exact absurd e hv
    · exact ⟨r, e.symm⟩
    · exact ⟨i, e.symm⟩
  · rintro ⟨i, rfl⟩
    by_cases hr : i = r
    · exact ⟨l, by rw [move_apply_dst hne, hr]⟩
    · have hil : i ≠ l := fun h => hv (h ▸ hl)
      exact ⟨i, move_apply hr hil⟩

/-- A move takes the copies of a value forward only. -/
theorem above_move (hlt : r < l) (hv : v ≠ empty) (hi : move empty L r l i = v) :
    ∃ j, j ≤ i ∧ L j = v := by
  rcases move_cases L empty (Nat.ne_of_lt hlt) i with
    ⟨-, e⟩ | ⟨rfl, e⟩ | ⟨-, -, e⟩ <;> rw [e] at hi
  · exact absurd hi.symm hv
  · exact ⟨r, Nat.le_of_lt hlt, hi⟩
  · exact ⟨i, Nat.le_refl i, hi⟩

theorem has_put_of_ne (h : Has L v) (hi : L i ≠ v) : Has (Function.update L i w) v := by
  obtain ⟨j, rfl⟩ := h
  have hji : j ≠ i := fun h => hi (h ▸ rfl)
  exact ⟨j, Function.update_of_ne hji _ _⟩

theorem has_put_self : Has (Function.update L i v) v := ⟨i, Function.update_self ..⟩

/-- A put stores its value and nothing else that is new. -/
theorem has_of_put (h : Has (Function.update L i w) v) (hne : v ≠ w) : Has L v := by
  obtain ⟨j, hj⟩ := h
  by_cases hji : j = i
  · rw [hji, Function.update_self] at hj
    exact absurd hj.symm hne
  · exact ⟨j, by rwa [Function.update_of_ne hji] at hj⟩

/-- A value that moves forward in its window stays above every slot it was above. -/
theorem MemberFrom.move {n : ℕ} (h : MemberFrom home H L v n) (hne : r < l) (hl : L l = empty)
    (hv : v ≠ empty) (hw : L r = v → Window home H v l) :
    MemberFrom home H (move empty L r l) v n := by
  obtain ⟨i, hn, hi, hLi⟩ := h
  by_cases hr : i = r
  · subst hr
    exact ⟨l, by omega, hw hLi, by rw [move_apply_dst (Nat.ne_of_lt hne), hLi]⟩
  · have hil : i ≠ l := by
      rintro rfl
      exact hv (hLi.symm.trans hl)
    exact ⟨i, hn, hi, by rw [move_apply hr hil, hLi]⟩

theorem MemberFrom.put {n : ℕ} (h : MemberFrom home H L v n) (hi : L i ≠ v) :
    MemberFrom home H (Function.update L i w) v n := by
  obtain ⟨j, hn, hj, hLj⟩ := h
  have hji : j ≠ i := by
    rintro rfl
    exact hi hLj
  exact ⟨j, hn, hj, by rw [Function.update_of_ne hji, hLj]⟩

/-! ### One value -/

/-- The value is stored in slot `x`, in its window, and nowhere else. -/
structure Lone (home : V → ℕ) (H : ℕ) (L : ℕ → V) (v : V) (x : ℕ) : Prop where
  window : Window home H v x
  only : ∀ i, L i = v ↔ i = x

/-- A value that moves in its window stays alone. -/
theorem Lone.move {x : ℕ} (h : Lone home H L v x) (hne : r ≠ l) (hl : L l = empty)
    (hv : v ≠ empty) (hw : L r = v → Window home H v l) :
    ∃ y, Lone home H (move empty L r l) v y := by
  have hxl : x ≠ l := by
    rintro rfl
    exact hv (((h.only x).mpr rfl).symm.trans hl)
  by_cases hxr : x = r
  · subst hxr
    have hx : L x = v := (h.only x).mpr rfl
    refine ⟨l, hw hx, fun i => ?_⟩
    rcases move_cases L empty hne i with ⟨rfl, e⟩ | ⟨rfl, e⟩ | ⟨h1, h2, e⟩ <;> rw [e]
    · exact ⟨fun he => absurd he.symm hv, fun he => absurd he hne⟩
    · exact ⟨fun _ => rfl, fun _ => hx⟩
    · exact ⟨fun he => absurd ((h.only i).mp he) h1, fun he => absurd he h2⟩
  · refine ⟨x, h.window, fun i => ?_⟩
    rcases move_cases L empty hne i with ⟨rfl, e⟩ | ⟨rfl, e⟩ | ⟨-, -, e⟩ <;> rw [e]
    · exact ⟨fun he => absurd he.symm hv, fun he => absurd he.symm hxr⟩
    · exact ⟨fun he => absurd ((h.only r).mp he).symm hxr, fun he => absurd he.symm hxl⟩
    · exact h.only i

/-- Another value that is put into another slot leaves the value alone. -/
theorem Lone.put {x : ℕ} (h : Lone home H L v x) (hi : L i ≠ v) (hw : w ≠ v) :
    Lone home H (Function.update L i w) v x := by
  refine ⟨h.window, fun j => ?_⟩
  by_cases hji : j = i
  · subst hji
    rw [Function.update_self]
    exact ⟨fun he => absurd he hw, fun he => absurd ((h.only j).mpr he) hi⟩
  · rw [Function.update_of_ne hji]
    exact h.only j

/-! ### Values that are taken away -/

/-- `L` is `L₀` without some of the values `K`: others than `K` have replaced them. -/
def Eroded (K : V → Prop) (L₀ L : ℕ → V) : Prop := ∀ i, L i = L₀ i ∨ K (L₀ i) ∧ ¬ K (L i)

/-- The value is stored at most once, and only in its window. -/
structure Single (home : V → ℕ) (H : ℕ) (L : ℕ → V) (v : V) : Prop where
  window : ∀ i, L i = v → Window home H v i
  once : ∀ i j, L i = v → L j = v → i = j

variable {P : V → Prop} {L₀ L' : ℕ → V}

theorem Eroded.refl (L : ℕ → V) : Eroded P L L := fun _ => Or.inl rfl

theorem Eroded.trans (h : Eroded P L₀ L) (h' : Eroded P L L') : Eroded P L₀ L' := by
  intro i
  rcases h' i with he | ⟨hk, hn⟩
  · rw [he]
    exact h i
  · rcases h i with he | ⟨-, hn'⟩
    · exact Or.inr ⟨he ▸ hk, hn⟩
    · exact absurd hk hn'

theorem Eroded.replace (hi : P (L i)) (hw : ¬ P w) : Eroded P L (Function.update L i w) := by
  intro j
  by_cases hj : j = i
  · rw [hj, Function.update_self]
    exact Or.inr ⟨hi, hw⟩
  · exact Or.inl (Function.update_of_ne hj _ _)

/-- What is still there was there before. -/
theorem Eroded.before (h : Eroded P L₀ L) (hv : P v) (hi : L i = v) : L₀ i = v := by
  rcases h i with he | ⟨-, hn⟩
  · rw [← he, hi]
  · rw [hi] at hn
    exact absurd hv hn

theorem Eroded.has (h : Eroded P L₀ L) (hv : P v) (hL : Has L v) : Has L₀ v := by
  obtain ⟨i, hi⟩ := hL
  exact ⟨i, h.before hv hi⟩

theorem Eroded.eq_of_not (h : Eroded P L₀ L) (hi : ¬ P (L₀ i)) : L i = L₀ i :=
  (h i).resolve_right fun hk => hi hk.1

theorem Single.eroded (h : Single home H L₀ v) (he : Eroded P L₀ L) (hv : P v) :
    Single home H L v :=
  ⟨fun i hi => h.window i (he.before hv hi),
    fun i j hi hj => h.once i j (he.before hv hi) (he.before hv hj)⟩

/-- The one copy is still there, or there is none. -/
theorem Single.there_or_gone (h : Single home H L₀ v) (he : Eroded P L₀ L) (hv : P v)
    (hi : L₀ i = v) : L i = v ∨ ¬ Has L v := by
  rcases he i with hs | ⟨-, hn⟩
  · exact Or.inl (hs.trans hi)
  · refine Or.inr fun ⟨j, hj⟩ => hn ?_
    have hji := h.once j i (he.before hv hj) hi
    rw [← hji, hj]
    exact hv

theorem Single.gone (h : Single home H L v) (hi : L i = v) (hw : w ≠ v) :
    ¬ Has (Function.update L i w) v := by
  rintro ⟨j, hj⟩
  by_cases hji : j = i
  · rw [hji, Function.update_self] at hj
    exact hw hj
  · rw [Function.update_of_ne hji] at hj
    exact hji (h.once j i hj hi)

/-- A value that moves in its window is still stored at most once. -/
theorem Single.move (h : Single home H L v) (hne : r ≠ l) (hv : v ≠ empty)
    (hw : L r = v → Window home H v l) : Single home H (move empty L r l) v := by
  have hat : ∀ i, Hopscotch.move empty L r l i = v →
      (i = l ∧ L r = v) ∨ (i ≠ r ∧ i ≠ l ∧ L i = v) := by
    intro i hi
    rcases move_cases L empty hne i with ⟨-, e⟩ | ⟨rfl, e⟩ | ⟨h1, h2, e⟩ <;> rw [e] at hi
    · exact absurd hi.symm hv
    · exact Or.inl ⟨rfl, hi⟩
    · exact Or.inr ⟨h1, h2, hi⟩
  refine ⟨fun i hi => ?_, fun i j hi hj => ?_⟩
  · rcases hat i hi with ⟨rfl, hr⟩ | ⟨-, -, hL⟩
    · exact hw hr
    · exact h.window i hL
  · rcases hat i hi with ⟨rfl, hr⟩ | ⟨hir, -, hLi⟩ <;> rcases hat j hj with ⟨rfl, hr'⟩ | ⟨hjr, -, hLj⟩
    · rfl
    · exact absurd (h.once j r hLj hr) hjr
    · exact absurd (h.once i r hLi hr') hir
    · exact h.once i j hLi hLj

/-- Another value takes a slot. -/
theorem Single.put (h : Single home H L v) (hw : w ≠ v) : Single home H (Function.update L i w) v := by
  have hat : ∀ j, Function.update L i w j = v → L j = v := by
    intro j hj
    by_cases hji : j = i
    · rw [hji, Function.update_self] at hj
      exact absurd hj hw
    · rwa [Function.update_of_ne hji] at hj
  exact ⟨fun j hj => h.window j (hat j hj), fun j k hj hk => h.once j k (hat j hj) (hat k hk)⟩

/-- The value is stored for the first time. -/
theorem Single.insert (hno : ¬ Has L v) (hw : Window home H v i) :
    Single home H (Function.update L i v) v := by
  have hat : ∀ j, Function.update L i v j = v → j = i := by
    intro j hj
    by_contra hji
    rw [Function.update_of_ne hji] at hj
    exact hno ⟨j, hj⟩
  refine ⟨fun j hj => ?_, fun j k hj hk => by rw [hat j hj, hat k hk]⟩
  rw [hat j hj]
  exact hw

/-- Replacing another value. -/
theorem has_put_iff (hi : L i ≠ v) (hw : w ≠ v) : Has (Function.update L i w) v ↔ Has L v :=
  ⟨fun h => has_of_put h hw.symm, fun h => has_put_of_ne h hi⟩

/-! ### The set a table stands for

`e` writes a key as a value. -/

variable {K : Type} {e : K → V} {S : K → Prop} {k : K}

/-- The keys of `S`, and no others, are in their windows, each of them once. -/
def Represents (home : V → ℕ) (H : ℕ) (empty : V) (e : K → V) (L : ℕ → V) (S : K → Prop) :
    Prop :=
  ∀ k, e k ≠ empty → (S k ↔ Member home H L (e k)) ∧ Once home H L (e k)

theorem Represents.congr {S' : K → Prop} (h : Represents home H empty e L S)
    (hS : ∀ k, S k ↔ S' k) : Represents home H empty e L S' := fun k hk =>
  ⟨(hS k).symm.trans (h k hk).1, (h k hk).2⟩

/-- A value that moves inside its window changes no set. -/
theorem Represents.move (h : Represents home H empty e L S) (hne : r ≠ l) (hl : L l = empty)
    (hw : L r = empty ∨ Window home H (L r) r ∧ Window home H (L r) l) :
    Represents home H empty e (move empty L r l) S := by
  intro k hk
  obtain ⟨hS, hone⟩ := h k hk
  have hwin : L r = e k → Window home H (e k) r ∧ Window home H (e k) l := by
    intro hr
    have hnot : L r ≠ empty := by rwa [hr]
    have := hw.resolve_left hnot
    rwa [hr] at this
  constructor
  · rw [hS]
    constructor
    · rintro ⟨i, hi, hLi⟩
      by_cases hir : i = r
      · subst hir
        exact ⟨l, (hwin hLi).2, by rw [move_apply_dst hne, hLi]⟩
      · have hil : i ≠ l := by
          rintro rfl
          exact hk (hLi.symm.trans hl)
        exact ⟨i, hi, by rw [move_apply hir hil, hLi]⟩
    · rintro ⟨i, hi, hLi⟩
      rcases move_cases L empty hne i with ⟨-, he⟩ | ⟨-, he⟩ | ⟨-, -, he⟩ <;> rw [he] at hLi
      · exact absurd hLi.symm hk
      · exact ⟨r, (hwin hLi).1, hLi⟩
      · exact ⟨i, hi, hLi⟩
  · intro i j hi hj hLi hLj
    rcases move_cases L empty hne i with ⟨-, he⟩ | ⟨rfl, he⟩ | ⟨hir, -, he⟩ <;>
      rcases move_cases L empty hne j with ⟨-, he'⟩ | ⟨rfl, he'⟩ | ⟨hjr, -, he'⟩ <;>
      rw [he] at hLi <;> rw [he'] at hLj
    · exact absurd hLi.symm hk
    · exact absurd hLi.symm hk
    · exact absurd hLi.symm hk
    · exact absurd hLj.symm hk
    · exact absurd (hone _ _ (hwin hLi).1 hj hLi hLj).symm hjr
    · exact absurd hLj.symm hk
    · exact absurd (hone _ _ hi (hwin hLj).1 hLi hLj) hir
    · exact hone _ _ hi hj hLi hLj

/-- A key that is not in the set is put into an empty slot of its window. -/
theorem Represents.insert (h : Represents home H empty e L S) (hinj : Function.Injective e)
    (hi : L i = empty) (hw : Window home H (e k) i) (hk : ¬ S k) :
    Represents home H empty e (Function.update L i (e k)) fun k' => k' = k ∨ S k' := by
  intro k' hk'
  obtain ⟨hS, hone⟩ := h k' hk'
  by_cases hkk : k' = k
  · subst hkk
    have hno : ∀ j, Window home H (e k') j → L j ≠ e k' := fun j hj hLj => hk (hS.mpr ⟨j, hj, hLj⟩)
    refine ⟨⟨fun _ => ⟨i, hw, Function.update_self ..⟩, fun _ => Or.inl rfl⟩, ?_⟩
    have hat : ∀ j, Window home H (e k') j → Function.update L i (e k') j = e k' → j = i := by
      intro j hj hLj
      by_contra hji
      rw [Function.update_of_ne hji] at hLj
      exact hno j hj hLj
    intro a b ha hb hLa hLb
    rw [hat a ha hLa, hat b hb hLb]
  · have hat : ∀ j, Function.update L i (e k) j = e k' ↔ L j = e k' := by
      intro j
      by_cases hji : j = i
      · rw [hji, Function.update_self, hi]
        exact ⟨fun h => absurd (hinj h).symm hkk, fun h => absurd h.symm hk'⟩
      · rw [Function.update_of_ne hji]
    simp only [Member, Once, hat, hkk, false_or]
    exact ⟨hS, hone⟩

/-- A key is replaced by the empty value, or by one whose window is elsewhere. -/
theorem Represents.erase (h : Represents home H empty e L S) (hinj : Function.Injective e)
    (hi : L i = e k) (hw : Window home H (e k) i) (hx : w = empty ∨ ¬ Window home H w i) :
    Represents home H empty e (Function.update L i w) fun k' => k' ≠ k ∧ S k' := by
  intro k' hk'
  obtain ⟨hS, hone⟩ := h k' hk'
  -- the new value is no key in its window
  have hnew : ∀ j, Window home H (e k') j → Function.update L i w j = e k' → j ≠ i ∧ L j = e k' := by
    intro j hj hLj
    by_cases hji : j = i
    · subst hji
      rw [Function.update_self] at hLj
      subst hLj
      exact (hx.elim hk' fun hn => hn hj).elim
    · rw [Function.update_of_ne hji] at hLj
      exact ⟨hji, hLj⟩
  constructor
  · constructor
    · rintro ⟨hne, hk⟩
      obtain ⟨j, hj, hLj⟩ := hS.mp hk
      have hji : j ≠ i := by
        rintro rfl
        exact hne (hinj (hLj.symm.trans hi))
      exact ⟨j, hj, by rw [Function.update_of_ne hji, hLj]⟩
    · rintro ⟨j, hj, hLj⟩
      obtain ⟨hji, hL⟩ := hnew j hj hLj
      refine ⟨?_, hS.mpr ⟨j, hj, hL⟩⟩
      rintro rfl
      exact hji (hone j i hj hw hL hi)
  · intro a b ha hb hLa hLb
    exact hone a b ha hb (hnew a ha hLa).2 (hnew b hb hLb).2

end Hopscotch
