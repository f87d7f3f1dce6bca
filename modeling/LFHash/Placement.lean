/-
# Keys stay in their windows

A relocation carries a word to the slot it has reserved. If the word lay in
reach of that slot when line 191 marked it (`MarksNear`), then the word is in its
window wherever the relocation stands (`Role.Suited`), and no act of an `add`
takes a word out of its window (`Act.memberFrom`, `Act.placed`) or moves it
backwards (`Act.above`).

Key definitions: `MarksNear`, `Role.Suited`.
Key theorems: `Act.suited`, `Act.memberFrom`, `Act.above`, `Act.placed`,
`Act.distinct`, `member_of_hit`.
-/
import LFHash.Lookup

namespace LFHash

open Interleave Hopscotch

variable {seed : BitVec 32}

/-- The home of a word: that of the key in it. -/
abbrev homeOf (seed : BitVec 32) (w : Word) : ℕ := home seed (getKey w)

theorem window_entry {key : Key} {i : ℕ} : Window (homeOf seed) HOP (entry key) i ↔
    home seed key ≤ i ∧ i ≤ home seed key + HOP := by
  rw [Window, homeOf, getKey_entry]

theorem member_entry {L : ℕ → Word} {key : Key} : Member (homeOf seed) HOP L (entry key) ↔
    ∃ p ≤ HOP, L (home seed key + p) = entry key := by
  constructor
  · rintro ⟨i, hw, hi⟩
    obtain ⟨h1, h2⟩ := window_entry.mp hw
    exact ⟨i - home seed key, by omega, by rwa [Nat.add_sub_cancel' h1]⟩
  · rintro ⟨p, hp, hi⟩
    exact ⟨_, window_entry.mpr ⟨Nat.le_add_right _ p, by omega⟩, hi⟩

/-- Line 191 marks only the word 0 or one whose window holds the slot `Loc`. -/
def MarksNear (seed : BitVec 32) (T : ℕ → Word) : Pc → Prop
  | .add _ (.relocate Loc (.mark r Exp)) => T r = Exp → Exp = 0#64 ∨ hopDist seed Loc Exp ≤ HOP
  | _ => True

/-- A word that is being moved is in reach of its new slot, and in its window
once it is copied. -/
def Role.Suited (seed : BitVec 32) (T L : ℕ → Word) : Role → Prop
  | free | hold _ => True
  | marking l r => L r = 0#64 ∨ Window (homeOf seed) HOP (L r) l
  | copied r => strip (T r) = 0#64 ∨ Member (homeOf seed) HOP L (strip (T r))

variable {T T' L L' : ℕ → Word} {thr : ℕ → Option Pc} {t : ℕ} {p : Pc} {x : Option Pc}

/-! ### What an act keeps -/

namespace Act

/-- A word keeps its place in its window, or moves up in it. -/
theorem memberFrom (h : Act seed T L p x T' L') (hI : Inv seed T thr L) (hp : thr t = some p)
    (hs : (threadRole (thr t)).Suited seed T L) {v : Word} {n : ℕ} (hv : v ≠ 0#64)
    (he : ∀ key tid q, p = .remove key tid q → v ≠ entry key)
    (hm : MemberFrom (homeOf seed) HOP L v n) : MemberFrom (homeOf seed) HOP L' v n := by
  have hf := hI.sim.fits t
  rw [hp] at hs hf
  cases h with
  | quiet | reserve | mark | overwrite | release => exact hm
  | copy hlt =>
    refine hm.move hlt hf.2.1 hv fun e => ?_
    have hw := hs.resolve_left (by rw [e]; exact hv)
    rwa [e] at hw
  | @insert key _ _ q _ hz =>
    refine hm.put ?_
    rw [hI.sim.eq_of_read hz tag_zero]
    exact hv.symm
  | @erase key tid _ i _ hk =>
    refine hm.put ?_
    rw [hI.sim.eq_of_read hk (tag_entry key)]
    exact (he key tid _ rfl).symm

/-- An `add` moves the copies of a word up; the only new copy is the one line 123 writes. -/
theorem above {key : Key} {q : Add} (h : Act seed T L (.add key q) x T' L')
    (hI : Inv seed T thr L) (hp : thr t = some (.add key q)) {v : Word} (hv : v ≠ 0#64)
    {i : ℕ} (hi : L' i = v) : (∃ j, j ≤ i ∧ L j = v) ∨
      x = none ∧ v = entry key ∧ ∃ tg c p, q = .insert (.claim tg c p) ∧
        T (home seed key + p) = tg ∧ i = home seed key + p := by
  have hf := hI.sim.fits t
  rw [hp] at hf
  cases h with
  | quiet | reserve | mark | overwrite | release => exact Or.inl ⟨i, le_rfl, hi⟩
  | copy hlt => exact Or.inl (above_move hlt hv hi)
  | @insert _ tg c q he =>
    by_cases hiq : i = home seed key + q
    · rw [hiq, Function.update_self] at hi
      exact Or.inr ⟨rfl, hi.symm, tg, c, q, rfl, he, hiq⟩
    · rw [Function.update_of_ne hiq] at hi
      exact Or.inl ⟨i, le_rfl, hi⟩

theorem placed {key : Key} {q : Add} (h : Act seed T L (.add key q) x T' L')
    (hI : Inv seed T thr L) (hp : thr t = some (.add key q))
    (hs : (threadRole (thr t)).Suited seed T L) (hL : Placed (homeOf seed) HOP 0#64 L) :
    Placed (homeOf seed) HOP 0#64 L' := by
  have hf := hI.sim.fits t
  rw [hp] at hs hf
  cases h with
  | quiet | reserve | mark | overwrite | release => exact hL
  | copy hlt => exact hL.move (Nat.ne_of_lt hlt) hs
  | insert _ _ hle => exact hL.put (window_entry.mpr ⟨Nat.le_add_right _ _, by omega⟩)

/-- An `add` that inserts a key which is not there makes no word appear twice. -/
theorem distinct {key : Key} {q : Add} (h : Act seed T L (.add key q) x T' L')
    (hI : Inv seed T thr L) (hp : thr t = some (.add key q))
    (hnew : ∀ q', q = .insert q' → ¬ Has L (entry key)) (hL : Distinct 0#64 L) :
    Distinct 0#64 L' := by
  have hf := hI.sim.fits t
  rw [hp] at hf
  cases h with
  | quiet | reserve | mark | overwrite | release => exact hL
  | copy hlt => exact hL.move (Nat.ne_of_lt hlt) hf.2.1
  | insert => exact hL.put (hnew _ rfl)

/-- What is being moved stays in its window. Only adds act while a word is moved. -/
theorem suited (h : Act seed T L p x T' L') (hI : Inv seed T thr L) (hp : thr t = some p)
    (hm : MarksNear seed T p) (hs : ∀ u, (threadRole (thr u)).Suited seed T L)
    (he : ∀ key tid q, p = .remove key tid q → ∀ u, threadRole (thr u) = .free) (u : ℕ) :
    (threadRole (Function.update thr t x u)).Suited seed T' L' := by
  by_cases hu : u = t
  · subst hu
    have hsu := hs u
    have hok := hI.ok u p hp
    have hfit := hI.sim.fits u
    rw [hp] at hsu hfit
    rw [Function.update_self]
    cases h with
    | quiet hr => rw [hr]; exact hsu
    | reserve _ hr | overwrite hr => rw [hr]; trivial
    | release | insert | erase => trivial
    | @mark key Loc r Exp hT ht =>
      have hL : L r = Exp := hI.sim.eq_of_read hT ht
      refine (hm hT).imp (fun h0 => hL.trans h0) fun hw => ?_
      rw [hL, Window]
      refine (sub32_le_iff ?_ _).mp hw
      have hh := home_lt seed key
      have hb := hok.2.1
      simp only [TotalBuckets, ADD_RANGE] at *
      omega
    | @copy key Loc r Dest Fin hlt hFin =>
      have hTr : strip (Function.update T Loc Fin r) = L r := by
        rw [Function.update_of_ne (Nat.ne_of_lt hlt), hfit.2.2, strip_moving,
          strip_of_tag (hI.sim.untagged r)]
      show strip (Function.update T Loc Fin r) = 0#64 ∨ _
      rw [hTr]
      exact hsu.imp id fun hw => ⟨Loc, hw, move_apply_dst (Nat.ne_of_lt hlt)⟩
  · rw [Function.update_of_ne hu]
    have hsu := hs u
    have hkept := fun i => h.kept hI hp (i := i) hu
    cases hr : threadRole (thr u) with
    | free | hold i => trivial
    | marking l r =>
      rw [hr] at hsu hkept
      obtain ⟨-, e⟩ := hkept r (Or.inr rfl)
      simpa only [Role.Suited, e] using hsu
    | copied r =>
      rw [hr] at hsu hkept
      obtain ⟨e, -⟩ := hkept r rfl
      simp only [Role.Suited, e]
      by_cases h0 : strip (T r) = 0#64
      · exact Or.inl h0
      · obtain ⟨i, hw, hi⟩ := hsu.resolve_left h0
        have hrem : ∀ key tid q, p = .remove key tid q → strip (T r) ≠ entry key := by
          intro key tid q hpq
          have := he key tid q hpq u
          rw [hr] at this
          cases this
        obtain ⟨j, -, hj⟩ := h.memberFrom hI hp (hs t) h0 hrem ⟨i, Nat.zero_le _, hw, hi⟩
        exact Or.inr ⟨j, hj⟩

end Act

/-! ### What a read tells -/

theorem member_of_hit {key : Key} {i : ℕ} (hI : Inv seed T thr L)
    (hs : ∀ u, (threadRole (thr u)).Suited seed T L) (hk : key ≠ 0#32) (h : Hit T key i) :
    L i = entry key ∨ Member (homeOf seed) HOP L (entry key) := by
  rcases h with h | h
  · exact Or.inl (hI.sim.eq_of_read h (tag_entry _))
  · have htag : tag (T i) = 1#64 := by rw [h, tag_moving]
    by_cases ho : ∃ u, (threadRole (thr u)).Owns i
    · obtain ⟨u, hu⟩ := ho
      have hf : (threadRole (thr u)).Fits T L := hI.sim.fits u
      have hsu := hs u
      cases hr : threadRole (thr u) with
      | free => rw [hr] at hu; exact hu.elim
      | hold j =>
        rw [hr] at hu hf
        cases hu
        rw [hf.1] at htag
        exact absurd htag (by decide)
      | marking l r =>
        rw [hr] at hu hf
        rcases hu with rfl | rfl
        · rw [hf.1] at htag
          exact absurd htag (by decide)
        · refine Or.inl ?_
          rw [← strip_of_tag (hI.sim.untagged i), ← strip_moving, ← hf.2.2, h, strip_moving,
            strip_entry]
      | copied r =>
        rw [hr] at hu hsu
        cases hu
        rw [Role.Suited, h, strip_moving, strip_entry] at hsu
        exact Or.inr (hsu.resolve_left (entry_ne_zero hk))
    · push Not at ho
      rw [hI.sim.agree i ho, hI.sim.untagged i] at htag
      exact absurd htag (by decide)

theorem stored_of_member {key : Key} (hI : Inv seed T thr L) (hk : key ≠ 0#32)
    (h : Member (homeOf seed) HOP L (entry key)) : Stored seed T key := by
  obtain ⟨i, hw, hi⟩ := h
  obtain ⟨h1, h2⟩ := window_entry.mp hw
  refine ⟨i - home seed key, by omega, ?_⟩
  rw [Nat.add_sub_cancel' h1, Hit, ← hi]
  exact hI.sim.read (by rw [hi]; exact entry_ne_zero hk)

end LFHash
