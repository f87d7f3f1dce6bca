/-
# The keys of a client

Threads add and remove keys; a client looks at some of them, the set `K`. A move spares
these keys if line 191 marks one only within reach of the slot it is moved to, and line
253 writes none of them (as a stamp) and takes the last copy when it removes one. If
besides no thread moves such a key while a `Remove` of it runs, then an act of the run
leaves a key of `K` in its window or is its removal.

Key definitions: `SparesKeys`, `Undisturbed`, `Orderly`, `Role.SuitedOn`, `Keeps`.
Key theorems: `Keeps.memberFrom`, `Keeps.slot`, `Keeps.before`, `Keeps.taken`,
`Keeps.step`.
-/
import LFHash.Placement

namespace LFHash

open Interleave Hopscotch

variable {seed : BitVec 32} {K : Key → Prop}

/-- Line 191 marks a key of `K` only within reach of the slot it is moved to. Line 253
writes no key of `K`, and removes only the last copy of one. -/
def SparesKeys (seed : BitVec 32) (K : Key → Prop) (T : ℕ → Word) : Pc → Prop
  | .add _ (.relocate Loc (.mark r Exp)) =>
    T r = Exp → K (getKey Exp) → hopDist seed Loc Exp ≤ HOP
  | .remove key _ (.removeKey final i1 _) => T (home seed key + i1) = entry key →
      ¬ K (getKey final) ∧ (K key → ∀ p ≤ HOP, Hit T key (home seed key + p) → p = i1)
  | _ => True

/-- No slot holds a key of `K` as moving while a `Remove` of it runs. -/
def Undisturbed (K : Key → Prop) (s : State) : Prop :=
  ∀ t key tid q, s.thr t = some (.remove key tid q) → K key →
    ∀ i, buckets s.mem i ≠ moving (entry key)

/-- A step that touches no slot of another operation, spares the keys of `K`, and is taken
while none of them is moved and removed at once. -/
def Orderly (seed : BitVec 32) (K : Key → Prop) (s : State) (l : Label Call) : Prop :=
  Undisturbed K s ∧ Clean seed s l ∧ Moves (SparesKeys seed K) s l

instance (T : ℕ → Word) : DecidablePred (RemovesNothingOwned seed T)
  | .remove key _ (.removeMoving _ i2 _) =>
    inferInstanceAs (Decidable (T (home seed key + i2) ≠ moving (entry key)))
  | .remove key _ (.poison p slot _) => inferInstanceAs (Decidable (T (home seed key + p) ≠ slot))
  | .remove _ _ .stamp | .remove _ _ (.testKey _ _) | .remove _ _ (.testMoving _ _)
  | .remove _ _ (.removeKey _ _ _) | .remove _ _ (.loadSlot _ _) | .remove _ _ (.testSlot _ _ _)
  | .add _ _ | .contains _ _ => isTrue trivial

instance (s : State) (l : Label Call) : Decidable (Clean seed s l) :=
  inferInstanceAs (Decidable (Moves _ s l))

instance [DecidablePred K] (T : ℕ → Word) : DecidablePred (SparesKeys seed K T)
  | .add _ (.relocate Loc (.mark r Exp)) =>
    inferInstanceAs (Decidable (T r = Exp → K (getKey Exp) → hopDist seed Loc Exp ≤ HOP))
  | .remove key _ (.removeKey final i1 _) =>
    have : Decidable (∀ p ≤ HOP, Hit T key (home seed key + p) → p = i1) :=
      Nat.decidableBallLE HOP _
    inferInstanceAs (Decidable (T (home seed key + i1) = entry key → ¬ K (getKey final) ∧
      (K key → ∀ p ≤ HOP, Hit T key (home seed key + p) → p = i1)))
  | .add _ (.relocate _ (.getInd _ _)) | .add _ (.relocate _ (.getReplace _))
  | .add _ (.relocate _ (.loadExp _)) | .add _ (.relocate _ (.loadDest _))
  | .add _ (.relocate _ (.loadFin _ _)) | .add _ (.relocate _ (.copy _ _ _))
  | .add _ (.relocate _ (.loadMark _)) | .add _ (.relocate _ (.overwrite _ _))
  | .add _ (.contains _) | .add _ (.probe _ _ _) | .add _ (.reserve _ _ _) | .add _ (.loadExp _)
  | .add _ (.release _ _) | .add _ (.insert _) | .contains _ _ | .remove _ _ .stamp
  | .remove _ _ (.testKey _ _) | .remove _ _ (.testMoving _ _) | .remove _ _ (.removeMoving _ _ _)
  | .remove _ _ (.loadSlot _ _) | .remove _ _ (.testSlot _ _ _)
  | .remove _ _ (.poison _ _ _) => isTrue trivial

/-- A key of `K` that is being moved is in reach of its new slot, and in its window once
it is copied. -/
def Role.SuitedOn (seed : BitVec 32) (K : Key → Prop) (T L : ℕ → Word) : Role → Prop
  | free | hold _ => True
  | marking l r => ∀ k, K k → L r = entry k → Window (homeOf seed) HOP (entry k) l
  | copied r => ∀ k, K k → T r = moving (entry k) → Member (homeOf seed) HOP L (entry k)

/-- The keys of `K` are in their windows, also while they are moved. -/
structure Keeps (seed : BitVec 32) (K : Key → Prop) (T : ℕ → Word) (thr : ℕ → Option Pc)
    (L : ℕ → Word) : Prop where
  inv : Inv seed T thr L
  placed : ∀ k, K k → ∀ i, L i = entry k → Window (homeOf seed) HOP (entry k) i
  suited : ∀ t, (threadRole (thr t)).SuitedOn seed K T L

/-- Line 253 is about to take the key. -/
def Pc.Takes (seed : BitVec 32) (T : ℕ → Word) (k : Key) : Pc → Prop
  | .remove key _ (.removeKey _ i1 _) => key = k ∧ T (home seed key + i1) = entry key
  | _ => False

theorem Pc.Takes.eq_remove {T : ℕ → Word} {k : Key} {p : Pc} (h : p.Takes seed T k) :
    ∃ tid q, p = .remove k tid q := by
  rcases p with ⟨key, a⟩ | ⟨key, tid, q⟩ | ⟨key, sc⟩
  · exact h.elim
  · cases q with
    | removeKey final i1 i2 =>
      obtain ⟨rfl, -⟩ := h
      exact ⟨tid, _, rfl⟩
    | stamp | testKey | testMoving | removeMoving | loadSlot | testSlot | poison => exact h.elim
  · exact h.elim

theorem Pc.Takes.wrote {m : Cell → Word} {k : Key} {p : Pc} (h : p.Takes seed (buckets m) k)
    {tid : ℤ} {final : Word} {i1 i2 : ℕ} (hp : p = .remove k tid (.removeKey final i1 i2)) :
    buckets ((p.code seed).1.exec m).2 (home seed k + i1) = final := by
  subst hp
  have he : m (.bucket (home seed k + i1)) = entry k := h.2
  simp only [Pc.code, LFHash.remove, Point.inside_fst, Access.exec_cas_of_eq _ _ he, buckets_update,
    Function.update_self]

/-! ### Runs without relocations -/

/-- The thread is not moving a key. -/
def Role.Still : Role → Prop
  | free | hold _ => True
  | marking _ _ | copied _ => False

instance : DecidablePred Role.Still
  | .free | .hold _ => isTrue trivial
  | .marking _ _ | .copied _ => isFalse id

theorem Inv.ne_moving {T L : ℕ → Word} {thr : ℕ → Option Pc} (h : Inv seed T thr L)
    (hs : ∀ t, (threadRole (thr t)).Still) (i : ℕ) (v : Word) : T i ≠ moving v := by
  intro hT
  have htag : tag (T i) = 1#64 := by rw [hT, tag_moving]
  by_cases ho : ∃ u, (threadRole (thr u)).Owns i
  · obtain ⟨u, hu⟩ := ho
    have hf : (threadRole (thr u)).Fits T L := h.sim.fits u
    have hst := hs u
    cases hr : threadRole (thr u) with
    | free => rw [hr] at hu; exact hu
    | hold j =>
      rw [hr] at hu hf
      cases hu
      rw [hf.1] at htag
      exact absurd htag (by decide)
    | marking l r | copied r => rw [hr] at hst; exact hst
  · push Not at ho
    rw [h.sim.agree i ho, h.sim.untagged i] at htag
    exact absurd htag (by decide)

theorem inv_fresh : Inv seed (buckets fresh.mem) fresh.thr fun _ => 0#64 where
  ok := sound_fresh
  sim :=
    { untagged := fun _ => tag_zero
      agree := fun _ _ => rfl
      fits := fun _ => trivial
      excl := fun _ _ _ h => h.elim }
  pending _ _ h := by cases h

/-- A run of threads below `n` whose clean steps spare the keys and in which no key is moved. -/
theorem orderly_of_still {n : ℕ} {ls : List (Label Call)}
    (hq : (table seed).Along (fun s l => (Clean seed s l ∧ Moves (SparesKeys seed K) s l) ∧
      l.thread < n ∧ ∀ t < n, (threadRole (s.thr t)).Still) ls fresh) :
    (table seed).Along (Orderly seed K) ls fresh := by
  have hinv := Machine.Along.of_inv (M := table seed)
    (P := fun s => (∀ t, n ≤ t → s.thr t = none) ∧
      (s.halt = none → ∃ L, Inv seed (buckets s.mem) s.thr L)) ?_
    ⟨fun _ _ => rfl, fun _ => ⟨_, inv_fresh⟩⟩ hq
  · refine hinv.mono fun s l s' hs h => ?_
    obtain ⟨⟨hidle, hI⟩, hcl, -, hstill⟩ := h
    obtain ⟨L, hI⟩ := hI (Machine.halt_of_step hs)
    refine ⟨fun t key tid q _ _ i => hI.ne_moving (fun u => ?_) i _, hcl⟩
    rcases Nat.lt_or_ge u n with hu | hu
    · exact hstill u hu
    · rw [hidle u hu]
      trivial
  · rintro s l s' ⟨hidle, hI⟩ ⟨⟨hcl, -⟩, hl, -⟩ hs
    refine ⟨fun t ht => ?_, fun hh => ?_⟩
    · rw [Machine.step_thr_of_ne hs (by omega)]
      exact hidle t ht
    · obtain ⟨L, hI⟩ := hI (Machine.halt_of_step hs)
      cases l with
      | call t c => exact ⟨L, hI.call hs⟩
      | move t =>
        obtain ⟨-, p, hp, -⟩ := Machine.step_move.mp hs
        obtain ⟨L', hI', -⟩ := hI.move hp hcl hs hh
        exact ⟨L', hI'⟩

namespace Keeps

variable {T T' L L' : ℕ → Word} {thr : ℕ → Option Pc} {t : ℕ} {p : Pc} {x : Option Pc} {k : Key}

/-! ### What a read tells -/

theorem member_iff (h : Keeps seed K T thr L) (hk : K k) :
    Member (homeOf seed) HOP L (entry k) ↔ Has L (entry k) := by
  constructor
  · rintro ⟨i, -, hi⟩
    exact ⟨i, hi⟩
  · rintro ⟨i, hi⟩
    exact ⟨i, h.placed k hk i hi, hi⟩

/-- A key of `K` that is read, plain or as moving, is stored. -/
theorem has_of_hit (h : Keeps seed K T thr L) (hk : K k) {i : ℕ} (hit : Hit T k i) :
    Has L (entry k) := by
  rcases hit with hT | hT
  · exact ⟨i, h.inv.sim.eq_of_read hT (tag_entry k)⟩
  · -- a slot that reads as moving is owned by the thread that moves the key
    have htag : tag (T i) = 1#64 := by rw [hT, tag_moving]
    by_contra hno
    by_cases ho : ∃ u, (threadRole (thr u)).Owns i
    · obtain ⟨u, hu⟩ := ho
      have hf : (threadRole (thr u)).Fits T L := h.inv.sim.fits u
      have hs := h.suited u
      cases hr : threadRole (thr u) with
      | free => rw [hr] at hu; exact hu
      | hold j =>
        rw [hr] at hu hf
        cases hu
        rw [hf.1] at htag
        exact absurd htag (by decide)
      | marking l r =>
        rw [hr] at hu hf
        rcases hu with rfl | rfl
        · rw [hf.1] at htag
          exact absurd htag (by decide)
        · have hL := moving_inj (h.inv.sim.untagged i) (tag_entry k) (hf.2.2.symm.trans hT)
          exact hno ⟨i, hL⟩
      | copied r =>
        rw [hr] at hu hs
        cases hu
        obtain ⟨j, -, hj⟩ := hs k hk hT
        exact hno ⟨j, hj⟩
    · push Not at ho
      rw [h.inv.sim.agree i ho, h.inv.sim.untagged i] at htag
      exact absurd htag (by decide)

/-- A slot that holds a key is read as the key. -/
theorem hit_of_eq (h : Keeps seed K T thr L) (hk0 : k ≠ 0#32) {i : ℕ} (hi : L i = entry k) :
    Hit T k i := by
  have hT := h.inv.sim.read (i := i) (by rw [hi]; exact entry_ne_zero hk0)
  rwa [hi] at hT

/-! ### What an act does to a key -/

/-- A key that is not taken keeps its place in its window, or moves up in it. -/
theorem memberFrom (h : Keeps seed K T thr L) (ha : Act seed T L p x T' L') (hp : thr t = some p)
    (hk : K k) (hk0 : k ≠ 0#32) (hno : ¬ p.Takes seed T k) {n : ℕ}
    (hm : MemberFrom (homeOf seed) HOP L (entry k) n) :
    MemberFrom (homeOf seed) HOP L' (entry k) n := by
  have hf : (threadRole (thr t)).Fits T L := h.inv.sim.fits t
  have hs := h.suited t
  rw [hp] at hs hf
  cases ha with
  | quiet | reserve | mark | overwrite | release => exact hm
  | copy hlt => exact hm.move hlt hf.2.1 (entry_ne_zero hk0) (hs k hk)
  | insert _ hz =>
    refine hm.put ?_
    rw [h.inv.sim.eq_of_read hz tag_zero]
    exact (entry_ne_zero hk0).symm
  | @erase key tid final i1 i2 he =>
    refine hm.put ?_
    rw [h.inv.sim.eq_of_read he (tag_entry key)]
    intro hkey
    obtain rfl := entry_inj hkey
    exact hno ⟨rfl, he⟩

theorem slot (h : Keeps seed K T thr L) (ha : Act seed T L p x T' L') (hp : thr t = some p)
    (hk0 : k ≠ 0#32) (hno : ¬ p.Takes seed T k) {i : ℕ} (hT : T i ≠ moving (entry k))
    (hi : L i = entry k) : L' i = entry k := by
  have hf : (threadRole (thr t)).Fits T L := h.inv.sim.fits t
  rw [hp] at hf
  have hput : ∀ (j : ℕ) (w v : Word), L j = v → v ≠ entry k → Function.update L j w i = entry k := by
    rintro j w v hj hv
    have hij : i ≠ j := by
      rintro rfl
      exact hv (hj.symm.trans hi)
    rw [Function.update_of_ne hij, hi]
  cases ha with
  | quiet | reserve | mark | overwrite | release => exact hi
  | copy =>
    obtain ⟨-, hl, hr⟩ := hf
    rw [move_apply _ _, hi]
    · rintro rfl
      exact hT (by rw [hr, hi])
    · rintro rfl
      exact entry_ne_zero hk0 (hi.symm.trans hl)
  | insert _ hz => exact hput _ _ _ (h.inv.sim.eq_of_read hz tag_zero) (entry_ne_zero hk0).symm
  | @erase key tid final i1 i2 he =>
    refine hput _ _ _ (h.inv.sim.eq_of_read he (tag_entry key)) fun hkey => ?_
    obtain rfl := entry_inj hkey
    exact hno ⟨rfl, he⟩

/-- A key of `K` comes into the table by its own `add`, which returns with this act. -/
theorem before (h : Keeps seed K T thr L) (ha : Act seed T L p x T' L') (hp : thr t = some p)
    (hsp : SparesKeys seed K T p) (hk : K k) (hk0 : k ≠ 0#32) (hL : Has L' (entry k)) :
    Has L (entry k) ∨ x = none ∧ ∃ q, p = .add k (.insert q) := by
  have hf : (threadRole (thr t)).Fits T L := h.inv.sim.fits t
  rw [hp] at hf
  cases ha with
  | quiet | reserve | mark | overwrite | release => exact Or.inl hL
  | copy hlt => exact Or.inl ((has_move (Nat.ne_of_lt hlt) hf.2.1 (entry_ne_zero hk0)).mp hL)
  | @insert key tg c i =>
    by_cases hkey : key = k
    · subst hkey
      exact Or.inr ⟨rfl, _, rfl⟩
    · exact Or.inl (has_of_put hL fun he => hkey (entry_inj he).symm)
  | @erase key tid final i1 i2 he =>
    refine Or.inl (has_of_put hL fun hfin => (hsp he).1 ?_)
    rwa [← hfin, getKey_entry]

/-- Only its `add` and its removal change whether a key of `K` is stored. -/
theorem has_iff (h : Keeps seed K T thr L) (ha : Act seed T L p x T' L') (hp : thr t = some p)
    (hsp : SparesKeys seed K T p) (hk : K k) (hk0 : k ≠ 0#32) (hno : ¬ p.Takes seed T k)
    (hins : x = none → ∀ q, p ≠ .add k (.insert q)) : Has L' (entry k) ↔ Has L (entry k) := by
  constructor
  · intro hL
    rcases h.before ha hp hsp hk hk0 hL with hL | ⟨hx, q, hq⟩
    · exact hL
    · exact absurd hq (hins hx q)
  · intro hL
    obtain ⟨i, hw, hi⟩ := (h.member_iff hk).mpr hL
    obtain ⟨j, -, -, hj⟩ := h.memberFrom ha hp hk hk0 hno ⟨i, Nat.zero_le _, hw, hi⟩
    exact ⟨j, hj⟩

/-- Line 253 takes the last copy of a key of `K`. -/
theorem taken (h : Keeps seed K T thr L) (ha : Act seed T L p x T' L') (hsp : SparesKeys seed K T p)
    (hk : K k) (hk0 : k ≠ 0#32) (ht : p.Takes seed T k)
    (hw : ∀ tid final i1 i2, p = .remove k tid (.removeKey final i1 i2) →
      T' (home seed k + i1) = final) : ¬ Has L' (entry k) := by
  cases ha with
  | @quiet p =>
    rcases p with ⟨key, a⟩ | ⟨key, tid, q⟩ | ⟨key, sc⟩
    · exact ht.elim
    · cases q with
      | removeKey final i1 i2 =>
        obtain ⟨rfl, he⟩ := ht
        have hnot := (hsp he).1
        rw [← hw tid final i1 i2 rfl, he, getKey_entry] at hnot
        exact absurd hk hnot
      | stamp | testKey | testMoving | removeMoving | loadSlot | testSlot | poison => exact ht.elim
    · exact ht.elim
  | @erase key tid final i1 i2 he =>
    obtain ⟨rfl, -⟩ := ht
    obtain ⟨hfin, hlast⟩ := hsp he
    rintro ⟨j, hj⟩
    by_cases hji : j = home seed key + i1
    · subst hji
      rw [Function.update_self] at hj
      rw [hj, getKey_entry] at hfin
      exact hfin hk
    · rw [Function.update_of_ne hji] at hj
      obtain ⟨h1, h2⟩ := window_entry.mp (h.placed _ hk j hj)
      have hjp : j = home seed key + (j - home seed key) := by omega
      have hi1 : j - home seed key = i1 :=
        hlast hk _ (by omega) (hjp ▸ h.hit_of_eq hk0 hj)
      exact hji (by omega)
  | reserve | mark | copy | overwrite | release | insert => exact ht.elim

/-! ### The keys stay where they belong -/

theorem placed_step (h : Keeps seed K T thr L) (ha : Act seed T L p x T' L') (hp : thr t = some p)
    (hsp : SparesKeys seed K T p) (hk : K k) (hk0 : k ≠ 0#32) {i : ℕ} (hi : L' i = entry k) :
    Window (homeOf seed) HOP (entry k) i := by
  have hf : (threadRole (thr t)).Fits T L := h.inv.sim.fits t
  have hs := h.suited t
  rw [hp] at hs hf
  have hput : ∀ (j : ℕ) (w : Word), Function.update L j w i = entry k →
      (w = entry k → Window (homeOf seed) HOP (entry k) j) →
      Window (homeOf seed) HOP (entry k) i := by
    intro j w hj hw
    by_cases hij : i = j
    · subst hij
      rw [Function.update_self] at hj
      exact hw hj
    · rw [Function.update_of_ne hij] at hj
      exact h.placed k hk i hj
  cases ha with
  | quiet | reserve | mark | overwrite | release => exact h.placed k hk i hi
  | copy hlt =>
    rcases move_cases L 0#64 (Nat.ne_of_lt hlt) i with ⟨-, e⟩ | ⟨rfl, e⟩ | ⟨-, -, e⟩ <;>
      rw [e] at hi
    · exact absurd hi.symm (entry_ne_zero hk0)
    · exact hs k hk hi
    · exact h.placed k hk i hi
  | @insert key tg c j _ _ hle =>
    refine hput _ _ hi fun he => ?_
    obtain rfl := entry_inj he
    exact window_entry.mpr ⟨Nat.le_add_right _ _, by omega⟩
  | @erase key tid final i1 i2 he =>
    refine hput _ _ hi fun hfin => ?_
    have hnot := (hsp he).1
    rw [hfin, getKey_entry] at hnot
    exact absurd hk hnot

/-- What is being moved stays in its window. -/
theorem suited_step (h : Keeps seed K T thr L) (ha : Act seed T L p x T' L') (hp : thr t = some p)
    (hsp : SparesKeys seed K T p) (hK : ¬ K 0#32)
    (hun : ∀ k, K k → p.Takes seed T k → ∀ i, T i ≠ moving (entry k)) (u : ℕ) :
    (threadRole (Function.update thr t x u)).SuitedOn seed K T' L' := by
  have hne : ∀ k, K k → k ≠ 0#32 := fun k hk he => hK (he ▸ hk)
  by_cases hu : u = t
  · subst hu
    have hsu := h.suited u
    have hok := h.inv.ok u p hp
    have hfit : (threadRole (thr u)).Fits T L := h.inv.sim.fits u
    rw [hp] at hsu hfit
    rw [Function.update_self]
    cases ha with
    | quiet hr => rw [hr]; exact hsu
    | reserve _ hr | overwrite hr => rw [hr]; trivial
    | release | insert | erase => trivial
    | @mark key Loc r Exp hT ht =>
      intro k hk hL
      have hExp : Exp = entry k := by rw [← h.inv.sim.eq_of_read hT ht, hL]
      have hnear := hsp hT (by rwa [hExp, getKey_entry])
      rw [hopDist, hExp, getKey_entry] at hnear
      refine window_entry.mpr ((sub32_le_iff ?_ _).mp hnear)
      have hh := home_lt seed key
      have hb := hok.2.1
      simp only [TotalBuckets, ADD_RANGE] at *
      omega
    | @copy key Loc r Dest Fin hlt hFin =>
      intro k hk hTr
      rw [Function.update_of_ne (Nat.ne_of_lt hlt), hfit.2.2] at hTr
      have hL := moving_inj (h.inv.sim.untagged r) (tag_entry k) hTr
      exact ⟨Loc, hsu k hk hL, by rw [move_apply_dst (Nat.ne_of_lt hlt), hL]⟩
  · rw [Function.update_of_ne hu]
    have hsu := h.suited u
    have hkept := fun i => ha.kept h.inv hp (i := i) hu
    cases hr : threadRole (thr u) with
    | free | hold i => trivial
    | marking l r =>
      rw [hr] at hsu hkept
      obtain ⟨-, e⟩ := hkept r (Or.inr rfl)
      intro k hk hL
      exact hsu k hk (by rw [← e, hL])
    | copied r =>
      rw [hr] at hsu hkept
      obtain ⟨e, -⟩ := hkept r rfl
      intro k hk hT
      rw [e] at hT
      obtain ⟨i, hw, hi⟩ := hsu k hk hT
      obtain ⟨j, -, hj⟩ := h.memberFrom ha hp hk (hne k hk)
        (fun htk => hun k hk htk r hT) ⟨i, Nat.zero_le _, hw, hi⟩
      exact ⟨j, hj⟩

theorem step (h : Keeps seed K T thr L) (hI : Inv seed T' (Function.update thr t x) L')
    (ha : Act seed T L p x T' L') (hp : thr t = some p) (hsp : SparesKeys seed K T p)
    (hK : ¬ K 0#32) (hun : ∀ k, K k → p.Takes seed T k → ∀ i, T i ≠ moving (entry k)) :
    Keeps seed K T' (Function.update thr t x) L' :=
  ⟨hI, fun _ hk _ hi => h.placed_step ha hp hsp hk (fun h0 => hK (h0 ▸ hk)) hi,
    h.suited_step ha hp hsp hK hun⟩

end Keeps

end LFHash
