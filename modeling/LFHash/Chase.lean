/-
# A removal beside an add

One thread removes a key while another adds one, which may move the first. As long as
the scan of the removal reads no moving copy of its key, and line 191 marks no slot
where the scan has found the key (`Unmoved`), line 253 finds the key where the scan has
found it (`Remove.Sees`); from then on the key is nowhere, and no word of the relocation
brings it back (`Struck`). Otherwise both compare-exchanges of the removal fail.

Key definitions: `Unmoved`, `Scanned`, `Remove.Sees`, `Chased`, `Struck`.
Key theorems: `Chased.move_remover`, `Struck.move`, `removal_beside_an_add`,
`removal_can_miss_a_moving_key`.
-/
import LFHash.Readers
import LFHash.Removed
import LFHash.Sequential

namespace LFHash

open Interleave Hopscotch

variable {seed : BitVec 32} {k : Key}

/-! ### The condition -/

/-- The slots where a removal has found its key, up to line 253. -/
def Remove.Found (seed : BitVec 32) (key : Key) (r : ℕ) : Remove → Prop
  | .testKey _ sc | .testMoving _ sc =>
    home seed key ≤ r ∧ sc.cxx.getLsbD (r - home seed key) = true
  | .removeKey _ i1 _ => r = home seed key + i1
  | .stamp | .removeMoving _ _ _ | .loadSlot _ _ | .testSlot _ _ _ | .poison _ _ _ => False

def Finds (seed : BitVec 32) (r : ℕ) : Option Pc → Prop
  | some (.remove key _ q) => q.Found seed key r
  | some (.add _ _) | some (.contains _ _) | none => False

/-- The second load of line 246 reads no moving copy of the key, and line 191 marks no
slot where the thread at `other` has found its key. -/
def Unmoved (seed : BitVec 32) (other : Option Pc) (T : ℕ → Word) : Pc → Prop
  | .remove key _ (.testMoving _ s) => T (home seed key + s.p) ≠ moving (entry key)
  | .add _ (.relocate _ (.mark r Exp)) => T r = Exp → ¬ Finds seed r other
  | _ => True

instance (r : ℕ) : DecidablePred fun q => Remove.Found seed k r q
  | .testKey _ sc | .testMoving _ sc => inferInstanceAs (Decidable
      (home seed k ≤ r ∧ sc.cxx.getLsbD (r - home seed k) = true))
  | .removeKey _ i1 _ => inferInstanceAs (Decidable (r = home seed k + i1))
  | .stamp | .removeMoving _ _ _ | .loadSlot _ _ | .testSlot _ _ _ | .poison _ _ _ => isFalse id

instance (r : ℕ) : DecidablePred (Finds seed r)
  | some (.remove key _ q) => inferInstanceAs (Decidable (q.Found seed key r))
  | some (.add _ _) | some (.contains _ _) | none => isFalse id

instance (other : Option Pc) (T : ℕ → Word) : DecidablePred (Unmoved seed other T)
  | .remove key _ (.testMoving _ s) =>
    inferInstanceAs (Decidable (T (home seed key + s.p) ≠ moving (entry key)))
  | .add _ (.relocate _ (.mark r Exp)) =>
    inferInstanceAs (Decidable (T r = Exp → ¬ Finds seed r other))
  | .add _ (.contains _) | .add _ (.probe _ _ _) | .add _ (.reserve _ _ _) | .add _ (.loadExp _)
  | .add _ (.release _ _) | .add _ (.insert _) | .add _ (.relocate _ (.getInd _ _))
  | .add _ (.relocate _ (.getReplace _)) | .add _ (.relocate _ (.loadExp _))
  | .add _ (.relocate _ (.loadDest _)) | .add _ (.relocate _ (.loadFin _ _))
  | .add _ (.relocate _ (.copy _ _ _)) | .add _ (.relocate _ (.loadMark _))
  | .add _ (.relocate _ (.overwrite _ _)) | .contains _ _ | .remove _ _ .stamp
  | .remove _ _ (.testKey _ _) | .remove _ _ (.removeKey _ _ _)
  | .remove _ _ (.removeMoving _ _ _) | .remove _ _ (.loadSlot _ _)
  | .remove _ _ (.testSlot _ _ _) | .remove _ _ (.poison _ _ _) => isTrue trivial

/-! ### What an `add` does to another key -/

namespace Act

variable {T T' L L' : ℕ → Word} {thr : ℕ → Option Pc} {t : ℕ} {key : Key} {a : Add}
  {x : Option Pc}

/-- An untagged word stays, unless line 191 marks it. -/
theorem plain_kept (ha : Act seed T L (.add key a) x T' L') (hI : Inv seed T thr L)
    (hp : thr t = some (.add key a)) {i : ℕ} {v : Word} (hv : v ≠ 0#64) (htag : tag v = 0#64)
    (hi : T i = v)
    (hm : ∀ Loc r Exp, a = .relocate Loc (.mark r Exp) → T r = Exp → r ≠ i) : T' i = v := by
  have hf := hI.sim.fits t
  rw [hp] at hf
  have hne : ∀ j, tag (T j) ≠ 0#64 → i ≠ j := by
    rintro j hj rfl
    rw [hi] at hj
    exact hj htag
  have hempty : ∀ j, T j = 0#64 → i ≠ j := by
    rintro j hj rfl
    exact hv (hi.symm.trans hj)
  cases ha with
  | quiet => exact hi
  | reserve hz => rwa [Function.update_of_ne (hempty _ hz)]
  | mark he => rwa [Function.update_of_ne (hm _ _ _ rfl he).symm]
  | copy =>
    have h3 := hf.1
    rwa [Function.update_of_ne (hne _ (by rw [h3]; decide))]
  | overwrite | release =>
    have h3 := hf.1
    rwa [Function.update_of_ne (hne _ (by rw [h3]; decide))]
  | insert _ hz => rwa [Function.update_of_ne (hempty _ hz)]

/-- A moving copy is one that was there, or that line 191 has made. -/
theorem moving_origin (ha : Act seed T L (.add key a) x T' L') {i : ℕ}
    (hi : T' i = moving (entry k)) : T i = moving (entry k) ∨
      ∃ Loc, a = .relocate Loc (.mark i (entry k)) ∧ T i = entry k := by
  have htag : ∀ v : Word, v = moving (entry k) → tag v = 1#64 := by
    rintro v rfl
    exact tag_moving _
  have hother : ∀ j w, tag w ≠ 1#64 → Function.update T j w i = moving (entry k) →
      T i = moving (entry k) := by
    intro j w hw h
    by_cases hij : i = j
    · rw [hij, Function.update_self] at h
      exact absurd (htag w h) hw
    · rwa [Function.update_of_ne hij] at h
  cases ha with
  | quiet => exact Or.inl hi
  | reserve | overwrite => exact Or.inl (hother _ _ (by rw [tag_newEntry]; decide) hi)
  | @mark _ Loc r Exp he ht =>
    by_cases hir : i = r
    · subst hir
      rw [Function.update_self] at hi
      obtain rfl := moving_inj ht (tag_entry k) hi
      exact Or.inr ⟨Loc, rfl, he⟩
    · rw [Function.update_of_ne hir] at hi
      exact Or.inl hi
  | copy _ hFin => exact Or.inl (hother _ _ (by rw [hFin, tag_strip]; decide) hi)
  | release => exact Or.inl (hother _ _ (by decide) hi)
  | insert => exact Or.inl (hother _ _ (by rw [tag_entry]; decide) hi)

/-- A plain copy is one that was there, or that line 197 has brought from below. -/
theorem plain_origin (ha : Act seed T L (.add key a) x T' L') (hI : Inv seed T thr L)
    (hp : thr t = some (.add key a)) (hne : key ≠ k) (hk : k ≠ 0#32) {i : ℕ}
    (hi : T' i = entry k) : T i = entry k ∨ ∃ r < i, L r = entry k := by
  have hf := hI.sim.fits t
  rw [hp] at hf
  have hother : ∀ j w, w ≠ entry k → Function.update T j w i = entry k → T i = entry k := by
    intro j w hw h
    by_cases hij : i = j
    · rw [hij, Function.update_self] at h
      exact absurd h hw
    · rwa [Function.update_of_ne hij] at h
  have htag : ∀ w : Word, tag w ≠ 0#64 → w ≠ entry k := by
    rintro w hw rfl
    exact hw (tag_entry k)
  cases ha with
  | quiet => exact Or.inl hi
  | reserve | overwrite => exact Or.inl (hother _ _ (htag _ (by rw [tag_newEntry]; decide)) hi)
  | mark => exact Or.inl (hother _ _ (htag _ (by rw [tag_moving]; decide)) hi)
  | @copy _ Loc r Dest Fin hlt hFin =>
    by_cases hil : i = Loc
    · subst hil
      rw [Function.update_self, hFin, hf.2.2, strip_moving, strip_of_tag (hI.sim.untagged r)] at hi
      exact Or.inr ⟨r, hlt, hi⟩
    · rw [Function.update_of_ne hil] at hi
      exact Or.inl hi
  | release => exact Or.inl (hother _ _ (entry_ne_zero hk).symm hi)
  | insert => exact Or.inl (hother _ _ (fun he => hne (entry_inj he)) hi)

/-- The copies of another key move up. -/
theorem above_other (ha : Act seed T L (.add key a) x T' L') (hI : Inv seed T thr L)
    (hp : thr t = some (.add key a)) (hne : key ≠ k) (hk : k ≠ 0#32) {i : ℕ}
    (hi : L' i = entry k) : ∃ j, j ≤ i ∧ L j = entry k := by
  rcases ha.above hI hp (entry_ne_zero hk) hi with hj | ⟨-, he, -⟩
  · exact hj
  · exact absurd (entry_inj he).symm hne

theorem lone (ha : Act seed T L (.add key a) x T' L') (hI : Inv seed T thr L)
    (hp : thr t = some (.add key a)) (hs : (threadRole (thr t)).Suited seed T L) (hne : key ≠ k)
    (hk : k ≠ 0#32) (h : ∃ y, Lone (homeOf seed) HOP L (entry k) y) :
    ∃ y, Lone (homeOf seed) HOP L' (entry k) y := by
  have hf := hI.sim.fits t
  rw [hp] at hs hf
  obtain ⟨y, hy⟩ := h
  cases ha with
  | quiet | reserve | mark | overwrite | release => exact ⟨y, hy⟩
  | copy hlt =>
    refine hy.move (Nat.ne_of_lt hlt) hf.2.1 (entry_ne_zero hk) fun he => ?_
    have hw := hs.resolve_left (by rw [he]; exact entry_ne_zero hk)
    rwa [he] at hw
  | insert _ hz =>
    refine ⟨y, hy.put ?_ fun he => hne (entry_inj he)⟩
    rw [hI.sim.eq_of_read hz tag_zero]
    exact (entry_ne_zero hk).symm

end Act

/-! ### What the scan of the removal knows -/

/-- After `n` slots: the bits stand where the key is, without a bit the key is ahead, and
no slot that has been read holds a moving copy. -/
structure Scanned (seed : BitVec 32) (T L : ℕ → Word) (k : Key) (n : ℕ) (cxx : Word) : Prop where
  bits : ∀ j < 64, cxx.getLsbD j = true → j < n ∧ T (home seed k + j) = entry k
  ahead : cxx = 0#64 → ∀ x, L x = entry k → home seed k + n ≤ x
  still : ∀ j < n, T (home seed k + j) ≠ moving (entry k)

/-- Up to line 253, the stamp is not the key, and the slot that line 253 compares holds it. -/
def Remove.Sees (seed : BitVec 32) (m : Cell → Word) (L : ℕ → Word) (k : Key) : Remove → Prop
  | .stamp => finalEntry (m .timeStamp) ≠ entry k
  | .testKey final sc => final ≠ entry k ∧ Scanned seed (buckets m) L k sc.p sc.cxx
  | .testMoving final sc => final ≠ entry k ∧ Scanned seed (buckets m) L k sc.p sc.cxx ∧
      (sc.cxx = 0#64 → buckets m (home seed k + sc.p) ≠ entry k)
  | .removeKey final i1 _ => final ≠ entry k ∧ buckets m (home seed k + i1) = entry k ∧
      ∀ j < HOP + 1, buckets m (home seed k + j) ≠ moving (entry k)
  | .removeMoving _ _ _ | .loadSlot _ _ | .testSlot _ _ _ | .poison _ _ _ => False

variable {m m' : Cell → Word} {T L L' : ℕ → Word} {x : ℕ}

theorem scanned_start (h : Lone (homeOf seed) HOP L (entry k) x) :
    Scanned seed T L k Scan.start.p Scan.start.cxx := by
  have hx := window_entry.mp h.window
  refine ⟨fun j _ hj => ?_, fun _ y hy => ?_, fun j hj => absurd hj (Nat.not_lt_zero j)⟩
  · simp [Scan.start] at hj
  · obtain rfl := (h.only y).mp hy
    rw [Scan.start, Nat.add_zero]
    exact hx.1

/-- The scan finds the key. -/
theorem Scanned.hit {n : ℕ} {cxx : Word} (h : Scanned seed T L k n cxx) (hn : n < 64)
    (hT : T (home seed k + n) = entry k) : Scanned seed T L k (n + 1) (setBit cxx n) := by
  refine ⟨fun j hj hbit => ?_, fun h0 => absurd h0 (setBit_ne_zero hn), fun j hj => ?_⟩
  · rw [getLsbD_setBit hj, Bool.or_eq_true, decide_eq_true_iff] at hbit
    rcases hbit with hbit | rfl
    · obtain ⟨h1, h2⟩ := h.bits j hj hbit
      exact ⟨by omega, h2⟩
    · exact ⟨Nat.lt_succ_self j, hT⟩
  · rcases Nat.lt_succ_iff_lt_or_eq.mp hj with hlt | rfl
    · exact h.still j hlt
    · rw [hT]
      exact ne_moving (tag_entry k)

/-- The scan passes a slot. -/
theorem Scanned.miss {n : ℕ} {cxx : Word} (h : Scanned seed T L k n cxx)
    (hL : cxx = 0#64 → L (home seed k + n) ≠ entry k)
    (hT : T (home seed k + n) ≠ moving (entry k)) : Scanned seed T L k (n + 1) cxx := by
  refine ⟨fun j hj hbit => ?_, fun h0 x hx => ?_, fun j hj => ?_⟩
  · obtain ⟨h1, h2⟩ := h.bits j hj hbit
    exact ⟨by omega, h2⟩
  · have hle := h.ahead h0 x hx
    have hne : x ≠ home seed k + n := by
      rintro rfl
      exact hL h0 hx
    omega
  · rcases Nat.lt_succ_iff_lt_or_eq.mp hj with hlt | rfl
    · exact h.still j hlt
    · exact hT

/-- After the whole window the first bit stands where the key is. -/
theorem Scanned.first {cxx : Word} (h : Scanned seed T L k (HOP + 1) cxx)
    (hl : Lone (homeOf seed) HOP L (entry k) x) : T (home seed k + findFirst cxx) = entry k := by
  have hx := window_entry.mp hl.window
  have hne : cxx ≠ 0#64 := by
    intro h0
    have hle := h.ahead h0 x ((hl.only x).mpr rfl)
    omega
  obtain ⟨j, hj, hbit⟩ := exists_bit hne
  exact (h.bits _ (findFirst_lt cxx) (getLsbD_findFirst hj hbit)).2

theorem sees_nextScan {final cxx : Word} {n : ℕ} (hfin : final ≠ entry k) (hn : n ≤ HOP)
    (hl : Lone (homeOf seed) HOP L (entry k) x)
    (h : Scanned seed (buckets m) L k (n + 1) cxx) :
    (Remove.nextScan final n cxx).Sees seed m L k := by
  unfold Remove.nextScan
  split_ifs with hlt
  · exact ⟨hfin, h⟩
  · obtain rfl : n = HOP := by omega
    exact ⟨hfin, h.first hl, h.still⟩

/-- An access of the removal before line 253. -/
theorem Remove.sees_goto {thr : ℕ → Option Pc} {tid : ℤ} {other : Option Pc} {q q' : Remove}
    (hq : q.Ok) (h : q.Sees seed m L k) (hI : Inv seed (buckets m) thr L) (hk : k ≠ 0#32)
    (hl : Lone (homeOf seed) HOP L (entry k) x) (he : ¬ (Pc.remove k tid q).Erases)
    (hu : Unmoved seed other (buckets m) (.remove k tid q))
    (hf : (remove seed k q).2 ((remove seed k q).1.exec m).1 = .goto q') :
    q'.Sees seed ((remove seed k q).1.exec m).2 L k := by
  cases q with
  | stamp =>
    cases hf
    refine ⟨h, ?_⟩
    simp only [remove, Access.exec_fetch, buckets_timeStamp]
    exact scanned_start hl
  | testKey final sc =>
    obtain ⟨hfin, hs⟩ := h
    obtain ⟨-, hp⟩ := hq
    simp only [remove, Access.exec_load] at hf ⊢
    split_ifs at hf with hT
    · cases hf
      have hp64 : sc.p < 64 := by
        simp only [HOP] at hp
        omega
      exact sees_nextScan hfin hp hl (hs.hit hp64 hT)
    · cases hf
      exact ⟨hfin, hs, fun _ => hT⟩
  | testMoving final sc =>
    obtain ⟨hfin, hs, hT⟩ := h
    have hmov : m (.bucket (home seed k + sc.p)) ≠ moving (entry k) := hu
    simp only [remove, Access.exec_load, hmov, if_false] at hf ⊢
    cases hf
    refine sees_nextScan hfin hq.2 hl (hs.miss (fun h0 hL => ?_) hu)
    have hne : L (home seed k + sc.p) ≠ 0#64 := by
      rw [hL]
      exact entry_ne_zero hk
    have hread := hI.sim.read hne
    rw [hL] at hread
    exact hread.elim (hT h0) hu
  | removeKey final i1 i2 => exact absurd trivial he
  | removeMoving | loadSlot | testSlot | poison => exact h.elim

/-- An access of the `add` leaves a slot alone where the key has been found. -/
theorem Scanned.adder {T' : ℕ → Word} {thr : ℕ → Option Pc} {t n : ℕ} {key : Key} {a : Add}
    {y : Option Pc} {cxx : Word} (h : Scanned seed T L k n cxx)
    (ha : Act seed T L (.add key a) y T' L') (hI : Inv seed T thr L)
    (hp : thr t = some (.add key a)) (hne : key ≠ k) (hk : k ≠ 0#32)
    (hl : Lone (homeOf seed) HOP L (entry k) x)
    (hm : ∀ Loc r Exp, a = .relocate Loc (.mark r Exp) → T r = Exp →
      ¬ (home seed k ≤ r ∧ cxx.getLsbD (r - home seed k) = true)) :
    Scanned seed T' L' k n cxx := by
  refine ⟨fun j hj hbit => ?_, fun h0 z hz => ?_, fun j hj hT => ?_⟩
  · obtain ⟨h1, h2⟩ := h.bits j hj hbit
    refine ⟨h1, ha.plain_kept hI hp (entry_ne_zero hk) (tag_entry k) h2 ?_⟩
    rintro Loc r Exp he hr rfl
    refine hm Loc _ Exp he hr ⟨Nat.le_add_right _ _, ?_⟩
    rwa [Nat.add_sub_cancel_left]
  · obtain ⟨j, hj, hLj⟩ := ha.above_other hI hp hne hk hz
    exact (h.ahead h0 j hLj).trans hj
  · rcases ha.moving_origin hT with hold | ⟨Loc, he, hplain⟩
    · exact h.still j hj hold
    · -- the marked slot is the one where the scan has found the key
      have hL : L (home seed k + j) = entry k :=
        hI.sim.eq_of_read hplain (tag_entry _)
      by_cases h0 : cxx = 0#64
      · have hle := h.ahead h0 _ hL
        omega
      · obtain ⟨i, hi, hbit⟩ := exists_bit h0
        obtain ⟨-, hTi⟩ := h.bits i hi hbit
        have hLi : L (home seed k + i) = entry k :=
          hI.sim.eq_of_read hTi (tag_entry _)
        have hij : home seed k + i = home seed k + j :=
          ((hl.only _).mp hLi).trans ((hl.only _).mp hL).symm
        refine hm Loc _ _ he hplain ⟨Nat.le_add_right _ _, ?_⟩
        rwa [← hij, Nat.add_sub_cancel_left]

/-- An access of the `add` while the removal has not written yet. -/
theorem Remove.sees_adder {thr : ℕ → Option Pc} {t : ℕ} {tid : ℤ} {key : Key} {a : Add}
    {y : Option Pc} {q : Remove} (hq : q.Sees seed m L k)
    (ha : Act seed (buckets m) L (.add key a) y (buckets m') L') (hI : Inv seed (buckets m) thr L)
    (hp : thr t = some (.add key a)) (hne : key ≠ k) (hk : k ≠ 0#32)
    (hl : Lone (homeOf seed) HOP L (entry k) x) (hts : m' .timeStamp = m .timeStamp)
    (hu : Unmoved seed (some (.remove k tid q)) (buckets m) (.add key a)) :
    q.Sees seed m' L' k := by
  have hm : ∀ Loc r Exp, a = .relocate Loc (.mark r Exp) → buckets m r = Exp →
      ¬ q.Found seed k r := by
    rintro Loc r Exp rfl hr
    exact hu hr
  cases q with
  | stamp =>
    show finalEntry (m' .timeStamp) ≠ entry k
    rw [hts]
    exact hq
  | testKey final sc => exact ⟨hq.1, hq.2.adder ha hI hp hne hk hl hm⟩
  | testMoving final sc =>
    obtain ⟨hfin, hs, hT⟩ := hq
    refine ⟨hfin, hs.adder ha hI hp hne hk hl hm, fun h0 hT' => ?_⟩
    rcases ha.plain_origin hI hp hne hk hT' with hold | ⟨r, hr, hL⟩
    · exact hT h0 hold
    · have hle := hs.ahead h0 r hL
      omega
  | removeKey final i1 i2 =>
    obtain ⟨hfin, hT, hstill⟩ := hq
    have hL : L (home seed k + i1) = entry k :=
      hI.sim.eq_of_read hT (tag_entry _)
    refine ⟨hfin, ?_, fun j hj hT' => ?_⟩
    · refine ha.plain_kept hI hp (entry_ne_zero hk) (tag_entry k) hT ?_
      rintro Loc r Exp he hr rfl
      exact hm Loc _ Exp he hr rfl
    · rcases ha.moving_origin hT' with hold | ⟨Loc, he, hplain⟩
      · exact hstill j hj hold
      · have hLj : L (home seed k + j) = entry k :=
          hI.sim.eq_of_read hplain (tag_entry _)
        exact hm Loc _ _ he hplain (((hl.only _).mp hLj).trans ((hl.only _).mp hL).symm)
  | removeMoving | loadSlot | testSlot | poison => exact hq.elim

/-! ### After line 253 -/

/-- No word the `add` is about to write is the key `k`. -/
def Add.Harmless (T : ℕ → Word) (k : Key) : Add → Prop
  | .relocate _ (.loadDest r) | .relocate _ (.loadFin r _) => tag (T r) = 1#64
  | .relocate _ (.copy _ _ Fin) => Fin ≠ entry k
  | .relocate _ (.getInd _ _) | .relocate _ (.getReplace _) | .relocate _ (.loadExp _) => True
  | .relocate _ (.mark _ _) | .relocate _ (.loadMark _) | .relocate _ (.overwrite _ _) => True
  | .contains _ | .probe _ _ _ | .reserve _ _ _ | .loadExp _ | .release _ _ | .insert _ => True

/-- A removal past line 253, where it has succeeded. -/
def Remove.Succeeded : Remove → Prop
  | .removeMoving _ _ rem | .loadSlot _ rem | .testSlot _ _ rem | .poison _ _ rem => rem = true
  | .stamp | .testKey _ _ | .testMoving _ _ | .removeKey _ _ _ => False

/-- The key is nowhere. -/
def Gone (T : ℕ → Word) (k : Key) : Prop := ∀ i, ¬ Hit T k i

theorem Gone.update {i : ℕ} {w : Word} (h : Gone T k) (h1 : w ≠ entry k)
    (h2 : w ≠ moving (entry k)) : Gone (Function.update T i w) k := by
  intro j hj
  unfold Hit at hj
  by_cases hji : j = i
  · rw [hji, Function.update_self] at hj
    exact hj.elim h1 h2
  · rw [Function.update_of_ne hji] at hj
    exact h j hj

theorem Gone.update_reserved {i : ℕ} {w : Word} (h : Gone T k) (hw : tag w = 3#64) :
    Gone (Function.update T i w) k := by
  refine h.update ?_ ?_
  · rintro rfl
    rw [tag_entry] at hw
    exact absurd hw (by decide)
  · rintro rfl
    rw [tag_moving] at hw
    exact absurd hw (by decide)

theorem Gone.update_plain {i : ℕ} {w : Word} (h : Gone T k) (hw : tag w = 0#64)
    (hne : w ≠ entry k) : Gone (Function.update T i w) k := by
  refine h.update hne ?_
  rintro rfl
  rw [tag_moving] at hw
  exact absurd hw (by decide)

theorem harmless_probeNext {tg : Word} {i n : ℕ} : (Add.probeNext tg i n).Harmless T k := by
  unfold Add.probeNext
  split_ifs <;> trivial

theorem harmless_settle {key : Key} {i : ℕ} : (Add.settle seed key i).Harmless T k := by
  unfold Add.settle
  split_ifs <;> trivial

theorem gone_cas {i : ℕ} {e d : Word} (h : Gone (buckets m) k)
    (hd : buckets m i = e → Gone (Function.update (buckets m) i d) k) :
    Gone (buckets ((Access.cas (.bucket i) e d).exec m).2) k := by
  by_cases he : m (.bucket i) = e
  · rw [Access.exec_cas_of_eq m d he, buckets_update]
    exact hd he
  · rwa [Access.exec_cas_of_ne m d he]

/-- The access of an `add` of another key, once the key is gone. -/
theorem gone_add {key : Key} {a : Add} (ha : a.Ok seed key) (h : Gone (buckets m) k)
    (hh : a.Harmless (buckets m) k) (hne : key ≠ k) (hk : k ≠ 0#32) :
    Gone (buckets ((add seed key a).1.exec m).2) k := by
  cases a with
  | contains sc | probe tg i n | loadExp i => exact h
  | reserve tg i n => exact gone_cas h fun _ => h.update_reserved (tag_newEntry key)
  | release i Exp => exact gone_cas h fun _ => h.update_plain tag_zero (entry_ne_zero hk).symm
  | relocate Loc q =>
    obtain ⟨-, -, hq⟩ := ha
    cases q with
    | getInd r ind | getReplace r | loadExp r | loadDest r | loadFin r Dest | loadMark r => exact h
    | mark r Exp =>
      refine gone_cas h fun he => h.update ?_ fun hmov => ?_
      · intro hplain
        have ht := tag_moving Exp
        rw [hplain, tag_entry] at ht
        exact absurd ht (by decide)
      · obtain rfl := moving_inj hq.2.2 (tag_entry k) hmov
        exact h r (Or.inl he)
    | copy r Dest Fin => exact gone_cas h fun _ => h.update_plain hq.2.2 hh
    | overwrite r Exp => exact gone_cas h fun _ => h.update_reserved (tag_newEntry key)
  | insert q =>
    cases q with
    | first tg c p | second c p => exact h
    | claim tg c p =>
      exact gone_cas h fun _ => h.update_plain (tag_entry key) fun he => hne (entry_inj he)
    | reuse slot p => exact ha.elim

theorem harmless_goto {key : Key} {a b : Add} (ha : a.Ok seed key) (h : Gone (buckets m) k)
    (hh : a.Harmless (buckets m) k) (hf : addFlow seed key m a = .goto b) :
    b.Harmless (buckets ((add seed key a).1.exec m).2) k := by
  cases a with
  | contains sc =>
    rcases Flow.bind_eq_goto.mp hf with ⟨sc', -, rfl⟩ | ⟨found, -, hb⟩
    · trivial
    · split_ifs at hb
      cases hb
      exact harmless_probeNext
  | probe tg i n =>
    simp only [addFlow, add] at hf
    split_ifs at hf <;> cases hf
    · exact harmless_probeNext
    · trivial
  | reserve tg i n =>
    simp only [addFlow, add, Add.reserved] at hf
    split_ifs at hf <;> cases hf
    · exact harmless_probeNext
    · exact harmless_settle
  | loadExp i | release i Exp => cases hf; trivial
  | insert q =>
    rcases Flow.bind_eq_goto.mp hf with ⟨q', -, rfl⟩ | ⟨b', -, hb⟩
    · trivial
    · split_ifs at hb
      cases hb
      trivial
  | relocate Loc q =>
    rcases Flow.bind_eq_goto.mp hf with ⟨q', hq', rfl⟩ | ⟨r, -, hb⟩
    swap
    · split_ifs at hb
      cases hb
      exact harmless_settle
    cases q with
    | getInd r ind | getReplace r =>
      rcases seek_eq_goto.mp hq' with ⟨rfl, -⟩ | ⟨rfl, -⟩ <;> trivial
    | mark r Exp =>
      simp only [relocate] at hq'
      split_ifs at hq' with hok <;> cases hq'
      · show tag _ = 1#64
        have he : m (.bucket r) = Exp := by
          by_contra he
          simp [add, relocate, Access.exec_cas_of_ne m _ he] at hok
        simp only [add, relocate, Point.inside_fst, Access.exec_cas_of_eq m _ he, buckets_update,
          Function.update_self, tag_moving]
      · trivial
    | loadDest r => cases hq'; exact hh
    | loadFin r Dest =>
      cases hq'
      have htag : tag (m (.bucket r)) = 1#64 := hh
      intro hstrip
      -- a moving word whose key is `k` would be a copy of it
      have hmov : m (.bucket r) = moving (entry k) := by
        calc m (.bucket r) = moving (m (.bucket r)) := (moving_of_tag htag).symm
          _ = moving (strip (m (.bucket r))) := (moving_strip _).symm
          _ = moving (entry k) := congrArg moving hstrip
      exact h r (Or.inr hmov)
    | loadExp r | copy r Dest Fin | loadMark r => cases hq'; trivial
    | overwrite r Exp => cases hq'

/-- The removal goes on past line 253. -/
theorem Remove.succeeded_goto {q q' : Remove} (h : q.Succeeded)
    (hf : (remove seed k q).2 ((remove seed k q).1.exec m).1 = .goto q') : q'.Succeeded := by
  cases q with
  | stamp | testKey final sc | testMoving final sc | removeKey final i1 i2 => exact h.elim
  | removeMoving final i2 rem =>
    obtain rfl : rem = true := h
    cases hf
    exact Bool.true_or _
  | loadSlot p rem => cases hf; exact h
  | testSlot p slot rem | poison p slot rem =>
    simp only [remove, Remove.nextSlot] at hf
    split_ifs at hf <;> cases hf <;> exact h

theorem Remove.succeeded_ret {q : Remove} {b : Bool} (h : q.Succeeded)
    (hf : (remove seed k q).2 ((remove seed k q).1.exec m).1 = .ret b) : b = true := by
  rcases remove_ret hf with ⟨p, slot, rfl⟩ | ⟨p, slot, rfl⟩ <;> exact h

/-- Past line 253 the removal writes only words with tag 3, over words with tag 3. -/
theorem Remove.succeeded_exec {q : Remove} (hq : q.Ok) (h : q.Succeeded) (hg : Gone (buckets m) k) :
    Gone (buckets ((remove seed k q).1.exec m).2) k ∧
      ∀ r, tag (buckets m r) = 1#64 → tag (buckets ((remove seed k q).1.exec m).2 r) = 1#64 := by
  cases q with
  | stamp | testKey final sc | testMoving final sc | removeKey final i1 i2 => exact h.elim
  | loadSlot p rem | testSlot p slot rem => exact ⟨hg, fun _ ht => ht⟩
  | removeMoving final i2 rem =>
    have hne : m (.bucket (home seed k + i2)) ≠ entry k ||| (1#64 <<< 62) := by
      intro he
      refine hg (home seed k + i2) (Or.inr ?_)
      rw [buckets, he, moving_entry]
    simp only [remove, Access.exec_cas_of_ne m _ hne]
    exact ⟨hg, fun _ ht => ht⟩
  | poison p slot rem =>
    refine ⟨gone_cas hg fun _ => hg.update_reserved tag_random, fun r ht => ?_⟩
    by_cases he : m (.bucket (home seed k + p)) = slot
    · simp only [remove, Access.exec_cas_of_eq m _ he, buckets_update]
      have hslot : tag (buckets m (home seed k + p)) = 3#64 := by
        rw [buckets, he]
        exact hq.2
      have hne : r ≠ home seed k + p := by
        rintro rfl
        rw [hslot] at ht
        exact absurd ht (by decide)
      rwa [Function.update_of_ne hne]
    · simp only [remove, Access.exec_cas_of_ne m _ he]
      exact ht

theorem Add.Harmless.congr {T' : ℕ → Word} {a : Add} (h : a.Harmless T k)
    (hT : ∀ r, tag (T r) = 1#64 → tag (T' r) = 1#64) : a.Harmless T' k := by
  cases a with
  | relocate Loc q =>
    cases q with
    | loadDest r | loadFin r Dest => exact hT r h
    | copy r Dest Fin => exact h
    | getInd | getReplace | loadExp | mark | loadMark | overwrite => trivial
  | contains | probe | reserve | loadExp | release | insert => trivial

/-- While no slot holds a moving copy of the key, no `add` is about to write it. -/
theorem harmless_of_unmoved {thr : ℕ → Option Pc} {t : ℕ} {key : Key} {a : Add}
    (hI : Inv seed T thr L) (hp : thr t = some (.add key a))
    (hmov : ∀ i, T i ≠ moving (entry k)) : a.Harmless T k := by
  have hf := hI.sim.fits t
  have hpd := hI.pending t _ hp
  rw [hp] at hf
  cases a with
  | contains | probe | reserve | loadExp | release | insert => trivial
  | relocate Loc q =>
    cases q with
    | getInd | getReplace | loadExp | mark | loadMark | overwrite => trivial
    | loadDest r | loadFin r Dest =>
      show tag (T r) = 1#64
      rw [hf.2.2, tag_moving]
    | copy r Dest Fin =>
      have hFin : Fin = strip (T r) := hpd.2
      have hTr : T r = moving (L r) := hf.2.2
      intro he
      refine hmov r ?_
      rw [← he, hFin, moving_strip, hTr]
      exact (moving_of_tag (tag_moving _)).symm

/-! ### Both calls -/

/-- Thread 0 runs `add(k₂)`, thread 1 runs `Remove(k, tid)`. -/
def Pair (k₂ k : Key) (tid : ℤ) (t : ℕ) (c : Call) : Prop :=
  t = 0 ∧ c = .add k₂ ∨ t = 1 ∧ c = .remove k tid

/-- The removal has not written yet: the key is stored once, and its scan sees it. -/
structure Chased (seed : BitVec 32) (s : State) (k : Key) (tid : ℤ) (L : ℕ → Word) : Prop extends
    Writing seed s 0 L where
  lone : ∃ x, Lone (homeOf seed) HOP L (entry k) x
  marks : ∀ i, buckets s.mem i = moving (entry k) → Window (homeOf seed) HOP (entry k) i
  sees : ∃ q, s.thr 1 = some (.remove k tid q) ∧ q.Sees seed s.mem L k

/-- Line 253 has succeeded: the key is gone, and the removal will return true. -/
structure Struck (s : State) (k : Key) (tid : ℤ) : Prop where
  gone : Gone (buckets s.mem) k
  harmless : ∀ key a, s.thr 0 = some (.add key a) → a.Harmless (buckets s.mem) k
  succeeded : (∃ q, s.thr 1 = some (.remove k tid q) ∧ q.Succeeded) ∨
    s.thr 1 = none ∧ (1, (.remove k tid, true)) ∈ s.log

theorem Remove.Sees.reads {tid : ℤ} {q : Remove} (h : q.Sees seed m L k) :
    (Pc.remove k tid q).Reads := by
  cases q with
  | stamp | testKey | testMoving | removeKey => trivial
  | removeMoving | loadSlot | testSlot | poison => exact h.elim

/-- A removal does not return before line 253. -/
theorem Remove.Sees.flow {q : Remove} (h : q.Sees seed m L k) (r : Ans) :
    ∃ q', (remove seed k q).2 r = .goto q' := by
  cases q with
  | stamp | removeKey final i1 i2 => exact ⟨_, rfl⟩
  | testKey final sc | testMoving final sc =>
    simp only [remove]
    split_ifs <;> exact ⟨_, rfl⟩
  | removeMoving | loadSlot | testSlot | poison => exact h.elim

theorem Running.adder {s : State} {k₂ : Key} {tid : ℤ} (h : Running (Pair k₂ k tid) s) {p : Pc}
    (hp : s.thr 0 = some p) : ∃ a, p = .add k₂ a := by
  rcases h 0 p hp with ⟨-, hc⟩ | ⟨h01, -⟩
  · rcases p with ⟨key, a⟩ | ⟨key, tid', a⟩ | ⟨key, sc⟩ <;> cases hc
    exact ⟨a, rfl⟩
  · cases h01

namespace Chased

variable {s s' : State} {tid : ℤ} {k₂ : Key}

/-- A move of the `add`. -/
theorem move_adder (h : Chased seed s k tid L) (hk : k ≠ 0#32) (hne : k₂ ≠ k)
    (hrun : Running (Pair k₂ k tid) s) (hrun' : Running (Pair k₂ k tid) s')
    (hq : Moves (Unmoved seed (s.thr 1)) s (.move 0))
    (hs : (table seed).step s (.move 0) = some s') (hh : s'.halt = none) :
    ∃ L', Chased seed s' k tid L' := by
  obtain ⟨q, hp₁, hsees⟩ := h.sees
  have hkeep : ∀ u ≠ 0, s'.thr u = s.thr u := fun u hu => Machine.step_thr_of_ne hs hu
  have hreads : ∀ u ≠ 0, ∀ p, s'.thr u = some p → p.Reads := by
    intro u hu p hp
    rw [hkeep u hu] at hp
    exact h.reads u hu p hp
  obtain ⟨p, L', hp, hW, ha⟩ := h.toWriting.move hs hh (absurd rfl) hreads
  obtain ⟨a, rfl⟩ := hrun.adder hp
  obtain ⟨x, hx⟩ := h.lone
  have hu := hq _ hp
  rw [hp₁] at hu
  refine ⟨L', hW, ha.lone h.inv hp (h.suited 0) hne hk ⟨x, hx⟩, fun i hi => ?_, q, ?_, ?_⟩
  · rcases ha.moving_origin hi with hold | ⟨Loc, -, hplain⟩
    · exact h.marks i hold
    · have hL : L i = entry k :=
        h.inv.sim.eq_of_read hplain (tag_entry _)
      rw [(hx.only i).mp hL]
      exact hx.window
  · rw [hkeep 1 (by decide), hp₁]
  · refine Remove.sees_adder hsees ha h.inv hp hne hk hx ?_ hu
    obtain rfl := Machine.eq_advance hp hs
    rw [Machine.advance_mem]
    exact timeStamp_exec id

/-- No slot holds a moving copy of the key once the scan is over. -/
theorem no_moving (h : Chased seed s k tid L) {final : Word} {i1 i2 : ℕ}
    (hp : s.thr 1 = some (.remove k tid (.removeKey final i1 i2))) (i : ℕ) :
    buckets s.mem i ≠ moving (entry k) := by
  obtain ⟨q, hq, hsees⟩ := h.sees
  rw [hp] at hq
  cases hq
  obtain ⟨-, -, hstill⟩ := hsees
  intro hi
  obtain ⟨h1, h2⟩ := window_entry.mp (h.marks i hi)
  refine hstill (i - home seed k) (by omega) ?_
  rwa [Nat.add_sub_cancel' h1]

/-- Line 253 finds the key. -/
theorem strike (h : Chased seed s k tid L) {final : Word} {i1 i2 : ℕ}
    (hp : s.thr 1 = some (.remove k tid (.removeKey final i1 i2)))
    (hs : (table seed).step s (.move 1) = some s') : Struck s' k tid := by
  have hmov := h.no_moving hp
  obtain ⟨q, hq, hsees⟩ := h.sees
  rw [hp] at hq
  cases hq
  obtain ⟨hfin, hT, -⟩ := hsees
  have htag : tag final = 0#64 := h.inv.ok 1 _ hp
  have hf : (table seed).flow s.mem (.remove k tid (.removeKey final i1 i2)) =
      .goto (.remove k tid (.removeMoving final i2 true)) := by
    simp [Machine.flow, table, Pc.code, remove, Access.exec_cas_of_eq s.mem final hT]
  have hmem : ((table seed).advance 1 (.remove k tid (.removeKey final i1 i2)) s).mem =
      Function.update s.mem (.bucket (home seed k + i1)) final := by
    rw [Machine.advance_mem]
    simp only [table, Pc.code, remove, Point.inside_fst, Access.exec_cas_of_eq s.mem final hT]
  obtain ⟨x, hx⟩ := h.lone
  have hL : ∀ i, buckets s.mem i = entry k → i = x := by
    intro i hi
    refine (hx.only i).mp ?_
    exact h.inv.sim.eq_of_read hi (tag_entry k)
  have hkeep : s'.thr 0 = s.thr 0 := Machine.step_thr_of_ne hs (by decide)
  obtain rfl := Machine.eq_advance hp hs
  refine ⟨fun i hit => ?_, fun key a ha => ?_, Or.inl ⟨.removeMoving final i2 true, ?_, rfl⟩⟩
  · rw [hmem, buckets_update] at hit
    unfold Hit at hit
    by_cases hi : i = home seed k + i1
    · rw [hi, Function.update_self] at hit
      rcases hit with he | hm
      · exact hfin he
      · exact ne_moving htag hm
    · rw [Function.update_of_ne hi] at hit
      rcases hit with he | hm
      · exact hi ((hL i he).trans (hL _ hT).symm)
      · exact hmov i hm
  · rw [hkeep] at ha
    refine (harmless_of_unmoved h.inv ha hmov).congr fun r ht => ?_
    have hne : r ≠ home seed k + i1 := by
      rintro rfl
      rw [hT, tag_entry] at ht
      exact absurd ht (by decide)
    rwa [hmem, buckets_update, Function.update_of_ne hne]
  · exact Machine.advance_thr_goto hf

/-- A move of the removal before line 253. -/
theorem move_remover (h : Chased seed s k tid L) (hk : k ≠ 0#32) {q : Remove}
    (hp : s.thr 1 = some (.remove k tid q)) (he : ¬ (Pc.remove k tid q).Erases)
    (hu : Moves (Unmoved seed (s.thr 1)) s (.move 1))
    (hs : (table seed).step s (.move 1) = some s') (hh : s'.halt = none) :
    ∃ L', Chased seed s' k tid L' := by
  obtain ⟨q₀, hq, hsees⟩ := h.sees
  rw [hp] at hq
  cases hq
  obtain ⟨x, hx⟩ := h.lone
  obtain ⟨q', hf⟩ := hsees.flow ((remove seed k q).1.exec s.mem).1
  have hsees' := Remove.sees_goto (h.inv.ok 1 _ hp) hsees h.inv hk hx he (hu _ hp) hf
  have hflow : (table seed).flow s.mem (.remove k tid q) = .goto (.remove k tid q') := by
    simp only [Machine.flow, table, Pc.code, Point.inside_fst, Point.inside_snd, hf, Flow.bind_goto]
  have hthr : s'.thr = Function.update s.thr 1 (some (.remove k tid q')) := by
    rw [Machine.eq_advance hp hs, Machine.advance_goto hflow]
  have hmem : s'.mem = ((remove seed k q).1.exec s.mem).2 := by
    rw [Machine.eq_advance hp hs, Machine.advance_mem]
    rfl
  have hreads : ∀ u ≠ 0, ∀ p, s'.thr u = some p → p.Reads := by
    intro u hu0 p hup
    rw [hthr] at hup
    by_cases hu1 : u = 1
    · subst hu1
      rw [Function.update_self] at hup
      cases hup
      exact hsees'.reads
    · rw [Function.update_of_ne hu1] at hup
      exact h.reads u hu0 p hup
  have herase : (1 : ℕ) ≠ 0 → ∀ p, s.thr 1 = some p → ¬ p.Erases := by
    intro _ p hp'
    rw [hp] at hp'
    cases hp'
    exact he
  obtain ⟨p, L', hp', hW, ha⟩ := h.toWriting.move hs hh herase hreads
  rw [hp] at hp'
  cases hp'
  obtain ⟨hT, rfl⟩ := Writing.act_of_reads ha hsees.reads he
  refine ⟨L', hW, ⟨x, hx⟩, fun i hi => ?_, q', ?_, ?_⟩
  · rw [hT] at hi
    exact h.marks i hi
  · rw [hthr]
    exact Function.update_self ..
  · rw [hmem]
    exact hsees'

end Chased

/-- A move after line 253 has succeeded. -/
theorem Struck.move {s s' : State} {tid : ℤ} {k₂ : Key} {t : ℕ} (h : Struck s k tid)
    (hS : Sound seed s) (hrun : Running (Pair k₂ k tid) s) (hk : k ≠ 0#32) (hne : k₂ ≠ k)
    (hs : (table seed).step s (.move t) = some s') (hh : s'.halt = none) : Struck s' k tid := by
  obtain ⟨-, p, hp, -⟩ := Machine.step_move.mp hs
  have hkeep : ∀ u ≠ t, s'.thr u = s.thr u := fun u hu => Machine.step_thr_of_ne hs hu
  have hok := hS t p hp
  rcases hrun t p hp with ⟨rfl, hc⟩ | ⟨rfl, hc⟩
  · obtain ⟨a, rfl⟩ := hrun.adder hp
    have hharm := h.harmless k₂ a hp
    obtain rfl := Machine.eq_advance hp hs
    refine ⟨?_, fun key b hb => ?_, ?_⟩
    · rw [Machine.advance_mem]
      exact gone_add hok h.gone hharm hne hk
    · rw [Machine.advance_thr hh, Function.update_self] at hb
      have hn : next seed s.mem (.add k₂ a) = some (.add key b) := hb
      obtain ⟨a', hf, e⟩ := next_eq_add hn
      cases e
      rw [Machine.advance_mem]
      exact harmless_goto hok h.gone hharm hf
    · rw [hkeep 1 (by decide)]
      refine h.succeeded.imp id fun ⟨hnone, hlog⟩ => ⟨hnone, ?_⟩
      rcases Machine.advance_log (M := table seed) (s := s) 0 (.add k₂ a) with hl | ⟨r, -, hl⟩
      · rw [hl]
        exact hlog
      · rw [hl]
        exact List.mem_cons_of_mem _ hlog
  · obtain ⟨q, hq, hsucc⟩ : ∃ q, s.thr 1 = some (.remove k tid q) ∧ q.Succeeded := by
      rcases h.succeeded with hq | ⟨hnone, -⟩
      · exact hq
      · rw [hp] at hnone
        cases hnone
    rw [hp] at hq
    cases hq
    obtain ⟨hgone, htags⟩ := Remove.succeeded_exec hok hsucc h.gone
    obtain rfl := Machine.eq_advance hp hs
    refine ⟨?_, fun key a ha => ?_, ?_⟩
    · rw [Machine.advance_mem]
      exact hgone
    · rw [hkeep 0 (by decide)] at ha
      rw [Machine.advance_mem]
      exact (h.harmless key a ha).congr htags
    · cases hf : (table seed).flow s.mem (.remove k tid q) with
      | exit e => exact absurd hf (Machine.flow_ne_exit hh e)
      | goto p' =>
        obtain ⟨q', hq', rfl⟩ | ⟨b, -, hb⟩ := Flow.bind_eq_goto.mp hf
        · refine Or.inl ⟨q', ?_, Remove.succeeded_goto hsucc hq'⟩
          exact Machine.advance_thr_goto hf
        · cases hb
      | ret r =>
        obtain ⟨b, hb, e⟩ := Flow.bind_eq_ret.mp hf
        cases e
        obtain rfl := Remove.succeeded_ret hsucc hb
        rw [Machine.advance_ret hf]
        refine Or.inr ⟨?_, List.mem_cons_self⟩
        show Function.update s.thr 1 none 1 = none
        rw [Function.update_self]

/-- What holds while both calls run. -/
structure Chasing (seed : BitVec 32) (s : State) (k₂ k : Key) (tid : ℤ) : Prop where
  sound : Sound seed s
  running : Running (Pair k₂ k tid) s
  state : (∃ L, Chased seed s k tid L) ∨ Struck s k tid

theorem Chasing.move {s s' : State} {tid : ℤ} {k₂ : Key} {t : ℕ} (h : Chasing seed s k₂ k tid)
    (hk : k ≠ 0#32) (hne : k₂ ≠ k) (hu : Moves (Unmoved seed (s.thr 1)) s (.move t))
    (hs : (table seed).step s (.move t) = some s') (hh : s'.halt = none) :
    Chasing seed s' k₂ k tid := by
  have hrun' := h.running.step (l := .move t) trivial hs
  refine ⟨sound_step h.sound hs, hrun', ?_⟩
  rcases h.state with ⟨L, hc⟩ | hstruck
  · obtain ⟨-, p, hp, -⟩ := Machine.step_move.mp hs
    rcases h.running t p hp with ⟨rfl, -⟩ | ⟨rfl, -⟩
    · exact Or.inl (hc.move_adder hk hne h.running hrun' hu hs hh)
    · obtain ⟨q, hq, -⟩ := hc.sees
      by_cases he : (Pc.remove k tid q).Erases
      · cases q with
        | removeKey final i1 i2 => exact Or.inr (hc.strike hq hs)
        | stamp | testKey | testMoving | removeMoving | loadSlot | testSlot | poison =>
          exact he.elim
      · exact Or.inl (hc.move_remover hk hq he hu hs hh)
  · exact Or.inr (hstruck.move h.sound h.running hk hne hs hh)

/-- Both calls begin. -/
theorem Chasing.begin {m : Cell → Word} {k₂ k : Key} {tid : ℤ} {s₁ s₂ : State}
    (hm : ∀ i, tag (buckets m i) = 0#64) (hlone : ∃ x, Lone (homeOf seed) HOP (buckets m) (entry k) x)
    (hts : finalEntry (m .timeStamp) ≠ entry k)
    (h1 : (table seed).step (idleState m) (.call 0 (.add k₂)) = some s₁)
    (h2 : (table seed).step s₁ (.call 1 (.remove k tid)) = some s₂) :
    Chasing seed s₂ k₂ k tid := by
  have hidle : Writing seed (idleState m) 0 (buckets m) := Writing.idle hm 0
  have hW := (hidle.call h1 fun h => absurd rfl h).call h2 fun _ => trivial
  have hrun : Running (Pair k₂ k tid) s₂ := by
    have h0 : Running (Pair k₂ k tid) (idleState m) := fun _ _ h => by cases h
    exact (h0.step (l := .call 0 (.add k₂)) (Or.inl ⟨rfl, rfl⟩) h1).step
      (l := .call 1 (.remove k tid)) (Or.inr ⟨rfl, rfl⟩) h2
  refine ⟨hW.inv.ok, hrun, Or.inl ⟨buckets m, hW, hlone, fun i hi => ?_, .stamp, ?_, ?_⟩⟩
  all_goals
    obtain ⟨-, -, rfl⟩ := Machine.step_call.mp h1
    obtain ⟨-, -, rfl⟩ := Machine.step_call.mp h2
  · exact absurd hi (ne_moving (hm i))
  · simp only [Function.update_self]
    rfl
  · exact hts

/-- A removal beside an `add` of another key, in a table without tags where the key is
stored once, in its window. -/
theorem removal_beside_an_add {m : Cell → Word} {k₂ k : Key} {tid : ℤ} {ts : List ℕ} {s : State}
    (hm : ∀ i, tag (buckets m i) = 0#64) (hplaced : Placed (homeOf seed) HOP 0#64 (buckets m))
    (hdist : Distinct 0#64 (buckets m)) (hk : k ≠ 0#32) (hne : k₂ ≠ k)
    (hstored : Has (buckets m) (entry k)) (hts : (m .timeStamp).toNat % 2 ^ 30 ≠ k.toNat)
    (hr : (table seed).run
      (.call 0 (.add k₂) :: .call 1 (.remove k tid) :: ts.map .move) (idleState m) = some s)
    (hq : (table seed).Along (fun s l => Moves (Unmoved seed (s.thr 1)) s l)
      (.call 0 (.add k₂) :: .call 1 (.remove k tid) :: ts.map .move) (idleState m))
    (hh : s.halt = none) (hend : s.thr 1 = none) :
    (1, (.remove k tid, true)) ∈ s.log ∧ ¬ Stored seed (buckets s.mem) k := by
  obtain ⟨s₁, h1, hr₁⟩ := Machine.run_cons.mp hr
  obtain ⟨s₂, h2, hr₂⟩ := Machine.run_cons.mp hr₁
  have hlone : ∃ x, Lone (homeOf seed) HOP (buckets m) (entry k) x := by
    obtain ⟨x, hx⟩ := hstored
    have hx0 : buckets m x ≠ 0#64 := by
      rw [hx]
      exact entry_ne_zero hk
    refine ⟨x, ⟨hx ▸ hplaced x hx0, fun i => ⟨fun hi => ?_, fun hi => hi ▸ hx⟩⟩⟩
    exact (hdist x i hx0 (hx.trans hi.symm)).symm
  have hfin : finalEntry (m .timeStamp) ≠ entry k := by
    intro he
    refine hts ?_
    rw [← toNat_finalEntry, he, toNat_entry]
  have hmoves : (table seed).Along (fun _ l => ∃ t, l = .move t) (ts.map .move) s₂ := by
    refine Machine.Along.of_forall fun l hl => ?_
    obtain ⟨t, -, rfl⟩ := List.mem_map.mp hl
    exact ⟨t, rfl⟩
  have hinv := Machine.run_inv (M := table seed) (P := fun s => s.halt = none →
    Chasing seed s k₂ k tid) ?_ (fun _ => Chasing.begin hm hlone hfin h1 h2)
    (((hq s₁ h1).2 s₂ h2).2.and hmoves) hr₂
  · rcases (hinv hh).state with ⟨L, hc⟩ | hstruck
    · obtain ⟨q, hq', -⟩ := hc.sees
      rw [hend] at hq'
      cases hq'
    · refine ⟨?_, fun ⟨_, _, hit⟩ => hstruck.gone _ hit⟩
      rcases hstruck.succeeded with ⟨q, hq', -⟩ | ⟨-, hlog⟩
      · rw [hend] at hq'
        cases hq'
      · exact hlog
  · rintro s _ s' hP ⟨hu, t, rfl⟩ hs hh'
    exact (hP (Machine.halt_of_step hs)).move hk hne hu hs hh'

/-- The `add` reserves slot 1017, the removal runs, and the `add` moves another key. -/
def spared : List ℕ := List.replicate 36 0 ++ List.replicate 71 1 ++ List.replicate 16 0

theorem placed_fullWindow : Placed (homeOf 1) HOP 0#64 (buckets (tableOf 1000 fullWindow)) :=
  placed_tableOf (by decide +kernel)

theorem distinct_fullWindow : Distinct 0#64 (buckets (tableOf 1000 fullWindow)) :=
  distinct_tableOf (by decide)

set_option maxRecDepth 10000 in
theorem one_removal_beside_an_add : ∃ s, (table 1).run (.call 0 (.add 56200813) ::
      .call 1 (.remove 14294523 0) :: spared.map .move) (idleState (tableOf 1000 fullWindow)) = some s ∧
    (1, (.remove 14294523 0, true)) ∈ s.log ∧ ¬ Stored 1 (buckets s.mem) 14294523 := by
  have h : ((table 1).run (.call 0 (.add 56200813) :: .call 1 (.remove 14294523 0) ::
      spared.map .move) (idleState (tableOf 1000 fullWindow))).any (fun s => decide (
        s.halt = none ∧ (s.thr 1).isNone)) = true := by decide +kernel
  obtain ⟨s, hs, h⟩ := (Option.any_eq_true _ _).mp h
  obtain ⟨hh, hend⟩ := of_decide_eq_true h
  have hq : (table 1).Along (fun s l => Moves (Unmoved 1 (s.thr 1)) s l) (.call 0 (.add 56200813) ::
      .call 1 (.remove 14294523 0) :: spared.map .move) (idleState (tableOf 1000 fullWindow)) := by
    decide +kernel
  exact ⟨s, hs, removal_beside_an_add (tag_tableOf 1000 fullWindow) placed_fullWindow
    distinct_fullWindow (by decide) (by decide) ⟨1002, by decide⟩ (by decide) hs hq hh
    (Option.isNone_iff_eq_none.mp hend)⟩

/-- The scan of the removal has found its key when the `add` marks the slot. -/
def missed : List ℕ :=
  List.replicate 39 0 ++ List.replicate 34 1 ++ [0] ++ List.replicate 37 1 ++ List.replicate 11 0

set_option maxRecDepth 10000 in
theorem removal_can_miss_a_moving_key : ∃ s, (table 1).run (.call 0 (.add 56200813) ::
      .call 1 (.remove 14294523 0) :: missed.map .move) (idleState (tableOf 1000 fullWindow)) = some s ∧
    (table 1).Along (Inside 1) (.call 0 (.add 56200813) :: .call 1 (.remove 14294523 0) ::
      missed.map .move) (idleState (tableOf 1000 fullWindow)) ∧
    (∀ i, tag (buckets (tableOf 1000 fullWindow) i) = 0#64) ∧
    Placed (homeOf 1) HOP 0#64 (buckets (tableOf 1000 fullWindow)) ∧
    Distinct 0#64 (buckets (tableOf 1000 fullWindow)) ∧
    buckets (tableOf 1000 fullWindow) 1002 = entry 14294523 ∧ s.halt = none ∧
    s.thr 0 = none ∧ s.thr 1 = none ∧ (1, (.remove 14294523 0, false)) ∈ s.log ∧
    Stored 1 (buckets s.mem) 14294523 := by
  have h : ((table 1).run (.call 0 (.add 56200813) :: .call 1 (.remove 14294523 0) ::
      missed.map .move) (idleState (tableOf 1000 fullWindow))).any (fun s => decide (
        s.halt = none ∧ (s.thr 0).isNone ∧ (s.thr 1).isNone ∧
        (1, (.remove 14294523 0, false)) ∈ s.log ∧
        Stored 1 (buckets s.mem) 14294523)) = true := by decide +kernel
  obtain ⟨s, hs, h⟩ := (Option.any_eq_true _ _).mp h
  obtain ⟨hh, h0, h1, hlog, hst⟩ := of_decide_eq_true h
  exact ⟨s, hs, by decide +kernel, tag_tableOf 1000 fullWindow, placed_fullWindow,
    distinct_fullWindow, by decide, hh, Option.isNone_iff_eq_none.mp h0,
    Option.isNone_iff_eq_none.mp h1, hlog, hst⟩

end LFHash
