/-
# The keys a workload generates

The map holds every key that has been drawn, and no key is drawn that it holds. So the
keys of `store` are all different, the new keys of a call are different from each other,
from those of `store` and from the new keys of every other call, and the map ends up with
all of these and no more.

Key definitions: `fresh`, `Gains`.
Key theorems: `gains_of_workSplits`, `draws_all`, `workSplit_ends`, `workSplit_counting`,
`generated_keys_are_fresh`.
-/
import LFHash.Workload

namespace LFHash
namespace Workload

open Loop

variable {c : Split} {cs : List Split} {w w' : Workload} {rands rands' : List ℕ}
  {h : List (Split × Workload)}

/-- The new keys that a call has written into `adds`. -/
def fresh (x : Split × Workload) : List Key := (List.range (x.1.NoInserts / 2)).map x.2.adds

/-- What calls do, from the object `w` to the object `w'`. -/
structure Gains (w : Workload) (h : List (Split × Workload)) (w' : Workload) : Prop where
  store : w'.store = w.store
  nodup : ∀ x ∈ h, (fresh x).Nodup
  drawn : ∀ x ∈ h, ∀ key ∈ fresh x, w.dataset key = none ∧ ∃ r, key = drawnKey r
  apart : h.Pairwise fun x y => (fresh x).Disjoint (fresh y)
  gained : ∀ key, (w'.dataset key).isSome ↔ (w.dataset key).isSome ∨ ∃ x ∈ h, key ∈ fresh x

theorem workSplits_cons {s s'' : Drawing} {g : List (Split × Workload)}
    (hs : workSplits (c :: cs) s = some (g, s'')) : ∃ s' h, workSplit c s = some s' ∧
      workSplits cs s' = some (h, s'') ∧ g = (c, s'.1) :: h := by
  obtain ⟨s', h1, hrest⟩ := Option.bind_eq_some_iff.mp hs
  obtain ⟨⟨h, s₁⟩, h2, he⟩ := Option.map_eq_some_iff.mp hrest
  cases he
  exact ⟨s', h, h1, h2, rfl⟩

theorem mem_fresh {key : Key} :
    key ∈ fresh (c, w') ↔ ∃ i < c.NoInserts / 2, w'.adds i = key := by
  simp [fresh]

theorem Splits.nodup_fresh (hs : Splits c w w') : (fresh (c, w')).Nodup := by
  refine List.Nodup.map_on (fun i hi j hj he => ?_) List.nodup_range
  exact hs.draws.inj i (List.mem_range.mp hi) j (List.mem_range.mp hj) he

theorem Gains.cons {w₁ : Workload} (hs : Splits c w w₁) (h₁ : Gains w₁ h w') :
    Gains w ((c, w₁) :: h) w' := by
  refine ⟨h₁.store.trans hs.store, fun x hx => ?_, fun x hx key hkey => ?_, ?_, fun key => ?_⟩
  · rcases List.mem_cons.mp hx with rfl | hx
    · exact hs.nodup_fresh
    · exact h₁.nodup x hx
  · rcases List.mem_cons.mp hx with rfl | hx
    · obtain ⟨i, hi, rfl⟩ := mem_fresh.mp hkey
      exact ⟨hs.draws.new i hi, hs.draws.drawn i hi⟩
    · obtain ⟨hno, hr⟩ := h₁.drawn x hx key hkey
      exact ⟨(hs.draws.missing hno).1, hr⟩
  · refine List.pairwise_cons.mpr ⟨fun x hx key h1 h2 => ?_, h₁.apart⟩
    -- the map has the keys of the first call when the later ones are drawn
    obtain ⟨i, hi, he⟩ := mem_fresh.mp h1
    exact (hs.draws.missing (h₁.drawn x hx key h2).1).2 i hi he
  · rw [h₁.gained key, hs.draws.gained key, ← mem_fresh, or_assoc]
    simp only [List.mem_cons, exists_eq_or_imp]

theorem gains_of_workSplits : ∀ {cs : List Split} {w : Workload} {rands : List ℕ}
    {h : List (Split × Workload)}, workSplits cs (w, rands) = some (h, (w', rands')) →
    Gains w h w'
  | [], w, rands, h, hs => by
    cases hs
    refine ⟨rfl, fun x hx => absurd hx List.not_mem_nil, fun x hx => absurd hx List.not_mem_nil,
      List.Pairwise.nil, fun key => ?_⟩
    simp
  | c :: cs, w, rands, h, hs => by
    obtain ⟨⟨w₁, rands₁⟩, h, h1, h2, rfl⟩ := workSplits_cons hs
    exact (gains_of_workSplits h2).cons (splits_of_workSplit h1)

/-! ### Calls that end -/

/-- The first `i` values have been taken, and no other. -/
structure Taken (d : Key → Option (BitVec 8)) (rs rest : List ℕ) (i : ℕ) (x : Pool) : Prop where
  rands : x.rands = rs.drop i ++ rest
  keys : ∀ j (hj : j < rs.length), j < i → x.keys j = drawnKey rs[j]
  dataset : ∀ key, (x.dataset key).isSome →
    (d key).isSome ∨ ∃ j, ∃ hj : j < rs.length, j < i ∧ drawnKey rs[j] = key

theorem Taken.step {d : Key → Option (BitVec 8)} {rs rest : List ℕ} {i : ℕ} {x : Pool}
    (h : Taken d rs rest i x) (hi : i < rs.length) (hcap : i < TOTDATA)
    (hnew : ∀ r ∈ rs, d (drawnKey r) = none) (hnd : (rs.map drawnKey).Nodup) : ∃ y,
    drawKey Pool.has i x = some y ∧ Taken d rs rest (i + 1) y := by
  have hno : x.has (drawnKey rs[i]) = false := by
    rw [Pool.has, Bool.eq_false_iff]
    intro hin
    rcases h.dataset _ hin with hd | ⟨j, hj, hlt, he⟩
    · rw [hnew _ (List.getElem_mem hi)] at hd
      cases hd
    · have hij : rs[j] = rs[i] := List.inj_on_of_nodup_map hnd (List.getElem_mem hj)
        (List.getElem_mem hi) he
      exact Nat.ne_of_lt hlt ((List.Nodup.getElem_inj_iff hnd.of_map).mp hij)
  have hrands : x.rands = rs[i] :: (rs.drop (i + 1) ++ rest) := by
    rw [h.rands, List.drop_eq_getElem_cons hi, List.cons_append]
  refine ⟨⟨Function.update x.dataset (drawnKey rs[i]) (some 12),
    Function.update x.keys i (drawnKey rs[i]), rs.drop (i + 1) ++ rest⟩, ?_, rfl,
    fun j hj hlt => ?_, fun key hin => ?_⟩
  · have hput : put TOTDATA x.keys i (drawnKey rs[i]) =
        some (Function.update x.keys i (drawnKey rs[i])) := put_eq_some.mpr ⟨hcap, rfl⟩
    simp only [drawKey, hrands, draw_first hno, Option.bind_some, hput, Option.map_some]
  · show Function.update x.keys i (drawnKey rs[i]) j = drawnKey rs[j]
    rcases Nat.lt_succ_iff_lt_or_eq.mp hlt with hlt | rfl
    · rw [Function.update_of_ne (Nat.ne_of_lt hlt)]
      exact h.keys j hj hlt
    · exact Function.update_self ..
  · change (Function.update x.dataset (drawnKey rs[i]) (some 12) key).isSome at hin
    by_cases hkey : key = drawnKey rs[i]
    · exact Or.inr ⟨i, hi, Nat.lt_succ_self i, hkey.symm⟩
    · rw [Function.update_of_ne hkey] at hin
      rcases h.dataset key hin with hd | ⟨j, hj, hlt, he⟩
      · exact Or.inl hd
      · exact Or.inr ⟨j, hj, Nat.lt_succ_of_lt hlt, he⟩

/-- Values that give new keys, all different, are all taken. -/
theorem draws_all (d : Key → Option (BitVec 8)) (keys : ℕ → Key) {rs : List ℕ} (rest : List ℕ)
    {n : ℕ} (hn : rs.length = n) (hcap : n ≤ TOTDATA) (hnew : ∀ r ∈ rs, d (drawnKey r) = none)
    (hnd : (rs.map drawnKey).Nodup) : ∃ x,
    times (drawKey Pool.has) n ⟨d, keys, rs ++ rest⟩ = some x ∧ x.rands = rest ∧
      (∀ i (hi : i < rs.length), x.keys i = drawnKey rs[i]) ∧
      ∀ key, (x.dataset key).isSome → (d key).isSome ∨ ∃ r ∈ rs, drawnKey r = key := by
  subst hn
  have hstep : ∀ i < rs.length, ∀ x : Pool, Taken d rs rest i x → ∃ y,
      drawKey Pool.has i x = some y ∧ Taken d rs rest (i + 1) y := fun i hi x hx =>
    hx.step hi (Nat.lt_of_lt_of_le hi hcap) hnew hnd
  obtain ⟨x, hx, htaken⟩ := times_total (s := ⟨d, keys, rs ++ rest⟩) hstep
    ⟨rfl, fun j hj h0 => absurd h0 (Nat.not_lt_zero j), fun key hin => Or.inl hin⟩
  refine ⟨x, hx, ?_, fun i hi => htaken.keys i hi hi, fun key hin => ?_⟩
  · rw [htaken.rands, List.drop_length, List.nil_append]
  · refine (htaken.dataset key hin).imp id ?_
    rintro ⟨j, hj, -, he⟩
    exact ⟨rs[j], List.getElem_mem hj, he⟩

theorem drawnKey_inj {i j : ℕ} (hi : i < KEYS) (hj : j < KEYS) (h : drawnKey i = drawnKey j) :
    i = j := by
  have hn := congrArg BitVec.toNat h
  simp only [drawnKey, BitVec.toNat_ofNat, KEYS] at *
  omega

/-- The constructor when `rand()` counts. -/
theorem construct_counting (lookUps store adds removes : ℕ → Key) (rest : List ℕ) : ∃ w,
    construct lookUps store adds removes (List.range TOTDATA ++ rest) = some (w, rest) ∧
      ∀ i < TOTDATA, w.store i = drawnKey i := by
  have hnd : ((List.range TOTDATA).map drawnKey).Nodup := by
    have hlt : ∀ i ∈ List.range TOTDATA, i < KEYS := fun i hi =>
      Nat.lt_trans (List.mem_range.mp hi) (by decide)
    exact List.Nodup.map_on (fun i hi j hj => drawnKey_inj (hlt i hi) (hlt j hj)) List.nodup_range
  obtain ⟨x, hx, hrands, hkeys, -⟩ :=
    draws_all (fun _ => none) store rest List.length_range le_rfl (fun _ _ => rfl) hnd
  refine ⟨⟨x.dataset, lookUps, x.keys, adds, removes, 0, 0, 0, 0⟩, ?_, fun i hi => ?_⟩
  · unfold construct
    exact Option.map_eq_some_iff.mpr ⟨x, hx, by rw [hrands]⟩
  · show x.keys i = drawnKey i
    rw [hkeys i (List.length_range.symm ▸ hi), List.getElem_range]

/-- Within the arrays a call ends once its keys are drawn. -/
theorem workSplit_ends (ht : c.threads ≠ 0) (hl : c.NoRemove + c.NoContains ≤ TOTDATA)
    (hr : w.offset + c.NoRemove ≤ TOTDATA) (ha : c.NoInserts ≤ TOTDATA) {x : Pool}
    (hx : times (drawKey Pool.has) (c.NoInserts / 2) ⟨w.dataset, w.adds, rands⟩ = some x) :
    ∃ w', workSplit c (w, rands) = some (w', x.rands) ∧ w'.dataset = x.dataset := by
  have hl' : 0 + c.NoContains ≤ TOTDATA := by omega
  have hr' : 0 + c.NoRemove ≤ TOTDATA := by omega
  have ha' : 0 + (c.NoInserts - c.NoInserts / 2) ≤ TOTDATA := by omega
  have ha'' : c.NoInserts / 2 + (c.NoInserts - c.NoInserts / 2) ≤ TOTDATA := by omega
  obtain ⟨lookUps, h1⟩ := copy_total w.store w.lookUps hl hl'
  obtain ⟨removes, h2⟩ := copy_total w.store w.removes hr hr'
  obtain ⟨adds, h3⟩ := copy_total lookUps x.keys ha' ha''
  simp only [workSplit, if_neg ht, h1, h2, drawKey_hasNonZero, hx, h3, Option.bind_some,
    Option.map_some]
  exact ⟨_, rfl, rfl⟩

/-- After the constructor and any calls: the keys of `store` are all different; those that a
call draws are different too, in range, not in `store` and not drawn by another call; and the
keys of the map are those of `store` and those drawn. -/
theorem generated_keys_are_fresh {lookUps store adds removes : ℕ → Key} {w₀ : Workload}
    {rands₀ : List ℕ} (hc : construct lookUps store adds removes rands = some (w₀, rands₀))
    (hs : workSplits cs (w₀, rands₀) = some (h, (w, rands'))) :
    (∀ i < TOTDATA, ∀ j < TOTDATA, w.store i = w.store j → i = j) ∧
    (∀ x ∈ h, (fresh x).Nodup ∧ ∀ key ∈ fresh x,
      (∀ i < TOTDATA, w.store i ≠ key) ∧ 1 ≤ key.toNat ∧ key.toNat ≤ KEYS) ∧
    h.Pairwise (fun x y => (fresh x).Disjoint (fresh y)) ∧
    ∀ key, (w.dataset key).isSome ↔
      (∃ i < TOTDATA, w.store i = key) ∨ ∃ x ∈ h, key ∈ fresh x := by
  obtain ⟨hd, -⟩ := construct_draws hc
  have hg := gains_of_workSplits hs
  rw [hg.store]
  have hmap : ∀ key, (w₀.dataset key).isSome ↔ ∃ i < TOTDATA, w₀.store i = key := by
    intro key
    rw [hd.gained key]
    simp
  refine ⟨hd.inj, fun x hx => ⟨hg.nodup x hx, fun key hkey => ?_⟩, hg.apart, fun key => ?_⟩
  · obtain ⟨hno, r, rfl⟩ := hg.drawn x hx key hkey
    exact ⟨(hd.missing hno).2, drawnKey_toNat r⟩
  · rw [hg.gained key, hmap key]

/-- The map has only keys that a counting `rand()` has given before it comes to `n`. -/
def Counts (n : ℕ) (w : Workload) : Prop :=
  ∀ key, (w.dataset key).isSome → ∃ r < n, drawnKey r = key

theorem counts_of_draws (hd : Draws TOTDATA (fun _ => none) w.dataset w.store)
    (hstore : ∀ i < TOTDATA, w.store i = drawnKey i) : Counts TOTDATA w := by
  intro key hin
  rcases (hd.gained key).mp hin with h0 | ⟨i, hi, he⟩
  · cases h0
  · exact ⟨i, hi, (hstore i hi).symm.trans he⟩

/-- A call while `rand()` goes on counting. -/
theorem Counts.call {n : ℕ} (hn : Counts n w) (hkeys : n + c.NoInserts / 2 ≤ KEYS)
    (ht : c.threads ≠ 0) (hl : c.NoRemove + c.NoContains ≤ TOTDATA)
    (hr : w.offset + c.NoRemove ≤ TOTDATA) (ha : c.NoInserts ≤ TOTDATA) (rest : List ℕ) :
    ∃ w', workSplit c (w, List.range' n (c.NoInserts / 2) ++ rest) = some (w', rest) ∧
      Counts (n + c.NoInserts / 2) w' := by
  have hmem : ∀ r ∈ List.range' n (c.NoInserts / 2), n ≤ r ∧ r < n + c.NoInserts / 2 :=
    fun r hr => List.mem_range'_1.mp hr
  have hnew : ∀ r ∈ List.range' n (c.NoInserts / 2), w.dataset (drawnKey r) = none := by
    intro r hr
    obtain ⟨hle, hlt⟩ := hmem r hr
    by_contra hin
    obtain ⟨i, hi, he⟩ := hn _ (Option.isSome_iff_ne_none.mpr hin)
    have hir : i = r := drawnKey_inj (by omega) (by omega) he
    omega
  have hnd : ((List.range' n (c.NoInserts / 2)).map drawnKey).Nodup := by
    refine List.Nodup.map_on (fun i hi j hj => drawnKey_inj ?_ ?_) List.nodup_range'
    · exact (hmem i hi).2.trans_le hkeys
    · exact (hmem j hj).2.trans_le hkeys
  obtain ⟨x, hx, hrands, -, hgained⟩ :=
    draws_all w.dataset w.adds rest List.length_range' (by omega) hnew hnd
  obtain ⟨w', hw, hdata⟩ := workSplit_ends ht hl hr ha hx
  refine ⟨w', hrands ▸ hw, fun key hin => ?_⟩
  rw [hdata] at hin
  rcases hgained key hin with hold | ⟨r, hr, he⟩
  · obtain ⟨i, hi, he⟩ := hn key hold
    exact ⟨i, by omega, he⟩
  · exact ⟨r, (hmem r hr).2, he⟩

/-- A call on the object of `construct_counting` while `rand()` goes on counting. -/
theorem workSplit_counting (hd : Draws TOTDATA (fun _ => none) w.dataset w.store)
    (hstore : ∀ i < TOTDATA, w.store i = drawnKey i) (ht : c.threads ≠ 0)
    (hl : c.NoRemove + c.NoContains ≤ TOTDATA) (hr : w.offset + c.NoRemove ≤ TOTDATA)
    (ha : c.NoInserts ≤ TOTDATA) (rest : List ℕ) : ∃ w',
    workSplit c (w, List.range' TOTDATA (c.NoInserts / 2) ++ rest) = some (w', rest) := by
  have hkeys : TOTDATA + TOTDATA ≤ KEYS := by decide
  obtain ⟨w', hw, -⟩ := (counts_of_draws hd hstore).call (by omega) ht hl hr ha rest
  exact ⟨w', hw⟩

/-- `rand()` counts, and each of two calls takes two new keys. -/
theorem four_generated_keys_are_fresh : ∃ w₀ h w,
    construct (fun _ => 0) (fun _ => 0) (fun _ => 0) (fun _ => 0)
      (List.range TOTDATA ++ List.range' TOTDATA 4) = some (w₀, List.range' TOTDATA 4) ∧
    workSplits [⟨2, 4, 1, 2⟩, ⟨1, 4, 2, 2⟩] (w₀, List.range' TOTDATA 4) = some (h, (w, [])) ∧
    (∀ x ∈ h, (fresh x).Nodup ∧ ∀ key ∈ fresh x, ∀ i < TOTDATA, w.store i ≠ key) ∧
    h.Pairwise fun x y => (fresh x).Disjoint (fresh y) := by
  obtain ⟨w₀, hc, hstore⟩ := construct_counting (fun _ => 0) (fun _ => 0) (fun _ => 0)
    (fun _ => 0) (List.range' TOTDATA 4)
  obtain ⟨hd, ho⟩ := construct_draws hc
  obtain ⟨w₁, h1, hn⟩ := (counts_of_draws hd hstore).call (c := ⟨2, 4, 1, 2⟩) (by decide)
    (by decide) (by decide) (by rw [ho]; decide) (by decide) (List.range' (TOTDATA + 2) 2)
  have ho₁ : w₁.offset = 1 := (splits_of_workSplit h1).offset
  obtain ⟨w, h2, -⟩ := hn.call (c := ⟨1, 4, 2, 2⟩) (by decide) (by decide) (by decide)
    (by rw [ho₁]; decide) (by decide) []
  have hs : workSplits [⟨2, 4, 1, 2⟩, ⟨1, 4, 2, 2⟩] (w₀, List.range' TOTDATA 4) =
      some ([(⟨2, 4, 1, 2⟩, w₁), (⟨1, 4, 2, 2⟩, w)], (w, [])) := by
    have h1' : workSplit ⟨2, 4, 1, 2⟩ (w₀, List.range' TOTDATA 4) =
        some (w₁, List.range' (TOTDATA + 2) 2) := h1
    have h2' : workSplit ⟨1, 4, 2, 2⟩ (w₁, List.range' (TOTDATA + 2) 2) = some (w, []) := h2
    simp only [workSplits, h1', h2', Option.bind_some, Option.map_some]
  obtain ⟨-, hfresh, hapart, -⟩ := generated_keys_are_fresh hc hs
  exact ⟨w₀, _, w, hc, hs, fun x hx => ⟨(hfresh x hx).1, fun key hk => ((hfresh x hx).2 key hk).1⟩,
    hapart⟩

end Workload
end LFHash
