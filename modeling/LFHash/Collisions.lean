/-
# Workloads that collide

A call removes the keys from `offset` on and looks up those from its own `_NoRemove` on;
then `offset` is its `_NoRemove`, whatever it was before. So the ranges of different calls
overlap: on a new object the workloads keep apart only if at most two calls in a row
remove keys and nothing is looked up after the first of them (`RemovesOnce`).

Key definitions: `removed`, `lookedUp`, `Apart`, `Clear`, `offsets`, `Spaced`, `RemovesOnce`.
Key theorems: `keysAt_disjoint`, `ranges_of_workSplits`, `apart_iff_spaced`,
`spaced_iff_removesOnce`, `workloads_apart_iff`, `workloads_collide`.
-/
import LFHash.Generated

namespace LFHash
namespace Workload

open Loop

variable {c : Split} {cs : List Split} {w w' : Workload} {rands rands' : List ℕ}
  {h : List (Split × Workload)} {store : ℕ → Key} {o a b n k : ℕ}

def removed (x : Split × Workload) : List Key := (List.range x.1.NoRemove).map x.2.removes

def lookedUp (x : Split × Workload) : List Key := (List.range x.1.NoContains).map x.2.lookUps

/-- No key is removed by two calls, and none is looked up by a call that removes it or
comes after one that does. -/
def Apart (h : List (Split × Workload)) : Prop :=
  h.Pairwise (fun x y =>
    (removed x).Disjoint (removed y) ∧ (removed x).Disjoint (lookedUp y)) ∧
  ∀ x ∈ h, (removed x).Disjoint (lookedUp x)

/-! ### Ranges of `store` -/

/-- The `n` indices from `a` on and the `k` from `b` on have none in common. -/
def Clear (a n b k : ℕ) : Prop := n = 0 ∨ k = 0 ∨ a + n ≤ b ∨ b + k ≤ a

/-- The `n` keys of `store` from `a` on. -/
def keysAt (store : ℕ → Key) (a n : ℕ) : List Key := (List.range n).map fun i => store (a + i)

theorem mem_keysAt {key : Key} : key ∈ keysAt store a n ↔ ∃ i, a ≤ i ∧ i < a + n ∧ store i = key := by
  simp only [keysAt, List.mem_map, List.mem_range]
  constructor
  · rintro ⟨i, hi, rfl⟩
    exact ⟨a + i, by omega, by omega, rfl⟩
  · rintro ⟨i, h1, h2, rfl⟩
    exact ⟨i - a, by omega, by rw [Nat.add_sub_cancel' h1]⟩

/-- In a store without repetitions, ranges of keys are disjoint exactly if the indices are. -/
theorem keysAt_disjoint (hd : ∀ i < TOTDATA, ∀ j < TOTDATA, store i = store j → i = j)
    (ha : 0 < n → a + n ≤ TOTDATA) (hb : 0 < k → b + k ≤ TOTDATA) :
    (keysAt store a n).Disjoint (keysAt store b k) ↔ Clear a n b k := by
  constructor
  · intro hdis
    by_contra hc
    simp only [Clear, not_or] at hc
    -- the larger of the two starts is in both ranges
    refine hdis (mem_keysAt.mpr ⟨max a b, ?_, ?_, rfl⟩) (mem_keysAt.mpr ⟨max a b, ?_, ?_, rfl⟩) <;>
      omega
  · intro hc key h1 h2
    obtain ⟨i, hi1, hi2, rfl⟩ := mem_keysAt.mp h1
    obtain ⟨j, hj1, hj2, he⟩ := mem_keysAt.mp h2
    have hij : j = i := hd j (by omega) i (by omega) he
    simp only [Clear] at hc
    omega

/-- The calls, each with the `offset` it starts with. -/
def offsets : ℕ → List Split → List (ℕ × Split)
  | _, [] => []
  | o, c :: cs => (o, c) :: offsets c.NoRemove cs

theorem ranges_of_workSplits : ∀ {cs : List Split} {w : Workload} {rands : List ℕ}
    {h : List (Split × Workload)}, workSplits cs (w, rands) = some (h, (w', rands')) →
    h.map (fun x => (removed x, lookedUp x)) = (offsets w.offset cs).map (fun y =>
      (keysAt w.store y.1 y.2.NoRemove, keysAt w.store y.2.NoRemove y.2.NoContains)) ∧
    ∀ y ∈ offsets w.offset cs, (0 < y.2.NoRemove → y.1 + y.2.NoRemove ≤ TOTDATA) ∧
      (0 < y.2.NoContains → y.2.NoRemove + y.2.NoContains ≤ TOTDATA)
  | [], w, rands, h, hs => by
    cases hs
    exact ⟨rfl, fun y hy => absurd hy List.not_mem_nil⟩
  | c :: cs, w, rands, h, hs => by
    obtain ⟨⟨w₁, rands₁⟩, h, h1, h2, rfl⟩ := workSplits_cons hs
    have hc := splits_of_workSplit h1
    obtain ⟨hmap, hin⟩ := ranges_of_workSplits h2
    rw [hc.offset, hc.store] at hmap
    rw [hc.offset] at hin
    have hrem : removed (c, w₁) = keysAt w.store w.offset c.NoRemove :=
      List.map_congr_left fun i hi => hc.removes i (List.mem_range.mp hi)
    have hlook : lookedUp (c, w₁) = keysAt w.store c.NoRemove c.NoContains :=
      List.map_congr_left fun i hi => hc.lookUps i (List.mem_range.mp hi)
    refine ⟨?_, fun y hy => ?_⟩
    · rw [offsets, List.map_cons, List.map_cons, hmap, hrem, hlook]
    · rcases List.mem_cons.mp hy with rfl | hy
      · exact ⟨hc.removes_within, hc.lookUps_within⟩
      · exact hin y hy

/-! ### The condition -/

/-- The ranges of the calls keep apart, the first of them starting with the offset `o`. -/
def Spaced (o : ℕ) (cs : List Split) : Prop :=
  (offsets o cs).Pairwise (fun x y =>
    Clear x.1 x.2.NoRemove y.1 y.2.NoRemove ∧
    Clear x.1 x.2.NoRemove y.2.NoRemove y.2.NoContains) ∧
  ∀ x ∈ offsets o cs, Clear x.1 x.2.NoRemove x.2.NoRemove x.2.NoContains

/-- After the first call that removes keys, no call looks any up, and none removes any but
the next one. -/
def RemovesOnce : List Split → Prop
  | [] => True
  | c :: cs =>
    if c.NoRemove = 0 then RemovesOnce cs
    else (∀ d ∈ cs, d.NoContains = 0) ∧ ∀ d ∈ cs.tail, d.NoRemove = 0

theorem apart_iff_spaced (hd : ∀ i < TOTDATA, ∀ j < TOTDATA, w.store i = w.store j → i = j)
    (hs : workSplits cs (w, rands) = some (h, (w', rands'))) :
    Apart h ↔ Spaced w.offset cs := by
  obtain ⟨hmap, hin⟩ := ranges_of_workSplits hs
  have hpair : h.Pairwise (fun x y =>
      (removed x).Disjoint (removed y) ∧ (removed x).Disjoint (lookedUp y)) ↔
      (h.map fun x => (removed x, lookedUp x)).Pairwise fun x y =>
        x.1.Disjoint y.1 ∧ x.1.Disjoint y.2 := by rw [List.pairwise_map]
  have hall : (∀ x ∈ h, (removed x).Disjoint (lookedUp x)) ↔
      ∀ x ∈ h.map fun x => (removed x, lookedUp x), x.1.Disjoint x.2 := by
    rw [List.forall_mem_map]
  rw [Apart, Spaced, hpair, hall, hmap, List.pairwise_map, List.forall_mem_map]
  refine and_congr (List.Pairwise.iff_of_mem fun hx hy => ?_) (forall₂_congr fun x hx => ?_)
  · exact and_congr (keysAt_disjoint hd (hin _ hx).1 (hin _ hy).1)
      (keysAt_disjoint hd (hin _ hx).1 (hin _ hy).2)
  · exact keysAt_disjoint hd (hin x hx).1 (hin x hx).2

/-! ### The condition on a new object -/

theorem mem_offsets : ∀ {o : ℕ} {cs : List Split} {y : ℕ × Split}, y ∈ offsets o cs → y.2 ∈ cs
  | o, c :: cs, y, hy => by
    rcases List.mem_cons.mp hy with rfl | hy
    · exact List.mem_cons_self
    · exact List.mem_cons_of_mem c (mem_offsets hy)

theorem spaced_cons : Spaced o (c :: cs) ↔
    (∀ y ∈ offsets c.NoRemove cs, Clear o c.NoRemove y.1 y.2.NoRemove ∧
      Clear o c.NoRemove y.2.NoRemove y.2.NoContains) ∧
    Clear o c.NoRemove c.NoRemove c.NoContains ∧ Spaced c.NoRemove cs := by
  rw [Spaced, Spaced, offsets, List.pairwise_cons, List.forall_mem_cons]
  tauto

/-- Calls that remove nothing collide with none that come later. -/
theorem spaced_of_idle (hc : ∀ d ∈ cs, d.NoRemove = 0) : Spaced o cs :=
  ⟨List.pairwise_of_forall_mem_list fun _ hx _ _ =>
    ⟨Or.inl (hc _ (mem_offsets hx)), Or.inl (hc _ (mem_offsets hx))⟩,
  fun _ hx => Or.inl (hc _ (mem_offsets hx))⟩

/-- Where the first `n` keys are removed, and `offset` is 0, the later calls are empty. -/
theorem idle_of_clear (hn : 0 < n) : ∀ {cs : List Split},
    (∀ y ∈ offsets 0 cs, Clear 0 n y.1 y.2.NoRemove ∧ Clear 0 n y.2.NoRemove y.2.NoContains) →
    ∀ d ∈ cs, d.NoContains = 0 ∧ d.NoRemove = 0
  | c :: cs, h, d, hd => by
    obtain ⟨h1, h2⟩ := h (0, c) List.mem_cons_self
    simp only [Clear] at h1 h2
    have hr : c.NoRemove = 0 := by omega
    rcases List.mem_cons.mp hd with rfl | hd
    · exact ⟨by omega, hr⟩
    · refine idle_of_clear hn (fun y hy => h y (List.mem_cons_of_mem _ ?_)) d hd
      rwa [hr]

/-- After a call that removes keys on a new object. -/
theorem spaced_after (hn : 0 < c.NoRemove) :
    Spaced 0 (c :: cs) ↔ (∀ d ∈ cs, d.NoContains = 0) ∧ ∀ d ∈ cs.tail, d.NoRemove = 0 := by
  have hself : Clear 0 c.NoRemove c.NoRemove c.NoContains := Or.inr (Or.inr (Or.inl (by omega)))
  rw [spaced_cons]
  cases cs with
  | nil => exact ⟨fun _ => by simp, fun _ => ⟨by simp [offsets], hself, spaced_of_idle (by simp)⟩⟩
  | cons d ds =>
    rw [spaced_cons]
    constructor
    · rintro ⟨hfirst, -, hsecond, hd, -⟩
      -- the call right after the first
      obtain ⟨-, h1⟩ := hfirst (c.NoRemove, d) List.mem_cons_self
      simp only [Clear] at h1 hd
      have hdc : d.NoContains = 0 := by omega
      have hrest : ∀ e ∈ ds, e.NoContains = 0 ∧ e.NoRemove = 0 := by
        cases ds with
        | nil => simp
        | cons e es =>
          have hmem : (d.NoRemove, e) ∈ offsets d.NoRemove (e :: es) := List.mem_cons_self
          obtain ⟨h2, h3⟩ := hfirst (d.NoRemove, e) (List.mem_cons_of_mem _ hmem)
          obtain ⟨h4, -⟩ := hsecond (d.NoRemove, e) hmem
          simp only [Clear] at h2 h3 h4
          have her : e.NoRemove = 0 := by omega
          refine List.forall_mem_cons.mpr ⟨⟨by omega, her⟩, idle_of_clear hn fun y hy => ?_⟩
          refine hfirst y (List.mem_cons_of_mem _ (List.mem_cons_of_mem _ ?_))
          rwa [her]
      exact ⟨List.forall_mem_cons.mpr ⟨hdc, fun e he => (hrest e he).1⟩, fun e he => (hrest e he).2⟩
    · rintro ⟨hc, hr⟩
      have hd : d.NoContains = 0 := hc d List.mem_cons_self
      have hds : ∀ o, ∀ y ∈ offsets o ds, y.2.NoRemove = 0 ∧ y.2.NoContains = 0 := fun o y hy =>
        ⟨hr _ (mem_offsets hy), hc _ (List.mem_cons_of_mem d (mem_offsets hy))⟩
      refine ⟨List.forall_mem_cons.mpr ⟨⟨?_, Or.inr (Or.inl hd)⟩, fun y hy => ?_⟩, hself,
        fun y hy => ?_, Or.inr (Or.inl hd), spaced_of_idle hr⟩
      · exact Or.inr (Or.inr (Or.inl (by omega)))
      · exact ⟨Or.inr (Or.inl (hds _ y hy).1), Or.inr (Or.inl (hds _ y hy).2)⟩
      · exact ⟨Or.inr (Or.inl (hds _ y hy).1), Or.inr (Or.inl (hds _ y hy).2)⟩

theorem spaced_iff_removesOnce : ∀ cs, Spaced 0 cs ↔ RemovesOnce cs
  | [] => iff_of_true (spaced_of_idle (by simp)) trivial
  | c :: cs => by
    unfold RemovesOnce
    split_ifs with hc
    · rw [← spaced_iff_removesOnce cs, spaced_cons, hc]
      exact ⟨fun h => h.2.2, fun h => ⟨fun _ _ => ⟨Or.inl rfl, Or.inl rfl⟩, Or.inl rfl, h⟩⟩
    · exact spaced_after (Nat.pos_of_ne_zero hc)

/-- The workloads of an object whose store has no repetitions keep apart exactly if their
ranges do; on a new object, exactly if they remove keys once. -/
theorem workloads_apart_iff (hd : ∀ i < TOTDATA, ∀ j < TOTDATA, w.store i = w.store j → i = j)
    (hs : workSplits cs (w, rands) = some (h, (w', rands'))) :
    (Apart h ↔ Spaced w.offset cs) ∧ (w.offset = 0 → (Apart h ↔ RemovesOnce cs)) := by
  have hiff := apart_iff_spaced hd hs
  refine ⟨hiff, fun ho => ?_⟩
  rw [hiff, ho]
  exact spaced_iff_removesOnce cs

/-! ### Two and three calls -/

theorem copies_end (rands : List ℕ) (ht : c.threads ≠ 0) (hl : c.NoRemove + c.NoContains ≤ TOTDATA)
    (hr : w.offset + c.NoRemove ≤ TOTDATA) (ha : c.NoInserts = 0) :
    ∃ w', workSplit c (w, rands) = some (w', rands) ∧ Splits c w w' := by
  have hx : times (drawKey Pool.has) (c.NoInserts / 2) ⟨w.dataset, w.adds, rands⟩ =
      some ⟨w.dataset, w.adds, rands⟩ := by
    rw [ha]
    rfl
  obtain ⟨w', hw, -⟩ := workSplit_ends ht hl hr (ha ▸ Nat.zero_le _) hx
  exact ⟨w', hw, splits_of_workSplit hw⟩

theorem removes_one (hk : k ≤ 1) (ho : w.offset ≤ 1) : ∃ w',
    workSplit ⟨k, 0, 1, 1⟩ (w, []) = some (w', []) ∧ Splits ⟨k, 0, 1, 1⟩ w w' := by
  have htot : 2 ≤ TOTDATA := by decide
  exact copies_end [] one_ne_zero (show 1 + k ≤ TOTDATA by omega)
    (show w.offset + 1 ≤ TOTDATA by omega) rfl

/-- Two calls remove a key each, and the first looks one up. -/
theorem two_workloads_apart : ∃ w h w', construct (fun _ => 0) (fun _ => 0) (fun _ => 0)
      (fun _ => 0) (List.range TOTDATA ++ []) = some (w, []) ∧
    workSplits [⟨1, 0, 1, 1⟩, ⟨0, 0, 1, 1⟩] (w, []) = some (h, (w', [])) ∧ Apart h := by
  obtain ⟨w, hc, -⟩ := construct_counting (fun _ => 0) (fun _ => 0) (fun _ => 0) (fun _ => 0) []
  obtain ⟨hd, ho⟩ := construct_draws hc
  obtain ⟨w₁, h1, hs₁⟩ := removes_one (k := 1) le_rfl (ho.trans_le zero_le_one)
  obtain ⟨w₂, h2, -⟩ := removes_one (k := 0) zero_le_one hs₁.offset.le
  have hs : workSplits [⟨1, 0, 1, 1⟩, ⟨0, 0, 1, 1⟩] (w, []) =
      some ([(⟨1, 0, 1, 1⟩, w₁), (⟨0, 0, 1, 1⟩, w₂)], (w₂, [])) := by
    simp only [workSplits, h1, h2, Option.bind_some, Option.map_some]
  exact ⟨w, _, w₂, hc, hs, ((workloads_apart_iff hd.inj hs).2 ho).mpr (by simp [RemovesOnce])⟩

/-- Three calls remove a key each and look one up: the second looks up the key that it
removes, and the third removes it again. -/
theorem workloads_collide : ∃ w w₁ w₂ w₃, construct (fun _ => 0) (fun _ => 0) (fun _ => 0)
      (fun _ => 0) (List.range TOTDATA ++ []) = some (w, []) ∧
    workSplits [⟨1, 0, 1, 1⟩, ⟨1, 0, 1, 1⟩, ⟨1, 0, 1, 1⟩] (w, []) =
      some ([(⟨1, 0, 1, 1⟩, w₁), (⟨1, 0, 1, 1⟩, w₂), (⟨1, 0, 1, 1⟩, w₃)], (w₃, [])) ∧
    w₂.removes 0 = w.store 1 ∧ w₂.lookUps 0 = w.store 1 ∧ w₃.removes 0 = w.store 1 ∧
    ¬ Apart [(⟨1, 0, 1, 1⟩, w₁), (⟨1, 0, 1, 1⟩, w₂), (⟨1, 0, 1, 1⟩, w₃)] := by
  obtain ⟨w, hc, -⟩ := construct_counting (fun _ => 0) (fun _ => 0) (fun _ => 0) (fun _ => 0) []
  obtain ⟨hd, ho⟩ := construct_draws hc
  obtain ⟨w₁, h1, hs₁⟩ := removes_one (k := 1) le_rfl (ho.trans_le zero_le_one)
  obtain ⟨w₂, h2, hs₂⟩ := removes_one (k := 1) le_rfl hs₁.offset.le
  obtain ⟨w₃, h3, hs₃⟩ := removes_one (k := 1) le_rfl hs₂.offset.le
  have hs : workSplits [⟨1, 0, 1, 1⟩, ⟨1, 0, 1, 1⟩, ⟨1, 0, 1, 1⟩] (w, []) =
      some ([(⟨1, 0, 1, 1⟩, w₁), (⟨1, 0, 1, 1⟩, w₂), (⟨1, 0, 1, 1⟩, w₃)], (w₃, [])) := by
    simp only [workSplits, h1, h2, h3, Option.bind_some, Option.map_some]
  have hrem₂ : w₂.removes 0 = w.store 1 := by
    rw [hs₂.removes 0 (by decide), hs₁.offset, hs₁.store]
  have hlook₂ : w₂.lookUps 0 = w.store 1 := by
    rw [hs₂.lookUps 0 (by decide), hs₁.store]
  have hrem₃ : w₃.removes 0 = w.store 1 := by
    rw [hs₃.removes 0 (by decide), hs₂.offset, hs₂.store, hs₁.store]
  refine ⟨w, w₁, w₂, w₃, hc, hs, hrem₂, hlook₂, hrem₃, ?_⟩
  rw [apart_iff_spaced hd.inj hs, ho, spaced_iff_removesOnce]
  simp [RemovesOnce]

end Workload
end LFHash
