/-
# The benchmark with one thread

`main` inserts the keys of `store`, looks them up in rounds, and has `worker` look up, remove
and add the keys of the shares. With one thread every call whose key has been inserted answers
true, in all three phases: no lookup comes after the removal of its key, no key is removed
twice, and no key is missed (`one_thread_benchmark_answers_true`). The stamps that the removals
leave change nothing of this.

Key definitions: `Call.Leaves`.
Key theorems: `members_of_added`, `true_of_order`, `worker_in_order`,
`one_thread_benchmark_answers_true`.
-/
import LFHash.Faithful
import LFHash.Phases

namespace LFHash

open Interleave Loop

variable {seed : BitVec 32} {key : Key} {log l₁ l₂ : List (ℕ × Call × Bool)} {c : Call}
  {cs C₀ : List Call} {P Q : Plain}

/-! ### Calls in order -/

/-- A key that has been added, and not removed, is in the set. -/
theorem members_of_added : ∀ {log : List (ℕ × Call × Bool)}, (∃ e ∈ log, e.2.1 = .add key) →
    (∀ e ∈ log, ∀ tid, e.2.1 ≠ .remove key tid) → members log key = true
  | [], ⟨_, he, _⟩, _ => absurd he List.not_mem_nil
  | (t, c, b) :: log, ⟨e, he, hadd⟩, hno => by
    have hrest : c ≠ .add key → members log key = true := by
      intro hc
      refine members_of_added ⟨e, ?_, hadd⟩ fun e' he' => hno e' (List.mem_cons_of_mem _ he')
      rcases List.mem_cons.mp he with rfl | hmem
      · exact absurd hadd hc
      · exact hmem
    cases c with
    | add key' =>
      by_cases hk : key = key'
      · exact if_pos hk
      · exact (if_neg hk).trans (hrest fun hc => hk (Call.add.inj hc).symm)
    | remove key' tid =>
      have hk : key ≠ key' := by
        rintro rfl
        exact hno _ List.mem_cons_self tid rfl
      exact (if_neg hk).trans (hrest fun hc => by cases hc)
    | contains key' => exact hrest fun hc => by cases hc

theorem Faithful.of_append : ∀ {l₁ : List (ℕ × Call × Bool)}, Faithful (l₁ ++ l₂) → Faithful l₂
  | [], h => h
  | _ :: _, h => of_append h.2.2

/-- After the removal of a key only an `add` is about it. -/
def Call.Leaves (c c' : Call) : Prop :=
  ∀ key tid, c = .remove key tid → c' = .add key ∨ c'.key ≠ key

theorem Call.leaves_of_ne {c c' : Call} (h : ∀ key tid, c ≠ .remove key tid) : c.Leaves c' :=
  fun key tid he => absurd he (h key tid)

theorem Call.leaves_add {c : Call} {key : Key} : c.Leaves (.add key) := by
  intro key' tid _
  by_cases hk : key = key'
  · exact Or.inl (congrArg _ hk)
  · exact Or.inr hk

/-- Calls that go before any others, in front. -/
theorem pairwise_behind {R : Call → Call → Prop} {cs' : List Call} (h : cs'.Pairwise R)
    (hcs : ∀ x ∈ cs, ∀ y, R x y) : (cs ++ cs').Pairwise R :=
  List.pairwise_append.mpr ⟨List.pairwise_of_forall_mem_list fun x hx y _ => hcs x hx y, h,
    fun x hx y _ => hcs x hx y⟩

theorem serialCall_call {r : Call × Bool} (h : serialCall seed P c = .ok (Q, r)) : r.1 = c := by
  cases c with
  | add key =>
    obtain ⟨Q', -, hr⟩ := map_ok h
    rw [← (Prod.mk.inj hr).2]
  | remove key tid | contains key => rw [← (Prod.mk.inj (Except.ok.inj h)).2]

/-- Calls in such an order, behind the `add`s of `C₀`, answer true about the keys of `C₀`, and
so do further `add`s. -/
theorem true_of_order {cs' : List Call}
    (hP : turns (serialCall seed) 0 (Plain.empty, []) cs' = .ok (P, log)) (hpre : cs' <+: C₀ ++ cs)
    (hord : (C₀ ++ cs).Pairwise Call.Leaves) (hadds : ∀ c ∈ C₀, ∃ key, c = .add key)
    (hk : ∀ c ∈ C₀ ++ cs, c.key ≠ 0#32) :
    ∀ e ∈ log, ((∀ key, e.2.1 ≠ .add key) → .add e.2.1.key ∈ C₀) → e.2.2 = true := by
  have hlog : Faithful log :=
    (Plain.mirrors_empty.turns (fun c hc => hk c (hpre.subset hc)) hP).faithful
  have hcalls := turns_calls (g := Prod.fst) (fun _ _ _ _ he => serialCall_call he) hP
  rintro ⟨t, c, b⟩ he hmem
  obtain ⟨l₁, l₂, rfl⟩ := List.append_of_mem he
  refine hlog.of_append.1 ?_
  -- the calls before this one
  have hbefore : (l₂.map fun e => e.2.1).reverse ++ [c] <+: C₀ ++ cs := by
    refine List.IsPrefix.trans ⟨(l₁.map fun e => e.2.1).reverse, ?_⟩ hpre
    rw [List.map_nil, List.append_nil, List.map_append, List.map_cons] at hcalls
    rw [← List.reverse_reverse cs', ← hcalls]
    simp
  have hleaves : ∀ e ∈ l₂, e.2.1.Leaves c := by
    intro e he'
    refine (List.pairwise_append.mp (hord.sublist hbefore.sublist)).2.2 _ ?_ c
      (List.mem_singleton.mpr rfl)
    exact List.mem_reverse.mpr (List.mem_map.mpr ⟨e, he', rfl⟩)
  have hmembers : (∀ key, c ≠ .add key) → members l₂ c.key = true := by
    intro hc
    refine members_of_added ?_ fun e he' tid heq => ?_
    · have hin : .add c.key ∈ (l₂.map fun e => e.2.1).reverse ++ [c] := by
        rcases List.prefix_or_prefix_of_prefix hbefore (List.prefix_append C₀ cs) with h | h
        · obtain ⟨key, rfl⟩ := hadds c (h.subset (List.mem_append_right _ List.mem_cons_self))
          exact absurd rfl (hc key)
        · exact h.subset (hmem hc)
      rcases List.mem_append.mp hin with h | h
      · obtain ⟨e, he', heq⟩ := List.mem_map.mp (List.mem_reverse.mp h)
        exact ⟨e, he', heq⟩
      · exact absurd (List.mem_singleton.mp h).symm (hc _)
    · rcases hleaves e he' _ tid heq with h | h
      · exact hc _ h
      · exact h rfl
  cases c with
  | add key => rfl
  | remove key tid | contains key => exact hmembers fun _ h => by cases h

/-! ### The calls of a worker -/

variable {c u T tid : ℕ} {w wx wx' : Workload} {rands rest rest' : List ℕ}

/-- The second half of `adds` is the beginning of `lookUps`. -/
theorem Workload.adds_of_workSplit {c : Split} (h : workSplit c (w, rands) = some (wx, rest)) {i : ℕ}
    (h1 : c.NoInserts / 2 ≤ i) (h2 : i < c.NoInserts) :
    wx.adds i = wx.lookUps (i - c.NoInserts / 2) := by
  unfold workSplit at h
  split_ifs at h
  obtain ⟨lookUps, -, h⟩ := Option.bind_eq_some_iff.mp h
  obtain ⟨removes, -, h⟩ := Option.bind_eq_some_iff.mp h
  obtain ⟨x, -, h⟩ := Option.bind_eq_some_iff.mp h
  obtain ⟨adds, ha, he⟩ := Option.map_eq_some_iff.mp h
  cases he
  show adds i = lookUps _
  rw [copy_apply ha i, if_pos ⟨h1, by omega⟩, Nat.zero_add]

theorem nodup_share (len tid : ℕ) : (share len tid).Nodup :=
  List.nodup_range.map fun _ _ h => Nat.add_left_cancel h

theorem removes_inj (hd : Draws TOTDATA (fun _ => none) w.dataset w.store)
    (hs : Workload.Splits ⟨c, u, u, T⟩ w wx) {i j : ℕ} (hi : i < u) (hj : j < u)
    (he : wx.removes i = wx.removes j) : i = j := by
  have hwithin : w.offset + u ≤ TOTDATA := hs.removes_within (Nat.zero_lt_of_lt hi)
  rw [hs.removes i hi, hs.removes j hj] at he
  have hsame := hd.inj _ (by omega) _ (by omega) he
  omega

/-- A worker removes no key twice, and looks none up that it has removed. -/
theorem worker_in_order (hd : Draws TOTDATA (fun _ => none) w.dataset w.store)
    (hs : Workload.Splits ⟨c, u, u, T⟩ w wx) (ht : tid < T) {cs : List Call}
    (h : worker wx tid = some cs) : cs.Pairwise Call.Leaves := by
  obtain ⟨hc, hu⟩ := within_of_splits hs
  rw [worker_calls hs hc hu ht, Option.some.injEq] at h
  subst h
  rw [List.append_assoc]
  refine pairwise_behind (List.pairwise_append.mpr ⟨?_, ?_, ?_⟩) fun x hx y =>
    Call.leaves_of_ne fun key tid' he => ?_
  · refine List.pairwise_map.mpr ((nodup_share _ _).imp_of_mem fun hi hj hij => ?_)
    intro key tid' he
    obtain ⟨rfl, -⟩ := Call.remove.inj he
    exact Or.inr fun he => hij (removes_inj hd hs (lt_of_mem_share ht hi)
      (lt_of_mem_share ht hj) he.symm)
  · exact List.pairwise_map.mpr ((nodup_share _ _).imp fun _ => Call.leaves_add)
  · intro x _ y hy
    obtain ⟨i, -, rfl⟩ := List.mem_map.mp hy
    exact Call.leaves_add
  · obtain ⟨i, -, rfl⟩ := List.mem_map.mp hx
    cases he

/-- A worker looks up and removes keys of `store` only. -/
theorem worker_store (hs : Workload.Splits ⟨c, u, u, T⟩ w wx) (ht : tid < T) {cs : List Call}
    (h : worker wx tid = some cs) :
    ∀ x ∈ cs, (∃ i < TOTDATA, x.key = w.store i) ∨ ∃ i < u, x = .add (wx.adds i) := by
  obtain ⟨hc, hu⟩ := within_of_splits hs
  rw [worker_calls hs hc hu ht, Option.some.injEq] at h
  subst h
  intro x hx
  simp only [List.mem_append, List.mem_map] at hx
  rcases hx with (⟨i, hi, rfl⟩ | ⟨i, hi, rfl⟩) | ⟨i, hi, rfl⟩ <;> have hlt := lt_of_mem_share ht hi
  · have hwithin : u + c ≤ TOTDATA := hs.lookUps_within (Nat.zero_lt_of_lt hlt)
    exact Or.inl ⟨u + i, by omega, hs.lookUps i hlt⟩
  · have hwithin : w.offset + u ≤ TOTDATA := hs.removes_within (Nat.zero_lt_of_lt hlt)
    exact Or.inl ⟨w.offset + i, by omega, hs.removes i hlt⟩
  · exact Or.inr ⟨i, hlt, rfl⟩

theorem store_ne_zero (hd : Draws TOTDATA (fun _ => none) w.dataset w.store) {i : ℕ}
    (hi : i < TOTDATA) : w.store i ≠ 0#32 := by
  obtain ⟨r, hkey⟩ := hd.drawn i hi
  rw [hkey]
  exact drawnKey_ne_zero r

/-- A worker's keys are not 0: those of `store` and the fresh ones are drawn above 0. -/
theorem worker_keys (hd : Draws TOTDATA (fun _ => none) w.dataset w.store)
    (hsplit : Workload.workSplit ⟨c, u, u, T⟩ (w, rands) = some (wx, rest)) (huc : u ≤ 2 * c)
    (ht : tid < T) {cs : List Call} (h : worker wx tid = some cs) : ∀ x ∈ cs, x.key ≠ 0#32 := by
  have hs := Workload.splits_of_workSplit hsplit
  intro x hx
  rcases worker_store hs ht h x hx with ⟨i, hi, hkey⟩ | ⟨i, hi, rfl⟩
  · rw [hkey]
    exact store_ne_zero hd hi
  · show wx.adds i ≠ 0#32
    by_cases hhalf : i < u / 2
    · obtain ⟨r, hkey⟩ := hs.draws.drawn i hhalf
      rw [hkey]
      exact drawnKey_ne_zero r
    · have hlt : i - u / 2 < c := by omega
      have hadds : wx.adds i = wx.lookUps (i - u / 2) :=
        Workload.adds_of_workSplit hsplit (Nat.le_of_not_lt hhalf) hi
      have hlook : wx.lookUps (i - u / 2) = w.store (u + (i - u / 2)) := hs.lookUps _ hlt
      have hwithin : u + c ≤ TOTDATA := hs.lookUps_within (Nat.zero_lt_of_lt hlt)
      rw [hadds, hlook]
      exact store_ne_zero hd (by omega)

/-! ### The phases -/

variable {ls ls₀ : List (Label Call)} {s s₀ s₁ : State} {lookUps store adds removes : ℕ → Key}

theorem begun_eq_callsBy (hl : ∀ l ∈ ls, l.thread = 0) : begun ls = callsBy 0 ls := by
  refine List.filterMap_congr fun l h => ?_
  cases l with
  | call t c =>
    obtain rfl : t = 0 := hl _ h
    exact (if_pos rfl).symm
  | move t => rfl

theorem adds_of_inserting {t : ℕ} (h : ∀ l ∈ ls, Inserting l) :
    ∀ x ∈ callsBy t ls, ∃ key, x = .add key ∧ key ≠ 0#32 := by
  intro x hx
  have hI := h _ (mem_callsBy.mp hx)
  cases x with
  | add key => exact ⟨key, rfl, hI⟩
  | remove key tid | contains key => exact hI.elim

/-- What a thread looks up is in `store`. -/
theorem store_of_looksUp {t : ℕ} (h : LooksUp T wx t key) : ∃ i < TOTDATA, key = wx.store i := by
  obtain ⟨ht, cs, hcs, hmem⟩ := h
  rw [lookUp, issue_store wx Call.contains ht, Option.some.injEq] at hcs
  rw [← hcs] at hmem
  obtain ⟨i, hi, he⟩ := List.mem_map.mp hmem
  exact ⟨i, lt_of_mem_share ht hi, (Call.contains.inj he).symm⟩

/-- The rounds of lookups are a run. -/
theorem Rounds.exists_run (h : Rounds seed T wx s₀ s) : ∃ ls, (table seed).run ls s₀ = some s ∧
    (∀ l ∈ ls, l.thread < T) ∧
    ∀ t c, .call t c ∈ ls → ∃ key, c = .contains key ∧ LooksUp T wx t key := by
  induction h with
  | start => exact ⟨[], rfl, fun _ h => absurd h List.not_mem_nil, fun _ _ h =>
      absurd h List.not_mem_nil⟩
  | @round ls s s' _ hb _ ih =>
    obtain ⟨ls', hr, ht, hc⟩ := ih
    refine ⟨ls' ++ ls, by rw [Machine.run_append, hr]; exact hb.run, fun l hl => ?_, fun t c hl => ?_⟩
    · exact (List.mem_append.mp hl).elim (ht l) (hb.threads l)
    · exact (List.mem_append.mp hl).elim (hc t c) (hb.looks t c)

/-- One thread inserts every key of `store`. -/
theorem add_mem_of_all {i : ℕ} (h : insertKey wx 1 0 = some cs) (hi : i < TOTDATA) :
    .add (wx.store i) ∈ cs := by
  have hcalls : insertKey wx (1 : ℕ) 0 = _ := issue_store wx Call.add Nat.one_pos
  rw [Nat.cast_one, h, Option.some.injEq] at hcalls
  rw [hcalls]
  refine List.mem_map.mpr ⟨i, mem_share.mpr ⟨?_, ?_⟩, rfl⟩
  · rw [Nat.zero_mul]
    exact Nat.zero_le i
  · rw [Nat.zero_mul, Nat.zero_add, Nat.div_one]
    exact hi

/-- With one thread, in every run of the benchmark up to its end or an exit, and for whatever
keys `rand()` draws: every call whose key has been inserted answers true, and all calls do if
all of `store` has been inserted. -/
theorem one_thread_benchmark_answers_true
    (hc : Workload.construct lookUps store adds removes rands = some (wx, rest))
    (hsplit : Workload.workSplit ⟨c, u, u, (1 : ℕ)⟩ (wx, rest) = some (wx', rest'))
    (huc : u ≤ 2 * c) (hins : Begins seed 1 (insertKey wx 1) ls₀ fresh s₀)
    (hr : Rounds seed 1 wx s₀ s₁) (hmix : Begins seed 1 (worker wx') ls s₁ s) :
    (∀ e ∈ s.log, .call 0 (.add e.2.1.key) ∈ ls₀ → e.2.2 = true) ∧
      (insertKey wx 1 0 = some (callsBy 0 ls₀) → ∀ e ∈ s.log, e.2.2 = true) := by
  obtain ⟨hd, -⟩ := Workload.construct_draws hc
  have hs := Workload.splits_of_workSplit hsplit
  obtain ⟨lsR, hrunR, hthrR, hcallsR⟩ := hr.exists_run
  obtain ⟨restM, hworker⟩ := hmix.calls 0 Nat.one_pos
  have hzero : ∀ {ls : List (Label Call)}, (∀ l ∈ ls, l.thread < 1) → ∀ l ∈ ls, l.thread = 0 :=
    fun h l hl => Nat.lt_one_iff.mp (h l hl)
  -- the run, and its calls
  have hrun : (table seed).run (ls₀ ++ (lsR ++ ls)) fresh = some s := by
    rw [Machine.run_append, hins.run, Option.bind_some, Machine.run_append, hrunR]
    exact hmix.run
  have hl : ∀ l ∈ ls₀ ++ (lsR ++ ls), l.thread = 0 := by
    simp only [List.mem_append]
    rintro l (h | h | h)
    · exact hzero hins.threads l h
    · exact hzero hthrR l h
    · exact hzero hmix.threads l h
  have hcalls : begun (ls₀ ++ (lsR ++ ls)) = callsBy 0 ls₀ ++ (begun lsR ++ callsBy 0 ls) := by
    rw [begun_append, begun_append, begun_eq_callsBy (hzero hins.threads),
      begun_eq_callsBy (hzero hmix.threads)]
  have hadds := adds_of_inserting (t := 0) (inserting_of_begins hc hins)
  have hlooks : ∀ x ∈ begun lsR, ∃ key, x = .contains key ∧ LooksUp 1 wx 0 key := by
    intro x hx
    rw [begun_eq_callsBy (hzero hthrR)] at hx
    exact hcallsR 0 x (mem_callsBy.mp hx)
  have hbegun : callsBy 0 ls ⊆ callsBy 0 ls ++ restM := List.subset_append_left _ _
  have hord : (callsBy 0 ls₀ ++ (begun lsR ++ callsBy 0 ls)).Pairwise Call.Leaves := by
    refine pairwise_behind (pairwise_behind ?_ fun x hx y => ?_) fun x hx y => ?_
    · exact (worker_in_order hd hs Nat.one_pos hworker).sublist (List.sublist_append_left _ _)
    · obtain ⟨key', rfl, -⟩ := hlooks x hx
      exact Call.leaves_of_ne fun _ _ he => by cases he
    · obtain ⟨key', rfl, -⟩ := hadds x hx
      exact Call.leaves_of_ne fun _ _ he => by cases he
  have hk : ∀ x ∈ callsBy 0 ls₀ ++ (begun lsR ++ callsBy 0 ls), x.key ≠ 0#32 := by
    intro x hx
    rcases List.mem_append.mp hx with h | h
    · obtain ⟨key, rfl, hk⟩ := hadds x h
      exact hk
    · rcases List.mem_append.mp h with h | h
      · obtain ⟨key, rfl, hkey⟩ := hlooks x h
        obtain ⟨i, hi, rfl⟩ := store_of_looksUp hkey
        exact store_ne_zero hd hi
      · exact worker_keys hd hsplit huc Nat.one_pos hworker x (hbegun h)
  obtain ⟨cs, P, hpre, hP⟩ := (stands_run hrun hl).answered
  rw [hcalls] at hpre
  have htrue := true_of_order hP hpre hord (fun x hx => (hadds x hx).imp fun _ h => h.1) hk
  refine ⟨fun e he hadd => htrue e he fun _ => mem_callsBy.mpr hadd,
    fun hall e he => htrue e he fun hne => ?_⟩
  -- a call that is no `add` is about a key of `store`
  have hmap := turns_calls (g := Prod.fst) (fun _ _ _ _ hx => serialCall_call hx) hP
  rw [List.map_nil, List.append_nil] at hmap
  have hcall : e.2.1 ∈ cs := by
    rw [← List.mem_reverse, ← hmap]
    exact List.mem_map.mpr ⟨e, he, rfl⟩
  have hkey : ∃ i < TOTDATA, e.2.1.key = wx.store i := by
    rcases List.mem_append.mp (hpre.subset hcall) with h | h
    · obtain ⟨key, hadd, -⟩ := hadds _ h
      exact absurd hadd (hne key)
    · rcases List.mem_append.mp h with h | h
      · obtain ⟨key, hlook, hkey⟩ := hlooks _ h
        rw [hlook]
        exact store_of_looksUp hkey
      · rcases worker_store hs Nat.one_pos hworker _ (hbegun h) with hst | ⟨i, -, hadd⟩
        · exact hst
        · exact absurd hadd (hne _)
  obtain ⟨i, hi, hst⟩ := hkey
  rw [hst]
  exact add_mem_of_all hall hi

/-- The inserts of the first two keys. -/
def firstInserts : List (Label Call) := alone 0 (.add 1) 23 ++ alone 0 (.add 2) 23

/-- A worker that looks one key up, removes the other, and adds the first one again. -/
def oneWorker : List (Label Call) :=
  alone 0 (.contains 2) 17 ++ alone 0 (.remove 1 0) 70 ++ alone 0 (.add 2) 17

set_option maxRecDepth 10000 in
theorem one_worker_answers_true : ∃ s₀ s, (table 1).run firstInserts fresh = some s₀ ∧
    (table 1).run oneWorker s₀ = some s ∧ s.log.length = 5 ∧
    ∀ e ∈ s.log, .call 0 (.add e.2.1.key) ∈ firstInserts → e.2.2 = true := by
  obtain ⟨w, hc, hstore⟩ := Workload.construct_counting (fun _ => 0) (fun _ => 0) (fun _ => 0)
    (fun _ => 0) []
  obtain ⟨hd, ho⟩ := Workload.construct_draws hc
  obtain ⟨wx, hw⟩ : ∃ wx, Workload.workSplit ⟨1, 1, 1, (1 : ℕ)⟩ (w, []) = some (wx, []) :=
    Workload.workSplit_counting hd hstore (by decide) (by decide) (by rw [ho]; decide)
      (by decide) []
  have hs := Workload.splits_of_workSplit hw
  have hrun : ((table 1).run firstInserts fresh).any (fun s =>
      ((table 1).run oneWorker s).any fun s' => decide (s'.log.length = 5)) = true := by
    decide +kernel
  obtain ⟨s₀, hs₀, h⟩ := (Option.any_eq_true _ _).mp hrun
  obtain ⟨s, hs₁, hlen⟩ := (Option.any_eq_true _ _).mp h
  have h0 : w.store 0 = 1 := (hstore 0 (by decide)).trans (by decide)
  have h1 : w.store 1 = 2 := (hstore 1 (by decide)).trans (by decide)
  have hins : ∀ tid < 1, ∃ rest, insertKey w 1 tid = some (callsBy tid firstInserts ++ rest) := by
    intro tid ht
    obtain rfl := Nat.lt_one_iff.mp ht
    obtain ⟨n, hn⟩ : ∃ n, TOTDATA / 1 = n + 2 := ⟨TOTDATA / 1 - 2, by decide⟩
    have hcalls : insertKey w (1 : ℕ) 0 = _ := issue_store w Call.add Nat.one_pos
    rw [hn, share, List.range_succ_eq_map, List.range_succ_eq_map] at hcalls
    simp only [List.map_cons, Nat.zero_mul, Nat.zero_add, Nat.succ_eq_add_one, h0, h1] at hcalls
    have hfirst : callsBy 0 firstInserts = [.add 1, .add 2] := by decide
    rw [hfirst]
    exact ⟨_, hcalls⟩
  have hworker : ∀ tid < 1, ∃ rest, worker wx tid = some (callsBy tid oneWorker ++ rest) := by
    intro tid ht
    obtain rfl := Nat.lt_one_iff.mp ht
    have hlook : wx.lookUps 0 = 2 := (hs.lookUps 0 Nat.one_pos).trans h1
    have hrem : wx.removes 0 = 1 := by
      rw [hs.removes 0 Nat.one_pos, ho]
      exact h0
    have hadd : wx.adds 0 = 2 :=
      (Workload.adds_of_workSplit hw (Nat.le_refl 0) Nat.one_pos).trans hlook
    have hcalls := worker_calls hs (by decide) (by decide) Nat.one_pos
    have hshare : share (1 / 1) 0 = [0] := by decide
    rw [hshare, List.map_singleton, List.map_singleton, List.map_singleton, hlook, hrem,
      hadd] at hcalls
    exact ⟨[], hcalls⟩
  exact ⟨s₀, s, hs₀, hs₁, of_decide_eq_true hlen, (one_thread_benchmark_answers_true hc hw
    (by decide) ⟨hs₀, by decide, hins⟩ .start ⟨hs₁, by decide, hworker⟩).1⟩

end LFHash
