/-
# The threads of the benchmark

The functions that the threads of `Hopscotch.cpp` run, each as the calls it makes on the
table, one after the other. All threads take the same number of indices, a quotient whose
remainder no thread takes. So together they make the calls that the output counts exactly
if the number of threads divides every size.

Key definitions: `issue`, `insertKey`, `worker`, `QUERIES`, `RunsAll`.
Key theorems: `worker_calls`, `same_keys_of_thread`, `operations_of_workers`,
`inserts_of_threads`, `threads_run_all_iff`, `remainders_are_lost`.
-/
import LFHash.Collisions
import LFHash.Table

namespace LFHash

open Loop

/-- `TOTDATA/THREADS`, line 85. -/
def DATAPERTHREAD (THREADS : ℤ) : ℤ := (TOTDATA : ℤ).tdiv THREADS

/-- `store[index]` -/
def Workload.get (w : Workload) (index : ℕ) : Option Key := Loop.get TOTDATA w.store index

/-- `for (int i = 0; i < len; i++)` over the keys that are read at `tid*len + i`, with one
call for each. -/
def issue (read : ℕ → Option Key) (op : Key → Call) (len : ℤ) (tid : ℕ) : Option (List Call) :=
  (share len.toNat tid).mapM fun i => (read i).map op

def insertKey (wx : Workload) (THREADS : ℤ) (tid : ℕ) : Option (List Call) :=
  issue wx.get Call.add (DATAPERTHREAD THREADS) tid

def lookUp (wx : Workload) (THREADS : ℤ) (tid : ℕ) : Option (List Call) :=
  issue wx.get Call.contains (DATAPERTHREAD THREADS) tid

def clearAll (wx : Workload) (THREADS : ℤ) (tid : ℕ) : Option (List Call) :=
  issue wx.get (fun key => Call.remove key tid) (DATAPERTHREAD THREADS) tid

def worker (wx : Workload) (tid : ℕ) : Option (List Call) :=
  (issue (Loop.get TOTDATA wx.lookUps) Call.contains wx.tcx tid).bind fun contains =>  -- 64
  (issue (Loop.get TOTDATA wx.removes) (fun key => Call.remove key tid) wx.trx tid).bind  -- 69
    fun removes =>
  (issue (Loop.get TOTDATA wx.adds) Call.add wx.tix tid).map fun adds =>  -- 74
    contains ++ removes ++ adds

/-- The operations that the throughput is computed from, line 146. -/
def QUERIES (contains updates : ℕ) : ℕ := contains + 2 * updates

/-- The threads together run what is reported: each array is shared out whole among them, they
make as many calls as `QUERIES` says, and they have added every key of `store` once. -/
structure RunsAll (T c u : ℕ) (wx : Workload) : Prop where
  lookUps : Shared T wx.tcx.toNat c
  removes : Shared T wx.trx.toNat u
  adds : Shared T wx.tix.toNat u
  queries : ∃ calls : ℕ → List Call, (∀ tid < T, worker wx tid = some (calls tid)) ∧
    ((List.range T).flatMap calls).length = QUERIES c u
  inserts : ∃ calls : ℕ → List Call, (∀ tid < T, insertKey wx T tid = some (calls tid)) ∧
    ((List.range T).flatMap calls).Perm ((List.range TOTDATA).map fun i => .add (wx.store i))

/-! ### The calls -/

variable {a : ℕ → Key} {op : Key → Call} {T c u n tid : ℕ} {w wx : Workload}
  {rands rands' : List ℕ}

theorem toNat_tdiv (n T : ℕ) : ((n : ℤ).tdiv (T : ℤ)).toNat = n / T := by
  rw [← Int.ofNat_tdiv, Int.toNat_natCast]

/-- Shares of at most the array's length lie inside the array. -/
theorem issue_div (hn : n ≤ TOTDATA) (ht : tid < T) :
    issue (Loop.get TOTDATA a) op ((n : ℤ).tdiv T) tid =
      some ((share (n / T) tid).map fun i => op (a i)) := by
  unfold issue
  rw [toNat_tdiv]
  refine mapM_get a op fun i hi => ?_
  calc i < tid * (n / T) + n / T := (mem_share.mp hi).2
    _ = (tid + 1) * (n / T) := (Nat.succ_mul tid (n / T)).symm
    _ ≤ T * (n / T) := Nat.mul_le_mul_right (n / T) ht
    _ ≤ n := Nat.mul_div_le n T
    _ ≤ TOTDATA := hn

/-- The calls that thread `tid` makes in `worker`. -/
theorem worker_calls (hs : Workload.Splits ⟨c, u, u, T⟩ w wx) (hc : c ≤ TOTDATA)
    (hu : u ≤ TOTDATA) (ht : tid < T) : worker wx tid = some (
      ((share (c / T) tid).map fun i => .contains (wx.lookUps i)) ++
      ((share (u / T) tid).map fun i => .remove (wx.removes i) tid) ++
      ((share (u / T) tid).map fun i => .add (wx.adds i))) := by
  unfold worker
  rw [hs.tcx, hs.trx, hs.tix]
  simp only [issue_div hc ht, issue_div hu ht, Option.bind_some, Option.map_some]

theorem issue_store (wx : Workload) (op : Key → Call) (ht : tid < T) :
    issue wx.get op (DATAPERTHREAD T) tid =
      some ((share (TOTDATA / T) tid).map fun i => op (wx.store i)) :=
  issue_div le_rfl ht

/-- A thread looks up and clears the keys that it has inserted. -/
theorem same_keys_of_thread (wx : Workload) (ht : tid < T) : ∃ keys : List Key,
    insertKey wx T tid = some (keys.map .add) ∧ lookUp wx T tid = some (keys.map .contains) ∧
    clearAll wx T tid = some (keys.map fun key => .remove key tid) := by
  have hcalls : ∀ op : Key → Call, issue wx.get op (DATAPERTHREAD T) tid =
      some (((share (TOTDATA / T) tid).map wx.store).map op) := fun op => by
    rw [issue_store wx op ht, List.map_map]
    rfl
  exact ⟨_, hcalls _, hcalls _, hcalls _⟩

/-! ### The threads together -/

variable {calls : ℕ → List Call}

theorem length_flatMap_calls {k : ℕ} (h : ∀ tid < T, (calls tid).length = k) :
    ((List.range T).flatMap calls).length = T * k := by
  have hmap : (List.range T).map (fun tid => (calls tid).length) =
      (List.range T).map fun _ => k :=
    List.map_congr_left fun tid ht => h tid (List.mem_range.mp ht)
  rw [List.length_flatMap, hmap, List.map_const', List.length_range, List.sum_replicate_nat]

/-- The calls of all workers: what each of the three quotients leaves over is not run. -/
theorem operations_of_workers (hs : Workload.Splits ⟨c, u, u, T⟩ w wx) (hc : c ≤ TOTDATA)
    (hu : u ≤ TOTDATA) (h : ∀ tid < T, worker wx tid = some (calls tid)) :
    ((List.range T).flatMap calls).length = T * (c / T) + 2 * (T * (u / T)) := by
  have hlen : ∀ tid < T, (calls tid).length = c / T + u / T + u / T := by
    intro tid ht
    have hcalls := h tid ht
    rw [worker_calls hs hc hu ht, Option.some.injEq] at hcalls
    simp [← hcalls, length_share, Nat.add_assoc]
  calc ((List.range T).flatMap calls).length = T * (c / T + u / T + u / T) :=
        length_flatMap_calls hlen
    _ = T * (c / T) + 2 * (T * (u / T)) := by
        rw [Nat.mul_add, Nat.mul_add]
        omega

theorem inserts_of_threads (h : ∀ tid < T, insertKey wx T tid = some (calls tid)) :
    (List.range T).flatMap calls =
      (List.range (T * (TOTDATA / T))).map fun i => .add (wx.store i) := by
  rw [← flatMap_map_share]
  refine List.flatMap_congr fun tid ht => ?_
  have hcalls := h tid (List.mem_range.mp ht)
  rw [insertKey, issue_store wx Call.add (List.mem_range.mp ht), Option.some.injEq] at hcalls
  exact hcalls.symm

theorem within_of_splits (hs : Workload.Splits ⟨c, u, u, T⟩ w wx) : c ≤ TOTDATA ∧ u ≤ TOTDATA := by
  have hl : 0 < c → u + c ≤ TOTDATA := hs.lookUps_within
  have hr : 0 < u → w.offset + u ≤ TOTDATA := hs.removes_within
  omega

/-- The threads run what is reported exactly if their number divides the three sizes. -/
theorem threads_run_all_iff
    (h : Workload.workSplit ⟨c, u, u, T⟩ (w, rands) = some (wx, rands')) :
    RunsAll T c u wx ↔ T ∣ c ∧ T ∣ u ∧ T ∣ TOTDATA := by
  have hs := Workload.splits_of_workSplit h
  obtain ⟨hc, hu⟩ := within_of_splits hs
  have htcx : wx.tcx.toNat = c / T := by rw [hs.tcx, toNat_tdiv]
  have htrx : wx.trx.toNat = u / T := by rw [hs.trx, toNat_tdiv]
  have htix : wx.tix.toNat = u / T := by rw [hs.tix, toNat_tdiv]
  constructor
  · rintro ⟨hlook, hrem, -, -, calls, hins, hperm⟩
    rw [htcx, shared_div_iff] at hlook
    rw [htrx, shared_div_iff] at hrem
    refine ⟨hlook, hrem, Nat.mul_div_eq_iff_dvd.mp ?_⟩
    -- as many calls as `store` has keys
    rw [inserts_of_threads hins] at hperm
    simpa only [List.length_map, List.length_range] using hperm.length_eq
  · rintro ⟨hTc, hTu, hTn⟩
    refine ⟨htcx ▸ shared_div_iff.mpr hTc, htrx ▸ shared_div_iff.mpr hTu,
      htix ▸ shared_div_iff.mpr hTu, ⟨_, fun tid ht => worker_calls hs hc hu ht, ?_⟩,
      ⟨_, fun tid ht => issue_store wx Call.add ht, ?_⟩⟩
    · rw [operations_of_workers hs hc hu fun tid ht => worker_calls hs hc hu ht,
        Nat.mul_div_cancel' hTc, Nat.mul_div_cancel' hTu, QUERIES]
    · rw [flatMap_map_share, Nat.mul_div_cancel' hTn]

/-! ### Four threads and three -/

/-- `main` with 4 threads and 1 percent of updates. -/
theorem four_threads_run_all : ∃ w wx,
    Workload.construct (fun _ => 0) (fun _ => 0) (fun _ => 0) (fun _ => 0)
      (List.range TOTDATA ++ (List.range' TOTDATA 10000 ++ [])) =
        some (w, List.range' TOTDATA 10000 ++ []) ∧
    Workload.workSplit ⟨2000000, 20000, 20000, (4 : ℕ)⟩ (w, List.range' TOTDATA 10000 ++ []) =
      some (wx, []) ∧ RunsAll 4 2000000 20000 wx := by
  obtain ⟨w, hc, hstore⟩ := Workload.construct_counting (fun _ => 0) (fun _ => 0) (fun _ => 0)
    (fun _ => 0) (List.range' TOTDATA 10000 ++ [])
  obtain ⟨hd, ho⟩ := Workload.construct_draws hc
  obtain ⟨wx, hw⟩ : ∃ wx, Workload.workSplit ⟨2000000, 20000, 20000, (4 : ℕ)⟩
      (w, List.range' TOTDATA 10000 ++ []) = some (wx, []) :=
    Workload.workSplit_counting hd hstore (by decide) (by decide) (by rw [ho]; decide)
      (by decide) []
  exact ⟨w, wx, hc, hw, (threads_run_all_iff hw).mpr (by decide)⟩

/-- `main` with 3 threads and no updates: of the 2000000 lookups that it reports 1999998 are
run. -/
theorem remainders_are_lost : ∃ w wx calls,
    Workload.construct (fun _ => 0) (fun _ => 0) (fun _ => 0) (fun _ => 0)
      (List.range TOTDATA ++ []) = some (w, []) ∧
    Workload.workSplit ⟨2000000, 0, 0, (3 : ℕ)⟩ (w, []) = some (wx, []) ∧
    (∀ tid < 3, worker wx tid = some (calls tid)) ∧
    ((List.range 3).flatMap calls).length = 1999998 ∧ QUERIES 2000000 0 = 2000000 ∧
    (¬ ∃ tid < 3, 1999999 ∈ share wx.tcx.toNat tid) ∧ ¬ RunsAll 3 2000000 0 wx := by
  obtain ⟨w, hc, -⟩ := Workload.construct_counting (fun _ => 0) (fun _ => 0) (fun _ => 0)
    (fun _ => 0) []
  obtain ⟨-, ho⟩ := Workload.construct_draws hc
  obtain ⟨wx, hw, hs⟩ := Workload.copies_end (c := ⟨2000000, 0, 0, (3 : ℕ)⟩) (w := w) []
    (by decide) (by decide) (by rw [ho]; decide) rfl
  obtain ⟨hct, hut⟩ := within_of_splits hs
  have htcx : wx.tcx.toNat = 666666 := by
    rw [hs.tcx]
    exact toNat_tdiv 2000000 3
  have hcalls : ∀ tid < 3, worker wx tid = some _ := fun tid ht => worker_calls hs hct hut ht
  have hlast : ¬ ∃ tid < 3, 1999999 ∈ share wx.tcx.toNat tid := by
    rintro ⟨tid, ht, hmem⟩
    rw [htcx, mem_share] at hmem
    omega
  refine ⟨w, wx, _, hc, hw, hcalls, operations_of_workers hs hct hut hcalls, rfl, hlast, ?_⟩
  exact fun hr => hlast ((hr.lookUps.2 1999999).mpr (by decide))

end LFHash
