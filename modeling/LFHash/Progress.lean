/-
# How long a call can take

Whatever the other threads do, and however often a weak compare-exchange fails for no
reason, `contains` makes at most 17 accesses and `Remove` at most 88. `add` makes at most
6104, and three more for each time its compare-exchange of line 191 fails: every
other failed access brings it nearer to its end. Line 191 is the only place where
the code can wait for another thread.

The measure is `Pc.work`; it does not look at the table.

Key definitions: `Pc.work`, `Call.bound`, `Pc.losesMark`.
Key theorems: `Pc.work_next`, `accesses_bounded`.
-/
import LFHash.Charge
import LFHash.Survival

namespace LFHash

open Interleave

variable {seed : BitVec 32} {key : Key}

/-! ### The measure -/

def Insert.work : Insert → ℕ
  | .first _ _ p => 2 * (HOP - p) + HOP + 3
  | .claim _ _ p => 2 * (HOP - p) + HOP + 2
  | .second _ p => HOP - p + 1
  | .reuse _ _ => 1

/-- The candidates left, and seven accesses for the one that is taken. -/
def Relocate.work (Loc : ℕ) : Relocate → ℕ
  | .getInd r _ | .getReplace r => Loc - r + 7
  | .loadExp r => Loc - r + 6
  | .mark r _ => Loc - r + 5
  | .loadDest _ => 5
  | .loadFin _ _ => 4
  | .copy _ _ _ => 3
  | .loadMark _ => 2
  | .overwrite _ _ => 1

/-- From line 157 on, with the slot `i` reserved: one relocation for each slot that is too
far up. -/
def settleWork (home i : ℕ) : ℕ := 53 + (HOP + 7) * (i - (home + HOP))

def Add.work (home : ℕ) : Add → ℕ
  | .contains s => HOP + 1 - s.p + (2 * ADD_RANGE + settleWork home (home + ADD_RANGE) + 2)
  | .probe _ _ n => 2 * (ADD_RANGE + 1 - n) + settleWork home (home + ADD_RANGE) + 2
  | .reserve _ _ n => 2 * (ADD_RANGE + 1 - n) + settleWork home (home + ADD_RANGE) + 1
  | .relocate Loc q => settleWork home (Loc - 1) + q.work Loc
  | .loadExp _ => 53
  | .release _ _ => 52
  | .insert q => q.work

def Remove.work : Remove → ℕ
  | .stamp => 5 * (HOP + 1) + 3
  | .testKey _ s => 3 * (HOP + 1) + 2 + 2 * (HOP + 1 - s.p)
  | .testMoving _ s => 3 * (HOP + 1) + 2 + 2 * (HOP - s.p) + 1
  | .removeKey _ _ _ => 3 * (HOP + 1) + 2
  | .removeMoving _ _ _ => 3 * (HOP + 1) + 1
  | .loadSlot p _ => 3 * (HOP + 1 - p)
  | .testSlot p _ _ => 3 * (HOP - p) + 2
  | .poison p _ _ => 3 * (HOP - p) + 1

/-- How many accesses a call can still make, failures of line 191 apart. -/
def Pc.work (seed : BitVec 32) : Pc → ℕ
  | .add key p => p.work (home seed key)
  | .remove _ _ p => p.work
  | .contains _ s => HOP + 1 - s.p

/-- How many accesses a call can make, failures of line 191 apart. -/
def Call.bound : Call → ℕ
  | .contains _ => HOP + 1
  | .remove _ _ => 5 * (HOP + 1) + 3
  | .add _ => (HOP + 1) + (2 * ADD_RANGE + 2) + (HOP + 7) * (ADD_RANGE - HOP) + 53

example : Call.bound (.add 1) = 6104 ∧ Call.bound (.remove 1 0) = 88 := by decide

/-- The compare-exchange of line 191 has failed. -/
def Pc.losesMark (p : Pc) (r : Ans) : Bool :=
  match p with
  | .add _ (.relocate _ (.mark _ _)) => !r.ok
  | .add _ (.relocate _ (.getInd _ _)) | .add _ (.relocate _ (.getReplace _))
  | .add _ (.relocate _ (.loadExp _)) | .add _ (.relocate _ (.loadDest _))
  | .add _ (.relocate _ (.loadFin _ _)) | .add _ (.relocate _ (.copy _ _ _))
  | .add _ (.relocate _ (.loadMark _)) | .add _ (.relocate _ (.overwrite _ _))
  | .add _ (.contains _) | .add _ (.probe _ _ _) | .add _ (.reserve _ _ _) | .add _ (.loadExp _)
  | .add _ (.release _ _) | .add _ (.insert _) | .remove _ _ _ | .contains _ _ => false

/-! ### One access -/

theorem scan_work {s s' : Scan} {r : Ans} (hf : (contains seed key s).2 r = .goto s') :
    HOP + 1 - s'.p + 1 ≤ HOP + 1 - s.p := by
  simp only [contains] at hf
  by_cases hp : s.p < HOP
  · rw [if_pos hp] at hf
    cases hf
    show HOP + 1 - (s.p + 1) + 1 ≤ HOP + 1 - s.p
    omega
  · rw [if_neg hp] at hf
    cases hf

theorem Insert.work_nextFirst (tg : Word) (c : Option Word) (p : ℕ) :
    (Insert.nextFirst tg c p).work + 1 ≤ 2 * (HOP - p) + HOP + 2 := by
  unfold Insert.nextFirst
  by_cases hp : p < HOP
  · rw [if_pos hp]
    show 2 * (HOP - (p + 1)) + HOP + 3 + 1 ≤ 2 * (HOP - p) + HOP + 2
    omega
  · rw [if_neg hp]
    show HOP - 0 + 1 + 1 ≤ 2 * (HOP - p) + HOP + 2
    omega

theorem Insert.work_next {b : ℕ} {q q' : Insert} {r : Ans} (hq : q.Ok)
    (hf : (bucketInsert b key q).2 r = .goto q') : q'.work + 1 ≤ q.work := by
  cases q with
  | first tg c p =>
    have hnext := Insert.work_nextFirst tg c p
    simp only [bucketInsert, isRemoved_eq_false, Bool.false_eq_true, if_false] at hf
    split_ifs at hf <;> cases hf
    · exact Nat.le_refl _
    · exact Nat.le_trans hnext (Nat.le_succ _)
  | claim tg c p =>
    simp only [bucketInsert] at hf
    split_ifs at hf
    cases hf
    exact Insert.work_nextFirst ..
  | second c p =>
    simp only [bucketInsert, isRemoved_eq_false, Bool.false_eq_true, if_false] at hf
    split_ifs at hf with hp
    cases hf
    show HOP - (p + 1) + 1 + 1 ≤ HOP - p + 1
    omega
  | reuse slot p => exact hq.elim

/-- A failure of line 191 sends `Relocate` back by two accesses. -/
theorem Relocate.work_next (key : Key) {Loc : ℕ} {e : Word} {q q' : Relocate} {r : Ans} (hq : q.Ok Loc)
    (hf : (relocate seed Loc e q).2 r = .goto q') :
    q'.work Loc + 1 ≤ q.work Loc + if (Pc.add key (.relocate Loc q)).losesMark r then 3 else 0 := by
  cases q with
  | getInd i ind =>
    rcases seek_eq_goto.mp hf with ⟨rfl, -, hlt⟩ | ⟨rfl, -, -⟩
    · show Loc - (i + 1) + 7 + 1 ≤ Loc - i + 7
      omega
    · exact Nat.le_refl _
  | getReplace i =>
    rcases seek_eq_goto.mp hf with ⟨rfl, -, hlt⟩ | ⟨rfl, -, -⟩
    · show Loc - (i + 1) + 7 + 1 ≤ Loc - i + 7
      omega
    · exact Nat.le_refl _
  | mark i Exp =>
    obtain ⟨-, hlt, -⟩ := hq
    simp only [relocate] at hf
    by_cases hok : r.ok = true
    · rw [if_pos hok] at hf
      cases hf
      show 5 + 1 ≤ Loc - i + 5 + _
      omega
    · rw [if_neg hok] at hf
      cases hf
      have hlost : (Pc.add key (.relocate Loc (.mark i Exp))).losesMark r = true := by
        simpa [Pc.losesMark] using hok
      rw [if_pos hlost]
      exact Nat.le_refl _
  | loadExp i | loadDest i | loadFin i Dest | copy i Dest Fin | loadMark i =>
    cases hf
    exact Nat.le_refl _
  | overwrite i Exp => cases hf

theorem settleWork_mono {b i j : ℕ} (h : i ≤ j) : settleWork b i ≤ settleWork b j := by
  unfold settleWork
  apply Nat.add_le_add_left
  apply Nat.mul_le_mul_left
  omega

/-- A relocation begins with 16 candidates. -/
theorem Add.work_settle (seed : BitVec 32) (key : Key) {i : ℕ} (h1 : home seed key ≤ i) (h2 : i ≤ home seed key + ADD_RANGE) :
    (Add.settle seed key i).work (home seed key) ≤ settleWork (home seed key) i := by
  have hh := home_lt seed key
  have hi : i < 2 ^ 32 := by
    simp only [TotalBuckets, ADD_RANGE] at *
    omega
  unfold Add.settle
  rw [sub32_of_le h1 hi]
  by_cases hfar : HOP < i - home seed key
  · rw [if_pos hfar]
    show settleWork (home seed key) (i - 1) + (i - sub32 i HOP + 7) ≤ settleWork (home seed key) i
    rw [sub32_of_le (by omega) hi]
    simp only [settleWork, HOP] at *
    omega
  · rw [if_neg hfar]
    exact Nat.le_add_right _ _

theorem Add.work_probeNext (seed : BitVec 32) (key : Key) (tg : Word) {i n : ℕ} (hn : n ≤ ADD_RANGE) :
    (Add.probeNext tg i n).work (home seed key) ≤
      2 * (ADD_RANGE - n) + settleWork (home seed key) (home seed key + ADD_RANGE) + 2 := by
  unfold Add.probeNext
  by_cases hlt : n < ADD_RANGE
  · rw [if_pos hlt]
    show 2 * (ADD_RANGE + 1 - (n + 1)) + _ + 2 ≤ _
    omega
  · rw [if_neg hlt]
    show 2 * (ADD_RANGE + 1 - (n + 1)) + _ + 1 ≤ _
    omega

theorem Add.work_next {p p' : Add} {r : Ans} (hp : p.Ok seed key)
    (hf : (add seed key p).2 r = .goto p') :
    p'.work (home seed key) + 1 ≤
      p.work (home seed key) + if (Pc.add key p).losesMark r then 3 else 0 := by
  cases p with
  | contains s =>
    rcases Flow.bind_eq_goto.mp hf with ⟨s', hs, rfl⟩ | ⟨b, -, hb⟩
    · have hscan := scan_work hs
      show HOP + 1 - s'.p + _ + 1 ≤ HOP + 1 - s.p + _ + 0
      omega
    · have hs : s.p ≤ HOP := hp
      split_ifs at hb
      cases hb
      have hnext := work_probeNext seed key 0#64 (i := home seed key)
        (Nat.zero_le ADD_RANGE)
      show _ + 1 ≤ HOP + 1 - s.p + _ + 0
      omega
  | probe tg i n =>
    obtain ⟨-, -, hn⟩ := hp
    have hnext := work_probeNext seed key tg (i := i + 1) hn
    simp only [add] at hf
    split_ifs at hf <;> cases hf
    · show _ + 1 ≤ 2 * (ADD_RANGE + 1 - n) + _ + 2 + 0
      omega
    · exact Nat.le_refl _
  | reserve tg i n =>
    obtain ⟨h1, h2, -⟩ := hp
    simp only [add, Add.reserved] at hf
    split_ifs at hf with hc hfull <;> cases hf
    · simp only [Bool.and_eq_true, decide_eq_true_eq] at hc
      rw [Add.probeNext, if_pos hc.2]
      show 2 * (ADD_RANGE + 1 - (n + 1)) + _ + 2 + 1 ≤ 2 * (ADD_RANGE + 1 - n) + _ + 1 + 0
      omega
    · have hi : i ≤ home seed key + ADD_RANGE := by omega
      have hset := work_settle seed key h1 hi
      have hmono := settleWork_mono (b := home seed key) hi
      show _ + 1 ≤ 2 * (ADD_RANGE + 1 - n) + _ + 1 + 0
      omega
  | relocate Loc q =>
    obtain ⟨h1, h2, hq⟩ := hp
    rcases Flow.bind_eq_goto.mp hf with ⟨q', hq', rfl⟩ | ⟨i, hi, hk⟩
    · have hnext := Relocate.work_next key hq hq'
      show settleWork _ (Loc - 1) + q'.work Loc + 1 ≤ settleWork _ (Loc - 1) + q.work Loc + _
      omega
    · obtain ⟨h3, h4⟩ := Relocate.ok_ret hq hi
      obtain ⟨Exp, rfl⟩ := relocate_ret hi
      split_ifs at hk
      cases hk
      have hset := work_settle seed key (i := i) (by omega) (by omega)
      have hmono := settleWork_mono (b := home seed key) (i := i) (j := Loc - 1) (by omega)
      show _ + 1 ≤ settleWork _ (Loc - 1) + 1 + 0
      omega
  | loadExp i =>
    cases hf
    exact Nat.le_refl _
  | release i Exp =>
    cases hf
    exact Nat.le_refl _
  | insert q =>
    rcases Flow.bind_eq_goto.mp hf with ⟨q', hq', rfl⟩ | ⟨b, hb, hk⟩
    · exact Insert.work_next hp hq'
    · obtain ⟨rfl, -⟩ := Insert.ok_ret hp hb
      cases hk

theorem Remove.work_nextScan (final cxx : Word) (p : ℕ) :
    (Remove.nextScan final p cxx).work ≤ 3 * (HOP + 1) + 2 + 2 * (HOP - p) := by
  unfold Remove.nextScan
  by_cases hp : p < HOP
  · rw [if_pos hp]
    show 3 * (HOP + 1) + 2 + 2 * (HOP + 1 - (p + 1)) ≤ _
    omega
  · rw [if_neg hp]
    exact Nat.le_add_right _ _

theorem Remove.work_nextSlot {p : ℕ} {rem : Bool} {q : Remove}
    (hf : Remove.nextSlot p rem = .goto q) : q.work ≤ 3 * (HOP - p) := by
  unfold Remove.nextSlot at hf
  split_ifs at hf
  cases hf
  show 3 * (HOP + 1 - (p + 1)) ≤ 3 * (HOP - p)
  omega

theorem Remove.work_next {q q' : Remove} {r : Ans} (hq : q.Ok)
    (hf : (remove seed key q).2 r = .goto q') : q'.work + 1 ≤ q.work := by
  cases q with
  | stamp =>
    cases hf
    exact Nat.le_refl _
  | testKey final s =>
    obtain ⟨-, hs⟩ := hq
    have hnext := work_nextScan final (setBit s.cxx s.p) s.p
    simp only [remove] at hf
    split_ifs at hf <;> cases hf
    · show _ + 1 ≤ 3 * (HOP + 1) + 2 + 2 * (HOP + 1 - s.p)
      omega
    · show 3 * (HOP + 1) + 2 + 2 * (HOP - s.p) + 1 + 1 ≤ 3 * (HOP + 1) + 2 + 2 * (HOP + 1 - s.p)
      omega
  | testMoving final s =>
    simp only [remove] at hf
    split_ifs at hf <;> cases hf <;> exact Nat.succ_le_succ (work_nextScan ..)
  | removeKey final i1 i2 =>
    cases hf
    exact Nat.le_refl _
  | removeMoving final i2 rem1 =>
    cases hf
    exact Nat.le_refl _
  | loadSlot p rem =>
    have hp : p ≤ HOP := hq
    cases hf
    show 3 * (HOP - p) + 2 + 1 ≤ 3 * (HOP + 1 - p)
    omega
  | testSlot p slot rem =>
    simp only [remove] at hf
    split_ifs at hf
    · cases hf
      exact Nat.le_refl _
    · exact Nat.le_trans (Nat.succ_le_succ (work_nextSlot hf)) (Nat.le_succ _)
  | poison p slot rem => exact Nat.succ_le_succ (work_nextSlot hf)

/-- Every access brings a call nearer to its end, but for the failures of line 191. -/
theorem Pc.work_next (p : Pc) (r : Ans) (p' : Pc) (hp : p.Ok seed)
    (hf : (p.code seed).2 r = .goto p') :
    p'.work seed + 1 ≤ p.work seed + if p.losesMark r then 3 else 0 := by
  rcases p with ⟨key, a⟩ | ⟨key, tid, q⟩ | ⟨key, sc⟩
  · obtain ⟨a', ha, rfl⟩ | ⟨b, -, hb⟩ := Flow.bind_eq_goto.mp hf
    · exact Add.work_next hp ha
    · cases hb
  · obtain ⟨q', hq, rfl⟩ | ⟨b, -, hb⟩ := Flow.bind_eq_goto.mp hf
    · exact Remove.work_next hp hq
    · cases hb
  · obtain ⟨sc', hs, rfl⟩ | ⟨b, -, hb⟩ := Flow.bind_eq_goto.mp hf
    · exact scan_work hs
    · cases hb

theorem Pc.work_pos (p : Pc) (hp : p.Ok seed) : 0 < p.work seed := by
  rcases p with ⟨key, a⟩ | ⟨key, tid, q⟩ | ⟨key, sc⟩
  · cases a with
    | insert q =>
      cases q <;> simp only [Pc.work, Add.work, Insert.work] <;> omega
    | contains | probe | reserve | relocate | loadExp | release =>
      simp only [Pc.work, Add.work, settleWork]
      omega
  · cases q with
    | loadSlot p rem =>
      have hle : p ≤ HOP := hp
      show 0 < 3 * (HOP + 1 - p)
      omega
    | stamp | testKey | testMoving | removeKey | removeMoving | testSlot | poison =>
      simp only [Pc.work, Remove.work]
      omega
  · have hle : sc.p ≤ HOP := hp
    show 0 < HOP + 1 - sc.p
    omega

theorem Pc.work_start (c : Call) : (Pc.start c).work seed ≤ c.bound := by
  cases c with
  | add key =>
    show HOP + 1 - 0 + (2 * ADD_RANGE + settleWork _ (home seed key + ADD_RANGE) + 2) ≤ _
    simp only [settleWork, Call.bound, HOP, ADD_RANGE]
    omega
  | remove key tid | contains key => exact Nat.le_refl _

/-! ### Runs -/

/-- The control point belongs to no `add`. -/
def Pc.AddsNothing : Pc → Prop
  | .add _ _ => False
  | .remove _ _ _ | .contains _ _ => True

theorem addsNothing_next (p : Pc) (r : Ans) (p' : Pc) (h : p.AddsNothing)
    (hf : (p.code seed).2 r = .goto p') : p'.AddsNothing := by
  rcases p with ⟨key, a⟩ | ⟨key, tid, q⟩ | ⟨key, sc⟩
  · exact h.elim
  · obtain ⟨q', -, rfl⟩ | ⟨b, -, hb⟩ := Flow.bind_eq_goto.mp hf
    · trivial
    · cases hb
  · obtain ⟨sc', -, rfl⟩ | ⟨b, -, hb⟩ := Flow.bind_eq_goto.mp hf
    · trivial
    · cases hb

/-- In every run, spurious failures included, the accesses of a thread are at most 17 for each
`contains` it calls, 88 for each `Remove`, and 6104 for each `add`, and three for each time
its compare-exchange of line 191 fails. A thread that adds nothing never waits. -/
theorem accesses_bounded {ls : List (WeakLabel Call)} {s : State}
    (hr : (table seed).weakRun Pc.isWeak ls fresh = some s) (t : ℕ) :
    accessesOf t ls ≤ costOf Call.bound t ls +
      3 * (table seed).missesOf Pc.isWeak Pc.losesMark t ls fresh ∧
    ((∀ key, .step (.call t (.add key)) ∉ ls) → accessesOf t ls ≤ costOf Call.bound t ls) := by
  have hle := Machine.accesses_le (M := table seed) (P := Pc.Ok seed)
    Pc.ok_start Pc.ok_next Pc.work_start Pc.work_pos Pc.work_next t
    (fun _ _ h => by cases h) hr
  have hidle : Left (Pc.work seed) fresh t = 0 := rfl
  refine ⟨by omega, fun hno => ?_⟩
  have hmiss : (table seed).missesOf Pc.isWeak Pc.losesMark t ls fresh = 0 := by
    refine Machine.missesOf_eq_zero (Q := Pc.AddsNothing) addsNothing_next ?_ ?_ ?_
    · rintro (⟨key, a⟩ | ⟨key, tid, q⟩ | ⟨key, sc⟩) r h
      · exact h.elim
      · rfl
      · rfl
    · intro c hc
      cases c with
      | add key => exact absurd hc (hno key)
      | remove key tid | contains key => trivial
    · intro p hp
      cases hp
  omega

/-- One thread adds the key 1, and another removes it while a third looks it up. -/
def threeThreads : List (WeakLabel Call) :=
  (alone 0 (.add 1) 23 ++ alone 1 (.remove 1 0) 30 ++ alone 2 (.contains 1) 17 ++
    List.replicate 40 (Label.move 1)).map .step

set_option maxRecDepth 10000 in
theorem three_threads_accesses : ∃ s, (table 1).weakRun Pc.isWeak threeThreads fresh = some s ∧
    (0, (.add 1, true)) ∈ s.log ∧ (1, (.remove 1 0, true)) ∈ s.log ∧
    (2, (.contains 1, true)) ∈ s.log ∧
    accessesOf 0 threeThreads ≤ 6104 + 3 * (table 1).missesOf Pc.isWeak Pc.losesMark 0
      threeThreads fresh ∧ accessesOf 1 threeThreads ≤ 88 ∧ accessesOf 2 threeThreads ≤ 17 := by
  have h : ((table 1).weakRun Pc.isWeak threeThreads fresh).any (fun s => decide (
      (0, (.add 1, true)) ∈ s.log ∧ (1, (.remove 1 0, true)) ∈ s.log ∧
      (2, (.contains 1, true)) ∈ s.log)) = true := by
    decide +kernel
  obtain ⟨s, hs, hend⟩ := (Option.any_eq_true _ _).mp h
  obtain ⟨h0, h1, h2⟩ := of_decide_eq_true hend
  have hadds : ∀ t key, WeakLabel.step (.call t (.add key)) ∈ threeThreads → t = 0 := by
    intro t key hm
    simp [threeThreads, alone] at hm
    exact hm.1
  exact ⟨s, hs, h0, h1, h2, (accesses_bounded hs 0).1,
    (accesses_bounded hs 1).2 fun key hm => absurd (hadds 1 key hm) (by decide),
    (accesses_bounded hs 2).2 fun key hm => absurd (hadds 2 key hm) (by decide)⟩

end LFHash
