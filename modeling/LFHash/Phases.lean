/-
# The first phases of the benchmark

`main` starts threads that insert their shares of `store`, joins them, and then starts and
joins rounds of threads that look the same keys up. Lookups change nothing, so every one of
them answers as the table that the inserts have left (`Looking`). Where the inserts keep
what they move (`NearSteps`), and always when there is one thread, the rounds find every
key.

Key definitions: `callsBy`, `Begins`, `Rounds`, `Looking`.
Key theorems: `Looking.run`, `phases_find`, `lookups_find_inserted_keys`,
`one_thread_finds_its_keys`.
-/
import LFHash.Driver
import LFHash.Generated
import LFHash.Inserts
import LFHash.Solo
import LFHash.Writer

namespace LFHash

open Interleave Loop

variable {seed : BitVec 32} {key : Key} {t T : ℕ} {ls ls₀ : List (Label Call)} {c : Call}

/-- The calls that thread `t` begins in a schedule, in order. -/
def callsBy (t : ℕ) (ls : List (Label Call)) : List Call :=
  ls.filterMap fun
    | .call u c => if u = t then some c else none
    | .move _ => none

theorem mem_callsBy : c ∈ callsBy t ls ↔ .call t c ∈ ls := by
  simp only [callsBy, List.mem_filterMap]
  constructor
  · rintro ⟨l, hl, h⟩
    cases l with
    | call u c' =>
      obtain ⟨rfl, rfl⟩ : u = t ∧ c' = c := by simpa using h
      exact hl
    | move u => cases h
  · exact fun h => ⟨_, h, if_pos rfl⟩

/-- A run in which each of `T` threads has begun calls of its program `prog`, in order. -/
structure Begins (seed : BitVec 32) (T : ℕ) (prog : ℕ → Option (List Call))
    (ls : List (Label Call)) (s s' : State) : Prop where
  run : (table seed).run ls s = some s'
  threads : ∀ l ∈ ls, l.thread < T
  calls : ∀ tid < T, ∃ rest, prog tid = some (callsBy tid ls ++ rest)

/-- Rounds of lookups, each joined, lead from `s₀` to a state. -/
inductive Rounds (seed : BitVec 32) (T : ℕ) (wx : Workload) (s₀ : State) : State → Prop
  | start : Rounds seed T wx s₀ s₀
  | round {ls : List (Label Call)} {s s' : State} : Rounds seed T wx s₀ s →
      Begins seed T (lookUp wx T) ls s s' → (∀ t, s'.thr t = none) → Rounds seed T wx s₀ s'

theorem Begins.calls_of {prog : ℕ → Option (List Call)} {s s' : State}
    (h : Begins seed T prog ls s s') (hc : .call t c ∈ ls) :
    t < T ∧ ∃ cs, prog t = some cs ∧ c ∈ cs := by
  have ht : t < T := h.threads _ hc
  obtain ⟨rest, hprog⟩ := h.calls t ht
  exact ⟨ht, _, hprog, List.mem_append_left rest (mem_callsBy.mpr hc)⟩

/-! ### Lookups -/

/-- The scan has found the key exactly if one of the slots it has read holds it. -/
def Seen (seed : BitVec 32) (T : ℕ → Word) (key : Key) (sc : Scan) : Prop :=
  sc.cxx ≠ 0#64 ↔ ∃ q < sc.p, Hit T key (home seed key + q)

theorem Seen.start (T : ℕ → Word) : Seen seed T key .start :=
  iff_of_false (fun h => h rfl) fun ⟨q, hq, _⟩ => Nat.not_lt_zero q hq

theorem Seen.read {T : ℕ → Word} {sc : Scan} (h : Seen seed T key sc) (hp : sc.p ≤ HOP) :
    sc.read seed T key ≠ 0#64 ↔ ∃ q < sc.p + 1, Hit T key (home seed key + q) := by
  have h' : sc.cxx ≠ 0#64 ↔ ∃ q < sc.p, Hit T key (home seed key + q) := h
  rw [read_ne_zero hp, h']
  constructor
  · rintro (⟨q, hq, hit⟩ | hit)
    · exact ⟨q, Nat.lt_succ_of_lt hq, hit⟩
    · exact ⟨sc.p, Nat.lt_succ_self _, hit⟩
  · rintro ⟨q, hq, hit⟩
    rcases Nat.lt_succ_iff_lt_or_eq.mp hq with hlt | rfl
    · exact Or.inl ⟨q, hlt, hit⟩
    · exact Or.inr hit

/-- Since the memory was `m` and the log `log`, only lookups that `P` allows have run, and
every one that has returned has answered as the memory `m` says. -/
structure Looking (seed : BitVec 32) (P : ℕ → Key → Prop) (m : Cell → Word)
    (log : List (ℕ × (Call × Bool))) (s : State) : Prop where
  mem : s.mem = m
  halt : s.halt = none
  thr : ∀ t p, s.thr t = some p → ∃ key sc, p = .contains key sc ∧ P t key ∧ sc.p ≤ HOP ∧
    Seen seed (buckets m) key sc
  answers : ∀ e ∈ s.log, e ∈ log ∨
    ∃ t key, P t key ∧ e = (t, (.contains key, decide (Stored seed (buckets m) key)))

namespace Looking

variable {P : ℕ → Key → Prop} {m : Cell → Word} {log : List (ℕ × (Call × Bool))} {s s' : State}

theorem start (hm : s.mem = m) (hlog : s.log = log) (hh : s.halt = none)
    (ht : ∀ t, s.thr t = none) : Looking seed P m log s where
  mem := hm
  halt := hh
  thr t p hp := by
    rw [ht t] at hp
    cases hp
  answers e he := Or.inl (hlog ▸ he)

theorem call (h : Looking seed P m log s) (hk : P t key)
    (hs : (table seed).step s (.call t (.contains key)) = some s') : Looking seed P m log s' := by
  obtain ⟨-, -, rfl⟩ := Machine.step_call.mp hs
  refine ⟨h.mem, h.halt, fun u p hu => ?_, h.answers⟩
  by_cases hut : u = t
  · subst hut
    simp only [Function.update_self, Option.some.injEq] at hu
    exact ⟨key, .start, hu.symm, hk, Nat.zero_le _, Seen.start _⟩
  · exact h.thr u p (by simpa [Function.update_of_ne hut] using hu)

theorem move (h : Looking seed P m log s) (hs : (table seed).step s (.move t) = some s') :
    Looking seed P m log s' := by
  obtain ⟨-, p, hp, rfl⟩ := Machine.step_move.mp hs
  obtain ⟨key, sc, rfl, hk, hle, hseen⟩ := h.thr t p hp
  have hread := hseen.read hle
  rw [← h.mem] at hread
  have hmem : (((table seed).code (.contains key sc)).1.exec s.mem).2 = m := h.mem
  have hflow : (table seed).flow s.mem (.contains key sc) =
      ((contains seed key sc).flow s.mem).bind (.contains key) fun b => .ret (.contains key, b) :=
    rfl
  have hscan : (contains seed key sc).flow s.mem = _ := contains_flow s.mem sc
  by_cases hlt : sc.p < HOP
  · rw [hscan, if_pos hlt, Flow.bind_goto] at hflow
    rw [Machine.advance_goto hflow]
    refine ⟨hmem, h.halt, fun u p hu => ?_, h.answers⟩
    by_cases hut : u = t
    · subst hut
      simp only [Function.update_self, Option.some.injEq] at hu
      refine ⟨key, _, hu.symm, hk, hlt, ?_⟩
      rw [← h.mem]
      exact hread
    · exact h.thr u p (by simpa [Function.update_of_ne hut] using hu)
  · rw [hscan, if_neg hlt, Flow.bind_ret] at hflow
    rw [Machine.advance_ret hflow]
    refine ⟨hmem, h.halt, fun u p hu => ?_, fun e he => ?_⟩
    · by_cases hut : u = t
      · subst hut
        simp at hu
      · exact h.thr u p (by simpa [Function.update_of_ne hut] using hu)
    · rcases List.mem_cons.mp he with rfl | he
      · refine Or.inr ⟨t, key, hk, ?_⟩
        have hend : sc.p = HOP := by omega
        have hanswer : (sc.read seed (buckets s.mem) key != 0#64) =
            decide (Stored seed (buckets m) key) := by
          rw [Bool.eq_iff_iff, bne_iff_ne, hread, decide_eq_true_iff, hend, h.mem]
          rfl
        rw [hanswer]
      · exact h.answers e he

theorem run : ∀ {ls : List (Label Call)} {s s' : State}, Looking seed P m log s →
    (∀ t c, .call t c ∈ ls → ∃ key, c = .contains key ∧ P t key) →
    (table seed).run ls s = some s' → Looking seed P m log s'
  | [], s, s', h, _, hr => by
    cases hr
    exact h
  | l :: ls, s, s', h, hl, hr => by
    obtain ⟨s₁, h1, h2⟩ := Machine.run_cons.mp hr
    have hrest := fun t c hc => hl t c (List.mem_cons_of_mem l hc)
    cases l with
    | call t c =>
      obtain ⟨key, rfl, hk⟩ := hl t c List.mem_cons_self
      exact (h.call hk h1).run hrest h2
    | move t => exact (h.move h1).run hrest h2

end Looking

/-! ### Inserts -/

variable {s s' s₀ : State} {wx : Workload} {rands rest : List ℕ}
  {lookUps store adds removes : ℕ → Key}

/-- The runs of adds that lose nothing: every key whose `add` has returned is stored, and every
call has returned true. -/
theorem kept_of_run (hr : (table seed).run ls fresh = some s)
    (hq : (table seed).Along (NearSteps seed) ls fresh) (hh : s.halt = none) :
    (∃ L, Kept seed s L) ∧ ∀ e ∈ s.log, ∃ key, e.2 = (.add key, true) := by
  refine Machine.run_inv (P := fun s => s.halt = none → (∃ L, Kept seed s L) ∧
    ∀ e ∈ s.log, ∃ key, e.2 = (.add key, true)) ?_ (fun _ => ⟨⟨_, Kept.fresh⟩, fun e he => ?_⟩)
    hq hr hh
  · rintro s l s' hP hq hs hh'
    obtain ⟨⟨L, hL⟩, hlog⟩ := hP (Machine.halt_of_step hs)
    cases l with
    | call t c =>
      refine ⟨⟨L, hL.call hq.1 hs⟩, ?_⟩
      obtain ⟨-, -, rfl⟩ := Machine.step_call.mp hs
      exact hlog
    | move t =>
      refine ⟨hL.move hq hs hh', fun e he => ?_⟩
      obtain ⟨key, q, -, hp, -⟩ := hL.toAdding.move hq hs hh'
      rcases hL.toAdding.log_move hp hs with hsame | ⟨hnew, -⟩
      · exact hlog e (hsame ▸ he)
      · rw [hnew] at he
        rcases List.mem_cons.mp he with rfl | he
        · exact ⟨key, rfl⟩
        · exact hlog e he
  · cases he

/-- Between calls every key that has been added is stored. -/
theorem stored_of_begun {L : ℕ → Word} (h : Kept seed s L) (hidle : s.thr t = none)
    (hb : Begun s t (.add key)) : Stored seed (buckets s.mem) key := by
  rcases hb with ⟨p, hp, -⟩ | ⟨b, hb⟩
  · rw [hidle] at hp
    cases hp
  · obtain ⟨hk, hm⟩ := h.logged t key b hb
    exact stored_of_member h.inv hk hm

/-- Shares of `n / T` indices end below `n`. -/
theorem lt_of_mem_share {i n : ℕ} (ht : t < T) (hi : i ∈ share (n / T) t) : i < n := by
  calc i < t * (n / T) + n / T := (mem_share.mp hi).2
    _ = (t + 1) * (n / T) := (Nat.succ_mul t _).symm
    _ ≤ T * (n / T) := Nat.mul_le_mul_right _ ht
    _ ≤ n := Nat.mul_div_le n T

/-- `insertKey` adds keys of `store`, which the constructor draws above 0. -/
theorem inserting_of_begins
    (hc : Workload.construct lookUps store adds removes rands = some (wx, rest))
    (h : Begins seed T (insertKey wx T) ls s s') : ∀ l ∈ ls, Inserting l := by
  obtain ⟨hd, -⟩ := Workload.construct_draws hc
  intro l hl
  cases l with
  | move t => trivial
  | call t c =>
    obtain ⟨ht, cs, hcs, hmem⟩ := h.calls_of hl
    rw [insertKey, issue_store wx Call.add ht, Option.some.injEq] at hcs
    rw [← hcs, List.mem_map] at hmem
    obtain ⟨i, hi, rfl⟩ := hmem
    obtain ⟨r, hkey⟩ := hd.drawn i (lt_of_mem_share ht hi)
    show wx.store i ≠ 0#32
    rw [hkey]
    exact drawnKey_ne_zero r

/-- `lookUp` only looks keys up. -/
theorem lookUp_calls {cs : List Call} (ht : t < T) (h : lookUp wx T t = some cs) (hc : c ∈ cs) :
    ∃ key, c = .contains key := by
  obtain ⟨keys, -, hlook, -⟩ := same_keys_of_thread wx ht
  rw [hlook, Option.some.injEq] at h
  rw [← h, List.mem_map] at hc
  obtain ⟨key, -, rfl⟩ := hc
  exact ⟨key, rfl⟩

/-- The keys that a thread looks up. -/
def LooksUp (T : ℕ) (wx : Workload) (t : ℕ) (key : Key) : Prop :=
  t < T ∧ ∃ cs, lookUp wx T t = some cs ∧ .contains key ∈ cs

theorem Begins.looks (h : Begins seed T (lookUp wx T) ls s s') :
    ∀ t c, .call t c ∈ ls → ∃ key, c = .contains key ∧ LooksUp T wx t key := by
  intro t c hl
  obtain ⟨ht, cs, hcs, hmem⟩ := h.calls_of hl
  obtain ⟨key, rfl⟩ := lookUp_calls ht hcs hmem
  exact ⟨key, rfl, ht, cs, hcs, hmem⟩

/-- The rounds of lookups. -/
theorem Rounds.looking {m : Cell → Word} {log : List (ℕ × (Call × Bool))}
    (h : Rounds seed T wx s₀ s) (h₀ : Looking seed (LooksUp T wx) m log s₀) :
    Looking seed (LooksUp T wx) m log s := by
  induction h with
  | start => exact h₀
  | round _ hb _ ih => exact ih.run hb.looks hb.run

/-- What the first phases come to, where the inserts lose nothing. -/
structure Found (seed : BitVec 32) (T : ℕ) (wx : Workload) (ls₀ : List (Label Call))
    (s₀ s : State) : Prop where
  halt : s.halt = none
  /-- No lookup changes anything. -/
  mem : s.mem = s₀.mem
  stored : ∀ t key, .call t (.add key) ∈ ls₀ → Stored seed (buckets s₀.mem) key
  /-- A lookup answers as the table says that the inserts have left. -/
  lookUps : ∀ t key b, (t, (.contains key, b)) ∈ s.log →
    b = decide (Stored seed (buckets s₀.mem) key)
  /-- If all of `store` has been inserted, no call has answered false. -/
  all : (∀ tid < T, insertKey wx T tid = some (callsBy tid ls₀)) → ∀ e ∈ s.log, e.2.2 = true

theorem phases_find (hq : (table seed).Along (NearSteps seed) ls₀ fresh)
    (hins : Begins seed T (insertKey wx T) ls₀ fresh s₀) (hidle : ∀ t, s₀.thr t = none)
    (hh : s₀.halt = none) (hr : Rounds seed T wx s₀ s)
    (hlook : Begins seed T (lookUp wx T) ls s s') : Found seed T wx ls₀ s₀ s' := by
  obtain ⟨⟨L, hL⟩, hlog⟩ := kept_of_run hins.run hq hh
  have hstored : ∀ t key, .call t (.add key) ∈ ls₀ → Stored seed (buckets s₀.mem) key :=
    fun t key hc => stored_of_begun hL (hidle t) (begun_of_run hins.run hc)
  have hend := (hr.looking (.start rfl rfl hh hidle)).run hlook.looks hlook.run
  refine ⟨hend.halt, hend.mem, hstored, fun t key b he => ?_, fun hall e he => ?_⟩
  · rcases hend.answers _ he with hold | ⟨t', key', -, hnew⟩
    · obtain ⟨key', hadd⟩ := hlog _ hold
      cases hadd
    · cases hnew
      rfl
  · rcases hend.answers e he with hold | ⟨t, key, ⟨ht, cs, hcs, hmem⟩, rfl⟩
    · obtain ⟨key, hadd⟩ := hlog e hold
      rw [hadd]
    · -- the thread that looks the key up has inserted it
      obtain ⟨keys, hkeys, hlooks, -⟩ := same_keys_of_thread wx ht
      rw [hlooks, Option.some.injEq] at hcs
      rw [← hcs, List.mem_map] at hmem
      obtain ⟨k, hk, hkey⟩ := hmem
      cases hkey
      rw [hall t ht, Option.some.injEq] at hkeys
      have hadd : .add key ∈ callsBy t ls₀ := hkeys ▸ List.mem_map.mpr ⟨key, hk, rfl⟩
      exact decide_eq_true (hstored t key (mem_callsBy.mp hadd))

/-! ### Many threads, and one -/

/-- In the first phases of the benchmark, with any number of threads, any interleaving and any
number of rounds: as long as claims hit empty slots and line 191 marks words within reach while
the keys are inserted, every key that has been inserted is found by every lookup. -/
theorem lookups_find_inserted_keys
    (hc : Workload.construct lookUps store adds removes rands = some (wx, rest))
    (hins : Begins seed T (insertKey wx T) ls₀ fresh s₀) (hidle : ∀ t, s₀.thr t = none)
    (hh : s₀.halt = none)
    (hq : (table seed).Along (Moves fun T p => ClaimsEmpty seed T p ∧ MarksNear seed T p) ls₀ fresh)
    (hr : Rounds seed T wx s₀ s) (hlook : Begins seed T (lookUp wx T) ls s s') :
    Found seed T wx ls₀ s₀ s' :=
  phases_find ((Machine.Along.of_forall (inserting_of_begins hc hins)).and hq) hins hidle hh hr hlook

/-- The first key of its share is what a thread works on first. -/
theorem issue_first (wx : Workload) (op : Key → Call) (ht : t < T) (hT : 0 < TOTDATA / T) :
    ∃ rest, issue wx.get op (DATAPERTHREAD T) t =
      some ([op (wx.store (t * (TOTDATA / T)))] ++ rest) := by
  obtain ⟨n, hn⟩ : ∃ n, TOTDATA / T = n + 1 := ⟨TOTDATA / T - 1, by omega⟩
  rw [issue_store wx op ht, hn, share, List.range_succ_eq_map]
  exact ⟨_, rfl⟩

/-- Two threads insert the first keys of their shares, in turns. -/
def twoInserts : List (Label Call) :=
  [.call 0 (.add 1), .call 1 (.add 6291457)] ++
    (List.replicate 23 [.move 0, .move 1]).flatten

/-- Then they look them up. -/
def twoLookUps : List (Label Call) :=
  [.call 0 (.contains 1), .call 1 (.contains 6291457)] ++
    (List.replicate 17 [.move 1, .move 0]).flatten

set_option maxRecDepth 10000 in
theorem two_threads_find_two_keys : ∃ wx s₀ s, (table 1).run twoInserts fresh = some s₀ ∧
    (table 1).run twoLookUps s₀ = some s ∧ Found 1 2 wx twoInserts s₀ s := by
  obtain ⟨wx, hc, hstore⟩ := Workload.construct_counting (fun _ => 0) (fun _ => 0) (fun _ => 0)
    (fun _ => 0) []
  have h0 : wx.store (0 * (TOTDATA / 2)) = 1 := (hstore _ (by decide)).trans (by decide)
  have h1 : wx.store (1 * (TOTDATA / 2)) = 6291457 := (hstore _ (by decide)).trans (by decide)
  have hcalls : ∀ (op : Key → Call) (ls : List (Label Call)), callsBy 0 ls = [op 1] →
      callsBy 1 ls = [op 6291457] → ∀ tid < 2, ∃ rest,
        issue wx.get op (DATAPERTHREAD (2 : ℕ)) tid = some (callsBy tid ls ++ rest) := by
    intro op ls hls0 hls1 tid ht
    have hfirst := issue_first wx op ht (by decide)
    rcases (by omega : tid = 0 ∨ tid = 1) with rfl | rfl
    · rwa [h0, ← hls0] at hfirst
    · rwa [h1, ← hls1] at hfirst
  have hrun : ((table 1).run twoInserts fresh).any (fun s => decide (s.halt = none ∧
      (∀ t ∈ ([0, 1] : List ℕ), (s.thr t).isNone) ∧
      ((table 1).run twoLookUps s).isSome)) = true := by
    decide +kernel
  obtain ⟨s₀, hs₀, h⟩ := (Option.any_eq_true _ _).mp hrun
  obtain ⟨hh, hjoin, hsome⟩ := of_decide_eq_true h
  obtain ⟨s, hs⟩ := Option.isSome_iff_exists.mp hsome
  have hidle := Machine.idle_of_run hs₀ (fun _ => rfl) (by decide) hjoin
  exact ⟨wx, s₀, s, hs₀, hs, lookups_find_inserted_keys hc
    ⟨hs₀, by decide, hcalls Call.add _ (by decide) (by decide)⟩ hidle hh (by decide +kernel) .start
    ⟨hs, by decide, hcalls Call.contains _ (by decide) (by decide)⟩⟩

/-- While one thread runs, what it claims is empty, and what it marks is near. -/
theorem near_of_one_thread (hl : ∀ l ∈ ls, l.thread = 0) (hins : ∀ l ∈ ls, Inserting l) :
    (table seed).Along (NearSteps seed) ls fresh := by
  let P := fun s : State => s.halt = none → ∃ L, Solitary seed s 0 L
  have hstep : ∀ s l s', P s → (l.thread = 0 ∧ Inserting l) → (table seed).step s l = some s' →
      P s' := by
    rintro s l s' hP ⟨h0, -⟩ hs hh'
    obtain ⟨L, h⟩ := hP (Machine.halt_of_step hs)
    cases l with
    | call t c =>
      obtain rfl : t = 0 := h0
      exact ⟨L, h.call hs⟩
    | move t =>
      obtain rfl : t = 0 := h0
      obtain ⟨-, L', -, h', -⟩ := h.move hs hh'
      exact ⟨L', h'⟩
  have hfresh : P fresh := fun _ =>
    ⟨_, Solitary.idle (m := fun _ => 0#64) (fun _ => tag_zero) 0⟩
  have hall : (table seed).Along (fun _ l => l.thread = 0 ∧ Inserting l) ls fresh :=
    Machine.Along.of_forall fun l h => ⟨hl l h, hins l h⟩
  refine (Machine.Along.of_inv hstep hfresh hall).mono fun s l s' hs hq => ?_
  obtain ⟨hP, -, hi⟩ := hq
  refine ⟨hi, ?_⟩
  cases l with
  | call t c => trivial
  | move t =>
    obtain ⟨hh, p, hp, -⟩ := Machine.step_move.mp hs
    obtain ⟨L, h⟩ := hP hh
    obtain ⟨hclean, hnear⟩ := h.toWriting.clean hp
    intro p' hp'
    obtain rfl : p = p' := Option.some.inj (hp.symm.trans hp')
    exact ⟨(hclean p hp).1, hnear⟩

/-- With one thread no condition is left: in every run whose inserts do not exit, every lookup
finds its key. -/
theorem one_thread_finds_its_keys
    (hc : Workload.construct lookUps store adds removes rands = some (wx, rest))
    (hins : Begins seed 1 (insertKey wx 1) ls₀ fresh s₀) (hidle : s₀.thr 0 = none)
    (hh : s₀.halt = none) (hr : Rounds seed 1 wx s₀ s)
    (hlook : Begins seed 1 (lookUp wx 1) ls s s') : Found seed 1 wx ls₀ s₀ s' := by
  have hl : ∀ l ∈ ls₀, l.thread = 0 := fun l h => Nat.lt_one_iff.mp (hins.threads l h)
  have hall : ∀ t, s₀.thr t = none := by
    intro t
    by_cases ht : t = 0
    · rw [ht]
      exact hidle
    · rw [Machine.run_thr_of_ne hins.run fun l h => by rw [hl l h]; exact ht]
      rfl
  exact phases_find (near_of_one_thread hl (inserting_of_begins hc hins)) hins hall hh hr hlook

set_option maxRecDepth 10000 in
theorem one_thread_finds_one_key : ∃ wx s₀ s,
    (table 1).run (alone 0 (.add 1) 23) fresh = some s₀ ∧
    (table 1).run (alone 0 (.contains 1) 17) s₀ = some s ∧
    Found 1 1 wx (alone 0 (.add 1) 23) s₀ s := by
  obtain ⟨wx, hc, hstore⟩ := Workload.construct_counting (fun _ => 0) (fun _ => 0) (fun _ => 0)
    (fun _ => 0) []
  have h0 : wx.store (0 * (TOTDATA / 1)) = 1 := (hstore _ (by decide)).trans (by decide)
  have hcalls : ∀ (op : Key → Call) (ls : List (Label Call)), callsBy 0 ls = [op 1] →
      ∀ tid < 1, ∃ rest, issue wx.get op (DATAPERTHREAD (1 : ℕ)) tid =
        some (callsBy tid ls ++ rest) := by
    intro op ls hls tid ht
    have hfirst := issue_first wx op ht (by decide)
    obtain rfl := Nat.lt_one_iff.mp ht
    rwa [h0, ← hls] at hfirst
  have hrun : ((table 1).run (alone 0 (.add 1) 23) fresh).any (fun s => decide (s.halt = none ∧
      (s.thr 0).isNone ∧ ((table 1).run (alone 0 (.contains 1) 17) s).isSome)) = true := by
    decide +kernel
  obtain ⟨s₀, hs₀, h⟩ := (Option.any_eq_true _ _).mp hrun
  obtain ⟨hh, hjoin, hsome⟩ := of_decide_eq_true h
  obtain ⟨s, hs⟩ := Option.isSome_iff_exists.mp hsome
  exact ⟨wx, s₀, s, hs₀, hs, one_thread_finds_its_keys hc
    ⟨hs₀, by decide, hcalls Call.add _ (by decide)⟩ (Option.isNone_iff_eq_none.mp hjoin) hh .start
    ⟨hs, by decide, hcalls Call.contains _ (by decide)⟩⟩

end LFHash
