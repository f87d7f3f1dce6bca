/-
# Why an add gives up

With any number of threads, any interleaving and any spurious failures, `add` exits only for
what it has met in that very call: a run of taken slots and lost reservations, `HOP` slots in
a row whose words are too far from their homes or were lost to others, or a window whose every
slot was taken or lost (`exits_have_reasons`).

Key definitions: `Hunted`, `Filled`, `Probed`, `Add.Knows`, `Saw`, `Lost`, `Reason`.
Key theorems: `Relocate.knows_next`, `Insert.knows_next`, `Add.knows_next`,
`exits_have_reasons`.
-/
import LFHash.Refine
import LFHash.Survival
import LFHash.Told

namespace LFHash

open Interleave Machine

variable {seed : BitVec 32} {key : Key}

/-- What a call has been told: its accesses, and the replies. -/
abbrev Heard := List (Pc × Ans)

/-- It has been told of a word in slot `i` that meets `Q`. -/
def Heard.Of (seed : BitVec 32) (h : Heard) (i : ℕ) (Q : Word → Prop) : Prop :=
  ∃ x ∈ h, (x.1.code seed).1.addr = .bucket i ∧ Q x.2.val

/-- It has been told that a compare-exchange of slot `i` has failed. -/
def Heard.Failure (seed : BitVec 32) (h : Heard) (i : ℕ) : Prop :=
  ∃ x ∈ h, (∃ e d, (x.1.code seed).1 = .cas (.bucket i) e d) ∧ x.2.ok = false

/-- The reservation of line 156 has failed. -/
def Pc.losesSlot (p : Pc) (r : Ans) : Bool :=
  match p with
  | .add _ (.reserve _ _ _) => !r.ok
  | .add _ (.contains _) | .add _ (.probe _ _ _) | .add _ (.relocate _ _) | .add _ (.loadExp _)
  | .add _ (.release _ _) | .add _ (.insert _) | .remove _ _ _ | .contains _ _ => false

/-- How many reservations it has lost. -/
def Heard.refusals (h : Heard) : ℕ := h.countP fun x => x.1.losesSlot x.2

variable {h : Heard} {x : Pc × Ans} {i j n p r Loc : ℕ} {Q : Word → Prop}

theorem Heard.Of.snoc (hi : h.Of seed i Q) : Heard.Of seed (h ++ [x]) i Q := by
  obtain ⟨y, hy, hQ⟩ := hi
  exact ⟨y, List.mem_append_left _ hy, hQ⟩

theorem Heard.Failure.snoc (hi : h.Failure seed i) : Heard.Failure seed (h ++ [x]) i := by
  obtain ⟨y, hy, hc⟩ := hi
  exact ⟨y, List.mem_append_left _ hy, hc⟩

theorem Heard.of_last (ha : (x.1.code seed).1.addr = .bucket i) (hQ : Q x.2.val) :
    Heard.Of seed (h ++ [x]) i Q :=
  ⟨x, List.mem_append_right _ (List.mem_singleton.mpr rfl), ha, hQ⟩

theorem Heard.failure_last {e d : Word} (hc : (x.1.code seed).1 = .cas (.bucket i) e d)
    (hok : x.2.ok = false) : Heard.Failure seed (h ++ [x]) i :=
  ⟨x, List.mem_append_right _ (List.mem_singleton.mpr rfl), ⟨e, d, hc⟩, hok⟩

theorem Heard.refusals_snoc :
    Heard.refusals (h ++ [x]) = h.refusals + if x.1.losesSlot x.2 then 1 else 0 := by
  rw [refusals, List.countP_append, List.countP_singleton]
  rfl

theorem Heard.refusals_same (hx : x.1.losesSlot x.2 = false) :
    Heard.refusals (h ++ [x]) = h.refusals := by
  rw [refusals_snoc, hx]
  rfl

/-! ### The probe -/

/-- The probe has left `k` slots from the home on, each taken, and lost the other rounds. -/
def Probed (seed : BitVec 32) (key : Key) (h : Heard) (i n : ℕ) : Prop :=
  ∃ k, i = home seed key + k ∧ (∀ j < k, h.Of seed (home seed key + j) (· ≠ 0#64)) ∧
    n = k + h.refusals + 1

/-! ### `Relocate` -/

/-- Every slot from `Loc - HOP` up to `r` held a word that is too far from its home to go to
`Loc`, or was lost to another thread. -/
def Hunted (seed : BitVec 32) (h : Heard) (Loc r : ℕ) : Prop :=
  ∀ j, Loc ≤ j + HOP → j < r →
    h.Of seed j (fun w => HOP ≤ hopDist seed Loc w) ∨ h.Failure seed j

theorem Hunted.snoc (hr : Hunted seed h Loc r) : Hunted seed (h ++ [x]) Loc r :=
  fun j hj hjr => (hr j hj hjr).imp .snoc .snoc

/-- One slot more. -/
theorem Hunted.succ (hr : Hunted seed h Loc r)
    (hlast : h.Of seed r (fun w => HOP ≤ hopDist seed Loc w) ∨ h.Failure seed r) :
    Hunted seed h Loc (r + 1) := by
  intro j hj hjr
  rcases Nat.lt_succ_iff_lt_or_eq.mp hjr with hlt | rfl
  · exact hr j hj hlt
  · exact hlast

/-- What a search at a control point has been told: of the slots below its cursor, and of the
slot at it if `Ind` has moved on without it. -/
def Relocate.Knows (seed : BitVec 32) (h : Heard) (Loc : ℕ) : Relocate → Prop
  | .getInd r ind => Hunted seed h Loc r ∧ (ind = r ∨ h.Failure seed r)
  | .getReplace r | .loadExp r | .mark r _ => Hunted seed h Loc r
  | .loadDest _ | .loadFin _ _ | .copy _ _ _ | .loadMark _ | .overwrite _ _ => True

theorem Relocate.knows_start (hl : HOP ≤ Loc) (hlt : Loc < 2 ^ 32) :
    (Relocate.start Loc).Knows seed h Loc := by
  refine ⟨fun j hj hjr => ?_, Or.inl rfl⟩
  rw [sub32_of_le hl hlt] at hjr
  omega

theorem Relocate.knows_next {q q' : Relocate} {a : Ans} (hq : q.Knows seed h Loc)
    (hf : (relocate seed Loc (newEntry key) q).2 a = .goto q') :
    q'.Knows seed (h ++ [(.add key (.relocate Loc q), a)]) Loc := by
  cases q with
  | getInd r ind =>
    obtain ⟨hr, hind⟩ := hq
    rcases seek_eq_goto.mp hf with ⟨rfl, hfar, -⟩ | ⟨rfl, -, -⟩
    · refine Hunted.succ hr.snoc ?_
      rcases hind with rfl | hfail
      · exact Or.inl (Heard.of_last rfl hfar)
      · exact Or.inr hfail.snoc
    · exact hr.snoc
  | getReplace r =>
    rcases seek_eq_goto.mp hf with ⟨rfl, hfar, -⟩ | ⟨rfl, -, -⟩
    · exact Hunted.succ (Hunted.snoc hq) (Or.inl (Heard.of_last rfl hfar))
    · exact Hunted.snoc hq
  | loadExp r =>
    cases hf
    exact Hunted.snoc hq
  | mark r Exp =>
    simp only [relocate] at hf
    split_ifs at hf with hok <;> cases hf
    · trivial
    · exact ⟨Hunted.snoc hq, Or.inr (Heard.failure_last rfl (Bool.eq_false_iff.mpr hok))⟩
  | loadDest | loadFin | copy | loadMark =>
    cases hf
    trivial
  | overwrite => cases hf

/-! ### `BucketInsert` -/

/-- Every slot of the window up to offset `p` was taken, or a claim of it has failed. -/
def Filled (seed : BitVec 32) (key : Key) (h : Heard) (p : ℕ) : Prop :=
  ∀ j < p, h.Of seed (home seed key + j) (· ≠ 0#64) ∨ h.Failure seed (home seed key + j)

theorem Filled.snoc (hp : Filled seed key h p) : Filled seed key (h ++ [x]) p :=
  fun j hj => (hp j hj).imp .snoc .snoc

theorem Filled.succ (hp : Filled seed key h p)
    (hlast : h.Of seed (home seed key + p) (· ≠ 0#64) ∨ h.Failure seed (home seed key + p)) :
    Filled seed key h (p + 1) := by
  intro j hj
  rcases Nat.lt_succ_iff_lt_or_eq.mp hj with hlt | rfl
  · exact hp j hlt
  · exact hlast

def Insert.Knows (seed : BitVec 32) (key : Key) (h : Heard) : Insert → Prop
  | .first _ _ p | .claim _ _ p => p ≤ HOP ∧ Filled seed key h p
  | .second _ _ => Filled seed key h (HOP + 1)
  | .reuse _ _ => True

theorem Insert.knows_start : Insert.start.Knows seed key h :=
  ⟨Nat.zero_le _, fun _ hj => absurd hj (Nat.not_lt_zero _)⟩

theorem Insert.knows_nextFirst {tg : Word} {c : Option Word} (hle : p ≤ HOP)
    (hp : Filled seed key h (p + 1)) : (Insert.nextFirst tg c p).Knows seed key h := by
  unfold Insert.nextFirst
  split_ifs with hlt
  · exact ⟨hlt, hp⟩
  · obtain rfl : p = HOP := by omega
    exact hp

theorem Insert.knows_next {q q' : Insert} {a : Ans} (hq : q.Knows seed key h)
    (hf : (bucketInsert (home seed key) key q).2 a = .goto q') :
    q'.Knows seed key (h ++ [(.add key (.insert q), a)]) := by
  cases q with
  | first tg c p =>
    obtain ⟨hle, hp⟩ := hq
    simp only [bucketInsert, isRemoved_eq_false, Bool.false_eq_true, if_false] at hf
    split_ifs at hf with hz <;> cases hf
    · exact ⟨hle, hp.snoc⟩
    · exact knows_nextFirst hle (hp.snoc.succ (Or.inl (Heard.of_last rfl hz)))
  | claim tg c p =>
    obtain ⟨hle, hp⟩ := hq
    simp only [bucketInsert] at hf
    split_ifs at hf with hok
    cases hf
    exact knows_nextFirst hle
      (hp.snoc.succ (Or.inr (Heard.failure_last rfl (Bool.eq_false_iff.mpr hok))))
  | second c p =>
    simp only [bucketInsert, isRemoved_eq_false, Bool.false_eq_true, if_false] at hf
    split_ifs at hf
    cases hf
    exact Filled.snoc hq
  | reuse slot p => cases hf

/-! ### `add` -/

def Add.Knows (seed : BitVec 32) (key : Key) (h : Heard) : Add → Prop
  | .contains _ => h.refusals = 0
  | .probe _ i n | .reserve _ i n => Probed seed key h i n
  | .relocate Loc q => q.Knows seed h Loc
  | .loadExp _ | .release _ _ => True
  | .insert q => q.Knows seed key h

theorem Add.knows_probeNext {tg : Word} (hp : Probed seed key h i (n + 1)) :
    (Add.probeNext tg i n).Knows seed key h := by
  unfold Add.probeNext
  split_ifs <;> exact hp

theorem Add.knows_settle (h1 : home seed key ≤ i) (h2 : i ≤ home seed key + ADD_RANGE) :
    (Add.settle seed key i).Knows seed key h := by
  have hh := home_lt seed key
  have hi : i < 2 ^ 32 := by
    simp only [TotalBuckets, ADD_RANGE] at *
    omega
  unfold Add.settle
  split_ifs with hfar
  · rw [sub32_of_le h1 hi] at hfar
    exact Relocate.knows_start (by omega) hi
  · trivial

theorem Add.knows_next {a a' : Add} {r : Ans} (hok : a.Ok seed key) (ha : a.Knows seed key h)
    (hf : (add seed key a).2 r = .goto a') : a'.Knows seed key (h ++ [(.add key a, r)]) := by
  cases a with
  | contains s =>
    have hzero : Heard.refusals (h ++ [(Pc.add key (.contains s), r)]) = 0 :=
      (Heard.refusals_same rfl).trans ha
    rcases Flow.bind_eq_goto.mp hf with ⟨s', -, rfl⟩ | ⟨b, -, hb⟩
    · exact hzero
    · split_ifs at hb
      cases hb
      refine knows_probeNext ⟨0, (Nat.add_zero _).symm, fun j hj => absurd hj (Nat.not_lt_zero j), ?_⟩
      rw [hzero]
  | probe tg i n =>
    obtain ⟨k, rfl, hk, hn⟩ := ha
    have hsame : Heard.refusals (h ++ [(Pc.add key (.probe tg (home seed key + k) n), r)]) =
        h.refusals := Heard.refusals_same rfl
    simp only [add] at hf
    split_ifs at hf with hz <;> cases hf
    · refine knows_probeNext ⟨k + 1, Nat.add_assoc _ _ _, fun j hj => ?_, by omega⟩
      rcases Nat.lt_succ_iff_lt_or_eq.mp hj with hlt | rfl
      · exact (hk j hlt).snoc
      · exact Heard.of_last rfl hz
    · exact ⟨k, rfl, fun j hj => (hk j hj).snoc, by omega⟩
  | reserve tg i n =>
    obtain ⟨h1, h2, -⟩ := hok
    obtain ⟨k, rfl, hk, hn⟩ := ha
    simp only [add, Add.reserved] at hf
    split_ifs at hf with hc hfull <;> cases hf
    · simp only [Bool.and_eq_true, decide_eq_true_eq] at hc
      have hone : Heard.refusals (h ++ [(Pc.add key (.reserve tg (home seed key + k) n), r)]) =
          h.refusals + 1 := by
        rw [Heard.refusals_snoc, if_pos (by exact hc.1)]
      exact knows_probeNext ⟨k, rfl, fun j hj => (hk j hj).snoc, by omega⟩
    · exact knows_settle h1 (by omega)
  | relocate Loc q =>
    obtain ⟨h1, h2, hq⟩ := hok
    rcases Flow.bind_eq_goto.mp hf with ⟨q', hq', rfl⟩ | ⟨i, hi, hk⟩
    · exact Relocate.knows_next ha hq'
    · obtain ⟨h3, h4⟩ := Relocate.ok_ret hq hi
      split_ifs at hk
      cases hk
      exact knows_settle (by omega) (by omega)
  | loadExp i =>
    cases hf
    trivial
  | release i Exp =>
    cases hf
    exact Insert.knows_start
  | insert q =>
    rcases Flow.bind_eq_goto.mp hf with ⟨q', hq', rfl⟩ | ⟨b, -, hk⟩
    · exact Insert.knows_next ha hq'
    · split_ifs at hk
      cases hk
      exact Insert.knows_start

/-- What a thread inside an `add` has been told bears out where it stands. -/
def Pc.Knows (seed : BitVec 32) (h : Heard) : Pc → Prop
  | .add key a => a.Knows seed key h
  | .remove _ _ _ | .contains _ _ => True

theorem Pc.knows_start (c : Call) : (Pc.start c).Ok seed ∧ (Pc.start c).Knows seed [] := by
  refine ⟨Pc.ok_start c, ?_⟩
  cases c with
  | add key => rfl
  | remove key tid | contains key => trivial

theorem Pc.knows_next (h : Heard) (p : Pc) (r : Ans) (p' : Pc)
    (hp : p.Ok seed ∧ p.Knows seed h) (hf : (p.code seed).2 r = .goto p') :
    p'.Ok seed ∧ p'.Knows seed (h ++ [(p, r)]) := by
  refine ⟨Pc.ok_next p r p' hp.1 hf, ?_⟩
  rcases p with ⟨key, a⟩ | ⟨key, tid, q⟩ | ⟨key, sc⟩
  · obtain ⟨a', ha, rfl⟩ | ⟨b, -, hb⟩ := Flow.bind_eq_goto.mp hf
    · exact Add.knows_next hp.1 hp.2 ha
    · cases hb
  · obtain ⟨q', -, rfl⟩ | ⟨b, -, hb⟩ := Flow.bind_eq_goto.mp hf
    · trivial
    · cases hb
  · obtain ⟨sc', -, rfl⟩ | ⟨b, -, hb⟩ := Flow.bind_eq_goto.mp hf
    · trivial
    · cases hb

/-! ### Runs -/

/-- What thread `t` has been told in its call, after the run. -/
abbrev heard (seed : BitVec 32) (ls : List (WeakLabel Call)) (t : ℕ) : Heard :=
  (table seed).told Pc.isWeak t ls fresh []

/-- At a moment of its call thread `t` has looked at slot `i`, and its word met `Q`. -/
def Saw (seed : BitVec 32) (ls : List (WeakLabel Call)) (t i : ℕ) (Q : Word → Prop) : Prop :=
  ∃ x s₁ l₁, (table seed).Moment Pc.isWeak ls fresh t x s₁ l₁ ∧
    (x.1.code seed).1.addr = .bucket i ∧ Q (buckets s₁.mem i)

/-- At a moment of its call thread `t` has lost a compare-exchange of slot `i`: to another
word than the one it expected, or for no reason. -/
def Lost (seed : BitVec 32) (ls : List (WeakLabel Call)) (t i : ℕ) : Prop :=
  ∃ x s₁ l₁ e d, (table seed).Moment Pc.isWeak ls fresh t x s₁ l₁ ∧
    (x.1.code seed).1 = .cas (.bucket i) e d ∧ (l₁ = .fail t ∨ buckets s₁.mem i ≠ e)

variable {ls : List (WeakLabel Call)} {l : WeakLabel Call} {s s' : State} {t : ℕ} {e : Exit}

theorem saw_of_heard (hr : (table seed).weakRun Pc.isWeak ls fresh = some s)
    (hi : (heard seed ls t).Of seed i Q) : Saw seed ls t i Q := by
  obtain ⟨x, hx, haddr, hQ⟩ := hi
  obtain ⟨hnil, -⟩ | ⟨s₁, l₁, hm⟩ := told_moment hr x hx
  · cases hnil
  · have hval : x.2.val = s₁.mem (x.1.code seed).1.addr := hm.val
    rw [hval, haddr] at hQ
    exact ⟨x, s₁, l₁, hm, haddr, hQ⟩

theorem lost_of_heard (hr : (table seed).weakRun Pc.isWeak ls fresh = some s)
    (hi : (heard seed ls t).Failure seed i) : Lost seed ls t i := by
  obtain ⟨x, hx, ⟨e, d, hc⟩, hok⟩ := hi
  obtain ⟨hnil, -⟩ | ⟨s₁, l₁, hm⟩ := told_moment hr x hx
  · cases hnil
  · exact ⟨x, s₁, l₁, e, d, hm, hc, hm.refused hc hok⟩

/-- What an `add` of thread `t` has met when it gives up. -/
def Reason (seed : BitVec 32) (key : Key) (ls : List (WeakLabel Call)) (t : ℕ) : Exit → Prop
  | .insertionFailure => ∃ k, (∀ j < k, Saw seed ls t (home seed key + j) (· ≠ 0#64)) ∧
      ADD_RANGE ≤ k + (heard seed ls t).refusals + 1
  | .resize => ∃ Loc, home seed key + HOP < Loc ∧ Loc ≤ home seed key + ADD_RANGE ∧
      ∀ r, Loc ≤ r + HOP → r < Loc →
        Saw seed ls t r (fun w => HOP ≤ hopDist seed Loc w) ∨ Lost seed ls t r
  | .sameSlot => False
  | .needRehashing => ∀ j ≤ HOP,
      Saw seed ls t (home seed key + j) (· ≠ 0#64) ∨ Lost seed ls t (home seed key + j)

theorem reason_of_exit {a : Add} {r : Ans} (hr : (table seed).weakRun Pc.isWeak ls fresh = some s)
    (hok : a.Ok seed key) (ha : a.Knows seed key (heard seed ls t))
    (hf : (add seed key a).2 r = .exit e) : Reason seed key ls t e := by
  rcases add_exit hf with ⟨rfl, tg, i, n, rfl, hn⟩ | ⟨rfl, Loc, r', q, rfl, hle, hq⟩ |
    ⟨rfl, Loc, Exp, rfl⟩ | ⟨rfl, c, j, rfl⟩
  · obtain ⟨k, -, hk, hsum⟩ := ha
    exact ⟨k, fun j hj => saw_of_heard hr (hk j hj), by omega⟩
  · obtain ⟨h1, h2, -⟩ := hok
    have hhunt : Hunted seed (heard seed ls t) Loc r' := by
      rcases hq with ⟨ind, rfl⟩ | rfl
      · exact ha.1
      · exact ha
    exact ⟨Loc, h1, h2, fun i hi hlt =>
      (hhunt i hi (by omega)).imp (saw_of_heard hr) (lost_of_heard hr)⟩
  · exact absurd hok.2.2.2 (Nat.lt_irrefl _)
  · exact fun j hj => (ha j (by omega)).imp (saw_of_heard hr) (lost_of_heard hr)

/-- An `add` exits only for what it has met in its own call, whatever the other threads do:
`ADD_RANGE` slots taken and reservations lost, `HOP` slots in a row whose words are too far
from their homes or were lost, or a window whose every slot was taken or lost. The exit of a
relocation that has not left its slot is never taken. -/
theorem exits_have_reasons (hr : (table seed).weakRun Pc.isWeak ls fresh = some s)
    (hs : (table seed).weakStep Pc.isWeak s l = some s') (he : s'.halt = some e) :
    ∃ key a, s.thr l.thread = some (.add key a) ∧ Reason seed key ls l.thread e := by
  have hh := halt_of_weakStep hs
  rcases weakStep_cases hs with ⟨t, c, rfl, hcall⟩ | ⟨-, -, p, r, m', hp, -, rfl, -⟩
  · obtain ⟨-, -, rfl⟩ := step_call.mp hcall
    exact absurd (hh.symm.trans he) (by simp)
  · cases hf : ((table seed).code p).2 r with
    | goto p' | ret x =>
      rw [hf] at he
      exact absurd (hh.symm.trans he) (by simp)
    | exit e' =>
      rw [hf] at he
      obtain rfl : e' = e := Option.some.inj he
      obtain ⟨key, a, rfl, ha⟩ := exit_add hf
      obtain ⟨hok, hknows⟩ := told_inv (M := table seed) (h := []) Pc.knows_start Pc.knows_next
        (fun _ hp => by cases hp) hr hh _ hp
      exact ⟨key, a, hp, reason_of_exit hr hok hknows ha⟩

/-- A thread adds the key 1 to the empty table, and each of its claims fails for no reason. -/
def luckless : List (WeakLabel Call) :=
  (alone 0 (.add 1) 21).map .step ++ (List.replicate 17 [.step (.move 0), .fail 0]).flatten ++
    List.replicate 16 (.step (.move 0))

set_option maxRecDepth 10000 in
theorem luckless_has_reasons : ∃ s s', (table 1).weakRun Pc.isWeak luckless fresh = some s ∧
    (table 1).weakStep Pc.isWeak s (.step (.move 0)) = some s' ∧
    s'.halt = some .needRehashing ∧ Reason 1 1 luckless 0 .needRehashing := by
  have h : ((table 1).weakRun Pc.isWeak luckless fresh).any (fun s =>
      decide (s.thr 0 = some (.add 1 (.insert (.second none HOP)))) &&
      ((table 1).weakStep Pc.isWeak s (.step (.move 0))).any fun s' =>
        decide (s'.halt = some .needRehashing)) = true := by decide +kernel
  obtain ⟨s, hr, h⟩ := (Option.any_eq_true _ _).mp h
  obtain ⟨hthr, h⟩ := (Bool.and_eq_true _ _).mp h
  obtain ⟨s', hs, he⟩ := (Option.any_eq_true _ _).mp h
  obtain ⟨key, a, hp, hreason⟩ := exits_have_reasons hr hs (of_decide_eq_true he)
  have hkey := Option.some.inj (hp.symm.trans (of_decide_eq_true hthr))
  obtain ⟨rfl, -⟩ := Pc.add.inj hkey
  exact ⟨s, s', hr, hs, of_decide_eq_true he, hreason⟩

end LFHash
