/-
# Claims

Line 156 reserves a slot and line 123 inserts into one. Both loops read a slot,
and if it is empty compare it with `tag`, which is 0 until a compare-exchange
fails: then it is the word found there, and nobody resets it. A claim still hits
an empty slot only, unless the expected word is written into the slot between
the read and the claim, or the probe runs out of slots (`Unprovoked`).

Key definitions: `Pc.claim?`, `RunsOut`, `Unprovoked`, `Fair`.
Key theorems: `claim_of_first`, `claim_of_next`, `claims_hit_empty_slots`.
-/
import LFHash.Uniqueness

namespace LFHash

open Interleave

variable {seed : BitVec 32}

/-- The slot a thread is about to claim, and the word it expects there. -/
def Pc.claim? (seed : BitVec 32) : Pc → Option (ℕ × Word)
  | .add _ (.reserve tg i _) => some (i, tg)
  | .add key (.insert (.claim tg _ p)) => some (home seed key + p, tg)
  | _ => none

/-- The probe finds no empty slot in its range, and has a word left in `tag`. -/
def RunsOut (T : ℕ → Word) : Pc → Prop
  | .add _ (.probe tg i n) => n = ADD_RANGE ∧ T i ≠ 0#64 ∧ tg ≠ 0#64
  | _ => False

instance (T : ℕ → Word) : DecidablePred (RunsOut T)
  | .add _ (.probe tg i n) => inferInstanceAs (Decidable (n = ADD_RANGE ∧ T i ≠ 0#64 ∧ tg ≠ 0#64))
  | .add _ (.contains _) | .add _ (.reserve _ _ _) | .add _ (.relocate _ _) | .add _ (.loadExp _)
  | .add _ (.release _ _) | .add _ (.insert _) | .remove _ _ _ | .contains _ _ => isFalse id

/-- A move does not write the word that another thread, about to claim the slot,
has kept in `tag`, and no probe runs out of slots with such a word. -/
def Unprovoked (seed : BitVec 32) (s : State) : Label Call → Prop
  | .call _ _ => True
  | .move t => ∀ p, s.thr t = some p →
      (∀ u ≠ t, ∀ q i tg, s.thr u = some q → q.claim? seed = some (i, tg) → tg ≠ 0#64 →
        buckets ((p.code seed).1.exec s.mem).2 i ≠ tg) ∧
      ¬ RunsOut (buckets s.mem) p

/-- A thread with a stale `tag` does not stand before a slot with that word. -/
def Fair (seed : BitVec 32) (s : State) : Prop :=
  ∀ t p i tg, s.thr t = some p → p.claim? seed = some (i, tg) → tg ≠ 0#64 → buckets s.mem i ≠ tg

theorem claim?_settle {key : Key} {i : ℕ} :
    (Pc.add key (.settle seed key i)).claim? seed = none := by
  unfold Add.settle
  split_ifs <;> rfl

/-- Line 123 follows a read of the same slot that found 0. -/
theorem claim_of_first {m m' : Cell → Word} {b : ℕ} {key : Key} {a : Insert} {r : Ans} {tg : Word}
    {c : Option Word} {p : ℕ} (hx : Attempt (bucketInsert b key a).1 m r m')
    (hf : (bucketInsert b key a).2 r = .goto (.claim tg c p)) :
    m' = m ∧ buckets m (b + p) = 0#64 := by
  have hnext : ∀ tg' c' p', Insert.nextFirst tg' c' p' ≠ .claim tg c p := by
    intro tg' c' p'
    unfold Insert.nextFirst
    split_ifs <;> exact Insert.noConfusion
  cases a with
  | first tg' c' p' =>
    obtain ⟨hval, rfl⟩ := hx.load
    simp only [bucketInsert, isRemoved_eq_false, Bool.false_eq_true, if_false, hval] at hf
    split_ifs at hf with hz
    · cases hf
      exact ⟨rfl, hz⟩
    · exact absurd (Flow.goto.inj hf) (hnext _ _ _)
  | claim tg' c' p' =>
    simp only [bucketInsert] at hf
    split_ifs at hf
    exact absurd (Flow.goto.inj hf) (hnext _ _ _)
  | second c' p' =>
    simp only [bucketInsert] at hf
    split_ifs at hf <;> cases hf
  | reuse slot p' => cases hf

/-- A claim follows a read of the same slot that found 0, or a probe that has run out. -/
theorem claim_of_next {m m' : Cell → Word} {p q : Pc} {r : Ans} {i : ℕ} {tg : Word}
    (hok : p.Ok seed) (hx : Attempt (p.code seed).1 m r m') (hn : (p.code seed).2 r = .goto q)
    (hc : q.claim? seed = some (i, tg)) : m' = m ∧ (buckets m i = 0#64 ∨
      ∃ key j, p = .add key (.probe tg j ADD_RANGE) ∧ buckets m j ≠ 0#64) := by
  rcases p with ⟨key, a⟩ | ⟨key, tid, a⟩ | ⟨key, sc⟩
  · obtain ⟨b, hf, rfl⟩ | ⟨_, -, hr⟩ := Flow.bind_eq_goto.mp hn
    swap
    · cases hr
    cases a with
    | contains s =>
      rcases Flow.bind_eq_goto.mp hf with ⟨s', -, rfl⟩ | ⟨found, -, hb⟩
      · cases hc
      · split_ifs at hb
        cases hb
        simp [Add.probeNext, ADD_RANGE, Pc.claim?] at hc
    | probe tg' j n =>
      have hle : n ≤ ADD_RANGE := hok.2.2
      obtain ⟨hval, rfl⟩ := hx.load
      simp only [add, hval] at hf
      split_ifs at hf with hz
      · cases hf
        unfold Add.probeNext at hc
        split_ifs at hc with hlt
        · cases hc
        · cases hc
          obtain rfl : n = ADD_RANGE := by omega
          exact ⟨rfl, Or.inr ⟨key, j, rfl, hz⟩⟩
      · cases hf
        cases hc
        exact ⟨rfl, Or.inl (not_not.mp hz)⟩
    | reserve tg' j n =>
      simp only [add] at hf
      split_ifs at hf with hb
      · cases hf
        simp only [Bool.and_eq_true, decide_eq_true_eq] at hb
        rw [Add.probeNext, if_pos hb.2] at hc
        cases hc
      · unfold Add.reserved at hf
        split_ifs at hf
        cases hf
        rw [claim?_settle] at hc
        cases hc
    | relocate Loc a =>
      rcases Flow.bind_eq_goto.mp hf with ⟨a', -, rfl⟩ | ⟨r, -, hr⟩
      · cases hc
      · split_ifs at hr
        cases hr
        rw [claim?_settle] at hc
        cases hc
    | loadExp j | release j Exp => cases hf; cases hc
    | insert a =>
      rcases Flow.bind_eq_goto.mp hf with ⟨a', ha, rfl⟩ | ⟨b, -, hb⟩
      · cases a' with
        | claim tg' c p =>
          cases hc
          obtain ⟨hm, hz⟩ := claim_of_first hx ha
          exact ⟨hm, Or.inl hz⟩
        | first tg' c p | second c p | reuse slot p => cases hc
      · split_ifs at hb
        cases hb
        cases hc
  · obtain ⟨b, -, rfl⟩ | ⟨_, -, hr⟩ := Flow.bind_eq_goto.mp hn
    · cases hc
    · cases hr
  · obtain ⟨b, -, rfl⟩ | ⟨_, -, hr⟩ := Flow.bind_eq_goto.mp hn
    · cases hc
    · cases hr

theorem fair_fresh : Fair seed fresh := fun _ _ _ _ h => by cases h

theorem Fair.step {s s' : State} {l : WeakLabel Call} (hS : Sound seed s) (h : Fair seed s)
    (hq : Machine.OnSteps (Unprovoked seed) s l)
    (hs : (table seed).weakStep Pc.isWeak s l = some s') (hh : s'.halt = none) :
    Fair seed s' := by
  rcases Machine.weakStep_cases hs with ⟨t, c, rfl, hcall⟩ | ⟨-, -, p, r, m', hp, hx, rfl, hcase⟩
  · obtain ⟨-, -, rfl⟩ := Machine.step_call.mp hcall
    intro u q i tg hu hc htg
    by_cases hut : u = t
    · subst hut
      simp only [Function.update_self, Option.some.injEq] at hu
      subst hu
      cases c <;> cases hc
    · exact h u q i tg (by simpa [Function.update_of_ne hut] using hu) hc htg
  · intro u q i tg hu hc htg
    rw [Config.follow_mem]
    rw [Config.follow_thr hh] at hu
    by_cases hut : u = l.thread
    · subst hut
      rw [Function.update_self] at hu
      obtain ⟨hm, hz | ⟨key, j, rfl, hj⟩⟩ :=
        claim_of_next (hS _ p hp) hx (Flow.point?_eq_some.mp hu) hc
      · show buckets m' i ≠ tg
        rw [hm, hz]
        exact htg.symm
      · -- a probe that runs out does not fail
        rcases hcase with ⟨hl, -⟩ | ⟨-, hw, -⟩
        · rw [hl] at hq
          exact absurd ⟨rfl, hj, htg⟩ (hq _ hp).2
        · cases hw
    · rw [Function.update_of_ne hut] at hu
      show buckets m' i ≠ tg
      rcases hcase with ⟨hl, hexec⟩ | ⟨-, -, rfl⟩
      · rw [hl] at hq
        have hkeeps := (hq p hp).1 u hut q i tg hu hc htg
        have hm : ((p.code seed).1.exec s.mem).2 = m' := congrArg Prod.snd hexec
        rwa [hm] at hkeeps
      · exact h u q i tg hu hc htg

/-- Every successful compare-exchange of the lines 123 and 156 replaces the word 0,
in every run in which no thread is provoked, also if compare-exchanges fail for no reason. -/
theorem claims_hit_empty_slots {ls : List (WeakLabel Call)}
    (hq : (table seed).WeakAlong Pc.isWeak (Machine.OnSteps (Unprovoked seed)) ls fresh) :
    (table seed).WeakAlong Pc.isWeak (Machine.OnSteps (Moves (ClaimsEmpty seed))) ls fresh := by
  have hinv := Machine.WeakAlong.of_inv (M := table seed)
    (P := fun s => s.halt = none → Sound seed s ∧ Fair seed s) ?_
    (fun _ => ⟨sound_fresh, fair_fresh⟩) hq
  · refine hinv.mono fun s l s' hs h => ?_
    rcases l with (⟨t, c⟩ | t) | t
    · trivial
    · obtain ⟨-, hF⟩ := h.1 (Machine.halt_of_weakStep hs)
      intro p hp
      have hclaim : ∀ i tg, p.claim? seed = some (i, tg) → buckets s.mem i = tg → tg = 0#64 :=
        fun i tg hc hT => by_contra fun htg => hF t p i tg hp hc htg hT
      unfold ClaimsEmpty
      split
      · exact hclaim _ _ rfl
      · exact hclaim _ _ rfl
      · trivial
    · trivial
  · rintro s l s' hP hq hs hh
    obtain ⟨hS, hF⟩ := hP (Machine.halt_of_weakStep hs)
    exact ⟨sound_weak hS hs, hF.step hS hq hs hh⟩

/-- The first thread's move does not write the word that the second one has kept in `tag` into
the slot it is about to claim. -/
abbrev WritesNoTag (seed : BitVec 32) (m : Cell → Word) (p q : Pc) : Prop :=
  ∀ x ∈ q.claim? seed, x.2 ≠ 0#64 → buckets ((p.code seed).1.exec m).2 x.1 ≠ x.2

theorem Unprovoked.of_towards {s : State} {l : Label Call} (ho : Moves (fun T p => ¬ RunsOut T p) s l)
    (h : Towards (WritesNoTag seed) s l) : Unprovoked seed s l := by
  cases l with
  | call t c => trivial
  | move t => exact fun p hp => ⟨fun u hu q i tg hq hc => h p hp u hu q hq (i, tg) hc, ho p hp⟩

/-- Thread 1 loses slot 1000 to thread 2's key, which stays in its `tag`, and finds slot 1001
empty. Thread 2 adds another key there. Thread 1 loses this slot too, and the compare-exchange
of its last claim fails once for no reason. -/
def twiceLost : List (WeakLabel Call) :=
  (alone 1 (.add 12749043) 22 ++ alone 2 (.add 56200813) 23 ++ List.replicate 2 (Label.move 1) ++
    alone 2 (.add 117330412) 25 ++ List.replicate 4 (Label.move 1)).map .step ++
      .fail 1 :: (List.replicate 2 (Label.move 1)).map .step

set_option maxRecDepth 10000 in
theorem twice_lost_claims_hit_empty_slots : ((table 1).weakRun Pc.isWeak twiceLost fresh).isSome ∧
    (table 1).WeakAlong Pc.isWeak (Machine.OnSteps (Moves (ClaimsEmpty 1))) twiceLost fresh := by
  have hq : (table 1).WeakAlong Pc.isWeak (fun s l => Machine.OnSteps (fun s l =>
      Moves (fun T p => ¬ RunsOut T p) s l ∧ TowardsAmong [1, 2] (WritesNoTag 1) s l) s l ∧
      l.thread ∈ [1, 2]) twiceLost fresh := by decide +kernel
  refine ⟨by decide +kernel, claims_hit_empty_slots ((weakAlong_towards hq).mono ?_)⟩
  rintro s (l | t) - - h
  · exact .of_towards h.1 h.2
  · trivial

/-! ### A claim that hits a key

Thread 1 loses slot 1000 to thread 2's key, which stays in its `tag`, and finds
slot 1001 empty. Thread 2 removes its key, thread 3 takes slot 1000, and thread 2
adds its key again, to slot 1001. -/

def staleRun : List (Label Call) :=
  alone 1 (.add 12749043) 22 ++ alone 2 (.add 56200813) 23 ++ List.replicate 2 (.move 1) ++
    alone 2 (.remove 56200813 0) 70 ++ alone 3 (.add 117330412) 23 ++ alone 2 (.add 56200813) 25

set_option maxRecDepth 10000 in
theorem claim_can_hit_a_key : ∃ s p s', (table 1).run staleRun fresh = some s ∧
    (∀ l ∈ staleRun, NonZero l) ∧ s.thr 1 = some p ∧ ¬ ClaimsEmpty 1 (buckets s.mem) p ∧
    Stored 1 (buckets s.mem) 56200813 ∧ (table 1).step s (.move 1) = some s' ∧
    ¬ Stored 1 (buckets s'.mem) 56200813 := by
  have h : ((table 1).run staleRun fresh).any (fun s =>
      (s.thr 1).any (fun p => decide (¬ ClaimsEmpty 1 (buckets s.mem) p)) &&
      decide (Stored 1 (buckets s.mem) 56200813) &&
      ((table 1).step s (.move 1)).any fun s' =>
        decide (¬ Stored 1 (buckets s'.mem) 56200813)) = true := by decide +kernel
  obtain ⟨s, hs, h⟩ := (Option.any_eq_true _ _).mp h
  simp only [Bool.and_eq_true, decide_eq_true_eq] at h
  obtain ⟨⟨h1, h2⟩, h3⟩ := h
  obtain ⟨p, hp, h1⟩ := (Option.any_eq_true _ _).mp h1
  obtain ⟨s', hs', h3⟩ := (Option.any_eq_true _ _).mp h3
  exact ⟨s, p, s', hs, by decide +kernel, hp, of_decide_eq_true h1, h2, hs', of_decide_eq_true h3⟩

end LFHash
