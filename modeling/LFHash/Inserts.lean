/-
# Runs of adds

Any number of threads add keys, and no thread removes any. As long as claims hit
empty slots and line 191 marks words within reach (`NearSteps`), a key whose `add`
has returned stays where a lookup finds it; without this it can be lost
(`added_key_can_be_lost`).

Key definitions: `Inserting`, `NearSteps`, `Adding`, `Kept`.
Key theorems: `Adding.move`, `added_keys_stay_stored`.
-/
import LFHash.Placement

namespace LFHash

open Interleave Hopscotch

variable {seed : BitVec 32}

/-- Only adds of non-zero keys are called. -/
def Inserting : Label Call → Prop
  | .call _ (.add key) => key ≠ 0#32
  | .call _ (.remove _ _) | .call _ (.contains _) => False
  | .move _ => True

instance : DecidablePred Inserting
  | .call _ (.add key) => inferInstanceAs (Decidable (key ≠ 0#32))
  | .call _ (.remove _ _) | .call _ (.contains _) => isFalse id
  | .move _ => isTrue trivial

instance (T : ℕ → Word) : DecidablePred (MarksNear seed T)
  | .add _ (.relocate Loc (.mark r Exp)) =>
    inferInstanceAs (Decidable (T r = Exp → Exp = 0#64 ∨ hopDist seed Loc Exp ≤ HOP))
  | .add _ (.relocate _ (.getInd _ _)) | .add _ (.relocate _ (.getReplace _))
  | .add _ (.relocate _ (.loadExp _)) | .add _ (.relocate _ (.loadDest _))
  | .add _ (.relocate _ (.loadFin _ _)) | .add _ (.relocate _ (.copy _ _ _))
  | .add _ (.relocate _ (.loadMark _)) | .add _ (.relocate _ (.overwrite _ _))
  | .add _ (.contains _) | .add _ (.probe _ _ _) | .add _ (.reserve _ _ _) | .add _ (.loadExp _)
  | .add _ (.release _ _) | .add _ (.insert _) | .remove _ _ _ | .contains _ _ => isTrue trivial

/-- A step of a run of adds: a claim hits an empty slot, and line 191 marks only
a word in reach of the slot it is moved to. -/
def NearSteps (seed : BitVec 32) (s : State) (l : Label Call) : Prop :=
  Inserting l ∧ Moves (fun T p => ClaimsEmpty seed T p ∧ MarksNear seed T p) s l

instance (s : State) (l : Label Call) : Decidable (NearSteps seed s l) :=
  inferInstanceAs (Decidable (_ ∧ _))

/-! ### What holds in a run of adds -/

/-- The table stands for `L`, every running call adds a non-zero key, and what is
being moved stays in its window. -/
structure Adding (seed : BitVec 32) (s : State) (L : ℕ → Word) : Prop where
  inv : Inv seed (buckets s.mem) s.thr L
  adds : ∀ t p, s.thr t = some p → ∃ key q, p = .add key q ∧ key ≠ 0#32
  suited : ∀ t, (threadRole (s.thr t)).Suited seed (buckets s.mem) L

namespace Adding

variable {s s' : State} {L : ℕ → Word} {t : ℕ}

theorem fresh : Adding seed fresh fun _ => 0#64 where
  inv :=
    { ok := sound_fresh
      sim :=
        { untagged := fun _ => tag_zero
          agree := fun _ _ => rfl
          fits := fun _ => trivial
          excl := fun _ _ _ h => h.elim }
      pending := fun _ _ h => by cases h }
  adds _ _ h := by cases h
  suited _ := trivial

theorem call {c : Call} (h : Adding seed s L) (hl : Inserting (.call t c))
    (hs : (table seed).step s (.call t c) = some s') :
    Adding seed s' L ∧ ∃ key, c = .add key ∧ key ≠ 0#32 := by
  have hinv := h.inv.call hs
  obtain ⟨-, ht, rfl⟩ := Machine.step_call.mp hs
  cases c with
  | add key =>
    refine ⟨⟨hinv, fun u p hu => ?_, fun u => ?_⟩, key, rfl, hl⟩ <;> by_cases hut : u = t
    · subst hut
      simp only [Function.update_self, Option.some.injEq] at hu
      exact ⟨key, _, hu.symm, hl⟩
    · exact h.adds u p (by simpa [Function.update_of_ne hut] using hu)
    · subst hut
      simp only [Function.update_self]
      trivial
    · simp only [Function.update_of_ne hut]
      exact h.suited u
  | remove key tid | contains key => exact hl.elim

/-- A move of a run of adds. -/
theorem move (h : Adding seed s L) (hq : NearSteps seed s (.move t))
    (hs : (table seed).step s (.move t) = some s') (hh : s'.halt = none) :
    ∃ key q L', s.thr t = some (.add key q) ∧ key ≠ 0#32 ∧ Adding seed s' L' ∧
      Act seed (buckets s.mem) L (.add key q) (next seed s.mem (.add key q))
        (buckets s'.mem) L' := by
  obtain ⟨-, p, hp, -⟩ := Machine.step_move.mp hs
  obtain ⟨key, q, rfl, hk⟩ := h.adds t p hp
  obtain ⟨hc, hm⟩ := hq.2 _ hp
  have hclean : Clean seed s (.move t) := fun p' hp' => by
    rw [hp, Option.some.injEq] at hp'
    exact hp' ▸ ⟨hc, trivial⟩
  obtain ⟨L', hI, ha⟩ := h.inv.move hp hclean hs hh
  have hthr : s'.thr = Function.update s.thr t (next seed s.mem (.add key q)) := by
    obtain rfl := Machine.eq_advance hp hs
    exact Machine.advance_thr hh
  refine ⟨key, q, L', hp, hk, ⟨hI, fun u p hu => ?_, fun u => ?_⟩, ha⟩
  · rw [hthr] at hu
    by_cases hut : u = t
    · rw [hut, Function.update_self] at hu
      obtain ⟨q', -, rfl⟩ := next_add_eq_some.mp hu
      exact ⟨key, q', rfl, hk⟩
    · rw [Function.update_of_ne hut] at hu
      exact h.adds u p hu
  · rw [hthr]
    exact ha.suited h.inv hp hm h.suited (fun _ _ _ e => by cases e) u

/-- The log of a move: unchanged, or one `add` more. -/
theorem log_move {key : Key} {q : Add} (h : Adding seed s L) (hp : s.thr t = some (.add key q))
    (hs : (table seed).step s (.move t) = some s') : s'.log = s.log ∨
      s'.log = (t, (.add key, true)) :: s.log ∧
        ((∃ sc, q = .contains sc ∧ sc.read seed (buckets s.mem) key ≠ 0#64) ∨
          ∃ p ≤ HOP, buckets s'.mem (home seed key + p) = entry key) := by
  obtain rfl := Machine.eq_advance hp hs
  rcases Machine.advance_log (M := table seed) (s := s) t (.add key q) with hl | ⟨r, hr, hl⟩
  · exact Or.inl hl
  · obtain ⟨b, hb, hr'⟩ := Flow.bind_eq_ret.mp hr
    obtain ⟨rfl, hcase⟩ := add_ret (h.inv.ok t _ hp) hb
    cases hr'
    refine Or.inr ⟨hl, ?_⟩
    rw [Machine.advance_mem]
    exact hcase

end Adding

/-! ### No key is lost -/

/-- A lookup that has found its key, and an `add` that has returned, have the key
in its window. -/
structure Kept (seed : BitVec 32) (s : State) (L : ℕ → Word) : Prop extends
    Adding seed s L where
  seen : ∀ t key sc, s.thr t = some (.add key (.contains sc)) → sc.cxx ≠ 0#64 →
    Member (homeOf seed) HOP L (entry key)
  logged : ∀ t key b, (t, (.add key, b)) ∈ s.log →
    key ≠ 0#32 ∧ Member (homeOf seed) HOP L (entry key)

namespace Kept

variable {s s' : State} {L : ℕ → Word} {t : ℕ}

theorem fresh : Kept seed fresh fun _ => 0#64 where
  toAdding := Adding.fresh
  seen _ _ _ h := by cases h
  logged _ _ _ h := by cases h

theorem call {c : Call} (h : Kept seed s L) (hl : Inserting (.call t c))
    (hs : (table seed).step s (.call t c) = some s') : Kept seed s' L := by
  obtain ⟨hA, key, rfl, hk⟩ := h.toAdding.call hl hs
  obtain ⟨-, ht, rfl⟩ := Machine.step_call.mp hs
  refine ⟨hA, fun u key' sc hu hc => ?_, h.logged⟩
  by_cases hut : u = t
  · subst hut
    simp only [Function.update_self, Option.some.injEq] at hu
    cases hu
    exact absurd rfl hc
  · exact h.seen u key' sc (by simpa [Function.update_of_ne hut] using hu) hc

/-- A read that finds the key, now or before. -/
theorem read {key : Key} {sc : Scan} (h : Kept seed s L)
    (hp : s.thr t = some (.add key (.contains sc))) (hk : key ≠ 0#32)
    (hr : sc.read seed (buckets s.mem) key ≠ 0#64) : Member (homeOf seed) HOP L (entry key) := by
  have hle : sc.p ≤ HOP := h.inv.ok t _ hp
  rcases (read_ne_zero hle).mp hr with hc | hit
  · exact h.seen t key sc hp hc
  · refine (member_of_hit h.inv h.suited hk hit).elim (fun e => ⟨_, ?_, e⟩) id
    exact window_entry.mpr ⟨Nat.le_add_right _ _, by omega⟩

theorem move (h : Kept seed s L) (hq : NearSteps seed s (.move t))
    (hs : (table seed).step s (.move t) = some s') (hh : s'.halt = none) :
    ∃ L', Kept seed s' L' := by
  obtain ⟨key, q, L', hp, hk, hA, ha⟩ := h.toAdding.move hq hs hh
  have hmem : ∀ v, v ≠ 0#64 → Member (homeOf seed) HOP L v → Member (homeOf seed) HOP L' v := by
    rintro v hv ⟨i, hw, hi⟩
    obtain ⟨j, -, hj⟩ := ha.memberFrom h.inv hp (h.suited t) hv (fun _ _ _ e => by cases e)
      ⟨i, Nat.zero_le _, hw, hi⟩
    exact ⟨j, hj⟩
  have hlog := h.toAdding.log_move hp hs
  refine ⟨L', hA, fun u key' sc hu hc => ?_, fun u key' b hu => ?_⟩
  · obtain rfl := Machine.eq_advance hp hs
    rw [Machine.advance_thr hh] at hu
    by_cases hut : u = t
    · subst hut
      rw [Function.update_self] at hu
      obtain ⟨q', hf, e⟩ := next_add_eq_some.mp hu
      cases e
      rcases add_goto hf with ⟨sc', rfl, -, e⟩ | ⟨hpast, -⟩
      · cases e
        exact hmem _ (entry_ne_zero hk) (h.read hp hk hc)
      · exact hpast.elim
    · rw [Function.update_of_ne hut] at hu
      obtain ⟨key'', q', e, hk'⟩ := h.adds u _ hu
      cases e
      exact hmem _ (entry_ne_zero hk') (h.seen u key' sc hu hc)
  · have hold : (u, (.add key', b)) ∈ s.log →
        key' ≠ 0#32 ∧ Member (homeOf seed) HOP L' (entry key') := fun hin =>
      ⟨(h.logged u key' b hin).1, hmem _ (entry_ne_zero (h.logged u key' b hin).1)
        (h.logged u key' b hin).2⟩
    rcases hlog with e | ⟨e, hcase⟩ <;> rw [e] at hu
    · exact hold hu
    · rcases List.mem_cons.mp hu with e' | hin
      · cases e'
        refine ⟨hk, ?_⟩
        rcases hcase with ⟨sc, rfl, hr⟩ | ⟨p, hle, hT⟩
        · exact hmem _ (entry_ne_zero hk) (h.read hp hk hr)
        · refine ⟨_, window_entry.mpr ⟨Nat.le_add_right _ p, by omega⟩, ?_⟩
          exact hA.inv.sim.eq_of_read hT (tag_entry _)
      · exact hold hin

end Kept

/-- In a run of adds whose claims hit empty slots and whose relocations mark only
words within reach, every key whose `add` has returned is in its window, and a
`contains` run alone finds it. -/
theorem added_keys_stay_stored {ls : List (Label Call)} {s : State}
    (hr : (table seed).run ls fresh = some s)
    (hq : (table seed).Along (NearSteps seed) ls fresh) (hh : s.halt = none)
    {t : ℕ} {key : Key} (hlog : (t, (.add key, true)) ∈ s.log) :
    Stored seed (buckets s.mem) key ∧ ∀ u, s.thr u = none →
      (table seed).run (alone u (.contains key) (HOP + 1)) s =
        some { s with log := (u, (.contains key, true)) :: s.log } := by
  have hinv := Machine.run_inv (P := fun s => s.halt = none → ∃ L, Kept seed s L) ?_
    (fun _ => ⟨_, Kept.fresh⟩) hq hr hh
  · obtain ⟨L, hL⟩ := hinv
    obtain ⟨hk, hm⟩ := hL.logged t key true hlog
    have hst := stored_of_member hL.inv hk hm
    refine ⟨hst, fun u hu => ?_⟩
    rw [contains_alone hh hu, decide_eq_true hst]
  · rintro s l s' hP hq hs hh'
    obtain ⟨L, hL⟩ := hP (Machine.halt_of_step hs)
    cases l with
    | call t c => exact ⟨L, hL.call hq.1 hs⟩
    | move t => exact hL.move hq hs hh'

/-- Two threads add keys with the home 1000. Both find slot 1000 empty; thread 1 loses it at
line 156 and goes on to slot 1001. -/
def twoAdds : List (Label Call) :=
  [.call 0 (.add 12749043), .call 1 (.add 56200813)] ++
    (List.replicate 23 [.move 0, .move 1]).flatten ++ List.replicate 6 (.move 1)

set_option maxRecDepth 10000 in
theorem two_added_keys_stay_stored : ∃ s, (table 1).run twoAdds fresh = some s ∧
    Stored 1 (buckets s.mem) 12749043 ∧ Stored 1 (buckets s.mem) 56200813 := by
  have h : ((table 1).run twoAdds fresh).any (fun s => decide (s.halt = none ∧
      (0, (Call.add 12749043, true)) ∈ s.log ∧ (1, (Call.add 56200813, true)) ∈ s.log)) = true := by
    decide +kernel
  obtain ⟨s, hs, h⟩ := (Option.any_eq_true _ _).mp h
  obtain ⟨hh, h0, h1⟩ := of_decide_eq_true h
  have hq : (table 1).Along (NearSteps 1) twoAdds fresh := by decide +kernel
  exact ⟨s, hs, (added_keys_stay_stored hs hq hh h0).1, (added_keys_stay_stored hs hq hh h1).1⟩

/-! ### A lost key

Thread 2's key takes slot 1000, which thread 1 has released for its own. Thread 1's
failed claim leaves thread 2's key in `tag`; thread 3 moves that key to slot 1015,
where thread 1's next claim takes it for an empty slot. -/

/-- The keys a schedule adds. -/
def addedKeys (ls : List (Label Call)) : List Key :=
  ls.filterMap fun
    | .call _ (.add key) => some key
    | _ => none

/-- Sixteen keys fill the slots from 998 on, except 1000. -/
def fillAround : List (Label Call) :=
  [20073866, 37595435, 32323154, 14294523, 25996583, 26908912, 96331457, 22408621, 43929219,
    411137, 19744238, 61233365, 16851735, 42944407, 17995410, 1028799].flatMap
    fun key : Key => alone 0 (.add key) 23

def lostRun : List (Label Call) :=
  fillAround ++ alone 1 (.add 12749043) 19 ++ alone 2 (.add 56200813) 34 ++
    List.replicate 3 (.move 1) ++ List.replicate 4 (.move 2) ++ List.replicate 16 (.move 1) ++
    alone 3 (.add 25920978) 43 ++ [.move 1] ++ List.replicate 8 (.move 3)

set_option maxRecDepth 100000 in
theorem added_key_can_be_lost : ∃ s, (table 1).run lostRun fresh = some s ∧
    (∀ l ∈ lostRun, Inserting l) ∧ (addedKeys lostRun).Nodup ∧ s.halt = none ∧
    (2, (.add 56200813, true)) ∈ s.log ∧ ¬ Stored 1 (buckets s.mem) 56200813 := by
  have h : ((table 1).run lostRun fresh).any (fun s => decide (s.halt = none ∧
      (2, (Call.add 56200813, true)) ∈ s.log ∧ ¬ Stored 1 (buckets s.mem) 56200813)) = true := by
    decide +kernel
  obtain ⟨s, hs, h⟩ := (Option.any_eq_true _ _).mp h
  exact ⟨s, hs, by decide +kernel, by decide +kernel, of_decide_eq_true h⟩

end LFHash
