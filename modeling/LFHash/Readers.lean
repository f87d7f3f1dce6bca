/-
# Lookups beside one writer

One thread adds and removes keys while others look keys up, from any table without
tags. The writer moves a key upwards only, and a scan goes upwards too: the key stays
ahead of every scan that has not found it (`Visible`), so a lookup of a key that is
not removed returns true. A key that nobody adds is read nowhere (`Absent`).

Key definitions: `OneWriter`, `OnlyAdds`, `Visible`, `Absent`.
Key theorems: `Visible.move`, `Absent.move`, `lookups_beside_one_writer`.
-/
import LFHash.Writer

namespace LFHash

open Interleave Hopscotch

variable {seed : BitVec 32} {m : Cell → Word}

/-! ### The calls of the run -/

/-- Thread `w` adds keys, and removes keys other than `k`; all threads may look keys up. -/
def OneWriter (w : ℕ) (k : Key) (t : ℕ) : Call → Prop
  | .contains _ => True
  | .add _ => t = w
  | .remove key _ => t = w ∧ key ≠ k

/-- No key is removed, and `k` is not added. -/
def OnlyAdds (k : Key) (_ : ℕ) : Call → Prop
  | .contains _ => True
  | .add key => key ≠ k
  | .remove _ _ => False

/-- Beside one writer the others run lookups. -/
theorem Running.lookup {s : State} {w : ℕ} {k : Key} (h : Running (OneWriter w k) s) {u : ℕ}
    (hu : u ≠ w) {p : Pc} (hp : s.thr u = some p) : ∃ key sc, p = .contains key sc := by
  have hc := h u p hp
  rcases p with ⟨key, a⟩ | ⟨key, tid, a⟩ | ⟨key, sc⟩
  · exact absurd hc hu
  · exact absurd hc.1 hu
  · exact ⟨key, sc, rfl⟩

theorem Running.reads {s : State} {w : ℕ} {k : Key} (h : Running (OneWriter w k) s) {u : ℕ}
    (hu : u ≠ w) {p : Pc} (hp : s.thr u = some p) : p.Reads := by
  obtain ⟨key, sc, rfl⟩ := h.lookup hu hp
  trivial

theorem Running.not_erases {s : State} {w : ℕ} {k : Key} (h : Running (OneWriter w k) s) {u : ℕ}
    (hu : u ≠ w) {p : Pc} (hp : s.thr u = some p) : ¬ p.Erases := by
  obtain ⟨key, sc, rfl⟩ := h.lookup hu hp
  exact id

/-! ### A key that stays stored -/

/-- The key is in its window, and ahead of every scan that has not found it. -/
structure Visible (seed : BitVec 32) (s : State) (w : ℕ) (k : Key) (L : ℕ → Word) : Prop extends
    Writing seed s w L where
  member : Member (homeOf seed) HOP L (entry k)
  scans : ∀ t sc, s.thr t = some (.contains k sc) →
    sc.cxx ≠ 0#64 ∨ MemberFrom (homeOf seed) HOP L (entry k) (home seed k + sc.p)

namespace Visible

variable {s s' : State} {w t : ℕ} {k : Key} {L : ℕ → Word}

theorem call {c : Call} (h : Visible seed s w k L)
    (hs : (table seed).step s (.call t c) = some s') (hc : t ≠ w → (Pc.start c).Reads) :
    Visible seed s' w k L := by
  have hW := h.toWriting.call hs hc
  obtain ⟨-, -, rfl⟩ := Machine.step_call.mp hs
  refine ⟨hW, h.member, fun u sc hu => ?_⟩
  by_cases hut : u = t
  · subst hut
    obtain he : Pc.start c = .contains k sc := by simpa [table] using hu
    cases c <;> cases he
    obtain ⟨i, hw, hi⟩ := h.member
    refine Or.inr ⟨i, ?_, hw, hi⟩
    rw [Scan.start, Nat.add_zero]
    exact (window_entry.mp hw).1
  · exact h.scans u sc (by simpa [Function.update_of_ne hut] using hu)

/-- A read either finds the key or leaves it ahead. -/
theorem read {sc : Scan} (h : Visible seed s w k L) (hk : k ≠ 0#32)
    (hp : s.thr t = some (.contains k sc)) : sc.read seed (buckets s.mem) k ≠ 0#64 ∨
      MemberFrom (homeOf seed) HOP L (entry k) (home seed k + (sc.p + 1)) := by
  have hle : sc.p ≤ HOP := h.inv.ok t _ hp
  rcases h.scans t sc hp with hc | ⟨i, hn, hw, hi⟩
  · exact Or.inl ((read_ne_zero hle).mpr (Or.inl hc))
  · by_cases hip : i = home seed k + sc.p
    · have hread : Hit (buckets s.mem) k i := by
        have hL : L i ≠ 0#64 := by
          rw [hi]
          exact entry_ne_zero hk
        have hT := h.inv.sim.read hL
        rwa [hi] at hT
      rw [hip] at hread
      exact Or.inl ((read_ne_zero hle).mpr (Or.inr hread))
    · exact Or.inr ⟨i, by omega, hw, hi⟩

/-- At its last slot a scan has found the key. -/
theorem ret {sc : Scan} (h : Visible seed s w k L) (hk : k ≠ 0#32)
    (hp : s.thr t = some (.contains k sc)) (hend : HOP ≤ sc.p) :
    sc.read seed (buckets s.mem) k ≠ 0#64 := by
  rcases h.read hk hp with hr | ⟨i, hn, hw, -⟩
  · exact hr
  · have hi := (window_entry.mp hw).2
    omega

theorem move (h : Visible seed s w k L) (hk : k ≠ 0#32)
    (hs : (table seed).step s (.move t) = some s') (hh : s'.halt = none)
    (hrun : Running (OneWriter w k) s) (hrun' : Running (OneWriter w k) s') :
    ∃ L', Visible seed s' w k L' := by
  obtain ⟨p, L', hp, hW, ha⟩ := h.toWriting.move hs hh
    (fun ht p hp => hrun.not_erases ht hp) fun u hu p hp => hrun'.reads hu hp
  have hfrom : ∀ n, MemberFrom (homeOf seed) HOP L (entry k) n →
      MemberFrom (homeOf seed) HOP L' (entry k) n := by
    intro n hn
    refine ha.memberFrom h.inv hp (h.suited t) (entry_ne_zero hk) ?_ hn
    rintro key tid q rfl he
    have hc : t = w ∧ key ≠ k := hrun t _ hp
    exact hc.2 (entry_inj he).symm
  obtain rfl := Machine.eq_advance hp hs
  have hthr : ((table seed).advance t p s).thr = Function.update s.thr t (next seed s.mem p) :=
    Machine.advance_thr hh
  refine ⟨L', hW, ?_, fun u sc hu => ?_⟩
  · obtain ⟨i, hw, hi⟩ := h.member
    obtain ⟨j, -, hj⟩ := hfrom 0 ⟨i, Nat.zero_le _, hw, hi⟩
    exact ⟨j, hj⟩
  · rw [hthr] at hu
    by_cases hut : u = t
    · subst hut
      rw [Function.update_self] at hu
      obtain ⟨sc₀, rfl, -, rfl⟩ := next_contains hu
      exact (h.read hk hp).imp id (hfrom _)
    · rw [Function.update_of_ne hut] at hu
      exact (h.scans u sc hu).imp id (hfrom _)

end Visible

/-! ### A key that nobody adds -/

/-- The key is stored nowhere, and no scan has found it. -/
structure Absent (seed : BitVec 32) (s : State) (w : ℕ) (k : Key) (L : ℕ → Word) : Prop extends
    Writing seed s w L where
  gone : ¬ Has L (entry k)
  scans : ∀ t sc, s.thr t = some (.contains k sc) → sc.cxx = 0#64

namespace Absent

variable {s s' : State} {w t : ℕ} {k : Key} {L : ℕ → Word}

theorem call {c : Call} (h : Absent seed s w k L)
    (hs : (table seed).step s (.call t c) = some s') (hc : t ≠ w → (Pc.start c).Reads) :
    Absent seed s' w k L := by
  have hW := h.toWriting.call hs hc
  obtain ⟨-, -, rfl⟩ := Machine.step_call.mp hs
  refine ⟨hW, h.gone, fun u sc hu => ?_⟩
  by_cases hut : u = t
  · subst hut
    obtain he : Pc.start c = .contains k sc := by simpa [table] using hu
    cases c <;> cases he
    rfl
  · exact h.scans u sc (by simpa [Function.update_of_ne hut] using hu)

/-- No read finds the key. -/
theorem read {sc : Scan} (h : Absent seed s w k L) (hk : k ≠ 0#32)
    (hp : s.thr t = some (.contains k sc)) : sc.read seed (buckets s.mem) k = 0#64 := by
  have hle : sc.p ≤ HOP := h.inv.ok t _ hp
  by_contra hr
  rcases (read_ne_zero hle).mp hr with hc | hit
  · exact hc (h.scans t sc hp)
  · rcases member_of_hit h.inv h.suited hk hit with hi | ⟨i, -, hi⟩
    · exact h.gone ⟨_, hi⟩
    · exact h.gone ⟨i, hi⟩

theorem move (h : Absent seed s w k L) (hk : k ≠ 0#32)
    (hs : (table seed).step s (.move t) = some s') (hh : s'.halt = none)
    (hrun : Running (OneWriter w k) s) (hrun' : Running (OneWriter w k) s')
    (hadds : Running (OnlyAdds k) s) :
    ∃ L', Absent seed s' w k L' := by
  obtain ⟨p, L', hp, hW, ha⟩ := h.toWriting.move hs hh
    (fun ht p hp => hrun.not_erases ht hp) fun u hu p hp => hrun'.reads hu hp
  have hgone : ¬ Has L' (entry k) := by
    rintro ⟨i, hi⟩
    have hc := hadds t p hp
    rcases p with ⟨key, a⟩ | ⟨key, tid, a⟩ | ⟨key, sc⟩
    · rcases ha.above h.inv hp (entry_ne_zero hk) hi with ⟨j, -, hj⟩ | ⟨-, he, -⟩
      · exact h.gone ⟨j, hj⟩
      · exact hc (entry_inj he).symm
    · exact hc
    · obtain ⟨-, rfl⟩ := Writing.act_of_reads ha trivial id
      exact h.gone ⟨i, hi⟩
  obtain rfl := Machine.eq_advance hp hs
  have hthr : ((table seed).advance t p s).thr = Function.update s.thr t (next seed s.mem p) :=
    Machine.advance_thr hh
  refine ⟨L', hW, hgone, fun u sc hu => ?_⟩
  rw [hthr] at hu
  by_cases hut : u = t
  · subst hut
    rw [Function.update_self] at hu
    obtain ⟨sc₀, rfl, -, rfl⟩ := next_contains hu
    exact h.read hk hp
  · rw [Function.update_of_ne hut] at hu
    exact h.scans u sc hu

end Absent

/-! ### The answers of the lookups -/

/-- Every lookup of `k` that has returned has answered `B`. -/
def Answers (k : Key) (B : Bool) (s : State) : Prop :=
  ∀ t b, (t, (.contains k, b)) ∈ s.log → b = B

theorem Answers.step {s s' : State} {k : Key} {B : Bool} {l : Label Call} (h : Answers k B s)
    (hs : (table seed).step s l = some s')
    (hret : ∀ t sc, s.thr t = some (.contains k sc) → HOP ≤ sc.p →
      (sc.read seed (buckets s.mem) k != 0#64) = B) : Answers k B s' := by
  cases l with
  | call t c =>
    obtain ⟨-, -, rfl⟩ := Machine.step_call.mp hs
    exact h
  | move t =>
    obtain ⟨-, p, hp, rfl⟩ := Machine.step_move.mp hs
    intro u b hu
    rcases Machine.advance_log (M := table seed) (s := s) t p with hl | ⟨r, hf, hl⟩
    · rw [hl] at hu
      exact h u b hu
    · rw [hl] at hu
      rcases List.mem_cons.mp hu with he | hin
      · obtain ⟨rfl, rfl⟩ := Prod.mk.inj he
        obtain ⟨sc, rfl, hend, rfl⟩ := ret_contains hf
        exact hret u sc hp hend
      · exact h u b hin

/-- Beside one writer that does not remove `k`, from a table without tags: if `k` is
stored in its window, every lookup of `k` returns true; and if `k` is read nowhere and
the writer only adds other keys, every lookup of `k` returns false. -/
theorem lookups_beside_one_writer {w : ℕ} {k : Key} {ls : List (Label Call)} {s : State}
    (hm : ∀ i, tag (buckets m i) = 0#64) (hk : k ≠ 0#32)
    (hl : ∀ l ∈ ls, Calls (OneWriter w k) l)
    (hr : (table seed).run ls (idleState m) = some s) :
    ((∃ p ≤ HOP, buckets m (home seed k + p) = entry k) →
      ∀ t b, (t, (.contains k, b)) ∈ s.log → b = true) ∧
    ((∀ i, ¬ Hit (buckets m) k i) → (∀ l ∈ ls, Calls (OnlyAdds k) l) →
      ∀ t b, (t, (.contains k, b)) ∈ s.log → b = false) := by
  have hstart : ∀ P, Running P (idleState m) := fun _ _ _ h => by cases h
  have hlog : ∀ B, Answers k B (idleState m) := fun _ _ _ h => by cases h
  have hW : Writing seed (idleState m) w (buckets m) := Writing.idle hm w
  have hcall : ∀ t c, Calls (OneWriter w k) (.call t c) → t ≠ w → (Pc.start c).Reads := by
    intro t c hc ht
    cases c with
    | contains key => trivial
    | add key => exact absurd hc ht
    | remove key tid => exact absurd hc.1 ht
  constructor
  · rintro ⟨p, hp, hT⟩
    have hstep : ∀ s l s', (Running (OneWriter w k) s ∧ Answers k true s ∧
        (s.halt = none → ∃ L, Visible seed s w k L)) → Calls (OneWriter w k) l →
        (table seed).step s l = some s' → Running (OneWriter w k) s' ∧ Answers k true s' ∧
          (s'.halt = none → ∃ L, Visible seed s' w k L) := by
      rintro s l s' ⟨hrun, hans, hV⟩ hq hs
      obtain ⟨L, hL⟩ := hV (Machine.halt_of_step hs)
      have hrun' := hrun.step hq hs
      refine ⟨hrun', hans.step hs fun t sc ht hend => ?_, fun hh => ?_⟩
      · exact bne_iff_ne.mpr (hL.ret hk ht hend)
      · cases l with
        | call t c => exact ⟨L, hL.call hs (hcall t c hq)⟩
        | move t => exact hL.move hk hs hh hrun hrun'
    have hV : Visible seed (idleState m) w k (buckets m) := by
      refine ⟨hW, ⟨_, ?_, hT⟩, fun _ _ h => by cases h⟩
      exact window_entry.mpr ⟨Nat.le_add_right _ _, by omega⟩
    exact (Machine.run_inv hstep ⟨hstart _, hlog _, fun _ => ⟨_, hV⟩⟩ (.of_forall hl) hr).2.1
  · intro hno hadds
    have hstep : ∀ s l s', ((Running (OneWriter w k) s ∧ Running (OnlyAdds k) s) ∧
        Answers k false s ∧ (s.halt = none → ∃ L, Absent seed s w k L)) →
        (Calls (OneWriter w k) l ∧ Calls (OnlyAdds k) l) → (table seed).step s l = some s' →
        (Running (OneWriter w k) s' ∧ Running (OnlyAdds k) s') ∧ Answers k false s' ∧
          (s'.halt = none → ∃ L, Absent seed s' w k L) := by
      rintro s l s' ⟨⟨hrun, hadd⟩, hans, hV⟩ hq hs
      obtain ⟨L, hL⟩ := hV (Machine.halt_of_step hs)
      have hrun' := hrun.step hq.1 hs
      refine ⟨⟨hrun', hadd.step hq.2 hs⟩, hans.step hs fun t sc ht _ => ?_, fun hh => ?_⟩
      · rw [hL.read hk ht]
        rfl
      · cases l with
        | call t c => exact ⟨L, hL.call hs (hcall t c hq.1)⟩
        | move t => exact hL.move hk hs hh hrun hrun' hadd
    have hV : Absent seed (idleState m) w k (buckets m) := by
      refine ⟨hW, ?_, fun _ _ h => by cases h⟩
      rintro ⟨i, hi⟩
      exact hno i (Or.inl hi)
    exact (Machine.run_inv hstep ⟨⟨hstart _, hstart _⟩, hlog _, fun _ => ⟨_, hV⟩⟩
      (.of_forall fun l h => ⟨hl l h, hadds l h⟩) hr).2.1

instance (w : ℕ) (k : Key) (t : ℕ) : DecidablePred (OneWriter w k t)
  | .contains _ => isTrue trivial
  | .add _ => inferInstanceAs (Decidable (t = w))
  | .remove key _ => inferInstanceAs (Decidable (t = w ∧ key ≠ k))

instance (k : Key) (t : ℕ) : DecidablePred (OnlyAdds k t)
  | .contains _ => isTrue trivial
  | .add key => inferInstanceAs (Decidable (key ≠ k))
  | .remove _ _ => isFalse id

instance (P : ℕ → Call → Prop) [∀ t, DecidablePred (P t)] : DecidablePred (Calls P)
  | .call t c => inferInstanceAs (Decidable (P t c))
  | .move _ => isTrue trivial

/-! The slots 1000 to 1016 are full. The writer moves the key in slot 1002 to slot
1017; a lookup of that key begins when slot 1017 holds it too. -/

def fullWindow : List Key :=
  [12749043, 32323154, 14294523, 25996583, 26908912, 96331457, 22408621, 43929219, 411137,
    19744238, 61233365, 16851735, 42944407, 17995410, 1028799, 39482353, 25437104]

def movedRun : List (Label Call) :=
  alone 0 (.add 56200813) 44 ++ [.call 1 (.contains 14294523), .move 0] ++
    List.replicate 17 (.move 1) ++ alone 2 (.contains 7) 17

set_option maxRecDepth 10000 in
theorem one_lookup_beside_a_writer : ∃ s,
    (table 1).run movedRun (idleState (tableOf 1000 fullWindow)) = some s ∧
    (1, (.contains 14294523, true)) ∈ s.log ∧ (2, (.contains 7, false)) ∈ s.log := by
  have h : ((table 1).run movedRun (idleState (tableOf 1000 fullWindow))).any (fun s => decide (
      (∃ b, (1, (Call.contains 14294523, b)) ∈ s.log) ∧
      ∃ b, (2, (Call.contains 7, b)) ∈ s.log)) = true := by decide +kernel
  obtain ⟨s, hs, h⟩ := (Option.any_eq_true _ _).mp h
  obtain ⟨⟨b, hb⟩, b', hb'⟩ := of_decide_eq_true h
  obtain ⟨hfound, -⟩ := lookups_beside_one_writer (w := 0) (k := 14294523) (tag_tableOf _ _)
    (by decide) (by decide +kernel) hs
  obtain ⟨-, hgone⟩ := lookups_beside_one_writer (w := 0) (k := 7) (tag_tableOf _ _)
    (by decide) (by decide +kernel) hs
  have hno : ∀ i, ¬ Hit (buckets (tableOf 1000 fullWindow)) 7 i := by
    rintro i (h | h)
    · rcases buckets_tableOf 1000 fullWindow i with h0 | ⟨key, hkey, h1⟩
      · rw [h0] at h
        exact entry_ne_zero (by decide) h.symm
      · obtain rfl := entry_inj (h1.symm.trans h)
        exact absurd hkey (by decide)
    · exact ne_moving (tag_tableOf 1000 fullWindow i) h
  obtain rfl := hfound ⟨0, Nat.zero_le _, by decide +kernel⟩ 1 b hb
  obtain rfl := hgone hno (by decide +kernel) 2 b' hb'
  exact ⟨s, hs, hb, hb'⟩

end LFHash
