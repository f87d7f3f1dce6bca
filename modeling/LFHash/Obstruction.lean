/-
# A thread that runs alone

Let every other thread stop where it is. The running call then finishes, unless
`Relocate` comes to a slot that carries a tag while the word in the next slot is
in reach of `Loc`: the compare-exchange of line 191 expects the word without its
tag and fails, `Ind` goes to the next slot and `Replace` stays (`Blocked`). From
there it makes the same three accesses forever. Everywhere else `rank` falls with
each access.

Key definitions: `Blocked`, `rank`.
Key theorems: `rank_lt`, `Blocked.never_finishes`, `finishes_iff_never_blocked`.
-/
import LFHash.InProgress

namespace LFHash

open Interleave

variable {seed : BitVec 32}

/-- Line 191 fails on the tagged slot `Replace`, and the word in the next slot
sends `Relocate` back to the same candidate. -/
def Pc.Blocked (seed : BitVec 32) (T : ℕ → Word) : Pc → Prop
  | .add _ (.relocate Loc (.mark r _)) => tag (T r) ≠ 0#64 ∧ hopDist seed Loc (T (r + 1)) < HOP
  | _ => False

instance (T : ℕ → Word) : DecidablePred (Pc.Blocked seed T)
  | .add _ (.relocate Loc (.mark r _)) =>
    inferInstanceAs (Decidable (tag (T r) ≠ 0#64 ∧ hopDist seed Loc (T (r + 1)) < HOP))
  | .add _ (.relocate _ (.getInd _ _)) | .add _ (.relocate _ (.getReplace _))
  | .add _ (.relocate _ (.loadExp _)) | .add _ (.relocate _ (.loadDest _))
  | .add _ (.relocate _ (.loadFin _ _)) | .add _ (.relocate _ (.copy _ _ _))
  | .add _ (.relocate _ (.loadMark _)) | .add _ (.relocate _ (.overwrite _ _))
  | .add _ (.contains _) | .add _ (.probe _ _ _) | .add _ (.reserve _ _ _) | .add _ (.loadExp _)
  | .add _ (.release _ _) | .add _ (.insert _) | .remove _ _ _ | .contains _ _ => isFalse id

/-- Thread `t` is blocked. -/
def Blocked (seed : BitVec 32) (s : State) (t : ℕ) : Prop :=
  s.halt = none ∧ ∃ p, s.thr t = some p ∧ p.Blocked seed (buckets s.mem)

/-- Thread `t`, running alone, finishes its call: it returns or exits. -/
def Finishes (seed : BitVec 32) (s : State) (t : ℕ) : Prop :=
  ∃ n s', (table seed).run (List.replicate n (.move t)) s = some s' ∧
    (s'.thr t = none ∨ s'.halt ≠ none)

/-! ### The measure -/

def Insert.rank : Insert → ℕ
  | .first _ _ p => 20 + 2 * (HOP - p) + 1
  | .claim _ _ p => 20 + 2 * (HOP - p)
  | .second _ p => HOP - p + 1
  | .reuse _ _ => 0

/-- The candidates left come first, then how the candidate stands: a failed
compare-exchange on an untagged slot is tried again once, with the right word. -/
def Relocate.rank (seed : BitVec 32) (T : ℕ → Word) (Loc : ℕ) : Relocate → ℕ
  | .getReplace r => 10 + 8 * (Loc - r) + 7
  | .getInd r ind => 10 + 8 * (Loc - r) + if hopDist seed Loc (T ind) < HOP then 4 else 1
  | .loadExp r => 10 + 8 * (Loc - r) + 3
  | .mark r Exp => 10 + 8 * (Loc - r) +
      if tag (T r) ≠ 0#64 then 2 else if T r = Exp then 0 else 5
  | .loadDest _ => 5
  | .loadFin _ _ => 4
  | .copy _ _ _ => 3
  | .loadMark _ => 2
  | .overwrite _ _ => 1

def Add.rank (seed : BitVec 32) (T : ℕ → Word) (key : Key) : Add → ℕ
  | .contains s => 200 * (home seed key + ADD_RANGE + 2) + 600 + (HOP + 1 - s.p)
  | .probe _ _ n => 200 * (home seed key + ADD_RANGE + 2) + 2 * (ADD_RANGE + 1 - n) + 1
  | .reserve _ _ n => 200 * (home seed key + ADD_RANGE + 2) + 2 * (ADD_RANGE + 1 - n)
  | .relocate Loc q => 56 + 200 * Loc + q.rank seed T Loc
  | .loadExp _ => 55
  | .release _ _ => 54
  | .insert q => q.rank

def Remove.rank : Remove → ℕ
  | .stamp => 200
  | .testKey _ s => 100 + 2 * (HOP - s.p) + 1
  | .testMoving _ s => 100 + 2 * (HOP - s.p)
  | .removeKey _ _ _ => 90
  | .removeMoving _ _ _ => 89
  | .loadSlot p _ => 3 * (HOP - p) + 3
  | .testSlot p _ _ => 3 * (HOP - p) + 2
  | .poison p _ _ => 3 * (HOP - p) + 1

/-- How far a thread can still be from the end of its call. -/
def Pc.rank (seed : BitVec 32) (T : ℕ → Word) : Pc → ℕ
  | .add key p => p.rank seed T key
  | .remove _ _ p => p.rank
  | .contains _ s => HOP + 1 - s.p

variable {m : Cell → Word} {key : Key}

theorem scan_rank {s s' : Scan} {r : Ans} (hf : (contains seed key s).2 r = .goto s') :
    HOP + 1 - s'.p < HOP + 1 - s.p := by
  simp only [contains] at hf
  split_ifs at hf <;> cases hf <;> simp only <;> omega

theorem remove_rank {q q' : Remove} {r : Ans} (hf : (remove seed key q).2 r = .goto q') :
    q'.rank < q.rank := by
  have hscan : ∀ final p cxx, (Remove.nextScan final p cxx).rank < 100 + 2 * (HOP - p) := by
    intro final p cxx
    unfold Remove.nextScan
    split_ifs <;> simp only [Remove.rank] <;> omega
  have hslot : ∀ p rem q', Remove.nextSlot p rem = .goto q' → q'.rank < 3 * (HOP - p) + 1 := by
    intro p rem q' h
    unfold Remove.nextSlot at h
    split_ifs at h
    cases h
    simp only [Remove.rank]
    omega
  cases q with
  | stamp => cases hf; simp [Remove.rank, Scan.start, HOP]
  | testKey final s =>
    simp only [remove] at hf
    split_ifs at hf <;> cases hf
    · exact (hscan _ _ _).trans (Nat.lt_succ_self _)
    · exact Nat.lt_succ_self _
  | testMoving final s =>
    simp only [remove] at hf
    split_ifs at hf <;> cases hf <;> exact hscan _ _ _
  | removeKey final i1 i2 => cases hf; exact Nat.lt_succ_self _
  | removeMoving final i2 rem1 => cases hf; simp [Remove.rank, HOP]
  | loadSlot p rem => cases hf; exact Nat.lt_succ_self _
  | testSlot p slot rem =>
    simp only [remove] at hf
    split_ifs at hf
    · cases hf
      exact Nat.lt_succ_self _
    · exact (hslot _ _ _ hf).trans (Nat.lt_succ_self _)
  | poison p slot rem => exact hslot _ _ _ hf

theorem insert_rank {b : ℕ} {q q' : Insert} {r : Ans} (hq : q.Ok)
    (hf : (bucketInsert b key q).2 r = .goto q') : q'.rank < q.rank := by
  have hnext : ∀ tg c p, (Insert.nextFirst tg c p).rank < 20 + 2 * (HOP - p) := by
    intro tg c p
    unfold Insert.nextFirst
    split_ifs
    · simp only [Insert.rank]
      omega
    · simp only [Insert.rank, HOP]
      omega
  cases q with
  | first tg c p =>
    simp only [bucketInsert, isRemoved_eq_false, Bool.false_eq_true, if_false] at hf
    split_ifs at hf <;> cases hf
    · exact Nat.lt_succ_self _
    · exact (hnext _ _ _).trans (Nat.lt_succ_self _)
  | claim tg c p =>
    simp only [bucketInsert] at hf
    split_ifs at hf
    cases hf
    exact hnext _ _ _
  | second c p =>
    simp only [bucketInsert, isRemoved_eq_false, Bool.false_eq_true, if_false] at hf
    split_ifs at hf
    cases hf
    simp only [Insert.rank]
    omega
  | reuse slot p => exact hq.elim

theorem relocate_rank {Loc : ℕ} {e : Word} {q q' : Relocate} (hq : q.Ok Loc)
    (hb : ∀ r Exp, q = .mark r Exp →
      ¬ (tag (buckets m r) ≠ 0#64 ∧ hopDist seed Loc (buckets m (r + 1)) < HOP))
    (hf : (relocate seed Loc e q).2 ((relocate seed Loc e q).1.exec m).1 = .goto q') :
    q'.rank seed (buckets ((relocate seed Loc e q).1.exec m).2) Loc <
      q.rank seed (buckets m) Loc := by
  cases q with
  | getInd r ind =>
    have hlt : r < Loc := hq.2
    rcases seek_eq_goto.mp hf with ⟨rfl, -⟩ | ⟨rfl, hd, -⟩
    · simp only [Relocate.rank]
      split_ifs <;> omega
    · have hd' : hopDist seed Loc (buckets m ind) < HOP := hd
      simp only [Relocate.rank, hd', if_true]
      omega
  | getReplace r =>
    rcases seek_eq_goto.mp hf with ⟨rfl, -, hlt⟩ | ⟨rfl, -, hlt⟩ <;> simp only [Relocate.rank] <;>
      omega
  | loadExp r =>
    cases hf
    show 10 + 8 * (Loc - r) + (if tag (buckets m r) ≠ 0#64 then 2
      else if buckets m r = strip (buckets m r) then 0 else 5) < 10 + 8 * (Loc - r) + 3
    by_cases ht : tag (buckets m r) = 0#64
    · simp [ht, strip_of_tag ht]
    · simp [ht]
  | mark r Exp =>
    have hnb := hb r Exp rfl
    by_cases he : m (.bucket r) = Exp
    · simp only [relocate, Access.exec_cas_of_eq m _ he, if_true] at hf
      cases hf
      simp only [Relocate.rank]
      omega
    · simp only [relocate, Access.exec_cas_of_ne m _ he, Bool.false_eq_true, if_false] at hf ⊢
      cases hf
      have he' : buckets m r ≠ Exp := he
      simp only [Relocate.rank, he', if_false]
      by_cases ht : tag (buckets m r) = 0#64
      · simp only [ht, ne_eq, not_true_eq_false, if_false]
        split_ifs <;> omega
      · have hd : ¬ hopDist seed Loc (buckets m (r + 1)) < HOP := fun hd => hnb ⟨ht, hd⟩
        simp only [ht, hd, ne_eq, not_false_eq_true, if_true, if_false]
        omega
  | loadDest r | loadFin r Dest | copy r Dest Fin | loadMark r =>
    cases hf
    exact Nat.lt_succ_self _
  | overwrite r Exp => cases hf

theorem rank_settle {T : ℕ → Word} {i : ℕ} (hi : HOP < sub32 i (home seed key) → HOP ≤ i)
    (hlt : i < 2 ^ 32) : (Add.settle seed key i).rank seed T key < 256 + 200 * i := by
  unfold Add.settle
  split_ifs with h
  · have hs : sub32 i HOP = i - HOP := sub32_of_le (hi h) hlt
    simp only [Add.rank, Relocate.start, Relocate.rank, hs]
    split_ifs <;> simp only [HOP] at * <;> omega
  · simp only [Add.rank]
    omega

theorem add_rank {a b : Add} (ha : a.Ok seed key)
    (hb : ¬ (Pc.add key a).Blocked seed (buckets m)) (hf : addFlow seed key m a = .goto b) :
    b.rank seed (buckets ((add seed key a).1.exec m).2) key < a.rank seed (buckets m) key := by
  have hh := home_lt seed key
  have hi : ∀ i, home seed key ≤ i → i ≤ home seed key + ADD_RANGE → ∀ T,
      (Add.settle seed key i).rank seed T key < 256 + 200 * i := by
    intro i h1 h2 T
    have hlt : i < 2 ^ 32 := by simp only [TotalBuckets, ADD_RANGE] at *; omega
    refine rank_settle (fun h => ?_) hlt
    rw [sub32_of_le h1 hlt] at h
    omega
  cases a with
  | contains s =>
    rcases Flow.bind_eq_goto.mp hf with ⟨s', hs, rfl⟩ | ⟨found, -, hb'⟩
    · exact Nat.add_lt_add_left (scan_rank hs) _
    · split_ifs at hb'
      cases hb'
      simp [Add.probeNext, Add.rank, ADD_RANGE]
      omega
  | probe tg i n =>
    obtain ⟨-, -, hn⟩ := ha
    simp only [addFlow, add] at hf
    split_ifs at hf <;> cases hf
    · unfold Add.probeNext
      split_ifs <;> simp only [Add.rank] <;> omega
    · exact Nat.lt_succ_self _
  | reserve tg i n =>
    obtain ⟨h1, h2, hn⟩ := ha
    simp only [addFlow, add, Add.reserved] at hf
    split_ifs at hf with hlt <;> cases hf
    · simp only [Bool.and_eq_true, decide_eq_true_eq] at hlt
      simp only [Add.probeNext, hlt.2, if_true, Add.rank]
      omega
    · refine (hi i h1 (by omega) _).trans_le ?_
      simp only [Add.rank]
      omega
  | relocate Loc q =>
    obtain ⟨h1, h2, hq⟩ := ha
    rcases Flow.bind_eq_goto.mp hf with ⟨q', hq', rfl⟩ | ⟨r, hr, hk⟩
    · refine Nat.add_lt_add_left (relocate_rank hq (fun r Exp e => ?_) hq') _
      subst e
      exact hb
    · obtain ⟨h3, h4⟩ := Relocate.ok_ret hq hr
      split_ifs at hk
      cases hk
      refine (hi r (by omega) (by omega) _).trans_le ?_
      simp only [Add.rank]
      omega
  | loadExp i => cases hf; exact Nat.lt_succ_self _
  | release i Exp => cases hf; simp [Add.rank, Insert.start, Insert.rank, HOP]
  | insert q =>
    rcases Flow.bind_eq_goto.mp hf with ⟨q', hq', rfl⟩ | ⟨b', hb', hk⟩
    · exact insert_rank ha hq'
    · obtain ⟨rfl, -⟩ := Insert.ok_ret ha hb'
      cases hk

/-- Unless the thread is blocked, its access brings it nearer to the end. -/
theorem rank_lt {p p' : Pc} (hp : p.Ok seed) (hb : ¬ p.Blocked seed (buckets m))
    (hf : (table seed).flow m p = .goto p') :
    p'.rank seed (buckets ((p.code seed).1.exec m).2) < p.rank seed (buckets m) := by
  rcases p with ⟨key, a⟩ | ⟨key, tid, a⟩ | ⟨key, s⟩
  · obtain ⟨b, hg, rfl⟩ | ⟨_, -, hr⟩ := Flow.bind_eq_goto.mp hf
    · exact add_rank hp hb hg
    · cases hr
  · obtain ⟨b, hg, rfl⟩ | ⟨_, -, hr⟩ := Flow.bind_eq_goto.mp hf
    · exact remove_rank hg
    · cases hr
  · obtain ⟨b, hg, rfl⟩ | ⟨_, -, hr⟩ := Flow.bind_eq_goto.mp hf
    · exact scan_rank hg
    · cases hr

/-! ### Running alone -/

/-- A thread that never is blocked finishes. -/
theorem finishes_of_never_blocked {s : State} {t : ℕ} (hS : Sound seed s)
    (hb : ∀ n s', (table seed).run (List.replicate n (.move t)) s = some s' → ¬ Blocked seed s' t) :
    Finishes seed s t := by
  cases hh : s.halt with
  | some e => exact ⟨0, s, rfl, Or.inr (by simp [hh])⟩
  | none =>
    cases hp : s.thr t with
    | none => exact ⟨0, s, rfl, Or.inl hp⟩
    | some p =>
      have hs : (table seed).step s (.move t) = some ((table seed).advance t p s) :=
        Machine.step_move.mpr ⟨hh, p, hp, rfl⟩
      have hcons : ∀ n s', (table seed).run (List.replicate n (.move t))
          ((table seed).advance t p s) = some s' →
          (table seed).run (List.replicate (n + 1) (.move t)) s = some s' := fun n s' h =>
        Machine.run_cons.mpr ⟨_, hs, h⟩
      cases hf : (table seed).flow s.mem p with
      | goto p' =>
        have hnb : ¬ p.Blocked seed (buckets s.mem) := fun h => hb 0 s rfl ⟨hh, p, hp, h⟩
        have hlt := rank_lt (hS t p hp) hnb hf
        have hadv := Machine.advance_goto (t := t) hf
        obtain ⟨n, s', hr, hfin⟩ := finishes_of_never_blocked
          (s := (table seed).advance t p s) (sound_step hS hs)
          fun n s' h => hb (n + 1) s' (hcons n s' h)
        exact ⟨n + 1, s', hcons n s' hr, hfin⟩
      | ret r =>
        refine ⟨1, _, hcons 0 _ rfl, Or.inl ?_⟩
        rw [Machine.advance_ret hf]
        exact Function.update_self ..
      | exit e =>
        refine ⟨1, _, hcons 0 _ rfl, Or.inr ?_⟩
        simp [Machine.advance_exit hf]
termination_by (s.thr t).elim 0 fun p => p.rank seed (buckets s.mem)
decreasing_by
  rw [hadv, hp]
  simpa [table] using hlt

/-- The three control points a blocked thread goes through. -/
def Circles (seed : BitVec 32) (s : State) (t : ℕ) : Prop :=
  s.halt = none ∧ ∃ key Loc r q, s.thr t = some (.add key (.relocate Loc q)) ∧ r < Loc ∧
    tag (buckets s.mem r) ≠ 0#64 ∧ hopDist seed Loc (buckets s.mem (r + 1)) < HOP ∧
    ((∃ Exp, q = .mark r Exp ∧ tag Exp = 0#64) ∨ q = .getInd r (r + 1) ∨ q = .loadExp r)

variable {s s' : State} {t : ℕ}

theorem Circles.step (h : Circles seed s t) (hs : (table seed).step s (.move t) = some s') :
    Circles seed s' t := by
  obtain ⟨hh, key, Loc, r, q, hp, hlt, ht, hd, hq⟩ := h
  obtain rfl := Machine.eq_advance hp hs
  -- each of the three accesses leaves the memory as it is and leads to the next point
  suffices hnext : ∃ q', ((add seed key (.relocate Loc q)).1.exec s.mem).2 = s.mem ∧
      addFlow seed key s.mem (.relocate Loc q) = .goto (.relocate Loc q') ∧
      ((∃ Exp, q' = .mark r Exp ∧ tag Exp = 0#64) ∨ q' = .getInd r (r + 1) ∨ q' = .loadExp r) by
    obtain ⟨q', hm, hf, hq'⟩ := hnext
    have hflow : (table seed).flow s.mem (.add key (.relocate Loc q)) =
        .goto (.add key (.relocate Loc q')) := Flow.bind_eq_goto.mpr (Or.inl ⟨_, hf, rfl⟩)
    have hm' : (((table seed).code (.add key (.relocate Loc q))).1.exec s.mem).2 = s.mem := hm
    rw [Machine.advance_goto hflow, hm']
    exact ⟨hh, key, Loc, r, q', Function.update_self .., hlt, ht, hd, hq'⟩
  rcases hq with ⟨Exp, rfl, hE⟩ | rfl | rfl
  · have hne : s.mem (.bucket r) ≠ Exp := by
      rintro rfl
      exact ht hE
    refine ⟨.getInd r (r + 1), ?_, ?_, Or.inr (Or.inl rfl)⟩
    · simp only [add, relocate, Point.inside_fst, Access.exec_cas_of_ne _ _ hne]
    · simp [addFlow, add, relocate, Access.exec_cas_of_ne _ _ hne]
  · have hsk : seek Loc r (hopDist seed Loc (s.mem (.bucket (r + 1)))) = .goto (.loadExp r) :=
      seek_eq_goto.mpr (Or.inr ⟨rfl, hd, hlt⟩)
    refine ⟨.loadExp r, rfl, ?_, Or.inr (Or.inr rfl)⟩
    simp only [addFlow, add, relocate, Point.inside_fst, Point.inside_snd, Access.exec_load, hsk,
      Flow.bind_goto]
  · exact ⟨.mark r (strip (buckets s.mem r)), rfl, rfl, Or.inl ⟨_, rfl, tag_strip _⟩⟩

theorem Blocked.circles (hS : Sound seed s) (h : Blocked seed s t) : Circles seed s t := by
  obtain ⟨hh, p, hp, hb⟩ := h
  unfold Pc.Blocked at hb
  split at hb
  · rename_i key Loc r Exp
    obtain ⟨-, -, -, hlt, hE⟩ := hS t _ hp
    exact ⟨hh, key, Loc, r, _, hp, hlt, hb.1, hb.2, Or.inl ⟨Exp, rfl, hE⟩⟩
  · exact hb.elim

/-- A blocked thread that runs alone never finishes. -/
theorem Blocked.never_finishes (hS : Sound seed s) (h : Blocked seed s t) :
    ¬ Finishes seed s t := by
  rintro ⟨n, s', hr, hfin⟩
  have hc := Machine.run_moves_inv (P := fun s => Circles seed s t) (fun _ _ => Circles.step) n
    (h.circles hS) hr
  obtain ⟨hh, key, Loc, r, q, hp, -⟩ := hc
  rcases hfin with h0 | h0
  · rw [hp] at h0
    cases h0
  · exact h0 hh

/-- In every reachable state, also behind weak compare-exchanges that have failed for no
reason, a running thread from then on alone finishes exactly if it never comes to a blocked
state. -/
theorem finishes_iff_never_blocked {ls : List (WeakLabel Call)}
    (hr : (table seed).weakRun Pc.isWeak ls fresh = some s) (t : ℕ) :
    Finishes seed s t ↔ ∀ n s', (table seed).run (List.replicate n (.move t)) s = some s' →
      ¬ Blocked seed s' t := by
  have hsound := sound_weakRun sound_fresh hr
  refine ⟨?_, finishes_of_never_blocked hsound⟩
  rintro ⟨n, s', hn, hfin⟩ k s₁ hk hb
  have hS : Sound seed s₁ := Machine.reach_inv (fun _ _ _ => sound_step) hsound hk
  rcases Nat.lt_or_ge n k with hlt | hle
  · -- a thread that has finished takes no further step
    obtain ⟨j, rfl⟩ := Nat.exists_eq_add_of_lt hlt
    rw [Nat.add_assoc, List.replicate_add, Machine.run_append, hn] at hk
    obtain ⟨s₂, h2, -⟩ := Machine.run_cons.mp hk
    obtain ⟨h3, p, hp, -⟩ := Machine.step_move.mp h2
    rcases hfin with h0 | h0
    · rw [hp] at h0
      cases h0
    · exact h0 h3
  · obtain ⟨j, rfl⟩ := Nat.exists_eq_add_of_le hle
    rw [List.replicate_add, Machine.run_append, hk] at hn
    exact hb.never_finishes hS ⟨j, s', hn, hfin⟩

/-! Thread 2 has reserved slot 1002, its line 166 has failed for no reason, and it stops there.
The slots around it fill up. Thread 18 reserves slot 1017 for a key with home 1000, fails once
at line 191 on slot 1002, and displaces the word of slot 1004. -/

def besideStopped : List (WeakLabel Call) :=
  (alone 0 (.add 12749043) 23 ++ alone 1 (.add 32323154) 23 ++
      alone 2 (.add 14294523) 20).map .step ++
    .fail 2 :: (alone 3 (.add 56200813) 29 ++ (([26908912, 96331457, 22408621, 43929219, 411137,
      19744238, 61233365, 16851735, 42944407, 17995410, 1028799, 39482353,
      25437104] : List Key).zipIdx 4).flatMap (fun x => alone x.2 (.add x.1) 23) ++
      alone 18 (.add 111078615) 36).map .step

set_option maxRecDepth 10000 in
theorem add_finishes_beside_stopped : ∃ s, (table 1).weakRun Pc.isWeak besideStopped fresh = some s ∧
    (s.thr 2).isSome = true ∧ tag (buckets s.mem 1002) = 3#64 ∧ Finishes 1 s 18 ∧
    ∀ n s', (table 1).run (List.replicate n (.move 18)) s = some s' → ¬ Blocked 1 s' 18 := by
  have h : ((table 1).weakRun Pc.isWeak besideStopped fresh).any (fun s =>
      decide ((s.thr 2).isSome = true ∧ tag (buckets s.mem 1002) = 3#64) &&
      ((table 1).run (List.replicate 22 (.move 18)) s).any fun s' => (s'.thr 18).isNone) = true := by
    decide +kernel
  obtain ⟨s, hs, h⟩ := (Option.any_eq_true _ _).mp h
  obtain ⟨hstopped, hend⟩ := (Bool.and_eq_true _ _).mp h
  obtain ⟨h2, htag⟩ := of_decide_eq_true hstopped
  obtain ⟨s', hs', hidle⟩ := (Option.any_eq_true _ _).mp hend
  have hfin : Finishes 1 s 18 := ⟨22, s', hs', Or.inl (Option.isNone_iff_eq_none.mp hidle)⟩
  exact ⟨s, hs, h2, htag, hfin, (finishes_iff_never_blocked hs 18).mp hfin⟩

/-! ### A thread that never finishes

Seventeen threads stop with their keys' homes reserved, the slots 1000 to 1016.
Thread 18 reserves slot 1017 for a key with home 1000. -/

def stopped : List (Label Call) :=
  ([12749043, 32323154, 14294523, 25996583, 26908912, 96331457, 22408621, 43929219,
    411137, 19744238, 61233365, 16851735, 42944407, 17995410, 1028799, 39482353, 25437104] : List Key).zipIdx.flatMap
    fun x => alone x.2 (.add x.1) 19

def blockedRun : List (Label Call) := stopped ++ alone 18 (.add 56200813) 39

set_option maxRecDepth 10000 in
theorem add_alone_can_run_forever : ∃ s, (table 1).run blockedRun fresh = some s ∧
    (∀ l ∈ blockedRun, NonZero l) ∧ s.halt = none ∧ (s.thr 18).isSome = true ∧
    ¬ Finishes 1 s 18 := by
  have h : ((table 1).run blockedRun fresh).any (fun s => decide (s.halt = none) &&
      (s.thr 18).any fun p => decide (p.Blocked 1 (buckets s.mem))) = true := by decide +kernel
  obtain ⟨s, hs, h⟩ := (Option.any_eq_true _ _).mp h
  simp only [Bool.and_eq_true, decide_eq_true_eq] at h
  obtain ⟨hh, h⟩ := h
  obtain ⟨p, hp, hb⟩ := (Option.any_eq_true _ _).mp h
  have hb' : Blocked 1 s 18 := ⟨hh, p, hp, of_decide_eq_true hb⟩
  exact ⟨s, hs, by decide +kernel, hh, by rw [hp]; rfl, hb'.never_finishes (sound_run hs)⟩

end LFHash
