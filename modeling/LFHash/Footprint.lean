/-
# Calls that share no cell

`add(key)` works in the 257 slots from the home of its key on, `contains` and `Remove` in the
17 slots of the window, and only `Remove` draws a stamp (`Call.Uses`). So threads whose
calls share no cell with the calls of the others run as they would run alone, whatever
the others do and however the accesses interleave.

Key definitions: `Call.Uses`, `Pc.Stays`, `SharesNothing`.
Key theorems: `Pc.uses_addr`, `groups_run_as_alone`.
-/
import LFHash.Bounds
import LFHash.Locality
import LFHash.Survival

namespace LFHash

open Interleave

variable {seed : BitVec 32} {key : Key}

/-- The cells a call may access. -/
def Call.Uses (seed : BitVec 32) : Call → Cell → Prop
  | .add key, .bucket i => home seed key ≤ i ∧ i ≤ home seed key + ADD_RANGE
  | .remove key _, .bucket i | .contains key, .bucket i =>
    home seed key ≤ i ∧ i ≤ home seed key + HOP
  | .remove _ _, .timeStamp => True
  | .add _, .timeStamp | .contains _, .timeStamp => False

instance (seed : BitVec 32) (c : Call) (a : Cell) : Decidable (c.Uses seed a) := by
  cases c <;> cases a <;> unfold Call.Uses <;> infer_instance

/-! ### Where the accesses go -/

/-- `Ind` is one of the slots from `Loc - H` to `Loc`. -/
def Relocate.IndIn (Loc : ℕ) : Relocate → Prop
  | .getInd _ Ind => Loc ≤ Ind + HOP ∧ Ind ≤ Loc
  | .getReplace _ | .loadExp _ | .mark _ _ | .loadDest _ | .loadFin _ _ | .copy _ _ _
  | .loadMark _ | .overwrite _ _ => True

theorem Relocate.indIn_next {Loc : ℕ} {e : Word} {q q' : Relocate} {r : Ans} (h : q.Ok Loc)
    (hf : (relocate seed Loc e q).2 r = .goto q') : q'.IndIn Loc := by
  cases q with
  | getInd i ind | getReplace i =>
    rcases seek_eq_goto.mp hf with ⟨rfl, -, -⟩ | ⟨rfl, -, -⟩ <;> trivial
  | mark i Exp =>
    obtain ⟨hle, hlt, -⟩ := h
    simp only [relocate] at hf
    split_ifs at hf <;> cases hf
    · trivial
    · exact ⟨by omega, hlt⟩
  | loadExp i | loadDest i | loadFin i Dest | copy i Dest Fin | loadMark i =>
    cases hf
    trivial
  | overwrite i Exp => cases hf

theorem Relocate.addr_in {Loc : ℕ} {e : Word} {q : Relocate} (h : q.Ok Loc) (hi : q.IndIn Loc) :
    ∃ i, (relocate seed Loc e q).1.addr = .bucket i ∧ Loc ≤ i + HOP ∧ i ≤ Loc := by
  cases q with
  | getInd r Ind => exact ⟨Ind, rfl, hi⟩
  | getReplace r => exact ⟨r, rfl, h⟩
  | mark r Exp => exact ⟨r, rfl, h.1, h.2.1.le⟩
  | loadExp r | loadFin r Dest | loadMark r | overwrite r Exp => exact ⟨r, rfl, h.1, h.2.le⟩
  | loadDest r | copy r Dest Fin => exact ⟨Loc, rfl, Nat.le_add_right _ _, le_rfl⟩

def Add.IndIn : Add → Prop
  | .relocate Loc q => q.IndIn Loc
  | .contains _ | .probe _ _ _ | .reserve _ _ _ | .loadExp _ | .release _ _ | .insert _ => True

theorem Add.indIn_settle {i : ℕ} (h1 : home seed key ≤ i) (h2 : i ≤ home seed key + ADD_RANGE) :
    (Add.settle seed key i).IndIn := by
  have hh := home_lt seed key
  have hi : i < 2 ^ 32 := by
    simp only [TotalBuckets, ADD_RANGE] at *
    omega
  unfold Add.settle
  rw [sub32_of_le h1 hi]
  by_cases hfar : HOP < i - home seed key
  · rw [if_pos hfar]
    show i ≤ sub32 i HOP + HOP ∧ sub32 i HOP ≤ i
    rw [sub32_of_le (by omega) hi]
    omega
  · rw [if_neg hfar]
    trivial

theorem Add.indIn_probeNext (tg : Word) (i n : ℕ) : (Add.probeNext tg i n).IndIn := by
  unfold Add.probeNext
  split_ifs <;> trivial

theorem Add.indIn_next {p p' : Add} {r : Ans} (h : p.Ok seed key)
    (hf : (add seed key p).2 r = .goto p') : p'.IndIn := by
  cases p with
  | contains s =>
    rcases Flow.bind_eq_goto.mp hf with ⟨s', -, rfl⟩ | ⟨b, -, hb⟩
    · trivial
    · split_ifs at hb
      cases hb
      exact indIn_probeNext ..
  | probe tg i n =>
    simp only [add] at hf
    split_ifs at hf <;> cases hf
    · exact indIn_probeNext ..
    · trivial
  | reserve tg i n =>
    obtain ⟨h1, h2, -⟩ := h
    simp only [add, Add.reserved] at hf
    split_ifs at hf <;> cases hf
    · exact indIn_probeNext ..
    · exact indIn_settle h1 (by omega)
  | relocate Loc q =>
    obtain ⟨h1, h2, hq⟩ := h
    rcases Flow.bind_eq_goto.mp hf with ⟨q', hq', rfl⟩ | ⟨i, hi, hk⟩
    · exact Relocate.indIn_next hq hq'
    · obtain ⟨h3, h4⟩ := Relocate.ok_ret hq hi
      split_ifs at hk
      cases hk
      exact indIn_settle (by omega) (by omega)
  | loadExp i | release i Exp =>
    cases hf
    trivial
  | insert q =>
    rcases Flow.bind_eq_goto.mp hf with ⟨q', -, rfl⟩ | ⟨b, -, hb⟩
    · trivial
    · split_ifs at hb
      cases hb
      trivial

/-- What keeps a call's accesses among its cells. -/
def Pc.Stays (seed : BitVec 32) : Pc → Prop
  | .add key p => p.Ok seed key ∧ p.IndIn
  | .remove _ _ q => q.Low
  | .contains _ s => s.p ≤ HOP

theorem Pc.stays_start (c : Call) : (Pc.start c).Stays seed := by
  cases c with
  | add key => exact ⟨Nat.zero_le _, trivial⟩
  | remove key tid => trivial
  | contains key => exact Nat.zero_le _

theorem Pc.stays_next (p : Pc) (r : Ans) (p' : Pc) (h : p.Stays seed)
    (hf : (p.code seed).2 r = .goto p') : p'.Stays seed := by
  rcases p with ⟨key, a⟩ | ⟨key, tid, q⟩ | ⟨key, sc⟩
  · obtain ⟨a', ha, rfl⟩ | ⟨b, -, hb⟩ := Flow.bind_eq_goto.mp hf
    · exact ⟨Add.ok_next h.1 ha, Add.indIn_next h.1 ha⟩
    · cases hb
  · obtain ⟨q', hq, rfl⟩ | ⟨b, -, hb⟩ := Flow.bind_eq_goto.mp hf
    · exact Remove.low_next h hq
    · cases hb
  · obtain ⟨sc', hs, rfl⟩ | ⟨b, -, hb⟩ := Flow.bind_eq_goto.mp hf
    · exact Scan.ok_next hs
    · cases hb

theorem Add.uses_addr {p : Add} (h : p.Ok seed key) (hi : p.IndIn) :
    (Call.add key).Uses seed (add seed key p).1.addr := by
  have hle : HOP ≤ ADD_RANGE := by decide
  -- a slot of the window is a slot of the range
  have hwin : ∀ q ≤ HOP, (Call.add key).Uses seed (.bucket (home seed key + q)) := fun q hq =>
    ⟨Nat.le_add_right _ _, Nat.add_le_add_left (hq.trans hle) _⟩
  cases p with
  | contains s => exact hwin s.p h
  | probe tg i n =>
    obtain ⟨h1, h2, h3⟩ := h
    exact ⟨h1, by omega⟩
  | reserve tg i n =>
    obtain ⟨h1, h2, h3⟩ := h
    exact ⟨h1, by omega⟩
  | relocate Loc q =>
    obtain ⟨h1, h2, hq⟩ := h
    obtain ⟨i, haddr, h3, h4⟩ := Relocate.addr_in (e := newEntry key) hq hi
    have hadd : (add seed key (.relocate Loc q)).1.addr = .bucket i := haddr
    rw [hadd]
    exact ⟨by omega, by omega⟩
  | loadExp i | release i Exp => exact ⟨h.1, h.2.trans (Nat.add_le_add_left hle _)⟩
  | insert q =>
    cases q with
    | first tg c p | claim tg c p | second c p => exact hwin p h
    | reuse slot p => exact h.elim

theorem Remove.uses_addr {q : Remove} {tid : ℤ} (h : q.Low) :
    (Call.remove key tid).Uses seed (remove seed key q).1.addr := by
  cases q with
  | stamp => trivial
  | testKey | testMoving | removeKey => exact ⟨Nat.le_add_right _ _, Nat.add_le_add_left h.1 _⟩
  | removeMoving | loadSlot | testSlot | poison =>
    exact ⟨Nat.le_add_right _ _, Nat.add_le_add_left h _⟩

/-- Every access of a call goes to one of its cells. -/
theorem Pc.uses_addr {p : Pc} (h : p.Stays seed) : p.call.Uses seed (p.code seed).1.addr := by
  rcases p with ⟨key, a⟩ | ⟨key, tid, q⟩ | ⟨key, sc⟩
  · exact Add.uses_addr h.1 h.2
  · exact Remove.uses_addr h
  · exact ⟨Nat.le_add_right _ _, Nat.add_le_add_left h _⟩

/-! ### Two groups of threads -/

/-- No cell is used by a call of the threads `mine` and by a call of another thread. -/
def SharesNothing (seed : BitVec 32) (mine : ℕ → Bool) (ls : List (WeakLabel Call)) : Prop :=
  ∀ t c, .step (.call t c) ∈ ls → mine t = true → ∀ u c', .step (.call u c') ∈ ls →
    mine u = false → ∀ a, ¬ (c.Uses seed a ∧ c'.Uses seed a)

/-- Threads whose calls share no cell with the calls of the others run as if alone, spurious
failures included: the same steps make a run without the others, with the same results in
the same order, the same calls under way and the same words in the cells they use. -/
theorem groups_run_as_alone {mine : ℕ → Bool} {ls : List (WeakLabel Call)} {s : State}
    (hr : (table seed).weakRun Pc.isWeak ls fresh = some s) (hsep : SharesNothing seed mine ls) :
    ∃ s₁, (table seed).weakRun Pc.isWeak (ls.filter fun l => mine l.thread) fresh = some s₁ ∧
      s₁.log = s.log.filter (fun x => mine x.1) ∧ (∀ t, mine t = true → s₁.thr t = s.thr t) ∧
      (∀ t c, .step (.call t c) ∈ ls → mine t = true → ∀ a, c.Uses seed a →
        s₁.mem a = s.mem a) ∧
      (s₁.halt = none ∨ s₁.halt = s.halt) := by
  have hstart : Agree mine (fun a => ∃ t c, .step (.call t c) ∈ ls ∧ mine t = true ∧
      c.Uses seed a) fresh fresh := ⟨fun _ _ => rfl, fun _ _ => rfl, rfl, Or.inl rfl⟩
  have hnext : ∀ (t : ℕ) (p : Pc) (r : Ans) (p' : Pc), p.Stays seed ∧ .step (.call t p.call) ∈ ls →
      (p.code seed).2 r = .goto p' → p'.Stays seed ∧ .step (.call t p'.call) ∈ ls := by
    rintro t p r p' ⟨hst, hc⟩ hf
    refine ⟨Pc.stays_next p r p' hst hf, ?_⟩
    rwa [Pc.call_goto hf]
  have haddr : ∀ (t : ℕ) (p : Pc), p.Stays seed ∧ .step (.call t p.call) ∈ ls →
      ((∃ u c, .step (.call u c) ∈ ls ∧ mine u = true ∧ c.Uses seed (p.code seed).1.addr) ↔
        mine t = true) := by
    rintro t p ⟨hst, hc⟩
    have huse := Pc.uses_addr hst
    constructor
    · rintro ⟨u, c, hcu, hu, hcell⟩
      by_contra ht
      exact hsep u c hcu hu t p.call hc (by simpa using ht) _ ⟨hcell, huse⟩
    · intro ht
      exact ⟨t, p.call, hc, ht, huse⟩
  have hcall : ∀ t c, .step (.call t c) ∈ ls →
      (Pc.start c).Stays seed ∧ .step (.call t (Pc.start c).call) ∈ ls := by
    intro t c hc
    refine ⟨Pc.stays_start c, ?_⟩
    rwa [Pc.call_start]
  obtain ⟨s₁, hrun, hend⟩ := Agree.run (M := table seed) hnext haddr hcall
    (fun _ _ h => by cases h) hstart hr
  exact ⟨s₁, hrun, hend.log, hend.thr, fun t c hc ht a ha => hend.mem a ⟨t, c, hc, ht, ha⟩,
    hend.halt⟩

/-- Thread 0 adds the key 1, while thread 1 removes the key 2 and thread 2 adds the key 3. -/
def threeRegions : List (WeakLabel Call) :=
  (alone 0 (.add 1) 10 ++ alone 1 (.remove 2 0) 5 ++ alone 2 (.add 3) 23 ++
    List.replicate 13 (Label.move 0) ++ List.replicate 66 (Label.move 1)).map .step

theorem calls_threeRegions {t : ℕ} {c : Call} (h : .step (.call t c) ∈ threeRegions) :
    t = 0 ∧ c = .add 1 ∨ t = 1 ∧ c = .remove 2 0 ∨ t = 2 ∧ c = .add 3 := by
  simpa [threeRegions, alone] using h

/-- The homes of the keys 1, 2 and 3 are more than 256 slots apart. -/
theorem sharesNothing_threeRegions : SharesNothing 1 (· == 0) threeRegions := by
  have h1 : home 1 1 = 22770341 := by decide +kernel
  have h2 : home 1 2 = 1238467 := by decide +kernel
  have h3 : home 1 3 = 17724717 := by decide +kernel
  intro t c hc ht u c' hc' hu a hboth
  obtain ⟨rfl, rfl⟩ : t = 0 ∧ c = .add 1 := by
    rcases calls_threeRegions hc with h | ⟨rfl, -⟩ | ⟨rfl, -⟩
    · exact h
    · cases ht
    · cases ht
  obtain ⟨hin, hin'⟩ := hboth
  cases a with
  | timeStamp => exact hin
  | bucket i =>
    obtain ⟨hlo, hhi⟩ := hin
    rw [h1] at hlo hhi
    rcases calls_threeRegions hc' with ⟨rfl, -⟩ | ⟨-, rfl⟩ | ⟨-, rfl⟩
    · cases hu
    · have hle : i ≤ home 1 2 + HOP := hin'.2
      rw [h2] at hle
      simp only [HOP] at hle
      omega
    · have hle : i ≤ home 1 3 + ADD_RANGE := hin'.2
      rw [h3] at hle
      simp only [ADD_RANGE] at hle
      omega

set_option maxRecDepth 10000 in
theorem one_thread_runs_as_alone : ∃ s s₁,
    (table 1).weakRun Pc.isWeak threeRegions fresh = some s ∧ s.log.length = 3 ∧
    (table 1).weakRun Pc.isWeak (threeRegions.filter fun l => l.thread == 0) fresh = some s₁ ∧
    s₁.log = s.log.filter fun x => x.1 == 0 := by
  have h : ((table 1).weakRun Pc.isWeak threeRegions fresh).any
      (fun s => decide (s.log.length = 3)) = true := by
    decide +kernel
  obtain ⟨s, hs, hlen⟩ := (Option.any_eq_true _ _).mp h
  obtain ⟨s₁, hs₁, hlog, -⟩ := groups_run_as_alone hs sharesNothing_threeRegions
  exact ⟨s, s₁, hs, of_decide_eq_true hlen, hs₁, hlog⟩

end LFHash
