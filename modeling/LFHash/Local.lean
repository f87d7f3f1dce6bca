/-
# Where a call can stand

What a control point's own locals satisfy, whatever the accesses reply: the
probe stays within `ADD_RANGE` of the home, `Relocate` works in the `HOP` slots
below `Loc`, `BucketInsert` in its window, and a released slot is in the window
of its key. `Pc.Ok` holds of every thread in every run (`sound_run`), also behind weak
compare-exchanges (`sound_weakRun`).
-/
import LFHash.Table
import LFHash.Weak

namespace LFHash

open Interleave

variable {seed : BitVec 32}

/-! ### Indices -/

theorem sub32_of_le {a b : ℕ} (hb : b ≤ a) (ha : a < 2 ^ 32) : sub32 a b = a - b := by
  unfold sub32
  omega

/-- An index is at most `HOP` above a home exactly if it is in the window. -/
theorem sub32_le_iff {i : ℕ} (hi : i < 2 ^ 32) (key : Key) :
    sub32 i (home seed key) ≤ HOP ↔ home seed key ≤ i ∧ i ≤ home seed key + HOP := by
  have hh := home_lt seed key
  simp only [sub32, HOP, TotalBuckets] at *
  omega

/-! ### `Relocate` -/

/-- The candidate test takes a slot less than `HOP` above its word's home. -/
theorem seek_eq_goto {Loc r d : ℕ} {q : Relocate} : seek Loc r d = .goto q ↔
    (q = .getReplace (r + 1) ∧ HOP ≤ d ∧ r < Loc) ∨ (q = .loadExp r ∧ d < HOP ∧ r < Loc) := by
  unfold seek
  split_ifs with h1 h2
  · simp only [Flow.goto.injEq, eq_comm (a := Relocate.getReplace _)]
    constructor
    · exact fun h => Or.inl ⟨h, h1⟩
    · rintro (⟨h, -⟩ | ⟨-, h, -⟩)
      · exact h
      · omega
  · simp only [false_iff]
    omega
  · simp only [Flow.goto.injEq, eq_comm (a := Relocate.loadExp _)]
    constructor
    · exact fun h => Or.inr ⟨h, by omega, by omega⟩
    · rintro (⟨-, h⟩ | ⟨h, -⟩)
      · exact absurd h h1
      · exact h

/-- `Relocate` gives up only once its cursor has reached `Loc`. -/
theorem seek_eq_exit {Loc r d : ℕ} {e : Exit} :
    seek Loc r d = .exit e ↔ e = .resize ∧ Loc ≤ r := by
  unfold seek
  split_ifs with h1 h2
  · simp only [false_iff, not_and, not_le]
    exact fun _ => h1.2
  · simp only [Flow.exit.injEq, eq_comm (a := Exit.resize)]
    exact ⟨fun h => ⟨h, by omega⟩, fun h => h.1⟩
  · simp only [false_iff, not_and, not_le]
    exact fun _ => by omega

/-- `Relocate(Loc, _)` looks at the `HOP` slots below `Loc`; past its candidate
test it has picked one of them. -/
def Relocate.Ok (Loc : ℕ) : Relocate → Prop
  | .getInd r _ => Loc ≤ r + HOP ∧ r < Loc
  | .getReplace r => Loc ≤ r + HOP ∧ r ≤ Loc
  | .loadExp r => Loc ≤ r + HOP ∧ r < Loc
  | .mark r Exp => Loc ≤ r + HOP ∧ r < Loc ∧ tag Exp = 0#64
  | .loadDest r => Loc ≤ r + HOP ∧ r < Loc
  | .loadFin r _ => Loc ≤ r + HOP ∧ r < Loc
  | .copy r _ Fin => Loc ≤ r + HOP ∧ r < Loc ∧ tag Fin = 0#64
  | .loadMark r => Loc ≤ r + HOP ∧ r < Loc
  | .overwrite r _ => Loc ≤ r + HOP ∧ r < Loc

theorem Relocate.ok_start {Loc : ℕ} (h : HOP < Loc) (hl : Loc < 2 ^ 32) :
    (Relocate.start Loc).Ok Loc := by
  simp only [Relocate.start, Relocate.Ok, sub32_of_le h.le hl]
  simp only [HOP] at *
  omega

theorem Relocate.ok_next {Loc : ℕ} {e : Word} {q q' : Relocate} {r : Ans} (h : q.Ok Loc)
    (hf : (relocate seed Loc e q).2 r = .goto q') : q'.Ok Loc := by
  cases q with
  | getInd i ind | getReplace i =>
    rcases seek_eq_goto.mp hf with ⟨rfl, -, hlt⟩ | ⟨rfl, -, hlt⟩ <;>
      simp only [Relocate.Ok] at * <;> omega
  | mark i Exp =>
    simp only [relocate] at hf
    split_ifs at hf <;> cases hf <;> exact ⟨h.1, h.2.1⟩
  | loadExp i | loadFin i Dest => cases hf; exact ⟨h.1, h.2, tag_strip _⟩
  | copy i Dest Fin => cases hf; exact ⟨h.1, h.2.1⟩
  | loadDest i | loadMark i => cases hf; exact h
  | overwrite i Exp => cases hf

/-- `Relocate` returns from line 203 only. -/
theorem relocate_ret {Loc i : ℕ} {e : Word} {q : Relocate} {r : Ans}
    (hf : (relocate seed Loc e q).2 r = .ret i) : ∃ Exp, q = .overwrite i Exp := by
  cases q with
  | getInd j ind | getReplace j =>
    simp only [relocate, seek] at hf
    split_ifs at hf
  | mark j Exp =>
    simp only [relocate] at hf
    split_ifs at hf
  | overwrite j Exp => cases hf; exact ⟨Exp, rfl⟩
  | loadExp j | loadFin j Dest | copy j Dest Fin | loadDest j | loadMark j => cases hf

/-- `Relocate` returns one of the `HOP` slots below `Loc`. -/
theorem Relocate.ok_ret {Loc i : ℕ} {e : Word} {q : Relocate} {r : Ans} (h : q.Ok Loc)
    (hf : (relocate seed Loc e q).2 r = .ret i) : Loc ≤ i + HOP ∧ i < Loc := by
  obtain ⟨Exp, rfl⟩ := relocate_ret hf
  exact h

/-! ### `BucketInsert` -/

def Insert.Ok : Insert → Prop
  | .first _ _ p => p ≤ HOP
  | .claim _ _ p => p ≤ HOP
  | .second _ p => p ≤ HOP
  | .reuse _ _ => False

theorem Insert.ok_nextFirst {tg : Word} {c : Option Word} {p : ℕ} :
    (Insert.nextFirst tg c p).Ok := by
  unfold Insert.nextFirst
  split_ifs with h
  · exact h
  · exact Nat.zero_le _

/-- No control point leads to line 136: the header test fails. -/
theorem Insert.ok_next {b : ℕ} {key : Key} {q q' : Insert} {r : Ans} (h : q.Ok)
    (hf : (bucketInsert b key q).2 r = .goto q') : q'.Ok := by
  cases q with
  | first tg c p =>
    simp only [bucketInsert, isRemoved_eq_false, Bool.false_eq_true, ↓reduceIte] at hf
    split_ifs at hf <;> cases hf
    · exact h
    · exact ok_nextFirst
  | claim tg c p =>
    simp only [bucketInsert] at hf
    split_ifs at hf
    cases hf
    exact ok_nextFirst
  | second c p =>
    simp only [bucketInsert, isRemoved_eq_false, Bool.false_eq_true, ↓reduceIte] at hf
    split_ifs at hf with hp
    cases hf
    exact hp
  | reuse slot p => exact h.elim

/-- `BucketInsert` returns only from a claim that has succeeded. -/
theorem Insert.ok_ret {b : ℕ} {key : Key} {q : Insert} {r : Ans} {b' : Bool} (h : q.Ok)
    (hf : (bucketInsert b key q).2 r = .ret b') :
    b' = true ∧ r.ok = true ∧ ∃ tg c p, q = .claim tg c p ∧ p ≤ HOP := by
  cases q with
  | first tg c p =>
    simp only [bucketInsert] at hf
    split_ifs at hf
  | claim tg c p =>
    simp only [bucketInsert] at hf
    split_ifs at hf with hok
    cases hf
    exact ⟨rfl, hok, tg, c, p, rfl, h⟩
  | second c p =>
    simp only [bucketInsert, isRemoved_eq_false, Bool.false_eq_true, if_false] at hf
    split_ifs at hf
  | reuse slot p => exact h.elim

/-! ### `add` -/

def Add.Ok (seed : BitVec 32) (key : Key) : Add → Prop
  | .contains s => s.p ≤ HOP
  | .probe _ i n => home seed key ≤ i ∧ i < home seed key + n ∧ n ≤ ADD_RANGE
  | .reserve _ i n => home seed key ≤ i ∧ i < home seed key + n ∧ n ≤ ADD_RANGE + 1
  | .relocate Loc q => home seed key + HOP < Loc ∧ Loc ≤ home seed key + ADD_RANGE ∧ q.Ok Loc
  | .loadExp i => home seed key ≤ i ∧ i ≤ home seed key + HOP
  | .release i _ => home seed key ≤ i ∧ i ≤ home seed key + HOP
  | .insert q => q.Ok

variable {key : Key}

theorem Add.ok_probeNext {tg : Word} {i n : ℕ} (h1 : home seed key ≤ i)
    (h2 : i ≤ home seed key + n) (h3 : n ≤ ADD_RANGE) :
    (Add.probeNext tg i n).Ok seed key := by
  unfold Add.probeNext
  split_ifs with h
  · exact ⟨h1, by omega, h⟩
  · exact ⟨h1, by omega, by omega⟩

theorem Add.ok_settle {i : ℕ} (h1 : home seed key ≤ i) (h2 : i ≤ home seed key + ADD_RANGE) :
    (Add.settle seed key i).Ok seed key := by
  have hh := home_lt seed key
  have hi : i < 2 ^ 32 := by simp only [TotalBuckets, ADD_RANGE] at *; omega
  have hs := sub32_of_le h1 hi
  unfold Add.settle
  split_ifs with h
  · rw [hs] at h
    exact ⟨by omega, h2, Relocate.ok_start (by omega) hi⟩
  · rw [hs] at h
    exact ⟨h1, by omega⟩

theorem Add.ok_reserved {i n : ℕ} {p : Add} (h1 : home seed key ≤ i)
    (h2 : i < home seed key + n) (hf : Add.reserved seed key i n = .goto p) : p.Ok seed key := by
  unfold Add.reserved at hf
  split_ifs at hf with h
  cases hf
  exact ok_settle h1 (by omega)

theorem Scan.ok_next {s s' : Scan} {r : Ans} (hf : (contains seed key s).2 r = .goto s') :
    s'.p ≤ HOP := by
  simp only [contains] at hf
  split_ifs at hf with h1 h2 <;> cases hf <;> simpa using by assumption

theorem Add.ok_next {p p' : Add} {r : Ans} (h : p.Ok seed key)
    (hf : (add seed key p).2 r = .goto p') : p'.Ok seed key := by
  cases p with
  | contains s =>
    rcases Flow.bind_eq_goto.mp hf with ⟨s', hs, rfl⟩ | ⟨b, -, hb⟩
    · exact Scan.ok_next hs
    · cases b with
      | false => cases hb; exact ok_probeNext le_rfl (Nat.le_add_right _ _) (Nat.zero_le _)
      | true => cases hb
  | probe tg i n =>
    obtain ⟨h1, h2, h3⟩ := h
    simp only [add] at hf
    split_ifs at hf <;> cases hf
    · exact ok_probeNext (by omega) (by omega) h3
    · exact ⟨h1, h2, by omega⟩
  | reserve tg i n =>
    obtain ⟨h1, h2, h3⟩ := h
    simp only [add] at hf
    split_ifs at hf with hc
    · cases hf
      simp only [Bool.and_eq_true, decide_eq_true_eq] at hc
      exact ok_probeNext h1 h2.le hc.2.le
    · exact ok_reserved h1 h2 hf
  | relocate Loc q =>
    obtain ⟨h1, h2, h3⟩ := h
    rcases Flow.bind_eq_goto.mp hf with ⟨q', hq, rfl⟩ | ⟨i, hi, hk⟩
    · exact ⟨h1, h2, Relocate.ok_next h3 hq⟩
    · obtain ⟨h4, h5⟩ := Relocate.ok_ret h3 hi
      split_ifs at hk
      cases hk
      exact ok_settle (by omega) (by omega)
  | loadExp i => cases hf; exact h
  | release i Exp => cases hf; exact Nat.zero_le _
  | insert q =>
    rcases Flow.bind_eq_goto.mp hf with ⟨q', hq, rfl⟩ | ⟨b, -, hb⟩
    · exact Insert.ok_next h hq
    · cases b with
      | false => cases hb; exact Nat.zero_le _
      | true => cases hb

/-! ### `Remove` -/

/-- The stamp carries no tag, and a slot is compared with a reserved word. -/
def Remove.Ok : Remove → Prop
  | .stamp => True
  | .testKey final s => tag final = 0#64 ∧ s.p ≤ HOP
  | .testMoving final s => tag final = 0#64 ∧ s.p ≤ HOP
  | .removeKey final _ _ => tag final = 0#64
  | .removeMoving final _ _ => tag final = 0#64
  | .loadSlot p _ => p ≤ HOP
  | .testSlot p slot _ => p ≤ HOP ∧ tag slot = 3#64
  | .poison p slot _ => p ≤ HOP ∧ tag slot = 3#64

theorem Remove.ok_nextScan {final cxx : Word} {p : ℕ} (h : tag final = 0#64) :
    (Remove.nextScan final p cxx).Ok := by
  unfold Remove.nextScan
  split_ifs with hp
  · exact ⟨h, hp⟩
  · exact h

theorem Remove.ok_nextSlot {p : ℕ} {rem : Bool} {q : Remove}
    (hf : Remove.nextSlot p rem = .goto q) : q.Ok := by
  unfold Remove.nextSlot at hf
  split_ifs at hf with hp
  cases hf
  exact hp

theorem Remove.ok_next {q q' : Remove} {r : Ans} (h : q.Ok)
    (hf : (remove seed key q).2 r = .goto q') : q'.Ok := by
  cases q with
  | stamp => cases hf; exact ⟨tag_finalEntry _, Nat.zero_le _⟩
  | testKey final s =>
    simp only [remove] at hf
    split_ifs at hf <;> cases hf
    · exact ok_nextScan h.1
    · exact h
  | testMoving final s =>
    simp only [remove] at hf
    split_ifs at hf <;> cases hf <;> exact ok_nextScan h.1
  | removeKey final i1 i2 => cases hf; exact h
  | removeMoving final i2 rem1 => cases hf; exact Nat.zero_le _
  | loadSlot p rem => cases hf; exact ⟨h, tag_reserved _⟩
  | testSlot p slot rem =>
    simp only [remove] at hf
    split_ifs at hf
    · cases hf; exact h
    · exact ok_nextSlot hf
  | poison p slot rem => exact ok_nextSlot hf

/-- `Remove` returns from its last loop, with what it says there. -/
theorem remove_ret {q : Remove} {r : Ans} {b : Bool} (hf : (remove seed key q).2 r = .ret b) :
    (∃ p slot, q = .testSlot p slot b) ∨ ∃ p slot, q = .poison p slot b := by
  cases q with
  | testSlot p slot rem =>
    simp only [remove, Remove.nextSlot] at hf
    split_ifs at hf
    cases hf
    exact Or.inl ⟨p, slot, rfl⟩
  | poison p slot rem =>
    simp only [remove, Remove.nextSlot] at hf
    split_ifs at hf
    cases hf
    exact Or.inr ⟨p, slot, rfl⟩
  | testKey final s | testMoving final s =>
    simp only [remove] at hf
    split_ifs at hf
  | stamp | removeKey final i1 i2 | removeMoving final i2 rem1 | loadSlot p rem => cases hf

/-! ### Every thread -/

def Pc.Ok (seed : BitVec 32) : Pc → Prop
  | .add key p => p.Ok seed key
  | .remove _ _ p => p.Ok
  | .contains _ s => s.p ≤ HOP

theorem Pc.ok_start (c : Call) : (Pc.start c).Ok seed := by
  cases c with
  | add key | contains key => exact Nat.zero_le _
  | remove key tid => trivial

theorem Pc.ok_next (p : Pc) (r : Ans) (p' : Pc) (h : p.Ok seed)
    (hf : (p.code seed).2 r = .goto p') : p'.Ok seed := by
  cases p with
  | add key p =>
    rcases Flow.bind_eq_goto.mp hf with ⟨q, hq, rfl⟩ | ⟨b, -, hb⟩
    · exact Add.ok_next h hq
    · cases hb
  | remove key tid p =>
    rcases Flow.bind_eq_goto.mp hf with ⟨q, hq, rfl⟩ | ⟨b, -, hb⟩
    · exact Remove.ok_next h hq
    · cases hb
  | contains key s =>
    rcases Flow.bind_eq_goto.mp hf with ⟨q, hq, rfl⟩ | ⟨b, -, hb⟩
    · exact Scan.ok_next hq
    · cases hb

/-- Every thread stands where its call can stand. -/
def Sound (seed : BitVec 32) (s : State) : Prop := ∀ t p, s.thr t = some p → p.Ok seed

theorem sound_fresh : Sound seed fresh := fun _ _ h => by cases h

theorem sound_step {s s' : State} {l : Label Call} (h : Sound seed s)
    (hs : (table seed).step s l = some s') : Sound seed s' :=
  Machine.thr_inv Pc.ok_start Pc.ok_next h hs

theorem sound_run {ls : List (Label Call)} {s : State} (hr : (table seed).run ls fresh = some s) :
    Sound seed s :=
  Machine.reach_inv (fun _ _ _ => sound_step) sound_fresh hr

theorem sound_weak {s s' : State} {l : WeakLabel Call} (h : Sound seed s)
    (hs : (table seed).weakStep Pc.isWeak s l = some s') : Sound seed s' :=
  Machine.weak_thr_inv Pc.ok_start Pc.ok_next h hs

theorem sound_weakRun {ls : List (WeakLabel Call)} {s s' : State} (h : Sound seed s)
    (hr : (table seed).weakRun Pc.isWeak ls s = some s') : Sound seed s' :=
  Machine.weakRun_inv (Q := fun _ _ => True) (fun _ _ _ hP _ hs => sound_weak hP hs) h
    (Machine.WeakAlong.trivial ls s) hr

end LFHash
