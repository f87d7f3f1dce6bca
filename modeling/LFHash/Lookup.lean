/-
# Lookups

A scan reads the slots of a window one after the other and remembers in `cxx`
where it saw the key, plain or as moving. What one read adds is `Scan.read`;
run alone, `contains` returns whether the key is stored in its window
(`contains_alone`).

Key definitions: `Hit`, `Stored`, `Scan.read`, `alone`, `Add.Past`.
Key theorems: `read_ne_zero`, `contains_alone`, `add_goto`, `add_ret`.
-/
import LFHash.Refine

namespace LFHash

open Interleave Hopscotch

variable {seed : BitVec 32} {key : Key} {T : ℕ → Word}

/-- The slot is read as the key: plain, or as moving. -/
def Hit (T : ℕ → Word) (key : Key) (i : ℕ) : Prop := T i = entry key ∨ T i = moving (entry key)

/-- The key is read somewhere in its window. -/
def Stored (seed : BitVec 32) (T : ℕ → Word) (key : Key) : Prop :=
  ∃ p, p < HOP + 1 ∧ Hit T key (home seed key + p)

instance (T : ℕ → Word) (key : Key) (i : ℕ) : Decidable (Hit T key i) :=
  inferInstanceAs (Decidable (_ ∨ _))

instance (T : ℕ → Word) (key : Key) : Decidable (Stored seed T key) :=
  inferInstanceAs (Decidable (∃ p, p < HOP + 1 ∧ _))

/-- A slot without a tag is read as the key if it holds it. -/
theorem hit_iff_of_tag {i : ℕ} (h : tag (T i) = 0#64) : Hit T key i ↔ T i = entry key := by
  exact ⟨fun hit => hit.resolve_right (ne_moving h), Or.inl⟩

theorem stored_iff_of_tag (h : ∀ i, tag (T i) = 0#64) :
    Stored seed T key ↔ ∃ p ≤ HOP, T (home seed key + p) = entry key := by
  simp only [Stored, hit_iff_of_tag (h _), Nat.lt_succ_iff]

/-! ### The bits of a scan -/

theorem getLsbD_setBit {cxx : Word} {p q : ℕ} (hq : q < 64) :
    (setBit cxx p).getLsbD q = (cxx.getLsbD q || decide (q = p)) := by
  simp only [setBit, BitVec.getLsbD_or, BitVec.getLsbD_shiftLeft, BitVec.getLsbD_one, hq]
  by_cases h : q = p
  · subst h; simp
  · by_cases hlt : q < p
    · simp [h, hlt]
    · have h1 : q - p ≠ 0 := by omega
      simp [h, h1]

theorem setBit_ne_zero {cxx : Word} {p : ℕ} (hp : p < 64) : setBit cxx p ≠ 0#64 := by
  intro h
  have hb : (setBit cxx p).getLsbD p = (cxx.getLsbD p || decide (p = p)) := getLsbD_setBit hp
  rw [h] at hb
  simp at hb

/-- The bits after the read at offset `s.p`. -/
def Scan.read (seed : BitVec 32) (T : ℕ → Word) (key : Key) (s : Scan) : Word :=
  if Hit T key (home seed key + s.p) then setBit s.cxx s.p else s.cxx

theorem read_ne_zero {s : Scan} (hp : s.p ≤ HOP) :
    s.read seed T key ≠ 0#64 ↔ s.cxx ≠ 0#64 ∨ Hit T key (home seed key + s.p) := by
  have hp64 : s.p < 64 := by simp only [HOP] at hp; omega
  unfold Scan.read
  split_ifs with h
  · simp only [h, or_true, iff_true]
    exact setBit_ne_zero hp64
  · simp [h]

/-- Where a scan goes from the offset `s.p`. -/
theorem contains_flow (m : Cell → Word) (s : Scan) :
    (contains seed key s).2 ((contains seed key s).1.exec m).1 =
      if s.p < HOP then .goto ⟨s.p + 1, s.read seed (buckets m) key⟩
      else .ret (s.read seed (buckets m) key != 0#64) := rfl

theorem next_contains {m : Cell → Word} {p : Pc} {sc' : Scan}
    (h : next seed m p = some (.contains key sc')) : ∃ sc, p = .contains key sc ∧ sc.p < HOP ∧
      sc' = ⟨sc.p + 1, sc.read seed (buckets m) key⟩ := by
  rcases p with ⟨key', a⟩ | ⟨key', tid, a⟩ | ⟨key', sc⟩
  · simp [next, Pc.code, Option.map_eq_some_iff] at h
  · simp [next, Pc.code, Option.map_eq_some_iff] at h
  · simp only [next, Pc.code, Point.inside_fst, Point.inside_snd, contains_flow] at h
    split_ifs at h with hp
    · cases h
      exact ⟨sc, rfl, hp, rfl⟩
    · cases h

theorem ret_contains {m : Cell → Word} {p : Pc} {b : Bool}
    (h : (table seed).flow m p = .ret (.contains key, b)) : ∃ sc, p = .contains key sc ∧
      HOP ≤ sc.p ∧ b = (sc.read seed (buckets m) key != 0#64) := by
  have hc := Pc.call_ret h
  rcases p with ⟨key', a⟩ | ⟨key', tid, a⟩ | ⟨key', sc⟩
  · cases hc
  · cases hc
  · obtain rfl : key = key' := by
      cases hc
      rfl
    obtain ⟨b', hf, e⟩ := Flow.bind_eq_ret.mp h
    have hflow := (contains_flow m sc).symm.trans hf
    split_ifs at hflow with hp
    cases hflow
    cases e
    exact ⟨sc, rfl, not_lt.mp hp, rfl⟩

/-! ### `contains`, run alone -/

/-- The schedule of one call of thread `t` with `n` accesses. -/
def alone (t : ℕ) (c : Call) (n : ℕ) : List (Label Call) := .call t c :: List.replicate n (.move t)

variable {t : ℕ}

/-- The scan from offset `p` on, run alone. -/
theorem scan_alone : ∀ (n p : ℕ) (cxx : Word) (s : State), HOP = p + n → s.halt = none →
    s.thr t = some (.contains key ⟨p, cxx⟩) → ∃ b,
      (table seed).run (List.replicate (n + 1) (.move t)) s =
        some { s with
          thr := Function.update s.thr t none
          log := (t, (.contains key, b)) :: s.log } ∧
      (b = true ↔ cxx ≠ 0#64 ∨
        ∃ q, p ≤ q ∧ q ≤ HOP ∧ Hit (buckets s.mem) key (home seed key + q)) := by
  intro n
  induction n with
  | zero =>
    intro p cxx s hn hh ht
    have hp : ¬ p < HOP := by omega
    have hs : (table seed).step s (.move t) = some { s with
        thr := Function.update s.thr t none
        log := (t, (.contains key,
          (Scan.mk p cxx).read seed (buckets s.mem) key != 0#64)) :: s.log } := by
      refine Machine.step_move.mpr ⟨hh, _, ht, ?_⟩
      simp [Machine.advance, table, Pc.code, contains_flow, hp, Config.follow]
      rfl
    refine ⟨_, Machine.run_cons.mpr ⟨_, hs, rfl⟩, ?_⟩
    rw [bne_iff_ne, read_ne_zero (by exact hn.ge)]
    refine or_congr_right ⟨fun h => ⟨p, le_rfl, hn.ge, h⟩, ?_⟩
    rintro ⟨q, h1, h2, h⟩
    obtain rfl : q = p := by omega
    exact h
  | succ n ih =>
    intro p cxx s hn hh ht
    have hp : p < HOP := by omega
    have hs : (table seed).step s (.move t) = some { s with
        thr := Function.update s.thr t (some
          (.contains key ⟨p + 1, (Scan.mk p cxx).read seed (buckets s.mem) key⟩)) } := by
      refine Machine.step_move.mpr ⟨hh, _, ht, ?_⟩
      simp [Machine.advance, table, Pc.code, contains_flow, hp, Config.follow]
      rfl
    obtain ⟨b, h1, h2⟩ := ih (p + 1) ((Scan.mk p cxx).read seed (buckets s.mem) key)
      { s with thr := Function.update s.thr t (some
          (.contains key ⟨p + 1, (Scan.mk p cxx).read seed (buckets s.mem) key⟩)) }
      (by omega) hh (Function.update_self ..)
    refine ⟨b, Machine.run_cons.mpr ⟨_, hs, ?_⟩, h2.trans ?_⟩
    · simpa only [Function.update_idem] using h1
    · rw [read_ne_zero (by exact hp.le), or_assoc]
      refine or_congr_right ⟨?_, ?_⟩
      · rintro (h | ⟨q, hq, hq', h⟩)
        · exact ⟨p, le_rfl, hp.le, h⟩
        · exact ⟨q, by omega, hq', h⟩
      · rintro ⟨q, hq, hq', h⟩
        rcases Nat.eq_or_lt_of_le hq with rfl | hlt
        · exact Or.inl h
        · exact Or.inr ⟨q, hlt, hq', h⟩

/-- Run alone, `contains` takes `HOP + 1` loads and returns whether the key is
stored; it changes nothing. -/
theorem contains_alone {s : State} (hh : s.halt = none) (ht : s.thr t = none) :
    (table seed).run (alone t (.contains key) (HOP + 1)) s = some { s with
      log := (t, (.contains key, decide (Stored seed (buckets s.mem) key))) :: s.log } := by
  have hscan := @scan_alone seed key t HOP 0 0#64
    { s with thr := Function.update s.thr t (some (.contains key .start)) } (by simp) hh
    (Function.update_self ..)
  obtain ⟨b, h1, h2⟩ := hscan
  have hb : b = decide (Stored seed (buckets s.mem) key) := by
    rw [Bool.eq_iff_iff, decide_eq_true_iff, h2]
    simp only [Stored, Nat.lt_succ_iff, ne_eq, not_true_eq_false, false_or, Nat.zero_le, true_and]
  have hthr : Function.update s.thr t none = s.thr := Function.update_eq_self_iff.mpr ht.symm
  refine Machine.run_cons.mpr ⟨_, Machine.step_call.mpr ⟨hh, ht, rfl⟩, h1.trans ?_⟩
  simp only [Function.update_idem, hthr, hb]

/-! ### The lookup of an `add` -/

/-- The control points after the lookup. -/
def Add.Past : Add → Prop
  | .contains _ => False
  | _ => True

theorem Add.past_or_contains (q : Add) : q.Past ∨ ∃ sc, q = .contains sc := by
  cases q with
  | contains sc => exact Or.inr ⟨sc, rfl⟩
  | probe | reserve | relocate | loadExp | release | insert => exact Or.inl trivial

theorem past_probeNext {tg : Word} {i n : ℕ} : (Add.probeNext tg i n).Past := by
  unfold Add.probeNext
  split_ifs <;> trivial

theorem past_settle {i : ℕ} : (Add.settle seed key i).Past := by
  unfold Add.settle
  split_ifs <;> trivial

variable {m : Cell → Word}

/-- Inside `add`, the lookup goes on, or its end has found nothing, or it is over. -/
theorem add_goto {q q' : Add} (hf : addFlow seed key m q = .goto q') :
    (∃ sc, q = .contains sc ∧ sc.p < HOP ∧
      q' = .contains ⟨sc.p + 1, sc.read seed (buckets m) key⟩) ∨
    (q'.Past ∧ ∀ sc, q = .contains sc → HOP ≤ sc.p ∧ sc.read seed (buckets m) key = 0#64) := by
  cases q with
  | contains sc =>
    simp only [addFlow, add, Point.inside_fst, Point.inside_snd, contains_flow] at hf
    split_ifs at hf with hp
    · cases hf
      exact Or.inl ⟨sc, rfl, hp, rfl⟩
    · rw [Flow.bind_ret] at hf
      split_ifs at hf with hb
      cases hf
      refine Or.inr ⟨past_probeNext, fun sc' e => ?_⟩
      cases e
      exact ⟨by omega, by simpa using hb⟩
  | probe tg i n =>
    simp only [addFlow, add] at hf
    split_ifs at hf <;> cases hf
    · exact Or.inr ⟨past_probeNext, fun _ e => by cases e⟩
    · exact Or.inr ⟨trivial, fun _ e => by cases e⟩
  | reserve tg i n =>
    simp only [addFlow, add, Add.reserved] at hf
    split_ifs at hf <;> cases hf
    · exact Or.inr ⟨past_probeNext, fun _ e => by cases e⟩
    · exact Or.inr ⟨past_settle, fun _ e => by cases e⟩
  | relocate Loc q =>
    refine Or.inr ⟨?_, fun _ e => by cases e⟩
    rcases Flow.bind_eq_goto.mp hf with ⟨q', -, rfl⟩ | ⟨i, -, hi⟩
    · trivial
    · split_ifs at hi
      cases hi
      exact past_settle
  | loadExp i | release i Exp => cases hf; exact Or.inr ⟨trivial, fun _ e => by cases e⟩
  | insert q =>
    refine Or.inr ⟨?_, fun _ e => by cases e⟩
    rcases Flow.bind_eq_goto.mp hf with ⟨q', -, rfl⟩ | ⟨b, -, hb⟩
    · trivial
    · split_ifs at hb
      cases hb
      trivial

/-- The lookup of an `add` returns only at its end, having found the key. -/
theorem add_found {sc : Scan} {b : Bool} (hf : addFlow seed key m (.contains sc) = .ret b) :
    b = true ∧ HOP ≤ sc.p ∧ sc.read seed (buckets m) key ≠ 0#64 := by
  simp only [addFlow, add, Point.inside_fst, Point.inside_snd, contains_flow] at hf
  split_ifs at hf with hp
  · cases hf
  · rw [Flow.bind_ret] at hf
    split_ifs at hf with hb
    cases hf
    exact ⟨rfl, not_lt.mp hp, by simpa using hb⟩

/-- `add` returns true, having found the key or having written it. -/
theorem add_ret {q : Add} {b : Bool} (hq : q.Ok seed key) (hf : addFlow seed key m q = .ret b) :
    b = true ∧ ((∃ sc, q = .contains sc ∧ sc.read seed (buckets m) key ≠ 0#64) ∨
      ∃ p ≤ HOP, buckets ((add seed key q).1.exec m).2 (home seed key + p) = entry key) := by
  cases q with
  | contains sc =>
    obtain ⟨hb, -, hr⟩ := add_found hf
    exact ⟨hb, Or.inl ⟨sc, rfl, hr⟩⟩
  | probe tg i n =>
    simp only [addFlow, add] at hf
    split_ifs at hf
  | reserve tg i n =>
    simp only [addFlow, add, Add.reserved] at hf
    split_ifs at hf
  | relocate Loc q =>
    obtain ⟨i, -, hi⟩ := Flow.bind_eq_ret.mp hf
    split_ifs at hi
  | loadExp i | release i Exp => cases hf
  | insert q =>
    obtain ⟨b', hb', hi⟩ := Flow.bind_eq_ret.mp hf
    obtain ⟨rfl, hok, tg, c, p, rfl, hp⟩ := Insert.ok_ret hq hb'
    cases hi
    refine ⟨rfl, Or.inr ⟨p, hp, ?_⟩⟩
    have he : m (.bucket (home seed key + p)) = tg := by
      by_contra he
      simp [add, bucketInsert, Access.exec_cas_of_ne _ _ he] at hok
    simp only [add, bucketInsert, Point.inside_fst, Access.exec_cas_of_eq _ _ he,
      buckets_update, Function.update_self]

end LFHash
