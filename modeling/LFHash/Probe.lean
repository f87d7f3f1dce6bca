/-
# The probe of an insertion, run alone

After its lookup `add` probes the slots from the home on. The probe reserves the first
empty slot it comes to; if the first `ADD_RANGE - 1` slots are taken it exits, even when
the last slot of its range is empty and has just been reserved (`fails_at_end`).

Key definitions: `FirstEmpty`, `ProbeCovers`.
Key theorems: `passes_lookup`, `passes_probe`, `never_fails_late`, `probe_covers_iff`,
`full_range_halts`, `last_slot_is_reserved_in_vain`.
-/
import LFHash.Lookup
import LFHash.Solo

namespace LFHash

open Interleave

variable {seed : BitVec 32} {key : Key} {m : Cell → Word}

/-! ### The lookup -/

theorem passes_lookup (hno : ¬ Stored seed (buckets m) key) : ∀ n p : ℕ, HOP = p + n →
    Passes (add seed key) (.contains ⟨p, 0#64⟩) m (.probeNext 0#64 (home seed key) 0) m := by
  intro n
  induction n with
  | zero =>
    intro p hn
    have hmiss : ¬ Hit (buckets m) key (home seed key + p) := fun hit => hno ⟨p, by omega, hit⟩
    have hread : Scan.read seed (buckets m) key ⟨p, 0#64⟩ = 0#64 := if_neg hmiss
    refine .cons ?_ rfl (.refl _ _)
    have hp : ¬ p < HOP := by omega
    simp only [Point.flow, add, Point.inside_fst, Point.inside_snd, contains_flow, hread, hp,
      if_false, Flow.bind_ret]
    rfl
  | succ n ih =>
    intro p hn
    have hmiss : ¬ Hit (buckets m) key (home seed key + p) := fun hit => hno ⟨p, by omega, hit⟩
    have hread : Scan.read seed (buckets m) key ⟨p, 0#64⟩ = 0#64 := if_neg hmiss
    refine .cons ?_ rfl (ih (p + 1) (by omega))
    have hp : p < HOP := by omega
    simp only [Point.flow, add, Point.inside_fst, Point.inside_snd, contains_flow, hread, hp,
      if_true, Flow.bind_goto]

/-! ### The probe -/

/-- Slot `home + d` is the first empty one from the home on. -/
def FirstEmpty (seed : BitVec 32) (T : ℕ → Word) (key : Key) (d : ℕ) : Prop :=
  T (home seed key + d) = 0#64 ∧ ∀ j < d, T (home seed key + j) ≠ 0#64

theorem probe_flow {tg : Word} {i n : ℕ} : (add seed key (.probe tg i n)).flow m =
    if buckets m i ≠ 0#64 then .goto (.probeNext tg (i + 1) n) else .goto (.reserve tg i n) := rfl

theorem passes_probe {d : ℕ} (hfull : ∀ j < d, buckets m (home seed key + j) ≠ 0#64)
    (hd : d ≤ ADD_RANGE) : ∀ n i : ℕ, d = i + n →
      Passes (add seed key) (.probeNext 0#64 (home seed key + i) i) m
        (.probeNext 0#64 (home seed key + d) d) m := by
  intro n
  induction n with
  | zero =>
    intro i hn
    obtain rfl : d = i := hn
    exact .refl _ _
  | succ n ih =>
    intro i hn
    have htaken := hfull i (by omega)
    have hpoint : Add.probeNext 0#64 (home seed key + i) i =
        .probe 0#64 (home seed key + i) (i + 1) := if_pos (by omega)
    rw [hpoint]
    refine .cons ?_ rfl (ih (i + 1) (by omega))
    rw [probe_flow, if_pos htaken, Nat.add_assoc]

theorem passes_from_home {d : ℕ} (hno : ¬ Stored seed (buckets m) key)
    (hfull : ∀ j < d, buckets m (home seed key + j) ≠ 0#64) (hd : d ≤ ADD_RANGE) :
    Passes (add seed key) (.contains .start) m (.probeNext 0#64 (home seed key + d) d) m := by
  have hprobe := passes_probe hfull hd d 0 (Nat.zero_add _).symm
  rw [Nat.add_zero] at hprobe
  exact (passes_lookup hno HOP 0 (Nat.zero_add _).symm).trans hprobe

/-- The access of line 156, on an empty slot. -/
theorem reserve_ok {i n : ℕ} (h : buckets m i = 0#64) :
    (add seed key (.reserve 0#64 i n)).flow m = Add.reserved seed key i n ∧
      (add seed key (.reserve 0#64 i n)).mem m =
        Function.update m (.bucket i) (newEntry key) := by
  have he : m (.bucket i) = 0#64 := h
  simp [Point.flow, Point.mem, add, Access.exec_cas_of_eq m _ he]

/-- The probe comes to the first empty slot, and is about to reserve it. -/
theorem passes_reserve {d : ℕ} (hno : ¬ Stored seed (buckets m) key)
    (hfirst : FirstEmpty seed (buckets m) key d) (hd : d < ADD_RANGE) :
    Passes (add seed key) (.contains .start) m (.reserve 0#64 (home seed key + d) (d + 1)) m := by
  refine (passes_from_home hno hfirst.2 hd.le).trans ?_
  have hpoint : Add.probeNext 0#64 (home seed key + d) d =
      .probe 0#64 (home seed key + d) (d + 1) := if_pos hd
  rw [hpoint]
  refine .single ?_
  rw [probe_flow, if_neg (not_not.mpr hfirst.1)]

/-- With the whole range taken, the probe is about to claim a slot it has not read. -/
theorem passes_overrun (hno : ¬ Stored seed (buckets m) key)
    (hfull : ∀ j < ADD_RANGE, buckets m (home seed key + j) ≠ 0#64) :
    Passes (add seed key) (.contains .start) m
      (.reserve 0#64 (home seed key + ADD_RANGE) (ADD_RANGE + 1)) m := by
  have hprobe := passes_from_home hno hfull le_rfl
  have hpoint : Add.probeNext 0#64 (home seed key + ADD_RANGE) ADD_RANGE =
      .reserve 0#64 (home seed key + ADD_RANGE) (ADD_RANGE + 1) := if_neg (Nat.lt_irrefl _)
  rwa [hpoint] at hprobe

/-- The last attempt of a probe ends in an exit, whether it reserves a slot or not. -/
theorem reserve_fails {tg : Word} {i n : ℕ} (hn : ADD_RANGE ≤ n) :
    (add seed key (.reserve tg i n)).flow m = .exit .insertionFailure := by
  simp [Point.flow, add, Add.reserved, hn, Nat.not_lt.mpr hn]

theorem fails_at_end {tg : Word} {i n : ℕ} (hn : ADD_RANGE ≤ n)
    (h : Passes (add seed key) (.contains .start) m (.reserve tg i n) m) :
    ∃ m', Ends (add seed key) (.contains .start) m (.exit .insertionFailure) m' :=
  ⟨_, h.ends (.exit (reserve_fails hn))⟩

/-! ### After the reservation -/

/-- An `add` that has reserved its slot. -/
def Add.Late : Add → Prop
  | .relocate _ _ | .loadExp _ | .release _ _ | .insert _ => True
  | .contains _ | .probe _ _ _ | .reserve _ _ _ => False

theorem late_settle {i : ℕ} : (Add.settle seed key i).Late := by
  unfold Add.settle
  split_ifs <;> trivial

theorem Add.Late.goto {p p' : Add} (h : p.Late) (hf : (add seed key p).flow m = .goto p') :
    p'.Late := by
  cases p with
  | contains | probe | reserve => exact h.elim
  | relocate Loc q =>
    rcases Flow.bind_eq_goto.mp hf with ⟨q', -, rfl⟩ | ⟨r, -, hk⟩
    · trivial
    · split_ifs at hk
      cases hk
      exact late_settle
  | loadExp i | release i Exp =>
    cases hf
    trivial
  | insert q =>
    rcases Flow.bind_eq_goto.mp hf with ⟨q', -, rfl⟩ | ⟨b, -, hb⟩
    · trivial
    · split_ifs at hb
      cases hb
      trivial

/-- Once a slot is reserved, the probe is not what the `add` fails at. -/
theorem never_fails_late {p : Add} {m' : Cell → Word} (hp : p.Late) :
    ¬ Ends (add seed key) p m (.exit .insertionFailure) m' := by
  intro h
  refine Ends.inv (c := add seed key) (P := fun p _ => p.Late)
    (Q := fun f _ => f ≠ .exit .insertionFailure) ?_ ?_ ?_ h hp rfl
  · intro p m p' hlate hf
    exact hlate.goto hf
  · intro p m r _ _ he
    cases he
  · intro p m e hlate hf he
    cases he
    obtain ⟨-, tg, i, n, rfl, -⟩ | ⟨hx, -⟩ | ⟨hx, -⟩ | ⟨hx, -⟩ := add_exit hf
    · exact hlate
    · cases hx
    · cases hx
    · cases hx

/-! ### What the probe covers -/

/-- `add` fails for want of a slot exactly if its whole range is taken, and otherwise it
reserves the first empty slot. -/
def ProbeCovers (seed : BitVec 32) (m : Cell → Word) (key : Key) : Prop :=
  ((∃ m', Ends (add seed key) (.contains .start) m (.exit .insertionFailure) m') ↔
    ∀ j < ADD_RANGE, buckets m (home seed key + j) ≠ 0#64) ∧
  ∀ d < ADD_RANGE, FirstEmpty seed (buckets m) key d → ∃ n,
    Passes (add seed key) (.contains .start) m (.reserve 0#64 (home seed key + d) n) m ∧
      (add seed key (.reserve 0#64 (home seed key + d) n)).mem m =
        Function.update m (.bucket (home seed key + d)) (newEntry key)

theorem FirstEmpty.unique {T : ℕ → Word} {d d' : ℕ} (h : FirstEmpty seed T key d)
    (h' : FirstEmpty seed T key d') : d = d' := by
  rcases Nat.lt_trichotomy d d' with hlt | heq | hgt
  · exact absurd h.1 (h'.2 d hlt)
  · exact heq
  · exact absurd h'.1 (h.2 d' hgt)

theorem firstEmpty_or_full (seed : BitVec 32) (T : ℕ → Word) (key : Key) :
    (∃ d < ADD_RANGE, FirstEmpty seed T key d) ∨ ∀ j < ADD_RANGE, T (home seed key + j) ≠ 0#64 := by
  classical
  by_cases h : ∃ d < ADD_RANGE, T (home seed key + d) = 0#64
  · obtain ⟨hd, hz⟩ := Nat.find_spec h
    refine Or.inl ⟨Nat.find h, hd, hz, fun j hj he => ?_⟩
    exact Nat.find_min h hj ⟨hj.trans hd, he⟩
  · push Not at h
    exact Or.inr h

/-- With an empty slot before the last one of its range, `add` does not fail for want of a
slot. -/
theorem no_failure {d : ℕ} {m' : Cell → Word} (hno : ¬ Stored seed (buckets m) key)
    (hfirst : FirstEmpty seed (buckets m) key d) (hd : d + 1 < ADD_RANGE) :
    ¬ Ends (add seed key) (.contains .start) m (.exit .insertionFailure) m' := by
  intro hend
  have hpass := passes_reserve hno hfirst (Nat.lt_of_succ_lt hd)
  have hflow : (add seed key (.reserve 0#64 (home seed key + d) (d + 1))).flow m =
      .goto (.settle seed key (home seed key + d)) := by
    rw [(reserve_ok hfirst.1).1]
    exact if_neg (not_le.mpr hd)
  exact never_fails_late late_settle ((hpass.ends_iff.mp hend).of_goto hflow)

/-- The probe covers its range, except that it gives up a last slot that is the only empty
one. -/
theorem probe_covers_iff (hno : ¬ Stored seed (buckets m) key) :
    ProbeCovers seed m key ↔ ¬ FirstEmpty seed (buckets m) key (ADD_RANGE - 1) := by
  have hreserves : ∀ d < ADD_RANGE, FirstEmpty seed (buckets m) key d → ∃ n,
      Passes (add seed key) (.contains .start) m (.reserve 0#64 (home seed key + d) n) m ∧
        (add seed key (.reserve 0#64 (home seed key + d) n)).mem m =
          Function.update m (.bucket (home seed key + d)) (newEntry key) :=
    fun d hd hfirst => ⟨d + 1, passes_reserve hno hfirst hd, (reserve_ok hfirst.1).2⟩
  rcases firstEmpty_or_full seed (buckets m) key with ⟨d, hd, hfirst⟩ | hfull
  · have hnot : ¬ ∀ j < ADD_RANGE, buckets m (home seed key + j) ≠ 0#64 :=
      fun hall => hall d hd hfirst.1
    by_cases hlast : d + 1 < ADD_RANGE
    · refine iff_of_true ⟨iff_of_false ?_ hnot, hreserves⟩ fun hend => ?_
      · rintro ⟨m', hend⟩
        exact no_failure hno hfirst hlast hend
      · have hdd := hfirst.unique hend
        omega
    · obtain rfl : d = ADD_RANGE - 1 := by omega
      have hfail := fails_at_end (by decide) (passes_reserve hno hfirst hd)
      exact iff_of_false (fun hcov => hnot (hcov.1.mp hfail)) (not_not.mpr hfirst)
  · have hfail := fails_at_end (Nat.le_succ ADD_RANGE) (passes_overrun hno hfull)
    exact iff_of_true ⟨iff_of_true hfail hfull, hreserves⟩
      fun hlast => hfull (ADD_RANGE - 1) (by decide) hlast.1

/-- An `add` that exits alone ends the process when its thread is the only one to move. -/
theorem add_exits_in_run {s : State} {t : ℕ} {e : Exit} {m' : Cell → Word} (hh : s.halt = none)
    (ht : s.thr t = none) (h : Ends (add seed key) (.contains .start) s.mem (.exit e) m') :
    ∃ n s', (table seed).run (alone t (.add key) n) s = some s' ∧ s'.mem = m' ∧
      s'.halt = some e := by
  have hcall : (table seed).step s (.call t (.add key)) =
      some { s with thr := Function.update s.thr t (some (Pc.start (.add key))) } :=
    Machine.step_call.mpr ⟨hh, ht, rfl⟩
  have hcode : ∀ a, (table seed).code (.add key a) =
      (add seed key a).inside (.add key) fun b => .ret (.add key, b) := fun _ => rfl
  have hend : Ends (table seed).code (.add key (.contains .start)) s.mem (.exit e) m' :=
    Ends.inside_exit hcode h
  obtain ⟨n, s', hr, hmem, hx⟩ := hend.run_exit
    (s := { s with thr := Function.update s.thr t (some (Pc.start (.add key))) }) rfl
    (Function.update_self _ _ _) hh
  exact ⟨n, s', Machine.run_cons.mpr ⟨_, hcall, hr⟩, hmem, hx⟩

/-- With its whole range taken, an `add` of a new key ends the process. -/
theorem full_range_halts {s : State} {t : ℕ} (hh : s.halt = none) (ht : s.thr t = none)
    (hno : ¬ Stored seed (buckets s.mem) key)
    (hfull : ∀ j < ADD_RANGE, buckets s.mem (home seed key + j) ≠ 0#64) :
    ∃ n s', (table seed).run (alone t (.add key) n) s = some s' ∧
      s'.halt = some .insertionFailure := by
  obtain ⟨m', hend⟩ := fails_at_end (Nat.le_succ ADD_RANGE) (passes_overrun hno hfull)
  obtain ⟨n, s', hr, -, hx⟩ := add_exits_in_run hh ht hend
  exact ⟨n, s', hr, hx⟩

/-- Words in the slots from 1000 up to `hi`. -/
def takenUpTo (hi : ℕ) : Cell → Word
  | .bucket i => if 1000 ≤ i ∧ i < hi then 5#64 else 0#64
  | .timeStamp => 0#64

/-- A key with the home 1000 finds the slot before the last one of its range. -/
theorem probe_covers_behind_words : home 1 12749043 = 1000 ∧
    FirstEmpty 1 (buckets (takenUpTo 1254)) 12749043 (ADD_RANGE - 2) ∧
    ProbeCovers 1 (takenUpTo 1254) 12749043 := by
  have hfirst : FirstEmpty 1 (buckets (takenUpTo 1254)) 12749043 (ADD_RANGE - 2) :=
    ⟨by decide +kernel, by decide +kernel⟩
  refine ⟨by decide +kernel, hfirst, (probe_covers_iff (by decide +kernel)).mpr fun hlast => ?_⟩
  exact hlast.2 (ADD_RANGE - 2) (by decide) hfirst.1

/-- The key 12749043 of home 1000, and 255 words from its home on. -/
def nearlyFull : Cell → Word
  | .bucket i => if 1000 ≤ i ∧ i < 1255 then 5#64 else 0#64
  | .timeStamp => 0#64

theorem last_slot_is_reserved_in_vain : home 1 12749043 = 1000 ∧
    ¬ Stored 1 (buckets nearlyFull) 12749043 ∧ buckets nearlyFull (1000 + 255) = 0#64 ∧
    ∃ m', Ends (add 1 12749043) (.contains .start) nearlyFull (.exit .insertionFailure) m' := by
  have h : (solo (add 1 12749043) 274 (.contains .start) nearlyFull).any (fun x =>
      match x.1 with
      | .exit e => decide (e = .insertionFailure)
      | .goto _ | .ret _ => false) = true := by decide +kernel
  obtain ⟨⟨f, m'⟩, hsolo, hf⟩ := (Option.any_eq_true _ _).mp h
  refine ⟨by decide +kernel, by decide +kernel, by decide, m', ?_⟩
  cases f with
  | goto p | ret b => cases hf
  | exit e =>
    obtain rfl : e = .insertionFailure := of_decide_eq_true hf
    exact ends_iff_solo.mpr ⟨274, hsolo⟩

end LFHash
