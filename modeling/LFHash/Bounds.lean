/-
# The slots that calls access

How far above the home of its key each operation goes, and whether that is inside the
array. `contains` and `Remove` go through the `HOP` slots above the home, `add` up to the
slot its probe ends at (`highest`). A home is any index of the array, so a key whose home
is near the end takes them out of it; and the constructor, which clears
`TotalBuckets + H` slots, leaves the array whatever the seed is.

Key definitions: `Construct`, `construct`, `Reaches`, `StaysBelow`, `highest`.
Key theorems: `construct_ends`, `contains_below`, `remove_below`, `add_below`,
`accesses_inside_iff`, `accesses_leave_the_array`.
-/
import LFHash.Probe

namespace LFHash

open Interleave

variable {seed : BitVec 32} {key : Key} {m : Cell → Word}

/-! ### The constructor, lines 25 to 32 -/

inductive Construct
  | setStamp
  | clear (i : ℕ)

/-- `LFHash()`, once `seed` is drawn. A store is an update that ignores the word it finds. -/
def construct : Construct → Point Cell Word Construct Unit Exit
  | .setStamp => (.fetch .timeStamp fun _ => 0#64, fun _ => .goto (.clear 0))  -- 28
  | .clear i => (.fetch (.bucket i) fun _ => 0#64, fun _ =>  -- 31
      if i + 1 < TotalBuckets + HOP then .goto (.clear (i + 1)) else .ret ())

/-- The memory with the slots from `i` up to `j` cleared. -/
def cleared (m : Cell → Word) (i j : ℕ) : Cell → Word
  | .bucket k => if i ≤ k ∧ k < j then 0#64 else m (.bucket k)
  | .timeStamp => m .timeStamp

theorem cleared_self (m : Cell → Word) (i : ℕ) : cleared m i i = m := by
  funext a
  cases a with
  | bucket k => exact if_neg (by omega)
  | timeStamp => rfl

theorem cleared_succ {i j : ℕ} (h : i ≤ j) :
    Function.update (cleared m i j) (.bucket j) 0#64 = cleared m i (j + 1) := by
  funext a
  cases a with
  | bucket k =>
    by_cases hk : k = j
    · subst hk
      rw [Function.update_self]
      exact (if_pos ⟨h, Nat.lt_succ_self k⟩).symm
    · rw [Function.update_of_ne fun hc => hk (Cell.bucket.inj hc)]
      have hiff : (i ≤ k ∧ k < j) ↔ (i ≤ k ∧ k < j + 1) := by omega
      simp only [cleared, hiff]
  | timeStamp => exact Function.update_of_ne (by simp) _ _

/-- The loop comes to every slot below `TotalBuckets + H`. -/
theorem construct_passes : ∀ j < TotalBuckets + HOP,
    Passes construct (.clear 0) m (.clear j) (cleared m 0 j) := by
  intro j
  induction j with
  | zero =>
    intro _
    rw [cleared_self]
    exact .refl _ _
  | succ j ih =>
    intro hj
    have hmem : (construct (.clear j)).mem (cleared m 0 j) = cleared m 0 (j + 1) :=
      cleared_succ (Nat.zero_le j)
    rw [← hmem]
    exact (ih (Nat.lt_of_succ_lt hj)).trans (.single (if_pos hj))

theorem construct_from_start {q : Construct} {m' : Cell → Word}
    (h : Passes construct (.clear 0) (Function.update m .timeStamp 0#64) q m') :
    Passes construct .setStamp m q m' := .cons rfl rfl h

/-- The constructor ends, and leaves a table that is empty in and right above the array. -/
theorem construct_ends (m : Cell → Word) : ∃ m', Ends construct .setStamp m (.ret ()) m' ∧
    m' .timeStamp = 0#64 ∧ ∀ i < TotalBuckets + HOP, buckets m' i = 0#64 := by
  obtain ⟨n, hn⟩ : ∃ n, TotalBuckets + HOP = n + 1 := ⟨TotalBuckets + 15, rfl⟩
  have hlast : n < TotalBuckets + HOP := by omega
  have hflow : (construct (.clear n)).flow
      (cleared (Function.update m .timeStamp 0#64) 0 n) = .ret () := if_neg (by omega)
  have hmem : (construct (.clear n)).mem (cleared (Function.update m .timeStamp 0#64) 0 n) =
      cleared (Function.update m .timeStamp 0#64) 0 (n + 1) := cleared_succ (Nat.zero_le n)
  refine ⟨_, (construct_from_start (construct_passes n hlast)).ends (.of_ret hflow hmem), ?_, ?_⟩
  · show Function.update m .timeStamp 0#64 .timeStamp = 0#64
    exact Function.update_self _ _ _
  · intro i hi
    exact if_pos ⟨Nat.zero_le i, by omega⟩

/-! ### Accesses and the array -/

variable {S R : Type} {c : S → Point Cell Word S R Exit} {p : S}

/-- Alone from `p` on, the code accesses the slot `i`. -/
def Reaches (c : S → Point Cell Word S R Exit) (p : S) (m : Cell → Word) (i : ℕ) : Prop :=
  ∃ q m', Passes c p m q m' ∧ (c q).1.addr = .bucket i

/-- Alone from `p` on, the code accesses no slot above `b`. -/
def StaysBelow (c : S → Point Cell Word S R Exit) (p : S) (m : Cell → Word) (b : ℕ) : Prop :=
  ∀ i, Reaches c p m i → i ≤ b

/-- Alone from `p` on, the code accesses only slots of the array. -/
def StaysInside (c : S → Point Cell Word S R Exit) (p : S) (m : Cell → Word) : Prop :=
  ∀ i, Reaches c p m i → i < TotalBuckets

theorem staysInside_iff {b : ℕ} (h : StaysBelow c p m b) (hb : Reaches c p m b) :
    StaysInside c p m ↔ b < TotalBuckets := by
  refine ⟨fun hin => hin b hb, fun hlt i hi => ?_⟩
  calc i ≤ b := h i hi
    _ < TotalBuckets := hlt

/-- What the control points keep bounds the slots. -/
theorem StaysBelow.of_inv {P : S → (Cell → Word) → Prop} {b : ℕ}
    (hstep : ∀ p m p', P p m → (c p).flow m = .goto p' → P p' ((c p).mem m))
    (hlow : ∀ p m i, P p m → (c p).1.addr = .bucket i → i ≤ b) (hp : P p m) :
    StaysBelow c p m b := by
  rintro i ⟨q, m', hq, hi⟩
  exact hlow q m' i (hq.inv hstep hp) hi

/-- The slots a fragment accesses, its caller accesses. -/
theorem Reaches.inside {S' R' : Type} {c' : S' → Point Cell Word S' R' Exit} {g : S → S'}
    {k : R → Flow S' R' Exit} {i : ℕ} (hc : ∀ p, c' (g p) = (c p).inside g k)
    (h : Reaches c p m i) : Reaches c' (g p) m i := by
  obtain ⟨q, m', hq, hi⟩ := h
  refine ⟨g q, m', hq.inside hc, ?_⟩
  rw [hc]
  exact hi

/-! ### `contains` -/

/-- The scan comes to the last slot of the window. -/
theorem contains_passes (m : Cell → Word) : ∀ (n p : ℕ) (cxx : Word), HOP = p + n →
    ∃ cxx', Passes (contains seed key) ⟨p, cxx⟩ m ⟨HOP, cxx'⟩ m := by
  intro n
  induction n with
  | zero =>
    intro p cxx hn
    obtain rfl : HOP = p := hn
    exact ⟨cxx, .refl _ _⟩
  | succ n ih =>
    intro p cxx hn
    have hp : p < HOP := by omega
    obtain ⟨cxx', hpass⟩ := ih (p + 1) ((Scan.mk p cxx).read seed (buckets m) key) (by omega)
    exact ⟨cxx', .cons ((contains_flow m _).trans (if_pos hp)) rfl hpass⟩

theorem contains_reaches (m : Cell → Word) :
    Reaches (contains seed key) .start m (home seed key + HOP) := by
  obtain ⟨cxx, hpass⟩ := contains_passes m HOP 0 0#64
    (Nat.zero_add _).symm
  exact ⟨_, m, hpass, rfl⟩

theorem contains_below (m : Cell → Word) :
    StaysBelow (contains seed key) .start m (home seed key + HOP) := by
  refine StaysBelow.of_inv (P := fun s _ => s.p ≤ HOP) ?_ ?_ (Nat.zero_le HOP)
  · intro s m s' _ hf
    exact Scan.ok_next hf
  · intro s m i hs hi
    obtain rfl := Cell.bucket.inj hi
    exact Nat.add_le_add_left hs _

/-! ### `Remove` -/

theorem findFirst_le {cxx : Word} (h : ∀ b, cxx.getLsbD b = true → b ≤ HOP) :
    findFirst cxx ≤ HOP := by
  unfold findFirst
  cases hf : (List.range 64).find? fun q => cxx.getLsbD q with
  | some a => exact h a (by simpa using List.find?_some hf)
  | none => exact le_rfl

theorem findNext_le {cxx : Word} (h : ∀ b, cxx.getLsbD b = true → b ≤ HOP) (prev : ℕ) :
    findNext cxx prev ≤ HOP := by
  unfold findNext
  cases hf : (List.range 64).find? fun q => decide (prev < q) && cxx.getLsbD q with
  | some a =>
    have ha := List.find?_some hf
    exact h a (by simpa using (Bool.and_eq_true_iff.mp ha).2)
  | none => exact le_rfl

/-- The offsets of a removal lie in the window. -/
def Remove.Low : Remove → Prop
  | .stamp => True
  | .testKey _ s | .testMoving _ s => s.p ≤ HOP ∧ ∀ b, s.cxx.getLsbD b = true → b < s.p
  | .removeKey _ i1 i2 => i1 ≤ HOP ∧ i2 ≤ HOP
  | .removeMoving _ i2 _ => i2 ≤ HOP
  | .loadSlot p _ | .testSlot p _ _ | .poison p _ _ => p ≤ HOP

theorem Remove.low_nextScan {final cxx : Word} {p : ℕ} (hp : p ≤ HOP)
    (h : ∀ b, cxx.getLsbD b = true → b ≤ p) : (Remove.nextScan final p cxx).Low := by
  have hle : ∀ b, cxx.getLsbD b = true → b ≤ HOP := fun b hb => (h b hb).trans hp
  unfold Remove.nextScan
  split_ifs with hlt
  · exact ⟨hlt, fun b hb => Nat.lt_succ_of_le (h b hb)⟩
  · exact ⟨findFirst_le hle, findNext_le hle _⟩

theorem Remove.low_nextSlot {p : ℕ} {rem : Bool} {q : Remove}
    (hf : Remove.nextSlot p rem = .goto q) : q.Low := by
  unfold Remove.nextSlot at hf
  split_ifs at hf with hp
  cases hf
  exact hp

theorem le_of_setBit {cxx : Word} {p b : ℕ} (h : ∀ b, cxx.getLsbD b = true → b < p)
    (hb : (setBit cxx p).getLsbD b = true) : b ≤ p := by
  have hlt : b < 64 := BitVec.lt_of_getLsbD hb
  rw [getLsbD_setBit hlt, Bool.or_eq_true, decide_eq_true_iff] at hb
  rcases hb with hb | rfl
  · exact (h b hb).le
  · exact le_rfl

theorem Remove.low_next {q q' : Remove} {r : Ans} (h : q.Low)
    (hf : (remove seed key q).2 r = .goto q') : q'.Low := by
  cases q with
  | stamp =>
    cases hf
    exact ⟨Nat.zero_le _, fun b hb => by simp [Scan.start] at hb⟩
  | testKey final s =>
    simp only [remove] at hf
    split_ifs at hf <;> cases hf
    · exact low_nextScan h.1 fun b hb => le_of_setBit h.2 hb
    · exact h
  | testMoving final s =>
    simp only [remove] at hf
    split_ifs at hf <;> cases hf
    · exact low_nextScan h.1 fun b hb => le_of_setBit h.2 hb
    · exact low_nextScan h.1 fun b hb => (h.2 b hb).le
  | removeKey final i1 i2 =>
    cases hf
    exact h.2
  | removeMoving final i2 rem1 =>
    cases hf
    exact Nat.zero_le _
  | loadSlot p rem =>
    cases hf
    exact h
  | testSlot p slot rem =>
    simp only [remove] at hf
    split_ifs at hf
    · cases hf
      exact h
    · exact low_nextSlot hf
  | poison p slot rem => exact low_nextSlot hf

theorem Remove.low_addr {q : Remove} {i : ℕ} (h : q.Low)
    (hi : (remove seed key q).1.addr = .bucket i) : i ≤ home seed key + HOP := by
  cases q with
  | stamp => cases hi
  | testKey | testMoving | removeKey =>
    obtain rfl := Cell.bucket.inj hi
    exact Nat.add_le_add_left h.1 _
  | removeMoving | loadSlot | testSlot | poison =>
    obtain rfl := Cell.bucket.inj hi
    exact Nat.add_le_add_left h _

theorem remove_below (m : Cell → Word) :
    StaysBelow (remove seed key) .stamp m (home seed key + HOP) := by
  refine StaysBelow.of_inv (P := fun q _ => q.Low) ?_ ?_ trivial
  · intro q m q' hq hf
    exact Remove.low_next hq hf
  · intro q m i hq hi
    exact Remove.low_addr hq hi

/-- A slot of the scan is passed, with one load or two. -/
theorem remove_passes_slot (seed : BitVec 32) (key : Key) (m : Cell → Word) (final : Word)
    (s : Scan) : ∃ cxx,
    Passes (remove seed key) (.testKey final s) m (Remove.nextScan final s.p cxx) m := by
  by_cases h1 : m (.bucket (home seed key + s.p)) = entry key
  · exact ⟨_, .single (if_pos h1)⟩
  · have hmov : (remove seed key (.testKey final s)).flow m = .goto (.testMoving final s) :=
      if_neg h1
    by_cases h2 : m (.bucket (home seed key + s.p)) = moving (entry key)
    · exact ⟨_, .cons hmov rfl (.single (if_pos h2))⟩
    · exact ⟨_, .cons hmov rfl (.single (if_neg h2))⟩

theorem remove_passes_scan (seed : BitVec 32) (key : Key) (m : Cell → Word) (final : Word) :
    ∀ (n p : ℕ) (cxx : Word), HOP = p + n →
      ∃ cxx',
        Passes (remove seed key) (.testKey final ⟨p, cxx⟩) m (.testKey final ⟨HOP, cxx'⟩) m := by
  intro n
  induction n with
  | zero =>
    intro p cxx hn
    obtain rfl : HOP = p := hn
    exact ⟨cxx, .refl _ _⟩
  | succ n ih =>
    intro p cxx hn
    have hp : p < HOP := by omega
    obtain ⟨cxx₁, hslot⟩ := remove_passes_slot seed key m final ⟨p, cxx⟩
    have hnext : Remove.nextScan final p cxx₁ = .testKey final ⟨p + 1, cxx₁⟩ := if_pos hp
    obtain ⟨cxx', hpass⟩ := ih (p + 1) cxx₁ (by omega)
    refine ⟨cxx', hslot.trans ?_⟩
    rw [hnext]
    exact hpass

/-- The scan of a removal comes to the last slot of the window. -/
theorem remove_passes (seed : BitVec 32) (key : Key) (m : Cell → Word) : ∃ final cxx m',
    Passes (remove seed key) .stamp m (.testKey final ⟨HOP, cxx⟩) m' ∧ buckets m' = buckets m := by
  obtain ⟨cxx, hpass⟩ := remove_passes_scan seed key ((remove seed key .stamp).mem m)
    (finalEntry (m .timeStamp)) HOP 0 0#64 (Nat.zero_add _).symm
  exact ⟨_, cxx, _, .cons rfl rfl hpass, buckets_timeStamp _ _⟩

theorem remove_reaches (m : Cell → Word) :
    Reaches (remove seed key) .stamp m (home seed key + HOP) := by
  obtain ⟨final, cxx, m', hpass, -⟩ := remove_passes seed key m
  exact ⟨_, m', hpass, rfl⟩

/-! ### `add` -/

/-- How far above the home an `add` goes: to the end of the window if the key is stored, and
else also to the slot its probe ends at. -/
def highest (seed : BitVec 32) (T : ℕ → Word) (key : Key) : ℕ :=
  if Stored seed T key then HOP
  else max HOP (((List.range ADD_RANGE).find? fun d => T (home seed key + d) = 0#64).getD ADD_RANGE)

theorem highest_of_stored {T : ℕ → Word} (h : Stored seed T key) : highest seed T key = HOP :=
  if_pos h

/-- The slot the probe ends at is the first empty one, or the one right above a taken range. -/
theorem highest_of_not {T : ℕ → Word} (h : ¬ Stored seed T key) : ∃ d,
    highest seed T key = max HOP d ∧
      ((d < ADD_RANGE ∧ FirstEmpty seed T key d) ∨
        (d = ADD_RANGE ∧ ∀ j < ADD_RANGE, T (home seed key + j) ≠ 0#64)) := by
  unfold highest
  rw [if_neg h]
  refine ⟨_, rfl, ?_⟩
  cases hf : (List.range ADD_RANGE).find? fun d => decide (T (home seed key + d) = 0#64) with
  | some d =>
    rw [List.find?_range_eq_some] at hf
    obtain ⟨h1, h2, h3⟩ := hf
    refine Or.inl ⟨List.mem_range.mp h2, of_decide_eq_true h1, fun j hj => ?_⟩
    simpa using h3 j hj
  | none =>
    refine Or.inr ⟨rfl, fun j hj => ?_⟩
    simpa using List.find?_eq_none.mp hf j (List.mem_range.mpr hj)

/-- A lookup that finds the key stays in the window. -/
theorem add_below_of_stored (h : Stored seed (buckets m) key) :
    StaysBelow (add seed key) (.contains .start) m (home seed key + HOP) := by
  refine StaysBelow.of_inv (P := fun p m' => m' = m ∧ ∃ s, p = .contains s ∧ s.p ≤ HOP ∧
    (s.cxx ≠ 0#64 ∨ ∃ q, s.p ≤ q ∧ q ≤ HOP ∧ Hit (buckets m) key (home seed key + q))) ?_ ?_ ?_
  · rintro p m' p' ⟨rfl, s, rfl, hp, hs⟩ hf
    have hread : s.read seed (buckets m') key ≠ 0#64 ∨
        ∃ q, s.p + 1 ≤ q ∧ q ≤ HOP ∧ Hit (buckets m') key (home seed key + q) := by
      rw [read_ne_zero hp]
      rcases hs with hs | ⟨q, h1, h2, hit⟩
      · exact Or.inl (Or.inl hs)
      · rcases Nat.eq_or_lt_of_le h1 with rfl | hlt
        · exact Or.inl (Or.inr hit)
        · exact Or.inr ⟨q, hlt, h2, hit⟩
    refine ⟨rfl, ?_⟩
    rcases add_goto hf with ⟨sc, hsc, hlt, rfl⟩ | ⟨-, hend⟩
    · cases hsc
      exact ⟨_, rfl, hlt, hread⟩
    · -- at the end the bits are not all zero
      obtain ⟨hle, hzero⟩ := hend s rfl
      rcases hread with hne | ⟨q, h1, h2, -⟩
      · exact absurd hzero hne
      · omega
  · rintro p m' i ⟨-, s, rfl, hp, -⟩ hi
    obtain rfl := Cell.bucket.inj hi
    exact Nat.add_le_add_left hp _
  · obtain ⟨q, hq, hit⟩ := h
    exact ⟨rfl, .start, rfl, Nat.zero_le _, Or.inr ⟨q, Nat.zero_le _, Nat.lt_succ_iff.mp hq, hit⟩⟩

/-- `Ind` is a slot up to `Loc`. -/
def Relocate.Far (Loc : ℕ) : Relocate → Prop
  | .getInd _ Ind => Ind ≤ Loc
  | .getReplace _ | .loadExp _ | .mark _ _ | .loadDest _ | .loadFin _ _ | .copy _ _ _
  | .loadMark _ | .overwrite _ _ => True

theorem Relocate.far_next {Loc : ℕ} {e : Word} {q q' : Relocate} {r : Ans} (h : q.Ok Loc)
    (hf : (relocate seed Loc e q).2 r = .goto q') : q'.Far Loc := by
  cases q with
  | getInd i ind | getReplace i =>
    rcases seek_eq_goto.mp hf with ⟨rfl, -⟩ | ⟨rfl, -⟩ <;> trivial
  | mark i Exp =>
    simp only [relocate] at hf
    split_ifs at hf <;> cases hf
    · trivial
    · exact h.2.1
  | loadExp i | loadDest i | loadFin i Dest | copy i Dest Fin | loadMark i =>
    cases hf
    trivial
  | overwrite i Exp => cases hf

theorem Relocate.far_addr {Loc i : ℕ} {e : Word} {q : Relocate} (hq : q.Ok Loc) (h : q.Far Loc)
    (hi : (relocate seed Loc e q).1.addr = .bucket i) : i ≤ Loc := by
  cases q with
  | getInd j ind =>
    obtain rfl := Cell.bucket.inj hi
    exact h
  | getReplace j =>
    obtain rfl := Cell.bucket.inj hi
    exact hq.2
  | loadExp j | loadFin j Dest | loadMark j | overwrite j Exp =>
    obtain rfl := Cell.bucket.inj hi
    exact hq.2.le
  | mark j Exp =>
    obtain rfl := Cell.bucket.inj hi
    exact hq.2.1.le
  | loadDest j | copy j Dest Fin =>
    obtain rfl := Cell.bucket.inj hi
    exact le_rfl

/-- How far an `add` has come that has not found its key in the table `m`, and whose probe
ends at the offset `d`. -/
def Add.Far (seed : BitVec 32) (key : Key) (m : Cell → Word) (d : ℕ) : Add → (Cell → Word) → Prop
  | .contains _, m' => m' = m
  | .probe tg i n, m' => tg = 0#64 ∧ m' = m ∧ i + 1 = home seed key + n ∧ n ≤ d + 1
  | .reserve tg i n, m' => tg = 0#64 ∧ m' = m ∧ i ≤ home seed key + d ∧
      (n ≤ ADD_RANGE → buckets m i = 0#64)
  | .relocate Loc q, _ => Loc ≤ home seed key + d ∧ q.Far Loc
  | .loadExp _, _ | .release _ _, _ | .insert _, _ => True

theorem far_settle {i d : ℕ} {m' : Cell → Word} (h1 : home seed key ≤ i)
    (h2 : i ≤ home seed key + d) (h3 : i ≤ home seed key + ADD_RANGE) :
    (Add.settle seed key i).Far seed key m d m' := by
  have hh := home_lt seed key
  have hi : i < 2 ^ 32 := by simp only [TotalBuckets, ADD_RANGE] at *; omega
  unfold Add.settle
  split_ifs with h
  · rw [sub32_of_le h1 hi] at h
    refine ⟨h2, ?_⟩
    show sub32 i HOP ≤ i
    rw [sub32_of_le (by omega) hi]
    exact Nat.sub_le i HOP
  · trivial

theorem far_probeNext {i n d : ℕ} (hi : i = home seed key + n) (hn : n ≤ d) :
    (Add.probeNext 0#64 i n).Far seed key m d m := by
  unfold Add.probeNext
  split_ifs with h
  · exact ⟨rfl, rfl, by omega, by omega⟩
  · exact ⟨rfl, rfl, by omega, fun hle => by omega⟩

/-- The probe ends at the offset `d`: the slot is empty, or the range is passed. -/
theorem far_next {p p' : Add} {d : ℕ} {m' : Cell → Word} (hok : p.Ok seed key)
    (hd : (d < ADD_RANGE ∧ buckets m (home seed key + d) = 0#64) ∨ d = ADD_RANGE)
    (h : p.Far seed key m d m') (hf : (add seed key p).flow m' = .goto p') :
    p'.Far seed key m d ((add seed key p).mem m') := by
  cases p with
  | contains s =>
    obtain rfl : m' = m := h
    rcases Flow.bind_eq_goto.mp hf with ⟨s', -, rfl⟩ | ⟨b, -, hb⟩
    · rfl
    · split_ifs at hb
      cases hb
      exact far_probeNext (Nat.add_zero _).symm (Nat.zero_le d)
  | probe tg i n =>
    obtain ⟨rfl, rfl, hi, hn⟩ := h
    obtain ⟨h1, h2, h3⟩ := hok
    rw [probe_flow] at hf
    split_ifs at hf with hz <;> cases hf
    · have hne : n ≤ d := by
        rcases hd with ⟨-, hzero⟩ | rfl
        · refine Nat.le_of_lt_succ (Nat.lt_of_le_of_ne hn fun he => hz ?_)
          have hid : i = home seed key + d := by omega
          rw [hid, hzero]
        · exact h3
      exact far_probeNext (by omega) hne
    · refine ⟨rfl, rfl, by omega, fun _ => ?_⟩
      simpa using hz
  | reserve tg i n =>
    obtain ⟨rfl, rfl, hi, hzero⟩ := h
    obtain ⟨h1, h2, h3⟩ := hok
    by_cases hn : ADD_RANGE ≤ n
    · rw [reserve_fails hn] at hf
      cases hf
    · rw [(reserve_ok (hzero (by omega))).1, Add.reserved, if_neg hn] at hf
      cases hf
      exact far_settle h1 hi (by omega)
  | relocate Loc q =>
    obtain ⟨h1, h2, hq⟩ := hok
    rcases Flow.bind_eq_goto.mp hf with ⟨q', hq', rfl⟩ | ⟨i, hi, hk⟩
    · exact ⟨h.1, Relocate.far_next hq hq'⟩
    · obtain ⟨h3, h4⟩ := Relocate.ok_ret hq hi
      have hLoc := h.1
      split_ifs at hk
      cases hk
      exact far_settle (by omega) (by omega) (by omega)
  | loadExp i | release i Exp =>
    cases hf
    trivial
  | insert q =>
    rcases Flow.bind_eq_goto.mp hf with ⟨q', -, rfl⟩ | ⟨b, -, hb⟩
    · trivial
    · split_ifs at hb
      cases hb
      trivial

theorem far_addr {p : Add} {d i : ℕ} {m' : Cell → Word} (hok : p.Ok seed key)
    (h : p.Far seed key m d m') (hi : (add seed key p).1.addr = .bucket i) :
    i ≤ home seed key + max HOP d := by
  have hleft : home seed key + HOP ≤ home seed key + max HOP d :=
    Nat.add_le_add_left (Nat.le_max_left _ _) _
  have hright : home seed key + d ≤ home seed key + max HOP d :=
    Nat.add_le_add_left (Nat.le_max_right _ _) _
  cases p with
  | contains s =>
    obtain rfl := Cell.bucket.inj hi
    exact (Nat.add_le_add_left hok _).trans hleft
  | probe tg j n =>
    obtain rfl := Cell.bucket.inj hi
    obtain ⟨-, -, h1, h2⟩ := h
    exact le_trans (by omega) hright
  | reserve tg j n =>
    obtain rfl := Cell.bucket.inj hi
    exact h.2.2.1.trans hright
  | relocate Loc q => exact ((Relocate.far_addr hok.2.2 h.2 hi).trans h.1).trans hright
  | loadExp j | release j Exp =>
    obtain rfl := Cell.bucket.inj hi
    exact hok.2.trans hleft
  | insert q =>
    cases q with
    | first tg cached q | claim tg cached q | second cached q =>
      obtain rfl := Cell.bucket.inj hi
      exact (Nat.add_le_add_left hok _).trans hleft
    | reuse slot q => exact hok.elim

theorem add_below (m : Cell → Word) :
    StaysBelow (add seed key) (.contains .start) m
      (home seed key + highest seed (buckets m) key) := by
  by_cases hs : Stored seed (buckets m) key
  · rw [highest_of_stored hs]
    exact add_below_of_stored hs
  · obtain ⟨d, hd, hend⟩ := highest_of_not hs
    have hstop : (d < ADD_RANGE ∧ buckets m (home seed key + d) = 0#64) ∨ d = ADD_RANGE :=
      hend.imp (fun h => ⟨h.1, h.2.1⟩) fun h => h.1
    rw [hd]
    refine StaysBelow.of_inv (P := fun p m' => p.Ok seed key ∧ p.Far seed key m d m') ?_ ?_
      ⟨Nat.zero_le _, rfl⟩
    · intro p m' p' hp hf
      exact ⟨Add.ok_next hp.1 hf, far_next hp.1 hstop hp.2 hf⟩
    · intro p m' i hp hi
      exact far_addr hp.1 hp.2 hi

theorem add_reaches (m : Cell → Word) :
    Reaches (add seed key) (.contains .start) m (home seed key + highest seed (buckets m) key) := by
  have hwindow : Reaches (add seed key) (.contains .start) m (home seed key + HOP) :=
    (contains_reaches m).inside fun _ => rfl
  by_cases hs : Stored seed (buckets m) key
  · rw [highest_of_stored hs]
    exact hwindow
  · obtain ⟨d, hd, hend⟩ := highest_of_not hs
    have hprobe : Reaches (add seed key) (.contains .start) m (home seed key + d) := by
      rcases hend with ⟨hlt, hfirst⟩ | ⟨rfl, hfull⟩
      · exact ⟨_, m, passes_reserve hs hfirst hlt, rfl⟩
      · exact ⟨_, m, passes_overrun hs hfull, rfl⟩
    rw [hd]
    rcases Nat.le_total d HOP with hle | hle
    · rw [max_eq_left hle]
      exact hwindow
    · rw [max_eq_right hle]
      exact hprobe

/-! ### The end of the array -/

/-- The constructor leaves the array whatever the seed is. `contains` and `Remove` stay in
it exactly if the window of the key does, `add` exactly if the slots up to where it goes do. -/
theorem accesses_inside_iff (seed : BitVec 32) (m : Cell → Word) :
    ¬ StaysInside construct .setStamp m ∧ ∀ key : Key,
      (StaysInside (contains seed key) .start m ↔ home seed key + HOP < TotalBuckets) ∧
      (StaysInside (remove seed key) .stamp m ↔ home seed key + HOP < TotalBuckets) ∧
      (StaysInside (add seed key) (.contains .start) m ↔
        home seed key + highest seed (buckets m) key < TotalBuckets) := by
  refine ⟨fun h => ?_, fun key => ⟨?_, ?_, ?_⟩⟩
  · have hlt : TotalBuckets < TotalBuckets + HOP := Nat.lt_add_of_pos_right (by decide)
    exact Nat.lt_irrefl _ (h TotalBuckets
      ⟨_, _, construct_from_start (construct_passes TotalBuckets hlt), rfl⟩)
  · exact staysInside_iff (contains_below m) (contains_reaches m)
  · exact staysInside_iff (remove_below m) (remove_reaches m)
  · exact staysInside_iff (add_below m) (add_reaches m)

/-- The key 1592866, whose home is the fourth slot from the end, in the empty table. -/
theorem accesses_leave_the_array : home 1 1592866 = TotalBuckets - 4 ∧
    (∃ m, Passes construct .setStamp (fun _ => 0#64) (.clear TotalBuckets) m) ∧
    ∃ s m, Passes (contains 1 1592866) .start (fun _ => 0#64) s m ∧
      (contains 1 1592866 s).1 = .load (.bucket (TotalBuckets + 12)) := by
  have hhome : home 1 1592866 = TotalBuckets - 4 := by decide +kernel
  have hlt : TotalBuckets < TotalBuckets + HOP := Nat.lt_add_of_pos_right (by decide)
  obtain ⟨cxx, hpass⟩ := contains_passes (fun _ => 0#64) HOP 0 0#64
    (Nat.zero_add _).symm
  refine ⟨hhome, ⟨_, construct_from_start (construct_passes TotalBuckets hlt)⟩, _, _, hpass, ?_⟩
  show Access.load (Cell.bucket (home 1 1592866 + HOP)) = _
  rw [hhome]
  rfl

end LFHash
