/-
# The table as one thread computes it

What `add`, `Remove` and `contains` come to when nothing else runs: functions from a table
to a table and an answer, without control points, tags or compare-exchanges. `add` takes
the first empty slot of its range; while that slot is above the window of the key, the
first word below it that may move there does, and leaves its own slot free (`sink`).
`Remove` replaces the first copy of its key by the stamp.

`serialCall_returns` and `serialCall_exits` say that the code, alone on a table without
tags, ends as these functions say.

Key definitions: `Plain`, `place`, `serialAdd`, `serialRemove`, `serialCall`.
Key theorems: `settle_ends`, `add_ends`, `remove_ends`, `serialCall_returns`,
`add_exits_iff_no_room`, `one_thread_runs_serially`, `serial_has_a_run`.
-/
import LFHash.Bitmap
import LFHash.Room

namespace LFHash

open Interleave

variable {seed : BitVec 32} {key : Key}

/-- A table without tags: the words of `Buckets`, and the counter. -/
structure Plain where
  words : ℕ → Word
  timeStamp : Word
  untagged : ∀ i, tag (words i) = 0#64

/-- The memory that holds it. -/
def Plain.mem (P : Plain) : Cell → Word
  | .bucket i => P.words i
  | .timeStamp => P.timeStamp

def Plain.empty : Plain := ⟨fun _ => 0#64, 0#64, fun _ => tag_zero⟩

/-- The word `w` goes into the window above `b`. The last slot of the range is not used. -/
def place (choose : (ℕ → Word) → ℕ → Option ℕ) (b : ℕ) (T : ℕ → Word) (w : Word) :
    Except Exit (ℕ → Word) :=
  match firstSlot T b (ADD_RANGE - 1) 0#64 with
  | none => .error .insertionFailure
  | some d =>
    match sink choose b ADD_RANGE T (b + d) with
    | none => .error .resize
    | some (T', i) => .ok (Function.update T' i w)

/-- `add(key)`. -/
def serialAdd (seed : BitVec 32) (T : ℕ → Word) (key : Key) : Except Exit (ℕ → Word) :=
  if Stored seed T key then .ok T else place (pick seed) (home seed key) T (entry key)

/-- The first word `w` of the window above `b` is replaced by `fin`. -/
def vacate (b : ℕ) (T : ℕ → Word) (w fin : Word) : (ℕ → Word) × Bool :=
  match firstSlot T b (HOP + 1) w with
  | none => (T, false)
  | some d => (Function.update T (b + d) fin, true)

/-- `Remove(key)`, with the stamp `fin`. -/
def serialRemove (seed : BitVec 32) (T : ℕ → Word) (key : Key) (fin : Word) :
    (ℕ → Word) × Bool := vacate (home seed key) T (entry key) fin

theorem words_update {W : Word → Prop} {T : ℕ → Word} {i : ℕ} {w : Word} (hT : ∀ j, W (T j))
    (hw : W w) : ∀ j, W (Function.update T i w j) :=
  (Function.forall_update_iff T fun _ w => W w).mpr ⟨hw, fun j _ => hT j⟩

/-- What holds of every word holds after the relocations. -/
theorem sink_words {W : Word → Prop} {choose : (ℕ → Word) → ℕ → Option ℕ} {b : ℕ} :
    ∀ {n : ℕ} {T T' : ℕ → Word} {i i' : ℕ}, (∀ j, W (T j)) →
      sink choose b n T i = some (T', i') → ∀ j, W (T' j) := by
  intro n
  induction n with
  | zero =>
    intro T T' i i' _ h
    cases h
  | succ n ih =>
    intro T T' i i' hT h
    rw [sink] at h
    split at h
    · cases h
      exact hT
    · split at h
      · cases h
      · next r _ =>
        exact ih (words_update hT (hT r)) h

theorem place_words {W : Word → Prop} {choose : (ℕ → Word) → ℕ → Option ℕ} {b : ℕ}
    {T T' : ℕ → Word} {w : Word} (hT : ∀ j, W (T j)) (hw : W w)
    (h : place choose b T w = .ok T') : ∀ j, W (T' j) := by
  unfold place at h
  split at h
  · cases h
  · split at h
    · cases h
    · next T₁ i hs =>
      cases h
      exact words_update (sink_words hT hs) hw

theorem vacate_words {W : Word → Prop} {b : ℕ} {T : ℕ → Word} {w fin : Word} (hT : ∀ j, W (T j))
    (hfin : W fin) : ∀ j, W ((vacate b T w fin).1 j) := by
  unfold vacate
  split
  · exact hT
  · exact words_update hT hfin

theorem untagged_serialRemove {seed : BitVec 32} {key : Key} {T : ℕ → Word} {fin : Word}
    (hT : ∀ i, tag (T i) = 0#64) (hfin : tag fin = 0#64) (i : ℕ) :
    tag ((serialRemove seed T key fin).1 i) = 0#64 :=
  vacate_words (W := fun w => tag w = 0#64) hT hfin i

theorem untagged_serialAdd {seed : BitVec 32} {key : Key} {T T' : ℕ → Word}
    (hT : ∀ i, tag (T i) = 0#64) (h : serialAdd seed T key = .ok T') (i : ℕ) :
    tag (T' i) = 0#64 := by
  rw [serialAdd] at h
  split at h
  · cases h
    exact hT i
  · exact place_words (W := fun w => tag w = 0#64) hT (tag_entry _) h i

/-- The table that `T` stands for, where `T` is one without tags. -/
def Plain.after (P : Plain) (T : Except Exit (ℕ → Word))
    (hT : ∀ T', T = .ok T' → ∀ i, tag (T' i) = 0#64) : Except Exit Plain :=
  match T, hT with
  | .error e, _ => .error e
  | .ok T', hT => .ok ⟨T', P.timeStamp, hT T' rfl⟩

/-- What a call comes to, alone. -/
def serialCall (seed : BitVec 32) (P : Plain) : Call → Except Exit (Plain × (Call × Bool))
  | .add key =>
    (P.after (serialAdd seed P.words key) fun _ => untagged_serialAdd P.untagged).map
      fun Q => (Q, .add key, true)
  | .remove key tid =>
    let x := serialRemove seed P.words key (finalEntry P.timeStamp)
    .ok (⟨x.1, P.timeStamp + 1#64, untagged_serialRemove P.untagged (tag_finalEntry _)⟩,
      .remove key tid, x.2)
  | .contains key => .ok (P, .contains key, decide (Stored seed P.words key))

/-- The calls `cs` of thread 0 on a freshly constructed table: the table they leave and their
results (latest first), or the first exit. -/
def serial (seed : BitVec 32) (cs : List Call) :
    Except Exit (Plain × List (ℕ × (Call × Bool))) :=
  turns (serialCall seed) 0 (Plain.empty, []) cs

/-! ### Where a word goes -/

variable {T T' : ℕ → Word} {b n d i r Loc : ℕ} {w : Word} {choose : (ℕ → Word) → ℕ → Option ℕ}

theorem place_full (h : firstSlot T b (ADD_RANGE - 1) 0#64 = none) :
    place choose b T w = .error .insertionFailure := by
  rw [place, h]

theorem place_stuck (h : firstSlot T b (ADD_RANGE - 1) 0#64 = some d)
    (hs : sink choose b ADD_RANGE T (b + d) = none) : place choose b T w = .error .resize := by
  simp only [place, h, hs]

theorem place_at (h : firstSlot T b (ADD_RANGE - 1) 0#64 = some d)
    (hs : sink choose b ADD_RANGE T (b + d) = some (T', i)) :
    place choose b T w = .ok (Function.update T' i w) := by
  simp only [place, h, hs]

theorem serialAdd_ok_iff : (∃ T', serialAdd seed T key = .ok T') ↔
    Stored seed T key ∨ HasRoom seed T key := by
  unfold serialAdd
  split_ifs with hs
  · exact iff_of_true ⟨T, rfl⟩ (Or.inl hs)
  · rw [or_iff_right hs, hasRoom_iff]
    cases hd : firstSlot T (home seed key) (ADD_RANGE - 1) 0#64 with
    | none =>
      rw [place_full hd, Option.bind_none]
      simp
    | some d =>
      rw [Option.bind_some]
      cases hx : sink (pick seed) (home seed key) ADD_RANGE T (home seed key + d) with
      | none =>
        rw [place_stuck hd hx]
        simp
      | some x =>
        rw [place_at hd hx]
        simp

/-! ### Lookups -/

variable {m : Cell → Word}

/-- The scan from offset `p` on. -/
theorem scan_ends (seed : BitVec 32) (key : Key) : ∀ (n p : ℕ) (cxx : Word), HOP = p + n → ∃ found,
    Ends (contains seed key) ⟨p, cxx⟩ m (.ret found) m ∧
      (found = true ↔ cxx ≠ 0#64 ∨
        ∃ q, p ≤ q ∧ q ≤ HOP ∧ Hit (buckets m) key (home seed key + q)) := by
  intro n
  induction n with
  | zero =>
    intro p cxx hn
    have hp : ¬ p < HOP := by omega
    refine ⟨_, .of_ret ((contains_flow m _).trans (if_neg hp)) rfl, ?_⟩
    rw [bne_iff_ne, read_ne_zero (by exact hn.ge)]
    refine or_congr_right ⟨fun h => ⟨p, le_rfl, hn.ge, h⟩, ?_⟩
    rintro ⟨q, h1, h2, h⟩
    obtain rfl : q = p := by omega
    exact h
  | succ n ih =>
    intro p cxx hn
    have hp : p < HOP := by omega
    obtain ⟨found, hend, hiff⟩ := ih (p + 1) ((Scan.mk p cxx).read seed (buckets m) key) (by omega)
    refine ⟨found, .cons ((contains_flow m _).trans (if_pos hp)) rfl hend, hiff.trans ?_⟩
    rw [read_ne_zero (by exact hp.le), or_assoc]
    refine or_congr_right ⟨?_, ?_⟩
    · rintro (h | ⟨q, hq, hq', h⟩)
      · exact ⟨p, le_rfl, hp.le, h⟩
      · exact ⟨q, by omega, hq', h⟩
    · rintro ⟨q, hq, hq', h⟩
      rcases Nat.eq_or_lt_of_le hq with rfl | hlt
      · exact Or.inl h
      · exact Or.inr ⟨q, hlt, hq', h⟩

theorem contains_ends (seed : BitVec 32) (key : Key) (m : Cell → Word) :
    Ends (contains seed key) .start m (.ret (decide (Stored seed (buckets m) key))) m := by
  obtain ⟨found, hend, hiff⟩ := scan_ends seed key (m := m) HOP 0 0#64
    (Nat.zero_add _).symm
  have hfound : found = decide (Stored seed (buckets m) key) := by
    rw [Bool.eq_iff_iff, decide_eq_true_iff, hiff]
    simp only [Stored, Nat.lt_succ_iff, ne_eq, not_true_eq_false, false_or, Nat.zero_le, true_and]
  rwa [hfound] at hend

/-! ### `BucketInsert` -/

theorem insert_flow {p : ℕ} : (bucketInsert b key (.first 0#64 none p)).flow m =
    if buckets m (b + p) = 0#64 then .goto (.claim 0#64 none p)
    else .goto (.nextFirst 0#64 none p) := by
  simp only [Point.flow, bucketInsert, isRemoved_eq_false, Bool.false_eq_true, if_false,
    Access.exec_load]
  rfl

/-- The first loop passes the slots that are taken. -/
theorem insert_passes (hd : d ≤ HOP) (hfull : ∀ j < d, buckets m (b + j) ≠ 0#64) :
    ∀ n p : ℕ, d = p + n →
      Passes (bucketInsert b key) (.first 0#64 none p) m (.first 0#64 none d) m := by
  intro n
  induction n with
  | zero =>
    intro p hn
    obtain rfl : d = p := hn
    exact .refl _ _
  | succ n ih =>
    intro p hn
    have hnext : Insert.nextFirst 0#64 none p = .first 0#64 none (p + 1) := if_pos (by omega)
    have hflow : (bucketInsert b key (.first 0#64 none p)).flow m =
        .goto (.first 0#64 none (p + 1)) := by
      rw [insert_flow, if_neg (hfull p (by omega)), hnext]
    exact .cons hflow rfl (ih (p + 1) (by omega))

theorem claim_ok {p : ℕ} (h : buckets m (b + p) = 0#64) :
    (bucketInsert b key (.claim 0#64 none p)).flow m = .ret true ∧
      (bucketInsert b key (.claim 0#64 none p)).mem m =
        Function.update m (.bucket (b + p)) (entry key) := by
  have he : m (.bucket (b + p)) = 0#64 := h
  simp [Point.flow, Point.mem, bucketInsert, Access.exec_cas_of_eq m _ he]

/-- `BucketInsert` puts the key into the first empty slot of the window. -/
theorem insert_ends (key : Key) (hd : d ≤ HOP) (hfull : ∀ j < d, buckets m (b + j) ≠ 0#64)
    (hz : buckets m (b + d) = 0#64) :
    Ends (bucketInsert b key) .start m (.ret true)
      (Function.update m (.bucket (b + d)) (entry key)) := by
  have hclaim : (bucketInsert b key (.first 0#64 none d)).flow m = .goto (.claim 0#64 none d) := by
    rw [insert_flow, if_pos hz]
  obtain ⟨hflow, hmem⟩ := claim_ok hz
  exact (insert_passes hd hfull d 0 (Nat.zero_add _).symm).ends
    (.cons hclaim rfl (.of_ret hflow hmem))

/-! ### `add` -/

/-- A slot reserved in the window is given back, and the key put there. -/
theorem release_ends (h1 : home seed key ≤ i) (h2 : i ≤ home seed key + HOP)
    (hfull : ∀ j, home seed key ≤ j → j < i → buckets m j ≠ 0#64) :
    Ends (add seed key) (.loadExp i) m (.ret true)
      (Function.update m (.bucket i) (entry key)) := by
  have hi : home seed key + (i - home seed key) = i := by omega
  let m₁ := Function.update m (.bucket i) 0#64
  have hrel : (add seed key (.release i (m (.bucket i)))).mem m = m₁ := by
    simp only [Point.mem, add, Access.exec_cas_of_eq m (a := .bucket i) _ rfl]
    rfl
  have hother : ∀ j, j ≠ i → buckets m₁ j = buckets m j := by
    intro j hj
    exact Function.update_of_ne (fun he => hj (Cell.bucket.inj he)) _ _
  have hz : buckets m₁ (home seed key + (i - home seed key)) = 0#64 := by
    rw [hi]
    exact Function.update_self ..
  have hins : Ends (bucketInsert (home seed key) key) .start m₁ (.ret true)
      (Function.update m (.bucket i) (entry key)) := by
    have hend := insert_ends key (m := m₁) (b := home seed key)
      (d := i - home seed key) (by omega) (fun j hj => ?_) hz
    · rwa [hi, Function.update_idem] at hend
    · rw [hother _ (by omega)]
      exact hfull _ (Nat.le_add_right _ _) (by omega)
  have hcode : ∀ q, add seed key (.insert q) = (bucketInsert (home seed key) key q).inside .insert
      fun inserted => if inserted then .ret true else .goto (.insert .start) := fun _ => rfl
  exact .cons rfl rfl (.cons rfl hrel (Ends.inside_ret hcode hins rfl))

/-- What an `add` that has reserved slot `i` comes to in the table `T`: the slot sinks into
the window, and the key goes there; or no word can move, and the process exits. -/
theorem settle_ends : ∀ (n : ℕ) {T : ℕ → Word} {m : Cell → Word} {i : ℕ},
    home seed key ≤ i → i ≤ home seed key + ADD_RANGE → i < home seed key + n →
    buckets m = Function.update T i (newEntry key) →
    (∀ j, home seed key ≤ j → j < i → T j ≠ 0#64) → (∀ j < i, tag (T j) = 0#64) →
    match sink (pick seed) (home seed key) n T i with
    | none => ∃ m', Ends (add seed key) (.settle seed key i) m (.exit .resize) m'
    | some (T', i') => ∃ m', Ends (add seed key) (.settle seed key i) m (.ret true) m' ∧
        buckets m' = Function.update T' i' (entry key) ∧ m' .timeStamp = m .timeStamp := by
  intro n
  induction n with
  | zero =>
    intro T m i h1 _ h3
    omega
  | succ n ih =>
    intro T m i h1 h2 h3 hm hfull htag
    have hh := home_lt seed key
    have hi : i < 2 ^ 32 := by
      simp only [TotalBuckets, ADD_RANGE] at *
      omega
    have hbelow : ∀ j < i, buckets m j = T j := by
      intro j hj
      rw [hm]
      exact Function.update_of_ne (Nat.ne_of_lt hj) _ _
    by_cases hnear : i ≤ home seed key + HOP
    · -- the slot is in the window
      have hset : Add.settle seed key i = .loadExp i := by
        unfold Add.settle
        rw [sub32_of_le h1 hi, if_neg (by omega)]
      rw [sink_here hnear, hset]
      refine ⟨_, release_ends h1 hnear fun j hj hji => ?_, ?_, ?_⟩
      · rw [hbelow j hji]
        exact hfull j hj hji
      · rw [buckets_update, hm, Function.update_idem]
      · exact Function.update_of_ne (by simp) _ _
    · have hset : Add.settle seed key i = .relocate i (.start i) := by
        unfold Add.settle
        rw [sub32_of_le h1 hi, if_pos (by omega)]
      have hHOP : HOP ≤ i := by omega
      have hcode : ∀ q, add seed key (.relocate i q) =
          (LFHash.relocate seed i (newEntry key) q).inside (.relocate i) fun SlotIndex =>
            if i = SlotIndex then .exit .sameSlot else .goto (.settle seed key SlotIndex) :=
        fun _ => rfl
      rw [hset]
      cases hp : pick seed T i with
      | none =>
        -- no word can move
        rw [sink_stuck hnear hp]
        refine ⟨m, Ends.inside_exit hcode (resizes hHOP hi fun j hj hl => ?_)⟩
        rw [hbelow j hj]
        exact (pick_eq_none hHOP).mp hp j hj hl
      | some r =>
        have hpick : Picks seed (buckets m) i r := ((pick_eq_some hHOP).mp hp).congr hbelow
        have hri := hpick.below
        have hrn := hpick.near
        have hmi : buckets m i = newEntry key := by
          rw [hm]
          exact Function.update_self ..
        have hmr : buckets m r = T r := hbelow r hri
        have hmove := displaces hHOP hi hmi (tag_newEntry key) (by rw [hmr]; exact htag r hri) hpick
        have hgo := Ends.inside_goto (q := .settle seed key r) hcode hmove
          (if_neg (Nat.ne_of_gt hri))
        have hm' : buckets (displaced m i r (newEntry key)) =
            Function.update (Function.update T i (T r)) r (newEntry key) := by
          rw [displaced, buckets_update, buckets_update, hm, Function.update_idem, ← hmr, hm]
        have hlow : ∀ j < r, Function.update T i (T r) j = T j := fun j hj =>
          Function.update_of_ne (Nat.ne_of_lt (hj.trans hri)) _ _
        have hrest := ih (i := r) (by omega) (by omega) (by omega) hm'
          (fun j hj hjr => by rw [hlow j hjr]; exact hfull j hj (hjr.trans hri))
          (fun j hjr => by rw [hlow j hjr]; exact htag j (hjr.trans hri))
        rw [sink_moves hnear hp]
        cases hs : sink (pick seed) (home seed key) n (Function.update T i (T r)) r with
        | none =>
          rw [hs] at hrest
          obtain ⟨m', hend⟩ := hrest
          exact ⟨m', hgo.ends hend⟩
        | some x =>
          rw [hs] at hrest
          obtain ⟨m', hend, hw, hts⟩ := hrest
          exact ⟨m', hgo.ends hend, hw, hts⟩

/-- `add`, alone on a table without tags. -/
theorem add_ends (seed : BitVec 32) (hm : ∀ i, tag (buckets m i) = 0#64) (key : Key) :
    match serialAdd seed (buckets m) key with
    | .error e => ∃ m', Ends (add seed key) (.contains .start) m (.exit e) m'
    | .ok T => ∃ m', Ends (add seed key) (.contains .start) m (.ret true) m' ∧ buckets m' = T ∧
        m' .timeStamp = m .timeStamp := by
  have hcode : ∀ sc, add seed key (.contains sc) = (contains seed key sc).inside .contains
      fun found => if found then .ret true else .goto (.probeNext 0#64 (home seed key) 0) :=
    fun _ => rfl
  by_cases hs : Stored seed (buckets m) key
  · rw [serialAdd, if_pos hs]
    refine ⟨m, Ends.inside_ret hcode (contains_ends seed key m) ?_, rfl, rfl⟩
    rw [decide_eq_true hs]
    rfl
  · rw [serialAdd, if_neg hs]
    cases hfree : firstSlot (buckets m) (home seed key) (ADD_RANGE - 1) 0#64 with
    | none =>
      rw [place_full hfree]
      rw [firstSlot_eq_none] at hfree
      rcases firstEmpty_or_full seed (buckets m) key with ⟨d, hd, hfirst⟩ | hfull
      · -- the one empty slot is the last one
        have hlast : ADD_RANGE ≤ d + 1 := by
          by_contra hlt
          exact hfree d (by omega) hfirst.1
        exact fails_at_end hlast (passes_reserve hs hfirst hd)
      · exact fails_at_end (Nat.le_succ _) (passes_overrun hs hfull)
    | some d =>
      obtain ⟨hd, hz, hfirst⟩ := firstSlot_eq_some.mp hfree
      obtain ⟨hflow, hmem⟩ := reserve_ok (n := d + 1) hz
      have hnot : ¬ ADD_RANGE ≤ d + 1 := by omega
      rw [Add.reserved, if_neg hnot] at hflow
      have hpass := (passes_reserve hs ⟨hz, hfirst⟩ (by omega)).trans (.cons hflow hmem (.refl _ _))
      have hb : buckets (Function.update m (.bucket (home seed key + d)) (newEntry key)) =
          Function.update (buckets m) (home seed key + d) (newEntry key) := buckets_update ..
      have htaken : ∀ j, home seed key ≤ j → j < home seed key + d → buckets m j ≠ 0#64 := by
        intro j hj hjd
        have hne := hfirst (j - home seed key) (by omega)
        rwa [Nat.add_sub_cancel' hj] at hne
      have hset := settle_ends ADD_RANGE (Nat.le_add_right _ d)
        (by omega) (by omega) hb htaken fun j _ => hm j
      cases hsink : sink (pick seed) (home seed key) ADD_RANGE (buckets m)
          (home seed key + d) with
      | none =>
        rw [hsink] at hset
        rw [place_stuck hfree hsink]
        obtain ⟨m', hend⟩ := hset
        exact ⟨m', hpass.ends hend⟩
      | some x =>
        obtain ⟨T', i⟩ := x
        rw [hsink] at hset
        rw [place_at hfree hsink]
        obtain ⟨m', hend, hw, hts⟩ := hset
        refine ⟨m', hpass.ends hend, hw, hts.trans ?_⟩
        exact Function.update_of_ne (by simp) _ _

/-! ### `Remove` -/

theorem vacate_none {fin : Word} (h : firstSlot T b (HOP + 1) w = none) :
    vacate b T w fin = (T, false) := by
  rw [vacate, h]

theorem vacate_some {fin : Word} (h : firstSlot T b (HOP + 1) w = some d) :
    vacate b T w fin = (Function.update T (b + d) fin, true) := by
  rw [vacate, h]

/-- The first bit stands at the first copy of the key. -/
theorem Marked.firstSlot {cxx : Word} (h : Marked seed T key (HOP + 1) cxx)
    (hd : LFHash.firstSlot T (home seed key) (HOP + 1) (entry key) = some d) :
    findFirst cxx = d := by
  obtain ⟨h1, h2, h3⟩ := firstSlot_eq_some.mp hd
  have h64 : d < 64 := by
    simp only [HOP] at h1
    omega
  have hfind : (List.range 64).find? (fun q => cxx.getLsbD q) = some d := by
    rw [List.find?_range_eq_some]
    refine ⟨(h d h64).mpr ⟨h1, h2⟩, List.mem_range.mpr h64, fun j hj => ?_⟩
    rw [Bool.not_eq_true', Bool.eq_false_iff]
    exact fun hbit => h3 j hj ((h j (hj.trans h64)).mp hbit).2
  rw [findFirst, hfind]
  rfl

/-- Without tags the last loop of a removal finds nothing to poison. -/
theorem lastLoop_ends (hm : ∀ i, tag (buckets m i) = 0#64) (rem : Bool) : ∀ n p : ℕ, HOP = p + n →
    Ends (remove seed key) (.loadSlot p rem) m (.ret rem) m := by
  have htest : ∀ p slot, (remove seed key (.testSlot p slot rem)).flow m =
      Remove.nextSlot p rem := by
    intro p slot
    have hne : tag (m (.bucket (home seed key + p))) ≠ 3#64 := by
      have htag := hm (home seed key + p)
      rw [buckets] at htag
      rw [htag]
      decide
    simp only [Point.flow, remove, Access.exec_load, if_neg hne]
  intro n
  induction n with
  | zero =>
    intro p hn
    obtain rfl : HOP = p := hn
    exact .cons rfl rfl (.of_ret ((htest HOP _).trans (if_neg (Nat.lt_irrefl HOP))) rfl)
  | succ n ih =>
    intro p hn
    exact .cons rfl rfl (.cons ((htest p _).trans (if_pos (by omega))) rfl
      (ih (p + 1) (by omega)))

/-- Lines 253 and 256, with the index `i1` of the first bit. -/
theorem removeKey_ends (hm : ∀ i, tag (buckets m i) = 0#64) {fin : Word} (hfin : tag fin = 0#64)
    (i1 i2 : ℕ) : Ends (remove seed key) (.removeKey fin i1 i2) m
      (.ret (decide (buckets m (home seed key + i1) = entry key)))
      (if buckets m (home seed key + i1) = entry key then
        Function.update m (.bucket (home seed key + i1)) fin else m) := by
  -- line 256 finds no moving word
  have hmov : ∀ {m' : Cell → Word} (rem : Bool), (∀ i, tag (buckets m' i) = 0#64) →
      Ends (remove seed key) (.removeMoving fin i2 rem) m' (.ret rem) m' := by
    intro m' rem hm'
    have hne : m' (.bucket (home seed key + i2)) ≠ entry key ||| (1#64 <<< 62) := by
      rw [← moving_entry]
      exact ne_moving (hm' _)
    have hflow : (remove seed key (.removeMoving fin i2 rem)).flow m' = .goto (.loadSlot 0 rem) := by
      simp only [Point.flow, remove, Access.exec_cas_of_ne m' _ hne, Bool.or_false]
    have hmem : (remove seed key (.removeMoving fin i2 rem)).mem m' = m' := by
      simp only [Point.mem, remove, Access.exec_cas_of_ne m' _ hne]
    exact .cons hflow hmem (lastLoop_ends hm' rem HOP 0 (Nat.zero_add _).symm)
  by_cases he : buckets m (home seed key + i1) = entry key
  · have he' : m (.bucket (home seed key + i1)) = entry key := he
    have hflow : (remove seed key (.removeKey fin i1 i2)).flow m =
        .goto (.removeMoving fin i2 true) := by
      simp only [Point.flow, remove, Access.exec_cas_of_eq m _ he']
    have hmem : (remove seed key (.removeKey fin i1 i2)).mem m =
        Function.update m (.bucket (home seed key + i1)) fin := by
      simp only [Point.mem, remove, Access.exec_cas_of_eq m _ he']
    rw [if_pos he, decide_eq_true he]
    refine .cons hflow hmem (hmov true fun i => ?_)
    rw [buckets_update]
    by_cases hi : i = home seed key + i1
    · rw [hi, Function.update_self, hfin]
    · rw [Function.update_of_ne hi]
      exact hm i
  · have he' : m (.bucket (home seed key + i1)) ≠ entry key := he
    have hflow : (remove seed key (.removeKey fin i1 i2)).flow m =
        .goto (.removeMoving fin i2 false) := by
      simp only [Point.flow, remove, Access.exec_cas_of_ne m _ he']
    have hmem : (remove seed key (.removeKey fin i1 i2)).mem m = m := by
      simp only [Point.mem, remove, Access.exec_cas_of_ne m _ he']
    rw [if_neg he, decide_eq_false he]
    exact .cons hflow hmem (hmov false hm)

/-- `Remove`, alone on a table without tags. -/
theorem remove_ends (seed : BitVec 32) (hm : ∀ i, tag (buckets m i) = 0#64) (key : Key) : ∃ m',
    Ends (remove seed key) .stamp m
      (.ret (serialRemove seed (buckets m) key (finalEntry (m .timeStamp))).2) m' ∧
    buckets m' = (serialRemove seed (buckets m) key (finalEntry (m .timeStamp))).1 ∧
    m' .timeStamp = m .timeStamp + 1#64 := by
  let fin := finalEntry (m .timeStamp)
  let m₁ := Function.update m .timeStamp (m .timeStamp + 1#64)
  have hb : buckets m₁ = buckets m := buckets_timeStamp _ _
  -- the scan, up to line 253
  obtain ⟨cxx, hscan⟩ := remove_passes_scan seed key m₁ fin HOP 0 0#64 (Nat.zero_add _).symm
  obtain ⟨cxx', hslot⟩ := remove_passes_slot seed key m₁ fin ⟨HOP, cxx⟩
  have hnext : Remove.nextScan fin HOP cxx' =
      .removeKey fin (findFirst cxx') (findNext cxx' (findFirst cxx')) :=
    if_neg (Nat.lt_irrefl HOP)
  rw [hnext] at hslot
  have hpass : Passes (remove seed key) .stamp m
      (.removeKey fin (findFirst cxx') (findNext cxx' (findFirst cxx'))) m₁ :=
    .cons rfl rfl (hscan.trans hslot)
  obtain ⟨-, -, c, hmark, hc⟩ := remove_follows hm hpass
  have hend := hpass.ends (removeKey_ends (m := m₁) (by rwa [hb]) (tag_finalEntry _)
    (findFirst cxx') (findNext cxx' (findFirst cxx')))
  have hts : m₁ .timeStamp = m .timeStamp + 1#64 := Function.update_self ..
  rw [hb] at hend
  unfold serialRemove
  cases hd : LFHash.firstSlot (buckets m) (home seed key) (HOP + 1) (entry key) with
  | none =>
    rw [vacate_none hd]
    have hne : buckets m (home seed key + findFirst cxx') ≠ entry key := by
      rw [hc]
      exact firstSlot_eq_none.mp hd _ (Nat.lt_succ_of_le hmark.first.1)
    rw [if_neg hne, decide_eq_false hne] at hend
    exact ⟨m₁, hend, hb, hts⟩
  | some d =>
    rw [vacate_some hd]
    have heq : findFirst cxx' = d := hc.trans (hmark.firstSlot hd)
    have he : buckets m (home seed key + findFirst cxx') = entry key := by
      rw [heq]
      exact (firstSlot_eq_some.mp hd).2.1
    rw [if_pos he, decide_eq_true he, heq] at hend
    refine ⟨_, hend, ?_, ?_⟩
    · rw [buckets_update, hb]
    · exact (Function.update_of_ne (by simp) _ _).trans hts

/-! ### Calls -/

variable {P Q : Plain}

theorem Plain.buckets_mem (P : Plain) : buckets P.mem = P.words := rfl

theorem Plain.mem_eq {m : Cell → Word} (hw : buckets m = P.words)
    (ht : m .timeStamp = P.timeStamp) : m = P.mem := by
  funext a
  cases a with
  | bucket i => exact congrFun hw i
  | timeStamp => exact ht

theorem Plain.after_ok {T : Except Exit (ℕ → Word)} {hT} (h : P.after T hT = .ok Q) :
    T = .ok Q.words ∧ Q.timeStamp = P.timeStamp := by
  cases T with
  | error e => cases h
  | ok T' =>
    cases h
    exact ⟨rfl, rfl⟩

theorem Plain.after_error {T : Except Exit (ℕ → Word)} {hT} {e : Exit}
    (h : P.after T hT = .error e) : T = .error e := by
  cases T with
  | error e' =>
    cases h
    rfl
  | ok T' => cases h

theorem map_ok {α β E : Type} {x : Except E α} {f : α → β} {y : β} (h : x.map f = .ok y) :
    ∃ a, x = .ok a ∧ f a = y := by
  cases x with
  | error e => cases h
  | ok a => exact ⟨a, rfl, Except.ok.inj h⟩

theorem map_error {α β E : Type} {x : Except E α} {f : α → β} {e : E}
    (h : x.map f = .error e) : x = .error e := by
  cases x with
  | error e' => exact congrArg Except.error (Except.error.inj h)
  | ok a => cases h

/-- A call that comes to a table and a result, alone, returns that result and leaves that
table. -/
theorem serialCall_returns {c : Call} {r : Call × Bool} (h : serialCall seed P c = .ok (Q, r)) :
    Ends (Pc.code seed) (Pc.start c) P.mem (.ret r) Q.mem := by
  cases c with
  | add key =>
    have hend := add_ends seed (m := P.mem) P.untagged key
    obtain ⟨Q', hQ, hr⟩ := map_ok h
    obtain ⟨rfl, rfl⟩ := Prod.mk.inj hr
    obtain ⟨hT, hts⟩ := Plain.after_ok hQ
    rw [P.buckets_mem, hT] at hend
    obtain ⟨m', hends, hw, ht⟩ := hend
    rw [← Plain.mem_eq hw (ht.trans hts.symm)]
    exact Ends.inside_ret (i := Pc.add key) (fun _ => rfl) hends rfl
  | remove key tid =>
    obtain ⟨m', hends, hw, ht⟩ := remove_ends seed (m := P.mem) P.untagged key
    obtain ⟨hQ, rfl⟩ := Prod.mk.inj (Except.ok.inj h)
    rw [← Plain.mem_eq (hw.trans (congrArg Plain.words hQ)) (ht.trans (congrArg Plain.timeStamp hQ))]
    exact Ends.inside_ret (i := Pc.remove key tid) (fun _ => rfl) hends rfl
  | contains key =>
    have hends := contains_ends seed key P.mem
    obtain ⟨rfl, rfl⟩ := Prod.mk.inj (Except.ok.inj h)
    exact Ends.inside_ret (i := Pc.contains key) (fun _ => rfl) hends rfl

theorem serialCall_exits {c : Call} {e : Exit} (h : serialCall seed P c = .error e) :
    ∃ m', Ends (Pc.code seed) (Pc.start c) P.mem (.exit e) m' := by
  cases c with
  | add key =>
    have hend := add_ends seed (m := P.mem) P.untagged key
    rw [P.buckets_mem, Plain.after_error (map_error h)] at hend
    obtain ⟨m', hends⟩ := hend
    exact ⟨m', Ends.inside_exit (i := Pc.add key) (fun _ => rfl) hends⟩
  | remove key tid | contains key => cases h

theorem serialCall_add_error : (∃ e, serialCall seed P (.add key) = .error e) ↔
    ¬ ∃ T', serialAdd seed P.words key = .ok T' := by
  cases hx : serialCall seed P (.add key) with
  | ok y =>
    obtain ⟨Q, hQ, -⟩ := map_ok hx
    exact iff_of_false (by simp) (not_not.mpr ⟨_, (Plain.after_ok hQ).1⟩)
  | error e =>
    refine iff_of_true ⟨e, rfl⟩ ?_
    rintro ⟨T', hT⟩
    rw [Plain.after_error (map_error hx)] at hT
    cases hT

/-- The table, one call at a time. -/
def serialTable (seed : BitVec 32) : Interleave.Serial (table seed) Plain where
  mem := Plain.mem
  effect := serialCall seed
  returns := serialCall_returns
  exits := serialCall_exits

theorem stands_fresh (seed : BitVec 32) :
    (serialTable seed).Stands 0 (Plain.empty, []) fresh [] := by
  refine .idle (y := Plain.empty) rfl ?_ rfl rfl
  exact Plain.mem_eq rfl rfl

theorem stands_run {ls : List (Label Call)} {s : State}
    (hr : (table seed).run ls fresh = some s) (hl : ∀ l ∈ ls, l.thread = 0) :
    (serialTable seed).Stands 0 (Plain.empty, []) s (begun ls) :=
  (stands_fresh seed).run hl hr

/-- An `add` that an idle thread begins, alone, exits exactly if it has neither its key in its
window nor room for it. -/
theorem add_exits_iff_no_room {ls : List (Label Call)} {s : State}
    (hr : (table seed).run ls fresh = some s) (hl : ∀ l ∈ ls, l.thread = 0)
    (ht : s.thr 0 = none) (hh : s.halt = none) :
    (∃ n s', (table seed).run (alone 0 (.add key) n) s = some s' ∧ s'.halt ≠ none) ↔
      ¬ (Stored seed (buckets s.mem) key ∨ HasRoom seed (buckets s.mem) key) := by
  obtain ⟨P, -, hm⟩ := (stands_run hr hl).of_idle ht hh
  have hw : buckets s.mem = P.words := congrArg buckets hm
  have hst : (serialTable seed).Stands 0 (P, s.log) s [] := .idle (y := P) rfl hm ht hh
  rw [hw, ← serialAdd_ok_iff, ← serialCall_add_error]
  constructor
  · rintro ⟨n, s', hr', hh'⟩
    obtain ⟨e, he⟩ := Option.ne_none_iff_exists'.mp hh'
    have hthread : ∀ l ∈ alone 0 (.add key) n, l.thread = 0 := by
      simp only [alone, List.mem_cons, List.mem_replicate]
      rintro l (rfl | ⟨-, rfl⟩) <;> rfl
    have hbegun : begun (alone 0 (.add key) n) = [.add key] :=
      congrArg (List.cons _) (begun_moves 0 n)
    have hfold := (hst.run hthread hr').of_exit he
    rw [List.nil_append, hbegun] at hfold
    exact ⟨e, effect_of_turns_error hfold⟩
  · rintro ⟨e, he⟩
    obtain ⟨m', hend⟩ := serialCall_exits he
    let s₁ : State := { s with thr := Function.update s.thr 0 (some (Pc.start (.add key))) }
    have hcall : (table seed).step s (.call 0 (.add key)) = some s₁ :=
      Machine.step_call.mpr ⟨hh, ht, rfl⟩
    have hp : s₁.thr 0 = some (Pc.start (.add key)) := Function.update_self 0 _ s.thr
    obtain ⟨n, s', hn, -, hexit⟩ := Ends.run_exit (M := table seed) (s := s₁) hend hm hp hh
    refine ⟨n, s', Machine.run_cons.mpr ⟨s₁, hcall, hn⟩, ?_⟩
    rw [hexit]
    exact Option.some_ne_none e

/-- Every run of one thread is the fold of `serialCall` over its calls: an idle thread has left
the memory and the results that it computes, and the process has exited only with the exit
that it computes. -/
theorem one_thread_runs_serially {ls : List (Label Call)} {s : State}
    (hr : (table seed).run ls fresh = some s) (hl : ∀ l ∈ ls, l.thread = 0) :
    (s.thr 0 = none → s.halt = none → ∃ P, serial seed (begun ls) = .ok (P, s.log) ∧
      s.mem = P.mem) ∧
      ∀ e, s.halt = some e → serial seed (begun ls) = .error e :=
  ⟨(stands_run hr hl).of_idle, fun _ => (stands_run hr hl).of_exit⟩

set_option maxRecDepth 10000 in
/-- The run of `onceRun`, and what `serial` makes of its calls. -/
theorem one_key_runs_serially : ∃ s P, (table 1).run onceRun fresh = some s ∧
    serial 1 (begun onceRun) = .ok (P, s.log) ∧ s.mem = P.mem := by
  have h : ((table 1).run onceRun fresh).any (fun s => decide (s.halt = none ∧
      (s.thr 0).isNone)) = true := by decide +kernel
  obtain ⟨s, hs, h⟩ := (Option.any_eq_true _ _).mp h
  obtain ⟨hh, ht⟩ := of_decide_eq_true h
  obtain ⟨P, hP⟩ := (one_thread_runs_serially hs (by decide)).1
    (Option.isNone_iff_eq_none.mp ht) hh
  exact ⟨s, P, hs, hP⟩

/-- Every list of calls has a run of one thread that shows what `serial` computes: an end after
all of the calls, or its exit. -/
theorem serial_has_a_run (seed : BitVec 32) (cs : List Call) : ∃ ls s,
    (∀ l ∈ ls, l.thread = 0) ∧ (table seed).run ls fresh = some s ∧
      match serial seed cs with
      | .ok (P, log) => begun ls = cs ∧ s.thr 0 = none ∧ s.halt = none ∧ s.mem = P.mem ∧
          s.log = log
      | .error e => begun ls <+: cs ∧ s.halt = some e := by
  obtain ⟨ls, s, hl, hr, hshow⟩ := (serialTable seed).exists_run 0 cs Plain.empty fresh
    (Plain.mem_eq rfl rfl) rfl rfl
  have hserial : turns (serialTable seed).effect 0 (Plain.empty, fresh.log) cs = serial seed cs :=
    rfl
  rw [hserial] at hshow
  refine ⟨ls, s, hl, hr, ?_⟩
  cases h : serial seed cs with
  | ok y =>
    rw [h] at hshow
    obtain ⟨h1, h2, h3, h4, h5⟩ := hshow
    exact ⟨h1, h2, h3, h4, h5⟩
  | error e =>
    rw [h] at hshow
    obtain ⟨h1, h2⟩ := hshow
    exact ⟨h1, h2⟩

end LFHash
