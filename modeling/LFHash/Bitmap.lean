/-
# The positions of the match bitmaps

`contains` and `Remove` go through `HOP + 1` slots and set one bit of a `bitset<HOP>` for
each slot that holds the key. The positions stay below `HOP` exactly if the key is not in
the last slot of its window; there the position is `HOP`, which is also what `_Find_first`
returns when it has found nothing. `add` does put keys there.

Key definitions: `ContainsSets`, `RemoveSets`, `FindsFirst`, `BitmapsFit`.
Key theorems: `remove_follows`, `bitmaps_fit_of_untagged`, `bitmaps_fit_iff`,
`key_at_the_last_position`.
-/
import LFHash.Bounds
import LFHash.Inserts
import LFHash.Writer

namespace LFHash

open Interleave

variable {seed : BitVec 32} {key : Key} {m : Cell → Word}

/-- `contains(key)`, alone with the memory `m`, executes `cxx[p] = 1` (line 221). -/
def ContainsSets (seed : BitVec 32) (m : Cell → Word) (key : Key) (p : ℕ) : Prop :=
  ∃ cxx m', Passes (contains seed key) .start m ⟨p, cxx⟩ m' ∧
    Hit (buckets m') key (home seed key + p)

/-- `Remove(key)`, alone with the memory `m`, executes `cxx[p] = 1` (line 247), after the
left load of line 246 or after the right one. -/
def RemoveSets (seed : BitVec 32) (m : Cell → Word) (key : Key) (p : ℕ) : Prop :=
  ∃ final cxx m',
    (Passes (remove seed key) .stamp m (.testKey final ⟨p, cxx⟩) m' ∧
      buckets m' (home seed key + p) = entry key) ∨
    (Passes (remove seed key) .stamp m (.testMoving final ⟨p, cxx⟩) m' ∧
      buckets m' (home seed key + p) = moving (entry key))

/-- `Remove(key)`, alone with the memory `m`, gets the index `i1` from `_Find_first`. -/
def FindsFirst (seed : BitVec 32) (m : Cell → Word) (key : Key) (i1 : ℕ) : Prop :=
  ∃ final i2 m', Passes (remove seed key) .stamp m (.removeKey final i1 i2) m'

/-- Every position that is set is one of the `HOP` positions, and the index of the first bit
is the not-found value only if the key is not stored. -/
structure BitmapsFit (seed : BitVec 32) (m : Cell → Word) (key : Key) : Prop where
  contains : ∀ p, ContainsSets seed m key p → p < HOP
  remove : ∀ p, RemoveSets seed m key p → p < HOP
  first : FindsFirst seed m key HOP → ¬ Stored seed (buckets m) key

/-! ### What the scans find -/

theorem contains_sets_last (h : Hit (buckets m) key (home seed key + HOP)) :
    ContainsSets seed m key HOP := by
  obtain ⟨cxx, hpass⟩ := contains_passes m HOP 0 0#64 (Nat.zero_add _).symm
  exact ⟨cxx, m, hpass, h⟩

theorem remove_sets_last (h : buckets m (home seed key + HOP) = entry key) :
    RemoveSets seed m key HOP := by
  obtain ⟨final, cxx, m', hpass, hm'⟩ := remove_passes seed key m
  refine ⟨final, cxx, m', Or.inl ⟨hpass, ?_⟩⟩
  rw [hm', h]

theorem contains_sets {p : ℕ} (h : ContainsSets seed m key p) :
    p ≤ HOP ∧ Hit (buckets m) key (home seed key + p) := by
  obtain ⟨cxx, m', hpass, hit⟩ := h
  have hinv : p ≤ HOP ∧ m' = m := by
    refine Passes.inv (P := fun s m' => s.p ≤ HOP ∧ m' = m) ?_ hpass ⟨Nat.zero_le _, rfl⟩
    intro s m₁ s' hs hf
    exact ⟨Scan.ok_next hf, hs.2⟩
  rw [hinv.2] at hit
  exact ⟨hinv.1, hit⟩

/-- Alone on a table without tags, a removal is where its own course says. -/
theorem remove_follows (hm : ∀ i, tag (buckets m i) = 0#64) {q : Remove} {m' : Cell → Word}
    (h : Passes (remove seed key) .stamp m q m') :
    q.Follows seed key (buckets m) (finalEntry (m .timeStamp)) m' := by
  refine Passes.inv (P := fun q m' =>
    q.Follows seed key (buckets m) (finalEntry (m .timeStamp)) m') ?_ h ⟨rfl, rfl⟩
  intro q m₁ q' hq hf
  exact Remove.follows_goto hm (tag_finalEntry _) hq hf

theorem remove_sets (hm : ∀ i, tag (buckets m i) = 0#64) {p : ℕ} (h : RemoveSets seed m key p) :
    p ≤ HOP ∧ buckets m (home seed key + p) = entry key := by
  obtain ⟨final, cxx, m', ⟨hpass, hT⟩ | ⟨hpass, hT⟩⟩ := h
  · obtain ⟨hb, -, hp, -⟩ := remove_follows hm hpass
    rw [hb] at hT
    exact ⟨hp, hT⟩
  · obtain ⟨hb, -⟩ := remove_follows hm hpass
    rw [hb] at hT
    exact absurd hT (ne_moving (hm _))

theorem finds_first (hm : ∀ i, tag (buckets m i) = 0#64) {i1 : ℕ}
    (h : FindsFirst seed m key i1) (hs : Stored seed (buckets m) key) :
    buckets m (home seed key + i1) = entry key := by
  obtain ⟨final, i2, m', hpass⟩ := h
  obtain ⟨-, -, cxx, hmark, rfl⟩ := remove_follows hm hpass
  exact hmark.first.2 ((stored_iff_of_tag hm).mp hs)

/-- If only the last slot of the window holds the key, the index of the first bit is the
not-found value. -/
theorem finds_last (hm : ∀ i, tag (buckets m i) = 0#64)
    (hlast : buckets m (home seed key + HOP) = entry key)
    (hrest : ∀ p < HOP, buckets m (home seed key + p) ≠ entry key) :
    FindsFirst seed m key HOP := by
  obtain ⟨final, cxx, m₁, hpass, -⟩ := remove_passes seed key m
  obtain ⟨cxx', hslot⟩ := remove_passes_slot seed key m₁ final ⟨HOP, cxx⟩
  have hnext : Remove.nextScan final HOP cxx' =
      .removeKey final (findFirst cxx') (findNext cxx' (findFirst cxx')) :=
    if_neg (Nat.lt_irrefl HOP)
  rw [hnext] at hslot
  have hend := hpass.trans hslot
  obtain ⟨-, -, c, hmark, hc⟩ := remove_follows hm hend
  obtain ⟨hle, hfound⟩ := hmark.first
  have he : findFirst cxx' = HOP := by
    by_contra hne
    rw [← hc] at hle hfound
    exact hrest _ (Nat.lt_of_le_of_ne hle hne) (hfound ⟨HOP, le_rfl, hlast⟩)
  rw [he] at hend
  exact ⟨final, _, m₁, hend⟩

theorem bitmaps_fit_of_untagged (hm : ∀ i, tag (buckets m i) = 0#64) :
    BitmapsFit seed m key ↔ buckets m (home seed key + HOP) ≠ entry key := by
  constructor
  · intro h hlast
    exact Nat.lt_irrefl HOP (h.contains HOP (contains_sets_last (Or.inl hlast)))
  · intro hlast
    refine ⟨fun p hp => ?_, fun p hp => ?_, fun hp hs => hlast (finds_first hm hp hs)⟩
    · obtain ⟨hle, hit⟩ := contains_sets hp
      refine Nat.lt_of_le_of_ne hle fun he => hlast ?_
      rw [he] at hit
      exact (hit_iff_of_tag (hm _)).mp hit
    · obtain ⟨hle, hT⟩ := remove_sets hm hp
      refine Nat.lt_of_le_of_ne hle fun he => hlast ?_
      rw [← he]
      exact hT

/-! ### The tables of one thread -/

/-- After any calls of one thread, the positions that a lookup or a removal of a key sets
fit exactly if the key is not in the last slot of its window. -/
theorem bitmaps_fit_iff {ls : List (Label Call)} {s : State}
    (hr : (table seed).run ls fresh = some s) (ht : ∀ l ∈ ls, l.thread = 0)
    (hh : s.halt = none) (hidle : s.thr 0 = none) (key : Key) :
    BitmapsFit seed s.mem key ↔ buckets s.mem (home seed key + HOP) ≠ entry key := by
  obtain ⟨L, h⟩ := solitary_run (m := fun _ => 0#64) (fun _ => tag_zero) hr ht hh
  exact bitmaps_fit_of_untagged (h.untagged hidle)

/-- Seventeen keys with home 1000. -/
def homeCrowd : List Key :=
  [12749043, 56200813, 111078615, 117330412, 148194087, 170350241, 203754706, 235262747,
    252926823, 268653197, 342209399, 342469606, 422611281, 438020724, 473031429, 491500270,
    504861961]

def windowRun : List (Label Call) :=
  homeCrowd.zipIdx.flatMap fun k => alone 0 (.add k.1) (23 + 2 * k.2)

set_option maxRecDepth 100000 in
/-- The last but one of them is in slot 1015. -/
theorem key_before_the_last_position_fits : ∃ s, (table 1).run windowRun fresh = some s ∧
    buckets s.mem 1015 = entry 491500270 ∧ BitmapsFit 1 s.mem 491500270 := by
  have h : ((table 1).run windowRun fresh).any (fun s => decide (s.halt = none ∧
      (s.thr 0).isNone ∧ buckets s.mem 1015 = entry 491500270 ∧
      buckets s.mem (home 1 491500270 + HOP) ≠ entry 491500270)) = true := by decide +kernel
  obtain ⟨s, hs, h⟩ := (Option.any_eq_true _ _).mp h
  obtain ⟨hh, h0, hw, hlast⟩ := of_decide_eq_true h
  have hidle := Option.isNone_iff_eq_none.mp h0
  exact ⟨s, hs, hw, (bitmaps_fit_iff hs (by decide +kernel) hh hidle 491500270).mpr hlast⟩

set_option maxRecDepth 100000 in
/-- The last of them is in slot 1016. -/
theorem key_at_the_last_position : ∃ s, (table 1).run windowRun fresh = some s ∧
    (∀ l ∈ windowRun, l.thread = 0 ∧ Inserting l) ∧ (table 1).Along (Inside 1) windowRun fresh ∧
    s.halt = none ∧ s.thr 0 = none ∧ ContainsSets 1 s.mem 504861961 HOP ∧
    RemoveSets 1 s.mem 504861961 HOP ∧ FindsFirst 1 s.mem 504861961 HOP ∧
    Stored 1 (buckets s.mem) 504861961 := by
  have h : ((table 1).run windowRun fresh).any (fun s => decide (s.halt = none ∧
      (s.thr 0).isNone ∧ buckets s.mem (home 1 504861961 + HOP) = entry 504861961 ∧
      ∀ p < HOP, buckets s.mem (home 1 504861961 + p) ≠ entry 504861961)) = true := by
    decide +kernel
  obtain ⟨s, hs, h⟩ := (Option.any_eq_true _ _).mp h
  obtain ⟨hh, h0, hlast, hrest⟩ := of_decide_eq_true h
  have hthread : ∀ l ∈ windowRun, l.thread = 0 ∧ Inserting l := by decide +kernel
  obtain ⟨L, hL⟩ := solitary_run (m := fun _ => 0#64) (fun _ => tag_zero) hs
    (fun l hl => (hthread l hl).1) hh
  have hidle := Option.isNone_iff_eq_none.mp h0
  have hm := hL.untagged hidle
  exact ⟨s, hs, hthread, by decide +kernel, hh, hidle, contains_sets_last (Or.inl hlast),
    remove_sets_last hlast, finds_last hm hlast hrest, HOP, Nat.lt_succ_self HOP, Or.inl hlast⟩

end LFHash
