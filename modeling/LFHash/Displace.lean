/-
# A relocation, run alone

`Relocate(Loc, e)` goes through the `HOP` slots below `Loc` and picks the first whose
word has its home less than `HOP` below `Loc` (`Picks`). If it picks a slot, the word
moves to `Loc`, the slot holds `e`, and nothing else has changed (`displaces`); if no
slot will do, it exits (`search_fails`). A word whose home is exactly `HOP` below `Loc`
could be stored there too, but is never picked.

Key definitions: `Picks`, `Movable`, `displaced`, `Relocates`.
Key theorems: `search_passes`, `search_fails`, `displaces`, `relocates_iff`,
`resize_with_movable_words`.
-/
import LFHash.Placement
import LFHash.Solo

namespace LFHash

open Interleave Hopscotch

variable {seed : BitVec 32} {m : Cell → Word} {Loc r r₀ : ℕ} {e : Word}

/-- `Relocate(Loc, _)` picks slot `r`: the first of the `HOP` slots below `Loc` whose
word has its home less than `HOP` below `Loc`. -/
structure Picks (seed : BitVec 32) (T : ℕ → Word) (Loc r : ℕ) : Prop where
  near : Loc ≤ r + HOP
  below : r < Loc
  fits : hopDist seed Loc (T r) < HOP
  first : ∀ i < r, Loc ≤ i + HOP → HOP ≤ hopDist seed Loc (T i)

/-- The word of slot `r`, one of the `HOP` slots below `Loc`, may be stored at `Loc`. -/
def Movable (seed : BitVec 32) (T : ℕ → Word) (Loc r : ℕ) : Prop :=
  Loc ≤ r + HOP ∧ r < Loc ∧ homeOf seed (T r) ≤ Loc ∧ Loc - homeOf seed (T r) ≤ HOP

/-- The memory after the word of slot `r` has moved to `Loc` and `e` to slot `r`. -/
def displaced (m : Cell → Word) (Loc r : ℕ) (e : Word) : Cell → Word :=
  Function.update (Function.update m (.bucket Loc) (buckets m r)) (.bucket r) e

theorem hopDist_of_le {w : Word} (hLoc : Loc < 2 ^ 32) (h : homeOf seed w ≤ Loc) :
    hopDist seed Loc w = Loc - homeOf seed w := sub32_of_le h hLoc

/-- The distance of a home above `Loc` wraps, and is large. -/
theorem hopDist_of_lt {w : Word} (h : Loc < homeOf seed w) : HOP < hopDist seed Loc w := by
  have hh := home_lt seed (getKey w)
  unfold homeOf at h
  simp only [hopDist, sub32, TotalBuckets, HOP] at *
  omega

theorem hopDist_lt_iff {w : Word} (hLoc : Loc < 2 ^ 32) :
    hopDist seed Loc w < HOP ↔ homeOf seed w ≤ Loc ∧ Loc - homeOf seed w < HOP := by
  by_cases h : homeOf seed w ≤ Loc
  · rw [hopDist_of_le hLoc h]
    exact ⟨fun hd => ⟨h, hd⟩, fun hd => hd.2⟩
  · have hfar : HOP < hopDist seed Loc w := hopDist_of_lt (not_le.mp h)
    exact ⟨fun hd => absurd hd (by omega), fun hd => absurd hd.1 h⟩

/-! ### The search -/

/-- The points where `Relocate` tests the slot `r`. -/
def Tests (r : ℕ) (q : Relocate) : Prop := q = .getInd r r ∨ q = .getReplace r

theorem Tests.flow {q : Relocate} (h : Tests r q) (seed : BitVec 32) (m : Cell → Word) (Loc : ℕ)
    (e : Word) :
    (relocate seed Loc e q).flow m = seek Loc r (hopDist seed Loc (buckets m r)) ∧
      (relocate seed Loc e q).mem m = m := by
  rcases h with rfl | rfl <;> exact ⟨rfl, rfl⟩

/-- The search comes to the slot it picks. -/
theorem search_passes (hp : Picks seed (buckets m) Loc r₀) : ∀ (n r : ℕ) (q : Relocate),
    r₀ = r + n → Loc ≤ r + HOP → Tests r q →
      Passes (relocate seed Loc e) q m (.loadExp r₀) m := by
  intro n
  induction n with
  | zero =>
    intro r q hn _ hq
    obtain rfl : r₀ = r := hn
    obtain ⟨hf, hm⟩ := hq.flow seed m Loc e
    refine .cons (hf.trans (seek_eq_goto.mpr ?_)) hm (.refl _ _)
    exact Or.inr ⟨rfl, hp.fits, hp.below⟩
  | succ n ih =>
    intro r q hn hr hq
    obtain ⟨hf, hm⟩ := hq.flow seed m Loc e
    have hbelow := hp.below
    have hfar : HOP ≤ hopDist seed Loc (buckets m r) := hp.first r (by omega) hr
    refine .cons (hf.trans (seek_eq_goto.mpr (Or.inl ⟨rfl, hfar, by omega⟩))) hm ?_
    exact ih (r + 1) _ (by omega) (by omega) (Or.inr rfl)

/-- If no slot will do, the search ends in an exit. -/
theorem search_fails (hno : ∀ i < Loc, Loc ≤ i + HOP → HOP ≤ hopDist seed Loc (buckets m i)) :
    ∀ (n r : ℕ) (q : Relocate), Loc = r + n → Loc ≤ r + HOP → Tests r q →
      Ends (relocate seed Loc e) q m (.exit .resize) m := by
  intro n
  induction n with
  | zero =>
    intro r q hn _ hq
    obtain ⟨hf, hm⟩ := hq.flow seed m Loc e
    exact .of_exit (hf.trans (seek_eq_exit.mpr ⟨rfl, hn.le⟩)) hm
  | succ n ih =>
    intro r q hn hr hq
    obtain ⟨hf, hm⟩ := hq.flow seed m Loc e
    have hfar := hno r (by omega) hr
    refine .cons (hf.trans (seek_eq_goto.mpr (Or.inl ⟨rfl, hfar, by omega⟩))) hm ?_
    exact ih (r + 1) _ (by omega) (by omega) (Or.inr rfl)

theorem tests_start (h : HOP ≤ Loc) (hLoc : Loc < 2 ^ 32) :
    Tests (Loc - HOP) (Relocate.start Loc) := by
  rw [Relocate.start, sub32_of_le h hLoc]
  exact Or.inl rfl

/-- No slot will do: `Relocate` exits. -/
theorem resizes (h : HOP ≤ Loc) (hLoc : Loc < 2 ^ 32)
    (hno : ∀ i < Loc, Loc ≤ i + HOP → HOP ≤ hopDist seed Loc (buckets m i)) :
    Ends (relocate seed Loc e) (.start Loc) m (.exit .resize) m :=
  search_fails hno HOP (Loc - HOP) _ (by omega) (by omega) (tests_start h hLoc)

/-! ### The displacement -/

theorem mark_ok {Exp : Word} (h : m (.bucket r) = Exp) :
    (relocate seed Loc e (.mark r Exp)).flow m = .goto (.loadDest r) ∧
      (relocate seed Loc e (.mark r Exp)).mem m =
        Function.update m (.bucket r) (moving Exp) := by
  simp [Point.flow, Point.mem, relocate, Access.exec_cas_of_eq m _ h]

theorem copy_ok {Dest Fin : Word} (h : m (.bucket Loc) = Dest) :
    (relocate seed Loc e (.copy r Dest Fin)).mem m = Function.update m (.bucket Loc) Fin := by
  simp [Point.mem, relocate, Access.exec_cas_of_eq m _ h]

theorem overwrite_ok {Exp : Word} (h : m (.bucket r) = Exp) :
    (relocate seed Loc e (.overwrite r Exp)).mem m = Function.update m (.bucket r) e := by
  simp [Point.mem, relocate, Access.exec_cas_of_eq m _ h]

/-- `Relocate` displaces the word of the slot it picks. -/
theorem displaces (h : HOP ≤ Loc) (hLoc : Loc < 2 ^ 32) (he : buckets m Loc = e)
    (htag : tag e = 3#64) (hr : tag (buckets m r) = 0#64) (hp : Picks seed (buckets m) Loc r) :
    Ends (relocate seed Loc e) (.start Loc) m (.ret r) (displaced m Loc r e) := by
  have hnear := hp.near
  have hlt := hp.below
  have hne : (Cell.bucket Loc) ≠ .bucket r := fun hc => (Nat.ne_of_gt hlt) (Cell.bucket.inj hc)
  have hstrip : strip (m (.bucket r)) = m (.bucket r) := strip_of_tag hr
  have hres : reserved (m (.bucket Loc)) = m (.bucket Loc) := by
    refine reserved_of_tag ?_
    rw [show m (.bucket Loc) = e from he, htag]
  -- the memories after the lines 191 and 197
  let m₁ := Function.update m (.bucket r) (moving (m (.bucket r)))
  let m₂ := Function.update m₁ (.bucket Loc) (m (.bucket r))
  have h₁ : m₁ (.bucket r) = moving (m (.bucket r)) := Function.update_self ..
  have h₁' : m₁ (.bucket Loc) = m (.bucket Loc) := Function.update_of_ne hne _ _
  have h₂ : m₂ (.bucket r) = moving (m (.bucket r)) := by
    rw [← h₁]
    exact Function.update_of_ne hne.symm _ _
  have hmem : Function.update m₂ (.bucket r) e = displaced m Loc r e := by
    show Function.update (Function.update m₁ _ _) _ _ = _
    rw [displaced, Function.update_comm hne, Function.update_idem, Function.update_comm hne]
    rfl
  have hexp : (relocate seed Loc e (.loadExp r)).flow m = .goto (.mark r (m (.bucket r))) := by
    show Flow.goto (Relocate.mark r (strip (m (.bucket r)))) = _
    rw [hstrip]
  obtain ⟨hmark, hmem₁⟩ : (relocate seed Loc e (.mark r (m (.bucket r)))).flow m =
      .goto (.loadDest r) ∧ (relocate seed Loc e (.mark r (m (.bucket r)))).mem m = m₁ := mark_ok rfl
  have hdest : (relocate seed Loc e (.loadDest r)).flow m₁ =
      .goto (.loadFin r (m (.bucket Loc))) := by
    show Flow.goto (Relocate.loadFin r (reserved (m₁ (.bucket Loc)))) = _
    rw [h₁', hres]
  have hfin : (relocate seed Loc e (.loadFin r (m (.bucket Loc)))).flow m₁ =
      .goto (.copy r (m (.bucket Loc)) (m (.bucket r))) := by
    show Flow.goto (Relocate.copy r (m (.bucket Loc)) (strip (m₁ (.bucket r)))) = _
    rw [h₁, strip_moving, hstrip]
  have hload : (relocate seed Loc e (.loadMark r)).flow m₂ =
      .goto (.overwrite r (moving (m (.bucket r)))) := by
    show Flow.goto (Relocate.overwrite r (moving (m₂ (.bucket r)))) = _
    rw [h₂, moving_of_tag (tag_moving _)]
  have hlast : Ends (relocate seed Loc e) (.overwrite r (moving (m (.bucket r)))) m₂ (.ret r)
      (displaced m Loc r e) := .of_ret rfl ((overwrite_ok h₂).trans hmem)
  have hmove : Ends (relocate seed Loc e) (.loadDest r) m₁ (.ret r) (displaced m Loc r e) :=
    .cons hdest rfl (.cons hfin rfl (.cons rfl (copy_ok h₁') (.cons hload rfl hlast)))
  exact (search_passes hp (r - (Loc - HOP)) (Loc - HOP) _ (by omega) (by omega)
    (tests_start h hLoc)).ends (.cons hexp rfl (.cons hmark hmem₁ hmove))

/-! ### Every word that could move -/

/-- `Relocate` exits exactly if no word may move to `Loc`; otherwise it displaces one. -/
def Relocates (seed : BitVec 32) (m : Cell → Word) (Loc : ℕ) (e : Word) : Prop :=
  ((∃ m', Ends (relocate seed Loc e) (.start Loc) m (.exit .resize) m') ↔
    ¬ ∃ r, Movable seed (buckets m) Loc r) ∧
  ((∃ r, Movable seed (buckets m) Loc r) → ∃ r, Movable seed (buckets m) Loc r ∧
    Ends (relocate seed Loc e) (.start Loc) m (.ret r) (displaced m Loc r e))

/-- The word of slot `r` has its home less than `HOP` below `Loc`. -/
def Near (seed : BitVec 32) (T : ℕ → Word) (Loc r : ℕ) : Prop :=
  Loc ≤ r + HOP ∧ r < Loc ∧ homeOf seed (T r) ≤ Loc ∧ Loc - homeOf seed (T r) < HOP

theorem Near.movable {T : ℕ → Word} (h : Near seed T Loc r) : Movable seed T Loc r :=
  ⟨h.1, h.2.1, h.2.2.1, h.2.2.2.le⟩

theorem Picks.near_slot {T : ℕ → Word} (h : Picks seed T Loc r) (hLoc : Loc < 2 ^ 32) :
    Near seed T Loc r := by
  obtain ⟨h1, h2⟩ := (hopDist_lt_iff hLoc).mp h.fits
  exact ⟨h.near, h.below, h1, h2⟩

/-- Among the near words there is a first one. -/
theorem picks_of_near {T : ℕ → Word} (hLoc : Loc < 2 ^ 32) (h : ∃ r, Near seed T Loc r) :
    ∃ r, Picks seed T Loc r := by
  classical
  obtain ⟨hr, hlt, hle, hd⟩ := Nat.find_spec h
  refine ⟨Nat.find h, ⟨hr, hlt, (hopDist_lt_iff hLoc).mpr ⟨hle, hd⟩, fun i hi hl => ?_⟩⟩
  by_contra hnear
  obtain ⟨h1, h2⟩ := (hopDist_lt_iff hLoc).mp (not_le.mp hnear)
  exact Nat.find_min h hi ⟨hl, hi.trans hlt, h1, h2⟩

/-- A relocation is complete unless all the words that may move have their homes exactly
`HOP` below `Loc`, and there is such a word. -/
theorem relocates_iff (h : HOP ≤ Loc) (hLoc : Loc < 2 ^ 32) (he : buckets m Loc = e)
    (htag : tag e = 3#64) (hun : ∀ i ≠ Loc, tag (buckets m i) = 0#64) :
    Relocates seed m Loc e ↔ (∃ r, Near seed (buckets m) Loc r) ∨
      ¬ ∃ r, Loc ≤ r + HOP ∧ r < Loc ∧ homeOf seed (buckets m r) + HOP = Loc := by
  by_cases hnear : ∃ r, Near seed (buckets m) Loc r
  · -- the first near word is displaced
    obtain ⟨r, hp⟩ := picks_of_near hLoc hnear
    have hmov : Movable seed (buckets m) Loc r := (hp.near_slot hLoc).movable
    have hret := displaces h hLoc he htag (hun r (Nat.ne_of_lt hp.below)) hp
    refine iff_of_true ⟨iff_of_false ?_ (not_not.mpr ⟨r, hmov⟩), fun _ => ⟨r, hmov, hret⟩⟩
      (Or.inl hnear)
    rintro ⟨m', hexit⟩
    cases (hret.unique hexit).1
  · have hexit : Ends (relocate seed Loc e) (.start Loc) m (.exit .resize) m := by
      refine resizes h hLoc fun i hi hl => not_lt.mp fun hd => hnear ?_
      obtain ⟨h1, h2⟩ := (hopDist_lt_iff hLoc).mp hd
      exact ⟨i, hl, hi, h1, h2⟩
    -- a word that may move is at distance `HOP`
    have hmov : (∃ r, Movable seed (buckets m) Loc r) ↔
        ∃ r, Loc ≤ r + HOP ∧ r < Loc ∧ homeOf seed (buckets m r) + HOP = Loc := by
      refine exists_congr fun r => ⟨fun ⟨h1, h2, h3, h4⟩ => ⟨h1, h2, ?_⟩,
        fun ⟨h1, h2, h3⟩ => ⟨h1, h2, by omega, by omega⟩⟩
      by_contra hne
      exact hnear ⟨r, h1, h2, h3, by omega⟩
    rw [← hmov]
    constructor
    · exact fun hrel => Or.inr (hrel.1.mp ⟨m, hexit⟩)
    · intro hno
      have hno' := hno.resolve_left hnear
      exact ⟨iff_of_true ⟨m, hexit⟩ hno', fun hex => absurd hex hno'⟩

/-- The words `ws` in the slots from `b` on, and the key `key` reserved right above them. -/
def besides (b : ℕ) (ws : List Key) (key : Key) : Cell → Word
  | .bucket i =>
    if i = b + ws.length then newEntry key
    else if b ≤ i then ((ws[i - b]?).map entry).getD 0#64 else 0#64
  | .timeStamp => 0#64

theorem tag_besides {b : ℕ} {ws : List Key} {key : Key} {i : ℕ} (hi : i ≠ b + ws.length) :
    tag (buckets (besides b ws key) i) = 0#64 := by
  unfold buckets besides
  dsimp only
  rw [if_neg hi]
  split_ifs
  · cases ws[i - b]? with
    | none => exact tag_zero
    | some k => exact tag_entry k
  · exact tag_zero

/-- The key of slot 1001 has its home there. -/
theorem one_word_is_displaced : Relocates 1
    (besides 1000 [12749043, 32323154, 14294523, 25996583, 26908912, 96331457, 22408621, 43929219,
      411137, 19744238, 61233365, 16851735, 42944407, 17995410, 1028799, 39482353] 1583361440)
    1016 (newEntry 1583361440) :=
  (relocates_iff (by decide) (by decide) (by decide) (tag_newEntry _)
    fun _ hi => tag_besides hi).mpr (Or.inl ⟨1001, by decide, by decide, by decide +kernel⟩)

/-- Sixteen keys whose home is slot 1000, in the slots from there on; the home of the
reserved key is slot 990. -/
def sameHome : Cell → Word := besides 1000 [12749043, 56200813, 111078615, 117330412, 148194087,
  170350241, 203754706, 235262747, 252926823, 268653197, 342209399, 342469606, 422611281,
  438020724, 473031429, 491500270] 1583361440

theorem resize_with_movable_words : home 1 1583361440 = 990 ∧
    buckets sameHome 1016 = newEntry 1583361440 ∧
    (∀ i ≠ 1016, tag (buckets sameHome i) = 0#64) ∧
    (∀ r < 1016, 1016 ≤ r + HOP → buckets sameHome r ≠ 0#64) ∧
    (∀ r < 1016, 1016 ≤ r + HOP → Movable 1 (buckets sameHome) 1016 r) ∧
    Ends (relocate 1 1016 (newEntry 1583361440)) (.start 1016) sameHome (.exit .resize) sameHome := by
  refine ⟨by decide +kernel, by decide, fun _ hi => tag_besides hi, by decide +kernel, ?_,
    resizes (by decide) (by decide) (by decide +kernel)⟩
  unfold Movable
  decide +kernel

end LFHash
