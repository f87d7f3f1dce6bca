/-
# The workload

The class `workload` of `workload.h`. The constructor draws `TOTDATA` keys, all different,
into `store`; each call of `workSplit` copies the keys to look up and to remove out of
`store`, draws keys that are new, and sets the shares of the threads. The object is
followed together with the values that `rand()` returns from here on, whatever they are;
an access outside an array, a division by 0 and a loop that has not ended on the values
given are `none`.

Key definitions: `Workload`, `construct`, `workSplit`, `workSplits`, `Draws`, `Splits`.
Key theorems: `draws_of_times`, `construct_draws`, `splits_of_workSplit`.
-/
import LFHash.Loops
import LFHash.Word

namespace LFHash

open Loop

/-- The length of the arrays. -/
def TOTDATA : ℕ := 1024 * 1024 * 12

def KEYS : ℕ := 1024 * 1024 * 100

/-- `(rand() % (1024 * 1024 * 100)) + 1`, as a `uint32_t`. -/
def drawnKey (r : ℕ) : Key := BitVec.ofNat 32 (r % KEYS + 1)

structure Workload where
  dataset : Key → Option (BitVec 8)
  lookUps : ℕ → Key
  store : ℕ → Key
  adds : ℕ → Key
  removes : ℕ → Key
  tcx : ℤ
  offset : ℕ
  tix : ℤ
  trx : ℤ

/-- An object, and the values that `rand()` returns from here on. -/
abbrev Drawing := Workload × List ℕ

/-! ### Drawing keys -/

/-- What the two loops that draw keys work on: the map, the array that takes the keys, and
the values of `rand()`. -/
structure Pool where
  dataset : Key → Option (BitVec 8)
  keys : ℕ → Key
  rands : List ℕ

/-- `dataset.find(key) != dataset.end()`, line 25. -/
def Pool.has (x : Pool) (key : Key) : Bool := (x.dataset key).isSome

/-- `dataset.find(key) != dataset.end() && key != 0`, line 48. -/
def Pool.hasNonZero (x : Pool) (key : Key) : Bool := (x.dataset key).isSome && key != 0

/-- The bodies of the loops of the lines 21 and 44: a key is drawn `again` and again, then
recorded in the map and in slot `i` of the array. -/
def drawKey (again : Pool → Key → Bool) (i : ℕ) (x : Pool) : Option Pool :=
  (draw drawnKey (again x) x.rands).bind fun (key, rands) =>
    (put TOTDATA x.keys i key).map fun keys =>
      ⟨Function.update x.dataset key (some 12), keys, rands⟩

namespace Workload

/-- `workload::workload()`. The arrays hold at first what the memory held. -/
def construct (lookUps store adds removes : ℕ → Key) (rands : List ℕ) : Option Drawing :=
  (times (drawKey Pool.has) TOTDATA ⟨fun _ => none, store, rands⟩).map fun x =>
    (⟨x.dataset, lookUps, x.keys, adds, removes, 0, 0, 0, 0⟩, x.rands)

end Workload

/-! ### `workSplit`, lines 31 to 58 -/

/-- The arguments of `workSplit`, which does not read `successPercentage`. -/
structure Split where
  NoContains : ℕ
  NoInserts : ℕ
  NoRemove : ℕ
  threads : ℤ

namespace Workload

/-- `workSplit(_NoContains, _NoInserts, _NoRemove, threads, _)`. -/
def workSplit (c : Split) : Drawing → Option Drawing
  | (w, rands) =>
    if c.threads = 0 then none  -- 33
    else
      (copy TOTDATA w.store c.NoRemove 0 c.NoContains w.lookUps).bind fun lookUps =>  -- 36
      (copy TOTDATA w.store w.offset 0 c.NoRemove w.removes).bind fun removes =>  -- 40
      (times (drawKey Pool.hasNonZero) (c.NoInserts / 2) ⟨w.dataset, w.adds, rands⟩).bind  -- 44
        fun x =>
      -- `i` goes on from `_NoInserts/2`, `j` starts at 0
      (copy TOTDATA lookUps 0 (c.NoInserts / 2) (c.NoInserts - c.NoInserts / 2) x.keys).map  -- 53
        fun adds => ({ w with
          dataset := x.dataset
          lookUps := lookUps
          adds := adds
          removes := removes
          tcx := (c.NoContains : ℤ).tdiv c.threads
          offset := c.NoRemove
          tix := (c.NoInserts : ℤ).tdiv c.threads
          trx := (c.NoRemove : ℤ).tdiv c.threads }, x.rands)

/-- The calls one after the other: what each has left, and what is left at the end. -/
def workSplits : List Split → Drawing → Option (List (Split × Workload) × Drawing)
  | [], s => some ([], s)
  | c :: cs, s => (workSplit c s).bind fun s' =>
    (workSplits cs s').map fun (h, s'') => ((c, s'.1) :: h, s'')

end Workload

/-! ### The keys drawn -/

theorem drawnKey_toNat (r : ℕ) : 1 ≤ (drawnKey r).toNat ∧ (drawnKey r).toNat ≤ KEYS := by
  have h : (drawnKey r).toNat = r % KEYS + 1 := by
    simp only [drawnKey, BitVec.toNat_ofNat, KEYS]
    omega
  have hlt : r % KEYS < KEYS := Nat.mod_lt r (by decide)
  omega

theorem drawnKey_ne_zero (r : ℕ) : drawnKey r ≠ 0 := by
  intro h
  have h1 := (drawnKey_toNat r).1
  rw [h] at h1
  exact absurd h1 (by decide)

/-- The second test of line 48 is always true. -/
theorem hasNonZero_drawnKey (x : Pool) (r : ℕ) :
    x.hasNonZero (drawnKey r) = x.has (drawnKey r) := by
  have h : (drawnKey r != 0) = true := bne_iff_ne.mpr (drawnKey_ne_zero r)
  rw [Pool.hasNonZero, Pool.has, h, Bool.and_true]

/-- Both loops draw alike. -/
theorem drawKey_hasNonZero : drawKey Pool.hasNonZero = drawKey Pool.has := by
  funext i x
  rw [drawKey, drawKey, draw_congr (hasNonZero_drawnKey x)]

/-- `n` keys have been drawn into `keys`: none of them was in the map before, no two are the
same, and they are what the map has gained. -/
structure Draws (n : ℕ) (dataset dataset' : Key → Option (BitVec 8)) (keys : ℕ → Key) :
    Prop where
  new : ∀ i < n, dataset (keys i) = none
  inj : ∀ i < n, ∀ j < n, keys i = keys j → i = j
  drawn : ∀ i < n, ∃ r, keys i = drawnKey r
  gained : ∀ key, (dataset' key).isSome ↔ (dataset key).isSome ∨ ∃ i < n, keys i = key

theorem Draws.missing {n : ℕ} {d d' : Key → Option (BitVec 8)} {keys : ℕ → Key} {key : Key}
    (h : Draws n d d' keys) (hno : d' key = none) : d key = none ∧ ∀ i < n, keys i ≠ key := by
  have hnot : ¬ ((d key).isSome ∨ ∃ i < n, keys i = key) := by
    rw [← h.gained key, hno]
    exact Bool.false_ne_true
  exact ⟨Option.not_isSome_iff_eq_none.mp fun hd => hnot (Or.inl hd),
    fun i hi he => hnot (Or.inr ⟨i, hi, he⟩)⟩

theorem Draws.step {n : ℕ} {d : Key → Option (BitVec 8)} {x y : Pool}
    (h : Draws n d x.dataset x.keys) (hx : drawKey Pool.has n x = some y) :
    Draws (n + 1) d y.dataset y.keys := by
  obtain ⟨⟨key, rands⟩, hdraw, hrest⟩ := Option.bind_eq_some_iff.mp hx
  obtain ⟨keys, hput, rfl⟩ := Option.map_eq_some_iff.mp hrest
  obtain ⟨-, rfl⟩ := put_eq_some.mp hput
  obtain ⟨hno, hkey⟩ := draw_accepts hdraw
  have hno' : x.dataset key = none := by simpa [Pool.has] using hno
  have hself : Function.update x.keys n key n = key := Function.update_self ..
  have hold : ∀ i < n, Function.update x.keys n key i = x.keys i := fun i hi =>
    Function.update_of_ne (Nat.ne_of_lt hi) ..
  -- a key that was drawn before is in the map
  obtain ⟨hd, hnew⟩ := h.missing hno'
  refine ⟨fun i hi => ?_, fun i hi j hj he => ?_, fun i hi => ?_, fun k => ?_⟩
  · show d (Function.update x.keys n key i) = none
    rcases Nat.lt_succ_iff_lt_or_eq.mp hi with hi | rfl
    · rw [hold i hi]
      exact h.new i hi
    · rw [hself]
      exact hd
  · change Function.update x.keys n key i = Function.update x.keys n key j at he
    rcases Nat.lt_succ_iff_lt_or_eq.mp hi with hi | rfl <;>
      rcases Nat.lt_succ_iff_lt_or_eq.mp hj with hj | rfl
    · rw [hold i hi, hold j hj] at he
      exact h.inj i hi j hj he
    · rw [hold i hi, hself] at he
      exact absurd he (hnew i hi)
    · rw [hself, hold j hj] at he
      exact absurd he.symm (hnew j hj)
    · rfl
  · show ∃ r, Function.update x.keys n key i = drawnKey r
    rcases Nat.lt_succ_iff_lt_or_eq.mp hi with hi | rfl
    · rw [hold i hi]
      exact h.drawn i hi
    · rw [hself]
      exact hkey
  · show (Function.update x.dataset key (some 12) k).isSome ↔
      (d k).isSome ∨ ∃ i < n + 1, Function.update x.keys n key i = k
    by_cases hk : k = key
    · subst hk
      rw [Function.update_self]
      exact iff_of_true rfl (Or.inr ⟨n, Nat.lt_succ_self n, hself⟩)
    · rw [Function.update_of_ne hk, h.gained k]
      refine or_congr_right ⟨fun ⟨i, hi, he⟩ => ⟨i, Nat.lt_succ_of_lt hi, (hold i hi).trans he⟩,
        fun ⟨i, hi, he⟩ => ?_⟩
      rcases Nat.lt_succ_iff_lt_or_eq.mp hi with hi | rfl
      · exact ⟨i, hi, (hold i hi).symm.trans he⟩
      · exact absurd (he.symm.trans hself) hk

theorem draws_of_times {n : ℕ} {x y : Pool} (h : times (drawKey Pool.has) n x = some y) :
    Draws n x.dataset y.dataset y.keys := by
  refine times_inv (P := fun n y => Draws n x.dataset y.dataset y.keys)
    (fun i _ y y' hy hs => hy.step hs) ?_ h
  refine ⟨fun i hi => absurd hi (Nat.not_lt_zero i), fun i hi => absurd hi (Nat.not_lt_zero i),
    fun i hi => absurd hi (Nat.not_lt_zero i), fun key => ?_⟩
  simp

theorem Draws.congr {n : ℕ} {d d' : Key → Option (BitVec 8)} {keys keys' : ℕ → Key}
    (h : Draws n d d' keys) (he : ∀ i < n, keys' i = keys i) : Draws n d d' keys' := by
  refine ⟨fun i hi => ?_, fun i hi j hj hij => ?_, fun i hi => ?_, fun key => ?_⟩
  · rw [he i hi]
    exact h.new i hi
  · rw [he i hi, he j hj] at hij
    exact h.inj i hi j hj hij
  · rw [he i hi]
    exact h.drawn i hi
  · rw [h.gained key]
    refine or_congr_right (exists_congr fun i => and_congr_right fun hi => ?_)
    rw [he i hi]

namespace Workload

variable {c : Split} {w w' : Workload} {rands rands' : List ℕ}

theorem construct_draws {lookUps store adds removes : ℕ → Key}
    (h : construct lookUps store adds removes rands = some (w, rands')) :
    Draws TOTDATA (fun _ => none) w.dataset w.store ∧ w.offset = 0 := by
  obtain ⟨x, hx, he⟩ := Option.map_eq_some_iff.mp h
  cases he
  exact ⟨draws_of_times hx, rfl⟩

/-- What one call leaves. -/
structure Splits (c : Split) (w w' : Workload) : Prop where
  threads : c.threads ≠ 0
  store : w'.store = w.store
  offset : w'.offset = c.NoRemove
  lookUps : ∀ i < c.NoContains, w'.lookUps i = w.store (c.NoRemove + i)
  removes : ∀ i < c.NoRemove, w'.removes i = w.store (w.offset + i)
  lookUps_within : 0 < c.NoContains → c.NoRemove + c.NoContains ≤ TOTDATA
  removes_within : 0 < c.NoRemove → w.offset + c.NoRemove ≤ TOTDATA
  draws : Draws (c.NoInserts / 2) w.dataset w'.dataset w'.adds
  tcx : w'.tcx = (c.NoContains : ℤ).tdiv c.threads
  tix : w'.tix = (c.NoInserts : ℤ).tdiv c.threads
  trx : w'.trx = (c.NoRemove : ℤ).tdiv c.threads

theorem splits_of_workSplit (h : workSplit c (w, rands) = some (w', rands')) : Splits c w w' := by
  unfold workSplit at h
  split_ifs at h with ht
  obtain ⟨lookUps, hl, h⟩ := Option.bind_eq_some_iff.mp h
  obtain ⟨removes, hr, h⟩ := Option.bind_eq_some_iff.mp h
  obtain ⟨x, hx, h⟩ := Option.bind_eq_some_iff.mp h
  obtain ⟨adds, ha, he⟩ := Option.map_eq_some_iff.mp h
  cases he
  rw [drawKey_hasNonZero] at hx
  have hdraws : Draws (c.NoInserts / 2) w.dataset x.dataset x.keys := draws_of_times hx
  refine ⟨ht, rfl, rfl, fun i hi => ?_, fun i hi => ?_, fun hn => (copy_within hl hn).1,
    fun hn => (copy_within hr hn).1, hdraws.congr fun i hi => ?_, rfl, rfl, rfl⟩
  · show lookUps i = _
    rw [copy_apply hl i, if_pos ⟨Nat.zero_le i, by omega⟩, Nat.sub_zero]
  · show removes i = _
    rw [copy_apply hr i, if_pos ⟨Nat.zero_le i, by omega⟩, Nat.sub_zero]
  · show adds i = _
    rw [copy_apply ha i, if_neg (by omega)]

end Workload

end LFHash
