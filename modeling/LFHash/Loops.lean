/-
# Counting loops

A `for` loop over a body that may fail, arrays of a fixed length whose accesses fail
outside it, the loop that copies one range of an array into another, the loop over an
array that threads share, and the loop that draws values until one is accepted. The values
come from a list: those that the generator hands out from here on, so a draw that fails has
not ended yet.

Key definitions: `times`, `get`, `put`, `copy`, `share`, `Shared`, `draw`.
Key theorems: `times_inv`, `times_total`, `copy_apply`, `copy_within`, `copy_total`,
`flatMap_share`, `shared_iff`, `mapM_get`, `draw_accepts`.
-/
import Mathlib.Data.List.Basic
import Mathlib.Logic.Function.Basic

namespace Loop

variable {σ α : Type}

/-! ### `for` -/

/-- `for (i = 0; i < n; i++)` around `body`. -/
def times (body : ℕ → σ → Option σ) : ℕ → σ → Option σ
  | 0, s => some s
  | n + 1, s => (times body n s).bind (body n)

variable {body : ℕ → σ → Option σ} {n : ℕ} {s s' : σ}

theorem times_succ : times body (n + 1) s = some s' ↔
    ∃ s₁, times body n s = some s₁ ∧ body n s₁ = some s' := Option.bind_eq_some_iff

/-- What holds at the start, and is kept by every iteration, holds at the end. -/
theorem times_inv {P : ℕ → σ → Prop} : ∀ {n : ℕ} {s' : σ},
    (∀ i < n, ∀ s s', P i s → body i s = some s' → P (i + 1) s') → P 0 s →
    times body n s = some s' → P n s'
  | 0, s', _, h0, h => by
    cases h
    exact h0
  | n + 1, s', hstep, h0, h => by
    obtain ⟨s₁, h1, h2⟩ := times_succ.mp h
    have hn : P n s₁ := times_inv (fun i hi => hstep i (Nat.lt_succ_of_lt hi)) h0 h1
    exact hstep n (Nat.lt_succ_self n) s₁ s' hn h2

/-- A loop none of whose iterations fails. -/
theorem times_total {P : ℕ → σ → Prop} : ∀ {n : ℕ},
    (∀ i < n, ∀ s, P i s → ∃ s', body i s = some s' ∧ P (i + 1) s') → P 0 s →
    ∃ s', times body n s = some s' ∧ P n s'
  | 0, _, h0 => ⟨s, rfl, h0⟩
  | n + 1, hstep, h0 => by
    obtain ⟨s₁, h1, hn⟩ := times_total (n := n) (fun i hi => hstep i (Nat.lt_succ_of_lt hi)) h0
    obtain ⟨s', h2, hs'⟩ := hstep n (Nat.lt_succ_self n) s₁ hn
    exact ⟨s', times_succ.mpr ⟨s₁, h1, h2⟩, hs'⟩

/-! ### Arrays -/

/-- `a[i]` of an array of length `cap`. -/
def get (cap : ℕ) (a : ℕ → α) (i : ℕ) : Option α := if i < cap then some (a i) else none

/-- `a[i] = v` in an array of length `cap`. -/
def put (cap : ℕ) (a : ℕ → α) (i : ℕ) (v : α) : Option (ℕ → α) :=
  if i < cap then some (Function.update a i v) else none

/-- `for (i = 0; i < n; i++) dst[off + i] = src[lo + i]` -/
def copy (cap : ℕ) (src : ℕ → α) (lo off n : ℕ) : (ℕ → α) → Option (ℕ → α) :=
  times (fun i dst => (get cap src (lo + i)).bind (put cap dst (off + i))) n

variable {cap lo off : ℕ} {a src dst dst' : ℕ → α} {i : ℕ} {v : α}

theorem get_eq_some : get cap a i = some v ↔ i < cap ∧ a i = v := by
  unfold get
  split_ifs with h <;> simp [h]

theorem put_eq_some {a' : ℕ → α} :
    put cap a i v = some a' ↔ i < cap ∧ a' = Function.update a i v := by
  unfold put
  split_ifs with h <;> simp [h, eq_comm]

/-- The range is copied, and the rest of the array is as it was. -/
theorem copy_apply (h : copy cap src lo off n dst = some dst') (i : ℕ) :
    dst' i = if off ≤ i ∧ i < off + n then src (lo + (i - off)) else dst i := by
  refine times_inv (P := fun k dst' => ∀ i, dst' i =
    if off ≤ i ∧ i < off + k then src (lo + (i - off)) else dst i)
    (fun k hk d d' hP hd i => ?_) (fun i => ?_) h i
  · obtain ⟨v, hget, hput⟩ := Option.bind_eq_some_iff.mp hd
    obtain ⟨-, rfl⟩ := get_eq_some.mp hget
    obtain ⟨-, rfl⟩ := put_eq_some.mp hput
    by_cases hi : i = off + k
    · subst hi
      have hin : off ≤ off + k ∧ off + k < off + (k + 1) := by omega
      rw [Function.update_self, if_pos hin, Nat.add_sub_cancel_left]
    · rw [Function.update_of_ne hi, hP i]
      have hiff : (off ≤ i ∧ i < off + k) ↔ off ≤ i ∧ i < off + (k + 1) := by omega
      simp only [hiff]
  · rw [if_neg (by omega)]

theorem copy_within (h : copy cap src lo off n dst = some dst') (hn : 0 < n) :
    lo + n ≤ cap ∧ off + n ≤ cap := by
  refine times_inv (P := fun k _ => 0 < k → lo + k ≤ cap ∧ off + k ≤ cap)
    (fun k hk d d' _ hd _ => ?_) (fun h0 => absurd h0 (Nat.lt_irrefl 0)) h hn
  obtain ⟨v, hget, hput⟩ := Option.bind_eq_some_iff.mp hd
  exact ⟨(get_eq_some.mp hget).1, (put_eq_some.mp hput).1⟩

theorem copy_total (src dst : ℕ → α) (h1 : lo + n ≤ cap) (h2 : off + n ≤ cap) :
    ∃ dst', copy cap src lo off n dst = some dst' := by
  have hstep : ∀ i < n, ∀ d : ℕ → α, True → ∃ d',
      (get cap src (lo + i)).bind (put cap d (off + i)) = some d' ∧ True := by
    intro i hi d _
    refine ⟨Function.update d (off + i) (src (lo + i)), ?_, trivial⟩
    refine Option.bind_eq_some_iff.mpr ⟨_, get_eq_some.mpr ⟨by omega, rfl⟩, ?_⟩
    exact put_eq_some.mpr ⟨by omega, rfl⟩
  obtain ⟨dst', h, -⟩ := times_total (P := fun _ _ => True) hstep trivial
  exact ⟨dst', h⟩

/-! ### A loop shared among threads -/

/-- The indices that thread `tid` takes where each takes `len`. -/
def share (len tid : ℕ) : List ℕ := (List.range len).map fun i => tid * len + i

/-- `T` threads that take `len` indices each take those below `n`, no two of them the same. -/
def Shared (T len n : ℕ) : Prop :=
  (∀ tid < T, ∀ tid' < T, tid ≠ tid' → (share len tid).Disjoint (share len tid')) ∧
  ∀ i, (∃ tid < T, i ∈ share len tid) ↔ i < n

variable {T len tid tid' : ℕ}

theorem mem_share : i ∈ share len tid ↔ tid * len ≤ i ∧ i < tid * len + len := by
  simp only [share, List.mem_map, List.mem_range]
  constructor
  · rintro ⟨j, hj, rfl⟩
    omega
  · rintro ⟨h1, h2⟩
    exact ⟨i - tid * len, by omega, by omega⟩

theorem length_share (len tid : ℕ) : (share len tid).length = len := by
  rw [share, List.length_map, List.length_range]

theorem flatMap_share (len : ℕ) : ∀ T, (List.range T).flatMap (share len) = List.range (T * len)
  | 0 => by simp
  | T + 1 => by
    rw [List.range_succ, List.flatMap_append, flatMap_share len T, List.flatMap_singleton,
      Nat.succ_mul, List.range_add]
    rfl

theorem share_disjoint (h : tid ≠ tid') : (share len tid).Disjoint (share len tid') := by
  intro i h1 h2
  have h1 := mem_share.mp h1
  have h2 := mem_share.mp h2
  -- the share of the smaller thread ends before that of the larger begins
  rcases Nat.lt_or_gt_of_ne h with hlt | hlt <;>
    have hle := Nat.mul_le_mul_right len (Nat.succ_le_of_lt hlt) <;>
    rw [Nat.succ_mul] at hle <;> omega

theorem shared_iff : Shared T len n ↔ T * len = n := by
  have hmem : ∀ i, (∃ tid < T, i ∈ share len tid) ↔ i < T * len := fun i => by
    rw [← List.mem_range, ← flatMap_share len T]
    simp only [List.mem_flatMap, List.mem_range]
  constructor
  · intro h
    refine Nat.le_antisymm (Nat.not_lt.mp fun hlt => ?_) (Nat.not_lt.mp fun hlt => ?_)
    · exact Nat.lt_irrefl n ((h.2 n).mp ((hmem n).mpr hlt))
    · exact Nat.lt_irrefl _ ((hmem _).mp ((h.2 _).mpr hlt))
  · rintro rfl
    exact ⟨fun _ _ _ _ => share_disjoint, hmem⟩

/-- Shares of equal length are everything only if nothing is left over. -/
theorem shared_div_iff : Shared T (n / T) n ↔ T ∣ n :=
  shared_iff.trans Nat.mul_div_eq_iff_dvd

/-- What is made of each index of a share, one share after the other. -/
theorem flatMap_map_share {β : Type} (f : ℕ → β) (len T : ℕ) :
    ((List.range T).flatMap fun tid => (share len tid).map f) = (List.range (T * len)).map f := by
  rw [← flatMap_share len T, List.map_flatMap]

/-- Reading what lies in an array fails nowhere. -/
theorem mapM_get {β : Type} (a : ℕ → α) (op : α → β) : ∀ {l : List ℕ}, (∀ i ∈ l, i < cap) →
    l.mapM (fun i => (get cap a i).map op) = some (l.map fun i => op (a i))
  | [], _ => rfl
  | i :: l, h => by
    have hi : get cap a i = some (a i) := get_eq_some.mpr ⟨h i List.mem_cons_self, rfl⟩
    rw [List.mapM_cons, hi, mapM_get a op fun j hj => h j (List.mem_cons_of_mem i hj)]
    rfl

/-! ### Drawing until a value is accepted -/

/-- `do x = f(rand()); while (again x)`: the value, and the values left. -/
def draw (f : ℕ → α) (again : α → Bool) : List ℕ → Option (α × List ℕ)
  | [] => none
  | r :: rs => if again (f r) then draw f again rs else some (f r, rs)

variable {f : ℕ → α} {again : α → Bool}

/-- The value is one of the generator's, and it is accepted. -/
theorem draw_accepts {x : α} {rest : List ℕ} : ∀ {rs : List ℕ}, draw f again rs = some (x, rest) →
    again x = false ∧ ∃ r, x = f r
  | [], h => by cases h
  | r :: rs, h => by
    unfold draw at h
    split_ifs at h with hr
    · exact draw_accepts h
    · cases h
      exact ⟨by simpa using hr, r, rfl⟩

theorem draw_first {r : ℕ} {rs : List ℕ} (h : again (f r) = false) :
    draw f again (r :: rs) = some (f r, rs) := by
  unfold draw
  rw [if_neg (by simp [h])]

/-- Conditions that agree on the generator's values draw alike. -/
theorem draw_congr {again' : α → Bool} (h : ∀ r, again (f r) = again' (f r)) :
    ∀ rs, draw f again rs = draw f again' rs
  | [] => rfl
  | r :: rs => by simp only [draw, h, draw_congr h rs]

end Loop
