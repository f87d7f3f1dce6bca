/-
# Rival removals

Any number of threads remove keys from a table without tags, each key stored at most once
and only in its window. No tag ever appears, so the table only erodes: line 253 replaces
a key by a stamp that is none of the keys, and nothing else writes. A scan that has
missed its key has missed it for good; one that has seen it aims at its slot, and there
the first compare-exchange succeeds and no other. So each key has one token: it is free
while the key stays, held by the removal that has erased it, and spent when that removal
has returned true.

Key definitions: `Noted`, `Remove.Knows`, `Token`, `Rivals`.
Key theorems: `remove_cases`, `Remove.knows_goto`, `Rivals.move`, `rivals_remove_once`.
-/
import LFHash.Removed
import LFHash.Layout

namespace LFHash

open Interleave Hopscotch

variable {seed : BitVec 32} {key : Key}

/-! ### The accesses of a removal -/

@[simp] theorem erased_nextScan {final cxx : Word} {p : ℕ} :
    (Remove.nextScan final p cxx).erased = false := by
  unfold Remove.nextScan
  split_ifs <;> rfl

theorem nextSlot_cases (p : ℕ) (rem : Bool) :
    (∃ q, Remove.nextSlot p rem = .goto q ∧ q.erased = rem) ∨ Remove.nextSlot p rem = .ret rem := by
  unfold Remove.nextSlot
  split_ifs
  · exact Or.inl ⟨_, rfl, rfl⟩
  · exact Or.inr rfl

variable {m : Cell → Word} {q q' : Remove}

/-- In a table without tags: line 253 erases the key it finds, and every other access
leaves the slots as they are and goes on, or returns whether the key has been erased. -/
theorem remove_cases (seed : BitVec 32) (key : Key) (hm : ∀ i, tag (buckets m i) = 0#64)
    (hq : q.Ok) :
    (∃ final i1 i2, q = .removeKey final i1 i2 ∧ buckets m (home seed key + i1) = entry key ∧
      removeFlow seed key m q = .goto (.removeMoving final i2 true) ∧
      buckets ((remove seed key q).1.exec m).2 =
        Function.update (buckets m) (home seed key + i1) final) ∨
    (buckets ((remove seed key q).1.exec m).2 = buckets m ∧
      ((∃ q', removeFlow seed key m q = .goto q' ∧ q'.erased = q.erased) ∨
        removeFlow seed key m q = .ret q.erased)) := by
  cases q with
  | stamp => exact Or.inr ⟨by simp [remove], Or.inl ⟨_, rfl, rfl⟩⟩
  | testKey final s =>
    refine Or.inr ⟨rfl, Or.inl ?_⟩
    simp only [removeFlow, remove]
    split_ifs
    · exact ⟨_, rfl, erased_nextScan⟩
    · exact ⟨_, rfl, rfl⟩
  | testMoving final s =>
    refine Or.inr ⟨rfl, Or.inl ?_⟩
    simp only [removeFlow, remove]
    split_ifs <;> exact ⟨_, rfl, erased_nextScan⟩
  | removeKey final i1 i2 =>
    by_cases he : m (.bucket (home seed key + i1)) = entry key
    · refine Or.inl ⟨final, i1, i2, rfl, he, ?_, ?_⟩
      · simp only [removeFlow, remove, Access.exec_cas_of_eq m _ he]
      · simp only [remove, Access.exec_cas_of_eq m _ he, buckets_update]
    · refine Or.inr ⟨?_, Or.inl ⟨.removeMoving final i2 false, ?_, rfl⟩⟩
      · simp only [remove, Access.exec_cas_of_ne m _ he]
      · simp only [removeFlow, remove, Access.exec_cas_of_ne m _ he]
  | removeMoving final i2 rem1 =>
    have hne : m (.bucket (home seed key + i2)) ≠ entry key ||| (1#64 <<< 62) := by
      rw [← moving_entry]
      exact ne_moving (hm _)
    refine Or.inr ⟨?_, Or.inl ⟨.loadSlot 0 rem1, ?_, rfl⟩⟩
    · simp only [remove, Access.exec_cas_of_ne m _ hne]
    · simp only [removeFlow, remove, Access.exec_cas_of_ne m _ hne, Bool.or_false]
  | loadSlot p rem => exact Or.inr ⟨rfl, Or.inl ⟨_, rfl, rfl⟩⟩
  | testSlot p slot rem =>
    have hne : tag (m (.bucket (home seed key + p))) ≠ 3#64 := by
      have ht := hm (home seed key + p)
      rw [buckets] at ht
      rw [ht]
      decide
    refine Or.inr ⟨rfl, ?_⟩
    simp only [removeFlow, remove, Access.exec_load, hne, if_false]
    exact nextSlot_cases p rem
  | poison p slot rem =>
    have hne : m (.bucket (home seed key + p)) ≠ slot := by
      intro he
      have ht := hm (home seed key + p)
      rw [buckets, he, hq.2] at ht
      exact absurd ht (by decide)
    refine Or.inr ⟨?_, ?_⟩
    · simp only [remove, Access.exec_cas_of_ne m _ hne]
    · exact nextSlot_cases p rem

/-! ### What a removal knows -/

/-- The bits after `n` slots: each stands for a slot that held the key in `T₀`, and where
the key still is among these slots, its bit is set. -/
def Noted (seed : BitVec 32) (T₀ T : ℕ → Word) (key : Key) (n : ℕ) (cxx : Word) : Prop :=
  ∀ j < 64, (cxx.getLsbD j = true → T₀ (home seed key + j) = entry key) ∧
    (j < n → T (home seed key + j) = entry key → cxx.getLsbD j = true)

/-- What a removal knows that began on the table `T₀`, in the table `T`. -/
def Remove.Knows (seed : BitVec 32) (T₀ T : ℕ → Word) (key : Key) : Remove → Prop
  | .stamp => True
  | .testKey _ s => Noted seed T₀ T key s.p s.cxx
  | .testMoving _ s => Noted seed T₀ T key s.p s.cxx ∧ T (home seed key + s.p) ≠ entry key
  | .removeKey _ i1 _ => T (home seed key + i1) = entry key ∨ ¬ Has T (entry key)
  | .removeMoving _ _ _ | .loadSlot _ _ | .testSlot _ _ _ | .poison _ _ _ => ¬ Has T (entry key)

variable {T₀ T T' : ℕ → Word} {P : Word → Prop} {n : ℕ} {cxx : Word}

theorem noted_start : Noted seed T₀ T key 0 0#64 := by
  intro j _
  refine ⟨fun h => ?_, fun h => absurd h (Nat.not_lt_zero j)⟩
  simp at h

theorem Noted.set (h : Noted seed T₀ T key n cxx) (hT : T₀ (home seed key + n) = entry key) :
    Noted seed T₀ T key (n + 1) (setBit cxx n) := by
  intro j hj
  obtain ⟨h1, h2⟩ := h j hj
  rw [getLsbD_setBit hj, Bool.or_eq_true, decide_eq_true_iff]
  constructor
  · rintro (hb | rfl)
    · exact h1 hb
    · exact hT
  · intro hlt he
    by_cases hjn : j = n
    · exact Or.inr hjn
    · exact Or.inl (h2 (by omega) he)

theorem Noted.skip (h : Noted seed T₀ T key n cxx) (hT : T (home seed key + n) ≠ entry key) :
    Noted seed T₀ T key (n + 1) cxx := by
  intro j hj
  obtain ⟨h1, h2⟩ := h j hj
  refine ⟨h1, fun hlt he => h2 ?_ he⟩
  have hjn : j ≠ n := by
    rintro rfl
    exact hT he
  omega

theorem Noted.mono (h : Noted seed T₀ T key n cxx) (he : Eroded P T T') (hk : P (entry key)) :
    Noted seed T₀ T' key n cxx := fun j hj =>
  ⟨(h j hj).1, fun hlt hT => (h j hj).2 hlt (he.before hk hT)⟩

/-- The first bit, or the value without one: the slot of the key, unless the key is gone. -/
theorem Noted.first (h : Noted seed T₀ T key (HOP + 1) cxx)
    (hone : Single (homeOf seed) HOP T₀ (entry key)) (he : Eroded P T₀ T) (hk : P (entry key)) :
    T (home seed key + findFirst cxx) = entry key ∨ ¬ Has T (entry key) := by
  rcases findFirst_cases cxx with hbit | ⟨hnone, -⟩
  · exact hone.there_or_gone he hk ((h _ (findFirst_lt cxx)).1 hbit)
  · refine Or.inr fun ⟨i, hi⟩ => ?_
    obtain ⟨h1, h2⟩ := window_entry.mp (hone.window i (he.before hk hi))
    have hlt : i - home seed key < 64 := by
      simp only [HOP] at h2
      omega
    have hbit := (h _ hlt).2 (by omega) (by rwa [Nat.add_sub_cancel' h1])
    rw [hnone _ hlt] at hbit
    cases hbit

/-- What a removal knows stays so while the table erodes. -/
theorem Remove.Knows.mono (h : q.Knows seed T₀ T key) (he : Eroded P T T') (hk : P (entry key))
    (hone : Single (homeOf seed) HOP T (entry key)) : q.Knows seed T₀ T' key := by
  have hgone : ¬ Has T (entry key) → ¬ Has T' (entry key) := fun hn hT => hn (he.has hk hT)
  cases q with
  | stamp => trivial
  | testKey final s => exact Noted.mono h he hk
  | testMoving final s => exact ⟨h.1.mono he hk, fun hT => h.2 (he.before hk hT)⟩
  | removeKey final i1 i2 =>
    rcases h with hT | hn
    · exact hone.there_or_gone he hk hT
    · exact Or.inr (hgone hn)
  | removeMoving | loadSlot | testSlot | poison => exact hgone h

theorem Remove.knows_nextScan {final : Word} {p : ℕ} (h : Noted seed T₀ T key (p + 1) cxx)
    (hp : p ≤ HOP) (hone : Single (homeOf seed) HOP T₀ (entry key)) (he : Eroded P T₀ T)
    (hk : P (entry key)) : (Remove.nextScan final p cxx).Knows seed T₀ T key := by
  unfold Remove.nextScan
  split_ifs with hlt
  · exact h
  · obtain rfl : p = HOP := by omega
    exact h.first hone he hk

/-- The access of a removal that goes on. -/
theorem Remove.knows_goto (h : q.Knows seed T₀ (buckets m) key) (hm : ∀ i, tag (buckets m i) = 0#64)
    (hq : q.Ok) (hone : Single (homeOf seed) HOP T₀ (entry key)) (he : Eroded P T₀ (buckets m))
    (hk : P (entry key)) (hfin : ∀ final i1 i2, q = .removeKey final i1 i2 → final ≠ entry key)
    (hf : removeFlow seed key m q = .goto q') :
    q'.Knows seed T₀ (buckets ((remove seed key q).1.exec m).2) key := by
  have hone' := hone.eroded he hk
  rcases remove_cases seed key hm hq with
    ⟨final, i1, i2, rfl, hi, hgo, hT⟩ | ⟨hT, -⟩
  · -- line 253 erases the key
    rw [hf] at hgo
    cases hgo
    rw [hT]
    exact hone'.gone hi (hfin final i1 i2 rfl)
  · rw [hT]
    cases q with
    | stamp =>
      cases hf
      exact noted_start
    | testKey final s =>
      simp only [removeFlow, remove, Access.exec_load] at hf
      split_ifs at hf with hi <;> cases hf
      · exact knows_nextScan (Noted.set h (he.before hk hi)) hq.2 hone he hk
      · exact ⟨h, hi⟩
    | testMoving final s =>
      have hne : m (.bucket (home seed key + s.p)) ≠ moving (entry key) := ne_moving (hm _)
      simp only [removeFlow, remove, Access.exec_load, hne, if_false] at hf
      cases hf
      exact knows_nextScan (h.1.skip h.2) hq.2 hone he hk
    | removeKey final i1 i2 =>
      cases hf
      refine h.elim (fun hi => ?_) id
      -- the compare-exchange would have found the key
      have hv : m (.bucket (home seed key + i1)) = entry key := hi
      simp only [remove, Access.exec_cas_of_eq m _ hv, buckets_update] at hT
      rw [← hT]
      exact hone'.gone hi (hfin final i1 i2 rfl)
    | removeMoving final i2 rem1 | loadSlot p rem =>
      cases hf
      exact h
    | testSlot p slot rem =>
      simp only [removeFlow, remove, Remove.nextSlot] at hf
      split_ifs at hf <;> cases hf <;> exact h
    | poison p slot rem =>
      simp only [removeFlow, remove, Remove.nextSlot] at hf
      split_ifs at hf
      cases hf
      exact h

/-- A removal that returns knows that its key is gone. -/
theorem Remove.knows_ret {b : Bool} (h : q.Knows seed T₀ T key)
    (hf : removeFlow seed key m q = .ret b) : ¬ Has T (entry key) := by
  rcases remove_ret hf with ⟨p, slot, rfl⟩ | ⟨p, slot, rfl⟩ <;> exact h

/-! ### The token of a key -/

/-- The right to answer that the key has been removed: nobody has it yet, a thread holds
it, or it has been used. -/
inductive Token
  | free
  | held (t : ℕ)
  | spent

/-- The thread runs a removal that has erased the key `k`. -/
def Pc.Took (k : Key) : Pc → Prop
  | .remove key _ q => key = k ∧ q.erased = true
  | .add _ _ | .contains _ _ => False

def Took (s : State) (k : Key) (t : ℕ) : Prop := ∃ p, s.thr t = some p ∧ p.Took k

/-- How many calls about the key have returned true. -/
def wins (k : Key) (log : List (ℕ × Call × Bool)) : ℕ :=
  log.countP fun r => decide (r.2.1.key = k) && r.2.2

def Token.Fits (T₀ : ℕ → Word) (s : State) (k : Key) : Token → Prop
  | free => (Has T₀ (entry k) → Has (buckets s.mem) (entry k)) ∧ (∀ t, ¬ Took s k t) ∧
      wins k s.log = 0
  | held u => Has T₀ (entry k) ∧ ¬ Has (buckets s.mem) (entry k) ∧ (∀ t, Took s k t ↔ t = u) ∧
      wins k s.log = 0
  | spent => Has T₀ (entry k) ∧ ¬ Has (buckets s.mem) (entry k) ∧ (∀ t, ¬ Took s k t) ∧
      wins k s.log = 1

variable {s s' : State} {k : Key} {t u : ℕ} {x : Token} {p : Pc}

theorem took_iff (hp : s.thr t = some p) : Took s k t ↔ p.Took k := by
  constructor
  · rintro ⟨p', hp', h⟩
    rw [hp, Option.some.injEq] at hp'
    exact hp' ▸ h
  · exact fun h => ⟨p, hp, h⟩

theorem not_took (hp : s.thr t = none) : ¬ Took s k t := by
  rintro ⟨p, hp', -⟩
  rw [hp] at hp'
  cases hp'

theorem took_congr (h : s'.thr u = s.thr u) : Took s' k u ↔ Took s k u := by
  rw [Took, h, Took]

/-- A step that says nothing about the key leaves its token where it is. -/
theorem Token.Fits.keep (h : x.Fits T₀ s k)
    (hT : Has (buckets s'.mem) (entry k) ↔ Has (buckets s.mem) (entry k))
    (ht : ∀ t, Took s' k t ↔ Took s k t) (hw : wins k s'.log = wins k s.log) :
    x.Fits T₀ s' k := by
  cases x with
  | free | held | spent => simpa only [Fits, hT, ht, hw] using h

/-- Thread `t` erases the key: the token was free. -/
theorem Token.Fits.take (h : x.Fits T₀ s k) (h₀ : Has T₀ (entry k))
    (hin : Has (buckets s.mem) (entry k)) (hout : ¬ Has (buckets s'.mem) (entry k))
    (ht : Took s' k t) (hother : ∀ u ≠ t, (Took s' k u ↔ Took s k u))
    (hw : wins k s'.log = wins k s.log) : (held t).Fits T₀ s' k := by
  cases x with
  | held | spent => exact absurd hin h.2.1
  | free =>
    obtain ⟨-, hno, hzero⟩ := h
    refine ⟨h₀, hout, fun u => ⟨fun hu => ?_, fun e => e ▸ ht⟩, by rw [hw, hzero]⟩
    by_contra hne
    exact hno u ((hother u hne).mp hu)

/-- Thread `t`, which holds the token, returns true. -/
theorem Token.Fits.spend (h : x.Fits T₀ s k) (ht : Took s k t)
    (hT : Has (buckets s'.mem) (entry k) ↔ Has (buckets s.mem) (entry k))
    (hno : ¬ Took s' k t) (hother : ∀ u ≠ t, (Took s' k u ↔ Took s k u))
    (hw : wins k s'.log = wins k s.log + 1) : spent.Fits T₀ s' k := by
  cases x with
  | free => exact absurd ht (h.2.1 t)
  | spent => exact absurd ht (h.2.2.1 t)
  | held v =>
    obtain ⟨h₀, hout, hv, hzero⟩ := h
    obtain rfl := (hv t).mp ht
    refine ⟨h₀, by rwa [hT], fun u hu => ?_, by rw [hw, hzero]⟩
    by_cases hut : u = t
    · exact hno (hut ▸ hu)
    · exact hut ((hv u).mp ((hother u hut).mp hu))

/-! ### Runs of removals -/

/-- The word is one of the keys. -/
def IsKey (keys : List Key) (w : Word) : Prop := ∃ k ∈ keys, w = entry k

/-- No stamp that is drawn is one of the keys. -/
def DrawsNoKey (keys : List Key) (s : State) : Label Call → Prop
  | .call _ _ => True
  | .move t => ∀ p, s.thr t = some p → p.Draws →
      ∀ k ∈ keys, (s.mem .timeStamp).toNat % 2 ^ 30 ≠ k.toNat

/-- Removals of the keys `keys` run, from the table `T₀` on. -/
structure Rivals (seed : BitVec 32) (keys : List Key) (T₀ : ℕ → Word) (s : State) : Prop where
  sound : Sound seed s
  untagged : ∀ i, tag (buckets s.mem i) = 0#64
  single : ∀ k ∈ keys, Single (homeOf seed) HOP T₀ (entry k)
  eroded : Eroded (IsKey keys) T₀ (buckets s.mem)
  runs : ∀ t p, s.thr t = some p → ∃ key tid q, p = .remove key tid q ∧ key ∈ keys ∧
    q.Knows seed T₀ (buckets s.mem) key
  stamps : ∀ t p w, s.thr t = some p → p.stamp? = some w → ¬ IsKey keys w
  answered : ∀ r ∈ s.log, r.2.1.key ∈ keys ∧ ¬ Has (buckets s.mem) (entry r.2.1.key)
  token : ∀ k ∈ keys, ∃ x : Token, x.Fits T₀ s k

namespace Rivals

variable {keys : List Key} {tid : ℤ}

theorem isKey (hk : k ∈ keys) : IsKey keys (entry k) := ⟨k, hk, rfl⟩

theorem idle (hm : ∀ i, tag (buckets m i) = 0#64)
    (hone : ∀ k ∈ keys, Single (homeOf seed) HOP (buckets m) (entry k)) :
    Rivals seed keys (buckets m) (idleState m) where
  sound _ _ h := by cases h
  untagged := hm
  single := hone
  eroded := .refl _
  runs _ _ h := by cases h
  stamps _ _ _ h := by cases h
  answered _ h := by cases h
  token k _ := ⟨.free, id, fun _ => not_took rfl, rfl⟩

theorem call {c : Call} (h : Rivals seed keys T₀ s)
    (hc : ∃ key tid, c = .remove key tid ∧ key ∈ keys)
    (hs : (table seed).step s (.call t c) = some s') : Rivals seed keys T₀ s' := by
  have hsound := sound_step h.sound hs
  have hother : ∀ u ≠ t, s'.thr u = s.thr u := fun u hu => Machine.step_thr_of_ne hs hu
  obtain ⟨-, ht, he⟩ := Machine.step_call.mp hs
  obtain ⟨key, tid, rfl, hk⟩ := hc
  have hmem : s'.mem = s.mem := by rw [he]
  have hlog : s'.log = s.log := by rw [he]
  have hnew : s'.thr t = some (.remove key tid .stamp) := by
    rw [he]
    exact Function.update_self _ _ _
  have hthr : ∀ u p, s'.thr u = some p → s.thr u = some p ∨ p = .remove key tid .stamp := by
    intro u p hu
    by_cases hut : u = t
    · rw [hut, hnew, Option.some.injEq] at hu
      exact Or.inr hu.symm
    · rw [hother u hut] at hu
      exact Or.inl hu
  refine ⟨hsound, hmem ▸ h.untagged, h.single, hmem ▸ h.eroded, fun u p hp => ?_,
    fun u p w hp hw => ?_, by rw [hmem, hlog]; exact h.answered, fun k hk => ?_⟩
  · rcases hthr u p hp with hu | rfl
    · rw [hmem]
      exact h.runs u p hu
    · exact ⟨key, tid, .stamp, rfl, hk, trivial⟩
  · rcases hthr u p hp with hu | rfl
    · exact h.stamps u p w hu hw
    · cases hw
  · obtain ⟨x, hx⟩ := h.token k hk
    refine ⟨x, hx.keep (by rw [hmem]) (fun u => ?_) (by rw [hlog])⟩
    by_cases hut : u = t
    · rw [hut, took_iff hnew]
      exact ⟨fun hf => absurd hf.2 (by decide), fun hf => absurd hf (not_took ht)⟩
    · exact took_congr (hother u hut)

variable {b : Bool}

/-- What the access does to the table. -/
theorem erodes (h : Rivals seed keys T₀ s) (hp : s.thr t = some (.remove key tid q))
    (hk : key ∈ keys) :
    Eroded (IsKey keys) (buckets s.mem) (buckets ((remove seed key q).1.exec s.mem).2) ∧
      ∀ i, tag (buckets ((remove seed key q).1.exec s.mem).2 i) = 0#64 := by
  have hok : q.Ok := h.sound t _ hp
  rcases remove_cases seed key h.untagged hok with ⟨final, i1, i2, rfl, hi, -, hT⟩ | ⟨hT, -⟩ <;>
    rw [hT]
  · have hfin : tag final = 0#64 := hok
    refine ⟨.replace (by rw [hi]; exact isKey hk) (h.stamps t _ final hp rfl), fun i => ?_⟩
    by_cases hi' : i = home seed key + i1
    · rw [hi', Function.update_self, hfin]
    · rw [Function.update_of_ne hi']
      exact h.untagged i
  · exact ⟨.refl _, h.untagged⟩

/-- The tokens after an access that goes on. -/
theorem token_goto (h : Rivals seed keys T₀ s) (hp : s.thr t = some (.remove key tid q))
    (hf : removeFlow seed key s.mem q = .goto q')
    (hmem : s'.mem = ((remove seed key q).1.exec s.mem).2)
    (ht : s'.thr t = some (.remove key tid q')) (hother : ∀ u ≠ t, s'.thr u = s.thr u)
    (hlog : s'.log = s.log) (hk : k ∈ keys) : ∃ x : Token, x.Fits T₀ s' k := by
  obtain ⟨x, hx⟩ := h.token k hk
  have hw : wins k s'.log = wins k s.log := by rw [hlog]
  rcases remove_cases seed key h.untagged (h.sound t _ hp) with
    ⟨final, i1, i2, rfl, hi, hgo, hT⟩ | ⟨hT, hret⟩
  · rw [hf] at hgo
    cases hgo
    have hfin : final ≠ entry k := fun e => h.stamps t _ final hp rfl (e ▸ isKey hk)
    by_cases hkk : key = k
    · -- the key is erased
      subst hkk
      have hone := (h.single key hk).eroded h.eroded (isKey hk)
      refine ⟨_, hx.take (t := t) ⟨_, h.eroded.before (isKey hk) hi⟩ ⟨_, hi⟩ ?_ ?_
        (fun u hu => took_congr (hother u hu)) hw⟩
      · rw [hmem, hT]
        exact hone.gone hi hfin
      · exact (took_iff ht).mpr ⟨rfl, rfl⟩
    · -- another key is erased
      refine ⟨x, hx.keep ?_ (fun u => ?_) hw⟩
      · rw [hmem, hT]
        exact has_put_iff (by rw [hi]; exact fun e => hkk (entry_inj e)) hfin
      · by_cases hut : u = t
        · rw [hut, took_iff ht, took_iff hp]
          exact ⟨fun e => absurd e.1 hkk, fun e => absurd e.1 hkk⟩
        · exact took_congr (hother u hut)
  · refine ⟨x, hx.keep (by rw [hmem, hT]) (fun u => ?_) hw⟩
    by_cases hut : u = t
    · have he : q'.erased = q.erased := by
        rcases hret with ⟨q'', hq, he⟩ | hr
        · rw [hf] at hq
          cases hq
          exact he
        · rw [hf] at hr
          cases hr
      rw [hut, took_iff ht, took_iff hp]
      show _ = _ ∧ _ ↔ _ = _ ∧ _
      rw [he]
    · exact took_congr (hother u hut)

/-- The tokens after a call has returned. -/
theorem token_ret (h : Rivals seed keys T₀ s) (hp : s.thr t = some (.remove key tid q))
    (hf : removeFlow seed key s.mem q = .ret b)
    (hmem : s'.mem = ((remove seed key q).1.exec s.mem).2)
    (ht : s'.thr t = none) (hother : ∀ u ≠ t, s'.thr u = s.thr u)
    (hlog : s'.log = (t, .remove key tid, b) :: s.log) (hk : k ∈ keys) :
    ∃ x : Token, x.Fits T₀ s' k := by
  obtain ⟨x, hx⟩ := h.token k hk
  have hcong : ∀ u ≠ t, (Took s' k u ↔ Took s k u) := fun u hu => took_congr (hother u hu)
  rcases remove_cases seed key h.untagged (h.sound t _ hp) with
    ⟨final, i1, i2, rfl, hi, hgo, hT⟩ | ⟨hT, hret⟩
  · rw [hf] at hgo
    cases hgo
  · obtain rfl : b = q.erased := by
      rcases hret with ⟨q', hq, -⟩ | hr
      · rw [hf] at hq
        cases hq
      · rw [hf] at hr
        cases hr
        rfl
    have hsame : Has (buckets s'.mem) (entry k) ↔ Has (buckets s.mem) (entry k) := by rw [hmem, hT]
    by_cases htook : Took s k t
    · obtain ⟨hkk, he⟩ := (took_iff hp).mp htook
      refine ⟨_, hx.spend htook hsame (not_took ht) hcong ?_⟩
      rw [hlog, he, ← hkk]
      simp [wins, Call.key]
    · refine ⟨x, hx.keep hsame (fun u => ?_) ?_⟩
      · by_cases hut : u = t
        · rw [hut]
          exact ⟨fun e => absurd e (not_took ht), fun e => absurd e htook⟩
        · exact hcong u hut
      · have hno : ¬ (key = k ∧ q.erased = true) := fun e => htook ((took_iff hp).mpr e)
        rw [hlog, wins, List.countP_cons_of_neg]
        · rfl
        · rw [Bool.and_eq_true, decide_eq_true_eq]
          exact hno

/-- What the other removals know and the returned ones have left stays so. -/
theorem others (h : Rivals seed keys T₀ s)
    (he : Eroded (IsKey keys) (buckets s.mem) (buckets s'.mem))
    (hother : ∀ u ≠ t, s'.thr u = s.thr u) :
    (∀ u ≠ t, ∀ p, s'.thr u = some p → (∃ key tid q, p = .remove key tid q ∧ key ∈ keys ∧
      q.Knows seed T₀ (buckets s'.mem) key) ∧ ∀ w, p.stamp? = some w → ¬ IsKey keys w) ∧
    ∀ r ∈ s.log, r.2.1.key ∈ keys ∧ ¬ Has (buckets s'.mem) (entry r.2.1.key) := by
  constructor
  · intro u hu p hp
    rw [hother u hu] at hp
    obtain ⟨key, tid, q, rfl, hk, hq⟩ := h.runs u p hp
    have hone := (h.single key hk).eroded h.eroded (isKey hk)
    exact ⟨⟨key, tid, q, rfl, hk, hq.mono he (isKey hk) hone⟩, fun w hw => h.stamps u _ w hp hw⟩
  · intro r hr
    obtain ⟨hk, hgone⟩ := h.answered r hr
    exact ⟨hk, fun hT => hgone (he.has (isKey hk) hT)⟩

/-- What a removal that goes on knows, and the stamp it has. -/
theorem own (h : Rivals seed keys T₀ s) (hd : DrawsNoKey keys s (.move t))
    (hp : s.thr t = some (.remove key tid q)) (hk : key ∈ keys)
    (hq : q.Knows seed T₀ (buckets s.mem) key) (hf : removeFlow seed key s.mem q = .goto q') :
    q'.Knows seed T₀ (buckets ((remove seed key q).1.exec s.mem).2) key ∧
      ∀ w, (Pc.remove key tid q').stamp? = some w → ¬ IsKey keys w := by
  constructor
  · refine Remove.knows_goto hq h.untagged (h.sound t _ hp) (h.single key hk) h.eroded
      (isKey hk) ?_ hf
    rintro final i1 i2 rfl e
    exact h.stamps t _ final hp rfl (e ▸ isKey hk)
  · intro w hw
    have hflow : (table seed).flow s.mem (.remove key tid q) = .goto (.remove key tid q') :=
      Flow.bind_eq_goto.mpr (Or.inl ⟨q', hf, rfl⟩)
    rcases stamp_next hflow hw with hold | ⟨hdraw, rfl⟩
    · exact h.stamps t _ w hp hold
    · rintro ⟨k, hk', e⟩
      apply hd _ hp hdraw k hk'
      rw [← toNat_finalEntry, e, toNat_entry]

theorem move (h : Rivals seed keys T₀ s) (hd : DrawsNoKey keys s (.move t))
    (hs : (table seed).step s (.move t) = some s') : Rivals seed keys T₀ s' := by
  have hsound := sound_step h.sound hs
  have hother : ∀ u ≠ t, s'.thr u = s.thr u := fun u hu => Machine.step_thr_of_ne hs hu
  obtain ⟨-, p, hp, he⟩ := Machine.step_move.mp hs
  obtain ⟨key, tid, q, rfl, hk, hq⟩ := h.runs t p hp
  have hmem : s'.mem = ((remove seed key q).1.exec s.mem).2 := by
    rw [he, Machine.advance_mem]
    rfl
  obtain ⟨hero, htag⟩ := h.erodes hp hk
  rw [← hmem] at hero htag
  obtain ⟨hrest, hanswered⟩ := h.others hero hother
  have hflow : (table seed).flow s.mem (.remove key tid q) =
      (removeFlow seed key s.mem q).bind (.remove key tid) fun b => .ret (.remove key tid, b) := rfl
  cases hf : removeFlow seed key s.mem q with
  | goto q' =>
    rw [hf, Flow.bind_goto] at hflow
    have ht : s'.thr t = some (.remove key tid q') := by
      rw [he]
      exact Machine.advance_thr_goto hflow
    have hlog : s'.log = s.log := by rw [he, Machine.advance_goto hflow]
    obtain ⟨hknows, hstamp⟩ := h.own hd hp hk hq hf
    rw [← hmem] at hknows
    refine ⟨hsound, htag, h.single, h.eroded.trans hero, fun u p hu => ?_, fun u p w hu hw => ?_,
      by rwa [hlog], fun k hk' => h.token_goto hp hf hmem ht hother hlog hk'⟩
    · by_cases hut : u = t
      · rw [hut, ht, Option.some.injEq] at hu
        exact ⟨key, tid, q', hu.symm, hk, hknows⟩
      · exact (hrest u hut p hu).1
    · by_cases hut : u = t
      · rw [hut, ht, Option.some.injEq] at hu
        exact hstamp w (hu ▸ hw)
      · exact (hrest u hut p hu).2 w hw
  | ret b =>
    rw [hf, Flow.bind_ret] at hflow
    have hadv := Machine.advance_ret (s := s) (t := t) hflow
    have ht : s'.thr t = none := by
      rw [he, hadv]
      exact Function.update_self _ _ _
    have hlog : s'.log = (t, .remove key tid, b) :: s.log := by rw [he, hadv]
    have hgone : ¬ Has (buckets s.mem) (entry key) := Remove.knows_ret hq hf
    -- the threads that still run are the others
    have hne : ∀ u p, s'.thr u = some p → u ≠ t := by
      rintro u p hu rfl
      rw [ht] at hu
      cases hu
    refine ⟨hsound, htag, h.single, h.eroded.trans hero, fun u p hu => (hrest u (hne u p hu) p hu).1,
      fun u p w hu hw => (hrest u (hne u p hu) p hu).2 w hw, fun r hr => ?_,
      fun k hk' => h.token_ret hp hf hmem ht hother hlog hk'⟩
    rw [hlog] at hr
    rcases List.mem_cons.mp hr with rfl | hold
    · exact ⟨hk, fun hT => hgone (hero.has (isKey hk) hT)⟩
    · exact hanswered r hold
  | exit e =>
    rw [hf, Flow.bind_exit] at hflow
    obtain ⟨key', a, ha, -⟩ := exit_add hflow
    cases ha

end Rivals

/-! ### Every interleaving -/

/-- Only removals begin. -/
def Removing : Label Call → Prop := Calls fun _ c => ∃ key tid, c = .remove key tid

/-- The keys of the calls of a schedule. -/
def calledKeys (ls : List (Label Call)) : List Key :=
  ls.filterMap fun
    | .call _ c => some c.key
    | .move _ => none

theorem mem_calledKeys {ls : List (Label Call)} : k ∈ calledKeys ls ↔
    ∃ t c, .call t c ∈ ls ∧ c.key = k := by
  rw [calledKeys, List.mem_filterMap]
  constructor
  · rintro ⟨l, hl, he⟩
    cases l with
    | call t c => exact ⟨t, c, hl, Option.some.inj he⟩
    | move t => cases he
  · rintro ⟨t, c, hl, rfl⟩
    exact ⟨_, hl, rfl⟩

theorem rivals_run {ls : List (Label Call)} (hm : ∀ i, tag (buckets m i) = 0#64)
    (hr : (table seed).run ls (idleState m) = some s) (hl : ∀ l ∈ ls, Removing l)
    (hone : ∀ k ∈ calledKeys ls, Single (homeOf seed) HOP (buckets m) (entry k))
    (hd : (table seed).Along (DrawsNoKey (calledKeys ls)) ls (idleState m)) :
    Rivals seed (calledKeys ls) (buckets m) s := by
  have hcalls : ∀ l ∈ ls, Removing l ∧ ∀ t c, l = .call t c → c.key ∈ calledKeys ls :=
    fun l hin => ⟨hl l hin, fun t c e => mem_calledKeys.mpr ⟨t, c, e ▸ hin, rfl⟩⟩
  refine Machine.run_inv (fun s l s' hR hQ hs => ?_) (Rivals.idle hm hone)
    ((Machine.Along.of_forall hcalls).and hd) hr
  obtain ⟨⟨hrem, hkey⟩, hdraw⟩ := hQ
  cases l with
  | call t c =>
    obtain ⟨key, tid, rfl⟩ := hrem
    exact hR.call ⟨key, tid, rfl, hkey t _ rfl⟩ hs
  | move t => exact hR.move hdraw hs

/-- Removals from a table without tags, each of their keys stored at most once and only in
its window, whose stamps are none of the keys. Once all calls have returned: of the calls
of a stored key exactly one has returned true, and the key is gone; the calls of a key
that was not stored have returned false; and all other words are as they were. -/
theorem rivals_remove_once {ls : List (Label Call)} (hm : ∀ i, tag (buckets m i) = 0#64)
    (hr : (table seed).run ls (idleState m) = some s) (hl : ∀ l ∈ ls, Removing l)
    (hone : ∀ k ∈ calledKeys ls, Single (homeOf seed) HOP (buckets m) (entry k))
    (hd : (table seed).Along (DrawsNoKey (calledKeys ls)) ls (idleState m))
    (hidle : ∀ t, s.thr t = none) :
    (∀ k ∈ calledKeys ls, Has (buckets m) (entry k) →
      wins k s.log = 1 ∧ ¬ Has (buckets s.mem) (entry k)) ∧
    (∀ t k tid b, (t, .remove k tid, b) ∈ s.log → ¬ Has (buckets m) (entry k) → b = false) ∧
    ∀ i, (∀ k ∈ calledKeys ls, buckets m i ≠ entry k) → buckets s.mem i = buckets m i := by
  have hR := rivals_run hm hr hl hone hd
  refine ⟨fun k hk hin => ?_, fun t k tid b hlog hno => ?_, fun i hi => ?_⟩
  · -- one of the calls has left the log entry that says so
    obtain ⟨t, c, hc, rfl⟩ := mem_calledKeys.mp hk
    rcases begun_of_run hr hc with ⟨p, hp, -⟩ | ⟨b, hb⟩
    · rw [hidle t] at hp
      cases hp
    · have hgone := (hR.answered _ hb).2
      obtain ⟨x, hx⟩ := hR.token _ hk
      cases x with
      | free => exact absurd (hx.1 hin) hgone
      | held u => exact absurd ((hx.2.2.1 u).mpr rfl) (not_took (hidle u))
      | spent => exact ⟨hx.2.2.2, hgone⟩
  · obtain ⟨x, hx⟩ := hR.token k (hR.answered _ hlog).1
    cases x with
    | held u => exact absurd hx.1 hno
    | spent => exact absurd hx.1 hno
    | free =>
      have hzero := List.countP_eq_zero.mp hx.2.2 _ hlog
      simpa [Call.key] using hzero
  · exact hR.eroded.eq_of_not fun ⟨k, hk, he⟩ => hi k hk he

instance : DecidablePred Removing
  | .call _ (.remove key tid) => isTrue ⟨key, tid, rfl⟩
  | .call _ (.add _) => isFalse fun ⟨_, _, h⟩ => by cases h
  | .call _ (.contains _) => isFalse fun ⟨_, _, h⟩ => by cases h
  | .move _ => isTrue trivial

instance (keys : List Key) (s : State) : ∀ l, Decidable (DrawsNoKey keys s l)
  | .call _ _ => isTrue trivial
  | .move t =>
    match h : s.thr t with
    | none => isTrue fun p hp => by rw [h] at hp; cases hp
    | some p =>
      -- the keys of the list, not all of them
      have : Decidable (∀ k ∈ keys, (s.mem .timeStamp).toNat % 2 ^ 30 ≠ k.toNat) :=
        List.decidableBAll _ keys
      decidable_of_iff (p.Draws → ∀ k ∈ keys, (s.mem .timeStamp).toNat % 2 ^ 30 ≠ k.toNat)
        ⟨fun hq p' hp => by rw [h, Option.some.injEq] at hp; exact hp ▸ hq, fun hq => hq p h⟩

theorem WellFormed.single (h : WellFormed seed T) (hk : k ≠ 0#32) :
    Single (homeOf seed) HOP T (entry k) := by
  have hne : ∀ i, T i = entry k → T i ≠ 0#64 := fun i hi => by
    rw [hi]
    exact entry_ne_zero hk
  refine ⟨fun i hi => ?_, fun i j hi hj => h.distinct i j (hne i hi) (hi.trans hj.symm)⟩
  have hw := h.placed i (hne i hi)
  rwa [hi] at hw

/-- Two threads remove the key in slot 1016, 16 above its home, one the key in slot 1017,
16 above its home too, and one a key that is not stored; they take turns. -/
def rivalRun : List (Label Call) :=
  [.call 0 (.remove 12749043 0), .call 1 (.remove 12749043 1), .call 2 (.remove 32323154 2),
    .call 3 (.remove 14294523 3)] ++
  (List.replicate 70 [.move 0, .move 1, .move 2, .move 3]).flatten ++ [.move 3]

set_option maxRecDepth 10000 in
theorem four_rivals : ∃ s,
    (table 1).run rivalRun (idleState (tableOf 1016 [12749043, 32323154])) = some s ∧
    wins 12749043 s.log = 1 ∧ ¬ Has (buckets s.mem) (entry 12749043) ∧
    wins 32323154 s.log = 1 ∧ (3, (.remove 14294523 3, false)) ∈ s.log := by
  have h : ((table 1).run rivalRun (idleState (tableOf 1016 [12749043, 32323154]))).any
      (fun s => decide ((∀ t ∈ ([0, 1, 2, 3] : List ℕ), (s.thr t).isNone) ∧
        ∃ b, (3, (Call.remove 14294523 3, b)) ∈ s.log)) = true := by decide +kernel
  obtain ⟨s, hs, h⟩ := (Option.any_eq_true _ _).mp h
  obtain ⟨hts, b, hb⟩ := of_decide_eq_true h
  have hw : WellFormed 1 (buckets (tableOf 1016 [12749043, 32323154])) :=
    wellFormed_tableOf (by decide +kernel) (by decide)
  have hkeys : calledKeys rivalRun = [12749043, 12749043, 32323154, 14294523] := by decide +kernel
  have hzero : 0#32 ∉ calledKeys rivalRun := by
    rw [hkeys]
    decide
  have hidle := Machine.idle_of_run hs (fun _ => rfl) (by decide +kernel) hts
  obtain ⟨hone, hno, -⟩ := rivals_remove_once hw.untagged hs (by decide +kernel)
    (fun k hk => hw.single fun e => hzero (e ▸ hk)) (by decide +kernel) hidle
  obtain ⟨h1, h2⟩ := hone 12749043 (by rw [hkeys]; decide) (has_tableOf (by decide))
  obtain ⟨h3, -⟩ := hone 32323154 (by rw [hkeys]; decide) (has_tableOf (by decide))
  have hnot : ¬ Has (buckets (tableOf 1016 [12749043, 32323154])) (entry 14294523) := by
    rintro ⟨i, hi⟩
    rcases buckets_tableOf 1016 [12749043, 32323154] i with h0 | ⟨key, hkey, he⟩
    · rw [h0] at hi
      exact entry_ne_zero (by decide) hi.symm
    · rw [he] at hi
      obtain rfl := entry_inj hi
      exact absurd hkey (by decide)
  obtain rfl := hno 3 14294523 3 b hb hnot
  exact ⟨s, hs, h1, h2, h3, hb⟩

end LFHash
