/-
# Removals

`Remove` while nothing else writes, from a table `T₀` without tags: the two
scans mark where the key is, line 253 replaces the first copy by the stamp, and
the later lines find nothing to do. It returns true exactly if the key was in
its window (`Outcome`).

Key definitions: `Marked`, `Outcome`, `Remove.Follows`.
Key theorems: `Remove.follows_goto`, `Remove.follows_ret`, `remove_alone`.
-/
import LFHash.Lookup

namespace LFHash

open Interleave Hopscotch

variable {seed : BitVec 32} {key : Key}

/-! ### The first bit of a scan -/

theorem getLsbD_findFirst {cxx : Word} {q : ℕ} (hq : q < 64) (h : cxx.getLsbD q = true) :
    cxx.getLsbD (findFirst cxx) = true := by
  unfold findFirst
  cases hf : (List.range 64).find? fun q => cxx.getLsbD q with
  | some a => simpa using List.find?_some hf
  | none =>
    have := List.find?_eq_none.mp hf q (List.mem_range.mpr hq)
    exact absurd h this

theorem findFirst_lt (cxx : Word) : findFirst cxx < 64 := by
  unfold findFirst
  cases hf : (List.range 64).find? fun q => cxx.getLsbD q with
  | some a => simpa using List.mem_range.mp (List.mem_of_find?_eq_some hf)
  | none => simp [HOP]

/-- Without a bit, the first one is `HOP`, which has been looked at too. -/
theorem findFirst_of_none {cxx : Word} (h : ∀ q < 64, cxx.getLsbD q = false) :
    findFirst cxx = HOP := by
  unfold findFirst
  have hf : (List.range 64).find? (fun q => cxx.getLsbD q) = none := by
    rw [List.find?_eq_none]
    intro q hq
    simp [h q (List.mem_range.mp hq)]
  rw [hf]
  rfl

theorem exists_bit {cxx : Word} (h : cxx ≠ 0#64) : ∃ q < 64, cxx.getLsbD q = true := by
  by_contra hno
  push Not at hno
  refine h (BitVec.eq_of_getLsbD_eq fun q hq => ?_)
  rw [BitVec.getLsbD_zero, Bool.eq_false_iff]
  exact hno q hq

/-- The first bit is set, or there is none. -/
theorem findFirst_cases (cxx : Word) : cxx.getLsbD (findFirst cxx) = true ∨
    (∀ q < 64, cxx.getLsbD q = false) ∧ findFirst cxx = HOP := by
  by_cases h : ∃ q < 64, cxx.getLsbD q = true
  · obtain ⟨q, hq, hbit⟩ := h
    exact Or.inl (getLsbD_findFirst hq hbit)
  · push Not at h
    have hnone : ∀ q < 64, cxx.getLsbD q = false := fun q hq => Bool.eq_false_iff.mpr (h q hq)
    exact Or.inr ⟨hnone, findFirst_of_none hnone⟩

/-- The bits of a scan tell where the key is among the first `n` slots. -/
def Marked (seed : BitVec 32) (T : ℕ → Word) (key : Key) (n : ℕ) (cxx : Word) : Prop :=
  ∀ q < 64, cxx.getLsbD q = true ↔ q < n ∧ T (home seed key + q) = entry key

theorem marked_start (T : ℕ → Word) : Marked seed T key 0 0#64 := by
  intro q _
  simp

theorem Marked.set {T : ℕ → Word} {n : ℕ} {cxx : Word} (h : Marked seed T key n cxx)
    (hT : T (home seed key + n) = entry key) : Marked seed T key (n + 1) (setBit cxx n) := by
  intro q hq
  rw [getLsbD_setBit hq, Bool.or_eq_true, h q hq, decide_eq_true_iff]
  constructor
  · rintro (⟨h1, h2⟩ | rfl)
    · exact ⟨by omega, h2⟩
    · exact ⟨by omega, hT⟩
  · rintro ⟨h1, h2⟩
    rcases Nat.lt_succ_iff_lt_or_eq.mp h1 with h3 | h3
    · exact Or.inl ⟨h3, h2⟩
    · exact Or.inr h3

theorem Marked.skip {T : ℕ → Word} {n : ℕ} {cxx : Word} (h : Marked seed T key n cxx)
    (hT : T (home seed key + n) ≠ entry key) : Marked seed T key (n + 1) cxx := by
  intro q hq
  rw [h q hq]
  constructor
  · rintro ⟨h1, h2⟩
    exact ⟨by omega, h2⟩
  · rintro ⟨h1, h2⟩
    rcases Nat.lt_succ_iff_lt_or_eq.mp h1 with h3 | rfl
    · exact ⟨h3, h2⟩
    · exact absurd h2 hT

/-- After the whole window, the first bit stands where the key is, if it is anywhere. -/
theorem Marked.first {T : ℕ → Word} {cxx : Word} (h : Marked seed T key (HOP + 1) cxx) :
    findFirst cxx ≤ HOP ∧ ((∃ p ≤ HOP, T (home seed key + p) = entry key) →
      T (home seed key + findFirst cxx) = entry key) := by
  rcases findFirst_cases cxx with hbit | ⟨hnone, hf⟩
  · obtain ⟨h1, h2⟩ := (h _ (findFirst_lt cxx)).mp hbit
    exact ⟨by omega, fun _ => h2⟩
  · refine ⟨hf.le, ?_⟩
    rintro ⟨p, hp, hT⟩
    have hp64 : p < 64 := by simp only [HOP] at hp; omega
    have hbit := (h p hp64).mpr ⟨by omega, hT⟩
    rw [hnone p hp64] at hbit
    cases hbit

/-- A bit is set exactly if the key is among the first `n` slots. -/
theorem Marked.ne_zero_iff {T : ℕ → Word} {n : ℕ} {cxx : Word} (h : Marked seed T key n cxx)
    (hn : n ≤ 64) : cxx ≠ 0#64 ↔ ∃ q < n, T (home seed key + q) = entry key := by
  constructor
  · intro hc
    obtain ⟨q, hq, hbit⟩ := exists_bit hc
    exact ⟨q, (h q hq).mp hbit⟩
  · rintro ⟨q, hq, hT⟩ rfl
    have hbit := (h q (by omega)).mpr ⟨hq, hT⟩
    simp at hbit

/-- The read of a scan in a table without tags. -/
theorem Marked.read {T : ℕ → Word} {s : Scan} (h : Marked seed T key s.p s.cxx)
    (hT : ∀ i, tag (T i) = 0#64) : Marked seed T key (s.p + 1) (s.read seed T key) := by
  unfold Scan.read
  split_ifs with hit
  · exact h.set ((hit_iff_of_tag (hT _)).mp hit)
  · exact h.skip fun he => hit (Or.inl he)

/-! ### The course of a removal -/

/-- What a removal has done to the table `T₀`: it has replaced a copy of the
key by the stamp `fin`, or the key is not in its window. -/
def Outcome (seed : BitVec 32) (key : Key) (T₀ : ℕ → Word) (fin : Word) (T : ℕ → Word)
    (rem : Bool) : Prop :=
  (rem = true ∧ ∃ p ≤ HOP, T₀ (home seed key + p) = entry key ∧
    T = Function.update T₀ (home seed key + p) fin) ∨
  (rem = false ∧ T = T₀ ∧ ∀ p ≤ HOP, T₀ (home seed key + p) ≠ entry key)

/-- A removal leaves no tag where there was none. -/
theorem Outcome.untagged {T₀ T : ℕ → Word} {fin : Word} {rem : Bool}
    (h : Outcome seed key T₀ fin T rem) (hT : ∀ i, tag (T₀ i) = 0#64) (hfin : tag fin = 0#64)
    (i : ℕ) : tag (T i) = 0#64 := by
  rcases h with ⟨-, p, -, -, rfl⟩ | ⟨-, rfl, -⟩
  · by_cases hi : i = home seed key + p
    · rw [hi, Function.update_self, hfin]
    · rw [Function.update_of_ne hi]; exact hT i
  · exact hT i

/-- Where a removal stands that began with the table `T₀` and draws the stamp `fin`. -/
def Remove.Follows (seed : BitVec 32) (key : Key) (T₀ : ℕ → Word) (fin : Word)
    (m : Cell → Word) : Remove → Prop
  | .stamp => buckets m = T₀ ∧ finalEntry (m .timeStamp) = fin
  | .testKey final s => buckets m = T₀ ∧ final = fin ∧ s.p ≤ HOP ∧ Marked seed T₀ key s.p s.cxx
  | .testMoving final s => buckets m = T₀ ∧ final = fin ∧ s.p ≤ HOP ∧
      Marked seed T₀ key s.p s.cxx ∧ T₀ (home seed key + s.p) ≠ entry key
  | .removeKey final i1 _ => buckets m = T₀ ∧ final = fin ∧
      ∃ cxx, Marked seed T₀ key (HOP + 1) cxx ∧ i1 = findFirst cxx
  | .removeMoving _ _ rem1 => Outcome seed key T₀ fin (buckets m) rem1
  | .loadSlot _ rem => Outcome seed key T₀ fin (buckets m) rem
  | .testSlot _ _ rem => Outcome seed key T₀ fin (buckets m) rem
  | .poison _ _ _ => False

variable {T₀ : ℕ → Word} {fin : Word} {m : Cell → Word}

theorem Remove.follows_nextScan {p : ℕ} {cxx : Word} (hb : buckets m = T₀)
    (h : Marked seed T₀ key (p + 1) cxx) (hp : p ≤ HOP) :
    (Remove.nextScan fin p cxx).Follows seed key T₀ fin m := by
  unfold Remove.nextScan
  split_ifs with hlt
  · exact ⟨hb, rfl, hlt, h⟩
  · obtain rfl : p = HOP := by omega
    exact ⟨hb, rfl, cxx, h, rfl⟩

/-- One access of a removal, inside the call. -/
theorem Remove.follows_goto (hT : ∀ i, tag (T₀ i) = 0#64) (hfin : tag fin = 0#64)
    {q q' : Remove} (h : q.Follows seed key T₀ fin m)
    (hf : (remove seed key q).2 ((remove seed key q).1.exec m).1 = .goto q') :
    q'.Follows seed key T₀ fin ((remove seed key q).1.exec m).2 := by
  cases q with
  | stamp =>
    obtain ⟨hb, hst⟩ := h
    cases hf
    simp only [remove, Access.exec_fetch]
    exact ⟨by rw [buckets_timeStamp, hb], hst, Nat.zero_le _, marked_start T₀⟩
  | testKey final s =>
    obtain ⟨hb, rfl, hp, hm⟩ := h
    simp only [remove, Access.exec_load] at hf ⊢
    split_ifs at hf with hk
    · cases hf
      exact follows_nextScan hb (hm.set (by rw [← hb]; exact hk)) hp
    · cases hf
      exact ⟨hb, rfl, hp, hm, by rw [← hb]; exact hk⟩
  | testMoving final s =>
    obtain ⟨hb, rfl, hp, hm, hne⟩ := h
    have hn : m (.bucket (home seed key + s.p)) ≠ moving (entry key) := by
      have ht := hT (home seed key + s.p)
      rw [← hb] at ht
      exact ne_moving ht
    simp only [remove, Access.exec_load, hn, if_false] at hf ⊢
    cases hf
    exact follows_nextScan hb (hm.skip hne) hp
  | removeKey final i1 i2 =>
    obtain ⟨hb, rfl, cxx, hm, rfl⟩ := h
    obtain ⟨h1, h2⟩ := hm.first
    cases hf
    by_cases he : m (.bucket (home seed key + findFirst cxx)) = entry key
    · simp only [remove, Access.exec_cas_of_eq _ _ he]
      refine Or.inl ⟨rfl, _, h1, ?_, by rw [buckets_update, hb]⟩
      rw [← hb]
      exact he
    · simp only [remove, Access.exec_cas_of_ne _ _ he]
      refine Or.inr ⟨rfl, hb, fun p hp hT' => he ?_⟩
      have := h2 ⟨p, hp, hT'⟩
      rwa [← hb] at this
  | removeMoving final i2 rem1 =>
    have hne : m (.bucket (home seed key + i2)) ≠ entry key ||| (1#64 <<< 62) := by
      rw [← moving_entry]
      exact ne_moving (Outcome.untagged h hT hfin _)
    simp only [remove, Access.exec_cas_of_ne _ _ hne] at hf ⊢
    cases hf
    simpa [Remove.Follows] using h
  | loadSlot p rem => cases hf; exact h
  | testSlot p slot rem =>
    have hne : tag (m (.bucket (home seed key + p))) ≠ 3#64 := by
      have ht := Outcome.untagged h hT hfin (home seed key + p)
      rw [buckets] at ht
      rw [ht]
      decide
    simp only [remove, Access.exec_load, hne, if_false, Remove.nextSlot] at hf
    split_ifs at hf
    cases hf
    exact h
  | poison p slot rem => exact h.elim

/-- The access with which a removal returns. -/
theorem Remove.follows_ret {q : Remove} {b : Bool} (h : q.Follows seed key T₀ fin m)
    (hf : (remove seed key q).2 ((remove seed key q).1.exec m).1 = .ret b) :
    Outcome seed key T₀ fin (buckets ((remove seed key q).1.exec m).2) b := by
  rcases remove_ret hf with ⟨p, slot, rfl⟩ | ⟨p, slot, rfl⟩
  · exact h
  · exact h.elim

/-- `Remove`, run alone on a table without tags. -/
theorem remove_alone {s s' : State} {t n : ℕ} {tid : ℤ} {b : Bool}
    (hT : ∀ i, tag (buckets s.mem i) = 0#64)
    (hr : (table seed).run (alone t (.remove key tid) n) s = some s') (hh : s'.halt = none)
    (hlog : s'.log = (t, (.remove key tid, b)) :: s.log) :
    Outcome seed key (buckets s.mem) (finalEntry (s.mem .timeStamp)) (buckets s'.mem) b ∧
      s'.thr = s.thr := by
  obtain ⟨s₁, h1, h2⟩ := Machine.run_cons.mp hr
  obtain ⟨-, ht, hs₁⟩ := Machine.step_call.mp h1
  have hst : s₁.thr t = some (.remove key tid .stamp) := by
    rw [hs₁]
    exact Function.update_self ..
  have hm : s₁.mem = s.mem := by rw [hs₁]
  have hl₁ : s₁.log = s.log := by rw [hs₁]
  have hend := Machine.run_alone (M := table seed)
    (P := fun p m => ∃ q, p = .remove key tid q ∧
      q.Follows seed key (buckets s.mem) (finalEntry (s.mem .timeStamp)) m)
    (Q := fun r m => r.1 = .remove key tid ∧
      Outcome seed key (buckets s.mem) (finalEntry (s.mem .timeStamp)) (buckets m) r.2)
    ?_ ?_ n hst ⟨.stamp, rfl, by rw [hm], by rw [hm]⟩ h2 hh
  · obtain ⟨hthr, ⟨p', -, hl, -⟩ | ⟨r, ht', hl, -, ho⟩⟩ := hend
    · rw [hlog, hl₁] at hl
      exact absurd hl (by simp)
    · rw [hlog, hl₁, List.cons.injEq, Prod.mk.injEq] at hl
      obtain ⟨⟨-, rfl⟩, -⟩ := hl
      refine ⟨ho, funext fun u => ?_⟩
      by_cases hu : u = t
      · rw [hu, ht', ht]
      · rw [hthr u hu, hs₁]
        exact Function.update_of_ne hu _ _
  · rintro _ m p' ⟨q, rfl, hq⟩ hf
    obtain ⟨q', hf', rfl⟩ | ⟨b, -, hb⟩ := Flow.bind_eq_goto.mp hf
    · exact ⟨q', rfl, Remove.follows_goto hT (tag_finalEntry _) hq hf'⟩
    · cases hb
  · rintro _ m r ⟨q, rfl, hq⟩ hf
    obtain ⟨b, hf', hr⟩ := Flow.bind_eq_ret.mp hf
    cases hr
    exact ⟨rfl, Remove.follows_ret hq hf'⟩

end LFHash
