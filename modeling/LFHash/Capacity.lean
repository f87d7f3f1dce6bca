/-
# How long a table lasts

An `add` of an absent key uses up one empty slot, whatever it moves on the way, and a
removal leaves its stamp in the slot it takes the key from, so that the slot stays used.
The one word of a stamp that empties a slot is 0, and only one removal in 2^30 draws it. So
a table takes no more absent keys than it has slots, and one for each 2^30 removals: the
slots of removed keys are used up.

Key definitions: `Slots`, `used`, `inserted`, `emptied`.
Key theorems: `sink_used`, `serialAdd_used`, `serialRemove_used`, `serialCall_balance`,
`inserts_use_up_slots`.
-/
import LFHash.Serial

namespace LFHash

open Interleave

variable {seed : BitVec 32} {key : Key} {T T' : ℕ → Word} {b n d i i' : ℕ} {w fin : Word}

/-- The slots that the calls of all keys can reach. -/
def Slots : ℕ := TotalBuckets + ADD_RANGE

/-- The slots that are not empty. -/
def usedSlots (T : ℕ → Word) : Finset ℕ := (Finset.range Slots).filter fun i => T i ≠ 0#64

def used (T : ℕ → Word) : ℕ := (usedSlots T).card

/-- An `add` whose key is absent takes a slot. -/
def inserts (seed : BitVec 32) (P : Plain) : Call → ℕ
  | .add key => if Stored seed P.words key then 0 else 1
  | .remove _ _ | .contains _ => 0

/-- A removal that has found its key, with the stamp 0, empties a slot. -/
def empties (seed : BitVec 32) (P : Plain) : Call → ℕ
  | .remove key _ =>
    if finalEntry P.timeStamp = 0#64 ∧
      (serialRemove seed P.words key (finalEntry P.timeStamp)).2 = true then 1 else 0
  | .add _ | .contains _ => 0

/-- How many of the calls `cs`, from a fresh table on, take a slot. -/
def inserted (seed : BitVec 32) (cs : List Call) : ℕ :=
  tally (serialCall seed) (inserts seed) Plain.empty cs

/-- How many of the calls `cs`, from a fresh table on, empty a slot. -/
def emptied (seed : BitVec 32) (cs : List Call) : ℕ :=
  tally (serialCall seed) (empties seed) Plain.empty cs

def Call.removes : Call → Bool
  | .remove _ _ => true
  | .add _ | .contains _ => false

/-! ### One slot more, or less -/

theorem used_le (T : ℕ → Word) : used T ≤ Slots :=
  (Finset.card_filter_le _ _).trans (Finset.card_range Slots).le

theorem used_empty : used Plain.empty.words = 0 := by
  simp [used, usedSlots, Plain.empty]

theorem used_congr (h : ∀ j, T' j ≠ 0#64 ↔ T j ≠ 0#64) : used T' = used T := by
  have hset : usedSlots T' = usedSlots T := Finset.filter_congr fun j _ => h j
  rw [used, hset, used]

/-- A slot is used that was empty. -/
theorem used_insert (hi : i < Slots) (hz : T i = 0#64)
    (h : ∀ j, T' j ≠ 0#64 ↔ j = i ∨ T j ≠ 0#64) : used T' = used T + 1 := by
  have hset : usedSlots T' = insert i (usedSlots T) := by
    ext j
    simp only [usedSlots, Finset.mem_insert, Finset.mem_filter, Finset.mem_range, h j]
    constructor
    · rintro ⟨hj, rfl | hne⟩
      · exact Or.inl rfl
      · exact Or.inr ⟨hj, hne⟩
    · rintro (rfl | ⟨hj, hne⟩)
      · exact ⟨hi, Or.inl rfl⟩
      · exact ⟨hj, Or.inr hne⟩
  have hnot : i ∉ usedSlots T := fun hmem => (Finset.mem_filter.mp hmem).2 hz
  rw [used, hset, Finset.card_insert_of_notMem hnot, used]

/-! ### What an `add` takes -/

/-- The relocations leave every slot used but the one they end in. -/
theorem sink_used : ∀ {n i : ℕ} {T : ℕ → Word}, b ≤ i →
    (∀ j, b ≤ j → j < i → T j ≠ 0#64) → sink (pick seed) b n T i = some (T', i') →
      ∀ j, (j = i' ∨ T' j ≠ 0#64) ↔ (j = i ∨ T j ≠ 0#64) := by
  intro n
  induction n with
  | zero =>
    intro i T _ _ h
    cases h
  | succ n ih =>
    intro i T hb hfull h j
    by_cases hnear : i ≤ b + HOP
    · rw [sink_here hnear] at h
      cases h
      exact Iff.rfl
    · have hHOP : HOP ≤ i := by omega
      cases hp : pick seed T i with
      | none =>
        rw [sink_stuck hnear hp] at h
        cases h
      | some r =>
        rw [sink_moves hnear hp] at h
        have hpick : Picks seed T i r := (pick_eq_some hHOP).mp hp
        have hnear' := hpick.near
        have hbelow := hpick.below
        have hTr : T r ≠ 0#64 := hfull r (by omega) hbelow
        have hsame : ∀ j, b ≤ j → j < r → Function.update T i (T r) j ≠ 0#64 := by
          intro j hj hjr
          rw [Function.update_of_ne (Nat.ne_of_lt (hjr.trans hbelow))]
          exact hfull j hj (hjr.trans hbelow)
        rw [ih (by omega) hsame h j]
        -- slot `i` has been filled, and slot `r` was full
        by_cases hji : j = i
        · subst hji
          rw [Function.update_self]
          exact ⟨fun _ => Or.inl rfl, fun _ => Or.inr hTr⟩
        · rw [Function.update_of_ne hji]
          constructor
          · rintro (rfl | hne)
            · exact Or.inr hTr
            · exact Or.inr hne
          · rintro (rfl | hne)
            · exact absurd rfl hji
            · exact Or.inr hne

theorem place_used (hw : w ≠ 0#64) (h : place (pick seed) b T w = .ok T') : ∃ d < ADD_RANGE,
    T (b + d) = 0#64 ∧ ∀ j, T' j ≠ 0#64 ↔ j = b + d ∨ T j ≠ 0#64 := by
  cases hd : firstSlot T b (ADD_RANGE - 1) 0#64 with
  | none =>
    rw [place_full hd] at h
    cases h
  | some d =>
    cases hs : sink (pick seed) b ADD_RANGE T (b + d) with
    | none =>
      rw [place_stuck hd hs] at h
      cases h
    | some x =>
      obtain ⟨T₁, i⟩ := x
      rw [place_at hd hs] at h
      obtain rfl := Except.ok.inj h
      obtain ⟨hlt, hz, hfirst⟩ := firstSlot_eq_some.mp hd
      refine ⟨d, by omega, hz, fun j => ?_⟩
      have hsink := sink_used (Nat.le_add_right b d) (fun j hj hjd => ?_) hs j
      · rw [← hsink]
        by_cases hji : j = i
        · rw [hji, Function.update_self]
          exact ⟨fun _ => Or.inl rfl, fun _ => hw⟩
        · rw [Function.update_of_ne hji]
          exact ⟨Or.inr, fun h => h.resolve_left hji⟩
      · have hne := hfirst (j - b) (by omega)
        rwa [Nat.add_sub_cancel' hj] at hne

theorem serialAdd_used (hk : key ≠ 0#32) (h : serialAdd seed T key = .ok T') :
    used T' = used T + if Stored seed T key then 0 else 1 := by
  rw [serialAdd] at h
  by_cases hs : Stored seed T key
  · rw [if_pos hs] at h ⊢
    obtain rfl := Except.ok.inj h
    exact (Nat.add_zero _).symm
  · rw [if_neg hs] at h ⊢
    obtain ⟨d, hd, hz, hiff⟩ := place_used (entry_ne_zero hk) h
    refine used_insert (i := home seed key + d) ?_ hz hiff
    have hhome := home_lt seed key
    simp only [Slots]
    omega

/-! ### What a removal leaves -/

theorem vacate_used (hw : w ≠ 0#64) (hb : b + HOP < Slots) :
    used (vacate b T w fin).1 +
      (if fin = 0#64 ∧ (vacate b T w fin).2 = true then 1 else 0) = used T := by
  cases hd : firstSlot T b (HOP + 1) w with
  | none =>
    rw [vacate_none hd]
    simp
  | some d =>
    rw [vacate_some hd]
    dsimp only
    obtain ⟨hlt, he, -⟩ := firstSlot_eq_some.mp hd
    have hT : T (b + d) ≠ 0#64 := by
      rw [he]
      exact hw
    by_cases hfin : fin = 0#64
    · -- the slot is empty again
      rw [if_pos ⟨hfin, rfl⟩, hfin]
      symm
      refine used_insert (i := b + d) (by omega) (Function.update_self ..) fun j => ?_
      by_cases hj : j = b + d
      · rw [hj]
        exact ⟨fun _ => Or.inl rfl, fun _ => hT⟩
      · rw [Function.update_of_ne hj]
        exact ⟨Or.inr, fun h => h.resolve_left hj⟩
    · rw [if_neg fun h => hfin h.1, Nat.add_zero]
      refine used_congr fun j => ?_
      by_cases hj : j = b + d
      · rw [hj, Function.update_self]
        exact ⟨fun _ => hT, fun _ => hfin⟩
      · rw [Function.update_of_ne hj]

theorem serialRemove_used (hk : key ≠ 0#32) : used (serialRemove seed T key fin).1 +
    (if fin = 0#64 ∧ (serialRemove seed T key fin).2 = true then 1 else 0) = used T := by
  refine vacate_used (entry_ne_zero hk) ?_
  have hhome := home_lt seed key
  simp only [Slots, HOP, ADD_RANGE]
  omega

/-! ### The life of a table -/

variable {P Q : Plain} {c : Call} {r : Call × Bool}

/-- What a call takes and leaves. -/
theorem serialCall_balance (hk : c.key ≠ 0#32) (h : serialCall seed P c = .ok (Q, r)) :
    used Q.words + empties seed P c = used P.words + inserts seed P c := by
  cases c with
  | add key =>
    obtain ⟨Q', hQ, hr⟩ := map_ok h
    obtain ⟨rfl, rfl⟩ := Prod.mk.inj hr
    rw [empties, Nat.add_zero, inserts]
    exact serialAdd_used hk (Plain.after_ok hQ).1
  | remove key tid =>
    obtain ⟨hQ, -⟩ := Prod.mk.inj (Except.ok.inj h)
    have hw : Q.words = (serialRemove seed P.words key (finalEntry P.timeStamp)).1 :=
      (congrArg Plain.words hQ).symm
    have hins : inserts seed P (.remove key tid) = 0 := rfl
    rw [hw, hins, Nat.add_zero, empties]
    exact serialRemove_used hk
  | contains key =>
    obtain ⟨rfl, -⟩ := Prod.mk.inj (Except.ok.inj h)
    rw [empties, inserts]

/-- What calls take and leave. -/
theorem turns_used {t : ℕ} {log log' : List (ℕ × (Call × Bool))} {cs : List Call}
    (hk : ∀ c ∈ cs, c.key ≠ 0#32) (h : turns (serialCall seed) t (P, log) cs = .ok (Q, log')) :
    used Q.words + tally (serialCall seed) (empties seed) P cs =
      used P.words + tally (serialCall seed) (inserts seed) P cs := by
  have hstep : ∀ x c y r, Call.key c ≠ 0#32 → serialCall seed x c = .ok (y, r) →
      used y.words + empties seed x c = used x.words + inserts seed x c :=
    fun _ _ _ _ hc he => serialCall_balance hc he
  exact turns_balance hstep hk h

theorem finalEntry_eq_zero {ts : Word} : finalEntry ts = 0#64 ↔ ts.toNat % 2 ^ 30 = 0 := by
  rw [← BitVec.toNat_inj, toNat_finalEntry]
  rfl

theorem serialCall_timeStamp (h : serialCall seed P c = .ok (Q, r)) :
    Q.timeStamp = if c.removes then P.timeStamp + 1#64 else P.timeStamp := by
  cases c with
  | add key =>
    obtain ⟨Q', hQ, hr⟩ := map_ok h
    obtain ⟨rfl, rfl⟩ := Prod.mk.inj hr
    exact (Plain.after_ok hQ).2
  | remove key tid =>
    obtain ⟨hQ, -⟩ := Prod.mk.inj (Except.ok.inj h)
    exact (congrArg Plain.timeStamp hQ).symm
  | contains key =>
    obtain ⟨rfl, -⟩ := Prod.mk.inj (Except.ok.inj h)
    rfl

theorem empties_le (seed : BitVec 32) (P : Plain) (c : Call) :
    empties seed P c ≤ if c.removes = true ∧ P.timeStamp.toNat % 2 ^ 30 = 0 then 1 else 0 := by
  cases c with
  | remove key tid =>
    by_cases hts : P.timeStamp.toNat % 2 ^ 30 = 0
    · have hif : (if Call.removes (.remove key tid) = true ∧ P.timeStamp.toNat % 2 ^ 30 = 0 then 1
          else 0) = 1 := if_pos ⟨rfl, hts⟩
      rw [hif, empties]
      split_ifs
      · exact le_rfl
      · exact Nat.zero_le 1
    · have hne : ¬ (finalEntry P.timeStamp = 0#64 ∧
          (serialRemove seed P.words key (finalEntry P.timeStamp)).2 = true) :=
        fun h => hts (finalEntry_eq_zero.mp h.1)
      rw [empties, if_neg hne]
      exact Nat.zero_le _
  | add key | contains key => exact Nat.zero_le _

/-- Of the removals that follow, one in 2^30 draws the stamp 0. -/
theorem tally_empties_le (seed : BitVec 32) : ∀ (cs : List Call) (P : Plain),
    tally (serialCall seed) (empties seed) P cs + (if P.timeStamp.toNat % 2 ^ 30 = 0 then 0 else 1) ≤
      (P.timeStamp.toNat % 2 ^ 30 + cs.countP Call.removes + (2 ^ 30 - 1)) / 2 ^ 30
  | [], P => by
    simp only [tally, List.countP_nil]
    split_ifs <;> omega
  | c :: cs, P => by
    have hc := empties_le seed P c
    have hcount : (c :: cs).countP Call.removes =
        cs.countP Call.removes + if c.removes then 1 else 0 := List.countP_cons
    rw [hcount]
    cases he : serialCall seed P c with
    | error e =>
      have htally : tally (serialCall seed) (empties seed) P (c :: cs) = empties seed P c := by
        rw [tally, he]
        rfl
      rw [htally]
      by_cases hrem : c.removes = true
      · rw [if_pos hrem]
        split_ifs at hc ⊢ <;> omega
      · rw [if_neg fun h => hrem h.1] at hc
        rw [if_neg hrem]
        split_ifs <;> omega
    | ok y =>
      obtain ⟨Q, r⟩ := y
      have hrest := tally_empties_le seed cs Q
      have hts := serialCall_timeStamp he
      rw [tally_cons_ok he]
      by_cases hrem : c.removes = true
      · have hnext : Q.timeStamp.toNat % 2 ^ 30 = (P.timeStamp.toNat % 2 ^ 30 + 1) % 2 ^ 30 := by
          rw [hts, if_pos hrem, BitVec.toNat_add, BitVec.toNat_ofNat]
          omega
        rw [hnext] at hrest
        rw [if_pos hrem]
        split_ifs at hc hrest ⊢ <;> omega
      · have hnext : Q.timeStamp = P.timeStamp := by rw [hts, if_neg hrem]
        rw [hnext] at hrest
        rw [if_neg fun h => hrem h.1] at hc
        rw [if_neg hrem]
        omega

/-- In every run of one thread the used slots are as many as the adds of absent keys, but for
the slots emptied by a stamp 0, of which there is at most one for every 2^30 removals. So no
run adds an absent key more often than there are slots and such stamps, whatever it removes in
between. -/
theorem inserts_use_up_slots {ls : List (Label Call)} {s : State}
    (hr : (table seed).run ls fresh = some s) (hl : ∀ l ∈ ls, l.thread = 0)
    (hk : ∀ c ∈ begun ls, c.key ≠ 0#32) (ht : s.thr 0 = none) (hh : s.halt = none) :
    used (buckets s.mem) + emptied seed (begun ls) = inserted seed (begun ls) ∧
      emptied seed (begun ls) ≤
        ((begun ls).countP Call.removes + (2 ^ 30 - 1)) / 2 ^ 30 ∧
      inserted seed (begun ls) ≤
        Slots + ((begun ls).countP Call.removes + (2 ^ 30 - 1)) / 2 ^ 30 := by
  obtain ⟨P, hP, hm⟩ := (stands_run hr hl).of_idle ht hh
  have hbal := turns_used hk hP
  have hempty := tally_empties_le seed (begun ls) Plain.empty
  have hused := used_le (buckets s.mem)
  have hts : Plain.empty.timeStamp.toNat = 0 := rfl
  have hwords : buckets s.mem = P.words := (congrArg buckets hm).trans P.buckets_mem
  rw [used_empty, Nat.zero_add, ← hwords] at hbal
  rw [hts, Nat.zero_mod, if_pos rfl, Nat.add_zero, Nat.zero_add] at hempty
  rw [inserted, emptied]
  exact ⟨hbal, hempty, by omega⟩

set_option maxRecDepth 10000 in
theorem one_key_uses_up_a_slot : ∃ s, (table 1).run onceRun fresh = some s ∧
    used (buckets s.mem) + emptied 1 (begun onceRun) = inserted 1 (begun onceRun) ∧
    inserted 1 (begun onceRun) ≤ Slots + 1 := by
  have h : ((table 1).run onceRun fresh).any (fun s => decide (s.halt = none ∧
      (s.thr 0).isNone)) = true := by decide +kernel
  obtain ⟨s, hs, h⟩ := (Option.any_eq_true _ _).mp h
  obtain ⟨hh, ht⟩ := of_decide_eq_true h
  have hcount : (begun onceRun).countP Call.removes = 1 := by decide
  obtain ⟨h1, -, h3⟩ := inserts_use_up_slots hs (by decide) (by decide)
    (Option.isNone_iff_eq_none.mp ht) hh
  rw [hcount] at h3
  exact ⟨s, hs, h1, h3⟩

end LFHash
