/-
# A key is stored once

`add` looks its key up, and inserts it much later without looking again. If
every insertion of a key finds the other adds of that key still in their lookups,
at slots they have yet to read (`Alerted`), then no key is stored twice, and a
removal that returns true removes the key for good. Two adds of one key that both
finish their lookups first store it twice.

Key definitions: `Alerted`, `ApartSteps`, `Add.Unseen`, `Sole`.
Key theorems: `Sole.move`, `added_keys_stored_once`.
-/
import LFHash.Inserts
import LFHash.Removal

namespace LFHash

open Interleave Hopscotch

variable {seed : BitVec 32}

/-- The lookup has found the key, or has yet to read the slot at offset `p`. -/
def Add.Ahead (p : ℕ) : Add → Prop
  | .contains sc => sc.cxx ≠ 0#64 ∨ sc.p ≤ p
  | _ => False

/-- When line 123 inserts a key, every other `add` of that key will still see it. -/
def Alerted (seed : BitVec 32) (s : State) : Label Call → Prop
  | .call _ _ => True
  | .move t => ∀ key tg c p, s.thr t = some (.add key (.insert (.claim tg c p))) →
      buckets s.mem (home seed key + p) = tg →
      ∀ u ≠ t, ∀ q, s.thr u = some (.add key q) → q.Ahead p

/-- A step of a run of adds in which adds of one key do not get past each other. -/
def ApartSteps (seed : BitVec 32) (s : State) (l : Label Call) : Prop :=
  NearSteps seed s l ∧ Alerted seed s l

/-- What an `add` knows of its key: so far it has seen no copy, or there is none. -/
def Add.Unseen (seed : BitVec 32) (L : ℕ → Word) (key : Key) : Add → Prop
  | .contains sc => sc.cxx = 0#64 → ∀ i, L i = entry key → home seed key + sc.p ≤ i
  | _ => ¬ Has L (entry key)

theorem Add.Past.unseen_iff {L : ℕ → Word} {key : Key} {q : Add} (h : q.Past) :
    q.Unseen seed L key ↔ ¬ Has L (entry key) := by
  cases q with
  | contains sc => exact h.elim
  | probe | reserve | relocate | loadExp | release | insert => exact Iff.rfl

theorem Add.Past.not_ahead {q : Add} {p : ℕ} (h : q.Past) : ¬ q.Ahead p := by
  cases q with
  | contains sc => exact h.elim
  | probe | reserve | relocate | loadExp | release | insert => exact id

/-- In a run of adds, every key is stored at most once, in its window, and an `add`
that is past its lookup adds a key that is not stored. -/
structure Sole (seed : BitVec 32) (s : State) (L : ℕ → Word) : Prop extends
    Adding seed s L where
  placed : Placed (homeOf seed) HOP 0#64 L
  distinct : Distinct 0#64 L
  unseen : ∀ t key q, s.thr t = some (.add key q) → q.Unseen seed L key

namespace Sole

variable {s s' : State} {L L' : ℕ → Word} {t : ℕ}

theorem fresh : Sole seed fresh fun _ => 0#64 where
  toAdding := Adding.fresh
  placed _ h := absurd rfl h
  distinct _ _ h := absurd rfl h
  unseen _ _ _ h := by cases h

/-- Every copy of a key is at its home or above. -/
theorem home_le (h : Placed (homeOf seed) HOP 0#64 L) {key : Key} (hk : key ≠ 0#32) {i : ℕ}
    (hi : L i = entry key) : home seed key ≤ i ∧ i ≤ home seed key + HOP := by
  have hw := h i (by rw [hi]; exact entry_ne_zero hk)
  rwa [hi, window_entry] at hw

theorem call {c : Call} (h : Sole seed s L) (hl : Inserting (.call t c))
    (hs : (table seed).step s (.call t c) = some s') : Sole seed s' L := by
  obtain ⟨hA, key, rfl, hk⟩ := h.toAdding.call hl hs
  obtain ⟨-, ht, rfl⟩ := Machine.step_call.mp hs
  refine ⟨hA, h.placed, h.distinct, fun u key' q hu => ?_⟩
  by_cases hut : u = t
  · subst hut
    simp only [Function.update_self, Option.some.injEq] at hu
    cases hu
    intro _ i hi
    rw [Scan.start, Nat.add_zero]
    exact (home_le h.placed hk hi).1
  · exact h.unseen u key' q (by simpa [Function.update_of_ne hut] using hu)

/-- The access of an `add` that goes on: it has read one slot more, or its lookup
is over and has seen no copy. -/
theorem unseen_goto {key : Key} {q q' : Add} (h : Sole seed s L)
    (hp : s.thr t = some (.add key q)) (hk : key ≠ 0#32)
    (hf : addFlow seed key s.mem q = .goto q')
    (hback : ∀ i, L' i = entry key → ∃ j, j ≤ i ∧ L j = entry key) : q'.Unseen seed L' key := by
  have hu := h.unseen t key q hp
  have hpast : q.Past → ¬ Has L' (entry key) := by
    rintro hq ⟨i, hi⟩
    obtain ⟨j, -, hj⟩ := hback i hi
    exact (hq.unseen_iff.mp hu) ⟨j, hj⟩
  -- a read that leaves `cxx` empty has not seen the key at its slot
  have hread : ∀ sc, q = .contains sc → sc.read seed (buckets s.mem) key = 0#64 →
      ∀ i, L i = entry key → home seed key + (sc.p + 1) ≤ i := by
    rintro sc rfl hr i hi
    have hle : sc.p ≤ HOP := h.inv.ok t _ hp
    have hn : ¬ (sc.cxx ≠ 0#64 ∨ Hit (buckets s.mem) key (home seed key + sc.p)) :=
      fun h => (read_ne_zero hle).mpr h hr
    push Not at hn
    have h1 := hu hn.1 i hi
    have h2 : i ≠ home seed key + sc.p := by
      rintro rfl
      refine hn.2 ?_
      rw [Hit, ← hi]
      exact h.inv.sim.read (by rw [hi]; exact entry_ne_zero hk)
    omega
  rcases add_goto hf with ⟨sc, rfl, -, rfl⟩ | ⟨hq', hend⟩
  · intro hc i hi
    obtain ⟨j, hji, hj⟩ := hback i hi
    exact (hread sc rfl hc j hj).trans hji
  · rw [hq'.unseen_iff]
    cases hq : q with
    | contains sc =>
      rintro ⟨i, hi⟩
      obtain ⟨j, -, hj⟩ := hback i hi
      obtain ⟨hp', hr⟩ := hend sc hq
      have h1 := hread sc hq hr j hj
      have h2 := home_le h.placed hk hj
      omega
    | probe | reserve | relocate | loadExp | release | insert => exact hpast (by rw [hq]; trivial)

theorem move (h : Sole seed s L) (hq : ApartSteps seed s (.move t))
    (hs : (table seed).step s (.move t) = some s') (hh : s'.halt = none) :
    ∃ L', Sole seed s' L' := by
  obtain ⟨key, q, L', hp, hk, hA, ha⟩ := h.toAdding.move hq.1 hs hh
  refine ⟨L', hA, ha.placed h.inv hp (h.suited t) h.placed,
    ha.distinct h.inv hp (fun q' e => ?_) h.distinct, fun u key' q' hu => ?_⟩
  · subst e
    exact h.unseen t key _ hp
  · obtain rfl := Machine.eq_advance hp hs
    rw [Machine.advance_thr hh] at hu
    by_cases hut : u = t
    · subst hut
      rw [Function.update_self] at hu
      obtain ⟨q'', hf, e⟩ := next_add_eq_some.mp hu
      cases e
      refine h.unseen_goto hp hk hf fun i hi => ?_
      rcases ha.above h.inv hp (entry_ne_zero hk) hi with hj | ⟨hn, -⟩
      · exact hj
      · rw [next_of_addFlow hf] at hn
        cases hn
    · rw [Function.update_of_ne hut] at hu
      obtain ⟨key'', q'', e, hk'⟩ := h.adds u _ hu
      cases e
      have hus := h.unseen u key' q' hu
      -- a copy that was not there is the one line 123 has written
      have hback : ∀ i, L' i = entry key' →
          (∃ j, j ≤ i ∧ L j = entry key') ∨ ∃ p, i = home seed key' + p ∧ q'.Ahead p := by
        intro i hi
        rcases ha.above h.inv hp (entry_ne_zero hk') hi with hj | ⟨-, e, tg, c, p, rfl, hT, hip⟩
        · exact Or.inl hj
        · obtain rfl := entry_inj e
          exact Or.inr ⟨p, hip, hq.2 key' tg c p hp hT u hut q' hu⟩
      cases hq' : q' with
      | contains sc =>
        rw [hq'] at hus hback
        intro hc i hi
        rcases hback i hi with ⟨j, hji, hj⟩ | ⟨p, rfl, hc' | hle⟩
        · exact (hus hc j hj).trans hji
        · exact absurd hc hc'
        · omega
      | probe | reserve | relocate | loadExp | release | insert =>
        have hpast : q'.Past := by rw [hq']; trivial
        rw [← hq', hpast.unseen_iff]
        rintro ⟨i, hi⟩
        rcases hback i hi with ⟨j, -, hj⟩ | ⟨p, -, hp'⟩
        · exact hpast.unseen_iff.mp hus ⟨j, hj⟩
        · exact hpast.not_ahead hp'

/-- Between operations no slot carries a tag. -/
theorem idle (h : Sole seed s L) (hidle : ∀ t, s.thr t = none) : buckets s.mem = L := by
  funext i
  refine h.inv.sim.agree i fun t => ?_
  rw [hidle t]
  exact id

end Sole

/-- In a run of adds whose insertions alert the other adds of their key, between
operations every key is stored at most once; and if `Remove`, run alone, returns
true with another stamp, `contains` no longer finds the key. -/
theorem added_keys_stored_once {ls : List (Label Call)} {s : State}
    (hr : (table seed).run ls fresh = some s)
    (hq : (table seed).Along (ApartSteps seed) ls fresh) (hh : s.halt = none)
    (hidle : ∀ t, s.thr t = none) {key : Key} (hk : key ≠ 0#32) :
    (∀ i j, Hit (buckets s.mem) key i → Hit (buckets s.mem) key j → i = j) ∧
    ∀ t tid n s₁, (table seed).run (alone t (.remove key tid) n) s = some s₁ →
      s₁.halt = none → s₁.log = (t, (.remove key tid, true)) :: s.log →
      (s.mem .timeStamp).toNat % 2 ^ 30 ≠ key.toNat →
      ∀ u, (table seed).run (alone u (.contains key) (HOP + 1)) s₁ =
        some { s₁ with log := (u, (.contains key, false)) :: s₁.log } := by
  have hinv := Machine.run_inv (P := fun s => s.halt = none → ∃ L, Sole seed s L) ?_
    (fun _ => ⟨_, Sole.fresh⟩) hq hr hh
  · obtain ⟨L, hL⟩ := hinv
    have hT := hL.idle hidle
    have htag : ∀ i, tag (buckets s.mem i) = 0#64 := fun i => by
      rw [hT]; exact hL.inv.sim.untagged i
    have hplain : ∀ i, Hit (buckets s.mem) key i → L i = entry key := by
      intro i hit
      rw [← hT]
      exact (hit_iff_of_tag (htag i)).mp hit
    have hone : ∀ i j, L i = entry key → L j = entry key → i = j := fun i j hi hj =>
      hL.distinct i j (by rw [hi]; exact entry_ne_zero hk) (hi.trans hj.symm)
    refine ⟨fun i j hi hj => hone i j (hplain i hi) (hplain j hj), ?_⟩
    intro t tid n s₁ hr₁ hh₁ hlog hts u
    obtain ⟨ho, hthr⟩ := remove_alone htag hr₁ hh₁ hlog
    rw [contains_alone hh₁ (by rw [hthr]; exact hidle u), decide_eq_false]
    have htag' := Outcome.untagged ho htag (tag_finalEntry _)
    rcases ho with ⟨-, p, hp, hTp, hT'⟩ | ⟨hfalse, -⟩
    · rintro ⟨r, hr, hit⟩
      rw [hit_iff_of_tag (htag' _), hT'] at hit
      by_cases hrp : home seed key + r = home seed key + p
      · rw [hrp, Function.update_self, ← BitVec.toNat_inj, toNat_finalEntry,
          toNat_entry] at hit
        exact hts hit
      · rw [Function.update_of_ne hrp, hT] at hit
        rw [hT] at hTp
        exact hrp (hone _ _ hit hTp)
    · cases hfalse
  · rintro s l s' hP hq hs hh'
    obtain ⟨L, hL⟩ := hP (Machine.halt_of_step hs)
    cases l with
    | call t c => exact ⟨L, hL.call hq.1.1 hs⟩
    | move t => exact hL.move hq hs hh'

instance (p : ℕ) : DecidablePred (Add.Ahead p)
  | .contains sc => inferInstanceAs (Decidable (sc.cxx ≠ 0#64 ∨ sc.p ≤ p))
  | .probe _ _ _ | .reserve _ _ _ | .relocate _ _ | .loadExp _ | .release _ _ | .insert _ =>
    isFalse id

/-- The key a thread inserts at line 123, the slot's offset, and the word expected there. -/
def Pc.inserts? : Pc → Option (Key × ℕ × Word)
  | .add key (.insert (.claim tg _ p)) => some (key, p, tg)
  | _ => none

/-- If the first thread's insertion goes through, the second one, in an `add` of that key, will
still see it. -/
abbrev WillSee (seed : BitVec 32) (m : Cell → Word) (p q : Pc) : Prop :=
  ∀ x ∈ p.inserts?, ∀ y ∈ q.adds?, y.1 = x.1 → buckets m (home seed x.1 + x.2.1) = x.2.2 →
    y.2.Ahead x.2.1

theorem Alerted.of_towards {s : State} {l : Label Call} (h : Towards (WillSee seed) s l) :
    Alerted seed s l := by
  cases l with
  | call t c => trivial
  | move t =>
    intro key tg c p hp hT u hu q hq
    exact h _ hp u hu _ hq (key, p, tg) rfl (key, q) rfl rfl hT

/-- Thread 2 has filled slot 1000. Thread 1 has read it when thread 0 inserts the key at slot
1001, and then reads it there. -/
def sameKeyRun : List (Label Call) :=
  alone 2 (.add 12749043) 23 ++ [.call 0 (.add 56200813), .call 1 (.add 56200813), .move 1] ++
    List.replicate 25 (.move 0) ++ List.replicate 16 (.move 1)

set_option maxRecDepth 10000 in
theorem same_key_stored_once : ∃ s, (table 1).run sameKeyRun fresh = some s ∧
    ∀ i j, Hit (buckets s.mem) 56200813 i → Hit (buckets s.mem) 56200813 j → i = j := by
  have h : ((table 1).run sameKeyRun fresh).any (fun s => decide (s.halt = none ∧
      ∀ t ∈ ([0, 1, 2] : List ℕ), (s.thr t).isNone)) = true := by decide +kernel
  obtain ⟨s, hs, h⟩ := (Option.any_eq_true _ _).mp h
  obtain ⟨hh, h0⟩ := of_decide_eq_true h
  have hq : (table 1).Along (fun s l => (NearSteps 1 s l ∧ TowardsAmong [0, 1, 2] (WillSee 1) s l) ∧
      l.thread ∈ [0, 1, 2]) sameKeyRun fresh := by decide +kernel
  have hidle := Machine.idle_of_run hs (fun _ => rfl) (by decide +kernel) h0
  exact ⟨s, hs, (added_keys_stored_once hs ((along_towards hq).mono
    fun _ _ _ _ h => ⟨h.1, .of_towards h.2⟩) hh hidle (by decide)).1⟩

/-! ### A key stored twice

Thread 1 has looked up key 1 when thread 2 adds it. -/

def twiceRun : List (Label Call) :=
  alone 1 (.add 1) 17 ++ alone 2 (.add 1) 23 ++ List.replicate 8 (.move 1)

set_option maxRecDepth 10000 in
theorem same_key_stored_twice : ∃ s, (table 1).run twiceRun fresh = some s ∧
    (∀ l ∈ twiceRun, Inserting l) ∧ s.halt = none ∧ (∀ t, s.thr t = none) ∧
    (Hit (buckets s.mem) 1 (home 1 1) ∧ Hit (buckets s.mem) 1 (home 1 1 + 1)) ∧
    (s.mem .timeStamp).toNat % 2 ^ 30 ≠ 1 ∧
    ∃ s₁, (table 1).run (alone 1 (.remove 1 0) 69) s = some s₁ ∧
      s₁.log = (1, (.remove 1 0, true)) :: s.log ∧ Stored 1 (buckets s₁.mem) 1 := by
  have h : ((table 1).run twiceRun fresh).any (fun s => decide (s.halt = none ∧
      (∀ t ∈ ([1, 2] : List ℕ), (s.thr t).isNone) ∧
      (Hit (buckets s.mem) 1 (home 1 1) ∧ Hit (buckets s.mem) 1 (home 1 1 + 1)) ∧
      (s.mem .timeStamp).toNat % 2 ^ 30 ≠ 1 ∧
      ((table 1).run (alone 1 (.remove 1 0) 69) s).any (fun s₁ => decide (
        s₁.log = (1, (.remove 1 0, true)) :: s.log ∧ Stored 1 (buckets s₁.mem) 1)) = true)) =
      true := by decide +kernel
  obtain ⟨s, hs, h⟩ := (Option.any_eq_true _ _).mp h
  obtain ⟨hh, h1, hit, hts, h2⟩ := of_decide_eq_true h
  obtain ⟨s₁, hs₁, h3⟩ := (Option.any_eq_true _ _).mp h2
  exact ⟨s, hs, by decide +kernel, hh, Machine.idle_of_run hs (fun _ => rfl) (by decide +kernel) h1,
    hit, hts, s₁, hs₁, of_decide_eq_true h3⟩

end LFHash
