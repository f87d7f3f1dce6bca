/-
# One thread, stamps and all

`Remove` stamps the slot it frees with its turn, and a later lookup may take the stamp for a
key. This is the only way in which the calls of one thread, one after the other, differ from
those on a set: no key of the set is ever missed, and a key that is not in it is found only
if it is less than the number of removals so far (and than 2^30). No condition on the run is
needed (`one_thread_misses_no_key`).

Key definitions: `Reflects`, `stamps`, `Faithful`.
Key theorems: `sink_inv`, `place_inv`, `Reflects.add`, `Reflects.remove`,
`one_thread_misses_no_key`.
-/
import LFHash.Capacity
import LFHash.Sequential

namespace LFHash

open Interleave Hopscotch

variable {seed : BitVec 32} {key : Key} {T T' L : ℕ → Word} {b i i' n n' : ℕ} {w fin : Word}
  {S : Key → Bool}

/-! ### An `add` as moves and a put -/

/-- What a move inside a window keeps, the relocations keep of the table without the free
slot, and they take that slot into the window above `b`. -/
theorem sink_inv {P : (ℕ → Word) → Prop}
    (hmove : ∀ L r l, P L → r < l → L l = 0#64 → Window (homeOf seed) HOP (L r) l →
      P (move 0#64 L r l)) :
    ∀ {n i : ℕ} {T : ℕ → Word}, b ≤ i → i < 2 ^ 32 → P (Function.update T i 0#64) →
      sink (pick seed) b n T i = some (T', i') →
      b ≤ i' ∧ i' ≤ b + HOP ∧ P (Function.update T' i' 0#64) := by
  intro n
  induction n with
  | zero =>
    intro i T _ _ _ h
    cases h
  | succ n ih =>
    intro i T hb hi hP h
    by_cases hnear : i ≤ b + HOP
    · rw [sink_here hnear] at h
      cases h
      exact ⟨hb, hnear, hP⟩
    · cases hp : pick seed T i with
      | none =>
        rw [sink_stuck hnear hp] at h
        cases h
      | some r =>
        rw [sink_moves hnear hp] at h
        have hpick : Picks seed T i r := (pick_eq_some (by omega)).mp hp
        have hr := hpick.near
        have hlt := hpick.below
        obtain ⟨h1, h2⟩ := (hopDist_lt_iff hi).mp hpick.fits
        have hTr : Function.update T i 0#64 r = T r := Function.update_of_ne (Nat.ne_of_lt hlt) _ _
        have hw : Window (homeOf seed) HOP (Function.update T i 0#64 r) i := by
          rw [hTr]
          exact ⟨h1, by omega⟩
        have hmoved := hmove _ r i hP hlt (Function.update_self ..) hw
        rw [move, hTr, Function.update_idem] at hmoved
        exact ih (by omega) (by omega) hmoved h

/-- A word is put into a slot of the window that moves have emptied. -/
theorem place_inv {P : (ℕ → Word) → Prop}
    (hmove : ∀ L r l, P L → r < l → L l = 0#64 → Window (homeOf seed) HOP (L r) l →
      P (move 0#64 L r l))
    (hb : b + ADD_RANGE ≤ 2 ^ 32) (hP : P T) (h : place (pick seed) b T w = .ok T') :
    ∃ L i, P L ∧ b ≤ i ∧ i ≤ b + HOP ∧ L i = 0#64 ∧ T' = Function.update L i w := by
  cases hd : firstSlot T b (ADD_RANGE - 1) 0#64 with
  | none =>
    rw [place_full hd] at h
    cases h
  | some d =>
    cases hs : sink (pick seed) b ADD_RANGE T (b + d) with
    | none =>
      rw [place_stuck hd hs] at h
      cases h
    | some x =>
      obtain ⟨T₁, i⟩ := x
      rw [place_at hd hs] at h
      obtain rfl := Except.ok.inj h
      obtain ⟨hlt, hz, -⟩ := firstSlot_eq_some.mp hd
      have hfree : Function.update T (b + d) 0#64 = T := Function.update_eq_self_iff.mpr hz.symm
      obtain ⟨h1, h2, hL⟩ := sink_inv hmove (Nat.le_add_right b d) (by omega)
        (by rwa [hfree]) hs
      exact ⟨_, i, hL, h1, h2, Function.update_self .., (Function.update_idem ..).symm⟩

/-! ### Tables and sets -/

theorem memberFrom_iff_stored (hT : ∀ i, tag (T i) = 0#64) :
    MemberFrom (homeOf seed) HOP T (entry key) 0 ↔ Stored seed T key := by
  rw [stored_iff_of_tag hT, ← member_entry]
  exact ⟨fun ⟨i, _, h⟩ => ⟨i, h⟩, fun ⟨i, h⟩ => ⟨i, Nat.zero_le i, h⟩⟩

/-- Every key of the set is in its window; the keys from `n` on are stored only if they are in
the set, at most once, and in their windows. -/
structure Reflects (seed : BitVec 32) (L : ℕ → Word) (S : Key → Bool) (n : ℕ) : Prop where
  kept : ∀ k ≠ 0#32, S k = true → MemberFrom (homeOf seed) HOP L (entry k) 0
  single : ∀ k ≠ 0#32, n ≤ k.toNat → Single (homeOf seed) HOP L (entry k)
  known : ∀ k ≠ 0#32, n ≤ k.toNat → Has L (entry k) → S k = true

namespace Reflects

theorem mono (h : Reflects seed L S n) (hn : n ≤ n') : Reflects seed L S n' :=
  ⟨h.kept, fun k hk hle => h.single k hk (hn.trans hle),
    fun k hk hle => h.known k hk (hn.trans hle)⟩

theorem moved {r l : ℕ} (h : Reflects seed L S n) (hlt : r < l) (hl : L l = 0#64)
    (hw : Window (homeOf seed) HOP (L r) l) : Reflects seed (move 0#64 L r l) S n where
  kept k hk hS := (h.kept k hk hS).move hlt hl (entry_ne_zero hk) fun he => he ▸ hw
  single k hk hle := (h.single k hk hle).move (Nat.ne_of_lt hlt) (entry_ne_zero hk)
    fun he => he ▸ hw
  known k hk hle hhas :=
    h.known k hk hle ((has_move (Nat.ne_of_lt hlt) hl (entry_ne_zero hk)).mp hhas)

theorem put (h : Reflects seed L S n) (hi : L i = 0#64)
    (hw : Window (homeOf seed) HOP (entry key) i) (hno : n ≤ key.toNat → ¬ Has L (entry key)) :
    Reflects seed (Function.update L i (entry key)) (Function.update S key true) n := by
  have hne : ∀ k ≠ 0#32, L i ≠ entry k := fun k hk0 he => entry_ne_zero hk0 (he.symm.trans hi)
  refine ⟨fun k hk0 hS => ?_, fun k hk0 hle => ?_, fun k hk0 hle hhas => ?_⟩ <;>
    by_cases hkk : k = key
  · subst hkk
    exact ⟨i, Nat.zero_le _, hw, Function.update_self ..⟩
  · rw [Function.update_of_ne hkk] at hS
    exact (h.kept k hk0 hS).put (hne k hk0)
  · subst hkk
    exact Single.insert (hno hle) hw
  · exact (h.single k hk0 hle).put fun he => hkk (entry_inj he).symm
  · rw [hkk, Function.update_self]
  · rw [Function.update_of_ne hkk]
    exact h.known k hk0 hle (has_of_put hhas fun he => hkk (entry_inj he))

/-- A key that is in its window is one of the set from now on. -/
theorem found (h : Reflects seed L S n) (hin : MemberFrom (homeOf seed) HOP L (entry key) 0) :
    Reflects seed L (Function.update S key true) n := by
  refine ⟨fun k hk0 hS => ?_, h.single, fun k hk0 hle hhas => ?_⟩ <;> by_cases hkk : k = key
  · rwa [hkk]
  · rw [Function.update_of_ne hkk] at hS
    exact h.kept k hk0 hS
  · rw [hkk, Function.update_self]
  · rw [Function.update_of_ne hkk]
    exact h.known k hk0 hle hhas

/-- A key is replaced by a word that is none of the keys from `n'` on. -/
theorem replaced (h : Reflects seed L S n) (hi : L i = entry key) (hn : n ≤ n')
    (hfin : ∀ k, n' ≤ k.toNat → fin ≠ entry k) :
    Reflects seed (Function.update L i fin) (Function.update S key false) n' := by
  refine ⟨fun k hk0 hS => ?_, fun k hk0 hle => ?_, fun k hk0 hle hhas => ?_⟩ <;>
    by_cases hkk : k = key
  · rw [hkk, Function.update_self] at hS
    cases hS
  · rw [Function.update_of_ne hkk] at hS
    exact (h.kept k hk0 hS).put fun he => hkk (entry_inj (hi.symm.trans he)).symm
  · exact (h.single k hk0 (hn.trans hle)).put (hfin k hle)
  · exact (h.single k hk0 (hn.trans hle)).put (hfin k hle)
  · subst hkk
    exact absurd hhas ((h.single k hk0 (hn.trans hle)).gone hi (hfin k hle))
  · rw [Function.update_of_ne hkk]
    exact h.known k hk0 (hn.trans hle) (has_of_put hhas (hfin k hle).symm)

/-- A key that is not in its window is none of the set. -/
theorem missed (h : Reflects seed L S n) (hk : key ≠ 0#32)
    (hno : ¬ MemberFrom (homeOf seed) HOP L (entry key) 0) : S key = false :=
  Bool.eq_false_iff.mpr fun hS => hno (h.kept key hk hS)

/-- An `add` stores its key, and moves the others inside their windows only. -/
theorem add (h : Reflects seed T S n) (hT : ∀ i, tag (T i) = 0#64) (hk : key ≠ 0#32)
    (hadd : serialAdd seed T key = .ok T') :
    Reflects seed T' (Function.update S key true) n := by
  rw [serialAdd] at hadd
  by_cases hs : Stored seed T key
  · rw [if_pos hs] at hadd
    obtain rfl := Except.ok.inj hadd
    exact h.found ((memberFrom_iff_stored hT).mpr hs)
  · rw [if_neg hs] at hadd
    have hh := home_lt seed key
    obtain ⟨L, i, ⟨hL, hno⟩, h1, h2, hz, rfl⟩ := place_inv
      (P := fun L => Reflects seed L S n ∧ (n ≤ key.toNat → ¬ Has L (entry key)))
      (fun L r l hP hlt hl hw => ⟨hP.1.moved hlt hl hw, fun hle hhas => hP.2 hle
        ((has_move (Nat.ne_of_lt hlt) hl (entry_ne_zero hk)).mp hhas)⟩)
      (by simp only [TotalBuckets, ADD_RANGE] at *; omega)
      ⟨h, fun hle hhas => hs ((memberFrom_iff_stored hT).mp
        (h.kept key hk (h.known key hk hle hhas)))⟩ hadd
    exact hL.put hz (window_entry.mpr ⟨h1, h2⟩) hno

/-- A removal takes its key away, and says so, if the set has it; it says otherwise only for a
key that a stamp can look like. -/
theorem remove (h : Reflects seed T S n) (hT : ∀ i, tag (T i) = 0#64) (hk : key ≠ 0#32)
    (hn : n ≤ n') (hfin : ∀ k : Key, n' ≤ k.toNat → fin ≠ entry k) :
    Reflects seed (serialRemove seed T key fin).1 (Function.update S key false) n' ∧
      (S key = true → (serialRemove seed T key fin).2 = true) ∧
      (n ≤ key.toNat → (serialRemove seed T key fin).2 = S key) := by
  rw [serialRemove]
  cases hd : firstSlot T (home seed key) (HOP + 1) (entry key) with
  | none =>
    rw [vacate_none hd]
    have hS : S key = false := by
      refine h.missed hk fun hin => ?_
      obtain ⟨p, hp, hi⟩ := (stored_iff_of_tag hT).mp ((memberFrom_iff_stored hT).mp hin)
      exact firstSlot_eq_none.mp hd p (Nat.lt_succ_of_le hp) hi
    have hsame : Function.update S key false = S := Function.update_eq_self_iff.mpr hS.symm
    rw [hsame, hS]
    exact ⟨h.mono hn, Bool.noConfusion, fun _ => rfl⟩
  | some d =>
    rw [vacate_some hd]
    obtain ⟨-, hi, -⟩ := firstSlot_eq_some.mp hd
    exact ⟨h.replaced hi hn hfin, fun _ => rfl, fun hle => (h.known key hk hle ⟨_, hi⟩).symm⟩

end Reflects

/-! ### Logs -/

/-- How many stamps there have been, no two of them alike: one for each removal up to 2^30. -/
def stamps (log : List (ℕ × Call × Bool)) : ℕ := min (log.countP fun e => e.2.1.removes) (2 ^ 30)

/-- No call has missed a key of the set, and a call whose key no stamp can look like has
answered as on the set. -/
def Faithful : List (ℕ × Call × Bool) → Prop
  | [] => True
  | (_, c, b) :: log => (answer log c = true → b = true) ∧
      (stamps log ≤ c.key.toNat → b = answer log c) ∧ Faithful log

/-- The table after the calls of a log. -/
structure Plain.Mirrors (seed : BitVec 32) (P : Plain) (log : List (ℕ × Call × Bool)) : Prop where
  reflects : Reflects seed P.words (members log) (stamps log)
  turn : P.timeStamp.toNat % 2 ^ 30 = (log.countP fun e => e.2.1.removes) % 2 ^ 30
  faithful : Faithful log

variable {log : List (ℕ × Call × Bool)} {t : ℕ} {bo : Bool}

theorem members_add :
    members ((t, .add key, bo) :: log) = Function.update (members log) key true := by
  funext k
  rw [Function.update_apply]
  rfl

theorem members_remove {tid : ℤ} :
    members ((t, .remove key tid, bo) :: log) = Function.update (members log) key false := by
  funext k
  rw [Function.update_apply]
  rfl

theorem Plain.mirrors_empty : Plain.empty.Mirrors seed [] where
  reflects :=
    { kept := fun _ _ h => Bool.noConfusion h
      single := fun _ hk _ => ⟨fun _ hi => absurd hi.symm (entry_ne_zero hk),
        fun _ _ hi => absurd hi.symm (entry_ne_zero hk)⟩
      known := fun _ hk _ ⟨_, hi⟩ => absurd hi.symm (entry_ne_zero hk) }
  turn := rfl
  faithful := trivial

variable {P Q : Plain} {c : Call} {r : Call × Bool}

/-- A stamp is no key from its turn on. -/
theorem finalEntry_ne_entry {ts : Word} {m : ℕ} (h : ts.toNat % 2 ^ 30 = m % 2 ^ 30) (k : Key)
    (hk : min (m + 1) (2 ^ 30) ≤ k.toNat) : finalEntry ts ≠ entry k := by
  intro he
  have hnat := congrArg BitVec.toNat he
  rw [toNat_finalEntry, toNat_entry, h] at hnat
  omega

theorem Plain.Mirrors.call (h : P.Mirrors seed log) (hk : c.key ≠ 0#32)
    (hc : serialCall seed P c = .ok (Q, r)) : Q.Mirrors seed ((t, r) :: log) := by
  cases c with
  | add key =>
    obtain ⟨Q', hQ, hr⟩ := map_ok hc
    obtain ⟨rfl, rfl⟩ := Prod.mk.inj hr
    obtain ⟨hw, hts⟩ := Plain.after_ok hQ
    refine ⟨?_, hts ▸ h.turn, fun _ => rfl, fun _ => rfl, h.faithful⟩
    rw [members_add]
    exact h.reflects.add P.untagged hk hw
  | remove key tid =>
    obtain ⟨rfl, rfl⟩ := Prod.mk.inj (Except.ok.inj hc)
    have hcount : ((t, Call.remove key tid, (serialRemove seed P.words key
        (finalEntry P.timeStamp)).2) :: log).countP (fun e => e.2.1.removes) =
        log.countP (fun e => e.2.1.removes) + 1 := List.countP_cons_of_pos rfl
    obtain ⟨hrefl, hhit, hexact⟩ := h.reflects.remove P.untagged hk
      (show _ ≤ min (log.countP (fun e => e.2.1.removes) + 1) (2 ^ 30) by rw [stamps]; omega)
      (finalEntry_ne_entry h.turn)
    refine ⟨?_, ?_, hhit, hexact, h.faithful⟩
    · rw [members_remove, stamps, hcount]
      exact hrefl
    · rw [hcount]
      have hturn := h.turn
      show (P.timeStamp + 1#64).toNat % 2 ^ 30 = _
      rw [BitVec.toNat_add, BitVec.toNat_ofNat]
      omega
  | contains key =>
    obtain ⟨rfl, rfl⟩ := Prod.mk.inj (Except.ok.inj hc)
    refine ⟨h.reflects, h.turn, fun hS => ?_, fun hle => ?_, h.faithful⟩
    · exact decide_eq_true ((memberFrom_iff_stored P.untagged).mp (h.reflects.kept key hk hS))
    · rw [Bool.eq_iff_iff, decide_eq_true_iff, ← memberFrom_iff_stored P.untagged]
      exact ⟨fun ⟨i, _, _, hi⟩ => h.reflects.known key hk hle ⟨i, hi⟩, h.reflects.kept key hk⟩

theorem Plain.Mirrors.turns {cs : List Call} {log' : List (ℕ × Call × Bool)}
    (h : P.Mirrors seed log) (hk : ∀ c ∈ cs, c.key ≠ 0#32)
    (hc : turns (serialCall seed) t (P, log) cs = .ok (Q, log')) : Q.Mirrors seed log' :=
  turns_inv (I := Plain.Mirrors seed) (Q := fun c => c.key ≠ 0#32)
    (fun _ _ _ _ _ hck hI he => hI.call hck he) hk h hc

/-! ### Runs -/

theorem mem_begun {ls : List (Label Call)} : c ∈ begun ls ↔ ∃ t, .call t c ∈ ls := by
  rw [begun, List.mem_filterMap]
  constructor
  · rintro ⟨l, hl, he⟩
    cases l with
    | call t c' =>
      obtain rfl : c' = c := Option.some.inj he
      exact ⟨t, hl⟩
    | move t => cases he
  · exact fun ⟨t, h⟩ => ⟨_, h, rfl⟩

/-- In every run of one thread, no call misses a key of the set of the keys added and not
removed since. A call answers otherwise than on this set only if its key is less than the
number of removals so far, and than 2^30; and between calls the same goes for what a lookup
would find. -/
theorem one_thread_misses_no_key {ls : List (Label Call)} {s : State}
    (hr : (table seed).run ls fresh = some s) (hl : ∀ l ∈ ls, l.thread = 0 ∧ NonZero l) :
    Faithful s.log ∧ (s.thr 0 = none → s.halt = none → ∀ k ≠ 0#32,
      (members s.log k = true → Stored seed (buckets s.mem) k) ∧
        (stamps s.log ≤ k.toNat → Stored seed (buckets s.mem) k → members s.log k = true)) := by
  have hk : ∀ c ∈ begun ls, c.key ≠ 0#32 := by
    intro c hc
    obtain ⟨t, ht⟩ := mem_begun.mp hc
    exact (hl _ ht).2
  have hstands := stands_run hr fun l h => (hl l h).1
  refine ⟨?_, fun ht hh k hk0 => ?_⟩
  · obtain ⟨cs, P, hpre, hP⟩ := hstands.answered
    exact (Plain.mirrors_empty.turns (fun c hc => hk c (hpre.subset hc)) hP).faithful
  · obtain ⟨P, hP, hm⟩ := hstands.of_idle ht hh
    have h := (Plain.mirrors_empty.turns hk hP).reflects
    have hw : buckets s.mem = P.words := (congrArg buckets hm).trans P.buckets_mem
    rw [hw, ← memberFrom_iff_stored P.untagged]
    exact ⟨h.kept k hk0, fun hle ⟨i, _, _, hi⟩ => h.known k hk0 hle ⟨i, hi⟩⟩

set_option maxRecDepth 10000 in
/-- In `stampRun` the key 1 is found after it has been removed twice. -/
theorem stamped_run_misses_no_key : ∃ s, (table 1).run stampRun fresh = some s ∧
    s.log.head? = some (0, (.contains 1, true)) ∧ Faithful s.log ∧
    ∀ k ≠ 0#32, stamps s.log ≤ k.toNat → Stored 1 (buckets s.mem) k → members s.log k = true := by
  have h : ((table 1).run stampRun fresh).any (fun s => decide (s.halt = none ∧
      (s.thr 0).isNone ∧ s.log.head? = some (0, (.contains 1, true)))) = true := by decide +kernel
  obtain ⟨s, hs, h⟩ := (Option.any_eq_true _ _).mp h
  obtain ⟨hh, h0, hhead⟩ := of_decide_eq_true h
  obtain ⟨hlog, hset⟩ := one_thread_misses_no_key hs (by decide)
  exact ⟨s, hs, hhead, hlog, fun k hk => (hset (Option.isNone_iff_eq_none.mp h0) hh k hk).2⟩

end LFHash
