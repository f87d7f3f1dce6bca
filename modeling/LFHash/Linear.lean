/-
# The table is a linearizable set

Any number of threads add, remove and look up keys. In a run that is orderly on a set `K`
of keys, the calls on these keys, as they begin and return, are those of an atomic set:
each takes effect at one moment between its beginning and its return. An `add` does so
when line 123 writes its key, a `Remove` when line 253 takes it. A call without an effect
has met its answer at a moment it cannot name: a lookup that returns false, and a `Remove`
that does, may have passed the key's slot before the key came, so the table follows the
set that is watched.

Key definitions: `keySet`, `Pc.Recalls`, `Pc.Stage`, `Follows`.
Key theorems: `Follows.call`, `Follows.matches_contains`, `Follows.matches_add`,
`Follows.matches_remove`, `Follows.move`, `keys_linearizable`.
-/
import LFHash.Atomic
import LFHash.Upkeep
import LFHash.Removal

namespace LFHash

open Interleave Hopscotch

variable {seed : BitVec 32} {K : Key → Prop}

/-! ### The set -/

/-- A set of keys, as a sequential object. -/
def keySet : Object Call (Call × Bool) (Key → Bool)
  | .add key, S => (Function.update S key true, (.add key, true))
  | .remove key tid, S => (Function.update S key false, (.remove key tid, S key))
  | .contains key, S => (S, (.contains key, S key))

variable {S : Key → Bool} {key : Key}

theorem add_same (h : S key = true) : keySet (.add key) S = (S, (.add key, true)) := by
  show (Function.update S key true, (Call.add key, true)) = (S, (Call.add key, true))
  rw [← h, Function.update_eq_self]

theorem remove_same (h : S key = false) (tid : ℤ) :
    keySet (.remove key tid) S = (S, (.remove key tid, false)) := by
  show (Function.update S key false, (Call.remove key tid, S key)) = (S, (.remove key tid, false))
  rw [← h, Function.update_eq_self]

theorem contains_same {b : Bool} (h : S key = b) :
    keySet (.contains key) S = (S, (.contains key, b)) := by
  simp only [keySet, h]

/-- Without its key in the set, a lookup or a removal answers false and changes nothing. -/
theorem false_same {c : Call} (hc : ∀ key, c ≠ .add key) (h : S c.key = false) :
    keySet c S = (S, (c, false)) := by
  cases c with
  | add key => exact absurd rfl (hc key)
  | remove key tid => exact remove_same h tid
  | contains key => exact contains_same h

/-- The key an event is about. -/
def eventKey : Event Call (Call × Bool) → Key
  | .call _ c => c.key
  | .ret _ r => r.1.key

/-- An event, if it is about a key of `K`. -/
def viewOf (K : Key → Prop) [DecidablePred K] :
    Event Call (Call × Bool) → Option (Event Call (Call × Bool)) :=
  Option.guard fun e => decide (K (eventKey e))

/-! ### What a call knows -/

/-- The call is a removal that has erased its key. -/
def Pc.erased : Pc → Bool
  | .remove _ _ q => q.erased
  | .add _ _ | .contains _ _ => false

/-- The marked slots hold the key; if none is marked, the key is at offset `n` or above. -/
def Trail (seed : BitVec 32) (L : ℕ → Word) (key : Key) (n : ℕ) (cxx : Word) : Prop :=
  (∀ q < 64, cxx.getLsbD q = true → L (home seed key + q) = entry key) ∧
    (cxx ≠ 0#64 ∨ MemberFrom (homeOf seed) HOP L (entry key) (home seed key + n))

theorem Trail.mark {L : ℕ → Word} {n : ℕ} {cxx : Word} (h : Trail seed L key n cxx) (hn : n < 64)
    (hL : L (home seed key + n) = entry key) : Trail seed L key (n + 1) (setBit cxx n) := by
  refine ⟨fun q hq hbit => ?_, Or.inl (setBit_ne_zero hn)⟩
  rw [getLsbD_setBit hq, Bool.or_eq_true, decide_eq_true_iff] at hbit
  rcases hbit with hbit | rfl
  · exact h.1 q hq hbit
  · exact hL

theorem Trail.skip {L : ℕ → Word} {n : ℕ} {cxx : Word} (h : Trail seed L key n cxx)
    (hL : L (home seed key + n) ≠ entry key) : Trail seed L key (n + 1) cxx := by
  refine ⟨h.1, h.2.imp id ?_⟩
  rintro ⟨i, hn, hw, hi⟩
  have hne : i ≠ home seed key + n := fun e => hL (e ▸ hi)
  exact ⟨i, by omega, hw, hi⟩

/-- At the end of its scan a removal stands at a slot with its key. -/
theorem Trail.first {L : ℕ → Word} {n : ℕ} {cxx : Word} (h : Trail seed L key n cxx) (hn : HOP < n) :
    L (home seed key + findFirst cxx) = entry key := by
  rcases h.2 with hc | ⟨i, hi, hw, -⟩
  · obtain ⟨q, hq, hbit⟩ := exists_bit hc
    exact h.1 _ (findFirst_lt cxx) (getLsbD_findFirst hq hbit)
  · have := (window_entry.mp hw).2
    omega

/-- A `Remove` that has not taken its key has seen the set without it, or is still after it. -/
def Remove.Recalls (seed : BitVec 32) (key : Key) (tid : ℤ) (L : ℕ → Word)
    (seen : Set (Call × Bool)) : Remove → Prop
  | .stamp => True
  | .testKey _ s => (.remove key tid, false) ∈ seen ∨ Trail seed L key s.p s.cxx
  | .testMoving _ s => (.remove key tid, false) ∈ seen ∨ Trail seed L key (s.p + 1) s.cxx
  | .removeKey _ i1 _ => (.remove key tid, false) ∈ seen ∨ L (home seed key + i1) = entry key
  | .removeMoving _ _ _ | .loadSlot _ _ | .testSlot _ _ _ | .poison _ _ _ =>
    (.remove key tid, false) ∈ seen

/-- A lookup that has found its key has seen the set with it; one that has not has seen the
set without it, or the key is ahead of it. -/
def Pc.Recalls (seed : BitVec 32) (L : ℕ → Word) (seen : Set (Call × Bool)) : Pc → Prop
  | .add key (.contains sc) => sc.cxx ≠ 0#64 → (.add key, true) ∈ seen
  | .add _ _ => True
  | .contains key sc => (sc.cxx ≠ 0#64 → (.contains key, true) ∈ seen) ∧
      (sc.cxx ≠ 0#64 ∨ (.contains key, false) ∈ seen ∨
        MemberFrom (homeOf seed) HOP L (entry key) (home seed key + sc.p))
  | .remove key tid q => q.Recalls seed key tid L seen

/-- Where the watched set has a thread that stands at `p`. -/
def Pc.Stage (seed : BitVec 32) (L : ℕ → Word) (p : Pc) (w : Watch Call (Call × Bool)) : Prop :=
  (p.erased = true ∧ w = .done (p.call, true)) ∨
    (p.erased = false ∧ ∃ seen, w = .running p.call seen ∧ p.Recalls seed L seen)

variable {L L' : ℕ → Word} {seen seen' : Set (Call × Bool)} {p : Pc}

theorem Add.Past.recalls {q : Add} (h : q.Past) : (Pc.add key q).Recalls seed L seen := by
  cases q with
  | contains sc => exact h.elim
  | probe | reserve | relocate | loadExp | release | insert => trivial

theorem recalls_nextScan {tid : ℤ} {cxx : Word} {n : ℕ} (final : Word)
    (h : (.remove key tid, false) ∈ seen ∨ Trail seed L key (n + 1) cxx) :
    (Remove.nextScan final n cxx).erased = false ∧
      (Remove.nextScan final n cxx).Recalls seed key tid L seen := by
  unfold Remove.nextScan
  split_ifs with hn
  · exact ⟨rfl, h⟩
  · exact ⟨rfl, h.imp id fun ht => ht.first (by omega)⟩

/-- A call that was seen to have the key gone knows enough. -/
theorem Pc.Recalls.lost (h : p.Recalls seed L seen) (hs : seen ⊆ seen')
    (hno : (∀ key, p.call ≠ .add key) → (p.call, false) ∈ seen') : p.Recalls seed L' seen' := by
  rcases p with ⟨key, a⟩ | ⟨key, tid, q⟩ | ⟨key, sc⟩
  · cases a with
    | contains sc => exact fun hc => hs (h hc)
    | probe | reserve | relocate | loadExp | release | insert => trivial
  · have hm : (Call.remove key tid, false) ∈ seen' := hno fun _ e => by cases e
    cases q with
    | stamp => trivial
    | testKey | testMoving | removeKey => exact Or.inl hm
    | removeMoving | loadSlot | testSlot | poison => exact hm
  · have hm : (Call.contains key, false) ∈ seen' := hno fun _ e => by cases e
    exact ⟨fun hc => hs (h.1 hc), Or.inr (Or.inl hm)⟩

/-- What a call knows stays so while its key does not move down and leaves no marked slot. -/
theorem Pc.Recalls.kept (h : p.Recalls seed L seen) (hs : seen ⊆ seen')
    (hfrom : ∀ n, MemberFrom (homeOf seed) HOP L (entry p.call.key) n →
      MemberFrom (homeOf seed) HOP L' (entry p.call.key) n)
    (hslot : ∀ key tid q, p = .remove key tid q → ∀ i, L i = entry key → L' i = entry key) :
    p.Recalls seed L' seen' := by
  rcases p with ⟨key, a⟩ | ⟨key, tid, q⟩ | ⟨key, sc⟩
  · cases a with
    | contains sc => exact fun hc => hs (h hc)
    | probe | reserve | relocate | loadExp | release | insert => trivial
  · have hslot' := hslot key tid q rfl
    have htrail : ∀ n cxx, Trail seed L key n cxx → Trail seed L' key n cxx := fun n cxx ht =>
      ⟨fun j hj hbit => hslot' _ (ht.1 j hj hbit), ht.2.imp id (hfrom _)⟩
    cases q with
    | stamp => trivial
    | testKey final s => exact h.imp (fun hm => hs hm) (htrail _ _)
    | testMoving final s => exact h.imp (fun hm => hs hm) (htrail _ _)
    | removeKey final i1 i2 => exact h.imp (fun hm => hs hm) (hslot' _)
    | removeMoving | loadSlot | testSlot | poison => exact hs h
  · exact ⟨fun hc => hs (h.1 hc), h.2.imp id (Or.imp (fun hm => hs hm) (hfrom _))⟩

/-! ### The table follows the set -/

abbrev WatchedSet := Interleave.Shared (Watch Call (Call × Bool)) (Key → Bool)

/-- The watched set `τ` has the keys of `K` that the table holds, and its threads stand
where those of the table do. -/
structure Follows (seed : BitVec 32) (K : Key → Prop) (s : State) (L : ℕ → Word)
    (τ : WatchedSet) : Prop extends Keeps seed K (buckets s.mem) s.thr L where
  set : ∀ k, K k → (τ.val k = true ↔ Has L (entry k))
  bounded : ∃ n, ∀ t, n ≤ t → τ.thr t = .idle
  looked : ∀ t c seen r, τ.thr t = .running c seen → keySet c τ.val = (τ.val, r) → r ∈ seen
  stage : ∀ t p, s.thr t = some p → K p.call.key → p.Stage seed L (τ.thr t)
  idle : ∀ t, (∀ p, s.thr t = some p → ¬ K p.call.key) → τ.thr t = .idle

/-- The object with the value `v`, after all running calls have looked at it. -/
def settled (τ : WatchedSet) (v : Key → Bool) (t : ℕ) (w : Watch Call (Call × Bool)) : WatchedSet :=
  ⟨v, fun u => (Function.update τ.thr t w u).look keySet v⟩

namespace Follows

variable {s s' : State} {τ : WatchedSet} {t : ℕ} {x : Option Pc} {v : Key → Bool}
  {w : Watch Call (Call × Bool)}

theorem fresh (seed : BitVec 32) (hK : ¬ K 0#32) :
    Follows seed K fresh (fun _ => 0#64) ⟨fun _ => false, fun _ => .idle⟩ where
  inv := inv_fresh
  placed k hk i hi := absurd hi.symm (entry_ne_zero fun h0 => hK (h0 ▸ hk))
  suited _ := trivial
  set k hk := by
    constructor
    · intro h
      cases h
    · rintro ⟨i, hi⟩
      exact absurd hi.symm (entry_ne_zero fun h0 => hK (h0 ▸ hk))
  bounded := ⟨0, fun _ _ => rfl⟩
  looked _ _ _ _ h := by cases h
  stage _ _ h := by cases h
  idle _ _ := rfl

/-- The table after a step of thread `t`, which has left the set at `v` and the thread at `w`. -/
theorem after (h : Follows seed K s L τ) (hk : Keeps seed K (buckets s'.mem) s'.thr L')
    (hthr : s'.thr = Function.update s.thr t x)
    (hset : ∀ k, K k → (v k = true ↔ Has L' (entry k)))
    (hother : ∀ u p, u ≠ t → s.thr u = some p → K p.call.key → v p.call.key = false ∨
      (∀ n, MemberFrom (homeOf seed) HOP L (entry p.call.key) n →
        MemberFrom (homeOf seed) HOP L' (entry p.call.key) n) ∧
      ∀ key tid q, p = .remove key tid q → ∀ i, L i = entry key → L' i = entry key)
    (hown : ∀ p, x = some p → K p.call.key → p.Stage seed L' (w.look keySet v))
    (hidle : (∀ p, x = some p → ¬ K p.call.key) → w = .idle) :
    Follows seed K s' L' (settled τ v t w) where
  toKeeps := hk
  set := hset
  bounded := by
    obtain ⟨n, hn⟩ := h.bounded
    refine ⟨max n (t + 1), fun u hu => ?_⟩
    have hut : u ≠ t := by omega
    show (Function.update τ.thr t w u).look keySet v = .idle
    rw [Function.update_of_ne hut, hn u (by omega)]
    rfl
  looked u c seen r hu hr := by
    change (Function.update τ.thr t w u).look keySet v = .running c seen at hu
    cases hw : Function.update τ.thr t w u with
    | idle | done r' => rw [hw] at hu; cases hu
    | running c' seen' =>
      rw [hw] at hu
      cases hu
      exact Or.inr hr
  stage u p hu hkey := by
    show p.Stage seed L' ((Function.update τ.thr t w u).look keySet v)
    rw [hthr] at hu
    by_cases hut : u = t
    · subst hut
      rw [Function.update_self] at hu ⊢
      exact hown p hu hkey
    · rw [Function.update_of_ne hut] at hu ⊢
      rcases h.stage u p hu hkey with ⟨herased, hw⟩ | ⟨herased, seen, hw, hkn⟩
      · exact Or.inl ⟨herased, by rw [hw]; rfl⟩
      · refine Or.inr ⟨herased, _, by rw [hw]; rfl, ?_⟩
        rcases hother u p hut hu hkey with hv | ⟨hfrom, hslot⟩
        · exact hkn.lost (fun _ => Or.inl) fun hc => Or.inr (false_same hc hv)
        · exact hkn.kept (fun _ => Or.inl) hfrom hslot
  idle u hu := by
    show (Function.update τ.thr t w u).look keySet v = .idle
    rw [hthr] at hu
    by_cases hut : u = t
    · subst hut
      rw [Function.update_self] at hu ⊢
      rw [hidle hu]
      rfl
    · rw [Function.update_of_ne hut] at hu ⊢
      rw [h.idle u hu]
      rfl

/-- All running calls look at the object after a step of thread `t`. -/
theorem runs_settled (h : Follows seed K s L τ) {es : List (Event Call (Call × Bool))}
    (hr : Runs (Watched keySet) τ es ⟨v, Function.update τ.thr t w⟩) :
    Runs (Watched keySet) τ es (settled τ v t w) := by
  obtain ⟨n, hn⟩ := h.bounded
  refine hr.silent (Watched.looks (n := max n (t + 1)) fun u hu => ?_)
  have hut : u ≠ t := by omega
  show Function.update τ.thr t w u = .idle
  rw [Function.update_of_ne hut]
  exact hn u (by omega)

theorem stays (τ : WatchedSet) (t : ℕ) :
    Runs (Watched keySet) τ [] ⟨τ.val, Function.update τ.thr t (τ.thr t)⟩ := by
  rw [Function.update_eq_self]
  exact Runs.nil τ

/-- What a thread knows it also knows after a look. -/
theorem stage_look (h : p.Stage seed L w) : p.Stage seed L (w.look keySet v) := by
  rcases h with ⟨herased, rfl⟩ | ⟨herased, seen, rfl, hkn⟩
  · exact Or.inl ⟨herased, rfl⟩
  · exact Or.inr ⟨herased, _, rfl, hkn.kept (fun _ => Or.inl) (fun _ => id) fun _ _ _ _ _ => id⟩

/-! ### A call begins -/

theorem call [DecidablePred K] {c : Call} (h : Follows seed K s L τ)
    (hs : (table seed).step s (.call t c) = some s') :
    ∃ τ', Follows seed K s' L τ' ∧ Runs (Watched keySet) τ
      (((table seed).event s (.call t c)).bind (viewOf K)).toList τ' := by
  have hinv := h.inv.call hs
  obtain ⟨-, ht, rfl⟩ := Machine.step_call.mp hs
  have hkeeps : Keeps seed K (buckets s.mem) (Function.update s.thr t (some (Pc.start c))) L := by
    refine ⟨hinv, h.placed, fun u => ?_⟩
    by_cases hut : u = t
    · subst hut
      rw [Function.update_self]
      cases c <;> trivial
    · rw [Function.update_of_ne hut]
      exact h.suited u
  have hcall : ((table seed).start c).call = c := Pc.call_start c
  have hidle : τ.thr t = .idle := h.idle t fun p hp => by rw [ht] at hp; cases hp
  have hother : ∀ u p, u ≠ t → s.thr u = some p → K p.call.key → τ.val p.call.key = false ∨
      (∀ n, MemberFrom (homeOf seed) HOP L (entry p.call.key) n →
        MemberFrom (homeOf seed) HOP L (entry p.call.key) n) ∧
      ∀ key tid q, p = .remove key tid q → ∀ i, L i = entry key → L i = entry key :=
    fun _ _ _ _ _ => Or.inr ⟨fun _ => id, fun _ _ _ _ _ => id⟩
  by_cases hK : K c.key
  · have hview : ((table seed).event s (.call t c)).bind (viewOf K) = some (.call t c) := by
      simp [Machine.event, viewOf, Option.guard, eventKey, hK]
    rw [hview]
    refine ⟨settled τ τ.val t (.running c ∅), ?_, h.runs_settled (Runs.single (.call hidle))⟩
    refine h.after hkeeps rfl h.set hother (fun p hp _ => ?_) fun hno => ?_
    · -- the call has seen what the set has answered at its beginning
      cases hp
      refine Or.inr ⟨by cases c <;> rfl, _, by rw [hcall]; rfl, ?_⟩
      cases c with
      | add key => exact fun hc => absurd rfl hc
      | remove key tid => trivial
      | contains key =>
        refine ⟨fun hc => absurd rfl hc, Or.inr ?_⟩
        by_cases hm : Has L (entry key)
        · obtain ⟨i, hi⟩ := hm
          have hw := h.placed key hK i hi
          refine Or.inr ⟨i, ?_, hw, hi⟩
          rw [Scan.start, Nat.add_zero]
          exact (window_entry.mp hw).1
        · have hv : τ.val key = false := by
            rw [Bool.eq_false_iff]
            exact fun he => hm ((h.set key hK).mp he)
          exact Or.inl (Or.inr (contains_same hv))
    · exact absurd (by rwa [hcall]) (hno _ rfl)
  · have hview : ((table seed).event s (.call t c)).bind (viewOf K) = none := by
      simp [Machine.event, viewOf, Option.guard, eventKey, hK]
    rw [hview]
    refine ⟨settled τ τ.val t (τ.thr t), ?_, h.runs_settled (stays τ t)⟩
    refine h.after hkeeps rfl h.set hother (fun p hp hkey => ?_) fun _ => hidle
    cases hp
    rw [hcall] at hkey
    exact absurd hkey hK

/-! ### The moves of a lookup -/

/-- A key that is read is in the set, and every running call has seen it. -/
theorem seen_of_hit (h : Follows seed K s L τ) {k : Key} (hk : K k) {i : ℕ}
    (hit : Hit (buckets s.mem) k i) : τ.val k = true :=
  (h.set k hk).mpr (h.has_of_hit hk hit)

theorem own_contains {key : Key} {sc : Scan} (h : Follows seed K s L τ) (hK : ¬ K 0#32)
    (hk : K key) (hp : s.thr t = some (.contains key sc)) : ∃ seen,
      τ.thr t = .running (.contains key) seen ∧
      (sc.read seed (buckets s.mem) key ≠ 0#64 → (.contains key, true) ∈ seen) ∧
      (sc.read seed (buckets s.mem) key ≠ 0#64 ∨ (.contains key, false) ∈ seen ∨
        MemberFrom (homeOf seed) HOP L (entry key) (home seed key + (sc.p + 1))) := by
  have hle : sc.p ≤ HOP := h.inv.ok t _ hp
  have hk0 : key ≠ 0#32 := fun h0 => hK (h0 ▸ hk)
  rcases h.stage t _ hp hk with ⟨herased, -⟩ | ⟨-, seen, hw, hfound, hmiss⟩
  · cases herased
  refine ⟨seen, hw, fun hr => ?_, ?_⟩
  · rcases (read_ne_zero hle).mp hr with hc | hit
    · exact hfound hc
    · exact h.looked t _ seen _ hw (contains_same (h.seen_of_hit hk hit))
  · rcases hmiss with hc | hf | ⟨i, hn, hwin, hi⟩
    · exact Or.inl ((read_ne_zero hle).mpr (Or.inl hc))
    · exact Or.inr (Or.inl hf)
    · by_cases hip : i = home seed key + sc.p
      · subst hip
        exact Or.inl ((read_ne_zero hle).mpr (Or.inr (h.hit_of_eq hk0 hi)))
      · exact Or.inr (Or.inr ⟨i, by omega, hwin, hi⟩)

/-- No slot of a window lies past its end. -/
theorem not_past {k : Key} {n : ℕ} (hn : HOP < n) :
    ¬ MemberFrom (homeOf seed) HOP L (entry k) (home seed k + n) := by
  rintro ⟨i, hi, hw, -⟩
  have := (window_entry.mp hw).2
  omega

/-! ### What a move shows -/

/-- The watched set can show what thread `t` shows on going along `f`, and then has the keys
of `L'` and the thread where `f` leads. -/
def Matches (seed : BitVec 32) (K : Key → Prop) (τ : WatchedSet) (t : ℕ)
    (f : Flow Pc (Call × Bool) Exit) (L' : ℕ → Word) : Prop :=
  ∃ v w, Runs (Watched keySet) τ (f.result?.map (Event.ret t)).toList
      ⟨v, Function.update τ.thr t w⟩ ∧
    (∀ k, K k → (v k = true ↔ Has L' (entry k))) ∧
    (∀ p', f.point? = some p' → p'.Stage seed L' w) ∧ (f.point? = none → w = .idle)

theorem matches_goto {p' : Pc} (h : Follows seed K s L τ)
    (hset : ∀ k, K k → (Has L' (entry k) ↔ Has L (entry k))) (hst : p'.Stage seed L' (τ.thr t)) :
    Matches seed K τ t (.goto p') L' := by
  refine ⟨τ.val, τ.thr t, stays τ t, fun k hk => (h.set k hk).trans (hset k hk).symm, ?_, ?_⟩
  · intro q hq
    cases hq
    exact hst
  · intro hq
    cases hq

/-- A return that ends in the value `v` of the set. -/
theorem matches_ret {r : Call × Bool} (hset : ∀ k, K k → (v k = true ↔ Has L' (entry k)))
    (hr : Runs (Watched keySet) τ [.ret t r] ⟨v, Function.update τ.thr t .idle⟩) :
    Matches seed K τ t (.ret r) L' :=
  ⟨v, .idle, hr, hset, fun _ hq => by (cases hq), fun _ => rfl⟩

theorem matches_contains {key : Key} {sc : Scan} (h : Follows seed K s L τ) (hK : ¬ K 0#32)
    (hk : K key) (hp : s.thr t = some (.contains key sc)) :
    Matches seed K τ t ((table seed).flow s.mem (.contains key sc)) L := by
  have hle : sc.p ≤ HOP := h.inv.ok t _ hp
  obtain ⟨seen, hw, hfound, hmiss⟩ := h.own_contains hK hk hp
  have hflow : (table seed).flow s.mem (.contains key sc) =
      ((contains seed key sc).2 ((contains seed key sc).1.exec s.mem).1).bind (.contains key)
        fun b => .ret (.contains key, b) := rfl
  rw [hflow, contains_flow]
  by_cases hlt : sc.p < HOP
  · rw [if_pos hlt]
    exact h.matches_goto (fun _ _ => Iff.rfl) (Or.inr ⟨rfl, seen, hw, hfound, hmiss⟩)
  · rw [if_neg hlt]
    refine matches_ret h.set (Runs.single (Watched.seen hw ?_))
    cases hb : (sc.read seed (buckets s.mem) key != 0#64) with
    | true => exact hfound (by simpa using hb)
    | false =>
      rcases hmiss with hr | hf | hm
      · exact absurd (by simpa using hb) hr
      · exact hf
      · exact absurd hm (not_past (by omega))

/-! ### The moves of an `add` -/

theorem matches_add {key : Key} {q : Add} (h : Follows seed K s L τ) (hK : ¬ K 0#32)
    (hk : K key) (hp : s.thr t = some (.add key q))
    (hx : ∀ e, addFlow seed key s.mem q ≠ .exit e)
    (hsp : SparesKeys seed K (buckets s.mem) (.add key q))
    (ha : Act seed (buckets s.mem) L (.add key q) (next seed s.mem (.add key q))
      (buckets (((add seed key q).1.exec s.mem).2)) L')
    (hL' : ∀ i, buckets (((add seed key q).1.exec s.mem).2) i = entry key → L' i = entry key) :
    Matches seed K τ t ((table seed).flow s.mem (.add key q)) L' := by
  have hne : ∀ k, K k → k ≠ 0#32 := fun k hk h0 => hK (h0 ▸ hk)
  have hflow : (table seed).flow s.mem (.add key q) =
      (addFlow seed key s.mem q).bind (.add key) fun b => .ret (.add key, b) := rfl
  rcases h.stage t _ hp hk with ⟨herased, -⟩ | ⟨-, seen, hw, hkn⟩
  · cases herased
  cases hf : addFlow seed key s.mem q with
  | exit e => exact absurd hf (hx e)
  | goto q' =>
    rw [hflow, hf]
    have hn : next seed s.mem (.add key q) ≠ none := by
      rw [next_of_addFlow hf]
      exact Option.some_ne_none _
    refine h.matches_goto (fun k hk' => h.has_iff ha hp hsp hk' (hne k hk') id fun h0 => ?_)
      (Or.inr ⟨rfl, seen, hw, ?_⟩)
    · exact absurd h0 hn
    · rcases add_goto hf with ⟨sc, rfl, -, rfl⟩ | ⟨hpast, -⟩
      · have hle : sc.p ≤ HOP := h.inv.ok t _ hp
        intro hr
        rcases (read_ne_zero hle).mp hr with hc | hit
        · exact hkn hc
        · exact h.looked t _ seen _ hw (add_same (h.seen_of_hit hk hit))
      · exact hpast.recalls
  | ret b =>
    rw [hflow, hf]
    obtain ⟨rfl, hcase⟩ := add_ret (h.inv.ok t _ hp) hf
    have hother : ∀ k, K k → k ≠ key → (Has L' (entry k) ↔ Has L (entry k)) := by
      intro k hk' hkk
      refine h.has_iff ha hp hsp hk' (hne k hk') id fun _ q' e => hkk ?_
      cases e
      rfl
    rcases hcase with ⟨sc, rfl, hr⟩ | ⟨j, hj, hT⟩
    · -- the key has been found
      have hle : sc.p ≤ HOP := h.inv.ok t _ hp
      have hin : (.add key, true) ∈ seen := by
        rcases (read_ne_zero hle).mp hr with hc | hit
        · exact hkn hc
        · exact h.looked t _ seen _ hw (add_same (h.seen_of_hit hk hit))
      refine matches_ret (fun k hk' => (h.set k hk').trans ?_) (Runs.single (Watched.seen hw hin))
      refine (h.has_iff ha hp hsp hk' (hne k hk') id fun _ q' e => ?_).symm
      cases e
    · -- the key is in the table: the `add` takes effect with its return
      refine matches_ret (v := Function.update τ.val key true) (fun k hk' => ?_) ?_
      · by_cases hkk : k = key
        · subst hkk
          rw [Function.update_self]
          exact ⟨fun _ => ⟨_, hL' _ hT⟩, fun _ => rfl⟩
        · rw [Function.update_of_ne hkk]
          exact (h.set k hk').trans (hother k hk' hkk).symm
      · have h1 := Watched.effect (O := keySet) hw
        have h2 := Watched.ret (O := keySet) (t := t) (r := (Call.add key, true))
          (s := ⟨Function.update τ.val key true, Function.update τ.thr t (.done (.add key, true))⟩)
          (Function.update_self t _ _)
        rw [Function.update_idem] at h2
        exact (Runs.single h1).trans (Runs.single h2)

/-! ### The moves of a `Remove` -/

/-- A removal that does not take its key here changes nothing. -/
theorem act_remove {T T' : ℕ → Word} {key : Key} {tid : ℤ} {q : Remove}
    (ha : Act seed T L (.remove key tid q) x T' L')
    (hno : ¬ (Pc.remove key tid q).Takes seed T key) : L' = L := by
  cases ha with
  | quiet => rfl
  | erase he => exact absurd ⟨rfl, he⟩ hno

/-- While a key is not moved, a slot holds it if it reads so. -/
theorem eq_iff (h : Follows seed K s L τ) (hK : ¬ K 0#32) {key : Key} (hk : K key) {tid : ℤ}
    {q : Remove} (hp : s.thr t = some (.remove key tid q)) (hun : Undisturbed K s) (i : ℕ) :
    L i = entry key ↔ buckets s.mem i = entry key := by
  constructor
  · intro hi
    have hk0 : key ≠ 0#32 := fun h0 => hK (h0 ▸ hk)
    exact (h.hit_of_eq hk0 hi).resolve_right (hun t key tid q hp hk i)
  · exact fun hT => h.inv.sim.eq_of_read hT (tag_entry key)

section Remove

variable {key : Key} {tid : ℤ} {q : Remove}

theorem flow_remove (m : Cell → Word) : (table seed).flow m (.remove key tid q) =
    (removeFlow seed key m q).bind (.remove key tid) fun b => .ret (.remove key tid, b) := rfl

/-- A removal goes on without taking its key. -/
theorem remove_goes {q' : Remove} {T' : ℕ → Word} (h : Follows seed K s L τ)
    (ha : Act seed (buckets s.mem) L (.remove key tid q) x T' L')
    (hno : ¬ (Pc.remove key tid q).Takes seed (buckets s.mem) key)
    (hf : removeFlow seed key s.mem q = .goto q')
    (hst : (Pc.remove key tid q').Stage seed L (τ.thr t)) :
    Matches seed K τ t ((table seed).flow s.mem (.remove key tid q)) L' := by
  obtain rfl := act_remove ha hno
  rw [flow_remove, hf]
  exact h.matches_goto (fun _ _ => Iff.rfl) hst

/-- A removal in its last loop, at slot `j`, goes on or returns. -/
theorem remove_nextSlot {j : ℕ} {rem : Bool} {T' : ℕ → Word} (h : Follows seed K s L τ)
    (ha : Act seed (buckets s.mem) L (.remove key tid q) x T' L')
    (hno : ¬ (Pc.remove key tid q).Takes seed (buckets s.mem) key)
    (hf : removeFlow seed key s.mem q = Remove.nextSlot j rem)
    (hst : (Pc.remove key tid (.loadSlot j rem)).Stage seed L (τ.thr t)) :
    Matches seed K τ t ((table seed).flow s.mem (.remove key tid q)) L' := by
  unfold Remove.nextSlot at hf
  split_ifs at hf with hj
  · exact h.remove_goes ha hno hf hst
  · obtain rfl := act_remove ha hno
    rw [flow_remove, hf]
    refine matches_ret h.set ?_
    rcases hst with ⟨herased, hw⟩ | ⟨herased, seen, hw, hin⟩
    · obtain rfl : rem = true := herased
      exact Runs.single (Watched.ret hw)
    · obtain rfl : rem = false := herased
      exact Runs.single (Watched.seen hw hin)

/-- Line 253. -/
theorem remove_takes {final : Word} {i1 i2 : ℕ} (h : Follows seed K s L τ) (hK : ¬ K 0#32)
    (hk : K key) (hp : s.thr t = some (.remove key tid (.removeKey final i1 i2)))
    (hT : buckets s.mem (home seed key + i1) = entry key)
    (hsp : SparesKeys seed K (buckets s.mem) (.remove key tid (.removeKey final i1 i2)))
    (ha : Act seed (buckets s.mem) L (.remove key tid (.removeKey final i1 i2))
      (next seed s.mem (.remove key tid (.removeKey final i1 i2)))
      (Function.update (buckets s.mem) (home seed key + i1) final) L') :
    Matches seed K τ t ((table seed).flow s.mem (.remove key tid (.removeKey final i1 i2))) L' := by
  have hne : ∀ k, K k → k ≠ 0#32 := fun k hk h0 => hK (h0 ▸ hk)
  have hgone : ¬ Has L' (entry key) := by
    refine h.taken ha hsp hk (hne key hk) ⟨rfl, hT⟩ fun _ _ _ _ e => ?_
    cases e
    exact Function.update_self ..
  have hin : τ.val key = true := h.seen_of_hit hk (Or.inl hT)
  rcases h.stage t _ hp hk with ⟨herased, -⟩ | ⟨-, seen, hw, -⟩
  · cases herased
  have hf : removeFlow seed key s.mem (.removeKey final i1 i2) = .goto (.removeMoving final i2 true) := by
    have he : s.mem (.bucket (home seed key + i1)) = entry key := hT
    simp only [removeFlow, remove, Access.exec_cas_of_eq _ _ he]
  rw [flow_remove, hf]
  refine ⟨Function.update τ.val key false, .done (.remove key tid, true), ?_, fun k hk' => ?_, ?_, ?_⟩
  · have hstep := Watched.effect (O := keySet) hw
    rw [show keySet (Pc.remove key tid (.removeKey final i1 i2)).call τ.val =
      (Function.update τ.val key false, (Call.remove key tid, τ.val key)) from rfl, hin] at hstep
    exact Runs.single hstep
  · by_cases hkk : k = key
    · subst hkk
      rw [Function.update_self]
      exact ⟨fun he => (by cases he), fun hL => absurd hL hgone⟩
    · rw [Function.update_of_ne hkk]
      refine (h.set k hk').trans (h.has_iff ha hp hsp hk' (hne k hk') ?_ ?_).symm
      · exact fun ht => hkk ht.1.symm
      · exact fun _ q' e => by cases e
  · intro p' hp'
    cases hp'
    exact Or.inl ⟨rfl, rfl⟩
  · intro hn
    cases hn

theorem matches_remove (h : Follows seed K s L τ) (hK : ¬ K 0#32) (hk : K key)
    (hp : s.thr t = some (.remove key tid q)) (hun : Undisturbed K s)
    (hcl : RemovesNothingOwned seed (buckets s.mem) (.remove key tid q))
    (hsp : SparesKeys seed K (buckets s.mem) (.remove key tid q))
    (ha : Act seed (buckets s.mem) L (.remove key tid q) (next seed s.mem (.remove key tid q))
      (buckets ((remove seed key q).1.exec s.mem).2) L') :
    Matches seed K τ t ((table seed).flow s.mem (.remove key tid q)) L' := by
  have hread := h.eq_iff hK hk hp hun
  have hok : q.Ok := h.inv.ok t _ hp
  have hst := h.stage t _ hp hk
  cases q with
  | stamp =>
    rcases hst with ⟨herased, -⟩ | ⟨-, seen, hw, -⟩
    · cases herased
    refine h.remove_goes ha id rfl (Or.inr ⟨rfl, seen, hw, ?_⟩)
    by_cases hm : Has L (entry key)
    · obtain ⟨i, hi⟩ := hm
      have hwin := h.placed key hk i hi
      refine Or.inr ⟨fun j _ hbit => by simp [Scan.start] at hbit, Or.inr ⟨i, ?_, hwin, hi⟩⟩
      rw [Scan.start, Nat.add_zero]
      exact (window_entry.mp hwin).1
    · have hv : τ.val key = false := by
        rw [Bool.eq_false_iff]
        exact fun he => hm ((h.set key hk).mp he)
      exact Or.inl (h.looked t _ seen _ hw (remove_same hv tid))
  | testKey final sc =>
    rcases hst with ⟨herased, -⟩ | ⟨-, seen, hw, hkn⟩
    · cases herased
    have hle : sc.p ≤ HOP := hok.2
    by_cases hT : buckets s.mem (home seed key + sc.p) = entry key
    · have htrail : (.remove key tid, false) ∈ seen ∨
          Trail seed L key (sc.p + 1) (setBit sc.cxx sc.p) :=
        hkn.imp id fun ht => ht.mark (by simp only [HOP] at hle; omega) ((hread _).mpr hT)
      have hf : removeFlow seed key s.mem (.testKey final sc) =
          .goto (.nextScan final sc.p (setBit sc.cxx sc.p)) := if_pos hT
      obtain ⟨h1, h2⟩ := recalls_nextScan final htrail
      exact h.remove_goes ha id hf (Or.inr ⟨h1, seen, hw, h2⟩)
    · have htrail : (.remove key tid, false) ∈ seen ∨ Trail seed L key (sc.p + 1) sc.cxx :=
        hkn.imp id fun ht => ht.skip fun hi => hT ((hread _).mp hi)
      exact h.remove_goes ha id (if_neg hT) (Or.inr ⟨rfl, seen, hw, htrail⟩)
  | testMoving final sc =>
    rcases hst with ⟨herased, -⟩ | ⟨-, seen, hw, hkn⟩
    · cases herased
    obtain ⟨h1, h2⟩ := recalls_nextScan final hkn
    exact h.remove_goes ha id (if_neg (hun t key tid _ hp hk _)) (Or.inr ⟨h1, seen, hw, h2⟩)
  | removeKey final i1 i2 =>
    by_cases hT : buckets s.mem (home seed key + i1) = entry key
    · refine h.remove_takes hK hk hp hT hsp ?_
      have he : s.mem (.bucket (home seed key + i1)) = entry key := hT
      simpa only [remove, Access.exec_cas_of_eq _ _ he, buckets_update] using ha
    · rcases hst with ⟨herased, -⟩ | ⟨-, seen, hw, hkn⟩
      · cases herased
      have he : s.mem (.bucket (home seed key + i1)) ≠ entry key := hT
      have hf : removeFlow seed key s.mem (.removeKey final i1 i2) =
          .goto (.removeMoving final i2 false) := by
        simp only [removeFlow, remove, Access.exec_cas_of_ne _ _ he]
      have hin := hkn.resolve_right fun hi => hT ((hread _).mp hi)
      exact h.remove_goes ha (fun ht => hT ht.2) hf (Or.inr ⟨rfl, seen, hw, hin⟩)
  | removeMoving final i2 rem1 =>
    have hne : s.mem (.bucket (home seed key + i2)) ≠ entry key ||| (1#64 <<< 62) := by
      rw [← moving_entry]
      exact hcl
    have hf : removeFlow seed key s.mem (.removeMoving final i2 rem1) = .goto (.loadSlot 0 rem1) := by
      simp only [removeFlow, remove, Access.exec_cas_of_ne _ _ hne, Bool.or_false]
    exact h.remove_goes ha id hf hst
  | loadSlot j rem => exact h.remove_goes ha id rfl hst
  | testSlot j slot rem =>
    by_cases hT : tag (buckets s.mem (home seed key + j)) = 3#64
    · exact h.remove_goes ha id (if_pos hT) hst
    · exact h.remove_nextSlot ha id (if_neg hT) hst
  | poison j slot rem => exact h.remove_nextSlot ha id rfl hst

end Remove

/-! ### A move -/

/-- What is seen of the move of a thread: a return from a call on a key of `K`. -/
theorem view_move [DecidablePred K] (m : Cell → Word) (p : Pc) (t : ℕ) :
    (((table seed).flow m p).result?.map (Event.ret t)).bind (viewOf K) =
      if K p.call.key then ((table seed).flow m p).result?.map (Event.ret t) else none := by
  cases hf : (table seed).flow m p with
  | goto p' | exit e => simp [Flow.result?]
  | ret r =>
    have hr := Pc.call_ret hf
    by_cases hk : K p.call.key <;> simp [Flow.result?, viewOf, Option.guard, eventKey, hr, hk]

theorem call_of_point? {m : Cell → Word} {p' : Pc}
    (h : ((table seed).flow m p).point? = some p') : p'.call = p.call :=
  Pc.call_next (Flow.point?_eq_some.mp h)

/-- What another thread knows of its key is still so after the move, unless the key is gone. -/
theorem others (h : Follows seed K s L τ) (hK : ¬ K 0#32) (hp : s.thr t = some p)
    (hun : Undisturbed K s) (hsp : SparesKeys seed K (buckets s.mem) p)
    (ha : Act seed (buckets s.mem) L p x (buckets ((p.code seed).1.exec s.mem).2) L')
    (hset : ∀ k, K k → (v k = true ↔ Has L' (entry k))) {u : ℕ} {p' : Pc}
    (hp' : s.thr u = some p') (hk : K p'.call.key) : v p'.call.key = false ∨
      (∀ n, MemberFrom (homeOf seed) HOP L (entry p'.call.key) n →
        MemberFrom (homeOf seed) HOP L' (entry p'.call.key) n) ∧
      ∀ key tid q, p' = .remove key tid q → ∀ i, L i = entry key → L' i = entry key := by
  have hk0 : p'.call.key ≠ 0#32 := fun h0 => hK (h0 ▸ hk)
  by_cases ht : p.Takes seed (buckets s.mem) p'.call.key
  · left
    rw [Bool.eq_false_iff]
    intro hv
    refine h.taken ha hsp hk hk0 ht (fun _ _ _ _ e => ?_) ((hset _ hk).mp hv)
    exact ht.wrote e
  · right
    refine ⟨fun n => h.memberFrom ha hp hk hk0 ht, ?_⟩
    rintro key tid q rfl i hi
    exact h.slot ha hp hk0 ht (hun u key tid q hp' hk i) hi

/-- The move of a call on a key of `K`. -/
theorem matches_own (h : Follows seed K s L τ) (hK : ¬ K 0#32) (hk : K p.call.key)
    (hp : s.thr t = some p) (hun : Undisturbed K s)
    (hcl : RemovesNothingOwned seed (buckets s.mem) p) (hsp : SparesKeys seed K (buckets s.mem) p)
    (ha : Act seed (buckets s.mem) L p (next seed s.mem p)
      (buckets ((p.code seed).1.exec s.mem).2) L')
    (hI : Inv seed (buckets ((p.code seed).1.exec s.mem).2) s'.thr L')
    (hx : ∀ e, (table seed).flow s.mem p ≠ .exit e) :
    Matches seed K τ t ((table seed).flow s.mem p) L' := by
  rcases p with ⟨key, q⟩ | ⟨key, tid, q⟩ | ⟨key, sc⟩
  · refine h.matches_add hK hk hp (fun e hf => ?_) hsp ha fun i hi => ?_
    · exact hx e (Flow.bind_eq_exit.mpr (Or.inl hf))
    · exact hI.sim.eq_of_read hi (tag_entry key)
  · exact h.matches_remove hK hk hp hun hcl hsp ha
  · have hm := h.matches_contains hK hk hp
    have hL : L' = L := by
      generalize buckets (((Pc.contains key sc).code seed).1.exec s.mem).2 = T' at ha
      cases ha
      rfl
    rwa [hL]

theorem move [DecidablePred K] (h : Follows seed K s L τ) (hK : ¬ K 0#32)
    (hq : Orderly seed K s (.move t)) (hs : (table seed).step s (.move t) = some s')
    (hh : s'.halt = none) : ∃ L' τ', Follows seed K s' L' τ' ∧ Runs (Watched keySet) τ
      (((table seed).event s (.move t)).bind (viewOf K)).toList τ' := by
  obtain ⟨-, p, hp, -⟩ := Machine.step_move.mp hs
  obtain ⟨hun, hcl, hsp⟩ := hq
  replace hsp := hsp p hp
  obtain ⟨L', hI, ha⟩ := h.inv.move hp hcl hs hh
  obtain rfl := Machine.eq_advance hp hs
  have hx : ∀ e, (table seed).flow s.mem p ≠ .exit e := Machine.flow_ne_exit hh
  have hthr : ((table seed).advance t p s).thr = Function.update s.thr t (next seed s.mem p) :=
    Machine.advance_thr hh
  rw [Machine.advance_mem] at hI ha
  have hkeeps : Keeps seed K (buckets ((table seed).advance t p s).mem)
      ((table seed).advance t p s).thr L' := by
    rw [Machine.advance_mem]
    rw [hthr] at hI ⊢
    refine h.toKeeps.step hI ha hp hsp hK fun k hk ht => ?_
    obtain ⟨tid, q, rfl⟩ := ht.eq_remove
    exact hun t k tid q hp hk
  rw [Machine.event_move hp, view_move]
  by_cases hk : K p.call.key
  · -- a call on a key of `K`
    obtain ⟨v, w, hr, hset, hst, hidle⟩ := h.matches_own hK hk hp hun (hcl _ hp).2 hsp ha hI hx
    rw [if_pos hk]
    refine ⟨L', settled τ v t w, h.after hkeeps hthr hset
      (fun u p' _ hp' hk' => h.others hK hp hun hsp ha hset hp' hk')
      (fun p' hp' _ => stage_look (hst p' hp')) (fun hno => hidle ?_), h.runs_settled hr⟩
    exact Option.eq_none_iff_forall_not_mem.mpr fun p' hp' =>
      hno p' hp' ((call_of_point? hp').symm ▸ hk)
  · -- a call on another key changes no key of `K`
    have hnot : ∀ k, K k → ¬ p.Takes seed (buckets s.mem) k := by
      intro k hk' ht
      obtain ⟨tid, q, rfl⟩ := ht.eq_remove
      exact hk hk'
    have hset : ∀ k, K k → (τ.val k = true ↔ Has L' (entry k)) := by
      intro k hk'
      have hk0 : k ≠ 0#32 := fun h0 => hK (h0 ▸ hk')
      refine (h.set k hk').trans (h.has_iff ha hp hsp hk' hk0 (hnot k hk') ?_).symm
      rintro - q rfl
      exact hk hk'
    have hidle : τ.thr t = .idle := h.idle t fun p' hp' => by
      rw [hp, Option.some.injEq] at hp'
      rwa [← hp']
    rw [if_neg hk]
    exact ⟨L', settled τ τ.val t (τ.thr t), h.after hkeeps hthr hset
      (fun u p' _ hp' hk' => h.others hK hp hun hsp ha hset hp' hk')
      (fun p' hp' hk' => absurd (call_of_point? hp' ▸ hk') hk) (fun _ => hidle),
      h.runs_settled (stays τ t)⟩

end Follows

/-- An orderly run is followed by a run of the watched set. -/
theorem runs_of_orderly [DecidablePred K] (hK : ¬ K 0#32) {ls : List (Label Call)} {s : State}
    (hr : (table seed).run ls fresh = some s)
    (hq : (table seed).Along (Orderly seed K) ls fresh) :
    ∃ τ : WatchedSet, Runs (Watched keySet) ⟨fun _ => false, fun _ => .idle⟩
      (((table seed).history ls fresh).filter fun e => decide (K (eventKey e))) τ := by
  have hsim := Machine.runs_of_run (M := table seed)
    (fun s τ => s.halt = none → ∃ L, Follows seed K s L τ) (Watched keySet) (viewOf K) ?_
    (fun _ => ⟨_, Follows.fresh seed hK⟩) hq hr
  · obtain ⟨τ, -, hτ⟩ := hsim
    rw [viewOf, List.filterMap_eq_filter] at hτ
    exact ⟨τ, hτ⟩
  · intro s l s' τ hF hq hs
    obtain ⟨L, h⟩ := hF (Machine.halt_of_step hs)
    cases l with
    | call t c =>
      obtain ⟨τ', hF', hτ'⟩ := h.call hs
      exact ⟨τ', fun _ => ⟨L, hF'⟩, hτ'⟩
    | move t =>
      by_cases hh : s'.halt = none
      · obtain ⟨L', τ', hF', hτ'⟩ := h.move hK hq hs hh
        exact ⟨τ', fun _ => ⟨L', hF'⟩, hτ'⟩
      · -- a move that exits shows nothing
        refine ⟨τ, fun h0 => absurd h0 hh, ?_⟩
        obtain ⟨-, p, hp, rfl⟩ := Machine.step_move.mp hs
        rw [Machine.event_move hp]
        cases hf : (table seed).flow s.mem p with
        | goto p' =>
          rw [Machine.advance_goto hf] at hh
          exact absurd (Machine.halt_of_step hs) hh
        | ret r =>
          rw [Machine.advance_ret hf] at hh
          exact absurd (Machine.halt_of_step hs) hh
        | exit e => exact Runs.nil τ

/-- In every run that is orderly on the keys of `K`, the calls on these keys are those of an
atomic set: each takes effect at one moment between its beginning and its return. -/
theorem keys_linearizable [DecidablePred K] (hK : ¬ K 0#32) {ls : List (Label Call)} {s : State}
    (hr : (table seed).run ls fresh = some s)
    (hq : (table seed).Along (Orderly seed K) ls fresh) :
    Linearizable keySet (fun _ => false)
      (((table seed).history ls fresh).filter fun e => decide (K (eventKey e))) := by
  obtain ⟨τ, hτ⟩ := runs_of_orderly hK hr hq
  exact Watched.linearizable hτ

/-! Two adds of one home overlap, a lookup begins beside the first one, and another lookup
finds the key that a removal is about to take. -/

/-- Two keys. -/
def Either (a b k : Key) : Prop := k = a ∨ k = b

instance (a b : Key) : DecidablePred (Either a b) := fun _ => inferInstanceAs (Decidable (_ ∨ _))

def overlappingRun : List (Label Call) :=
  .call 0 (.add 12749043) :: List.replicate 20 (.move 0) ++
    .call 1 (.add 56200813) :: List.replicate 10 (.move 1) ++ List.replicate 3 (.move 0) ++
    .call 2 (.contains 12749043) :: List.replicate 5 (.move 2) ++ List.replicate 15 (.move 1) ++
    .call 0 (.remove 12749043 7) :: List.replicate 34 (.move 0) ++
    .call 1 (.contains 12749043) :: List.replicate 17 (.move 1) ++ List.replicate 12 (.move 2) ++
    List.replicate 36 (.move 0)

set_option maxRecDepth 10000 in
theorem overlapping_calls_linearizable :
    Linearizable keySet (fun _ => false) (((table 1).history overlappingRun fresh).filter
      fun e => decide (Either 12749043 56200813 (eventKey e))) := by
  have h : ((table 1).run overlappingRun fresh).isSome = true := by decide +kernel
  obtain ⟨s, hs⟩ := Option.isSome_iff_exists.mp h
  exact keys_linearizable (by decide) hs (orderly_of_still (n := 3) (by decide +kernel))

end LFHash
