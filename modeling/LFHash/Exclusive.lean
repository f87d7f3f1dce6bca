/-
# One writer, any readers

One thread adds and removes keys while any number of others look keys up. Such a run is
orderly of itself on every set of keys that the writer's stamps avoid (`Exclusive`): the
writer never removes a key while it moves one, and it stores a key once, since it looks
it up before it adds it. A stamp is below 2^30, so the table is a linearizable set of the
keys from 2^30 on.

Key definitions: `WriterOnly`, `StampsOff`, `Exclusive`.
Key theorems: `Exclusive.orderly`, `Exclusive.move`, `Exclusive.along`,
`one_writer_linearizable`.
-/
import LFHash.Linear
import LFHash.Readers
import LFHash.Removed

namespace LFHash

open Interleave Hopscotch

variable {seed : BitVec 32} {K : Key → Prop}

/-- Thread `w` adds and removes keys; all threads may look keys up. -/
def WriterOnly (w : ℕ) (t : ℕ) : Call → Prop
  | .contains _ => True
  | .add _ => t = w
  | .remove _ _ => t = w

instance (w t : ℕ) : DecidablePred (WriterOnly w t)
  | .contains _ => isTrue trivial
  | .add _ => inferInstanceAs (Decidable (t = w))
  | .remove _ _ => inferInstanceAs (Decidable (t = w))

/-- Line 253 writes no key of `K`. -/
def StampsOff (seed : BitVec 32) (K : Key → Prop) (T : ℕ → Word) : Pc → Prop
  | .remove key _ (.removeKey final i1 _) => T (home seed key + i1) = entry key → ¬ K (getKey final)
  | _ => True

/-- The writer stores a key of `K` once, and adds it only if it is not stored. -/
structure Exclusive (seed : BitVec 32) (K : Key → Prop) (s : State) (w : ℕ) (L : ℕ → Word) :
    Prop extends Writing seed s w L where
  single : ∀ k, K k → Single (homeOf seed) HOP L (entry k)
  scan : ∀ key sc, s.thr w = some (.add key (.contains sc)) → K key → sc.cxx = 0#64 →
    ∀ i, L i = entry key → home seed key + sc.p ≤ i
  past : ∀ key q, s.thr w = some (.add key q) → q.Past → K key → ¬ Has L (entry key)

/-- Beside the writer the others look keys up. -/
theorem Running.contains_of_ne {s : State} {w : ℕ} (h : Running (WriterOnly w) s) {u : ℕ}
    (hu : u ≠ w) {p : Pc} (hp : s.thr u = some p) : ∃ key sc, p = .contains key sc := by
  have hc := h u p hp
  rcases p with ⟨key, a⟩ | ⟨key, tid, a⟩ | ⟨key, sc⟩
  · exact absurd hc hu
  · exact absurd hc hu
  · exact ⟨key, sc, rfl⟩

namespace Exclusive

variable {s s' : State} {w t : ℕ} {L : ℕ → Word}

theorem fresh (seed : BitVec 32) (hK : ¬ K 0#32) (w : ℕ) :
    Exclusive seed K fresh w fun _ => 0#64 := by
  have hne : ∀ k, K k → entry k ≠ 0#64 := fun k hk => entry_ne_zero fun h0 => hK (h0 ▸ hk)
  refine ⟨Writing.idle (m := fun _ => 0#64) (fun _ => tag_zero) w, fun k hk => ⟨?_, ?_⟩, ?_, ?_⟩
  · exact fun i hi => absurd hi.symm (hne k hk)
  · exact fun i j hi _ => absurd hi.symm (hne k hk)
  · exact fun _ _ h => by cases h
  · exact fun _ _ h => by cases h

/-- What is known of all words the writer moves is known of the keys of `K`. -/
theorem keeps (h : Exclusive seed K s w L) (hK : ¬ K 0#32) :
    Keeps seed K (buckets s.mem) s.thr L := by
  have hne : ∀ k, K k → entry k ≠ 0#64 := fun k hk => entry_ne_zero fun h0 => hK (h0 ▸ hk)
  refine ⟨h.inv, fun k hk => (h.single k hk).window, fun u => ?_⟩
  have hs := h.suited u
  cases hr : threadRole (s.thr u) with
  | free | hold i => trivial
  | marking l r =>
    rw [hr] at hs
    intro k hk hL
    have hw := hs.resolve_left (by rw [hL]; exact hne k hk)
    rwa [hL] at hw
  | copied r =>
    rw [hr] at hs
    intro k hk hT
    rw [Role.Suited, hT, strip_moving, strip_entry] at hs
    exact hs.resolve_left (hne k hk)

/-- A run of one writer whose stamps are no keys of `K` is orderly on `K`. -/
theorem orderly {l : Label Call} (h : Exclusive seed K s w L) (hK : ¬ K 0#32)
    (hrun : Running (WriterOnly w) s) (hq : Moves (StampsOff seed K) s l) : Orderly seed K s l := by
  refine ⟨fun t key tid q hp _ i => ?_, ?_, ?_⟩
  · -- the writer runs the removal, so it is not moving a key
    obtain rfl : t = w := hrun t _ hp
    refine h.inv.ne_moving (fun u => ?_) i _
    by_cases hu : u = t
    · rw [hu, hp]
      trivial
    · rw [h.role_other hu]
      trivial
  · cases l with
    | call t c => trivial
    | move t => exact fun p hp => (h.clean hp).1 p hp
  · cases l with
    | call t c => trivial
    | move t =>
      intro p hp
      have hnear := (h.clean hp).2
      have hoff := hq p hp
      rcases p with ⟨key, a⟩ | ⟨key, tid, q⟩ | ⟨key, sc⟩
      · cases a with
        | relocate Loc q =>
          cases q with
          | mark r Exp =>
            intro hT hk
            refine (hnear hT).resolve_left fun h0 => hK ?_
            rwa [h0] at hk
          | getInd | getReplace | loadExp | loadDest | loadFin | copy | loadMark | overwrite =>
            trivial
        | contains | probe | reserve | loadExp | release | insert => trivial
      · cases q with
        | removeKey final i1 i2 =>
          intro hT
          refine ⟨hoff hT, fun hk p hp' hit => ?_⟩
          obtain rfl : t = w := hrun t _ hp
          have hL : buckets s.mem = L := h.buckets_eq (by rw [hp]; rfl)
          have hone := (h.single key hk).once
          have hi1 : L (home seed key + i1) = entry key := by rw [← hL, hT]
          have hip : L (home seed key + p) = entry key := by
            have ht : tag (buckets s.mem (home seed key + p)) = 0#64 := by
              rw [hL]
              exact h.inv.sim.untagged _
            rw [← hL]
            exact (hit_iff_of_tag ht).mp hit
          have := hone _ _ hip hi1
          omega
        | stamp | testKey | testMoving | removeMoving | loadSlot | testSlot | poison => trivial
      · trivial

theorem call {c : Call} (h : Exclusive seed K s w L) (hc : WriterOnly w t c)
    (hs : (table seed).step s (.call t c) = some s') : Exclusive seed K s' w L := by
  have hW := h.toWriting.call hs fun hne => by
    cases c with
    | contains key => trivial
    | add key | remove key tid => exact absurd hc hne
  obtain ⟨-, -, rfl⟩ := Machine.step_call.mp hs
  have hsame : ∀ p, w ≠ t → Function.update s.thr t (some (Pc.start c)) w = some p →
      s.thr w = some p := fun p hwt hp => by rwa [Function.update_of_ne hwt] at hp
  refine ⟨hW, h.single, fun key sc hp hk hc0 i hi => ?_, fun key q hp hq hk => ?_⟩ <;>
    by_cases hwt : w = t
  · subst hwt
    obtain he : Pc.start c = .add key (.contains sc) := by simpa [table] using hp
    cases c <;> cases he
    rw [Scan.start, Nat.add_zero]
    exact (window_entry.mp ((h.single key hk).window i hi)).1
  · exact h.scan key sc (hsame _ hwt hp) hk hc0 i hi
  · subst hwt
    obtain he : Pc.start c = .add key q := by simpa [table] using hp
    cases c <;> cases he
    exact hq.elim
  · exact h.past key q (hsame _ hwt hp) hq hk

/-- The writer's access keeps each key of `K` in one slot. -/
theorem single_step {T' L' : ℕ → Word} {p : Pc} {x : Option Pc} (h : Exclusive seed K s w L)
    (hK : ¬ K 0#32) (hp : s.thr w = some p) (hoff : StampsOff seed K (buckets s.mem) p)
    (ha : Act seed (buckets s.mem) L p x T' L') {k : Key} (hk : K k) :
    Single (homeOf seed) HOP L' (entry k) := by
  have hne : entry k ≠ 0#64 := entry_ne_zero fun h0 => hK (h0 ▸ hk)
  have hs := (h.keeps hK).suited w
  rw [hp] at hs
  cases ha with
  | quiet | reserve | mark | overwrite | release => exact h.single k hk
  | copy hlt => exact (h.single k hk).move (Nat.ne_of_lt hlt) hne (hs k hk)
  | @insert key tg c j _ hz hle =>
    by_cases hkey : key = k
    · subst hkey
      refine Single.insert (h.past key _ hp trivial hk) ?_
      exact window_entry.mpr ⟨Nat.le_add_right _ _, by omega⟩
    · exact (h.single k hk).put fun he => hkey (entry_inj he)
  | @erase key tid final i1 i2 he =>
    refine (h.single k hk).put fun hfin => hoff he ?_
    rwa [hfin, getKey_entry]

/-- What the writer knows after its access. -/
theorem own_next {T' L' : ℕ → Word} {key : Key} {q q' : Add} (h : Exclusive seed K s w L)
    (hK : ¬ K 0#32) (hp : s.thr w = some (.add key q))
    (hf : addFlow seed key s.mem q = .goto q')
    (ha : Act seed (buckets s.mem) L (.add key q) (some (.add key q')) T' L') (hk : K key) :
    (∀ sc, q' = .contains sc → sc.cxx = 0#64 → ∀ i, L' i = entry key → home seed key + sc.p ≤ i) ∧
      (q'.Past → ¬ Has L' (entry key)) := by
  have hne : key ≠ 0#32 := fun h0 => hK (h0 ▸ hk)
  have hread : ∀ sc, q = .contains sc → sc.read seed (buckets s.mem) key = 0#64 →
      ∀ i, L i = entry key → home seed key + (sc.p + 1) ≤ i := by
    rintro sc rfl hr i hi
    have hle : sc.p ≤ HOP := h.inv.ok w _ hp
    have hnot : ¬ (sc.cxx ≠ 0#64 ∨ Hit (buckets s.mem) key (home seed key + sc.p)) := fun ho =>
      (read_ne_zero hle).mpr ho hr
    rw [not_or, not_not] at hnot
    have hlow := h.scan key sc hp hk hnot.1 i hi
    have hip : i ≠ home seed key + sc.p := by
      rintro rfl
      exact hnot.2 ((h.keeps hK).hit_of_eq hne hi)
    omega
  rcases add_goto hf with ⟨sc, rfl, -, rfl⟩ | ⟨hpast, hend⟩
  · cases ha
    refine ⟨fun sc' e hc i hi => ?_, fun hq => hq.elim⟩
    cases e
    exact hread sc rfl hc i hi
  · refine ⟨fun sc' e => ?_, fun _ => ?_⟩
    · subst e
      exact hpast.elim
    · have hno : ¬ Has L (entry key) := by
        rcases q.past_or_contains with hq | ⟨sc, rfl⟩
        · exact h.past key q hp hq hk
        · rintro ⟨i, hi⟩
          obtain ⟨hend', hr⟩ := hend sc rfl
          have h1 := hread sc rfl hr i hi
          have h2 := (window_entry.mp ((h.single key hk).window i hi)).2
          omega
      intro hL
      have hnear : SparesKeys seed K (buckets s.mem) (.add key q) := by
        cases q with
        | relocate Loc q =>
          cases q with
          | mark r Exp =>
            intro hT hkE
            refine ((h.clean hp).2 hT).resolve_left fun h0 => hK ?_
            rwa [h0] at hkE
          | getInd | getReplace | loadExp | loadDest | loadFin | copy | loadMark | overwrite =>
            trivial
        | contains | probe | reserve | loadExp | release | insert => trivial
      rcases (h.keeps hK).before ha hp hnear hk hne hL with hL | ⟨hx, -⟩
      · exact hno hL
      · cases hx

theorem move (h : Exclusive seed K s w L) (hK : ¬ K 0#32)
    (hs : (table seed).step s (.move t) = some s') (hh : s'.halt = none)
    (hrun : Running (WriterOnly w) s) (hrun' : Running (WriterOnly w) s')
    (hq : Moves (StampsOff seed K) s (.move t)) : ∃ L', Exclusive seed K s' w L' := by
  obtain ⟨p, L', hp, hW, ha⟩ := h.toWriting.move hs hh
    (fun ht p hp => by
      obtain ⟨key, sc, rfl⟩ := hrun.contains_of_ne ht hp
      exact id)
    fun u hu p hp => by
      obtain ⟨key, sc, rfl⟩ := hrun'.contains_of_ne hu hp
      trivial
  obtain rfl := Machine.eq_advance hp hs
  have hthr : ((table seed).advance t p s).thr = Function.update s.thr t (next seed s.mem p) :=
    Machine.advance_thr hh
  by_cases htw : t = w
  · subst htw
    have hown : ∀ key q', ((table seed).advance t p s).thr t = some (.add key q') → K key →
        (∀ sc, q' = .contains sc → sc.cxx = 0#64 → ∀ i, L' i = entry key →
          home seed key + sc.p ≤ i) ∧ (q'.Past → ¬ Has L' (entry key)) := by
      intro key q' hu hk
      rw [hthr, Function.update_self] at hu
      obtain ⟨q, hf, rfl⟩ := next_eq_add hu
      rw [hu] at ha
      exact h.own_next hK hp hf ha hk
    refine ⟨L', hW, fun k hk => h.single_step hK hp (hq p hp) ha hk, ?_, ?_⟩
    · exact fun key sc hu hk => (hown key _ hu hk).1 sc rfl
    · exact fun key q' hu hpast hk => (hown key q' hu hk).2 hpast
  · obtain ⟨key, sc, rfl⟩ := hrun.contains_of_ne htw hp
    obtain ⟨-, rfl⟩ := Writing.act_of_reads ha trivial id
    have hsame : ((table seed).advance t (.contains key sc) s).thr w = s.thr w :=
      Machine.advance_thr_of_ne (Ne.symm htw) _
    refine ⟨L', hW, h.single, fun k sc' hu => ?_, fun k q hu => ?_⟩
    · rw [hsame] at hu
      exact h.scan k sc' hu
    · rw [hsame] at hu
      exact h.past k q hu

/-- Every step of such a run is orderly. -/
theorem along (hK : ¬ K 0#32) {ls : List (Label Call)}
    (hq : (table seed).Along (fun s l => Calls (WriterOnly w) l ∧ Moves (StampsOff seed K) s l)
      ls LFHash.fresh) : (table seed).Along (Orderly seed K) ls LFHash.fresh := by
  have hinv := Machine.Along.of_inv (M := table seed)
    (P := fun s => Running (WriterOnly w) s ∧ (s.halt = none → ∃ L, Exclusive seed K s w L)) ?_
    ⟨fun _ _ h => (by cases h), fun _ => ⟨_, fresh seed hK w⟩⟩ hq
  · refine hinv.mono fun s l s' hs h => ?_
    obtain ⟨⟨hrun, hE⟩, -, hoff⟩ := h
    obtain ⟨L, hE⟩ := hE (Machine.halt_of_step hs)
    exact hE.orderly hK hrun hoff
  · rintro s l s' ⟨hrun, hE⟩ ⟨hc, hoff⟩ hs
    have hrun' := hrun.step hc hs
    refine ⟨hrun', fun hh => ?_⟩
    obtain ⟨L, hE⟩ := hE (Machine.halt_of_step hs)
    cases l with
    | call t c => exact ⟨L, hE.call hc hs⟩
    | move t => exact hE.move hK hs hh hrun hrun' hoff

end Exclusive

/-! ### Stamps are small -/

/-- A removal that has drawn its stamp carries a word below 2^30. -/
def SmallStamps (s : State) : Prop :=
  ∀ t p w, s.thr t = some p → p.stamp? = some w → w.toNat < 2 ^ 30

theorem SmallStamps.step {s s' : State} {l : Label Call} (h : SmallStamps s)
    (hs : (table seed).step s l = some s') : SmallStamps s' := by
  intro u p' w hu hw
  by_cases hut : u = l.thread
  · subst hut
    cases l with
    | call t c =>
      obtain ⟨-, -, rfl⟩ := Machine.step_call.mp hs
      obtain rfl : Pc.start c = p' := by simpa [table, Label.thread] using hu
      cases c <;> cases hw
    | move t =>
      obtain ⟨-, p, hp, rfl⟩ := Machine.step_move.mp hs
      change ((table seed).advance t p s).thr t = some p' at hu
      cases hf : (table seed).flow s.mem p with
      | goto q =>
        rw [Machine.advance_goto hf] at hu
        obtain rfl : q = p' := by simpa using hu
        rcases stamp_next hf hw with hold | ⟨-, rfl⟩
        · exact h t p w hp hold
        · rw [toNat_finalEntry]
          exact Nat.mod_lt _ (by norm_num)
      | ret r =>
        rw [Machine.advance_ret hf] at hu
        simp at hu
      | exit e =>
        rw [Machine.advance_exit hf] at hu
        exact h t p' w hu hw
  · rw [Machine.step_thr_of_ne hs hut] at hu
    exact h u p' w hu hw

/-- A key of 30 bits or more. -/
def Large (k : Key) : Prop := 2 ^ 30 ≤ k.toNat

instance : DecidablePred Large := fun _ => inferInstanceAs (Decidable (_ ≤ _))

/-- No stamp is a large key. -/
theorem stampsOff_large {ls : List (Label Call)} :
    (table seed).Along (Moves (StampsOff seed Large)) ls fresh := by
  have hstart : SmallStamps fresh := fun _ _ _ h _ => by cases h
  have hinv := Machine.Along.of_inv (M := table seed) (P := SmallStamps) (Q := fun _ _ => True)
    (fun s l s' hP _ hs => hP.step hs) hstart
    (Machine.Along.of_forall (M := table seed) fun l (_ : l ∈ ls) => trivial)
  refine hinv.mono fun s l s' _ h => ?_
  cases l with
  | call t c => trivial
  | move t =>
    intro p hp
    rcases p with ⟨key, a⟩ | ⟨key, tid, q⟩ | ⟨key, sc⟩
    · trivial
    · cases q with
      | removeKey final i1 i2 =>
        intro _ hlarge
        have hsmall := h.1 t _ final hp rfl
        have hkey : (getKey final).toNat ≤ final.toNat := by
          rw [toNat_getKey]
          exact Nat.mod_le _ _
        exact absurd hsmall (not_lt.mpr (le_trans hlarge hkey))
      | stamp | testKey | testMoving | removeMoving | loadSlot | testSlot | poison => trivial
    · trivial

/-- In every run in which one thread adds and removes keys and any number of others look
keys up, the calls on the keys from 2^30 on are those of an atomic set. -/
theorem one_writer_linearizable {w : ℕ} {ls : List (Label Call)} {s : State}
    (hr : (table seed).run ls fresh = some s) (hl : ∀ l ∈ ls, Calls (WriterOnly w) l) :
    Linearizable keySet (fun _ => false)
      (((table seed).history ls fresh).filter fun e => decide (Large (eventKey e))) := by
  have hK : ¬ Large 0#32 := by decide
  obtain ⟨τ, hτ⟩ := runs_of_orderly hK hr
    (Exclusive.along (w := w) hK ((Machine.Along.of_forall hl).and stampsOff_large))
  exact Watched.linearizable hτ

/-! A lookup begins, its key is removed, and the lookup goes on. -/

def onlookerRun : List (Label Call) :=
  alone 0 (.add 1073741825) 23 ++ .call 1 (.contains 1073741825) ::
    alone 0 (.remove 1073741825 0) 70 ++ List.replicate 17 (.move 1)

set_option maxRecDepth 10000 in
theorem one_onlooker_linearizable :
    Linearizable keySet (fun _ => false) (((table 1).history onlookerRun fresh).filter
      fun e => decide (Large (eventKey e))) := by
  have h : ((table 1).run onlookerRun fresh).isSome = true := by decide +kernel
  obtain ⟨s, hs⟩ := Option.isSome_iff_exists.mp h
  exact one_writer_linearizable (w := 0) hs (by decide +kernel)

end LFHash
