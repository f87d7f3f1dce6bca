/-
# Removed slots

What a removal writes into the slot it vacates, and what an insertion makes of it. The
removals of a run are numbered in the order in which they draw their timestamps; number
`n` writes the word `n` modulo 2^30, whatever the run (`Stamped`), so two removals write
different words exactly if their numbers differ modulo 2^30. An insertion never finds
the header 2 in a removed slot: it goes through its window twice and exits.

Key definitions: `Ledger`, `ledger`, `Stamped`, `inserter`.
Key theorems: `Stamped.step`, `removal_stamps_differ_iff`, `no_removed_slot_is_reused`.
-/
import LFHash.Lookup

namespace LFHash

open Interleave

variable {seed : BitVec 32} {m : Cell → Word}

/-! ### The stamp of a removal -/

/-- The thread is about to draw its timestamp, line 229. -/
def Pc.Draws : Pc → Prop
  | .remove _ _ .stamp => True
  | _ => False

instance : DecidablePred Pc.Draws
  | .remove _ _ .stamp => isTrue trivial
  | .remove _ _ (.testKey _ _) | .remove _ _ (.testMoving _ _) | .remove _ _ (.removeKey _ _ _)
  | .remove _ _ (.removeMoving _ _ _) | .remove _ _ (.loadSlot _ _)
  | .remove _ _ (.testSlot _ _ _) | .remove _ _ (.poison _ _ _) | .add _ _ | .contains _ _ =>
    isFalse id

/-- `FinalEntry` of a removal that has still to use it. -/
def Pc.stamp? : Pc → Option Word
  | .remove _ _ (.testKey final _) | .remove _ _ (.testMoving final _)
  | .remove _ _ (.removeKey final _ _) | .remove _ _ (.removeMoving final _ _) => some final
  | _ => none

/-- What the access writes into the slot it vacates, lines 253 and 256. -/
def Pc.vacates? (seed : BitVec 32) (T : ℕ → Word) : Pc → Option Word
  | .remove key _ (.removeKey final i1 _) =>
    if T (home seed key + i1) = entry key then some final else none
  | .remove key _ (.removeMoving final i2 _) =>
    if T (home seed key + i2) = moving (entry key) then some final else none
  | _ => none

theorem stamp_of_vacates {T : ℕ → Word} {p : Pc} {w : Word} (h : p.vacates? seed T = some w) :
    p.stamp? = some w := by
  unfold Pc.vacates? at h
  split at h
  · split_ifs at h
    exact h
  · split_ifs at h
    exact h
  · cases h

@[simp] theorem stamp_nextScan {key : Key} {tid : ℤ} {final cxx : Word} {n : ℕ} :
    (Pc.remove key tid (.nextScan final n cxx)).stamp? = some final := by
  unfold Remove.nextScan
  split_ifs <;> rfl

theorem stamp_nextSlot {key : Key} {tid : ℤ} {n : ℕ} {rem : Bool} {q : Remove}
    (h : Remove.nextSlot n rem = .goto q) : (Pc.remove key tid q).stamp? = none := by
  unfold Remove.nextSlot at h
  split_ifs at h
  cases h
  rfl

/-- A removal goes on with the stamp it has, or with the one it has drawn. -/
theorem stamp_next {p p' : Pc} {w : Word} (hf : (table seed).flow m p = .goto p')
    (h : p'.stamp? = some w) :
    p.stamp? = some w ∨ p.Draws ∧ w = finalEntry (m .timeStamp) := by
  rcases p with ⟨key, a⟩ | ⟨key, tid, q⟩ | ⟨key, sc⟩
  · obtain ⟨a', -, rfl⟩ | ⟨b, -, hb⟩ := Flow.bind_eq_goto.mp hf
    · cases h
    · cases hb
  · obtain ⟨q', hq, rfl⟩ | ⟨b, -, hb⟩ := Flow.bind_eq_goto.mp hf
    swap
    · cases hb
    cases q with
    | stamp =>
      cases hq
      cases h
      exact Or.inr ⟨trivial, rfl⟩
    | testKey final sc =>
      simp only [remove] at hq
      split_ifs at hq <;> cases hq
      · rw [stamp_nextScan] at h
        exact Or.inl h
      · exact Or.inl h
    | testMoving final sc =>
      simp only [remove] at hq
      split_ifs at hq <;> cases hq <;> rw [stamp_nextScan] at h <;> exact Or.inl h
    | removeKey final i1 i2 =>
      cases hq
      exact Or.inl h
    | removeMoving final i2 rem | loadSlot n rem =>
      cases hq
      cases h
    | testSlot n slot rem =>
      simp only [remove] at hq
      split_ifs at hq
      · cases hq
        cases h
      · rw [stamp_nextSlot hq] at h
        cases h
    | poison n slot rem =>
      rw [stamp_nextSlot hq] at h
      cases h
  · obtain ⟨sc', -, rfl⟩ | ⟨b, -, hb⟩ := Flow.bind_eq_goto.mp hf
    · cases h
    · cases hb

/-- Only line 229 changes the counter. -/
theorem timeStamp_exec {p : Pc} (h : ¬ p.Draws) :
    ((p.code seed).1.exec m).2 .timeStamp = m .timeStamp := by
  refine Access.exec_of_ne m _ ?_
  rcases p with ⟨key, a⟩ | ⟨key, tid, q⟩ | ⟨key, sc⟩
  · cases a with
    | relocate Loc q => cases q <;> simp [Pc.code, add, relocate, Access.addr]
    | insert q => cases q <;> simp [Pc.code, add, bucketInsert, Access.addr]
    | contains | probe | reserve | loadExp | release => simp [Pc.code, add, contains, Access.addr]
  · cases q with
    | stamp => exact absurd trivial h
    | testKey | testMoving | removeKey | removeMoving | loadSlot | testSlot | poison =>
      simp [Pc.code, remove, Access.addr]
  · simp [Pc.code, contains, Access.addr]

theorem draws_flow {p : Pc} (h : p.Draws) :
    ((p.code seed).1.exec m).2 = Function.update m .timeStamp (m .timeStamp + 1#64) := by
  unfold Pc.Draws at h
  split at h
  · rfl
  · exact h.elim

/-! ### The removals of a run -/

/-- How many removals have drawn, which of them (from 0 on) each thread runs, and what the
removals have written into the slots they have vacated. -/
structure Ledger where
  drawn : ℕ
  mine : ℕ → ℕ
  vacated : List (ℕ × Word)

def Ledger.empty : Ledger := ⟨0, fun _ => 0, []⟩

def Ledger.step (seed : BitVec 32) (s : State) (g : Ledger) : Label Call → Ledger
  | .call _ _ => g
  | .move t =>
    match s.thr t with
    | none => g
    | some p =>
      if p.Draws then { g with drawn := g.drawn + 1, mine := Function.update g.mine t g.drawn }
      else { g with
        vacated := (p.vacates? seed (buckets s.mem)).toList.map (Prod.mk (g.mine t)) ++ g.vacated }

/-- The ledger after a run. -/
def ledger (seed : BitVec 32) : List (Label Call) → State → Ledger → Ledger
  | [], _, g => g
  | l :: ls, s, g =>
    match (table seed).step s l with
    | none => g
    | some s' => ledger seed ls s' (g.step seed s l)

/-- The counter counts the draws, and every stamp is that of the removal's number. -/
structure Stamped (s : State) (g : Ledger) : Prop where
  counter : s.mem .timeStamp = BitVec.ofNat 64 g.drawn
  held : ∀ t p w, s.thr t = some p → p.stamp? = some w →
    w = finalEntry (BitVec.ofNat 64 (g.mine t))
  written : ∀ x ∈ g.vacated, x.2 = finalEntry (BitVec.ofNat 64 x.1)

namespace Stamped

variable {s s' : State} {g : Ledger}

theorem empty : Stamped fresh .empty where
  counter := rfl
  held _ _ _ h := by cases h
  written _ h := by cases h

/-- The stamp a thread holds after an access of thread `t`: it has had it before, or thread
`t` has just drawn it. -/
theorem held_after {t : ℕ} {p : Pc} (h : Stamped s g) (hp : s.thr t = some p) {u : ℕ} {p' : Pc}
    {w : Word} (hu : ((table seed).advance t p s).thr u = some p') (hw : p'.stamp? = some w) :
    w = finalEntry (BitVec.ofNat 64 (g.mine u)) ∧ (u = t → p.stamp? = some w) ∨
      u = t ∧ p.Draws ∧ w = finalEntry (s.mem .timeStamp) := by
  by_cases hut : u = t
  · subst hut
    cases hf : (table seed).flow s.mem p with
    | goto q =>
      rw [Machine.advance_goto hf] at hu
      obtain rfl : q = p' := by simpa using hu
      rcases stamp_next hf hw with hold | ⟨hd, hw'⟩
      · exact Or.inl ⟨h.held u p w hp hold, fun _ => hold⟩
      · exact Or.inr ⟨rfl, hd, hw'⟩
    | ret r =>
      rw [Machine.advance_ret hf] at hu
      simp at hu
    | exit e =>
      rw [Machine.advance_exit hf] at hu
      have he : some p = some p' := hp.symm.trans hu
      cases he
      exact Or.inl ⟨h.held u p w hp hw, fun _ => hw⟩
  · rw [Machine.advance_thr_of_ne hut] at hu
    exact Or.inl ⟨h.held u p' w hu hw, fun e => absurd e hut⟩

theorem call {t : ℕ} {c : Call} (h : Stamped s g)
    (hs : (table seed).step s (.call t c) = some s') : Stamped s' g := by
  obtain ⟨-, -, rfl⟩ := Machine.step_call.mp hs
  refine ⟨h.counter, fun u p w hp hw => ?_, h.written⟩
  by_cases hut : u = t
  · subst hut
    obtain rfl : Pc.start c = p := by simpa [table] using hp
    cases c <;> cases hw
  · have hp' : s.thr u = some p := by simpa [Function.update_of_ne hut] using hp
    exact h.held u p w hp' hw

theorem step {l : Label Call} (h : Stamped s g) (hs : (table seed).step s l = some s') :
    Stamped s' (g.step seed s l) := by
  cases l with
  | call t c => exact h.call hs
  | move t =>
    obtain ⟨-, p, hp, rfl⟩ := Machine.step_move.mp hs
    by_cases hd : p.Draws
    · simp only [Ledger.step, hp, hd, if_true]
      refine ⟨?_, fun u p' w hp' hw => ?_, h.written⟩
      · have hexec : (((table seed).code p).1.exec s.mem).2 = _ := draws_flow hd
        rw [Machine.advance_mem, hexec, Function.update_self, h.counter]
        exact (BitVec.ofNat_add g.drawn 1).symm
      · show w = finalEntry (BitVec.ofNat 64 (Function.update g.mine t g.drawn u))
        rcases h.held_after hp hp' hw with ⟨hw', hold⟩ | ⟨rfl, -, hw'⟩
        · have hut : u ≠ t := by
            intro e
            have hst := hold e
            unfold Pc.Draws at hd
            split at hd
            · cases hst
            · exact hd.elim
          rwa [Function.update_of_ne hut]
        · rw [Function.update_self, hw', h.counter]
    · simp only [Ledger.step, hp, hd, if_false]
      refine ⟨?_, fun u p' w hp' hw => ?_, fun x hx => ?_⟩
      · rw [Machine.advance_mem, ← h.counter]
        exact timeStamp_exec hd
      · rcases h.held_after hp hp' hw with ⟨hw', -⟩ | ⟨-, hd', -⟩
        · exact hw'
        · exact absurd hd' hd
      · rcases List.mem_append.mp hx with hnew | hold
        · obtain ⟨w, hw, rfl⟩ := List.mem_map.mp hnew
          exact h.held t p w hp (stamp_of_vacates (Option.mem_toList.mp hw))
        · exact h.written x hold

theorem run (seed : BitVec 32) : ∀ (ls : List (Label Call)) {s : State} {g : Ledger},
    Stamped s g → ∃ s', Stamped s' (ledger seed ls s g)
  | [], s, _, h => ⟨s, h⟩
  | l :: ls, s, g, h => by
    unfold ledger
    cases hs : (table seed).step s l with
    | none => exact ⟨s, h⟩
    | some s' => exact run seed ls (h.step hs)

end Stamped

theorem toNat_finalEntry_ofNat (n : ℕ) : (finalEntry (BitVec.ofNat 64 n)).toNat = n % 2 ^ 30 := by
  rw [toNat_finalEntry, BitVec.toNat_ofNat]
  omega

/-- Two removals write different words exactly if their numbers differ modulo 2^30, and so
do the words built from two values of the counter. -/
theorem removal_stamps_differ_iff (seed : BitVec 32) (ls : List (Label Call)) :
    (∀ x ∈ (ledger seed ls fresh .empty).vacated, ∀ y ∈ (ledger seed ls fresh .empty).vacated,
      (x.2 ≠ y.2 ↔ x.1 % 2 ^ 30 ≠ y.1 % 2 ^ 30)) ∧
    ∀ c c' : Word, finalEntry c ≠ finalEntry c' ↔ c.toNat % 2 ^ 30 ≠ c'.toNat % 2 ^ 30 := by
  have hinj : ∀ {v w : Word} {a b : ℕ}, v.toNat = a → w.toNat = b → (v ≠ w ↔ a ≠ b) := by
    rintro v w _ _ rfl rfl
    exact not_congr BitVec.toNat_inj.symm
  obtain ⟨s, h⟩ := Stamped.run seed ls Stamped.empty
  refine ⟨fun x hx y hy => hinj ?_ ?_, fun c c' => hinj (toNat_finalEntry c) (toNat_finalEntry c')⟩
  · rw [h.written x hx, toNat_finalEntry_ofNat]
  · rw [h.written y hy, toNat_finalEntry_ofNat]

/-- Two removals of the key 1. -/
def twiceRemoved : List (Label Call) :=
  alone 0 (.add 1) 23 ++ alone 0 (.remove 1 0) 70 ++ alone 0 (.add 1) 23 ++ alone 0 (.remove 1 0) 70

set_option maxRecDepth 10000 in
theorem two_removal_stamps_differ : ∃ x ∈ (ledger 1 twiceRemoved fresh .empty).vacated,
    ∃ y ∈ (ledger 1 twiceRemoved fresh .empty).vacated, x.2 ≠ y.2 := by
  have hv : (ledger 1 twiceRemoved fresh .empty).vacated = [(1, 1#64), (0, 0#64)] := by
    decide +kernel
  have hx : (1, 1#64) ∈ (ledger 1 twiceRemoved fresh .empty).vacated := by
    rw [hv]
    exact List.mem_cons_self
  have hy : (0, 0#64) ∈ (ledger 1 twiceRemoved fresh .empty).vacated := by
    rw [hv]
    exact List.mem_cons_of_mem _ List.mem_cons_self
  exact ⟨_, hx, _, hy, ((removal_stamps_differ_iff 1 twiceRemoved).1 _ hx _ hy).mpr (by decide)⟩

/-- The first removal and the one after 2^30 others. -/
theorem removal_stamps_can_agree : (0#64).toNat < 2 ^ 62 ∧ (0x40000000#64).toNat < 2 ^ 62 ∧
    0#64 ≠ 0x40000000#64 ∧ finalEntry 0#64 = finalEntry 0x40000000#64 := by decide

/-! ### The insertion beside removed slots -/

/-- `while(!BucketInsert(BaseBucket, key)){}`, line 167, for any base bucket. -/
def inserter : Machine Cell Word (ℕ × Key) (ℕ × Key × Insert) Unit Exit where
  start c := (c.1, c.2, .start)
  code p := (bucketInsert p.1 p.2.1 p.2.2).inside (fun q => (p.1, p.2.1, q)) fun inserted =>
    if inserted then .ret () else .goto (p.1, p.2.1, .start)

/-- The memory `m`, and nothing running. -/
def atRest (m : Cell → Word) : Config Cell Word (ℕ × Key × Insert) Unit Exit :=
  ⟨m, fun _ => none, [], none⟩

/-- The loop stands at `q`, and the memory is `m`. -/
def insertingAt (m : Cell → Word) (b : ℕ) (key : Key) (q : Insert) :
    Config Cell Word (ℕ × Key × Insert) Unit Exit :=
  { atRest m with thr := Function.update (fun _ => none) 0 (some (b, key, q)) }

theorem insertingAt_thr {b : ℕ} {key : Key} {q : Insert} :
    (insertingAt m b key q).thr 0 = some (b, key, q) := rfl

theorem inserter_step {b : ℕ} {key : Key} {q q' : Insert}
    (hm : ((bucketInsert b key q).1.exec m).2 = m)
    (hf : (bucketInsert b key q).2 ((bucketInsert b key q).1.exec m).1 = .goto q') :
    inserter.step (insertingAt m b key q) (.move 0) = some (insertingAt m b key q') := by
  refine Machine.step_move.mpr ⟨rfl, (b, key, q), insertingAt_thr, ?_⟩
  have hflow : inserter.flow m (b, key, q) = .goto (b, key, q') := by
    simp only [Machine.flow, inserter, Point.inside_fst, Point.inside_snd, hf, Flow.bind_goto]
  have hmem : ((inserter.code (b, key, q)).1.exec m).2 = m := hm
  have hadv := Machine.advance_goto (s := insertingAt m b key q) (t := 0) hflow
  rw [hadv]
  simp only [insertingAt, atRest, Function.update_idem, hmem]

variable {b : ℕ} {key : Key}

/-- The first loop finds no empty slot. -/
theorem inserter_first (hfull : ∀ p ≤ HOP, m (.bucket (b + p)) ≠ 0#64) : ∀ (n p : ℕ),
    HOP = p + n → inserter.run (List.replicate (n + 1) (.move 0))
      (insertingAt m b key (.first 0#64 none p)) = some (insertingAt m b key (.second none 0)) := by
  intro n
  induction n with
  | zero =>
    intro p hp
    have hz := hfull p (by omega)
    have hlt : ¬ p < HOP := by omega
    refine Machine.run_cons.mpr ⟨_, inserter_step rfl ?_, rfl⟩
    simp [bucketInsert, isRemoved_eq_false, hz, Insert.nextFirst, hlt]
  | succ n ih =>
    intro p hp
    have hz := hfull p (by omega)
    have hlt : p < HOP := by omega
    refine Machine.run_cons.mpr ⟨_, inserter_step rfl ?_, ih (p + 1) (by omega)⟩
    simp [bucketInsert, isRemoved_eq_false, hz, Insert.nextFirst, hlt]

/-- The second loop finds no removed slot. -/
theorem inserter_second : ∀ (n p : ℕ), HOP = p + n → ∃ s,
    inserter.run (List.replicate (n + 1) (.move 0)) (insertingAt m b key (.second none p)) = some s ∧
      s.halt = some .needRehashing := by
  intro n
  induction n with
  | zero =>
    intro p hp
    have hlt : ¬ p < HOP := by omega
    have hflow : inserter.flow m (b, key, .second none p) = .exit .needRehashing := by
      simp [Machine.flow, inserter, bucketInsert, isRemoved_eq_false, hlt]
    refine ⟨_, Machine.run_cons.mpr ⟨_, Machine.step_move.mpr
      ⟨rfl, (b, key, .second none p), insertingAt_thr, rfl⟩, rfl⟩, ?_⟩
    have hadv := Machine.advance_exit (s := insertingAt m b key (.second none p)) (t := 0) hflow
    rw [hadv]
  | succ n ih =>
    intro p hp
    have hlt : p < HOP := by omega
    obtain ⟨s, hs, hh⟩ := ih (p + 1) (by omega)
    refine ⟨s, Machine.run_cons.mpr ⟨_, inserter_step rfl ?_, hs⟩, hh⟩
    simp [bucketInsert, isRemoved_eq_false, hlt]

/-- The control points that only load. -/
def Insert.Searching : Insert → Prop
  | .first _ _ p => p ≤ HOP
  | .second _ _ => True
  | .claim _ _ _ | .reuse _ _ => False

theorem searching_nextFirst {tg : Word} {c : Option Word} {p : ℕ} :
    (Insert.nextFirst tg c p).Searching := by
  unfold Insert.nextFirst
  split_ifs with h
  · exact h
  · trivial

/-- In a full window a load leads to another one, or out of the process. -/
theorem searching_flow (hfull : ∀ p ≤ HOP, m (.bucket (b + p)) ≠ 0#64) {q : Insert}
    (hq : q.Searching) : ((bucketInsert b key q).1.exec m).2 = m ∧
      ((∃ q', (bucketInsert b key q).2 ((bucketInsert b key q).1.exec m).1 = .goto q' ∧
        q'.Searching) ∨
      (bucketInsert b key q).2 ((bucketInsert b key q).1.exec m).1 = .exit .needRehashing) := by
  cases q with
  | first tg c p =>
    have hz := hfull p hq
    refine ⟨rfl, Or.inl ⟨.nextFirst tg c p, ?_, searching_nextFirst⟩⟩
    simp [bucketInsert, isRemoved_eq_false, hz]
  | second c p =>
    refine ⟨rfl, ?_⟩
    by_cases hp : p < HOP
    · exact Or.inl ⟨.second c (p + 1), by simp [bucketInsert, isRemoved_eq_false, hp], trivial⟩
    · exact Or.inr (by simp [bucketInsert, isRemoved_eq_false, hp])
  | claim | reuse => exact hq.elim

/-- Whatever the words of the window are, if none of them is 0: the loop exits, and has
changed nothing; it never returns. -/
theorem no_removed_slot_is_reused (hfull : ∀ p ≤ HOP, m (.bucket (b + p)) ≠ 0#64) :
    (∃ s, inserter.run (.call 0 (b, key) :: List.replicate (2 * (HOP + 1)) (.move 0))
      (atRest m) = some s ∧ s.halt = some .needRehashing) ∧
    ∀ n s, inserter.run (.call 0 (b, key) :: List.replicate n (.move 0)) (atRest m) = some s →
      s.mem = m ∧ s.log = [] := by
  have hcall : inserter.step (atRest m) (.call 0 (b, key)) = some (insertingAt m b key .start) :=
    Machine.step_call.mpr ⟨rfl, rfl, rfl⟩
  constructor
  · obtain ⟨s, hs, hh⟩ := inserter_second (m := m) (b := b) HOP 0 (Nat.zero_add _).symm
    refine ⟨s, Machine.run_cons.mpr ⟨_, hcall, ?_⟩, hh⟩
    rw [Nat.two_mul, List.replicate_add, Machine.run_append, Insert.start,
      inserter_first hfull HOP 0 (Nat.zero_add _).symm, Option.bind_some]
    exact hs
  · intro n s hr
    obtain ⟨s₁, h1, h2⟩ := Machine.run_cons.mp hr
    rw [hcall, Option.some.injEq] at h1
    subst h1
    have hinv := Machine.run_moves_inv (M := inserter) (t := 0) (P := fun s =>
      s.mem = m ∧ s.log = [] ∧ ∃ q : Insert, s.thr 0 = some (b, key, q) ∧ q.Searching) ?_ n
      ⟨rfl, rfl, .start, insertingAt_thr, Nat.zero_le _⟩ h2
    · exact ⟨hinv.1, hinv.2.1⟩
    · rintro s s' ⟨rfl, hlog, q, hq, hsearch⟩ hs
      obtain rfl := Machine.eq_advance hq hs
      have hload := @searching_flow s.mem b key hfull q hsearch
      obtain ⟨hmem, ⟨q', hf, hsearch'⟩ | hf⟩ := hload
      · have hflow : inserter.flow s.mem (b, key, q) = .goto (b, key, q') := by
          simp only [Machine.flow, inserter, Point.inside_fst, Point.inside_snd, hf, Flow.bind_goto]
        have hthr := Machine.advance_thr_goto (s := s) (t := 0) hflow
        rw [Machine.advance_goto hflow] at hthr ⊢
        exact ⟨hmem, hlog, q', hthr, hsearch'⟩
      · have hflow : inserter.flow s.mem (b, key, q) = .exit .needRehashing := by
          simp only [Machine.flow, inserter, Point.inside_fst, Point.inside_snd, hf, Flow.bind_exit]
        rw [Machine.advance_exit hflow]
        exact ⟨hmem, hlog, q, hq, hsearch⟩

/-- A window with one removed slot, of tag 2. -/
def removedTable : Cell → Word
  | .bucket i => if i = 1003 then 2#64 <<< 62 else 7#64
  | .timeStamp => 0#64

theorem one_removed_slot_is_not_reused : ∃ s,
    inserter.run (.call 0 (1000, 5) :: List.replicate (2 * (HOP + 1)) (.move 0))
      (atRest removedTable) = some s ∧ s.halt = some .needRehashing :=
  (no_removed_slot_is_reused (m := removedTable) (b := 1000) (by decide)).1

theorem removed_slot_can_be_left : (∀ p ≤ HOP, removedTable (.bucket (1000 + p)) ≠ 0#64) ∧
    tag (removedTable (.bucket (1000 + 3))) = 2#64 ∧ ∃ s,
    inserter.run (.call 0 (1000, 5) :: List.replicate 34 (.move 0)) (atRest removedTable) = some s ∧
      s.halt = some .needRehashing ∧ s.log = [] := by
  have h : (inserter.run (.call 0 (1000, 5) :: List.replicate 34 (.move 0))
      (atRest removedTable)).any (fun s => decide (s.halt = some .needRehashing ∧
        s.log = [])) = true := by decide +kernel
  obtain ⟨s, hs, h⟩ := (Option.any_eq_true _ _).mp h
  obtain ⟨hh, hlog⟩ := of_decide_eq_true h
  exact ⟨by decide, by decide, s, hs, hh, hlog⟩

end LFHash
