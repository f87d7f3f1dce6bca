/-
# A single writer

One thread adds and removes keys, all others only read. Nothing the writer has
read changes before it uses it (`Add.Steady`): its claims find the empty slots it
has read, the candidate that `Relocate` has picked is the one it marks, and its
insertion finds the slot it has given back. So every step keeps the logical table
(`Writing.move`), from any table without tags.

Key definitions: `Pc.Reads`, `Add.Steady`, `Writing`.
Key theorems: `steady_goto`, `Writing.move`.
-/
import LFHash.Reservation

namespace LFHash

open Interleave Hopscotch

variable {seed : BitVec 32}

/-- The thread has only loaded so far: a lookup, or a removal up to line 253. -/
def Pc.Reads : Pc → Prop
  | .contains _ _ => True
  | .remove _ _ .stamp | .remove _ _ (.testKey _ _) | .remove _ _ (.testMoving _ _) => True
  | .remove _ _ (.removeKey _ _ _) => True
  | .remove _ _ (.removeMoving _ _ _) | .remove _ _ (.loadSlot _ _) => False
  | .remove _ _ (.testSlot _ _ _) | .remove _ _ (.poison _ _ _) | .add _ _ => False

/-- The thread is at line 253. -/
def Pc.Erases : Pc → Prop
  | .remove _ _ (.removeKey _ _ _) => True
  | _ => False

theorem Pc.Reads.role {p : Pc} (h : p.Reads) : p.role = .free := by
  cases p with
  | add key a => exact h.elim
  | remove key tid a | contains key sc => rfl

/-- What `Relocate(Loc, _)` has read is still so. -/
def Relocate.Steady (seed : BitVec 32) (T : ℕ → Word) (Loc : ℕ) : Relocate → Prop
  | .getInd r ind => ind = r
  | .loadExp r => hopDist seed Loc (T r) < HOP
  | .mark r Exp => T r = Exp ∧ hopDist seed Loc Exp < HOP
  | .getReplace _ | .loadDest _ | .loadFin _ _ | .copy _ _ _ => True
  | .loadMark _ | .overwrite _ _ => True

/-- What the writer's `add` has read is still so; `Hopeful` says it of `BucketInsert`. -/
def Add.Steady (seed : BitVec 32) (T : ℕ → Word) : Add → Prop
  | .probe tg _ _ => tg = 0#64
  | .reserve tg i n => tg = 0#64 ∧ (n ≤ ADD_RANGE → T i = 0#64)
  | .relocate Loc q => q.Steady seed T Loc
  | .contains _ | .loadExp _ | .release _ _ | .insert _ => True

theorem steady_probeNext {T : ℕ → Word} {i n : ℕ} (hn : n ≤ ADD_RANGE) :
    (Add.probeNext 0#64 i n).Steady seed T := by
  unfold Add.probeNext
  split_ifs with h
  · exact rfl
  · exact ⟨rfl, fun hle => by omega⟩

theorem steady_settle {T : ℕ → Word} {key : Key} {i : ℕ} :
    (Add.settle seed key i).Steady seed T := by
  unfold Add.settle
  split_ifs
  · exact rfl
  · trivial

variable {m : Cell → Word} {key : Key}

/-- The access of a relocation, with all slots but `Loc` untagged. -/
theorem relocate_steady {Loc : ℕ} {e : Word} {q q' : Relocate} (hq : q.Ok Loc)
    (h : q.Steady seed (buckets m) Loc)
    (hun : ∀ i, ¬ (q.role Loc).Owns i → tag (buckets m i) = 0#64)
    (hf : (relocate seed Loc e q).2 ((relocate seed Loc e q).1.exec m).1 = .goto q') :
    q'.Steady seed (buckets ((relocate seed Loc e q).1.exec m).2) Loc := by
  cases q with
  | getInd r ind =>
    obtain rfl : ind = r := h
    rcases seek_eq_goto.mp hf with ⟨rfl, -⟩ | ⟨rfl, hd, -⟩
    · trivial
    · exact hd
  | getReplace r =>
    rcases seek_eq_goto.mp hf with ⟨rfl, -⟩ | ⟨rfl, hd, -⟩
    · trivial
    · exact hd
  | loadExp r =>
    have hlt : r < Loc := hq.2
    have ht : tag (buckets m r) = 0#64 := hun r (Nat.ne_of_lt hlt)
    have hs : strip (buckets m r) = buckets m r := strip_of_tag ht
    cases hf
    show buckets m r = strip (buckets m r) ∧ hopDist seed Loc (strip (buckets m r)) < HOP
    rw [hs]
    exact ⟨rfl, h⟩
  | mark r Exp =>
    have he : m (.bucket r) = Exp := h.1
    simp only [relocate, Access.exec_cas_of_eq m _ he, if_true] at hf
    cases hf
    trivial
  | loadDest r | loadFin r Dest | copy r Dest Fin | loadMark r => cases hf; trivial
  | overwrite r Exp => cases hf

/-- The access of the writer's `add`. -/
theorem steady_goto {a b : Add} (ha : a.Ok seed key) (h : a.Steady seed (buckets m))
    (hun : ∀ i, ¬ a.role.Owns i → tag (buckets m i) = 0#64)
    (hf : addFlow seed key m a = .goto b) :
    b.Steady seed (buckets ((add seed key a).1.exec m).2) := by
  cases a with
  | contains s =>
    rcases Flow.bind_eq_goto.mp hf with ⟨s', -, rfl⟩ | ⟨found, -, hb⟩
    · trivial
    · split_ifs at hb
      cases hb
      exact steady_probeNext (Nat.zero_le _)
  | probe tg i n =>
    obtain rfl : tg = 0#64 := h
    have hn : n ≤ ADD_RANGE := ha.2.2
    simp only [addFlow, add, Access.exec_load] at hf ⊢
    split_ifs at hf with hz <;> cases hf
    · exact steady_probeNext hn
    · exact ⟨rfl, fun _ => not_not.mp hz⟩
  | reserve tg i n =>
    obtain ⟨rfl, hz⟩ := h
    -- a failed compare-exchange with slots left would contradict the read before it
    have hok : n < ADD_RANGE → ((add seed key (.reserve 0#64 i n)).1.exec m).1.ok = true := by
      intro hlt
      have he : m (.bucket i) = 0#64 := hz hlt.le
      simp only [add, Access.exec_cas_of_eq m _ he]
    simp only [addFlow, add] at hf hok
    split_ifs at hf with hc
    · simp only [Bool.and_eq_true, Bool.not_eq_true', decide_eq_true_eq] at hc
      rw [hok hc.2] at hc
      exact absurd hc.1 (by decide)
    · unfold Add.reserved at hf
      split_ifs at hf
      cases hf
      exact steady_settle
  | relocate Loc q =>
    rcases Flow.bind_eq_goto.mp hf with ⟨q', hq', rfl⟩ | ⟨r, -, hk⟩
    · exact relocate_steady ha.2.2 h hun hq'
    · split_ifs at hk
      cases hk
      exact steady_settle
  | loadExp i | release i Exp => cases hf; trivial
  | insert q =>
    rcases Flow.bind_eq_goto.mp hf with ⟨q', -, rfl⟩ | ⟨b', -, hk⟩
    · trivial
    · split_ifs at hk
      cases hk
      trivial

/-! ### The writer's runs -/

/-- Thread `w` is the only writer, and what it has read is so. -/
structure Writing (seed : BitVec 32) (s : State) (w : ℕ) (L : ℕ → Word) : Prop where
  inv : Inv seed (buckets s.mem) s.thr L
  reads : ∀ u ≠ w, ∀ p, s.thr u = some p → p.Reads
  suited : ∀ t, (threadRole (s.thr t)).Suited seed (buckets s.mem) L
  steady : ∀ key a, s.thr w = some (.add key a) → a.Steady seed (buckets s.mem)
  hopes : ∀ key a, s.thr w = some (.add key a) → a.Hopeful seed (buckets s.mem) key

/-- The memory `m`, and no call running. -/
def idleState (m : Cell → Word) : State := ⟨m, fun _ => none, [], none⟩

/-- A table with `keys` in the slots from `b` on. -/
def tableOf (b : ℕ) (keys : List Key) : Cell → Word
  | .bucket i => if b ≤ i then ((keys[i - b]?).map entry).getD 0#64 else 0#64
  | .timeStamp => 0#64

theorem buckets_tableOf (b : ℕ) (keys : List Key) (i : ℕ) :
    buckets (tableOf b keys) i = 0#64 ∨ ∃ key ∈ keys, buckets (tableOf b keys) i = entry key := by
  unfold buckets tableOf
  dsimp only
  split_ifs with h
  · cases hk : keys[i - b]? with
    | none => exact Or.inl rfl
    | some key => exact Or.inr ⟨key, List.mem_of_getElem? hk, rfl⟩
  · exact Or.inl rfl

theorem tag_tableOf (b : ℕ) (keys : List Key) (i : ℕ) :
    tag (buckets (tableOf b keys) i) = 0#64 := by
  rcases buckets_tableOf b keys i with h | ⟨key, -, h⟩ <;> rw [h]
  · exact tag_zero
  · exact tag_entry key

theorem tableOf_cases {b : ℕ} {keys : List Key} {i : ℕ} (h : buckets (tableOf b keys) i ≠ 0#64) :
    ∃ j key, keys[j]? = some key ∧ i = b + j ∧ buckets (tableOf b keys) i = entry key := by
  unfold buckets tableOf at h ⊢
  dsimp only at h ⊢
  split_ifs at h ⊢ with hb
  · cases hk : keys[i - b]? with
    | none => simp [hk] at h
    | some key => exact ⟨i - b, key, hk, (Nat.add_sub_cancel' hb).symm, rfl⟩
  · exact absurd rfl h

theorem placed_tableOf {b : ℕ} {keys : List Key}
    (h : ∀ x ∈ keys.zipIdx, home seed x.1 ≤ b + x.2 ∧ b + x.2 ≤ home seed x.1 + HOP) :
    Placed (homeOf seed) HOP 0#64 (buckets (tableOf b keys)) := by
  intro i hi
  obtain ⟨j, key, hj, rfl, hw⟩ := tableOf_cases hi
  rw [hw]
  exact window_entry.mpr (h (key, j) (List.mem_zipIdx_iff_getElem?.mpr hj))

theorem distinct_tableOf {b : ℕ} {keys : List Key} (h : keys.Nodup) :
    Distinct 0#64 (buckets (tableOf b keys)) := by
  intro i j hi hij
  obtain ⟨n, key, hn, rfl, hw⟩ := tableOf_cases hi
  obtain ⟨n', key', hn', rfl, hw'⟩ := tableOf_cases (hij ▸ hi)
  rw [hw, hw'] at hij
  rw [← entry_inj hij, ← hn] at hn'
  obtain ⟨hlt, -⟩ := List.getElem?_eq_some_iff.mp hn
  rw [(List.getElem?_inj hlt h).mp hn'.symm]

namespace Writing

variable {s s' : State} {L : ℕ → Word} {w t : ℕ}

theorem idle {m : Cell → Word} (hm : ∀ i, tag (buckets m i) = 0#64) (w : ℕ) :
    Writing seed (idleState m) w (buckets m) where
  inv :=
    { ok := fun _ _ h => by cases h
      sim :=
        { untagged := hm
          agree := fun _ _ => rfl
          fits := fun _ => trivial
          excl := fun _ _ _ h => h.elim }
      pending := fun _ _ h => by cases h }
  reads _ _ _ h := by cases h
  suited _ := trivial
  steady _ _ h := by cases h
  hopes _ _ h := by cases h

/-- A thread that is not the writer owns nothing. -/
theorem role_other (h : Writing seed s w L) {u : ℕ} (hu : u ≠ w) :
    threadRole (s.thr u) = .free := by
  cases hp : s.thr u with
  | none => rfl
  | some p => exact (h.reads u hu p hp).role

/-- Every slot the writer does not own is untagged. -/
theorem untagged (h : Writing seed s w L) {i : ℕ} (hi : ¬ (threadRole (s.thr w)).Owns i) :
    tag (buckets s.mem i) = 0#64 := by
  have hL : buckets s.mem i = L i := by
    refine h.inv.sim.agree i fun u => ?_
    by_cases hu : u = w
    · rw [hu]
      exact hi
    · show ¬ (threadRole (s.thr u)).Owns i
      rw [h.role_other hu]
      exact id
  rw [hL]
  exact h.inv.sim.untagged i

/-- While the writer owns nothing, the table is the logical one. -/
theorem buckets_eq (h : Writing seed s w L) (hw : threadRole (s.thr w) = .free) :
    buckets s.mem = L := by
  funext i
  refine h.inv.sim.agree i fun u => ?_
  show ¬ (threadRole (s.thr u)).Owns i
  by_cases hu : u = w
  · rw [hu, hw]
    exact id
  · rw [h.role_other hu]
    exact id

theorem call {c : Call} (h : Writing seed s w L)
    (hs : (table seed).step s (.call t c) = some s') (hc : t ≠ w → (Pc.start c).Reads) :
    Writing seed s' w L := by
  have hinv := h.inv.call hs
  obtain ⟨-, ht, rfl⟩ := Machine.step_call.mp hs
  have hsame : ∀ u p, u ≠ t → Function.update s.thr t (some (Pc.start c)) u = some p →
      s.thr u = some p := fun u p hu hp => by rwa [Function.update_of_ne hu] at hp
  refine ⟨hinv, fun u hu p hp => ?_, fun u => ?_, fun key a hp => ?_, fun key a hp => ?_⟩
  · by_cases hut : u = t
    · subst hut
      obtain rfl : Pc.start c = p := by simpa [table] using hp
      exact hc hu
    · exact h.reads u hu p (hsame u p hut hp)
  · by_cases hut : u = t
    · subst hut
      show (threadRole (Function.update s.thr u (some (Pc.start c)) u)).Suited seed _ L
      rw [Function.update_self]
      cases c <;> trivial
    · have hu := h.suited u
      show (threadRole (Function.update s.thr t (some (Pc.start c)) u)).Suited seed _ L
      rwa [Function.update_of_ne hut]
  · by_cases hwt : w = t
    · subst hwt
      obtain he : Pc.start c = .add key a := by simpa [table] using hp
      cases c <;> cases he
      trivial
    · exact h.steady key a (hsame w _ hwt hp)
  · by_cases hwt : w = t
    · subst hwt
      obtain he : Pc.start c = .add key a := by simpa [table] using hp
      cases c <;> cases he
      trivial
    · exact h.hopes key a (hsame w _ hwt hp)

/-- With the writer's reads steady, its next access is clean and marks in reach. -/
theorem clean (h : Writing seed s w L) {p : Pc} (hp : s.thr t = some p) :
    Clean seed s (.move t) ∧ MarksNear seed (buckets s.mem) p := by
  have hthr : threadRole (s.thr t) = p.role := by rw [hp]; rfl
  suffices hcm : (ClaimsEmpty seed (buckets s.mem) p ∧ RemovesNothingOwned seed (buckets s.mem) p) ∧
      MarksNear seed (buckets s.mem) p by
    refine ⟨fun q hq => ?_, hcm.2⟩
    rw [hp, Option.some.injEq] at hq
    exact hq ▸ hcm.1
  by_cases htw : t = w
  · subst htw
    rcases p with ⟨key, a⟩ | ⟨key, tid, a⟩ | ⟨key, sc⟩
    · have hst := h.steady key a hp
      have hop := h.hopes key a hp
      cases a with
      | contains | probe | loadExp | release => exact ⟨⟨trivial, trivial⟩, trivial⟩
      | reserve tg i n => exact ⟨⟨fun _ => hst.1, trivial⟩, trivial⟩
      | insert q =>
        cases q with
        | claim tg c j => exact ⟨⟨fun _ => hop.1, trivial⟩, trivial⟩
        | first | second | reuse => exact ⟨⟨trivial, trivial⟩, trivial⟩
      | relocate Loc q =>
        cases q with
        | mark r Exp => exact ⟨⟨trivial, trivial⟩, fun _ => Or.inr hst.2.le⟩
        | getInd | getReplace | loadExp | loadDest | loadFin | copy | loadMark | overwrite =>
          exact ⟨⟨trivial, trivial⟩, trivial⟩
    · have hun : ∀ i, tag (buckets s.mem i) = 0#64 := fun i =>
        h.untagged (by rw [hthr]; exact id)
      refine ⟨⟨trivial, ?_⟩, trivial⟩
      cases a with
      | removeMoving final i2 rem1 => exact ne_moving (hun _)
      | poison j slot rem =>
        intro he
        have ht := hun (home seed key + j)
        have hslot : tag slot = 3#64 := (h.inv.ok t _ hp).2
        rw [he, hslot] at ht
        exact absurd ht (by decide)
      | stamp | testKey | testMoving | removeKey | loadSlot | testSlot => trivial
    · exact ⟨⟨trivial, trivial⟩, trivial⟩
  · have hr := h.reads t htw p hp
    unfold Pc.Reads at hr
    split at hr <;> first | exact ⟨⟨trivial, trivial⟩, trivial⟩ | exact hr.elim

/-- A thread that only reads leaves the slots and the logical table alone. -/
theorem act_of_reads {T T' L' : ℕ → Word} {p : Pc} {x : Option Pc} (h : Act seed T L p x T' L')
    (hp : p.Reads) (he : ¬ p.Erases) : T' = T ∧ L' = L := by
  cases h with
  | quiet => exact ⟨rfl, rfl⟩
  | reserve | mark | copy | overwrite | release | insert => exact hp.elim
  | erase => exact absurd trivial he

/-- The writer's own access keeps what it knows. -/
theorem own {p : Pc} {L' : ℕ → Word} (h : Writing seed s w L) (hp : s.thr w = some p)
    (ha : Act seed (buckets s.mem) L p (next seed s.mem p)
      (buckets ((p.code seed).1.exec s.mem).2) L') :
    (∀ u, (threadRole (Function.update s.thr w (next seed s.mem p) u)).Suited seed
      (buckets ((p.code seed).1.exec s.mem).2) L') ∧
    ∀ key b, next seed s.mem p = some (.add key b) →
      b.Steady seed (buckets ((p.code seed).1.exec s.mem).2) ∧
      b.Hopeful seed (buckets ((p.code seed).1.exec s.mem).2) key := by
  have hrole : threadRole (s.thr w) = p.role := by rw [hp]; rfl
  constructor
  · refine ha.suited h.inv hp (h.clean hp).2 h.suited ?_
    rintro key tid q rfl u
    by_cases huw : u = w
    · rw [huw, hrole]
      rfl
    · exact h.role_other huw
  · intro key b hn
    obtain ⟨a, hf, rfl⟩ := next_eq_add hn
    have hok := h.inv.ok w _ hp
    refine ⟨steady_goto hok (h.steady key a hp) (fun i hi => ?_) hf,
      hopeful_goto hok (h.hopes key a hp) hf⟩
    apply h.untagged
    rw [hrole]
    exact hi

/-- A move with one writer, while the others only read. -/
theorem move (h : Writing seed s w L) (hs : (table seed).step s (.move t) = some s')
    (hh : s'.halt = none) (herase : t ≠ w → ∀ p, s.thr t = some p → ¬ p.Erases)
    (hreads : ∀ u ≠ w, ∀ p, s'.thr u = some p → p.Reads) :
    ∃ p L', s.thr t = some p ∧ Writing seed s' w L' ∧
      Act seed (buckets s.mem) L p (next seed s.mem p) (buckets s'.mem) L' := by
  obtain ⟨-, p, hp, -⟩ := Machine.step_move.mp hs
  obtain ⟨L', hI, ha⟩ := h.inv.move hp (h.clean hp).1 hs hh
  obtain rfl := Machine.eq_advance hp hs
  have hthr : ((table seed).advance t p s).thr = Function.update s.thr t (next seed s.mem p) :=
    Machine.advance_thr hh
  by_cases htw : t = w
  · subst htw
    rw [Machine.advance_mem] at ha
    obtain ⟨hsuit, hnext⟩ := h.own hp ha
    have hstay : ∀ key b, ((table seed).advance t p s).thr t = some (.add key b) →
        next seed s.mem p = some (.add key b) := by
      intro key b hb
      rwa [hthr, Function.update_self] at hb
    refine ⟨p, L', hp, ⟨hI, hreads, fun u => ?_, fun key b hb => ?_, fun key b hb => ?_⟩, ?_⟩
    · rw [hthr, Machine.advance_mem]
      exact hsuit u
    · rw [Machine.advance_mem]
      exact (hnext key b (hstay key b hb)).1
    · rw [Machine.advance_mem]
      exact (hnext key b (hstay key b hb)).2
    · rw [Machine.advance_mem]
      exact ha
  · obtain ⟨hT, rfl⟩ := act_of_reads ha (h.reads t htw p hp) (herase htw p hp)
    have hwt : ∀ x, ((table seed).advance t p s).thr w = x → s.thr w = x := by
      intro x hx
      rwa [hthr, Function.update_of_ne (Ne.symm htw)] at hx
    refine ⟨p, L', hp, ⟨hI, hreads, fun u => ?_, fun key a hp' => ?_, fun key a hp' => ?_⟩, ha⟩
    · rw [hT]
      by_cases hut : u = t
      · subst hut
        have hfree : threadRole (((table seed).advance u p s).thr u) = .free := by
          cases hx : ((table seed).advance u p s).thr u with
          | none => rfl
          | some p' => exact (hreads u htw p' hx).role
        rw [hfree]
        trivial
      · rw [hthr, Function.update_of_ne hut]
        exact h.suited u
    · rw [hT]
      exact h.steady key a (hwt _ hp')
    · rw [hT]
      exact h.hopes key a (hwt _ hp')

end Writing

/-! ### A writer alone -/

/-- Thread `w` is the only thread that runs a call. -/
structure Solitary (seed : BitVec 32) (s : State) (w : ℕ) (L : ℕ → Word) : Prop extends
    Writing seed s w L where
  alone : ∀ u ≠ w, s.thr u = none

namespace Solitary

variable {s s' : State} {L : ℕ → Word} {w : ℕ}

theorem idle {m : Cell → Word} (hm : ∀ i, tag (buckets m i) = 0#64) (w : ℕ) :
    Solitary seed (idleState m) w (buckets m) := ⟨Writing.idle hm w, fun _ _ => rfl⟩

theorem call {c : Call} (h : Solitary seed s w L)
    (hs : (table seed).step s (.call w c) = some s') : Solitary seed s' w L := by
  refine ⟨h.toWriting.call hs fun hne => absurd rfl hne, fun u hu => ?_⟩
  obtain ⟨-, -, rfl⟩ := Machine.step_call.mp hs
  show Function.update s.thr w _ u = none
  rw [Function.update_of_ne hu]
  exact h.alone u hu

theorem move (h : Solitary seed s w L) (hs : (table seed).step s (.move w) = some s')
    (hh : s'.halt = none) : ∃ p L', s.thr w = some p ∧ Solitary seed s' w L' ∧
      Act seed (buckets s.mem) L p (next seed s.mem p) (buckets s'.mem) L' := by
  have halone : ∀ u ≠ w, s'.thr u = none := fun u hu => by
    rw [Machine.step_thr_of_ne hs hu]
    exact h.alone u hu
  obtain ⟨p, L', hp, hW, ha⟩ := h.toWriting.move hs hh (absurd rfl) fun u hu p hp => by
    rw [halone u hu] at hp
    cases hp
  exact ⟨p, L', hp, ⟨hW, halone⟩, ha⟩

/-- While the writer is idle, no slot carries a tag. -/
theorem untagged (h : Solitary seed s w L) (hw : s.thr w = none) (i : ℕ) :
    tag (buckets s.mem i) = 0#64 := by
  apply h.toWriting.untagged
  rw [hw]
  exact id

end Solitary

/-- In a run of one thread, what it has read is so. -/
theorem solitary_run {m : Cell → Word} (hm : ∀ i, tag (buckets m i) = 0#64) {ls : List (Label Call)}
    {s : State} {w : ℕ} (hr : (table seed).run ls (idleState m) = some s)
    (ht : ∀ l ∈ ls, l.thread = w) (hh : s.halt = none) : ∃ L, Solitary seed s w L := by
  have hstep : ∀ s l s', (s.halt = none → ∃ L, Solitary seed s w L) → l.thread = w →
      (table seed).step s l = some s' → s'.halt = none → ∃ L, Solitary seed s' w L := by
    intro s l s' hP hl hs hh'
    obtain ⟨L, h⟩ := hP (Machine.halt_of_step hs)
    cases l with
    | call t c =>
      obtain rfl : t = w := hl
      exact ⟨L, h.call hs⟩
    | move t =>
      obtain rfl : t = w := hl
      obtain ⟨-, L', -, h', -⟩ := h.move hs hh'
      exact ⟨L', h'⟩
  exact Machine.run_inv hstep (fun _ => ⟨_, Solitary.idle hm w⟩) (Machine.Along.of_forall ht) hr hh

end LFHash
