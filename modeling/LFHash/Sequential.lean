/-
# One thread

The calls of one thread, one after the other, against a set of keys. The table
represents the set (`Stands`) as long as no stamp looks like a key: line 253 writes the
stamp 0, or one whose window does not hold the slot, and line 191 marks no stamp outside
its window (`StampsApart`). The second removal of a run writes the stamp 1, which a
lookup takes for the key 1.

Key definitions: `members`, `Legal`, `StampsApart`, `Stands`, `Pc.Tracks`, `Tracks`.
Key theorems: `Tracks.move`, `one_thread_runs_a_set`, `stamp_can_look_like_a_key`.
-/
import LFHash.Writer

namespace LFHash

open Interleave Hopscotch

variable {seed : BitVec 32} {key : Key}

/-! ### The set of the calls -/

/-- The set after the calls of a log (latest first): a key is in it if the latest `add`
or `Remove` of the key is an `add`. -/
def members : List (ℕ × Call × Bool) → Key → Bool
  | [], _ => false
  | (_, .add key, _) :: log, k => if k = key then true else members log k
  | (_, .remove key _, _) :: log, k => if k = key then false else members log k
  | (_, .contains _, _) :: log, k => members log k

/-- What a call answers on the set after a log. -/
def answer (log : List (ℕ × Call × Bool)) : Call → Bool
  | .add _ => true
  | .remove key _ => members log key
  | .contains key => members log key

/-- Every call of a log has answered as on the set. -/
def Legal : List (ℕ × Call × Bool) → Prop
  | [] => True
  | (_, c, b) :: log => b = answer log c ∧ Legal log

/-- Line 253 writes the stamp 0, or a word that is no key of a window with this slot; line
191 marks the word 0, or one that lies in its own window. -/
def StampsApart (seed : BitVec 32) (T : ℕ → Word) : Pc → Prop
  | .remove key _ (.removeKey final i1 _) => T (home seed key + i1) = entry key →
      final = 0#64 ∨ ¬ Window (homeOf seed) HOP final (home seed key + i1)
  | .add _ (.relocate _ (.mark r Exp)) => T r = Exp →
      Exp = 0#64 ∨ Window (homeOf seed) HOP Exp r
  | _ => True

/-! ### What the thread knows -/

/-- The table stands for the set after the log: each key of it is in its window, once. -/
def Stands (seed : BitVec 32) (L : ℕ → Word) (log : List (ℕ × Call × Bool)) : Prop :=
  Represents (homeOf seed) HOP 0#64 entry L fun k => members log k = true

theorem entry_injective : Function.Injective entry := fun _ _ => entry_inj

/-- The word a relocation moves lies in its window. -/
def Role.Sited (seed : BitVec 32) (L : ℕ → Word) : Role → Prop
  | marking _ r => L r = 0#64 ∨ Window (homeOf seed) HOP (L r) r
  | free | hold _ | copied _ => True

/-- Past line 253, the stamp `fin` is no key of a window with the slot of `key`. -/
def Remove.Apart (seed : BitVec 32) (key : Key) (T₀ : ℕ → Word) (fin : Word) : Remove → Prop
  | .stamp | .testKey _ _ | .testMoving _ _ | .removeKey _ _ _ => True
  | .removeMoving _ _ _ | .loadSlot _ _ | .testSlot _ _ _ | .poison _ _ _ =>
    ∀ p ≤ HOP, T₀ (home seed key + p) = entry key →
      fin = 0#64 ∨ ¬ Window (homeOf seed) HOP fin (home seed key + p)

/-- Where a call stands that runs on the set after the log. -/
def Pc.Tracks (seed : BitVec 32) (m : Cell → Word) (L : ℕ → Word)
    (log : List (ℕ × Call × Bool)) : Pc → Prop
  | .contains key sc | .add key (.contains sc) =>
    Stands seed L log ∧ Marked seed L key sc.p sc.cxx
  | .add key q => Stands seed L log ∧ members log key = false ∧ q.role.Sited seed L
  | .remove key _ q => ∃ T₀ fin, Stands seed T₀ log ∧ (∀ i, tag (T₀ i) = 0#64) ∧
      tag fin = 0#64 ∧ q.Follows seed key T₀ fin m ∧ q.Apart seed key T₀ fin

variable {L L' T T' : ℕ → Word} {log : List (ℕ × Call × Bool)}

theorem Add.Past.tracks_iff {m : Cell → Word} {q : Add} (h : q.Past) :
    (Pc.add key q).Tracks seed m L log ↔
      Stands seed L log ∧ members log key = false ∧ q.role.Sited seed L := by
  cases q with
  | contains sc => exact h.elim
  | probe | reserve | relocate | loadExp | release | insert => exact Iff.rfl

theorem Stands.member_iff (h : Stands seed L log) (hk : key ≠ 0#32) :
    members log key = true ↔ ∃ p ≤ HOP, L (home seed key + p) = entry key :=
  ((h key (entry_ne_zero hk)).1).trans member_entry

/-- At its end a scan has found the key exactly if it is in the set. -/
theorem Stands.read_iff {sc : Scan} (h : Stands seed L log) (hk : key ≠ 0#32)
    (hL : ∀ i, tag (L i) = 0#64) (hm : Marked seed L key sc.p sc.cxx) (hp : sc.p = HOP) :
    sc.read seed L key ≠ 0#64 ↔ members log key = true := by
  have hr := hm.read hL
  rw [hp] at hr
  rw [hr.ne_zero_iff (by decide), h.member_iff hk]
  simp only [Nat.lt_succ_iff]

/-- A key that is in the set is added. -/
theorem Stands.add_member (h : Stands seed L log) (hk : members log key = true) (t : ℕ) (b : Bool) :
    Stands seed L ((t, .add key, b) :: log) := by
  refine Represents.congr h fun k => ?_
  by_cases hkk : k = key
  · simp [members, hkk, hk]
  · simp [members, hkk]

/-- What a removal has done to the set. -/
theorem Stands.of_outcome {fin : Word} {b : Bool} (h : Stands seed L log) (hk : key ≠ 0#32)
    (ho : Outcome seed key L fin T b)
    (hx : ∀ p ≤ HOP, L (home seed key + p) = entry key →
      fin = 0#64 ∨ ¬ Window (homeOf seed) HOP fin (home seed key + p)) (t : ℕ) (tid : ℤ) (b' : Bool) :
    b = members log key ∧ Stands seed T ((t, .remove key tid, b') :: log) := by
  rcases ho with ⟨rfl, p, hp, hL, rfl⟩ | ⟨rfl, rfl, hno⟩
  · have hmem : members log key = true := (h.member_iff hk).mpr ⟨p, hp, hL⟩
    refine ⟨hmem.symm, ?_⟩
    have hw : Window (homeOf seed) HOP (entry key) (home seed key + p) :=
      window_entry.mpr ⟨Nat.le_add_right _ p, by omega⟩
    refine (Represents.erase h entry_injective hL hw (hx p hp hL)).congr fun k => ?_
    by_cases hkk : k = key
    · simp [members, hkk]
    · simp [members, hkk]
  · have hmem : members log key = false := by
      rw [Bool.eq_false_iff]
      intro hm
      obtain ⟨p, hp, hL⟩ := (h.member_iff hk).mp hm
      exact hno p hp hL
    refine ⟨hmem.symm, Represents.congr h fun k => ?_⟩
    by_cases hkk : k = key
    · simp [members, hkk, hmem]
    · simp [members, hkk]

/-! ### The accesses of an `add` -/

variable {thr : ℕ → Option Pc} {t : ℕ} {q b : Add} {x : Option Pc}

/-- No access of an `add` that goes on changes the set. -/
theorem Act.stands {p' : Pc} (ha : Act seed T L (.add key q) (some p') T' L') (hI : Inv seed T thr L)
    (hp : thr t = some (.add key q)) (hs : (threadRole (thr t)).Suited seed T L)
    (h : Stands seed L log) (hsit : q.role.Sited seed L) : Stands seed L' log := by
  have hf := hI.sim.fits t
  rw [hp] at hs hf
  cases ha with
  | quiet | reserve | mark | overwrite | release => exact h
  | @copy _ Loc r Dest Fin hlt =>
    refine Represents.move h (Nat.ne_of_lt hlt) hf.2.1 ?_
    rcases hs with h0 | hw
    · exact Or.inl h0
    · exact hsit.imp id fun hr => ⟨hr, hw⟩

theorem Act.sited (ha : Act seed T L (.add key q) (some (.add key b)) T' L') (hI : Inv seed T thr L)
    (hsit : q.role.Sited seed L) (hq : StampsApart seed T (.add key q)) :
    b.role.Sited seed L' := by
  cases ha with
  | quiet hr =>
    have hrole : b.role = q.role := hr
    rwa [hrole]
  | reserve _ hr | overwrite hr =>
    have hrole : b.role = .hold _ := hr
    rw [hrole]
    trivial
  | @mark _ Loc r Exp he ht =>
    have hL : L r = Exp := hI.sim.eq_of_read he ht
    show L r = 0#64 ∨ Window (homeOf seed) HOP (L r) r
    rw [hL]
    exact hq he
  | copy | release => trivial

/-- The access with which an `add` returns that has not found its key. -/
theorem Act.stands_add (ha : Act seed T L (.add key q) none T' L') (hI : Inv seed T thr L)
    (h : Stands seed L log) (hk : key ≠ 0#32) (hmem : members log key = false)
    (hret : ∃ p ≤ HOP, T' (home seed key + p) = entry key) (u : ℕ) (b : Bool) :
    Stands seed L' ((u, .add key, b) :: log) := by
  cases ha with
  | quiet =>
    obtain ⟨p, hp, hT⟩ := hret
    have hL : L (home seed key + p) = entry key :=
      hI.sim.eq_of_read hT (tag_entry _)
    have hin := (h.member_iff hk).mpr ⟨p, hp, hL⟩
    rw [hmem] at hin
    cases hin
  | reserve _ hr | overwrite hr => cases hr
  | @insert _ tg c p he hz hle =>
    have hi : L (home seed key + p) = 0#64 :=
      hI.sim.eq_of_read hz tag_zero
    have hw : Window (homeOf seed) HOP (entry key) (home seed key + p) :=
      window_entry.mpr ⟨Nat.le_add_right _ p, by omega⟩
    refine (Represents.insert h entry_injective hi hw (by simp [hmem])).congr fun k => ?_
    by_cases hkk : k = key
    · simp [members, hkk]
    · simp [members, hkk]

/-! ### The accesses of a `Remove` -/

theorem Remove.apart_nextScan {T₀ : ℕ → Word} {fin final cxx : Word} {p : ℕ} :
    (Remove.nextScan final p cxx).Apart seed key T₀ fin := by
  unfold Remove.nextScan
  split_ifs <;> trivial

theorem Remove.apart_goto {m : Cell → Word} {T₀ : ℕ → Word} {fin : Word} {tid : ℤ} {q q' : Remove}
    (h : q.Follows seed key T₀ fin m) (hone : Once (homeOf seed) HOP T₀ (entry key))
    (hx : q.Apart seed key T₀ fin) (hq : StampsApart seed (buckets m) (.remove key tid q))
    (hf : (remove seed key q).2 ((remove seed key q).1.exec m).1 = .goto q') :
    q'.Apart seed key T₀ fin := by
  cases q with
  | stamp => cases hf; trivial
  | testKey final s | testMoving final s =>
    simp only [remove] at hf
    split_ifs at hf <;> cases hf
    · exact apart_nextScan
    · first | exact apart_nextScan | trivial
  | removeKey final i1 i2 =>
    obtain ⟨hb, rfl, cxx, hm, rfl⟩ := h
    cases hf
    intro p hp hT
    obtain ⟨h1, h2⟩ := hm.first
    have hw : ∀ n ≤ HOP, Window (homeOf seed) HOP (entry key) (home seed key + n) := fun n hn =>
      window_entry.mpr ⟨Nat.le_add_right _ n, by omega⟩
    have hT' := h2 ⟨p, hp, hT⟩
    have he := hone _ _ (hw p hp) (hw _ h1) hT hT'
    rw [he]
    exact hq (by rw [hb]; exact hT')
  | removeMoving final i2 rem1 => cases hf; exact hx
  | loadSlot p rem => cases hf; exact hx
  | testSlot p slot rem =>
    simp only [remove, Remove.nextSlot] at hf
    split_ifs at hf <;> cases hf <;> exact hx
  | poison p slot rem => exact h.elim

theorem Remove.apart_ret {m : Cell → Word} {T₀ : ℕ → Word} {fin : Word} {q : Remove} {b : Bool}
    (h : q.Follows seed key T₀ fin m) (hx : q.Apart seed key T₀ fin)
    (hf : (remove seed key q).2 ((remove seed key q).1.exec m).1 = .ret b) :
    ∀ p ≤ HOP, T₀ (home seed key + p) = entry key →
      fin = 0#64 ∨ ¬ Window (homeOf seed) HOP fin (home seed key + p) := by
  rcases remove_ret hf with ⟨p, slot, rfl⟩ | ⟨p, slot, rfl⟩
  · exact hx
  · exact h.elim

/-! ### The run of one thread -/

/-- Thread 0 runs alone, its calls have answered as on a set, and it knows this set. -/
structure Tracks (seed : BitVec 32) (s : State) (L : ℕ → Word) : Prop extends
    Writing seed s 0 L where
  alone : ∀ u ≠ 0, s.thr u = none
  legal : Legal s.log
  idle : s.thr 0 = none → Stands seed L s.log
  runs : ∀ p, s.thr 0 = some p → p.call.key ≠ 0#32 ∧ p.Tracks seed s.mem L s.log

namespace Tracks

variable {s s' : State}

theorem fresh : Tracks seed fresh fun _ => 0#64 where
  toWriting := Writing.idle (m := fun _ => 0#64) (fun _ => tag_zero) 0
  alone _ _ := rfl
  legal := trivial
  idle _ := by
    intro k hk
    refine ⟨⟨fun h => (by cases h), ?_⟩, fun i j _ _ hi => absurd hi.symm hk⟩
    rintro ⟨i, -, hi⟩
    exact absurd hi.symm hk
  runs _ h := by cases h

theorem solitary (h : Tracks seed s L) : Solitary seed s 0 L := ⟨h.toWriting, h.alone⟩

theorem call {c : Call} (h : Tracks seed s L) (hc : c.key ≠ 0#32)
    (hs : (table seed).step s (.call 0 c) = some s') : Tracks seed s' L := by
  obtain ⟨hW, halone⟩ := h.solitary.call hs
  obtain ⟨-, ht, rfl⟩ := Machine.step_call.mp hs
  have hS := h.idle ht
  have hL : buckets s.mem = L := h.buckets_eq (by rw [ht]; rfl)
  have hun := h.inv.sim.untagged
  refine ⟨hW, halone, h.legal, fun hn => ?_, fun p hp => ?_⟩
  · simp at hn
  · obtain rfl : Pc.start c = p := by simpa [table] using hp
    cases c with
    | contains key | add key =>
      have hm : Marked seed L key Scan.start.p Scan.start.cxx := marked_start L
      exact ⟨hc, hS, hm⟩
    | remove key tid =>
      have hfol : Remove.stamp.Follows seed key L (finalEntry (s.mem .timeStamp)) s.mem := ⟨hL, rfl⟩
      exact ⟨hc, L, _, hS, hun, tag_finalEntry _, hfol, trivial⟩

/-- An access inside a call. -/
theorem goto {p p' : Pc} (h : Tracks seed s L) (hp : s.thr 0 = some p)
    (hsp : StampsApart seed (buckets s.mem) p) (hf : (table seed).flow s.mem p = .goto p')
    (ha : Act seed (buckets s.mem) L p (some p') (buckets ((p.code seed).1.exec s.mem).2) L') :
    p'.Tracks seed ((p.code seed).1.exec s.mem).2 L' s.log := by
  obtain ⟨hk, htr⟩ := h.runs p hp
  have hun := h.inv.sim.untagged
  have hfree : p.role = .free → buckets s.mem = L := fun hr =>
    h.buckets_eq (by rw [hp]; exact hr)
  rcases p with ⟨key, q⟩ | ⟨key, tid, q⟩ | ⟨key, sc⟩
  · obtain ⟨q', hf', rfl⟩ | ⟨b, -, hb⟩ := Flow.bind_eq_goto.mp hf
    swap
    · cases hb
    rcases add_goto hf' with ⟨sc, rfl, -, rfl⟩ | ⟨hq', hend⟩
    · -- the lookup of the `add` goes on
      obtain ⟨hS, hm⟩ := htr
      cases ha
      have hr := hm.read hun
      rw [← hfree rfl] at hr
      exact ⟨hS, hfree rfl ▸ hr⟩
    · rw [hq'.tracks_iff]
      rcases q.past_or_contains with hpast | ⟨sc, rfl⟩
      · obtain ⟨hS, hmem, hsit⟩ := hpast.tracks_iff.mp htr
        exact ⟨ha.stands h.inv hp (h.suited 0) hS hsit, hmem, ha.sited h.inv hsit hsp⟩
      · -- the lookup has found nothing
        obtain ⟨hS, hm⟩ := htr
        obtain ⟨hp', h0⟩ := hend sc rfl
        have hle : sc.p ≤ HOP := h.inv.ok 0 _ hp
        have hT : buckets s.mem = L := hfree rfl
        rw [hT] at h0
        have hiff := hS.read_iff hk hun hm (by omega)
        have hmem : members s.log key = false := by
          rw [Bool.eq_false_iff]
          exact fun hin => hiff.mpr hin h0
        cases ha with
        | quiet hr =>
          have hrole : q'.role = .free := hr
          rw [hrole]
          exact ⟨hS, hmem, trivial⟩
  · obtain ⟨q', hf', rfl⟩ | ⟨b, -, hb⟩ := Flow.bind_eq_goto.mp hf
    swap
    · cases hb
    obtain ⟨T₀, fin, hS, hT₀, hfin, hfol, hx⟩ := htr
    have hone := (hS key (entry_ne_zero hk)).2
    exact ⟨T₀, fin, hS, hT₀, hfin, Remove.follows_goto hT₀ hfin hfol hf',
      Remove.apart_goto hfol hone hx hsp hf'⟩
  · obtain ⟨sc', hf', rfl⟩ | ⟨b, -, hb⟩ := Flow.bind_eq_goto.mp hf
    swap
    · cases hb
    obtain ⟨hS, hm⟩ := htr
    have hn : next seed s.mem (.contains key sc) = some (.contains key sc') := by
      rw [next]
      rw [Machine.flow] at hf
      exact congrArg Flow.point? hf
    obtain ⟨sc₀, he, -, he'⟩ := next_contains hn
    cases he
    subst he'
    cases ha
    have hr := hm.read hun
    exact ⟨hS, hfree rfl ▸ hr⟩

/-- The access with which a call returns: it answers as on the set, and changes the
table as the set. -/
theorem ret {p : Pc} {r : Call × Bool} (h : Tracks seed s L) (hp : s.thr 0 = some p)
    (hf : (table seed).flow s.mem p = .ret r)
    (ha : Act seed (buckets s.mem) L p none (buckets ((p.code seed).1.exec s.mem).2) L')
    (hL' : buckets ((p.code seed).1.exec s.mem).2 = L') :
    r.2 = answer s.log r.1 ∧ Stands seed L' ((0, r) :: s.log) := by
  obtain ⟨hk, htr⟩ := h.runs p hp
  have hun := h.inv.sim.untagged
  have hfree : p.role = .free → buckets s.mem = L := fun hr =>
    h.buckets_eq (by rw [hp]; exact hr)
  rcases p with ⟨key, q⟩ | ⟨key, tid, q⟩ | ⟨key, sc⟩
  · obtain ⟨b, hf', hr⟩ := Flow.bind_eq_ret.mp hf
    cases hr
    rcases q.past_or_contains with hpast | ⟨sc, rfl⟩
    · obtain ⟨hS, hmem, -⟩ := hpast.tracks_iff.mp htr
      obtain ⟨rfl, ⟨sc, rfl, -⟩ | hret⟩ := add_ret (h.inv.ok 0 _ hp) hf'
      · exact hpast.elim
      · exact ⟨rfl, ha.stands_add h.inv hS hk hmem hret 0 true⟩
    · -- the lookup has found the key
      obtain ⟨hS, hm⟩ := htr
      obtain ⟨rfl, hend, hr⟩ := add_found hf'
      have hle : sc.p ≤ HOP := h.inv.ok 0 _ hp
      have hT : buckets s.mem = L := hfree rfl
      rw [hT] at hr
      have hin := (hS.read_iff hk hun hm (by omega)).mp hr
      cases ha
      exact ⟨rfl, hS.add_member hin 0 true⟩
  · obtain ⟨b, hf', hr⟩ := Flow.bind_eq_ret.mp hf
    cases hr
    obtain ⟨T₀, fin, hS, hT₀, hfin, hfol, hx⟩ := htr
    have ho := Remove.follows_ret hfol hf'
    obtain ⟨hb, hS'⟩ := hS.of_outcome hk ho (Remove.apart_ret hfol hx hf') 0 tid b
    refine ⟨hb, ?_⟩
    rw [← hL']
    exact hS'
  · obtain ⟨b, -, hr⟩ := Flow.bind_eq_ret.mp hf
    cases hr
    obtain ⟨sc', he, hend, hb⟩ := ret_contains hf
    cases he
    obtain ⟨hS, hm⟩ := htr
    have hle : sc.p ≤ HOP := h.inv.ok 0 _ hp
    have hT : buckets s.mem = L := hfree rfl
    rw [hT] at hb
    have hiff := hS.read_iff hk hun hm (by omega)
    cases ha
    refine ⟨?_, hS⟩
    show b = members s.log key
    rw [hb, Bool.eq_iff_iff, bne_iff_ne]
    exact hiff

theorem move (h : Tracks seed s L) (hq : Moves (StampsApart seed) s (.move 0))
    (hs : (table seed).step s (.move 0) = some s') (hh : s'.halt = none) :
    ∃ L', Tracks seed s' L' := by
  obtain ⟨p, L', hp, ⟨hW, halone⟩, ha⟩ := h.solitary.move hs hh
  have hsp := hq p hp
  have hk := (h.runs p hp).1
  obtain rfl := Machine.eq_advance hp hs
  rw [Machine.advance_mem] at ha
  cases hf : (table seed).flow s.mem p with
  | goto p' =>
    have hn : next seed s.mem p = some p' := congrArg Flow.point? hf
    rw [hn] at ha
    have hstep := h.goto hp hsp hf ha
    rw [Machine.advance_goto hf] at hW halone ⊢
    refine ⟨L', hW, halone, h.legal, fun hn => ?_, fun p'' hp'' => ?_⟩
    · simp at hn
    · obtain rfl : p' = p'' := by simpa using hp''
      rw [Pc.call_next hf]
      exact ⟨hk, hstep⟩
  | ret r =>
    have hn : next seed s.mem p = none := congrArg Flow.point? hf
    rw [hn] at ha
    rw [Machine.advance_ret hf] at hW halone ⊢
    have hL' := hW.buckets_eq (by simp [threadRole])
    obtain ⟨hans, hS⟩ := h.ret hp hf ha hL'
    refine ⟨L', hW, halone, ⟨hans, h.legal⟩, fun _ => hS, fun p'' hp'' => ?_⟩
    simp at hp''
  | exit e => exact absurd hf (Machine.flow_ne_exit hh e)

end Tracks

/-! ### Runs -/

/-- A step of thread 0 that meets `StampsApart`; its calls are about non-zero keys. -/
def ApartAlone (seed : BitVec 32) (s : State) (l : Label Call) : Prop :=
  l.thread = 0 ∧ NonZero l ∧ Moves (StampsApart seed) s l

/-- In a run of one thread whose stamps stay apart from the keys, every call answers as
on the set of the keys added and not removed since, and between calls exactly the keys of
this set are read in their windows. -/
theorem one_thread_runs_a_set {ls : List (Label Call)} {s : State}
    (hr : (table seed).run ls fresh = some s)
    (hq : (table seed).Along (ApartAlone seed) ls fresh) :
    Legal s.log ∧ (s.halt = none → s.thr 0 = none → ∀ k ≠ 0#32,
      Stored seed (buckets s.mem) k ↔ members s.log k = true) := by
  have hstep : ∀ s l s', (Legal s.log ∧ (s.halt = none → ∃ L, Tracks seed s L)) →
      ApartAlone seed s l → (table seed).step s l = some s' →
      Legal s'.log ∧ (s'.halt = none → ∃ L, Tracks seed s' L) := by
    rintro s l s' ⟨-, hT⟩ ⟨hl, hnz, hsp⟩ hs
    obtain ⟨L, h⟩ := hT (Machine.halt_of_step hs)
    cases l with
    | call t c =>
      obtain rfl : t = 0 := hl
      have h' := h.call hnz hs
      exact ⟨h'.legal, fun _ => ⟨L, h'⟩⟩
    | move t =>
      obtain rfl : t = 0 := hl
      by_cases hh : s'.halt = none
      · obtain ⟨L', h'⟩ := h.move hsp hs hh
        exact ⟨h'.legal, fun _ => ⟨L', h'⟩⟩
      · refine ⟨?_, fun h0 => absurd h0 hh⟩
        obtain ⟨h0, p, hp, rfl⟩ := Machine.step_move.mp hs
        rcases Machine.advance_log (M := table seed) (s := s) 0 p with hlog | ⟨r, hf, -⟩
        · rw [hlog]
          exact h.legal
        · rw [Machine.advance_ret hf] at hh
          exact absurd h0 hh
  have hfresh : Legal fresh.log := trivial
  obtain ⟨hlegal, hT⟩ := Machine.run_inv hstep ⟨hfresh, fun _ => ⟨_, Tracks.fresh⟩⟩ hq hr
  refine ⟨hlegal, fun hh hidle k hk => ?_⟩
  obtain ⟨L, h⟩ := hT hh
  have hL := h.buckets_eq (by rw [hidle]; rfl)
  rw [(h.idle hidle).member_iff hk, hL]
  exact stored_iff_of_tag h.inv.sim.untagged

instance (T : ℕ → Word) : DecidablePred (StampsApart seed T)
  | .remove key _ (.removeKey final i1 _) => inferInstanceAs (Decidable
      (T (home seed key + i1) = entry key →
        final = 0#64 ∨ ¬ Window (homeOf seed) HOP final (home seed key + i1)))
  | .add _ (.relocate _ (.mark r Exp)) => inferInstanceAs (Decidable
      (T r = Exp → Exp = 0#64 ∨ Window (homeOf seed) HOP Exp r))
  | .remove _ _ .stamp | .remove _ _ (.testKey _ _) | .remove _ _ (.testMoving _ _)
  | .remove _ _ (.removeMoving _ _ _) | .remove _ _ (.loadSlot _ _) | .remove _ _ (.testSlot _ _ _)
  | .remove _ _ (.poison _ _ _) | .add _ (.contains _) | .add _ (.probe _ _ _)
  | .add _ (.reserve _ _ _) | .add _ (.relocate _ (.getInd _ _))
  | .add _ (.relocate _ (.getReplace _)) | .add _ (.relocate _ (.loadExp _))
  | .add _ (.relocate _ (.loadDest _)) | .add _ (.relocate _ (.loadFin _ _))
  | .add _ (.relocate _ (.copy _ _ _)) | .add _ (.relocate _ (.loadMark _))
  | .add _ (.relocate _ (.overwrite _ _)) | .add _ (.loadExp _) | .add _ (.release _ _)
  | .add _ (.insert _) | .contains _ _ => isTrue trivial

instance (s : State) (l : Label Call) : Decidable (ApartAlone seed s l) :=
  inferInstanceAs (Decidable (_ ∧ _ ∧ _))

instance : ∀ log, Decidable (Legal log)
  | [] => isTrue trivial
  | (_, c, b) :: log =>
    have : Decidable (Legal log) := instDecidableLegal log
    inferInstanceAs (Decidable (b = answer log c ∧ Legal log))

/-- An `add`, a removal and a lookup of one key. -/
def onceRun : List (Label Call) :=
  alone 0 (.add 1) 23 ++ alone 0 (.remove 1 0) 70 ++ alone 0 (.contains 1) 17

set_option maxRecDepth 10000 in
theorem one_key_runs_a_set : ∃ s, (table 1).run onceRun fresh = some s ∧ Legal s.log ∧
    ∀ k ≠ 0#32, Stored 1 (buckets s.mem) k ↔ members s.log k = true := by
  have h : ((table 1).run onceRun fresh).any (fun s => decide (s.halt = none ∧
      (s.thr 0).isNone)) = true := by decide +kernel
  obtain ⟨s, hs, h⟩ := (Option.any_eq_true _ _).mp h
  obtain ⟨hh, h0⟩ := of_decide_eq_true h
  obtain ⟨hlegal, hset⟩ := one_thread_runs_a_set hs (by decide +kernel)
  exact ⟨s, hs, hlegal, hset hh (Option.isNone_iff_eq_none.mp h0)⟩

/-! ### A stamp that looks like a key

The second removal of key 1 writes the stamp 1 into the slot the key was in. -/

def stampRun : List (Label Call) :=
  alone 0 (.add 1) 23 ++ alone 0 (.remove 1 0) 70 ++ alone 0 (.add 1) 23 ++
    alone 0 (.remove 1 0) 70 ++ alone 0 (.contains 1) 17

set_option maxRecDepth 10000 in
theorem stamp_can_look_like_a_key : ∃ s, (table 1).run stampRun fresh = some s ∧
    (∀ l ∈ stampRun, l.thread = 0 ∧ NonZero l) ∧ (table 1).Along (Inside 1) stampRun fresh ∧
    s.halt = none ∧ s.log.head? = some (0, (.contains 1, true)) ∧
    members s.log.tail 1 = false ∧ ¬ Legal s.log := by
  have h : ((table 1).run stampRun fresh).any (fun s => decide (s.halt = none ∧
      s.log.head? = some (0, (.contains 1, true)) ∧ members s.log.tail 1 = false ∧
      ¬ Legal s.log)) = true := by decide +kernel
  obtain ⟨s, hs, h⟩ := (Option.any_eq_true _ _).mp h
  exact ⟨s, hs, by decide +kernel, by decide +kernel, of_decide_eq_true h⟩

end LFHash
