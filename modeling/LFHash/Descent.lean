/-
# The chain of relocations

`add` relocates from the slot it has reserved down to one in the window of its key. What
the memory replies, and which compare-exchanges fail, makes no difference to how: every
`Relocate(Loc, _)` that returns has picked one of the `HOP` slots below `Loc`, so the
unsigned distance from the home falls with every call and stays positive, no call returns
the slot it was given, and there are at most as many calls as slots between the reserved
one and the window.

Key definitions: `distance`, `Add.settles?`, `Add.relocates?`, `Add.reserves?`.
Key theorems: `add_cases`, `falls`, `relocations_descend`, `never_same_slot`.
-/
import LFHash.Replies
import LFHash.Survival

namespace LFHash

open Interleave

variable {seed : BitVec 32} {key : Key} {p p' : Add} {r : Ans} {rs : List Ans} {Loc i : ℕ}

/-- `SlotIndex - BaseBucket`. -/
def distance (seed : BitVec 32) (key : Key) (SlotIndex : ℕ) : ℕ := sub32 SlotIndex (home seed key)

/-- Line 156 is about to try this slot. -/
def Add.reserves? : Add → Option ℕ
  | .reserve _ SlotIndex _ => some SlotIndex
  | .contains _ | .probe _ _ _ | .relocate _ _ | .loadExp _ | .release _ _ | .insert _ => none

/-- A call of `Relocate` is about to begin in this slot. -/
def Add.relocates? : Add → Option ℕ
  | .relocate Loc q => if q = .start Loc then some Loc else none
  | .contains _ | .probe _ _ _ | .reserve _ _ _ | .loadExp _ | .release _ _ | .insert _ => none

/-- `SlotIndex` when the lines 158 and 163 have compared its distance with `H`. -/
def Add.settles? : Add → Option ℕ
  | .loadExp SlotIndex => some SlotIndex
  | p => p.relocates?

/-! ### What one reply does -/

def Add.Probing : Add → Prop
  | .contains _ | .probe _ _ _ | .reserve _ _ _ => True
  | .relocate _ _ | .loadExp _ | .release _ _ | .insert _ => False

/-- The relocations are over, and line 165 is behind. -/
def Add.Releasing : Add → Prop
  | .release _ _ | .insert _ => True
  | .contains _ | .probe _ _ _ | .reserve _ _ _ | .relocate _ _ | .loadExp _ => False

/-- Where a reply leads `add`. -/
theorem add_cases (hf : (add seed key p).2 r = .goto p') :
    (p.Probing ∧ p'.Probing) ∨
    (∃ tg i n, p = .reserve tg i n ∧ p' = .settle seed key i) ∨
    (∃ Loc q q', p = .relocate Loc q ∧ p' = .relocate Loc q' ∧
      (relocate seed Loc (newEntry key) q).2 r = .goto q') ∨
    (∃ Loc q i, p = .relocate Loc q ∧ p' = .settle seed key i ∧
      (relocate seed Loc (newEntry key) q).2 r = .ret i) ∨
    (((∃ i, p = .loadExp i) ∨ p.Releasing) ∧ p'.Releasing) := by
  have hprobe : ∀ tg i n, (Add.probeNext tg i n).Probing := fun tg i n => by
    unfold Add.probeNext
    split_ifs <;> exact trivial
  cases p with
  | contains s =>
    refine Or.inl ⟨trivial, ?_⟩
    rcases Flow.bind_eq_goto.mp hf with ⟨s', -, rfl⟩ | ⟨b, -, hb⟩
    · exact trivial
    · cases b with
      | false =>
        cases hb
        exact hprobe _ _ _
      | true => cases hb
  | probe tg i n =>
    refine Or.inl ⟨trivial, ?_⟩
    simp only [add] at hf
    split_ifs at hf <;> cases hf
    · exact hprobe _ _ _
    · exact trivial
  | reserve tg i n =>
    simp only [add, Add.reserved] at hf
    split_ifs at hf <;> cases hf
    · exact Or.inl ⟨trivial, hprobe _ _ _⟩
    · exact Or.inr (Or.inl ⟨tg, i, n, rfl, rfl⟩)
  | relocate Loc q =>
    refine Or.inr (Or.inr ?_)
    rcases Flow.bind_eq_goto.mp hf with ⟨q', hq, rfl⟩ | ⟨i, hi, hk⟩
    · exact Or.inl ⟨Loc, q, q', rfl, rfl, hq⟩
    · split_ifs at hk
      cases hk
      exact Or.inr (Or.inl ⟨Loc, q, i, rfl, rfl, hi⟩)
  | loadExp i =>
    cases hf
    exact Or.inr (Or.inr (Or.inr (Or.inr ⟨Or.inl ⟨i, rfl⟩, trivial⟩)))
  | release i Exp =>
    cases hf
    exact Or.inr (Or.inr (Or.inr (Or.inr ⟨Or.inr trivial, trivial⟩)))
  | insert q =>
    refine Or.inr (Or.inr (Or.inr (Or.inr ⟨Or.inr trivial, ?_⟩)))
    rcases Flow.bind_eq_goto.mp hf with ⟨q', -, rfl⟩ | ⟨b, -, hb⟩
    · exact trivial
    · cases b with
      | false =>
        cases hb
        exact trivial
      | true => cases hb

/-- Inside a call `Relocate` does not come back to its start: after line 191 has failed, `Ind`
is past `Replace`. -/
theorem relocate_ne_start {e : Word} {q q' : Relocate}
    (hf : (relocate seed Loc e q).2 r = .goto q') : q' ≠ .start Loc := by
  rintro rfl
  cases q with
  | getInd j ind | getReplace j =>
    rcases seek_eq_goto.mp hf with ⟨h, -⟩ | ⟨h, -⟩ <;> cases h
  | mark j Exp =>
    simp only [relocate] at hf
    split_ifs at hf
    · cases hf
    · obtain ⟨h1, h2⟩ := Relocate.getInd.inj (Flow.goto.inj hf)
      exact Nat.succ_ne_self j (h2.trans h1.symm)
  | loadExp j | loadDest j | loadFin j Dest | copy j Dest Fin | loadMark j | overwrite j Exp =>
    cases hf

theorem distance_eq (h1 : home seed key ≤ i) (h2 : i ≤ home seed key + ADD_RANGE) :
    distance seed key i = i - home seed key := by
  have hh := home_lt seed key
  exact sub32_of_le h1 (by simp only [TotalBuckets, ADD_RANGE] at *; omega)

theorem Add.Probing.none (h : p.Probing) : p.settles? = none ∧ p.relocates? = none := by
  cases p with
  | contains | probe | reserve => exact ⟨rfl, rfl⟩
  | relocate | loadExp | release | insert => exact h.elim

theorem Add.Releasing.none (h : p.Releasing) :
    p.settles? = none ∧ p.relocates? = none ∧ p.reserves? = none := by
  cases p with
  | release | insert => exact ⟨rfl, rfl, rfl⟩
  | contains | probe | reserve | relocate | loadExp => exact h.elim

/-! ### From the reservation on -/

/-- The distance falls from one slot to the next, and stays positive. -/
def Nears (seed : BitVec 32) (key : Key) (i j : ℕ) : Prop :=
  0 < distance seed key j ∧ distance seed key j < distance seed key i

theorem after_loadExp (seed : BitVec 32) (key : Key) (rs : List Ans)
    (h : (∃ i, p = .loadExp i) ∨ p.Releasing) :
    (path (add seed key) rs p).filterMap Add.settles? = [] ∧
    (path (add seed key) rs p).filterMap Add.relocates? = [] ∧
    (path (add seed key) rs p).filterMap Add.reserves? = [] := by
  have hpath : ∀ q ∈ path (add seed key) rs p, q.Releasing := by
    refine path_inv (P := fun p => (∃ i, p = .loadExp i) ∨ p.Releasing) (fun p r p' hp hf => ?_) h
    have h' : p'.Releasing := by
      cases p with
      | loadExp | release =>
        cases hf
        exact trivial
      | insert q =>
        rcases add_cases hf with ⟨h, -⟩ | ⟨tg, i, n, h, -⟩ | ⟨Loc, q, q', h, -⟩ | ⟨Loc, q, i, h, -⟩ |
          ⟨-, h⟩
        · exact h.elim
        · cases h
        · cases h
        · cases h
        · exact h
      | contains | probe | reserve | relocate =>
        rcases hp with ⟨i, hi⟩ | hp
        · cases hi
        · exact hp.elim
    exact ⟨Or.inr h', h'⟩
  refine ⟨List.filterMap_eq_nil_iff.mpr fun q hq => ?_,
    List.filterMap_eq_nil_iff.mpr fun q hq => ?_, List.filterMap_eq_nil_iff.mpr fun q hq => ?_⟩
  · exact (hpath q hq).none.1
  · exact (hpath q hq).none.2.1
  · exact (hpath q hq).none.2.2

/-- The chain from a control point inside `Relocate(Loc, _)`. -/
def Falls (seed : BitVec 32) (key : Key) (rs : List Ans) : Prop :=
  ∀ Loc q, (Add.relocate Loc q).Ok seed key →
    (Loc :: (path (add seed key) rs (.relocate Loc q)).filterMap Add.settles?).IsChain
      (Nears seed key) ∧
    ((path (add seed key) rs (.relocate Loc q)).filterMap Add.relocates?).length + HOP + 1 ≤
      distance seed key Loc ∧
    (path (add seed key) rs (.relocate Loc q)).filterMap Add.reserves? = []

theorem Falls.settle (h : Falls seed key rs) (h1 : home seed key ≤ i)
    (h2 : i ≤ home seed key + ADD_RANGE) : ∃ l,
    (Add.settle seed key i :: path (add seed key) rs (.settle seed key i)).filterMap
      Add.settles? = i :: l ∧ (i :: l).IsChain (Nears seed key) ∧
    ((Add.settle seed key i :: path (add seed key) rs (.settle seed key i)).filterMap
      Add.relocates?).length ≤ distance seed key i - HOP ∧
    (Add.settle seed key i :: path (add seed key) rs (.settle seed key i)).filterMap
      Add.reserves? = [] := by
  have hok : (Add.settle seed key i).Ok seed key := Add.ok_settle h1 h2
  unfold Add.settle at hok ⊢
  split_ifs at hok ⊢ with hd
  · obtain ⟨hchain, hcalls, htries⟩ := h i _ hok
    refine ⟨_, ?_, hchain, ?_, ?_⟩
    · simp [Add.settles?, Add.relocates?]
    · have hstart : (Add.relocate i (.start i)).relocates? = some i := by simp [Add.relocates?]
      rw [List.filterMap_cons_some hstart, List.length_cons]
      omega
    · rw [List.filterMap_cons_none rfl]
      exact htries
  · obtain ⟨hslots, hcalls, htries⟩ := after_loadExp seed key rs (Or.inl ⟨i, rfl⟩)
    have hslot : (Add.loadExp i).settles? = some i := rfl
    refine ⟨[], ?_, List.IsChain.singleton i, ?_, ?_⟩
    · rw [List.filterMap_cons_some hslot, hslots]
    · rw [List.filterMap_cons_none rfl, hcalls]
      exact Nat.zero_le _
    · rw [List.filterMap_cons_none rfl, htries]

theorem falls (seed : BitVec 32) (key : Key) : ∀ rs, Falls seed key rs
  | [], Loc, q, hok => by
    obtain ⟨h1, h2, -⟩ := hok
    refine ⟨List.IsChain.singleton Loc, ?_, rfl⟩
    rw [distance_eq (by omega) h2]
    simp only [path, List.filterMap_nil, List.length_nil]
    omega
  | r :: rs, Loc, q, hok => by
    obtain ⟨h1, h2, hq⟩ := hok
    have hd : distance seed key Loc = Loc - home seed key := distance_eq (by omega) h2
    cases hf : (add seed key (.relocate Loc q)).2 r with
    | ret x | exit x =>
      have hpath : path (add seed key) (r :: rs) (.relocate Loc q) = [] :=
        path_of_ends fun p' h => by rw [hf] at h; cases h
      rw [hpath, hd]
      refine ⟨List.IsChain.singleton Loc, ?_, rfl⟩
      simp only [List.filterMap_nil, List.length_nil]
      omega
    | goto p' =>
      simp only [path_goto hf]
      rcases add_cases hf with ⟨h, -⟩ | ⟨tg, i, n, h, -⟩ | ⟨Loc', q₁, q', he, rfl, hq'⟩ |
        ⟨Loc', q₁, i, he, rfl, hi⟩ | ⟨⟨i, h⟩ | h, -⟩
      · exact h.elim
      · cases h
      · -- the call goes on
        cases he
        obtain ⟨hchain, hcalls, htries⟩ := falls seed key rs Loc q' ⟨h1, h2, Relocate.ok_next hq hq'⟩
        have hno : (Add.relocate Loc q').relocates? = none := if_neg (relocate_ne_start hq')
        have hno' : (Add.relocate Loc q').settles? = none := hno
        rw [List.filterMap_cons_none hno', List.filterMap_cons_none hno,
          List.filterMap_cons_none rfl]
        exact ⟨hchain, hcalls, htries⟩
      · -- the call returns
        cases he
        obtain ⟨h3, h4⟩ := Relocate.ok_ret hq hi
        have h5 : home seed key ≤ i := by omega
        have h6 : i ≤ home seed key + ADD_RANGE := by omega
        obtain ⟨l, hslots, hchain, hcalls, htries⟩ := (falls seed key rs).settle h5 h6
        have hdi : distance seed key i = i - home seed key := distance_eq h5 h6
        refine ⟨?_, ?_, htries⟩
        · rw [hslots]
          refine List.isChain_cons_cons.mpr ⟨⟨?_, ?_⟩, hchain⟩ <;> omega
        · omega
      · cases h
      · exact h.elim

/-! ### From the lookup on -/

theorem elim_getLast_le (f : ℕ → ℕ) (x : ℕ) :
    ∀ l : List ℕ, l.getLast?.elim 0 f ≤ (x :: l).getLast?.elim 0 f
  | [] => Nat.zero_le _
  | y :: l => by rw [List.getLast?_cons_cons]

theorem falls_probing : ∀ (rs : List Ans) {p : Add}, p.Probing → p.Ok seed key →
    ((path (add seed key) rs p).filterMap Add.settles?).IsChain (Nears seed key) ∧
    ((path (add seed key) rs p).filterMap Add.relocates?).length ≤
      ((p :: path (add seed key) rs p).filterMap Add.reserves?).getLast?.elim 0
        fun i => distance seed key i - HOP
  | [], p, hp, hok => ⟨List.IsChain.nil, Nat.zero_le _⟩
  | r :: rs, p, hp, hok => by
    cases hf : (add seed key p).2 r with
    | ret x | exit x =>
      have hpath : path (add seed key) (r :: rs) p = [] :=
        path_of_ends fun p' h => by rw [hf] at h; cases h
      rw [hpath]
      exact ⟨List.IsChain.nil, Nat.zero_le _⟩
    | goto p' =>
      have hok' := Add.ok_next hok hf
      simp only [path_goto hf]
      rcases add_cases hf with ⟨-, hp'⟩ | ⟨tg, i, n, rfl, rfl⟩ | ⟨Loc, q, q', rfl, -⟩ |
        ⟨Loc, q, i, rfl, -⟩ | ⟨⟨i, rfl⟩ | h, -⟩
      · obtain ⟨hchain, hcalls⟩ := falls_probing rs hp' hok'
        obtain ⟨hs, hr⟩ := hp'.none
        rw [List.filterMap_cons_none hs, List.filterMap_cons_none hr]
        refine ⟨hchain, hcalls.trans ?_⟩
        cases hres : p.reserves? with
        | none => rw [List.filterMap_cons_none hres]
        | some i =>
          rw [List.filterMap_cons_some hres]
          exact elim_getLast_le _ i _
      · obtain ⟨h1, h2, h3⟩ := hok
        obtain ⟨l, hslots, hchain, hcalls, htries⟩ := (falls seed key rs).settle h1 (by omega)
        have htry : (Add.reserve tg i n).reserves? = some i := rfl
        rw [hslots, List.filterMap_cons_some htry, htries, List.getLast?_singleton, Option.elim_some]
        exact ⟨hchain, hcalls⟩
      · exact hp.elim
      · exact hp.elim
      · exact hp.elim
      · cases p with
        | contains | probe | reserve => exact h.elim
        | relocate | loadExp | release | insert => exact hp.elim

/-- Whatever the accesses of an `add` reply: a `Relocate(Loc, _)` that it calls and that
returns has picked one of the `HOP` slots below `Loc`; the distances of the slots that the loop
comes to fall and stay positive; line 162 is not reached; and from a reserved slot at
distance `d` at most `d - HOP` calls begin. -/
theorem relocations_descend (seed : BitVec 32) (key : Key) (rs : List Ans) :
    (∀ Loc q r i, .relocate Loc q ∈ path (add seed key) rs (.contains .start) →
      (relocate seed Loc (newEntry key) q).2 r = .ret i →
      HOP < distance seed key Loc ∧ Loc - HOP ≤ i ∧ i ≤ Loc - 1) ∧
    ((path (add seed key) rs (.contains .start)).filterMap Add.settles?).IsChain
      (Nears seed key) ∧
    drive (add seed key) rs (.contains .start) ≠ .exit .sameSlot ∧
    ∀ i, ((path (add seed key) rs (.contains .start)).filterMap Add.reserves?).getLast? = some i →
      ((path (add seed key) rs (.contains .start)).filterMap Add.relocates?).length ≤
        distance seed key i - HOP := by
  have hstart : (Add.contains .start).Ok seed key := Nat.zero_le _
  have hprobing : (Add.contains .start).Probing := trivial
  obtain ⟨hchain, hcalls⟩ := falls_probing rs hprobing hstart
  refine ⟨fun Loc q r i hmem hret => ?_, hchain, fun hexit => ?_, fun i hi => ?_⟩
  · obtain ⟨h1, h2, hq⟩ := path_inv (fun p r p' hp hf => ⟨Add.ok_next hp hf, Add.ok_next hp hf⟩)
      hstart _ hmem
    obtain ⟨h3, h4⟩ := Relocate.ok_ret hq hret
    rw [distance_eq (by omega) h2]
    omega
  · obtain ⟨p, r, hok, hf⟩ := drive_ends (fun p r p' hp hf => Add.ok_next hp hf)
      (fun q h => by cases h) hstart hexit
    rcases add_exit hf with ⟨hx, -⟩ | ⟨hx, -⟩ | ⟨-, Loc, Exp, rfl⟩ | ⟨hx, -⟩
    · cases hx
    · cases hx
    · exact Nat.lt_irrefl Loc hok.2.2.2
    · cases hx
  · rw [List.filterMap_cons_none rfl, hi, Option.elim_some] at hcalls
    exact hcalls

/-- The keys 12749043 and 14294523 have the homes 1000 and 1002: the slot 1017 is reserved for
the first, and the second moves there from slot 1001. -/
example : (path (add 1 12749043) (List.replicate 17 ⟨true, 0#64⟩ ++
      List.replicate 17 ⟨true, 7#64⟩ ++ [⟨true, 0#64⟩, ⟨true, 0#64⟩] ++
      List.replicate 8 ⟨true, entry 14294523⟩) (.contains .start)).filterMap Add.settles? =
    [1017, 1001] := by decide +kernel

/-! ### In a run -/

variable {m : Cell → Word} {s : State} {ls : List (WeakLabel Call)} {t : ℕ}

/-- In a run, replies have driven every `add` to where it stands. -/
theorem add_driven (hr : (table seed).weakRun Pc.isWeak ls (idleState m) = some s)
    (hp : s.thr t = some (.add key p)) :
    ∃ rs, drive (add seed key) rs (.contains .start) = .goto p := by
  obtain ⟨c, rs, hd⟩ := Machine.driven_of_weakRun (fun _ => rfl) hr hp
  cases c with
  | add key' =>
    obtain ⟨q, hq, he⟩ := drive_inside_goto (c := add seed key') (i := Pc.add key') (fun _ => rfl) hd
    cases he
    exact ⟨rs, hq⟩
  | remove key' tid =>
    obtain ⟨q, -, he⟩ :=
      drive_inside_goto (c := remove seed key') (i := Pc.remove key' tid) (fun _ => rfl) hd
    cases he
  | contains key' =>
    obtain ⟨q, -, he⟩ :=
      drive_inside_goto (c := contains seed key') (i := Pc.contains key') (fun _ => rfl) hd
    cases he

/-- No run exits at line 162. -/
theorem never_same_slot (hr : (table seed).weakRun Pc.isWeak ls (idleState m) = some s) :
    s.halt ≠ some .sameSlot := by
  have hidle : Sound seed (idleState m) ∧ (idleState m).halt ≠ some .sameSlot :=
    ⟨fun _ _ h => (by cases h), fun h => (by cases h)⟩
  refine (Machine.weakRun_inv (P := fun s => Sound seed s ∧ s.halt ≠ some .sameSlot)
    (Q := fun _ _ => True) (fun s l s' hP _ hs => ⟨sound_weak hP.1 hs, fun hh => ?_⟩) hidle
    (Machine.WeakAlong.trivial ls _) hr).2
  obtain ⟨hS, hno⟩ := hP
  rcases Machine.weakStep_cases hs with ⟨t, c, rfl, h⟩ | ⟨hn, -, p, r, m', hp, -, rfl, -⟩
  · obtain ⟨-, -, rfl⟩ := Machine.step_call.mp h
    exact hno hh
  · cases hf : ((table seed).code p).2 r with
    | goto p' | ret x =>
      rw [hf] at hh
      exact hno hh
    | exit x =>
      rw [hf] at hh
      cases hh
      obtain ⟨key, a, rfl, ha⟩ := exit_add hf
      rcases add_exit ha with ⟨hx, -⟩ | ⟨hx, -⟩ | ⟨-, Loc, Exp, rfl⟩ | ⟨hx, -⟩
      · cases hx
      · cases hx
      · exact Nat.lt_irrefl Loc (hS _ _ hp).2.2.2
      · cases hx

end LFHash
