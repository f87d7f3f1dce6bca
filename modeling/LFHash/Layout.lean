/-
# The layout

One `add` runs alone, on a table whose words are keys in their windows, each of them
once. It ends. It exits only for want of room, and when it returns the table is laid out
so again: each relocation moves one word inside its window, the reserved slot is given
back, and the second search of the window, which comes to an empty slot, writes the key
that the lookup has not found.

Key definitions: `WellFormed`, `Add.Seeks`, `Grows`.
Key theorems: `Act.has_goto`, `Act.has_ret`, `Grows.move`, `add_keeps_the_layout`.
-/
import LFHash.Readers

namespace LFHash

open Interleave Hopscotch

variable {seed : BitVec 32} {key : Key}

/-- Every word is empty or an untagged key in its window, and no word occurs twice. -/
structure WellFormed (seed : BitVec 32) (T : ℕ → Word) : Prop where
  words : ∀ i, (T i).toNat < 2 ^ 32
  placed : Placed (homeOf seed) HOP 0#64 T
  distinct : Distinct 0#64 T

theorem WellFormed.untagged {T : ℕ → Word} (h : WellFormed seed T) (i : ℕ) :
    tag (T i) = 0#64 := by
  have hlt := h.words i
  apply (tag_eq_iff (by norm_num)).mpr
  exact Nat.div_eq_of_lt (by omega)

/-- A table with the words of a well-formed one, and perhaps one key more. -/
theorem WellFormed.words_of_has {T T' : ℕ → Word} (h : WellFormed seed T)
    (hT : ∀ v ≠ 0#64, Has T' v → Has T v ∨ v = entry key) (i : ℕ) : (T' i).toNat < 2 ^ 32 := by
  by_cases h0 : T' i = 0#64
  · rw [h0]
    decide
  · rcases hT _ h0 ⟨i, rfl⟩ with ⟨j, hj⟩ | hk
    · rw [← hj]
      exact h.words j
    · rw [hk, toNat_entry]
      exact key.isLt

/-! ### The words an `add` keeps -/

variable {T T' L L' : ℕ → Word} {thr : ℕ → Option Pc} {t : ℕ} {q a b : Add}

/-- An access of an `add` that goes on moves words, and loses and writes none. -/
theorem Act.has_goto {p' : Pc} (ha : Act seed T L (.add key q) (some p') T' L')
    (hI : Inv seed T thr L) (hp : thr t = some (.add key q)) {v : Word} (hv : v ≠ 0#64) :
    Has L' v ↔ Has L v := by
  have hf := hI.sim.fits t
  rw [hp] at hf
  cases ha with
  | quiet | reserve | mark | overwrite | release => exact Iff.rfl
  | copy hlt => exact has_move (Nat.ne_of_lt hlt) hf.2.1 hv

/-- The access with which an `add` returns writes its key over an empty slot. -/
theorem Act.has_ret (ha : Act seed T L (.add key q) none T' L') (hI : Inv seed T thr L)
    (hret : ∃ p ≤ HOP, T' (home seed key + p) = entry key) {v : Word} (hv : v ≠ 0#64) :
    Has L' v ↔ Has L v ∨ v = entry key := by
  cases ha with
  | quiet =>
    obtain ⟨p, -, hT⟩ := hret
    have hL : L (home seed key + p) = entry key :=
      hI.sim.eq_of_read hT (tag_entry _)
    refine ⟨Or.inl, fun h => h.elim id fun he => ?_⟩
    rw [he]
    exact ⟨_, hL⟩
  | reserve _ hr | overwrite hr => cases hr
  | @insert _ tg c p he hz hle =>
    have hi : L (home seed key + p) = 0#64 :=
      hI.sim.eq_of_read hz tag_zero
    constructor
    · intro h
      by_cases hvk : v = entry key
      · exact Or.inr hvk
      · exact Or.inl (has_of_put h hvk)
    · rintro (h | rfl)
      · exact has_put_of_ne h (by rw [hi]; exact hv.symm)
      · exact has_put_self

/-- A key is read in its window exactly if it is stored. -/
theorem has_entry_iff (hL : Placed (homeOf seed) HOP 0#64 L) (hk : key ≠ 0#32) :
    Has L (entry key) ↔ ∃ p ≤ HOP, L (home seed key + p) = entry key := by
  constructor
  · intro h
    exact member_entry.mp (hL.member (entry_ne_zero hk) h)
  · rintro ⟨p, -, hp⟩
    exact ⟨_, hp⟩

/-! ### One `add` -/

/-- What the `add` knows of the table `T₀` it has begun on: what its lookup has read of it
in `L`, and past the lookup that its key is not there. -/
def Add.Seeks (seed : BitVec 32) (L T₀ : ℕ → Word) (key : Key) : Add → Prop
  | .contains sc => Marked seed L key sc.p sc.cxx
  | .probe _ _ _ | .reserve _ _ _ | .relocate _ _ | .loadExp _ | .release _ _ | .insert _ =>
    ¬ Has T₀ (entry key)

theorem Add.Past.seeks_iff {T₀ : ℕ → Word} (h : q.Past) :
    q.Seeks seed L T₀ key ↔ ¬ Has T₀ (entry key) := by
  cases q with
  | contains sc => exact h.elim
  | probe | reserve | relocate | loadExp | release | insert => exact Iff.rfl

/-- Thread `t` runs an `add` that has begun on the table `T₀`, or has returned from it. -/
structure Grows (seed : BitVec 32) (T₀ : ℕ → Word) (key : Key) (t : ℕ) (s : State)
    (L : ℕ → Word) : Prop extends Solitary seed s t L where
  placed : Placed (homeOf seed) HOP 0#64 L
  distinct : Distinct 0#64 L
  runs : ∀ p, s.thr t = some p → s.log = [] ∧ (∀ v ≠ 0#64, Has L v ↔ Has T₀ v) ∧
    ∃ a, p = .add key a ∧ a.Seeks seed L T₀ key
  done : s.thr t = none → s.log = [(t, .add key, true)] ∧
    ∀ v ≠ 0#64, Has L v ↔ Has T₀ v ∨ v = entry key

namespace Grows

variable {T₀ : ℕ → Word} {s s' : State} {m : Cell → Word}

theorem start (hm : WellFormed seed (buckets m))
    (hs : (table seed).step (idleState m) (.call t (.add key)) = some s) :
    Grows seed (buckets m) key t s (buckets m) := by
  have hS := (Solitary.idle hm.untagged t).call hs
  obtain ⟨-, -, rfl⟩ := Machine.step_call.mp hs
  refine ⟨hS, hm.placed, hm.distinct, fun p hp => ?_, fun hn => ?_⟩
  · obtain rfl : Pc.start (.add key) = p := by simpa [table] using hp
    exact ⟨rfl, fun _ _ => Iff.rfl, _, rfl, marked_start _⟩
  · simp at hn

/-- The lookup has told whether the key is stored. -/
theorem found_iff {sc : Scan} (h : Grows seed T₀ key t s L) (hk : key ≠ 0#32)
    (hp : s.thr t = some (.add key (.contains sc))) (hend : HOP ≤ sc.p) :
    sc.read seed (buckets s.mem) key ≠ 0#64 ↔ Has T₀ (entry key) := by
  obtain ⟨-, hsame, a, ha, hmark⟩ := h.runs _ hp
  cases ha
  have hT : buckets s.mem = L := h.buckets_eq (by rw [hp]; rfl)
  have hle : sc.p ≤ HOP := h.inv.ok t _ hp
  have hsc : sc.p = HOP := le_antisymm hle hend
  have hr := Marked.read hmark h.inv.sim.untagged
  rw [hsc] at hr
  rw [hT, hr.ne_zero_iff (by decide), ← hsame _ (entry_ne_zero hk), has_entry_iff h.placed hk]
  simp only [Nat.lt_succ_iff]

theorem seeks_goto (h : Grows seed T₀ key t s L) (hk : key ≠ 0#32)
    (hp : s.thr t = some (.add key a)) (hf : addFlow seed key s.mem a = .goto b)
    (ha : Act seed (buckets s.mem) L (.add key a) (some (.add key b))
      (buckets ((add seed key a).1.exec s.mem).2) L') : b.Seeks seed L' T₀ key := by
  obtain ⟨-, -, a', he, hseek⟩ := h.runs _ hp
  cases he
  rcases add_goto hf with ⟨sc, rfl, -, rfl⟩ | ⟨hb, hend⟩
  · -- the lookup goes on
    have hT : buckets s.mem = L := h.buckets_eq (by rw [hp]; rfl)
    cases ha
    have hr := Marked.read hseek h.inv.sim.untagged
    rw [← hT] at hr ⊢
    exact hr
  · rw [hb.seeks_iff]
    rcases a.past_or_contains with hpast | ⟨sc, rfl⟩
    · exact hpast.seeks_iff.mp hseek
    · -- the lookup has found nothing
      obtain ⟨hsc, h0⟩ := hend sc rfl
      rw [← h.found_iff hk hp hsc]
      exact not_not.mpr h0

theorem ret {r : Bool} (h : Grows seed T₀ key t s L) (hk : key ≠ 0#32)
    (hp : s.thr t = some (.add key a)) (hf : addFlow seed key s.mem a = .ret r)
    (ha : Act seed (buckets s.mem) L (.add key a) none
      (buckets ((add seed key a).1.exec s.mem).2) L') :
    r = true ∧ ∀ v ≠ 0#64, Has L' v ↔ Has T₀ v ∨ v = entry key := by
  obtain ⟨-, hsame, a', he, -⟩ := h.runs _ hp
  cases he
  obtain ⟨rfl, ⟨sc, rfl, hr⟩ | hret⟩ := add_ret (h.inv.ok t _ hp) hf
  · -- the lookup has found the key
    refine ⟨rfl, fun v hv => ?_⟩
    have hin := (h.found_iff hk hp (add_found hf).2.1).mp hr
    cases ha
    rw [hsame v hv]
    exact ⟨Or.inl, fun hor => hor.elim id fun e => e ▸ hin⟩
  · refine ⟨rfl, fun v hv => ?_⟩
    rw [ha.has_ret h.inv hret hv, hsame v hv]

/-- The `add` puts its key only where it is not. -/
theorem fresh_key (h : Grows seed T₀ key t s L) (hk : key ≠ 0#32)
    (hp : s.thr t = some (.add key a)) {q : Insert} (hq : a = .insert q) :
    ¬ Has L (entry key) := by
  obtain ⟨-, hsame, a', he, hseek⟩ := h.runs _ hp
  cases he
  subst hq
  rw [hsame _ (entry_ne_zero hk)]
  exact hseek

/-- The `add` exits only where its probe or a search for a candidate has run out of slots. -/
theorem exits {x : Exit} (h : Grows seed T₀ key t s L) (hp : s.thr t = some (.add key a))
    (hf : addFlow seed key s.mem a = .exit x) : x = .insertionFailure ∨ x = .resize := by
  rcases add_exit hf with ⟨hx, -⟩ | ⟨hx, -⟩ | ⟨-, Loc, Exp, rfl⟩ | ⟨-, c, j, rfl⟩
  · exact Or.inl hx
  · exact Or.inr hx
  · -- a relocation returns a slot below its own
    have hok : Add.Ok seed key (.relocate Loc (.overwrite Loc Exp)) := h.inv.ok t _ hp
    exact absurd hok.2.2.2 (lt_irrefl Loc)
  · -- the second loop of `BucketInsert` is not reached
    exact (h.hopes key _ hp).elim

theorem move (h : Grows seed T₀ key t s L) (hk : key ≠ 0#32)
    (hs : (table seed).step s (.move t) = some s') (hh : s'.halt = none) :
    ∃ L', Grows seed T₀ key t s' L' := by
  obtain ⟨p, L', hp, hS, ha⟩ := h.toSolitary.move hs hh
  obtain ⟨hlog, hsame, a, rfl, -⟩ := h.runs p hp
  have hplaced := ha.placed h.inv hp (h.suited t) h.placed
  have hdistinct := ha.distinct h.inv hp (fun q hq => h.fresh_key hk hp hq) h.distinct
  obtain rfl := Machine.eq_advance hp hs
  rw [Machine.advance_mem] at ha
  refine ⟨L', hS, hplaced, hdistinct, fun p' hp' => ?_, fun hn => ?_⟩
  · cases hf : (table seed).flow s.mem (.add key a) with
    | goto p'' =>
      have hx : next seed s.mem (.add key a) = some p'' := congrArg Flow.point? hf
      rw [Machine.advance_thr_goto hf, Option.some.injEq] at hp'
      subst hp'
      rw [hx] at ha
      obtain ⟨b, hb, rfl⟩ | ⟨r, -, hr⟩ := Flow.bind_eq_goto.mp hf
      · rw [Machine.advance_goto hf]
        refine ⟨hlog, fun v hv => ?_, b, rfl, h.seeks_goto hk hp hb ha⟩
        rw [ha.has_goto h.inv hp hv, hsame v hv]
      · cases hr
    | ret r =>
      rw [Machine.advance_ret hf] at hp'
      simp at hp'
    | exit e => exact absurd hf (Machine.flow_ne_exit hh e)
  · cases hf : (table seed).flow s.mem (.add key a) with
    | goto p'' =>
      rw [Machine.advance_thr_goto hf] at hn
      cases hn
    | ret r =>
      have hx : next seed s.mem (.add key a) = none := congrArg Flow.point? hf
      rw [hx] at ha
      obtain ⟨b, hb, hr⟩ := Flow.bind_eq_ret.mp hf
      obtain ⟨rfl, hhas⟩ := h.ret hk hp hb ha
      cases hr
      rw [Machine.advance_ret hf]
      exact ⟨by rw [hlog], hhas⟩
    | exit e => exact absurd hf (Machine.flow_ne_exit hh e)

/-- A candidate of a writer alone carries no tag, so line 191 does not fail for it. -/
theorem not_blocked (h : Grows seed T₀ key t s L) : ¬ Blocked seed s t := by
  rintro ⟨-, p, hp, hb⟩
  obtain ⟨-, -, a, rfl, -⟩ := h.runs p hp
  rcases a with sc | ⟨tg, i, n⟩ | ⟨tg, i, n⟩ | ⟨Loc, q⟩ | i | ⟨i, Exp⟩ | q
  case relocate =>
    cases q with
    | mark r Exp =>
      have hok : Add.Ok seed key (.relocate Loc (.mark r Exp)) := h.inv.ok t _ hp
      refine hb.1 (h.toWriting.untagged fun hown => ?_)
      rw [hp] at hown
      have he : r = Loc := hown
      exact absurd hok.2.2.2.1 (by omega)
    | getInd | getReplace | loadExp | loadDest | loadFin | copy | loadMark | overwrite => exact hb
  all_goals exact hb

theorem wellFormed (h : Grows seed (buckets m) key t s L) (hm : WellFormed seed (buckets m))
    (hn : s.thr t = none) : WellFormed seed (buckets s.mem) := by
  have hhas : ∀ v ≠ 0#64, Has L v → Has (buckets m) v ∨ v = entry key := fun v hv =>
    ((h.done hn).2 v hv).mp
  rw [h.buckets_eq (by rw [hn]; rfl)]
  exact ⟨hm.words_of_has hhas, h.placed, h.distinct⟩

/-- The `add` has exited for want of room, or it runs or has returned. -/
def Outgrows (seed : BitVec 32) (T₀ : ℕ → Word) (key : Key) (t : ℕ) (s : State) : Prop :=
  (∀ x, s.halt = some x → x = .insertionFailure ∨ x = .resize) ∧
    (s.halt = none → ∃ L, Grows seed T₀ key t s L)

theorem run {n : ℕ} (h : Grows seed T₀ key t s L) (hk : key ≠ 0#32) (h0 : s.halt = none)
    (hr : (table seed).run (List.replicate n (.move t)) s = some s') :
    Outgrows seed T₀ key t s' := by
  have hstep : ∀ s s', Outgrows seed T₀ key t s → (table seed).step s (.move t) = some s' →
      Outgrows seed T₀ key t s' := by
    intro s s' hP hs
    obtain ⟨L, h⟩ := hP.2 (Machine.halt_of_step hs)
    refine ⟨fun x hx => ?_, h.move hk hs⟩
    obtain ⟨hh, p, hp, rfl⟩ := Machine.step_move.mp hs
    obtain ⟨-, -, a, rfl, -⟩ := h.runs p hp
    cases hf : (table seed).flow s.mem (.add key a) with
    | goto p' =>
      rw [Machine.advance_goto hf, hh] at hx
      cases hx
    | ret r =>
      rw [Machine.advance_ret hf, hh] at hx
      cases hx
    | exit e =>
      rw [Machine.advance_exit hf] at hx
      cases hx
      obtain ⟨key', a', he, hf'⟩ := exit_add hf
      cases he
      exact h.exits hp hf'
  refine Machine.run_moves_inv hstep n ⟨fun x hx => ?_, fun _ => ⟨L, h⟩⟩ hr
  rw [h0] at hx
  cases hx

end Grows

variable {m : Cell → Word}

/-- On a well-formed table an `add` of a non-zero key that runs alone ends. It exits only
with "insertion failure" or "RESIZE()"; when it returns, it returns true, the table is
well-formed, and its words are the old ones and the key. -/
theorem add_keeps_the_layout (hm : WellFormed seed (buckets m)) (hk : key ≠ 0#32) (t : ℕ) :
    (∃ n s, (table seed).run (alone t (.add key) n) (idleState m) = some s ∧
      (s.thr t = none ∨ s.halt ≠ none)) ∧
    ∀ n s, (table seed).run (alone t (.add key) n) (idleState m) = some s →
      (∀ x, s.halt = some x → x = .insertionFailure ∨ x = .resize) ∧
      (s.halt = none → s.thr t = none → s.log = [(t, .add key, true)] ∧
        WellFormed seed (buckets s.mem) ∧
        ∀ w ≠ 0#64, Has (buckets s.mem) w ↔ Has (buckets m) w ∨ w = entry key) := by
  have hcall : (table seed).step (idleState m) (.call t (.add key)) =
      some { idleState m with
        thr := Function.update (idleState m).thr t (some (Pc.start (.add key))) } :=
    Machine.step_call.mpr ⟨rfl, rfl, rfl⟩
  have hstart := Grows.start hm hcall
  constructor
  · have hsound : Sound seed _ := sound_step (fun _ _ h => by cases h) hcall
    obtain ⟨n, s, hr, hfin⟩ := finishes_of_never_blocked (t := t) hsound fun n s' hr hb => by
      obtain ⟨-, hG⟩ := hstart.run hk rfl hr
      obtain ⟨L, h⟩ := hG hb.1
      exact h.not_blocked hb
    exact ⟨n, s, Machine.run_cons.mpr ⟨_, hcall, hr⟩, hfin⟩
  · intro n s hr
    obtain ⟨s₁, h1, h2⟩ := Machine.run_cons.mp hr
    rw [hcall, Option.some.injEq] at h1
    subst h1
    obtain ⟨hexit, hG⟩ := hstart.run hk rfl h2
    refine ⟨hexit, fun hh hn => ?_⟩
    obtain ⟨L, h⟩ := hG hh
    obtain ⟨hlog, hhas⟩ := h.done hn
    refine ⟨hlog, h.wellFormed hm hn, ?_⟩
    rw [h.buckets_eq (by rw [hn]; rfl)]
    exact hhas

theorem wellFormed_tableOf {b : ℕ} {keys : List Key}
    (hw : ∀ x ∈ keys.zipIdx, home seed x.1 ≤ b + x.2 ∧ b + x.2 ≤ home seed x.1 + HOP)
    (hd : keys.Nodup) : WellFormed seed (buckets (tableOf b keys)) := by
  refine ⟨fun i => ?_, placed_tableOf hw, distinct_tableOf hd⟩
  rcases buckets_tableOf b keys i with h | ⟨key, -, h⟩ <;> rw [h]
  · decide
  · rw [toNat_entry]
    exact key.isLt

theorem has_tableOf {b : ℕ} {keys : List Key} {k : Key} (hk : k ∈ keys) :
    Has (buckets (tableOf b keys)) (entry k) := by
  obtain ⟨j, hj, rfl⟩ := List.getElem_of_mem hk
  refine ⟨b + j, ?_⟩
  show (if b ≤ b + j then ((keys[b + j - b]?).map entry).getD 0#64 else 0#64) = _
  rw [if_pos (Nat.le_add_right b j), Nat.add_sub_cancel_left, List.getElem?_eq_getElem hj]
  rfl

set_option maxRecDepth 10000 in
/-- The window of the key is full: the `add` reserves slot 1017, moves a word there from
its window, and writes the key in its place. -/
theorem one_add_keeps_the_layout : ∃ s,
    (table 1).run (alone 0 (.add 56200813) 51) (idleState (tableOf 1000 fullWindow)) = some s ∧
    s.log = [(0, .add 56200813, true)] ∧ WellFormed 1 (buckets s.mem) ∧
    Has (buckets s.mem) (entry 56200813) ∧ ∀ k ∈ fullWindow, Has (buckets s.mem) (entry k) := by
  have h : ((table 1).run (alone 0 (.add 56200813) 51)
      (idleState (tableOf 1000 fullWindow))).any (fun s =>
        decide (s.halt = none ∧ (s.thr 0).isNone)) = true := by decide +kernel
  obtain ⟨s, hs, h⟩ := (Option.any_eq_true _ _).mp h
  obtain ⟨hh, h0⟩ := of_decide_eq_true h
  have hm : WellFormed 1 (buckets (tableOf 1000 fullWindow)) :=
    wellFormed_tableOf (by decide +kernel) (by decide)
  have hk : (56200813 : Key) ≠ 0#32 := by decide
  have hadd := add_keeps_the_layout hm hk 0
  obtain ⟨-, hdone⟩ := hadd.2 51 s hs
  obtain ⟨hlog, hw, hhas⟩ := hdone hh (Option.isNone_iff_eq_none.mp h0)
  have hno : 0#32 ∉ fullWindow := by decide
  have hnew : Has (buckets s.mem) (entry 56200813) := by
    rw [hhas _ (entry_ne_zero hk)]
    exact Or.inr rfl
  refine ⟨s, hs, hlog, hw, hnew, fun k hin => ?_⟩
  have hk0 : k ≠ 0#32 := fun e => hno (e ▸ hin)
  rw [hhas _ (entry_ne_zero hk0)]
  exact Or.inl (has_tableOf hin)

end LFHash
