/-
# Room for a key

When an `add` that has not found its key begins its probe, the first empty slot has to
be near enough, and the relocations from there have to end in the window of the key
(`HasRoom`). In a run of one thread whose adds all have room nothing exits. A removed
slot keeps its stamp, and a stamp is never overwritten by an insertion: seventeen live
keys are enough to fill a window with words that no relocation moves.

Key definitions: `Settles`, `HasRoom`, `pick`, `sink`, `Add.Clear`.
Key theorems: `pick_eq_some`, `hasRoom_iff`, `clear_goto`, `clear_no_exit`,
`one_thread_with_room_never_exits`, `few_keys_can_run_out_of_room`.
-/
import LFHash.Displace
import LFHash.Sequential
import LFHash.Turns
import Mathlib.Data.List.Infix

namespace LFHash

open Interleave Hopscotch

variable {seed : BitVec 32} {key : Key} {T T' : ℕ → Word} {b : ℕ}

/-- The relocations from slot `i` end in the window above `b`. -/
inductive Settles (seed : BitVec 32) (T : ℕ → Word) (b : ℕ) : ℕ → Prop
  | here {i : ℕ} : i ≤ b + HOP → Settles seed T b i
  | relocate {i r : ℕ} : b + HOP < i → Picks seed T i r → Settles seed T b r → Settles seed T b i

/-- Slot `home + d` is the first empty one, the probe reaches it, and the relocations
from it end in the window of the key. -/
structure FreeAt (seed : BitVec 32) (T : ℕ → Word) (key : Key) (d : ℕ) : Prop where
  reach : d + 1 < ADD_RANGE
  empty : T (home seed key + d) = 0#64
  first : ∀ j < d, T (home seed key + j) ≠ 0#64
  settles : Settles seed T (home seed key) (home seed key + d)

def HasRoom (seed : BitVec 32) (T : ℕ → Word) (key : Key) : Prop := ∃ d, FreeAt seed T key d

theorem Picks.congr {Loc r : ℕ} (h : Picks seed T Loc r) (hT : ∀ i < Loc, T' i = T i) :
    Picks seed T' Loc r := by
  refine ⟨h.near, h.below, ?_, fun i hi hl => ?_⟩
  · rw [hT r h.below]
    exact h.fits
  · rw [hT i (hi.trans h.below)]
    exact h.first i hi hl

/-- Relocations look at the slots below only. -/
theorem Settles.congr {i : ℕ} (h : Settles seed T b i) (hT : ∀ j < i, T' j = T j) :
    Settles seed T' b i := by
  induction h with
  | here hi => exact .here hi
  | relocate hi hp hr ih =>
    exact .relocate hi (hp.congr hT) (ih fun j hj => hT j (hj.trans hp.below))

/-- An access at slot `l` leaves the relocations from the slots up to `l` as they are. -/
theorem Settles.exec {m : Cell → Word} {i l : ℕ} (acc : Access Cell Word)
    (h : Settles seed (buckets m) b i) (ha : acc.addr = .bucket l) (hl : i ≤ l) :
    Settles seed (buckets (acc.exec m).2) b i := by
  refine h.congr fun j hj => acc.exec_of_ne m ?_
  rw [ha]
  intro he
  have hjl : j = l := Cell.bucket.inj he
  omega

/-! ### Searching for room

The same as functions: the search for the first empty slot, and the relocations from it. -/

/-- The first of the `n` offsets from `b` on where the word is `w`. -/
def firstSlot (T : ℕ → Word) (b n : ℕ) (w : Word) : Option ℕ :=
  (List.range n).find? fun d => T (b + d) = w

/-- The first of the `HOP` slots below `Loc` whose word has its home less than `HOP` below
`Loc`. -/
def pick (seed : BitVec 32) (T : ℕ → Word) (Loc : ℕ) : Option ℕ :=
  ((List.range HOP).find? fun d => hopDist seed Loc (T (Loc - HOP + d)) < HOP).map (Loc - HOP + ·)

/-- The free slot `i` comes down to the window above `b`, in at most `n` relocations: each
moves the word that `choose` takes up into it. -/
def sink (choose : (ℕ → Word) → ℕ → Option ℕ) (b : ℕ) :
    ℕ → (ℕ → Word) → ℕ → Option ((ℕ → Word) × ℕ)
  | 0, _, _ => none
  | n + 1, T, i =>
    if i ≤ b + HOP then some (T, i)
    else
      match choose T i with
      | none => none
      | some r => sink choose b n (Function.update T i (T r)) r

section Search

variable {choose : (ℕ → Word) → ℕ → Option ℕ} {n d i r Loc : ℕ} {w : Word}

theorem firstSlot_eq_some : firstSlot T b n w = some d ↔
    d < n ∧ T (b + d) = w ∧ ∀ j < d, T (b + j) ≠ w := by
  simp only [firstSlot, List.find?_range_eq_some, decide_eq_true_eq, List.mem_range,
    Bool.not_eq_true', decide_eq_false_iff_not]
  exact ⟨fun ⟨h1, h2, h3⟩ => ⟨h2, h1, h3⟩, fun ⟨h1, h2, h3⟩ => ⟨h2, h1, h3⟩⟩

theorem firstSlot_eq_none : firstSlot T b n w = none ↔ ∀ j < n, T (b + j) ≠ w := by
  simp [firstSlot]

theorem pick_eq_some (h : HOP ≤ Loc) : pick seed T Loc = some r ↔ Picks seed T Loc r := by
  simp only [pick, Option.map_eq_some_iff, List.find?_range_eq_some, decide_eq_true_eq,
    List.mem_range, Bool.not_eq_true', decide_eq_false_iff_not, not_lt]
  constructor
  · rintro ⟨d, ⟨h1, h2, h3⟩, rfl⟩
    refine ⟨by omega, by omega, h1, fun i hi hl => ?_⟩
    have hfar := h3 (i - (Loc - HOP)) (by omega)
    have hin : Loc - HOP + (i - (Loc - HOP)) = i := by omega
    rwa [hin] at hfar
  · intro hp
    have hnear := hp.near
    have hbelow := hp.below
    have hr : Loc - HOP + (r - (Loc - HOP)) = r := by omega
    refine ⟨r - (Loc - HOP), ⟨?_, by omega, fun j hj => ?_⟩, hr⟩
    · rw [hr]
      exact hp.fits
    · exact hp.first _ (by omega) (by omega)

theorem pick_eq_none (h : HOP ≤ Loc) : pick seed T Loc = none ↔
    ∀ i < Loc, Loc ≤ i + HOP → HOP ≤ hopDist seed Loc (T i) := by
  simp only [pick, Option.map_eq_none_iff, List.find?_eq_none, List.mem_range, decide_eq_true_eq,
    not_lt]
  constructor
  · intro hall i hi hl
    have hfar := hall (i - (Loc - HOP)) (by omega)
    have hin : Loc - HOP + (i - (Loc - HOP)) = i := by omega
    rwa [hin] at hfar
  · exact fun hall d hd => hall _ (by omega) (by omega)

theorem sink_here (h : i ≤ b + HOP) : sink choose b (n + 1) T i = some (T, i) := by
  rw [sink, if_pos h]

theorem sink_stuck (h : ¬ i ≤ b + HOP) (hp : choose T i = none) :
    sink choose b (n + 1) T i = none := by
  rw [sink, if_neg h, hp]

theorem sink_moves (h : ¬ i ≤ b + HOP) (hp : choose T i = some r) :
    sink choose b (n + 1) T i = sink choose b n (Function.update T i (T r)) r := by
  rw [sink, if_neg h, hp]

/-- A free slot comes down to the window exactly if its relocations end there. -/
theorem sink_isSome_iff : ∀ {n : ℕ} {T : ℕ → Word} {i : ℕ}, b ≤ i → i < b + n →
    ((sink (pick seed) b n T i).isSome ↔ Settles seed T b i)
  | 0, _, _, hb, hi => absurd hi (not_lt.mpr hb)
  | n + 1, T, i, hb, hi => by
    by_cases hw : i ≤ b + HOP
    · rw [sink_here hw]
      exact iff_of_true rfl (.here hw)
    · cases hp : pick seed T i with
      | none =>
        rw [sink_stuck hw hp]
        refine iff_of_false (by simp) fun hs => ?_
        cases hs with
        | here hle => exact hw hle
        | relocate _ hr _ =>
          rw [(pick_eq_some (by omega)).mpr hr] at hp
          cases hp
      | some r =>
        have hr := (pick_eq_some (by omega)).mp hp
        have hnear := hr.near
        have hbelow := hr.below
        -- the relocation writes slot `i`, and the rest of the way is below it
        have hrest : ∀ j < r, Function.update T i (T r) j = T j := fun j hj =>
          Function.update_of_ne (by omega) _ _
        rw [sink_moves hw hp, sink_isSome_iff (by omega) (by omega)]
        constructor
        · intro hs
          exact .relocate (by omega) hr (hs.congr fun j hj => (hrest j hj).symm)
        · intro hs
          cases hs with
          | here hle => exact absurd hle hw
          | relocate _ hr' hs' =>
            have hsame := (pick_eq_some (by omega)).mpr hr'
            obtain rfl := Option.some.inj (hp.symm.trans hsame)
            exact hs'.congr hrest

theorem hasRoom_iff : HasRoom seed T key ↔
    ((firstSlot T (home seed key) (ADD_RANGE - 1) 0#64).bind fun d =>
      sink (pick seed) (home seed key) ADD_RANGE T (home seed key + d)).isSome = true := by
  have hsink : ∀ d, d + 1 < ADD_RANGE →
      ((sink (pick seed) (home seed key) ADD_RANGE T (home seed key + d)).isSome ↔
        Settles seed T (home seed key) (home seed key + d)) := fun d hd =>
    sink_isSome_iff (Nat.le_add_right _ d) (by omega)
  constructor
  · rintro ⟨d, h⟩
    have hlt : d < ADD_RANGE - 1 := Nat.lt_sub_of_add_lt h.reach
    rw [firstSlot_eq_some.mpr ⟨hlt, h.empty, h.first⟩, Option.bind_some]
    exact (hsink d h.reach).mpr h.settles
  · intro h
    cases hd : firstSlot T (home seed key) (ADD_RANGE - 1) 0#64 with
    | none =>
      rw [hd] at h
      cases h
    | some d =>
      rw [hd, Option.bind_some] at h
      obtain ⟨hlt, hz, hf⟩ := firstSlot_eq_some.mp hd
      have hreach : d + 1 < ADD_RANGE := Nat.add_lt_of_lt_sub hlt
      exact ⟨d, hreach, hz, hf, (hsink d hreach).mp h⟩

instance (T : ℕ → Word) : DecidablePred (HasRoom seed T) := fun _ =>
  decidable_of_iff _ hasRoom_iff.symm

end Search

/-! ### What an `add` with room knows -/

/-- `Relocate` has yet to reach the slot it will pick, or has picked one. -/
def Relocate.Clear (seed : BitVec 32) (T : ℕ → Word) (b Loc : ℕ) : Relocate → Prop
  | .getInd r _ | .getReplace r => ∃ r₀, r ≤ r₀ ∧ Picks seed T Loc r₀ ∧ Settles seed T b r₀
  | .loadExp r | .mark r _ | .loadDest r | .loadFin r _ | .copy r _ _ | .loadMark r
  | .overwrite r _ => Settles seed T b r

def Add.Clear (seed : BitVec 32) (T : ℕ → Word) (key : Key) : Add → Prop
  | .contains sc => Marked seed T key sc.p sc.cxx ∧ (Stored seed T key ∨ HasRoom seed T key)
  | .probe _ i n => ∃ d, FreeAt seed T key d ∧ i + 1 = home seed key + n ∧ n ≤ d + 1
  | .reserve _ i n => ∃ d, FreeAt seed T key d ∧ i = home seed key + d ∧ n = d + 1
  | .relocate Loc q => q.Clear seed T (home seed key) Loc
  | .loadExp _ | .release _ _ | .insert _ => True

theorem clear_settle {i : ℕ} (h : Settles seed T (home seed key) i) (hi : home seed key ≤ i)
    (hlt : i < 2 ^ 32) : (Add.settle seed key i).Clear seed T key := by
  unfold Add.settle
  rw [sub32_of_le hi hlt]
  split_ifs with hd
  · cases h with
    | here hle => omega
    | relocate _ hp hr =>
      have hstart : sub32 i HOP = i - HOP := sub32_of_le (by omega) hlt
      rw [Relocate.start, hstart]
      exact ⟨_, by have := hp.near; omega, hp, hr⟩
  · trivial

theorem clear_probeNext {tg : Word} {i n d : ℕ} (hd : FreeAt seed T key d)
    (hi : i = home seed key + n) (hn : n ≤ d) : (Add.probeNext tg i n).Clear seed T key := by
  have hreach := hd.reach
  unfold Add.probeNext
  rw [if_pos (by omega)]
  exact ⟨d, hd, by omega, by omega⟩

/-- The candidate test goes on below the slot that is picked, and takes that slot. -/
theorem clear_seek {Loc r : ℕ} {q : Relocate} (hr : Loc ≤ r + HOP)
    (h : ∃ r₀, r ≤ r₀ ∧ Picks seed T Loc r₀ ∧ Settles seed T b r₀)
    (hf : seek Loc r (hopDist seed Loc (T r)) = .goto q) : q.Clear seed T b Loc := by
  obtain ⟨r₀, hle, hp, hs⟩ := h
  rcases seek_eq_goto.mp hf with ⟨rfl, hd, -⟩ | ⟨rfl, hd, -⟩
  · have hne : r ≠ r₀ := by
      rintro rfl
      exact absurd hp.fits (not_lt.mpr hd)
    exact ⟨r₀, by omega, hp, hs⟩
  · have heq : r = r₀ := by
      by_contra hne
      have hfar := hp.first r (by omega) hr
      omega
    rw [heq]
    exact hs

variable {m : Cell → Word}

theorem relocate_clear {Loc : ℕ} {e : Word} {q q' : Relocate} (hq : q.Ok Loc)
    (hst : q.Steady seed (buckets m) Loc) (h : q.Clear seed (buckets m) b Loc)
    (hf : (relocate seed Loc e q).2 ((relocate seed Loc e q).1.exec m).1 = .goto q') :
    q'.Clear seed (buckets ((relocate seed Loc e q).1.exec m).2) b Loc := by
  cases q with
  | getInd r ind =>
    obtain rfl : ind = r := hst
    exact clear_seek hq.1 h hf
  | getReplace r => exact clear_seek hq.1 h hf
  | mark r Exp =>
    have he : m (.bucket r) = Exp := hst.1
    have hs := Settles.exec (relocate seed Loc e (.mark r Exp)).1 h rfl le_rfl
    simp only [relocate, Access.exec_cas_of_eq m _ he, if_true] at hf
    cases hf
    exact hs
  | loadExp r | loadFin r Dest | loadMark r => cases hf; exact h
  | loadDest r => cases hf; exact h
  | copy r Dest Fin =>
    cases hf
    have hlt : r < Loc := hq.2.1
    exact Settles.exec (.cas (.bucket Loc) Dest Fin) h rfl hlt.le
  | overwrite r Exp => cases hf

/-- The lookup of an `add` with room: a key that is not found is not stored, so there is
room for it. -/
theorem clear_lookup {sc : Scan} {a' : Add} (hle : sc.p ≤ HOP)
    (hun : ∀ i, tag (buckets m i) = 0#64) (h : (Add.contains sc).Clear seed (buckets m) key)
    (hf : addFlow seed key m (.contains sc) = .goto a') : a'.Clear seed (buckets m) key := by
  obtain ⟨hm, hroom⟩ := h
  have hr := hm.read hun
  rcases Flow.bind_eq_goto.mp hf with ⟨sc', hs, rfl⟩ | ⟨found, hs, hb⟩
  · have hflow := (contains_flow m sc).symm.trans hs
    split_ifs at hflow
    cases hflow
    exact ⟨hr, hroom⟩
  · have hflow := (contains_flow m sc).symm.trans hs
    split_ifs at hflow with hp
    cases hflow
    split_ifs at hb with h0
    cases hb
    have hno : ¬ Stored seed (buckets m) key := by
      rw [stored_iff_of_tag hun]
      rintro ⟨q, hq, hT⟩
      have hne := (hr.ne_zero_iff (by simp only [HOP] at hle; omega)).mpr ⟨q, by omega, hT⟩
      exact h0 (bne_iff_ne.mpr hne)
    obtain ⟨d, hd⟩ := hroom.resolve_left hno
    exact clear_probeNext hd (Nat.add_zero _).symm (Nat.zero_le _)

/-- The probe of an `add` with room. -/
theorem clear_probe {tg : Word} {i n : ℕ} {a' : Add} (hlow : home seed key ≤ i)
    (h : (Add.probe tg i n).Clear seed (buckets m) key)
    (hf : addFlow seed key m (.probe tg i n) = .goto a') : a'.Clear seed (buckets m) key := by
  obtain ⟨d, hd, hi, hn⟩ := h
  simp only [addFlow, add, Access.exec_load] at hf
  split_ifs at hf with hz <;> cases hf
  · have hne : i ≠ home seed key + d := by
      rintro rfl
      exact hz hd.empty
    exact clear_probeNext hd hi (by omega)
  · have heq : i = home seed key + d := by
      by_contra hne
      have hj := hd.first (n - 1) (by omega)
      have hin : home seed key + (n - 1) = i := by omega
      rw [hin] at hj
      exact hz hj
    exact ⟨d, hd, heq, by omega⟩

/-- An `add` with room still has it after its own access. -/
theorem clear_goto {a a' : Add} (ha : a.Ok seed key) (hst : a.Steady seed (buckets m))
    (hun : a.role = .free → ∀ i, tag (buckets m i) = 0#64)
    (h : a.Clear seed (buckets m) key) (hf : addFlow seed key m a = .goto a') :
    a'.Clear seed (buckets ((add seed key a).1.exec m).2) key := by
  have hhome := home_lt seed key
  cases a with
  | contains sc => exact clear_lookup ha (hun rfl) h hf
  | probe tg i n => exact clear_probe ha.1 h hf
  | reserve tg i n =>
    obtain ⟨d, hd, rfl, rfl⟩ := h
    have hreach := hd.reach
    obtain ⟨rfl, hz⟩ := hst
    have he : m (.bucket (home seed key + d)) = 0#64 := hd.empty
    have hs := Settles.exec (add seed key (.reserve 0#64 (home seed key + d) (d + 1))).1
      hd.settles rfl le_rfl
    simp only [addFlow, add, Access.exec_cas_of_eq m _ he, Bool.not_true, Bool.false_and,
      Bool.false_eq_true, if_false, Add.reserved] at hf
    rw [if_neg (by omega)] at hf
    cases hf
    refine clear_settle hs (Nat.le_add_right _ _) ?_
    simp only [TotalBuckets, ADD_RANGE] at hhome hreach
    omega
  | relocate Loc q =>
    obtain ⟨h1, h2, h3⟩ := ha
    rcases Flow.bind_eq_goto.mp hf with ⟨q', hq', rfl⟩ | ⟨r, hr, hk⟩
    · exact relocate_clear h3 hst h hq'
    · obtain ⟨Exp, rfl⟩ := relocate_ret hr
      obtain ⟨h4, h5⟩ := Relocate.ok_ret h3 hr
      have hs := Settles.exec (.cas (.bucket r) Exp (newEntry key)) h rfl le_rfl
      split_ifs at hk
      cases hk
      refine clear_settle hs (by omega) ?_
      simp only [TotalBuckets, ADD_RANGE] at hhome h2
      omega
  | loadExp i => cases hf; trivial
  | release i Exp => cases hf; trivial
  | insert q =>
    rcases Flow.bind_eq_goto.mp hf with ⟨q', -, rfl⟩ | ⟨b', -, hk⟩
    · trivial
    · split_ifs at hk
      cases hk
      trivial

/-- An `add` with room does not exit. -/
theorem clear_no_exit {a : Add} (ha : a.Ok seed key) (hst : a.Steady seed (buckets m))
    (hop : a.Hopeful seed (buckets m) key) (h : a.Clear seed (buckets m) key) (x : Exit) :
    addFlow seed key m a ≠ .exit x := by
  intro hf
  obtain ⟨-, tg, i, n, rfl, hn⟩ | ⟨-, Loc, r, q, rfl, hle, hq⟩ | ⟨-, Loc, Exp, rfl⟩ |
    ⟨-, c, j, rfl⟩ := add_exit hf
  · obtain ⟨d, hd, rfl, rfl⟩ := h
    have hreach := hd.reach
    omega
  · -- the slot that is picked is still ahead of the search
    have hpick : ∃ r₀, r ≤ r₀ ∧ Picks seed (buckets m) Loc r₀ ∧
        Settles seed (buckets m) (home seed key) r₀ := by
      rcases hq with ⟨ind, rfl⟩ | rfl
      · exact h
      · exact h
    obtain ⟨r₀, hr₀, hp, -⟩ := hpick
    have hlt := hp.below
    omega
  · obtain ⟨-, -, hq⟩ := ha
    have hlt : Loc < Loc := hq.2
    omega
  · exact hop

/-! ### The run of one thread -/

/-- Thread 0 runs alone, and its `add` has room. -/
structure Roomy (seed : BitVec 32) (s : State) (L : ℕ → Word) : Prop extends
    Writing seed s 0 L where
  alone : ∀ u ≠ 0, s.thr u = none
  clear : ∀ key a, s.thr 0 = some (.add key a) → a.Clear seed (buckets s.mem) key

/-- Every `add` that begins has its key in its window, or room for it. -/
def HasRoomFor (seed : BitVec 32) (s : State) : Label Call → Prop
  | .call _ (.add key) => Stored seed (buckets s.mem) key ∨ HasRoom seed (buckets s.mem) key
  | .call _ (.remove _ _) | .call _ (.contains _) | .move _ => True

namespace Roomy

variable {s s' : State} {L : ℕ → Word}

theorem solitary (h : Roomy seed s L) : Solitary seed s 0 L := ⟨h.toWriting, h.alone⟩

theorem call {c : Call} (h : Roomy seed s L) (hq : HasRoomFor seed s (.call 0 c))
    (hs : (table seed).step s (.call 0 c) = some s') : Roomy seed s' L := by
  obtain ⟨hW, halone⟩ := h.solitary.call hs
  obtain ⟨-, -, rfl⟩ := Machine.step_call.mp hs
  refine ⟨hW, halone, fun key a hp => ?_⟩
  obtain he : Pc.start c = .add key a := by simpa [table] using hp
  cases c <;> cases he
  have hm : Marked seed (buckets s.mem) key Scan.start.p Scan.start.cxx := marked_start _
  exact ⟨hm, hq⟩

/-- A thread with room does not exit. -/
theorem no_exit {p : Pc} (h : Roomy seed s L) (hp : s.thr 0 = some p) (x : Exit) :
    (table seed).flow s.mem p ≠ .exit x := by
  intro hf
  obtain ⟨key, a, rfl, hx⟩ := exit_add hf
  exact clear_no_exit (h.inv.ok 0 _ hp) (h.steady key a hp) (h.hopes key a hp) (h.clear key a hp)
    x hx

theorem move (h : Roomy seed s L) (hs : (table seed).step s (.move 0) = some s') :
    s'.halt = none ∧ ∃ L', Roomy seed s' L' := by
  obtain ⟨h0, p, hp, -⟩ := Machine.step_move.mp hs
  have hh : s'.halt = none := by
    obtain rfl := Machine.eq_advance hp hs
    cases hf : (table seed).flow s.mem p with
    | goto p' => rw [Machine.advance_goto hf]; exact h0
    | ret r => rw [Machine.advance_ret hf]; exact h0
    | exit x => exact absurd hf (h.no_exit hp x)
  obtain ⟨-, L', -, ⟨hW, halone⟩, -⟩ := h.solitary.move hs hh
  refine ⟨hh, L', hW, halone, fun key a' hp' => ?_⟩
  obtain rfl := Machine.eq_advance hp hs
  rw [Machine.advance_thr hh, Function.update_self] at hp'
  have hn : next seed s.mem p = some (.add key a') := hp'
  obtain ⟨a, hf, rfl⟩ := next_eq_add hn
  rw [Machine.advance_mem]
  refine clear_goto (h.inv.ok 0 _ hp) (h.steady key a hp) (fun hr i => ?_) (h.clear key a hp) hf
  apply h.toWriting.untagged
  rw [hp]
  show ¬ a.role.Owns i
  rw [hr]
  exact id

end Roomy

/-- In a run of one thread in which every `add` has its key in its window or has room
for it, nothing exits. -/
theorem one_thread_with_room_never_exits {ls : List (Label Call)} {s : State}
    (hr : (table seed).run ls fresh = some s)
    (hq : (table seed).Along (fun s l => HasRoomFor seed s l ∧ l.thread = 0) ls fresh) :
    s.halt = none := by
  have hstep : ∀ s l s', (s.halt = none ∧ ∃ L, Roomy seed s L) →
      (HasRoomFor seed s l ∧ l.thread = 0) → (table seed).step s l = some s' →
      s'.halt = none ∧ ∃ L, Roomy seed s' L := by
    rintro s l s' ⟨hh, L, h⟩ ⟨hroom, hl⟩ hs
    cases l with
    | call t c =>
      obtain rfl : t = 0 := hl
      refine ⟨?_, L, h.call hroom hs⟩
      obtain ⟨-, -, rfl⟩ := Machine.step_call.mp hs
      exact hh
    | move t =>
      obtain rfl : t = 0 := hl
      exact h.move hs
  have hfresh : Roomy seed fresh fun _ => 0#64 :=
    ⟨Writing.idle (m := fun _ => 0#64) (fun _ => tag_zero) 0, fun _ _ => rfl,
      fun _ _ h => by cases h⟩
  exact (Machine.run_inv hstep ⟨rfl, _, hfresh⟩ hq hr).1

instance (s : State) : ∀ l, Decidable (HasRoomFor seed s l)
  | .call _ (.add _) => inferInstanceAs (Decidable (_ ∨ _))
  | .call _ (.remove _ _) | .call _ (.contains _) | .move _ => isTrue trivial

/-- One key is added and removed twice: the second removal leaves the stamp 1 in slot 1000.
Sixteen keys fill their homes, the slots 1001 to 1016, and one more `add` of the first key
relocates the word of slot 1002. -/
def stampedRun : List (Label Call) :=
  alone 0 (.add 12749043) 23 ++ alone 0 (.remove 12749043 0) 70 ++
    alone 0 (.add 12749043) 23 ++ alone 0 (.remove 12749043 0) 70 ++
    ([32323154, 14294523, 25996583, 26908912, 96331457, 22408621, 43929219, 411137, 19744238,
      61233365, 16851735, 42944407, 17995410, 1028799, 39482353, 25437104] : List Key).flatMap
      (fun key => alone 0 (.add key) 23) ++ alone 0 (.add 12749043) 51

set_option maxRecDepth 100000 in
theorem room_after_a_removal : ∃ s, (table 1).run stampedRun fresh = some s ∧ s.halt = none := by
  have h : ((table 1).run stampedRun fresh).isSome = true := by decide +kernel
  obtain ⟨s, hs⟩ := Option.isSome_iff_exists.mp h
  have hq : (table 1).Along (fun s l => HasRoomFor 1 s l ∧ l.thread = 0) stampedRun fresh := by
    decide +kernel
  exact ⟨s, hs, one_thread_with_room_never_exits hs hq⟩

/-! ### A run without room

One key is added and removed twice: the second removal leaves the stamp 1 in slot 1000.
Sixteen keys with home 1000 fill the slots 1001 to 1016; for one more, `Relocate` finds
no word to move to slot 1017. -/

/-- The keys added and not removed since, after the calls `cs`. -/
def liveKeys (cs : List Call) : List Key :=
  cs.foldl (fun live c =>
    match c with
    | .add key => live.insert key
    | .remove key _ => live.erase key
    | .contains _ => live) []

def crowd : List Key :=
  [12749043, 56200813, 111078615, 117330412, 148194087, 170350241, 203754706, 235262747,
    252926823, 268653197, 342209399, 342469606, 422611281, 438020724, 473031429, 491500270]

def crowdRun : List (Label Call) :=
  alone 0 (.add 12749043) 23 ++ alone 0 (.remove 12749043 0) 70 ++
    alone 0 (.add 12749043) 23 ++ alone 0 (.remove 12749043 0) 70 ++
    (crowd.zipIdx 1).flatMap (fun k => alone 0 (.add k.1) (23 + 2 * k.2)) ++
    alone 0 (.add 504861961) 53

set_option maxRecDepth 100000 in
theorem few_keys_can_run_out_of_room : ∃ s, (table 1).run crowdRun fresh = some s ∧
    (∀ l ∈ crowdRun, l.thread = 0 ∧ NonZero l) ∧ (table 1).Along (Inside 1) crowdRun fresh ∧
    (∀ cs, cs <+: begun crowdRun → (liveKeys cs).length ≤ HOP + 1) ∧
    s.halt = some .resize := by
  have h : ((table 1).run crowdRun fresh).any (fun s => decide (s.halt = some .resize)) = true := by
    decide +kernel
  obtain ⟨s, hs, h⟩ := (Option.any_eq_true _ _).mp h
  have hlive : ∀ cs ∈ (begun crowdRun).inits, (liveKeys cs).length ≤ HOP + 1 := by
    decide +kernel
  exact ⟨s, hs, by decide +kernel, by decide +kernel,
    fun cs hcs => hlive cs ((List.mem_inits _ _).mpr hcs), of_decide_eq_true h⟩

end LFHash
