/-
# Accesses charged to calls and failures

A measure of control points that falls with every access, except those that fail in a given
way, where it grows by a bounded amount, bounds the accesses of a thread in every run: by
what its calls cost at their start, plus a constant for each failure.

Key definitions: `Machine.answered`, `Machine.missesOf`, `costOf`, `Left`.
Key theorems: `Machine.left_step`, `Machine.accesses_le`, `Machine.missesOf_eq_zero`.
-/
import LFHash.Weak

namespace Interleave

variable {A V C S R E : Type}

/-- What the calls of thread `t` in a schedule cost together. -/
def costOf (cost : C → ℕ) (t : ℕ) : List (WeakLabel C) → ℕ
  | [] => 0
  | .step (.call u c) :: ls => (if u = t then cost c else 0) + costOf cost t ls
  | .step (.move _) :: ls | .fail _ :: ls => costOf cost t ls

/-- What a thread has left to do: nothing outside a call, nor when the process has exited. -/
def Left (work : S → ℕ) (s : Config A V S R E) (t : ℕ) : ℕ :=
  if s.halt.isSome then 0 else (s.thr t).elim 0 work

theorem left_of_idle {work : S → ℕ} {s : Config A V S R E} {t : ℕ} (h : s.thr t = none) :
    Left work s t = 0 := by
  unfold Left
  rw [h]
  exact ite_self 0

theorem left_of_thr {work : S → ℕ} {s : Config A V S R E} {t : ℕ} {p : S} (hh : s.halt = none)
    (h : s.thr t = some p) : Left work s t = work p := by
  unfold Left
  rw [hh, h]
  rfl

namespace Machine

variable [DecidableEq A] [DecidableEq V] (M : Machine A V C S R E) (weak : S → Bool)

/-- The control point of the access with which a thread takes this step, and the reply. -/
def answered (s : Config A V S R E) : WeakLabel C → Option (S × Reply V)
  | .step (.call _ _) => none
  | .step (.move t) => (s.thr t).map fun p => (p, ((M.code p).1.exec s.mem).1)
  | .fail t => (s.thr t).map fun p => (p, ⟨false, s.mem (M.code p).1.addr⟩)

/-- How often an access of thread `t` misses in a run. -/
def missesOf (miss : S → Reply V → Bool) (t : ℕ) : List (WeakLabel C) → Config A V S R E → ℕ
  | [], _ => 0
  | l :: ls, s =>
    (if l.thread = t ∧ (M.answered s l).any (fun x => miss x.1 x.2) then 1 else 0) +
      match M.weakStep weak s l with
      | none => 0
      | some s' => missesOf miss t ls s'

variable {M weak} {s s' : Config A V S R E} {l : WeakLabel C} {t : ℕ}

theorem missesOf_cons {miss : S → Reply V → Bool} {ls : List (WeakLabel C)}
    (h : M.weakStep weak s l = some s') : M.missesOf weak miss t (l :: ls) s =
      (if l.thread = t ∧ (M.answered s l).any (fun x => miss x.1 x.2) then 1 else 0) +
        M.missesOf weak miss t ls s' := by
  rw [missesOf, h]

theorem left_call {work : S → ℕ} {cost : C → ℕ} (hcost : ∀ c, work (M.start c) ≤ cost c) {u : ℕ}
    {c : C} (h : M.step s (.call u c) = some s') (t : ℕ) :
    Left work s' t ≤ Left work s t + if u = t then cost c else 0 := by
  obtain ⟨hh, hu, rfl⟩ := step_call.mp h
  by_cases hut : u = t
  · subst hut
    have hleft : Left work { s with thr := Function.update s.thr u (some (M.start c)) } u =
        work (M.start c) := left_of_thr hh (Function.update_self ..)
    rw [hleft, if_pos rfl]
    exact Nat.le_trans (hcost c) (Nat.le_add_left _ _)
  · have hne : t ≠ u := fun he => hut he.symm
    rw [if_neg hut, Left, Left]
    simp only [Function.update_of_ne hne]
    exact Nat.le_refl _

variable {work : S → ℕ} {miss : S → Reply V → Bool} {k : ℕ} {P : S → Prop}

omit [DecidableEq A] [DecidableEq V] in
/-- An access uses up some of what its thread has left, or misses. -/
theorem left_follow (hpos : ∀ p, P p → 0 < work p)
    (hwork : ∀ p r p', P p → (M.code p).2 r = .goto p' →
      work p' + 1 ≤ work p + if miss p r then k else 0)
    {u : ℕ} {p : S} {m : A → V} {r : Reply V} (hh : s.halt = none) (hu : s.thr u = some p)
    (hp : P p) :
    Left work (Config.follow u { s with mem := m } ((M.code p).2 r)) u + 1 ≤
      Left work s u + if miss p r then k else 0 := by
  rw [left_of_thr hh hu]
  cases hf : (M.code p).2 r with
  | goto p' =>
    have hleft : Left work (Config.follow u { s with mem := m } (.goto p')) u = work p' :=
      left_of_thr hh (Function.update_self ..)
    rw [hleft]
    exact hwork p r p' hp hf
  | ret x =>
    have hleft : Left work (Config.follow u { s with mem := m } (.ret x)) u = 0 :=
      left_of_idle (Function.update_self ..)
    rw [hleft]
    exact Nat.le_trans (hpos p hp) (Nat.le_add_right _ _)
  | exit e =>
    have hleft : Left work (Config.follow u { s with mem := m } (.exit e)) u = 0 := rfl
    rw [hleft]
    exact Nat.le_trans (hpos p hp) (Nat.le_add_right _ _)

omit [DecidableEq A] [DecidableEq V] in
/-- An access leaves the other threads what they have left, or nothing. -/
theorem left_other {u : ℕ} {m : A → V} {f : Flow S R E} (h : t ≠ u) :
    Left work (Config.follow u { s with mem := m } f) t ≤ Left work s t := by
  cases f with
  | goto p' | ret x =>
    refine Nat.le_of_eq ?_
    simp only [Left, Config.follow, Function.update_of_ne h]
  | exit e => exact Nat.zero_le _

theorem left_step {cost : C → ℕ} (hcost : ∀ c, work (M.start c) ≤ cost c)
    (hpos : ∀ p, P p → 0 < work p)
    (hwork : ∀ p r p', P p → (M.code p).2 r = .goto p' →
      work p' + 1 ≤ work p + if miss p r then k else 0)
    (hP : ∀ u p, s.thr u = some p → P p) (h : M.weakStep weak s l = some s') (t : ℕ) :
    accessesOf t [l] + Left work s' t ≤ costOf cost t [l] + Left work s t +
      k * if l.thread = t ∧ (M.answered s l).any (fun x => miss x.1 x.2) then 1 else 0 := by
  -- thread `u` makes an access at `p` and is told `r`
  have haccess : ∀ u p r m', s.halt = none → s.thr u = some p →
      M.answered s l = some (p, r) → l.thread = u → l.Accesses →
      s' = Config.follow u { s with mem := m' } ((M.code p).2 r) →
      accessesOf t [l] + Left work s' t ≤ costOf cost t [l] + Left work s t +
        k * if l.thread = t ∧ (M.answered s l).any (fun x => miss x.1 x.2) then 1 else 0 := by
    rintro u p r m' hh hu hans rfl hacc rfl
    rw [hans, Option.any_some]
    by_cases hut : l.thread = t
    · subst hut
      have hone : accessesOf l.thread [l] = accessesOf l.thread [] + 1 :=
        accessesOf_cons.1 ⟨rfl, hacc⟩
      have hfall := left_follow (r := r) (m := m') hpos hwork hh hu (hP _ p hu)
      have hnil : accessesOf l.thread ([] : List (WeakLabel C)) = 0 := rfl
      rw [hone, hnil]
      by_cases hm : miss p r = true
      · simp only [hm, and_self, if_true] at hfall ⊢
        omega
      · simp only [hm, Bool.false_eq_true, and_false, if_false] at hfall ⊢
        omega
    · have hnone : accessesOf t [l] = accessesOf t [] := accessesOf_cons.2 fun hc => hut hc.1
      have hnil : accessesOf t ([] : List (WeakLabel C)) = 0 := rfl
      have hle : Left work (Config.follow l.thread { s with mem := m' } ((M.code p).2 r)) t ≤
          Left work s t := left_other fun he => hut he.symm
      rw [hnone, hnil]
      omega
  rcases l with (⟨u, c⟩ | u) | u
  · have hcall := left_call hcost h t
    have hnone : accessesOf t [WeakLabel.step (.call u c)] = 0 := rfl
    have hc : costOf cost t [WeakLabel.step (.call u c)] = (if u = t then cost c else 0) + 0 := rfl
    rw [hnone, hc]
    omega
  · obtain ⟨hh, p, hu, rfl⟩ := step_move.mp h
    exact haccess u p _ _ hh hu (by simp only [answered, hu, Option.map_some]) rfl trivial rfl
  · obtain ⟨hh, p, hu, -, rfl⟩ := weakStep_fail.mp h
    exact haccess u p _ s.mem hh hu (by simp only [answered, hu, Option.map_some]) rfl trivial rfl

/-- The accesses of a thread in a run, with what it has left, are paid for by its calls,
what it had left before, and its misses. -/
theorem accesses_le {cost : C → ℕ} (hstart : ∀ c, P (M.start c))
    (hnext : ∀ p r p', P p → (M.code p).2 r = .goto p' → P p')
    (hcost : ∀ c, work (M.start c) ≤ cost c) (hpos : ∀ p, P p → 0 < work p)
    (hwork : ∀ p r p', P p → (M.code p).2 r = .goto p' →
      work p' + 1 ≤ work p + if miss p r then k else 0) (t : ℕ) :
    ∀ {ls : List (WeakLabel C)} {s s' : Config A V S R E}, (∀ u p, s.thr u = some p → P p) →
      M.weakRun weak ls s = some s' →
      accessesOf t ls + Left work s' t ≤
        costOf cost t ls + Left work s t + k * M.missesOf weak miss t ls s
  | [], s, s', _, h => by
    cases h
    exact Nat.le_refl _
  | l :: ls, s, s', hP, h => by
    obtain ⟨s₁, h1, h2⟩ := weakRun_cons.mp h
    have hstep := left_step hcost hpos hwork hP h1 t
    have hrest := accesses_le hstart hnext hcost hpos hwork t (weak_thr_inv hstart hnext hP h1) h2
    have hacc : accessesOf t (l :: ls) = accessesOf t [l] + accessesOf t ls := by
      rw [← List.singleton_append]
      exact List.countP_append
    have hsum : costOf cost t (l :: ls) = costOf cost t [l] + costOf cost t ls := by
      rcases l with (⟨u, c⟩ | u) | u <;> simp [costOf]
    rw [missesOf_cons h1, hacc, hsum, Nat.mul_add]
    omega

/-- A thread none of whose calls can miss never misses. -/
theorem missesOf_eq_zero {Q : S → Prop}
    (hnext : ∀ p r p', Q p → (M.code p).2 r = .goto p' → Q p')
    (hmiss : ∀ p r, Q p → miss p r = false) :
    ∀ {ls : List (WeakLabel C)} {s : Config A V S R E},
      (∀ c, .step (.call t c) ∈ ls → Q (M.start c)) → (∀ p, s.thr t = some p → Q p) →
      M.missesOf weak miss t ls s = 0
  | [], _, _, _ => rfl
  | l :: ls, s, hcall, hQ => by
    have hnone : ¬ (l.thread = t ∧ (M.answered s l).any (fun x => miss x.1 x.2) = true) := by
      rintro ⟨rfl, hany⟩
      obtain ⟨x, hx, hm⟩ := (Option.any_eq_true _ _).mp hany
      have hthr : s.thr l.thread = some x.1 := by
        rcases l with (⟨u, c⟩ | u) | u
        · cases hx
        · obtain ⟨p, hp, rfl⟩ := Option.map_eq_some_iff.mp hx
          exact hp
        · obtain ⟨p, hp, rfl⟩ := Option.map_eq_some_iff.mp hx
          exact hp
      rw [hmiss x.1 x.2 (hQ _ hthr)] at hm
      cases hm
    rw [missesOf, if_neg hnone, Nat.zero_add]
    cases h : M.weakStep weak s l with
    | none => rfl
    | some s' =>
      exact missesOf_eq_zero hnext hmiss (fun c hc => hcall c (List.mem_cons_of_mem _ hc))
        (own_inv hnext (fun c hc => hcall c (hc ▸ List.mem_cons_self)) hQ h)

end Machine

end Interleave
