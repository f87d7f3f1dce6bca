/-
# What a thread has been told

The accesses of a thread's current call with their replies, in order. What such a list says
of the control point that its replies lead to, it says of the thread in every run
(`Machine.told_inv`); and each of its replies was given at a moment of the call
(`Machine.told_moment`), where the memory bears it out.

Key definitions: `Machine.hears`, `Machine.told`, `Machine.Moment`.
Key theorems: `Machine.told_inv`, `Machine.told_moment`, `Moment.val`, `Moment.refused`.
-/
import LFHash.Charge

namespace Interleave

variable {A V C S R E : Type} [DecidableEq A] [DecidableEq V]

namespace Machine

variable (M : Machine A V C S R E) (weak : S → Bool)

/-- What thread `t` has been told after this step, `h` before: nothing, if it has begun a
call. -/
def hears (t : ℕ) (s : Config A V S R E) (l : WeakLabel C) (h : List (S × Reply V)) :
    List (S × Reply V) :=
  if l.thread = t then (M.answered s l).elim [] fun x => h ++ [x] else h

/-- What thread `t` has been told in its current call after the schedule, `h` before. -/
def told (t : ℕ) : List (WeakLabel C) → Config A V S R E → List (S × Reply V) → List (S × Reply V)
  | [], _, h => h
  | l :: ls, s, h => (M.weakStep weak s l).elim h fun s' => told t ls s' (M.hears t s l h)

/-- At this moment of the run, in configuration `s₁`, thread `t` is told `x`; it begins no call
after that. -/
structure Moment (ls : List (WeakLabel C)) (s : Config A V S R E) (t : ℕ) (x : S × Reply V)
    (s₁ : Config A V S R E) (l₁ : WeakLabel C) : Prop where
  thread : l₁.thread = t
  answered : M.answered s₁ l₁ = some x
  since : ∃ ls₁ ls₂, ls = ls₁ ++ l₁ :: ls₂ ∧ M.weakRun weak ls₁ s = some s₁ ∧
    ∀ c, .step (.call t c) ∉ ls₂

variable {M weak} {t : ℕ} {s s' : Config A V S R E} {l : WeakLabel C} {ls : List (WeakLabel C)}
  {h : List (S × Reply V)} {p : S} {x : S × Reply V}

/-- A run that has not exited has not exited on its way. -/
theorem halt_of_weakRun (hr : M.weakRun weak ls s = some s') (hh : s'.halt = none) :
    s.halt = none := by
  cases ls with
  | nil =>
    cases hr
    exact hh
  | cons l ls =>
    obtain ⟨s₁, h1, -⟩ := weakRun_cons.mp hr
    exact halt_of_weakStep h1

theorem told_cons (hs : M.weakStep weak s l = some s') :
    M.told weak t (l :: ls) s h = M.told weak t ls s' (M.hears t s l h) := by
  rw [told, hs]
  rfl

theorem hears_other (hl : l.thread ≠ t) : M.hears t s l h = h := if_neg hl

theorem hears_call {c : C} : M.hears t s (.step (.call t c)) h = [] := if_pos rfl

theorem hears_access (hl : l.thread = t) (hx : M.answered s l = some x) :
    M.hears t s l h = h ++ [x] := by
  rw [hears, if_pos hl, hx]
  rfl

/-- An access is answered, and the answer is what its thread goes on with. -/
theorem answered_step (hs : M.weakStep weak s l = some s') (hacc : l.Accesses) :
    ∃ p r m', s.thr l.thread = some p ∧ M.answered s l = some (p, r) ∧
      s' = Config.follow l.thread { s with mem := m' } ((M.code p).2 r) := by
  rcases l with (⟨u, c⟩ | u) | u
  · exact hacc.elim
  · obtain ⟨-, p, hp, rfl⟩ := step_move.mp hs
    exact ⟨p, _, _, hp, by rw [answered, hp, Option.map_some], rfl⟩
  · obtain ⟨-, p, hp, -, rfl⟩ := weakStep_fail.mp hs
    exact ⟨p, _, s.mem, hp, by rw [answered, hp, Option.map_some], rfl⟩

/-- What is said of nothing told and the start of every call, and kept by every reply that
leads on, is said of what a thread has been told and of where it stands. -/
theorem told_step {P : List (S × Reply V) → S → Prop} (hstart : ∀ c, P [] (M.start c))
    (hnext : ∀ h p r p', P h p → (M.code p).2 r = .goto p' → P (h ++ [(p, r)]) p')
    (hP : ∀ p, s.thr t = some p → P h p) (hs : M.weakStep weak s l = some s')
    (hh : s'.halt = none) : ∀ p, s'.thr t = some p → P (M.hears t s l h) p := by
  intro p hp
  by_cases hl : l.thread = t
  · subst hl
    by_cases hacc : l.Accesses
    · obtain ⟨q, r, m', hq, hx, rfl⟩ := answered_step hs hacc
      rw [hears_access rfl hx]
      have hflow := Config.follow_thr hh
      rw [hflow, Function.update_self] at hp
      cases hf : (M.code q).2 r with
      | goto p' =>
        rw [hf] at hp
        obtain rfl : p' = p := Option.some.inj hp
        exact hnext h q r p' (hP q hq) hf
      | ret y | exit e =>
        rw [hf] at hp
        cases hp
    · rcases l with (⟨u, c⟩ | u) | u
      · obtain ⟨-, -, rfl⟩ := step_call.mp hs
        have hc : Function.update s.thr u (some (M.start c)) u = some p := hp
        rw [Function.update_self] at hc
        rw [WeakLabel.thread, Label.thread, hears_call, ← Option.some.inj hc]
        exact hstart c
      · exact absurd trivial hacc
      · exact absurd trivial hacc
  · rw [hears_other hl]
    rw [weakStep_thr_of_ne hs fun he => hl he.symm] at hp
    exact hP p hp

theorem told_inv {P : List (S × Reply V) → S → Prop} (hstart : ∀ c, P [] (M.start c))
    (hnext : ∀ h p r p', P h p → (M.code p).2 r = .goto p' → P (h ++ [(p, r)]) p') :
    ∀ {ls : List (WeakLabel C)} {s s' : Config A V S R E} {h : List (S × Reply V)},
      (∀ p, s.thr t = some p → P h p) → M.weakRun weak ls s = some s' → s'.halt = none →
      ∀ p, s'.thr t = some p → P (M.told weak t ls s h) p
  | [], s, s', h, hP, hr, _ => by
    cases hr
    exact hP
  | l :: ls, s, s', h, hP, hr, hh => by
    obtain ⟨s₁, h1, h2⟩ := weakRun_cons.mp hr
    rw [told_cons h1]
    exact told_inv hstart hnext (told_step hstart hnext hP h1 (halt_of_weakRun h2 hh)) h2 hh

omit [DecidableEq A] [DecidableEq V] in
theorem no_call_cons (hl : ∀ c, l ≠ .step (.call t c)) (hls : ∀ c, .step (.call t c) ∉ ls) (c : C) :
    .step (.call t c) ∉ l :: ls :=
  fun h => (List.mem_cons.mp h).elim (fun he => hl c he.symm) (hls c)

/-- What a thread has been told it was told at a moment of its call. -/
theorem told_moment : ∀ {ls : List (WeakLabel C)} {s s' : Config A V S R E}
    {h : List (S × Reply V)}, M.weakRun weak ls s = some s' → ∀ x ∈ M.told weak t ls s h,
      (x ∈ h ∧ ∀ c, .step (.call t c) ∉ ls) ∨ ∃ s₁ l₁, M.Moment weak ls s t x s₁ l₁
  | [], s, s', h, _, x, hx => Or.inl ⟨hx, fun _ => List.not_mem_nil⟩
  | l :: ls, s, s', h, hr, x, hx => by
    obtain ⟨s₁, h1, h2⟩ := weakRun_cons.mp hr
    rw [told_cons h1] at hx
    rcases told_moment h2 x hx with ⟨hmem, hno⟩ | ⟨s₂, l₂, hthr, hans, ls₁, ls₂, rfl, hr₁, hsince⟩
    · by_cases hl : l.thread = t
      · subst hl
        by_cases hacc : l.Accesses
        · obtain ⟨p, r, m', -, hans, -⟩ := answered_step h1 hacc
          rw [hears_access rfl hans] at hmem
          rcases List.mem_append.mp hmem with hold | hnew
          · exact Or.inl ⟨hold, no_call_cons (fun c he => by rw [he] at hacc; exact hacc) hno⟩
          · obtain rfl := List.mem_singleton.mp hnew
            exact Or.inr ⟨s, l, rfl, hans, [], ls, rfl, rfl, hno⟩
        · rcases l with (⟨u, c⟩ | u) | u
          · rw [WeakLabel.thread, Label.thread, hears_call] at hmem
            exact absurd hmem List.not_mem_nil
          · exact absurd trivial hacc
          · exact absurd trivial hacc
      · rw [hears_other hl] at hmem
        exact Or.inl ⟨hmem, no_call_cons (fun c he => hl (by rw [he]; rfl)) hno⟩
    · exact Or.inr ⟨s₂, l₂, hthr, hans, l :: ls₁, ls₂, rfl, weakRun_cons.mpr ⟨s₁, h1, hr₁⟩, hsince⟩

variable {s₁ : Config A V S R E} {l₁ : WeakLabel C}

/-- The word that a thread is told is the one in memory. -/
theorem Moment.val (hm : M.Moment weak ls s t x s₁ l₁) : x.2.val = s₁.mem (M.code x.1).1.addr := by
  have hans := hm.answered
  rcases l₁ with (⟨u, c⟩ | u) | u
  · cases hans
  · obtain ⟨p, -, rfl⟩ := Option.map_eq_some_iff.mp hans
    have hdone : Attempt (M.code p).1 s₁.mem _ ((M.code p).1.exec s₁.mem).2 := Or.inl rfl
    exact hdone.told.1
  · obtain ⟨p, -, rfl⟩ := Option.map_eq_some_iff.mp hans
    rfl

/-- A compare-exchange that a thread is told has failed has found another word, or has failed
for no reason. -/
theorem Moment.refused (hm : M.Moment weak ls s t x s₁ l₁) {a : A} {e d : V}
    (hc : (M.code x.1).1 = .cas a e d) (hok : x.2.ok = false) : l₁ = .fail t ∨ s₁.mem a ≠ e := by
  have hans := hm.answered
  have hthr := hm.thread
  rcases l₁ with (⟨u, c⟩ | u) | u
  · cases hans
  · obtain ⟨p, -, rfl⟩ := Option.map_eq_some_iff.mp hans
    refine Or.inr fun he => ?_
    rw [hc, Access.exec_cas_of_eq _ _ he] at hok
    cases hok
  · exact Or.inl (congrArg _ hthr)

end Machine

end Interleave
