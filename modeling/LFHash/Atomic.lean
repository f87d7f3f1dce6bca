/-
# Atomic objects

A sequential object answers a call from its state and goes on to another one. Threads
that share it atomically call it, and each call takes effect at one moment between its
beginning and its return. The history of a run is the sequence of its calls and returns;
it is linearizable if the atomic object has it too.

Which moment that is may be settled only later: a lookup that returns false has missed
its key at some moment, and only its end tells that it counts. The watched object keeps
for every running call the answers it could have given without an effect since it
began, and lets it return any of them. It has the histories of the atomic object and
no others, and a run of threads follows it step by step.

Key definitions: `Object`, `Event`, `Runs`, `Machine.history`, `Atomic`, `Linearizable`,
`Watched`.
Key theorems: `Runs.backward`, `Watched.linearizable`, `Machine.runs_of_run`,
`Watched.looks`.
-/
import LFHash.Interleave
import Mathlib.Data.Set.Insert

namespace Interleave

/-- A sequential object: a call takes its state to another one, with an answer. -/
abbrev Object (C R σ : Type) := C → σ → σ × R

/-- What is seen of a run from outside. -/
inductive Event (C R : Type)
  | call (t : ℕ) (c : C)
  | ret (t : ℕ) (r : R)
  deriving DecidableEq

/-! ### Runs and their histories -/

/-- The runs of a system whose steps may show an event, with the events they show. -/
inductive Runs {S E : Type} (step : S → Option E → S → Prop) : S → List E → S → Prop
  | nil (s : S) : Runs step s [] s
  | cons {s s₁ s₂ : S} {e : Option E} {h : List E} :
      step s e s₁ → Runs step s₁ h s₂ → Runs step s (e.toList ++ h) s₂

namespace Runs

variable {S U E : Type} {step : S → Option E → S → Prop} {step' : U → Option E → U → Prop}

theorem single {s s' : S} {e : Option E} (h : step s e s') : Runs step s e.toList s' := by
  have hr := Runs.cons h (Runs.nil s')
  rwa [List.append_nil] at hr

theorem trans {s s₁ s₂ : S} {h h' : List E} (h1 : Runs step s h s₁) (h2 : Runs step s₁ h' s₂) :
    Runs step s (h ++ h') s₂ := by
  induction h1 with
  | nil s => exact h2
  | cons hs _ ih =>
    rw [List.append_assoc]
    exact Runs.cons hs (ih h2)

theorem silent {s s₁ s₂ : S} {h : List E} (h1 : Runs step s h s₁) (h2 : Runs step s₁ [] s₂) :
    Runs step s h s₂ := by
  have hr := h1.trans h2
  rwa [List.append_nil] at hr

/-- A backward simulation: whatever the other system ends in, it has come there from a
related state, with the same history. -/
theorem backward {B : S → U → Prop}
    (hstep : ∀ s e s' u', step s e s' → B s' u' → ∃ u, B s u ∧ Runs step' u e.toList u')
    {s s' : S} {h : List E} (hr : Runs step s h s') {u' : U} (hB : B s' u') :
    ∃ u, B s u ∧ Runs step' u h u' := by
  induction hr with
  | nil s => exact ⟨u', hB, Runs.nil u'⟩
  | cons hs _ ih =>
    obtain ⟨u₁, hB₁, h2⟩ := ih hB
    obtain ⟨u, hBu, h1⟩ := hstep _ _ _ _ hs hB₁
    exact ⟨u, hBu, h1.trans h2⟩

end Runs

/-- The result code returns with, if it returns. -/
def Flow.result? {S R E : Type} : Flow S R E → Option R
  | goto _ => none
  | ret r => some r
  | exit _ => none

namespace Machine

variable {A V C S R E : Type} [DecidableEq A] [DecidableEq V] (M : Machine A V C S R E)

/-- The event a step shows: the call that begins, or the return of the thread that moves. -/
def event (s : Config A V S R E) : Label C → Option (Event C R)
  | .call t c => some (.call t c)
  | .move t => (s.thr t).bind fun p => (M.flow s.mem p).result?.map (.ret t)

def history : List (Label C) → Config A V S R E → List (Event C R)
  | [], _ => []
  | l :: ls, s =>
    match M.step s l with
    | some s' => (M.event s l).toList ++ history ls s'
    | none => []

variable {M}

theorem history_cons {s s' : Config A V S R E} {l : Label C} {ls : List (Label C)}
    (h : M.step s l = some s') : M.history (l :: ls) s = (M.event s l).toList ++ M.history ls s' := by
  simp only [history, h]

theorem event_move {s : Config A V S R E} {t : ℕ} {p : S} (hp : s.thr t = some p) :
    M.event s (.move t) = (M.flow s.mem p).result?.map (.ret t) := by
  simp only [event, hp, Option.bind_some]

/-- A forward simulation: what each step of a run does and shows, seen through `view`,
the other system does and shows too. -/
theorem runs_of_run {U E' : Type} (F : Config A V S R E → U → Prop)
    (step : U → Option E' → U → Prop) (view : Event C R → Option E')
    {Q : Config A V S R E → Label C → Prop}
    (hstep : ∀ s l s' u, F s u → Q s l → M.step s l = some s' →
      ∃ u', F s' u' ∧ Runs step u ((M.event s l).bind view).toList u') :
    ∀ {ls : List (Label C)} {s s' : Config A V S R E} {u : U}, F s u → M.Along Q ls s →
      M.run ls s = some s' → ∃ u', F s' u' ∧ Runs step u ((M.history ls s).filterMap view) u'
  | [], s, s', u, hF, _, hr => by
    cases hr
    exact ⟨u, hF, Runs.nil u⟩
  | l :: ls, s, s', u, hF, hQ, hr => by
    obtain ⟨s₁, h1, h2⟩ := run_cons.mp hr
    obtain ⟨u₁, hF₁, hu₁⟩ := hstep s l s₁ u hF (hQ s₁ h1).1 h1
    obtain ⟨u₂, hF₂, hu₂⟩ := runs_of_run F step view hstep hF₁ (hQ s₁ h1).2 h2
    refine ⟨u₂, hF₂, ?_⟩
    have hview : (M.history (l :: ls) s).filterMap view =
        ((M.event s l).bind view).toList ++ (M.history ls s₁).filterMap view := by
      rw [history_cons h1, List.filterMap_append]
      congr 1
      cases M.event s l with
      | none => rfl
      | some e => cases hv : view e <;> simp [hv]
    rw [hview]
    exact hu₁.trans hu₂

end Machine

/-! ### The atomic object -/

variable {C R σ : Type}

/-- Where a thread stands with an atomic object: idle, inside a call that has not taken
effect, or with an answer it has yet to return. -/
inductive Phase (C R : Type)
  | idle
  | running (c : C)
  | done (r : R)

/-- The value of a shared object, and where each thread stands with it. -/
structure Shared (P σ : Type) where
  val : σ
  thr : ℕ → P

inductive Atomic (O : Object C R σ) :
    Shared (Phase C R) σ → Option (Event C R) → Shared (Phase C R) σ → Prop
  | call {s : Shared (Phase C R) σ} {t : ℕ} {c : C} : s.thr t = .idle →
      Atomic O s (some (.call t c)) ⟨s.val, Function.update s.thr t (.running c)⟩
  | effect {s : Shared (Phase C R) σ} {t : ℕ} {c : C} : s.thr t = .running c →
      Atomic O s none ⟨(O c s.val).1, Function.update s.thr t (.done (O c s.val).2)⟩
  | ret {s : Shared (Phase C R) σ} {t : ℕ} {r : R} : s.thr t = .done r →
      Atomic O s (some (.ret t r)) ⟨s.val, Function.update s.thr t .idle⟩

/-- The atomic object, with the value `v` at the start, has the history. -/
def Linearizable (O : Object C R σ) (v : σ) (h : List (Event C R)) : Prop :=
  ∃ s, Runs (Atomic O) ⟨v, fun _ => .idle⟩ h s

/-! ### The watched object -/

/-- Where a thread stands with a watched object: a running call has seen answers it can
return without an effect. -/
inductive Watch (C R : Type)
  | idle
  | running (c : C) (seen : Set R)
  | done (r : R)

/-- A running call sees the answer the object gives it now, if the call leaves it as it is. -/
def Watch.look (O : Object C R σ) (v : σ) : Watch C R → Watch C R
  | idle => idle
  | running c seen => running c (seen ∪ {r | O c v = (v, r)})
  | done r => done r

inductive Watched (O : Object C R σ) :
    Shared (Watch C R) σ → Option (Event C R) → Shared (Watch C R) σ → Prop
  | call {s : Shared (Watch C R) σ} {t : ℕ} {c : C} : s.thr t = .idle →
      Watched O s (some (.call t c)) ⟨s.val, Function.update s.thr t (.running c ∅)⟩
  | look {s : Shared (Watch C R) σ} (t : ℕ) :
      Watched O s none ⟨s.val, Function.update s.thr t ((s.thr t).look O s.val)⟩
  | effect {s : Shared (Watch C R) σ} {t : ℕ} {c : C} {seen : Set R} :
      s.thr t = .running c seen →
      Watched O s none ⟨(O c s.val).1, Function.update s.thr t (.done (O c s.val).2)⟩
  | seen {s : Shared (Watch C R) σ} {t : ℕ} {c : C} {seen : Set R} {r : R} :
      s.thr t = .running c seen → r ∈ seen →
      Watched O s (some (.ret t r)) ⟨s.val, Function.update s.thr t .idle⟩
  | ret {s : Shared (Watch C R) σ} {t : ℕ} {r : R} : s.thr t = .done r →
      Watched O s (some (.ret t r)) ⟨s.val, Function.update s.thr t .idle⟩

/-- Where an atomic thread may stand: a call that has seen an answer may have taken effect
with it. -/
def Watch.Admits : Watch C R → Phase C R → Prop
  | idle, p => p = .idle
  | running c seen, p => p = .running c ∨ ∃ r ∈ seen, p = .done r
  | done r, p => p = .done r

namespace Watched

variable {O : Object C R σ}

/-- The watched and the atomic object agree. -/
def Agrees (s : Shared (Watch C R) σ) (u : Shared (Phase C R) σ) : Prop :=
  u.val = s.val ∧ ∀ t, (s.thr t).Admits (u.thr t)

/-- The atomic object before a step of thread `t`, which has left it at `p`. -/
theorem Agrees.before {s s' : Shared (Watch C R) σ} {u' : Shared (Phase C R) σ} {t : ℕ}
    {w : Watch C R} {p : Phase C R} (h : Agrees s' u')
    (hs : s'.thr = Function.update s.thr t w) (hp : (s.thr t).Admits p) :
    Agrees s ⟨s.val, Function.update u'.thr t p⟩ := by
  refine ⟨rfl, fun v => ?_⟩
  show (s.thr v).Admits (Function.update u'.thr t p v)
  by_cases hv : v = t
  · subst hv
    rwa [Function.update_self]
  · have ha := h.2 v
    rw [hs, Function.update_of_ne hv] at ha
    rwa [Function.update_of_ne hv]

theorem Agrees.thread {s s' : Shared (Watch C R) σ} {u' : Shared (Phase C R) σ} {t : ℕ}
    {w : Watch C R} (h : Agrees s' u') (hs : s'.thr = Function.update s.thr t w) :
    w.Admits (u'.thr t) := by
  have ha := h.2 t
  rwa [hs, Function.update_self] at ha

theorem put_back {u : Shared (Phase C R) σ} {t : ℕ} {v : σ} {p q : Phase C R} (hv : u.val = v)
    (hq : u.thr t = q) : (⟨v, Function.update (Function.update u.thr t p) t q⟩ :
      Shared (Phase C R) σ) = u := by
  rw [Function.update_idem, ← hq, Function.update_eq_self, ← hv]

/-- A step of the watched object, backwards. -/
theorem step_back {s s' : Shared (Watch C R) σ} {e : Option (Event C R)}
    {u' : Shared (Phase C R) σ} (hs : Watched O s e s') (h : Agrees s' u') :
    ∃ u, Agrees s u ∧ Runs (Atomic O) u e.toList u' := by
  cases hs with
  | @call t c ht =>
    have hu : u'.thr t = .running c := by
      rcases h.thread rfl with hr | ⟨r, hr, -⟩
      · exact hr
      · exact absurd hr (Set.notMem_empty r)
    refine ⟨_, h.before (p := .idle) rfl (by rw [ht]; rfl), ?_⟩
    have hstep := Atomic.call (O := O) (s := ⟨s.val, Function.update u'.thr t .idle⟩) (c := c)
      (Function.update_self t Phase.idle u'.thr)
    rw [put_back h.1 hu] at hstep
    exact Runs.single hstep
  | look t =>
    -- only an answer that has just been seen needs an effect of the atomic object
    have hsame : (s.thr t).Admits (u'.thr t) →
        ∃ u, Agrees s u ∧ Runs (Atomic O) u [] u' := by
      intro ha
      refine ⟨u', ⟨h.1, fun v => ?_⟩, Runs.nil u'⟩
      by_cases hv : v = t
      · exact hv ▸ ha
      · have hav := h.2 v
        dsimp only at hav
        rwa [Function.update_of_ne hv] at hav
    have ha := h.thread rfl
    cases ht : s.thr t with
    | idle | done r =>
      apply hsame
      rw [ht] at ha ⊢
      exact ha
    | running c seen =>
      rw [ht] at ha
      rcases ha with hr | ⟨r, hr | hO, hu⟩
      · exact hsame (by rw [ht]; exact Or.inl hr)
      · exact hsame (by rw [ht]; exact Or.inr ⟨r, hr, hu⟩)
      · refine ⟨_, h.before (p := .running c) rfl (by rw [ht]; exact Or.inl rfl), ?_⟩
        have hstep := Atomic.effect (O := O) (c := c)
          (s := ⟨s.val, Function.update u'.thr t (.running c)⟩)
          (Function.update_self t (Phase.running c) u'.thr)
        dsimp only at hstep
        change O c s.val = (s.val, r) at hO
        rw [hO, put_back h.1 hu] at hstep
        exact Runs.single hstep
  | @effect t c seen ht =>
    refine ⟨_, h.before (p := .running c) rfl (by rw [ht]; exact Or.inl rfl), ?_⟩
    have hstep := Atomic.effect (O := O) (s := ⟨s.val, Function.update u'.thr t (.running c)⟩)
      (c := c) (Function.update_self t (Phase.running c) u'.thr)
    dsimp only at hstep
    rw [put_back h.1 (h.thread rfl)] at hstep
    exact Runs.single hstep
  | @seen t c seen r ht hr =>
    refine ⟨_, h.before (p := .done r) rfl (by rw [ht]; exact Or.inr ⟨r, hr, rfl⟩), ?_⟩
    have hstep := Atomic.ret (O := O) (s := ⟨s.val, Function.update u'.thr t (.done r)⟩)
      (Function.update_self t (Phase.done r) u'.thr)
    rw [put_back h.1 (h.thread rfl)] at hstep
    exact Runs.single hstep
  | @ret t r ht =>
    refine ⟨_, h.before (p := .done r) rfl (by rw [ht]; rfl), ?_⟩
    have hstep := Atomic.ret (O := O) (s := ⟨s.val, Function.update u'.thr t (.done r)⟩)
      (Function.update_self t (Phase.done r) u'.thr)
    rw [put_back h.1 (h.thread rfl)] at hstep
    exact Runs.single hstep

def phase : Watch C R → Phase C R
  | .idle => .idle
  | .running c _ => .running c
  | .done r => .done r

theorem admits_phase (w : Watch C R) : w.Admits (phase w) := by
  cases w with
  | idle | done r => rfl
  | running c seen => exact Or.inl rfl

theorem linearizable {v : σ} {h : List (Event C R)} {s : Shared (Watch C R) σ}
    (hr : Runs (Watched O) ⟨v, fun _ => .idle⟩ h s) : Linearizable O v h := by
  have hend : Agrees s ⟨s.val, fun t => phase (s.thr t)⟩ := ⟨rfl, fun t => admits_phase (s.thr t)⟩
  obtain ⟨u, ⟨hv, ht⟩, hu⟩ := hr.backward (fun _ _ _ _ hs hB => step_back hs hB) hend
  have hidle : u = ⟨v, fun _ => .idle⟩ := by
    obtain ⟨uv, ut⟩ := u
    obtain rfl : uv = v := hv
    congr 1
    funext t
    exact ht t
  exact ⟨_, hidle ▸ hu⟩

/-- All running calls look at the object, when all threads from `n` on are idle. -/
theorem looks {s : Shared (Watch C R) σ} {n : ℕ} (hn : ∀ t, n ≤ t → s.thr t = .idle) :
    Runs (Watched O) s [] ⟨s.val, fun t => (s.thr t).look O s.val⟩ := by
  have hup : ∀ k, Runs (Watched O) s []
      ⟨s.val, fun t => if t < k then (s.thr t).look O s.val else s.thr t⟩ := by
    intro k
    induction k with
    | zero => exact Runs.nil s
    | succ k ih =>
      refine ih.silent ?_
      have hstep := Watched.look (O := O)
        (s := ⟨s.val, fun t => if t < k then (s.thr t).look O s.val else s.thr t⟩) k
      have hthr : Function.update (fun t => if t < k then (s.thr t).look O s.val else s.thr t) k
          ((if k < k then (s.thr k).look O s.val else s.thr k).look O s.val) =
          fun t => if t < k + 1 then (s.thr t).look O s.val else s.thr t := by
        funext t
        by_cases ht : t = k
        · subst ht
          simp
        · have hlt : t < k ↔ t < k + 1 := by omega
          simp only [Function.update_of_ne ht, hlt]
      dsimp only at hstep
      rw [hthr] at hstep
      exact Runs.single hstep
  have hall : (fun t => if t < n then (s.thr t).look O s.val else s.thr t) =
      fun t => (s.thr t).look O s.val := by
    funext t
    by_cases ht : t < n
    · rw [if_pos ht]
    · rw [if_neg ht, hn t (not_lt.mp ht)]
      rfl
  rw [← hall]
  exact hup n

end Watched

end Interleave
