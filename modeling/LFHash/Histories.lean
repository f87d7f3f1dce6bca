/-
# Reading a history

What the history of a run shows is what its schedule calls and what its log records. What the
steps of an atomic object keep along a history tells what its answers are.

Key definitions: `Event.called`, `called`.
Key theorems: `Runs.inv`, `Runs.split`, `Atomic.running`, `Atomic.done`, `Atomic.val`,
`Machine.called_history`, `Machine.history_split`, `Machine.mem_log`.
-/
import LFHash.Atomic
import LFHash.Turns

namespace Interleave

variable {A V C S R E : Type}

/-- The call that an event is. -/
def Event.called : Event C R → Option C
  | .call _ c => some c
  | .ret _ _ => none

/-- The calls that a history shows, in order. -/
def called (h : List (Event C R)) : List C := h.filterMap Event.called

theorem mem_called {h : List (Event C R)} {c : C} : c ∈ called h ↔ ∃ t, .call t c ∈ h := by
  rw [called, List.mem_filterMap]
  constructor
  · rintro ⟨e, he, hc⟩
    cases e with
    | call t c' =>
      obtain rfl : c' = c := Option.some.inj hc
      exact ⟨t, he⟩
    | ret t r => cases hc
  · exact fun ⟨t, he⟩ => ⟨_, he, rfl⟩

theorem called_append (h h' : List (Event C R)) : called (h ++ h') = called h ++ called h' :=
  List.filterMap_append

namespace Runs

variable {step : S → Option E → S → Prop} {s s' : S} {h h' : List E} {x : E}

/-- What every step keeps of a state and of what the run has still to show, and what then goes
for the events it shows. -/
theorem inv {I : S → List E → Prop} {G : E → Prop}
    (hstep : ∀ s e s' h, I s (e.toList ++ h) → step s e s' → I s' h ∧ ∀ x ∈ e, G x)
    (hr : Runs step s h s') (hI : I s h) : I s' [] ∧ ∀ x ∈ h, G x := by
  induction hr with
  | nil s => exact ⟨hI, fun x hx => absurd hx List.not_mem_nil⟩
  | @cons s s₁ s₂ e h hs _ ih =>
    obtain ⟨hI₁, he⟩ := hstep s e s₁ h hI hs
    obtain ⟨hend, hh⟩ := ih hI₁
    refine ⟨hend, fun x hx => (List.mem_append.mp hx).elim (fun hx => he x ?_) (hh x)⟩
    exact Option.mem_toList.mp hx

theorem split (hr : Runs step s (h ++ x :: h') s') :
    ∃ s₁ s₂, Runs step s h s₁ ∧ step s₁ (some x) s₂ ∧ Runs step s₂ h' s' := by
  generalize hl : h ++ x :: h' = l at hr
  induction hr generalizing h with
  | nil s => simp at hl
  | @cons s s₁ s₂ e l hs hr ih =>
    cases e with
    | none =>
      obtain ⟨s₃, s₄, h1, h2, h3⟩ := ih hl
      exact ⟨s₃, s₄, cons hs h1, h2, h3⟩
    | some y =>
      cases h with
      | nil =>
        obtain ⟨rfl, rfl⟩ := List.cons.inj hl
        exact ⟨s, s₁, nil s, hs, hr⟩
      | cons z h =>
        obtain ⟨rfl, hrest⟩ := List.cons.inj hl
        obtain ⟨s₃, s₄, h1, h2, h3⟩ := ih hrest
        exact ⟨s₃, s₄, cons hs h1, h2, h3⟩

end Runs

/-! ### A step of an atomic object -/

namespace Atomic

variable {σ : Type} {O : Object C R σ} {s s' : Shared (Phase C R) σ} {e : Option (Event C R)}
  {t : ℕ} {c : C} {r : R}

/-- What a thread runs, it has run before or calls now. -/
theorem running (h : Atomic O s e s') (hc : s'.thr t = .running c) :
    s.thr t = .running c ∨ e = some (.call t c) := by
  cases h with
  | @call u c' hu =>
    by_cases htu : t = u
    · subst htu
      dsimp only at hc
      rw [Function.update_self] at hc
      cases hc
      exact Or.inr rfl
    · exact Or.inl ((Function.update_of_ne htu ..).symm.trans hc)
  | @effect u c' hu | @ret u r' hu =>
    by_cases htu : t = u
    · subst htu
      cases (Function.update_self ..).symm.trans hc
    · exact Or.inl ((Function.update_of_ne htu ..).symm.trans hc)

/-- An answer has been there before, or a running call takes effect with it. -/
theorem done (h : Atomic O s e s') (hr : s'.thr t = .done r) :
    s.thr t = .done r ∨ ∃ c, s.thr t = .running c ∧ O c s.val = (s'.val, r) := by
  cases h with
  | @call u c' hu | @ret u r' hu =>
    by_cases htu : t = u
    · subst htu
      cases (Function.update_self ..).symm.trans hr
    · exact Or.inl ((Function.update_of_ne htu ..).symm.trans hr)
  | @effect u c hu =>
    by_cases htu : t = u
    · subst htu
      dsimp only at hr
      rw [Function.update_self] at hr
      cases hr
      exact Or.inr ⟨c, hu, rfl⟩
    · exact Or.inl ((Function.update_of_ne htu ..).symm.trans hr)

/-- The value changes only by the effect of a running call, which no longer runs. -/
theorem val (h : Atomic O s e s') : s'.val = s.val ∨
    ∃ t c, s.thr t = .running c ∧ s'.val = (O c s.val).1 ∧ ∀ c', s'.thr t ≠ .running c' := by
  cases h with
  | call _ | ret _ => exact Or.inl rfl
  | @effect t c ht =>
    refine Or.inr ⟨t, c, ht, rfl, fun c' hc => ?_⟩
    cases (Function.update_self ..).symm.trans hc

theorem ret_inv (h : Atomic O s (some (.ret t r)) s') : s.thr t = .done r ∧ s'.val = s.val := by
  cases h with
  | ret ht => exact ⟨ht, rfl⟩

end Atomic

namespace Machine

variable [DecidableEq A] [DecidableEq V] {M : Machine A V C S R E}
  {s s' s₁ : Config A V S R E} {l : Label C} {ls : List (Label C)} {t : ℕ} {r : R}

theorem history_append {ls' : List (Label C)} : ∀ {ls : List (Label C)} {s : Config A V S R E},
    M.run ls s = some s₁ → M.history (ls ++ ls') s = M.history ls s ++ M.history ls' s₁
  | [], s, hr => by
    cases hr
    rfl
  | l :: ls, s, hr => by
    obtain ⟨s₂, h1, h2⟩ := run_cons.mp hr
    rw [List.cons_append, history_cons h1, history_cons h1, history_append h2, List.append_assoc]

theorem called_event (hs : M.step s l = some s') :
    called (M.event s l).toList = begun [l] := by
  cases l with
  | call t c => rfl
  | move t =>
    obtain ⟨-, p, hp, -⟩ := step_move.mp hs
    rw [event_move hp]
    cases M.flow s.mem p <;> rfl

/-- The calls of a history are those of the schedule. -/
theorem called_history : ∀ {ls : List (Label C)} {s : Config A V S R E},
    M.run ls s = some s' → called (M.history ls s) = begun ls
  | [], _, _ => rfl
  | l :: ls, s, hr => by
    obtain ⟨s₁, h1, h2⟩ := run_cons.mp hr
    rw [history_cons h1, called_append, called_event h1, called_history h2, ← begun_append]
    rfl

/-- Where a call returns in the first of two schedules, the part of the history that `g` picks
comes apart: before the return are calls of the first schedule, after it some of the first and
then some of the second. -/
theorem history_split {ls' : List (Label C)} {g : Event C R → Bool} (hr : M.run ls s = some s₁)
    (hr' : M.run ls' s₁ = some s') (hret : .ret t r ∈ M.history ls s) (hg : g (.ret t r) = true) :
    ∃ h₁ h₂, (M.history (ls ++ ls') s).filter g = h₁ ++ .ret t r :: h₂ ∧
      called h₁ ⊆ begun ls ∧
      ∃ cs cs', called h₂ = cs ++ cs' ∧ cs ⊆ begun ls ∧ List.Sublist cs' (begun ls') := by
  obtain ⟨h₁, h₂, hh⟩ := List.append_of_mem (List.mem_filter.mpr ⟨hret, hg⟩)
  have hfront : called (h₁ ++ .ret t r :: h₂) ⊆ begun ls := by
    rw [← hh, ← called_history hr]
    exact (List.filter_sublist.filterMap _).subset
  rw [called_append] at hfront
  refine ⟨h₁, h₂ ++ (M.history ls' s₁).filter g, ?_, ?_, _, _, called_append _ _, ?_, ?_⟩
  · rw [history_append hr, List.filter_append, hh, List.append_assoc, List.cons_append]
  · exact fun c hc => hfront (List.mem_append_left _ hc)
  · exact fun c hc => hfront (List.mem_append_right _ hc)
  · rw [← called_history hr']
    exact List.filter_sublist.filterMap _

theorem mem_log_step (hs : M.step s l = some s') :
    (t, r) ∈ s'.log ↔ (t, r) ∈ s.log ∨ M.event s l = some (.ret t r) := by
  cases l with
  | call u c =>
    obtain ⟨-, -, rfl⟩ := step_call.mp hs
    simp [event]
  | move u =>
    obtain ⟨-, p, hp, rfl⟩ := step_move.mp hs
    rw [event_move hp]
    cases hf : M.flow s.mem p with
    | goto p' => simp [advance_goto hf, Flow.result?]
    | exit e => simp [advance_exit hf, Flow.result?]
    | ret r' =>
      rw [advance_ret hf, List.mem_cons, or_comm]
      simp [Flow.result?, eq_comm]

/-- The log records what the history returns. -/
theorem mem_log : ∀ {ls : List (Label C)} {s : Config A V S R E}, M.run ls s = some s' →
    ((t, r) ∈ s'.log ↔ (t, r) ∈ s.log ∨ .ret t r ∈ M.history ls s)
  | [], s, hr => by
    cases hr
    simp [history]
  | l :: ls, s, hr => by
    obtain ⟨s₁, h1, h2⟩ := run_cons.mp hr
    rw [mem_log h2, mem_log_step h1, history_cons h1, List.mem_append, Option.mem_toList,
      or_assoc]

end Machine

end Interleave
