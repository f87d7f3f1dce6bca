/-
# Threads that share no address

Let the threads be split in two groups, so that one group's accesses stay in a part `D` of
the memory and the other group's stay out of it. Then a run, cut down to the steps of the
first group, is a run of that group alone: every access gets the same reply, every call
the same result, and the words of `D` are the same. What is proved about a group that runs
alone holds of it beside the other.

Key definitions: `Agree`.
Key theorems: `Access.exec_local`, `Agree.own`, `Agree.other`, `Agree.run`.
-/
import LFHash.Weak

namespace Interleave

variable {A V C S R E : Type}

/-- An access sees, and leaves, the same word where two memories have the same. -/
theorem Access.exec_local [DecidableEq A] [DecidableEq V] (acc : Access A V) {m m₁ : A → V}
    (h : m₁ acc.addr = m acc.addr) :
    (acc.exec m₁).1 = (acc.exec m).1 ∧ (acc.exec m₁).2 acc.addr = (acc.exec m).2 acc.addr := by
  cases acc with
  | load a => exact ⟨congrArg (Reply.mk true) h, h⟩
  | cas a e d =>
    have ha : m₁ a = m a := h
    by_cases he : m a = e
    · rw [exec_cas_of_eq m d he, exec_cas_of_eq m₁ d (ha.trans he), ha]
      refine ⟨rfl, ?_⟩
      show Function.update m₁ a d a = Function.update m a d a
      rw [Function.update_self, Function.update_self]
    · have he' : m₁ a ≠ e := fun hc => he (ha.symm.trans hc)
      rw [exec_cas_of_ne m d he, exec_cas_of_ne m₁ d he', ha]
      exact ⟨rfl, ha⟩
  | fetch a f =>
    have ha : m₁ a = m a := h
    rw [exec_fetch, exec_fetch, ha]
    refine ⟨rfl, ?_⟩
    show Function.update m₁ a (f (m a)) a = Function.update m a (f (m a)) a
    rw [Function.update_self, Function.update_self]

/-- `s₁` is what `s` is to the threads of `mine`, whose part of the memory is `D`. -/
structure Agree (mine : ℕ → Bool) (D : A → Prop) (s s₁ : Config A V S R E) : Prop where
  mem : ∀ a, D a → s₁.mem a = s.mem a
  thr : ∀ t, mine t = true → s₁.thr t = s.thr t
  log : s₁.log = s.log.filter fun x => mine x.1
  halt : s₁.halt = none ∨ s₁.halt = s.halt

namespace Agree

variable {mine : ℕ → Bool} {D : A → Prop} {s s₁ s' : Config A V S R E}

theorem running (h : Agree mine D s s₁) (hh : s.halt = none) : s₁.halt = none :=
  h.halt.elim id fun he => he.trans hh

theorem follow (h : Agree mine D s s₁) (hh : s.halt = none) {t : ℕ} (ht : mine t = true)
    {m m₁ : A → V} (hm : ∀ a, D a → m₁ a = m a) (f : Flow S R E) :
    Agree mine D (Config.follow t { s with mem := m } f)
      (Config.follow t { s₁ with mem := m₁ } f) := by
  have hthr : ∀ p u, mine u = true →
      Function.update s₁.thr t p u = Function.update s.thr t p u := by
    intro p u hu
    by_cases hut : u = t
    · subst hut
      rw [Function.update_self, Function.update_self]
    · rw [Function.update_of_ne hut, Function.update_of_ne hut, h.thr u hu]
  cases f with
  | goto p => exact ⟨hm, hthr _, h.log, Or.inl (h.running hh)⟩
  | ret r =>
    refine ⟨hm, hthr _, ?_, Or.inl (h.running hh)⟩
    show (t, r) :: s₁.log = ((t, r) :: s.log).filter fun x => mine x.1
    rw [List.filter_cons, if_pos ht, h.log]
  | exit e => exact ⟨hm, h.thr, h.log, Or.inr rfl⟩

theorem followed (h : Agree mine D s s₁) (hh : s.halt = none) {t : ℕ} (ht : mine t = false)
    {m : A → V} (hm : ∀ a, D a → m a = s.mem a) (f : Flow S R E) :
    Agree mine D (Config.follow t { s with mem := m } f) s₁ := by
  have hmem : ∀ a, D a → s₁.mem a = m a := fun a ha => (h.mem a ha).trans (hm a ha).symm
  have hthr : ∀ p u, mine u = true → s₁.thr u = Function.update s.thr t p u := by
    intro p u hu
    have hut : u ≠ t := by
      rintro rfl
      rw [ht] at hu
      cases hu
    rw [Function.update_of_ne hut, h.thr u hu]
  cases f with
  | goto p => exact ⟨hmem, hthr _, h.log, Or.inl (h.running hh)⟩
  | ret r =>
    refine ⟨hmem, hthr _, ?_, Or.inl (h.running hh)⟩
    show s₁.log = ((t, r) :: s.log).filter fun x => mine x.1
    rw [List.filter_cons, ht, if_neg Bool.false_ne_true, h.log]
  | exit e => exact ⟨hmem, h.thr, h.log, Or.inl (h.running hh)⟩

variable [DecidableEq A] [DecidableEq V] {M : Machine A V C S R E} {weak : S → Bool}
  {l : WeakLabel C}

/-- A step of the group is a step of the group alone. -/
theorem own (h : Agree mine D s s₁) (hl : mine l.thread = true)
    (hD : ∀ p, s.thr l.thread = some p → D (M.code p).1.addr)
    (hs : M.weakStep weak s l = some s') :
    ∃ s₁', M.weakStep weak s₁ l = some s₁' ∧ Agree mine D s' s₁' := by
  rcases l with (⟨t, c⟩ | t) | t
  · obtain ⟨hh, ht, rfl⟩ := Machine.step_call.mp hs
    refine ⟨_, Machine.step_call.mpr ⟨h.running hh, (h.thr t hl).trans ht, rfl⟩, ?_⟩
    exact h.follow hh hl h.mem (.goto (M.start c))
  · obtain ⟨hh, p, hp, rfl⟩ := Machine.step_move.mp hs
    refine ⟨_, Machine.step_move.mpr ⟨h.running hh, p, (h.thr t hl).trans hp, rfl⟩, ?_⟩
    obtain ⟨hreply, hword⟩ := (M.code p).1.exec_local (h.mem _ (hD p hp))
    have hm : ∀ a, D a → ((M.code p).1.exec s₁.mem).2 a = ((M.code p).1.exec s.mem).2 a := by
      intro a ha
      by_cases hadr : a = (M.code p).1.addr
      · rw [hadr]
        exact hword
      · rw [Access.exec_of_ne _ _ hadr, Access.exec_of_ne _ _ hadr, h.mem a ha]
    have hend := h.follow hh hl hm ((M.code p).2 ((M.code p).1.exec s.mem).1)
    simp only [Machine.advance, hreply]
    exact hend
  · obtain ⟨hh, p, hp, hw, rfl⟩ := Machine.weakStep_fail.mp hs
    refine ⟨_, Machine.weakStep_fail.mpr ⟨h.running hh, p, (h.thr t hl).trans hp, hw, rfl⟩, ?_⟩
    rw [h.mem _ (hD p hp)]
    exact h.follow hh hl h.mem _

/-- A step of the other group changes nothing for the group. -/
theorem other (h : Agree mine D s s₁) (hl : mine l.thread = false)
    (hD : ∀ p, s.thr l.thread = some p → ¬ D (M.code p).1.addr)
    (hs : M.weakStep weak s l = some s') : Agree mine D s' s₁ := by
  rcases l with (⟨t, c⟩ | t) | t
  · obtain ⟨hh, -, rfl⟩ := Machine.step_call.mp hs
    exact h.followed hh hl (fun _ _ => rfl) (.goto (M.start c))
  · obtain ⟨hh, p, hp, rfl⟩ := Machine.step_move.mp hs
    have hm : ∀ a, D a → ((M.code p).1.exec s.mem).2 a = s.mem a := fun a ha =>
      Access.exec_of_ne _ _ fun hadr => hD p hp (hadr ▸ ha)
    exact h.followed hh hl hm _
  · obtain ⟨hh, p, hp, -, rfl⟩ := Machine.weakStep_fail.mp hs
    exact h.followed hh hl (fun _ _ => rfl) _

/-- A run, cut down to the steps of the group, is a run of the group alone. What threads
stand at is bounded by `P`, which the calls of the run start with and the code keeps. -/
theorem run {P : ℕ → S → Prop} (hnext : ∀ t p r p', P t p → (M.code p).2 r = .goto p' → P t p')
    (hD : ∀ t p, P t p → (D (M.code p).1.addr ↔ mine t = true)) :
    ∀ {ls : List (WeakLabel C)} {s s₁ s' : Config A V S R E},
      (∀ t c, .step (.call t c) ∈ ls → P t (M.start c)) → (∀ t p, s.thr t = some p → P t p) →
      Agree mine D s s₁ → M.weakRun weak ls s = some s' →
      ∃ s₁', M.weakRun weak (ls.filter fun l => mine l.thread) s₁ = some s₁' ∧ Agree mine D s' s₁'
  | [], s, s₁, s', _, _, h, hr => by
    cases hr
    exact ⟨s₁, rfl, h⟩
  | l :: ls, s, s₁, s', hcall, hP, h, hr => by
    obtain ⟨s₂, h1, h2⟩ := Machine.weakRun_cons.mp hr
    have hP₂ : ∀ t p, s₂.thr t = some p → P t p := fun t => Machine.own_inv (hnext t)
      (fun c hc => hcall t c (hc ▸ List.mem_cons_self)) (hP t) h1
    have hcall₂ : ∀ t c, .step (.call t c) ∈ ls → P t (M.start c) := fun t c hc =>
      hcall t c (List.mem_cons_of_mem _ hc)
    by_cases hl : mine l.thread = true
    · obtain ⟨s₃, h3, hag⟩ := h.own hl (fun p hp => (hD _ p (hP _ p hp)).mpr hl) h1
      obtain ⟨s₁', h4, hend⟩ := run hnext hD hcall₂ hP₂ hag h2
      refine ⟨s₁', ?_, hend⟩
      rw [List.filter_cons, if_pos hl]
      exact Machine.weakRun_cons.mpr ⟨s₃, h3, h4⟩
    · have hag := h.other (by simpa using hl) (fun p hp hc => hl ((hD _ p (hP _ p hp)).mp hc)) h1
      obtain ⟨s₁', h4, hend⟩ := run hnext hD hcall₂ hP₂ hag h2
      refine ⟨s₁', ?_, hend⟩
      rwa [List.filter_cons, if_neg hl]

end Agree

end Interleave
