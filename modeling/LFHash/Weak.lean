/-
# Weak compare-exchanges

A weak compare-exchange may fail although the word is the one it expects: it leaves the
memory alone and replies with the word it has found. Which accesses are weak is given by
their control points; a schedule says which of them fail.

Key definitions: `WeakLabel`, `Machine.weakStep`, `Machine.weakRun`, `Machine.WeakAlong`,
`Machine.OnSteps`, `Attempt`, `Carried`.
Key theorems: `Machine.weakStep_cases`, `Machine.weakStep_thr_of_ne`, `Machine.weak_thr_inv`,
`Machine.own_inv`, `Machine.weakRun_inv`, `Machine.WeakAlong.of_inv`, `Machine.weakRun_past`,
`Carried.step`.
-/
import LFHash.Interleave

namespace Interleave

/-- A step of a schedule in which accesses may fail: a step as ever, or a failure of thread
`t`'s next access. -/
inductive WeakLabel (C : Type)
  | step (l : Label C)
  | fail (t : ℕ)

def WeakLabel.thread {C : Type} : WeakLabel C → ℕ
  | step l => l.thread
  | fail t => t

/-- The thread makes an access with this step, or fails at one. -/
def WeakLabel.Accesses {C : Type} : WeakLabel C → Prop
  | step (.call _ _) => False
  | step (.move _) | fail _ => True

/-- How often thread `t` makes an access in a schedule, or fails at one. -/
def accessesOf {C : Type} (t : ℕ) (ls : List (WeakLabel C)) : ℕ :=
  ls.countP fun
    | .step (.call _ _) => false
    | .step (.move u) => u == t
    | .fail u => u == t

theorem accessesOf_cons {C : Type} {t : ℕ} {l : WeakLabel C} {ls : List (WeakLabel C)} :
    (l.thread = t ∧ l.Accesses → accessesOf t (l :: ls) = accessesOf t ls + 1) ∧
      (¬ (l.thread = t ∧ l.Accesses) → accessesOf t (l :: ls) = accessesOf t ls) := by
  rcases l with (⟨u, c⟩ | u) | u
  · simp [accessesOf, WeakLabel.Accesses]
  · simp only [accessesOf, List.countP_cons, WeakLabel.thread, Label.thread, WeakLabel.Accesses]
    by_cases h : u = t <;> simp [h]
  · simp only [accessesOf, List.countP_cons, WeakLabel.thread, WeakLabel.Accesses]
    by_cases h : u = t <;> simp [h]

variable {A V C S R E : Type} [DecidableEq A] [DecidableEq V]

/-- The reply to an access, and the memory it leaves, if the access may fail. -/
def Attempt (acc : Access A V) (m : A → V) (r : Reply V) (m' : A → V) : Prop :=
  acc.exec m = (r, m') ∨ (r = ⟨false, m acc.addr⟩ ∧ m' = m)

theorem Attempt.of_ne {acc : Access A V} {m m' : A → V} {r : Reply V} (h : Attempt acc m r m')
    {b : A} (hb : b ≠ acc.addr) : m' b = m b := by
  rcases h with he | ⟨-, rfl⟩
  · have hm := acc.exec_of_ne m hb
    rwa [he] at hm
  · rfl

theorem Attempt.load {a : A} {m m' : A → V} {r : Reply V} (h : Attempt (.load a) m r m') :
    r.val = m a ∧ m' = m := by
  rcases h with he | ⟨rfl, rfl⟩
  · cases he
    exact ⟨rfl, rfl⟩
  · exact ⟨rfl, rfl⟩

/-- A compare-exchange writes only where it finds the word it expects. -/
theorem Attempt.cas {a : A} {e d : V} {m m' : A → V} {r : Reply V}
    (h : Attempt (.cas a e d) m r m') :
    (m a = e ∧ r.ok = true ∧ m' = Function.update m a d) ∨ (r.ok = false ∧ m' = m) := by
  rcases h with he | ⟨rfl, rfl⟩
  · by_cases hm : m a = e
    · rw [Access.exec_cas_of_eq m d hm] at he
      cases he
      exact Or.inl ⟨hm, rfl, rfl⟩
    · rw [Access.exec_cas_of_ne m d hm] at he
      cases he
      exact Or.inr ⟨rfl, rfl⟩
  · exact Or.inr ⟨rfl, rfl⟩

namespace Machine

variable (M : Machine A V C S R E) (weak : S → Bool)

/-- A step in which an access at a weak control point may fail. -/
def weakStep (s : Config A V S R E) : WeakLabel C → Option (Config A V S R E)
  | .step l => M.step s l
  | .fail t =>
    match s.halt, s.thr t with
    | none, some p =>
      if weak p then some (s.follow t ((M.code p).2 ⟨false, s.mem (M.code p).1.addr⟩)) else none
    | _, _ => none

/-- The run of a schedule with failures. -/
def weakRun : List (WeakLabel C) → Config A V S R E → Option (Config A V S R E)
  | [], s => some s
  | l :: ls, s => (M.weakStep weak s l).bind (weakRun ls)

/-- Every step of the run is taken from a configuration that meets `Q`. -/
def WeakAlong (Q : Config A V S R E → WeakLabel C → Prop) :
    List (WeakLabel C) → Config A V S R E → Prop
  | [], _ => True
  | l :: ls, s => ∀ s', M.weakStep weak s l = some s' → Q s l ∧ WeakAlong Q ls s'

instance instDecidableWeakAlong {Q : Config A V S R E → WeakLabel C → Prop}
    [∀ s l, Decidable (Q s l)] :
    ∀ (ls : List (WeakLabel C)) (s : Config A V S R E), Decidable (M.WeakAlong weak Q ls s)
  | [], _ => isTrue True.intro
  | l :: ls, s =>
    match h : M.weakStep weak s l with
    | none => isTrue fun s' h' => by rw [h] at h'; cases h'
    | some s₁ =>
      have : Decidable (M.WeakAlong weak Q ls s₁) := instDecidableWeakAlong ls s₁
      decidable_of_iff (Q s l ∧ M.WeakAlong weak Q ls s₁)
        ⟨fun hq s' h' => by rw [h, Option.some.injEq] at h'; exact h' ▸ hq, fun hq => hq s₁ h⟩

/-- Every step meets `Q`, unless it is a failure. -/
def OnSteps (Q : Config A V S R E → Label C → Prop) (s : Config A V S R E) : WeakLabel C → Prop
  | .step l => Q s l
  | .fail _ => True

instance instDecidableOnSteps {Q : Config A V S R E → Label C → Prop} [∀ s l, Decidable (Q s l)]
    (s : Config A V S R E) : ∀ l, Decidable (OnSteps Q s l)
  | .step l => inferInstanceAs (Decidable (Q s l))
  | .fail _ => isTrue True.intro

variable {M weak} {s s' : Config A V S R E} {l : WeakLabel C}

theorem weakStep_fail {t : ℕ} : M.weakStep weak s (.fail t) = some s' ↔
    s.halt = none ∧ ∃ p, s.thr t = some p ∧ weak p = true ∧
      s' = s.follow t ((M.code p).2 ⟨false, s.mem (M.code p).1.addr⟩) := by
  cases hh : s.halt with
  | some e => simp [weakStep, hh]
  | none =>
    cases ht : s.thr t with
    | none => simp [weakStep, hh, ht]
    | some p => cases hw : weak p <;> simp [weakStep, hh, ht, hw, eq_comm (a := s')]

theorem weakRun_cons {ls : List (WeakLabel C)} : M.weakRun weak (l :: ls) s = some s' ↔
    ∃ s₁, M.weakStep weak s l = some s₁ ∧ M.weakRun weak ls s₁ = some s' := by
  simp [weakRun, Option.bind_eq_some_iff]

/-- A step begins a call, or makes an access that may fail. -/
theorem weakStep_cases (h : M.weakStep weak s l = some s') :
    (∃ t c, l = .step (.call t c) ∧ M.step s (.call t c) = some s') ∨
    (s.halt = none ∧ l.Accesses ∧ ∃ p r m', s.thr l.thread = some p ∧
      Attempt (M.code p).1 s.mem r m' ∧
      s' = Config.follow l.thread { s with mem := m' } ((M.code p).2 r) ∧
      (l = .step (.move l.thread) ∧ (M.code p).1.exec s.mem = (r, m') ∨
        l = .fail l.thread ∧ weak p = true ∧ m' = s.mem)) := by
  rcases l with (⟨t, c⟩ | t) | t
  · exact Or.inl ⟨t, c, rfl, h⟩
  · obtain ⟨hh, p, hp, rfl⟩ := step_move.mp h
    exact Or.inr ⟨hh, trivial, p, _, _, hp, Or.inl rfl, rfl, Or.inl ⟨rfl, rfl⟩⟩
  · obtain ⟨hh, p, hp, hw, rfl⟩ := weakStep_fail.mp h
    exact Or.inr ⟨hh, trivial, p, _, _, hp, Or.inr ⟨rfl, rfl⟩, rfl, Or.inr ⟨rfl, hw, rfl⟩⟩

theorem halt_of_weakStep (h : M.weakStep weak s l = some s') : s.halt = none := by
  rcases weakStep_cases h with ⟨u, c, rfl, hs⟩ | ⟨hh, -⟩
  · exact (step_call.mp hs).1
  · exact hh

theorem accesses_of_thr {p : S} (h : M.weakStep weak s l = some s') (hp : s.thr l.thread = some p) :
    l.Accesses := by
  rcases weakStep_cases h with ⟨t, c, rfl, hs⟩ | ⟨-, hacc, -⟩
  · obtain ⟨-, ht, -⟩ := step_call.mp hs
    have hno : s.thr t = some p := hp
    rw [ht] at hno
    cases hno
  · exact hacc

theorem weakStep_thr_of_ne (h : M.weakStep weak s l = some s') {u : ℕ} (hu : u ≠ l.thread) :
    s'.thr u = s.thr u := by
  rcases weakStep_cases h with ⟨t, c, rfl, hs⟩ | ⟨-, -, p, r, m', -, -, rfl, -⟩
  · exact step_thr_of_ne hs hu
  · exact Config.follow_thr_of_ne hu _

/-- What every call starts with, and the code keeps whatever its accesses reply, holds of
every thread. -/
theorem weak_thr_inv {P : S → Prop} (hstart : ∀ c, P (M.start c))
    (hnext : ∀ p r p', P p → (M.code p).2 r = .goto p' → P p')
    (hP : ∀ t p, s.thr t = some p → P p) (h : M.weakStep weak s l = some s') :
    ∀ t p, s'.thr t = some p → P p := by
  rcases weakStep_cases h with ⟨t, c, rfl, hs⟩ | ⟨-, -, q, r, m', hq, -, rfl, -⟩
  · exact thr_inv hstart hnext hP hs
  · intro u p hu
    by_cases hul : u = l.thread
    · subst hul
      cases hf : (M.code q).2 r with
      | goto p' =>
        rw [hf] at hu
        obtain rfl : p' = p := by simpa [Config.follow] using hu
        exact hnext q r p' (hP _ q hq) hf
      | ret x =>
        rw [hf] at hu
        simp [Config.follow] at hu
      | exit e =>
        rw [hf] at hu
        exact hP _ p hu
    · rw [Config.follow_thr_of_ne hul] at hu
      exact hP u p hu

/-- What the calls a thread begins start with, and the code keeps, holds of that thread. -/
theorem own_inv {t : ℕ} {Q : S → Prop} (hnext : ∀ p r p', Q p → (M.code p).2 r = .goto p' → Q p')
    (hcall : ∀ c, l = .step (.call t c) → Q (M.start c)) (hQ : ∀ p, s.thr t = some p → Q p)
    (h : M.weakStep weak s l = some s') : ∀ p, s'.thr t = some p → Q p := by
  intro p hp
  by_cases hut : t = l.thread
  · subst hut
    rcases weakStep_cases h with ⟨u, c, rfl, hs⟩ | ⟨-, -, q, r, m', hq, -, rfl, -⟩
    · obtain ⟨-, -, rfl⟩ := step_call.mp hs
      obtain rfl : M.start c = p := by simpa [WeakLabel.thread, Label.thread] using hp
      exact hcall c rfl
    · cases hf : (M.code q).2 r with
      | goto p' =>
        rw [hf] at hp
        obtain rfl : p' = p := by simpa [Config.follow] using hp
        exact hnext q r p' (hQ q hq) hf
      | ret x =>
        rw [hf] at hp
        simp [Config.follow] at hp
      | exit e =>
        rw [hf] at hp
        exact hQ p hp
  · rw [weakStep_thr_of_ne h hut] at hp
    exact hQ p hp

theorem weakRun_thr_of_ne {u : ℕ} : ∀ {ls : List (WeakLabel C)} {s s' : Config A V S R E},
    M.weakRun weak ls s = some s' → (∀ l ∈ ls, u ≠ l.thread) → s'.thr u = s.thr u
  | [], s, s', h, _ => by
    cases h
    rfl
  | l :: ls, s, s', h, hu => by
    obtain ⟨s₁, h1, h2⟩ := weakRun_cons.mp h
    rw [weakRun_thr_of_ne h2 fun l' hl' => hu l' (List.mem_cons_of_mem _ hl')]
    exact weakStep_thr_of_ne h1 (hu l List.mem_cons_self)

theorem WeakAlong.mono {Q Q' : Config A V S R E → WeakLabel C → Prop}
    (h : ∀ s l s', M.weakStep weak s l = some s' → Q s l → Q' s l) :
    ∀ {ls : List (WeakLabel C)} {s : Config A V S R E}, M.WeakAlong weak Q ls s →
      M.WeakAlong weak Q' ls s
  | [], _, _ => True.intro
  | _ :: _, s, hQ => fun s' h1 => ⟨h s _ s' h1 (hQ s' h1).1, mono h (hQ s' h1).2⟩

theorem WeakAlong.trivial : ∀ (ls : List (WeakLabel C)) (s : Config A V S R E),
    M.WeakAlong weak (fun _ _ => True) ls s
  | [], _ => True.intro
  | _ :: ls, _ => fun s' _ => ⟨True.intro, trivial ls s'⟩

/-- Along a run that keeps `P`, every step is taken from a configuration with `P`. -/
theorem WeakAlong.of_inv {P : Config A V S R E → Prop}
    {Q : Config A V S R E → WeakLabel C → Prop}
    (hstep : ∀ s l s', P s → Q s l → M.weakStep weak s l = some s' → P s') :
    ∀ {ls : List (WeakLabel C)} {s : Config A V S R E}, P s → M.WeakAlong weak Q ls s →
      M.WeakAlong weak (fun s l => P s ∧ Q s l) ls s
  | [], _, _, _ => True.intro
  | _ :: _, s, hP, hQ => fun s' h =>
    ⟨⟨hP, (hQ s' h).1⟩, of_inv hstep (hstep s _ s' hP (hQ s' h).1 h) (hQ s' h).2⟩

theorem WeakAlong.idle_outside {Q : Config A V S R E → WeakLabel C → Prop} {ts : List ℕ}
    {ls : List (WeakLabel C)} {s : Config A V S R E} (hs : ∀ u ∉ ts, s.thr u = none)
    (hQ : M.WeakAlong weak (fun s l => Q s l ∧ l.thread ∈ ts) ls s) :
    M.WeakAlong weak (fun s l => (∀ u ∉ ts, s.thr u = none) ∧ Q s l ∧ l.thread ∈ ts) ls s := by
  refine WeakAlong.of_inv (fun s l s' hP hl h u hu => ?_) hs hQ
  have hne : u ≠ l.thread := by
    rintro rfl
    exact hu hl.2
  rw [weakStep_thr_of_ne h hne]
  exact hP u hu

/-- What holds at the start, before any step, and is kept by every step that comes after
known ones, holds at the end of every run. -/
theorem weakRun_past {P : List (WeakLabel C) → Config A V S R E → Prop}
    (hstep : ∀ past s l s', P past s → M.weakStep weak s l = some s' → P (past ++ [l]) s') :
    ∀ {ls past : List (WeakLabel C)} {s s' : Config A V S R E}, P past s →
      M.weakRun weak ls s = some s' → P (past ++ ls) s'
  | [], past, s, s', hP, h => by
    cases h
    rwa [List.append_nil]
  | l :: ls, past, s, s', hP, h => by
    obtain ⟨s₁, h1, h2⟩ := weakRun_cons.mp h
    have hrest := weakRun_past hstep (hstep past s l s₁ hP h1) h2
    rwa [List.append_assoc, List.singleton_append] at hrest

/-- What holds at the start, and is kept by every step that meets `Q`, holds at the end of
every run whose steps all meet `Q`. -/
theorem weakRun_inv {P : Config A V S R E → Prop} {Q : Config A V S R E → WeakLabel C → Prop}
    (hstep : ∀ s l s', P s → Q s l → M.weakStep weak s l = some s' → P s') :
    ∀ {ls : List (WeakLabel C)} {s s' : Config A V S R E}, P s → M.WeakAlong weak Q ls s →
      M.weakRun weak ls s = some s' → P s'
  | [], s, s', hP, _, h => by
    cases h
    exact hP
  | l :: ls, s, s', hP, hQ, h => by
    obtain ⟨s₁, h1, h2⟩ := weakRun_cons.mp h
    obtain ⟨hq, hrest⟩ := hQ s₁ h1
    exact weakRun_inv hstep (hstep s l s₁ hP hq h1) hrest h2

end Machine

/-! ### Where words come from -/

/-- What the access may write, once it has found `v`, meets `W`. -/
def Access.Puts (W : A → V → Prop) (v : V) : Access A V → Prop
  | .load _ => True
  | .cas a _ d => W a d
  | .fetch a f => W a (f v)

/-- A compare-exchange that says it has succeeded has found the word it expects. -/
def Access.Told (r : Reply V) : Access A V → Prop
  | .cas _ e _ => r.ok = true → r.val = e
  | .load _ | .fetch _ _ => True

theorem Attempt.told {acc : Access A V} {m m' : A → V} {r : Reply V} (h : Attempt acc m r m') :
    r.val = m acc.addr ∧ acc.Told r := by
  cases acc with
  | load a =>
    exact ⟨h.load.1, True.intro⟩
  | cas a e d =>
    rcases h with he | ⟨rfl, -⟩
    · by_cases hm : m a = e
      · rw [Access.exec_cas_of_eq m d hm] at he
        cases he
        exact ⟨rfl, fun _ => hm⟩
      · rw [Access.exec_cas_of_ne m d hm] at he
        cases he
        exact ⟨rfl, Bool.noConfusion⟩
    · exact ⟨rfl, Bool.noConfusion⟩
  | fetch a f =>
    rcases h with he | ⟨rfl, -⟩
    · cases he
      exact ⟨rfl, True.intro⟩
    · exact ⟨rfl, True.intro⟩

/-- After an access every word is an old one or one the access may write. -/
theorem Attempt.words {W : A → V → Prop} {acc : Access A V} {m m' : A → V} {r : Reply V}
    (h : Attempt acc m r m') (hm : ∀ a, W a (m a)) (hp : acc.Puts W (m acc.addr)) (a : A) :
    W a (m' a) := by
  rcases h with he | ⟨-, rfl⟩
  · have hw : acc.Writes W m := by
      cases acc with
      | load b => exact True.intro
      | cas b e d => exact hp
      | fetch b f => exact hp
    have hall := Access.exec_words m hm hw a
    rwa [he] at hall
  · exact hm a

/-- Every word meets `W`, every thread stands at a control point with `P`, and every result
meets `G`. -/
structure Carried (W : A → V → Prop) (P : S → Prop) (G : R → Prop) (s : Config A V S R E) :
    Prop where
  word : ∀ a, W a (s.mem a)
  point : ∀ t p, s.thr t = some p → P p
  result : ∀ t r, (t, r) ∈ s.log → G r

variable {M : Machine A V C S R E} {weak : S → Bool} {s s' : Config A V S R E} {l : WeakLabel C}

/-- A step takes words, control points and results from one set of bounds to a wider one, if
the call it begins starts within it, and each access leads from the old bounds into it. -/
theorem Carried.step {W W' : A → V → Prop} {P P' : S → Prop} {G G' : R → Prop}
    (h : Carried W P G s) (hs : M.weakStep weak s l = some s')
    (hW : ∀ a v, W a v → W' a v) (hP : ∀ p, P p → P' p) (hG : ∀ r, G r → G' r)
    (hcall : ∀ t c, l = .step (.call t c) → P' (M.start c))
    (hputs : ∀ p v, P p → W (M.code p).1.addr v → (M.code p).1.Puts W' v)
    (hgoto : ∀ p r p', P p → W (M.code p).1.addr r.val → (M.code p).1.Told r →
      (M.code p).2 r = .goto p' → P' p')
    (hret : ∀ p r x, P p → W (M.code p).1.addr r.val → (M.code p).1.Told r →
      (M.code p).2 r = .ret x → G' x) : Carried W' P' G' s' := by
  rcases Machine.weakStep_cases hs with ⟨t, c, rfl, hc⟩ | ⟨-, -, p, r, m', hp, hx, rfl, -⟩
  · obtain ⟨-, -, rfl⟩ := Machine.step_call.mp hc
    refine ⟨fun a => hW a _ (h.word a), fun u q hu => ?_, fun u r hr => hG r (h.result u r hr)⟩
    by_cases hut : u = t
    · subst hut
      simp only [Function.update_self, Option.some.injEq] at hu
      exact hu ▸ hcall u c rfl
    · simp only [Function.update_of_ne hut] at hu
      exact hP q (h.point u q hu)
  · have hpp := h.point _ p hp
    obtain ⟨hval, htold⟩ := hx.told
    have hw : W (M.code p).1.addr r.val := hval ▸ h.word _
    refine ⟨fun a => ?_, fun u q hu => ?_, fun u x hl => ?_⟩
    · rw [Config.follow_mem]
      exact hx.words (fun a => hW a _ (h.word a)) (hputs p _ hpp (h.word _)) a
    · by_cases hut : u = l.thread
      · subst hut
        cases hf : (M.code p).2 r with
        | goto p' =>
          rw [hf] at hu
          obtain rfl : p' = q := by simpa [Config.follow] using hu
          exact hgoto p r p' hpp hw htold hf
        | ret x =>
          rw [hf] at hu
          simp [Config.follow] at hu
        | exit e =>
          rw [hf] at hu
          exact hP q (h.point _ q hu)
      · rw [Config.follow_thr_of_ne hut] at hu
        exact hP q (h.point u q hu)
    · rcases Config.follow_log (t := l.thread) (s := { s with mem := m' }) ((M.code p).2 r) with
        hlog | ⟨y, hy, hlog⟩
      · rw [hlog] at hl
        exact hG x (h.result u x hl)
      · rw [hlog] at hl
        rcases List.mem_cons.mp hl with heq | hold
        · cases heq
          exact hret p r x hpp hw htold hy
        · exact hG x (h.result u x hold)

end Interleave
