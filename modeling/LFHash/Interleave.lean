/-
# Threads that interleave over a shared memory

A thread runs code: at each control point it makes one atomic access to the
memory (a load, a compare-exchange, a fetch-and-update) and goes on with the
reply. A configuration holds the memory, the control point of every thread
that runs a call, the calls that have returned, and the exit the process took,
if it took one. A schedule says, step by step, which thread begins a call or
moves; a run is what a schedule makes of a configuration.

A compare-exchange fails exactly when the word differs from the expected one,
and each access is one step of the run (sequential consistency).

Key definitions: `Access`, `Flow`, `Machine`, `Machine.step`, `Machine.run`,
`Machine.Along`.
Key theorems: `Machine.run_inv`, `Machine.Along.of_inv`, `Machine.step_call`,
`Machine.step_move`.
-/
import Mathlib.Data.List.Basic
import Mathlib.Logic.Function.Basic

namespace Interleave

/-- One atomic access to a memory with addresses `A` and words `V`. -/
inductive Access (A V : Type)
  | load (a : A)
  | cas (a : A) (expected desired : V)
  | fetch (a : A) (f : V → V)

/-- What an access tells its thread: whether it succeeded, and the word it found. -/
structure Reply (V : Type) where
  ok : Bool
  val : V

namespace Access

variable {A V : Type} [DecidableEq V]

def addr : Access A V → A
  | load a => a
  | cas a _ _ => a
  | fetch a _ => a

/-- What the access replies, and the memory it leaves. -/
def exec [DecidableEq A] (m : A → V) : Access A V → Reply V × (A → V)
  | load a => (⟨true, m a⟩, m)
  | cas a e d =>
    if m a = e then (⟨true, m a⟩, Function.update m a d) else (⟨false, m a⟩, m)
  | fetch a f => (⟨true, m a⟩, Function.update m a (f (m a)))

variable [DecidableEq A] (m : A → V)

@[simp] theorem exec_load (a : A) : (load a : Access A V).exec m = (⟨true, m a⟩, m) := rfl

@[simp] theorem exec_fetch (a : A) (f : V → V) :
    (fetch a f).exec m = (⟨true, m a⟩, Function.update m a (f (m a))) := rfl

theorem exec_cas_of_eq {a : A} {e : V} (d : V) (h : m a = e) :
    (cas a e d).exec m = (⟨true, m a⟩, Function.update m a d) := if_pos h

theorem exec_cas_of_ne {a : A} {e : V} (d : V) (h : m a ≠ e) :
    (cas a e d).exec m = (⟨false, m a⟩, m) := if_neg h

/-- An access changes no word but its own. -/
theorem exec_of_ne (acc : Access A V) {b : A} (h : b ≠ acc.addr) : (acc.exec m).2 b = m b := by
  cases acc with
  | load a => rfl
  | cas a e d =>
    by_cases he : m a = e
    · rw [exec_cas_of_eq m d he]; exact Function.update_of_ne h _ _
    · rw [exec_cas_of_ne m d he]
  | fetch a f => exact Function.update_of_ne h _ _

/-- The access writes, if anything, a word that meets `W` at its address. -/
def Writes (W : A → V → Prop) (m : A → V) : Access A V → Prop
  | load _ => True
  | cas a _ d => W a d
  | fetch a f => W a (f (m a))

theorem exec_words {W : A → V → Prop} {acc : Access A V} (hm : ∀ a, W a (m a))
    (hw : acc.Writes W m) (a : A) : W a ((acc.exec m).2 a) := by
  have hupd : ∀ b v, W b v → W a (Function.update m b v a) := by
    intro b v hv
    by_cases h : a = b
    · subst h
      rwa [Function.update_self]
    · rw [Function.update_of_ne h]
      exact hm a
  cases acc with
  | load b => exact hm a
  | cas b e d =>
    by_cases he : m b = e
    · rw [exec_cas_of_eq m d he]
      exact hupd b d hw
    · rw [exec_cas_of_ne m d he]
      exact hm a
  | fetch b f => exact hupd b _ hw

end Access

/-- Where code goes with a reply: on, back with a result, or out of the process. -/
inductive Flow (S R E : Type)
  | goto (s : S)
  | ret (r : R)
  | exit (e : E)

namespace Flow

variable {S R E S' R' : Type}

/-- A fragment called inside another: its control points are embedded, and the
caller goes on with its result. -/
def bind (x : Flow S R E) (g : S → S') (k : R → Flow S' R' E) : Flow S' R' E :=
  match x with
  | goto s => goto (g s)
  | ret r => k r
  | exit e => exit e

/-- The control point code goes on to, if it stays inside its call. -/
def point? : Flow S R E → Option S
  | goto s => some s
  | ret _ => none
  | exit _ => none

theorem point?_eq_some {x : Flow S R E} {s : S} : x.point? = some s ↔ x = goto s := by
  cases x <;> simp [point?]

@[simp] theorem bind_goto (s : S) (g : S → S') (k : R → Flow S' R' E) :
    (goto s : Flow S R E).bind g k = goto (g s) := rfl

@[simp] theorem bind_ret (r : R) (g : S → S') (k : R → Flow S' R' E) :
    (ret r : Flow S R E).bind g k = k r := rfl

@[simp] theorem bind_exit (e : E) (g : S → S') (k : R → Flow S' R' E) :
    (exit e : Flow S R E).bind g k = exit e := rfl

/-- A call made last: the caller only passes the result on. -/
@[simp] theorem point?_bind_ret (x : Flow S R E) (g : S → S') (k : R → R') :
    (x.bind g fun r => (ret (k r) : Flow S' R' E)).point? = x.point?.map g := by
  cases x <;> rfl

theorem bind_eq_goto {x : Flow S R E} {g : S → S'} {k : R → Flow S' R' E} {s' : S'} :
    x.bind g k = goto s' ↔ (∃ s, x = goto s ∧ g s = s') ∨ ∃ r, x = ret r ∧ k r = goto s' := by
  cases x <;> simp

theorem bind_eq_ret {x : Flow S R E} {g : S → S'} {k : R → Flow S' R' E} {r' : R'} :
    x.bind g k = ret r' ↔ ∃ r, x = ret r ∧ k r = ret r' := by
  cases x <;> simp

theorem bind_eq_exit {x : Flow S R E} {g : S → S'} {k : R → Flow S' R' E} {e : E} :
    x.bind g k = exit e ↔ x = exit e ∨ ∃ r, x = ret r ∧ k r = exit e := by
  cases x <;> simp

end Flow

/-- A control point's access, and where its reply leads. -/
abbrev Point (A V S R E : Type) := Access A V × (Reply V → Flow S R E)

/-- A fragment's control point inside the caller. -/
def Point.inside {A V S R E S' R' : Type} (p : Point A V S R E) (g : S → S')
    (k : R → Flow S' R' E) : Point A V S' R' E :=
  (p.1, fun r => (p.2 r).bind g k)

@[simp] theorem Point.inside_fst {A V S R E S' R' : Type} (p : Point A V S R E) (g : S → S')
    (k : R → Flow S' R' E) : (p.inside g k).1 = p.1 := rfl

@[simp] theorem Point.inside_snd {A V S R E S' R' : Type} (p : Point A V S R E) (g : S → S')
    (k : R → Flow S' R' E) (r : Reply V) : (p.inside g k).2 r = (p.2 r).bind g k := rfl

/-- The calls a thread can begin, and the code they run. -/
structure Machine (A V C S R E : Type) where
  start : C → S
  code : S → Point A V S R E

/-- A configuration: the memory, the control point of each thread that runs a
call, the results returned so far (latest first), and the exit taken. -/
structure Config (A V S R E : Type) where
  mem : A → V
  thr : ℕ → Option S
  log : List (ℕ × R)
  halt : Option E

namespace Config

variable {A V S R E : Type}

/-- Thread `t` goes where its reply leads: on inside its call, back to idle
with a result, or out of the process. -/
def follow (t : ℕ) (s : Config A V S R E) : Flow S R E → Config A V S R E
  | .goto p => { s with thr := Function.update s.thr t (some p) }
  | .ret r => { s with thr := Function.update s.thr t none, log := (t, r) :: s.log }
  | .exit e => { s with halt := some e }

variable {t : ℕ} {s : Config A V S R E}

@[simp] theorem follow_mem (f : Flow S R E) : (s.follow t f).mem = s.mem := by
  cases f <;> rfl

theorem follow_thr_of_ne {u : ℕ} (h : u ≠ t) (f : Flow S R E) :
    (s.follow t f).thr u = s.thr u := by
  cases f <;> simp [follow, Function.update_of_ne h]

/-- After its step a thread is where its reply led it. -/
theorem follow_thr {f : Flow S R E} (h : (s.follow t f).halt = none) :
    (s.follow t f).thr = Function.update s.thr t f.point? := by
  cases f with
  | goto p => rfl
  | ret r => rfl
  | exit e => simp [follow] at h

theorem follow_log (f : Flow S R E) : (s.follow t f).log = s.log ∨
    ∃ r, f = .ret r ∧ (s.follow t f).log = (t, r) :: s.log := by
  cases f with
  | goto p => exact Or.inl rfl
  | ret r => exact Or.inr ⟨r, rfl, rfl⟩
  | exit e => exact Or.inl rfl

theorem follow_halt {f : Flow S R E} (h : (s.follow t f).halt = none) (e : E) : f ≠ .exit e := by
  rintro rfl
  simp [follow] at h

end Config

/-- A step of a schedule: thread `t` begins call `c`, or makes its next access. -/
inductive Label (C : Type)
  | call (t : ℕ) (c : C)
  | move (t : ℕ)

/-- The thread that takes the step. -/
def Label.thread {C : Type} : Label C → ℕ
  | call t _ => t
  | move t => t

namespace Machine

variable {A V C S R E : Type} [DecidableEq A] [DecidableEq V] (M : Machine A V C S R E)

/-- Thread `t`, at control point `p`, makes its access and goes on. -/
def advance (t : ℕ) (p : S) (s : Config A V S R E) : Config A V S R E :=
  let x := (M.code p).1.exec s.mem
  { s with mem := x.2 }.follow t ((M.code p).2 x.1)

/-- Where its access leads a thread at control point `p`. -/
def flow (m : A → V) (p : S) : Flow S R E := (M.code p).2 ((M.code p).1.exec m).1

/-- A step. It exists if the process runs and the thread can make it: an idle
thread begins a call, a thread inside a call moves. -/
def step (s : Config A V S R E) : Label C → Option (Config A V S R E)
  | .call t c =>
    match s.halt, s.thr t with
    | none, none => some { s with thr := Function.update s.thr t (some (M.start c)) }
    | _, _ => none
  | .move t =>
    match s.halt, s.thr t with
    | none, some p => some (M.advance t p s)
    | _, _ => none

/-- The run of a schedule. -/
def run : List (Label C) → Config A V S R E → Option (Config A V S R E)
  | [], s => some s
  | l :: ls, s => (M.step s l).bind (run ls)

/-- Every step of the run is taken from a configuration that meets `Q`. -/
def Along (Q : Config A V S R E → Label C → Prop) : List (Label C) → Config A V S R E → Prop
  | [], _ => True
  | l :: ls, s => ∀ s', M.step s l = some s' → Q s l ∧ Along Q ls s'

instance instDecidableAlong {Q : Config A V S R E → Label C → Prop} [∀ s l, Decidable (Q s l)] :
    ∀ (ls : List (Label C)) (s : Config A V S R E), Decidable (M.Along Q ls s)
  | [], _ => isTrue trivial
  | l :: ls, s =>
    match h : M.step s l with
    | none => isTrue fun s' h' => by rw [h] at h'; cases h'
    | some s₁ =>
      have : Decidable (M.Along Q ls s₁) := instDecidableAlong ls s₁
      decidable_of_iff (Q s l ∧ M.Along Q ls s₁)
        ⟨fun hq s' h' => by rw [h, Option.some.injEq] at h'; exact h' ▸ hq, fun hq => hq s₁ h⟩

variable {M} {s s' : Config A V S R E}

theorem step_call {t : ℕ} {c : C} : M.step s (.call t c) = some s' ↔
    s.halt = none ∧ s.thr t = none ∧
      s' = { s with thr := Function.update s.thr t (some (M.start c)) } := by
  cases hh : s.halt <;> cases ht : s.thr t <;> simp [step, hh, ht, eq_comm]

theorem step_move {t : ℕ} : M.step s (.move t) = some s' ↔
    s.halt = none ∧ ∃ p, s.thr t = some p ∧ s' = M.advance t p s := by
  cases hh : s.halt <;> cases ht : s.thr t <;> simp [step, hh, ht, eq_comm]

theorem halt_of_step {l : Label C} (h : M.step s l = some s') : s.halt = none := by
  cases l with
  | call t c => exact (step_call.mp h).1
  | move t => exact (step_move.mp h).1

/-- A move is its thread's access. -/
theorem eq_advance {t : ℕ} {p : S} (hp : s.thr t = some p)
    (hs : M.step s (.move t) = some s') : s' = M.advance t p s := by
  obtain ⟨-, q, hq, rfl⟩ := step_move.mp hs
  rw [hp, Option.some.injEq] at hq
  rw [hq]

@[simp] theorem advance_mem (t : ℕ) (p : S) :
    (M.advance t p s).mem = ((M.code p).1.exec s.mem).2 := Config.follow_mem _

/-- A move changes no other thread. -/
theorem advance_thr_of_ne {t u : ℕ} (h : u ≠ t) (p : S) : (M.advance t p s).thr u = s.thr u :=
  Config.follow_thr_of_ne h _

/-- A step changes no other thread. -/
theorem step_thr_of_ne {l : Label C} (hs : M.step s l = some s') {u : ℕ} (hu : u ≠ l.thread) :
    s'.thr u = s.thr u := by
  cases l with
  | call t c =>
    obtain ⟨-, -, rfl⟩ := step_call.mp hs
    exact Function.update_of_ne hu _ _
  | move t =>
    obtain ⟨-, p, -, rfl⟩ := step_move.mp hs
    exact advance_thr_of_ne hu p

theorem advance_goto {t : ℕ} {p p' : S} (hf : M.flow s.mem p = .goto p') :
    M.advance t p s = { s with
      mem := ((M.code p).1.exec s.mem).2
      thr := Function.update s.thr t (some p') } := by
  rw [flow] at hf
  simp only [advance, hf, Config.follow]

theorem advance_thr_goto {t : ℕ} {p p' : S} (hf : M.flow s.mem p = .goto p') :
    (M.advance t p s).thr t = some p' := by
  rw [advance_goto hf]
  show Function.update s.thr t (some p') t = some p'
  rw [Function.update_self]

theorem advance_ret {t : ℕ} {p : S} {r : R} (hf : M.flow s.mem p = .ret r) :
    M.advance t p s = { s with
      mem := ((M.code p).1.exec s.mem).2
      thr := Function.update s.thr t none
      log := (t, r) :: s.log } := by
  rw [flow] at hf
  simp only [advance, hf, Config.follow]

theorem advance_exit {t : ℕ} {p : S} {e : E} (hf : M.flow s.mem p = .exit e) :
    M.advance t p s = { s with
      mem := ((M.code p).1.exec s.mem).2
      halt := some e } := by
  rw [flow] at hf
  simp only [advance, hf, Config.follow]

theorem advance_thr {t : ℕ} {p : S} (h : (M.advance t p s).halt = none) :
    (M.advance t p s).thr = Function.update s.thr t (M.flow s.mem p).point? :=
  Config.follow_thr h

theorem advance_log (t : ℕ) (p : S) : (M.advance t p s).log = s.log ∨
    ∃ r, M.flow s.mem p = .ret r ∧ (M.advance t p s).log = (t, r) :: s.log :=
  Config.follow_log _

theorem flow_ne_exit {t : ℕ} {p : S} (h : (M.advance t p s).halt = none) (e : E) :
    M.flow s.mem p ≠ .exit e :=
  Config.follow_halt h e

@[simp] theorem run_nil : M.run [] s = some s := rfl

theorem run_cons {l : Label C} {ls : List (Label C)} {s₂ : Config A V S R E} :
    M.run (l :: ls) s = some s₂ ↔ ∃ s₁, M.step s l = some s₁ ∧ M.run ls s₁ = some s₂ := by
  simp [run, Option.bind_eq_some_iff]

theorem run_append : ∀ (ls ls' : List (Label C)) (s : Config A V S R E),
    M.run (ls ++ ls') s = (M.run ls s).bind (M.run ls')
  | [], _, _ => rfl
  | l :: ls, ls', s => by
    simp only [List.cons_append, run, Option.bind_assoc]
    congr 1
    funext s₁
    exact run_append ls ls' s₁

/-- A run changes no thread that takes no step. -/
theorem run_thr_of_ne {u : ℕ} : ∀ {ls : List (Label C)} {s s' : Config A V S R E},
    M.run ls s = some s' → (∀ l ∈ ls, u ≠ l.thread) → s'.thr u = s.thr u
  | [], s, s', h, _ => by cases h; rfl
  | l :: ls, s, s', h, hu => by
    obtain ⟨s₁, h1, h2⟩ := run_cons.mp h
    rw [run_thr_of_ne h2 fun l' hl' => hu l' (List.mem_cons_of_mem _ hl')]
    exact step_thr_of_ne h1 (hu l List.mem_cons_self)

/-- All threads are idle if those that took steps are. -/
theorem idle_of_run {ls : List (Label C)} (hr : M.run ls s = some s') (hs : ∀ t, s.thr t = none)
    {ts : List ℕ} (hl : ∀ l ∈ ls, l.thread ∈ ts) (ht : ∀ t ∈ ts, (s'.thr t).isNone) (t : ℕ) :
    s'.thr t = none := by
  by_cases h : t ∈ ts
  · exact Option.isNone_iff_eq_none.mp (ht t h)
  · have hne : ∀ l ∈ ls, t ≠ l.thread := fun l hl' e => h (e.symm ▸ hl l hl')
    rw [run_thr_of_ne hr hne]
    exact hs t

/-- What holds at the start, and is kept by every step that meets `Q`, holds
at the end of every run whose steps all meet `Q`. -/
theorem run_inv {P : Config A V S R E → Prop} {Q : Config A V S R E → Label C → Prop}
    (hstep : ∀ s l s', P s → Q s l → M.step s l = some s' → P s') :
    ∀ {ls : List (Label C)} {s s' : Config A V S R E}, P s → M.Along Q ls s →
      M.run ls s = some s' → P s'
  | [], s, s', hP, _, h => by cases h; exact hP
  | l :: ls, s, s', hP, hQ, h => by
    obtain ⟨s₁, h1, h2⟩ := run_cons.mp h
    exact run_inv hstep (hstep s l s₁ hP (hQ s₁ h1).1 h1) (hQ s₁ h1).2 h2

/-- What holds at the start and is kept by every step holds at the end of every run. -/
theorem reach_inv {P : Config A V S R E → Prop}
    (hstep : ∀ s l s', P s → M.step s l = some s' → P s') :
    ∀ {ls : List (Label C)} {s s' : Config A V S R E}, P s → M.run ls s = some s' → P s'
  | [], s, s', hP, h => by cases h; exact hP
  | l :: ls, s, s', hP, h => by
    obtain ⟨s₁, h1, h2⟩ := run_cons.mp h
    exact reach_inv hstep (hstep s l s₁ hP h1) h2

/-- What every step of a schedule meets is met along its runs. -/
theorem Along.of_forall {Q : Label C → Prop} : ∀ {ls : List (Label C)} {s : Config A V S R E},
    (∀ l ∈ ls, Q l) → M.Along (fun _ l => Q l) ls s
  | [], _, _ => trivial
  | l :: _, _, h => fun _ _ =>
    ⟨h l List.mem_cons_self, of_forall fun l' hl' => h l' (List.mem_cons_of_mem l hl')⟩

/-- Along a run that keeps `P`, every step is taken from a configuration with `P`. -/
theorem Along.of_inv {P : Config A V S R E → Prop} {Q : Config A V S R E → Label C → Prop}
    (hstep : ∀ s l s', P s → Q s l → M.step s l = some s' → P s') :
    ∀ {ls : List (Label C)} {s : Config A V S R E}, P s → M.Along Q ls s →
      M.Along (fun s l => P s ∧ Q s l) ls s
  | [], _, _, _ => trivial
  | _ :: _, s, hP, hQ => fun s' h =>
    ⟨⟨hP, (hQ s' h).1⟩, of_inv hstep (hstep s _ s' hP (hQ s' h).1 h) (hQ s' h).2⟩

/-- While the threads of `ts` take all steps, the others stay idle. -/
theorem Along.idle_outside {Q : Config A V S R E → Label C → Prop} {ts : List ℕ}
    {ls : List (Label C)} {s : Config A V S R E} (hs : ∀ u ∉ ts, s.thr u = none)
    (hQ : M.Along (fun s l => Q s l ∧ l.thread ∈ ts) ls s) :
    M.Along (fun s l => (∀ u ∉ ts, s.thr u = none) ∧ Q s l ∧ l.thread ∈ ts) ls s := by
  refine of_inv (fun s l s' hP hl h u hu => ?_) hs hQ
  have hne : u ≠ l.thread := by
    rintro rfl
    exact hu hl.2
  rw [step_thr_of_ne h hne]
  exact hP u hu

theorem along_append {Q : Config A V S R E → Label C → Prop} : ∀ {ls ls' : List (Label C)}
    {s : Config A V S R E}, M.Along Q (ls ++ ls') s ↔
      M.Along Q ls s ∧ ∀ s', M.run ls s = some s' → M.Along Q ls' s'
  | [], ls', s => by simp [Along]
  | l :: ls, ls', s => by
    simp only [List.cons_append, Along, along_append]
    constructor
    · intro h
      refine ⟨fun s₁ h1 => ⟨(h s₁ h1).1, (h s₁ h1).2.1⟩, fun s' hr => ?_⟩
      obtain ⟨s₁, h1, h2⟩ := run_cons.mp hr
      exact (h s₁ h1).2.2 s' h2
    · intro h s₁ h1
      exact ⟨(h.1 s₁ h1).1, (h.1 s₁ h1).2, fun s' hr => h.2 s' (run_cons.mpr ⟨s₁, h1, hr⟩)⟩

/-- What every call starts with, and the code keeps whatever it reads, holds of
every thread that has not exited. -/
theorem thr_inv {P : S → Prop} (hstart : ∀ c, P (M.start c))
    (hnext : ∀ p r p', P p → (M.code p).2 r = .goto p' → P p') {l : Label C}
    (h : ∀ t p, s.thr t = some p → P p) (hs : M.step s l = some s') :
    ∀ t p, s'.thr t = some p → P p := by
  cases l with
  | call t c =>
    obtain ⟨-, -, rfl⟩ := step_call.mp hs
    intro u p hu
    by_cases hut : u = t
    · subst hut
      simp only [Function.update_self, Option.some.injEq] at hu
      exact hu ▸ hstart c
    · exact h u p (by simpa [Function.update_of_ne hut] using hu)
  | move t =>
    obtain ⟨-, q, hq, rfl⟩ := step_move.mp hs
    intro u p hu
    by_cases hut : u = t
    · subst hut
      cases hf : M.flow s.mem q with
      | goto p' =>
        simp only [advance_goto hf, Function.update_self, Option.some.injEq] at hu
        exact hu ▸ hnext q _ p' (h u q hq) hf
      | ret r => simp [advance_ret hf] at hu
      | exit e => exact h u p (by simpa [advance_exit hf] using hu)
    · exact h u p (by rwa [advance_thr_of_ne hut] at hu)

/-- What every move of one thread keeps holds as long as it moves alone. -/
theorem run_moves_inv {P : Config A V S R E → Prop} {t : ℕ}
    (hstep : ∀ s s', P s → M.step s (.move t) = some s' → P s') :
    ∀ (n : ℕ) {s s' : Config A V S R E}, P s → M.run (List.replicate n (.move t)) s = some s' → P s'
  | 0, s, s', hP, h => by cases h; exact hP
  | n + 1, s, s', hP, h => by
    obtain ⟨s₁, h1, h2⟩ := run_cons.mp h
    exact run_moves_inv hstep n (hstep s s₁ hP h1) h2

/-- What holds of every word and of every control point a call starts with, and is
kept by every access, holds of all words and threads. -/
theorem words_inv {W : A → V → Prop} {P : S → Prop} (hstart : ∀ c, P (M.start c))
    (hwrite : ∀ p m, (∀ a, W a (m a)) → P p → (M.code p).1.Writes W m)
    (hnext : ∀ p m p', (∀ a, W a (m a)) → P p → M.flow m p = .goto p' → P p') {l : Label C}
    (h : (∀ a, W a (s.mem a)) ∧ ∀ t p, s.thr t = some p → P p) (hs : M.step s l = some s') :
    (∀ a, W a (s'.mem a)) ∧ ∀ t p, s'.thr t = some p → P p := by
  obtain ⟨hm, hP⟩ := h
  cases l with
  | call t c =>
    obtain ⟨-, -, rfl⟩ := step_call.mp hs
    refine ⟨hm, fun u p hu => ?_⟩
    by_cases hut : u = t
    · subst hut
      simp only [Function.update_self, Option.some.injEq] at hu
      exact hu ▸ hstart c
    · exact hP u p (by simpa [Function.update_of_ne hut] using hu)
  | move t =>
    obtain ⟨-, q, hq, rfl⟩ := step_move.mp hs
    refine ⟨fun a => ?_, fun u p hu => ?_⟩
    · rw [advance_mem]
      exact Access.exec_words s.mem hm (hwrite q _ hm (hP t q hq)) a
    · by_cases hut : u = t
      · subst hut
        cases hf : M.flow s.mem q with
        | goto p' =>
          simp only [advance_goto hf, Function.update_self, Option.some.injEq] at hu
          exact hu ▸ hnext q _ p' hm (hP u q hq) hf
        | ret r => simp [advance_ret hf] at hu
        | exit e => exact hP u p (by simpa [advance_exit hf] using hu)
      · exact hP u p (by rwa [advance_thr_of_ne hut] at hu)

/-- A call run alone: what holds at its control points, and its access keeps,
holds as long as it runs, and what every return establishes holds once it has
returned. -/
theorem run_alone {P : S → (A → V) → Prop} {Q : R → (A → V) → Prop} {t : ℕ}
    (hgoto : ∀ p m p', P p m → M.flow m p = .goto p' → P p' ((M.code p).1.exec m).2)
    (hret : ∀ p m r, P p m → M.flow m p = .ret r → Q r ((M.code p).1.exec m).2) :
    ∀ (n : ℕ) {s s' : Config A V S R E} {p : S}, s.thr t = some p → P p s.mem →
      M.run (List.replicate n (.move t)) s = some s' → s'.halt = none →
      (∀ u ≠ t, s'.thr u = s.thr u) ∧
        ((∃ p', s'.thr t = some p' ∧ s'.log = s.log ∧ P p' s'.mem) ∨
          ∃ r, s'.thr t = none ∧ s'.log = (t, r) :: s.log ∧ Q r s'.mem)
  | 0, s, s', p, hp, hP, h, _ => by
    cases h
    exact ⟨fun _ _ => rfl, Or.inl ⟨p, hp, rfl, hP⟩⟩
  | n + 1, s, s', p, hp, hP, h, hh => by
    obtain ⟨s₁, h1, h2⟩ := run_cons.mp h
    obtain rfl := eq_advance hp h1
    have hthr : ∀ u ≠ t, (M.advance t p s).thr u = s.thr u := fun u hu => advance_thr_of_ne hu p
    cases hf : M.flow s.mem p with
    | goto p' =>
      have hs₁ := advance_goto (t := t) hf
      have hP' := hgoto p s.mem p' hP hf
      obtain ⟨h3, h4⟩ := run_alone hgoto hret n (p := p') (by rw [hs₁]; exact Function.update_self ..)
        (by rw [hs₁]; exact hP') h2 hh
      refine ⟨fun u hu => (h3 u hu).trans (hthr u hu), ?_⟩
      rwa [show (M.advance t p s).log = s.log by rw [hs₁]] at h4
    | ret r =>
      have hs₁ := advance_ret (t := t) hf
      cases n with
      | zero =>
        cases h2
        rw [hs₁]
        exact ⟨fun u hu => Function.update_of_ne hu _ _,
          Or.inr ⟨r, Function.update_self .., rfl, hret p s.mem r hP hf⟩⟩
      | succ n =>
        obtain ⟨s₂, h3, -⟩ := run_cons.mp h2
        obtain ⟨-, q, hq, -⟩ := step_move.mp h3
        rw [hs₁] at hq
        simp at hq
    | exit e =>
      have hs₁ : (M.advance t p s).halt = some e := by rw [advance_exit hf]
      cases n with
      | zero =>
        cases h2
        rw [hs₁] at hh
        cases hh
      | succ n =>
        obtain ⟨s₂, h3, -⟩ := run_cons.mp h2
        rw [halt_of_step h3] at hs₁
        cases hs₁

theorem Along.and {Q Q' : Config A V S R E → Label C → Prop} :
    ∀ {ls : List (Label C)} {s : Config A V S R E}, M.Along Q ls s → M.Along Q' ls s →
      M.Along (fun s l => Q s l ∧ Q' s l) ls s
  | [], _, _, _ => trivial
  | _ :: _, _, h, h' => fun s' h1 => ⟨⟨(h s' h1).1, (h' s' h1).1⟩, (h s' h1).2.and (h' s' h1).2⟩

theorem Along.mono {Q Q' : Config A V S R E → Label C → Prop}
    (h : ∀ s l s', M.step s l = some s' → Q s l → Q' s l) :
    ∀ {ls : List (Label C)} {s : Config A V S R E}, M.Along Q ls s → M.Along Q' ls s
  | [], _, _ => trivial
  | _ :: _, s, hQ => fun s' h1 => ⟨h s _ s' h1 (hQ s' h1).1, mono h (hQ s' h1).2⟩

end Machine

end Interleave
