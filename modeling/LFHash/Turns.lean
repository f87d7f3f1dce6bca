/-
# Calls one after another

One thread runs its calls one after another, each from its start to its end. When a
function says what a call comes to in a memory that stands for an abstract state, a whole
run of the thread is the fold of that function over the calls that begin in it: the memory
it leaves, the results it returned and the exit it took are those of the fold.

Key definitions: `begun`, `turns`, `tally`, `Serial`, `Serial.Stands`.
Key theorems: `turns_inv`, `turns_balance`, `Serial.Stands.run`, `Serial.Stands.of_idle`,
`Serial.Stands.of_exit`, `Serial.exists_run`.
-/
import LFHash.Solo

namespace Interleave

variable {A V C S R E T : Type}

/-- The calls that begin in a schedule, in order. -/
def begun (ls : List (Label C)) : List C :=
  ls.filterMap fun
    | .call _ c => some c
    | .move _ => none

theorem begun_append (ls ls' : List (Label C)) : begun (ls ++ ls') = begun ls ++ begun ls' :=
  List.filterMap_append

/-- Moves begin no calls. -/
theorem begun_moves (t n : ℕ) : begun (List.replicate n (.move t : Label C)) = [] := by
  refine List.filterMap_eq_nil_iff.mpr fun l hl => ?_
  rw [List.eq_of_mem_replicate hl]

/-- A call of thread `t` after what has been returned before it. -/
def turn (effect : T → C → Except E (T × R)) (t : ℕ) (x : T × List (ℕ × R)) (c : C) :
    Except E (T × List (ℕ × R)) :=
  (effect x.1 c).map fun y => (y.1, (t, y.2) :: x.2)

/-- The calls `cs` of thread `t`: the state they leave and their results (latest first), or the
first exit. -/
def turns (effect : T → C → Except E (T × R)) (t : ℕ) (x : T × List (ℕ × R)) (cs : List C) :
    Except E (T × List (ℕ × R)) :=
  cs.foldlM (turn effect t) x

section Turns

variable {effect : T → C → Except E (T × R)} {t : ℕ} {x y : T × List (ℕ × R)} {z : T} {c : C}
  {cs cs' : List C} {r : R} {e : E}

@[simp] theorem turns_nil : turns effect t x [] = .ok x := rfl

theorem turns_cons_ok (h : effect x.1 c = .ok (z, r)) :
    turns effect t x (c :: cs) = turns effect t (z, (t, r) :: x.2) cs := by
  rw [turns, List.foldlM_cons, turn, h]
  rfl

theorem turns_cons_error (h : effect x.1 c = .error e) :
    turns effect t x (c :: cs) = .error e := by
  rw [turns, List.foldlM_cons, turn, h]
  rfl

theorem effect_of_turns_error (h : turns effect t x [c] = .error e) : effect x.1 c = .error e := by
  cases he : effect x.1 c with
  | error e' =>
    rw [turns_cons_error he] at h
    cases h
    rfl
  | ok y =>
    rw [turns_cons_ok he] at h
    cases h

theorem turns_append_ok (h : turns effect t x cs = .ok y) :
    turns effect t x (cs ++ cs') = turns effect t y cs' := by
  rw [turns, List.foldlM_append]
  exact congrArg (· >>= fun y => turns effect t y cs') h

/-- What every call keeps, with its result, the calls keep. -/
theorem turns_inv {I : T → List (ℕ × R) → Prop} {Q : C → Prop}
    (hstep : ∀ x log c y r, Q c → I x log → effect x c = .ok (y, r) → I y ((t, r) :: log)) :
    ∀ {cs : List C} {x y : T} {log log' : List (ℕ × R)}, (∀ c ∈ cs, Q c) → I x log →
      turns effect t (x, log) cs = .ok (y, log') → I y log'
  | [], x, y, log, log', _, hI, h => by
    cases h
    exact hI
  | c :: cs, x, y, log, log', hQ, hI, h => by
    cases he : effect x c with
    | error e =>
      have hcons : turns effect t (x, log) (c :: cs) = .error e := turns_cons_error he
      rw [hcons] at h
      cases h
    | ok z =>
      obtain ⟨z, r⟩ := z
      have hcons : turns effect t (x, log) (c :: cs) = turns effect t (z, (t, r) :: log) cs :=
        turns_cons_ok he
      rw [hcons] at h
      exact turns_inv hstep (fun c' hc' => hQ c' (List.mem_cons_of_mem c hc'))
        (hstep x log c z r (hQ c List.mem_cons_self) hI he) h

/-- The results are those of the calls, latest first. -/
theorem turns_calls {g : R → C} (hcall : ∀ x c y r, effect x c = .ok (y, r) → g r = c) :
    ∀ {cs : List C} {x y : T} {log log' : List (ℕ × R)},
      turns effect t (x, log) cs = .ok (y, log') →
      log'.map (fun e => g e.2) = cs.reverse ++ log.map fun e => g e.2
  | [], x, y, log, log', h => by
    cases h
    rfl
  | c :: cs, x, y, log, log', h => by
    cases he : effect x c with
    | error e =>
      have hcons : turns effect t (x, log) (c :: cs) = .error e := turns_cons_error he
      rw [hcons] at h
      cases h
    | ok z =>
      obtain ⟨z, r⟩ := z
      have hcons : turns effect t (x, log) (c :: cs) = turns effect t (z, (t, r) :: log) cs :=
        turns_cons_ok he
      rw [hcons] at h
      rw [turns_calls hcall h, List.map_cons, hcall x c z r he, List.reverse_cons,
        List.append_assoc]
      rfl

/-- What `f` counts over the calls `cs`, each in the state that it begins in. -/
def tally (effect : T → C → Except E (T × R)) (f : T → C → ℕ) : T → List C → ℕ
  | _, [] => 0
  | x, c :: cs =>
    f x c +
      match effect x c with
      | .error _ => 0
      | .ok y => tally effect f y.1 cs

theorem tally_cons_ok {f : T → C → ℕ} {x : T} (h : effect x c = .ok (z, r)) :
    tally effect f x (c :: cs) = f x c + tally effect f z cs := by
  rw [tally, h]

/-- A measure that every call moves by what it gains and loses is moved by what all of them
gain and lose. -/
theorem turns_balance {μ : T → ℕ} {gain loss : T → C → ℕ} {Q : C → Prop}
    (hstep : ∀ x c y r, Q c → effect x c = .ok (y, r) → μ y + loss x c = μ x + gain x c) :
    ∀ {cs : List C} {x y : T} {log log' : List (ℕ × R)}, (∀ c ∈ cs, Q c) →
      turns effect t (x, log) cs = .ok (y, log') →
      μ y + tally effect loss x cs = μ x + tally effect gain x cs
  | [], x, y, log, log', _, h => by
    cases h
    rfl
  | c :: cs, x, y, log, log', hQ, h => by
    cases he : effect x c with
    | error e =>
      have hcons : turns effect t (x, log) (c :: cs) = .error e := turns_cons_error he
      rw [hcons] at h
      cases h
    | ok z =>
      obtain ⟨z, r⟩ := z
      have hcons : turns effect t (x, log) (c :: cs) = turns effect t (z, (t, r) :: log) cs :=
        turns_cons_ok he
      rw [hcons] at h
      have hc := hstep x c z r (hQ c List.mem_cons_self) he
      have hrest := turns_balance hstep (fun c' hc' => hQ c' (List.mem_cons_of_mem c hc')) h
      rw [tally_cons_ok he, tally_cons_ok he]
      omega

end Turns

variable [DecidableEq A] [DecidableEq V]

/-- The states that memories of the machine `M` stand for, and the effect that each of its
calls has, alone, on a memory that stands for one. -/
structure Serial (M : Machine A V C S R E) (T : Type) where
  mem : T → A → V
  effect : T → C → Except E (T × R)
  returns : ∀ {x c y r}, effect x c = .ok (y, r) →
    Ends M.code (M.start c) (mem x) (.ret r) (mem y)
  exits : ∀ {x c e}, effect x c = .error e → ∃ m', Ends M.code (M.start c) (mem x) (.exit e) m'

namespace Serial

variable {M : Machine A V C S R E} (F : Serial M T) {t : ℕ} {x y : T × List (ℕ × R)}
  {s s' : Config A V S R E} {cs : List C}

/-- Where thread `t` stands when the calls `cs` have begun, from `x` on: behind the last one,
inside it, or out of the process. -/
inductive Stands (t : ℕ) (x : T × List (ℕ × R)) (s : Config A V S R E) : List C → Prop
  | idle {cs : List C} {y : T} : turns F.effect t x cs = .ok (y, s.log) → s.mem = F.mem y →
      s.thr t = none → s.halt = none → Stands t x s cs
  | inside {cs : List C} {c : C} {y : T} {p : S} : turns F.effect t x cs = .ok (y, s.log) →
      Passes M.code (M.start c) (F.mem y) p s.mem → s.thr t = some p → s.halt = none →
      Stands t x s (cs ++ [c])
  | exited {cs : List C} {c : C} {y : T} {e : E} : turns F.effect t x cs = .ok (y, s.log) →
      F.effect y c = .error e → s.halt = some e → Stands t x s (cs ++ [c])

variable {F}

theorem Stands.call {c : C} (h : F.Stands t x s cs) (hs : M.step s (.call t c) = some s') :
    F.Stands t x s' (cs ++ [c]) := by
  obtain ⟨hh, ht, rfl⟩ := Machine.step_call.mp hs
  cases h with
  | @idle cs y hf hm _ _ =>
    refine .inside (p := M.start c) hf ?_ (Function.update_self ..) hh
    rw [← hm]
    exact .refl _ _
  | inside _ _ hp _ =>
    rw [ht] at hp
    cases hp
  | exited _ _ he =>
    rw [hh] at he
    cases he

/-- A call that ends, ends as its effect says. -/
theorem effect_of_ends {c : C} {z : T} {f : Flow S R E} {m' : A → V}
    (h : Ends M.code (M.start c) (F.mem z) f m') :
    (∃ z' r, F.effect z c = .ok (z', r) ∧ f = .ret r ∧ m' = F.mem z') ∨
      ∃ e, F.effect z c = .error e ∧ f = .exit e := by
  cases hx : F.effect z c with
  | ok x' =>
    obtain ⟨z', r⟩ := x'
    obtain ⟨hf, hm⟩ := h.unique (F.returns hx)
    exact Or.inl ⟨z', r, rfl, hf, hm⟩
  | error e =>
    obtain ⟨m₁, hend⟩ := F.exits hx
    exact Or.inr ⟨e, rfl, (h.unique hend).1⟩

theorem Stands.move (h : F.Stands t x s cs) (hs : M.step s (.move t) = some s') :
    F.Stands t x s' cs := by
  obtain ⟨hh, p, hp, rfl⟩ := Machine.step_move.mp hs
  cases h with
  | idle _ _ ht _ =>
    rw [hp] at ht
    cases ht
  | exited _ _ he =>
    rw [hh] at he
    cases he
  | @inside cs c y q hf hpass hq _ =>
    obtain rfl : p = q := by
      rw [hp] at hq
      exact Option.some.inj hq
    cases hfl : M.flow s.mem p with
    | goto p' =>
      have hpass' : Passes M.code (M.start c) (F.mem y) p' (M.advance t p s).mem := by
        rw [Machine.advance_mem]
        exact hpass.trans (.single hfl)
      have hadv := Machine.advance_goto (t := t) hfl
      refine .inside ?_ hpass' (Machine.advance_thr_goto hfl) ?_
      · rwa [hadv]
      · rwa [hadv]
    | ret r =>
      have hadv := Machine.advance_ret (t := t) hfl
      rcases effect_of_ends (hpass.ends (.ret hfl)) with ⟨z, r', he, hr, hm⟩ | ⟨e, -, hr⟩
      · cases hr
        rw [hadv]
        refine .idle (y := z) ?_ hm (Function.update_self ..) hh
        rw [turns_append_ok hf, turns_cons_ok he]
        rfl
      · cases hr
    | exit e =>
      have hadv := Machine.advance_exit (t := t) hfl
      rcases effect_of_ends (hpass.ends (.exit hfl)) with ⟨z, r', -, hr, -⟩ | ⟨e', he, hr⟩
      · cases hr
      · cases hr
        rw [hadv]
        exact .exited hf he rfl

theorem Stands.step {l : Label C} (h : F.Stands t x s cs) (hl : l.thread = t)
    (hs : M.step s l = some s') : F.Stands t x s' (cs ++ begun [l]) := by
  cases l with
  | call u c =>
    obtain rfl : u = t := hl
    exact h.call hs
  | move u =>
    obtain rfl : u = t := hl
    have hnil : cs ++ begun [(.move u : Label C)] = cs := List.append_nil cs
    rw [hnil]
    exact h.move hs

/-- A run of one thread. -/
theorem Stands.run : ∀ {ls : List (Label C)} {s : Config A V S R E} {cs : List C},
    F.Stands t x s cs → (∀ l ∈ ls, l.thread = t) → M.run ls s = some s' →
    F.Stands t x s' (cs ++ begun ls)
  | [], s, cs, h, _, hr => by
    cases hr
    have hnil : cs ++ begun ([] : List (Label C)) = cs := List.append_nil cs
    rwa [hnil]
  | l :: ls, s, cs, h, hl, hr => by
    obtain ⟨s₁, h1, h2⟩ := Machine.run_cons.mp hr
    have hrest := (h.step (hl l List.mem_cons_self) h1).run
      (fun l' hl' => hl l' (List.mem_cons_of_mem l hl')) h2
    have hcons : cs ++ begun (l :: ls) = cs ++ begun [l] ++ begun ls := by
      rw [List.append_assoc, ← begun_append]
      rfl
    rwa [hcons]

/-- An idle thread has left what its calls come to. -/
theorem Stands.of_idle (h : F.Stands t x s cs) (ht : s.thr t = none) (hh : s.halt = none) :
    ∃ y, turns F.effect t x cs = .ok (y, s.log) ∧ s.mem = F.mem y := by
  cases h with
  | idle hf hm _ _ => exact ⟨_, hf, hm⟩
  | inside _ _ hp _ =>
    rw [ht] at hp
    cases hp
  | exited _ _ he =>
    rw [hh] at he
    cases he

/-- A process has exited where the calls come to that exit. -/
theorem Stands.of_exit {e : E} (h : F.Stands t x s cs) (hh : s.halt = some e) :
    turns F.effect t x cs = .error e := by
  cases h with
  | idle _ _ _ hn | inside _ _ _ hn =>
    rw [hh] at hn
    cases hn
  | @exited cs c y e' hf he hn =>
    obtain rfl : e = e' := by
      rw [hh] at hn
      exact Option.some.inj hn
    rw [turns_append_ok hf, turns_cons_error he]

/-- What has been returned is what the calls that have ended come to. -/
theorem Stands.answered (h : F.Stands t x s cs) :
    ∃ cs' y, cs' <+: cs ∧ turns F.effect t x cs' = .ok (y, s.log) := by
  cases h with
  | idle hf _ _ _ => exact ⟨_, _, List.prefix_refl _, hf⟩
  | inside hf _ _ _ => exact ⟨_, _, List.prefix_append _ _, hf⟩
  | exited hf _ _ => exact ⟨_, _, List.prefix_append _ _, hf⟩

/-! ### Every list of calls has its run -/

variable (F)

/-- What a run of the calls `cs` shows: where they come to an end, all of them have begun and
the thread is idle; where they come to an exit, the process has exited. -/
def Shows (t : ℕ) (s : Config A V S R E) (ls : List (Label C)) (cs : List C) :
    Except E (T × List (ℕ × R)) → Prop
  | .ok y => begun ls = cs ∧ s.thr t = none ∧ s.halt = none ∧ s.mem = F.mem y.1 ∧ s.log = y.2
  | .error e => begun ls <+: cs ∧ s.halt = some e

variable {F}

theorem Shows.cons {c : C} {n : ℕ} {ls : List (Label C)} {v : Except E (T × List (ℕ × R))}
    (h : F.Shows t s ls cs v) :
    F.Shows t s (.call t c :: (List.replicate n (.move t) ++ ls)) (c :: cs) v := by
  have hb : begun (.call t c :: (List.replicate n (.move t) ++ ls)) = c :: begun ls := by
    have hmoves : begun (List.replicate n (.move t) ++ ls) = begun ls := by
      rw [begun_append, begun_moves, List.nil_append]
    rw [← hmoves]
    rfl
  cases v with
  | ok y =>
    obtain ⟨h1, h2⟩ := h
    exact ⟨by rw [hb, h1], h2⟩
  | error e =>
    obtain ⟨h1, h2⟩ := h
    refine ⟨?_, h2⟩
    rw [hb]
    exact List.cons_prefix_cons.mpr ⟨rfl, h1⟩

/-- From an idle thread on, the calls `cs` have a run. -/
theorem exists_run (F : Serial M T) (t : ℕ) : ∀ (cs : List C) (x : T) (s : Config A V S R E),
    s.mem = F.mem x → s.thr t = none → s.halt = none → ∃ ls s',
      (∀ l ∈ ls, l.thread = t) ∧ M.run ls s = some s' ∧
        F.Shows t s' ls cs (turns F.effect t (x, s.log) cs)
  | [], x, s, hm, ht, hh =>
    ⟨[], s, fun _ hl => absurd hl List.not_mem_nil, rfl, rfl, ht, hh, hm, rfl⟩
  | c :: cs, x, s, hm, ht, hh => by
    let s₁ : Config A V S R E := { s with thr := Function.update s.thr t (some (M.start c)) }
    have h1 : M.step s (.call t c) = some s₁ := Machine.step_call.mpr ⟨hh, ht, rfl⟩
    have hp : s₁.thr t = some (M.start c) := Function.update_self ..
    have hthread : ∀ n, ∀ l ∈ List.replicate n (.move t : Label C), l.thread = t := by
      intro n l hl
      rw [List.eq_of_mem_replicate hl]
      rfl
    cases he : F.effect x c with
    | ok z =>
      obtain ⟨y, r⟩ := z
      obtain ⟨n, hn⟩ := (F.returns he).run_ret (s := s₁) hm hp hh
      have hidle : (Function.update s₁.thr t none : ℕ → Option S) t = none :=
        Function.update_self ..
      let s₂ : Config A V S R E := { s₁ with
        mem := F.mem y
        thr := Function.update s₁.thr t none
        log := (t, r) :: s₁.log }
      obtain ⟨ls, s', hl, hr, hshow⟩ := exists_run F t cs y s₂ rfl hidle hh
      refine ⟨.call t c :: (List.replicate n (.move t) ++ ls), s', ?_, ?_, ?_⟩
      · simp only [List.mem_cons, List.mem_append]
        rintro l (rfl | hl' | hl')
        · rfl
        · exact hthread n l hl'
        · exact hl l hl'
      · refine Machine.run_cons.mpr ⟨s₁, h1, ?_⟩
        rw [Machine.run_append, hn]
        exact hr
      · have hcons : turns F.effect t (x, s.log) (c :: cs) =
            turns F.effect t (y, (t, r) :: s.log) cs := turns_cons_ok he
        rw [hcons]
        exact hshow.cons
    | error e =>
      obtain ⟨m', hend⟩ := F.exits he
      obtain ⟨n, s', hn, -, he'⟩ := hend.run_exit (s := s₁) hm hp hh
      refine ⟨.call t c :: (List.replicate n (.move t) ++ []), s', ?_, ?_, ?_⟩
      · rw [List.append_nil]
        simp only [List.mem_cons]
        rintro l (rfl | hl')
        · rfl
        · exact hthread n l hl'
      · rw [List.append_nil]
        exact Machine.run_cons.mpr ⟨s₁, h1, hn⟩
      · have hcons : turns F.effect t (x, s.log) (c :: cs) = .error e := turns_cons_error he
        rw [hcons]
        have hnil : F.Shows t s' [] cs (.error e) := ⟨List.nil_prefix, he'⟩
        exact hnil.cons

end Serial

end Interleave
