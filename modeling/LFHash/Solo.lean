/-
# Code that runs alone

While no other thread moves, code is deterministic: from a control point and a memory it
passes the control points of one path, and if it ends, it ends in one result or exit. A
fragment that runs inside its caller takes the same path there, and a machine whose other
threads are idle runs the path as a schedule of one thread.

Key definitions: `Passes`, `Ends`, `solo`.
Key theorems: `Ends.unique`, `Passes.ends_iff`, `Passes.inside`, `Ends.inside_exit`,
`Ends.inside_ret`, `Ends.inside_goto`, `Passes.inv`, `Ends.inv`, `ends_iff_solo`,
`Ends.run_exit`, `Ends.run_ret`.
-/
import LFHash.Interleave

namespace Interleave

variable {A V S R E : Type} [DecidableEq A] [DecidableEq V]

/-- Where a control point leads in the memory `m`. -/
abbrev Point.flow (x : Point A V S R E) (m : A → V) : Flow S R E := x.2 (x.1.exec m).1

/-- The memory a control point leaves. -/
abbrev Point.mem (x : Point A V S R E) (m : A → V) : A → V := (x.1.exec m).2

/-- Alone at `p` with the memory `m`, the code comes to `q` with the memory `m'`. -/
inductive Passes (c : S → Point A V S R E) : S → (A → V) → S → (A → V) → Prop
  | refl (p : S) (m : A → V) : Passes c p m p m
  | step {p p' q : S} {m m' : A → V} : (c p).flow m = .goto p' →
      Passes c p' ((c p).mem m) q m' → Passes c p m q m'

/-- Alone at `p` with the memory `m`, the code ends: with a result, or with an exit. -/
inductive Ends (c : S → Point A V S R E) : S → (A → V) → Flow S R E → (A → V) → Prop
  | ret {p : S} {m : A → V} {r : R} : (c p).flow m = .ret r → Ends c p m (.ret r) ((c p).mem m)
  | exit {p : S} {m : A → V} {e : E} : (c p).flow m = .exit e →
      Ends c p m (.exit e) ((c p).mem m)
  | goto {p p' : S} {m m' : A → V} {f : Flow S R E} : (c p).flow m = .goto p' →
      Ends c p' ((c p).mem m) f m' → Ends c p m f m'

/-- At most `n` accesses from `p` on. -/
def solo (c : S → Point A V S R E) : ℕ → S → (A → V) → Option (Flow S R E × (A → V))
  | 0, _, _ => none
  | n + 1, p, m =>
    match (c p).flow m with
    | .goto p' => solo c n p' ((c p).mem m)
    | .ret r => some (.ret r, (c p).mem m)
    | .exit e => some (.exit e, (c p).mem m)

variable {c : S → Point A V S R E} {p q : S} {m m' m'' : A → V} {f g : Flow S R E}

theorem Passes.cons {p' : S} {m₁ : A → V} (hf : (c p).flow m = .goto p') (hm : (c p).mem m = m₁)
    (h : Passes c p' m₁ q m') : Passes c p m q m' := .step hf (hm ▸ h)

theorem Ends.cons {p' : S} {m₁ : A → V} (hf : (c p).flow m = .goto p') (hm : (c p).mem m = m₁)
    (h : Ends c p' m₁ f m') : Ends c p m f m' := .goto hf (hm ▸ h)

theorem Ends.of_ret {r : R} (hf : (c p).flow m = .ret r) (hm : (c p).mem m = m') :
    Ends c p m (.ret r) m' := hm ▸ .ret hf

theorem Ends.of_exit {e : E} (hf : (c p).flow m = .exit e) (hm : (c p).mem m = m') :
    Ends c p m (.exit e) m' := hm ▸ .exit hf

theorem Passes.trans {o : S} (h : Passes c p m q m') (h' : Passes c q m' o m'') :
    Passes c p m o m'' := by
  induction h with
  | refl => exact h'
  | step hf _ ih => exact .step hf (ih h')

theorem Passes.single (hf : (c p).flow m = .goto q) : Passes c p m q ((c p).mem m) :=
  .step hf (.refl _ _)

/-- A path leads on to the same end. -/
theorem Passes.ends (h : Passes c p m q m') (hq : Ends c q m' f m'') : Ends c p m f m'' := by
  induction h with
  | refl => exact hq
  | step hf _ ih => exact .goto hf (ih hq)

theorem Ends.of_goto {p' : S} (hf : (c p).flow m = .goto p') (h : Ends c p m f m') :
    Ends c p' ((c p).mem m) f m' := by
  cases h with
  | ret h' | exit h' =>
    rw [hf] at h'
    cases h'
  | goto h' he =>
    rw [hf] at h'
    cases h'
    exact he

theorem Passes.ends_iff (h : Passes c p m q m') : Ends c p m f m'' ↔ Ends c q m' f m'' := by
  refine ⟨fun he => ?_, h.ends⟩
  induction h with
  | refl => exact he
  | step hf _ ih => exact ih (he.of_goto hf)

/-- There is only one end. -/
theorem Ends.unique (h : Ends c p m f m') (h' : Ends c p m g m'') : f = g ∧ m' = m'' := by
  induction h with
  | ret hf =>
    cases h' with
    | ret hg =>
      rw [hf] at hg
      cases hg
      exact ⟨rfl, rfl⟩
    | exit hg | goto hg =>
      rw [hf] at hg
      cases hg
  | exit hf =>
    cases h' with
    | exit hg =>
      rw [hf] at hg
      cases hg
      exact ⟨rfl, rfl⟩
    | ret hg | goto hg =>
      rw [hf] at hg
      cases hg
  | goto hf _ ih => exact ih (h'.of_goto hf)

/-! ### What a path keeps -/

theorem Passes.inv {P : S → (A → V) → Prop}
    (hstep : ∀ p m p', P p m → (c p).flow m = .goto p' → P p' ((c p).mem m))
    (h : Passes c p m q m') (hp : P p m) : P q m' := by
  induction h with
  | refl => exact hp
  | step hf _ ih => exact ih (hstep _ _ _ hp hf)

/-- What every access that goes on keeps, and every access that ends establishes. -/
theorem Ends.inv {P : S → (A → V) → Prop} {Q : Flow S R E → (A → V) → Prop}
    (hstep : ∀ p m p', P p m → (c p).flow m = .goto p' → P p' ((c p).mem m))
    (hret : ∀ p m r, P p m → (c p).flow m = .ret r → Q (.ret r) ((c p).mem m))
    (hexit : ∀ p m e, P p m → (c p).flow m = .exit e → Q (.exit e) ((c p).mem m))
    (h : Ends c p m f m') (hp : P p m) : Q f m' := by
  induction h with
  | ret hf => exact hret _ _ _ hp hf
  | exit hf => exact hexit _ _ _ hp hf
  | goto hf _ ih => exact ih (hstep _ _ _ hp hf)

/-! ### Fragments -/

variable {S' R' : Type} {c' : S' → Point A V S' R' E} {i : S → S'} {k : R → Flow S' R' E}

theorem Point.inside_mem (x : Point A V S R E) (i : S → S') (k : R → Flow S' R' E) :
    (x.inside i k).mem m = x.mem m := rfl

/-- A fragment takes its path inside the caller. -/
theorem Passes.inside (hc : ∀ p, c' (i p) = (c p).inside i k) (h : Passes c p m q m') :
    Passes c' (i p) m (i q) m' := by
  induction h with
  | refl => exact .refl _ _
  | @step p p' q m m' hf _ ih =>
    have hmem : (c' (i p)).mem m = (c p).mem m := by rw [hc, Point.inside_mem]
    refine .cons ?_ hmem ih
    simp only [hc, Point.flow, Point.inside_fst, Point.inside_snd] at hf ⊢
    rw [hf, Flow.bind_goto]

theorem Ends.inside_exit {e : E} (hc : ∀ p, c' (i p) = (c p).inside i k)
    (h : Ends c p m (.exit e) m') : Ends c' (i p) m (.exit e) m' := by
  generalize hx : (.exit e : Flow S R E) = x at h
  induction h with
  | ret => cases hx
  | @exit p m e' hf =>
    cases hx
    have hmem : (c' (i p)).mem m = (c p).mem m := by rw [hc, Point.inside_mem]
    rw [← hmem]
    refine .exit ?_
    simp only [hc, Point.flow, Point.inside_fst, Point.inside_snd] at hf ⊢
    rw [hf, Flow.bind_exit]
  | goto hf _ ih => exact (Passes.inside hc (.single hf)).ends (ih hx)

/-- A fragment that returns gives its caller a result to return. -/
theorem Ends.inside_ret {r : R} {r' : R'} (hc : ∀ p, c' (i p) = (c p).inside i k)
    (h : Ends c p m (.ret r) m') (hk : k r = .ret r') : Ends c' (i p) m (.ret r') m' := by
  generalize hx : (.ret r : Flow S R E) = x at h
  induction h with
  | exit => cases hx
  | @ret p m r₁ hf =>
    cases hx
    have hmem : (c' (i p)).mem m = (c p).mem m := by rw [hc, Point.inside_mem]
    refine .of_ret ?_ hmem
    simp only [hc, Point.flow, Point.inside_fst, Point.inside_snd] at hf ⊢
    rw [hf, Flow.bind_ret, hk]
  | goto hf _ ih => exact (Passes.inside hc (.single hf)).ends (ih hx)

/-- A fragment that returns lets its caller go on. -/
theorem Ends.inside_goto {r : R} {q : S'} (hc : ∀ p, c' (i p) = (c p).inside i k)
    (h : Ends c p m (.ret r) m') (hk : k r = .goto q) : Passes c' (i p) m q m' := by
  generalize hx : (.ret r : Flow S R E) = x at h
  induction h with
  | exit => cases hx
  | @ret p m r₁ hf =>
    cases hx
    have hmem : (c' (i p)).mem m = (c p).mem m := by rw [hc, Point.inside_mem]
    refine .cons ?_ hmem (.refl _ _)
    simp only [hc, Point.flow, Point.inside_fst, Point.inside_snd] at hf ⊢
    rw [hf, Flow.bind_ret, hk]
  | goto hf _ ih => exact (Passes.inside hc (.single hf)).trans (ih hx)

/-! ### Counting the accesses -/

theorem ends_iff_solo : Ends c p m f m' ↔ ∃ n, solo c n p m = some (f, m') := by
  constructor
  · intro h
    induction h with
    | ret hf | exit hf => exact ⟨1, by simp [solo, hf]⟩
    | goto hf _ ih =>
      obtain ⟨n, hn⟩ := ih
      exact ⟨n + 1, by simp only [solo, hf, hn]⟩
  · rintro ⟨n, hn⟩
    induction n generalizing p m with
    | zero => cases hn
    | succ n ih =>
      rw [solo] at hn
      cases hf : (c p).flow m with
      | goto p' =>
        rw [hf] at hn
        exact .goto hf (ih hn)
      | ret r =>
        rw [hf] at hn
        cases hn
        exact .ret hf
      | exit e =>
        rw [hf] at hn
        cases hn
        exact .exit hf

/-! ### A machine with one thread that moves -/

variable {C : Type} {M : Machine A V C S R E} {s : Config A V S R E} {t : ℕ}

theorem Ends.run_exit {e : E} (h : Ends M.code p m (.exit e) m') (hm : s.mem = m)
    (hp : s.thr t = some p) (hh : s.halt = none) : ∃ n s',
      M.run (List.replicate n (.move t)) s = some s' ∧ s'.mem = m' ∧ s'.halt = some e := by
  generalize hx : (.exit e : Flow S R E) = x at h
  induction h generalizing s with
  | ret => cases hx
  | @exit p m e' hf =>
    cases hx
    subst hm
    refine ⟨1, _, Machine.run_cons.mpr ⟨_, Machine.step_move.mpr ⟨hh, p, hp, rfl⟩, rfl⟩, ?_⟩
    rw [Machine.advance_exit hf]
    exact ⟨rfl, rfl⟩
  | @goto p p' m m' f hf _ ih =>
    subst hm
    have hadv := Machine.advance_goto (s := s) (t := t) (M := M) hf
    obtain ⟨n, s', hn, hrest⟩ := ih (s := M.advance t p s) (by rw [hadv])
      (Machine.advance_thr_goto hf) (by rw [hadv]; exact hh) hx
    exact ⟨n + 1, s', Machine.run_cons.mpr ⟨_, Machine.step_move.mpr ⟨hh, p, hp, rfl⟩, hn⟩, hrest⟩

theorem Ends.run_ret {r : R} (h : Ends M.code p m (.ret r) m') (hm : s.mem = m)
    (hp : s.thr t = some p) (hh : s.halt = none) : ∃ n,
      M.run (List.replicate n (.move t)) s = some { s with
        mem := m'
        thr := Function.update s.thr t none
        log := (t, r) :: s.log } := by
  generalize hx : (.ret r : Flow S R E) = x at h
  induction h generalizing s with
  | exit => cases hx
  | @ret p m r₁ hf =>
    cases hx
    subst hm
    refine ⟨1, Machine.run_cons.mpr ⟨_, Machine.step_move.mpr ⟨hh, p, hp, rfl⟩, ?_⟩⟩
    rw [Machine.advance_ret hf]
    rfl
  | @goto p p' m m' f hf _ ih =>
    subst hm
    have hadv := Machine.advance_goto (s := s) (t := t) (M := M) hf
    obtain ⟨n, hn⟩ := ih (s := M.advance t p s) (by rw [hadv])
      (Machine.advance_thr_goto hf) (by rw [hadv]; exact hh) hx
    refine ⟨n + 1, Machine.run_cons.mpr ⟨_, Machine.step_move.mpr ⟨hh, p, hp, rfl⟩, ?_⟩⟩
    rw [hadv] at hn ⊢
    simpa only [Function.update_idem] using hn

end Interleave
