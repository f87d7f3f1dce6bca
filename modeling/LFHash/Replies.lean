/-
# Code under any replies

All that a call sees of the memory, and of what other threads do to it, are the replies to
its accesses. `drive` runs code on a list of replies and makes no assumption on them, so
what holds of every drive holds in every run, of any number of threads, also where
compare-exchanges fail for no reason (`Machine.driven_of_weakRun`).

Key definitions: `drive`, `path`.
Key theorems: `path_inv`, `drive_ends`, `drive_inside`, `Machine.driven_of_weakRun`.
-/
import LFHash.Weak

namespace Interleave

variable {A V S R E : Type}

/-- Where code goes on the replies `rs`; it takes no more of them once it has ended. -/
def drive (c : S → Point A V S R E) : List (Reply V) → S → Flow S R E
  | [], p => .goto p
  | r :: rs, p =>
    match (c p).2 r with
    | .goto p' => drive c rs p'
    | .ret x => .ret x
    | .exit e => .exit e

/-- The control points it comes to after `p`. -/
def path (c : S → Point A V S R E) : List (Reply V) → S → List S
  | [], _ => []
  | r :: rs, p =>
    match (c p).2 r with
    | .goto p' => p' :: path c rs p'
    | .ret _ => []
    | .exit _ => []

variable {c : S → Point A V S R E} {p p' q : S} {r : Reply V} {rs : List (Reply V)}

theorem drive_goto (h : (c p).2 r = .goto p') : drive c (r :: rs) p = drive c rs p' := by
  simp only [drive, h]

theorem path_goto (h : (c p).2 r = .goto p') : path c (r :: rs) p = p' :: path c rs p' := by
  simp only [path, h]

theorem path_of_ends (h : ∀ p', (c p).2 r ≠ .goto p') : path c (r :: rs) p = [] := by
  cases hf : (c p).2 r with
  | goto p' => exact absurd hf (h p')
  | ret x | exit e => simp only [path, hf]

theorem drive_snoc : ∀ {rs : List (Reply V)} {p : S}, drive c rs p = .goto q →
    drive c (rs ++ [r]) p = (c q).2 r
  | [], p, h => by
    cases h
    cases hf : (c q).2 r <;> simp [drive, hf]
  | r' :: rs, p, h => by
    cases hf : (c p).2 r' with
    | goto p' =>
      rw [drive_goto hf] at h
      rw [List.cons_append, drive_goto hf, drive_snoc h]
    | ret x | exit e => simp [drive, hf] at h

/-- What every reply keeps, and what it establishes, holds all along the path. -/
theorem path_inv {P Q : S → Prop}
    (hnext : ∀ p r p', P p → (c p).2 r = .goto p' → P p' ∧ Q p') :
    ∀ {rs : List (Reply V)} {p : S}, P p → ∀ q ∈ path c rs p, Q q
  | [], p, _, q, h => by cases h
  | r :: rs, p, hp, q, h => by
    cases hf : (c p).2 r with
    | goto p' =>
      rw [path_goto hf] at h
      obtain ⟨hp', hq'⟩ := hnext p r p' hp hf
      rcases List.mem_cons.mp h with rfl | h
      · exact hq'
      · exact path_inv hnext hp' q h
    | ret x | exit e => simp [path, hf] at h

/-- Code that has ended was at a control point of its path, and a reply led it out. -/
theorem drive_ends {P : S → Prop} (hnext : ∀ p r p', P p → (c p).2 r = .goto p' → P p')
    {f : Flow S R E} (hf : ∀ q, f ≠ .goto q) : ∀ {rs : List (Reply V)} {p : S}, P p →
    drive c rs p = f → ∃ q r, P q ∧ (c q).2 r = f
  | [], p, _, h => absurd h.symm (hf p)
  | r :: rs, p, hp, h => by
    cases hr : (c p).2 r with
    | goto p' =>
      rw [drive_goto hr] at h
      exact drive_ends hnext hf (hnext p r p' hp hr) h
    | ret x | exit e =>
      simp only [drive, hr] at h
      exact ⟨p, r, hp, hr.trans h⟩

theorem drive_inside {S' R' : Type} {c' : S' → Point A V S' R' E} {i : S → S'} {k : R → R'}
    (hc : ∀ p, c' (i p) = (c p).inside i fun x => .ret (k x)) :
    ∀ (rs : List (Reply V)) (p : S), drive c' rs (i p) = (drive c rs p).bind i fun x => .ret (k x)
  | [], p => rfl
  | r :: rs, p => by
    cases hf : (c p).2 r with
    | goto p' =>
      have hf' : (c' (i p)).2 r = .goto (i p') := by
        rw [hc, Point.inside_snd, hf, Flow.bind_goto]
      rw [drive_goto hf, drive_goto hf', drive_inside hc rs p']
    | ret x | exit e => simp [drive, hc, hf]

/-- Inside a fragment the caller stands where the fragment does. -/
theorem drive_inside_goto {S' R' : Type} {c' : S' → Point A V S' R' E} {i : S → S'} {k : R → R'}
    (hc : ∀ p, c' (i p) = (c p).inside i fun x => .ret (k x)) {q' : S'}
    (h : drive c' rs (i p) = .goto q') : ∃ q, drive c rs p = .goto q ∧ q' = i q := by
  rw [drive_inside hc] at h
  rcases Flow.bind_eq_goto.mp h with ⟨q, hq, he⟩ | ⟨b, -, hb⟩
  · exact ⟨q, hq, he.symm⟩
  · cases hb

namespace Machine

variable {C : Type} [DecidableEq A] [DecidableEq V] {M : Machine A V C S R E} {weak : S → Bool}

/-- Where a thread stands in a run, some replies have driven it. -/
theorem driven_of_weakRun {ls : List (WeakLabel C)} {s s' : Config A V S R E}
    (hidle : ∀ t, s.thr t = none) (hr : M.weakRun weak ls s = some s') {t : ℕ} {p : S}
    (hp : s'.thr t = some p) : ∃ c rs, drive M.code rs (M.start c) = .goto p := by
  refine weakRun_inv (P := fun s => ∀ t p, s.thr t = some p →
    ∃ c rs, drive M.code rs (M.start c) = .goto p) (Q := fun _ _ => True)
    (fun s l s' hP _ hs => ?_) (fun t p h => ?_) (WeakAlong.trivial ls s) hr t p hp
  · refine weak_thr_inv (fun c => ⟨c, [], rfl⟩) (fun p r p' hd hf => ?_) hP hs
    obtain ⟨c, rs, hd⟩ := hd
    exact ⟨c, rs ++ [r], (drive_snoc hd).trans hf⟩
  · rw [hidle t] at h
    cases h

end Machine

end Interleave
