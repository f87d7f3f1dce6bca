/-
# The word that a relocation displaces

Beside removals of other keys, the word `w` that line 191 has marked stays in its slot until
line 201 overwrites it, five accesses later (`Course`). Line 197 stores it in the slot `Loc`
if it finds there the word line 193 has read. It need not: its compare-exchange is a weak
one, and the loop of a `Remove` may rewrite the reserved word in between. Line 201 then
destroys the only copy.

Key definitions: `Call.Spares`, `CopyGoesThrough`, `Course`.
Key theorems: `spares_word`, `course_other`, `course_own`, `displaced_word_survives`,
`displaced_word_can_be_lost`.
-/
import LFHash.Weak
import LFHash.InProgress
import LFHash.Readers

namespace LFHash

open Interleave

variable {seed : BitVec 32} {key : Key} {m m' : Cell → Word} {s s' : State} {t : ℕ}

/-! ### Removals of other keys -/

/-- The call removes no key whose word is `w`, and adds nothing. -/
def Call.Spares (w : Word) : Call → Prop
  | .add _ => False
  | .remove key _ => entry key ≠ w
  | .contains _ => True

/-- What the access of a removal of another key, or of a lookup, can do to a slot. -/
theorem spares_word {w : Word} {p : Pc} {r : Ans} (hok : p.Ok seed) (h : p.call.Spares w)
    (hx : Attempt (p.code seed).1 m r m') (i : ℕ) : buckets m' i = buckets m i ∨
    (∃ k, entry k ≠ w ∧ (buckets m i = entry k ∨ buckets m i = moving (entry k))) ∨
    ∃ k tid j slot rem, p = .remove k tid (.poison j slot rem) ∧ i = home seed k + j ∧
      buckets m i = slot ∧ tag slot = 3#64 ∧ buckets m' i = random := by
  by_cases hi : Cell.bucket i = (p.code seed).1.addr
  swap
  · exact Or.inl (hx.of_ne hi)
  have hload : ∀ a, (p.code seed).1 = .load a → buckets m' i = buckets m i := by
    intro a ha
    rw [ha] at hx
    rw [hx.load.2]
  rcases p with ⟨key, q⟩ | ⟨key, tid, q⟩ | ⟨key, sc⟩
  · exact h.elim
  · cases q with
    | stamp => cases hi
    | testKey | testMoving | loadSlot | testSlot => exact Or.inl (hload _ rfl)
    | removeKey final i1 i2 =>
      rcases hx.cas with ⟨hm, -, -⟩ | ⟨-, rfl⟩
      · obtain rfl := Cell.bucket.inj hi
        exact Or.inr (Or.inl ⟨key, h, Or.inl hm⟩)
      · exact Or.inl rfl
    | removeMoving final i2 rem1 =>
      rcases hx.cas with ⟨hm, -, -⟩ | ⟨-, rfl⟩
      · obtain rfl := Cell.bucket.inj hi
        exact Or.inr (Or.inl ⟨key, h, Or.inr (hm.trans (moving_entry key).symm)⟩)
      · exact Or.inl rfl
    | poison j slot rem =>
      rcases hx.cas with ⟨hm, -, rfl⟩ | ⟨-, rfl⟩
      · obtain rfl := Cell.bucket.inj hi
        refine Or.inr (Or.inr ⟨key, tid, j, slot, rem, rfl, rfl, hm, hok.2, ?_⟩)
        rw [buckets_update, Function.update_self]
      · exact Or.inl rfl
  · exact Or.inl (hload _ rfl)

/-- A word without a tag that is not the removed key stays, plain or marked. -/
theorem spares_keeps {w : Word} {p : Pc} {r : Ans} (hok : p.Ok seed) (h : p.call.Spares w)
    (hx : Attempt (p.code seed).1 m r m') (hw : tag w = 0#64) {i : ℕ} :
    (buckets m i = w → buckets m' i = w) ∧
      (buckets m i = moving w → buckets m' i = moving w) := by
  have hne : tag w ≠ 1#64 := by rw [hw]; decide
  constructor
  · intro hi
    rcases spares_word hok h hx i with he | ⟨k, hk, he | he⟩ | ⟨_, _, _, slot, _, -, -, he, htag, -⟩
    · rw [he, hi]
    · exact absurd (he.symm.trans hi) hk
    · rw [← hi, he, tag_moving] at hne
      exact absurd rfl hne
    · rw [← he, hi, hw] at htag
      exact absurd htag (by decide)
  · intro hi
    rcases spares_word hok h hx i with he | ⟨k, hk, he | he⟩ | ⟨_, _, _, slot, _, -, -, he, htag, -⟩
    · rw [he, hi]
    · have htag := congrArg tag (he.symm.trans hi)
      rw [tag_entry, tag_moving] at htag
      exact absurd htag (by decide)
    · exact absurd (moving_inj (tag_entry k) hw (he.symm.trans hi)) hk
    · rw [← he, hi, tag_moving] at htag
      exact absurd htag (by decide)

/-! ### The course of a relocation -/

/-- Line 193 finds the slot `Loc` reserved, line 197 does not fail on the word it expects,
and line 262 does not rewrite a reserved word that an `add` has loaded. -/
def CopyGoesThrough (seed : BitVec 32) (s : State) : WeakLabel Call → Prop
  | .step (.call _ _) => True
  | .step (.move t) => NoneRobbed seed s (.move t) ∧ ∀ key Loc r,
      s.thr t = some (.add key (.relocate Loc (.loadDest r))) → tag (buckets s.mem Loc) = 3#64
  | .fail t => ∀ key Loc r Dest Fin, s.thr t ≠ some (.add key (.relocate Loc (.copy r Dest Fin)))

/-- Thread `t` stands at `q` of `Relocate(Loc, _)` in `add(key)`. -/
def At (t : ℕ) (key : Key) (Loc : ℕ) (s : State) (q : Relocate) : Prop :=
  s.thr t = some (.add key (.relocate Loc q))

/-- Where thread `t` and the word `w` are, after line 191 has marked `w` in slot `r` and the
thread has made `n` further accesses. -/
def Course (seed : BitVec 32) (t : ℕ) (key : Key) (Loc r : ℕ) (w : Word) (s : State) : ℕ → Prop
  | 0 => At t key Loc s (.loadDest r) ∧ buckets s.mem r = moving w
  | 1 => ∃ Dest, At t key Loc s (.loadFin r Dest) ∧ buckets s.mem r = moving w ∧
      buckets s.mem Loc = Dest ∧ tag Dest = 3#64
  | 2 => ∃ Dest, At t key Loc s (.copy r Dest w) ∧ buckets s.mem r = moving w ∧
      buckets s.mem Loc = Dest ∧ tag Dest = 3#64
  | 3 => At t key Loc s (.loadMark r) ∧ buckets s.mem r = moving w ∧ buckets s.mem Loc = w
  | 4 => At t key Loc s (.overwrite r (moving w)) ∧ buckets s.mem r = moving w ∧
      buckets s.mem Loc = w
  | 5 => s.thr t = some (.add key (.settle seed key r)) ∧ buckets s.mem Loc = w
  | _ => True

variable {Loc r : ℕ} {w : Word} {n : ℕ} {l : WeakLabel Call}

/-- A step of another thread leaves `w` where it is, and the reserved word of slot `Loc`
while line 197 is ahead. -/
theorem other_mem (hS : Sound seed s) (hs : (table seed).weakStep Pc.isWeak s l = some s')
    (hspare : ∀ p, s.thr l.thread = some p → p.call.Spares w) (hq : CopyGoesThrough seed s l)
    (hw : tag w = 0#64) {q : Pc} (ht : s.thr t = some q) (i : ℕ) :
    (buckets s.mem i = w → buckets s'.mem i = w) ∧
    (buckets s.mem i = moving w → buckets s'.mem i = moving w) ∧
    (q.Awaits i → tag (buckets s.mem i) = 3#64 → buckets s'.mem i = buckets s.mem i) := by
  rcases Machine.weakStep_cases hs with ⟨u, c, rfl, hc⟩ | ⟨-, -, p, r, m', hp, hx, rfl, hl⟩
  · obtain ⟨-, -, rfl⟩ := Machine.step_call.mp hc
    exact ⟨id, id, fun _ _ => rfl⟩
  · rw [Config.follow_mem]
    have hok := hS _ p hp
    have hsp := hspare p hp
    obtain ⟨h1, h2⟩ := spares_keeps hok hsp hx hw (i := i)
    refine ⟨h1, h2, fun hawait htag => ?_⟩
    rcases hl with ⟨hl, -⟩ | ⟨-, -, rfl⟩
    swap
    · rfl
    rcases spares_word hok hsp hx i with he | ⟨k, -, he | he⟩ |
      ⟨k, tid, j, slot, rem, rfl, rfl, he, -, hr⟩
    · exact he
    · rw [he, tag_entry] at htag
      exact absurd htag (by decide)
    · rw [he, tag_moving] at htag
      exact absurd htag (by decide)
    · -- line 262 writes `random`
      rw [hl] at hq
      by_contra hne
      refine hq.1 k tid j slot rem hp he (fun hrand => hne ?_) t q ht hawait
      rw [hr, he, hrand]

theorem course_other (hS : Sound seed s) (hs : (table seed).weakStep Pc.isWeak s l = some s')
    (hl : l.thread ≠ t) (hspare : ∀ p, s.thr l.thread = some p → p.call.Spares w)
    (hq : CopyGoesThrough seed s l) (hw : tag w = 0#64)
    (h : Course seed t key Loc r w s n) : Course seed t key Loc r w s' n := by
  have hthr : s'.thr t = s.thr t := Machine.weakStep_thr_of_ne hs (Ne.symm hl)
  have hat : ∀ q, At t key Loc s q → At t key Loc s' q := fun q hq => hthr.trans hq
  match n, h with
  | 0, ⟨h1, h2⟩ => exact ⟨hat _ h1, (other_mem hS hs hspare hq hw h1 r).2.1 h2⟩
  | 1, ⟨Dest, h1, h2, h3, h4⟩ =>
    have hm := other_mem hS hs hspare hq hw h1
    have hdest : buckets s'.mem Loc = Dest := ((hm Loc).2.2 rfl (by rwa [h3])).trans h3
    exact ⟨Dest, hat _ h1, (hm r).2.1 h2, hdest, h4⟩
  | 2, ⟨Dest, h1, h2, h3, h4⟩ =>
    have hm := other_mem hS hs hspare hq hw h1
    have hdest : buckets s'.mem Loc = Dest := ((hm Loc).2.2 rfl (by rwa [h3])).trans h3
    exact ⟨Dest, hat _ h1, (hm r).2.1 h2, hdest, h4⟩
  | 3, ⟨h1, h2, h3⟩ =>
    have hm := other_mem hS hs hspare hq hw h1
    exact ⟨hat _ h1, (hm r).2.1 h2, (hm Loc).1 h3⟩
  | 4, ⟨h1, h2, h3⟩ =>
    have hm := other_mem hS hs hspare hq hw h1
    exact ⟨hat _ h1, (hm r).2.1 h2, (hm Loc).1 h3⟩
  | 5, ⟨h1, h2⟩ => exact ⟨hthr.trans h1, (other_mem hS hs hspare hq hw h1 Loc).1 h2⟩
  | _ + 6, _ => trivial

/-- The thread's own step, in the middle of a relocation. -/
theorem own_step {q : Relocate} (hat : At t key Loc s q)
    (hs : (table seed).weakStep Pc.isWeak s l = some s') (hl : l.thread = t) :
    l.Accesses ∧ ∃ x, Attempt (relocate seed Loc (newEntry key) q).1 s.mem x s'.mem ∧
      (∀ q', (relocate seed Loc (newEntry key) q).2 x = .goto q' → At t key Loc s' q') ∧
      (∀ i, (relocate seed Loc (newEntry key) q).2 x = .ret i → Loc ≠ i →
        s'.thr t = some (.add key (.settle seed key i))) ∧
      ((l = .step (.move t) ∧
          (relocate seed Loc (newEntry key) q).1.exec s.mem = (x, s'.mem)) ∨
        l = .fail t ∧ (Pc.add key (.relocate Loc q)).isWeak = true) := by
  unfold At at hat
  rcases Machine.weakStep_cases hs with ⟨u, c, rfl, hc⟩ | ⟨-, hacc, p, x, m', hp, hx, rfl, hk⟩
  · obtain rfl : u = t := hl
    obtain ⟨-, hnone, -⟩ := Machine.step_call.mp hc
    rw [hnone] at hat
    cases hat
  · subst hl
    obtain rfl := Option.some.inj (hat.symm.trans hp)
    refine ⟨hacc, x, by rw [Config.follow_mem]; exact hx, fun q' hf => ?_, fun i hf hi => ?_, ?_⟩
    · have hflow : ((table seed).code (.add key (.relocate Loc q))).2 x =
          .goto (.add key (.relocate Loc q')) := by
        show (((relocate seed Loc (newEntry key) q).2 x).bind _ _).bind _ _ = _
        rw [hf, Flow.bind_goto, Flow.bind_goto]
      rw [hflow]
      exact Function.update_self _ _ _
    · have hflow : ((table seed).code (.add key (.relocate Loc q))).2 x =
          .goto (.add key (.settle seed key i)) := by
        show (((relocate seed Loc (newEntry key) q).2 x).bind _ _).bind _ _ = _
        rw [hf, Flow.bind_ret, if_neg hi, Flow.bind_goto]
      rw [hflow]
      exact Function.update_self _ _ _
    · rw [Config.follow_mem]
      exact hk.imp id fun h => ⟨h.1, h.2.1⟩

theorem course_own (hs : (table seed).weakStep Pc.isWeak s l = some s') (hl : l.thread = t)
    (hq : CopyGoesThrough seed s l) (hw : tag w = 0#64) (hne : Loc ≠ r)
    (h : Course seed t key Loc r w s n) (hn : n < 5) :
    l.Accesses ∧ Course seed t key Loc r w s' (n + 1) := by
  match n, h with
  | 0, ⟨h1, h2⟩ =>
    obtain ⟨hacc, x, hx, hgoto, -, ⟨rfl, -⟩ | ⟨-, hweak⟩⟩ := own_step h1 hs hl
    swap
    · cases hweak
    obtain ⟨hval, hmem⟩ := hx.load
    have htag : tag (buckets s.mem Loc) = 3#64 := hq.2 key Loc r h1
    have hdest : reserved x.val = buckets s.mem Loc := by rw [hval]; exact reserved_of_tag htag
    refine ⟨hacc, buckets s.mem Loc, hgoto _ ?_, ?_, ?_, htag⟩
    · rw [← hdest]
      rfl
    · rw [hmem]
      exact h2
    · rw [hmem]
  | 1, ⟨Dest, h1, h2, h3, h4⟩ =>
    obtain ⟨hacc, x, hx, hgoto, -⟩ := own_step h1 hs hl
    obtain ⟨hval, hmem⟩ := hx.load
    have hfin : strip x.val = w := by
      have hr : s.mem (.bucket r) = moving w := h2
      rw [hval, hr, strip_moving, strip_of_tag hw]
    refine ⟨hacc, Dest, hgoto _ ?_, ?_, ?_, h4⟩
    · rw [← hfin]
      rfl
    · rw [hmem]
      exact h2
    · rw [hmem]
      exact h3
  | 2, ⟨Dest, h1, h2, h3, h4⟩ =>
    obtain ⟨hacc, x, -, hgoto, -, ⟨rfl, hexec⟩ | ⟨rfl, -⟩⟩ := own_step h1 hs hl
    swap
    · exact absurd h1 (hq key Loc r Dest w)
    -- line 197 finds the word of line 193
    have hcas : (Access.cas (.bucket Loc) Dest w).exec s.mem = (x, s'.mem) := hexec
    rw [Access.exec_cas_of_eq s.mem w h3] at hcas
    have hmem : s'.mem = Function.update s.mem (.bucket Loc) w := (congrArg Prod.snd hcas).symm
    refine ⟨hacc, hgoto _ rfl, ?_, ?_⟩
    · rw [hmem, buckets_update, Function.update_of_ne hne.symm]
      exact h2
    · rw [hmem, buckets_update, Function.update_self]
  | 3, ⟨h1, h2, h3⟩ =>
    obtain ⟨hacc, x, hx, hgoto, -⟩ := own_step h1 hs hl
    obtain ⟨hval, hmem⟩ := hx.load
    have hexp : moving x.val = moving w := by
      have hr : s.mem (.bucket r) = moving w := h2
      rw [hval, hr, moving_of_tag (tag_moving w)]
    refine ⟨hacc, hgoto _ ?_, ?_, ?_⟩
    · rw [← hexp]
      rfl
    · rw [hmem]
      exact h2
    · rw [hmem]
      exact h3
  | 4, ⟨h1, h2, h3⟩ =>
    obtain ⟨hacc, x, hx, -, hret, -⟩ := own_step h1 hs hl
    refine ⟨hacc, hret r rfl hne, ?_⟩
    rcases hx.cas with ⟨-, -, hmem⟩ | ⟨-, hmem⟩
    · rw [hmem, buckets_update, Function.update_of_ne hne]
      exact h3
    · rw [hmem]
      exact h3
  | _ + 5, _ => omega

/-! ### Runs -/

/-- The calls that other threads run. -/
def OthersSpare (w : Word) (t : ℕ) (s : State) : Prop :=
  ∀ u ≠ t, ∀ p, s.thr u = some p → p.call.Spares w

theorem OthersSpare.step (h : OthersSpare w t s)
    (hs : (table seed).weakStep Pc.isWeak s l = some s')
    (hc : ∀ u c, u ≠ t → l = .step (.call u c) → c.Spares w) : OthersSpare w t s' := by
  intro u hu p hp
  by_cases hul : u = l.thread
  swap
  · rw [Machine.weakStep_thr_of_ne hs hul] at hp
    exact h u hu p hp
  rcases Machine.weakStep_cases hs with ⟨v, c, rfl, hcall⟩ | ⟨-, -, q, x, m', hq, -, rfl, -⟩
  · obtain rfl : u = v := hul
    obtain ⟨-, -, rfl⟩ := Machine.step_call.mp hcall
    obtain rfl : Pc.start c = p := by simpa [table] using hp
    have hcs := hc u c hu rfl
    cases c <;> exact hcs
  · subst hul
    have hsp := h _ hu q hq
    cases hf : ((table seed).code q).2 x with
    | goto q' =>
      rw [hf] at hp
      obtain rfl : q' = p := by simpa [Config.follow] using hp
      rw [Pc.call_goto hf]
      exact hsp
    | ret y =>
      rw [hf] at hp
      simp [Config.follow] at hp
    | exit e =>
      rw [hf] at hp
      exact h _ hu p hp

theorem course_of_le (h : 6 ≤ n) : Course seed t key Loc r w s n := by
  match n, h with
  | _ + 6, _ => trivial

theorem Course.busy (h : Course seed t key Loc r w s 5) : ∃ p, s.thr t = some p := ⟨_, h.1⟩

/-- One step: the thread's own takes it one access further, the others leave it there. -/
theorem course_step (hS : Sound seed s) (hsp : OthersSpare w t s)
    (hs : (table seed).weakStep Pc.isWeak s l = some s') (hq : CopyGoesThrough seed s l)
    (hw : tag w = 0#64) (hne : Loc ≠ r) (h : Course seed t key Loc r w s n) :
    Course seed t key Loc r w s' (n + accessesOf t [l]) := by
  by_cases hl : l.thread = t
  · rcases Nat.lt_or_ge n 5 with hn | hn
    · obtain ⟨hacc, hnext⟩ := course_own hs hl hq hw hne h hn
      have hcount : accessesOf t [l] = 1 := accessesOf_cons.1 ⟨hl, hacc⟩
      rw [hcount]
      exact hnext
    · apply course_of_le
      rcases Nat.eq_or_lt_of_le hn with rfl | hlt
      · obtain ⟨p, hp⟩ := h.busy
        have hacc : l.Accesses := Machine.accesses_of_thr hs (by rw [hl]; exact hp)
        have hcount : accessesOf t [l] = 1 := accessesOf_cons.1 ⟨hl, hacc⟩
        omega
      · omega
  · have hcount : accessesOf t [l] = 0 := accessesOf_cons.2 fun hx => hl hx.1
    rw [hcount]
    exact course_other hS hs hl (hsp l.thread hl) hq hw h

theorem course_run (hw : tag w = 0#64) (hne : Loc ≠ r) : ∀ (ls : List (WeakLabel Call))
    {s s' : State} {n : ℕ}, Sound seed s → OthersSpare w t s →
    (∀ u c, u ≠ t → .step (.call u c) ∈ ls → c.Spares w) →
    (table seed).weakRun Pc.isWeak ls s = some s' →
    (table seed).WeakAlong Pc.isWeak (CopyGoesThrough seed) ls s →
    Course seed t key Loc r w s n → Course seed t key Loc r w s' (n + accessesOf t ls)
  | [], s, s', n, _, _, _, hr, _, h => by
    cases hr
    exact h
  | l :: ls, s, s', n, hS, hsp, hc, hr, hq, h => by
    obtain ⟨s₁, h1, h2⟩ := Machine.weakRun_cons.mp hr
    obtain ⟨hq1, hq2⟩ := hq s₁ h1
    have hsp₁ : OthersSpare w t s₁ := hsp.step h1 fun u c hu hl => hc u c hu (by simp [hl])
    have h₁ := course_step hS hsp h1 hq1 hw hne h
    have hcount : accessesOf t ([l] ++ ls) = accessesOf t [l] + accessesOf t ls :=
      List.countP_append
    rw [List.singleton_append] at hcount
    rw [hcount, ← Nat.add_assoc]
    exact course_run hw hne ls (sound_weak hS h1) hsp₁
      (fun u c hu hm => hc u c hu (List.mem_cons_of_mem l hm)) h2 hq2 h₁

/-- Beside removals of other keys and lookups, the word `w` that line 191 marks is stored in
slot `Loc` before line 201 overwrites it, and it is in one of the two slots until `Relocate`
returns, if line 197 goes through. -/
theorem displaced_word_survives {ls₀ ls : List (WeakLabel Call)} {s₀ : State}
    (h₀ : (table seed).weakRun Pc.isWeak ls₀ (idleState m) = some s₀)
    (hmark : At t key Loc s₀ (.mark r w)) (hword : buckets s₀.mem r = w)
    (hothers : OthersSpare w t s₀)
    (hcalls : ∀ u c, u ≠ t → .step (.call u c) ∈ ls → c.Spares w)
    (hr : (table seed).weakRun Pc.isWeak (.step (.move t) :: ls) s₀ = some s)
    (hq : (table seed).WeakAlong Pc.isWeak (CopyGoesThrough seed) (.step (.move t) :: ls) s₀)
    (hn : accessesOf t ls ≤ 5) :
    (accessesOf t ls = 4 → At t key Loc s (.overwrite r (moving w))) ∧
    (accessesOf t ls = 5 → s.thr t = some (.add key (.settle seed key r))) ∧
    (accessesOf t ls < 5 → buckets s.mem r = moving w) ∧
    (3 ≤ accessesOf t ls → buckets s.mem Loc = w) := by
  have hS : Sound seed s₀ := sound_weakRun (fun _ _ h => by cases h) h₀
  obtain ⟨-, -, -, hlt, hw⟩ := hS t _ hmark
  have hne : Loc ≠ r := Nat.ne_of_gt hlt
  obtain ⟨s₁, h1, h2⟩ := Machine.weakRun_cons.mp hr
  have hstart : Course seed t key Loc r w s₁ 0 := by
    obtain ⟨-, x, -, hgoto, -, ⟨-, hexec⟩ | ⟨hl, -⟩⟩ := own_step hmark h1 rfl
    swap
    · cases hl
    have hcas : (Access.cas (.bucket r) w (moving w)).exec s₀.mem = (x, s₁.mem) := hexec
    rw [Access.exec_cas_of_eq s₀.mem (moving w) hword] at hcas
    obtain ⟨rfl, hmem⟩ := Prod.mk.inj hcas
    refine ⟨hgoto _ rfl, ?_⟩
    rw [← hmem, buckets_update, Function.update_self]
  have hsp : OthersSpare w t s₁ := hothers.step h1 fun u c hu hl => by cases hl
  have h := course_run hw hne ls (sound_weak hS h1) hsp hcalls h2 (hq s₁ h1).2 hstart
  rw [Nat.zero_add] at h
  generalize accessesOf t ls = n at h hn
  match n, h with
  | 0, ⟨_, h2⟩ => exact ⟨by omega, by omega, fun _ => h2, by omega⟩
  | 1, ⟨_, _, h2, _⟩ => exact ⟨by omega, by omega, fun _ => h2, by omega⟩
  | 2, ⟨_, _, h2, _⟩ => exact ⟨by omega, by omega, fun _ => h2, by omega⟩
  | 3, ⟨_, h2, h3⟩ => exact ⟨by omega, by omega, fun _ => h2, fun _ => h3⟩
  | 4, ⟨h1, h2, h3⟩ => exact ⟨fun _ => h1, by omega, fun _ => h2, fun _ => h3⟩
  | 5, ⟨h1, h2⟩ => exact ⟨by omega, fun _ => h1, by omega, fun _ => h2⟩
  | _ + 6, _ => omega

/-! ### A removal of another key beside the relocation -/

/-- `add(56200813)` has reserved slot 1017 and is about to mark slot 1002. -/
def beforeMark : List (WeakLabel Call) :=
  .step (.call 0 (.add 56200813)) :: List.replicate 39 (.step (.move 0))

/-- A removal begins; line 201 fails for no reason. -/
def afterMark : List (WeakLabel Call) :=
  [.step (.move 0), .step (.call 1 (.remove 32323154 0)), .step (.move 1), .step (.move 0),
    .step (.move 0), .step (.move 0), .fail 0]

/-- A whole removal runs between the lines 193 and 197. -/
def robbed : List (WeakLabel Call) :=
  .step (.move 0) :: .step (.call 1 (.remove 32323154 0)) ::
    List.replicate 71 (.step (.move 1)) ++ List.replicate 4 (.step (.move 0))

/-- What `CopyGoesThrough` says of a thread that is not in the loop of a removal. -/
def calm (s : State) : WeakLabel Call → Bool
  | .step (.call _ _) => true
  | .step (.move t) =>
    match s.thr t with
    | some (.remove _ _ (.poison _ _ _)) => false
    | some (.add _ (.relocate Loc (.loadDest _))) => decide (tag (buckets s.mem Loc) = 3#64)
    | _ => true
  | .fail t =>
    match s.thr t with
    | some (.add _ (.relocate _ (.copy _ _ _))) => false
    | _ => true

theorem copyGoesThrough_of_calm (h : calm s l = true) : CopyGoesThrough seed s l := by
  rcases l with (⟨t, c⟩ | t) | t
  · trivial
  · refine ⟨fun key tid p slot rem hp => ?_, fun key Loc r hp => ?_⟩
    · simp [calm, hp] at h
    · simpa [calm, hp] using h
  · intro key Loc r Dest Fin hp
    simp [calm, hp] at h

theorem othersSpare_beforeMark {s₀ : State}
    (h : (table 1).weakRun Pc.isWeak beforeMark (idleState (tableOf 1000 fullWindow)) = some s₀) :
    OthersSpare (entry 14294523) 0 s₀ := by
  intro u hu p hp
  have hthread : ∀ l ∈ beforeMark, l.thread = 0 := by decide
  rw [Machine.weakRun_thr_of_ne h fun l hl he => hu (he.trans (hthread l hl))] at hp
  cases hp

set_option maxRecDepth 10000 in
theorem one_displaced_word_survives : ∃ s₀ s,
    (table 1).weakRun Pc.isWeak beforeMark (idleState (tableOf 1000 fullWindow)) = some s₀ ∧
    (table 1).weakRun Pc.isWeak (.step (.move 0) :: afterMark) s₀ = some s ∧
    buckets s.mem 1017 = entry 14294523 := by
  have h : ((table 1).weakRun Pc.isWeak beforeMark (idleState (tableOf 1000 fullWindow))).any
      (fun s₀ => decide (s₀.thr 0 = some (.add 56200813 (.relocate 1017 (.mark 1002 (entry 14294523)))) ∧
        buckets s₀.mem 1002 = entry 14294523 ∧
        ((table 1).weakRun Pc.isWeak (.step (.move 0) :: afterMark) s₀).isSome = true ∧
        (table 1).WeakAlong Pc.isWeak (fun s l => calm s l = true) (.step (.move 0) :: afterMark) s₀))
      = true := by
    decide +kernel
  obtain ⟨s₀, h₀, h⟩ := (Option.any_eq_true _ _).mp h
  obtain ⟨hmark, hword, hrun, hcalm⟩ := of_decide_eq_true h
  obtain ⟨s, hs⟩ := Option.isSome_iff_exists.mp hrun
  have hcalls : ∀ u c, u ≠ 0 → WeakLabel.step (.call u c) ∈ afterMark →
      c.Spares (entry 14294523) := by
    intro u c _ hm
    obtain ⟨-, rfl⟩ : u = 1 ∧ c = .remove 32323154 0 := by simpa [afterMark] using hm
    exact fun he => absurd (entry_inj he) (by decide)
  have hend := displaced_word_survives h₀ hmark hword (othersSpare_beforeMark h₀) hcalls hs
    (hcalm.mono fun _ _ _ _ h => copyGoesThrough_of_calm h) (by decide)
  exact ⟨s₀, s, h₀, hs, hend.2.2.2 (by decide)⟩

set_option maxRecDepth 10000 in
theorem displaced_word_can_be_lost : ∃ s₀ s,
    (table 1).weakRun Pc.isWeak beforeMark (idleState (tableOf 1000 fullWindow)) = some s₀ ∧
    At 0 56200813 1017 s₀ (.mark 1002 (entry 14294523)) ∧
    buckets s₀.mem 1002 = entry 14294523 ∧
    (table 1).weakRun Pc.isWeak (.step (.move 0) :: robbed) s₀ = some s ∧
    accessesOf 0 robbed = 5 ∧ s.halt = none ∧ s.thr 1 = none ∧
    s.thr 0 = some (.add 56200813 (.settle 1 56200813 1002)) ∧
    buckets s.mem 1002 = newEntry 56200813 ∧ buckets s.mem 1017 = random ∧
    ¬ Stored 1 (buckets s.mem) 14294523 := by
  have h : ((table 1).weakRun Pc.isWeak beforeMark (idleState (tableOf 1000 fullWindow))).any
      (fun s₀ => decide (s₀.thr 0 = some (.add 56200813 (.relocate 1017 (.mark 1002 (entry 14294523)))) ∧
        buckets s₀.mem 1002 = entry 14294523 ∧
        ((table 1).weakRun Pc.isWeak (.step (.move 0) :: robbed) s₀).any (fun s => decide (
          s.halt = none ∧ s.thr 1 = none ∧
          s.thr 0 = some (.add 56200813 (.settle 1 56200813 1002)) ∧
          buckets s.mem 1002 = newEntry 56200813 ∧ buckets s.mem 1017 = random ∧
          ¬ Stored 1 (buckets s.mem) 14294523)) = true)) = true := by
    decide +kernel
  obtain ⟨s₀, h₀, h⟩ := (Option.any_eq_true _ _).mp h
  obtain ⟨hmark, hword, hrun⟩ := of_decide_eq_true h
  obtain ⟨s, hs, hend⟩ := (Option.any_eq_true _ _).mp hrun
  obtain ⟨hh, h1, h2⟩ := of_decide_eq_true hend
  exact ⟨s₀, s, h₀, hmark, hword, hs, by decide, hh, h1, h2⟩

end LFHash
