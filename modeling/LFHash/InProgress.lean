/-
# Words in progress

Tag 3 marks a slot that an `add` has reserved, tag 1 a key that `Relocate` is
moving. Some thread minds every word with a tag: its next compare-exchange on that
slot takes the word away, or it has yet to load it. Only line 262, which rewrites
a reserved word under an `add` that has loaded it, breaks this; if it does not
(`NoneRobbed`), every slot is untagged once all operations have finished.

Key definitions: `Pc.Minds`, `Pc.Awaits`, `NoneRobbed`, `Minded`.
Key theorems: `minds_next`, `minds_write`, `finished_slots_untagged`.
-/
import LFHash.Claims

namespace LFHash

open Interleave

variable {seed : BitVec 32}

/-! ### Who minds a word -/

/-- `Relocate(Loc, _)` will take the word `w` out of slot `i`. -/
def Relocate.Minds (Loc i : ℕ) (w : Word) : Relocate → Prop
  | .getInd _ _ | .getReplace _ | .loadExp _ | .mark _ _ => i = Loc ∧ tag w = 3#64
  | .loadDest r => (i = Loc ∧ tag w = 3#64) ∨ (i = r ∧ tag w = 1#64)
  | .loadFin r Dest | .copy r Dest _ => (i = Loc ∧ w = Dest) ∨ (i = r ∧ tag w = 1#64)
  | .loadMark r => i = r ∧ tag w = 1#64
  | .overwrite r Exp => i = r ∧ w = Exp ∧ tag w = 1#64

def Add.Minds (i : ℕ) (w : Word) : Add → Prop
  | .relocate Loc q => q.Minds Loc i w
  | .loadExp j => i = j ∧ tag w = 3#64
  | .release j Exp => i = j ∧ w = Exp
  | .contains _ | .probe _ _ _ | .reserve _ _ _ | .insert _ => False

def Pc.Minds (i : ℕ) (w : Word) : Pc → Prop
  | .add _ p => p.Minds i w
  | .remove _ _ _ | .contains _ _ => False

/-- The thread has loaded the reserved word of slot `i` (lines 165 and 193) and
has yet to compare it (lines 166 and 197). -/
def Pc.Awaits (i : ℕ) : Pc → Prop
  | .add _ (.release j _) => i = j
  | .add _ (.relocate Loc (.loadFin _ _)) | .add _ (.relocate Loc (.copy _ _ _)) => i = Loc
  | _ => False

/-- Line 262 rewrites no reserved word that an `add` has loaded. -/
def NoneRobbed (seed : BitVec 32) (s : State) : Label Call → Prop
  | .call _ _ => True
  | .move t => ∀ key tid p slot rem, s.thr t = some (.remove key tid (.poison p slot rem)) →
      buckets s.mem (home seed key + p) = slot → slot ≠ random →
      ∀ u q, s.thr u = some q → ¬ q.Awaits (home seed key + p)

/-- Every word with a tag is minded by a thread. -/
def Minded (s : State) : Prop :=
  ∀ i, tag (buckets s.mem i) = 0#64 ∨ ∃ t p, s.thr t = some p ∧ p.Minds i (buckets s.mem i)

theorem minds_settle {key : Key} {i : ℕ} {w : Word} (hw : tag w = 3#64) :
    (Add.settle seed key i).Minds i w := by
  unfold Add.settle
  split_ifs
  · exact ⟨rfl, hw⟩
  · exact ⟨rfl, hw⟩

variable {m : Cell → Word} {t : ℕ} {p q : Pc} {i : ℕ}

/-- The slots after an access of `add`. -/
theorem exec_add (key : Key) (a : Add) :
    ((Pc.add key a).code seed).1.exec m = (add seed key a).1.exec m := rfl

/-- A thread that goes on still minds the word, or its access has taken the tag away. -/
theorem minds_next (hok : p.Ok seed) (hn : next seed m p = some q)
    (h : p.Minds i (buckets m i)) :
    tag (buckets ((p.code seed).1.exec m).2 i) = 0#64 ∨
      q.Minds i (buckets ((p.code seed).1.exec m).2 i) := by
  rcases p with ⟨key, a⟩ | ⟨key, tid, a⟩ | ⟨key, s⟩
  · obtain ⟨b, hf, rfl⟩ := next_add_eq_some.mp hn
    rw [exec_add]
    cases a with
    | contains s | probe tg j n | reserve tg j n | insert a => exact h.elim
    | loadExp j =>
      obtain ⟨rfl, h⟩ := h
      cases hf
      exact Or.inr ⟨rfl, rfl⟩
    | release j Exp =>
      obtain ⟨rfl, h⟩ := h
      refine Or.inl ?_
      simp only [add, Access.exec_cas_of_eq m _ h, buckets_update, Function.update_self, tag_zero]
    | relocate Loc a =>
      have hlt : Relocate.Ok Loc a := hok.2.2
      cases a with
      | getInd r ind | getReplace r =>
        rcases Flow.bind_eq_goto.mp hf with ⟨a', ha, rfl⟩ | ⟨r', hr, -⟩
        · rcases seek_eq_goto.mp ha with ⟨rfl, -⟩ | ⟨rfl, -⟩ <;> exact Or.inr h
        · exact absurd hr (by simp only [relocate, seek]; split_ifs <;> simp)
      | loadExp r => cases hf; exact Or.inr h
      | mark r Exp =>
        obtain ⟨rfl, h⟩ := h
        have hne : i ≠ r := Nat.ne_of_gt hlt.2.1
        rw [show buckets ((add seed key (.relocate i (.mark r Exp))).1.exec m).2 i = buckets m i from
          Access.exec_of_ne m _ (by simpa [add, relocate, Access.addr] using hne)]
        rcases Flow.bind_eq_goto.mp hf with ⟨a', ha, rfl⟩ | ⟨r', hr, -⟩
        · simp only [relocate] at ha
          split_ifs at ha <;> cases ha
          · exact Or.inr (Or.inl ⟨rfl, h⟩)
          · exact Or.inr ⟨rfl, h⟩
        · simp only [relocate] at hr
          split_ifs at hr
      | loadDest r =>
        cases hf
        rcases h with ⟨rfl, h⟩ | h
        · exact Or.inr (Or.inl ⟨rfl, (reserved_of_tag h).symm⟩)
        · exact Or.inr (Or.inr h)
      | loadFin r Dest => cases hf; exact Or.inr h
      | copy r Dest Fin =>
        cases hf
        rcases h with ⟨rfl, h⟩ | ⟨rfl, h⟩
        · refine Or.inl ?_
          simp only [add, relocate, Point.inside_fst, Access.exec_cas_of_eq m _ h, buckets_update,
            Function.update_self]
          exact hlt.2.2
        · refine Or.inr ?_
          rw [show buckets ((add seed key (.relocate Loc (.copy i Dest Fin))).1.exec m).2 i =
            buckets m i from Access.exec_of_ne m _
              (by simpa [add, relocate, Access.addr] using Nat.ne_of_lt hlt.2.1)]
          exact ⟨rfl, h⟩
      | loadMark r =>
        cases hf
        obtain ⟨rfl, h⟩ := h
        exact Or.inr ⟨rfl, (moving_of_tag h).symm, h⟩
      | overwrite r Exp =>
        obtain ⟨rfl, h, -⟩ := h
        simp only [addFlow, add, relocate, Point.inside_snd, Flow.bind_ret] at hf
        split_ifs at hf
        cases hf
        refine Or.inr ?_
        simp only [add, relocate, Point.inside_fst, Access.exec_cas_of_eq m _ h, buckets_update,
          Function.update_self]
        exact minds_settle (tag_newEntry key)
  · exact h.elim
  · exact h.elim

/-- A call does not return while it minds a word. -/
theorem next_of_minds {w : Word} (hx : ∀ e, (table seed).flow m p ≠ .exit e) (h : p.Minds i w) :
    ∃ q, next seed m p = some q := by
  cases hf : (table seed).flow m p with
  | goto q => exact ⟨q, congrArg Flow.point? hf⟩
  | exit e => exact absurd hf (hx e)
  | ret r =>
    rcases p with ⟨key, a⟩ | ⟨key, tid, a⟩ | ⟨key, s⟩
    · obtain ⟨b, hb, -⟩ := Flow.bind_eq_ret.mp hf
      cases a with
      | contains s | probe tg j n | reserve tg j n | insert a => exact h.elim
      | loadExp j | release j Exp => cases hb
      | relocate Loc a =>
        obtain ⟨r', -, hr⟩ := Flow.bind_eq_ret.mp hb
        split_ifs at hr
    · exact h.elim
    · exact h.elim

/-- A compare-exchange that changes a slot has succeeded on it. -/
theorem cas_changed {a : ℕ} {e d : Word}
    (h : buckets ((Access.cas (.bucket a) e d).exec m).2 i ≠ buckets m i) :
    i = a ∧ m (.bucket a) = e ∧ buckets ((Access.cas (.bucket a) e d).exec m).2 i = d := by
  by_cases he : m (.bucket a) = e
  · rw [Access.exec_cas_of_eq m d he, buckets_update] at h ⊢
    by_cases hi : i = a
    · subst hi
      exact ⟨rfl, he, Function.update_self ..⟩
    · exact absurd (Function.update_of_ne hi _ _) h
  · rw [Access.exec_cas_of_ne m d he] at h
    exact absurd rfl h

/-- A thread that changes a slot writes a word without a tag there, or minds what
it has written, or has rewritten a reserved word (line 262). -/
theorem minds_write (hok : p.Ok seed) (hx : ∀ e, (table seed).flow m p ≠ .exit e)
    (h : buckets ((p.code seed).1.exec m).2 i ≠ buckets m i) :
    tag (buckets ((p.code seed).1.exec m).2 i) = 0#64 ∨
    (∃ q, next seed m p = some q ∧ q.Minds i (buckets ((p.code seed).1.exec m).2 i)) ∨
    ∃ key tid j slot rem, p = .remove key tid (.poison j slot rem) ∧ i = home seed key + j ∧
      buckets m i = slot ∧ slot ≠ random ∧ buckets ((p.code seed).1.exec m).2 i = random := by
  rcases p with ⟨key, a⟩ | ⟨key, tid, a⟩ | ⟨key, s⟩
  · cases a with
    | contains s | probe tg j n | loadExp j => exact absurd rfl h
    | reserve tg j n =>
      obtain ⟨rfl, he, hd⟩ := cas_changed h
      refine Or.inr (Or.inl ?_)
      have hf : addFlow seed key m (.reserve tg i n) = Add.reserved seed key i n := by
        simp [addFlow, add, Access.exec_cas_of_eq _ _ he]
      have hx' : addFlow seed key m (.reserve tg i n) ≠ .exit .insertionFailure := fun hc =>
        hx _ (Flow.bind_eq_exit.mpr (Or.inl hc))
      rw [hf] at hx'
      refine ⟨_, next_of_addFlow (q := .settle seed key i) (hf.trans ?_), ?_⟩
      · unfold Add.reserved at hx' ⊢
        split_ifs at hx' ⊢
        · exact absurd rfl hx'
        · rfl
      · rw [exec_add, show (add seed key (.reserve tg i n)).1 = .cas (.bucket i) tg (newEntry key)
          from rfl, hd]
        exact minds_settle (tag_newEntry key)
    | release j Exp =>
      obtain ⟨-, -, hd⟩ := cas_changed h
      exact Or.inl ((congrArg tag hd).trans tag_zero)
    | insert a =>
      cases a with
      | first tg c p | second c p => exact absurd rfl h
      | claim tg c p =>
        obtain ⟨-, -, hd⟩ := cas_changed h
        exact Or.inl ((congrArg tag hd).trans (tag_entry key))
      | reuse slot p => exact hok.elim
    | relocate Loc a =>
      have hlt : Relocate.Ok Loc a := hok.2.2
      cases a with
      | getInd r ind | getReplace r | loadExp r | loadDest r | loadFin r Dest | loadMark r =>
        exact absurd rfl h
      | mark r Exp =>
        obtain ⟨rfl, he, hd⟩ := cas_changed h
        refine Or.inr (Or.inl ⟨.add key (.relocate Loc (.loadDest i)), next_of_addFlow ?_, ?_⟩)
        · simp [addFlow, add, relocate, Access.exec_cas_of_eq _ _ he]
        · exact Or.inr ⟨rfl, (congrArg tag hd).trans (tag_moving _)⟩
      | copy r Dest Fin =>
        obtain ⟨-, -, hd⟩ := cas_changed h
        exact Or.inl ((congrArg tag hd).trans hlt.2.2)
      | overwrite r Exp =>
        obtain ⟨rfl, he, hd⟩ := cas_changed h
        have hne : Loc ≠ i := Nat.ne_of_gt hlt.2
        refine Or.inr (Or.inl ⟨_, next_of_addFlow (q := .settle seed key i) ?_, ?_⟩)
        · simp [addFlow, add, relocate, hne]
        · exact minds_settle ((congrArg tag hd).trans (tag_newEntry key))
  · cases a with
    | stamp =>
      refine absurd ?_ h
      simp only [Pc.code, remove, Point.inside_fst, Access.exec_fetch, buckets_timeStamp]
    | testKey final s | testMoving final s | loadSlot j rem | testSlot j slot rem =>
      exact absurd rfl h
    | removeKey final i1 i2 | removeMoving final i2 rem1 =>
      obtain ⟨-, -, hd⟩ := cas_changed h
      exact Or.inl ((congrArg tag hd).trans hok)
    | poison j slot rem =>
      obtain ⟨rfl, he, hd⟩ := cas_changed h
      refine Or.inr (Or.inr ⟨key, tid, j, slot, rem, rfl, rfl, he, ?_, hd⟩)
      rintro rfl
      exact h (hd.trans he.symm)
  · exact absurd rfl h

/-! ### Runs -/

theorem minded_fresh : Minded fresh := fun _ => Or.inl tag_zero

/-- A thread that minds a reserved word and has not loaded it minds any other
reserved word there. -/
theorem Pc.Minds.of_not_awaits {w w' : Word} (h : p.Minds i w) (hw : tag w = 3#64)
    (hw' : tag w' = 3#64) (ha : ¬ p.Awaits i) : p.Minds i w' := by
  have h1 : tag w ≠ 1#64 := by rw [hw]; decide
  rcases p with ⟨key, a⟩ | ⟨key, tid, a⟩ | ⟨key, s⟩
  · cases a with
    | contains s | probe tg j n | reserve tg j n | insert a => exact h.elim
    | loadExp j => exact ⟨h.1, hw'⟩
    | release j Exp => exact absurd h.1 ha
    | relocate Loc a =>
      cases a with
      | getInd r ind | getReplace r | loadExp r | mark r Exp => exact ⟨h.1, hw'⟩
      | loadDest r => exact Or.inl (h.elim (fun h => ⟨h.1, hw'⟩) fun h => absurd h.2 h1)
      | loadFin r Dest | copy r Dest Fin =>
        exact (h.elim (fun h => absurd h.1 ha) fun h => absurd h.2 h1)
      | loadMark r => exact absurd h.2 h1
      | overwrite r Exp => exact absurd h.2.2 h1
  · exact h.elim
  · exact h.elim

theorem Minded.step {s s' : State} {l : Label Call} (hS : Sound seed s) (h : Minded s)
    (hq : NoneRobbed seed s l) (hs : (table seed).step s l = some s') (hh : s'.halt = none) :
    Minded s' := by
  cases l with
  | call t c =>
    obtain ⟨-, ht, rfl⟩ := Machine.step_call.mp hs
    refine fun i => (h i).imp id ?_
    rintro ⟨u, q, hu, hm⟩
    have hut : u ≠ t := by
      rintro rfl
      rw [ht] at hu
      cases hu
    exact ⟨u, q, by simpa [Function.update_of_ne hut] using hu, hm⟩
  | move t =>
    obtain ⟨-, p, hp, rfl⟩ := Machine.step_move.mp hs
    have hx := Machine.flow_ne_exit hh
    have hthr := Machine.advance_thr hh
    have hself : ((table seed).advance t p s).thr t = next seed s.mem p := by
      rw [hthr]
      exact Function.update_self ..
    intro i
    rw [Machine.advance_mem]
    show tag (buckets ((p.code seed).1.exec s.mem).2 i) = 0#64 ∨ _
    by_cases hT : buckets ((p.code seed).1.exec s.mem).2 i = buckets s.mem i
    · rcases h i with h0 | ⟨u, q, hu, hm⟩
      · exact Or.inl (by rw [hT, h0])
      · by_cases hut : u = t
        · subst hut
          rw [hp, Option.some.injEq] at hu
          subst hu
          obtain ⟨q', hn⟩ := next_of_minds hx hm
          exact (minds_next (hS u p hp) hn hm).imp id fun hm' => ⟨u, q', hself.trans hn, hm'⟩
        · refine Or.inr ⟨u, q, ?_, ?_⟩
          · rw [hthr, Function.update_of_ne hut]
            exact hu
          · show q.Minds i (buckets ((p.code seed).1.exec s.mem).2 i)
            rw [hT]
            exact hm
    · rcases minds_write (hS t p hp) hx hT with
        h0 | ⟨q, hn, hm⟩ | ⟨key, tid, j, slot, rem, rfl, rfl, he, hne, hr⟩
      · exact Or.inl h0
      · exact Or.inr ⟨t, q, hself.trans hn, hm⟩
      · have hslot : tag slot = 3#64 := (hS t _ hp).2
        rcases h (home seed key + j) with h0 | ⟨u, q, hu, hm⟩
        · rw [he, hslot] at h0
          exact absurd h0 (by decide)
        · have hut : u ≠ t := by
            rintro rfl
            rw [hp, Option.some.injEq] at hu
            subst hu
            exact hm
          refine Or.inr ⟨u, q, ?_, ?_⟩
          · rw [hthr, Function.update_of_ne hut]
            exact hu
          · refine hm.of_not_awaits (by rw [he, hslot]) ?_ (hq key tid j slot rem hp he hne u q hu)
            exact (congrArg tag hr).trans tag_random

/-! ### What is under a tag -/

/-- Under its tag, the word is one of 32 bits: a key, a stamp, or 0. -/
def Narrow (w : Word) : Prop := ∃ k : Key, strip w = entry k

theorem narrow_of_strip {w w' : Word} (h : strip w = strip w') (hw : Narrow w') : Narrow w := by
  obtain ⟨k, hk⟩ := hw
  exact ⟨k, h.trans hk⟩

theorem narrow_entry (k : Key) : Narrow (entry k) := ⟨k, strip_entry k⟩

theorem strip_reserved (w : Word) : strip (reserved w) = strip w := by
  apply BitVec.eq_of_toNat_eq
  simp only [toNat_strip, toNat_reserved]
  omega

theorem narrow_newEntry (k : Key) : Narrow (newEntry k) := by
  rw [newEntry_eq]
  exact narrow_of_strip (strip_reserved _) (narrow_entry k)

theorem narrow_random : Narrow random :=
  narrow_of_strip (strip_reserved _) ⟨0x7FFFFFFF#32, by decide⟩

/-- What a thread carries to a slot is narrow. -/
def Pc.Narrow : Pc → Prop
  | .add _ (.relocate _ (.mark _ Exp)) => LFHash.Narrow Exp
  | .add _ (.relocate _ (.copy _ _ Fin)) => LFHash.Narrow Fin
  | .remove _ _ (.testKey final _) | .remove _ _ (.testMoving final _)
  | .remove _ _ (.removeKey final _ _) | .remove _ _ (.removeMoving final _ _) =>
      LFHash.Narrow final
  | _ => True

/-- The words of `Buckets` are narrow. -/
def NarrowCell : Cell → Word → Prop
  | .bucket _, w => Narrow w
  | .timeStamp, _ => True

theorem narrow_settle {key : Key} {i : ℕ} : (Pc.add key (.settle seed key i)).Narrow := by
  unfold Add.settle
  split_ifs <;> trivial

theorem narrow_probeNext {key : Key} {tg : Word} {i n : ℕ} :
    (Pc.add key (.probeNext tg i n)).Narrow := by
  unfold Add.probeNext
  split_ifs <;> trivial

theorem narrow_nextScan {key : Key} {tid : ℤ} {final cxx : Word} {j : ℕ} (h : Narrow final) :
    (Pc.remove key tid (.nextScan final j cxx)).Narrow := by
  unfold Remove.nextScan
  split_ifs <;> exact h

theorem narrow_nextSlot {key : Key} {tid : ℤ} {j : ℕ} {rem : Bool} {b : Remove}
    (hf : Remove.nextSlot j rem = .goto b) : (Pc.remove key tid b).Narrow := by
  unfold Remove.nextSlot at hf
  split_ifs at hf
  cases hf
  trivial

theorem narrow_writes (hp : p.Narrow) : (p.code seed).1.Writes NarrowCell m := by
  rcases p with ⟨key, a⟩ | ⟨key, tid, a⟩ | ⟨key, s⟩
  · cases a with
    | contains s | probe tg j n | loadExp j => trivial
    | reserve tg j n => exact narrow_newEntry key
    | release j Exp => exact ⟨0#32, by decide⟩
    | insert a =>
      cases a with
      | first tg c p | second c p => trivial
      | claim tg c p | reuse slot p => exact narrow_entry key
    | relocate Loc a =>
      cases a with
      | getInd r ind | getReplace r | loadExp r | loadDest r | loadFin r Dest | loadMark r => trivial
      | mark r Exp => exact narrow_of_strip (strip_moving Exp) hp
      | copy r Dest Fin => exact hp
      | overwrite r Exp => exact narrow_newEntry key
  · cases a with
    | stamp | testKey final s | testMoving final s | loadSlot j rem | testSlot j slot rem => trivial
    | removeKey final i1 i2 | removeMoving final i2 rem1 => exact hp
    | poison j slot rem => exact narrow_random
  · trivial

theorem narrow_goto (hm : ∀ a, NarrowCell a (m a)) (hp : p.Narrow)
    (hf : (table seed).flow m p = .goto q) : q.Narrow := by
  have hload : ∀ i, Narrow (strip (m (.bucket i))) := fun i =>
    narrow_of_strip (strip_strip _) (hm (.bucket i))
  rcases p with ⟨key, a⟩ | ⟨key, tid, a⟩ | ⟨key, s⟩
  · obtain ⟨b, hg, rfl⟩ | ⟨_, -, hr⟩ := Flow.bind_eq_goto.mp hf
    · cases a with
      | contains s =>
        rcases Flow.bind_eq_goto.mp hg with ⟨s', -, rfl⟩ | ⟨found, -, hb⟩
        · trivial
        · split_ifs at hb
          cases hb
          exact narrow_probeNext
      | probe tg j n =>
        simp only [add] at hg
        split_ifs at hg <;> cases hg
        · exact narrow_probeNext
        · trivial
      | reserve tg j n =>
        simp only [add, Add.reserved] at hg
        split_ifs at hg <;> cases hg
        · exact narrow_probeNext
        · exact narrow_settle
      | loadExp j | release j Exp => cases hg; trivial
      | insert a =>
        rcases Flow.bind_eq_goto.mp hg with ⟨a', -, rfl⟩ | ⟨found, -, hb⟩
        · trivial
        · split_ifs at hb
          cases hb
          trivial
      | relocate Loc a =>
        rcases Flow.bind_eq_goto.mp hg with ⟨a', ha, rfl⟩ | ⟨r, -, hb⟩
        · cases a with
          | getInd r ind | getReplace r =>
            rcases seek_eq_goto.mp ha with ⟨rfl, -⟩ | ⟨rfl, -⟩ <;> trivial
          | loadExp r | loadFin r Dest => cases ha; exact hload r
          | mark r Exp =>
            simp only [relocate] at ha
            split_ifs at ha <;> cases ha <;> trivial
          | loadDest r | copy r Dest Fin | loadMark r => cases ha; trivial
          | overwrite r Exp => cases ha
        · split_ifs at hb
          cases hb
          exact narrow_settle
    · cases hr
  · obtain ⟨b, hg, rfl⟩ | ⟨_, -, hr⟩ := Flow.bind_eq_goto.mp hf
    · cases a with
      | stamp => cases hg; exact narrow_entry _
      | testKey final s =>
        simp only [remove] at hg
        split_ifs at hg <;> cases hg
        · exact narrow_nextScan hp
        · exact hp
      | testMoving final s =>
        simp only [remove] at hg
        split_ifs at hg <;> cases hg <;> exact narrow_nextScan hp
      | removeKey final i1 i2 => cases hg; exact hp
      | removeMoving final i2 rem1 | loadSlot j rem => cases hg; trivial
      | testSlot j slot rem =>
        simp only [remove] at hg
        split_ifs at hg
        · cases hg
          trivial
        · exact narrow_nextSlot hg
      | poison j slot rem => exact narrow_nextSlot hg
    · cases hr
  · obtain ⟨b, hg, rfl⟩ | ⟨_, -, hr⟩ := Flow.bind_eq_goto.mp hf
    · trivial
    · cases hr

/-- If line 262 rewrites no reserved word that an `add` has loaded, then between
operations every slot holds 0, a key or a stamp: 32 bits without a tag. -/
theorem finished_slots_untagged {ls : List (Label Call)} {s : State}
    (hr : (table seed).run ls fresh = some s)
    (hq : (table seed).Along (NoneRobbed seed) ls fresh) (hh : s.halt = none)
    (hidle : ∀ t, s.thr t = none) (i : ℕ) :
    tag (buckets s.mem i) = 0#64 ∧ ∃ k : Key, buckets s.mem i = entry k := by
  have hinv := Machine.run_inv (M := table seed) (Q := NoneRobbed seed)
    (P := fun s => s.halt = none → Sound seed s ∧ Minded s ∧
      (∀ a, NarrowCell a (s.mem a)) ∧ ∀ t p, s.thr t = some p → p.Narrow)
    ?_ (fun _ => ⟨sound_fresh, minded_fresh, ?_, fun _ _ h => by cases h⟩) hq hr hh
  · obtain ⟨-, hM, hN, -⟩ := hinv
    have htag : tag (buckets s.mem i) = 0#64 := by
      refine (hM i).resolve_right ?_
      rintro ⟨t, p, hp, -⟩
      rw [hidle t] at hp
      cases hp
    obtain ⟨k, hk⟩ := hN (.bucket i)
    exact ⟨htag, k, (strip_of_tag htag).symm.trans hk⟩
  · rintro s l s' hP hq hs hh'
    obtain ⟨hS, hM, hN⟩ := hP (Machine.halt_of_step hs)
    refine ⟨sound_step hS hs, hM.step hS hq hs hh', ?_⟩
    exact Machine.words_inv (fun c => by cases c <;> trivial)
      (fun p m _ hp => narrow_writes hp) (fun p m q hm hp hf => narrow_goto hm hp hf) hN hs
  · rintro (j | _)
    · exact narrow_entry 0#32
    · trivial

instance (i : ℕ) : DecidablePred (Pc.Awaits i)
  | .add _ (.release j _) => inferInstanceAs (Decidable (i = j))
  | .add _ (.relocate Loc (.loadFin _ _)) | .add _ (.relocate Loc (.copy _ _ _)) =>
    inferInstanceAs (Decidable (i = Loc))
  | .add _ (.relocate _ (.getInd _ _)) | .add _ (.relocate _ (.getReplace _))
  | .add _ (.relocate _ (.loadExp _)) | .add _ (.relocate _ (.mark _ _))
  | .add _ (.relocate _ (.loadDest _)) | .add _ (.relocate _ (.loadMark _))
  | .add _ (.relocate _ (.overwrite _ _)) | .add _ (.contains _) | .add _ (.probe _ _ _)
  | .add _ (.reserve _ _ _) | .add _ (.loadExp _) | .add _ (.insert _) | .remove _ _ _
  | .contains _ _ => isFalse id

/-- The slot a thread rewrites at line 262, and the word it expects there. -/
def Pc.rewrites? (seed : BitVec 32) : Pc → Option (ℕ × Word)
  | .remove key _ (.poison p slot _) => some (home seed key + p, slot)
  | _ => none

/-- The first thread rewrites no word that the second one has loaded. -/
abbrev RobsNot (seed : BitVec 32) (m : Cell → Word) (p q : Pc) : Prop :=
  ∀ x ∈ p.rewrites? seed, buckets m x.1 = x.2 → x.2 ≠ random → ¬ q.Awaits x.1

theorem NoneRobbed.of_towards {s : State} {l : Label Call} (h : Towards (RobsNot seed) s l) :
    NoneRobbed seed s l := by
  cases l with
  | call t c => trivial
  | move t =>
    intro key tid j slot rem hp hT hne u q hq
    by_cases hut : u = t
    · subst hut
      rw [hp, Option.some.injEq] at hq
      subst hq
      exact id
    · exact h _ hp u hut q hq _ rfl hT hne

/-- Thread 1 has reserved a slot when thread 2's `Remove` rewrites the reserved word, and loads
it afterwards. -/
def rewrittenRun : List (Label Call) :=
  alone 1 (.add 1) 19 ++ alone 2 (.remove 1 0) 72 ++ List.replicate 4 (.move 1)

set_option maxRecDepth 10000 in
theorem rewritten_word_is_taken_away : ∃ s, (table 1).run rewrittenRun fresh = some s ∧
    ∀ i, tag (buckets s.mem i) = 0#64 ∧ ∃ k : Key, buckets s.mem i = entry k := by
  have h : ((table 1).run rewrittenRun fresh).any (fun s => decide (s.halt = none ∧
      ∀ t ∈ ([1, 2] : List ℕ), (s.thr t).isNone)) = true := by decide +kernel
  obtain ⟨s, hs, h⟩ := (Option.any_eq_true _ _).mp h
  obtain ⟨hh, h0⟩ := of_decide_eq_true h
  have hq : (table 1).Along (fun s l => (True ∧ TowardsAmong [1, 2] (RobsNot 1) s l) ∧
      l.thread ∈ [1, 2]) rewrittenRun fresh := by decide +kernel
  have hidle := Machine.idle_of_run hs (fun _ => rfl) (by decide +kernel) h0
  exact ⟨s, hs, finished_slots_untagged hs ((along_towards hq).mono
    fun _ _ _ _ h => .of_towards h.2) hh hidle⟩

/-! ### A leaked reservation

Thread 1 has loaded its reservation (line 165) when thread 2's `Remove` rewrites it. -/

def leakRun : List (Label Call) :=
  alone 1 (.add 1) 20 ++ alone 2 (.remove 1 0) 72 ++ List.replicate 4 (.move 1)

set_option maxRecDepth 10000 in
theorem reserved_word_can_leak : ∃ s, (table 1).run leakRun fresh = some s ∧
    (∀ l ∈ leakRun, NonZero l) ∧ s.halt = none ∧ (∀ t, s.thr t = none) ∧
    tag (buckets s.mem (home 1 1)) = 3#64 := by
  have h : ((table 1).run leakRun fresh).any (fun s => decide (s.halt = none ∧
      (∀ t ∈ ([1, 2] : List ℕ), (s.thr t).isNone) ∧ tag (buckets s.mem (home 1 1)) = 3#64)) = true := by
    decide +kernel
  obtain ⟨s, hs, h⟩ := (Option.any_eq_true _ _).mp h
  obtain ⟨hh, h0, ht⟩ := of_decide_eq_true h
  exact ⟨s, hs, by decide +kernel, hh, Machine.idle_of_run hs (fun _ => rfl) (by decide +kernel) h0,
    ht⟩

end LFHash
