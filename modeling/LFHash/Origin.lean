/-
# Where the words of the table come from

In every run, spurious failures of the weak compare-exchanges included, a word of `Buckets`
is empty or carries under its tag a key some call has asked to add, a stamp that some removal
has drawn, or the word line 262 poisons reserved slots with. So a call that finds a key
finds one of these: no interleaving makes a key out of two others, and none brings one
back from a counter that has not come to it.

The argument is an invariant about what control points carry from one access to the next
(`Pc.Carries`), for any set `O` of words that holds the keys added and the stamps drawn.

Key definitions: `removals`, `Origin`, `Pc.Carries`, `Gives`, `Counted`.
Key theorems: `Pc.carries_next`, `Pc.carries_ret`, `Counted.step`, `found_keys_have_an_origin`.
-/
import LFHash.Removed
import LFHash.Survival

namespace LFHash

open Interleave

variable {seed : BitVec 32} {key : Key} {O : Word → Prop}

/-! ### What control points carry -/

/-- Lines 191 and 197 write what the call has read before. -/
def Relocate.Carries (O : Word → Prop) : Relocate → Prop
  | .mark _ Exp => O (strip Exp)
  | .copy _ _ Fin => O (strip Fin)
  | .getInd _ _ | .getReplace _ | .loadExp _ | .loadDest _ | .loadFin _ _ | .loadMark _
  | .overwrite _ _ => True

def Add.Carries (O : Word → Prop) : Add → Prop
  | .relocate _ q => q.Carries O
  | .contains _ | .probe _ _ _ | .reserve _ _ _ | .loadExp _ | .release _ _ | .insert _ => True

/-- A removal carries its stamp up to line 256, and the news that it has hit the key from
line 253 on. -/
def Remove.Carries (O : Word → Prop) (key : Key) : Remove → Prop
  | .stamp => True
  | .testKey final _ | .testMoving final _ | .removeKey final _ _ => O (strip final)
  | .removeMoving final _ rem1 => O (strip final) ∧ (rem1 = true → O (entry key))
  | .loadSlot _ rem | .testSlot _ _ rem | .poison _ _ rem => rem = true → O (entry key)

def Pc.Carries (O : Word → Prop) : Pc → Prop
  | .add key p => O (entry key) ∧ p.Carries O
  | .remove key _ p => O 0x7FFFFFFF#64 ∧ p.Carries O key
  | .contains key s => s.cxx ≠ 0#64 → O (entry key)

/-- A lookup or a removal that answers true has come upon a word of `O`. -/
def Gives (O : Word → Prop) : Call × Bool → Prop
  | (.add _, _) => True
  | (.remove k _, b) | (.contains k, b) => b = true → O (entry k)

/-- The words of `Buckets` are in `O` under their tags, and `X` holds of the counter. -/
def Holds (O X : Word → Prop) : Cell → Word → Prop
  | .bucket _, v => O (strip v)
  | .timeStamp, v => X v

/-! ### `contains` -/

/-- A scan that sets a bit has read the key. -/
theorem scan_carries {s : Scan} {r : Ans} (h : s.cxx ≠ 0#64 → O (entry key))
    (hr : O (strip r.val)) :
    (if r.val = entry key ∨ r.val = moving (entry key) then setBit s.cxx s.p else s.cxx) ≠ 0#64 →
      O (entry key) := by
  intro hne
  by_cases hit : r.val = entry key ∨ r.val = moving (entry key)
  · rcases hit with he | he
    · rwa [he, strip_entry] at hr
    · rwa [he, strip_moving, strip_entry] at hr
  · rw [if_neg hit] at hne
    exact h hne

theorem contains_carries {s s' : Scan} {r : Ans} (h : s.cxx ≠ 0#64 → O (entry key))
    (hr : O (strip r.val)) (hf : (contains seed key s).2 r = .goto s') :
    s'.cxx ≠ 0#64 → O (entry key) := by
  have hnew := scan_carries h hr
  simp only [contains] at hf
  by_cases hp : s.p < HOP
  · rw [if_pos hp] at hf
    cases hf
    exact hnew
  · rw [if_neg hp] at hf
    cases hf

theorem contains_gives {s : Scan} {r : Ans} {b : Bool} (h : s.cxx ≠ 0#64 → O (entry key))
    (hr : O (strip r.val)) (hf : (contains seed key s).2 r = .ret b) :
    b = true → O (entry key) := by
  have hnew := scan_carries h hr
  simp only [contains] at hf
  by_cases hp : s.p < HOP
  · rw [if_pos hp] at hf
    cases hf
  · rw [if_neg hp] at hf
    cases hf
    intro hb
    exact hnew (by simpa using hb)

/-! ### `add` and `Relocate` -/

theorem Relocate.carries_next {Loc : ℕ} {e : Word} {q q' : Relocate} {r : Ans}
    (hr : O (strip r.val)) (hf : (relocate seed Loc e q).2 r = .goto q') : q'.Carries O := by
  cases q with
  | getInd i ind | getReplace i =>
    rcases seek_eq_goto.mp hf with ⟨rfl, -, -⟩ | ⟨rfl, -, -⟩ <;> trivial
  | loadExp i | loadFin i Dest =>
    cases hf
    show O (strip (strip r.val))
    rwa [strip_strip]
  | mark i Exp =>
    simp only [relocate] at hf
    split_ifs at hf <;> cases hf <;> trivial
  | copy i Dest Fin | loadDest i | loadMark i =>
    cases hf
    trivial
  | overwrite i Exp => cases hf

theorem Add.carries_settle (i : ℕ) : (Add.settle seed key i).Carries O := by
  unfold Add.settle Relocate.start
  split_ifs <;> trivial

theorem Add.carries_probeNext (tg : Word) (i n : ℕ) : (Add.probeNext tg i n).Carries O := by
  unfold Add.probeNext
  split_ifs <;> trivial

theorem Add.carries_next {p p' : Add} {r : Ans} (hr : O (strip r.val))
    (hf : (add seed key p).2 r = .goto p') : p'.Carries O := by
  cases p with
  | contains s =>
    rcases Flow.bind_eq_goto.mp hf with ⟨s', -, rfl⟩ | ⟨b, -, hb⟩
    · trivial
    · split_ifs at hb
      cases hb
      exact carries_probeNext ..
  | probe tg i n =>
    simp only [add] at hf
    split_ifs at hf <;> cases hf
    · exact carries_probeNext ..
    · trivial
  | reserve tg i n =>
    simp only [add, Add.reserved] at hf
    split_ifs at hf <;> cases hf
    · exact carries_probeNext ..
    · exact carries_settle i
  | relocate Loc q =>
    rcases Flow.bind_eq_goto.mp hf with ⟨q', hq, rfl⟩ | ⟨i, -, hk⟩
    · exact Relocate.carries_next hr hq
    · split_ifs at hk
      cases hk
      exact carries_settle i
  | loadExp i | release i Exp =>
    cases hf
    trivial
  | insert q =>
    rcases Flow.bind_eq_goto.mp hf with ⟨q', -, rfl⟩ | ⟨b, -, hb⟩
    · trivial
    · split_ifs at hb
      cases hb
      trivial

/-! ### `Remove` -/

theorem Remove.carries_nextScan {final cxx : Word} {p : ℕ} (h : O (strip final)) :
    (Remove.nextScan final p cxx).Carries O key := by
  unfold Remove.nextScan
  split_ifs
  · exact h
  · exact h

theorem Remove.carries_nextSlot {p : ℕ} {rem : Bool} {q : Remove}
    (h : rem = true → O (entry key)) (hf : Remove.nextSlot p rem = .goto q) :
    q.Carries O key := by
  unfold Remove.nextSlot at hf
  split_ifs at hf
  cases hf
  exact h

/-- A compare-exchange of line 253 or 256 that succeeds has found the key. -/
theorem Remove.carries_next {q q' : Remove} {r : Ans} (h : q.Carries O key)
    (hr : q ≠ .stamp → O (strip r.val)) (hs : q = .stamp → O (finalEntry r.val))
    (ht : (remove seed key q).1.Told r) (hf : (remove seed key q).2 r = .goto q') :
    q'.Carries O key := by
  cases q with
  | stamp =>
    cases hf
    show O (strip (finalEntry r.val))
    rw [strip_of_tag (tag_finalEntry _)]
    exact hs rfl
  | testKey final s =>
    simp only [remove] at hf
    split_ifs at hf <;> cases hf
    · exact carries_nextScan h
    · exact h
  | testMoving final s =>
    simp only [remove] at hf
    split_ifs at hf <;> cases hf <;> exact carries_nextScan h
  | removeKey final i1 i2 =>
    cases hf
    refine ⟨h, fun hok => ?_⟩
    have hread := hr (by simp)
    have hval : r.val = entry key := ht hok
    rwa [hval, strip_entry] at hread
  | removeMoving final i2 rem1 =>
    cases hf
    intro hrem
    rcases Bool.or_eq_true_iff.mp hrem with h1 | hok
    · exact h.2 h1
    · have hread := hr (by simp)
      have hval : r.val = entry key ||| (1#64 <<< 62) := ht hok
      rwa [hval, ← moving_entry, strip_moving, strip_entry] at hread
  | loadSlot p rem =>
    cases hf
    exact h
  | testSlot p slot rem =>
    simp only [remove] at hf
    split_ifs at hf
    · cases hf
      exact h
    · exact carries_nextSlot h hf
  | poison p slot rem => exact carries_nextSlot h hf

theorem Remove.carries_ret {q : Remove} {r : Ans} {b : Bool} (h : q.Carries O key)
    (hf : (remove seed key q).2 r = .ret b) : b = true → O (entry key) := by
  rcases remove_ret hf with ⟨p, slot, rfl⟩ | ⟨p, slot, rfl⟩
  · exact h
  · exact h

/-! ### Every thread -/

/-- What an access replies leads a call on with words of `O`. -/
theorem Pc.carries_next {X : Word → Prop} {p p' : Pc} {r : Ans} (h : p.Carries O)
    (hr : Holds O X (p.code seed).1.addr r.val)
    (hs : p.Draws → X r.val → O (finalEntry r.val)) (ht : (p.code seed).1.Told r)
    (hf : (p.code seed).2 r = .goto p') : p'.Carries O := by
  cases p with
  | add key p =>
    have hread : O (strip r.val) := by
      rcases p with s | ⟨tg, i, n⟩ | ⟨tg, i, n⟩ | ⟨Loc, q⟩ | i | ⟨i, Exp⟩ | q
      · exact hr
      · exact hr
      · exact hr
      · cases q <;> exact hr
      · exact hr
      · exact hr
      · cases q <;> exact hr
    rcases Flow.bind_eq_goto.mp hf with ⟨q, hq, rfl⟩ | ⟨b, -, hb⟩
    · exact ⟨h.1, Add.carries_next hread hq⟩
    · cases hb
  | remove key tid p =>
    rcases Flow.bind_eq_goto.mp hf with ⟨q, hq, rfl⟩ | ⟨b, -, hb⟩
    · refine ⟨h.1, Remove.carries_next h.2 ?_ ?_ ht hq⟩
      · cases p <;> intro hne
        · exact absurd rfl hne
        all_goals exact hr
      · rintro rfl
        exact hs trivial hr
    · cases hb
  | contains key s =>
    rcases Flow.bind_eq_goto.mp hf with ⟨q, hq, rfl⟩ | ⟨b, -, hb⟩
    · exact contains_carries h hr hq
    · cases hb

theorem Pc.carries_ret {X : Word → Prop} {p : Pc} {r : Ans} {x : Call × Bool}
    (h : p.Carries O) (hr : Holds O X (p.code seed).1.addr r.val)
    (hf : (p.code seed).2 r = .ret x) : Gives O x := by
  cases p with
  | add key p =>
    obtain ⟨b, -, hb⟩ := Flow.bind_eq_ret.mp hf
    cases hb
    trivial
  | remove key tid p =>
    obtain ⟨b, hq, hb⟩ := Flow.bind_eq_ret.mp hf
    cases hb
    exact Remove.carries_ret h.2 hq
  | contains key s =>
    obtain ⟨b, hq, hb⟩ := Flow.bind_eq_ret.mp hf
    cases hb
    exact contains_gives h hr hq

/-- Whatever a call writes is a word of `O` under some tag, or empty. -/
theorem Pc.puts {p : Pc} (v : Word) (h : p.Carries O) (h0 : O 0#64) :
    (p.code seed).1.Puts (Holds O fun _ => True) v := by
  cases p with
  | add key p =>
    obtain ⟨hkey, hp⟩ := h
    have hnew : O (strip (newEntry key)) := by
      rwa [newEntry_eq, strip_reserved, strip_entry]
    rcases p with s | ⟨tg, i, n⟩ | ⟨tg, i, n⟩ | ⟨Loc, q⟩ | i | ⟨i, Exp⟩ | q
    · trivial
    · trivial
    · exact hnew
    · cases q with
      | mark i Exp =>
        show O (strip (moving Exp))
        rwa [strip_moving]
      | copy i Dest Fin => exact hp
      | overwrite i Exp => exact hnew
      | getInd | getReplace | loadExp | loadDest | loadFin | loadMark => trivial
    · trivial
    · show O (strip 0#64)
      rwa [strip_zero]
    · cases q with
      | claim tg c p =>
        show O (strip (entry key))
        rwa [strip_entry]
      | reuse slot p =>
        show O (strip (entry key))
        rwa [strip_entry]
      | first | second => trivial
  | remove key tid p =>
    obtain ⟨hpoison, hp⟩ := h
    cases p with
    | stamp => trivial
    | removeKey final i1 i2 => exact hp
    | removeMoving final i2 rem1 => exact hp.1
    | poison p slot rem =>
      show O (strip random)
      exact hpoison
    | testKey | testMoving | loadSlot | testSlot => trivial
  | contains key s => trivial

/-! ### The stamps drawn -/

/-- How many removals the labels begin. -/
def removals (ls : List (WeakLabel Call)) : ℕ :=
  ls.countP fun
    | .step (.call _ (.remove _ _)) => true
    | .step (.call _ (.add _)) | .step (.call _ (.contains _)) | .step (.move _) | .fail _ => false

theorem removals_append (ls ls' : List (WeakLabel Call)) :
    removals (ls ++ ls') = removals ls + removals ls' := List.countP_append

/-- Of the threads that have taken a step, those that draw a stamp next. -/
def drawing (past : List (WeakLabel Call)) (s : State) : Finset ℕ :=
  (past.map WeakLabel.thread).toFinset.filter fun t => (s.thr t).any fun p => p.Draws

/-- The counter is behind the removals that have begun, by those that have still to draw. -/
structure Counted (past : List (WeakLabel Call)) (s : State) : Prop where
  bound : (s.mem .timeStamp).toNat + (drawing past s).card ≤ removals past
  idle : ∀ t, t ∉ past.map WeakLabel.thread → s.thr t = none

variable {past : List (WeakLabel Call)} {s s' : State} {l : WeakLabel Call} {t : ℕ}

theorem mem_drawing : t ∈ drawing past s ↔
    t ∈ past.map WeakLabel.thread ∧ ∃ p, s.thr t = some p ∧ p.Draws := by
  simp [drawing, Option.any_eq_true]

theorem Counted.mem (h : Counted past s) {p : Pc} (hp : s.thr t = some p) :
    t ∈ past.map WeakLabel.thread := by
  by_contra hno
  rw [h.idle t hno] at hp
  cases hp

theorem counted_fresh : Counted [] fresh := ⟨by decide, fun _ _ => rfl⟩

/-- A call draws its stamp first, or never. -/
theorem not_draws_next {p p' : Pc} {r : Ans} (hf : (p.code seed).2 r = .goto p') :
    ¬ p'.Draws := by
  rcases p with ⟨key, a⟩ | ⟨key, tid, q⟩ | ⟨key, sc⟩
  · obtain ⟨a', -, rfl⟩ | ⟨b, -, hb⟩ := Flow.bind_eq_goto.mp hf
    · exact id
    · cases hb
  · obtain ⟨q', hq, rfl⟩ | ⟨b, -, hb⟩ := Flow.bind_eq_goto.mp hf
    · cases q' with
      | stamp =>
        cases q with
        | testKey final sc | testMoving final sc =>
          simp only [remove, Remove.nextScan] at hq
          split_ifs at hq <;> cases hq
        | testSlot n slot rem | poison n slot rem =>
          simp only [remove, Remove.nextSlot] at hq
          split_ifs at hq <;> cases hq
        | stamp | removeKey | removeMoving | loadSlot => cases hq
      | testKey | testMoving | removeKey | removeMoving | loadSlot | testSlot | poison => exact id
    · cases hb
  · obtain ⟨sc', -, rfl⟩ | ⟨b, -, hb⟩ := Flow.bind_eq_goto.mp hf
    · exact id
    · cases hb

/-- A thread that draws goes on with its call; its access is not a weak one. -/
theorem draws_next (seed : BitVec 32) {p : Pc} (h : p.Draws) :
    p.isWeak = false ∧ ∀ r, ∃ p', (p.code seed).2 r = .goto p' := by
  rcases p with ⟨key, a⟩ | ⟨key, tid, q⟩ | ⟨key, sc⟩
  · exact h.elim
  · cases q with
    | stamp => exact ⟨rfl, fun r => ⟨_, rfl⟩⟩
    | testKey | testMoving | removeKey | removeMoving | loadSlot | testSlot | poison => exact h.elim
  · exact h.elim

theorem Counted.call {c : Call} (h : Counted past s)
    (hs : (table seed).step s (.call t c) = some s') :
    Counted (past ++ [.step (.call t c)]) s' := by
  obtain ⟨-, ht, hs'⟩ := Machine.step_call.mp hs
  have hself : s'.thr t = some (Pc.start c) := by
    rw [hs']
    exact Function.update_self ..
  have hother : ∀ u, u ≠ t → s'.thr u = s.thr u := by
    intro u hu
    rw [hs']
    exact Function.update_of_ne hu _ _
  have hmem : s'.mem = s.mem := by rw [hs']
  have hold : ∀ u ∈ drawing (past ++ [.step (.call t c)]) s',
      u ∈ drawing past s ∨ u = t ∧ (Pc.start c).Draws := by
    intro u hu
    obtain ⟨-, p, hp, hd⟩ := mem_drawing.mp hu
    by_cases hut : u = t
    · subst hut
      rw [hself, Option.some.injEq] at hp
      exact Or.inr ⟨rfl, hp ▸ hd⟩
    · rw [hother u hut] at hp
      exact Or.inl (mem_drawing.mpr ⟨h.mem hp, p, hp, hd⟩)
  refine ⟨?_, fun u hu => ?_⟩
  · have hb := h.bound
    rw [hmem]
    cases c with
    | add key | contains key =>
      have hsub := Finset.card_le_card fun u hu => (hold u hu).resolve_right fun hd => hd.2.elim
      rw [removals_append]
      omega
    | remove key tid =>
      have hsub : drawing (past ++ [.step (.call t (.remove key tid))]) s' ⊆
          insert t (drawing past s) := fun u hu => Finset.mem_insert.mpr
        ((hold u hu).elim Or.inr fun hd => Or.inl hd.1)
      have hcard := le_trans (Finset.card_le_card hsub) (Finset.card_insert_le t _)
      have hcount : removals (past ++ [.step (.call t (.remove key tid))]) = removals past + 1 := by
        rw [removals_append]
        rfl
      omega
  · rw [List.map_append, List.mem_append, not_or] at hu
    have hut : u ≠ t := fun he => hu.2 (List.mem_singleton.mpr he)
    rw [hother u hut]
    exact h.idle u hu.1

/-- A draw moves the counter on and takes its thread out of those that draw; no other access
does either. -/
theorem Counted.step (h : Counted past s)
    (hs : (table seed).weakStep Pc.isWeak s l = some s') : Counted (past ++ [l]) s' := by
  rcases Machine.weakStep_cases hs with ⟨t, c, rfl, hc⟩ | ⟨-, -, p, r, m', hp, -, hs', hl⟩
  · exact h.call hc
  have hother : ∀ u, u ≠ l.thread → s'.thr u = s.thr u := by
    intro u hu
    rw [hs']
    exact Config.follow_thr_of_ne hu _
  have hmem : s'.mem = m' := by rw [hs', Config.follow_mem]
  have hnext : ∀ q, s'.thr l.thread = some q → ¬ q.Draws := by
    intro q hq hd
    rw [hs'] at hq
    cases hf : ((table seed).code p).2 r with
    | goto p' =>
      rw [hf] at hq
      obtain rfl : p' = q := by simpa [Config.follow] using hq
      exact not_draws_next hf hd
    | ret x =>
      rw [hf] at hq
      simp [Config.follow] at hq
    | exit e =>
      rw [hf] at hq
      have heq : some p = some q := hp.symm.trans hq
      cases heq
      obtain ⟨p', hgo⟩ := (draws_next seed hd).2 r
      cases hf.symm.trans hgo
  have hold : drawing (past ++ [l]) s' ⊆ (drawing past s).erase l.thread := by
    intro u hu
    obtain ⟨-, q, hq, hd⟩ := mem_drawing.mp hu
    have hut : u ≠ l.thread := fun he => hnext q (he ▸ hq) hd
    rw [hother u hut] at hq
    exact Finset.mem_erase.mpr ⟨hut, mem_drawing.mpr ⟨h.mem hq, q, hq, hd⟩⟩
  have hb := h.bound
  have hcard := Finset.card_le_card hold
  refine ⟨?_, fun u hu => ?_⟩
  · rw [hmem, removals_append]
    by_cases hd : p.Draws
    · have hin : l.thread ∈ drawing past s := mem_drawing.mpr ⟨h.mem hp, p, hp, hd⟩
      have hpos := Finset.card_pos.mpr ⟨_, hin⟩
      rw [Finset.card_erase_of_mem hin] at hcard
      have hle : (m' .timeStamp).toNat ≤ (s.mem .timeStamp).toNat + 1 := by
        rcases hl with ⟨-, he⟩ | ⟨-, hw, -⟩
        · have hm' : m' = Function.update s.mem .timeStamp (s.mem .timeStamp + 1#64) := by
            rw [← draws_flow hd]
            exact (congrArg Prod.snd he).symm
          rw [hm', Function.update_self, BitVec.toNat_add]
          exact Nat.mod_le _ _
        · rw [(draws_next seed hd).1] at hw
          cases hw
      omega
    · have hsame : m' .timeStamp = s.mem .timeStamp := by
        rcases hl with ⟨-, he⟩ | ⟨-, -, rfl⟩
        · rw [← timeStamp_exec (m := s.mem) hd]
          exact (congrFun (congrArg Prod.snd he) _).symm
        · rfl
      have herase := Finset.card_le_card (Finset.erase_subset l.thread (drawing past s))
      rw [hsame]
      omega
  · rw [List.map_append, List.mem_append, not_or] at hu
    have hut : u ≠ l.thread := fun he => hu.2 (List.mem_singleton.mpr he)
    rw [hother u hut]
    exact h.idle u hu.1

/-- A thread that draws finds the counter below the number of removals. -/
theorem Counted.lt (h : Counted past s) {p : Pc} (hp : s.thr t = some p) (hd : p.Draws) :
    (s.mem .timeStamp).toNat < removals past := by
  have hpos := Finset.card_pos.mpr ⟨t, mem_drawing.mpr ⟨h.mem hp, p, hp, hd⟩⟩
  have hb := h.bound
  omega

/-! ### Runs -/

/-- Where a word under a tag comes from, when the calls and accesses `ls` have been made. -/
inductive Origin (ls : List (WeakLabel Call)) : Word → Prop
  | empty : Origin ls 0#64
  | added {t : ℕ} {k : Key} (h : .step (.call t (.add k)) ∈ ls) : Origin ls (entry k)
  | drawn {w : Word} (h : w.toNat < removals ls) (h30 : w.toNat < 2 ^ 30) : Origin ls w
  | poison (h : 0 < removals ls) : Origin ls 0x7FFFFFFF#64

theorem Origin.append {ls : List (WeakLabel Call)} {w : Word} (h : Origin ls w)
    (ls' : List (WeakLabel Call)) : Origin (ls ++ ls') w := by
  have hle : removals ls ≤ removals (ls ++ ls') := by
    rw [removals_append]
    exact Nat.le_add_right _ _
  cases h with
  | empty => exact .empty
  | added h => exact .added (List.mem_append_left _ h)
  | drawn h h30 => exact .drawn (lt_of_lt_of_le h hle) h30
  | poison h => exact .poison (lt_of_lt_of_le h hle)

/-- The words of the table, of the calls under way and of the answers given have an origin. -/
abbrev Traced (past : List (WeakLabel Call)) (s : State) : Prop :=
  Carried (Holds (Origin past) fun _ => True) (Pc.Carries (Origin past)) (Gives (Origin past)) s

/-- A larger set of words carries what a smaller one does. -/
theorem Pc.Carries.mono {O' : Word → Prop} (hO : ∀ w, O w → O' w) {p : Pc} (h : p.Carries O) :
    p.Carries O' := by
  rcases p with ⟨key, a⟩ | ⟨key, tid, q⟩ | ⟨key, sc⟩
  · refine ⟨hO _ h.1, ?_⟩
    cases a with
    | relocate Loc q =>
      cases q with
      | mark | copy => exact hO _ h.2
      | getInd | getReplace | loadExp | loadDest | loadFin | loadMark | overwrite => trivial
    | contains | probe | reserve | loadExp | release | insert => trivial
  · refine ⟨hO _ h.1, ?_⟩
    cases q with
    | stamp => trivial
    | testKey | testMoving | removeKey => exact hO _ h.2
    | removeMoving final i2 rem1 => exact ⟨hO _ h.2.1, fun hr => hO _ (h.2.2 hr)⟩
    | loadSlot | testSlot | poison => exact fun hr => hO _ (h.2 hr)
  · exact fun hne => hO _ (h hne)

theorem Gives.mono {O' : Word → Prop} (hO : ∀ w, O w → O' w) {x : Call × Bool}
    (h : Gives O x) : Gives O' x := by
  rcases x with ⟨c, b⟩
  cases c with
  | add key => trivial
  | remove key tid | contains key => exact fun hb => hO _ (h hb)

theorem traced_fresh : Traced [] fresh where
  word a := by
    cases a with
    | bucket i =>
      show Origin [] (strip 0#64)
      rw [strip_zero]
      exact .empty
    | timeStamp => trivial
  point _ _ h := by cases h
  result _ _ h := by cases h

theorem Traced.step (h : Traced past s) (hc : Counted past s)
    (hs : (table seed).weakStep Pc.isWeak s l = some s') : Traced (past ++ [l]) s' := by
  have hO : ∀ w, Origin past w → Origin (past ++ [l]) w := fun w hw => hw.append [l]
  -- at the step itself the counter is known, and what a draw makes of it has an origin
  have hnow : Carried (Holds (Origin (past ++ [l])) fun v => v = s.mem .timeStamp)
      (fun p => p.Carries (Origin (past ++ [l])) ∧
        (p.Draws → Origin (past ++ [l]) (finalEntry (s.mem .timeStamp))))
      (Gives (Origin (past ++ [l]))) s := by
    refine ⟨fun a => ?_, fun t p hp => ⟨(h.point t p hp).mono hO, fun hd => hO _ ?_⟩,
      fun t r hr => (h.result t r hr).mono hO⟩
    · cases a with
      | bucket i => exact hO _ (h.word (.bucket i))
      | timeStamp => rfl
    · have hlt := hc.lt hp hd
      have hmod := Nat.mod_le (s.mem .timeStamp).toNat (2 ^ 30)
      refine .drawn ?_ ?_ <;> rw [toNat_finalEntry]
      · omega
      · exact Nat.mod_lt _ (by norm_num)
  refine hnow.step hs ?_ (fun p hp => hp.1) (fun r hr => hr) ?_ ?_ ?_ ?_
  · rintro (i | _) v hv
    · exact hv
    · trivial
  · rintro t c rfl
    cases c with
    | add key => exact ⟨.added (List.mem_append_right _ List.mem_cons_self), trivial⟩
    | remove key tid =>
      refine ⟨.poison ?_, trivial⟩
      rw [removals_append]
      exact Nat.lt_of_lt_of_le Nat.zero_lt_one (Nat.le_add_left _ _)
    | contains key => exact fun hne => absurd rfl hne
  · exact fun p v hp _ => Pc.puts v hp.1 .empty
  · exact fun p r p' hp hr ht hf =>
      Pc.carries_next hp.1 hr (fun hd hval => hval ▸ hp.2 hd) ht hf
  · exact fun p r x hp hr _ hf => Pc.carries_ret hp.1 hr hf

/-- In every run, spurious failures included, the words of the table and the keys found have
an origin: a key that a lookup or a removal finds has been asked for by an `add`, or is
the poison word of line 262, or is below the number of removals and below 2^30. -/
theorem found_keys_have_an_origin {ls : List (WeakLabel Call)}
    (hr : (table seed).weakRun Pc.isWeak ls fresh = some s) :
    (∀ i, Origin ls (strip (buckets s.mem i))) ∧
    ∀ t k tid, k ≠ 0#32 → (t, (.contains k, true)) ∈ s.log ∨ (t, (.remove k tid, true)) ∈ s.log →
      (∃ u, .step (.call u (.add k)) ∈ ls) ∨ (k = 0x7FFFFFFF#32 ∧ 0 < removals ls) ∨
        k.toNat < min (removals ls) (2 ^ 30) := by
  have hinv := Machine.weakRun_past
    (P := fun past s => Traced (past : List (WeakLabel Call)) s ∧ Counted past s)
    (fun past s l s' h hs => ⟨h.1.step h.2 hs, h.2.step hs⟩) ⟨traced_fresh, counted_fresh⟩ hr
  rw [List.nil_append] at hinv
  refine ⟨fun i => hinv.1.word (.bucket i), fun t k tid hk hfound => ?_⟩
  have horigin : Origin ls (entry k) := by
    rcases hfound with hf | hf
    · exact hinv.1.result t _ hf rfl
    · exact hinv.1.result t _ hf rfl
  generalize hw : entry k = w at horigin
  cases horigin with
  | empty => exact absurd hw (entry_ne_zero hk)
  | added h =>
    rw [entry_inj hw]
    exact Or.inl ⟨_, h⟩
  | drawn h h30 =>
    rw [← hw, toNat_entry] at h h30
    exact Or.inr (Or.inr (lt_min h h30))
  | poison h =>
    refine Or.inr (Or.inl ⟨entry_inj (hw.trans ?_), h⟩)
    decide

/-- The key 1 is added and removed twice, and looked up: the second stamp is 1. -/
def foundAgain : List (WeakLabel Call) := (twiceRemoved ++ alone 0 (.contains 1) 17).map .step

set_option maxRecDepth 10000 in
theorem found_again_has_an_origin : ∃ s,
    (table 1).weakRun Pc.isWeak foundAgain fresh = some s ∧ s.thr 0 = none ∧
    (0, (.contains 1, true)) ∈ s.log ∧
    ((∃ u, .step (.call u (.add 1)) ∈ foundAgain) ∨
      ((1 : Key) = 0x7FFFFFFF#32 ∧ 0 < removals foundAgain) ∨
        (1 : Key).toNat < min (removals foundAgain) (2 ^ 30)) := by
  have h : ((table 1).weakRun Pc.isWeak foundAgain fresh).any (fun s => decide (
      s.thr 0 = none ∧ (0, (.contains 1, true)) ∈ s.log)) = true := by
    decide +kernel
  obtain ⟨s, hs, hend⟩ := (Option.any_eq_true _ _).mp h
  obtain ⟨h0, hlog⟩ := of_decide_eq_true hend
  exact ⟨s, hs, h0, hlog,
    (found_keys_have_an_origin hs).2 0 1 0 (by decide) (Or.inl hlog)⟩

end LFHash
