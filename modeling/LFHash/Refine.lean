/-
# The code keeps the logical table

`Inv` holds between the table and its logical table `L` as long as every step
is `Clean`: a claiming compare-exchange (lines 123 and 156) succeeds on an empty
slot only, and a removal hits neither a slot that is being moved (line 256) nor
a reserved one (line 262). What a clean step does is an `Act`: of these, line
197 moves a word of `L` forward, line 123 inserts a key into its window, line
253 replaces a removed key by its stamp, and all others leave `L` as it is.

Key definitions: `Pc.role`, `Pc.Pending`, `Moves`, `Clean`, `Inv`, `Act`.
Key theorems: `Inv.call`, `Inv.move`, `Act.kept`.
-/
import LFHash.Logical

namespace LFHash

open Interleave Hopscotch

variable {seed : BitVec 32}

/-! ### What a control point owns and knows -/

def Relocate.role (Loc : ℕ) : Relocate → Role
  | .getInd _ _ | .getReplace _ | .loadExp _ | .mark _ _ => .hold Loc
  | .loadDest r | .loadFin r _ | .copy r _ _ => .marking Loc r
  | .loadMark r | .overwrite r _ => .copied r

def Add.role : Add → Role
  | .relocate Loc q => q.role Loc
  | .loadExp i | .release i _ => .hold i
  | .contains _ | .probe _ _ _ | .reserve _ _ _ | .insert _ => .free

def Pc.role : Pc → Role
  | .add _ p => p.role
  | .remove _ _ _ | .contains _ _ => .free

/-- A thread that runs no call owns nothing. -/
def threadRole : Option Pc → Role
  | some p => p.role
  | none => .free

/-- What a thread has loaded from its own slots is still there. -/
def Relocate.Pending (T : ℕ → Word) (Loc : ℕ) : Relocate → Prop
  | .loadFin _ Dest => Dest = T Loc
  | .copy r Dest Fin => Dest = T Loc ∧ Fin = strip (T r)
  | .overwrite r Exp => Exp = T r
  | _ => True

def Add.Pending (T : ℕ → Word) : Add → Prop
  | .relocate Loc q => q.Pending T Loc
  | .release i Exp => Exp = T i
  | _ => True

def Pc.Pending (T : ℕ → Word) : Pc → Prop
  | .add _ p => p.Pending T
  | _ => True

theorem Pc.Pending.congr {T T' : ℕ → Word} {p : Pc} (h : p.Pending T)
    (hs : ∀ i, p.role.Owns i → T' i = T i) : p.Pending T' := by
  rcases p with ⟨key, p⟩ | ⟨key, tid, p⟩ | ⟨key, s⟩
  · cases p with
    | relocate Loc q =>
      cases q with
      | loadFin r Dest => exact h.trans (hs Loc (Or.inl rfl)).symm
      | copy r Dest Fin =>
        exact ⟨h.1.trans (hs Loc (Or.inl rfl)).symm, h.2.trans (by rw [hs r (Or.inr rfl)])⟩
      | overwrite r Exp => exact h.trans (hs r rfl).symm
      | getInd | getReplace | loadExp | mark | loadDest | loadMark => trivial
    | release i Exp => exact h.trans (hs i rfl).symm
    | contains | probe | reserve | loadExp | insert => trivial
  · trivial
  · trivial

@[simp] theorem role_probeNext {tg : Word} {i n : ℕ} : (Add.probeNext tg i n).role = .free := by
  unfold Add.probeNext
  split_ifs <;> rfl

theorem pending_probeNext {T : ℕ → Word} {tg : Word} {i n : ℕ} :
    (Add.probeNext tg i n).Pending T := by
  unfold Add.probeNext
  split_ifs <;> trivial

@[simp] theorem role_settle {key : Key} {i : ℕ} : (Add.settle seed key i).role = .hold i := by
  unfold Add.settle
  split_ifs <;> rfl

theorem pending_settle {T : ℕ → Word} {key : Key} {i : ℕ} :
    (Add.settle seed key i).Pending T := by
  unfold Add.settle
  split_ifs <;> trivial

/-! ### Clean steps -/

@[simp] theorem buckets_update (m : Cell → Word) (i : ℕ) (w : Word) :
    buckets (Function.update m (.bucket i) w) = Function.update (buckets m) i w := by
  funext j
  by_cases h : j = i
  · subst h; simp [buckets]
  · simp [buckets, h]

@[simp] theorem buckets_timeStamp (m : Cell → Word) (w : Word) :
    buckets (Function.update m .timeStamp w) = buckets m := by
  funext j
  simp [buckets]

/-- The claims of lines 123 and 156 succeed on an empty slot only. -/
def ClaimsEmpty (seed : BitVec 32) (T : ℕ → Word) : Pc → Prop
  | .add _ (.reserve tg i _) => T i = tg → tg = 0#64
  | .add key (.insert (.claim tg _ p)) => T (home seed key + p) = tg → tg = 0#64
  | _ => True

/-- Lines 256 and 262 change no slot an `add` owns. -/
def RemovesNothingOwned (seed : BitVec 32) (T : ℕ → Word) : Pc → Prop
  | .remove key _ (.removeMoving _ i2 _) => T (home seed key + i2) ≠ moving (entry key)
  | .remove key _ (.poison p slot _) => T (home seed key + p) ≠ slot
  | _ => True

/-- The move of a thread is taken from a table and a control point that meet `Q`. -/
def Moves (Q : (ℕ → Word) → Pc → Prop) (s : State) : Label Call → Prop
  | .call _ _ => True
  | .move t => ∀ p, s.thr t = some p → Q (buckets s.mem) p

/-- The step takes no branch on which an operation touches another's slot. -/
def Clean (seed : BitVec 32) : State → Label Call → Prop :=
  Moves fun T p => ClaimsEmpty seed T p ∧ RemovesNothingOwned seed T p

instance (T : ℕ → Word) : DecidablePred (ClaimsEmpty seed T)
  | .add _ (.reserve tg i _) => inferInstanceAs (Decidable (T i = tg → tg = 0#64))
  | .add key (.insert (.claim tg _ p)) =>
    inferInstanceAs (Decidable (T (home seed key + p) = tg → tg = 0#64))
  | .add _ (.contains _) | .add _ (.probe _ _ _) | .add _ (.relocate _ _) | .add _ (.loadExp _)
  | .add _ (.release _ _) | .add _ (.insert (.first _ _ _)) | .add _ (.insert (.second _ _))
  | .add _ (.insert (.reuse _ _)) | .remove _ _ _ | .contains _ _ => isTrue trivial

instance {Q : (ℕ → Word) → Pc → Prop} [∀ T, DecidablePred (Q T)] (s : State) :
    ∀ l, Decidable (Moves Q s l)
  | .call _ _ => isTrue trivial
  | .move t =>
    match h : s.thr t with
    | none => isTrue fun p hp => by rw [h] at hp; cases hp
    | some p => decidable_of_iff (Q (buckets s.mem) p)
        ⟨fun hq p' hp => by rw [h, Option.some.injEq] at hp; exact hp ▸ hq, fun hq => hq p h⟩

/-- The index is one of the array `Buckets`. -/
def Cell.Inside : Cell → Prop
  | .bucket i => i < TotalBuckets
  | .timeStamp => True

/-- A move's access stays inside the array. -/
def Inside (seed : BitVec 32) : State → Label Call → Prop :=
  Moves fun _ p => (p.code seed).1.addr.Inside

instance : DecidablePred Cell.Inside
  | .bucket i => inferInstanceAs (Decidable (i < TotalBuckets))
  | .timeStamp => isTrue trivial

instance (s : State) (l : Label Call) : Decidable (Inside seed s l) :=
  inferInstanceAs (Decidable (Moves _ s l))

/-! ### Where an access leads -/

variable {m : Cell → Word}

/-- The control point a thread at `p` goes on to with its reply. -/
abbrev next (seed : BitVec 32) (m : Cell → Word) (p : Pc) : Option Pc :=
  ((p.code seed).2 ((p.code seed).1.exec m).1).point?

/-- Where the code of `add` goes from `p`. -/
abbrev addFlow (seed : BitVec 32) (key : Key) (m : Cell → Word) (p : Add) : Flow Add Bool Exit :=
  (add seed key p).2 ((add seed key p).1.exec m).1

theorem next_add {key : Key} {p : Add} :
    next seed m (.add key p) = (addFlow seed key m p).point?.map (Pc.add key) := by
  simp [next, Pc.code]

theorem next_add_eq_some {key : Key} {p : Add} {x : Pc} : next seed m (.add key p) = some x ↔
    ∃ q, addFlow seed key m p = .goto q ∧ x = .add key q := by
  rw [next_add]
  cases addFlow seed key m p <;> simp [Flow.point?, eq_comm]

/-- Only an `add` leads to a control point of `add`. -/
theorem next_eq_add {p : Pc} {key : Key} {q : Add} (h : next seed m p = some (.add key q)) :
    ∃ a, addFlow seed key m a = .goto q ∧ p = .add key a := by
  rcases p with ⟨key', a⟩ | ⟨key', tid, a⟩ | ⟨key', sc⟩
  · obtain ⟨b, hf, e⟩ := next_add_eq_some.mp h
    cases e
    exact ⟨a, hf, rfl⟩
  · simp [next, Pc.code, Option.map_eq_some_iff] at h
  · simp [next, Pc.code, Option.map_eq_some_iff] at h

theorem next_of_addFlow {key : Key} {p q : Add} (hf : addFlow seed key m p = .goto q) :
    next seed m (.add key p) = some (.add key q) := by
  rw [next_add, hf]
  rfl

/-- Where the code of `Remove` goes from `q`. -/
abbrev removeFlow (seed : BitVec 32) (key : Key) (m : Cell → Word) (q : Remove) :
    Flow Remove Bool Exit :=
  (remove seed key q).2 ((remove seed key q).1.exec m).1

/-- Past line 253: whether the removal has erased its key. -/
def Remove.erased : Remove → Bool
  | .removeMoving _ _ rem | .loadSlot _ rem | .testSlot _ _ rem | .poison _ _ rem => rem
  | .stamp | .testKey _ _ | .testMoving _ _ | .removeKey _ _ _ => false

/-! ### The calls of a run -/

/-- The call a thread runs. -/
def Pc.call : Pc → Call
  | .add key _ => .add key
  | .remove key tid _ => .remove key tid
  | .contains key _ => .contains key

theorem Pc.call_start (c : Call) : (Pc.start c).call = c := by cases c <;> rfl

/-- An access stays inside its call, whatever it replies. -/
theorem Pc.call_goto {p p' : Pc} {r : Ans} (h : (p.code seed).2 r = .goto p') :
    p'.call = p.call := by
  rcases p with ⟨key, a⟩ | ⟨key, tid, a⟩ | ⟨key, sc⟩
  all_goals
    obtain ⟨q, -, rfl⟩ | ⟨b, -, hb⟩ := Flow.bind_eq_goto.mp h
    · rfl
    · cases hb

theorem Pc.call_next {p p' : Pc} (h : (table seed).flow m p = .goto p') : p'.call = p.call :=
  Pc.call_goto h

/-- A call returns under its own name. -/
theorem Pc.call_ret {p : Pc} {r : Call × Bool} (h : (table seed).flow m p = .ret r) :
    r.1 = p.call := by
  rcases p with ⟨key, a⟩ | ⟨key, tid, a⟩ | ⟨key, sc⟩
  all_goals
    obtain ⟨b, -, hb⟩ := Flow.bind_eq_ret.mp h
    cases hb
    rfl

/-- Only an `add` exits. -/
theorem exit_add {p : Pc} {r : Ans} {x : Exit} (h : ((table seed).code p).2 r = .exit x) :
    ∃ key a, p = .add key a ∧ (add seed key a).2 r = .exit x := by
  rcases p with ⟨key, a⟩ | ⟨key, tid, a⟩ | ⟨key, sc⟩
  all_goals obtain hf | ⟨_, -, hr⟩ := Flow.bind_eq_exit.mp h
  · exact ⟨key, a, rfl, hf⟩
  · cases hr
  · cases a with
    | testKey final s | testMoving final s =>
      simp only [remove] at hf
      split_ifs at hf
    | testSlot j slot rem =>
      simp only [remove, Remove.nextSlot] at hf
      split_ifs at hf
    | poison j slot rem =>
      simp only [remove, Remove.nextSlot] at hf
      split_ifs at hf
    | stamp | removeKey | removeMoving | loadSlot => cases hf
  · cases hr
  · simp only [contains] at hf
    split_ifs at hf
  · cases hr

/-- Where an `add` exits: after a probe that has run out of slots, at the end of a search
or after a relocation that has not left its slot, and after the second loop of its
insertion. -/
theorem add_exit {key : Key} {p : Add} {r : Ans} {x : Exit}
    (h : (add seed key p).2 r = .exit x) :
    (x = .insertionFailure ∧ ∃ tg i n, p = .reserve tg i n ∧ ADD_RANGE ≤ n) ∨
    (x = .resize ∧ ∃ Loc r q, p = .relocate Loc q ∧ Loc ≤ r ∧
      ((∃ ind, q = .getInd r ind) ∨ q = .getReplace r)) ∨
    (x = .sameSlot ∧ ∃ Loc Exp, p = .relocate Loc (.overwrite Loc Exp)) ∨
    x = .needRehashing ∧ ∃ c j, p = .insert (.second c j) := by
  cases p with
  | contains s =>
    rcases Flow.bind_eq_exit.mp h with hs | ⟨found, -, hb⟩
    · simp only [contains] at hs
      split_ifs at hs
    · split_ifs at hb
  | probe tg i n =>
    simp only [add] at h
    split_ifs at h
  | reserve tg i n =>
    simp only [add, Add.reserved] at h
    split_ifs at h with _ hn
    cases h
    exact Or.inl ⟨rfl, tg, i, n, rfl, hn⟩
  | relocate Loc q =>
    rcases Flow.bind_eq_exit.mp h with hs | ⟨r, hr, hb⟩
    · cases q with
      | getInd r ind =>
        obtain ⟨rfl, hle⟩ := seek_eq_exit.mp hs
        exact Or.inr (Or.inl ⟨rfl, Loc, r, _, rfl, hle, Or.inl ⟨ind, rfl⟩⟩)
      | getReplace r =>
        obtain ⟨rfl, hle⟩ := seek_eq_exit.mp hs
        exact Or.inr (Or.inl ⟨rfl, Loc, r, _, rfl, hle, Or.inr rfl⟩)
      | mark r Exp =>
        simp only [relocate] at hs
        split_ifs at hs
      | loadExp | loadDest | loadFin | copy | loadMark | overwrite => cases hs
    · obtain ⟨Exp, rfl⟩ := relocate_ret hr
      split_ifs at hb with hsame
      cases hb
      subst hsame
      exact Or.inr (Or.inr (Or.inl ⟨rfl, Loc, Exp, rfl⟩))
  | loadExp i | release i Exp => cases h
  | insert q =>
    rcases Flow.bind_eq_exit.mp h with hs | ⟨b, -, hb⟩
    · cases q with
      | second c j =>
        simp only [bucketInsert] at hs
        split_ifs at hs
        cases hs
        exact Or.inr (Or.inr (Or.inr ⟨rfl, c, j, rfl⟩))
      | first tg c j | claim tg c j =>
        simp only [bucketInsert] at hs
        split_ifs at hs
      | reuse slot j => cases hs
    · split_ifs at hb

/-- Only calls that `P` allows their threads begin. -/
def Calls (P : ℕ → Call → Prop) : Label Call → Prop
  | .call t c => P t c
  | .move _ => True

/-- Only calls that `P` allows their threads run. -/
def Running (P : ℕ → Call → Prop) (s : State) : Prop := ∀ t p, s.thr t = some p → P t p.call

theorem Running.step {P : ℕ → Call → Prop} {s s' : State} {l : Label Call} (h : Running P s)
    (hl : Calls P l) (hs : (table seed).step s l = some s') : Running P s' := by
  intro u p' hu
  by_cases hut : u = l.thread
  · subst hut
    cases l with
    | call t c =>
      obtain ⟨-, -, rfl⟩ := Machine.step_call.mp hs
      obtain rfl : Pc.start c = p' := by simpa [table, Label.thread] using hu
      rw [Pc.call_start]
      exact hl
    | move t =>
      obtain ⟨-, p, hp, rfl⟩ := Machine.step_move.mp hs
      have hP := h t p hp
      show P t p'.call
      change ((table seed).advance t p s).thr t = some p' at hu
      cases hf : (table seed).flow s.mem p with
      | goto q =>
        rw [Machine.advance_goto hf] at hu
        obtain rfl : q = p' := by simpa using hu
        rwa [Pc.call_next hf]
      | ret r =>
        rw [Machine.advance_ret hf] at hu
        simp at hu
      | exit e =>
        rw [Machine.advance_exit hf] at hu
        have he : s.thr t = some p' := hu
        exact h t p' he
  · rw [Machine.step_thr_of_ne hs hut] at hu
    exact h u p' hu

/-- When a thread moves, each other one meets `R` with it. -/
def Towards (R : (Cell → Word) → Pc → Pc → Prop) (s : State) : Label Call → Prop
  | .call _ _ => True
  | .move t => ∀ p, s.thr t = some p → ∀ u ≠ t, ∀ q, s.thr u = some q → R s.mem p q

/-- When a thread moves, each other one of `ts` meets `R` with it. -/
def TowardsAmong (ts : List ℕ) (R : (Cell → Word) → Pc → Pc → Prop) (s : State) :
    Label Call → Prop
  | .call _ _ => True
  | .move t => ∀ p ∈ s.thr t, ∀ u ∈ ts, u ≠ t → ∀ q ∈ s.thr u, R s.mem p q

instance {ts : List ℕ} {R : (Cell → Word) → Pc → Pc → Prop} [∀ m p q, Decidable (R m p q)]
    (s : State) : ∀ l, Decidable (TowardsAmong ts R s l)
  | .call _ _ => isTrue trivial
  | .move t => inferInstanceAs
      (Decidable (∀ p ∈ s.thr t, ∀ u ∈ ts, u ≠ t → ∀ q ∈ s.thr u, R s.mem p q))

theorem Towards.of_among {ts : List ℕ} {R : (Cell → Word) → Pc → Pc → Prop} {s : State}
    {l : Label Call} (hidle : ∀ u ∉ ts, s.thr u = none) (h : TowardsAmong ts R s l) :
    Towards R s l := by
  cases l with
  | call t c => trivial
  | move t =>
    intro p hp u hut q hq
    by_cases hu : u ∈ ts
    · exact h p hp u hu hut q hq
    · rw [hidle u hu] at hq
      cases hq

/-- While the threads of `ts` take all steps, nobody else has to be looked at. -/
theorem along_towards {ts : List ℕ} {R : (Cell → Word) → Pc → Pc → Prop}
    {Q : State → Label Call → Prop} {ls : List (Label Call)}
    (h : (table seed).Along (fun s l => (Q s l ∧ TowardsAmong ts R s l) ∧ l.thread ∈ ts) ls fresh) :
    (table seed).Along (fun s l => Q s l ∧ Towards R s l) ls fresh :=
  (h.idle_outside fun _ _ => rfl).mono fun _ _ _ _ h => ⟨h.2.1.1, .of_among h.1 h.2.1.2⟩

theorem weakAlong_towards {weak : Pc → Bool} {ts : List ℕ} {R : (Cell → Word) → Pc → Pc → Prop}
    {Q : State → Label Call → Prop} {ls : List (WeakLabel Call)}
    (h : (table seed).WeakAlong weak (fun s l =>
      Machine.OnSteps (fun s l => Q s l ∧ TowardsAmong ts R s l) s l ∧ l.thread ∈ ts) ls fresh) :
    (table seed).WeakAlong weak (Machine.OnSteps fun s l => Q s l ∧ Towards R s l) ls fresh := by
  refine (Machine.WeakAlong.idle_outside (fun _ _ => rfl) h).mono fun s l _ _ h => ?_
  cases l with
  | step l => exact ⟨h.2.1.1, .of_among h.1 h.2.1.2⟩
  | fail t => trivial

/-- The `add` that a thread is inside. -/
def Pc.adds? : Pc → Option (Key × Add)
  | .add key a => some (key, a)
  | .remove _ _ _ | .contains _ _ => none

/-- Thread `t` runs the call `c`, or has returned from it. -/
def Begun (s : State) (t : ℕ) (c : Call) : Prop :=
  (∃ p, s.thr t = some p ∧ p.call = c) ∨ ∃ b, (t, c, b) ∈ s.log

theorem Begun.step {s s' : State} {t : ℕ} {c : Call} {l : Label Call} (h : Begun s t c)
    (hs : (table seed).step s l = some s') : Begun s' t c := by
  have hlog : ∀ r ∈ s.log, r ∈ s'.log := by
    intro r hr
    cases l with
    | call u c' =>
      obtain ⟨-, -, rfl⟩ := Machine.step_call.mp hs
      exact hr
    | move u =>
      obtain ⟨-, p, -, rfl⟩ := Machine.step_move.mp hs
      rcases Machine.advance_log (M := table seed) (s := s) u p with he | ⟨r', -, he⟩ <;> rw [he]
      · exact hr
      · exact List.mem_cons_of_mem _ hr
  rcases h with ⟨p, hp, hc⟩ | ⟨b, hb⟩
  · by_cases htl : t = l.thread
    · cases l with
      | call u c' =>
        obtain rfl : t = u := htl
        rw [(Machine.step_call.mp hs).2.1] at hp
        cases hp
      | move u =>
        obtain rfl : t = u := htl
        obtain rfl := Machine.eq_advance hp hs
        cases hf : (table seed).flow s.mem p with
        | goto p' =>
          refine Or.inl ⟨p', Machine.advance_thr_goto hf, ?_⟩
          rw [Pc.call_next hf, hc]
        | ret r =>
          rw [Machine.advance_ret hf]
          refine Or.inr ⟨r.2, ?_⟩
          rw [← hc, ← Pc.call_ret hf]
          exact List.mem_cons_self
        | exit e =>
          rw [Machine.advance_exit hf]
          exact Or.inl ⟨p, hp, hc⟩
    · exact Or.inl ⟨p, by rw [Machine.step_thr_of_ne hs htl, hp], hc⟩
  · exact Or.inr ⟨b, hlog _ hb⟩

/-- Every call of a schedule runs, or has returned. -/
theorem begun_of_run {ls : List (Label Call)} {s s' : State} {t : ℕ} {c : Call}
    (hr : (table seed).run ls s = some s') (hc : .call t c ∈ ls) : Begun s' t c := by
  obtain ⟨ls₁, ls₂, rfl⟩ := List.append_of_mem hc
  rw [Machine.run_append, Option.bind_eq_some_iff] at hr
  obtain ⟨s₁, -, h2⟩ := hr
  obtain ⟨s₂, hs, h3⟩ := Machine.run_cons.mp h2
  have hstart : Begun s₂ t c := by
    obtain ⟨-, -, rfl⟩ := Machine.step_call.mp hs
    exact Or.inl ⟨Pc.start c, Function.update_self _ _ _, Pc.call_start c⟩
  exact Machine.reach_inv (P := fun s => Begun s t c) (fun _ _ _ => Begun.step) hstart h3

/-! ### The invariant -/

/-- The table `T` and the threads `thr` stand for the logical table `L`. -/
structure Inv (seed : BitVec 32) (T : ℕ → Word) (thr : ℕ → Option Pc) (L : ℕ → Word) :
    Prop where
  ok : ∀ t p, thr t = some p → p.Ok seed
  sim : Sim T (fun t => threadRole (thr t)) L
  pending : ∀ t p, thr t = some p → p.Pending T

/-- What a step does to the slots `T` and the logical table `L`: it takes the
thread from `p` to `x` (idle, if the call returns). -/
inductive Act (seed : BitVec 32) (T L : ℕ → Word) :
    Pc → Option Pc → (ℕ → Word) → (ℕ → Word) → Prop
  | quiet {p : Pc} {x : Option Pc} : threadRole x = p.role → Act seed T L p x T L
  | reserve {key : Key} {tg : Word} {i n : ℕ} {x : Option Pc} :
      T i = 0#64 → threadRole x = .hold i →
      Act seed T L (.add key (.reserve tg i n)) x (Function.update T i (newEntry key)) L
  | mark {key : Key} {Loc r : ℕ} {Exp : Word} : T r = Exp → tag Exp = 0#64 →
      Act seed T L (.add key (.relocate Loc (.mark r Exp)))
        (some (.add key (.relocate Loc (.loadDest r)))) (Function.update T r (moving Exp)) L
  | copy {key : Key} {Loc r : ℕ} {Dest Fin : Word} : r < Loc → Fin = strip (T r) →
      Act seed T L (.add key (.relocate Loc (.copy r Dest Fin)))
        (some (.add key (.relocate Loc (.loadMark r)))) (Function.update T Loc Fin)
        (move 0#64 L r Loc)
  | overwrite {key : Key} {Loc r : ℕ} {Exp : Word} {x : Option Pc} : threadRole x = .hold r →
      Act seed T L (.add key (.relocate Loc (.overwrite r Exp))) x
        (Function.update T r (newEntry key)) L
  | release {key : Key} {i : ℕ} {Exp : Word} :
      Act seed T L (.add key (.release i Exp)) (some (.add key (.insert .start)))
        (Function.update T i 0#64) L
  | insert {key : Key} {tg : Word} {c : Option Word} {p : ℕ} :
      T (home seed key + p) = tg → T (home seed key + p) = 0#64 → p ≤ HOP →
      Act seed T L (.add key (.insert (.claim tg c p))) none
        (Function.update T (home seed key + p) (entry key))
        (Function.update L (home seed key + p) (entry key))
  | erase {key : Key} {tid : ℤ} {final : Word} {i1 i2 : ℕ} :
      T (home seed key + i1) = entry key → tag final = 0#64 →
      Act seed T L (.remove key tid (.removeKey final i1 i2))
        (some (.remove key tid (.removeMoving final i2 true)))
        (Function.update T (home seed key + i1) final)
        (Function.update L (home seed key + i1) final)

namespace Inv

variable {T T' : ℕ → Word} {thr : ℕ → Option Pc} {L L' : ℕ → Word} {t : ℕ} {p : Pc}
  {x : Option Pc}

theorem roles_update (thr : ℕ → Option Pc) (t : ℕ) (x : Option Pc) :
    (fun u => threadRole (Function.update thr t x u)) =
      Function.update (fun u => threadRole (thr u)) t (threadRole x) := by
  funext u
  by_cases h : u = t
  · subst h; simp
  · simp [h]

/-- A step of thread `t` that changes no slot another thread owns. -/
theorem step (h : Inv seed T thr L)
    (hs : Sim T' (Function.update (fun u => threadRole (thr u)) t (threadRole x)) L')
    (hT : ∀ u ≠ t, ∀ i, (threadRole (thr u)).Owns i → T' i = T i)
    (hok : ∀ q, x = some q → q.Ok seed) (hpd : ∀ q, x = some q → q.Pending T') :
    Inv seed T' (Function.update thr t x) L' := by
  refine ⟨fun u q hq => ?_, by rwa [roles_update], fun u q hq => ?_⟩ <;> by_cases hut : u = t
  · subst hut; rw [Function.update_self] at hq; exact hok q hq
  · rw [Function.update_of_ne hut] at hq; exact h.ok u q hq
  · subst hut; rw [Function.update_self] at hq; exact hpd q hq
  · rw [Function.update_of_ne hut] at hq
    exact (h.pending u q hq).congr fun i hi => hT u hut i (by rw [hq]; exact hi)

/-- A step that changes no slot and no role. -/
theorem quiet (h : Inv seed T thr L) (ht : threadRole x = threadRole (thr t))
    (hok : ∀ q, x = some q → q.Ok seed) (hpd : ∀ q, x = some q → q.Pending T) :
    Inv seed T (Function.update thr t x) L := by
  refine h.step ?_ (fun _ _ _ _ => rfl) hok hpd
  rw [ht, Function.update_eq_self_iff.mpr rfl]
  exact h.sim

/-- A step that writes slot `i`, which no other thread owns. -/
theorem write (h : Inv seed T thr L) {i : ℕ} {w : Word}
    (hi : ∀ u ≠ t, ¬ (threadRole (thr u)).Owns i)
    (hs : Sim (Function.update T i w)
      (Function.update (fun u => threadRole (thr u)) t (threadRole x)) L')
    (hok : ∀ q, x = some q → q.Ok seed)
    (hpd : ∀ q, x = some q → q.Pending (Function.update T i w)) :
    Inv seed (Function.update T i w) (Function.update thr t x) L' := by
  refine h.step hs (fun u hut j hj => ?_) hok hpd
  have hji : j ≠ i := fun e => hi u hut (e ▸ hj)
  exact Function.update_of_ne hji _ _

/-! ### One access -/

theorem access_contains {key : Key} {s : Scan} (h : Inv seed (buckets m) thr L)
    (hp : thr t = some (.contains key s))
    (hok : ∀ q, next seed m (.contains key s) = some q → q.Ok seed) :
    ∃ L', Inv seed (buckets m) (Function.update thr t (next seed m (.contains key s))) L' ∧
      Act seed (buckets m) L (.contains key s) (next seed m (.contains key s)) (buckets m) L' := by
  have hq : ∀ q, next seed m (.contains key s) = some q → ∃ s', q = .contains key s' := by
    intro q hq
    simp only [next, Pc.code, Point.inside_snd, Flow.point?_bind_ret, Option.map_eq_some_iff] at hq
    obtain ⟨s', -, rfl⟩ := hq
    exact ⟨s', rfl⟩
  have hrole : threadRole (next seed m (.contains key s)) = .free := by
    cases hn : next seed m (.contains key s) with
    | none => rfl
    | some q => obtain ⟨s', rfl⟩ := hq q hn; rfl
  refine ⟨L, h.quiet (by rw [hrole, hp]; rfl) hok fun q e => ?_, .quiet hrole⟩
  obtain ⟨s', rfl⟩ := hq q e
  trivial

theorem access_remove {key : Key} {tid : ℤ} {q : Remove} (h : Inv seed (buckets m) thr L)
    (hp : thr t = some (.remove key tid q))
    (hc : RemovesNothingOwned seed (buckets m) (.remove key tid q))
    (hok : ∀ x, next seed m (.remove key tid q) = some x → x.Ok seed) :
    ∃ L', Inv seed (buckets (((Pc.remove key tid q).code seed).1.exec m).2)
        (Function.update thr t (next seed m (.remove key tid q))) L' ∧
      Act seed (buckets m) L (.remove key tid q) (next seed m (.remove key tid q))
        (buckets (((Pc.remove key tid q).code seed).1.exec m).2) L' := by
  have hx : ∀ x, next seed m (.remove key tid q) = some x → ∃ q', x = .remove key tid q' := by
    intro x hx
    simp only [next, Pc.code, Point.inside_snd, Flow.point?_bind_ret, Option.map_eq_some_iff] at hx
    obtain ⟨q', -, rfl⟩ := hx
    exact ⟨q', rfl⟩
  have hfree : threadRole (next seed m (.remove key tid q)) = .free := by
    cases hn : next seed m (.remove key tid q) with
    | none => rfl
    | some x => obtain ⟨q', rfl⟩ := hx x hn; rfl
  have hrole : threadRole (next seed m (.remove key tid q)) = threadRole (thr t) := by
    rw [hfree, hp]; rfl
  have hpd : ∀ T x, next seed m (.remove key tid q) = some x → x.Pending T := by
    intro T x e
    obtain ⟨q', rfl⟩ := hx x e
    trivial
  cases q with
  | stamp =>
    simp only [Pc.code, remove, Point.inside_fst, Access.exec_fetch, buckets_timeStamp]
    exact ⟨L, h.quiet hrole hok (hpd _), .quiet hfree⟩
  | testKey final s | testMoving final s | loadSlot p rem | testSlot p slot rem =>
    exact ⟨L, h.quiet hrole hok (hpd _), .quiet hfree⟩
  | removeMoving final i2 rem1 =>
    have hne : m (.bucket (home seed key + i2)) ≠ entry key ||| (1#64 <<< 62) := by
      rw [← moving_entry]
      exact hc
    simp only [Pc.code, remove, Point.inside_fst, Access.exec_cas_of_ne _ _ hne]
    exact ⟨L, h.quiet hrole hok (hpd _), .quiet hfree⟩
  | poison p slot rem =>
    have hne : m (.bucket (home seed key + p)) ≠ slot := hc
    simp only [Pc.code, remove, Point.inside_fst, Access.exec_cas_of_ne _ _ hne]
    exact ⟨L, h.quiet hrole hok (hpd _), .quiet hfree⟩
  | removeKey final i1 i2 =>
    have hfin : tag final = 0#64 := h.ok t _ hp
    by_cases he : m (.bucket (home seed key + i1)) = entry key
    · have hi : tag (buckets m (home seed key + i1)) = 0#64 := by
        rw [show buckets m (home seed key + i1) = entry key from he, tag_entry]
      have hs := h.sim.put hi hfin
      have hn : next seed m (.remove key tid (.removeKey final i1 i2)) =
          some (.remove key tid (.removeMoving final i2 true)) := by
        simp [next, Pc.code, remove, Access.exec_cas_of_eq _ _ he, Flow.point?]
      rw [hn] at hok hrole ⊢
      simp only [Pc.code, remove, Point.inside_fst, Access.exec_cas_of_eq _ _ he, buckets_update]
      refine ⟨_, h.write (fun u _ => h.sim.unowned hi u) ?_ hok fun x e => ?_, .erase he hfin⟩
      · rwa [hrole, Function.update_eq_self_iff.mpr rfl]
      · cases e
        trivial
    · simp only [Pc.code, remove, Point.inside_fst, Access.exec_cas_of_ne _ _ he]
      exact ⟨L, h.quiet hrole hok (hpd _), .quiet hfree⟩

/-- An access of `add` that changes no slot and keeps what the thread owns. -/
theorem quiet_add {key : Key} {p : Add} (h : Inv seed (buckets m) thr L)
    (hp : thr t = some (.add key p)) (hx : ∀ e, addFlow seed key m p ≠ .exit e)
    (hok : ∀ q, next seed m (.add key p) = some q → q.Ok seed)
    (hm : ((add seed key p).1.exec m).2 = m)
    (hg : ∀ q, addFlow seed key m p = .goto q → q.role = p.role ∧ q.Pending (buckets m))
    (hr : ∀ b, addFlow seed key m p = .ret b → p.role = .free) :
    ∃ L', Inv seed (buckets (((Pc.add key p).code seed).1.exec m).2)
        (Function.update thr t (next seed m (.add key p))) L' ∧
      Act seed (buckets m) L (.add key p) (next seed m (.add key p))
        (buckets (((Pc.add key p).code seed).1.exec m).2) L' := by
  have hrole : threadRole (next seed m (.add key p)) = p.role := by
    rw [next_add]
    cases hf : addFlow seed key m p with
    | goto q => exact (hg q hf).1
    | ret b => exact (hr b hf).symm
    | exit e => exact absurd hf (hx e)
  simp only [Pc.code, Point.inside_fst, hm]
  refine ⟨L, h.quiet (by rw [hp]; exact hrole) hok fun x hx' => ?_, .quiet hrole⟩
  · rw [next_add] at hx'
    cases hf : addFlow seed key m p with
    | goto q =>
      rw [hf] at hx'
      cases hx'
      exact (hg q hf).2
    | ret b => rw [hf] at hx'; cases hx'
    | exit e => exact absurd hf (hx e)

/-- An access of `add` that writes slot `i` and goes on to `q`. -/
theorem write_add {key : Key} {p q : Add} {i : ℕ} {w : Word} (h : Inv seed (buckets m) thr L)
    (hok : ∀ q, next seed m (.add key p) = some q → q.Ok seed)
    (hm : ((add seed key p).1.exec m).2 = Function.update m (.bucket i) w)
    (hf : addFlow seed key m p = .goto q) (hi : ∀ u ≠ t, ¬ (threadRole (thr u)).Owns i)
    (hs : Sim (Function.update (buckets m) i w)
      (Function.update (fun u => threadRole (thr u)) t q.role) L')
    (hpd : q.Pending (Function.update (buckets m) i w))
    (ha : Act seed (buckets m) L (.add key p) (some (.add key q))
      (Function.update (buckets m) i w) L') :
    ∃ L', Inv seed (buckets (((Pc.add key p).code seed).1.exec m).2)
        (Function.update thr t (next seed m (.add key p))) L' ∧
      Act seed (buckets m) L (.add key p) (next seed m (.add key p))
        (buckets (((Pc.add key p).code seed).1.exec m).2) L' := by
  have hn := next_of_addFlow hf
  simp only [Pc.code, Point.inside_fst, hm, buckets_update]
  refine ⟨L', h.write hi ?_ hok fun x hx => ?_, by rwa [hn]⟩
  · rwa [hn]
  · rw [hn] at hx
    cases hx
    exact hpd

theorem access_insert {key : Key} {q : Insert} (h : Inv seed (buckets m) thr L)
    (hp : thr t = some (.add key (.insert q)))
    (hc : ClaimsEmpty seed (buckets m) (.add key (.insert q)))
    (hx : ∀ e, addFlow seed key m (.insert q) ≠ .exit e)
    (hok : ∀ x, next seed m (.add key (.insert q)) = some x → x.Ok seed) :
    ∃ L', Inv seed (buckets (((Pc.add key (.insert q)).code seed).1.exec m).2)
        (Function.update thr t (next seed m (.add key (.insert q)))) L' ∧
      Act seed (buckets m) L (.add key (.insert q)) (next seed m (.add key (.insert q)))
        (buckets (((Pc.add key (.insert q)).code seed).1.exec m).2) L' := by
  have hgoto : ∀ x, addFlow seed key m (.insert q) = .goto x →
      x.role = (Add.insert q).role ∧ x.Pending (buckets m) := by
    intro x hf
    rcases Flow.bind_eq_goto.mp hf with ⟨q', -, rfl⟩ | ⟨b, -, hb⟩
    · exact ⟨rfl, trivial⟩
    · cases b <;> cases hb
      exact ⟨rfl, trivial⟩
  have hq : Insert.Ok q := h.ok t _ hp
  cases q with
  | first tg c p | second c p => exact h.quiet_add hp hx hok rfl hgoto fun _ _ => rfl
  | reuse slot p => exact hq.elim
  | claim tg c p =>
    by_cases he : m (.bucket (home seed key + p)) = tg
    · have hz : buckets m (home seed key + p) = 0#64 := he.trans (hc he)
      have hi : tag (buckets m (home seed key + p)) = 0#64 := by rw [hz, tag_zero]
      have hn : next seed m (.add key (.insert (.claim tg c p))) = none := by
        simp [next, Pc.code, add, bucketInsert, Access.exec_cas_of_eq _ _ he, Flow.point?]
      rw [hn]
      simp only [Pc.code, add, bucketInsert, Point.inside_fst, Access.exec_cas_of_eq _ _ he,
        buckets_update]
      refine ⟨_, h.write (fun u _ => h.sim.unowned hi u) ?_ (by simp) (by simp), .insert he hz hq⟩
      have hs := h.sim.put hi (tag_entry key)
      rwa [show threadRole none = threadRole (thr t) by rw [hp]; rfl,
        Function.update_eq_self_iff.mpr rfl]
    · refine h.quiet_add hp hx hok ?_ hgoto fun _ _ => rfl
      simp only [add, bucketInsert, Point.inside_fst, Access.exec_cas_of_ne _ _ he]

theorem access_relocate {key : Key} {Loc : ℕ} {q : Relocate} (h : Inv seed (buckets m) thr L)
    (hp : thr t = some (.add key (.relocate Loc q)))
    (hx : ∀ e, addFlow seed key m (.relocate Loc q) ≠ .exit e)
    (hok : ∀ x, next seed m (.add key (.relocate Loc q)) = some x → x.Ok seed) :
    ∃ L', Inv seed (buckets (((Pc.add key (.relocate Loc q)).code seed).1.exec m).2)
        (Function.update thr t (next seed m (.add key (.relocate Loc q)))) L' ∧
      Act seed (buckets m) L (.add key (.relocate Loc q)) (next seed m (.add key (.relocate Loc q)))
        (buckets (((Pc.add key (.relocate Loc q)).code seed).1.exec m).2) L' := by
  have hq : q.Ok Loc := (h.ok t _ hp).2.2
  have hpd : q.Pending (buckets m) Loc := h.pending t _ hp
  have hfits := h.sim.fits t
  have hrole : threadRole (thr t) = q.role Loc := by rw [hp]; rfl
  rw [hrole] at hfits
  have hret : ∀ b, addFlow seed key m (.relocate Loc q) ≠ .ret b := by
    intro b hf
    obtain ⟨i, -, hi⟩ := Flow.bind_eq_ret.mp hf
    split_ifs at hi
  have hother : ∀ u ≠ t, ∀ i, (q.role Loc).Owns i → ¬ (threadRole (thr u)).Owns i :=
    fun u hut i hi ho => hut (h.sim.excl u t i ho (by rw [hrole]; exact hi))
  cases q with
  | getInd r ind | getReplace r =>
    refine h.quiet_add hp hx hok rfl (fun x hf => ?_) fun b hf => absurd hf (hret b)
    rcases Flow.bind_eq_goto.mp hf with ⟨q', hq', rfl⟩ | ⟨i, hi, -⟩
    · rcases seek_eq_goto.mp hq' with ⟨rfl, -⟩ | ⟨rfl, -⟩ <;> exact ⟨rfl, trivial⟩
    · exact absurd hi (by simp only [relocate, seek]; split_ifs <;> simp)
  | loadExp r | loadDest r | loadFin r Dest | loadMark r =>
    refine h.quiet_add hp hx hok rfl (fun x hf => ?_) fun b hf => absurd hf (hret b)
    cases hf
    refine ⟨rfl, ?_⟩
    first
      | trivial
      | exact reserved_of_tag hfits.1
      | exact ⟨hpd, rfl⟩
      | exact moving_of_tag hfits.1
  | mark r Exp =>
    by_cases he : m (.bucket r) = Exp
    · have hr : tag (buckets m r) = 0#64 := by
        rw [show buckets m r = Exp from he]; exact hq.2.2
      refine h.write_add (q := .relocate Loc (.loadDest r)) (i := r) (w := moving Exp) hok ?_ ?_
        (fun u _ => h.sim.unowned hr u) ?_ trivial (.mark he hq.2.2)
      · simp only [add, relocate, Point.inside_fst, Access.exec_cas_of_eq _ _ he]
      · simp [addFlow, add, relocate, Access.exec_cas_of_eq _ _ he]
      · rw [← he]
        exact h.sim.mark hrole hr
    · refine h.quiet_add hp hx hok ?_ (fun x hf => ?_) fun b hf => absurd hf (hret b)
      · simp only [add, relocate, Point.inside_fst, Access.exec_cas_of_ne _ _ he]
      · simp [addFlow, add, relocate, Access.exec_cas_of_ne _ _ he] at hf
        subst hf
        exact ⟨rfl, trivial⟩
  | copy r Dest Fin =>
    obtain ⟨hD, rfl⟩ := hpd
    have he : m (.bucket Loc) = Dest := hD.symm
    refine h.write_add (q := .relocate Loc (.loadMark r)) (i := Loc) (w := strip (buckets m r))
      hok ?_ rfl (fun u hut => hother u hut Loc (Or.inl rfl)) (h.sim.copy hrole) trivial
      (.copy hq.2.1 rfl)
    simp only [add, relocate, Point.inside_fst, Access.exec_cas_of_eq _ _ he]
  | overwrite r Exp =>
    have hne : Loc ≠ r := Nat.ne_of_gt hq.2
    have he : m (.bucket r) = Exp := hpd.symm
    refine h.write_add (q := .settle seed key r) (i := r) (w := newEntry key) hok ?_ ?_
      (fun u hut => hother u hut r rfl) ?_ pending_settle (.overwrite role_settle)
    · simp only [add, relocate, Point.inside_fst, Access.exec_cas_of_eq _ _ he]
    · simp [addFlow, add, relocate, hne]
    · rw [role_settle]
      exact h.sim.overwrite hrole (tag_newEntry key)

theorem access_add {key : Key} {p : Add} (h : Inv seed (buckets m) thr L)
    (hp : thr t = some (.add key p)) (hc : ClaimsEmpty seed (buckets m) (.add key p))
    (hx : ∀ e, addFlow seed key m p ≠ .exit e)
    (hok : ∀ x, next seed m (.add key p) = some x → x.Ok seed) :
    ∃ L', Inv seed (buckets (((Pc.add key p).code seed).1.exec m).2)
        (Function.update thr t (next seed m (.add key p))) L' ∧
      Act seed (buckets m) L (.add key p) (next seed m (.add key p))
        (buckets (((Pc.add key p).code seed).1.exec m).2) L' := by
  cases p with
  | insert q => exact h.access_insert hp hc hx hok
  | relocate Loc q => exact h.access_relocate hp hx hok
  | contains s =>
    refine h.quiet_add hp hx hok rfl (fun q hf => ?_) fun _ _ => rfl
    rcases Flow.bind_eq_goto.mp hf with ⟨s', -, rfl⟩ | ⟨b, -, hb⟩
    · exact ⟨rfl, trivial⟩
    · cases b <;> cases hb
      exact ⟨role_probeNext, pending_probeNext⟩
  | probe tg i n =>
    refine h.quiet_add hp hx hok rfl (fun q hf => ?_) fun _ _ => rfl
    simp only [addFlow, add] at hf
    split_ifs at hf <;> cases hf
    · exact ⟨role_probeNext, pending_probeNext⟩
    · exact ⟨rfl, trivial⟩
  | loadExp i =>
    refine h.quiet_add hp hx hok rfl (fun q hf => ?_) fun b hf => by cases hf
    cases hf
    exact ⟨rfl, rfl⟩
  | reserve tg i n =>
    by_cases he : m (.bucket i) = tg
    · have hz : buckets m i = 0#64 := he.trans (hc he)
      have hf : addFlow seed key m (.reserve tg i n) = Add.reserved seed key i n := by
        simp [addFlow, add, Access.exec_cas_of_eq _ _ he]
      have hn : Add.reserved seed key i n = .goto (.settle seed key i) := by
        have hx' := hx .insertionFailure
        rw [hf] at hx'
        unfold Add.reserved at hx' ⊢
        split_ifs at hx' ⊢
        · exact absurd rfl hx'
        · rfl
      refine h.write_add (q := .settle seed key i) (i := i) (w := newEntry key) hok ?_
        (hf.trans hn) (fun u _ => h.sim.unowned (by rw [hz, tag_zero]) u) ?_ pending_settle
        (.reserve hz role_settle)
      · simp only [add, Access.exec_cas_of_eq _ _ he]
      · rw [role_settle]
        exact h.sim.reserve (by rw [hp]; rfl) hz (tag_newEntry key)
    · refine h.quiet_add hp hx hok ?_ (fun q hf => ?_) fun _ _ => rfl
      · simp only [add, Access.exec_cas_of_ne _ _ he]
      · simp only [addFlow, add, Access.exec_cas_of_ne _ _ he, Bool.not_false, Bool.true_and,
          decide_eq_true_eq] at hf
        split_ifs at hf with hlt
        · cases hf
          exact ⟨role_probeNext, pending_probeNext⟩
        · simp [Add.reserved, Nat.not_lt.mp hlt] at hf
  | release i Exp =>
    have he : m (.bucket i) = Exp := (h.pending t _ hp).symm
    refine h.write_add (q := .insert .start) (i := i) (w := 0#64) hok ?_ rfl
      (fun u hut ho => ?_) (h.sim.release (by rw [hp]; rfl)) trivial .release
    · simp only [add, Access.exec_cas_of_eq _ _ he]
    · exact hut (h.sim.excl u t i ho (by rw [hp]; rfl))

/-! ### One step of the machine -/

variable {s s' : State}

/-- A call begins with a thread that owns nothing. -/
theorem call {c : Call} (h : Inv seed (buckets s.mem) s.thr L)
    (hs : (table seed).step s (.call t c) = some s') : Inv seed (buckets s'.mem) s'.thr L := by
  obtain ⟨-, ht, rfl⟩ := Machine.step_call.mp hs
  refine h.quiet ?_ (fun q hq => ?_) fun q hq => ?_
  · rw [ht]
    cases c <;> rfl
  · cases hq
    exact Pc.ok_start c
  · cases hq
    cases c <;> trivial

/-- A clean move keeps the invariant, and is an `Act`. -/
theorem move (h : Inv seed (buckets s.mem) s.thr L) (hp : s.thr t = some p)
    (hc : Clean seed s (.move t)) (hs : (table seed).step s (.move t) = some s')
    (hh : s'.halt = none) :
    ∃ L', Inv seed (buckets s'.mem) s'.thr L' ∧
      Act seed (buckets s.mem) L p (next seed s.mem p) (buckets s'.mem) L' := by
  obtain rfl := Machine.eq_advance hp hs
  obtain ⟨hc1, hc2⟩ := hc p hp
  have hok : ∀ q, next seed s.mem p = some q → q.Ok seed := by
    intro q hq
    cases hf : (p.code seed).2 ((p.code seed).1.exec s.mem).1 with
    | goto q' => rw [next, hf] at hq; cases hq; exact Pc.ok_next p _ q (h.ok t p hp) hf
    | ret r => rw [next, hf] at hq; cases hq
    | exit e => rw [next, hf] at hq; cases hq
  rw [Machine.advance_thr hh, Machine.advance_mem]
  cases p with
  | contains key sc => exact h.access_contains hp hok
  | remove key tid q => exact h.access_remove hp hc2 hok
  | add key q =>
    refine h.access_add hp hc1 (fun e hf => Machine.flow_ne_exit hh e ?_) hok
    exact Flow.bind_eq_exit.mpr (Or.inl hf)

end Inv

/-! ### What an act leaves alone -/

namespace Act

variable {T T' L L' : ℕ → Word} {thr : ℕ → Option Pc} {t : ℕ} {p : Pc} {x : Option Pc}

/-- An act changes no slot another thread owns. -/
theorem kept (h : Act seed T L p x T' L') (hI : Inv seed T thr L) (hp : thr t = some p)
    {u i : ℕ} (hut : u ≠ t) (hi : (threadRole (thr u)).Owns i) : T' i = T i ∧ L' i = L i := by
  have hown : ∀ j, p.role.Owns j → i ≠ j := by
    rintro j hj rfl
    exact hut (hI.sim.excl u t i hi (by rw [hp]; exact hj))
  have hun : ∀ j, tag (T j) = 0#64 → i ≠ j := by
    rintro j hj rfl
    exact hI.sim.unowned hj u hi
  cases h with
  | quiet => exact ⟨rfl, rfl⟩
  | reserve hz => exact ⟨Function.update_of_ne (hun _ (by rw [hz, tag_zero])) _ _, rfl⟩
  | mark he ht => exact ⟨Function.update_of_ne (hun _ (by rw [he, ht])) _ _, rfl⟩
  | copy hlt =>
    have h1 := hown _ (Or.inl rfl)
    exact ⟨Function.update_of_ne h1 _ _, move_apply (hown _ (Or.inr rfl)) h1⟩
  | overwrite => exact ⟨Function.update_of_ne (hown _ rfl) _ _, rfl⟩
  | release => exact ⟨Function.update_of_ne (hown _ rfl) _ _, rfl⟩
  | insert _ hz =>
    have h1 := hun _ (by rw [hz, tag_zero])
    exact ⟨Function.update_of_ne h1 _ _, Function.update_of_ne h1 _ _⟩
  | erase he =>
    have h1 := hun _ (by rw [he, tag_entry])
    exact ⟨Function.update_of_ne h1 _ _, Function.update_of_ne h1 _ _⟩

end Act

end LFHash
