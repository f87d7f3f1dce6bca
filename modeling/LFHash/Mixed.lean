/-
# The benchmark with many threads

The threads of `worker` look up, remove and add keys at the same time. Where the calls on the
keys of `K` are those of an atomic set, what has been inserted answers true: no key is removed
by two calls, so every `Remove` finds its key, and so does every lookup of a key that no thread
removes (`benchmark_answers_true`).

Key definitions: `Added`, `Remains`, `Call.Once`, `Due`.
Key theorems: `Added.step`, `Remains.step`, `Due.step`, `true_after_add`, `true_of_orderly`,
`benchmark_answers_true`.
-/
import LFHash.Benchmark
import LFHash.Histories
import LFHash.Linear

namespace LFHash

open Interleave Loop

variable {key : Key} {c : Call} {S : Key → Bool}

/-! ### The set -/

@[simp] theorem keySet_call (c : Call) (S : Key → Bool) : (keySet c S).2.1 = c := by
  cases c <;> rfl

/-- Only a removal takes a key out of the set. -/
theorem keySet_keeps (hc : ∀ tid, c ≠ .remove key tid) (h : S key = true) :
    (keySet c S).1 key = true := by
  cases c with
  | add key' =>
    show Function.update S key' true key = true
    by_cases hk : key = key'
    · rw [hk, Function.update_self]
    · rw [Function.update_of_ne hk, h]
  | remove key' tid =>
    have hk : key ≠ key' := fun hk => hc tid (hk ▸ rfl)
    show Function.update S key' false key = true
    rw [Function.update_of_ne hk, h]
  | contains key' => exact h

/-- A call answers true while its key is in the set. -/
theorem keySet_true (h : S c.key = true) : (keySet c S).2.2 = true := by
  cases c with
  | add key => rfl
  | remove key tid | contains key => exact h

abbrev AtomicSet := Interleave.Shared (Phase Call (Call × Bool)) (Key → Bool)

abbrev SetEvent := Event Call (Call × Bool)

variable {s s' : AtomicSet} {e : Option SetEvent} {h h' es : List SetEvent} {t : ℕ}
  {v : Key → Bool} {b : Bool}

theorem mem_called_head {t : ℕ} (he : e = some (.call t c)) : c ∈ called (e.toList ++ h) :=
  mem_called.mpr ⟨t, by rw [he]; exact List.mem_cons_self⟩

theorem mem_called_tail (hc : c ∈ called h) : c ∈ called (e.toList ++ h) := by
  rw [called_append]
  exact List.mem_append_right _ hc

/-- A key stays in the set while no removal of it takes effect. -/
theorem keeps_of_atomic (hs : Atomic keySet s e s') (hv : s.val key = true)
    (hno : ∀ t tid, s.thr t = .running (.remove key tid) → ∃ c, s'.thr t = .running c) :
    s'.val key = true := by
  rcases hs.val with he | ⟨t, c, ht, he, hgone⟩
  · rw [he, hv]
  · rw [he]
    refine keySet_keeps (fun tid hc => ?_) hv
    obtain ⟨c', hc'⟩ := hno t tid (hc ▸ ht)
    exact hgone c' hc'

/-- Of the calls on a key only `add`s have begun, and one that has taken effect has left it in
the set. -/
structure Added (key : Key) (s : AtomicSet) : Prop where
  running : ∀ t c, s.thr t = .running c → c.key = key → c = .add key
  done : ∀ t r, s.thr t = .done r → r.1.key = key → r = (.add key, true) ∧ s.val key = true

theorem Added.removes_none (h : Added key s) (t : ℕ) (tid : ℤ) :
    s.thr t ≠ .running (.remove key tid) := by
  intro ht
  cases h.running t _ ht rfl

theorem Added.step (h : Added key s) (hs : Atomic keySet s e s')
    (hadd : ∀ t c, e = some (.call t c) → c.key = key → c = .add key) : Added key s' := by
  refine ⟨fun t c ht hk => ?_, fun t r ht hk => ?_⟩
  · rcases hs.running ht with hold | he
    · exact h.running t c hold hk
    · exact hadd t c he hk
  · rcases hs.done ht with hold | ⟨c, hc, ho⟩
    · exact (h.done t r hold hk).imp_right fun hv =>
        keeps_of_atomic hs hv fun u tid hu => absurd hu (h.removes_none u tid)
    · have hcall : r.1 = c := by rw [← keySet_call c s.val, ho]
      obtain rfl := h.running t c hc (hcall ▸ hk)
      obtain ⟨hval, rfl⟩ := Prod.mk.inj ho
      exact ⟨rfl, hval ▸ Function.update_self ..⟩

/-- A key that is in the set, with no removal of it on its way. -/
structure Remains (key : Key) (s : AtomicSet) : Prop where
  mem : s.val key = true
  running : ∀ t tid, s.thr t ≠ .running (.remove key tid)
  done : ∀ t r, s.thr t = .done r → r.1.key = key → r.2 = true

theorem Remains.step (h : Remains key s) (hs : Atomic keySet s e s')
    (hno : ∀ t tid, e ≠ some (.call t (.remove key tid))) : Remains key s' := by
  refine ⟨keeps_of_atomic hs h.mem fun t tid ht => absurd ht (h.running t tid),
    fun t tid ht => ?_, fun t r ht hk => ?_⟩
  · rcases hs.running ht with hold | he
    · exact h.running t tid hold
    · exact hno t tid he
  · rcases hs.done ht with hold | ⟨c, -, ho⟩
    · exact h.done t r hold hk
    · have hcall : r.1 = c := by rw [← keySet_call c s.val, ho]
      have hr : (keySet c s.val).2 = r := by rw [ho]
      rw [← hr]
      exact keySet_true (by rw [← hcall, hk, h.mem])

/-- No two calls remove the same key. -/
def Call.Once (c c' : Call) : Prop := ∀ key tid tid', c = .remove key tid → c' ≠ .remove key tid'

/-- A key that one call of those still to come removes, or one that runs: until it takes effect
the key is in the set. -/
structure Due (key : Key) (s : AtomicSet) (h : List SetEvent) : Prop where
  running : ∀ t tid, s.thr t = .running (.remove key tid) → s.val key = true ∧
    (∀ u tid', s.thr u = .running (.remove key tid') → u = t) ∧ ∀ tid', .remove key tid' ∉ called h
  coming : ∀ tid, .remove key tid ∈ called h → s.val key = true
  done : ∀ t r, s.thr t = .done r → r.1.key = key → r.1 ≠ .contains key → r.2 = true
  once : (called h).Pairwise Call.Once

theorem Due.step (h : Due key s (e.toList ++ h')) (hs : Atomic keySet s e s') : Due key s' h' where
  running t tid ht := by
    rcases hs.running ht with hold | he
    · obtain ⟨hv, honly, hno⟩ := h.running t tid hold
      refine ⟨keeps_of_atomic hs hv fun u tid' hu => ?_, fun u tid' hu => ?_,
        fun tid' hmem => hno tid' (mem_called_tail hmem)⟩
      · obtain rfl := honly u tid' hu
        exact ⟨_, ht⟩
      · rcases hs.running hu with hold' | he
        · exact honly u tid' hold'
        · exact absurd (mem_called_head he) (hno tid')
    · have hnone : ∀ u tid', s.thr u ≠ .running (.remove key tid') := fun u tid' hu =>
        (h.running u tid' hu).2.2 tid (mem_called_head he)
      have honce := h.once
      refine ⟨keeps_of_atomic hs (h.coming tid (mem_called_head he)) fun u tid' hu =>
        absurd hu (hnone u tid'), fun u tid' hu => ?_, fun tid' hmem => ?_⟩
      · rcases hs.running hu with hold | he'
        · exact absurd hold (hnone u tid')
        · cases he.symm.trans he'
          rfl
      · rw [he] at honce
        exact (List.pairwise_cons.mp honce).1 _ hmem key tid tid' rfl rfl
  coming tid hmem :=
    keeps_of_atomic hs (h.coming tid (mem_called_tail hmem)) fun u tid' hu =>
      absurd (mem_called_tail hmem) ((h.running u tid' hu).2.2 tid)
  done t r ht hk hne := by
    rcases hs.done ht with hold | ⟨c, hc, ho⟩
    · exact h.done t r hold hk hne
    · have hcall : r.1 = c := by rw [← keySet_call c s.val, ho]
      have hr : (keySet c s.val).2 = r := by rw [ho]
      rw [← hr]
      cases c with
      | add key' => rfl
      | remove key' tid =>
        obtain rfl : key' = key := by rw [← hk, hcall]; rfl
        exact keySet_true (h.running t tid hc).1
      | contains key' =>
        obtain rfl : key' = key := by rw [← hk, hcall]; rfl
        exact absurd hcall hne
  once := by
    have honce := h.once
    rw [called_append] at honce
    exact (List.pairwise_append.mp honce).2.1

/-! ### After an add -/

/-- Before the return of an `add` of a key only `add`s of it begin. -/
theorem Added.run (h : Added key s) (hr : Runs (Atomic keySet) s es s')
    (hadds : ∀ c ∈ called es, c.key = key → c = .add key) :
    Added key s' ∧ ∀ x ∈ es, ∀ u r, x = .ret u r → r.1.key = key → r.2 = true := by
  refine (hr.inv (I := fun s es => Added key s ∧ ∀ c ∈ called es, c.key = key → c = .add key) ?_
    ⟨h, hadds⟩).imp_left And.left
  rintro s e s' es ⟨hI, hc⟩ hs
  refine ⟨⟨hI.step hs fun u c he => hc c (mem_called_head he),
    fun c hmem => hc c (mem_called_tail hmem)⟩, fun x hx u r hxr hk => ?_⟩
  obtain rfl : e = some (.ret u r) := hxr ▸ hx
  rw [(hI.done u r hs.ret_inv.1 hk).1]

/-- While no call removes the key, all calls on it answer true. -/
theorem Remains.run (h : Remains key s) (hr : Runs (Atomic keySet) s es s')
    (hno : ∀ tid, .remove key tid ∉ called es) :
    ∀ x ∈ es, ∀ u r, x = .ret u r → r.1.key = key → r.2 = true := by
  refine (hr.inv (I := fun s es => Remains key s ∧ ∀ tid, .remove key tid ∉ called es) ?_
    ⟨h, hno⟩).2
  rintro s e s' es ⟨hI, hc⟩ hs
  refine ⟨⟨hI.step hs fun u tid he => hc tid (mem_called_head he),
    fun tid hmem => hc tid (mem_called_tail hmem)⟩, fun x hx u r hxr hk => ?_⟩
  obtain rfl : e = some (.ret u r) := hxr ▸ hx
  exact hI.done u r hs.ret_inv.1 hk

/-- A call that removes the key, and no other does, finds it. -/
theorem Due.run (h : Due key s es) (hr : Runs (Atomic keySet) s es s') :
    ∀ x ∈ es, ∀ u r, x = .ret u r → r.1.key = key → r.1 ≠ .contains key → r.2 = true := by
  refine (hr.inv (I := Due key) ?_ h).2
  intro s e s' es hI hs
  refine ⟨hI.step hs, fun x hx u r hxr hk hne => ?_⟩
  obtain rfl : e = some (.ret u r) := hxr ▸ hx
  exact hI.done u r hs.ret_inv.1 hk hne

/-- When an `add` of the key returns, the key is there. -/
theorem Added.remains (h : Added key s) (hs : Atomic keySet s (some (.ret t (.add key, b))) s') :
    b = true ∧ Remains key s' := by
  obtain ⟨hdone, hval⟩ := hs.ret_inv
  obtain ⟨hb, hmem⟩ := h.done _ _ hdone rfl
  have h' : Added key s' := h.step hs fun _ _ he => by cases he
  refine ⟨(Prod.mk.inj hb).2, ⟨by rw [hval, hmem], h'.removes_none, fun u r hu hk => ?_⟩⟩
  rw [(h'.done u r hu hk).1]

/-- In a history of the set, before the return of an `add` no call but `add`s of its key begins.
Then every call on the key answers true: removals if no two remove it, and lookups if none
does. -/
theorem true_after_add (hlin : Linearizable keySet v (h ++ .ret t (.add key, b) :: h'))
    (hadds : ∀ c ∈ called h, c.key = key → c = .add key) (honce : (called h').Pairwise Call.Once) :
    ∀ u r, .ret u r ∈ h ++ .ret t (.add key, b) :: h' → r.1.key = key →
      (r.1 = .contains key → ∀ tid, .remove key tid ∉ called h') → r.2 = true := by
  obtain ⟨s', hr⟩ := hlin
  obtain ⟨s₁, s₂, h1, hs, h2⟩ := hr.split
  have hstart : Added key ⟨v, fun _ => .idle⟩ := by
    constructor
    · intro t c ht
      cases ht
    · intro t r ht
      cases ht
  obtain ⟨hadded, hbefore⟩ := hstart.run h1 hadds
  obtain ⟨rfl, hremains⟩ := hadded.remains hs
  intro u r hret hk hlook
  rcases List.mem_append.mp hret with hret | hret
  · exact hbefore _ hret u r rfl hk
  rcases List.mem_cons.mp hret with hret | hret
  · cases hret
    rfl
  by_cases hno : ∃ tid, .remove key tid ∈ called h'
  · have hdue : Due key s₂ h' :=
      ⟨fun u tid hu => absurd hu (hremains.running u tid), fun _ _ => hremains.mem,
        fun u r hu hk _ => hremains.done u r hu hk, honce⟩
    refine hdue.run h2 _ hret u r rfl hk fun hc => ?_
    obtain ⟨tid, hmem⟩ := hno
    exact hlook hc tid hmem
  · exact hremains.run h2 (fun tid hmem => hno ⟨tid, hmem⟩) _ hret u r rfl hk

/-! ### The calls of the workers -/

variable {seed : BitVec 32} {K : Key → Prop} {c u T tid tid' : ℕ} {w wx wx' : Workload}
  {rands rest rest' : List ℕ} {cs cs' : List Call} {ls ls₀ : List (Label Call)}
  {lookUps store adds removes : ℕ → Key}

theorem Call.once_of_leaves {c c' : Call} (h : c.Leaves c') : c.Once c' := by
  rintro key tid tid' rfl rfl
  rcases h key tid rfl with he | hne
  · cases he
  · exact hne rfl

theorem Call.once_of_ne {c c' : Call} (h : ∀ key tid, c ≠ .remove key tid) : c.Once c' :=
  fun key tid _ he => absurd he (h key tid)

theorem mem_worker_remove (hs : Workload.Splits ⟨c, u, u, T⟩ w wx) (ht : tid < T)
    (h : worker wx tid = some cs) {n : ℤ} (hmem : .remove key n ∈ cs) :
    ∃ i ∈ share (u / T) tid, key = wx.removes i := by
  obtain ⟨hc, hu⟩ := within_of_splits hs
  rw [worker_calls hs hc hu ht, Option.some.injEq] at h
  subst h
  simp only [List.mem_append, List.mem_map] at hmem
  rcases hmem with (⟨i, -, he⟩ | ⟨i, hi, he⟩) | ⟨i, -, he⟩
  · cases he
  · exact ⟨i, hi, (Call.remove.inj he).1.symm⟩
  · cases he

/-- Two workers remove different keys. -/
theorem workers_once (hd : Draws TOTDATA (fun _ => none) w.dataset w.store)
    (hs : Workload.Splits ⟨c, u, u, T⟩ w wx) (ht : tid < T) (ht' : tid' < T) (hne : tid ≠ tid')
    (h : worker wx tid = some cs) (h' : worker wx tid' = some cs') :
    ∀ x ∈ cs, ∀ y ∈ cs', x.Once y := by
  rintro x hx y hy key n n' rfl rfl
  obtain ⟨i, hi, hkey⟩ := mem_worker_remove hs ht h hx
  obtain ⟨j, hj, hkey'⟩ := mem_worker_remove hs ht' h' hy
  obtain rfl : i = j := removes_inj hd hs (lt_of_mem_share ht hi) (lt_of_mem_share ht' hj)
    (hkey.symm.trans hkey')
  exact share_disjoint hne hi hj

/-- What goes for the calls of each thread, in order, and for those of two, goes for all calls. -/
theorem pairwise_begun {R : Call → Call → Prop} : ∀ {ls : List (Label Call)},
    (∀ t, (callsBy t ls).Pairwise R) →
    (∀ t u, t ≠ u → ∀ x ∈ callsBy t ls, ∀ y ∈ callsBy u ls, R x y) → (begun ls).Pairwise R
  | [], _, _ => List.Pairwise.nil
  | .move t :: ls, hown, hother => by
    show (begun ls).Pairwise R
    exact pairwise_begun hown hother
  | .call t c :: ls, hown, hother => by
    have hsub : ∀ u, callsBy u ls ⊆ callsBy u (.call t c :: ls) := fun u x hx =>
      mem_callsBy.mpr (List.mem_cons_of_mem _ (mem_callsBy.mp hx))
    have hself : callsBy t (.call t c :: ls) = c :: callsBy t ls :=
      List.filterMap_cons_some (if_pos rfl)
    have hrest : ∀ u, (callsBy u ls).Pairwise R := by
      intro u
      refine (hown u).sublist ?_
      exact (List.sublist_cons_self _ _).filterMap _
    have htail := pairwise_begun hrest fun t u htu x hx y hy =>
      hother t u htu x (hsub t hx) y (hsub u hy)
    refine List.pairwise_cons.mpr ⟨fun y hy => ?_, htail⟩
    obtain ⟨u, hu⟩ := mem_begun.mp hy
    have hy' : y ∈ callsBy u ls := mem_callsBy.mpr hu
    by_cases htu : t = u
    · subst htu
      have howns := hown t
      rw [hself] at howns
      exact (List.pairwise_cons.mp howns).1 y hy'
    · exact hother t u htu c (by rw [hself]; exact List.mem_cons_self) y (hsub u hy')

/-- The workers together call no removal of a key twice. -/
theorem once_of_workers {s s' : State} (hd : Draws TOTDATA (fun _ => none) w.dataset w.store)
    (hs : Workload.Splits ⟨c, u, u, T⟩ w wx) (h : Begins seed T (worker wx) ls s s') :
    (begun ls).Pairwise Call.Once := by
  refine pairwise_begun (fun t => ?_) fun t t' hne x hx y hy => ?_
  · by_cases ht : t < T
    · obtain ⟨rest, hcs⟩ := h.calls t ht
      exact ((worker_in_order hd hs ht hcs).imp Call.once_of_leaves).sublist
        (List.sublist_append_left _ _)
    · have hnil : callsBy t ls = [] := by
        refine List.eq_nil_iff_forall_not_mem.mpr fun x hx => ?_
        exact ht (h.threads _ (mem_callsBy.mp hx))
      rw [hnil]
      exact List.Pairwise.nil
  · obtain ⟨ht, cs, hcs, hx'⟩ := h.calls_of (mem_callsBy.mp hx)
    obtain ⟨ht', cs', hcs', hy'⟩ := h.calls_of (mem_callsBy.mp hy)
    exact workers_once hd hs ht ht' hne hcs hcs' x hx' y hy'

/-- Steps of lookups alone are orderly. -/
theorem orderly_of_lookups {s : State}
    (hl : ∀ l ∈ ls, Calls (fun _ c => ∃ key, c = .contains key) l) (hidle : ∀ t, s.thr t = none) :
    (table seed).Along (Orderly seed K) ls s := by
  have hinv := Machine.Along.of_inv (M := table seed)
    (P := Running fun _ c => ∃ key, c = .contains key) (fun s l s' hP hc hs => hP.step hc hs)
    (fun t p hp => by rw [hidle t] at hp; cases hp) (Machine.Along.of_forall hl)
  refine hinv.mono fun s l s' _ ⟨hrun, _⟩ => ?_
  have hlook : ∀ t p, s.thr t = some p → ∃ key sc, p = .contains key sc := by
    intro t p hp
    obtain ⟨key, hc⟩ := hrun t p hp
    rcases p with ⟨key', a⟩ | ⟨key', n, q⟩ | ⟨key', sc⟩ <;> cases hc
    exact ⟨_, _, rfl⟩
  refine ⟨fun t key n q hp => ?_, ?_, ?_⟩
  · obtain ⟨key', sc, he⟩ := hlook t _ hp
    cases he
  · cases l with
    | call t c => trivial
    | move t =>
      intro p hp
      obtain ⟨key, sc, rfl⟩ := hlook t p hp
      exact ⟨trivial, trivial⟩
  · cases l with
    | call t c => trivial
    | move t =>
      intro p hp
      obtain ⟨key, sc, rfl⟩ := hlook t p hp
      trivial

/-! ### The three phases -/

variable {s s₀ s₁ : State}

/-- After `add`s that have returned come calls of which no two remove the same key. In an
orderly run all calls on a key that has been added answer true, lookups if no call removes it. -/
theorem true_of_orderly [DecidablePred K] (hK : ¬ K 0#32)
    (hr₀ : (table seed).run ls₀ fresh = some s₀) (hidle : ∀ t, s₀.thr t = none)
    (hr : (table seed).run ls s₀ = some s)
    (hq : (table seed).Along (Orderly seed K) (ls₀ ++ ls) fresh)
    (hadds : ∀ l ∈ ls₀, Inserting l) (honce : (begun ls).Pairwise Call.Once) :
    ∀ e ∈ s.log, K e.2.1.key → (∃ t, .call t (.add e.2.1.key) ∈ ls₀) →
      (e.2.1 = .contains e.2.1.key → ∀ tid, .remove e.2.1.key tid ∉ begun ls) →
      e.2.2 = true := by
  have hrun : (table seed).run (ls₀ ++ ls) fresh = some s := by
    rw [Machine.run_append, hr₀]
    exact hr
  have hinserts : ∀ x ∈ begun ls₀, ∃ key, x = .add key := by
    intro x hx
    obtain ⟨t, ht⟩ := mem_begun.mp hx
    obtain ⟨key, rfl, -⟩ := adds_of_inserting hadds x (mem_callsBy.mpr ht)
    exact ⟨key, rfl⟩
  obtain ⟨τ, hτ⟩ := runs_of_orderly hK hrun hq
  have hlin := Watched.linearizable hτ
  rintro ⟨n, r⟩ he hkey ⟨t, hadd⟩ hno
  -- the `add` has returned
  obtain ⟨b, hb⟩ : ∃ b, (t, Call.add r.1.key, b) ∈ s₀.log := by
    rcases begun_of_run hr₀ hadd with ⟨p, hp, -⟩ | hb
    · rw [hidle t] at hp
      cases hp
    · exact hb
  have hret : .ret t (Call.add r.1.key, b) ∈ (table seed).history ls₀ fresh :=
    ((Machine.mem_log hr₀).mp hb).resolve_left List.not_mem_nil
  obtain ⟨h₁, h₂, hview, hbefore, cs, cs', hafter, hcs, hcs'⟩ := Machine.history_split
    (g := fun e => decide (K (eventKey e))) hr₀ hr hret (decide_eq_true hkey)
  rw [hview] at hlin
  refine true_after_add hlin (fun x hx hk => ?_) ?_ n r ?_ rfl fun hcon tid hmem => ?_
  · obtain ⟨key, rfl⟩ := hinserts x (hbefore hx)
    exact congrArg _ hk
  · rw [hafter]
    refine pairwise_behind (honce.sublist hcs') fun x hx y => ?_
    obtain ⟨key, rfl⟩ := hinserts x (hcs hx)
    exact Call.once_of_ne fun _ _ he => by cases he
  · rw [← hview]
    exact List.mem_filter.mpr
      ⟨((Machine.mem_log hrun).mp he).resolve_left List.not_mem_nil, decide_eq_true hkey⟩
  · rw [hafter, List.mem_append] at hmem
    rcases hmem with hmem | hmem
    · obtain ⟨key, he⟩ := hinserts _ (hcs hmem)
      cases he
    · exact hno hcon tid (hcs'.subset hmem)

/-- With any number of threads and any interleaving, in every run of the benchmark that is
orderly on the keys of `K` while threads insert and while they run `worker`, and for whatever
keys `rand()` draws: of the calls on a key of `K` that has been inserted, every `Remove` answers
true, and so does every lookup if no `Remove` of the key has begun. -/
theorem benchmark_answers_true [DecidablePred K] (hK : ¬ K 0#32)
    (hc : Workload.construct lookUps store adds removes rands = some (wx, rest))
    (hsplit : Workload.workSplit ⟨c, u, u, T⟩ (wx, rest) = some (wx', rest'))
    (hins : Begins seed T (insertKey wx T) ls₀ fresh s₀) (hidle : ∀ t, s₀.thr t = none)
    (hq₀ : (table seed).Along (Orderly seed K) ls₀ fresh) (hr : Rounds seed T wx s₀ s₁)
    (hmix : Begins seed T (worker wx') ls s₁ s)
    (hq : (table seed).Along (Orderly seed K) ls s₁) :
    ∀ e ∈ s.log, K e.2.1.key → (∃ t, .call t (.add e.2.1.key) ∈ ls₀) →
      (e.2.1 = .contains e.2.1.key → ∀ t tid, .call t (.remove e.2.1.key tid) ∉ ls) →
      e.2.2 = true := by
  obtain ⟨hd, -⟩ := Workload.construct_draws hc
  have hs := Workload.splits_of_workSplit hsplit
  obtain ⟨lsR, hrunR, -, hcallsR⟩ := hr.exists_run
  have hlooks : ∀ x ∈ begun lsR, ∃ key, x = .contains key := by
    intro x hx
    obtain ⟨t, ht⟩ := mem_begun.mp hx
    obtain ⟨key, rfl, -⟩ := hcallsR t x ht
    exact ⟨key, rfl⟩
  have hrun : (table seed).run (lsR ++ ls) s₀ = some s := by
    rw [Machine.run_append, hrunR]
    exact hmix.run
  have horderly : (table seed).Along (Orderly seed K) (ls₀ ++ (lsR ++ ls)) fresh := by
    refine Machine.along_append.mpr ⟨hq₀, fun s₂ h₂ => ?_⟩
    obtain rfl : s₀ = s₂ := Option.some.inj (hins.run.symm.trans h₂)
    refine Machine.along_append.mpr ⟨orderly_of_lookups (fun l hl => ?_) hidle, fun s₃ h₃ => ?_⟩
    · cases l with
      | call t x => exact hlooks x (mem_begun.mpr ⟨t, hl⟩)
      | move t => trivial
    · obtain rfl : s₁ = s₃ := Option.some.inj (hrunR.symm.trans h₃)
      exact hq
  have honce : (begun (lsR ++ ls)).Pairwise Call.Once := by
    rw [begun_append]
    refine pairwise_behind (once_of_workers hd hs hmix) fun x hx y => ?_
    obtain ⟨key, rfl⟩ := hlooks x hx
    exact Call.once_of_ne fun _ _ he => by cases he
  intro e he hkey hadd hno
  refine true_of_orderly hK hins.run hidle hrun horderly (inserting_of_begins hc hins) honce e he
    hkey hadd fun hcon tid hmem => ?_
  rw [begun_append, List.mem_append] at hmem
  rcases hmem with hmem | hmem
  · obtain ⟨key, he⟩ := hlooks _ hmem
    cases he
  · obtain ⟨t, ht⟩ := mem_begun.mp hmem
    exact hno hcon t tid ht

/-! ### Two threads -/

/-- Two threads insert the first keys of their shares. -/
def pairInserts : List (Label Call) :=
  alone 0 (.add 1) 23 ++ .call 0 (.add 2) :: .call 1 (.add 6291457) ::
    (List.replicate 23 [.move 0, .move 1]).flatten ++ alone 0 (.add 3) 23

/-- Then each looks a key up and removes another one, in turns. -/
def pairWorkers : List (Label Call) :=
  [.call 0 (.contains 3), .call 1 (.contains 4)] ++
    (List.replicate 17 [.move 1, .move 0]).flatten ++
    [.call 0 (.remove 1 0), .call 1 (.remove 2 1)] ++
    (List.replicate 70 [.move 0, .move 1]).flatten

set_option maxRecDepth 10000 in
theorem two_workers_answer_true : ∃ s₀ s, (table 1).run pairInserts fresh = some s₀ ∧
    (table 1).run pairWorkers s₀ = some s ∧ s.log.length = 8 ∧
    ∀ e ∈ s.log, Either 2 3 e.2.1.key → (∃ t, .call t (.add e.2.1.key) ∈ pairInserts) →
      (e.2.1 = .contains e.2.1.key → ∀ t tid, .call t (.remove e.2.1.key tid) ∉ pairWorkers) →
      e.2.2 = true := by
  obtain ⟨w, hc, hstore⟩ := Workload.construct_counting (fun _ => 0) (fun _ => 0) (fun _ => 0)
    (fun _ => 0) (List.range' TOTDATA 1 ++ [])
  obtain ⟨hd, ho⟩ := Workload.construct_draws hc
  obtain ⟨wx, hw⟩ : ∃ wx, Workload.workSplit ⟨2, 2, 2, (2 : ℕ)⟩ (w, List.range' TOTDATA 1 ++ []) =
      some (wx, []) := Workload.workSplit_counting hd hstore (by decide) (by decide)
    (by rw [ho]; decide) (by decide) []
  have hs := Workload.splits_of_workSplit hw
  have hrun : ((table 1).run pairInserts fresh).any (fun s =>
      decide (∀ t ∈ ([0, 1] : List ℕ), (s.thr t).isNone) &&
      ((table 1).run pairWorkers s).any fun s' => decide (s'.log.length = 8)) = true := by
    decide +kernel
  obtain ⟨s₀, hs₀, h⟩ := (Option.any_eq_true _ _).mp hrun
  obtain ⟨hjoin, h⟩ := (Bool.and_eq_true _ _).mp h
  obtain ⟨s, hs₁, hlen⟩ := (Option.any_eq_true _ _).mp h
  have hidle := Machine.idle_of_run hs₀ (fun _ => rfl) (by decide) (of_decide_eq_true hjoin)
  have horderly : (table 1).Along (Orderly 1 (Either 2 3)) (pairInserts ++ pairWorkers) fresh :=
    orderly_of_still (n := 2) (by decide +kernel)
  obtain ⟨hq₀, hq⟩ := Machine.along_append.mp horderly
  have h0 : w.store 0 = 1 := (hstore 0 (by decide)).trans (by decide)
  have h1 : w.store 1 = 2 := (hstore 1 (by decide)).trans (by decide)
  have h2 : w.store 2 = 3 := (hstore 2 (by decide)).trans (by decide)
  have h3 : w.store 3 = 4 := (hstore 3 (by decide)).trans (by decide)
  have hhalf : w.store (1 * (TOTDATA / 2)) = 6291457 := (hstore _ (by decide)).trans (by decide)
  have hins : ∀ tid < 2, ∃ rest, insertKey w (2 : ℕ) tid = some (callsBy tid pairInserts ++ rest) := by
    intro tid ht
    rcases (by omega : tid = 0 ∨ tid = 1) with rfl | rfl
    · obtain ⟨n, hn⟩ : ∃ n, TOTDATA / 2 = n + 3 := ⟨TOTDATA / 2 - 3, by decide⟩
      have hcalls : insertKey w (2 : ℕ) 0 = _ := issue_store w Call.add (by decide)
      rw [hn, share, List.range_succ_eq_map, List.range_succ_eq_map, List.range_succ_eq_map]
        at hcalls
      simp only [List.map_cons, Nat.zero_mul, Nat.zero_add, Nat.succ_eq_add_one, h0, h1, h2]
        at hcalls
      have hfirst : callsBy 0 pairInserts = [.add 1, .add 2, .add 3] := by decide
      rw [hfirst]
      exact ⟨_, hcalls⟩
    · have hfirst : callsBy 1 pairInserts = [.add 6291457] := by decide
      rw [hfirst, ← hhalf]
      exact issue_first w Call.add (by decide) (by decide)
  have hworker : ∀ tid < 2, ∃ rest, worker wx tid = some (callsBy tid pairWorkers ++ rest) := by
    intro tid ht
    have hlook : ∀ i < 2, wx.lookUps i = w.store (2 + i) := fun i hi => hs.lookUps i hi
    have hrem : ∀ i < 2, wx.removes i = w.store i := by
      intro i hi
      rw [hs.removes i hi, ho, Nat.zero_add]
    rcases (by omega : tid = 0 ∨ tid = 1) with rfl | rfl
    · have hcalls : worker wx 0 = _ := worker_calls hs (by decide) (by decide) (by decide)
      have hshare : share (2 / 2) 0 = [0] := by decide
      rw [hshare, List.map_singleton, List.map_singleton, hlook 0 (by decide), hrem 0 (by decide),
        h0, h2] at hcalls
      exact ⟨_, hcalls⟩
    · have hcalls : worker wx 1 = _ := worker_calls hs (by decide) (by decide) (by decide)
      have hshare : share (2 / 2) 1 = [1] := by decide
      rw [hshare, List.map_singleton, List.map_singleton, hlook 1 (by decide), hrem 1 (by decide),
        h1, h3] at hcalls
      exact ⟨_, hcalls⟩
  exact ⟨s₀, s, hs₀, hs₁, of_decide_eq_true hlen, benchmark_answers_true (by decide) hc hw
    ⟨hs₀, by decide, hins⟩ hidle hq₀ .start ⟨hs₁, by decide, hworker⟩ (hq s₀ hs₀)⟩

end LFHash
