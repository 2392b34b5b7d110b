/-
Futexes: who a wake completes and who a requeue moves.

The queue lists its sleepers by identity, and identities are minted in the order
tasks park; `sleeping_sublist` says so over whole runs. A wake takes the first
ones on its word and a requeue rewrites the first ones on its word where they
are, so both serve the longest parked first and leave the others as they were.
-/
import Kandelo.Wait.Completions

namespace Kandelo.Wait

open List WaitQueue

variable {T : Type*}

namespace WaitQueue

/-- What is left after a removal, in the order it was. -/
theorem Removed.entries_eq {q q' : WaitQueue T} {gone : List (WaiterId × Sleeper T)} (h : Removed q gone q') :
    q'.sleepers.entries = q.sleepers.entries.filter fun e => decide (e.1 ∉ gone.map (·.1)) := by
  have hmap : q'.sleepers = q.sleepers.retain fun id s => if id ∈ gone.map (·.1) then none else some s := by
    refine OrdMap.ext_get? fun id => ?_
    rw [h.get?_eq, OrdMap.get?_retain]
    cases q.sleepers.get? id with
    | none => exact ite_self _
    | some s => rfl
  rw [hmap, ← filterMap_eq_filter]
  refine filterMap_congr fun e _ => ?_
  by_cases hmem : e.1 ∈ gone.map (·.1)
  · simp [Option.guard, hmem]
  · simp [hmem]

/-- A sleeper moved to another source. -/
def redirect (source target : WakeSource) (s : Sleeper T) : Sleeper T :=
  { s with sources := s.sources.map fun x => if x = source then target else x }

theorem redirect_target {source target : WakeSource} {s : Sleeper T} (h : s.matchesSource source) :
    (redirect source target s).matchesSource target := by
  obtain ⟨x, hx, heq⟩ := any_eq_true.mp h
  rw [beq_iff_eq] at heq
  refine any_eq_true.mpr ⟨target, mem_map.mpr ⟨x, hx, if_pos heq⟩, beq_self_eq_true _⟩

/-- The sleepers registered for a source, oldest first. -/
def on (q : WaitQueue T) (source : WakeSource) : List (WaiterId × Sleeper T) :=
  q.sleepers.entries.filter fun e => e.2.matchesSource source

/-- The loop of `retarget`, from `moved` on: the first sleepers on the source are
redirected, as many as are still allowed. -/
theorem retarget_loop (source target : WakeSource) (max : Nat) {es : List (WaiterId × Sleeper T)}
    (hnd : (es.map (·.1)).Nodup) {moved : Nat} (hle : moved ≤ max) :
    let first := (es.filter fun e => e.2.matchesSource source).take (max - moved)
    OrdMap.mapAccumEntries (retargetOne source target max) moved es = (moved + first.length,
        es.map fun e => if e.1 ∈ first.map (·.1) then (e.1, redirect source target e.2) else e) := by
  induction es generalizing moved with
  | nil => simp [OrdMap.mapAccumEntries]
  | cons e es ih =>
    rw [map_cons, nodup_cons] at hnd
    -- no later entry has the key of the first
    have hne : ∀ x ∈ es, x.1 ≠ e.1 := fun x hx heq => hnd.1 (heq ▸ mem_map_of_mem hx)
    rcases Nat.eq_or_lt_of_le hle with rfl | hlt
    · have hrest := ih hnd.2 (le_refl moved)
      simp only [Nat.sub_self, take_zero, map_nil, not_mem_nil, if_false, map_id'] at hrest ⊢
      simp only [OrdMap.mapAccumEntries, retargetOne, if_true, hrest]
    by_cases hhit : e.2.matchesSource source
    · have hrest := ih hnd.2 (show moved + 1 ≤ max from hlt)
      have hsub : max - moved = max - (moved + 1) + 1 := by omega
      simp only [OrdMap.mapAccumEntries, retargetOne, if_neg hlt.ne, hhit, if_true, hrest, filter_cons, hsub,
        take_succ_cons, length_cons, map_cons, mem_cons_self]
      refine Prod.ext (by dsimp only; omega) (congrArg₂ List.cons rfl (map_congr_left fun x hx => ?_))
      simp only [mem_cons, hne x hx, false_or]
    have hrest := ih hnd.2 hle
    have hout : e.1 ∉ ((es.filter fun e => e.2.matchesSource source).take (max - moved)).map (·.1) := by
      intro hmem
      obtain ⟨x, hx, heq⟩ := mem_map.mp hmem
      exact hne x (mem_filter.mp (mem_of_mem_take hx)).1 heq
    simp only [OrdMap.mapAccumEntries, retargetOne, if_neg hlt.ne, hhit, if_false, hrest, filter_cons, map_cons,
      hout, Bool.false_eq_true]

theorem retarget_spec (q : WaitQueue T) (source target : WakeSource) (max : Nat) :
    let first := (q.on source).take max
    (q.retarget source target max).1 = first.length ∧ (q.retarget source target max).2.sleepers.entries =
        q.sleepers.entries.map fun e => if e.1 ∈ first.map (·.1) then (e.1, redirect source target e.2) else e := by
  intro first
  have hloop := retarget_loop source target max q.sleepers.keys_nodup (Nat.zero_le max)
  simp only [Nat.zero_add] at hloop
  exact ⟨congrArg Prod.fst hloop, congrArg Prod.snd hloop⟩

end WaitQueue

namespace Parks

/-! ## Parking order -/

/-- The later a sleeper parked, the later its generation. -/
def Ordered (p : Parks T) : Prop :=
  ∀ e ∈ p.queue.sleepers.entries, ∀ e' ∈ p.queue.sleepers.entries, e.1 < e'.1 → e.2.channel < e'.2.channel

/-- Every sleeper is one that slept before. -/
def Shrinks (p p' : Parks T) : Prop :=
  ∀ e ∈ p'.queue.sleepers.entries, ∃ x ∈ p.queue.sleepers.entries, x.1 = e.1 ∧ x.2.channel = e.2.channel

variable {p p' : Parks T}

theorem Shrinks.of_queue (h : p'.queue = p.queue) : Shrinks p p' := by
  intro e he
  rw [h] at he
  exact ⟨e, he, rfl, rfl⟩

theorem Shrinks.trans {p'' : Parks T} (h : Shrinks p p') (h' : Shrinks p' p'') : Shrinks p p'' := by
  intro e he
  obtain ⟨x, hx, hkey, hchannel⟩ := h' e he
  obtain ⟨y, hy, hkey', hchannel'⟩ := h x hx
  exact ⟨y, hy, hkey'.trans hkey, hchannel'.trans hchannel⟩

theorem Ending.shrinks (h : Ending p p') : Shrinks p p' := by
  obtain ⟨_, _, _, ⟨_, _, hrem⟩, hs⟩ := h
  exact fun e he => ⟨e, (hrem.trans hs.queue).mem he, rfl, rfl⟩

theorem Endings.shrinks (h : Endings p p') : Shrinks p p' := by
  induction h with
  | refl => exact .of_queue rfl
  | tail _ hlast ih => exact ih.trans hlast.shrinks

theorem Ordered.shrinks (h : Ordered p) (hs : Shrinks p p') : Ordered p' := by
  intro e he e' he' hlt
  obtain ⟨x, hx, hkey, hchannel⟩ := hs e he
  obtain ⟨x', hx', hkey', hchannel'⟩ := hs e' he'
  rw [← hchannel, ← hchannel']
  exact h x hx x' hx' (by rwa [hkey, hkey'])

theorem retireProcess_shrinks (p : Parks T) (pid : UInt32) : Shrinks p (p.retireProcess pid) := by
  have hending : Ending p ((p.queue.retireProcess pid).1.foldl forget { p with queue := (p.queue.retireProcess pid).2 }) :=
    ⟨_, _, [], p.queue.retireProcess_ends pid, settled_forget _ _⟩
  exact hending.shrinks.trans (.of_queue rfl)

theorem futexRequeue_shrinks (p : Parks T) (pid : UInt32) (source target : UInt64) (max : Nat) :
    Shrinks p (p.futexRequeue pid source target max).2 := by
  simp only [futexRequeue]
  split
  · exact .of_queue rfl
  intro e he
  obtain ⟨x, hx, hkey, hwaiter, _⟩ := retarget_mem he
  exact ⟨x, hx, hkey, congrArg Waiter.channel hwaiter⟩

/-- A task that parks gets an identity and a generation above all there are. -/
theorem park_ordered (h : Inv p) (hord : Ordered p) {pid tid : UInt32} {kind : WaitKind}
    {sources : List WakeSource} {deadline : Option MonotonicNs} {resume : Resume} {r : Except Errno ChannelGeneration}
    (hpark : p.park pid tid kind sources deadline resume = some (r, p')) : Ordered p' := by
  obtain ⟨_, _, _, ⟨_, hsleepers, _⟩ | ⟨s, _, htask, hperm, _⟩⟩ := park_cases h hpark
  · refine hord.shrinks fun e he => ⟨e, ?_, rfl, rfl⟩
    rw [← hsleepers]
    exact he
  have hchannel : s.channel = p.queue.nextGeneration := congrArg Task.generation htask
  intro e he e' he' hlt
  rcases mem_cons.mp (hperm.mem_iff.mp he) with rfl | hold
  · rcases mem_cons.mp (hperm.mem_iff.mp he') with rfl | hold'
    · exact absurd hlt (lt_irrefl _)
    · exact absurd hlt (Nat.lt_asymm (h.queue.minted e' hold'))
  rcases mem_cons.mp (hperm.mem_iff.mp he') with rfl | hold'
  · exact hchannel ▸ h.queue.opened e hold
  · exact hord e hold e' hold' hlt

theorem call_ordered (h : Inv p) (hord : Ordered p) (c : Call) : Ordered (p.call c).2 := by
  cases c with
  | park pid tid kind sources deadline resume =>
    simp only [call]
    cases hpark : p.park pid tid kind sources deadline resume with
    | none => exact hord
    | some r => exact park_ordered h hord hpark
  | futexRequeue pid source target max => exact hord.shrinks (p.futexRequeue_shrinks pid source target max)
  | retireProcess pid => exact hord.shrinks (p.retireProcess_shrinks pid)
  | drain | takeCompletions => exact hord
  | _ =>
    refine hord.shrinks (call_endings h ?_).shrinks
    trivial

theorem run_ordered (cs : List Call) (h : Inv p) (hord : Ordered p) : Ordered (Machine.run call p cs) := by
  induction cs generalizing p with
  | nil => exact hord
  | cons c cs ih => exact ih (call_effect h c).inv (call_ordered h hord c)

theorem Ordered.sleeping (h : Ordered p) : (p.sleeping.map Task.generation).Pairwise (· < ·) := by
  simp only [Parks.sleeping, OrdMap.values, pairwise_map]
  refine p.queue.sleepers.sorted.imp_of_mem fun ha hb hlt => ?_
  exact h _ ha _ hb (Nat.compare_eq_lt.mp hlt)

/-- The sleepers are listed as they parked. -/
theorem sleeping_sublist (cs : List Call) :
    (Machine.run call (new : Parks T) cs).sleeping.Sublist (Machine.moved call parked (new : Parks T) cs) := by
  have heffect := run_effect (T := T) cs .new
  have hord : Ordered (Machine.run call (new : Parks T) cs) := run_ordered cs Inv.new nofun
  have hsubperm := (sublist_append_right _ _).subperm.trans heffect.tasks
  refine sublist_of_subperm_of_pairwise (r := fun a b : Task => a.generation < b.generation) hsubperm ?_ ?_
  · exact pairwise_map.mp hord.sleeping
  · exact pairwise_map.mp heffect.sorted

/-! ## Waking and requeueing -/

/-- The waiter waits on a futex, with a bitset that has one of these bits. -/
def accepts (p : Parks T) (bitset : UInt32) (id : WaiterId) : Bool :=
  match p.resume.get? id with
  | some (.futex mine _) => mine &&& bitset != 0
  | _ => false

/-- The waiters on a futex word whose bitset intersects, longest parked first. -/
def waitersOn (p : Parks T) (pid : UInt32) (addr : UInt64) (bitset : UInt32) : List (WaiterId × Sleeper T) :=
  p.queue.sleepers.entries.filter fun e => e.2.matchesSource (.futex pid addr) && p.accepts bitset e.1

/-- The record of a waiter that is woken. -/
def woken (s : Sleeper T) : Completion := ⟨s.channel, s.pid, s.tid, 0, 0, none⟩

theorem finish_completions (ws : List (Wakeup T)) (p : Parks T) :
    (ws.foldl (fun p w => p.finish w ((p.resume.get? w.id).elim 0 Resume.wokenValue) 0) p).completions =
      p.completions ++ ws.map fun w => ⟨w.channel, w.pid, w.tid, 0, 0, none⟩ := by
  induction ws generalizing p with
  | nil => exact (append_nil _).symm
  | cons w ws ih =>
    have hvalue : (p.resume.get? w.id).elim 0 Resume.wokenValue = 0 := by
      cases p.resume.get? w.id with
      | none => rfl
      | some r => rfl
    rw [foldl_cons, ih, hvalue]
    simp [finish, finishWith]

/-- `futex_wake` with the waiters it selects written out. -/
theorem futexWake_eq (h : Inv p) (pid : UInt32) (addr : UInt64) (max : Nat) (bitset : UInt32) :
    let r := removeAll (countWake (.futex pid addr)) (.source (.futex pid addr))
      (((p.waitersOn pid addr bitset).take max).map (·.1)) p.queue
    p.futexWake pid addr max bitset = (r.1.length,
      r.1.foldl (fun p w => p.finish w ((p.resume.get? w.id).elim 0 Resume.wokenValue) 0) { p with queue := r.2 }) := by
  have hselect : p.queue.sleepers.entries.filter (fun e => e.2.matchesSource (.futex pid addr) && p.accepts bitset e.2.id) =
      p.waitersOn pid addr bitset := by
    refine filter_congr fun e he => ?_
    rw [h.queue.keyed e he]
  rw [← hselect]
  rfl

theorem futexWake_spec (h : Inv p) (pid : UInt32) (addr : UInt64) (max : Nat) (bitset : UInt32) :
    let first := (p.waitersOn pid addr bitset).take max
    let r := p.futexWake pid addr max bitset
    r.1 = min max (p.waitersOn pid addr bitset).length ∧ r.2.completions = p.completions ++ first.map (fun e => woken e.2) ∧
      r.2.queue.sleepers.entries = p.queue.sleepers.entries.filter (fun e => decide (e.1 ∉ first.map (·.1))) ∧
      ∀ id, r.2.resume.get? id = if id ∈ first.map (·.1) then none else p.resume.get? id := by
  intro first r
  have hsublist : first.Sublist p.queue.sleepers.entries := (take_sublist _ _).trans filter_sublist
  obtain ⟨hout, hrem⟩ := removeAll_sublist (WaitQueue.Counts.wake (.futex pid addr)) (.source (.futex pid addr))
    hsublist
  have hids : (first.map fun e => intoWakeup (.source (.futex pid addr)) e.2).map (·.id) = first.map (·.1) := by
    rw [map_map]
    exact map_congr_left fun e he => h.queue.keyed e (hsublist.subset he)
  obtain ⟨done, hdone⟩ := settled_finish (fun (p : Parks T) w => (p.resume.get? w.id).elim 0 Resume.wokenValue) 0
    (removeAll (countWake (.futex pid addr)) (.source (.futex pid addr)) (first.map (·.1)) p.queue).1
    { p with queue := (removeAll (countWake (.futex pid addr)) (.source (.futex pid addr)) (first.map (·.1)) p.queue).2 }
  simp only [r, futexWake_eq h]
  refine ⟨?_, ?_, ?_, ?_⟩
  · rw [hout, length_map, length_take]
  · rw [finish_completions, hout, map_map]
    rfl
  · rw [hdone.sleepers]
    exact hrem.entries_eq
  · intro id
    rw [hdone.resume, hout, hids]

theorem matches_redirect {source target : WakeSource} {s : Sleeper T} (hne : source ≠ target) :
    (redirect source target s).matchesSource source = false := by
  refine Bool.eq_false_iff.mpr fun hmatch => ?_
  obtain ⟨x, hx, heq⟩ := any_eq_true.mp hmatch
  obtain ⟨y, _, rfl⟩ := mem_map.mp hx
  rw [beq_iff_eq] at heq
  split_ifs at heq with hother
  · exact hne heq.symm
  · exact hother heq

/-- Whom a requeue moves. -/
def requeued (p : Parks T) (pid : UInt32) (source target : UInt64) (max : Nat) : List WaiterId :=
  if source = target then [] else ((p.queue.on (.futex pid source)).take max).map (·.1)

theorem futexRequeue_spec (p : Parks T) (pid : UInt32) (source target : UInt64) (max : Nat) :
    let ids := p.requeued pid source target max
    let r := p.futexRequeue pid source target max
    r.1 = ids.length ∧ r.2.resume = p.resume ∧ r.2.completions = p.completions ∧ r.2.queue.deadlines = p.queue.deadlines ∧
      r.2.queue.sleepers.entries = p.queue.sleepers.entries.map fun e =>
        if e.1 ∈ ids then (e.1, redirect (.futex pid source) (.futex pid target) e.2) else e := by
  simp only [futexRequeue, requeued]
  split
  · refine ⟨rfl, rfl, rfl, rfl, ?_⟩
    simp
  obtain ⟨hcount, hentries⟩ := p.queue.retarget_spec (.futex pid source) (.futex pid target) max
  rw [length_map]
  exact ⟨hcount, rfl, rfl, rfl, hentries⟩

theorem requeued_source {pid : UInt32} {source target : UInt64} {max : Nat} {e : WaiterId × Sleeper T}
    (he : e ∈ p.queue.sleepers.entries) (hmoved : e.1 ∈ p.requeued pid source target max) :
    source ≠ target ∧ e.2.matchesSource (.futex pid source) := by
  simp only [requeued] at hmoved
  split_ifs at hmoved with hne
  · cases hmoved
  obtain ⟨x, hx, hkey⟩ := mem_map.mp hmoved
  obtain ⟨hmem, hmatch⟩ := mem_filter.mp (mem_of_mem_take hx)
  have hget := OrdMap.mem_entries_iff.mp hmem
  rw [hkey, OrdMap.mem_entries_iff.mp he, Option.some.injEq] at hget
  exact ⟨hne, hget ▸ hmatch⟩

/-- The waiters on a word after a requeue, in the order they parked: those it
selects of the sleepers as they were. -/
theorem waitersOn_requeue (p : Parks T) (pid : UInt32) (source target addr : UInt64) (max : Nat) (bitset : UInt32)
    (f : WaiterId × Sleeper T → Bool) (hstays : ∀ e ∈ p.queue.sleepers.entries, e.1 ∉ p.requeued pid source target max →
      f e = e.2.matchesSource (.futex pid addr)) (hmoves : ∀ e ∈ p.queue.sleepers.entries, e.1 ∈ p.requeued pid source target max →
      f e = (redirect (.futex pid source) (.futex pid target) e.2).matchesSource (.futex pid addr)) :
    ((p.futexRequeue pid source target max).2.waitersOn pid addr bitset).map (·.1) =
      (p.queue.sleepers.entries.filter fun e => f e && p.accepts bitset e.1).map (·.1) := by
  obtain ⟨_, hresume, _, _, hentries⟩ := p.futexRequeue_spec pid source target max
  simp only [waitersOn, hentries, accepts, hresume, filter_map, map_map]
  rw [filter_congr (q := fun e => f e && p.accepts bitset e.1)]
  · refine map_congr_left fun e _ => ?_
    simp only [Function.comp_apply]
    split <;> rfl
  intro e he
  simp only [Function.comp_apply]
  split_ifs with hmoved
  · rw [hmoves e he hmoved]
    rfl
  · rw [hstays e he hmoved]
    rfl

/-- After every run of calls, the sleepers are listed as they parked and no park
has been answered twice. A wake completes as many waiters as it may of those on
the word whose bitset intersects, the longest parked, and leaves the others as
they were. A requeue moves the longest parked on its word: each keeps its
identity, deadline and bitset, and a wake on either word then finds the waiters
that are there in the order they parked. -/
theorem futex_wake_requeue (cs : List Call) :
    let p : Parks T := Machine.run call new cs
    (p.sleeping.Sublist (Machine.moved call parked (new : Parks T) cs) ∧
      ((Fifo.ledger call moves (new : Parks T) cs).accepted.map Completion.generation ++ p.sleeping.map Task.generation).Nodup) ∧
    (∀ pid addr max bitset,
      let first := (p.waitersOn pid addr bitset).take max
      let r := p.futexWake pid addr max bitset
      r.1 = min max (p.waitersOn pid addr bitset).length ∧ r.2.completions = p.completions ++ first.map (fun e => woken e.2) ∧
        r.2.queue.sleepers.entries = p.queue.sleepers.entries.filter (fun e => decide (e.1 ∉ first.map (·.1))) ∧
        ∀ id, r.2.resume.get? id = if id ∈ first.map (·.1) then none else p.resume.get? id) ∧
    ∀ pid source target max,
      let ids := p.requeued pid source target max
      let r := p.futexRequeue pid source target max
      r.1 = ids.length ∧ r.2.resume = p.resume ∧ r.2.completions = p.completions ∧ r.2.queue.deadlines = p.queue.deadlines ∧
        (r.2.queue.sleepers.entries = p.queue.sleepers.entries.map fun e =>
          if e.1 ∈ ids then (e.1, redirect (.futex pid source) (.futex pid target) e.2) else e) ∧
        ∀ bitset, (r.2.waitersOn pid target bitset).map (·.1) = (p.queue.sleepers.entries.filter fun e =>
            (e.2.matchesSource (.futex pid target) || decide (e.1 ∈ ids)) && p.accepts bitset e.1).map (·.1) ∧
          (r.2.waitersOn pid source bitset).map (·.1) = (p.queue.sleepers.entries.filter fun e =>
            (e.2.matchesSource (.futex pid source) && decide (e.1 ∉ ids)) && p.accepts bitset e.1).map (·.1) := by
  intro p
  have hinv : Inv p := (run_effect (T := T) cs .new).inv
  refine ⟨⟨sleeping_sublist cs, run_nodup cs⟩, fun pid addr max bitset => futexWake_spec hinv pid addr max bitset, ?_⟩
  intro pid source target max ids r
  obtain ⟨hcount, hresume, hcompletions, hdeadlines, hentries⟩ := p.futexRequeue_spec pid source target max
  refine ⟨hcount, hresume, hcompletions, hdeadlines, hentries, fun bitset => ⟨?_, ?_⟩⟩
  · refine p.waitersOn_requeue pid source target target max bitset _ (fun e _ hother => ?_) (fun e he hmoved => ?_)
    · simp [ids, hother]
    · rw [redirect_target (requeued_source he hmoved).2]
      simp [ids, hmoved]
  refine p.waitersOn_requeue pid source target source max bitset _ (fun e _ hother => ?_) (fun e he hmoved => ?_)
  · simp [ids, hother]
  have hne : WakeSource.futex pid source ≠ .futex pid target := by
    simpa using (requeued_source he hmoved).1
  rw [matches_redirect hne]
  simp [ids, hmoved]

/-- Three waiters, the second with another bit: the wake takes the first and the
third of those on the word. -/
example :
    let p : Parks Unit := Machine.run call new [.park 7 7 .futex [.futex 7 16] none (.futex 1 none),
      .park 7 8 .futex [.futex 7 16] none (.futex 2 none), .park 7 9 .futex [.futex 7 16] none (.futex 3 none)]
    (p.futexWake 7 16 5 1).1 = 2 ∧ (p.futexWake 7 16 5 1).2.sleeping.map Task.tid = [8] := by
  decide +kernel

end Parks

end Kandelo.Wait
