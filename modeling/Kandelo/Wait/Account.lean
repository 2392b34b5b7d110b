/-
The accounts of the wait queue: every call is a park, a removal of some
sleepers, or leaves the sleepers alone (`Removed`), so over every run each
waiter parked is asleep or has been handed back once, as it was parked
(`waiters_leave_once`), and the counters say how many.

The heap is only ever ahead of the sleepers: each deadline of a sleeper is in it,
so `expire` ends exactly the waits that are due (`expire_spec`), and a stale entry
wakes nothing.
-/
import Kandelo.Wait.Queue

namespace Kandelo.Wait

open List OrdMap

variable {T : Type*}

/-- Who waits: what stays with a wait from its park to its wakeup. -/
structure Waiter (T : Type*) where
  id : WaiterId
  pid : UInt32
  tid : UInt32
  channel : ChannelGeneration
  kind : WaitKind
  target : Option T
  deriving DecidableEq

def Sleeper.waiter (s : Sleeper T) : Waiter T := ⟨s.id, s.pid, s.tid, s.channel, s.kind, s.target⟩

def Wakeup.waiter (w : Wakeup T) : Waiter T := ⟨w.id, w.pid, w.tid, w.channel, w.kind, w.target⟩

@[simp] theorem intoWakeup_waiter (reason : WakeReason) (s : Sleeper T) : (intoWakeup reason s).waiter = s.waiter := rfl

def ParkRequest.waiter (r : ParkRequest T) (id : WaiterId) : Waiter T := ⟨id, r.pid, r.tid, r.channel, r.kind, r.target⟩

/-- The waits that ended, by every bucket that counts one. -/
def WaitQueueStats.ended (s : WaitQueueStats) : Nat :=
  s.wokenBySource + s.broadWakes + s.wokenByDeadline + s.retired + s.cancelled

namespace WaitQueue

/-- The tasks asleep, oldest first. -/
def waiters (q : WaitQueue T) : List (Waiter T) := q.sleepers.values.map Sleeper.waiter

/-! ## The invariant -/

structure Inv (q : WaitQueue T) : Prop where
  keyed : ∀ e ∈ q.sleepers.entries, e.2.id = e.1
  minted : ∀ e ∈ q.sleepers.entries, e.1 < q.nextWaiter
  bounded : q.nextWaiter ≤ i64Max + 1
  parked : q.stats.parked + 1 = q.nextWaiter
  counted : q.stats.parked = q.sleepers.entries.length + q.stats.ended
  expiries : q.stats.deadlineExpiriesWithSources ≤ q.stats.wokenByDeadline
  timed : ∀ e ∈ q.sleepers.entries, ∀ d, e.2.deadline = some d → toLex (d, e.1) ∈ q.deadlines.items
  opened : ∀ e ∈ q.sleepers.entries, e.2.channel < q.nextGeneration
  live : ∀ c ∈ q.liveChannels, c < q.nextGeneration

theorem Inv.new : Inv (new : WaitQueue T) where
  keyed := by simp [WaitQueue.new, OrdMap.empty]
  minted := by simp [WaitQueue.new, OrdMap.empty]
  bounded := by simp [WaitQueue.new]
  parked := rfl
  counted := rfl
  expiries := le_rfl
  timed := by simp [WaitQueue.new, OrdMap.empty]
  opened := by simp [WaitQueue.new, OrdMap.empty]
  live := by simp [WaitQueue.new]

variable {q : WaitQueue T}

/-! ## What a removal does -/

/-- `gone` left the queue, was counted once each, and nothing else changed but
that heap entries and live channels went. -/
structure Removed (q : WaitQueue T) (gone : List (WaiterId × Sleeper T)) (q' : WaitQueue T) : Prop where
  entries : q.sleepers.entries.Perm (gone ++ q'.sleepers.entries)
  ended : q'.stats.ended = q.stats.ended + gone.length
  parked : q'.stats.parked = q.stats.parked
  expiries : q.stats.deadlineExpiriesWithSources ≤ q.stats.wokenByDeadline →
    q'.stats.deadlineExpiriesWithSources ≤ q'.stats.wokenByDeadline
  nextWaiter : q'.nextWaiter = q.nextWaiter
  nextGeneration : q'.nextGeneration = q.nextGeneration
  live : q'.liveChannels ⊆ q.liveChannels
  timed : ∀ e ∈ q'.sleepers.entries, ∀ d, e.2.deadline = some d → toLex (d, e.1) ∈ q.deadlines.items →
    toLex (d, e.1) ∈ q'.deadlines.items

theorem Removed.refl (q : WaitQueue T) : Removed q [] q where
  entries := .refl _
  ended := rfl
  parked := rfl
  expiries := id
  nextWaiter := rfl
  nextGeneration := rfl
  live := Finset.Subset.refl _
  timed := fun _ _ _ _ h => h

variable {gone : List (WaiterId × Sleeper T)} {q' : WaitQueue T}

theorem Removed.mem (h : Removed q gone q') {e : WaiterId × Sleeper T} (he : e ∈ q'.sleepers.entries) : e ∈ q.sleepers.entries :=
  h.entries.mem_iff.mpr (mem_append_right _ he)

theorem Removed.trans {q'' : WaitQueue T} {gone' : List (WaiterId × Sleeper T)} (h : Removed q gone q')
    (h' : Removed q' gone' q'') : Removed q (gone ++ gone') q'' where
  entries := by
    rw [append_assoc]
    exact h.entries.trans (h'.entries.append_left gone)
  ended := by
    rw [h'.ended, h.ended, length_append]
    omega
  parked := h'.parked.trans h.parked
  expiries := h'.expiries ∘ h.expiries
  nextWaiter := h'.nextWaiter.trans h.nextWaiter
  nextGeneration := h'.nextGeneration.trans h.nextGeneration
  live := h'.live.trans h.live
  timed := fun e he d hd hin => h'.timed e he d hd (h.timed e (h'.mem he) d hd hin)

theorem Removed.inv (h : Removed q gone q') (hq : Inv q) : Inv q' where
  keyed := fun e he => hq.keyed e (h.mem he)
  minted := fun e he => by
    rw [h.nextWaiter]
    exact hq.minted e (h.mem he)
  bounded := by
    rw [h.nextWaiter]
    exact hq.bounded
  parked := by
    rw [h.parked, h.nextWaiter]
    exact hq.parked
  counted := by
    have := h.entries.length_eq
    rw [length_append] at this
    rw [h.parked, hq.counted, h.ended]
    omega
  expiries := h.expiries hq.expiries
  timed := fun e he d hd => h.timed e he d hd (hq.timed e (h.mem he) d hd)
  opened := fun e he => by
    rw [h.nextGeneration]
    exact hq.opened e (h.mem he)
  live := fun c hc => by
    rw [h.nextGeneration]
    exact hq.live c (h.live hc)

/-- Who left is not there any more. -/
theorem Removed.gone_notMem (h : Removed q gone q') {e : WaiterId × Sleeper T} (he : e ∈ gone) : e ∉ q'.sleepers.entries := by
  have hnd := h.entries.nodup_iff.mp q.sleepers.entries_nodup
  exact fun he' => (nodup_append.mp hnd).2.2 e he e he' rfl

/-- A lookup after a removal. -/
theorem Removed.get?_eq (h : Removed q gone q')
    (id : WaiterId) : q'.sleepers.get? id = if id ∈ gone.map (·.1) then none else q.sleepers.get? id := by
  have hkeys := (h.entries.map (·.1)).nodup_iff.mp q.sleepers.keys_nodup
  rw [map_append, nodup_append] at hkeys
  split_ifs with hid
  · refine Option.eq_none_iff_forall_not_mem.mpr fun s hs => ?_
    exact hkeys.2.2 id hid id (mem_map_of_mem (mem_entries_iff.mpr hs)) rfl
  refine Option.ext fun s => ?_
  rw [← mem_entries_iff, ← mem_entries_iff, h.entries.mem_iff, mem_append]
  refine ⟨.inr, fun hs => hs.resolve_left fun hgone => hid ?_⟩
  exact mem_map_of_mem (f := (·.1)) hgone

variable {id : WaiterId} {s : Sleeper T}

/-- One sleeper leaves. -/
theorem Removed.one (hs : q.sleepers.get? id = some s)
    {stats : WaitQueueStats} (hended : stats.ended = q.stats.ended + 1) (hparked : stats.parked = q.stats.parked)
    (hexp : q.stats.deadlineExpiriesWithSources ≤ q.stats.wokenByDeadline → stats.deadlineExpiriesWithSources ≤ stats.wokenByDeadline) :
    Removed q [(id, s)] { q with sleepers := q.sleepers.erase id, stats := stats } where
  entries := erase_perm hs
  ended := hended
  parked := hparked
  expiries := hexp
  nextWaiter := rfl
  nextGeneration := rfl
  live := Finset.Subset.refl _
  timed := fun _ _ _ _ h => h

/-! ## The loop of the removing calls -/

/-- A counter of ended waits: it counts one, in some bucket but the deadline's. -/
structure Counts (count : WaitQueueStats → WaitQueueStats) : Prop where
  ended : ∀ s, (count s).ended = s.ended + 1
  parked : ∀ s, (count s).parked = s.parked
  expiries : ∀ s, (count s).deadlineExpiriesWithSources = s.deadlineExpiriesWithSources
  deadline : ∀ s, (count s).wokenByDeadline = s.wokenByDeadline

theorem Counts.wake (source : WakeSource) : Counts (countWake source) := by
  constructor <;> intro s <;> simp only [countWake] <;> split <;> simp only [WaitQueueStats.ended] <;> omega

theorem Counts.retired : Counts countRetired := by
  constructor <;> intro s <;> simp only [countRetired, WaitQueueStats.ended]
  omega

theorem Counts.cancelled : Counts countCancelled := by
  constructor <;> intro s <;> simp only [countCancelled, WaitQueueStats.ended]
  omega

variable {count : WaitQueueStats → WaitQueueStats}

theorem Counts.one (hc : Counts count) (hs : q.sleepers.get? id = some s) :
    Removed q [(id, s)] { q with sleepers := q.sleepers.erase id, stats := count q.stats } :=
  .one hs (hc.ended _) (hc.parked _) fun h => by rwa [hc.expiries, hc.deadline]

/-- Removing a selection of the sleepers answers them in order, and they leave. -/
theorem removeAll_spec (hc : Counts count) (reason : WakeReason) :
    ∀ (sel : List (WaiterId × Sleeper T)) {q : WaitQueue T}, (∀ e ∈ sel, q.sleepers.get? e.1 = some e.2) → (sel.map (·.1)).Nodup →
      (removeAll count reason (sel.map (·.1)) q).1 = sel.map (fun e => intoWakeup reason e.2) ∧
        Removed q sel (removeAll count reason (sel.map (·.1)) q).2
  | [], q, _, _ => ⟨rfl, .refl q⟩
  | e :: sel, q, hsel, hnd => by
    have he := hsel e mem_cons_self
    rw [map_cons, nodup_cons] at hnd
    -- the rest of the selection is still asleep once its head has left
    have hrest : ∀ x ∈ sel, (q.sleepers.erase e.1).get? x.1 = some x.2 := by
      intro x hx
      have hne : x.1 ≠ e.1 := fun heq => hnd.1 (heq ▸ mem_map_of_mem hx)
      rw [get?_erase, if_neg hne]
      exact hsel x (mem_cons_of_mem _ hx)
    obtain ⟨hout, hrem⟩ := removeAll_spec hc reason sel
      (q := { q with sleepers := q.sleepers.erase e.1, stats := count q.stats }) hrest hnd.2
    simp only [map_cons, removeAll, he]
    exact ⟨by rw [hout], (hc.one he).trans hrem⟩

/-- The same for a selection cut out of the queue's own list. -/
theorem removeAll_sublist (hc : Counts count) (reason : WakeReason)
    {sel : List (WaiterId × Sleeper T)} (h : sel.Sublist q.sleepers.entries) :
    (removeAll count reason (sel.map (·.1)) q).1 = sel.map (fun e => intoWakeup reason e.2) ∧
      Removed q sel (removeAll count reason (sel.map (·.1)) q).2 := by
  refine removeAll_spec hc reason sel (fun e he => mem_entries_iff.mp (h.subset he)) ?_
  exact (h.map _).nodup q.sleepers.keys_nodup

/-! ## The removing calls -/

/-- A removing call answers the sleepers that left, in order, with one reason. -/
def Ends (q : WaitQueue T) (reason : WakeReason) (r : List (Wakeup T) × WaitQueue T) : Prop :=
  ∃ gone, r.1 = gone.map (fun e => intoWakeup reason e.2) ∧ Removed q gone r.2

variable {r : List (Wakeup T) × WaitQueue T}

/-- Who a removing call answers is who left. -/
theorem Ends.waiters {reason : WakeReason} (h : Ends q reason r) : q.waiters.Perm (r.1.map Wakeup.waiter ++ r.2.waiters) := by
  obtain ⟨gone, hout, hrem⟩ := h
  have hmap := (hrem.entries.map (·.2)).map Sleeper.waiter
  rw [hout]
  simpa [WaitQueue.waiters, OrdMap.values, Function.comp_def] using hmap

section

variable (q : WaitQueue T)

theorem wake_ends (source : WakeSource) (pidFilter : Option UInt32) (deferSignalSafe : Bool) : Ends q (.source source)
      ((q.wake source pidFilter deferSignalSafe).1.1, (q.wake source pidFilter deferSignalSafe).2) :=
  ⟨_, removeAll_sublist (.wake source) _ (filter_sublist.trans filter_sublist)⟩

theorem wakeLimited_ends (source : WakeSource) (max : Nat) (accept : Sleeper T → Bool) :
    Ends q (.source source) (q.wakeLimited source max accept) :=
  ⟨_, removeAll_sublist (.wake source) _ ((take_sublist _ _).trans filter_sublist)⟩

theorem removeWithReason_ends (id : WaiterId) (reason : WakeReason) :
    Ends q reason ((q.removeWithReason id reason).1.toList, (q.removeWithReason id reason).2) := by
  simp only [removeWithReason]
  cases hs : q.sleepers.get? id with
  | none => exact ⟨[], rfl, .refl q⟩
  | some s =>
    refine ⟨[(id, s)], rfl, ?_⟩
    show Removed q _ { q with sleepers := q.sleepers.erase id, stats := if reason = .retired then _ else _ }
    split
    · exact Counts.retired.one hs
    · exact Counts.cancelled.one hs

theorem cancel_ends (id : WaiterId) : Ends q .interrupted ((q.cancel id).1.toList, (q.cancel id).2) := by
  simp only [cancel]
  cases hs : q.sleepers.get? id with
  | none => exact ⟨[], rfl, .refl q⟩
  | some s => exact ⟨[(id, s)], rfl, Counts.cancelled.one hs⟩

theorem cancelTask_ends (pid tid : UInt32) : Ends q .interrupted (q.cancelTask pid tid) :=
  ⟨_, removeAll_sublist .cancelled _ filter_sublist⟩

section

variable (channel : ChannelGeneration)

theorem Removed.release : Removed q [] (q.releaseChannel channel) :=
  { Removed.refl q with live := Finset.erase_subset _ _ }

theorem retireChannel_removed :
    (q.retireChannel channel).1 = (q.select fun s => s.channel == channel).map (fun e => intoWakeup .retired e.2) ∧
      Removed q (q.select fun s => s.channel == channel) (q.retireChannel channel).2 := by
  have hsel : (q.select fun s => s.channel == channel).Sublist (q.releaseChannel channel).sleepers.entries := filter_sublist
  obtain ⟨hout, hrem⟩ := removeAll_sublist Counts.retired .retired hsel
  exact ⟨hout, (Removed.release q channel).trans hrem⟩

/-- A retired channel has no sleeper left. -/
theorem retireChannel_none : ∀ e ∈ (q.retireChannel channel).2.sleepers.entries, e.2.channel ≠ channel := by
  intro e he hch
  obtain ⟨_, hrem⟩ := q.retireChannel_removed channel
  exact hrem.gone_notMem (mem_filter.mpr ⟨hrem.mem he, by simpa using hch⟩) he

end

/-- The channels are retired one after another; who leaves sleeps on one of
them. -/
theorem retireChannels_spec : ∀ (channels : List ChannelGeneration) (q : WaitQueue T),
    ∃ gone, (retireChannels channels q).1 = gone.map (fun e => intoWakeup .retired e.2) ∧ Removed q gone (retireChannels channels q).2 ∧
      (∀ e ∈ gone, e.2.channel ∈ channels) ∧
      ∀ e ∈ (retireChannels channels q).2.sleepers.entries, e.2.channel ∉ channels
  | [], q => ⟨[], rfl, .refl q, by simp, by simp⟩
  | channel :: channels, q => by
    obtain ⟨hout, hrem⟩ := q.retireChannel_removed channel
    obtain ⟨gone, hout', hrem', hon, hnone⟩ := retireChannels_spec channels (q.retireChannel channel).2
    refine ⟨_ ++ gone, ?_, hrem.trans hrem', ?_, ?_⟩
    · rw [retireChannels, hout, hout', map_append]
    · intro e he
      rcases mem_append.mp he with he | he
      · have := (mem_filter.mp he).2
        exact mem_cons.mpr (.inl (by simpa using this))
      · exact mem_cons_of_mem _ (hon e he)
    · intro e he hch
      rcases mem_cons.mp hch with heq | hch
      · exact q.retireChannel_none channel e (hrem'.mem he) heq
      · exact hnone e he hch

theorem retireProcess_ends (pid : UInt32) : Ends q .retired (q.retireProcess pid) := by
  obtain ⟨gone, hout, hrem, _⟩ := retireChannels_spec ((q.select fun s => s.pid == pid).map (·.2.channel)) q
  exact ⟨gone, hout, hrem⟩

/-- A retired process has no sleeper left. -/
theorem retireProcess_none (pid : UInt32) : ∀ e ∈ (q.retireProcess pid).2.sleepers.entries, e.2.pid ≠ pid := by
  intro e he hpid
  obtain ⟨_, _, hrem, _, hnone⟩ := retireChannels_spec ((q.select fun s => s.pid == pid).map (·.2.channel)) q
  have hsel : e ∈ q.select fun s => s.pid == pid := mem_filter.mpr ⟨hrem.mem he, by simpa using hpid⟩
  exact hnone e he (mem_map.mpr ⟨e, hsel, rfl⟩)

end

/-! ## The deadline heap -/

variable {e : MonotonicNs ×ₗ WaiterId}

theorem holds_iff : q.holds e ↔ ∃ s, q.sleepers.get? (ofLex e).2 = some s ∧ s.deadline = some (ofLex e).1 := by
  simp only [holds, Option.any_eq_true, beq_iff_eq]

/-- Popping a stale entry loses no deadline. -/
theorem Removed.stale (hp : q.deadlines.peek = some e) (hstale : ¬ q.holds e) : Removed q [] { q with deadlines := q.deadlines.pop } :=
  { Removed.refl q with
    timed := by
      intro x hx d hd hin
      rcases MinHeap.mem_pop hp hin with heq | hin
      · refine absurd (holds_iff.mpr ⟨x.2, ?_, ?_⟩) hstale
        · rw [← heq]
          exact mem_entries_iff.mp hx
        · rw [← heq]
          exact hd
      · exact hin }

theorem nextDeadlineNs_removed (q : WaitQueue T) : Removed q [] q.nextDeadlineNs.2 := by
  fun_induction nextDeadlineNs q with
  | case1 q hp => exact .refl q
  | case2 q e hp hold => exact .refl q
  | case3 q e hp hold ih => exact (Removed.stale hp hold).trans ih

/-- The answer is a deadline some task sleeps to, and no task sleeps to an
earlier one; there is none only if no task has a deadline. -/
theorem nextDeadlineNs_least (h : Inv q) : (∀ d, q.nextDeadlineNs.1 = some d → ∃ e ∈ q.sleepers.entries, e.2.deadline = some d) ∧
      ∀ e ∈ q.sleepers.entries, ∀ d, e.2.deadline = some d → ∃ d', q.nextDeadlineNs.1 = some d' ∧ d' ≤ d := by
  fun_induction nextDeadlineNs q with
  | case1 q hp =>
    refine ⟨by simp, fun e he d hd => ?_⟩
    have := h.timed e he d hd
    rw [MinHeap.peek_eq_none hp] at this
    cases this
  | case2 q x hp hold =>
    refine ⟨?_, fun e he d hd => ⟨_, rfl, ?_⟩⟩
    · intro d hd
      obtain rfl : (ofLex x).1 = d := by simpa using hd
      obtain ⟨s, hs, hdl⟩ := holds_iff.mp hold
      exact ⟨_, mem_entries_iff.mpr hs, hdl⟩
    · exact Prod.Lex.monotone_fst _ _ (MinHeap.peek_le hp (h.timed e he d hd))
  | case3 q x hp hold ih => exact ih ((Removed.stale hp hold).inv h)

theorem countDeadline_ended (s : Sleeper T) (stats : WaitQueueStats) : (countDeadline s stats).ended = stats.ended + 1 := by
  simp only [countDeadline, WaitQueueStats.ended]
  omega

/-- The sleeper at the top of the heap leaves with its entry. -/
theorem Removed.due (hp : q.deadlines.peek = some e) (hs : q.sleepers.get? (ofLex e).2 = some s) :
    Removed q [((ofLex e).2, s)] { q with
      deadlines := q.deadlines.pop
      sleepers := q.sleepers.erase (ofLex e).2
      stats := countDeadline s q.stats } := by
  have hone := Removed.one hs (countDeadline_ended s q.stats) rfl fun hle => by
    simp only [countDeadline]
    split <;> omega
  have hstale := Removed.stale (q := { q with sleepers := q.sleepers.erase (ofLex e).2, stats := countDeadline s q.stats })
    hp (by simp [holds_iff, get?_erase])
  exact hone.trans hstale

/-- The first has a deadline before the second's, or the same one and the lower identity. -/
def DueBefore (a b : WaiterId × Sleeper T) : Prop :=
  ∃ d d', a.2.deadline = some d ∧ b.2.deadline = some d' ∧ toLex (d, a.1) < toLex (d', b.1)

/-- `expire` ends waits whose deadline has passed, by deadline, and leaves none behind. -/
theorem expire_spec (h : Inv q) (nowNs : MonotonicNs) : (∃ gone, (q.expire nowNs).1 = gone.map (fun e => intoWakeup .deadline e.2) ∧
        Removed q gone (q.expire nowNs).2 ∧ (∀ e ∈ gone, ∃ d ≤ nowNs, e.2.deadline = some d) ∧ gone.Pairwise DueBefore) ∧
      ∀ e ∈ (q.expire nowNs).2.sleepers.entries, ∀ d, e.2.deadline = some d → nowNs < d := by
  fun_induction expire q nowNs with
  | case1 q hp =>
    refine ⟨⟨[], rfl, .refl q, by simp, Pairwise.nil⟩, fun e he d hd => ?_⟩
    have := h.timed e he d hd
    rw [MinHeap.peek_eq_none hp] at this
    cases this
  | case2 q x hp hlate =>
    refine ⟨⟨[], rfl, .refl q, by simp, Pairwise.nil⟩, fun e he d hd => ?_⟩
    have hle : (ofLex x).1 ≤ d := Prod.Lex.monotone_fst _ _ (MinHeap.peek_le hp (h.timed e he d hd))
    exact lt_of_lt_of_le hlate hle
  | case3 q x hp hlate hs ih =>
    have hstale := Removed.stale hp (by simp [holds_iff, hs])
    obtain ⟨⟨gone, hout, hrem, hdue⟩, hnone⟩ := ih (hstale.inv h)
    exact ⟨⟨gone, hout, hstale.trans hrem, hdue⟩, hnone⟩
  | case4 q x hp hlate s hs hd ih =>
    have hstale := Removed.stale hp (by simpa [holds_iff, hs] using hd)
    obtain ⟨⟨gone, hout, hrem, hdue⟩, hnone⟩ := ih (hstale.inv h)
    exact ⟨⟨gone, hout, hstale.trans hrem, hdue⟩, hnone⟩
  | case5 q x hp hlate s hs hd r ih =>
    have hfirst := Removed.due hp hs
    obtain ⟨⟨gone, hout, hrem, hdue, hsorted⟩, hnone⟩ := ih (hfirst.inv h)
    refine ⟨⟨_ :: gone, ?_, hfirst.trans hrem, ?_, pairwise_cons.mpr ⟨fun e he => ?_, hsorted⟩⟩, hnone⟩
    · rw [map_cons, ← hout]
    · intro e he
      rcases mem_cons.mp he with rfl | he
      · exact ⟨_, not_lt.mp hlate, not_not.mp hd⟩
      · exact hdue e he
    obtain ⟨d, -, hde⟩ := hdue e he
    have hleft := hrem.entries.mem_iff.mpr (mem_append_left _ he)
    refine ⟨_, d, not_not.mp hd, hde, lt_of_le_of_ne (MinHeap.peek_le hp (h.timed e (hfirst.mem hleft) d hde)) ?_⟩
    -- the one at the top is no longer asleep
    intro heq
    have hgone := mem_entries_iff.mp hleft
    rw [get?_erase, if_pos (show e.1 = (ofLex x).2 from (congrArg (fun y => (ofLex y).2) heq).symm)] at hgone
    cases hgone

/-! ## The other calls -/

theorem park_ok (h : Inv q) {request : ParkRequest T} (hpark : (q.park request).1 = .ok id) :
    id = q.nextWaiter ∧ (q.park request).2.nextWaiter = q.nextWaiter + 1 ∧ request.channel ∈ q.liveChannels ∧
      (∃ s : Sleeper T, s.waiter = request.waiter id ∧ (q.park request).2.sleepers.entries.Perm ((id, s) :: q.sleepers.entries) ∧
        (q.park request).2.sleepers = q.sleepers.insert id s) ∧
      (q.park request).2.nextGeneration = q.nextGeneration ∧ Inv (q.park request).2 := by
  unfold park at hpark ⊢
  split at hpark
  · cases hpark
  rename_i hlive
  split at hpark
  · cases hpark
  rename_i hroom
  obtain rfl : q.nextWaiter = id := by simpa using hpark
  rw [if_neg hlive, if_neg hroom]
  have hfree : q.sleepers.get? q.nextWaiter = none := by
    refine Option.eq_none_iff_forall_not_mem.mpr fun s hs => ?_
    exact lt_irrefl _ (h.minted _ (mem_entries_iff.mpr hs))
  have hperm := insert_perm hfree (⟨q.nextWaiter, request.pid, request.tid, request.channel, request.kind,
    request.sources, request.deadline, request.target, request.signalSafe⟩ : Sleeper T)
  refine ⟨rfl, rfl, not_not.mp hlive, ⟨_, rfl, hperm, rfl⟩, rfl, ?_⟩
  have hmem := fun {e : WaiterId × Sleeper T} => hperm.mem_iff (a := e)
  constructor
  · intro e he
    rcases mem_cons.mp (hmem.mp he) with rfl | he
    · rfl
    · exact h.keyed e he
  · intro e he
    rcases mem_cons.mp (hmem.mp he) with rfl | he
    · exact Nat.lt_succ_self _
    · exact Nat.lt_succ_of_lt (h.minted e he)
  · show q.nextWaiter + 1 ≤ _
    omega
  · rw [h.parked]
  · have hlen := hperm.length_eq
    have hcount := h.counted
    rw [length_cons] at hlen
    show q.stats.parked + 1 = _ + q.stats.ended
    rw [hlen]
    omega
  · exact h.expiries
  · intro e he d hd
    rcases mem_cons.mp (hmem.mp he) with rfl | he
    · have hd : request.deadline = some d := hd
      simp [hd]
    have := h.timed e he d hd
    cases request.deadline with
    | none => exact this
    | some d' => exact MinHeap.mem_push.mpr (.inr this)
  · intro e he
    rcases mem_cons.mp (hmem.mp he) with rfl | he
    · exact h.live _ (not_not.mp hlive)
    · exact h.opened e he
  · exact h.live

theorem park_error {request : ParkRequest T} {e : Errno} (hpark : (q.park request).1 = .error e) : (q.park request).2 = q := by
  unfold park at hpark ⊢
  split at hpark
  · rw [if_pos ‹_›]
  rename_i hlive
  split at hpark
  · rw [if_neg hlive, if_pos ‹_›]
  · cases hpark

theorem openChannel_inv (h : Inv q) {channel : ChannelGeneration} (hopen : q.openChannel = some (channel, q')) :
    channel = q.nextGeneration ∧ q'.sleepers = q.sleepers ∧ q'.nextWaiter = q.nextWaiter ∧
      q'.nextGeneration = q.nextGeneration + 1 ∧ channel ∈ q'.liveChannels ∧ Inv q' := by
  unfold openChannel at hopen
  split at hopen
  · cases hopen
  obtain ⟨rfl, rfl⟩ : q.nextGeneration = channel ∧ _ = q' := by simpa using hopen
  refine ⟨rfl, rfl, rfl, rfl, Finset.mem_insert_self .., ?_⟩
  refine { h with opened := ?_, live := ?_ }
  · intro e he
    exact Nat.lt_succ_of_lt (h.opened e he)
  intro c hc
  rcases Finset.mem_insert.mp hc with rfl | hc
  · exact Nat.lt_succ_self _
  · exact Nat.lt_succ_of_lt (h.live c hc)

/-- A retargeted sleeper changes what can wake it and nothing else. -/
theorem retargetOne_keeps (source target : WakeSource) (max moved : Nat) (s : Sleeper T) :
    (retargetOne source target max moved s).2.waiter = s.waiter ∧ (retargetOne source target max moved s).2.deadline = s.deadline := by
  simp only [retargetOne]
  split
  · exact ⟨rfl, rfl⟩
  · split <;> exact ⟨rfl, rfl⟩

theorem retarget_entries (q : WaitQueue T) (source target : WakeSource) (max : Nat) :
    (q.retarget source target max).2.sleepers.entries.map (fun e => (e.1, e.2.waiter, e.2.deadline)) =
      q.sleepers.entries.map fun e => (e.1, e.2.waiter, e.2.deadline) := by
  refine map_mapAccumEntries (g := fun s : Sleeper T => (s.waiter, s.deadline)) ?_ 0 q.sleepers.entries
  intro moved s
  obtain ⟨hwaiter, hdeadline⟩ := retargetOne_keeps source target max moved s
  rw [hwaiter, hdeadline]

theorem retarget_mem {source target : WakeSource} {max : Nat} {e : WaiterId × Sleeper T}
    (he : e ∈ (q.retarget source target max).2.sleepers.entries) :
    ∃ x ∈ q.sleepers.entries, x.1 = e.1 ∧ x.2.waiter = e.2.waiter ∧ x.2.deadline = e.2.deadline := by
  have := mem_map_of_mem (f := fun e => (e.1, e.2.waiter, e.2.deadline)) he
  rw [retarget_entries, mem_map] at this
  obtain ⟨x, hx, heq⟩ := this
  simp only [Prod.mk.injEq] at heq
  exact ⟨x, hx, heq⟩

/-- The same tasks sleep after a retarget. -/
theorem retarget_isSome (q : WaitQueue T) (source target : WakeSource) (max : Nat) (id : WaiterId) :
    ((q.retarget source target max).2.sleepers.get? id).isSome = (q.sleepers.get? id).isSome := by
  have hkeys := congrArg (List.map Prod.fst) (q.retarget_entries source target max)
  simp only [map_map, Function.comp_def] at hkeys
  rw [Bool.eq_iff_iff, isSome_get?_iff, isSome_get?_iff, hkeys]

theorem retarget_waiters (q : WaitQueue T) (source target : WakeSource) (max : Nat) :
    (q.retarget source target max).2.waiters = q.waiters := by
  have := congrArg (List.map fun x : WaiterId × Waiter T × Option MonotonicNs => x.2.1)
    (q.retarget_entries source target max)
  simpa [waiters, OrdMap.values, Function.comp_def] using this

theorem retarget_inv (h : Inv q) (source target : WakeSource) (max : Nat) : Inv (q.retarget source target max).2 where
  keyed := by
    intro e he
    obtain ⟨x, hx, hkey, hwaiter, _⟩ := retarget_mem he
    rw [← hkey, ← h.keyed x hx]
    exact (congrArg Waiter.id hwaiter).symm
  minted := by
    intro e he
    obtain ⟨x, hx, hkey, _⟩ := retarget_mem he
    rw [← hkey]
    exact h.minted x hx
  bounded := h.bounded
  parked := h.parked
  counted := by
    have := congrArg List.length (q.retarget_entries source target max)
    simp only [length_map] at this
    rw [this]
    exact h.counted
  expiries := h.expiries
  timed := by
    intro e he d hd
    obtain ⟨x, hx, hkey, _, hdl⟩ := retarget_mem he
    rw [← hkey]
    exact h.timed x hx d (hdl.trans hd)
  opened := by
    intro e he
    obtain ⟨x, hx, _, hwaiter, _⟩ := retarget_mem he
    have hch : x.2.channel = e.2.channel := congrArg Waiter.channel hwaiter
    rw [← hch]
    exact h.opened x hx
  live := h.live

/-! ## Runs -/

inductive Call (T : Type*)
  | openChannel
  | releaseChannel (channel : ChannelGeneration)
  | setEnabled (enabled : Bool)
  | park (request : ParkRequest T)
  | nextDeadlineNs
  | wake (source : WakeSource) (pidFilter : Option UInt32) (deferSignalSafe : Bool)
  | wakeLimited (source : WakeSource) (max : Nat) (accept : Sleeper T → Bool)
  | retarget (source target : WakeSource) (max : Nat)
  | removeWithReason (id : WaiterId) (reason : WakeReason)
  | expire (nowNs : MonotonicNs)
  | cancel (id : WaiterId)
  | cancelTask (pid tid : UInt32)
  | retireChannel (channel : ChannelGeneration)
  | retireProcess (pid : UInt32)

inductive Answer (T : Type*)
  | done
  | opened (channel : ChannelGeneration)
  | panicked
  | parked (r : Except Errno WaiterId)
  | deadline (d : Option MonotonicNs)
  | woken (wakeups : List (Wakeup T)) (deferred : Bool)
  | moved (n : Nat)

def call (q : WaitQueue T) : Call T → Answer T × WaitQueue T
  | .openChannel =>
    match q.openChannel with
    | some r => (.opened r.1, r.2)
    | none => (.panicked, q)
  | .releaseChannel channel => (.done, q.releaseChannel channel)
  | .setEnabled enabled => (.done, q.setEnabled enabled)
  | .park request => let r := q.park request; (.parked r.1, r.2)
  | .nextDeadlineNs => let r := q.nextDeadlineNs; (.deadline r.1, r.2)
  | .wake source pidFilter deferSignalSafe =>
    let r := q.wake source pidFilter deferSignalSafe; (.woken r.1.1 r.1.2, r.2)
  | .wakeLimited source max accept => let r := q.wakeLimited source max accept; (.woken r.1 false, r.2)
  | .retarget source target max => let r := q.retarget source target max; (.moved r.1, r.2)
  | .removeWithReason id reason => let r := q.removeWithReason id reason; (.woken r.1.toList false, r.2)
  | .expire nowNs => let r := q.expire nowNs; (.woken r.1 false, r.2)
  | .cancel id => let r := q.cancel id; (.woken r.1.toList false, r.2)
  | .cancelTask pid tid => let r := q.cancelTask pid tid; (.woken r.1 false, r.2)
  | .retireChannel channel => let r := q.retireChannel channel; (.woken r.1 false, r.2)
  | .retireProcess pid => let r := q.retireProcess pid; (.woken r.1 false, r.2)

/-- Who the call put to sleep, under the identity it answered. -/
def entered (q : WaitQueue T) (c : Call T) : List (Waiter T) :=
  match c, (q.call c).1 with
  | .park request, .parked (.ok id) => [request.waiter id]
  | _, _ => []

/-- Who the call answered as woken, expired, cancelled or retired. -/
def left (q : WaitQueue T) (c : Call T) : List (Waiter T) :=
  match (q.call c).1 with
  | .woken wakeups _ => wakeups.map Wakeup.waiter
  | _ => []

/-- One step of the account: nobody is lost or made up, and who falls asleep
gets the next identities. -/
structure Account (q : WaitQueue T) (entered left : List (Waiter T)) (q' : WaitQueue T) : Prop where
  inv : Inv q'
  waiters : (q.waiters ++ entered).Perm (left ++ q'.waiters)
  ids : entered.map (·.id) = List.range' q.nextWaiter entered.length
  next : q'.nextWaiter = q.nextWaiter + entered.length

theorem Ends.account (h : Inv q) {reason : WakeReason} (he : Ends q reason r) : Account q [] (r.1.map Wakeup.waiter) r.2 := by
  refine ⟨?_, by simpa using he.waiters, rfl, ?_⟩
  all_goals obtain ⟨gone, _, hrem⟩ := he
  · exact hrem.inv h
  · exact hrem.nextWaiter

/-- A call that moves nobody. -/
theorem Removed.account (h : Inv q) (hrem : Removed q [] q') : Account q [] [] q' := by
  have hends : Ends q .deadline ([], q') := ⟨[], rfl, hrem⟩
  exact hends.account h

theorem call_account (h : Inv q) (c : Call T) : Account q (q.entered c) (q.left c) (q.call c).2 := by
  cases c with
  | openChannel =>
    simp only [entered, left, call]
    cases hopen : q.openChannel with
    | none => exact (Removed.refl q).account h
    | some r =>
      obtain ⟨_, hsleepers, hnext, _, _, hinv⟩ := openChannel_inv h hopen
      refine ⟨hinv, ?_, rfl, hnext⟩
      simp [waiters, hsleepers]
  | releaseChannel channel => exact (Removed.release q channel).account h
  | setEnabled enabled => exact Removed.account h { Removed.refl q with }
  | park request =>
    simp only [entered, call]
    cases hpark : (q.park request).1 with
    | error e =>
      rw [park_error hpark]
      exact (Removed.refl q).account h
    | ok id =>
      obtain ⟨rfl, hnext, _, ⟨s, hwaiter, hperm, _⟩, _, hinv⟩ := park_ok h hpark
      refine ⟨hinv, ?_, rfl, hnext⟩
      have hmap := (hperm.map (·.2)).map Sleeper.waiter
      rw [map_cons, map_cons, hwaiter] at hmap
      exact (perm_append_singleton ..).trans hmap.symm
  | nextDeadlineNs => exact q.nextDeadlineNs_removed.account h
  | wake source pidFilter deferSignalSafe => exact (q.wake_ends source pidFilter deferSignalSafe).account h
  | wakeLimited source max accept => exact (q.wakeLimited_ends source max accept).account h
  | retarget source target max =>
    refine ⟨retarget_inv h source target max, ?_, rfl, rfl⟩
    simp only [entered, call, append_nil, retarget_waiters]
    exact .refl _
  | removeWithReason id reason => exact (q.removeWithReason_ends id reason).account h
  | expire nowNs =>
    obtain ⟨⟨gone, hout, hrem, _⟩, _⟩ := expire_spec h nowNs
    have hends : Ends q .deadline (q.expire nowNs) := ⟨gone, hout, hrem⟩
    exact hends.account h
  | cancel id => exact (q.cancel_ends id).account h
  | cancelTask pid tid => exact (q.cancelTask_ends pid tid).account h
  | retireChannel channel =>
    have hends : Ends q .retired (q.retireChannel channel) := ⟨_, q.retireChannel_removed channel⟩
    exact hends.account h
  | retireProcess pid => exact (q.retireProcess_ends pid).account h

theorem run_inv (cs : List (Call T)) (h : Inv q) : Inv (Machine.run call q cs) :=
  Machine.run_invariant (I := Inv) (fun _ c h => (call_account h c).inv) cs h

/-- No counter outgrows the identities, so none of the source's `u64` additions
overflows. -/
theorem counters_fit (cs : List (Call T)) : let q := Machine.run call (new : WaitQueue T) cs
    q.stats.parked ≤ i64Max ∧ q.stats.ended ≤ i64Max ∧ q.stats.deadlineExpiriesWithSources ≤ i64Max := by
  intro q
  have h : Inv q := run_inv cs .new
  have h1 := h.bounded
  have h2 := h.parked
  have h3 := h.counted
  have h4 := h.expiries
  have h5 : q.stats.wokenByDeadline ≤ q.stats.ended := by
    simp only [WaitQueueStats.ended]
    omega
  refine ⟨?_, ?_, ?_⟩ <;> omega

/-- The identities of a run count up from the first free one. -/
theorem entered_ids : ∀ {q : WaitQueue T} (cs : List (Call T)), Inv q → (Machine.moved call entered q cs).map (·.id) =
        List.range' q.nextWaiter (Machine.moved call entered q cs).length ∧
      (Machine.run call q cs).nextWaiter = q.nextWaiter + (Machine.moved call entered q cs).length
  | _, [], _ => ⟨rfl, rfl⟩
  | q, c :: cs, h => by
    have hstep := call_account h c
    obtain ⟨hids, hnext⟩ := entered_ids cs hstep.inv
    rw [Machine.moved_cons, map_append, length_append, hstep.ids, hids, hstep.next, range'_append_1]
    refine ⟨rfl, ?_⟩
    rw [Machine.run, hnext, hstep.next]
    omega

/-- Over every run of the queue's calls, the tasks handed back and the tasks
asleep are exactly the tasks parked, each once and as it was parked; identities
count up and are never used again; nobody is handed back twice or while still
asleep; and the counters add up. -/
theorem waiters_leave_once (cs : List (Call T)) :
    let q := Machine.run call new cs
    let parked := Machine.moved call entered new cs
    let gone := Machine.moved call left new cs
    (gone ++ q.waiters).Perm parked ∧ parked.map (·.id) = List.range' 1 parked.length ∧ ((gone ++ q.waiters).map (·.id)).Nodup ∧
      q.stats.parked = parked.length ∧
      q.stats.parked = q.len + q.stats.wokenBySource + q.stats.broadWakes + q.stats.wokenByDeadline +
        q.stats.retired + q.stats.cancelled := by
  intro q parked gone
  have hperm : (gone ++ q.waiters).Perm parked := by
    have := Machine.run_conserves (I := Inv) waiters entered left
      (fun _ c h => (call_account h c).inv) (fun _ c h => (call_account h c).waiters) cs .new
    exact this.symm
  obtain ⟨hids, hnext⟩ := entered_ids (T := T) cs Inv.new
  have hinv : Inv q := run_inv cs .new
  refine ⟨hperm, hids, ?_, ?_, ?_⟩
  · rw [(hperm.map _).nodup_iff, hids]
    exact nodup_range' ..
  · have hparked : q.stats.parked + 1 = 1 + parked.length := hinv.parked.trans hnext
    omega
  have hcounted := hinv.counted
  simp only [WaitQueueStats.ended] at hcounted
  simp only [len]
  omega

end WaitQueue

end Kandelo.Wait
