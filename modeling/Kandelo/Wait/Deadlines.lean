/-
Deadlines. The heap keeps the entries of waits that ended, so `next_deadline_ns` and
`expire` skip what no sleeper holds; over every run they still answer for exactly the
tasks asleep (`deadlines_exact`).

`open_deadline` retires the channel it opened if `park` refuses. A deadline past the
clock's range makes it return before that, and the channel stays
(`openDeadline_undone_iff`).
-/
import Kandelo.Wait.Account

namespace Kandelo.Wait

open List

namespace WaitQueue

variable {T : Type*} {q : WaitQueue T}

/-- In every state of a run the next deadline is the least one a task sleeps to, and
`expire` takes the tasks that are due, by deadline and identity, and no other. -/
theorem deadlines_exact (cs : List (Call T)) (nowNs : MonotonicNs) :
    let q := Machine.run call (new : WaitQueue T) cs
    (∀ d, q.nextDeadlineNs.1 = some d ↔ IsLeast {d | ∃ e ∈ q.sleepers.entries, e.2.deadline = some d} d) ∧
      (q.nextDeadlineNs.1 = none ↔ ∀ e ∈ q.sleepers.entries, e.2.deadline = none) ∧
      ∃ gone : List (WaiterId × Sleeper T), (q.expire nowNs).1 = gone.map (fun e => intoWakeup .deadline e.2) ∧ gone.Pairwise DueBefore ∧
        (∀ e, e ∈ gone ↔ e ∈ q.sleepers.entries ∧ ∃ d ≤ nowNs, e.2.deadline = some d) ∧
        ∀ e, e ∈ (q.expire nowNs).2.sleepers.entries ↔ e ∈ q.sleepers.entries ∧ ¬ ∃ d ≤ nowNs, e.2.deadline = some d := by
  intro q
  have hinv : Inv q := run_inv cs .new
  obtain ⟨hheld, hleast⟩ := nextDeadlineNs_least hinv
  have hle : ∀ {d d'}, q.nextDeadlineNs.1 = some d' → (∃ e ∈ q.sleepers.entries, e.2.deadline = some d) → d' ≤ d := by
    rintro d d' hd' ⟨e, he, hd⟩
    obtain ⟨d'', hd'', hle⟩ := hleast e he d hd
    cases hd'.symm.trans hd''
    exact hle
  refine ⟨fun d => ⟨fun hd => ⟨hheld d hd, fun d' hd' => hle hd hd'⟩, ?_⟩, ⟨fun hnone e he => ?_, fun hnone => ?_⟩, ?_⟩
  · rintro ⟨⟨e, he, hd⟩, hlow⟩
    obtain ⟨d', hd', hle'⟩ := hleast e he d hd
    rw [hd', le_antisymm hle' (hlow (hheld d' hd'))]
  · refine Option.eq_none_iff_forall_not_mem.mpr fun d hd => ?_
    obtain ⟨d', hd', -⟩ := hleast e he d hd
    cases hnone.symm.trans hd'
  · refine Option.eq_none_iff_forall_not_mem.mpr fun d hd => ?_
    obtain ⟨e, he, hde⟩ := hheld d hd
    cases (hnone e he).symm.trans hde
  obtain ⟨⟨gone, hout, hrem, hdue, hsorted⟩, hlate⟩ := expire_spec hinv nowNs
  have hleft : ∀ e ∈ (q.expire nowNs).2.sleepers.entries, ¬ ∃ d ≤ nowNs, e.2.deadline = some d := by
    rintro e he ⟨d, hd, hde⟩
    exact not_lt.mpr hd (hlate e he d hde)
  have hsplit : ∀ e, e ∈ q.sleepers.entries ↔ e ∈ gone ∨ e ∈ (q.expire nowNs).2.sleepers.entries := fun e =>
    hrem.entries.mem_iff.trans mem_append
  refine ⟨gone, hout, hsorted, fun e => ⟨fun he => ⟨(hsplit e).mpr (.inl he), hdue e he⟩, ?_⟩,
    fun e => ⟨fun he => ⟨(hsplit e).mpr (.inr he), hleft e he⟩, ?_⟩⟩
  · rintro ⟨he, hd⟩
    exact ((hsplit e).mp he).resolve_right fun hin => hleft e hin hd
  · rintro ⟨he, hd⟩
    exact ((hsplit e).mp he).resolve_left fun hin => hd (hdue e hin)

/-! ## `global::open_deadline` -/

/-- `i64::checked_add`. -/
def checkedAdd (a b : MonotonicNs) : Option MonotonicNs := if -2 ^ 63 ≤ a + b ∧ a + b < 2 ^ 63 then some (a + b) else none

/-- `none` is the panic of `open_channel`. -/
def openDeadline (q : WaitQueue T) (pid tid : UInt32) (kind : WaitKind) (nowNs : MonotonicNs)
    (timeoutNs : Option MonotonicNs) : Option (Except Errno ChannelGeneration × WaitQueue T) :=
  if !q.enabled then some (.error .ENOSYS, q)
  else
    match q.openChannel with
    | none => none
    | some (channel, q) =>
      let deadline := timeoutNs.map (checkedAdd nowNs)
      if deadline = some none then some (.error .EOVERFLOW, q)
      else
        match q.park ⟨pid, tid, channel, kind, [], deadline.join, none, false⟩ with
        | (.ok _, q) => some (.ok channel, q)
        | (.error e, q) => some (.error e, (q.retireChannel channel).2)

/-- Retiring the channel just opened undoes the opening: nobody sleeps on it. -/
theorem retireChannel_opened (h : Inv q) {channel : ChannelGeneration} {q' : WaitQueue T} (hopen : q.openChannel = some (channel, q')) :
    (q'.retireChannel channel).2.liveChannels = q.liveChannels ∧ (q'.retireChannel channel).2.sleepers = q.sleepers := by
  unfold openChannel at hopen
  split at hopen
  · cases hopen
  cases hopen
  have hnone : q.select (fun s => s.channel == q.nextGeneration) = [] := by
    refine filter_eq_nil_iff.mpr fun e he => ?_
    simpa using (h.opened e he).ne
  simp only [select] at hnone
  simp only [retireChannel, select, hnone, map_nil, removeAll]
  exact ⟨Finset.erase_insert fun hin => (h.live _ hin).false, trivial⟩

/-- An `open_deadline` that fails leaves channels and sleepers as they were, unless the
deadline is past the clock's range. -/
theorem openDeadline_undone_iff (cs : List (Call T)) (pid tid : UInt32) (kind : WaitKind) (nowNs : MonotonicNs)
    (timeoutNs : Option MonotonicNs) {e : Errno} {q' : WaitQueue T}
    (h : (Machine.run call new cs).openDeadline pid tid kind nowNs timeoutNs = some (.error e, q')) :
    (q'.liveChannels = (Machine.run call new cs).liveChannels ∧ q'.sleepers = (Machine.run call new cs).sleepers) ↔
      (Machine.run call (new : WaitQueue T) cs).enabled = false ∨ ∀ ns ∈ timeoutNs, checkedAdd nowNs ns ≠ none := by
  have hinv : Inv (Machine.run call (new : WaitQueue T) cs) := run_inv cs Inv.new
  generalize Machine.run call (new : WaitQueue T) cs = q at h hinv ⊢
  unfold openDeadline at h
  split at h
  · rename_i hoff
    cases h
    exact ⟨fun _ => .inl (by simpa using hoff), fun _ => ⟨rfl, rfl⟩⟩
  rename_i hon
  have hon : q.enabled ≠ false := by simpa using hon
  split at h
  · cases h
  rename_i channel opened hopen
  simp only at h
  split at h
  · rename_i hover
    cases h
    obtain ⟨ns, hns, hnone⟩ := Option.map_eq_some_iff.mp hover
    constructor
    · rintro ⟨hlive, -⟩
      obtain ⟨rfl, -, -, -, hnew, -⟩ := openChannel_inv hinv hopen
      rw [hlive] at hnew
      exact absurd (hinv.live _ hnew) (lt_irrefl _)
    · exact fun hok => absurd hnone (hok.resolve_left hon ns hns)
  rename_i hfits
  refine iff_of_true ?_ (.inr fun ns hns hnone => hfits (by rw [hns, Option.map_some, hnone]))
  split at h
  · cases h
  rename_i refused hpark
  cases h
  have hsame := park_error (congrArg Prod.fst hpark)
  rw [hpark] at hsame
  rw [show refused = opened from hsame]
  exact retireChannel_opened hinv hopen

/-- Two channels are opened, a task goes to sleep on the first, and the queue is turned
off. -/
def turnedOff : List (Call Unit) :=
  [.setEnabled true, .openChannel, .openChannel, .park ⟨7, 7, 1, .sleep, [], some 50, (), true⟩, .setEnabled false]

/-- A queue that is off opens nothing, and keeps its channels and sleepers. -/
theorem openDeadline_undone_iff_off : ∃ q', (Machine.run call new turnedOff).openDeadline 1 1 .sleep 0 none =
    some (.error .ENOSYS, q') ∧ q'.liveChannels = {1, 2} ∧ q'.sleepers.entries.map (·.2.deadline) = [some 50] := by
  refine ⟨Machine.run call new turnedOff, rfl, ?_⟩
  obtain ⟨hlive, hsleepers⟩ := (openDeadline_undone_iff turnedOff 1 1 .sleep 0 none rfl).mpr (.inl rfl)
  exact ⟨hlive.trans (by decide), hsleepers ▸ by decide⟩

/-- A timeout of one nanosecond at the end of the clock fails and leaves channel 1 open. -/
theorem openDeadline_leaks :
    ((Machine.run call (new : WaitQueue Unit) [.setEnabled true]).openDeadline 1 1 .sleep (2 ^ 63 - 1) (some 1)).map
      (fun r => (r.1, r.2.liveChannels)) = some (.error .EOVERFLOW, {1}) := by
  decide

end WaitQueue

end Kandelo.Wait
