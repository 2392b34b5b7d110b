/-
What holds of the kernel's parks over every run of their calls.

A call parks one task, ends some parks, or leaves them alone (`Effect`). Ending
one takes its sleeper, its resume and its channel, and queues at most one
completion, so a generation is completed once (`completions_once`) and what a
drain hands over is the front of one queue. A process that is retired has
neither a sleeper nor a queued completion left: whatever comes back for its pid
later belongs to a later park.
-/
import Kandelo.Lib.Fifo
import Kandelo.Wait.Park

namespace Kandelo.Wait

open List Completion

variable {T : Type*}

/-- Whose wait it is: its generation and its thread. -/
structure Task where
  generation : Nat
  pid : UInt32
  tid : UInt32
  deriving DecidableEq, Repr

def Sleeper.task (s : Sleeper T) : Task := ⟨s.channel, s.pid, s.tid⟩

def Wakeup.task (w : Wakeup T) : Task := ⟨w.channel, w.pid, w.tid⟩

def Completion.task (c : Completion) : Task := ⟨c.generation, c.pid, c.tid⟩

namespace Parks

def sleeping (p : Parks T) : List Task := p.queue.sleepers.values.map Sleeper.task

/-- The resume map has exactly the sleepers. -/
structure Inv (p : Parks T) : Prop where
  queue : p.queue.Inv
  resumed : ∀ id, (p.resume.get? id).isSome = (p.queue.sleepers.get? id).isSome

theorem Inv.new : Inv (new : Parks T) := ⟨.new, fun _ => rfl⟩

/-- What a call does: the tasks it parks, and the completions it queues, hands
over and throws away. -/
structure Effect (p : Parks T) (parked : List Task) (m : Fifo.Moves Completion) (p' : Parks T) : Prop where
  inv : Inv p'
  tasks : (m.accepted.map task ++ p'.sleeping).Subperm (p.sleeping ++ parked)
  balance : Fifo.Balanced p.completions p'.completions m
  next : p.queue.nextGeneration ≤ p'.queue.nextGeneration
  fresh : ∀ t ∈ parked, p.queue.nextGeneration ≤ t.generation ∧ t.generation < p'.queue.nextGeneration
  sorted : (parked.map Task.generation).Pairwise (· < ·)

/-- Nothing is queued, handed over or thrown away but these are queued. -/
abbrev queued (done : List Completion) : Fifo.Moves Completion := ⟨done, [], []⟩

theorem balanced_append (before done : List Completion) : Fifo.Balanced before (before ++ done) (queued done) := by
  constructor <;> simp

variable {p p' : Parks T}

theorem Effect.trans {p'' : Parks T} {parked parked' : List Task} {m m' : Fifo.Moves Completion}
    (h : Effect p parked m p') (h' : Effect p' parked' m' p'') : Effect p (parked ++ parked') (m.append m') p'' where
  inv := h'.inv
  tasks := by
    have h1 := (subperm_append_left (m.accepted.map task)).mpr h'.tasks
    have h2 := (subperm_append_right parked').mpr h.tasks
    simp only [Fifo.Moves.append, map_append, append_assoc] at h1 h2 ⊢
    exact h1.trans h2
  balance := h.balance.trans h'.balance
  next := h.next.trans h'.next
  fresh := by
    intro t ht
    have hnext := h.next
    have hnext' := h'.next
    rcases mem_append.mp ht with ht | ht
    · have := h.fresh t ht
      omega
    · have := h'.fresh t ht
      omega
  sorted := by
    rw [map_append, pairwise_append]
    refine ⟨h.sorted, h'.sorted, ?_⟩
    intro a ha b hb
    obtain ⟨t, ht, rfl⟩ := mem_map.mp ha
    obtain ⟨t', ht', rfl⟩ := mem_map.mp hb
    have := h.fresh t ht
    have := h'.fresh t' ht'
    omega

/-- A call that parks and ends nobody. -/
theorem Effect.quiet (h : Inv p) (p' : Parks T) (hqueue : p'.queue = p.queue) (hresume : p'.resume = p.resume)
    {m : Fifo.Moves Completion} (hm : m.accepted = []) (hbal : Fifo.Balanced p.completions p'.completions m) : Effect p [] m p' where
  inv := ⟨by rw [hqueue]; exact h.queue, by rw [hqueue, hresume]; exact h.resumed⟩
  tasks := by
    simp only [hm, sleeping, hqueue, append_nil]
    exact .refl _
  balance := hbal
  next := by rw [hqueue]
  fresh := by simp
  sorted := by simp

theorem Effect.unchanged (h : Inv p) (p' : Parks T) (hqueue : p'.queue = p.queue)
    (hresume : p'.resume = p.resume) (hcomp : p'.completions = p.completions) : Effect p [] (queued []) p' := by
  refine .quiet h p' hqueue hresume rfl ?_
  rw [hcomp]
  exact .refl _

/-! ## Ending parks -/

/-- Wakeups dealt with one by one: each loses its resume and its channel, and
may leave a completion. -/
structure Settled (p : Parks T) (ws : List (Wakeup T)) (done : List Completion) (p' : Parks T) : Prop where
  resume : ∀ id, p'.resume.get? id = if id ∈ ws.map (·.id) then none else p.resume.get? id
  queue : WaitQueue.Removed p.queue [] p'.queue
  sleepers : p'.queue.sleepers = p.queue.sleepers
  completions : p'.completions = p.completions ++ done
  tasks : (done.map task).Sublist (ws.map Wakeup.task)

theorem Settled.refl (p : Parks T) : Settled p [] [] p :=
  ⟨fun _ => by simp, WaitQueue.Removed.refl _, rfl, by simp, List.Sublist.refl _⟩

theorem Settled.trans {p'' : Parks T} {ws ws' : List (Wakeup T)} {done done' : List Completion}
    (h : Settled p ws done p') (h' : Settled p' ws' done' p'') : Settled p (ws ++ ws') (done ++ done') p'' where
  resume := by
    intro id
    rw [h'.resume, h.resume, map_append]
    simp only [mem_append]
    by_cases h1 : id ∈ ws.map (·.id) <;> by_cases h2 : id ∈ ws'.map (·.id) <;> simp [h1]
  queue := h.queue.trans h'.queue
  sleepers := h'.sleepers.trans h.sleepers
  completions := by rw [h'.completions, h.completions, append_assoc]
  tasks := by
    rw [map_append, map_append]
    exact h.tasks.append h'.tasks

theorem finishWith_settled (p : Parks T) (w : Wakeup T) (value : Int) (flags : UInt32) (remainder : Option Remainder) :
    Settled p [w] [⟨w.channel, w.pid, w.tid, value, flags, remainder⟩] (p.finishWith w value flags remainder) where
  resume := by
    intro id
    simp [finishWith, OrdMap.get?_erase]
  queue := .release p.queue w.channel
  sleepers := rfl
  completions := rfl
  tasks := .refl _

theorem forget_settled (p : Parks T) (w : Wakeup T) : Settled p [w] [] (p.forget w) where
  resume := by
    intro id
    simp [forget, OrdMap.get?_erase]
  queue := .release p.queue w.channel
  sleepers := rfl
  completions := by simp [forget]
  tasks := by simp

variable {f : Parks T → Wakeup T → Parks T}

/-- A loop over the wakeups settles them all. -/
theorem settled_foldl (hf : ∀ p w, ∃ done, Settled p [w] done (f p w)) :
    ∀ (ws : List (Wakeup T)) (p : Parks T), ∃ done, Settled p ws done (ws.foldl f p)
  | [], p => ⟨[], .refl p⟩
  | w :: ws, p => by
    obtain ⟨done, hdone⟩ := hf p w
    obtain ⟨done', hdone'⟩ := settled_foldl hf ws (f p w)
    exact ⟨done ++ done', hdone.trans hdone'⟩

theorem settled_finish (value : Parks T → Wakeup T → Int) (flags : UInt32) (ws : List (Wakeup T)) (p : Parks T) :
    ∃ done, Settled p ws done (ws.foldl (fun p w => p.finish w (value p w) flags) p) :=
  settled_foldl (fun p w => ⟨_, finishWith_settled p w (value p w) flags none⟩) ws p

theorem settled_forget : ∀ (ws : List (Wakeup T)) (p : Parks T), Settled p ws [] (ws.foldl forget p)
  | [], p => .refl p
  | w :: ws, p => (forget_settled p w).trans (settled_forget ws (p.forget w))

/-- The queue lets sleepers go and their wakeups are settled. -/
theorem Effect.ended (h : Inv p) {reason : WakeReason} {r : List (Wakeup T) × WaitQueue T}
    (hends : p.queue.Ends reason r) {done : List Completion}
    (hs : Settled { p with queue := r.2 } r.1 done p') : Effect p [] (queued done) p' := by
  obtain ⟨gone, hout, hrem⟩ := hends
  have hall : WaitQueue.Removed p.queue gone p'.queue := by
    simpa using hrem.trans hs.queue
  have hids : r.1.map (·.id) = gone.map (·.1) := by
    rw [hout, map_map]
    refine map_congr_left fun e he => ?_
    exact h.queue.keyed e (hrem.entries.mem_iff.mpr (mem_append_left _ he))
  have hresume := hs.resume
  rw [hids] at hresume
  refine ⟨⟨hall.inv h.queue, ?_⟩, ?_, ?_, hall.nextGeneration.ge, by simp, by simp⟩
  · intro id
    rw [hresume, hall.get?_eq]
    split
    · rfl
    · exact h.resumed id
  · have hsleep : p.sleeping.Perm (gone.map (fun e => e.2.task) ++ p'.sleeping) := by
      have := (hall.entries.map (·.2)).map Sleeper.task
      simpa [sleeping, OrdMap.values, Function.comp_def] using this
    have hdone : (done.map task).Sublist (gone.map fun e => e.2.task) := by
      have := hs.tasks
      rw [hout, map_map] at this
      exact this
    rw [append_nil]
    exact (hdone.append_right _).subperm.trans hsleep.symm.subperm
  · rw [hs.completions]
    exact balanced_append _ _

/-- Sleepers leave the queue for one reason, and their wakeups are settled. -/
def Ending (p p' : Parks T) : Prop := ∃ reason r done, p.queue.Ends reason r ∧ Settled { p with queue := r.2 } r.1 done p'

theorem Ending.effect (h : Inv p) (he : Ending p p') : ∃ done, Effect p [] (queued done) p' := by
  obtain ⟨reason, r, done, hends, hs⟩ := he
  exact ⟨done, .ended h hends hs⟩

theorem Ending.still (hqueue : p'.queue = p.queue) (hresume : p'.resume = p.resume)
    (hcomp : p'.completions = p.completions) : Ending p p' := by
  refine ⟨.retired, ([], p.queue), [], ⟨[], rfl, .refl _⟩, fun id => ?_, ?_, congrArg _ hqueue, ?_, .refl _⟩
  · rw [hresume]
    rfl
  · rw [hqueue]
    exact .refl _
  · rw [hcomp, append_nil]

/-- One sleeper is asked to leave, and `f` deals with its wakeup if it was there. -/
theorem Ending.one (p : Parks T) (id : WaiterId) (reason : WakeReason) (hf : ∀ p w, ∃ done, Settled p [w] done (f p w))
    (hp' : p' = (p.queue.removeWithReason id reason).1.elim { p with queue := (p.queue.removeWithReason id reason).2 }
      (f { p with queue := (p.queue.removeWithReason id reason).2 })) : Ending p p' := by
  have hends := p.queue.removeWithReason_ends id reason
  rw [hp']
  cases hr : (p.queue.removeWithReason id reason).1 with
  | none =>
    rw [hr] at hends
    exact ⟨reason, _, [], hends, .refl _⟩
  | some w =>
    rw [hr] at hends
    obtain ⟨done, hdone⟩ := hf { p with queue := (p.queue.removeWithReason id reason).2 } w
    exact ⟨reason, _, done, hends, hdone⟩

theorem finishWaiter_ending (p : Parks T) (id : WaiterId) (source : WakeSource) (value : Int) (flags : UInt32) :
    Ending p (p.finishWaiter id source value flags).2 := by
  refine .one p id (.source source) (f := fun p w => p.finish w value flags)
    (fun p w => ⟨_, finishWith_settled p w value flags none⟩) ?_
  simp only [finishWaiter]
  cases (p.queue.removeWithReason id (.source source)).1 with
  | none => rfl
  | some w => rfl

theorem sweepRetire_ending (p : Parks T) (id : WaiterId) : Ending p (p.sweepRetire id) := by
  refine .one p id .retired (f := forget) (fun p w => ⟨_, forget_settled p w⟩) ?_
  simp only [sweepRetire]
  cases (p.queue.removeWithReason id .retired).1 with
  | none => rfl
  | some w => rfl

theorem sweepInterrupt_ending (p : Parks T) (id : WaiterId) : Ending p (p.sweepInterrupt id) := by
  refine .one p id .interrupted (f := fun q w => q.finishWith w (-Errno.EINTR.code)
    ((p.resume.get? w.id).elim 0 Resume.interruptedFlags) ((p.resume.get? w.id).bind Resume.interruptedRemainder))
    (fun p w => ⟨_, finishWith_settled p w _ _ _⟩) ?_
  simp only [sweepInterrupt]
  cases (p.queue.removeWithReason id .interrupted).1 with
  | none => rfl
  | some w => rfl

/-- Sleepers leave in turn. -/
abbrev Endings : Parks T → Parks T → Prop := Relation.ReflTransGen Ending

theorem Endings.effect (h : Inv p) (he : Endings p p') : ∃ done, Effect p [] (queued done) p' := by
  induction he with
  | refl => exact ⟨[], .unchanged h p rfl rfl rfl⟩
  | tail _ hlast ih =>
    obtain ⟨done, hdone⟩ := ih
    obtain ⟨done', hdone'⟩ := hlast.effect hdone.inv
    exact ⟨done ++ done', hdone.trans hdone'⟩

theorem endings_foldl {f : Parks T → WaiterId → Parks T} (hf : ∀ p id, Ending p (f p id)) (ids : List WaiterId)
    (p : Parks T) : Endings p (ids.foldl f p) :=
  List.foldlRecOn ids f (motive := Endings p) .refl fun q hq id _ => hq.tail (hf q id)

theorem sweepSignals_endings (p : Parks T) (table : UInt32 → UInt32 → TaskState) : Endings p (p.sweepSignals table) := by
  have hclean : Endings p { p with signalsDirty := false, sweepPids := [] } := .single (.still rfl rfl rfl)
  simp only [sweepSignals]
  split
  · exact hclean
  · exact (hclean.trans (endings_foldl sweepRetire_ending _ _)).trans (endings_foldl sweepInterrupt_ending _ _)

theorem expire_ending (h : Inv p) (nowNs : MonotonicNs) : Ending p (p.expire nowNs).2 := by
  obtain ⟨⟨gone, hout, hrem, _⟩, _⟩ := WaitQueue.expire_spec h.queue nowNs
  have hends : p.queue.Ends .deadline (p.queue.expire nowNs) := ⟨gone, hout, hrem⟩
  -- the credits go along beside the parks and do not change what is done to them
  let value := fun (p : Parks T) (w : Wakeup T) =>
    (p.resume.get? w.id).elim (-Errno.ETIMEDOUT.code) Resume.deadlineValue
  obtain ⟨done, hdone⟩ := settled_finish value 0 (p.queue.expire nowNs).1 { p with queue := (p.queue.expire nowNs).2 }
  refine ⟨_, _, done, hends, ?_⟩
  have hsnd : (p.expire nowNs).2 = (p.queue.expire nowNs).1.foldl (fun p w => p.finish w (value p w) 0)
      { p with queue := (p.queue.expire nowNs).2 } :=
    (foldl_hom Prod.snd fun _ _ => rfl).symm
  rw [hsnd]
  exact hdone

theorem futexWake_ending (p : Parks T) (pid : UInt32) (addr : UInt64) (max : Nat) (bitset : UInt32) :
    Ending p (p.futexWake pid addr max bitset).2 := by
  obtain ⟨done, hdone⟩ := settled_finish (T := T) _ 0 _ _
  exact ⟨_, _, done, p.queue.wakeLimited_ends _ max _, hdone⟩

theorem cancelTask_ending (p : Parks T) (pid tid : UInt32) : Ending p (p.cancelTask pid tid).2 := by
  obtain ⟨done, hdone⟩ := settled_finish (T := T) _ flagCancelled _ _
  exact ⟨_, _, done, p.queue.cancelTask_ends pid tid, hdone⟩

theorem retireTask_ending (p : Parks T) (pid tid : UInt32) : Ending p (p.retireTask pid tid) :=
  ⟨_, _, [], p.queue.cancelTask_ends pid tid, settled_forget _ _⟩

theorem futexRequeue_effect (h : Inv p) (pid : UInt32) (source target : UInt64) (max : Nat) :
    Effect p [] (queued []) (p.futexRequeue pid source target max).2 := by
  simp only [futexRequeue]
  split
  · exact .unchanged h p rfl rfl rfl
  have hwaiters := p.queue.retarget_waiters (.futex pid source) (.futex pid target) max
  have hsleeping : ∀ q : WaitQueue T, q.sleepers.values.map Sleeper.task =
      q.waiters.map fun w => (⟨w.channel, w.pid, w.tid⟩ : Task) := by
    simp [WaitQueue.waiters, Sleeper.task, Sleeper.waiter]
  refine ⟨⟨WaitQueue.retarget_inv h.queue _ _ _, fun id => ?_⟩, ?_, ?_, le_rfl, by simp, by simp⟩
  · rw [WaitQueue.retarget_isSome]
    exact h.resumed id
  · simp only [sleeping, hsleeping, hwaiters, append_nil]
    exact List.Subperm.refl _
  · exact .refl _

variable {r : Except Errno ChannelGeneration}

/-- A park opens a channel; refused, it lets the channel go, and the sleepers are those
there were. -/
theorem park_cases (h : Inv p) {pid tid : UInt32} {kind : WaitKind} {sources : List WakeSource}
    {deadline : Option MonotonicNs} {resume : Resume} (hpark : p.park pid tid kind sources deadline resume = some (r, p')) :
    p'.queue.Inv ∧ p'.queue.nextGeneration = p.queue.nextGeneration + 1 ∧ p'.completions = p.completions ∧
      ((∃ e, r = .error e) ∧ p'.queue.sleepers = p.queue.sleepers ∧ p'.resume = p.resume ∨
        ∃ s : Sleeper T, r = .ok p.queue.nextGeneration ∧ s.task = ⟨p.queue.nextGeneration, pid, tid⟩ ∧
          p'.queue.sleepers.entries.Perm ((p.queue.nextWaiter, s) :: p.queue.sleepers.entries) ∧
          p'.queue.sleepers = p.queue.sleepers.insert p.queue.nextWaiter s ∧
          p'.resume = p.resume.insert p.queue.nextWaiter resume) := by
  simp only [park] at hpark
  cases hopen : p.queue.openChannel with
  | none => simp [hopen] at hpark
  | some x =>
    obtain ⟨channel, queue⟩ := x
    obtain ⟨rfl, hsleepers, hnext, hgen, _, hinv⟩ := WaitQueue.openChannel_inv h.queue hopen
    simp only [hopen] at hpark
    split at hpark
    · rename_i e he
      obtain ⟨rfl, rfl⟩ := hpark
      rw [WaitQueue.park_error he]
      exact ⟨(WaitQueue.Removed.release queue _).inv hinv, hgen, rfl, .inl ⟨⟨e, rfl⟩, hsleepers, rfl⟩⟩
    rename_i id hid
    obtain ⟨rfl, rfl⟩ := hpark
    obtain ⟨rfl, _, _, ⟨s, hwaiter, hperm, hinsert⟩, hgen', hinv'⟩ := WaitQueue.park_ok hinv hid
    rw [hsleepers, hnext] at hperm hinsert
    refine ⟨hinv', hgen'.trans hgen, rfl, .inr ⟨s, rfl, ?_, hperm, hinsert, by rw [hnext]⟩⟩
    exact congrArg (fun w : Waiter T => (⟨w.channel, w.pid, w.tid⟩ : Task)) hwaiter

/-- A park that succeeds puts one task to sleep, under the next generation; one
that is refused puts nobody. -/
theorem park_effect (h : Inv p) {pid tid : UInt32} {kind : WaitKind} {sources : List WakeSource}
    {deadline : Option MonotonicNs} {resume : Resume} (hpark : p.park pid tid kind sources deadline resume = some (r, p')) :
    Effect p (r.toOption.toList.map fun g => ⟨g, pid, tid⟩) (queued []) p' := by
  obtain ⟨hinv, hgen, hcomp, hcases⟩ := park_cases h hpark
  have hbal : Fifo.Balanced p.completions p'.completions (queued []) := hcomp ▸ .refl _
  rcases hcases with ⟨⟨e, rfl⟩, hsleepers, hresume⟩ | ⟨s, rfl, htask, hperm, hinsert, hresume⟩
  · refine ⟨⟨hinv, fun id => ?_⟩, ?_, hbal, by omega, by simp [Except.toOption], by simp [Except.toOption]⟩
    · rw [hresume, hsleepers]
      exact h.resumed id
    · simp only [sleeping, hsleepers]
      exact (sublist_append_left _ _).subperm
  refine ⟨⟨hinv, fun id => ?_⟩, ?_, hbal, by omega, ?_, by simp [Except.toOption]⟩
  · rw [hresume, hinsert, OrdMap.get?_insert, OrdMap.get?_insert]
    split
    · rfl
    · exact h.resumed id
  · have hmap := (hperm.map (·.2)).map Sleeper.task
    rw [map_cons, map_cons, htask] at hmap
    exact (hmap.trans (perm_append_singleton ..).symm).subperm
  · intro t ht
    obtain rfl : t = ⟨p.queue.nextGeneration, pid, tid⟩ := by simpa [Except.toOption] using ht
    dsimp only
    omega

/-! ## Runs -/

inductive Call
  | park (pid tid : UInt32) (kind : WaitKind) (sources : List WakeSource) (deadline : Option MonotonicNs)
      (resume : Resume)
  | futexWake (pid : UInt32) (addr : UInt64) (max : Nat) (bitset : UInt32)
  | futexRequeue (pid : UInt32) (source target : UInt64) (max : Nat)
  | expire (nowNs : MonotonicNs)
  | hasDeadline
  | needsClock
  | nextTimeoutNs (nowNs : MonotonicNs)
  | noteChildrenChanged
  | takeDirtyChildWaiters
  | finishChildWaiter (id : WaiterId) (parent : UInt32) (value : Int)
  | dirtySignalWaiters
  | finishSignalWaiter (id : WaiterId) (pid tid : UInt32) (value : Int)
  | takeDirtyRetryWaiters
  | noteSourceReady (source : WakeSource)
  | finishRetryWaiter (id : WaiterId) (op : RetryOp) (value : Int)
  | finishRetryWaiterWithFlags (id : WaiterId) (op : RetryOp) (value : Int) (flags : UInt32)
  | takeReleasedRetryBindings
  | noteSignalGenerated
  | sweepSignals (table : UInt32 → UInt32 → TaskState)
  | cancelTask (pid tid : UInt32)
  | retireTask (pid tid : UInt32)
  | retireProcess (pid : UInt32)
  | drain (outLen max : Nat) (nowNs : MonotonicNs) (wrote : Nat → Bool)
  | takeCompletions
  | noteParkedResult (generation : ChannelGeneration)
  | takeParkedResult
  | noteChildExited (pid : UInt32)
  | takeExitNotices
  | requeueExitNotices (pids : List UInt32)

inductive Answer
  | done
  | panicked
  | parked (r : Except Errno ChannelGeneration)
  | count (n : Nat)
  | flag (b : Bool)
  | credits (cs : List (UInt32 × UInt32 × UInt64))
  | timeout (ns : Option Nat)
  | childWaiters (ws : Option (List (WaiterId × UInt32 × UInt32 × ChildWait)))
  | signalWaiters (ws : List (WaiterId × UInt32 × UInt32 × SigWait))
  | retryWaiters (ws : List (WaiterId × UInt32 × UInt32 × RetryOp))
  | bindings (bs : List (UInt32 × UInt32 × Int64))
  | drained (records : List Completion) (writes : List (UInt32 × UInt64 × List UInt8))
  | generation (g : Option ChannelGeneration)
  | notices (pids : List UInt32)

def call (p : Parks T) : Call → Answer × Parks T
  | .park pid tid kind sources deadline resume =>
    match p.park pid tid kind sources deadline resume with
    | some r => (.parked r.1, r.2)
    | none => (.panicked, p)
  | .futexWake pid addr max bitset => let r := p.futexWake pid addr max bitset; (.count r.1, r.2)
  | .futexRequeue pid source target max => let r := p.futexRequeue pid source target max; (.count r.1, r.2)
  | .expire nowNs => let r := p.expire nowNs; (.credits r.1, r.2)
  | .hasDeadline => let r := p.hasDeadline; (.flag r.1, r.2)
  | .needsClock => let r := p.needsClock; (.flag r.1, r.2)
  | .nextTimeoutNs nowNs => let r := p.nextTimeoutNs nowNs; (.timeout r.1, r.2)
  | .noteChildrenChanged => (.done, p.noteChildrenChanged)
  | .takeDirtyChildWaiters => let r := p.takeDirtyChildWaiters; (.childWaiters r.1, r.2)
  | .finishChildWaiter id parent value => let r := p.finishChildWaiter id parent value; (.flag r.1, r.2)
  | .dirtySignalWaiters => (.signalWaiters p.dirtySignalWaiters, p)
  | .finishSignalWaiter id pid tid value => let r := p.finishSignalWaiter id pid tid value; (.flag r.1, r.2)
  | .takeDirtyRetryWaiters => let r := p.takeDirtyRetryWaiters; (.retryWaiters r.1, r.2)
  | .noteSourceReady source => (.done, p.noteSourceReady source)
  | .finishRetryWaiter id op value => let r := p.finishRetryWaiter id op value; (.flag r.1, r.2)
  | .finishRetryWaiterWithFlags id op value flags =>
    let r := p.finishRetryWaiterWithFlags id op value flags; (.flag r.1, r.2)
  | .takeReleasedRetryBindings => let r := p.takeReleasedRetryBindings; (.bindings r.1, r.2)
  | .noteSignalGenerated => (.done, p.noteSignalGenerated)
  | .sweepSignals table => (.done, p.sweepSignals table)
  | .cancelTask pid tid => let r := p.cancelTask pid tid; (.flag r.1, r.2)
  | .retireTask pid tid => (.done, p.retireTask pid tid)
  | .retireProcess pid => (.done, p.retireProcess pid)
  | .drain outLen max nowNs wrote => let r := p.drain outLen max nowNs wrote; (.drained r.1.1 r.1.2, r.2)
  | .takeCompletions => let r := p.takeCompletions; (.drained r.1 [], r.2)
  | .noteParkedResult generation => (.done, p.noteParkedResult generation)
  | .takeParkedResult => let r := p.takeParkedResult; (.generation r.1, r.2)
  | .noteChildExited pid => (.done, p.noteChildExited pid)
  | .takeExitNotices => let r := p.takeExitNotices; (.notices r.1, r.2)
  | .requeueExitNotices pids => (.done, p.requeueExitNotices pids)

/-- The task a call parked, under the generation it answered. -/
def parked (p : Parks T) (c : Call) : List Task :=
  match c, (p.call c).1 with
  | .park pid tid .., .parked (.ok g) => [⟨g, pid, tid⟩]
  | _, _ => []

/-- The records a call handed over. -/
def returned (p : Parks T) (c : Call) : List Completion :=
  match (p.call c).1 with
  | .drained records _ => records
  | _ => []

/-- What a call does to the queue of completions: a drain takes its records off
the front, retiring a process throws its records away, and every other call
appends. -/
def moves (p : Parks T) (c : Call) : Fifo.Moves Completion :=
  match c with
  | .drain .. | .takeCompletions => ⟨[], p.completions.take (p.returned c).length, []⟩
  | .retireProcess pid => ⟨[], [], p.completions.filter fun x => x.pid == pid⟩
  | _ => queued ((p.call c).2.completions.drop p.completions.length)

/-- What a call appends is what its effect queued. -/
theorem Effect.appends {parked : List Task} (h : ∃ done, Effect p parked (queued done) p') :
    Effect p parked (queued (p'.completions.drop p.completions.length)) p' := by
  obtain ⟨done, hdone⟩ := h
  have hcomp : p'.completions = p.completions ++ done := hdone.balance.fifo rfl
  rwa [hcomp, drop_left]

theorem retireProcess_effect (h : Inv p) (pid : UInt32) :
    Effect p [] ⟨[], [], p.completions.filter fun x => x.pid == pid⟩ (p.retireProcess pid) := by
  have hsettled := settled_forget (p.queue.retireProcess pid).1 { p with queue := (p.queue.retireProcess pid).2 }
  have hended := Effect.ended h (p.queue.retireProcess_ends pid) hsettled
  have hcomp := hsettled.completions
  rw [append_nil] at hcomp
  have hbal : Fifo.Balanced p.completions (p.completions.filter fun x => x.pid != pid)
      ⟨[], [], p.completions.filter fun x => x.pid == pid⟩ := by
    constructor
    · simp
    · rw [append_nil]
      exact filter_append_perm (fun x : Completion => x.pid == pid) p.completions
  rw [← hcomp] at hbal
  have hboth := hended.trans (Effect.quiet hended.inv (p.retireProcess pid) rfl rfl rfl hbal)
  rw [hcomp] at hboth
  exact hboth

/-- A retired process has no sleeper and no queued completion left. -/
theorem retireProcess_none (p : Parks T) (pid : UInt32) : (∀ t ∈ (p.retireProcess pid).sleeping, t.pid ≠ pid) ∧
      ∀ c ∈ (p.retireProcess pid).completions, c.pid ≠ pid := by
  have hsettled := settled_forget (p.queue.retireProcess pid).1 { p with queue := (p.queue.retireProcess pid).2 }
  constructor
  · intro t ht
    simp only [sleeping, retireProcess, hsettled.sleepers, OrdMap.values, mem_map] at ht
    obtain ⟨s, ⟨e, he, rfl⟩, rfl⟩ := ht
    exact p.queue.retireProcess_none pid e he
  · intro c hc
    have := (mem_filter.mp hc).2
    simpa using this

/-- What of the calls only ends parks. -/
def Call.Ends : Call → Prop
  | .park .. | .futexRequeue .. | .retireProcess _ | .drain .. | .takeCompletions => False
  | _ => True

theorem call_endings (h : Inv p) {c : Call} (hc : c.Ends) : Endings p (p.call c).2 := by
  cases c with
  | park | futexRequeue | retireProcess | drain | takeCompletions => cases hc
  | futexWake pid addr max bitset => exact .single (p.futexWake_ending pid addr max bitset)
  | expire nowNs => exact .single (expire_ending h nowNs)
  | hasDeadline | needsClock | nextTimeoutNs => exact .single ⟨.retired, ([], _), [], ⟨[], rfl, p.queue.nextDeadlineNs_removed⟩, .refl _⟩
  | takeDirtyChildWaiters | takeDirtyRetryWaiters | noteSourceReady | noteSignalGenerated =>
    simp only [call, takeDirtyChildWaiters, takeDirtyRetryWaiters, noteSourceReady, noteSignalGenerated]
    split
    · exact .single (.still rfl rfl rfl)
    · exact .single (.still rfl rfl rfl)
  | finishChildWaiter id _ value | finishSignalWaiter id _ _ value | finishRetryWaiter id _ value =>
    exact .single (p.finishWaiter_ending id _ value 0)
  | finishRetryWaiterWithFlags id op value flags => exact .single (p.finishWaiter_ending id _ value flags)
  | sweepSignals table => exact p.sweepSignals_endings table
  | cancelTask pid tid => exact .single (p.cancelTask_ending pid tid)
  | retireTask pid tid => exact .single (p.retireTask_ending pid tid)
  | _ => exact .single (.still rfl rfl rfl)

theorem call_effect (h : Inv p) (c : Call) : Effect p (p.parked c) (p.moves c) (p.call c).2 := by
  cases c with
  | park pid tid kind sources deadline resume =>
    simp only [parked, moves, call]
    cases hpark : p.park pid tid kind sources deadline resume with
    | none => exact .appends ⟨[], .unchanged h p rfl rfl rfl⟩
    | some r =>
      have heffect := park_effect h hpark
      obtain ⟨r, p'⟩ := r
      cases r with
      | error | ok => exact .appends ⟨[], heffect⟩
  | futexRequeue pid source target max => exact .appends ⟨[], futexRequeue_effect h pid source target max⟩
  | retireProcess pid => exact retireProcess_effect h pid
  | drain outLen max nowNs wrote =>
    have hbal : Fifo.Balanced p.completions (p.drain outLen max nowNs wrote).2.completions
        ⟨[], p.completions.take (p.drain outLen max nowNs wrote).1.1.length, []⟩ := by
      constructor <;> simp [drain]
    exact .quiet h (p.drain outLen max nowNs wrote).2 rfl rfl rfl hbal
  | takeCompletions =>
    have hbal : Fifo.Balanced p.completions [] ⟨[], p.completions.take p.completions.length, []⟩ := by
      constructor <;> simp
    exact .quiet h p.takeCompletions.2 rfl rfl rfl hbal
  | _ =>
    refine .appends ((call_endings h ?_).effect h)
    trivial

theorem run_effect : ∀ {p : Parks T} (cs : List Call), Inv p →
    Effect p (Machine.moved call parked p cs) (Fifo.ledger call moves p cs) (Machine.run call p cs)
  | p, [], h => .unchanged h p rfl rfl rfl
  | _, c :: cs, h => (call_effect h c).trans (run_effect cs (call_effect h c).inv)

/-- No park is answered twice, or answered while it still sleeps. -/
theorem run_nodup (cs : List Call) : ((Fifo.ledger call moves (new : Parks T) cs).accepted.map generation ++
      (Machine.run call (new : Parks T) cs).sleeping.map Task.generation).Nodup := by
  have heffect := run_effect (T := T) cs .new
  obtain ⟨l, hperm, hsub⟩ := heffect.tasks
  have hgen := hperm.map Task.generation
  rw [map_append, map_map] at hgen
  exact hgen.nodup_iff.mp ((hsub.map _).nodup (heffect.sorted.imp fun h => h.ne))

/-- A record is handed over as it was queued, but for a guest write it owed. -/
def Handed (queued record : Completion) : Prop := record = queued ∨ ∃ wrote, record = queued.settle wrote

theorem returned_handed (p : Parks T) (c : Call) : List.Forall₂ Handed (p.moves c).delivered (p.returned c) := by
  cases c with
  | drain outLen max nowNs wrote =>
    show List.Forall₂ Handed (p.completions.take (p.drain outLen max nowNs wrote).1.1.length) _
    refine forall₂_iff_get.mpr ⟨?_, ?_⟩
    · simp [returned, call, drain]
    · intro i hi hi'
      exact .inr ⟨wrote i, by simp [returned, call, drain]⟩
  | takeCompletions =>
    show List.Forall₂ Handed (p.completions.take p.completions.length) p.completions
    rw [take_length]
    exact forall₂_same.mpr fun x _ => .inl rfl
  | park pid tid kind sources deadline resume =>
    simp only [returned, call]
    cases p.park pid tid kind sources deadline resume <;> exact .nil
  | _ => exact .nil

theorem run_returned : ∀ {p : Parks T} (cs : List Call),
    List.Forall₂ Handed (Fifo.ledger call moves p cs).delivered (Machine.moved call returned p cs)
  | _, [] => .nil
  | p, c :: cs => rel_append (returned_handed p c) (run_returned cs)

/-- Only retiring a process throws a record away, and only its own. -/
theorem run_discarded : ∀ {p : Parks T} {cs : List Call} {x : Completion},
    x ∈ (Fifo.ledger call moves p cs).discarded → Call.retireProcess x.pid ∈ cs
  | _, [], _, h => by cases h
  | p, c :: cs, x, h => by
    rcases mem_append.mp h with h | h
    · cases c with
      | retireProcess pid =>
        obtain ⟨_, hpid⟩ := mem_filter.mp h
        obtain rfl : x.pid = pid := by simpa using hpid
        exact mem_cons_self
      | _ => cases h
    · exact mem_cons_of_mem _ (run_discarded h)

theorem handed_task {queued record : Completion} (h : Handed queued record) : record.task = queued.task := by
  obtain rfl | ⟨wrote, rfl⟩ := h
  · rfl
  · simp only [settle]
    split <;> rfl

theorem handed_tasks {delivered records : List Completion} (h : List.Forall₂ Handed delivered records) :
    records.map task = delivered.map task := by
  induction h with
  | nil => rfl
  | cons hx _ ih => rw [map_cons, map_cons, handed_task hx, ih]

/-- A record a run hands over was queued at the start, or belongs to a task that
slept at the start or was parked on the way. -/
theorem returned_origin (h : Inv p) (cs : List Call) {r : Completion} (hr : r ∈ Machine.moved call returned p cs) :
    (∃ x ∈ p.completions, x.task = r.task) ∨ r.task ∈ p.sleeping ∨ r.task ∈ Machine.moved call parked p cs := by
  have heffect := run_effect cs h
  have htask : r.task ∈ (Fifo.ledger call moves p cs).delivered.map task := by
    rw [← handed_tasks (run_returned cs)]
    exact mem_map_of_mem hr
  obtain ⟨x, hx, hxr⟩ := mem_map.mp htask
  rcases mem_append.mp (heffect.balance.order.subset (mem_append_left _ hx)) with hx | hx
  · exact .inl ⟨x, hx, hxr⟩
  have := heffect.tasks.subset (mem_append_left _ (mem_map_of_mem (f := task) hx))
  rw [hxr] at this
  exact .inr (mem_append.mp this)

/-- Over every run: the resume map has exactly the sleepers; a generation that
was parked is completed at most once, and not while it sleeps; records come out
in the order they were queued and none is lost, except that retiring a process
throws away the queued records of that process; and once a process is retired, a
record handed over for its pid belongs to a task parked since, never to one
parked before. -/
theorem completions_once (cs : List Call) :
    let p : Parks T := Machine.run call new cs
    let parks := Machine.moved call parked (new : Parks T) cs
    let m := Fifo.ledger call moves (new : Parks T) cs
    (∀ id, (p.resume.get? id).isSome = (p.queue.sleepers.get? id).isSome) ∧ (parks.map Task.generation).Pairwise (· < ·) ∧
      (m.accepted.map Completion.task ++ p.sleeping).Subperm parks ∧
      (m.accepted.map Completion.generation ++ p.sleeping.map Task.generation).Nodup ∧
      Fifo.Balanced [] p.completions m ∧
      (∀ x ∈ m.discarded, Call.retireProcess x.pid ∈ cs) ∧
      (m.discarded = [] → m.delivered ++ p.completions = m.accepted) ∧
      List.Forall₂ Handed m.delivered (Machine.moved call returned (new : Parks T) cs) ∧
      ∀ pid cs', ∀ r ∈ Machine.moved call returned (p.call (.retireProcess pid)).2 cs', r.pid = pid →
        r.task ∈ Machine.moved call parked (p.call (.retireProcess pid)).2 cs' ∧ ∀ t ∈ parks, t.generation < r.generation := by
  intro p parks m
  have heffect := run_effect (T := T) cs .new
  have htasks : (m.accepted.map task ++ p.sleeping).Subperm parks := heffect.tasks
  refine ⟨heffect.inv.resumed, heffect.sorted, htasks, run_nodup cs, heffect.balance, fun x hx => run_discarded hx, ?_,
    run_returned cs, ?_⟩
  · intro hno
    exact heffect.balance.fifo hno
  intro pid cs' r hr hpid
  have hretire := call_effect heffect.inv (.retireProcess pid)
  obtain ⟨hsleeping, hcompletions⟩ := p.retireProcess_none pid
  have hparked : r.task ∈ Machine.moved call parked (p.call (.retireProcess pid)).2 cs' := by
    rcases returned_origin hretire.inv cs' hr with ⟨x, hx, hxr⟩ | hin | hin
    · have hxpid : x.pid = r.pid := congrArg Task.pid hxr
      exact absurd (hxpid.trans hpid) (hcompletions x hx)
    · exact absurd hpid (hsleeping _ hin)
    · exact hin
  refine ⟨hparked, fun t ht => ?_⟩
  have hbefore := (heffect.fresh t ht).2
  have hafter := ((run_effect cs' hretire.inv).fresh _ hparked).1
  have hnext := hretire.next
  exact lt_of_lt_of_le hbefore (hnext.trans hafter)

/-- A process that is retired and parks again, as `exec` leaves it. -/
def parkedAgain : List Call :=
  [.park 1 1 .futex [.futex 1 16] none (.futex 1 none), .retireProcess 1,
    .park 1 1 .futex [.futex 1 16] none (.futex 1 none), .futexWake 1 16 1 1]

/-- The later park is completed like any other: a record for the process comes
back after it was retired. -/
theorem completion_after_retireProcess : Call.retireProcess 1 ∈ parkedAgain ∧
      ((Machine.run call (new : Parks Unit) parkedAgain).drain 24 1 0 fun _ => true).1.1 = [⟨2, 1, 1, 0, 0, none⟩] := by
  refine ⟨by simp [parkedAgain], ?_⟩
  decide +kernel

theorem expire_sleepers (p : Parks T) (nowNs : MonotonicNs) : (p.expire nowNs).2.queue.sleepers = (p.queue.expire nowNs).2.sleepers :=
  foldlRecOn (motive := fun acc : _ × Parks T => acc.2.queue.sleepers = (p.queue.expire nowNs).2.sleepers) _ expireOne
    rfl fun _ h _ _ => h

/-- Once the tasks that are due are woken, the host is never told to sleep for no time. -/
theorem expire_leaves_time (cs : List Call) (nowNs : MonotonicNs) : let p := Machine.run call (new : Parks T) cs
    ∀ left, ((p.expire nowNs).2.nextTimeoutNs nowNs).1 = some left → 0 < left := by
  intro p left hleft
  have hinv : Inv p := (run_effect cs .new).inv
  obtain ⟨d, hd, rfl⟩ := Option.map_eq_some_iff.mp hleft
  obtain ⟨e, he, hde⟩ := (WaitQueue.nextDeadlineNs_least (call_effect hinv (.expire nowNs)).inv.queue).1 d hd
  have hlate := (WaitQueue.expire_spec hinv.queue nowNs).2 e (expire_sleepers p nowNs ▸ he) d hde
  exact lt_min (Int.lt_toNat.mpr (Int.sub_pos_of_lt hlate)) (by decide)

end Parks

end Kandelo.Wait
