/-
The loop of `apply_pending_exits` from the exits of a kernel call to its end.

Each result is an invariant over the exits that still wait, those of the round and those
queued in it (`loop_rule`): `Parented` for the parents, `Tied` for a group that is linked or
whose last link is still to be looked at. `JobCall` are the calls of the kernel with the exits
they cause applied at their end, and `Settled` is what every call leaves behind.
-/
import Kandelo.Process.Exits

namespace Kandelo.Process

open ProcessTable List

namespace Applying

/-! ## The loop -/

variable {s s' : Applying}

/-- What one exit keeps, over the exits that wait, the whole loop keeps. -/
theorem loop_rule {I : List Nat → Applying → Prop} (hstep : ∀ x rest s, I (x :: rest) s → I rest (s.applyExit x))
    (hround : ∀ s, I [] s → I s.pendingExits { s with pendingExits := [] }) {fuel : Nat} (hs : I [] s)
    (h : s.applyPendingExits fuel = some s') : I [] s' ∧ s'.pendingExits = [] := by
  have hfold : ∀ (xs : List Nat) (s : Applying), I xs s → I [] (xs.foldl applyExit s) := by
    intro xs
    induction xs with
    | nil => exact fun s hs => hs
    | cons x xs ih => exact fun s hs => ih _ (hstep x xs s hs)
  induction fuel generalizing s with
  | zero =>
    rw [applyPendingExits] at h
    split at h
    · rename_i hnil
      rw [Option.some.injEq] at h
      exact h ▸ ⟨hs, hnil⟩
    · cases h
  | succ fuel ih =>
    rw [applyPendingExits] at h
    split_ifs at h with hnil
    · rw [Option.some.injEq] at h
      exact h ▸ ⟨hs, hnil⟩
    · exact ih (hfold _ _ (hround s hs)) h

/-- What an exit may change. -/
structure Moves (s s' : Applying) : Prop where
  later : Later s.table s'.table
  fresh : ∀ x ∈ s'.pendingExits, x ∈ s.pendingExits ∨
    (∃ p, s.table.processes.get? x = some p ∧ p.live) ∧ ∀ p', s'.table.processes.get? x = some p' → p'.live = false
  ids : s'.table.nextTaskId = s.table.nextTaskId
  log : ∃ new, s'.generated = s.generated ++ new

theorem moves_applyExit (s : Applying) (x : Nat) : Moves s (s.applyExit x) := by
  rcases s.applyExit_cases x with ⟨heq, _⟩ | ⟨p, _, _, _, hreaps⟩
  · rw [heq]
    exact ⟨.refl s.table, fun _ h => .inl h, rfl, [], (append_nil _).symm⟩
  have hsignals := signals_orphanedGroups (s.newlyOrphaned x p) (fun _ h => h) (s.adopting x)
  have hadopt : Later s.table (s.adopting x).table := later_reparent s.table x
  refine ⟨hadopt.trans (hsignals.later.trans hreaps.later), fun y hy => ?_, ?_, ?_⟩
  · rw [hreaps.queue] at hy
    rcases hsignals.fresh y hy with hy | ⟨q, hq, hl, hq'⟩
    · exact .inl hy
    obtain ⟨q₀, hq0, _, _, hl0, _⟩ := hadopt.back y q hq
    refine .inr ⟨⟨q₀, hq0, hl0 hl⟩, fun p' hp' => ?_⟩
    obtain ⟨p, hp, _, _, hlive, _⟩ := hreaps.later.back y p' hp'
    rw [hq', Option.some.injEq] at hp
    rw [← Bool.not_eq_true]
    intro hl'
    have := hlive hl'
    rw [← hp] at this
    cases this
  · exact (hreaps.ids.trans hsignals.ids).trans (keeping_reparent s.table x).ids
  · obtain ⟨new, hnew, _⟩ := hsignals.log
    exact ⟨new, by rw [hreaps.log, hnew]; rfl⟩

/-! ## The loop ends -/

/-- The processes that can still end. -/
def livePids (t : ProcessTable) : List Nat := (t.processes.entries.filter (·.2.live)).map (·.1)

variable {t : ProcessTable} {pid : Nat}

theorem mem_livePids : pid ∈ livePids t ↔ ∃ p, t.processes.get? pid = some p ∧ p.live := by
  simp [livePids, OrdMap.mem_entries_iff]

theorem nodup_livePids (t : ProcessTable) : (livePids t).Nodup := t.processes.keys_nodup.sublist (filter_sublist.map _)

variable {t' : ProcessTable}

theorem livePids_later (h : Later t t') : livePids t' ⊆ livePids t := by
  intro pid hpid
  obtain ⟨p', hp', hl'⟩ := mem_livePids.mp hpid
  obtain ⟨p, hp, _, _, hl, _⟩ := h.back pid p' hp'
  exact mem_livePids.mpr ⟨p, hp, hl hl'⟩

/-- An exit that a round queues is that of a process that lived when the round began. -/
theorem round_fresh (t : ProcessTable) (xs : List Nat) (hlater : Later t s.table)
    (hs : ∀ x ∈ s.pendingExits, x ∈ livePids t ∧ x ∉ livePids s.table) : Later t (xs.foldl applyExit s).table ∧
      ∀ x ∈ (xs.foldl applyExit s).pendingExits, x ∈ livePids t ∧ x ∉ livePids (xs.foldl applyExit s).table := by
  induction xs generalizing s with
  | nil => exact ⟨hlater, hs⟩
  | cons x xs ih =>
    have hmoves := s.moves_applyExit x
    refine ih (hlater.trans hmoves.later) fun y hy => ?_
    rcases hmoves.fresh y hy with hy | ⟨⟨p, hp, hl⟩, hdead⟩
    · exact ⟨(hs y hy).1, fun h => (hs y hy).2 (livePids_later hmoves.later h)⟩
    refine ⟨livePids_later hlater (mem_livePids.mpr ⟨p, hp, hl⟩), fun h => ?_⟩
    obtain ⟨p', hp', hl'⟩ := mem_livePids.mp h
    rw [hdead p' hp'] at hl'
    cases hl'

theorem applyPendingExits_ends {fuel : Nat} (h : (livePids s.table).length < fuel) : ∃ s', s.applyPendingExits fuel = some s' := by
  induction fuel generalizing s with
  | zero => exact absurd h (Nat.not_lt_zero _)
  | succ fuel ih =>
    rw [applyPendingExits]
    split
    · exact ⟨s, rfl⟩
    have hround := round_fresh s.table s.pendingExits (s := { s with pendingExits := [] }) (.refl s.table)
      fun x hx => absurd hx not_mem_nil
    set s' := s.pendingExits.foldl applyExit { s with pendingExits := [] }
    cases hnext : s'.pendingExits with
    | nil =>
      -- nothing queued: the next look at the queue ends the loop
      refine ⟨s', ?_⟩
      cases fuel <;> rw [applyPendingExits, if_pos hnext]
    | cons x rest =>
      refine ih (lt_of_lt_of_le ?_ (Nat.le_of_lt_succ h))
      obtain ⟨hin, hout⟩ := hround.2 x (hnext ▸ mem_cons_self)
      have hnodup : (x :: livePids s'.table).Nodup := nodup_cons.mpr ⟨hout, nodup_livePids s'.table⟩
      exact (subperm_of_subset hnodup (cons_subset.mpr ⟨hin, livePids_later hround.1⟩)).length_le

/-! ## Parents -/

/-- A parent that lives, or whose exit waits to be applied. -/
def Stands (waiting : List Nat) (t : ProcessTable) (ppid : Nat) : Prop :=
  ∃ q, t.processes.get? ppid = some q ∧ (q.live ∨ q.state = .exited ∧ ppid ∈ waiting)

structure Parented (waiting : List Nat) (t : ProcessTable) : Prop where
  parent : ∀ pid p, pid ≠ syntheticInitPid → t.processes.get? pid = some p → p.state ≠ .limbo →
    p.spawnPublicationPending = false → p.ppid = 0 ∨ p.ppid = syntheticInitPid ∨ Stands waiting t p.ppid
  root : ∀ p, t.processes.get? syntheticInitPid = some p → p.state ≠ .limbo → p.ppid = 0 ∨ p.ppid = syntheticInitPid

variable {waiting : List Nat}

theorem Parented.root_later (h : Parented waiting t) (hl : Later t t') :
    ∀ p, t'.processes.get? syntheticInitPid = some p → p.state ≠ .limbo → p.ppid = 0 ∨ p.ppid = syntheticInitPid := by
  intro p' hp' hlimbo
  obtain ⟨p, hp, _, _, _, hppid, hne, _⟩ := hl.back _ p' hp'
  rcases hppid with heq | heq
  · rw [heq]
    exact h.root p hp (hne hlimbo).1
  · exact .inr heq

variable {q : Identity}

theorem not_limbo_of_stands {P : Prop} (h : q.live ∨ q.state = .exited ∧ P) : q.state ≠ .limbo := by
  rcases h with h | h
  · exact not_limbo_of_live h
  · rw [h.1]
    decide

variable {x : Nat}

/-- An exit that has no effect was not waited for. -/
theorem Parented.skip
    (hx : ∀ p, t.processes.get? x = some p → x = syntheticInitPid ∨ p.state ≠ .exited) (h : Parented (x :: waiting) t) :
    Parented waiting t := by
  refine ⟨fun pid p hinit hp hl hpend => ?_, h.root⟩
  rcases h.parent pid p hinit hp hl hpend with h0 | h1 | ⟨q, hq, hstands⟩
  · exact .inl h0
  · exact .inr (.inl h1)
  rcases hstands with hlive | ⟨hex, hmem⟩
  · exact .inr (.inr ⟨q, hq, .inl hlive⟩)
  rcases mem_cons.mp hmem with heq | hmem
  · rw [heq] at hq ⊢
    exact .inr (.inl ((hx q hq).resolve_right fun hne => hne hex))
  · exact .inr (.inr ⟨q, hq, .inr ⟨hex, hmem⟩⟩)

/-- Once its children are with init, nothing waits for `x`. -/
theorem Parented.adopt (hback : ∀ pid p', t'.processes.get? pid = some p' → p'.state ≠ .limbo →
      ∃ p, t.processes.get? pid = some p ∧ p' = adopted x pid p)
    (hkept : ∀ pid p, pid ≠ x → t.processes.get? pid = some p → p.state ≠ .limbo →
      t'.processes.get? pid = some (adopted x pid p)) (h : Parented (x :: waiting) t) : Parented waiting t' := by
  refine ⟨fun pid p' hinit hp' hl hpend => ?_, fun p' hp' hl => ?_⟩
  rotate_left
  · obtain ⟨p, hp, rfl⟩ := hback _ p' hp' hl
    have heq : adopted x syntheticInitPid p = p := if_pos (.inr (.inl rfl))
    rw [heq] at hl ⊢
    exact h.root p hp hl
  obtain ⟨p, hp, rfl⟩ := hback pid p' hp' hl
  obtain ⟨ppid, hsame, _⟩ := adopted_eq x pid p
  have hpend' : p.spawnPublicationPending = false := by rwa [hsame] at hpend
  have hparent := h.parent pid p hinit hp (by rwa [hsame] at hl) hpend'
  rcases adopted_cases x pid p with ⟨heq, hwhy⟩ | ⟨heq, _⟩ <;> rw [heq]
  · rcases hparent with h0 | h1 | ⟨q, hq, hstands⟩
    · exact .inl h0
    · exact .inr (.inl h1)
    by_cases hx : p.ppid = x
    · -- a child of `x` stays with it only if that is init
      rcases hwhy with hw | hw | hw | hw
      · exact .inr (.inl (hx.trans hw))
      · exact absurd hw hinit
      · exact absurd hx hw
      · rw [hw] at hpend'
        cases hpend'
    · obtain ⟨_, hqsame, _⟩ := adopted_eq x p.ppid q
      refine .inr (.inr ⟨_, hkept p.ppid q hx hq (not_limbo_of_stands hstands), ?_⟩)
      rw [hqsame]
      exact hstands.imp_right (.imp_right fun hmem => (mem_cons.mp hmem).resolve_left hx)
  · exact .inr (.inl rfl)

theorem Parented.adopting (h : Parented (x :: waiting) t) : Parented waiting (t.reparentChildrenToInit x) := by
  refine h.adopt (fun pid p' hp' _ => ?_) fun pid p _ hp _ => ?_
  · rw [get?_reparent, Option.map_eq_some_iff] at hp'
    obtain ⟨p, hp, heq⟩ := hp'
    exact ⟨p, hp, heq.symm⟩
  · rw [get?_reparent, hp]
    rfl

variable {z : Nat}

theorem Parented.removes (hz : Removes z t t') (h : Parented (z :: waiting) t) : Parented waiting t' := by
  refine h.adopt (fun pid p' hp' hl => ?_) hz.kept
  by_cases hne : pid = z
  · rw [hne] at hp'
    exact absurd (hz.gone p' hp').1 hl
  · exact hz.back pid p' hne hp'

theorem Parented.mono {waiting' : List Nat} (hsub : waiting ⊆ waiting') (h : Parented waiting t) : Parented waiting' t :=
  ⟨fun pid p hinit hp hl hpend => (h.parent pid p hinit hp hl hpend).imp_right (.imp_right fun ⟨q, hq, hstands⟩ =>
    ⟨q, hq, hstands.imp_right (.imp_right fun hmem => hsub hmem)⟩), h.root⟩

variable {groups : List Nat}

theorem Signals.mem_queue (hsig : Signals groups s s') (rest : List Nat) (h : x ∈ rest ++ s.pendingExits) :
    x ∈ rest ++ s'.pendingExits := by
  rcases mem_append.mp h with h | h
  · exact mem_append_left _ h
  · exact mem_append_right _ (hsig.queue x h)

theorem Parented.signals (rest : List Nat) (hsig : Signals groups s s')
    (h : Parented (rest ++ s.pendingExits) s.table) : Parented (rest ++ s'.pendingExits) s'.table := by
  refine ⟨fun pid p' hinit hp' hl hpend => ?_, h.root_later hsig.later⟩
  obtain ⟨p, hp⟩ := hsig.back pid p' hp'
  obtain ⟨state, hget, hwhich, _⟩ := hsig.keep pid p hp
  rw [hget, Option.some.injEq] at hp'
  subst hp'
  rcases h.parent pid p hinit hp ((Turns.not_limbo_iff hwhich).mp hl) hpend with h0 | h1 | ⟨q, hq, hstands⟩
  · exact .inl h0
  · exact .inr (.inl h1)
  obtain ⟨qstate, hqget, hqwhich, hqueued⟩ := hsig.keep p.ppid q hq
  refine .inr (.inr ⟨_, hqget, ?_⟩)
  rcases hstands with hlive | ⟨hex, hmem⟩
  · by_cases hqex : qstate = .exited
    · exact .inr ⟨hqex, mem_append_right _ (hqueued hlive hqex)⟩
    · exact .inl (Turns.live hqwhich hlive hqex)
  · exact .inr ⟨Turns.exited hqwhich hex, hsig.mem_queue rest hmem⟩

theorem parented_applyExit {rest : List Nat} (h : Parented (x :: rest ++ s.pendingExits) s.table) :
    Parented (rest ++ (s.applyExit x).pendingExits) (s.applyExit x).table := by
  rcases s.applyExit_cases x with ⟨heq, hskip⟩ | ⟨p, _, _, _, hreaps⟩
  · rw [heq]
    exact h.skip hskip
  have hsignals := signals_orphanedGroups (s.newlyOrphaned x p) (fun _ h => h) (s.adopting x)
  have hadopted : Parented (rest ++ (s.adopting x).pendingExits) (s.adopting x).table := h.adopting
  rw [hreaps.queue]
  exact hreaps.keeps (I := fun s' => Parented _ s'.table)
    (fun hz h => (h.mono (subset_cons_self _ _)).removes hz.removes) (hadopted.signals rest hsignals)

/-! ## No linked group is signalled -/

/-- Every signal was for a group without a link when it was generated. -/
def OnlyOrphans (s : Applying) : Prop := ∀ g ∈ s.generated, ∃ p, g.table.processes.get? g.pid = some p ∧ ¬g.table.Linked p.pgid

theorem onlyOrphans_applyExit (x : Nat) (h : s.OnlyOrphans) : (s.applyExit x).OnlyOrphans := by
  rcases s.applyExit_cases x with ⟨heq, _⟩ | ⟨p, _, _, _, hreaps⟩
  · rw [heq]
    exact h
  obtain ⟨new, hnew, hlog⟩ := (signals_orphanedGroups (s.newlyOrphaned x p) (fun _ h => h) (s.adopting x)).log
  intro g hg
  rw [hreaps.log, hnew] at hg
  rcases mem_append.mp hg with hg | hg
  · exact h g hg
  obtain ⟨hlater, q, hq, hmem⟩ := hlog g hg
  refine ⟨q, hq, fun hlinked => ?_⟩
  exact ((isOrphaned_iff _ _).mp (mem_orphanedGroups.mp hmem).1).1 (hlinked.of_later hlater)

/-! ## Ties -/

/-- The host has not seen a live process end. -/
def Unseen (t : ProcessTable) : Prop := ∀ pid p, t.processes.get? pid = some p → p.live → p.exitPublished = false

theorem Unseen.later (h : Unseen t) (hl : Later t t') : Unseen t' := by
  intro pid p' hp' hlive'
  obtain ⟨p, hp, _, _, hlive, _⟩ := hl.back pid p' hp'
  obtain ⟨p'', hp'', _, hu, _⟩ := hl.stays pid p hp (not_limbo_of_live (hlive hlive')) (h pid p hp (hlive hlive'))
  rw [hp', Option.some.injEq] at hp''
  exact hp'' ▸ hu

/-- A link of the group, or what is left of one whose exits wait: the parent's, or the
child's while the parent lives. -/
structure Tie (waiting : List Nat) (t : ProcessTable) (pgid pid : Nat) (p q : Identity) : Prop where
  child : t.processes.get? pid = some p
  ordinary : pid ≠ syntheticInitPid
  group : p.pgid = pgid
  there : p.state ≠ .limbo ∧ p.exitPublished = false
  waitable : p.spawnPublicationPending = false
  named : p.ppid ≠ 0 ∧ p.ppid ≠ syntheticInitPid
  parent : t.processes.get? p.ppid = some q
  parentThere : q.state ≠ .limbo ∧ q.exitPublished = false
  linking : links pgid p q
  parentWaits : q.state = .exited → p.ppid ∈ waiting
  childWaits : q.state ≠ .exited → p.state = .exited → pid ∈ waiting

def Tied (waiting : List Nat) (t : ProcessTable) (pgid : Nat) : Prop := ∃ pid p q, Tie waiting t pgid pid p q

variable {p : Identity}

theorem live_of_there (h : p.state ≠ .limbo) (hex : p.state ≠ .exited) : p.live := live_of_not (p := p) hex h

variable {pgid : Nat}

/-- When nothing waits, a tie is a link. -/
theorem Tied.linked (h : Tied [] t pgid) : t.Linked pgid := by
  obtain ⟨pid, p, q, h⟩ := h
  have hq : q.state ≠ .exited := fun hex => not_mem_nil (h.parentWaits hex)
  have hp : p.state ≠ .exited := fun hex => not_mem_nil (h.childWaits hq hex)
  exact ⟨pid, p, q, ⟨h.child, h.ordinary, h.group, live_of_there h.there.1 hp⟩,
    liveParent_eq_some.mpr ⟨h.named.1, h.named.2, h.parent, live_of_there h.parentThere.1 hq⟩, h.linking⟩

theorem Tied.of_link (hu : Unseen t) (h : t.Link pgid pid p q)
    (hpend : p.spawnPublicationPending = false) (waiting : List Nat) : Tied waiting t pgid := by
  obtain ⟨⟨hget, hinit, hpgid, hlive⟩, hparent, hlinks⟩ := h
  obtain ⟨hzero, hone, hgetq, hliveq⟩ := liveParent_eq_some.mp hparent
  exact ⟨pid, p, q, hget, hinit, hpgid, ⟨not_limbo_of_live hlive, hu pid p hget hlive⟩, hpend, ⟨hzero, hone⟩, hgetq,
    ⟨not_limbo_of_live hliveq, hu _ q hgetq hliveq⟩, hlinks, fun hex => absurd hex (not_exited_of_live hliveq),
    fun _ hex => absurd hex (not_exited_of_live hlive)⟩

theorem Tied.skip (hx : ∀ p, t.processes.get? x = some p → x = syntheticInitPid ∨ p.state ≠ .exited)
    (h : Tied (x :: waiting) t pgid) : Tied waiting t pgid := by
  obtain ⟨pid, p, q, h⟩ := h
  refine ⟨pid, p, q, { h with parentWaits := fun hex => ?_, childWaits := fun hq hex => ?_ }⟩
  · rcases mem_cons.mp (h.parentWaits hex) with heq | hmem
    · rcases hx q (heq ▸ h.parent) with hone | hne
      · exact absurd (heq.trans hone) h.named.2
      · exact absurd hex hne
    · exact hmem
  rcases mem_cons.mp (h.childWaits hq hex) with heq | hmem
  · rcases hx p (heq ▸ h.child) with hone | hne
    · exact absurd (heq.trans hone) h.ordinary
    · exact absurd hex hne
  · exact hmem

theorem Tied.signals (rest : List Nat) (hsig : Signals groups s s')
    (h : Tied (rest ++ s.pendingExits) s.table pgid) : Tied (rest ++ s'.pendingExits) s'.table pgid := by
  obtain ⟨pid, p, q, h⟩ := h
  obtain ⟨pstate, hpget, hpwhich, hpqueued⟩ := hsig.keep pid p h.child
  obtain ⟨qstate, hqget, hqwhich, hqqueued⟩ := hsig.keep p.ppid q h.parent
  -- an exit now is either new, and queued, or was one before
  have hwaits : ∀ {r : Identity} {y : Nat} {state : ProcessState}, Turns groups r state →
      (r.live → state = .exited → y ∈ s'.pendingExits) → (r.state = .exited → y ∈ rest ++ s.pendingExits) →
      state = .exited → y ∈ rest ++ s'.pendingExits := by
    intro r y state hwhich hnew hold hex
    rcases hwhich with heq | ⟨hlive, _⟩
    · exact hsig.mem_queue rest (hold (heq.symm.trans hex))
    · exact mem_append_right _ (hnew hlive hex)
  refine ⟨pid, _, _, hpget, h.ordinary, h.group, ⟨(Turns.not_limbo_iff hpwhich).mpr h.there.1, h.there.2⟩, h.waitable, h.named,
    hqget, ⟨(Turns.not_limbo_iff hqwhich).mpr h.parentThere.1, h.parentThere.2⟩, h.linking,
    hwaits hqwhich hqqueued h.parentWaits, fun hq => ?_⟩
  exact hwaits hpwhich hpqueued (h.childWaits fun hex => hq (Turns.exited hqwhich hex))

/-- A tie whose ends `x` is neither of is as it was once the children of `x` are with init. -/
theorem Tie.adopt (h : Tie waiting t pgid pid p q) (hx : p.ppid ≠ x) (hchild : t'.processes.get? pid = some (adopted x pid p))
    (hparent : t'.processes.get? p.ppid = some (adopted x p.ppid q)) : Tie waiting t' pgid pid p (adopted x p.ppid q) := by
  obtain ⟨ppid, hsame, _⟩ := adopted_eq x p.ppid q
  rw [show adopted x pid p = p from if_pos (.inr (.inr (.inl hx)))] at hchild
  rw [hsame] at hparent ⊢
  exact ⟨hchild, h.ordinary, h.group, h.there, h.waitable, h.named, hparent, h.parentThere, h.linking, h.parentWaits, h.childWaits⟩

theorem Tied.reaped (hz : Reaped z s s') (h : Tied waiting s.table pgid) : Tied waiting s'.table pgid := by
  obtain ⟨pid, p, q, h⟩ := h
  have hp := hz.ne h.child h.there.2
  have hq := hz.ne h.parent h.parentThere.2
  exact ⟨pid, p, _, h.adopt hq (hz.removes.kept pid p hp h.child h.there.1) (hz.removes.kept p.ppid q hq h.parent h.parentThere.1)⟩

/-- The groups that are looked at when `x` has ended. -/
def Checked (s : Applying) (x : Nat) (p : Identity) (pgid : Nat) : Prop :=
  pgid ≠ p.pgid ∧ (pgid, p.sid) ∈ s.table.childGroups x ∨ pgid = p.pgid ∧ ((s.adopting x).table.liveParent p.ppid).any (links p.pgid p)

variable {px : Identity}

/-- Applying the exit of one end of a tie looks at the group. -/
theorem Tied.adopting (h : Tied (x :: waiting) s.table pgid) (hx : s.table.processes.get? x = some px) :
    Tied waiting (s.adopting x).table pgid ∨ s.Checked x px pgid := by
  obtain ⟨pid, p, q, h⟩ := h
  obtain ⟨hother, hsession⟩ : q.pgid ≠ pgid ∧ q.sid = p.sid := by simpa [links] using h.linking
  by_cases hppid : p.ppid = x
  · -- the child's group is among those of the children of `x`
    have hq : q = px := by
      have := h.parent
      rw [hppid, hx, Option.some.injEq] at this
      exact this.symm
    subst hq
    refine .inr (.inl ⟨hother.symm, mem_map.mpr ⟨(pid, p), ?_, by rw [h.group, hsession]⟩⟩)
    simp only [leftChildren, mem_filter, Bool.and_eq_true, bne_iff_ne, beq_iff_eq, Bool.not_eq_true']
    exact ⟨⟨OrdMap.mem_entries_iff.mpr h.child, ⟨h.ordinary, hppid⟩, h.waitable⟩, h.there.1⟩
  have htie := h.adopt hppid (get?_adopting x h.child) (get?_adopting x h.parent)
  obtain ⟨_, hsame, _⟩ := adopted_eq x p.ppid q
  by_cases hself : pid = x ∧ q.state ≠ .exited
  · -- the child is `x` itself, under a parent that lives
    obtain ⟨rfl, hq⟩ := hself
    have hp : p = px := by
      have := h.child
      rw [hx, Option.some.injEq] at this
      exact this.symm
    subst hp
    have hlive : (adopted pid p.ppid q).live := hsame ▸ live_of_there h.parentThere.1 hq
    refine .inr (.inr ⟨h.group.symm, ?_⟩)
    rw [liveParent_eq_some.mpr ⟨h.named.1, h.named.2, htie.parent, hlive⟩, h.group]
    exact htie.linking
  · refine .inl ⟨pid, p, _, { htie with parentWaits := fun hex => ?_, childWaits := fun hq hex => ?_ }⟩
    · exact (mem_cons.mp (htie.parentWaits hex)).resolve_left hppid
    · refine (mem_cons.mp (htie.childWaits hq hex)).resolve_left fun heq => hself ⟨heq, ?_⟩
      rwa [hsame] at hq

/-! ## The fate of a group -/

/-- The processes of the group are as they were in `after`. -/
def Untouched (after : ProcessTable) (pgid : Nat) (t : ProcessTable) : Prop :=
  ∀ pid p, after.Member pgid pid p → ∃ p', t.processes.get? pid = some p' ∧ p'.pgid = pgid ∧ p'.state = p.state ∧ p'.exitPublished = false

/-- The live processes that the group had in `after` are hung up, or nothing has happened to
them yet: then none is stopped, or the group is tied. -/
def Fate (after : ProcessTable) (pgid : Nat) (waiting : List Nat) (s : Applying) : Prop :=
  (∀ pid p, after.Member pgid pid p → s.HungUp pid) ∨ Untouched after pgid s.table ∧
      ((∀ pid p, after.Member pgid pid p → p.state ≠ .stopped) ∨ Tied (waiting ++ s.pendingExits) s.table pgid)

variable {after : ProcessTable}

theorem live_of_untouched {p' : Identity} (h : after.Member pgid pid p) (hstate : p'.state = p.state) : p'.live := by
  rw [Identity.live, hstate]
  exact h.2.2.2

theorem untouched_adopted (x : Nat) {p' : Identity} {state : ProcessState}
    (h : p'.pgid = pgid ∧ p'.state = state ∧ p'.exitPublished = false) :
    (adopted x pid p').pgid = pgid ∧ (adopted x pid p').state = state ∧ (adopted x pid p').exitPublished = false := by
  obtain ⟨ppid, heq, _⟩ := adopted_eq x pid p'
  rwa [heq]

theorem Untouched.adopting (x : Nat) (h : Untouched after pgid s.table) : Untouched after pgid (s.adopting x).table := by
  intro pid p hp
  obtain ⟨p', hp', hsame⟩ := h pid p hp
  exact ⟨_, get?_adopting x hp', untouched_adopted x hsame⟩

theorem Untouched.signals (hg : pgid ∉ groups)
    (hsig : Signals groups s s') (h : Untouched after pgid s.table) : Untouched after pgid s'.table := by
  intro pid p hp
  obtain ⟨p', hp', hpgid, hstate, hu⟩ := h pid p hp
  obtain ⟨state, hget, hwhich, _⟩ := hsig.keep pid p' hp'
  exact ⟨_, hget, hpgid, (hwhich.resolve_right fun h => hg (hpgid ▸ h.2.1)).trans hstate, hu⟩

theorem Untouched.reaped (hz : Reaped z s s') (h : Untouched after pgid s.table) : Untouched after pgid s'.table := by
  intro pid p hp
  obtain ⟨p', hp', hsame⟩ := h pid p hp
  exact ⟨_, hz.removes.kept pid p' (hz.ne hp' hsame.2.2) hp' (not_limbo_of_live (live_of_untouched hp hsame.2.1)),
    untouched_adopted z hsame⟩

/-- A group that is hung up is so with every process it has. -/
theorem hungUp_applied (h : Untouched after pgid s.table) (hzero : s.table.processes.get? 0 = none) (hg : pgid ∈ s.newlyOrphaned x px)
    (hreaps : Reaps ((s.newlyOrphaned x px).foldl signalOrphanedGroup (s.adopting x)) (s.applyExit x))
    (hp : after.Member pgid pid p) : (s.applyExit x).HungUp pid := by
  have hne : pid ≠ 0 := by
    rintro rfl
    obtain ⟨p', hp', _⟩ := h 0 p hp
    rw [hzero] at hp'
    cases hp'
  obtain ⟨p', hp', hpgid, hstate, hu⟩ := h.adopting x pid p hp
  have htarget : Target (s.adopting x).table pgid pid p' := ⟨⟨hp', hp.2.1, hpgid, live_of_untouched hp hstate⟩, hne⟩
  exact (hungUp_orphanedGroups hg htarget hu).mono (hreaps.log.trans (append_nil _).symm) hreaps.later

/-- A group that was looked at and not hung up has a link, or nobody stopped. -/
theorem tied_or_running {before : ProcessTable} (hlater : Later before s.table) (hunseen : Unseen s.table)
    (hpend : ∀ pid p q, before.Link pgid pid p q → p.spawnPublicationPending = false) (h : Untouched after pgid s.table)
    (hchecked : s.Checked x px pgid) (hg : pgid ∉ s.newlyOrphaned x px) (waiting : List Nat) :
    (∀ pid p, after.Member pgid pid p → p.state ≠ .stopped) ∨ Tied waiting (s.adopting x).table pgid := by
  have hadopt : Later s.table (s.adopting x).table := later_reparent s.table x
  have horphaned : (s.adopting x).table.isOrphanedGroupWithStoppedMember pgid ≠ true :=
    fun horph => hg (mem_orphanedGroups.mpr ⟨horph, hchecked⟩)
  rw [Ne, isOrphaned_iff, not_and_or, not_not] at horphaned
  rcases horphaned with ⟨pid, p, q, hlink⟩ | hnone
  · obtain ⟨p₀, q₀, hlink0, _, hsame⟩ := hlink.of_later (hlater.trans hadopt)
    exact .inr (.of_link (hunseen.later hadopt) hlink (hsame.trans (hpend pid p₀ q₀ hlink0)) waiting)
  refine .inl fun pid p hp hstopped => hnone ?_
  obtain ⟨p', hp', hpgid, hstate, _⟩ := h.adopting x pid p hp
  exact ⟨pid, p', ⟨hp', hp.2.1, hpgid, live_of_untouched hp hstate⟩, hstate.trans hstopped⟩

theorem fate_applyExit {before : ProcessTable} {rest : List Nat}
    (hlater : Later before s.table) (hunseen : Unseen s.table) (hzero : s.table.processes.get? 0 = none)
    (hpend : ∀ pid p q, before.Link pgid pid p q → p.spawnPublicationPending = false) (h : Fate after pgid (x :: rest) s) :
    Fate after pgid rest (s.applyExit x) := by
  have hmoves := s.moves_applyExit x
  rcases h with hhung | ⟨huntouched, hwhy⟩
  · obtain ⟨new, hnew⟩ := hmoves.log
    exact .inl fun pid p hp => (hhung pid p hp).mono hnew hmoves.later
  rcases s.applyExit_cases x with ⟨heq, hskip⟩ | ⟨px, hx, _, _, hreaps⟩
  · rw [heq]
    exact .inr ⟨huntouched, hwhy.imp_right (.skip hskip)⟩
  by_cases hg : pgid ∈ s.newlyOrphaned x px
  · exact .inl fun pid p hp => hungUp_applied huntouched hzero hg hreaps hp
  have hsignals := signals_orphanedGroups (s.newlyOrphaned x px) (fun _ h => h) (s.adopting x)
  have hadopted : (∀ pid p, after.Member pgid pid p → p.state ≠ .stopped) ∨
      Tied (rest ++ (s.adopting x).pendingExits) (s.adopting x).table pgid := by
    rcases hwhy with hnone | htied
    · exact .inl hnone
    rcases htied.adopting hx with htied | hchecked
    · exact .inr htied
    · exact tied_or_running hlater hunseen hpend huntouched hchecked hg _
  refine .inr ⟨hreaps.keeps (I := fun s' => Untouched after pgid s'.table) (fun hz h => h.reaped hz)
    ((huntouched.adopting x).signals hg hsignals), hadopted.imp_right fun htied => ?_⟩
  rw [hreaps.queue]
  exact hreaps.keeps (I := fun s' => Tied _ s'.table pgid) (fun hz h => h.reaped hz) (htied.signals rest hsignals)

end Applying

end Kandelo.Process
