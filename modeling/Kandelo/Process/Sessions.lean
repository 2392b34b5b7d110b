/-
Process groups within sessions, over whole runs of the kernel: `groups_within_sessions`.

Exits and what the parent is told of a child put nobody into a group (`Keeps`), so what is
left are the calls of the table.
-/
import Kandelo.Process.Orphans

namespace Kandelo.Process.ProcessTable

variable {t t' : ProcessTable}

theorem Keeps.of_later (h : Later t t') : Keeps t t' := by
  intro pid p' hp'
  obtain ⟨p, hp, hpgid, hsid, hlive, _, _, hleader⟩ := h.back pid p' hp'
  exact ⟨p, hp, hlive, hpgid.symm, hsid.symm, hleader.symm⟩

theorem keeps_publishSpawnChild (t : ProcessTable) (parentPid childPid : Nat) : Keeps t (publishSpawnChild t parentPid childPid).2 := by
  simp only [publishSpawnChild]
  split
  · exact .refl t
  rename_i child hchild
  split_ifs
  iterate 4 exact .refl t
  exact keeps_rewrite (.refl t) hchild id ⟨rfl, rfl, rfl⟩

/-- Of the kernel's calls, those of the table that put a process where it does not fit. -/
def JobIntrudes (t : ProcessTable) : JobCall → Prop
  | .table c => t.Intrudes c
  | _ => False

theorem callJob_sound (hsettled : Settled t) (h : t.Sound) {c : JobCall} (hc : ¬t.JobIntrudes c) : (callJob t c).2.Sound := by
  cases c with
  | table c => exact call_sound hsettled.ids h hc
  | publishSpawnChild parentPid childPid => exact h.keeps (keeps_publishSpawnChild t parentPid childPid)
  | exits signals batch =>
    obtain ⟨s, hs, hongoing, _⟩ := applied_some hsettled signals batch
    simp only [callJob, hs, Option.map_some]
    exact h.keeps (.of_later hongoing.later)

/-- Along any run from the empty table in which no call puts a process where it does
not fit, the live processes of a group are of one session and every session leader is
in its own group. -/
theorem groups_within_sessions {cs : List JobCall} (hcs : ∀ x ∈ Machine.steps callJob new cs, ¬JobIntrudes x.1 x.2) :
    (Machine.run callJob new cs).Sound :=
  (Machine.run_keeps (I := fun t => Settled t ∧ t.Sound) (fun t c => ¬t.JobIntrudes c)
    (fun _ c hc h => ⟨settled_call h.1 c, callJob_sound h.1 h.2 hc⟩) cs ⟨settled_new, .new⟩ hcs).2

/-- A process forks and its child starts a session. -/
def startsSession : List JobCall :=
  [.table (.createProcess readily), .table (.fork 100 false ⟨true, .ok (), true, fun _ => false, .ok ()⟩), .table (.setsid 101)]

theorem groups_within_sessions_startsSession : (Machine.run callJob new startsSession).Sound := by
  refine groups_within_sessions fun x hx => ?_
  simp only [startsSession, Machine.steps, List.mem_cons, List.not_mem_nil, or_false] at hx
  rcases hx with rfl | rfl | rfl
  · rintro (⟨-, -, hforeign⟩ | ⟨-, -, -, pid, hpid, hforeign⟩)
    · exact absurd hforeign (by decide +kernel)
    · cases hpid.symm.trans (show _ = .ok 100 by decide +kernel)
      exact absurd hforeign (by decide +kernel)
  · exact id
  · rintro ⟨p, -, -, -, hforeign⟩
    exact absurd hforeign (by decide +kernel)

/-- A process forks, its child starts a session, and the parent moves itself into
the child's group: nothing asks which session that group is in. -/
def joinsForeignGroup : List JobCall :=
  [.table (.createProcess readily), .table (.fork 100 false ⟨true, .ok (), true, fun _ => false, .ok ()⟩),
    .table (.setsid 101), .table (.setpgid 100 0 101)]

theorem shares_group_across_sessions : ¬(Machine.run callJob new joinsForeignGroup).Sound := by
  intro h
  have hparent : (Machine.run callJob new joinsForeignGroup).processes.get? 100 =
      some ⟨0, 101, 0, false, .running, false, false, false, false⟩ := by decide +kernel
  have hchild : (Machine.run callJob new joinsForeignGroup).processes.get? 101 =
      some ⟨100, 101, 101, true, .running, false, false, false, false⟩ := by decide +kernel
  exact absurd ((h 100 _ hparent).2 rfl 101 _ hchild (by decide) rfl rfl) (by decide)

end Kandelo.Process.ProcessTable
