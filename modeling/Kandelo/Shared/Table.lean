/-
`SharedMappingTable`: every process's shared mappings, the backings behind them,
and the protocol that keeps them in step. This module has the table and the SysV
half: attachments of segments the kernel owns, each a private copy in the
process's memory with a snapshot of what it last saw.

A walk over the entries of a process by `next_after` is a walk over its addresses:
no step of it adds or removes one.
-/
import Kandelo.Shared.FileBacking

namespace Kandelo.Shared

structure SysvShmMapping where
  segId : Int
  size : Nat
  readOnly : Bool
  snapshot : Nat → UInt8
  -- versions are `u64`: fewer than 2^64 changes
  seenVersion : Nat

structure SharedMappingTable where
  sysv : OrdMap UInt32 (OrdMap Nat SysvShmMapping)
  sysvVersions : OrdMap Int Nat

namespace SharedMappingTable

def new : SharedMappingTable := ⟨OrdMap.empty, OrdMap.empty⟩

def sysvMapping (t : SharedMappingTable) (pid : UInt32) (addr : Nat) : Option SysvShmMapping :=
  (t.sysv.get? pid).bind (·.get? addr)

def sysvSegmentVersion (t : SharedMappingTable) (segId : Int) : Nat := (t.sysvVersions.get? segId).getD 0

/-- The attach addresses of a process, in order. -/
def sysvAddrs (t : SharedMappingTable) (pid : UInt32) : List Nat := ((t.sysv.get? pid).map fun m => m.entries.map (·.1)).getD []

def setSysvMapping (t : SharedMappingTable) (pid : UInt32) (addr : Nat) (m : SysvShmMapping) : SharedMappingTable :=
  { t with sysv := t.sysv.insert pid (((t.sysv.get? pid).getD OrdMap.empty).insert addr m) }

/-! ## SysV attachments -/

def trackSysvMapping (t : SharedMappingTable) (pid : UInt32) (mapAddr : Nat) (segId : Int) (size : Nat) (readOnly : Bool)
    (io : Io) : Except Errno Unit × SharedMappingTable × Io :=
  if (t.sysvMapping pid mapAddr).isSome then (.error .EEXIST, t, io)
  else
    -- an entry for the version, unless the segment has one
    let v := if t.sysvVersions.contains segId then (true, io) else io.alloc
    if !v.1 then (.error .ENOMEM, t, v.2)
    else
      let a := v.2.alloc
      if !a.1 then (.error .ENOMEM, t, a.2)
      else
        match a.2.shmRead segId 0 size with
        | .error e => (.error e, t, a.2)
        | .ok snapshot =>
          let seenVersion := t.sysvSegmentVersion segId
          -- an entry for the process, unless it has one, and one for the attachment
          let p := if t.sysv.contains pid then (true, a.2) else a.2.alloc
          if !p.1 then (.error .ENOMEM, t, p.2)
          else
            let e := p.2.alloc
            if !e.1 then (.error .ENOMEM, t, e.2)
            else
              let w := e.2.writeProcess pid mapAddr size snapshot
              match w.1 with
              | .error err => (.error err, t, w.2)
              | .ok () =>
                let t' := if t.sysvVersions.contains segId then t
                  else { t with sysvVersions := t.sysvVersions.insert segId 0 }
                (.ok (), t'.setSysvMapping pid mapAddr ⟨segId, size, readOnly, snapshot, seenVersion⟩, w.2)

def hasPeerSysvMapping (t : SharedMappingTable) (pid : UInt32) (mapAddr : Nat) (segId : Int) : Bool :=
  t.sysv.entries.any fun p => p.2.entries.any fun e => e.2.segId == segId && !(p.1 == pid && e.1 == mapAddr)

/-- What the publication of an attachment has reached: whether a write failed,
whether anything was published, and the segment's bytes as they are now. -/
structure SysvPublication where
  success : Bool
  published : Bool
  authoritative : Nat → UInt8
  io : Io

/-- The changed runs of one chunk of the attachment, from `cursor` on. -/
def publishSysvChunk (segId : Int) (offset chunk : Nat) (src snap : Nat → UInt8) (cursor : Nat) (p : SysvPublication) :
    SysvPublication :=
  match _h : nextChangedRun chunk src snap chunk cursor with
  | none => p
  | some (start, stop) =>
    let w := p.io.shmWrite segId (offset + start) (stop - start) fun k => src (start + k)
    match w.1 with
    | .error _ => { p with success := false, io := w.2 }
    | .ok () =>
      publishSysvChunk segId offset chunk src snap stop
        { success := p.success
          published := true
          authoritative := Io.splice p.authoritative (offset + start) (stop - start) fun k => src (start + k)
          io := w.2 }
termination_by chunk - cursor
decreasing_by
  have := nextChangedRun_some _h
  omega

/-- The chunks of the attachment, from `offset` on; a write that fails ends it. -/
def publishSysvRuns (segId : Int) (size : Nat) (current snapshot : Nat → UInt8) (offset : Nat) (p : SysvPublication) :
    SysvPublication :=
  if _h : offset < size then
    let chunk := min filePageSize (size - offset)
    let src := fun k => current (offset + k)
    let snap := fun k => snapshot (offset + k)
    let p' := if rangeDiffersFromSnapshot chunk src snap then publishSysvChunk segId offset chunk src snap 0 p else p
    if p'.success then publishSysvRuns segId size current snapshot (offset + filePageSize) p' else p'
  else p
termination_by size - offset
decreasing_by
  simp only [filePageSize]
  omega

def mergeAndRefreshSysvMapping (t : SharedMappingTable) (pid : UInt32) (mapAddr : Nat) (io : Io) : Bool × SharedMappingTable × Io :=
  match t.sysvMapping pid mapAddr with
  | none => (true, t, io)
  | some mapping =>
    let currentVersion := t.sysvSegmentVersion mapping.segId
    let a := io.alloc
    if !a.1 then (false, t, a.2)
    else
      let r := a.2.readProcess pid mapAddr
      match r.1 with
      | .error _ => (false, t, r.2)
      | .ok current =>
        let locallyChanged := !mapping.readOnly && rangeDiffersFromSnapshot mapping.size current mapping.snapshot
        if !locallyChanged && mapping.seenVersion == currentVersion then (true, t, r.2)
        else
          let b := r.2.alloc
          if !b.1 then (false, t, b.2)
          else
            match b.2.shmRead mapping.segId 0 mapping.size with
            | .error _ => (false, t, b.2)
            | .ok authoritative =>
              let start : SysvPublication := ⟨true, false, authoritative, b.2⟩
              let p := if locallyChanged then publishSysvRuns mapping.segId mapping.size current mapping.snapshot 0 start
                else start
              let t' := if p.published then
                  { t with sysvVersions := t.sysvVersions.insert mapping.segId (currentVersion + 1) }
                else t
              let w := p.io.writeProcess pid mapAddr mapping.size p.authoritative
              match w.1 with
              | .error _ => (false, t', w.2)
              | .ok () =>
                (p.success, t'.setSysvMapping pid mapAddr { mapping with
                  snapshot := p.authoritative
                  seenVersion := t'.sysvSegmentVersion mapping.segId }, w.2)

/-- Every attachment of one process in turn; a sole observer that is current is
left for later unless it is forced. -/
def syncSysvAddrs (pid : UInt32) (force : Bool) : List Nat → Bool → SharedMappingTable → Io → Bool × SharedMappingTable × Io
  | [], success, t, io => (success, t, io)
  | mapAddr :: addrs, success, t, io =>
    match t.sysvMapping pid mapAddr with
    | none => syncSysvAddrs pid force addrs success t io
    | some mapping =>
      if !force && !t.hasPeerSysvMapping pid mapAddr mapping.segId &&
          mapping.seenVersion == t.sysvSegmentVersion mapping.segId then
        syncSysvAddrs pid force addrs success t io
      else
        let r := t.mergeAndRefreshSysvMapping pid mapAddr io
        syncSysvAddrs pid force addrs (success && r.1) r.2.1 r.2.2

def syncSysvFromProcess (t : SharedMappingTable) (pid : UInt32) (force : Bool) (io : Io) : Bool × SharedMappingTable × Io :=
  syncSysvAddrs pid force (t.sysvAddrs pid) true t io

/-- The attachments of one process to `segId`. -/
def syncSegmentAddrs (segId : Int) (pid : UInt32) : List Nat → SharedMappingTable → Io → SharedMappingTable × Io
  | [], t, io => (t, io)
  | addr :: addrs, t, io =>
    match t.sysvMapping pid addr with
    | none => syncSegmentAddrs segId pid addrs t io
    | some mapping =>
      if mapping.segId = segId then
        let r := t.mergeAndRefreshSysvMapping pid addr io
        syncSegmentAddrs segId pid addrs r.2.1 r.2.2
      else syncSegmentAddrs segId pid addrs t io

def syncSegmentPids (segId : Int) : List UInt32 → SharedMappingTable → Io → SharedMappingTable × Io
  | [], t, io => (t, io)
  | pid :: pids, t, io =>
    let r := syncSegmentAddrs segId pid (t.sysvAddrs pid) t io
    syncSegmentPids segId pids r.1 r.2

def syncSysvSegmentFromAttached (t : SharedMappingTable) (segId : Int) (io : Io) : SharedMappingTable × Io :=
  syncSegmentPids segId (t.sysv.entries.map (·.1)) t io

def syncSysvMapping (t : SharedMappingTable) (pid : UInt32) (mapAddr : Nat) (io : Io) : Bool × SharedMappingTable × Io :=
  t.mergeAndRefreshSysvMapping pid mapAddr io

/-- The version of a segment nobody is attached to is forgotten. -/
def reclaimSysvVersion (t : SharedMappingTable) (segId : Int) : SharedMappingTable :=
  if t.sysv.entries.any fun p => p.2.entries.any fun e => e.2.segId == segId then t
  else { t with sysvVersions := t.sysvVersions.erase segId }

def dropSysvMapping (t : SharedMappingTable) (pid : UInt32) (mapAddr : Nat) : Bool × SharedMappingTable :=
  match t.sysv.get? pid with
  | none => (false, t)
  | some pidMap =>
    let rest := pidMap.erase mapAddr
    let t' := { t with sysv := if rest.entries.isEmpty then t.sysv.erase pid else t.sysv.insert pid rest }
    match pidMap.get? mapAddr with
    | none => (false, t')
    | some mapping => (true, t'.reclaimSysvVersion mapping.segId)

def releaseAllSysvForProcess (t : SharedMappingTable) (pid : UInt32) (publish : Bool) (io : Io) : SharedMappingTable × Io :=
  let r := if publish then (t.syncSysvFromProcess pid true io).2 else (t, io)
  match r.1.sysv.get? pid with
  | none => r
  | some removed =>
    (removed.values.foldl (fun t mapping => t.reclaimSysvVersion mapping.segId) { r.1 with sysv := r.1.sysv.erase pid }, r.2)

end SharedMappingTable

end Kandelo.Shared
