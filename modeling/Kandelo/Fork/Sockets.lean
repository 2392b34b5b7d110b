/-
Sockets in a fork record. The encoder checks every bound the decoder has, so a socket
that is written is read: `carries_sockets` puts no condition on the reader.
-/
import Kandelo.Fork.Parts

namespace Kandelo.Fork

open Fd Memory Signal Process Wire Carries

/-! ## Bounded parts -/

variable {max : Nat}

theorem carries_boundedLen {n : Nat} (hmax : max < 2 ^ 32) :
    Carries 4 (writeBoundedLen n max) (readBoundedCount max) (n ≤ max) True n := by
  refine (Carries.check (c := True) fun hn => ?_).congr (by simp) fun _ => Iff.rfl
  have hle := of_decide_eq_true hn
  exact (boundedCount (lt_of_le_of_lt hle hmax) max).congr Iff.rfl fun _ => iff_of_true hle trivial

theorem carries_boundedList {α : Type} {put : α → Encoder} {get : Decoder α} {n : Nat} {c : α → Prop} {xs : List α}
    (hmax : max < 2 ^ 32) (h : ∀ x ∈ xs, Carries n (put x) get (c x) True x) :
    Carries 4 (writeBoundedList put xs max) (readBoundedList get n max) (xs.length ≤ max ∧ ∀ x ∈ xs, c x) True xs := by
  refine .least (n := 4 + xs.length * n) ?_ (Nat.le_add_right 4 _)
  refine ((carries_boundedLen hmax).seq (.ensure ?_ (by omega))).congr Iff.rfl fun _ => iff_of_eq (and_true True)
  exact (Carries.same h).allocate.least (by omega)

/-- A string in the encoder's bound. -/
theorem carries_boundedString {s : Bytes} (hmax : max < 2 ^ 32) :
    Carries 0 (writeBoundedString s max) (readBoundedString max) (s.length ≤ max) True s := by
  have hdata := ((carries_boundedBytes s max).finish (f := fun data => allocate .ENOMEM >>= fun _ => pure data)
    (Carries.done s).allocate).least (m := 0 - 4) (Nat.zero_le _)
  refine ((carries_boundedLen hmax).seq hdata).congr (iff_of_eq (and_true _)) fun h => ?_
  exact iff_of_true ⟨trivial, h.1⟩ trivial

theorem carries_optionString (string : Option Bytes) (hmax : max < 2 ^ 32 - 1) :
    Carries 0 (writeOptionString string max) (readOptionString max) (∀ s ∈ string, s.length ≤ max) True string := by
  cases string with
  | none =>
    simp only [Option.not_mem_none, false_implies, implies_true]
    exact ((small (n := 0xFFFFFFFF) (by omega)).finish (.done none)).least (Nat.zero_le _)
  | some s =>
    change Carries 0 ((Wire.check .EINVAL (decide (s.length ≤ max)) >>= fun _ => writeUsize s.length) >>= fun _ => writeBytes s) _ _ _ _
    rw [bind_assoc]
    refine (Carries.check (c := True) fun hs => ?_).congr (by simp) fun _ => Iff.rfl
    have hle := of_decide_eq_true hs
    refine (small (by omega)).next ?_
    rw [if_neg (by omega)]
    exact (((carries_boundedBytes s max).finish (Carries.done (some s)).allocate).congr Iff.rfl
      fun _ => iff_of_true hle trivial).least (Nat.zero_le _)

/-! ## A socket -/

/-- The bounds the encoder checks. -/
structure SocketInfo.Bounded (s : SocketInfo) : Prop where
  options : s.options.length ≤ maxSocketOptions
  bindPath : ∀ path ∈ s.bindPath, path.length ≤ maxPathLen
  bindDevice : ∀ device ∈ s.bindDevice, device.length ≤ maxSocketStringLen
  congestion : s.tcpCongestion.length ≤ maxSocketStringLen
  memberships : s.ipv4MulticastMemberships.length ≤ maxIpv4MulticastMemberships
  sources : ∀ m ∈ s.ipv4MulticastMemberships,
    m.blockedSources.length ≤ maxIpv4MulticastSources ∧ m.includedSources.length ≤ maxIpv4MulticastSources

theorem carries_option (o : UInt32 × UInt32 × UInt32) : Carries 12 (writeOption o) readOption True True o :=
  (u32 _).next ((u32 _).next (((u32 _).last _).least (by omega)))

theorem carries_sourceList (sources : List Ipv4Addr) :
    Carries 4 (writeIpv4SourceList sources) readIpv4SourceList (sources.length ≤ maxIpv4MulticastSources) True sources := by
  refine (carries_boundedList (by decide) fun source _ => carries_array source).congr ?_ fun _ => Iff.rfl
  exact and_iff_left fun _ _ => trivial

theorem carries_membership (m : Ipv4MulticastMembership) : Carries 20 (writeMembership m) readMembership
      (m.blockedSources.length ≤ maxIpv4MulticastSources ∧ m.includedSources.length ≤ maxIpv4MulticastSources) True m := by
  refine (carries_array _).next ((carries_array _).next ((carries_bool _).next ?_))
  refine ((carries_sourceList _).seq ?_).congr Iff.rfl fun _ => iff_of_eq (and_true True)
  exact ((carries_sourceList _).last _).least (by omega)

theorem carries_peerCred (cred : Option PeerCred) : Carries 0 (writePeerCred cred) readPeerCred True True cred := by
  cases cred with
  | none => exact ((u32 0).finish (.done none)).least (Nat.zero_le _)
  | some cred =>
    exact (u32 1).next ((u32 _).next ((u32 _).next (((u32 _).last _).least (Nat.zero_le _))))

/-- An index as it comes back: `0xFFFFFFFF` is none. -/
def childIndex (index : Option Nat) : Option Nat :=
  if asU32 (index.getD 0xFFFFFFFF) = 0xFFFFFFFF then none else some (asU32 (index.getD 0xFFFFFFFF))

theorem carries_index (index : Option Nat) : Carries 4 (writeIndex index) readIndex True True (childIndex index) :=
  (usize _).last _

/-- A connection in the making is closed. -/
def childState : SocketState → SocketState
  | .connecting => .closed
  | state => state

theorem u32ToSocketState_socketStateToU32 (state : SocketState) :
    u32ToSocketState (socketStateToU32 state) = .ok (childState state) := by
  cases state <;> rfl

theorem u32ToDomain_domainToU32 (domain : SocketDomain) : u32ToDomain (domainToU32 domain) = .ok domain := by
  cases domain <;> rfl

theorem u32ToSockType_sockTypeToU32 (sockType : SocketType) : u32ToSockType (sockTypeToU32 sockType) = .ok sockType := by
  cases sockType <;> rfl

/-- The source address of a datagram socket; zero is none. -/
def childSource (addr : Option Ipv4Addr) : Option Ipv4Addr :=
  if asU32 ((addr.map ofBe).getD 0) = 0 then none else some (toBe (asU32 ((addr.map ofBe).getD 0)))

/-- The bounds of the fields `writeDurableSocketState` writes. -/
abbrev SocketInfo.DurableBounds (s : SocketInfo) : Prop :=
  (∀ device ∈ s.bindDevice, device.length ≤ maxSocketStringLen) ∧ s.tcpCongestion.length ≤ maxSocketStringLen ∧
    (s.ipv4MulticastMemberships.length ≤ maxIpv4MulticastMemberships ∧ ∀ m ∈ s.ipv4MulticastMemberships,
      m.blockedSources.length ≤ maxIpv4MulticastSources ∧ m.includedSources.length ≤ maxIpv4MulticastSources) ∧ True

theorem carries_durable (s base : SocketInfo) : Carries 0 (writeDurableSocketState s) (readDurableSocketState base)
      s.DurableBounds (True ∧ True ∧ True ∧ True)
      { base with
        bindAddr6 := s.bindAddr6, peerAddr6 := s.peerAddr6, lingerOnoff := s.lingerOnoff, lingerSeconds := s.lingerSeconds
        recvTimeoutUs := s.recvTimeoutUs, sendTimeoutUs := s.sendTimeoutUs, bindDevice := s.bindDevice
        tcpCongestion := s.tcpCongestion, ipv4MulticastMemberships := s.ipv4MulticastMemberships, peerCred := s.peerCred
        udpSourceAddr := childSource s.udpSourceAddr } := by
  refine (carries_array _).next ((carries_array _).next ((i32 _).next ((i32 _).next ?_)))
  refine (u64 _).next ((u64 _).next ?_)
  refine (carries_optionString _ (by decide)).seq ?_
  refine (carries_boundedString (by decide)).seq ?_
  refine (carries_boundedList (by decide) fun m _ => carries_membership m).seq ?_
  exact (carries_peerCred _).next (((usize _).last _).least (Nat.zero_le _))

/-- The handle of a host connection as it is written. -/
def handleWord (handle : Option Int32) : UInt32 := (handle.map Int32.toUInt32).getD 0xFFFFFFFF

/-- The socket a child has for the parent's. -/
def SocketInfo.child (s : SocketInfo) : SocketInfo :=
  { s with
    state := childState s.state
    peerIdx := childIndex s.peerIdx
    recvBufIdx := childIndex s.recvBufIdx
    sendBufIdx := childIndex s.sendBufIdx
    hostNetHandle := if handleWord s.hostNetHandle = 0xFFFFFFFF then none else some (handleWord s.hostNetHandle).toInt32
    sharedBacklogIdx := childIndex s.sharedBacklogIdx
    acceptWakeIdx := if s.acceptWakeIdx.getD 0xFFFFFFFF = 0xFFFFFFFF then none else some (s.acceptWakeIdx.getD 0xFFFFFFFF)
    udpSourceAddr := childSource s.udpSourceAddr }

theorem boolU32_ne_zero (b : Bool) : decide (boolU32 b ≠ 0) = b := by
  cases b <;> rfl

/-- A socket in its bounds, at slot `idx` of a table of `totalSlots`. -/
theorem carries_socket {e : Nat × SocketInfo} {totalSlots : Nat} {t : SocketTable} {seen : List Nat} (hidx : e.1 < totalSlots)
    (hslots : totalSlots < 2 ^ 32) (hnew : e.1 ∉ seen) :
    Carries 0 (writeSocket e) (readSocket totalSlots (t, seen)) e.2.Bounded True (t.insertAt e.1 e.2.child, e.1 :: seen) := by
  obtain ⟨idx, s⟩ := e
  have hbits : ∀ port : UInt16, port.toUInt32.toUInt16 = port := UInt16.toUInt16_toUInt32
  unfold writeSocket readSocket readSocketBody
  simp only [bind_assoc]
  refine .congr (c := (s.options.length ≤ maxSocketOptions ∧ ∀ o ∈ s.options, True) ∧
      (∀ path ∈ s.bindPath, path.length ≤ maxPathLen) ∧ s.DurableBounds)
    (d := True ∧ True ∧ True ∧ True ∧ True ∧ True) ?_ ?_ fun _ => by simp
  rotate_left
  · exact ⟨fun ⟨⟨h1, _⟩, h2, h3, h4, ⟨h5, h6⟩, _⟩ => ⟨h1, h2, h3, h4, h5, h6⟩,
      fun ⟨h1, h2, h3, h4, h5, h6⟩ => ⟨⟨h1, fun _ _ => trivial⟩, h2, h3, h4, ⟨h5, h6⟩, trivial⟩⟩
  refine (small (lt_trans hidx hslots)).next (.required ?_ fun _ => decide_eq_true ⟨hidx, hnew⟩)
  refine (u32 _).next ?_
  rw [u32ToDomain_domainToU32, lift, pure_bind]
  refine (u32 _).next ?_
  rw [u32ToSockType_sockTypeToU32, lift, pure_bind]
  refine (u32 _).next ((u32 _).next ?_)
  rw [u32ToSocketState_socketStateToU32, lift, pure_bind]
  refine (carries_index _).next ((carries_index _).next ((carries_index _).next ?_))
  refine (u32 (boolU32 s.shutRd)).next ((u32 (boolU32 s.shutWr)).next ((u32 _).next ?_))
  refine (carries_boundedList (by decide) fun o _ => carries_option o).seq ?_
  refine (carries_array _).next ((u32 _).next ((carries_array _).next ((u32 _).next ?_)))
  -- the backlog that is always empty
  refine (small (n := 0) (by decide)).next (.required ?_ fun _ => decide_eq_true (Nat.zero_le _))
  refine .ensure ?_ (Nat.zero_le _)
  rw [readMany, pure_bind]
  refine .allocate ?_
  refine (u32 (boolU32 s.globalPipes)).next ((carries_index _).next ?_)
  refine (carries_optionString _ (by decide)).seq ((u32 _).next ?_)
  rw [boolU32_ne_zero, boolU32_ne_zero, boolU32_ne_zero, hbits, hbits]
  exact ((carries_durable s _).finish (Carries.done (t.insertAt idx s.child, idx :: seen)).allocate).least (Nat.zero_le _)

/-! ## The table -/

theorem SocketTable.iter_index {e : Option SocketInfo × Nat} {y : Nat × SocketInfo}
    (h : (e.1.map fun socket => (e.2, socket)) = some y) : y.1 = e.2 := by
  obtain ⟨socket, _, rfl⟩ := Option.map_eq_some_iff.mp h
  rfl

/-- The slots of the sockets that are written, one socket after another. -/
def childSockets (sockets : SocketTable) : SocketTable :=
  (sockets.iter.foldl (fun s e => (s.1.insertAt e.1 e.2.child, e.1 :: s.2)) (SocketTable.new, ([] : List Nat))).1

theorem carries_sockets (sockets : SocketTable) : Carries 0 (writeSockets sockets) readSockets
      (sockets.entries.length ≤ maxSocketSlots ∧ ∀ e ∈ sockets.iter, e.2.Bounded) True (childSockets sockets) := by
  have hcount : sockets.iter.length ≤ sockets.entries.length := by
    have h := List.length_filterMap_le (fun e : Option SocketInfo × Nat => e.1.map fun socket => (e.2, socket)) sockets.entries.zipIdx
    rwa [List.length_zipIdx] at h
  refine (Carries.check fun hslots => ?_).congr (and_congr_left fun _ => decide_eq_true_iff) fun _ => Iff.rfl
  have hle := of_decide_eq_true hslots
  have hmax : maxSocketSlots < 2 ^ 32 := by decide
  have hstep : ∀ (s : SocketTable × List Nat) (e : Nat × SocketInfo) (rest : List (Nat × SocketInfo)),
      (∀ y ∈ e :: rest, y.1 < sockets.entries.length ∧ y.1 ∉ s.2) ∧ ((e :: rest).map (·.1)).Nodup →
      Carries 0 (writeSocket e) (readSocket sockets.entries.length s) e.2.Bounded True (s.1.insertAt e.1 e.2.child, e.1 :: s.2) ∧
        (∀ y ∈ rest, y.1 < sockets.entries.length ∧ y.1 ∉ e.1 :: s.2) ∧ (rest.map (·.1)).Nodup := by
    intro s e rest hI
    obtain ⟨hlt, hnew⟩ := hI.1 e List.mem_cons_self
    obtain ⟨hother, hrest⟩ := List.nodup_cons.mp hI.2
    refine ⟨carries_socket hlt (lt_of_le_of_lt hle hmax) hnew, fun y hy => ?_, hrest⟩
    obtain ⟨hylt, hynew⟩ := hI.1 y (List.mem_cons_of_mem e hy)
    refine ⟨hylt, fun hmem => ?_⟩
    rcases List.mem_cons.mp hmem with heq | hmem
    · exact hother (List.mem_map.mpr ⟨y, hy, heq⟩)
    · exact hynew hmem
  have hstart : (∀ y ∈ sockets.iter, y.1 < sockets.entries.length ∧ y.1 ∉ ([] : List Nat)) ∧ (sockets.iter.map (·.1)).Nodup :=
    ⟨fun y hy => ⟨slots_lt (fun _ _ => SocketTable.iter_index) hy, List.not_mem_nil⟩,
      slots_nodup (fun _ _ => SocketTable.iter_index) sockets.entries⟩
  have hloop := Carries.loop (fun s e => (s.1.insertAt e.1 e.2.child, e.1 :: s.2)) sockets.iter
    (I := fun s rest => (∀ y ∈ rest, y.1 < sockets.entries.length ∧ y.1 ∉ s.2) ∧ (rest.map (·.1)).Nodup) hstep
    (s := (SocketTable.new, [])) hstart
  refine (small (lt_of_le_of_lt hle hmax)).next
    ((small (lt_of_le_of_lt (le_trans hcount hle) hmax)).next ?_)
  exact Carries.required ((hloop.read.last _).least (Nat.zero_le _)) fun _ => decide_eq_true ⟨hle, hcount⟩

end Kandelo.Fork
