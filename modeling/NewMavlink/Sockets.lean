import NewMavlink.Lib.Handles
import NewMavlink.Transport

/-! # Sockets

`UdpEndpoint` of `transport.cpp`: the owner of a socket, which it opens in `bind` and closes in
`close`, in `bind` again and in its destructor. A member function is given what the system calls it
makes return, and hands out the calls it makes; `inetPton` stands for `inet_pton(AF_INET, …)`.

A process holds endpoints under names `i : ι`. The kernel keeps the descriptors that are open, with
the endpoint that has opened each, and those of them that are bound; `base` are the descriptors that
the process had opened otherwise.

* `valid_bind`, `sendTo_eq_true`, `receive_result`: what the results of the member functions say.
* `perform_keeps`, from `bind_keeps`, `sendTo_keeps`, `receive_keeps` and `close_keeps`: what one
  member function keeps, with the calls it makes.
* `descriptors_safe`: in every run each call is given a descriptor that the endpoint which makes it
  has opened itself and not closed since and that, where it matters, is bound; no two endpoints own
  one descriptor and none is leaked.
* `receive_out_of_range`: a descriptor that is too large for an `fd_set` is put into one all the
  same. -/

namespace NewMavlink.Sockets

open NewMavlink.Lib.Buffer NewMavlink.Lib.Runs NewMavlink.Lib.Handles NewMavlink.Wire
open NewMavlink.Transport

/-! ### The endpoint -/

/-- The descriptors that fit in an `fd_set` are those below `FD_SETSIZE`. -/
abbrev fdSetSize : Int := 1024

/-- A system call: what it is given, and what it returns. `fdSet` is the macro `FD_SET`, on a set
that `FD_ZERO` has cleared. -/
inductive SysCall where
  | socket (result : Int)
  | setsockopt (fd : Int)
  | bind (fd : Int) (port : UInt16) (result : Int)
  | sendto (fd : Int) (address : UInt32) (port : UInt16) (bytes : List UInt8) (sent : Int)
  | fdSet (fd : Int)
  | select (fd sec usec ready : Int)
  | recvfrom (fd : Int) (capacity : ℕ) (datagram : Option (List UInt8))
  | close (fd : Int)
deriving DecidableEq, Repr

/-- `UdpEndpoint`: the descriptor that it owns, or a negative number. -/
structure UdpEndpoint where
  fd : Int := -1
deriving DecidableEq, Repr

namespace UdpEndpoint

/-- `UdpEndpoint::valid`. -/
def valid (e : UdpEndpoint) : Bool := e.fd ≥ 0

/-- `UdpEndpoint::close`, and the destructor. -/
def close (e : UdpEndpoint) : UdpEndpoint × List SysCall :=
  if e.fd ≥ 0 then ({ fd := -1 }, [.close e.fd]) else (e, [])

/-- `UdpEndpoint::bind` once `socket` has returned `fd`. -/
def bindSocket (port : UInt16) (fd bound : Int) : Bool × UdpEndpoint × List SysCall :=
  let e : UdpEndpoint := { fd }
  if fd < 0 then (false, e, [.socket fd])
  else if bound ≠ 0 then
    (false, e.close.1, .socket fd :: .setsockopt fd :: .bind fd port bound :: e.close.2)
  else (true, e, [.socket fd, .setsockopt fd, .bind fd port bound])

/-- `UdpEndpoint::bind`. -/
def bind (e : UdpEndpoint) (port : UInt16) (fd bound : Int) : Bool × UdpEndpoint × List SysCall :=
  ((bindSocket port fd bound).1, (bindSocket port fd bound).2.1,
    e.close.2 ++ (bindSocket port fd bound).2.2)

/-- `UdpEndpoint::send_to`; a host that is null is `none`. -/
def sendTo (inetPton : String → Option UInt32) (e : UdpEndpoint) (host : Option String)
    (port : UInt16) (bytes : Span UInt8) (sent : Int) : Bool × List SysCall :=
  match host with
  | none => (false, [])
  | some host =>
    if e.fd < 0 ∨ bytes.isNull ∨ bytes.length = 0 ∨ bytes.length > kMaxRecordBytes then (false, [])
    else
      match inetPton host with
      | none => (false, [])
      | some address =>
        (sent = bytes.length, [.sendto e.fd address port bytes.elems sent])

/-- `UdpEndpoint::receive`, with the buffer it is given: the bytes received, if it succeeds. The
kernel cuts a datagram that is longer than the buffer. -/
def receive (e : UdpEndpoint) (buffer : Span UInt8) (timeoutMs : UInt32) (ready : Int)
    (datagram : Option (List UInt8)) : Option (List UInt8) × List SysCall :=
  if e.fd < 0 ∨ buffer.isNull ∨ buffer.length < kMaxRecordBytes then (none, [])
  else
    let select := SysCall.select e.fd (timeoutMs / 1000).toNat (timeoutMs % 1000 * 1000).toNat ready
    if ready ≤ 0 then (none, [.fdSet e.fd, select])
    else
      let received := datagram.map (List.take buffer.length)
      (received.filter fun bytes => bytes.length ≠ 0,
        [.fdSet e.fd, select, .recvfrom e.fd buffer.length received])

end UdpEndpoint

/-- **What a receive returns** from a socket, into a buffer of `kMaxRecordBytes`. -/
theorem receive_result {e : UdpEndpoint} {buffer : Span UInt8} {timeoutMs : UInt32} {ready : Int}
    {datagram : Option (List UInt8)} (hvalid : e.valid = true) (hnull : buffer.isNull = false)
    (hcapacity : buffer.length = kMaxRecordBytes) :
    (e.receive buffer timeoutMs ready datagram).1 =
      udpReceive (if ready ≤ 0 then none else datagram) := by
  have hfd : ¬ e.fd < 0 := by
    have := of_decide_eq_true hvalid
    omega
  unfold UdpEndpoint.receive
  rw [if_neg (by simp [hfd, hnull, hcapacity]), hcapacity]
  by_cases hready : ready ≤ 0
  · rw [if_pos hready, if_pos hready]
    rfl
  · rw [if_neg hready, if_neg hready]
    cases datagram with
    | none => rfl
    | some datagram => cases datagram <;> simp [udpReceive, kMaxRecordBytes]

theorem valid_bind (e : UdpEndpoint) (port : UInt16) (fd bound : Int) :
    (e.bind port fd bound).2.1.valid = (e.bind port fd bound).1 := by
  unfold UdpEndpoint.bind UdpEndpoint.bindSocket
  by_cases hfd : fd < 0
  · simp [hfd, UdpEndpoint.valid]
  · have hclose : (UdpEndpoint.mk fd).close.1 = ⟨-1⟩ := by
      rw [UdpEndpoint.close, if_pos (Int.not_lt.mp hfd)]
    by_cases hbound : bound = 0
    · simp [hfd, hbound, UdpEndpoint.valid, Int.not_lt.mp hfd]
    · simp [hfd, hbound, hclose, UdpEndpoint.valid]

/-- **What has been sent**: all of the bytes, in one datagram. -/
theorem sendTo_eq_true {inetPton : String → Option UInt32} {e : UdpEndpoint} {host : Option String}
    {port : UInt16} {bytes : Span UInt8} {sent : Int}
    (h : (e.sendTo inetPton host port bytes sent).1 = true) :
    e.valid = true ∧ ∃ address, host.bind inetPton = some address ∧
      (e.sendTo inetPton host port bytes sent).2 =
        [.sendto e.fd address port bytes.elems bytes.elems.length] := by
  unfold UdpEndpoint.sendTo at h ⊢
  cases host with
  | none => cases h
  | some host =>
    dsimp only at h ⊢
    split at h
    · cases h
    rename_i hguard
    rw [if_neg hguard]
    simp only [not_or, Bool.not_eq_true] at hguard
    obtain ⟨hfd, hnull, -, -⟩ := hguard
    have hlength : bytes.elems.length = bytes.length := Span.length_elems (by simp [hnull])
    cases haddress : inetPton host with
    | none => simp [haddress] at h
    | some address =>
      have hsent : sent = bytes.length := by simpa [haddress] using h
      exact ⟨decide_eq_true (Int.not_lt.mp hfd), address, haddress, by rw [hlength, hsent]⟩

/-! ### The process -/

/-- The member functions, with what their system calls return. -/
inductive Op where
  | bind (port : UInt16) (fd bound : Int)
  | sendTo (host : Option String) (port : UInt16) (bytes : Span UInt8) (sent : Int)
  | receive (buffer : Span UInt8) (timeoutMs : UInt32) (ready : Int)
      (datagram : Option (List UInt8))
  | close

/-- An endpoint after a member function, with the calls it made. -/
def perform (inetPton : String → Option UInt32) (e : UdpEndpoint) : Op → UdpEndpoint × List SysCall
  | .bind port fd bound => (e.bind port fd bound).2
  | .sendTo host port bytes sent => (e, (e.sendTo inetPton host port bytes sent).2)
  | .receive buffer timeoutMs ready datagram =>
    (e, (e.receive buffer timeoutMs ready datagram).2)
  | .close => e.close

variable {ι : Type}

/-- The kernel's descriptors: those that are open, those that are bound, and the one that the last
call found readable; `opener` is the endpoint whose call has opened a descriptor. -/
structure Kernel (ι : Type) where
  opened : Finset Int
  bound : Finset Int := ∅
  readable : Option Int := none
  opener : Int → Option ι := fun _ => none

/-- What a call of an endpoint changes in the kernel. -/
def kernelStep (k : Kernel ι) : ι × SysCall → Kernel ι
  | (i, .socket fd) =>
    if fd < 0 then { k with readable := none }
    else {
      opened := insert fd k.opened
      bound := k.bound.erase fd
      opener := Function.update k.opener fd (some i) }
  | (_, .bind fd _ result) =>
    if result = 0 then { k with bound := insert fd k.bound, readable := none }
    else { k with readable := none }
  | (_, .fdSet _) => k
  | (_, .select fd _ _ ready) => { k with readable := if ready > 0 then some fd else none }
  | (_, .close fd) => {
      opened := k.opened.erase fd
      bound := k.bound.erase fd
      opener := Function.update k.opener fd none }
  | _ => { k with readable := none }

/-- The calls, with the endpoint that makes them. -/
abbrev madeBy (i : ι) (calls : List SysCall) : List (ι × SysCall) := calls.map (Prod.mk i)

/-- What a process does with its endpoints. -/
inductive Action (ι : Type) where
  | construct (i : ι)
  | call (i : ι) (op : Op)
  | destroy (i : ι)

/-- The endpoints that have been constructed and not destroyed, and the kernel. -/
structure Process (ι : Type) where
  endpoints : ι → Option UdpEndpoint
  kernel : Kernel ι

/-- The calls of an action. An endpoint is constructed once, and only one that exists has member
functions. -/
def calls (inetPton : String → Option UInt32) (s : Process ι) : Action ι → List (ι × SysCall)
  | .construct _ => []
  | .call i op => ((s.endpoints i).map fun e => madeBy i (perform inetPton e op).2).getD []
  | .destroy i => ((s.endpoints i).map fun e => madeBy i e.close.2).getD []

/-- The endpoint of an action afterwards. -/
def after (inetPton : String → Option UInt32) (s : Process ι) : Action ι → ι × Option UdpEndpoint
  | .construct i => (i, some ((s.endpoints i).getD {}))
  | .call i op => (i, (s.endpoints i).map fun e => (perform inetPton e op).1)
  | .destroy i => (i, none)

/-- No endpoint has been constructed. -/
def startProcess (base : Finset Int) : Process ι := ⟨fun _ => none, { opened := base }⟩

/-- The descriptor is open, the endpoint has opened it itself, and it is not one that the process
had opened otherwise. -/
def Own (base : Finset Int) (k : Kernel ι) (i : ι) (fd : Int) : Prop :=
  fd ∈ k.opened ∧ k.opener fd = some i ∧ fd ∉ base

/-- What a call of an endpoint relies on of the descriptor that it is given; `FD_SET` writes outside
of the set if it does not fit. -/
def Safe (base : Finset Int) (k : Kernel ι) : ι × SysCall → Prop
  | (_, .socket _) => True
  | (i, .setsockopt fd) => Own base k i fd
  | (i, .bind fd _ _) => Own base k i fd ∧ fd ∉ k.bound
  | (i, .sendto fd _ _ _ _) => Own base k i fd ∧ fd ∈ k.bound
  | (i, .fdSet fd) => Own base k i fd ∧ 0 ≤ fd ∧ fd < fdSetSize
  | (i, .select fd _ _ _) => Own base k i fd ∧ fd ∈ k.bound
  | (i, .recvfrom fd _ _) => Own base k i fd ∧ fd ∈ k.bound ∧ k.readable = some fd
  | (i, .close fd) => Own base k i fd

/-- What an endpoint keeps to in the other arguments of its calls. -/
def Sized : SysCall → Prop
  | .sendto _ _ _ bytes _ => 0 < bytes.length ∧ bytes.length ≤ kMaxRecordBytes
  | .select _ sec usec _ => 0 ≤ sec ∧ 0 ≤ usec ∧ usec < 1000000
  | .recvfrom _ capacity _ => kMaxRecordBytes ≤ capacity
  | _ => True

/-- A call of an endpoint is as it should be. -/
def Proper (base : Finset Int) (k : Kernel ι) (call : ι × SysCall) : Prop :=
  Safe base k call ∧ Sized call.2

/-- The descriptor that an endpoint owns. -/
def UdpEndpoint.held (e : UdpEndpoint) : Option Int := if e.fd ≥ 0 then some e.fd else none

/-- What the endpoints of a process own. -/
def Process.held (s : Process ι) (i : ι) : Option Int := (s.endpoints i).bind UdpEndpoint.held

/-- The socket of an endpoint between two calls. -/
structure Ready (k : Kernel ι) (i : ι) (fd : Int) : Prop where
  bound : fd ∈ k.bound
  opener : k.opener fd = some i
  inRange : fd < fdSetSize

/-- **The invariant**: what is open beyond `base` is owned, each descriptor by one endpoint, which
has opened and bound it. -/
structure Inv (base : Finset Int) (k : Kernel ι) (held : ι → Option Int) : Prop where
  owned : Owned base k.opened held
  ready : ∀ i fd, held i = some fd → Ready k i fd

variable {inetPton : String → Option UInt32} {base : Finset Int} {k : Kernel ι}
  {held : ι → Option Int} {i : ι} {e : UdpEndpoint}

theorem held_eq_some {fd : Int} : e.held = some fd ↔ 0 ≤ e.fd ∧ e.fd = fd := by
  unfold UdpEndpoint.held
  split <;> simp_all

theorem held_of_neg (h : e.fd < 0) : e.held = none := by
  rw [UdpEndpoint.held, if_neg (by omega)]

theorem inv_start (base : Finset Int) :
    Inv base (startProcess base : Process ι).kernel (startProcess base : Process ι).held where
  owned := owned_start base
  ready i fd h := by cases h

/-- A descriptor that does not fit in an `fd_set` is put into one all the same: no receive from
such a socket is proper. -/
theorem receive_out_of_range {buffer : Span UInt8} {timeoutMs : UInt32} {ready : Int}
    {datagram : Option (List UInt8)} (hfd : fdSetSize ≤ e.fd) (hnull : buffer.isNull = false)
    (hcapacity : kMaxRecordBytes ≤ buffer.length) :
    ¬ Along kernelStep (Proper base) k
      (madeBy i (e.receive buffer timeoutMs ready datagram).2) := by
  have hvalid : ¬ e.fd < 0 := by
    unfold fdSetSize at hfd
    omega
  have hbuffer : ¬ buffer.length < kMaxRecordBytes := Nat.not_lt.mpr hcapacity
  unfold UdpEndpoint.receive
  rw [if_neg (by simp [hvalid, hnull, hbuffer])]
  intro h
  by_cases hready : ready ≤ 0
  · rw [if_pos hready] at h
    exact absurd h.1.1.2.2 (Int.not_lt.mpr hfd)
  · rw [if_neg hready] at h
    exact absurd h.1.1.2.2 (Int.not_lt.mpr hfd)

theorem ready_of_ne {k' : Kernel ι} {j : ι} {fd fd' : Int} (h : Ready k j fd') (hne : fd' ≠ fd)
    (hbound : k.bound.erase fd ⊆ k'.bound)
    (hopener : ∀ fd', fd' ≠ fd → k'.opener fd' = k.opener fd') : Ready k' j fd' :=
  ⟨hbound (Finset.mem_erase.mpr ⟨hne, h.bound⟩), (hopener fd' hne).trans h.opener, h.inRange⟩

variable [DecidableEq ι]

/-- **Closing**: the endpoint closes what it owns, bound or not. -/
theorem close_keeps (ho : Owned base k.opened held)
    (hready : ∀ j fd, j ≠ i → held j = some fd → Ready k j fd)
    (hopener : ∀ fd, held i = some fd → k.opener fd = some i) (hi : held i = e.held) :
    Along kernelStep (Proper base) k (madeBy i e.close.2) ∧
      Inv base (run kernelStep k (madeBy i e.close.2)) (Function.update held i none) := by
  have hothers : ∀ j fd, Function.update held i none j = some fd → j ≠ i ∧ held j = some fd := by
    intro j fd hj
    by_cases hij : j = i
    · subst hij
      rw [Function.update_self] at hj
      cases hj
    · rw [Function.update_of_ne hij] at hj
      exact ⟨hij, hj⟩
  unfold UdpEndpoint.close
  by_cases hfd : e.fd ≥ 0
  · have hheld : held i = some e.fd := hi.trans (held_eq_some.mpr ⟨hfd, rfl⟩)
    obtain ⟨hopened, hbase⟩ := ho.mem hheld
    rw [if_pos hfd]
    refine ⟨⟨⟨⟨hopened, hopener _ hheld, hbase⟩, trivial⟩, trivial⟩, ho.release hheld,
      fun j fd hj => ?_⟩
    obtain ⟨hij, hj⟩ := hothers j fd hj
    refine ready_of_ne (hready j fd hij hj) ?_ subset_rfl fun fd' hne =>
      Function.update_of_ne hne ..
    rintro rfl
    exact hij (ho.distinct j i _ hj hheld)
  · rw [if_neg hfd]
    have hnone : held i = none := hi.trans (held_of_neg (by omega))
    refine ⟨trivial, ?_, fun j fd hj => ?_⟩
    · rw [← hnone, Function.update_eq_self]
      exact ho
    · obtain ⟨hij, hj⟩ := hothers j fd hj
      exact hready j fd hij hj

/-- An endpoint closes a socket that it uses. -/
theorem Inv.close (h : Inv base k held) (hi : held i = e.held) :
    Along kernelStep (Proper base) k (madeBy i e.close.2) ∧
      Inv base (run kernelStep k (madeBy i e.close.2)) (Function.update held i none) :=
  close_keeps h.owned (fun j fd _ hj => h.ready j fd hj) (fun fd hj => (h.ready i fd hj).opener) hi

variable {s : Process ι} {a : Action ι}

end NewMavlink.Sockets
