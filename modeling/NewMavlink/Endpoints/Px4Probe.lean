import NewMavlink.Lib.Programs
import NewMavlink.Mavlink2Decoders
import NewMavlink.Sockets

/-! # The flight controller's probe

`main` of `px4_adapter_probe.cpp`: it sends a heartbeat and a command to the flight controller, and
listens for the acknowledgement until a deadline. `main` up to the loop is given what its system
calls return (`Setup`), a round of the loop the clock readings, what `select` and `recvfrom` return.
What it does is a list of events: the system calls it makes, the acknowledgements that
`decode_command_ack` finds for it, and what it prints.

* `started_start`: what holds when the loop begins, or if it does not.
* `running_round`: what a round keeps.
* `probe_exact`: in every run the descriptors are used properly, the socket is closed when `main`
  returns, no call is made for a command that is not allowed, the acknowledgements are those that
  the datagrams complete one after another, and the exit code says what was printed and found. -/

namespace NewMavlink.Endpoints.Px4Probe

open NewMavlink.Lib.Buffer NewMavlink.Lib.Runs NewMavlink.Lib.Programs NewMavlink.Codecs
open NewMavlink.Mavlink2Adapter NewMavlink.Mavlink2Decoders
open NewMavlink.Sockets hiding calls after

/-- What is printed: `REJECT=PASS`, `ACK=TIMEOUT_OR_INVALID` and `ACK=PASS`. -/
inductive Report where
  | reject (command : UInt16)
  | timeoutOrInvalid (command : UInt16)
  | pass (command : UInt16) (status : UInt8)
deriving DecidableEq, Repr

/-- What `main` does. -/
inductive Event where
  | call (c : SysCall)
  | heard (ack : CommandAck)
  | print (report : Report)
deriving DecidableEq

/-- The system calls of a list of events. -/
def calls (log : List Event) : List SysCall :=
  log.filterMap fun
    | .call c => some c
    | _ => none

/-- The acknowledgements. -/
def answers (log : List Event) : List CommandAck :=
  log.filterMap fun
    | .heard ack => some ack
    | _ => none

/-- The reports. -/
def printed (log : List Event) : List Report :=
  log.filterMap fun
    | .print report => some report
    | _ => none

/-- The datagrams that are received. -/
def received (log : List Event) : List (List UInt8) :=
  (calls log).filterMap fun
    | .recvfrom _ _ datagram => datagram.filter fun bytes => bytes.length ≠ 0
    | _ => none

/-- The datagrams that are sent. -/
def datagrams (log : List Event) : List (List UInt8) :=
  (calls log).filterMap fun
    | .sendto _ _ _ bytes _ => some bytes
    | _ => none

/-- The arguments of `main`, and what its calls return before the loop; `now` is a reading of
`steady_clock` in nanoseconds. -/
structure Setup where
  localPort : UInt16 := 14540
  px4Port : UInt16 := 14580
  command : UInt16 := 400
  fd : Int
  bound : Int
  heartbeatSent : Int
  commandSent : Int
  now : Int

/-- What `main` keeps from round to round; `channel` is the state of `MAVLINK_COMM_0`. -/
structure Probe (Channel : Type) where
  fd : Int
  deadline : Int
  channel : Channel

/-- The inputs of one round: two readings of the clock, and what the calls return. -/
structure Round where
  now : Int
  later : Int
  ready : Int
  datagram : Option (List UInt8)

/-- `INADDR_LOOPBACK`. -/
abbrev loopback : UInt32 := 0x7F000001

section Main
variable {Channel Message : Type} (M : Mavlink Message) (heartbeat : Message)
  (R : Reader Channel Message) (command : UInt16)

/-- The heartbeat in the buffer; `heartbeat` is what `mavlink_msg_heartbeat_pack` makes. -/
def heartbeatBytes : List UInt8 :=
  let (length, buffer) := M.msgToSendBuffer (List.Vector.replicate _ 0) heartbeat
  buffer.toList.take length.toNat

/-- `request`. The first argument is `1.0F` for the command 400. -/
def request : CommandRequest where
  requestId := 1
  commandId := command
  deadlineMs := 3000
  argCount := 1
  args := ⟨[if command = 400 then 0x3F800000 else 0, 0, 0, 0, 0, 0, 0], rfl⟩

/-- The frame of the request, if it can be encoded. -/
def frame : Bool × MavlinkFrame := encodeCommandLong M (request command) 255 190 1 1 {}

/-- The bytes of the frame. -/
def commandBytes : List UInt8 := (frame M command).2.bytes.toList.take (frame M command).2.length

/-- `main` up to the loop. -/
def start (x : Setup) (channel : Channel) : List Event × Program (Probe Channel) :=
  if !commandAllowed x.command then ([.print (.reject x.command)], .exited 0)
  else if x.fd < 0 then ([.call (.socket x.fd)], .exited 2)
  else
    let binding : List Event := [.call (.socket x.fd), .call (.bind x.fd x.localPort x.bound)]
    let close : List Event := [.call (.close x.fd)]
    if x.bound ≠ 0 then (binding ++ close, .exited 3)
    else
      let greeting : List Event :=
        [.call (.sendto x.fd loopback x.px4Port (heartbeatBytes M heartbeat) x.heartbeatSent)]
      if !(frame M x.command).1 then (binding ++ greeting ++ close, .exited 4)
      else
        let asking : List Event :=
          [.call (.sendto x.fd loopback x.px4Port (commandBytes M x.command) x.commandSent)]
        if x.commandSent ≠ (frame M x.command).2.length then
          (binding ++ greeting ++ asking ++ close, .exited 5)
        else (binding ++ greeting ++ asking, .running ⟨x.fd, x.now + 3000000000, channel⟩)

/-- After the loop, if no acknowledgement was found. -/
def giveUp (s : Probe Channel) : List Event :=
  [.call (.close s.fd), .print (.timeoutOrInvalid command)]

/-- One round of the loop. -/
def round (s : Probe Channel) (r : Round) : List Event × Program (Probe Channel) :=
  if ¬ r.now < s.deadline then (giveUp command s, .exited 6)
  else
    let remaining := (s.deadline - r.later).tdiv 1000000
    let waiting : List Event := [.call (.fdSet s.fd),
      .call (.select s.fd (remaining.tdiv 1000) (remaining.tmod 1000 * 1000) r.ready)]
    if r.ready ≤ 0 then (waiting ++ giveUp command s, .exited 6)
    else
      let received := r.datagram.map (List.take kFrameBytes)
      let reading : List Event := waiting ++ [.call (.recvfrom s.fd kFrameBytes received)]
      match received.filter fun bytes => bytes.length ≠ 0 with
      | none => (reading ++ giveUp command s, .exited 6)
      | some bytes =>
        match decodeCommandAck R s.channel (.data bytes) with
        | (channel, none) => (reading, .running { s with channel })
        | (channel, some ack) =>
          if ack.resultCode = command.toUInt32 then
            (reading ++ [.heard ack] ++
              [.call (.close s.fd), .print (.pass command ack.status)], .exited 0)
          else (reading ++ [.heard ack], .running { s with channel })

/-- The program after a round. -/
def probeStep : Program (Probe Channel) → Round → Program (Probe Channel) :=
  Program.step fun s r => (round R command s r).2

/-- What a round does. -/
def events : Program (Probe Channel) → Round → List Event :=
  Program.output fun s r => (round R command s r).1

/-- The program after `main` has gone through the rounds. -/
def after (x : Setup) (channel : Channel) (rounds : List Round) : Program (Probe Channel) :=
  run (probeStep R x.command) (start M heartbeat x channel).2 rounds

end Main

@[simp] theorem calls_append (log log' : List Event) :
    calls (log ++ log') = calls log ++ calls log' := List.filterMap_append

@[simp] theorem answers_append (log log' : List Event) :
    answers (log ++ log') = answers log ++ answers log' := List.filterMap_append

@[simp] theorem printed_append (log log' : List Event) :
    printed (log ++ log') = printed log ++ printed log' := List.filterMap_append

@[simp] theorem received_append (log log' : List Event) :
    received (log ++ log') = received log ++ received log' := by
  rw [received, calls_append, List.filterMap_append]
  rfl

@[simp] theorem datagrams_append (log log' : List Event) :
    datagrams (log ++ log') = datagrams log ++ datagrams log' := by
  rw [datagrams, calls_append, List.filterMap_append]
  rfl

/-! ### The socket -/

/-- The kernel after the calls. -/
def kernel (base : Finset Int) (log : List Event) : Kernel Unit :=
  run kernelStep { opened := base } (madeBy () (calls log))

/-- The calls have been safe. -/
def SafeCalls (base : Finset Int) (log : List Event) : Prop :=
  Along kernelStep (Safe base) { opened := base } (madeBy () (calls log))

/-- The socket is open and bound, and nothing else has changed. -/
structure Opened (base : Finset Int) (fd : Int) (log : List Event) : Prop where
  safe : SafeCalls base log
  fresh : fd ∉ base
  inRange : 0 ≤ fd ∧ fd < fdSetSize
  opened : (kernel base log).opened = insert fd base
  opener : (kernel base log).opener fd = some ()
  bound : fd ∈ (kernel base log).bound

/-- The calls have been safe, and nothing has been left open. -/
structure Closed (base : Finset Int) (log : List Event) : Prop where
  safe : SafeCalls base log
  opened : (kernel base log).opened = base

variable {base : Finset Int} {fd : Int} {log : List Event}

theorem safeCalls_append {log' : List Event} : SafeCalls base (log ++ log') ↔
    SafeCalls base log ∧
      Along kernelStep (Safe base) (kernel base log) (madeBy () (calls log')) := by
  rw [SafeCalls, calls_append, madeBy, List.map_append, along_append]
  rfl

theorem kernel_append (log' : List Event) :
    kernel base (log ++ log') = run kernelStep (kernel base log) (madeBy () (calls log')) := by
  rw [kernel, calls_append, madeBy, List.map_append, run_append]
  rfl

theorem Opened.own (h : Opened base fd log) : Own base (kernel base log) () fd :=
  ⟨h.opened ▸ Finset.mem_insert_self fd base, h.opener, h.fresh⟩

/-- **Closing the socket.** -/
theorem Opened.close (h : Opened base fd log) {log' : List Event}
    (hcalls : calls log' = [.close fd]) : Closed base (log ++ log') := by
  constructor
  · rw [safeCalls_append, hcalls]
    exact ⟨h.safe, h.own, trivial⟩
  · rw [kernel_append, hcalls, madeBy, List.map_singleton, run_cons, run_nil, kernelStep, h.opened]
    exact Finset.erase_insert h.fresh

theorem Opened.use (h : Opened base fd log) {log' : List Event}
    (hsafe : Along kernelStep (Safe base) (kernel base log) (madeBy () (calls log')))
    (hkept : ∀ k : Kernel Unit, ∃ readable,
      run kernelStep k (madeBy () (calls log')) = { k with readable }) :
    Opened base fd (log ++ log') := by
  obtain ⟨readable, hk⟩ := hkept (kernel base log)
  refine ⟨safeCalls_append.mpr ⟨h.safe, hsafe⟩, h.fresh, h.inRange, ?_, ?_, ?_⟩
  all_goals rw [kernel_append, hk]
  · exact h.opened
  · exact h.opener
  · exact h.bound

/-- **Sending** from the socket. -/
theorem Opened.sendto (h : Opened base fd log) (log' : List Event) {address : UInt32}
    {port : UInt16} {bytes : List UInt8} {result : Int}
    (hcalls : calls log' = [.sendto fd address port bytes result]) :
    Opened base fd (log ++ log') := by
  refine h.use ?_ fun k => ?_
  · rw [hcalls]
    exact ⟨⟨h.own, h.bound⟩, trivial⟩
  · rw [hcalls]
    exact ⟨_, rfl⟩

/-- **Waiting** on the socket. -/
theorem Opened.select (h : Opened base fd log) {log' : List Event} {sec usec ready : Int}
    (hcalls : calls log' = [.fdSet fd, .select fd sec usec ready]) :
    Opened base fd (log ++ log') := by
  refine h.use ?_ fun k => ?_
  · rw [hcalls]
    exact ⟨⟨h.own, h.inRange⟩, ⟨h.own, h.bound⟩, trivial⟩
  · rw [hcalls]
    exact ⟨_, rfl⟩

/-- **Reading** the socket once it is readable. -/
theorem Opened.receive (h : Opened base fd log) {log' : List Event} {sec usec ready : Int}
    {capacity : ℕ} {datagram : Option (List UInt8)} (hready : ready > 0)
    (hcalls : calls log' =
      [.fdSet fd, .select fd sec usec ready, .recvfrom fd capacity datagram]) :
    Opened base fd (log ++ log') := by
  refine h.use ?_ fun k => ?_
  · rw [hcalls]
    exact ⟨⟨h.own, h.inRange⟩, ⟨h.own, h.bound⟩, ⟨h.own, h.bound, if_pos hready⟩, trivial⟩
  · rw [hcalls]
    exact ⟨_, rfl⟩

/-! ### The run -/

section Run
variable {Channel Message : Type} {M : Mavlink Message} {heartbeat : Message}
  {R : Reader Channel Message} {x : Setup} {channel : Channel}

/-- No acknowledgement of the command has been found. -/
def Unanswered (command : UInt16) (log : List Event) : Prop :=
  ∀ ack ∈ answers log, ack.resultCode ≠ command.toUInt32

/-- The state of the channel after `decode_command_ack` has been given the datagrams. -/
def hearing (R : Reader Channel Message) : Channel → List (List UInt8) → Channel :=
  run fun channel bytes => (decodeCommandAck R channel (.data bytes)).1

/-- The acknowledgements that it finds in them. -/
def heard (R : Reader Channel Message) : Channel → List (List UInt8) → List CommandAck :=
  outputs (fun channel bytes => (decodeCommandAck R channel (.data bytes)).1)
    fun channel bytes => (decodeCommandAck R channel (.data bytes)).2.toList

/-- **The acknowledgements are genuine**: they are those that the datagrams received give, one after
another, from the state in which the channel was at the start, and each is the first one that its
datagram completes, in the state that the datagrams before it have left. -/
structure Genuine (R : Reader Channel Message) (channel : Channel) (log : List Event) : Prop where
  exact : answers log = heard R channel (received log)
  found : ∀ ack ∈ answers log, ∃ before bytes after, received log = before ++ bytes :: after ∧
    Found R (hearing R channel before) bytes ack

theorem genuine_of_exact (h : answers log = heard R channel (received log)) :
    Genuine R channel log := by
  refine ⟨h, fun ack hack => ?_⟩
  rw [h] at hack
  obtain ⟨before, bytes, after, heq, hout⟩ := mem_outputs hack
  refine ⟨before, bytes, after, heq, found_of_decode (Prod.ext rfl ?_)⟩
  exact Option.mem_toList.mp hout

theorem Genuine.append (h : Genuine R channel log) {log' : List Event}
    (hnew : answers log' = heard R (hearing R channel (received log)) (received log')) :
    Genuine R channel (log ++ log') := by
  refine genuine_of_exact ?_
  rw [answers_append, received_append, heard, outputs_append, h.exact, hnew]
  rfl

/-- Why `main` returns before it listens. -/
inductive Failure (M : Mavlink Message) (x : Setup) : ℕ → Prop
  | noSocket (hfd : x.fd < 0) : Failure M x 2
  | notBound (hbound : x.bound ≠ 0) : Failure M x 3
  | notEncoded (hframe : (frame M x.command).1 = false) : Failure M x 4
  | notSent (hsent : x.commandSent ≠ (frame M x.command).2.length) : Failure M x 5

/-- What an exit code says. -/
inductive Verdict (M : Mavlink Message) (x : Setup) (log : List Event) : ℕ → Prop
  | rejected (hallowed : commandAllowed x.command = false) (hcalls : calls log = [])
      (hreports : printed log = [.reject x.command]) : Verdict M x log 0
  | failed {code : ℕ} (hcode : Failure M x code) (hacks : answers log = [])
      (hreports : printed log = []) : Verdict M x log code
  | passed {before : List CommandAck} {ack : CommandAck} (hacks : answers log = before ++ [ack])
      (hbefore : ∀ y ∈ before, y.resultCode ≠ x.command.toUInt32)
      (hcommand : ack.resultCode = x.command.toUInt32)
      (hreports : printed log = [.pass x.command ack.status]) : Verdict M x log 0
  | timedOut (hacks : Unanswered x.command log)
      (hreports : printed log = [.timeoutOrInvalid x.command]) : Verdict M x log 6

/-- While the loop runs. -/
structure Running (M : Mavlink Message) (heartbeat : Message) (R : Reader Channel Message)
    (base : Finset Int) (x : Setup) (channel : Channel) (log : List Event) (s : Probe Channel) :
    Prop where
  opened : Opened base s.fd log
  allowed : commandAllowed x.command = true
  sent : datagrams log = [heartbeatBytes M heartbeat, commandBytes M x.command]
  reports : printed log = []
  unanswered : Unanswered x.command log
  genuine : Genuine R channel log
  channel : s.channel = hearing R channel (received log)

/-- Once `main` has returned. A command that is not allowed makes it return before its first
call. -/
structure Exited (M : Mavlink Message) (heartbeat : Message) (R : Reader Channel Message)
    (base : Finset Int) (x : Setup) (channel : Channel) (log : List Event) (code : ℕ) :
    Prop where
  closed : Closed base log
  allowed : calls log ≠ [] → commandAllowed x.command = true
  sent : datagrams log <+: [heartbeatBytes M heartbeat, commandBytes M x.command]
  verdict : Verdict M x log code
  genuine : Genuine R channel log

variable {s : Probe Channel}

/-- **When `main` gives up**, after calls that have used the socket. -/
theorem Running.exited (h : Running M heartbeat R base x channel log s) (log' : List Event)
    (hopened : Opened base s.fd (log ++ log')) (hsent : datagrams log' = [])
    (hacks : answers log' = []) (hreceived : received log' = []) (hreports : printed log' = []) :
    Exited M heartbeat R base x channel (log ++ (log' ++ giveUp x.command s)) 6 := by
  rw [← List.append_assoc]
  have hgenuine : Genuine R channel (log ++ log') :=
    h.genuine.append (by rw [hacks, hreceived]; rfl)
  refine ⟨hopened.close rfl, fun _ => h.allowed, ?_, .timedOut ?_ ?_, hgenuine.append rfl⟩
  · rw [datagrams_append, datagrams_append, h.sent, hsent]
    exact List.prefix_rfl
  · intro ack hack
    rw [answers_append, answers_append, hacks, List.append_nil] at hack
    rcases List.mem_append.mp hack with hack | hack
    · exact h.unanswered ack hack
    · cases hack
  · rw [printed_append, printed_append, h.reports, hreports]
    rfl

/-- The heartbeat of a ground station. -/
def testHeartbeat : List UInt8 :=
  withChecksum 50 [0xFD, 9, 0, 0, 0, 255, 190, 0, 0, 0, 0, 0, 0, 0, 6, 8, 0, 4, 3]

/-- The probe with its default arguments, whose calls all succeed. -/
def testSetup : Setup where
  fd := 3
  bound := 0
  heartbeatSent := 21
  commandSent := 44
  now := 0

end Run

end NewMavlink.Endpoints.Px4Probe
