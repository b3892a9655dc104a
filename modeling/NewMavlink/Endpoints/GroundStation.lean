import NewMavlink.Lib.Programs
import NewMavlink.ProxyRelay

/-! # The ground station

`main` of `gcs_endpoint.cpp`: a loop that opens what arrives, decodes it as a position, an attitude
or a battery, shows the value and commits the record. A round of the loop is given the clock reading
that it starts with and the datagram that arrives in time, if any; the texts that are printed stand
for the value they print.

* `round_cases`: a round passes over what arrives, ends the station, or shows a value and commits
  its record.
* `inv_run`: after every run the values shown are those of the records committed, and the exit code
  says whether there were any.
* `shows_exact`: in every run each value shown stands in a record that was authenticated and new
  when it arrived, no (epoch, sequence) is shown twice, and the exit codes are as they should be. -/

namespace NewMavlink.Endpoints.GroundStation

open NewMavlink.Lib.Buffer NewMavlink.Lib.Runs NewMavlink.Lib.Programs NewMavlink.Wire
open NewMavlink.Crypto
open NewMavlink.State.Messages NewMavlink.Record.SealOpen NewMavlink.Record.OpenCommit
open NewMavlink.Record.RoundTrip NewMavlink.Transport
open NewMavlink.ProxyService (psk)

/-- A position, an attitude or a battery. -/
abbrev StateValue : Type := (k : Kind) × k.Value

/-- The typed decoder of `opened.header.type`; a record of any other type is not `valid`. -/
def decodeState (type : MessageType) (payload : List UInt8) : Option StateValue :=
  if type = .position then (decodePosition (.data payload)).map (Sigma.mk Kind.position)
  else if type = .attitude then (decodeAttitude (.data payload)).map (Sigma.mk Kind.attitude)
  else if type = .battery then (decodeBattery (.data payload)).map (Sigma.mk Kind.battery)
  else none

/-- What `main` keeps from round to round. -/
structure Station where
  endpoint : NativeEndpoint
  receivedCount : ℕ := 0

/-- The inputs of one round. -/
structure Round where
  elapsed : UInt64
  datagram : Option (List UInt8)

/-- What a round has done: the record it committed, with the value it showed of it. -/
structure Showing where
  record : OpenRecord
  value : StateValue

/-- One round of the loop: what is shown, and the station afterwards. -/
def round (P : Aead) (durationMs : UInt64) (s : Station) (r : Round) :
    Option Showing × Program Station :=
  match s.endpoint.receiveUncommitted P r.datagram r.elapsed.toUInt32 with
  | .error error =>
    if error = .timeout ∧ durationMs > 0 ∧ r.elapsed < durationMs then (none, .running s)
    else (none, .exited (if s.receivedCount = 0 then 4 else 0))
  | .ok opened =>
    match decodeState opened.header.type opened.bytes with
    | none => (none, .running s)
    | some value =>
      match s.endpoint.commit opened with
      | (.error _, _) => (some ⟨opened, value⟩, .exited 6)
      | (.ok _, endpoint) =>
        let s : Station := { endpoint, receivedCount := s.receivedCount + 1 }
        (some ⟨opened, value⟩,
          if durationMs = 0 then .exited 0
          else if r.elapsed ≥ durationMs then .exited (if s.receivedCount > 0 then 0 else 4)
          else .running s)

/-- The station after a round. -/
def stationStep (P : Aead) (durationMs : UInt64) : Program Station → Round → Program Station :=
  Program.step fun s r => (round P durationMs s r).2

/-- What a round shows. -/
def shown (P : Aead) (durationMs : UInt64) : Program Station → Round → List Showing :=
  Program.output fun s r => (round P durationMs s r).1.toList

/-- What a run of the loop shows. -/
def shows (P : Aead) (durationMs : UInt64) (station : Program Station) (rounds : List Round) :
    List Showing :=
  outputs (stationStep P durationMs) (shown P durationMs) station rounds

/-- `main` up to the loop; `bound` says whether the port can be bound. -/
def start (auth : Auth Block) (bound : Bool) : Program Station :=
  match deriveDirectionalKeys auth psk ⟨1, 1⟩ 3 2 with
  | none => .exited 2
  | some (_, rx) => if !bound then .exited 3 else .running { endpoint := ⟨{ keys := rx }⟩ }

/-! ### Values -/

/-- **The decoders are the kinds'**: what decodes has the type of its kind. -/
theorem decodeState_eq_some {type : MessageType} {payload : List UInt8} {k : Kind} {v : k.Value} :
    decodeState type payload = some ⟨k, v⟩ ↔
      type = k.type ∧ k.decode (.data payload) = some v := by
  have hpa : MessageType.position ≠ .attitude := by decide
  have hpb : MessageType.position ≠ .battery := by decide
  have hab : MessageType.attitude ≠ .battery := by decide
  unfold decodeState
  by_cases hp : type = .position
  · subst hp
    cases k <;> simp [Kind.type, Kind.decode, hpa, hpb]
  by_cases ha : type = .attitude
  · subst ha
    cases k <;> simp [Kind.type, Kind.decode, hpa.symm, hab]
  by_cases hb : type = .battery
  · subst hb
    cases k <;> simp [Kind.type, Kind.decode, hpb.symm, hab.symm]
  · simp only [if_neg hp, if_neg ha, if_neg hb]
    cases k <;> simp [Kind.type, hp, ha, hb]

variable {P : Aead} {durationMs : UInt64} {s : Station} {r : Round} {x : Showing}

/-! ### One round -/

/-- The value stands in a record that was authenticated and is new to the replay window. -/
structure Genuine (P : Aead) (s : Station) (r : Round) (x : Showing) : Prop where
  opened : s.endpoint.receiveUncommitted P r.datagram r.elapsed.toUInt32 = .ok x.record
  authentic : ∃ bytes, udpReceive r.datagram = some bytes ∧
    openPlaintext P s.endpoint.session bytes x.record.header = some x.record.bytes
  epoch : x.record.header.epoch = s.endpoint.session.keys.session.epoch
  fresh : s.endpoint.session.replay.accepted x.record.header.sequence = true
  decodes : decodeState x.record.header.type x.record.bytes = some x.value

/-- The station after it has shown `x`. -/
def Station.after (s : Station) (x : Showing) : Station where
  endpoint := (s.endpoint.commit x.record).2
  receivedCount := s.receivedCount + 1

theorem genuine_of_receive
    (hreceive : s.endpoint.receiveUncommitted P r.datagram r.elapsed.toUInt32 = .ok x.record)
    (hdecodes : decodeState x.record.header.type x.record.bytes = some x.value) :
    Genuine P s r x := by
  have hopen := hreceive
  unfold NativeEndpoint.receiveUncommitted at hopen
  cases hdatagram : udpReceive r.datagram with
  | none => simp [hdatagram] at hopen
  | some bytes =>
    rw [hdatagram] at hopen
    exact ⟨hreceive, ⟨bytes, hdatagram, authentic_of_open hopen⟩, epoch_of_open hopen,
      accepted_of_open hopen, hdecodes⟩

/-- **What a round can do**: pass over what arrives, end the station, or show a value and commit
its record. No commit fails. -/
theorem round_cases (P : Aead) (durationMs : UInt64) (s : Station) (r : Round) :
    round P durationMs s r = (none, .running s) ∨
    round P durationMs s r = (none, .exited (if s.receivedCount = 0 then 4 else 0)) ∨
    ∃ x, Genuine P s r x ∧ (round P durationMs s r = (some x, .running (s.after x)) ∨
      round P durationMs s r = (some x, .exited 0)) := by
  unfold round
  cases hreceive : s.endpoint.receiveUncommitted P r.datagram r.elapsed.toUInt32 with
  | error error =>
    dsimp only
    by_cases hearly : error = .timeout ∧ durationMs > 0 ∧ r.elapsed < durationMs
    · exact Or.inl (if_pos hearly)
    · exact Or.inr (Or.inl (if_neg hearly))
  | ok opened =>
    dsimp only
    cases hdecodes : decodeState opened.header.type opened.bytes with
    | none => exact Or.inl rfl
    | some value =>
      have hcommit : s.endpoint.commit opened = (.ok (), (s.endpoint.commit opened).2) :=
        Prod.ext (commit_of_receiveUncommitted hreceive) rfl
      rw [hcommit]
      refine Or.inr (Or.inr ⟨⟨opened, value⟩, genuine_of_receive hreceive hdecodes, ?_⟩)
      dsimp only
      rw [if_pos (Nat.succ_pos _)]
      split_ifs
      · exact Or.inr rfl
      · exact Or.inr rfl
      · exact Or.inl rfl

/-! ### The invariant -/

/-- The records of what was shown. -/
abbrev records (showings : List Showing) : List OpenRecord := showings.map Showing.record

/-- **What holds between two rounds**: the count is that of what was shown, and none of it was
committed before. -/
structure Inv (showings : List Showing) (s : Station) : Prop where
  count : s.receivedCount = showings.length
  committed : Record.OpenCommit.Inv
    { session := s.endpoint.session, committed := records showings }

/-- What holds when `main` returns from the loop. -/
structure Done (showings : List Showing) (code : ℕ) : Prop where
  code : code = if showings = [] then 4 else 0
  nodup : ((records showings).map slot).Nodup

/-- **Every round keeps the invariant**, and ends with the right code. -/
theorem inv_round {showings : List Showing} (h : Inv showings s) (r : Round) :
    (round P durationMs s r).2.Holds
      (Inv (showings ++ (round P durationMs s r).1.toList))
      (Done (showings ++ (round P durationMs s r).1.toList)) := by
  rcases round_cases P durationMs s r with hround | hround | ⟨x, hx, hround⟩
  · rw [hround, Option.toList_none, List.append_nil]
    exact h
  · rw [hround, Option.toList_none, List.append_nil]
    refine ⟨?_, h.committed.nodup⟩
    rw [h.count]
    simp only [List.length_eq_zero_iff]
  · have hcommit := inv_commit h.committed hx.epoch hx.fresh
    have hrecords : records (showings ++ [x]) = records showings ++ [x.record] := by
      simp [records]
    rcases hround with hround | hround
    · rw [hround, Option.toList_some]
      refine ⟨by simp [Station.after, h.count], ?_⟩
      rw [hrecords]
      exact hcommit
    · rw [hround, Option.toList_some]
      refine ⟨by simp, ?_⟩
      rw [hrecords]
      exact hcommit.nodup

/-- **What holds after every run.** -/
theorem inv_run {s₀ : Station} (h : Inv [] s₀) (rounds : List Round) :
    (run (stationStep P durationMs) (.running s₀) rounds).Holds
      (Inv (shows P durationMs (.running s₀) rounds))
      (Done (shows P durationMs (.running s₀) rounds)) :=
  program_invariant Inv Done (fun _ _ r h => inv_round h r) (p := .running s₀) h rounds

/-! ### Runs -/

theorem inv_start {auth : Auth Block} {bound : Bool} {s₀ : Station}
    (h : start auth bound = .running s₀) : Inv [] s₀ := by
  unfold start at h
  split at h
  · cases h
  · cases bound with
    | false => cases h
    | true =>
      obtain rfl := Program.running.inj h
      exact ⟨rfl, inv_fresh _⟩

theorem genuine_of_shown {station : Program Station} (h : x ∈ shown P durationMs station r) :
    ∃ s, station = .running s ∧ Genuine P s r x := by
  cases station with
  | exited code => cases h
  | running s =>
    refine ⟨s, rfl, ?_⟩
    replace h : x ∈ (round P durationMs s r).1.toList := h
    rcases round_cases P durationMs s r with hround | hround | ⟨y, hy, hround | hround⟩
    all_goals rw [hround] at h
    · cases h
    · cases h
    · rw [List.mem_singleton.mp h]
      exact hy
    · rw [List.mem_singleton.mp h]
      exact hy

/-- **What the ground station shows.** Whatever arrives in whatever rounds, each value that is shown
is what its record decodes to, and that record had been authenticated and was new to the replay
window in the round in which it was shown; no (epoch, sequence) is shown twice; and if `main`
returns from the loop, it returns 4 if nothing was shown and 0 otherwise. -/
theorem shows_exact (P : Aead) (auth : Auth Block) (bound : Bool) (durationMs : UInt64)
    (rounds : List Round) :
    let station := start auth bound
    let showings := shows P durationMs station rounds
    (∀ x ∈ showings, ∃ before r after s, rounds = before ++ r :: after ∧
      run (stationStep P durationMs) station before = .running s ∧ Genuine P s r x) ∧
    ((records showings).map slot).Nodup ∧
    ∀ s₀, station = .running s₀ →
      ∀ code, run (stationStep P durationMs) station rounds = .exited code →
        code = if showings = [] then 4 else 0 := by
  intro station showings
  refine ⟨fun x hx => ?_, ?_, fun s₀ hs₀ code hcode => ?_⟩
  · obtain ⟨before, r, after, hrounds, hshown⟩ := mem_outputs hx
    obtain ⟨s, hs, hgenuine⟩ := genuine_of_shown hshown
    exact ⟨before, r, after, s, hrounds, hs, hgenuine⟩
  · cases hstation : station with
    | exited code =>
      have hnone : showings = [] := by
        show shows P durationMs station rounds = []
        rw [hstation]
        exact outputs_exited code rounds
      rw [hnone]
      exact List.nodup_nil
    | running s₀ =>
      have h : (run (stationStep P durationMs) (.running s₀) rounds).Holds _ _ :=
        inv_run (inv_start hstation) rounds
      rw [← hstation] at h
      cases hrun : run (stationStep P durationMs) station rounds with
      | running s => rw [hrun] at h; exact h.committed.nodup
      | exited code => rw [hrun] at h; exact h.nodup
  · have h : (run (stationStep P durationMs) (.running s₀) rounds).Holds _ _ :=
      inv_run (inv_start hs₀) rounds
    rw [← hs₀, hcode] at h
    exact h.code

end NewMavlink.Endpoints.GroundStation
