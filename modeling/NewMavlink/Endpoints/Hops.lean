import NewMavlink.Channel
import Mathlib.Data.List.Perm.Subperm

/-! # One hop

An endpoint that sends, and one that opens what arrives and commits some of it. The records that
the first has sealed are logged whether or not the socket took them; the AEAD is ideal as in
`Channel`.

* `send_cases`: what a `send` can do, with the records it seals.
* `taken_commit`: a record that arrives and is committed is one that was sealed, and none is
  committed twice.
* `contents_subperm`: so the contents of what was committed are, with their multiplicities, among
  the contents of what was sealed. -/

namespace NewMavlink.Endpoints.Hops

open NewMavlink.Lib.Buffer NewMavlink.Lib.Runs NewMavlink.Wire NewMavlink.Crypto
open NewMavlink.Record.Header NewMavlink.Record.SealOpen NewMavlink.Record.SendLog
open NewMavlink.Record.OpenCommit NewMavlink.Transport NewMavlink.Channel

/-- What a `send` seals, whether or not the socket takes it. -/
def seals (P : Aead) (e : NativeEndpoint) (header : RecordHeader) (payload : List UInt8) :
    List Sent :=
  (logSeal (e.session, []) header (.data payload)
    (e.session.seal P header (.data payload) (List.Vector.replicate _ 0))).2

variable {P : Aead} {e : NativeEndpoint} {log : List Sent} {records : List OpenRecord}

/-- The datagram that a `send` hands to the socket. -/
def datagramOf (header : RecordHeader) (payload cipher : List UInt8) : List UInt8 :=
  headerBytes (sealedHeader header payload.length) ++ cipher

/-- **What a `send` can do**: refuse and seal nothing, or seal one record, which the socket takes
or does not. -/
theorem send_cases (P : Aead) (e : NativeEndpoint) (header : RecordHeader) (payload : List UInt8)
    (sendTo : Bool) :
    (e.send P header (.data payload) sendTo = (none, e) ∧ seals P e header payload = []) ∨
    ∃ cipher, Sealable e.session header (.data payload) ∧
      sealCipher P e.session header (.data payload) = some cipher ∧
      seals P e header payload = [sentBy e.session header (.data payload) cipher] ∧
      e.send P header (.data payload) sendTo =
        (if sendTo then some (datagramOf header payload cipher) else none,
          ⟨e.session.sent header.sequence⟩) := by
  unfold seals NativeEndpoint.send
  rcases seal_cases P e.session header (.data payload) (List.Vector.replicate _ 0) with
    ⟨error, hrefused⟩ | ⟨cipher, hsealable, hcipher, hsealed⟩
  · rw [hrefused]
    exact Or.inl ⟨rfl, rfl⟩
  · rw [hsealed]
    refine Or.inr ⟨cipher, hsealable, hcipher, ?_, rfl⟩
    exact congrArg Prod.snd (logSeal_sealed (e.session, []) header (.data payload) cipher _)

/-! ### What a hop delivers -/

/-- The endpoint that receives, behind the log of what was sealed for it. -/
def link (log : List Sent) (e : NativeEndpoint) : Link :=
  { sender := (e.session, log), receiver := e }

/-- **The AEAD is ideal**: if it opens the datagram under the receiver's key, it was sealed. -/
def Ideal (P : Aead) (log : List Sent) (e : NativeEndpoint) (datagram : Option (List UInt8)) :
    Prop :=
  Unforged P (link log e) (.receive datagram 0)

/-- **What holds of the records an endpoint has committed**: each was sealed, and no (epoch,
sequence) is committed twice. -/
structure Taken (log : List Sent) (records : List OpenRecord) : Prop where
  sealed : ∀ c ∈ records, ∃ a ∈ log, Delivers a c
  nodup : (records.map slot).Nodup

theorem taken_nil (log : List Sent) : Taken log [] := ⟨by simp, List.nodup_nil⟩

theorem Taken.mono {new : List Sent} (h : Taken log records) : Taken (log ++ new) records where
  sealed c hc := by
    obtain ⟨a, ha, hdelivers⟩ := h.sealed c hc
    exact ⟨a, List.mem_append_left _ ha, hdelivers⟩
  nodup := h.nodup

theorem sealed_of_receive {datagram : Option (List UInt8)} {nowMs : UInt32} {c : OpenRecord}
    (hideal : Ideal P log e datagram) (hreceive : e.receiveUncommitted P datagram nowMs = .ok c) :
    ∃ a ∈ log, Delivers a c := by
  unfold NativeEndpoint.receiveUncommitted at hreceive
  cases hdatagram : udpReceive datagram with
  | none => simp [hdatagram] at hreceive
  | some bytes =>
    rw [hdatagram] at hreceive
    have hunforged : Unforged P (link log e) (.receive datagram nowMs) := hideal
    exact delivers_of_unforged hunforged hdatagram hreceive

/-- **A record that arrives and is committed** keeps it so. -/
theorem taken_commit {datagram : Option (List UInt8)} {nowMs : UInt32} {c : OpenRecord}
    (h : Taken log records) (hnew : ((records ++ [c]).map slot).Nodup)
    (hideal : Ideal P log e datagram) (hreceive : e.receiveUncommitted P datagram nowMs = .ok c) :
    Taken log (records ++ [c]) :=
  ⟨forall_mem_log h.sealed (sealed_of_receive hideal hreceive), hnew⟩

theorem subperm_filterMap {α β : Type} {l₁ l₂ : List α} (f : α → Option β) (h : l₁.Subperm l₂) :
    (l₁.filterMap f).Subperm (l₂.filterMap f) := by
  obtain ⟨l, hperm, hsub⟩ := h
  exact ⟨l.filterMap f, hperm.filterMap f, hsub.filterMap f⟩

/-- The type and the payload of a record that was sealed. -/
def sealedContent (a : Sent) : MessageType × List UInt8 := (a.header.type, a.plaintext)

/-- The type and the payload of a record that was opened. -/
def content (c : OpenRecord) : MessageType × List UInt8 := (c.header.type, c.bytes)

/-- **What is committed was sealed, as often.** -/
theorem contents_subperm (h : Taken log records) :
    (records.map content).Subperm (log.map sealedContent) := by
  have hnodup : (records.map fun c => (c.header, c.bytes)).Nodup := by
    refine List.Nodup.of_map (fun x => (x.1.epoch, x.1.sequence)) ?_
    rw [List.map_map]
    exact h.nodup
  have hsub : (records.map fun c => (c.header, c.bytes)) ⊆
      log.map fun a => (a.header, a.plaintext) := by
    intro x hx
    obtain ⟨c, hc, rfl⟩ := List.mem_map.mp hx
    obtain ⟨a, ha, hheader, -, hbytes⟩ := h.sealed c hc
    exact List.mem_map.mpr ⟨a, ha, by rw [hheader, hbytes]⟩
  have hall := subperm_filterMap (fun x => some (x.1.type, x.2)) (hnodup.subperm hsub)
  show (records.map fun c => (c.header.type, c.bytes)).Subperm
    (log.map fun a => (a.header.type, a.plaintext))
  simpa [List.filterMap_map, Function.comp_def] using hall

end NewMavlink.Endpoints.Hops
