import NewMavlink.Proxy.Cache

/-! # What a call of ingest leaves behind

`ingest` returns early in six places. In one of them, for a record that is old, it returns `true`
although nothing is stored or forwarded.

* `ingest_fst_eq_false_iff`: the result is false for a record that is refused or a gap.
* `kept_of_false`: such a call leaves all but the metrics and the requests as it was.
* `storedNow_of_queue_ne`: a state that is put into a queue is one that the same call stored.
* `ingest_effects`: both, in every reachable proxy. -/

namespace NewMavlink.Proxy.Effects

open NewMavlink.Lib.Tables NewMavlink.Lib.Runs NewMavlink.Wire NewMavlink.State.Messages
open NewMavlink.Record.SealOpen
open NewMavlink.Proxy.Queue hiding streamKey
open NewMavlink.Proxy.Links NewMavlink.Proxy.Links.NativeProxy NewMavlink.Proxy.Ingest
open NewMavlink.Proxy.Cache

/-- All but the metrics is as it was, up to one more request at the end. -/
structure Kept (p p' : NativeProxy) : Prop where
  queueCapacity : p'.queueCapacity = p.queueCapacity
  links : p'.links = p.links
  cache : p'.cache = p.cache
  resync : p'.resync = p.resync ∨ ∃ request, p'.resync = p.resync ++ [request]

/-- The message has become the cached one of its stream: nothing was cached of the stream before,
or a message that it supersedes. -/
structure StoredNow (p p' : NativeProxy) (m : NativeMessage) : Prop where
  cached : p'.cache.lookup (streamKey m) = some m
  newer : ∀ old, p.cache.lookup (streamKey m) = some old → Supersedes m old

/-- The queue of a link. -/
def queueOf (p : NativeProxy) (k : UInt16) : Option BoundedQosQueue :=
  (p.links.lookup k).map LinkState.queue

variable {p : NativeProxy} {l k : UInt16} {r : OpenRecord} {nowMs : UInt64}

/-! ### Calls that return false -/

theorem ingest_fst_eq_false_iff : (p.ingest l r nowMs).1 = false ↔
    disposition p l r = .rejected ∨ ∃ request, disposition p l r = .gap request := by
  rw [ingest_eq]
  cases disposition p l r <;> simp

theorem kept_reject (p : NativeProxy) : Kept p p.reject := ⟨rfl, rfl, rfl, Or.inl rfl⟩

theorem kept_requestResync (p : NativeProxy) (request : ResyncRequest) :
    Kept p (p.requestResync request) := by
  unfold requestResync
  split_ifs
  · exact ⟨rfl, rfl, rfl, Or.inr ⟨request, rfl⟩⟩
  · exact ⟨rfl, rfl, rfl, Or.inl rfl⟩

theorem kept_of_false (h : (p.ingest l r nowMs).1 = false) : Kept p (p.ingest l r nowMs).2 := by
  have hd := ingest_fst_eq_false_iff.mp h
  rw [ingest_eq]
  rcases hd with hd | ⟨request, hd⟩
  · rw [hd]
    exact kept_reject p
  · rw [hd]
    exact kept_requestResync p request

/-! ### Queues that change -/

theorem queue_forwardTo {m : NativeMessage} {link : LinkState}
    (h : (forwardTo l m nowMs k link).2.queue ≠ link.queue) :
    wants l k m link = true ∧
      (forwardTo l m nowMs k link).2.queue = (link.queue.push (forwarded m k) nowMs).2 := by
  unfold forwardTo at h ⊢
  by_cases hw : wants l k m link = true
  · rw [if_pos hw]
    exact ⟨hw, rfl⟩
  · rw [if_neg hw] at h
    exact absurd rfl h

/-- **What can change a queue**: the forwarding of a record that was stored or has another type. -/
theorem queueOf_ingest (h : queueOf (p.ingest l r nowMs).2 k ≠ queueOf p k) :
    (disposition p l r = .stored ∨ disposition p l r = .passed) ∧
      ∃ link, p.links.lookup k = some link ∧ wants l k (messageOf r) link = true ∧
        queueOf (p.ingest l r nowMs).2 k =
          some (link.queue.push (forwarded (messageOf r) k) nowMs).2 := by
  unfold queueOf at h ⊢
  rcases links_ingest p l r nowMs with hkept | ⟨hd, hforward⟩
  · rw [hkept] at h
    exact absurd rfl h
  · rw [hforward, lookup_mapValues] at h ⊢
    refine ⟨hd, ?_⟩
    cases hk : p.links.lookup k with
    | none =>
      rw [hk] at h
      exact absurd rfl h
    | some link =>
      rw [hk] at h
      have hne : (forwardTo l (messageOf r) nowMs k link).2.queue ≠ link.queue := fun heq =>
        h (congrArg some heq)
      obtain ⟨hw, hpush⟩ := queue_forwardTo hne
      exact ⟨link, rfl, hw, congrArg some hpush⟩

theorem storedNow_of_stored (hinv : CacheInv p) (h : disposition p l r = .stored) :
    StoredNow p (p.ingest l r nowMs).2 (messageOf r) := by
  have hlook := lookup_cache_ingest p l r nowMs (streamKey (messageOf r))
  rw [if_pos ⟨h, rfl⟩] at hlook
  refine ⟨hlook, fun old hold => ⟨?_, stored_over h hold⟩⟩
  obtain ⟨-, hkey, -⟩ := hinv _ old hold
  exact hkey.symm

/-- **A state that is put into a queue** is one that the same call stored. -/
theorem storedNow_of_queue_ne (hinv : CacheInv p) (hstate : stateType r.header.type = true)
    (h : queueOf (p.ingest l r nowMs).2 k ≠ queueOf p k) :
    StoredNow p (p.ingest l r nowMs).2 (messageOf r) := by
  obtain ⟨hstored | hpassed, -⟩ := queueOf_ingest h
  · exact storedNow_of_stored hinv hstored
  · have hother := stateType_of_passed hpassed
    exact absurd hstate (by simp [hother])

/-- **The effects of a call**, in every reachable proxy. If it returns false, all but the metrics is
as it was and at most one request was appended. If a queue changes although the record has a state
type, the record was pushed to it and the same call stored it, over nothing or over a message that
it supersedes. -/
theorem ingest_effects (c : ℕ) (ops : List ProxyOp) (l : UInt16) (r : OpenRecord)
    (nowMs : UInt64) :
    let p := run proxyStep (init c) ops
    let p' := (p.ingest l r nowMs).2
    ((p.ingest l r nowMs).1 = false → Kept p p') ∧
    (stateType r.header.type = true → ∀ k, queueOf p' k ≠ queueOf p k →
      StoredNow p p' (messageOf r) ∧ ∃ queue, queueOf p k = some queue ∧
        queueOf p' k = some (queue.push (forwarded (messageOf r) k) nowMs).2) := by
  intro p p'
  have hinv : CacheInv p := cacheInv_run c ops
  refine ⟨kept_of_false, fun hstate k hne => ?_⟩
  obtain ⟨-, link, hlink, -, hpush⟩ := queueOf_ingest hne
  have hqueue : queueOf p k = some link.queue := congrArg (Option.map LinkState.queue) hlink
  exact ⟨storedNow_of_queue_ne hinv hstate hne, link.queue, hqueue, hpush⟩

end NewMavlink.Proxy.Effects
