import Puregit.Client.Fetch
import Puregit.Protocol.RoundTrip
import Puregit.Walk.RevWalk

/-! # A fetch that negotiates

The client offers its history in rounds, newest commits first, each round with more of it than the
one before, until the remote says that it is ready or there is no more.  Then it asks for the pack.

A round offers again what the rounds before it offered, so that each request stands alone: what
comes of the rounds is a part of the history, and nothing else of them matters for the pack
(`offerRounds_spec`). -/
namespace Puregit.Client
open PktLine

/-- How many ids a round offers more than the one before it. -/
def negotiationBatch : Nat := 16

/-- The most ids that are offered. -/
def negotiationHaveCap : Nat := 256

/-- The commits that a walk yields, up to `n` of them or up to an error. -/
def historyFrom (odb : CombinedOdb) : Nat → RevWalk → List ObjectId
  | 0, _ => []
  | n + 1, w =>
    match RevWalk.step odb w with
    | (.ok (some (id, _)), w) => id :: historyFrom odb n w
    | _ => []

/-- The history of some tips, newest first, as far as it is offered. -/
def localHistory (repo : Repository) (tips : List ObjectId) : List ObjectId :=
  historyFrom repo.odb negotiationHaveCap (RevWalk.new tips)

/-- Whitespace, as it is trimmed from the end of a line. -/
def isAsciiWhitespace (b : UInt8) : Bool := b = 32 || b = 9 || b = 10 || b = 12 || b = 13

/-- A line without the whitespace at its end. -/
def trimAsciiEnd (line : Bytes) : Bytes := (line.reverse.dropWhile isAsciiWhitespace).reverse

/-- Whether a line says that the remote is ready. -/
def saysReady (line : Bytes) : Bool :=
  (bytes "ACK ").isPrefixOf line && (bytes " ready").isSuffixOf line

/-- Looks for a line that says so; the packets are counted down. -/
def readyScan : Nat → Bytes → Except Error Bool
  | 0, _ => .ok false
  | left + 1, input =>
    if input.isEmpty then .ok false
    else do
      match ← decode input with
      | none => .ok false
      | some (p, n) =>
        if n = 0 then .ok false
        else match p with
          | .data d =>
            if saysReady (trimAsciiEnd d) then .ok true else readyScan left (input.drop n)
          | _ => readyScan left (input.drop n)

/-- Whether a response says that the remote is ready. -/
def responseSignalsReady (response : Bytes) : Except Error Bool :=
  readyScan (response.length + 1) response

/-- Offers more and more of a history until the remote is ready: the ids offered in the end, and how
many requests were made.  The remote may be another one at each request. -/
def offerRounds (server : Nat → Transport) (request : List ObjectId → FetchRequest)
    (haves : List ObjectId) :
    Nat → Nat → List ObjectId → Except Error (List ObjectId × Nat)
  | 0, round, offered => .ok (offered, round)
  | left + 1, round, offered =>
    if offered.length < haves.length then do
      let offered := offered ++ (haves.drop offered.length).take negotiationBatch
      let bytes ← (request offered).encodeNegotiation
      let response ← (server round).exchange bytes
      let ready ← responseSignalsReady response
      if ready then .ok (offered, round + 1)
      else offerRounds server request haves left (round + 1) offered
    else .ok (offered, round)

/-- The flags a fetch that negotiates prefers. -/
def negotiatedFlags : List Str :=
  [str "multi_ack_detailed", str "multi_ack", str "ofs-delta", str "side-band-64k", str "thin-pack"]

/-- The request of a round. -/
def roundRequest (advert : RefAdvertisement) (wants : List ObjectId) (repo : Repository)
    (offered : List ObjectId) :
    FetchRequest :=
  { FetchRequest.default with
    wants := wants
    haves := offered
    capabilities := (advert.capabilities.negotiateFlags negotiatedFlags).addValue
      (str "object-format") repo.algo.name }

/-- Asks a remote in rounds: what it advertises, and the last request and its answer where there is
anything to ask for. -/
def negotiateRounds (server : Nat → Transport) (repo : Repository) :
    Except Error (List AdvertisedRef × Option (FetchRequest × Bytes)) := do
  let advert ← (server 0).discover
  let wants := (advert.refs.filter fun r => !r.id.isZero && !repo.odb.contains r.id).map
    AdvertisedRef.id
  if wants.isEmpty then .ok (advert.refs, none)
  else do
    let refs ← repo.refs.list
    let haves := localHistory repo (refs.toList.map Prod.snd)
    let (offered, round) ← offerRounds server (roundRequest advert wants repo) haves
      haves.length 0 []
    let req := { roundRequest advert wants repo offered with done := true }
    let bytes ← req.encode
    let response ← (server round).exchange bytes
    .ok (advert.refs, some (req, response))

/-- Fetches what is missing of the advertised refs, through a negotiation in rounds. -/
def fetchNegotiated (out : Outside) (server : Nat → Transport) :
    Exec Repository Error FetchOutcome := do
  let (refs, asked) ← Exec.read (negotiateRounds server)
  match asked with
  | none => pure ⟨refs, 0⟩
  | some (req, response) => do
    let received ← receive out req response
    pure ⟨refs, received⟩

/-! ## The history that is offered -/

/-- The ids that wait in a walk are those of objects that could be read. -/
def Present (odb : CombinedOdb) (w : RevWalk) : Prop := ∀ q ∈ w.queue, ∃ r, odb.read q.id = .ok r

section
variable {odb : CombinedOdb} {w w' : RevWalk}

theorem Present.enqueue (h : Present odb w) (id : ObjectId) :
    Present odb (RevWalk.enqueue odb w id).2 := by
  rw [RevWalk.enqueue]
  by_cases hseen : w.seen.contains id = true
  · rw [if_pos hseen]
    exact h
  rw [if_neg hseen]
  cases hread : ObjectDatabase.readTyped odb id .commit with
  | error e =>
    cases e with
    | notFound hint => exact h
    | _ => exact h
  | ok payload =>
    simp only
    cases Commit.parse (ObjectDatabase.algo odb) payload with
    | error e => exact h
    | ok commit =>
      intro q hq
      rcases List.mem_cons.mp hq with rfl | hq
      · obtain ⟨r, hr, -⟩ := except_bind_ok.mp hread
        exact ⟨r, hr⟩
      · exact h q hq

theorem Present.enqueueAll (h : Present odb w) (ids : List ObjectId) :
    Present odb (RevWalk.enqueueAll odb w ids).2 := by
  induction ids generalizing w with
  | nil => exact h
  | cons id ids ih =>
    rw [RevWalk.enqueueAll]
    have hone := h.enqueue id
    cases hstep : RevWalk.enqueue odb w id with
    | mk r w₁ =>
      rw [hstep] at hone
      cases r with
      | error e => exact hone
      | ok u => exact ih hone

/-- **A commit that a walk yields could be read.** -/
theorem Present.step (h : Present odb w) {id : ObjectId} {commit : Commit}
    (hstep : RevWalk.step odb w = (.ok (some (id, commit)), w')) :
    (∃ r, odb.read id = .ok r) ∧ Present odb w' := by
  rw [RevWalk.step] at hstep
  have htips : Present odb { w with pendingTips := [] } := h
  have hqueued := htips.enqueueAll w.pendingTips
  cases hall : RevWalk.enqueueAll odb { w with pendingTips := [] } w.pendingTips with
  | mk r w₁ =>
    simp only [hall] at hstep hqueued
    cases r with
    | error e => cases hstep
    | ok u =>
      cases hpop : popMax w₁.queue with
      | none =>
        simp only [hpop] at hstep
        cases hstep
      | some popped =>
        obtain ⟨q, rest⟩ := popped
        simp only [hpop] at hstep
        have hperm := (popMax_spec hpop).1
        have hrest : Present odb { w₁ with queue := rest } := fun x hx =>
          hqueued x (hperm.mem_iff.mpr (List.mem_cons_of_mem q hx))
        have hparents := hrest.enqueueAll q.commit.parents
        cases hnext : RevWalk.enqueueAll odb { w₁ with queue := rest } q.commit.parents with
        | mk r w₂ =>
          rw [hnext] at hparents
          simp only [hnext] at hstep
          cases r with
          | error e => cases hstep
          | ok u =>
            cases hstep
            exact ⟨hqueued q (hperm.mem_iff.mpr List.mem_cons_self), hparents⟩

theorem Present.historyFrom {n : Nat} (h : Present odb w) :
    ∀ id ∈ historyFrom odb n w, ∃ r, odb.read id = .ok r := by
  induction n generalizing w with
  | zero => exact fun id hid => absurd hid List.not_mem_nil
  | succ n ih =>
    intro id hid
    rw [Client.historyFrom] at hid
    rcases hstep : RevWalk.step odb w with ⟨_ | _ | ⟨x, commit⟩, w'⟩
    · simp only [hstep] at hid
      exact absurd hid List.not_mem_nil
    · simp only [hstep] at hid
      exact absurd hid List.not_mem_nil
    · simp only [hstep] at hid
      obtain ⟨hread, hnext⟩ := h.step hstep
      rcases List.mem_cons.mp hid with rfl | hid
      · exact hread
      · exact ih hnext id hid

end

/-- **What is offered could be read.** -/
theorem read_localHistory {repo : Repository} {tips : List ObjectId} :
    ∀ id ∈ localHistory repo tips, ∃ r, repo.odb.read id = .ok r := by
  have hnew : Present repo.odb (RevWalk.new tips) := fun q hq => absurd hq List.not_mem_nil
  exact hnew.historyFrom

/-! ## The rounds -/

/-- The remote that answers the request before the `n`th has said that it is ready. -/
def SaidReady (server : Nat → Transport) (request : List ObjectId → FetchRequest)
    (offered : List ObjectId) (n : Nat) : Prop :=
  ∃ bytes response, (request offered).encodeNegotiation = .ok bytes ∧
    (server (n - 1)).exchange bytes = .ok response ∧
    responseSignalsReady response = .ok true

/-- **What comes of the rounds**: more of the history than at first, all of it unless the remote
said that it is ready, in as few requests as batches fit. -/
theorem offerRounds_spec {server : Nat → Transport} {request : List ObjectId → FetchRequest}
    {haves : List ObjectId} {left round n : Nat} {offered offered' : List ObjectId}
    (hfront : offered <+: haves) (hleft : haves.length ≤ offered.length + left)
    (h : offerRounds server request haves left round offered = .ok (offered', n)) :
    offered <+: offered' ∧ offered' <+: haves ∧
      (offered' = haves ∨ SaidReady server request offered' n) ∧
      round ≤ n ∧ negotiationBatch * (n - round) <
        haves.length - offered.length + negotiationBatch := by
  induction left generalizing round offered with
  | zero =>
    cases h
    have hall := hfront.eq_of_length_le (by omega)
    refine ⟨List.prefix_rfl, hfront, Or.inl hall, Nat.le_refl _, ?_⟩
    rw [Nat.sub_self, Nat.mul_zero, negotiationBatch]
    omega
  | succ left ih =>
    rw [offerRounds] at h
    by_cases hmore : offered.length < haves.length
    · rw [if_pos hmore] at h
      obtain ⟨bytes, hbytes, h⟩ := except_bind_ok.mp h
      obtain ⟨response, hresponse, h⟩ := except_bind_ok.mp h
      obtain ⟨ready, hready, h⟩ := except_bind_ok.mp h
      -- the next batch is the front of what has not been offered
      obtain ⟨behind, rfl⟩ := hfront
      rw [List.drop_left] at hbytes h
      rw [List.length_append] at hmore hleft ⊢
      have hlonger : offered <+: offered ++ behind.take negotiationBatch := List.prefix_append _ _
      have hfront : offered ++ behind.take negotiationBatch <+: offered ++ behind :=
        (List.prefix_append_right_inj _).mpr (List.take_prefix _ _)
      have hlen : (offered ++ behind.take negotiationBatch).length =
          offered.length + min negotiationBatch behind.length := by
        rw [List.length_append, List.length_take]
      have hbatch : negotiationBatch = 16 := rfl
      cases ready with
      | true =>
        cases h
        refine ⟨hlonger, hfront, Or.inr ⟨bytes, response, hbytes, ?_, hready⟩, Nat.le_succ _, ?_⟩
        · rw [Nat.add_sub_cancel]
          exact hresponse
        · rw [Nat.add_sub_cancel_left]
          omega
      | false =>
        obtain ⟨hbefore, hafter, hend, hround, hcount⟩ :=
          ih hfront (by rw [hlen, List.length_append]; omega) h
        refine ⟨hlonger.trans hbefore, hafter, hend, Nat.le_of_succ_le hround, ?_⟩
        have hsucc : n - round = n - (round + 1) + 1 := by omega
        rw [List.length_append, hlen, hbatch] at hcount
        rw [hsucc, hbatch]
        omega
    · rw [if_neg hmore] at h
      cases h
      have hall := hfront.eq_of_length_le (by omega)
      refine ⟨List.prefix_rfl, hfront, Or.inl hall, Nat.le_refl _, ?_⟩
      rw [Nat.sub_self, Nat.mul_zero, negotiationBatch]
      omega

namespace NegotiationSample
open FetchSample

/-- A history of forty commits. -/
def haves : List ObjectId := (List.range 40).map fun n => .filled (UInt8.ofNat n)

/-- A request that offers some of them. -/
def offering (offered : List ObjectId) : FetchRequest :=
  { FetchRequest.default with wants := [tip], haves := offered }

/-- A remote that knows none of them. -/
def unready (_ : Nat) : Transport := remote (bytes "0008NAK\n")

/-- A remote that is ready at the second request. -/
def readyLater : Nat → Transport
  | 0 => unready 0
  | _ + 1 => remote (bytes "0037ACK 1010101010101010101010101010101010101010 ready\n0008NAK\n")

theorem offerRounds_run : offerRounds unready offering haves 40 0 [] = .ok (haves, 3) ∧
    offerRounds readyLater offering haves 40 0 [] = .ok (haves.take 32, 2) := by
  decide +kernel

/-- All is offered in three rounds, or two rounds of it to a remote that is ready then. -/
theorem rounds_spec :
    ([] <+: haves ∧ haves <+: haves ∧ (haves = haves ∨ SaidReady unready offering haves 3) ∧
      0 ≤ 3 ∧ negotiationBatch * (3 - 0) < haves.length - ([] : List ObjectId).length +
        negotiationBatch) ∧
    haves.take 32 ≠ haves ∧ SaidReady readyLater offering (haves.take 32) 2 := by
  have hpart : haves.take 32 ≠ haves := by decide
  obtain ⟨-, -, hready, -⟩ := offerRounds_spec List.nil_prefix (by decide) offerRounds_run.2
  exact ⟨offerRounds_spec List.nil_prefix (by decide) offerRounds_run.1, hpart,
    hready.resolve_left hpart⟩

end NegotiationSample

end Puregit.Client
