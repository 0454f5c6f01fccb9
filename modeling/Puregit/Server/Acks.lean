import Puregit.Object.Canonical
import Puregit.Protocol.Lines
import Puregit.Server.Negotiate
import Puregit.Server.Select

/-! # What a negotiation acknowledges

A negotiation is fed haves, flushes and dones, in any order.  The common objects are then
the announced ones the database has, each once, in the order first announced; and what an
event is answered with is described by `AnswersEvent`: no id is acknowledged that was not
announced or is not there, and the client is told that the server is ready only if every
want leads to a common object.

A want is peeled through fewer than 64 tags.  One behind 64 or more counts as no commit, so
that the server may be ready without it.
-/
namespace Puregit.Server
open ObjectDatabase ObjectGraph PktLine Relation

variable {D : Type} [ObjectDatabase D] {odb : D} {wants : List ObjectId} {mode : AckMode}

/-! ## Events and answers -/

/-- What a negotiation is fed. -/
inductive NegotiationEvent where
  | have_ (oid : ObjectId)
  | flush
  | done
  deriving DecidableEq

/-- A line of the server. -/
inductive Ack where
  | common (oid : ObjectId)
  | continue_ (oid : ObjectId)
  | ready (oid : ObjectId)
  | final (oid : ObjectId)
  | nak
  deriving DecidableEq

/-- The text of a line. -/
def Ack.line : Ack → Str
  | common oid => str "ACK " ++ oid.toHex ++ str " common\n"
  | continue_ oid => str "ACK " ++ oid.toHex ++ str " continue\n"
  | ready oid => str "ACK " ++ oid.toHex ++ str " ready\n"
  | final oid => str "ACK " ++ oid.toHex ++ ['\n']
  | nak => str "NAK\n"

/-- The id a line acknowledges. -/
def Ack.id : Ack → Option ObjectId
  | common oid => some oid
  | continue_ oid => some oid
  | ready oid => some oid
  | final oid => some oid
  | nak => none

/-- The bytes are the packets of these lines. -/
def Spells (out : Bytes) (acks : List Ack) : Prop :=
  decodeAll out = .ok (acks.map fun a => linePacket a.line)

namespace Negotiator

/-- Feeds one event: the next state and the bytes written. -/
def step (odb : D) (wants : List ObjectId) (n : Negotiator) :
    NegotiationEvent → Except Error (Negotiator × Bytes)
  | .have_ oid => n.have_ odb oid
  | .flush => n.flush odb wants
  | .done => n.done.map fun out => (n, out)

end Negotiator

/-- The state a negotiation is in after a sequence of events. -/
inductive Negotiated (odb : D) (wants : List ObjectId) (mode : AckMode) :
    List NegotiationEvent → Negotiator → Prop
  | nil : Negotiated odb wants mode [] (Negotiator.new mode)
  | snoc {events : List NegotiationEvent} {n n' : Negotiator} {e : NegotiationEvent} {out : Bytes} :
      Negotiated odb wants mode events n → n.step odb wants e = .ok (n', out) →
      Negotiated odb wants mode (events ++ [e]) n'

/-- The id an event announces. -/
def NegotiationEvent.oid : NegotiationEvent → Option ObjectId
  | have_ oid => some oid
  | flush => none
  | done => none

/-- The announced ids the database has, each once, in the order first announced. -/
def firstAnnounced (odb : D) (events : List NegotiationEvent) : List ObjectId :=
  ((events.filterMap NegotiationEvent.oid).filter (contains odb)).eraseDups

/-- `w` leads to the commit `c` through this many tags. -/
inductive TagChain (odb : D) : Nat → ObjectId → ObjectId → Prop
  | commit {c : ObjectId} {payload : Bytes} : read odb c = .ok (.commit, payload) →
    TagChain odb 0 c c
  | tag {k : Nat} {w t c : ObjectId} : TagRef (graph odb) w t → TagChain odb k t c →
      TagChain odb (k + 1) w c

/-- Every want leads to a common object: the commit it peels to has one for an ancestor, or is
one.  Chains of `limit` tags or more do not count. -/
def WantsReach (odb : D) (wants : List ObjectId) (limit : Nat) (common : List ObjectId) : Prop :=
  ∀ w ∈ wants, ∀ k c, k < limit → TagChain odb k w c →
    ∃ x ∈ common, ReflTransGen (Parent (graph odb)) c x

/-- What the answer to an event says, after the events before it. -/
structure AnswersEvent (odb : D) (wants : List ObjectId) (mode : AckMode) (limit : Nat)
    (before : List NegotiationEvent) (e : NegotiationEvent) (acks : List Ack) : Prop where
  announced : ∀ a ∈ acks, ∀ oid ∈ a.id,
    NegotiationEvent.have_ oid ∈ before ++ [e] ∧ contains odb oid = true
  ready : ∀ oid, .ready oid ∈ acks → WantsReach odb wants limit (firstAnnounced odb before)
  done : e = .done → acks = match (firstAnnounced odb before).getLast? with
    | none => [.nak]
    | some last => if mode = .single then [] else [.final last]

/-! ## Being ready -/

/-- A want behind fewer tags than are followed peels to its commit. -/
theorem peelToCommit_of_chain {k n : Nat} {w c : ObjectId} (h : TagChain odb k w c) (hk : k < n) :
    peelToCommit odb n w = .ok (some c) := by
  induction h generalizing n with
  | commit hr =>
      obtain ⟨n, rfl⟩ : ∃ m, n = m + 1 := ⟨n - 1, by omega⟩
      rw [peelToCommit, readPresent_some.mpr hr]
      rfl
  | tag hw _ ih =>
      obtain ⟨n, rfl⟩ : ∃ m, n = m + 1 := ⟨n - 1, by omega⟩
      obtain ⟨tag, hg, rfl⟩ := hw
      obtain ⟨ty, payload, hr, hp⟩ := graph_eq_some.mp hg
      obtain rfl : ty = .tag := (Object.objectType_parse hp).symm
      obtain ⟨tag', htag, heq⟩ := except_map_ok.mp hp
      cases heq
      rw [peelToCommit]
      refine except_bind_ok.mpr ⟨_, readPresent_some.mpr hr, ?_⟩
      exact except_bind_ok.mpr ⟨tag, htag, ih (by omega)⟩

/-- A want behind as many tags as are followed counts as no commit. -/
theorem peelToCommit_of_long_chain {k n : Nat} {w c : ObjectId} (h : TagChain odb k w c)
    (hk : n ≤ k) :
    peelToCommit odb n w = .ok none := by
  induction n generalizing k w with
  | zero => rfl
  | succ n ih =>
      cases h with
      | commit _ => omega
      | tag hw hchain =>
          obtain ⟨tag, hg, rfl⟩ := hw
          obtain ⟨ty, payload, hr, hp⟩ := graph_eq_some.mp hg
          obtain rfl : ty = .tag := (Object.objectType_parse hp).symm
          obtain ⟨tag', htag, heq⟩ := except_map_ok.mp hp
          cases heq
          rw [peelToCommit]
          refine except_bind_ok.mpr ⟨_, readPresent_some.mpr hr, ?_⟩
          exact except_bind_ok.mpr ⟨tag, htag, ih hchain (by omega)⟩

/-- **A walk that finds a target has followed parents to it.** -/
theorem reachesAny_sound {start : ObjectId} {targets : BTreeSet ObjectId}
    (h : reachesAny odb start targets = .ok true) :
    ∃ x ∈ targets, ReflTransGen (Parent (graph odb)) start x := by
  obtain ⟨st, hst, hfound⟩ := except_map_ok.mp h
  -- what is queued is reached, and so is the target once it is found
  let I : ReachState → List ObjectId → Prop := fun st todo =>
    (∀ id ∈ todo, ReflTransGen (Parent (graph odb)) start id) ∧
    (st.found = true → ∃ x ∈ targets, ReflTransGen (Parent (graph odb)) start x)
  have hact : ∀ st k rest st' ks, I st (k :: rest) →
      reachVisit odb targets st k = .ok (some (st', ks)) → I st' (Worklist.queue ks rest) := by
    rintro st k rest st' ks ⟨htodo, hfound⟩ hv
    have hk := htodo k List.mem_cons_self
    have hrest : ∀ id ∈ rest, ReflTransGen (Parent (graph odb)) start id := fun id hid =>
      htodo id (List.mem_cons_of_mem k hid)
    have hqueue : ∀ id ∈ Worklist.queue [] rest, ReflTransGen (Parent (graph odb)) start id := by
      intro id hid
      rcases Worklist.mem_queue.mp hid with hid | hid
      · cases hid
      · exact hrest id hid
    rw [reachVisit] at hv
    split at hv
    · cases hv
    split at hv
    · rename_i htarget
      cases hv
      exact ⟨hqueue, fun _ => ⟨k, BTreeSet.contains_iff_mem.mp htarget, hk⟩⟩
    split at hv
    · cases hv
    simp only at hv
    split at hv
    · cases hv
      exact ⟨hqueue, hfound⟩
    · obtain ⟨commit, hcommit, hv⟩ := except_bind_ok.mp hv
      cases commit with
      | none =>
          cases hv
          exact ⟨hqueue, hfound⟩
      | some commit =>
          cases hv
          refine ⟨fun id hid => ?_, hfound⟩
          rcases Worklist.mem_queue.mp hid with hid | hid
          · exact hk.tail ⟨commit, readCommit_some.mp hcommit, hid⟩
          · exact hrest id hid
  have hskip : ∀ st k rest, I st (k :: rest) → reachVisit odb targets st k = .ok none → I st rest :=
    fun st k rest hI _ => ⟨fun id hid => hI.1 id (List.mem_cons_of_mem k hid), hI.2⟩
  have hinit : I ⟨BTreeSet.empty, false⟩ [start] :=
    ⟨fun id hid => by rw [List.mem_singleton.mp hid], fun hf => by cases hf⟩
  obtain ⟨_, hI⟩ := Worklist.run_inv hskip hact hinit hst
  exact hI.2 hfound

theorem allReach_sound {targets : BTreeSet ObjectId} (h : allReach odb targets wants = .ok true) :
    ∀ w ∈ wants, ∀ c, peelToCommit odb tagLimit w = .ok (some c) →
      ∃ x ∈ targets, ReflTransGen (Parent (graph odb)) c x := by
  induction wants with
  | nil => exact fun w hw => absurd hw List.not_mem_nil
  | cons want wants ih =>
      rw [allReach] at h
      obtain ⟨peeled, hpeeled, h⟩ := except_bind_ok.mp h
      intro w hw c hc
      cases peeled with
      | none =>
          rcases List.mem_cons.mp hw with rfl | hw
          · rw [hpeeled] at hc
            cases hc
          · exact ih h w hw c hc
      | some start =>
          obtain ⟨reached, hreached, h⟩ := except_bind_ok.mp h
          cases reached with
          | false => cases h
          | true =>
              rcases List.mem_cons.mp hw with rfl | hw
              · rw [hpeeled] at hc
                cases hc
                exact reachesAny_sound hreached
              · exact ih h w hw c hc

/-- **The server gives up only if every want leads to a common object.** -/
theorem okToGiveUp_sound {common : BTreeSet ObjectId} (h : okToGiveUp odb wants common = .ok true) :
    ∀ w ∈ wants, ∀ k c, k < tagLimit → TagChain odb k w c →
      ∃ x ∈ common, ReflTransGen (Parent (graph odb)) c x := by
  rw [okToGiveUp] at h
  split at h
  · cases h
  · exact fun w hw k c hk hchain => allReach_sound h w hw c (peelToCommit_of_chain hchain hk)

/-! ## One event -/

theorem spells_nil : Spells [] [] := rfl

theorem spells_line {a : Ack} {out : Bytes} (h : encodeLine a.line = .ok out) : Spells out [a] := by
  have hdecode := decodeAll_encode (p := linePacket a.line) h []
  rw [List.append_nil] at hdecode
  exact hdecode

theorem spells_append {a : Ack} {out out' : Bytes} {acks : List Ack}
    (h : encodeLine a.line = .ok out) (h' : Spells out' acks) :
    Spells (out ++ out') (a :: acks) := by
  rw [Spells, decodeAll_encode (p := linePacket a.line) h, h']
  rfl

/-- The state after a sequence of events: the common objects are those first announced. -/
structure Tracks (odb : D) (mode : AckMode) (events : List NegotiationEvent)
    (n : Negotiator) : Prop where
  mode_eq : n.mode = mode
  common_eq : n.common = firstAnnounced odb events
  set_iff : ∀ x, x ∈ n.commonSet ↔ x ∈ n.common

theorem firstAnnounced_have {events : List NegotiationEvent} {oid : ObjectId}
    (h : contains odb oid = true) : firstAnnounced odb (events ++ [.have_ oid]) =
      if oid ∈ firstAnnounced odb events then firstAnnounced odb events
      else firstAnnounced odb events ++ [oid] := by
  have hone : ([NegotiationEvent.have_ oid].filterMap NegotiationEvent.oid).filter
      (contains odb) = [oid] := by
    simp [NegotiationEvent.oid, h]
  rw [firstAnnounced, List.filterMap_append, List.filter_append, List.eraseDups_append, hone,
    firstAnnounced]
  generalize (events.filterMap NegotiationEvent.oid).filter (contains odb) = ids
  by_cases hmem : oid ∈ ids
  · rw [if_pos (List.mem_eraseDups.mpr hmem)]
    rw [List.removeAll, List.filter_cons_of_neg (by simpa using hmem)]
    exact List.append_nil _
  · rw [if_neg fun h => hmem (List.mem_eraseDups.mp h)]
    rw [List.removeAll, List.filter_cons_of_pos (by simpa using hmem)]
    rfl

/-- Nothing else is announced, or is not there. -/
theorem firstAnnounced_other {events : List NegotiationEvent} {e : NegotiationEvent}
    (h : ∀ oid, e = .have_ oid → contains odb oid = false) :
    firstAnnounced odb (events ++ [e]) = firstAnnounced odb events := by
  have hnone : ([e].filterMap NegotiationEvent.oid).filter (contains odb) = [] := by
    cases e with
    | have_ oid => simp [NegotiationEvent.oid, h oid rfl]
    | flush => rfl
    | done => rfl
  rw [firstAnnounced, List.filterMap_append, List.filter_append, hnone, List.append_nil,
    firstAnnounced]

theorem mem_firstAnnounced {events : List NegotiationEvent} {oid : ObjectId} :
    oid ∈ firstAnnounced odb events ↔ NegotiationEvent.have_ oid ∈ events ∧
      contains odb oid = true := by
  rw [firstAnnounced, List.mem_eraseDups, List.mem_filter, List.mem_filterMap]
  refine and_congr_left fun _ => ⟨?_, fun h => ⟨_, h, rfl⟩⟩
  rintro ⟨e, he, hoid⟩
  cases e with
  | have_ o =>
      cases hoid
      exact he
  | flush => cases hoid
  | done => cases hoid

/-- A have is acknowledged if it is there, and recorded. -/
theorem have_tracks {events : List NegotiationEvent} {n n' : Negotiator}
    {oid : ObjectId} {out : Bytes} (ht : Tracks odb mode events n)
    (h : n.have_ odb oid = .ok (n', out)) :
    Tracks odb mode (events ++ [.have_ oid]) n' ∧ ∃ acks, Spells out acks ∧
      ∀ a ∈ acks, a.id = some oid ∧ contains odb oid = true ∧ ∀ o, a ≠ .ready o := by
  rw [Negotiator.have_] at h
  cases hc : contains odb oid with
  | false =>
      rw [hc] at h
      cases h
      refine ⟨⟨ht.mode_eq, ?_, ht.set_iff⟩, [], spells_nil, by simp⟩
      rw [firstAnnounced_other fun o ho => by cases ho; exact hc]
      exact ht.common_eq
  | true =>
      rw [hc] at h
      simp only [Bool.not_true, Bool.false_eq_true, if_false] at h
      have hmem : n.commonSet.contains oid = true ↔ oid ∈ firstAnnounced odb events := by
        rw [BTreeSet.contains_iff_mem, ht.set_iff, ht.common_eq]
      have htracks : Tracks odb mode (events ++ [.have_ oid])
          ⟨n.mode, if n.commonSet.contains oid then n.common else n.common ++ [oid],
            n.commonSet.insert oid, true, n.gotOther⟩ := by
        refine ⟨ht.mode_eq, ?_, fun x => ?_⟩
        · simp only [firstAnnounced_have hc, hmem, ht.common_eq]
        · simp only [BTreeSet.mem_insert, ht.set_iff]
          split
          · rename_i hin
            rw [hmem, ← ht.common_eq] at hin
            exact ⟨fun hx => hx.elim (fun he => he ▸ hin) id, Or.inr⟩
          · rw [List.mem_append, List.mem_singleton, or_comm]
      generalize (⟨n.mode, if n.commonSet.contains oid then n.common else n.common ++ [oid],
        n.commonSet.insert oid, true, n.gotOther⟩ : Negotiator) = m at h htracks
      cases hline : m.ackLine oid with
      | none =>
        rw [hline] at h
        cases h
        exact ⟨htracks, [], spells_nil, by simp⟩
      | some line =>
        rw [hline] at h
        obtain ⟨bs, hbs, heq⟩ := except_map_ok.mp h
        cases heq
        obtain ⟨a, ha, hid, hready⟩ : ∃ a : Ack, a.line = line ∧ a.id = some oid ∧
            ∀ o, a ≠ .ready o := by
          rw [Negotiator.ackLine] at hline
          split at hline
          · cases hline
            exact ⟨.common oid, rfl, rfl, by simp⟩
          · cases hline
            exact ⟨.continue_ oid, rfl, rfl, by simp⟩
          · split at hline
            · cases hline
              exact ⟨.final oid, rfl, rfl, by simp⟩
            · cases hline
        subst ha
        refine ⟨htracks, [a], spells_line hbs, fun b hb => ?_⟩
        rw [List.mem_singleton.mp hb]
        exact ⟨hid, rfl, hready⟩

/-- The line that says the server is ready is there only if it may give up. -/
theorem readyLine_spells {n : Negotiator} {out : Bytes} (h : n.readyLine odb wants = .ok out) :
    out = [] ∨ ∃ last, n.common.getLast? = some last ∧ encodeLine (Ack.ready last).line = .ok out ∧
      okToGiveUp odb wants n.commonSet = .ok true := by
  rw [Negotiator.readyLine] at h
  split at h
  · obtain ⟨ok, hok, h⟩ := except_bind_ok.mp h
    cases ok with
    | false =>
        cases h
        exact Or.inl rfl
    | true =>
        simp only [if_true] at h
        split at h
        · cases h
          exact Or.inl rfl
        · rename_i last hlast
          exact Or.inr ⟨last, hlast, h, hok⟩
  · cases h
    exact Or.inl rfl

/-- **A flush is answered with a NAK at most, and before it that the server is ready.** -/
theorem flush_tracks {events : List NegotiationEvent} {n n' : Negotiator} {out : Bytes}
    (ht : Tracks odb mode events n) (h : n.flush odb wants = .ok (n', out)) :
    Tracks odb mode (events ++ [.flush]) n' ∧ ∃ acks, Spells out acks ∧
      ∀ a ∈ acks, a = .nak ∨ ∃ last, a = .ready last ∧ last ∈ firstAnnounced odb events ∧
        WantsReach odb wants tagLimit (firstAnnounced odb events) := by
  obtain ⟨ready, hready, h⟩ := except_bind_ok.mp h
  obtain ⟨nak, hnak, hn'⟩ : ∃ nak acks, (Spells nak acks ∧ ∀ a ∈ acks, a = .nak) ∧
      (⟨{ n with gotCommon := false, gotOther := false }, ready ++ nak⟩ : Negotiator × Bytes) =
        (n', out) := by
    simp only at h
    split at h
    · obtain ⟨nak, hnak, h⟩ := except_bind_ok.mp h
      cases h
      exact ⟨nak, [.nak], ⟨spells_line (a := .nak) hnak, by simp⟩, rfl⟩
    · cases h
      exact ⟨[], [], ⟨spells_nil, by simp⟩, rfl⟩
  obtain ⟨⟨hspells, hall⟩, heq⟩ := hn'
  cases heq
  refine ⟨⟨ht.mode_eq, ?_, ht.set_iff⟩, ?_⟩
  · rw [firstAnnounced_other (by simp)]
    exact ht.common_eq
  rcases readyLine_spells hready with rfl | ⟨last, hlast, hline, hok⟩
  · exact ⟨_, hspells, fun a ha => Or.inl (hall a ha)⟩
  · refine ⟨_, spells_append hline hspells, fun a ha => ?_⟩
    rcases List.mem_cons.mp ha with rfl | ha
    · rw [ht.common_eq] at hlast
      refine Or.inr ⟨last, rfl, List.mem_of_getLast? hlast, fun w hw k c hk hchain => ?_⟩
      obtain ⟨x, hx, hpath⟩ := okToGiveUp_sound hok w hw k c hk hchain
      exact ⟨x, ht.common_eq ▸ (ht.set_iff x).mp hx, hpath⟩
    · exact Or.inl (hall a ha)

/-- **Done is answered with the last common object, or with a NAK if there is none.** -/
theorem done_spells {events : List NegotiationEvent} {n : Negotiator} {out : Bytes}
    (ht : Tracks odb mode events n) (h : n.done = .ok out) :
    Spells out (match (firstAnnounced odb events).getLast? with
      | none => [.nak]
      | some last => if mode = .single then [] else [.final last]) := by
  rw [Negotiator.done, ht.common_eq] at h
  cases hlast : (firstAnnounced odb events).getLast? with
  | none =>
      rw [hlast] at h
      exact spells_line (a := .nak) h
  | some last =>
      rw [hlast, ht.mode_eq] at h
      by_cases hm : mode = .single
      · simp only [hm, ne_eq, not_true, if_false] at h
        cases h
        simp only [hm, if_true]
        exact spells_nil
      · simp only [ne_eq, hm, not_false_iff, if_true] at h
        simp only [hm, if_false]
        exact spells_line (a := .final last) h

/-- **What one event is answered with.** -/
theorem step_answers {events : List NegotiationEvent} {n n' : Negotiator}
    {e : NegotiationEvent} {out : Bytes} (ht : Tracks odb mode events n)
    (h : n.step odb wants e = .ok (n', out)) :
    Tracks odb mode (events ++ [e]) n' ∧
      ∃ acks, Spells out acks ∧ AnswersEvent odb wants mode tagLimit events e acks := by
  cases e with
  | have_ oid =>
      obtain ⟨ht', acks, hspells, hacks⟩ := have_tracks ht h
      refine ⟨ht', acks, hspells, fun a ha o ho => ?_, fun o ho => ?_, fun hd => (by cases hd)⟩
      · obtain ⟨hid, hc, -⟩ := hacks a ha
        rw [hid] at ho
        cases ho
        exact ⟨by simp, hc⟩
      · exact absurd rfl ((hacks _ ho).2.2 o)
  | flush =>
      obtain ⟨ht', acks, hspells, hacks⟩ := flush_tracks ht h
      refine ⟨ht', acks, hspells, fun a ha o ho => ?_, fun o ho => ?_, fun hd => (by cases hd)⟩
      · rcases hacks a ha with rfl | ⟨last, rfl, hlast, -⟩
        · cases ho
        · cases ho
          obtain ⟨hmem, hc⟩ := mem_firstAnnounced.mp hlast
          exact ⟨List.mem_append_left _ hmem, hc⟩
      · rcases hacks _ ho with hnak | ⟨last, -, -, hreach⟩
        · cases hnak
        · exact hreach
  | done =>
      obtain ⟨bs, hbs, heq⟩ := except_map_ok.mp h
      cases heq
      have hspells := done_spells ht hbs
      refine ⟨⟨ht.mode_eq, ?_, ht.set_iff⟩, _, hspells, fun a ha o ho => ?_, fun o ho =>
        ?_, fun _ => rfl⟩
      · rw [firstAnnounced_other (by simp)]
        exact ht.common_eq
      · split at ha
        · rw [List.mem_singleton.mp ha] at ho
          cases ho
        · rename_i last hlast
          split at ha
          · cases ha
          · rw [List.mem_singleton.mp ha] at ho
            cases ho
            obtain ⟨hmem, hc⟩ := mem_firstAnnounced.mp (List.mem_of_getLast? hlast)
            exact ⟨List.mem_append_left _ hmem, hc⟩
      · split at ho
        · simp at ho
        · split at ho <;> simp at ho

/-! ## A whole negotiation -/

theorem Negotiated.tracks {events : List NegotiationEvent} {n : Negotiator}
    (h : Negotiated odb wants mode events n) : Tracks odb mode events n := by
  induction h with
  | nil => exact ⟨rfl, rfl, fun x => by simp [Negotiator.new, BTreeSet.not_mem_empty]⟩
  | snoc _ hstep ih => exact (step_answers ih hstep).1

/-- **After any events the common objects are the announced ones that are there, in the order
first announced, and the next event is answered as `AnswersEvent` says.** -/
theorem negotiation_answers {events : List NegotiationEvent} {n : Negotiator}
    (h : Negotiated odb wants mode events n) :
    n.common = firstAnnounced odb events ∧ ∀ e n' out, n.step odb wants e = .ok (n', out) →
      ∃ acks, Spells out acks ∧ AnswersEvent odb wants mode tagLimit events e acks :=
  ⟨h.tracks.common_eq, fun _ _ _ hstep => (step_answers h.tracks hstep).2⟩

/-! ## A want behind too many tags -/

/-- No other line reads like one that says the server is ready. -/
theorem Ack.ready_of_line {a : Ack} {oid : ObjectId} (h : a.line = (Ack.ready oid).line) :
    ∃ o, a = .ready o := by
  -- the last letter but one is that of the last word
  have hletter : a.line.reverse[1]? = some 'y' := by
    rw [h, Ack.line, List.reverse_append]
    rfl
  cases a with
  | ready o => exact ⟨o, rfl⟩
  | common o =>
      rw [Ack.line, List.reverse_append] at hletter
      cases hletter
  | continue_ o =>
      rw [Ack.line, List.reverse_append] at hletter
      cases hletter
  | nak => cases hletter
  | final o =>
      rw [Ack.line, List.reverse_append, List.reverse_append] at hletter
      have hmem : 'y' ∈ o.toHex.reverse ++ (str "ACK ").reverse :=
        List.mem_of_getElem? (i := 0) hletter
      rcases List.mem_append.mp hmem with hhex | hword
      · exact absurd (ObjectId.mem_toHex (List.mem_reverse.mp hhex)) (by decide)
      · exact absurd hword (by decide)

namespace AcksSample

/-- The ids of the samples. -/
def idOf (i : Nat) : ObjectId := ⟨.sha1, UInt8.ofNat i :: List.replicate 19 0, rfl⟩

/-- The time and the name of the commit. -/
def someone : Signature := ⟨bytes "A", bytes "a@b", 0, bytes "+0000"⟩

/-- A tag of the next id. -/
def tagAt (i : Nat) : Tag := ⟨idOf (i + 1), .tag, bytes "t", none, []⟩

/-- A commit without parents. -/
def root : Commit := ⟨idOf 70, [], someone, someone, [], []⟩

/-- The objects: a blob, a commit, and 64 tags that lead to it. -/
def objects : List (ObjectId × ObjectType × Bytes) :=
  (idOf 65, .blob, []) :: (idOf 64, .commit, root.serialize) ::
    (List.range 64).map fun i => (idOf i, .tag, (tagAt i).serialize)

def store : MemoryOdb := ⟨Hasher.sha, .sha1, BTreeMap.ofList objects⟩

theorem read_store {id : ObjectId} {ty : ObjectType} {payload : Bytes}
    (h : (id, ty, payload) ∈ objects) :
    read store id = .ok (ty, payload) := by
  have hnodup : (objects.map Prod.fst).Nodup := by decide
  exact MemoryOdb.read_of_some ((BTreeMap.get?_ofList hnodup).mpr h)

theorem read_root : read store (idOf 64) = .ok (.commit, root.serialize) :=
  read_store (by simp [objects])

theorem graph_tagAt {i : Nat} (hi : i < 64) : graph store (idOf i) = some (.tag (tagAt i)) := by
  have hmem : (idOf i, ObjectType.tag, (tagAt i).serialize) ∈ objects := List.mem_cons_of_mem _
    (List.mem_cons_of_mem _ (List.mem_map.mpr ⟨i, List.mem_range.mpr hi, rfl⟩))
  have hparse : Tag.parse .sha1 (tagAt i).serialize = .ok (tagAt i) :=
    Tag.parse_serialize_canonical ⟨rfl, (by decide : 10 ∉ bytes "t"), by simp [tagAt]⟩
  refine graph_eq_some.mpr ⟨.tag, _, read_store hmem, ?_⟩
  rw [Object.parse]
  exact except_map_ok.mpr ⟨_, hparse, rfl⟩

/-- The first tag leads to the commit, through all the others. -/
theorem chain : TagChain store 64 (idOf 0) (idOf 64) := by
  have hall : ∀ k ≤ 64, TagChain store k (idOf (64 - k)) (idOf 64) := by
    intro k hk
    induction k with
    | zero =>
        show TagChain store 0 (idOf 64) (idOf 64)
        exact .commit read_root
    | succ k ih =>
        refine .tag ⟨tagAt _, graph_tagAt (by omega), rfl⟩ ?_
        have hnext : (tagAt (64 - (k + 1))).object = idOf (64 - k) := congrArg idOf (by omega)
        rw [hnext]
        exact ih (by omega)
  exact hall 64 le_rfl

theorem graph_root : graph store (idOf 64) = some (.commit root) := by
  have hsomeone : someone.WellFormed := ⟨by decide, by decide, by decide, by decide, by decide⟩
  have hparse : Commit.parse .sha1 root.serialize = .ok root :=
    Commit.parse_serialize_wellFormed ⟨rfl, by decide, hsomeone, hsomeone, [], rfl, by simp⟩
  refine graph_eq_some.mpr ⟨.commit, _, read_root, ?_⟩
  rw [Object.parse]
  exact except_map_ok.mpr ⟨_, hparse, rfl⟩

/-- The blob is announced. -/
def announced : Negotiator := ⟨.detailed, [idOf 65], BTreeSet.empty.insert (idOf 65), true, false⟩

theorem contains_blob : contains store (idOf 65) = true :=
  BTreeMap.contains_iff.mpr (BTreeMap.exists_get?_ofList (l := objects) (v := (.blob, []))
    (by simp [objects]))

theorem have_blob : ∃ out, (Negotiator.new .detailed).step store [idOf 0] (.have_ (idOf 65)) =
    .ok (announced, out) := by
  obtain ⟨out, hout⟩ : ∃ out, encodeLine (Ack.common (idOf 65)).line = .ok out := ⟨_, rfl⟩
  refine ⟨out, ?_⟩
  rw [Negotiator.step, Negotiator.have_, if_neg (by rw [contains_blob]; decide)]
  have hstate : ({ Negotiator.new .detailed with
      gotCommon := true
      common := if (Negotiator.new .detailed).commonSet.contains (idOf 65) then [] else [idOf 65]
      commonSet := (Negotiator.new .detailed).commonSet.insert (idOf 65) } : Negotiator) =
        announced := rfl
  exact except_map_ok.mpr ⟨out, hout, congrArg (·, out) hstate⟩

theorem negotiated_blob : Negotiated store [idOf 0] .detailed [.have_ (idOf 65)] announced :=
  .snoc .nil have_blob.choose_spec

/-- The server then says that it is ready. -/
theorem flush_ready : ∃ n' out, announced.step store [idOf 0] .flush = .ok (n', out) ∧
    Spells out [.ready (idOf 65), .nak] := by
  obtain ⟨ready, hready⟩ : ∃ out, encodeLine (Ack.ready (idOf 65)).line = .ok out := ⟨_, rfl⟩
  obtain ⟨nak, hnak⟩ : ∃ out, encodeLine Ack.nak.line = .ok out := ⟨_, rfl⟩
  have hok : okToGiveUp store [idOf 0] announced.commonSet = .ok true := by
    have hpeel : peelToCommit store tagLimit (idOf 0) = .ok none :=
      peelToCommit_of_long_chain chain le_rfl
    rw [okToGiveUp, allReach, hpeel]
    rfl
  have hline : announced.readyLine store [idOf 0] = .ok ready := by
    rw [Negotiator.readyLine, if_pos (by rfl), hok]
    exact except_bind_ok.mpr ⟨true, rfl, hready⟩
  refine ⟨{ announced with gotCommon := false, gotOther := false }, ready ++ nak, ?_,
    spells_append hready (spells_line hnak)⟩
  rw [Negotiator.step, Negotiator.flush, hline]
  exact except_bind_ok.mpr ⟨ready, rfl, except_bind_ok.mpr ⟨nak, hnak, rfl⟩⟩

/-- **A want behind 64 tags is not counted**: the server says that it is ready with nothing in
common that the wanted commit leads to. -/
theorem not_wants_reach : ¬ ∀ (odb : MemoryOdb) (wants : List ObjectId) (mode : AckMode)
    (events : List NegotiationEvent) (n : Negotiator), Negotiated odb wants mode events n →
      ∀ e n' out, n.step odb wants e = .ok (n', out) →
        ∃ acks, Spells out acks ∧ ∀ limit, AnswersEvent odb wants mode limit events e acks := by
  intro h
  obtain ⟨n', out, hstep, hready⟩ := flush_ready
  obtain ⟨acks, hspells, hanswers⟩ :=
    h store [idOf 0] .detailed _ announced negotiated_blob .flush n' out hstep
  rw [Spells, hspells] at hready
  obtain ⟨a, rest, rfl, ha, -⟩ := List.map_eq_cons_iff.mp (Except.ok.inj hready)
  obtain ⟨o, rfl⟩ := Ack.ready_of_line (toUtf8_injective (PktLine.Packet.data.inj ha))
  obtain ⟨x, hx, hpath⟩ := (hanswers 65).ready o List.mem_cons_self (idOf 0) List.mem_cons_self 64
    (idOf 64) (by decide) chain
  obtain ⟨hhave, -⟩ := mem_firstAnnounced.mp hx
  obtain rfl : x = idOf 65 := by simpa using hhave
  obtain heq | ⟨y, ⟨c, hc, hy⟩, -⟩ := hpath.cases_head
  · exact absurd heq (by decide)
  · rw [graph_root] at hc
    cases hc
    cases hy

open FetchSample in
/-- The state after some announcements, and the answer to the flush behind them. -/
def flushed (events : List NegotiationEvent) : Except Error (Negotiator × Bytes) := do
  let n ← events.foldlM (fun n e => (n.step chainStore [newest, mark] e).map Prod.fst)
    (Negotiator.new .detailed)
  let (_, out) ← n.step chainStore [newest, mark] .flush
  .ok (n, out)

/-- What is folded over events is negotiated. -/
theorem negotiated_foldlM {events : List NegotiationEvent} {n : Negotiator}
    (h : events.foldlM (fun n e => (n.step odb wants e).map Prod.fst)
      (Negotiator.new mode) = .ok n) :
    Negotiated odb wants mode events n := by
  induction events using List.reverseRecOn generalizing n with
  | nil =>
      cases h
      exact .nil
  | append_singleton events e ih =>
      rw [List.foldlM_append] at h
      obtain ⟨n₁, hn₁, hstep⟩ := except_bind_ok.mp h
      rw [List.foldlM_cons] at hstep
      obtain ⟨n₂, hn₂, hpure⟩ := except_bind_ok.mp hstep
      cases hpure
      obtain ⟨⟨_, out⟩, hout, rfl⟩ := except_map_ok.mp hn₂
      exact .snoc (ih hn₁) hout

open FetchSample in
/-- After an id that the server does not have it is not ready, and after the root of the chain it
is. -/
theorem flushed_chain :
    (flushed [.have_ recent, .flush, .have_ first]).map (fun r => decodeAll r.2) =
      .ok (.ok ([Ack.ready first, .nak].map fun a => linePacket a.line)) := by
  decide +kernel

open FetchSample in
/-- When the server says that it is ready, the two wants lead to the announced commit. -/
theorem negotiation_chain : ∃ n n' out,
    Negotiated chainStore [newest, mark] .detailed [.have_ recent, .flush, .have_ first] n ∧
    n.step chainStore [newest, mark] .flush = .ok (n', out) ∧ Spells out [.ready first, .nak] ∧
    n.common = firstAnnounced chainStore [.have_ recent, .flush, .have_ first] ∧
    ∃ acks, Spells out acks ∧ AnswersEvent chainStore [newest, mark] .detailed tagLimit
      [.have_ recent, .flush, .have_ first] .flush acks := by
  obtain ⟨⟨n, out⟩, hrun, hspells⟩ := except_map_ok.mp flushed_chain
  obtain ⟨n₁, hn₁, hrun⟩ := except_bind_ok.mp hrun
  obtain ⟨⟨n', out'⟩, hflush, hpair⟩ := except_bind_ok.mp hrun
  cases hpair
  have hnegotiated := negotiated_foldlM hn₁
  obtain ⟨hcommon, hanswers⟩ := negotiation_answers hnegotiated
  exact ⟨n, n', out, hnegotiated, hflush, hspells, hcommon, hanswers .flush n' out hflush⟩

end AcksSample

end Puregit.Server
